import Papper.Queue.Spsc

/-!
# What a step of the queue leaves alone

The producer's steps do not concern the consumer, and the other way round.  For each call
there is one lemma that says where it leaves its own side, `Produces` and `Consumes` being
what it does to the other.

## Main definitions

* `Produces`, `Consumes` — what the steps of one side leave alone.
-/

namespace Papper.Queue

/-- A step of the producer. -/
structure Produces (s s' : Machine) : Prop where
  consumer : s'.consumer = s.consumer
  read : s'.read = s.read
  r : s'.q.r = s.q.r
  cachedW : s'.q.cachedW = s.q.cachedW
  seenW : s'.q.atomicW.seen = s.q.atomicW.seen

/-- A step of the consumer. -/
structure Consumes (s s' : Machine) : Prop where
  producer : s'.producer = s.producer
  committed : s'.committed = s.committed
  w : s'.q.w = s.q.w

section
variable {s s' : Machine} {m : Message}

theorem reserveWrite_cases (h : step s (.reserveWrite m) = some s') :
    Produces s s' ∧ s'.committed = s.committed ∧
      (s'.producer = .reload m ∨ ∃ res, s'.producer = .filling m res 0) := by
  simp only [step] at h
  split at h
  · split at h
    · cases h
      exact ⟨⟨rfl, rfl, rfl, rfl, rfl⟩, rfl, Or.inl rfl⟩
    · cases h
      exact ⟨⟨rfl, rfl, rfl, rfl, rfl⟩, rfl, Or.inr ⟨_, rfl⟩⟩
  · cases h

theorem loadR_cases {i : ℕ} (hs : s.producer = .reload m) (h : step s (.loadR i) = some s') :
    Produces s s' ∧ s'.committed = s.committed ∧
      (s'.producer = .idle ∨ ∃ res, s'.producer = .filling m res 0) := by
  simp only [step, hs] at h
  obtain ⟨q, hq, rfl⟩ := Option.map_eq_some_iff.mp h
  simp only [loadR, Option.map_eq_some_iff, Prod.exists] at hq
  obtain ⟨v, a, -, rfl⟩ := hq
  split
  · exact ⟨⟨rfl, rfl, rfl, rfl, rfl⟩, rfl, Or.inl rfl⟩
  · exact ⟨⟨rfl, rfl, rfl, rfl, rfl⟩, rfl, Or.inr ⟨_, rfl⟩⟩

theorem writeByte_cases {res : WriteReservation} {k : ℕ} (hs : s.producer = .filling m res k)
    (h : step s .writeByte = some s') :
    Produces s s' ∧ s'.committed = s.committed ∧ s'.producer = .filling m res (k + 1) := by
  simp only [step, hs] at h
  obtain ⟨b, -, rfl⟩ := Option.map_eq_some_iff.mp h
  exact ⟨⟨rfl, rfl, rfl, rfl, rfl⟩, rfl, rfl⟩

theorem commitWrite_cases {res : WriteReservation} {k : ℕ} (hs : s.producer = .filling m res k)
    (h : step s .commitWrite = some s') :
    Produces s s' ∧ s'.committed = s.committed ++ [m] ∧ s'.producer = .idle := by
  simp only [step, hs] at h
  split at h
  · cases h
    exact ⟨⟨rfl, rfl, rfl, rfl, rfl⟩, rfl, rfl⟩
  · cases h

theorem reserveRead_cases (h : step s .reserveRead = some s') :
    Consumes s s' ∧ s'.read = s.read ∧
      (s'.consumer = .reload ∨ ∃ res, s'.consumer = .reading res []) := by
  simp only [step] at h
  split at h
  · split at h
    · cases h
      exact ⟨⟨rfl, rfl, rfl⟩, rfl, Or.inl rfl⟩
    · cases h
      exact ⟨⟨rfl, rfl, rfl⟩, rfl, Or.inr ⟨_, rfl⟩⟩
  · cases h

/-- A reload that finds the queue empty has loaded the read position. -/
theorem loadW_cases {i : ℕ} (h : step s (.loadW i) = some s') :
    Consumes s s' ∧ s'.read = s.read ∧ s'.q.atomicW.seen = i ∧
      ((s'.consumer = .idle ∧ s'.q.cachedW = s'.q.r) ∨ ∃ res, s'.consumer = .reading res []) := by
  simp only [step] at h
  split at h
  · obtain ⟨q, hq, rfl⟩ := Option.map_eq_some_iff.mp h
    simp only [loadW, Option.map_eq_some_iff, Prod.exists] at hq
    obtain ⟨v, a, hload, rfl⟩ := hq
    obtain ⟨-, -, rfl⟩ := Atomic.load?_eq_some.mp hload
    split
    · rename_i heq
      exact ⟨⟨rfl, rfl, rfl⟩, rfl, rfl, Or.inl ⟨rfl, heq⟩⟩
    · exact ⟨⟨rfl, rfl, rfl⟩, rfl, rfl, Or.inr ⟨_, rfl⟩⟩
  · cases h

theorem commitRead_cases {n : ℕ} {res : ReadReservation} {got : List Byte}
    (hs : s.consumer = .reading res got) (h : step s (.commitRead n) = some s') :
    Consumes s s' ∧ s'.read = s.read ++ [got] ∧ s'.consumer = .idle := by
  simp only [step, hs, Option.some.injEq] at h
  subst s'
  exact ⟨⟨rfl, rfl, rfl⟩, rfl, rfl⟩

/-- Bytes are read one after another. -/
theorem exec_readByte {res : ReadReservation} (hs : s.consumer = .reading res []) (n : ℕ) :
    Transition.exec step s (List.replicate n .readByte)
      = some { s with consumer := .reading res (Memory.readBytes s.q.buffer res.buffer n) } := by
  induction n with
  | zero =>
      simp only [List.replicate_zero, Transition.exec_nil, Memory.readBytes, List.range_zero,
        List.map_nil, ← hs]
  | succ n ih =>
      rw [List.replicate_succ', Transition.exec_append, ih]
      simp [step, Memory.readBytes, List.range_succ]

end

/-! ## What the two sides can tell -/

/-- The last position stored. -/
theorem load?_latest {ms : List Message} {x : Atomic UInt64} {n : ℕ} (hstores : x.stores = words ms n)
    (hseen : x.seen ≤ n) :
    x.load? x.latest = some (UInt64.ofNat (pos ms n), { x with seen := n }) := by
  have hlatest : x.latest = n := by simp [Atomic.latest, hstores, words]
  rw [hlatest, Atomic.load?_eq_some, hstores]
  refine ⟨hseen, ?_, rfl⟩
  simp [words]

namespace Inv
variable {k : ℕ} {s s' : Machine}

/-- A consumer at its reload can load the last position stored. -/
theorem loadW_enabled (h : Inv k s) (hs : s.consumer = .reload) :
    ∃ s', Queue.step s (.loadW s.q.atomicW.latest) = some s' := by
  have hload := load?_latest h.storesW h.seenW_le
  simp only [Queue.step, hs, Queue.loadW, hload]
  exact ⟨_, rfl⟩

/-- The two local positions are equal exactly when nothing is unread. -/
theorem w_eq_r_iff (h : Inv k s) : s.q.w = s.q.r ↔ s.committed.length = s.read.length := by
  rw [h.w_eq, h.r_eq, h.ofNat_pos_eq_iff (h.read_le.trans h.seenW_le) le_rfl]

/-- A consumer that has loaded the last position stored, and found the queue empty, has
read everything. -/
theorem read_of_loadW_latest (h : Inv k s)
    (hs : Queue.step s (.loadW s.q.atomicW.latest) = some s')
    (hidle : s'.consumer = .idle) : s'.committed.length = s'.read.length ∧ s'.q.cachedW = s'.q.r := by
  have h' : Inv k s' := h.loadW hs
  obtain ⟨hconsumes, hread, hseen, hcases⟩ := loadW_cases hs
  rcases hcases with ⟨-, hempty⟩ | ⟨res, hreading⟩
  · refine ⟨?_, hempty⟩
    have hseen' := h'.cachedW_eq_r_iff.mp hempty
    have hlatest : s.q.atomicW.latest = s.committed.length := by
      simp [Atomic.latest, h.storesW, words]
    rw [hconsumes.committed, ← hlatest, ← hseen, hseen']
  · rw [hidle] at hreading
    cases hreading

/-- Where the consumer has been given a buffer, the next message lies. -/
theorem front (h : Inv k s) {res : ReadReservation} {got : List Byte}
    (hs : s.consumer = .reading res got) :
    ∃ m, s.committed[s.read.length]? = some m ∧ Memory.Holds s.q.buffer res.buffer m.bytes := by
  have hreading := h.consumer
  rw [hs] at hreading
  have hlt : s.read.length < s.committed.length := hreading.front.trans_le h.seenW_le
  have hm := List.getElem?_eq_getElem hlt
  refine ⟨_, hm, ?_⟩
  rw [hreading.buffer_eq]
  exact h.stored _ _ le_rfl hm

/-- The bytes read one after another. -/
theorem readBytes (h : Inv k s) {res : ReadReservation} (hs : s.consumer = .reading res []) (n : ℕ) :
    Inv k { s with consumer := .reading res (Memory.readBytes s.q.buffer res.buffer n) } := by
  exact Transition.exec_induction_along (Inv k) (fun _ _ _ hinv hc hstep => hinv.step hc hstep) h
    (.replicate (fun _ => trivial) n s) (exec_readByte hs n)

end Inv

end Papper.Queue
