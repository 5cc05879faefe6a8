import Papper.Lib.BoundedFifo
import Papper.Queue.Frame

/-!
# The queue in one thread

When nobody else is at work a call of the queue runs to its end, and its reload of the other
side's position, where it needs one, returns the last position stored.  The methods of this
module are those of the class, each in one go, and a `Session` is a queue in the hands of a
caller that reserves, fills, commits and reads as it likes.

`answers_eq` says that such a caller cannot tell the queue from a bounded FIFO of messages:
the cached positions decide a call without a reload only when the reload would not change
the answer, also where the counters have wrapped.

## Main definitions

* `Queue.reserveWrite`, `Queue.isEmpty`, `Queue.reserveRead` — the methods.
* `Session`, `Session.step` — the queue and what its caller holds.
* `Related` — the queue holds the messages of a FIFO.
* `answers_eq` — the queue answers as the FIFO does.
-/

namespace Papper.Queue

open Transition Memory BoundedFifo

/-! ## The methods -/

/-- The reload of `_cached_r`. -/
def reloadR (q : Queue) : Queue := (q.loadR q.atomicR.latest).getD q

/-- The reload of `_cached_w`. -/
def reloadW (q : Queue) : Queue := (q.loadW q.atomicW.latest).getD q

def reserveWrite (q : Queue) (size : UInt64) : Option WriteReservation × Queue :=
  if q.freeSpace < size then
    -- not enough space, reload cached r and try again
    if q.reloadR.freeSpace < size then (none, q.reloadR)
    else (some (q.reloadR.writeReservation size), q.reloadR)
  else (some (q.writeReservation size), q)

def isEmpty (q : Queue) : Bool × Queue :=
  if q.cachedW ≤ q.r then
    -- reload cached w to really make sure it's empty
    (q.reloadW.cachedW = q.reloadW.r, q.reloadW)
  else (false, q)

def reserveRead (q : Queue) : Option ReadReservation × Queue :=
  (if q.isEmpty.1 then none else some q.isEmpty.2.readReservation, q.isEmpty.2)

/-- Bytes through a pointer into the buffer. -/
def writeBytes (q : Queue) (offset : ℕ) (bs : List Byte) : Queue :=
  { q with buffer := Memory.writeBytes q.buffer offset bs }

/-! ## The caller -/

/-- A queue, and the reservations its caller holds: of the writes the last one that was
granted, with its size. -/
structure Session where
  q : Queue
  writing : Option (UInt64 × WriteReservation)
  reading : Option ReadReservation

namespace Session

def new (capacity : ℕ) : Session := ⟨Queue.new capacity, none, none⟩

/-- A call. -/
def step (s : Session) : Call (List Byte) → Option (Answer (List Byte) × Session)
  | .reserveWrite size =>
      match (s.q.reserveWrite size).1 with
      | some res =>
          some (.yes, { s with q := (s.q.reserveWrite size).2, writing := some (size, res) })
      | none => some (.no, { s with q := (s.q.reserveWrite size).2 })
  | .fill bs =>
      match s.writing with
      | some (size, res) =>
          if bs.length ≤ size.toNat then
            some (.done, { s with q := s.q.writeBytes res.buffer bs })
          else none
      | none => none
  | .commitWrite bs =>
      match s.writing with
      | some (size, res) =>
          if bs.length = size.toNat then
            some (.done,
              { s with
                q := (s.q.writeBytes res.buffer bs).commitWrite res.newWritePos
                writing := none })
          else none
      | none => none
  | .isEmpty => some (.of (s.q.isEmpty.1 = true), { s with q := s.q.isEmpty.2 })
  | .reserveRead =>
      some (.of (s.q.reserveRead.1.isSome = true),
        { s with q := s.q.reserveRead.2, reading := s.q.reserveRead.1 })
  | .read n => s.reading.map fun res => (.message (readBytes s.q.buffer res.buffer n), s)
  | .commitRead n =>
      s.reading.map fun res =>
        (.done, { s with
          q := s.q.commitRead (res.currentReadPos + UInt64.ofNat n)
          reading := none })

end Session

/-! ## What the methods do -/

/-- The queue between two calls, when these messages were committed and these read. -/
def machine (q : Queue) (ms : List Message) (read : List (List Byte)) : Machine :=
  ⟨q, .idle, .idle, ms, read⟩

section Methods
variable {k : ℕ} {q : Queue} {ms : List Message} {read : List (List Byte)}

theorem loadR_latest (h : Inv k (q.machine ms read)) :
    q.loadR q.atomicR.latest = some
      { q with
        cachedR := UInt64.ofNat (pos ms read.length)
        atomicR := { q.atomicR with seen := read.length } } := by
  have hload := load?_latest (x := q.atomicR) h.storesR h.seenR_le
  rw [loadR, hload]
  rfl

theorem loadW_latest (h : Inv k (q.machine ms read)) :
    q.loadW q.atomicW.latest = some
      { q with
        cachedW := UInt64.ofNat (pos ms ms.length)
        atomicW := { q.atomicW with seen := ms.length } } := by
  have hload := load?_latest (x := q.atomicW) h.storesW h.seenW_le
  rw [loadW, hload]
  rfl

theorem reloadR_eq (h : Inv k (q.machine ms read)) :
    q.reloadR =
      { q with
        cachedR := UInt64.ofNat (pos ms read.length)
        atomicR := { q.atomicR with seen := read.length } } := by
  rw [reloadR, loadR_latest h, Option.getD_some]

theorem reloadW_eq (h : Inv k (q.machine ms read)) :
    q.reloadW =
      { q with
        cachedW := UInt64.ofNat (pos ms ms.length)
        atomicW := { q.atomicW with seen := ms.length } } := by
  rw [reloadW, loadW_latest h, Option.getD_some]

theorem inv_reloadR (h : Inv k (q.machine ms read)) : Inv k (q.reloadR.machine ms read) := by
  rw [reloadR_eq h]
  exact h.reloadR (loadR_latest h)

theorem inv_reloadW (h : Inv k (q.machine ms read)) : Inv k (q.reloadW.machine ms read) := by
  rw [reloadW_eq h]
  exact h.reloadW (loadW_latest h)

/-- What a call of one side leaves alone of what the other side has in hand. -/
structure Keeps (q q' : Queue) : Prop where
  capacity : q'.capacity = q.capacity
  w : q'.w = q.w
  r : q'.r = q.r
  seenW : q.atomicW.seen ≤ q'.atomicW.seen
  freeSpace : q.freeSpace ≤ q'.freeSpace

theorem Keeps.writeReservation {q q' : Queue} (h : Keeps q q') (size : UInt64) :
    q'.writeReservation size = q.writeReservation size := by
  simp only [Queue.writeReservation, wrapMask, h.w, h.capacity]

theorem Keeps.readReservation {q q' : Queue} (h : Keeps q q') :
    q'.readReservation = q.readReservation := by
  simp only [Queue.readReservation, wrapMask, h.r, h.capacity]

theorem Keeps.refl (q : Queue) : Keeps q q := by
  constructor
  · rfl
  · rfl
  · rfl
  · exact Nat.le_refl _
  · exact UInt64.le_refl _

theorem keeps_reloadR (h : Inv k (q.machine ms read)) : Keeps q q.reloadR := by
  have hspace : q.freeSpace ≤ q.reloadR.freeSpace := by
    have hold := h.toNat_freeSpace
    have hnew := (inv_reloadR h).toNat_freeSpace
    simp only [reloadR_eq h, machine] at hold hnew ⊢
    have hle : pos ms q.atomicR.seen ≤ pos ms read.length := pos_le_pos h.seenR_le
    rw [UInt64.le_iff_toNat_le, hold, hnew]
    omega
  constructor
  · rw [reloadR_eq h]
  · rw [reloadR_eq h]
  · rw [reloadR_eq h]
  · rw [reloadR_eq h]
  · exact hspace

theorem keeps_reloadW (h : Inv k (q.machine ms read)) : Keeps q q.reloadW := by
  rw [reloadW_eq h]
  constructor
  · rfl
  · rfl
  · rfl
  · exact h.seenW_le
  · exact UInt64.le_refl _

/-- The bytes committed and not yet read. -/
def unread (ms : List Message) (read : List (List Byte)) : ℕ :=
  pos ms ms.length - pos ms read.length

/-- **`reserve_write` grants exactly what is free.** -/
theorem reserveWrite_spec (h : Inv k (q.machine ms read)) (size : UInt64) :
    Inv k ((q.reserveWrite size).2.machine ms read) ∧ Keeps q (q.reserveWrite size).2 ∧
      ((size.toNat ≤ 2 ^ k - unread ms read ∧
          (q.reserveWrite size).1 = some ((q.reserveWrite size).2.writeReservation size) ∧
          ¬ (q.reserveWrite size).2.freeSpace < size) ∨
        (¬ size.toNat ≤ 2 ^ k - unread ms read ∧ (q.reserveWrite size).1 = none)) := by
  have hunread : pos ms read.length ≤ pos ms ms.length :=
    pos_le_pos (h.read_le.trans h.seenW_le)
  have hreload : q.reloadR.freeSpace < size ↔ ¬ size.toNat ≤ 2 ^ k - unread ms read := by
    have hspace := (inv_reloadR h).toNat_freeSpace
    simp only [reloadR_eq h, machine] at hspace ⊢
    rw [UInt64.lt_iff_toNat_lt, hspace, unread]
    omega
  by_cases hfast : q.freeSpace < size
  · by_cases hslow : q.reloadR.freeSpace < size
    · simp only [reserveWrite, if_pos hfast, if_pos hslow]
      exact ⟨inv_reloadR h, keeps_reloadR h, .inr ⟨hreload.mp hslow, trivial⟩⟩
    · simp only [reserveWrite, if_pos hfast, if_neg hslow]
      refine ⟨inv_reloadR h, keeps_reloadR h, .inl ⟨?_, trivial, hslow⟩⟩
      exact Decidable.not_not.mp fun hno => hslow (hreload.mpr hno)
  · simp only [reserveWrite, if_neg hfast]
    refine ⟨h, .refl q, .inl ⟨?_, trivial, hfast⟩⟩
    -- the reload could only have found more room
    apply Decidable.not_not.mp
    intro hno
    have hlt := hreload.mpr hno
    have hle := (keeps_reloadR h).freeSpace
    rw [UInt64.lt_iff_toNat_lt] at hlt hfast
    rw [UInt64.le_iff_toNat_le] at hle
    omega

/-- **`is_empty` is exact.** -/
theorem isEmpty_spec (h : Inv k (q.machine ms read)) :
    Inv k (q.isEmpty.2.machine ms read) ∧ Keeps q q.isEmpty.2 ∧
      ((read.length = ms.length ∧ q.isEmpty.1 = true) ∨
        (read.length < q.isEmpty.2.atomicW.seen ∧ q.isEmpty.1 = false)) := by
  have hread : read.length ≤ q.atomicW.seen := h.read_le
  by_cases hfast : q.cachedW ≤ q.r
  · have hinv := inv_reloadW h
    have hiff : q.reloadW.cachedW = q.reloadW.r ↔ q.reloadW.atomicW.seen = read.length :=
      hinv.cachedW_eq_r_iff
    have hseen : q.reloadW.atomicW.seen = ms.length := by rw [reloadW_eq h]
    simp only [isEmpty, if_pos hfast]
    refine ⟨hinv, keeps_reloadW h, ?_⟩
    by_cases hempty : read.length = ms.length
    · have heq : q.reloadW.cachedW = q.reloadW.r := hiff.mpr (by omega)
      exact .inl ⟨hempty, decide_eq_true heq⟩
    · have hne : ¬ q.reloadW.cachedW = q.reloadW.r := by
        intro heq
        have := hiff.mp heq
        omega
      have hle : read.length ≤ q.reloadW.atomicW.seen := hinv.read_le
      exact .inr ⟨by omega, decide_eq_false hne⟩
  · simp only [isEmpty, if_neg hfast]
    refine ⟨h, .refl q, .inr ⟨?_, trivial⟩⟩
    -- the cached position is not the read position
    have hne : q.atomicW.seen ≠ read.length := by
      intro heq
      have hword : q.cachedW = q.r := h.cachedW_eq_r_iff.mpr heq
      exact hfast (hword ▸ UInt64.le_refl _)
    omega

/-! ### The methods are runs of the two sides -/

/-- `reserve_write` is the comparison and, where that fails, the load. -/
theorem exec_reserveWrite (h : Inv k (q.machine ms read)) (m : Message) :
    ∃ as, exec Queue.step (q.machine ms read) as = some
      { q.machine ms read with
        q := (q.reserveWrite (UInt64.ofNat m.size)).2
        producer := (q.reserveWrite (UInt64.ofNat m.size)).1.elim .idle (.filling m · 0) } := by
  have hload : q.loadR q.atomicR.latest = some q.reloadR := by
    rw [reloadR, loadR_latest h, Option.getD_some]
  by_cases hfast : q.freeSpace < UInt64.ofNat m.size
  · refine ⟨[.reserveWrite m, .loadR q.atomicR.latest], ?_⟩
    by_cases hslow : q.reloadR.freeSpace < UInt64.ofNat m.size
    · simp [Queue.step, machine, reserveWrite, hfast, hslow, hload]
    · simp [Queue.step, machine, reserveWrite, hfast, hslow, hload, Machine.grant]
  · refine ⟨[.reserveWrite m], ?_⟩
    simp [Queue.step, machine, reserveWrite, hfast, Machine.grant]

/-- `reserve_read` is the comparison and, where the queue looks empty, the load. -/
theorem exec_reserveRead (h : Inv k (q.machine ms read)) :
    ∃ as, exec Queue.step (q.machine ms read) as = some
      { q.machine ms read with
        q := q.reserveRead.2
        consumer := q.reserveRead.1.elim .idle (.reading · []) } := by
  have hload : q.loadW q.atomicW.latest = some q.reloadW := by
    rw [reloadW, loadW_latest h, Option.getD_some]
  by_cases hfast : q.cachedW ≤ q.r
  · refine ⟨[.reserveRead, .loadW q.atomicW.latest], ?_⟩
    by_cases hempty : q.reloadW.cachedW = q.reloadW.r
    · simp [Queue.step, machine, reserveRead, isEmpty, hfast, hempty, hload]
    · simp [Queue.step, machine, reserveRead, isEmpty, hfast, hempty, hload]
  · refine ⟨[.reserveRead], ?_⟩
    simp [Queue.step, machine, reserveRead, isEmpty, hfast]

/-- Bytes are filled in one after another. -/
theorem exec_writeByte {s : Machine} {m : Message} {res : WriteReservation}
    (hs : s.producer = .filling m res 0) {n : ℕ} (hn : n ≤ m.size) :
    exec Queue.step s (List.replicate n .writeByte) = some
      { s with
        q := s.q.writeBytes res.buffer (m.bytes.take n)
        producer := .filling m res n } := by
  induction n with
  | zero =>
      rw [List.replicate_zero, exec_nil, List.take_zero, writeBytes, writeBytes_nil, ← hs]
  | succ n ih =>
      have hb : m.bytes[n]? = some m.bytes[n] := List.getElem?_eq_getElem hn
      rw [List.replicate_succ', exec_append, ih (by omega)]
      simp only [Option.bind_some, exec_cons, exec_nil, Queue.step, hb, Option.map_some, writeBytes,
        writeByte, writeBytes_take_succ _ _ hb]

/-- The producer with its buffer filled. -/
theorem inv_filled (h : Inv k (q.machine ms read)) {size : UInt64} (hsize : ¬ q.freeSpace < size)
    {m : Message} (hm : m.size ≤ size.toNat) :
    Inv k
      { q.machine ms read with
        q := q.writeBytes (q.writeReservation size).buffer m.bytes
        producer := .filling m (q.writeReservation (UInt64.ofNat m.size)) m.size } := by
  have hspace := h.toNat_freeSpace
  have hroom : pos ms ms.length + m.size ≤ pos ms q.atomicR.seen + 2 ^ k := by
    rw [UInt64.lt_iff_toNat_lt] at hsize
    have hm_pos := Message.size_pos' m
    simp only [machine] at hspace
    omega
  have hgranted : Inv k { q.machine ms read with producer := Machine.grant q m } := h.grant hroom
  have hexec := exec_writeByte (s := { q.machine ms read with producer := Machine.grant q m })
    rfl (Nat.le_refl m.size)
  rw [List.take_of_length_le (Nat.le_refl m.size)] at hexec
  exact exec_induction_along (Inv k) (fun _ _ _ hinv hc hstep => hinv.step hc hstep) hgranted
    (.replicate (fun _ => trivial) m.size _) hexec

/-- **Bytes in a reservation that is not committed change nothing.** -/
theorem inv_fill (h : Inv k (q.machine ms read)) {size : UInt64} (hsize : ¬ q.freeSpace < size)
    {bs : List Byte} (hbs : bs.length ≤ size.toNat) :
    Inv k ((q.writeBytes (q.writeReservation size).buffer bs).machine ms read) := by
  by_cases hpos : 0 < bs.length
  · have hlt : bs.length < 2 ^ 64 := hbs.trans_lt size.toNat_lt
    have hfilled := inv_filled (m := ⟨bs, hpos, hlt⟩) h hsize hbs
    exact hfilled.abandonWrite rfl
  · obtain rfl := List.eq_nil_of_length_eq_zero (Nat.eq_zero_of_not_pos hpos)
    rw [writeBytes, writeBytes_nil]
    exact h

/-- **A committed message is behind the others.** -/
theorem inv_commitWrite (h : Inv k (q.machine ms read)) {size : UInt64} (hsize : ¬ q.freeSpace < size)
    {m : Message} (hm : m.size = size.toNat) :
    Inv k (((q.writeBytes (q.writeReservation size).buffer m.bytes).commitWrite
      (q.writeReservation size).newWritePos).machine (ms ++ [m]) read) := by
  have hfilled := inv_filled h hsize hm.le
  have hword : UInt64.ofNat m.size = size := by rw [hm, UInt64.ofNat_toNat]
  rw [hword] at hfilled
  refine hfilled.commitWrite ?_
  simp only [Queue.step, if_true]
  rfl

/-- **The reader finds the oldest message unread.** -/
theorem readBytes_front (h : Inv k (q.machine ms read)) (hfront : read.length < q.atomicW.seen)
    {m : Message} (hm : ms[read.length]? = some m) :
    readBytes q.buffer q.readReservation.buffer m.size = m.bytes := by
  have hreading : Inv k { q.machine ms read with consumer := .reading q.readReservation [] } :=
    h.readReservation hfront
  obtain ⟨m', hm', hholds⟩ := hreading.front rfl
  obtain rfl := Option.some.inj (hm.symm.trans hm')
  exact hholds.readBytes_eq rfl

/-- **A committed read takes it out.** -/
theorem inv_commitRead (h : Inv k (q.machine ms read)) (hfront : read.length < q.atomicW.seen)
    {m : Message} (hm : ms[read.length]? = some m) :
    Inv k ((q.commitRead (q.readReservation.currentReadPos + UInt64.ofNat m.size)).machine ms
      (read ++ [m.bytes])) := by
  have hreading : Inv k { q.machine ms read with consumer := .reading q.readReservation [] } :=
    h.readReservation hfront
  have hgot : Inv k
      { q.machine ms read with
        consumer := .reading q.readReservation
          (readBytes q.buffer q.readReservation.buffer m.size) } := hreading.readBytes rfl m.size
  rw [readBytes_front h hfront hm] at hgot
  have hclient : Client { q.machine ms read with consumer := .reading q.readReservation m.bytes }
      (.commitRead m.size) := ⟨by simp [frontSize, machine, hm], rfl⟩
  exact hgot.commitRead hclient rfl

end Methods

/-! ## The FIFO -/

/-- The queue holds the messages of a FIFO, and its caller what the FIFO's clients hold.
The messages committed are `ms`, those read `read`. -/
structure Related (k : ℕ) (ms : List Message) (read : List (List Byte)) (s : Session)
    (t : BoundedFifo (List Byte)) : Prop where
  inv : Inv k (s.q.machine ms read)
  contents : t.contents = (ms.drop read.length).map Message.bytes
  writing : t.writing = s.writing.map Prod.fst
  granted : ∀ size res, s.writing = some (size, res) →
    res = s.q.writeReservation size ∧ ¬ s.q.freeSpace < size
  reading : t.reading = s.reading.isSome
  front : ∀ res, s.reading = some res → res = s.q.readReservation ∧ read.length < s.q.atomicW.seen

namespace Related
variable {k : ℕ} {ms : List Message} {read : List (List Byte)} {s : Session}
  {t : BoundedFifo (List Byte)}

/-- A method that leaves alone what the caller holds. -/
theorem keeps (h : Related k ms read s t) {q : Queue} (hinv : Inv k (q.machine ms read))
    (hkeeps : Keeps s.q q) : Related k ms read { s with q := q } t where
  inv := hinv
  contents := h.contents
  writing := h.writing
  granted := by
    intro size res hw
    obtain ⟨rfl, hsize⟩ := h.granted size res hw
    refine ⟨(hkeeps.writeReservation size).symm, fun hlt => hsize ?_⟩
    exact UInt64.lt_of_le_of_lt hkeeps.freeSpace hlt
  reading := h.reading
  front := by
    intro res hr
    obtain ⟨rfl, hlt⟩ := h.front res hr
    exact ⟨hkeeps.readReservation.symm, hlt.trans_le hkeeps.seenW⟩

/-- The bytes in the FIFO are those between the two positions. -/
theorem used_eq (h : Related k ms read s t) : t.used List.length = unread ms read := by
  have hsplit : pos ms ms.length
      = pos ms read.length + ((ms.drop read.length).map Message.size).sum := by
    rw [pos, pos, ← List.sum_append, ← List.map_append, List.take_append_drop, List.take_length]
  have hsizes : (ms.drop read.length).map Message.size = t.contents.map List.length := by
    rw [h.contents, List.map_map]
    rfl
  rw [used, unread, hsplit, hsizes]
  omega

/-- The front of the FIFO is the next message to read. -/
theorem getElem?_of_contents (h : Related k ms read s t) {bs : List Byte} {rest : List (List Byte)}
    (hc : t.contents = bs :: rest) :
    ∃ m, ms[read.length]? = some m ∧ m.bytes = bs ∧
      rest = (ms.drop (read.length + 1)).map Message.bytes := by
  have hcontents := h.contents
  rw [hc] at hcontents
  cases hdrop : ms.drop read.length with
  | nil => simp [hdrop] at hcontents
  | cons m later =>
      rw [hdrop, List.map_cons, List.cons.injEq] at hcontents
      refine ⟨m, ?_, hcontents.1.symm, ?_⟩
      · rw [← List.head?_drop, hdrop, List.head?_cons]
      · rw [hcontents.2, ← List.tail_drop, hdrop, List.tail_cons]

theorem length_contents (h : Related k ms read s t) :
    t.contents.length = 0 ↔ read.length = ms.length := by
  have hle : read.length ≤ ms.length := h.inv.read_le.trans h.inv.seenW_le
  rw [h.contents, List.length_map, List.length_drop]
  omega

/-! ### One call -/

variable {answer : Answer (List Byte)} {t' : BoundedFifo (List Byte)}

/-- What a call of the queue has to do. -/
def Answers (k : ℕ) (s : Session) (call : Call (List Byte)) (answer : Answer (List Byte))
    (t' : BoundedFifo (List Byte)) : Prop :=
  ∃ s', s.step call = some (answer, s') ∧ ∃ ms read, Related k ms read s' t'

theorem reserveWrite (h : Related k ms read s t) {size : UInt64}
    (hstep : BoundedFifo.step List.length (2 ^ k) t (.reserveWrite size) = some (answer, t')) :
    Answers k s (.reserveWrite size) answer t' := by
  obtain ⟨hinv, hkeeps, hcases⟩ := reserveWrite_spec h.inv size
  have hnext := h.keeps hinv hkeeps
  simp only [BoundedFifo.step, h.used_eq] at hstep
  rcases hcases with ⟨hfits, hgranted, hspace⟩ | ⟨hfull, hnull⟩
  · rw [if_pos hfits] at hstep
    cases hstep
    refine ⟨_, by simp only [Session.step, hgranted]; rfl, ms, read, ?_⟩
    refine { hnext with writing := rfl, granted := ?_ }
    intro size' res hw
    cases hw
    exact ⟨rfl, hspace⟩
  · rw [if_neg hfull] at hstep
    cases hstep
    exact ⟨_, by simp only [Session.step, hnull], ms, read, hnext⟩

/-- Bytes in the buffer are nothing to the caller. -/
theorem writeBytes (h : Related k ms read s t) {size : UInt64} {res : WriteReservation}
    (hw : s.writing = some (size, res)) {bs : List Byte} (hbs : bs.length ≤ size.toNat) :
    Related k ms read { s with q := s.q.writeBytes res.buffer bs } t := by
  obtain ⟨rfl, hsize⟩ := h.granted size res hw
  apply h.keeps (inv_fill h.inv hsize hbs)
  constructor
  · rfl
  · rfl
  · rfl
  · exact Nat.le_refl _
  · exact UInt64.le_refl _

/-- The buffers the two sides have granted are the same. -/
theorem writing_eq_some (h : Related k ms read s t) {size : UInt64} (hw : t.writing = some size) :
    ∃ res, s.writing = some (size, res) := by
  rw [h.writing, Option.map_eq_some_iff] at hw
  obtain ⟨⟨size', res⟩, hw, rfl⟩ := hw
  exact ⟨res, hw⟩

theorem fill (h : Related k ms read s t) {bs : List Byte}
    (hstep : BoundedFifo.step List.length (2 ^ k) t (.fill bs) = some (answer, t')) :
    Answers k s (.fill bs) answer t' := by
  simp only [BoundedFifo.step] at hstep
  split at hstep
  · rename_i size hsize
    obtain ⟨res, hw⟩ := h.writing_eq_some hsize
    split at hstep
    · rename_i hbs
      cases hstep
      exact ⟨_, by simp only [Session.step, hw, if_pos hbs], ms, read, h.writeBytes hw hbs⟩
    · cases hstep
  · cases hstep

theorem commitWrite (h : Related k ms read s t) {bs : List Byte}
    (hstep : BoundedFifo.step List.length (2 ^ k) t (.commitWrite bs) = some (answer, t')) :
    Answers k s (.commitWrite bs) answer t' := by
  simp only [BoundedFifo.step] at hstep
  split at hstep
  · rename_i size hsize
    obtain ⟨res, hw⟩ := h.writing_eq_some hsize
    split at hstep
    · rename_i hbs
      cases hstep
      obtain ⟨rfl, hspace⟩ := h.granted size res hw
      have hread : read.length ≤ ms.length := h.inv.read_le.trans h.inv.seenW_le
      let m : Message := ⟨bs, hbs.2, hbs.1 ▸ size.toNat_lt⟩
      refine ⟨_, by simp only [Session.step, hw, if_pos hbs.1]; rfl, ms ++ [m], read, ?_⟩
      refine
        { inv := inv_commitWrite h.inv hspace (m := m) hbs.1
          contents := ?_
          writing := rfl
          granted := by simp
          reading := h.reading
          front := h.front }
      rw [List.drop_append_of_le_length hread, List.map_append, ← h.contents]
      rfl
    · cases hstep
  · cases hstep

theorem isEmpty (h : Related k ms read s t)
    (hstep : BoundedFifo.step List.length (2 ^ k) t .isEmpty = some (answer, t')) :
    Answers k s .isEmpty answer t' := by
  obtain ⟨hinv, hkeeps, hcases⟩ := isEmpty_spec h.inv
  have hanswer : t.contents.length = 0 ↔ s.q.isEmpty.1 = true := by
    rw [h.length_contents]
    rcases hcases with ⟨hread, htrue⟩ | ⟨hlt, hfalse⟩
    · exact iff_of_true hread htrue
    · have hle : s.q.isEmpty.2.atomicW.seen ≤ ms.length := hinv.seenW_le
      exact iff_of_false (by omega) (by simp [hfalse])
  simp only [BoundedFifo.step, Answer.of_congr hanswer] at hstep
  cases hstep
  exact ⟨_, rfl, ms, read, h.keeps hinv hkeeps⟩

theorem reserveRead (h : Related k ms read s t)
    (hstep : BoundedFifo.step List.length (2 ^ k) t .reserveRead = some (answer, t')) :
    Answers k s .reserveRead answer t' := by
  obtain ⟨hinv, hkeeps, hcases⟩ := isEmpty_spec h.inv
  have hnext := h.keeps hinv hkeeps
  have hread : t.contents.length = 0 ↔ read.length = ms.length := h.length_contents
  rcases hcases with ⟨hempty, htrue⟩ | ⟨hlt, hfalse⟩
  · have hnull : s.q.reserveRead.1 = none := by simp only [Queue.reserveRead, htrue, if_true]
    have hnone : ¬ 0 < t.contents.length := by omega
    simp only [BoundedFifo.step, Answer.of, if_neg hnone, decide_eq_false hnone] at hstep
    cases hstep
    refine ⟨{ s with q := s.q.isEmpty.2, reading := none }, ?_, ms, read, ?_⟩
    · simp only [Session.step, hnull]
      rfl
    · exact { hnext with reading := rfl, front := by simp }
  · have hle : s.q.isEmpty.2.atomicW.seen ≤ ms.length := hinv.seenW_le
    have hgiven : s.q.reserveRead.1 = some s.q.isEmpty.2.readReservation := by
      simp only [Queue.reserveRead, hfalse, Bool.false_eq_true, if_false]
    have hsome : 0 < t.contents.length := by omega
    simp only [BoundedFifo.step, Answer.of, if_pos hsome, decide_eq_true hsome] at hstep
    cases hstep
    refine ⟨{ s with q := s.q.isEmpty.2, reading := some s.q.isEmpty.2.readReservation }, ?_, ms,
      read, ?_⟩
    · simp only [Session.step, hgiven]
      rfl
    · refine { hnext with reading := rfl, front := ?_ }
      intro res hr
      cases hr
      exact ⟨rfl, hlt⟩

/-- A reader that has been given the front. -/
theorem reading_eq_some (h : Related k ms read s t) (hr : t.reading = true) :
    s.reading = some s.q.readReservation ∧ read.length < s.q.atomicW.seen := by
  rw [h.reading, Option.isSome_iff_exists] at hr
  obtain ⟨res, hres⟩ := hr
  obtain ⟨rfl, hlt⟩ := h.front res hres
  exact ⟨hres, hlt⟩

theorem readFront (h : Related k ms read s t) {n : ℕ}
    (hstep : BoundedFifo.step List.length (2 ^ k) t (.read n) = some (answer, t')) :
    Answers k s (.read n) answer t' := by
  simp only [BoundedFifo.step] at hstep
  split at hstep
  · rename_i bs rest hcontents
    split at hstep
    · rename_i hcond
      cases hstep
      obtain ⟨hr, hlt⟩ := h.reading_eq_some hcond.1
      obtain ⟨m, hm, hbytes, -⟩ := h.getElem?_of_contents hcontents
      have hsize : n = m.size := by rw [← hcond.2, ← hbytes]; rfl
      refine ⟨s, ?_, ms, read, h⟩
      rw [hsize]
      simp only [Session.step, hr, Option.map_some, readBytes_front h.inv hlt hm, hbytes]
    · cases hstep
  · cases hstep

theorem commitRead (h : Related k ms read s t) {n : ℕ}
    (hstep : BoundedFifo.step List.length (2 ^ k) t (.commitRead n) = some (answer, t')) :
    Answers k s (.commitRead n) answer t' := by
  simp only [BoundedFifo.step] at hstep
  split at hstep
  · rename_i bs rest hcontents
    split at hstep
    · rename_i hcond
      cases hstep
      obtain ⟨hr, hlt⟩ := h.reading_eq_some hcond.1
      obtain ⟨m, hm, hbytes, hrest⟩ := h.getElem?_of_contents hcontents
      have hsize : n = m.size := by rw [← hcond.2, ← hbytes]; rfl
      refine ⟨_, by simp only [Session.step, hr, Option.map_some]; rfl, ms, read ++ [m.bytes], ?_⟩
      rw [hsize]
      exact
        { inv := inv_commitRead h.inv hlt hm
          contents := by rw [List.length_append, List.length_singleton]; exact hrest
          writing := h.writing
          granted := h.granted
          reading := rfl
          front := by simp }
    · cases hstep
  · cases hstep

end Related

/-- **Every call of the FIFO is one of the queue.** -/
theorem simulates (k : ℕ) :
    Simulates (fun s t => ∃ ms read, Related k ms read s t) Session.step
      (BoundedFifo.step List.length (2 ^ k)) := by
  rintro s t call answer t' ⟨ms, read, h⟩ hstep
  cases call with
  | reserveWrite size => exact h.reserveWrite hstep
  | fill bs => exact h.fill hstep
  | commitWrite bs => exact h.commitWrite hstep
  | isEmpty => exact h.isEmpty hstep
  | reserveRead => exact h.reserveRead hstep
  | read n => exact h.readFront hstep
  | commitRead n => exact h.commitRead hstep

/-- A new queue is an empty FIFO. -/
theorem related_new {c : ℕ} (hc : 2 * bitCeil c < 2 ^ 64) :
    Related (Nat.clog 2 c) [] [] (Session.new c) BoundedFifo.empty where
  inv := inv_new hc
  contents := rfl
  writing := rfl
  granted := by simp [Session.new]
  reading := rfl
  front := by simp [Session.new]

/-- **The queue answers exactly like a bounded FIFO of messages.**  For every capacity, and
every sequence of calls a caller may make of a FIFO with room for `bitCeil c` bytes, however
long: a reservation is granted exactly if it fits in what is free, the queue is empty exactly
if nothing is unread, and what is read is the oldest message unread. -/
theorem answers_eq {c : ℕ} (hc : 2 * bitCeil c < 2 ^ 64) {calls : List (Call (List Byte))}
    {expected : List (Answer (List Byte))}
    (h : answers (BoundedFifo.step List.length (bitCeil c)) BoundedFifo.empty calls = some expected) :
    answers Session.step (Session.new c) calls = some expected :=
  (simulates (Nat.clog 2 c)).same_answers ⟨[], [], related_new hc⟩ h

/-- Reservations that fail, lapse or are filled in part, and reads that are abandoned,
between two messages that are written and read. -/
def mixedCalls : List (Call (List Byte)) :=
  [.isEmpty, .reserveWrite 5, .reserveWrite 4, .fill [9, 9], .reserveWrite 3, .commitWrite [1, 2, 3],
    .reserveWrite 2, .reserveWrite 1, .reserveRead, .reserveRead, .read 3, .commitRead 3,
    .reserveRead, .reserveWrite 2, .commitWrite [4, 5], .reserveWrite 18446744073709551615,
    .reserveRead, .read 2, .isEmpty]

theorem answers_eq_mixedCalls :
    answers Session.step (Session.new 3) mixedCalls = some
      [.yes, .no, .yes, .done, .yes, .done, .no, .yes, .yes, .yes, .message [1, 2, 3], .done, .no,
        .yes, .done, .no, .yes, .message [4, 5], .no] :=
  answers_eq (by decide) (by decide +kernel)

end Papper.Queue
