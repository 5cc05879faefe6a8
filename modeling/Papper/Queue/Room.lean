import Papper.Queue.Frame

/-!
# How much room there is

`reserve_write` compares the size of a message with the room the producer believes there is,
by a copy of the read position that may be old, and reloads the copy before it gives up.  An
old copy errs on one side only, so what is granted by it fits; and after the load of the last
position stored the comparison is exact.

## Main definitions

* `Machine.unreadBytes`, `Machine.Fits` — the bytes in the queue, and what fits beside them.
* `Drains` — what the consumer may do meanwhile.
* `Inv.loadR_latest` — the exact comparison.
-/

namespace Papper.Queue

variable {k : ℕ} {s s' s'' : Machine} {m : Message}

/-- The bytes that are committed and not read. -/
def Machine.unreadBytes (s : Machine) : ℕ :=
  ((s.committed.drop s.read.length).map Message.size).sum

/-- There is room for a message. -/
def Machine.Fits (s : Machine) (m : Message) : Prop :=
  s.unreadBytes + m.size ≤ s.q.capacity.toNat

instance decidableFits (s : Machine) (m : Message) : Decidable (s.Fits m) :=
  inferInstanceAs (Decidable (_ ≤ _))

/-- What comes after the first `j` messages. -/
theorem pos_add_sum_drop (ms : List Message) (j : ℕ) :
    pos ms j + ((ms.drop j).map Message.size).sum = pos ms ms.length := by
  rw [pos, pos, List.take_length, ← List.sum_append, ← List.map_append, List.take_append_drop]

theorem Inv.fits_iff (h : Inv k s) :
    s.Fits m ↔
      pos s.committed s.committed.length + m.size ≤ pos s.committed s.read.length + 2 ^ k := by
  have hpos := pos_add_sum_drop s.committed s.read.length
  simp only [Machine.Fits, Machine.unreadBytes, h.capacity_eq]
  omega

/-- What the old copy grants fits. -/
theorem Inv.fits_of_granted (h : Inv k s) (hm : ¬ s.q.freeSpace < UInt64.ofNat m.size) :
    s.Fits m := by
  have hle := @pos_le_pos s.committed _ _ h.seenR_le
  rw [h.freeSpace_lt] at hm
  rw [h.fits_iff]
  omega

/-- What the consumer may do: it takes messages out. -/
structure Drains (s s' : Machine) : Prop where
  producer : s'.producer = s.producer
  committed : s'.committed = s.committed
  read : s.read <+: s'.read
  capacity : s'.q.capacity = s.q.capacity

theorem Drains.refl (s : Machine) : Drains s s := ⟨rfl, rfl, List.prefix_rfl, rfl⟩

/-- It only makes room. -/
theorem Drains.fits (h : Drains s s') (hm : s.Fits m) : s'.Fits m := by
  have hold := pos_add_sum_drop s.committed s.read.length
  have hnew := pos_add_sum_drop s.committed s'.read.length
  have hle := @pos_le_pos s.committed _ _ h.read.length_le
  simp only [Machine.Fits, Machine.unreadBytes, h.committed, h.capacity] at hm ⊢
  omega

/-- The steps of the consumer that touch what both sides see. -/
def Action.consumes : Action → Bool
  | reserveRead | loadW _ | commitRead _ => true
  | _ => false

theorem drains_of_consumes {a : Action} (ha : a.consumes = true) (hstep : step s a = some s') :
    Drains s s' := by
  cases a with
  | reserveRead =>
      simp only [step] at hstep
      split at hstep
      · split at hstep <;> cases hstep <;> exact ⟨rfl, rfl, List.prefix_rfl, rfl⟩
      · cases hstep
  | loadW i =>
      simp only [step] at hstep
      split at hstep
      · obtain ⟨q, hq, rfl⟩ := Option.map_eq_some_iff.mp hstep
        obtain ⟨⟨v, x⟩, -, rfl⟩ := Option.map_eq_some_iff.mp hq
        by_cases hempty : v = s.q.r
        · rw [if_pos hempty]
          exact ⟨rfl, rfl, List.prefix_rfl, rfl⟩
        · rw [if_neg hempty]
          exact ⟨rfl, rfl, List.prefix_rfl, rfl⟩
      · cases hstep
  | commitRead n =>
      simp only [step] at hstep
      split at hstep
      · cases hstep
        exact ⟨rfl, rfl, List.prefix_append _ _, rfl⟩
      · cases hstep
  | _ => cases ha

/-! ## The calls of the producer -/

/-- What the producer has come to: the rest of the queue is what it was. -/
structure Asks (s s' : Machine) : Prop where
  committed : s'.committed = s.committed
  read : s'.read = s.read
  capacity : s'.q.capacity = s.q.capacity

theorem Asks.fits_iff (h : Asks s s') : s'.Fits m ↔ s.Fits m := by
  simp only [Machine.Fits, Machine.unreadBytes, h.committed, h.read, h.capacity]

theorem asks_of_writeByte (hstep : step s .writeByte = some s') : Asks s s' := by
  simp only [step] at hstep
  split at hstep
  · obtain ⟨b, -, rfl⟩ := Option.map_eq_some_iff.mp hstep
    exact ⟨rfl, rfl, rfl⟩
  · cases hstep

/-- The call of `reserve_write` by a producer that is free. -/
theorem Inv.reserveWrite_enabled (h : Inv k s) (hs : s.producer = .idle) (m : Message) :
    ∃ s', Queue.step s (.reserveWrite m) = some s' ∧ Asks s s' ∧
      (s'.producer = .reload m ∨ s.Fits m ∧ ∃ res, s'.producer = .filling m res 0) := by
  by_cases hm : s.q.freeSpace < UInt64.ofNat m.size
  · exact ⟨{ s with producer := .reload m }, by simp [Queue.step, hs, hm], ⟨rfl, rfl, rfl⟩,
      .inl rfl⟩
  · exact ⟨{ s with producer := Machine.grant s.q m }, by simp [Queue.step, hs, hm],
      ⟨rfl, rfl, rfl⟩, .inr ⟨h.fits_of_granted hm, _, rfl⟩⟩

/-- **The load of `_atomic_r`, where it returns the last position stored, decides exactly.** -/
theorem Inv.loadR_latest (h : Inv k s) (hs : s.producer = .reload m) :
    ∃ s', Queue.step s (.loadR s.q.atomicR.latest) = some s' ∧ Asks s s' ∧
      (s'.producer = .idle ∧ ¬ s.Fits m ∨ s.Fits m ∧ ∃ res, s'.producer = .filling m res 0) := by
  have hload := load?_latest h.storesR h.seenR_le
  let q : Queue :=
    { s.q with
      cachedR := UInt64.ofNat (pos s.committed s.read.length)
      atomicR := { s.q.atomicR with seen := s.read.length } }
  have hq : s.q.loadR s.q.atomicR.latest = some q := by
    rw [Queue.loadR, hload]
    rfl
  have hstep : Queue.step s (.loadR s.q.atomicR.latest)
      = some (if q.freeSpace < UInt64.ofNat m.size then { s with q := q, producer := .idle }
          else { s with q := q, producer := Machine.grant q m }) := by
    simp only [Queue.step, hs, hq, Option.map_some]
  have hspace : q.freeSpace < UInt64.ofNat m.size ↔ ¬ s.Fits m := by
    have hlt : q.freeSpace < UInt64.ofNat m.size ↔
        pos s.committed s.read.length + 2 ^ k
          < pos s.committed s.committed.length + m.size := (h.reloadR hq).freeSpace_lt m
    rw [hlt, h.fits_iff, Nat.not_le]
  rw [hstep]
  by_cases hm : q.freeSpace < UInt64.ofNat m.size
  · rw [if_pos hm]
    exact ⟨_, rfl, ⟨rfl, rfl, rfl⟩, .inl ⟨rfl, hspace.mp hm⟩⟩
  · rw [if_neg hm]
    exact ⟨_, rfl, ⟨rfl, rfl, rfl⟩, .inr ⟨not_not.mp (mt hspace.mpr hm), _, rfl⟩⟩

end Papper.Queue
