import Mathlib.Algebra.BigOperators.Group.List.Basic
import Mathlib.Data.List.Range
import Mathlib.Tactic.Common
import Papper.Lib.Memory
import Papper.Lib.Ring
import Papper.Lib.Transition
import Papper.Queue

/-!
# The queue is a FIFO under every interleaving

The six position variables of the queue are words.  What they count is the number of
bytes of the messages committed, and every value any of them ever holds is the sum of
the sizes of the first `j` messages committed, for some `j`: `pos ms j`.  The
invariant `Inv` says which `j` each of them has.  The `j`-th value stored to
`_atomic_w` is the position after `j` messages, so the position of a value in the
store order of the atomic is the same `j`, and a stale load is an older `j`.

The buffer part of the invariant says that every message not yet read lies, whole, at
its position modulo the capacity.  It survives the producer's writes because the
reservation and the unread messages together span at most one capacity
(`Ring.spill_ne`).

## Main definitions

* `pos ms j` — the number of bytes before the `j`-th message.
* `Inv k s` — the invariant, for a capacity of `2 ^ k`.
* `Client` — what a consumer commits: the size of the message at the front.
-/

namespace Papper.Queue

open Transition Memory

/-! ## Positions -/

/-- The number of bytes of the first `j` messages. -/
def pos (ms : List Message) (j : ℕ) : ℕ := ((ms.take j).map Message.size).sum

@[simp] theorem pos_zero (ms : List Message) : pos ms 0 = 0 := by simp [pos]

theorem Message.size_pos' (m : Message) : 0 < m.size := m.size_pos

theorem pos_succ {ms : List Message} {j : ℕ} {m : Message} (h : ms[j]? = some m) :
    pos ms (j + 1) = pos ms j + m.size := by
  simp [pos, List.take_add_one, h]

theorem pos_append_of_le {ms : List Message} {j : ℕ} (h : j ≤ ms.length) (ms' : List Message) :
    pos (ms ++ ms') j = pos ms j := by
  simp [pos, List.take_append_of_le_length h]

theorem pos_append_length (ms : List Message) (m : Message) :
    pos (ms ++ [m]) (ms.length + 1) = pos ms ms.length + m.size := by
  rw [pos_succ (m := m) (by simp), pos_append_of_le le_rfl]

theorem pos_le_pos {ms : List Message} {i j : ℕ} (h : i ≤ j) : pos ms i ≤ pos ms j := by
  induction j, h using Nat.le_induction with
  | base => exact le_rfl
  | succ j _ ih =>
      refine ih.trans ?_
      cases hm : ms[j]? with
      | none => simp [pos, List.take_add_one, hm]
      | some m => rw [pos_succ hm]; omega

/-- Messages have at least one byte, so positions of different messages differ. -/
theorem pos_lt_pos {ms : List Message} {i j : ℕ} (h : i < j) (hj : j ≤ ms.length) :
    pos ms i < pos ms j := by
  have hi : i < ms.length := by omega
  have hstep := pos_succ (List.getElem?_eq_getElem hi)
  have hpos := Message.size_pos' ms[i]
  have hle : pos ms (i + 1) ≤ pos ms j := pos_le_pos h
  omega

/-! ## The invariant -/

/-- The words stored to an atomic position, oldest first, after `n` messages. -/
def words (ms : List Message) (n : ℕ) : List UInt64 :=
  (List.range (n + 1)).map fun j => UInt64.ofNat (pos ms j)

theorem words_zero (ms : List Message) : words ms 0 = [0] := by simp [words]

theorem words_succ (ms : List Message) (n : ℕ) :
    words ms (n + 1) = words ms n ++ [UInt64.ofNat (pos ms (n + 1))] := by
  simp [words, List.range_succ]

theorem words_append {ms : List Message} {n : ℕ} (h : n ≤ ms.length) (ms' : List Message) :
    words (ms ++ ms') n = words ms n := by
  refine List.map_congr_left fun j hj => ?_
  rw [List.mem_range] at hj
  rw [pos_append_of_le (by omega)]

theorem getElem?_words {ms : List Message} {n i : ℕ} {v : UInt64}
    (h : (words ms n)[i]? = some v) : i ≤ n ∧ v = UInt64.ofNat (pos ms i) := by
  obtain ⟨hi, hv⟩ := List.getElem?_eq_some_iff.mp h
  have hi' : i < n + 1 := by simpa [words] using hi
  refine ⟨by omega, ?_⟩
  simpa [words] using hv.symm

/-- What a producer knows that has filled `n` bytes of its reservation, when the
messages `ms` are committed and its copy of the read position is the one after `seen`
of them. -/
structure Filling (k : ℕ) (ms : List Message) (seen : ℕ) (buffer : ℕ → Byte) (m : Message)
    (res : WriteReservation) (n : ℕ) : Prop where
  buffer_eq : res.buffer = pos ms ms.length % 2 ^ k
  newWritePos_eq : res.newWritePos = UInt64.ofNat (pos ms ms.length + m.size)
  room : pos ms ms.length + m.size ≤ pos ms seen + 2 ^ k
  filled : Holds buffer res.buffer (m.bytes.take n)

/-- What a consumer knows that has read the bytes `got` of its reservation, when
`nread` messages are read and its copy of the write position is the one after `seen`. -/
structure Reading (k : ℕ) (ms : List Message) (nread seen : ℕ) (res : ReadReservation)
    (got : List Byte) : Prop where
  front : nread < seen
  buffer_eq : res.buffer = pos ms nread % 2 ^ k
  currentReadPos_eq : res.currentReadPos = UInt64.ofNat (pos ms nread)
  got_eq : ∀ m, ms[nread]? = some m → got.take m.size = m.bytes.take got.length

def ProducerInv (k : ℕ) (ms : List Message) (seen : ℕ) (buffer : ℕ → Byte) : Producer → Prop
  | .filling m res n => Filling k ms seen buffer m res n
  | _ => True

def ConsumerInv (k : ℕ) (ms : List Message) (nread seen : ℕ) : Consumer → Prop
  | .reading res got => Reading k ms nread seen res got
  | _ => True

/-- The invariant.  `atomicR.seen` and `atomicW.seen` are the numbers of messages the
cached copies of the other side's position stand for. -/
structure Inv (k : ℕ) (s : Machine) : Prop where
  exp_lt : k < 63
  capacity_eq : s.q.capacity.toNat = 2 ^ k
  storesR : s.q.atomicR.stores = words s.committed s.read.length
  storesW : s.q.atomicW.stores = words s.committed s.committed.length
  w_eq : s.q.w = UInt64.ofNat (pos s.committed s.committed.length)
  r_eq : s.q.r = UInt64.ofNat (pos s.committed s.read.length)
  cachedR_eq : s.q.cachedR = UInt64.ofNat (pos s.committed s.q.atomicR.seen)
  cachedW_eq : s.q.cachedW = UInt64.ofNat (pos s.committed s.q.atomicW.seen)
  seenR_le : s.q.atomicR.seen ≤ s.read.length
  read_le : s.read.length ≤ s.q.atomicW.seen
  seenW_le : s.q.atomicW.seen ≤ s.committed.length
  room : pos s.committed s.committed.length ≤ pos s.committed s.q.atomicR.seen + 2 ^ k
  stored : ∀ j m, s.read.length ≤ j → s.committed[j]? = some m →
    Holds s.q.buffer (pos s.committed j % 2 ^ k) m.bytes
  read_eq : s.read = (s.committed.take s.read.length).map Message.bytes
  producer : ProducerInv k s.committed s.q.atomicR.seen s.q.buffer s.producer
  consumer : ConsumerInv k s.committed s.read.length s.q.atomicW.seen s.consumer

/-- The size of the oldest message committed and not yet read. -/
def frontSize (s : Machine) : Option ℕ := s.committed[s.read.length]?.map Message.size

/-- How many bytes of its reservation the consumer has read. -/
def Consumer.held : Consumer → Option ℕ
  | .reading _ got => some got.length
  | _ => none

/-- What the consumer's commits obey: `n` is the size of the message at the front, and
the consumer has read that many bytes. -/
def Client (s : Machine) : Action → Prop
  | .commitRead n => frontSize s = some n ∧ s.consumer.held = some n
  | _ => True

instance decidableClient (s : Machine) : (a : Action) → Decidable (Client s a)
  | .commitRead n => inferInstanceAs (Decidable (frontSize s = some n ∧ s.consumer.held = some n))
  | .reserveWrite _ | .loadR _ | .writeByte | .commitWrite | .abandonWrite | .reserveRead
  | .loadW _ | .readByte | .abandonRead => isTrue trivial

/-- The invariant holds of a new queue of an admissible capacity. -/
theorem inv_new {c : ℕ} (hc : 2 * bitCeil c < 2 ^ 64) :
    Inv (Nat.clog 2 c) (Machine.new c) where
  exp_lt := by
    have h : 2 ^ Nat.clog 2 c < 2 ^ 63 := by unfold bitCeil at hc; omega
    exact (Nat.pow_lt_pow_iff_right (by omega)).mp h
  capacity_eq := by
    have h : bitCeil c % 2 ^ 64 = bitCeil c := Nat.mod_eq_of_lt (by omega)
    simp only [Machine.new, new, UInt64.toNat_ofNat']
    exact h
  storesR := by simp [Machine.new, new, words_zero]
  storesW := by simp [Machine.new, new, words_zero]
  w_eq := by simp [Machine.new, new]
  r_eq := by simp [Machine.new, new]
  cachedR_eq := by simp [Machine.new, new]
  cachedW_eq := by simp [Machine.new, new]
  seenR_le := by simp [Machine.new, new]
  read_le := by simp [Machine.new]
  seenW_le := by simp [Machine.new, new]
  room := by simp [Machine.new]
  stored := by simp [Machine.new]
  read_eq := by simp [Machine.new]
  producer := trivial
  consumer := trivial

namespace Inv
variable {k : ℕ} {s s' : Machine}

/-! ### Reading the words back -/

/-- The producer's estimate of the room is exact up to the staleness of its copy. -/
theorem toNat_freeSpace (h : Inv k s) :
    s.q.freeSpace.toNat
      = pos s.committed s.q.atomicR.seen + 2 ^ k - pos s.committed s.committed.length := by
  have hle : pos s.committed s.q.atomicR.seen ≤ pos s.committed s.committed.length :=
    pos_le_pos (h.seenR_le.trans (h.read_le.trans h.seenW_le))
  have hroom := h.room
  rw [freeSpace, h.cachedR_eq, h.w_eq, Ring.toNat_distance hle (by rw [h.capacity_eq]; exact hroom),
    h.capacity_eq]

/-- A reservation is granted exactly when the message fits in that room. -/
theorem freeSpace_lt (h : Inv k s) (m : Message) :
    s.q.freeSpace < UInt64.ofNat m.size ↔
      pos s.committed s.q.atomicR.seen + 2 ^ k
        < pos s.committed s.committed.length + m.size := by
  have hm : m.size % 2 ^ 64 = m.size := Nat.mod_eq_of_lt m.size_lt
  have hroom := h.room
  rw [UInt64.lt_iff_toNat_lt, h.toNat_freeSpace, UInt64.toNat_ofNat', hm]
  omega

theorem toNat_and_wrapMask (h : Inv k s) (n : ℕ) :
    (UInt64.ofNat n &&& s.q.wrapMask).toNat = n % 2 ^ k :=
  Ring.toNat_ofNat_and_mask n (by have := h.exp_lt; omega) h.capacity_eq

theorem unread_le (h : Inv k s) :
    pos s.committed s.committed.length ≤ pos s.committed s.read.length + 2 ^ k :=
  h.room.trans (Nat.add_le_add_right (pos_le_pos h.seenR_le) _)

/-- The positions of two different numbers of messages, both unread, are different
words. -/
theorem ofNat_pos_eq_iff (h : Inv k s) {i : ℕ} (hi : s.read.length ≤ i)
    (hi' : i ≤ s.committed.length) :
    UInt64.ofNat (pos s.committed i) = UInt64.ofNat (pos s.committed s.read.length) ↔
      i = s.read.length := by
  constructor
  · intro heq
    by_contra hne
    have hlt : pos s.committed s.read.length < pos s.committed i := pos_lt_pos (by omega) hi'
    have hle : pos s.committed i ≤ pos s.committed s.committed.length := pos_le_pos hi'
    have hcap : 2 ^ k < 2 ^ 64 := Nat.pow_lt_pow_right (by omega) (by have := h.exp_lt; omega)
    have hunread := h.unread_le
    exact Ring.ofNat_ne_ofNat hlt (by omega) heq.symm
  · rintro rfl
    rfl

/-! ### One step of the producer -/

theorem grant (h : Inv k s) {m : Message}
    (hroom : pos s.committed s.committed.length + m.size
      ≤ pos s.committed s.q.atomicR.seen + 2 ^ k) :
    Inv k { s with producer := Machine.grant s.q m } where
  __ := h
  producer :=
    { buffer_eq := by
        show (s.q.w &&& s.q.wrapMask).toNat = _
        rw [h.w_eq, h.toNat_and_wrapMask]
      newWritePos_eq := by
        show s.q.w + UInt64.ofNat m.size = _
        rw [h.w_eq, UInt64.ofNat_add]
      room := hroom
      filled := holds_nil _ _ }

theorem reserveWrite (h : Inv k s) {m : Message} (hs : step s (.reserveWrite m) = some s') :
    Inv k s' := by
  simp only [step] at hs
  split at hs
  · split at hs
    · cases hs
      exact { h with producer := trivial }
    · rename_i hfit
      cases hs
      rw [h.freeSpace_lt] at hfit
      exact h.grant (by omega)
  · cases hs

/-- A reload replaces the cached read position by a younger one, so the room the
producer already had is still there. -/
theorem reloadR (h : Inv k s) {q : Queue} {i : ℕ} (hq : s.q.loadR i = some q) :
    Inv k { s with q := q, producer := .idle } := by
  simp only [loadR, Option.map_eq_some_iff, Prod.exists] at hq
  obtain ⟨v, a, hload, rfl⟩ := hq
  obtain ⟨hseen, hv, rfl⟩ := Atomic.load?_eq_some.mp hload
  rw [h.storesR] at hv
  obtain ⟨hi, rfl⟩ := getElem?_words hv
  exact
    { h with
      cachedR_eq := rfl
      seenR_le := hi
      room := h.room.trans (Nat.add_le_add_right (pos_le_pos hseen) _)
      producer := trivial }

theorem loadR (h : Inv k s) {i : ℕ} (hs : step s (.loadR i) = some s') : Inv k s' := by
  simp only [step] at hs
  split at hs
  · obtain ⟨q, hq, rfl⟩ := Option.map_eq_some_iff.mp hs
    have h' := h.reloadR hq
    split
    · exact h'
    · rename_i m _ hfit
      rw [h'.freeSpace_lt] at hfit
      exact h'.grant (m := m) (by simp only at hfit ⊢; omega)
  · cases hs

/-- The offsets of a reservation are not those of any unread message. -/
theorem reservation_ne (h : Inv k s) {m m' : Message} {res : WriteReservation} {n j x y : ℕ}
    (hf : Filling k s.committed s.q.atomicR.seen s.q.buffer m res n) (hj : s.read.length ≤ j)
    (hm' : s.committed[j]? = some m') (hx : x < m.size) (hy : y < m'.size) :
    res.buffer + x ≠ pos s.committed j % 2 ^ k + y := by
  have hlt : j < s.committed.length := (List.getElem?_eq_some_iff.mp hm').1
  have hend : pos s.committed j + m'.size ≤ pos s.committed s.committed.length := by
    rw [← pos_succ hm']
    exact pos_le_pos hlt
  have hseen : pos s.committed s.q.atomicR.seen ≤ pos s.committed j :=
    pos_le_pos (h.seenR_le.trans hj)
  have hroom := hf.room
  rw [hf.buffer_eq]
  exact (Ring.spill_ne hend (by omega) hy hx).symm

theorem writeByte (h : Inv k s) (hs : step s .writeByte = some s') : Inv k s' := by
  simp only [step] at hs
  split at hs
  · rename_i m res n hp
    obtain ⟨b, hb, rfl⟩ := Option.map_eq_some_iff.mp hs
    have hf : Filling k s.committed s.q.atomicR.seen s.q.buffer m res n := by
      have := h.producer
      rwa [hp] at this
    have hn : n < m.size := (List.getElem?_eq_some_iff.mp hb).1
    exact
      { h with
        stored := fun j m' hj hm' => by
          refine holds_update b (h.stored j m' hj hm') fun y hy => ?_
          exact h.reservation_ne hf hj hm' hn hy
        producer := { hf with filled := holds_take_succ hf.filled hb } }
  · cases hs

/-- Another message after the unread ones does not concern the consumer. -/
theorem consumerInv_append (h : Inv k s) (m : Message) :
    ConsumerInv k (s.committed ++ [m]) s.read.length s.q.atomicW.seen s.consumer := by
  have hc := h.consumer
  have hread : s.read.length ≤ s.committed.length := h.read_le.trans h.seenW_le
  revert hc
  cases s.consumer with
  | idle => exact id
  | reload => exact id
  | reading res got =>
      intro hc
      have hlt : s.read.length < s.committed.length := hc.front.trans_le h.seenW_le
      exact
        { front := hc.front
          buffer_eq := by rw [pos_append_of_le hread]; exact hc.buffer_eq
          currentReadPos_eq := by rw [pos_append_of_le hread]; exact hc.currentReadPos_eq
          got_eq := fun m' hm' => by
            rw [List.getElem?_append_left hlt] at hm'
            exact hc.got_eq m' hm' }

/-- The message just filled is stored, like the unread ones before it. -/
theorem stored_append (h : Inv k s) {m : Message} {res : WriteReservation}
    (hf : Filling k s.committed s.q.atomicR.seen s.q.buffer m res m.size) {j : ℕ} {m' : Message}
    (hj : s.read.length ≤ j) (hm' : (s.committed ++ [m])[j]? = some m') :
    Holds s.q.buffer (pos (s.committed ++ [m]) j % 2 ^ k) m'.bytes := by
  rcases Nat.lt_trichotomy j s.committed.length with hlt | heq | hgt
  · rw [List.getElem?_append_left hlt] at hm'
    rw [pos_append_of_le hlt.le]
    exact h.stored j m' hj hm'
  · subst j
    rw [List.getElem?_concat_length, Option.some.injEq] at hm'
    subst m'
    have hfull := hf.filled
    rw [List.take_of_length_le (show m.bytes.length ≤ m.size from le_rfl)] at hfull
    rwa [pos_append_of_le le_rfl, ← hf.buffer_eq]
  · rw [List.getElem?_eq_none (by simp; omega)] at hm'
    cases hm'

theorem commitWrite (h : Inv k s) (hs : step s .commitWrite = some s') : Inv k s' := by
  simp only [step] at hs
  split at hs
  · rename_i m res n hp
    split at hs
    · rename_i hn
      cases hs
      subst n
      have hf : Filling k s.committed s.q.atomicR.seen s.q.buffer m res m.size := by
        have := h.producer
        rwa [hp] at this
      have hread : s.read.length ≤ s.committed.length := h.read_le.trans h.seenW_le
      have hlast : pos (s.committed ++ [m]) (s.committed ++ [m]).length
          = pos s.committed s.committed.length + m.size := by
        rw [List.length_append, List.length_singleton, pos_append_length]
      have hr := pos_append_of_le hread [m]
      have hseenR := pos_append_of_le (h.seenR_le.trans hread) [m]
      have hseenW := pos_append_of_le h.seenW_le [m]
      exact
        { exp_lt := h.exp_lt
          capacity_eq := h.capacity_eq
          storesR := h.storesR.trans (words_append hread [m]).symm
          storesW := by
            show s.q.atomicW.stores ++ [res.newWritePos] = _
            rw [h.storesW, hf.newWritePos_eq, List.length_append, List.length_singleton,
              words_succ, words_append le_rfl, pos_append_length]
          w_eq := hf.newWritePos_eq.trans (congrArg _ hlast.symm)
          r_eq := h.r_eq.trans (congrArg _ hr.symm)
          cachedR_eq := h.cachedR_eq.trans (congrArg _ hseenR.symm)
          cachedW_eq := h.cachedW_eq.trans (congrArg _ hseenW.symm)
          seenR_le := h.seenR_le
          read_le := h.read_le
          seenW_le := h.seenW_le.trans (by simp)
          room := hlast.trans_le (hf.room.trans (Nat.add_le_add_right hseenR.ge _))
          stored := fun j m' hj hm' => h.stored_append hf hj hm'
          read_eq := by
            rw [List.take_append_of_le_length hread]
            exact h.read_eq
          producer := trivial
          consumer := h.consumerInv_append m }
    · cases hs
  · cases hs

theorem abandonWrite (h : Inv k s) (hs : step s .abandonWrite = some s') : Inv k s' := by
  simp only [step] at hs
  split at hs
  · cases hs
    exact { h with producer := trivial }
  · cases hs

/-! ### One step of the consumer -/

/-- A reservation made when the consumer's copy of the write position is ahead. -/
theorem readReservation (h : Inv k s) (hlt : s.read.length < s.q.atomicW.seen) :
    Inv k { s with consumer := .reading s.q.readReservation [] } where
  __ := h
  consumer :=
    { front := hlt
      buffer_eq := by
        show (s.q.r &&& s.q.wrapMask).toNat = _
        rw [h.r_eq, h.toNat_and_wrapMask]
      currentReadPos_eq := h.r_eq
      got_eq := fun m _ => by simp }

theorem reserveRead (h : Inv k s) (hs : step s .reserveRead = some s') : Inv k s' := by
  simp only [step] at hs
  split at hs
  · split at hs
    · cases hs
      exact { h with consumer := trivial }
    · rename_i hlt
      cases hs
      refine h.readReservation (lt_of_le_of_ne h.read_le fun heq => hlt ?_)
      rw [h.cachedW_eq, h.r_eq, heq]
      exact UInt64.le_refl _
  · cases hs

theorem reloadW (h : Inv k s) {q : Queue} {i : ℕ} (hq : s.q.loadW i = some q) :
    Inv k { s with q := q, consumer := .idle } := by
  simp only [loadW, Option.map_eq_some_iff, Prod.exists] at hq
  obtain ⟨v, a, hload, rfl⟩ := hq
  obtain ⟨hseen, hv, rfl⟩ := Atomic.load?_eq_some.mp hload
  rw [h.storesW] at hv
  obtain ⟨hi, rfl⟩ := getElem?_words hv
  exact
    { h with
      cachedW_eq := rfl
      read_le := h.read_le.trans hseen
      seenW_le := hi
      consumer := trivial }

/-- After a reload the two positions are equal exactly when nothing is unread, however
the counters have wrapped. -/
theorem cachedW_eq_r_iff (h : Inv k s) :
    s.q.cachedW = s.q.r ↔ s.q.atomicW.seen = s.read.length := by
  rw [h.cachedW_eq, h.r_eq, h.ofNat_pos_eq_iff h.read_le h.seenW_le]

theorem loadW (h : Inv k s) {i : ℕ} (hs : step s (.loadW i) = some s') : Inv k s' := by
  simp only [step] at hs
  split at hs
  · obtain ⟨q, hq, rfl⟩ := Option.map_eq_some_iff.mp hs
    have h' := h.reloadW hq
    split
    · exact h'
    · rename_i hne
      exact h'.readReservation
        (lt_of_le_of_ne h'.read_le fun heq => hne (h'.cachedW_eq_r_iff.mpr heq.symm))
  · cases hs

theorem readByte (h : Inv k s) (hs : step s .readByte = some s') : Inv k s' := by
  simp only [step] at hs
  split at hs
  · rename_i res got hc
    cases hs
    have hr : Reading k s.committed s.read.length s.q.atomicW.seen res got := by
      have := h.consumer
      rwa [hc] at this
    refine { h with consumer := { hr with got_eq := fun m hm => ?_ } }
    have hgot := hr.got_eq m hm
    by_cases hlt : got.length < m.size
    · obtain ⟨b, hb⟩ : ∃ b, m.bytes[got.length]? = some b :=
        ⟨_, List.getElem?_eq_getElem hlt⟩
      have hbyte := h.stored _ m le_rfl hm _ _ hb
      rw [← hr.buffer_eq] at hbyte
      rw [List.take_of_length_le (by omega)] at hgot
      rw [List.take_of_length_le (by simp; omega), List.length_append, List.length_singleton,
        List.take_add_one, ← hgot, hb, hbyte]
      rfl
    · rw [List.take_append_of_le_length (by omega), hgot, List.length_append,
        List.take_of_length_le (by unfold Message.size at hlt; omega),
        List.take_of_length_le (by unfold Message.size at hlt; omega)]
  · cases hs

theorem client_commitRead {n : ℕ} {res : ReadReservation} {got : List Byte}
    (hc : s.consumer = .reading res got) (hclient : Client s (.commitRead n)) :
    ∃ m, s.committed[s.read.length]? = some m ∧ n = m.size ∧ got.length = n := by
  obtain ⟨hfront, hheld⟩ := hclient
  obtain ⟨m, hm, hn⟩ := Option.map_eq_some_iff.mp hfront
  rw [hc, Consumer.held, Option.some.injEq] at hheld
  exact ⟨m, hm, hn.symm, hheld⟩

theorem commitRead (h : Inv k s) {n : ℕ} (hclient : Client s (.commitRead n))
    (hs : step s (.commitRead n) = some s') : Inv k s' := by
  simp only [step] at hs
  split at hs
  · rename_i res got hc
    cases hs
    obtain ⟨m, hm, rfl, hlen⟩ := client_commitRead hc hclient
    have hr : Reading k s.committed s.read.length s.q.atomicW.seen res got := by
      have := h.consumer
      rwa [hc] at this
    have hgot : got = m.bytes := by
      have := hr.got_eq m hm
      rwa [List.take_of_length_le hlen.le,
        List.take_of_length_le (show m.bytes.length ≤ got.length from hlen.ge)] at this
    have hnext : res.currentReadPos + UInt64.ofNat m.size
        = UInt64.ofNat (pos s.committed (s.read.length + 1)) := by
      rw [hr.currentReadPos_eq, pos_succ hm, UInt64.ofNat_add]
    have hlength : (s.read ++ [got]).length = s.read.length + 1 := by simp
    exact
      { exp_lt := h.exp_lt
        capacity_eq := h.capacity_eq
        storesR := by
          show s.q.atomicR.stores ++ [_] = words s.committed (s.read ++ [got]).length
          rw [h.storesR, hnext, hlength, words_succ]
        storesW := h.storesW
        w_eq := h.w_eq
        r_eq := hnext.trans (by rw [hlength])
        cachedR_eq := h.cachedR_eq
        cachedW_eq := h.cachedW_eq
        seenR_le := h.seenR_le.trans (by simp)
        read_le := hlength.trans_le hr.front
        seenW_le := h.seenW_le
        room := h.room
        stored := fun j m' hj hm' => by
          rw [hlength] at hj
          exact h.stored j m' (by omega) hm'
        read_eq := by
          rw [hlength, List.take_add_one, hm, List.map_append, ← h.read_eq, hgot]
          rfl
        producer := h.producer
        consumer := trivial }
  · cases hs

theorem abandonRead (h : Inv k s) (hs : step s .abandonRead = some s') : Inv k s' := by
  simp only [step] at hs
  split at hs
  · cases hs
    exact { h with consumer := trivial }
  · cases hs

/-- **Every step of a queue whose consumer is a client preserves the invariant.** -/
theorem step (h : Inv k s) {a : Action} (hclient : Client s a)
    (hs : Queue.step s a = some s') : Inv k s' := by
  cases a with
  | reserveWrite m => exact h.reserveWrite hs
  | loadR i => exact h.loadR hs
  | writeByte => exact h.writeByte hs
  | commitWrite => exact h.commitWrite hs
  | abandonWrite => exact h.abandonWrite hs
  | reserveRead => exact h.reserveRead hs
  | loadW i => exact h.loadW hs
  | readByte => exact h.readByte hs
  | commitRead n => exact h.commitRead hclient hs
  | abandonRead => exact h.abandonRead hs

/-- The invariant holds throughout every run. -/
theorem exec {c : ℕ} (hc : 2 * bitCeil c < 2 ^ 64) {as : List Action}
    (hclient : Along Client Queue.step (Machine.new c) as)
    (he : Transition.exec Queue.step (Machine.new c) as = some s) : Inv (Nat.clog 2 c) s :=
  exec_induction_along (Inv (Nat.clog 2 c)) (fun _ _ _ h => h.step) (inv_new hc) hclient he

end Inv

/-! ## The FIFO -/

/-- Where the `j`-th message committed starts in the buffer of a queue constructed with
the requested capacity `c`. -/
def slot (c : ℕ) (s : Machine) (j : ℕ) : ℕ := pos s.committed j % bitCeil c

/-- What the two sides of a queue may rely on. -/
structure Fifo (c : ℕ) (s : Machine) : Prop where
  /-- The messages read are the first ones committed, byte for byte. -/
  read_isPrefix : s.read <+: s.committed.map Message.bytes
  /-- Where `reserve_read` has returned a buffer, a whole committed message starts, and
  the bytes read so far are its bytes. -/
  reading : ∀ res got, s.consumer = .reading res got →
    ∃ m, s.committed[s.read.length]? = some m ∧ res.buffer = slot c s s.read.length ∧
      Holds s.q.buffer res.buffer m.bytes ∧ got.take m.size = m.bytes.take got.length
  /-- Every committed message not yet read is whole, and inside the allocation. -/
  unread : ∀ j m, s.read.length ≤ j → s.committed[j]? = some m →
    Holds s.q.buffer (slot c s j) m.bytes ∧ slot c s j + m.size ≤ 2 * bitCeil c
  /-- The region handed out by `reserve_write` is inside the allocation. -/
  region_le : ∀ m res n, s.producer = .filling m res n → res.buffer + m.size ≤ 2 * bitCeil c
  /-- It has no byte in common with a committed message that is not yet read. -/
  region_ne : ∀ m res n, s.producer = .filling m res n →
    ∀ j m', s.read.length ≤ j → s.committed[j]? = some m' →
      ∀ x < m.size, ∀ y < m'.size, res.buffer + x ≠ slot c s j + y

theorem Inv.size_le {k : ℕ} {s : Machine} (h : Inv k s) {j : ℕ} {m : Message}
    (hj : s.read.length ≤ j) (hm : s.committed[j]? = some m) : m.size ≤ 2 ^ k := by
  have hlt : j < s.committed.length := (List.getElem?_eq_some_iff.mp hm).1
  have hend : pos s.committed (j + 1) ≤ pos s.committed s.committed.length := pos_le_pos hlt
  have hstart : pos s.committed s.read.length ≤ pos s.committed j := pos_le_pos hj
  have hunread := h.unread_le
  rw [pos_succ hm] at hend
  omega

theorem Inv.fifo {c : ℕ} {s : Machine} (h : Inv (Nat.clog 2 c) s) : Fifo c s where
  read_isPrefix := by
    rw [h.read_eq, List.map_take]
    exact List.take_prefix _ _
  reading := fun res got hc => by
    have hr := h.consumer
    rw [hc] at hr
    have hlt : s.read.length < s.committed.length := hr.front.trans_le h.seenW_le
    have hm := List.getElem?_eq_getElem hlt
    refine ⟨_, hm, hr.buffer_eq, ?_, hr.got_eq _ hm⟩
    rw [hr.buffer_eq]
    exact h.stored _ _ le_rfl hm
  unread := fun j m hj hm =>
    ⟨h.stored j m hj hm, (Ring.spill_lt (h.size_le hj hm) (Nat.two_pow_pos _)).le⟩
  region_le := fun m res n hp => by
    have hf := h.producer
    rw [hp] at hf
    have hseen : pos s.committed s.q.atomicR.seen ≤ pos s.committed s.committed.length :=
      pos_le_pos (h.seenR_le.trans (h.read_le.trans h.seenW_le))
    have hroom := hf.room
    rw [hf.buffer_eq]
    exact (Ring.spill_lt (by omega) (Nat.two_pow_pos _)).le
  region_ne := fun m res n hp j m' hj hm' x hx y hy => by
    have hf := h.producer
    rw [hp] at hf
    exact h.reservation_ne hf hj hm' hx hy

/-- **The queue is a FIFO**: in every state that a producer and a consumer reach, in any
order of their steps and with any loads coherence allows. -/
theorem exec_fifo {c : ℕ} (hc : 2 * bitCeil c < 2 ^ 64) {as : List Action} {s : Machine}
    (hclient : Along Client step (Machine.new c) as)
    (he : exec step (Machine.new c) as = some s) : Fifo c s :=
  (Inv.exec hc hclient he).fifo

/-- Two messages of three bytes through a ring of four: the second one spills, and is
still being filled when the first has been read. -/
private def spillRun : List Action :=
  [.reserveWrite ⟨[1, 2, 3], by decide, by decide⟩, .writeByte, .writeByte, .writeByte,
    .commitWrite, .reserveRead, .loadW 1, .readByte, .readByte, .readByte, .commitRead 3,
    .reserveWrite ⟨[4, 5, 6], by decide, by decide⟩, .loadR 1, .writeByte, .writeByte]

theorem exec_fifo_spillRun :
    ∃ s, exec step (Machine.new 4) spillRun = some s ∧ s.read = [[1, 2, 3]] ∧ Fifo 4 s := by
  have hrun : ∃ s, exec step (Machine.new 4) spillRun = some s ∧ s.read = [[1, 2, 3]] :=
    ⟨_, rfl, rfl⟩
  obtain ⟨s, hs, hread⟩ := hrun
  exact ⟨s, hs, hread, exec_fifo (by decide) (by decide +kernel) hs⟩

end Papper.Queue
