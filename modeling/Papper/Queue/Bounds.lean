import Papper.Queue.Spsc

/-!
# The requested capacity and the bytes allocated

The constructor rounds the requested capacity up to a power of two and allocates twice as
many bytes, both computed in words.  Up to a request of `2 ^ 62` bytes the product is exact.
Beyond that the capacity is `2 ^ 63`, its double is zero, and a queue that claims to have
room for `2 ^ 63` bytes owns none.

## Main definitions

* `allocated c` — the bytes the constructor allocates.
* `InBounds c s` — the regions handed out are inside them.
* `inBounds_iff` — they are in every state exactly if the request is at most `2 ^ 62`.
-/

namespace Papper.Queue

open Transition

/-- `2 * _capacity`, the number of bytes the constructor asks `operator new` for. -/
def allocated (capacity : ℕ) : ℕ := (2 * (new capacity).capacity).toNat

/-- The regions handed out are inside the allocation: what `reserve_write` returns for any
size, where its comparison succeeds before or after the reload, what the producer holds, and
the front message where `reserve_read` has returned it. -/
structure InBounds (c : ℕ) (s : Machine) : Prop where
  granted : ∀ size : UInt64, ¬ s.q.freeSpace < size →
    (s.q.writeReservation size).buffer + size.toNat ≤ allocated c
  held : ∀ m res n, s.producer = .filling m res n → res.buffer + m.size ≤ allocated c
  front : ∀ res got m, s.consumer = .reading res got → s.committed[s.read.length]? = some m →
    res.buffer + m.size ≤ allocated c

theorem bitCeil_le {n k : ℕ} (h : n ≤ 2 ^ k) : bitCeil n ≤ 2 ^ k :=
  Nat.pow_le_pow_right (by decide) ((Nat.clog_le_iff_le_pow (by decide)).mpr h)

/-- A power of two between `2 ^ 62` and `2 ^ 63` is the latter. -/
theorem bitCeil_eq {c : ℕ} (h : 2 ^ 62 < c) (hc : c ≤ 2 ^ 63) : bitCeil c = 2 ^ 63 := by
  have hle : Nat.clog 2 c ≤ 63 := (Nat.clog_le_iff_le_pow (by decide)).mpr hc
  have hge : 62 < Nat.clog 2 c := (Nat.lt_clog_iff_pow_lt (by decide)).mpr h
  have heq : Nat.clog 2 c = 63 := by omega
  rw [bitCeil, heq]

/-- The product does not wrap. -/
theorem allocated_eq {c : ℕ} (hc : 2 * bitCeil c < 2 ^ 64) : allocated c = 2 * bitCeil c := by
  have hcapacity : ((new c).capacity).toNat = bitCeil c := by
    rw [new, UInt64.toNat_ofNat']
    omega
  have htwo : (2 : UInt64).toNat = 2 := rfl
  rw [allocated, UInt64.toNat_mul, hcapacity, htwo]
  omega

/-- **The invariant keeps every region inside.** -/
theorem Inv.inBounds {c : ℕ} {s : Machine} (h : Inv (Nat.clog 2 c) s)
    (hc : 2 * bitCeil c < 2 ^ 64) : InBounds c s := by
  have hfifo : Fifo c s := h.fifo
  constructor
  · intro size hsize
    have hspace := h.toNat_freeSpace
    have hle : pos s.committed s.q.atomicR.seen ≤ pos s.committed s.committed.length :=
      pos_le_pos (h.seenR_le.trans (h.read_le.trans h.seenW_le))
    have hpos : 0 < 2 ^ Nat.clog 2 c := Nat.two_pow_pos _
    have hfits : size.toNat ≤ 2 ^ Nat.clog 2 c := by
      rw [UInt64.lt_iff_toNat_lt] at hsize
      omega
    have hbuffer : (s.q.writeReservation size).buffer
        = pos s.committed s.committed.length % 2 ^ Nat.clog 2 c := by
      simp only [writeReservation, h.w_eq, h.toNat_and_wrapMask]
    rw [hbuffer, allocated_eq hc]
    exact (Ring.spill_lt hfits hpos).le
  · intro m res n hp
    rw [allocated_eq hc]
    exact hfifo.region_le m res n hp
  · intro res got m hread hm
    obtain ⟨m', hm', hbuffer, -⟩ := hfifo.reading res got hread
    obtain rfl := Option.some.inj (hm.symm.trans hm')
    rw [allocated_eq hc, hbuffer]
    exact (hfifo.unread _ m le_rfl hm).2

/-- A new queue that claims `2 ^ 63` bytes and owns none hands out a first byte. -/
theorem not_inBounds_new {c : ℕ} (h : 2 ^ 62 < c) (hc : c ≤ 2 ^ 63) :
    ¬ InBounds c (Machine.new c) := by
  intro hin
  have hallocated : allocated c = 0 := by
    rw [allocated, new, bitCeil_eq h hc]
    rfl
  have hfree : ¬ (Machine.new c).q.freeSpace < 1 := by
    simp only [freeSpace, Machine.new, new, bitCeil_eq h hc]
    decide
  have hregion := hin.granted 1 hfree
  rw [hallocated] at hregion
  have hone : (1 : UInt64).toNat = 1 := rfl
  omega

/-- **No region is out of bounds exactly if the requested capacity is at most `2 ^ 62`.**
For every request that `std::bit_ceil` is defined for, in every state the two sides
reach. -/
theorem inBounds_iff {c : ℕ} (hc : c ≤ 2 ^ 63) :
    (∀ as s, Along Client step (Machine.new c) as → exec step (Machine.new c) as = some s →
      InBounds c s) ↔ c ≤ 2 ^ 62 := by
  constructor
  · intro h
    by_contra hgt
    exact not_inBounds_new (by omega) hc (h [] _ trivial rfl)
  · intro hle as s hclient hexec
    have hceil := bitCeil_le hle
    have hdouble : 2 * bitCeil c < 2 ^ 64 := by omega
    exact (Inv.exec hdouble hclient hexec).inBounds hdouble

/-- The largest request that is served. -/
theorem inBounds_iff_max :
    (∀ as s, Along Client step (Machine.new (2 ^ 62)) as →
      exec step (Machine.new (2 ^ 62)) as = some s → InBounds (2 ^ 62) s) ↔ 2 ^ 62 ≤ 2 ^ 62 :=
  inBounds_iff (by decide)

/-- The next one gets zero bytes. -/
theorem not_inBounds_next :
    allocated (2 ^ 62 + 1) = 0 ∧
      ¬ ∀ as s, Along Client step (Machine.new (2 ^ 62 + 1)) as →
        exec step (Machine.new (2 ^ 62 + 1)) as = some s → InBounds (2 ^ 62 + 1) s := by
  constructor
  · rw [allocated, new, bitCeil_eq (by decide) (by decide)]
    rfl
  · intro h
    exact not_inBounds_new (by decide) (by decide) (h [] _ trivial rfl)

end Papper.Queue
