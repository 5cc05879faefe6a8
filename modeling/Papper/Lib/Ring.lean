import Mathlib.Data.Nat.ModEq
import Mathlib.Tactic.Ring

/-!
# Wrapping positions and a buffer with room for one spill

Two facts about ring buffers whose read and write positions are free-running
machine words.

*Positions.*  A position is an unbounded count of bytes, of which the program only
has the residue modulo `2 ^ 64`.  Differences of positions that are close together
survive the wrap (`toNat_distance`), distinct close positions have distinct words
(`ofNat_ne_ofNat`), and a power-of-two mask commutes with the wrap
(`toNat_ofNat_and_mask`).

*Spills.*  A block of bytes starts at its position modulo the capacity and then
runs on past the end of the ring, into a second half that nothing is mirrored in.
`spill_ne` says when that is sound: two blocks that fit in one capacity together,
the gap between them included, have no byte in common.
-/

namespace Papper.Ring

/-- The distance from `w` to `r + c`, computed in words, is the true one. -/
theorem toNat_distance {r w : ℕ} {c : UInt64} (hrw : r ≤ w) (hw : w ≤ r + c.toNat) :
    (UInt64.ofNat r + c - UInt64.ofNat w).toNat = r + c.toNat - w := by
  have hc : c.toNat < 2 ^ 64 := c.toNat_lt
  rw [UInt64.toNat_sub, UInt64.toNat_add, UInt64.toNat_ofNat', UInt64.toNat_ofNat']
  omega

/-- Distinct positions less than a word apart are distinct words. -/
theorem ofNat_ne_ofNat {a b : ℕ} (hab : a < b) (hb : b < a + 2 ^ 64) :
    UInt64.ofNat a ≠ UInt64.ofNat b := by
  intro h
  have h' := congrArg UInt64.toNat h
  rw [UInt64.toNat_ofNat', UInt64.toNat_ofNat'] at h'
  omega

/-- Masking with a power of two less one is reduction modulo that power. -/
theorem toNat_and_mask (x : UInt64) {c : UInt64} {k : ℕ} (hk : k < 64) (hc : c.toNat = 2 ^ k) :
    (x &&& (c - 1)).toNat = x.toNat % 2 ^ k := by
  have hpos : 0 < 2 ^ k := Nat.two_pow_pos k
  have hlt : 2 ^ k < 2 ^ 64 := Nat.pow_lt_pow_right (by omega) hk
  have hmask : (c - 1).toNat = 2 ^ k - 1 := by
    rw [UInt64.toNat_sub, hc, UInt64.toNat_one]
    omega
  rw [UInt64.toNat_and, hmask, Nat.and_two_pow_sub_one_eq_mod]

/-- The mask does not see the wrap of the position. -/
theorem toNat_ofNat_and_mask (n : ℕ) {c : UInt64} {k : ℕ} (hk : k < 64) (hc : c.toNat = 2 ^ k) :
    (UInt64.ofNat n &&& (c - 1)).toNat = n % 2 ^ k := by
  rw [toNat_and_mask _ hk hc, UInt64.toNat_ofNat',
    Nat.mod_mod_of_dvd n (Nat.pow_dvd_pow 2 (by omega))]

/-- Positions less than one capacity apart are on the same lap or on adjacent
ones. -/
private theorem mod_cases {c p q : ℕ} (hc : 0 < c) (hpq : p ≤ q) (hq : q < p + c) :
    q % c = p % c + (q - p) ∨ q % c + c = p % c + (q - p) := by
  have hp := Nat.div_add_mod p c
  have hq' := Nat.div_add_mod q c
  have hlt := Nat.mod_lt p hc
  have hlt' := Nat.mod_lt q hc
  have hle : p / c ≤ q / c := Nat.div_le_div_right hpq
  have hlap : q / c ≤ p / c + 1 := by
    have h : q / c ≤ (p + c) / c := Nat.div_le_div_right hq.le
    rwa [Nat.add_div_right p hc] at h
  rcases (show q / c = p / c ∨ q / c = p / c + 1 by omega) with h | h
  · rw [h] at hq'
    omega
  · rw [h, Nat.mul_add, Nat.mul_one] at hq'
    omega

/-- **Spilled blocks are disjoint.**  A block of `s` bytes at position `p` and a
later one of `t` bytes at `q` that end within one capacity of `p` share no byte of
the doubled buffer. -/
theorem spill_ne {c p q s t i j : ℕ} (hpq : p + s ≤ q) (hq : q + t ≤ p + c)
    (hi : i < s) (hj : j < t) : p % c + i ≠ q % c + j := by
  have hc : 0 < c := by omega
  rcases mod_cases hc (show p ≤ q by omega) (show q < p + c by omega) with h | h <;> omega

/-- A block no larger than the capacity stays inside the doubled buffer. -/
theorem spill_lt {c p s : ℕ} (hs : s ≤ c) (hpos : 0 < c) : p % c + s < 2 * c := by
  have := Nat.mod_lt p hpos
  omega

end Papper.Ring
