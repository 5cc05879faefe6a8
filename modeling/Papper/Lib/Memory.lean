import Mathlib.Algebra.Group.Nat.Defs
import Mathlib.Data.List.Range
import Mathlib.Data.Nat.Basic
import Mathlib.Logic.Function.Basic
import Mathlib.Tactic.Common

/-!
# Bytes in memory

A memory is a map from addresses to bytes.  `Holds mem a bs` says that the bytes `bs`
lie at `a`, and `readBytes mem a n` copies `n` bytes out, as `memcpy` does.  The two
fit together block by block, so that what was written as a concatenation can be read
back field by field.

`littleEndian n` is the object representation of an `n`-byte unsigned integer.

## Main definitions

* `Holds`, `readBytes`, `writeBytes` — the contents of a region.
* `littleEndian`, `ofLittleEndian` — unsigned integers as bytes.
-/

namespace Papper

abbrev Byte := UInt8

namespace Memory

/-! ## Regions -/

/-- The bytes lie in memory, from the address `start` on. -/
def Holds (mem : ℕ → Byte) (start : ℕ) (bs : List Byte) : Prop :=
  ∀ x b, bs[x]? = some b → mem (start + x) = b

theorem holds_nil (mem : ℕ → Byte) (start : ℕ) : Holds mem start [] := by
  intro x b h
  simp at h

/-- Filling the next byte. -/
theorem holds_take_succ {mem : ℕ → Byte} {start n : ℕ} {bs : List Byte} {b : Byte}
    (h : Holds mem start (bs.take n)) (hb : bs[n]? = some b) :
    Holds (Function.update mem (start + n) b) start (bs.take (n + 1)) := by
  intro x c hx
  rw [List.getElem?_take] at hx
  by_cases hxn : x = n
  · subst x
    rw [if_pos (by omega), hb, Option.some.injEq] at hx
    simp [hx]
  · have hlt : x < n := by
      by_contra hge
      rw [if_neg (by omega)] at hx
      cases hx
    rw [if_pos (by omega)] at hx
    rw [Function.update_of_ne (by omega)]
    exact h x c (by rw [List.getElem?_take, if_pos hlt, hx])

/-- A byte written elsewhere changes nothing. -/
theorem holds_update {mem : ℕ → Byte} {start a : ℕ} {bs : List Byte} (b : Byte)
    (h : Holds mem start bs) (hne : ∀ x < bs.length, a ≠ start + x) :
    Holds (Function.update mem a b) start bs := by
  intro x c hx
  have hlt : x < bs.length := (List.getElem?_eq_some_iff.mp hx).1
  rw [Function.update_of_ne (hne x hlt).symm]
  exact h x c hx

theorem Holds.append_left {mem : ℕ → Byte} {start : ℕ} {bs cs : List Byte}
    (h : Holds mem start (bs ++ cs)) : Holds mem start bs := by
  intro x b hx
  exact h x b (by rw [List.getElem?_append_left (List.getElem?_eq_some_iff.mp hx).1, hx])

theorem Holds.append_right {mem : ℕ → Byte} {start : ℕ} {bs cs : List Byte}
    (h : Holds mem start (bs ++ cs)) : Holds mem (start + bs.length) cs := by
  intro x b hx
  rw [Nat.add_assoc]
  exact h _ b (by rw [List.getElem?_append_right (by omega), Nat.add_sub_cancel_left, hx])

/-- Copy `n` bytes out of memory. -/
def readBytes (mem : ℕ → Byte) (start n : ℕ) : List Byte :=
  (List.range n).map fun i => mem (start + i)

@[simp] theorem length_readBytes (mem : ℕ → Byte) (start n : ℕ) :
    (readBytes mem start n).length = n := by
  simp [readBytes]

/-- Reading a block back. -/
theorem Holds.readBytes_eq {mem : ℕ → Byte} {start n : ℕ} {bs : List Byte}
    (h : Holds mem start bs) (hn : n = bs.length) : readBytes mem start n = bs := by
  subst n
  refine List.ext_getElem (by simp) fun i _ hi => ?_
  simpa [readBytes] using h i _ (List.getElem?_eq_getElem hi)

/-- Copy bytes into memory. -/
def writeBytes (mem : ℕ → Byte) (start : ℕ) (bs : List Byte) : ℕ → Byte := fun a =>
  if start ≤ a then (bs[a - start]?).getD (mem a) else mem a

@[simp] theorem writeBytes_nil (mem : ℕ → Byte) (start : ℕ) : writeBytes mem start [] = mem := by
  funext a
  simp [writeBytes]

/-- Bytes are copied one after another. -/
theorem writeBytes_take_succ (mem : ℕ → Byte) (start : ℕ) {bs : List Byte} {n : ℕ} {b : Byte}
    (hb : bs[n]? = some b) :
    writeBytes mem start (bs.take (n + 1))
      = Function.update (writeBytes mem start (bs.take n)) (start + n) b := by
  funext a
  by_cases ha : a = start + n
  · subst a
    simp [writeBytes, hb]
  · rw [Function.update_of_ne ha]
    by_cases hlt : a - start < n
    · simp only [writeBytes, List.getElem?_take, if_pos hlt, if_pos (Nat.lt_succ_of_lt hlt)]
    · by_cases hstart : start ≤ a
      · have hge : ¬ a - start < n + 1 := by omega
        simp only [writeBytes, List.getElem?_take, if_neg hlt, if_neg hge]
      · simp only [writeBytes, if_neg hstart]

/-! ## Unsigned integers -/

/-- The `n` low-order bytes of `v`, least significant first. -/
def littleEndian : ℕ → ℕ → List Byte
  | 0, _ => []
  | n + 1, v => UInt8.ofNat v :: littleEndian n (v / 256)

/-- The value of bytes given least significant first. -/
def ofLittleEndian : List Byte → ℕ
  | [] => 0
  | b :: bs => b.toNat + 256 * ofLittleEndian bs

@[simp] theorem length_littleEndian (n v : ℕ) : (littleEndian n v).length = n := by
  induction n generalizing v with
  | zero => rfl
  | succ n ih => simp [littleEndian, ih]

theorem ofLittleEndian_littleEndian (n v : ℕ) :
    ofLittleEndian (littleEndian n v) = v % 256 ^ n := by
  induction n generalizing v with
  | zero => simp [littleEndian, ofLittleEndian, Nat.mod_one]
  | succ n ih =>
      have hb : (UInt8.ofNat v).toNat = v % 256 := by simp
      rw [littleEndian, ofLittleEndian, ih, hb, Nat.pow_succ', Nat.mod_mul]

theorem ofLittleEndian_lt (bs : List Byte) : ofLittleEndian bs < 256 ^ bs.length := by
  induction bs with
  | nil => simp [ofLittleEndian]
  | cons b bs ih =>
      have hb : b.toNat < 256 := b.toNat_lt
      rw [ofLittleEndian, List.length_cons, Nat.pow_succ']
      omega

/-- A word is read back from its eight bytes. -/
theorem ofNat_ofLittleEndian (v : UInt64) :
    UInt64.ofNat (ofLittleEndian (littleEndian 8 v.toNat)) = v := by
  have hv : v.toNat < 256 ^ 8 := v.toNat_lt
  rw [ofLittleEndian_littleEndian, Nat.mod_eq_of_lt hv, UInt64.ofNat_toNat]

end Memory

end Papper
