import Mathlib.Data.Vector.Basic
import Mathlib.Tactic.NormNum
import Papper.Lib.Memory

/-!
# Encoding of log arguments

`Codec<T>` exists for the trivially copyable types, which are copied as they lie in
memory, and for `std::basic_string`, which is copied behind its length.  A value of
the first kind is its object representation; a value of the second is its characters,
each of them `sizeof(CharT)` bytes.

Encoders and decoders take a cursor by reference and move it past what they wrote or
read.  An encoder is the list of bytes it writes from the cursor on, so consecutive
encoders append; a decoder reads memory at the cursor and returns the new one.

## Main definitions

* `ArgType`, `ArgType.Value` — the types with a codec and their values.
* `encodedSize`, `encode`, `decode` — the three members of `Codec<T>`.
* `Args` — the values of one parameter pack.
* `decode_encode`, `decodeArgs_encodeArgs` — what is encoded is decoded.
-/

namespace Papper

open Memory

/-- A type with a codec: its name, which is all that formatting has to go by, and the
size the codec works with. -/
inductive ArgType
  /-- A trivially copyable type `T` and `sizeof(T)`. -/
  | trivial (name : String) (size : ℕ)
  /-- `std::basic_string<CharT, Traits, Alloc>` and `sizeof(CharT)`. -/
  | basicString (name : String) (charSize : ℕ)
  deriving DecidableEq

/-- The value of a `std::basic_string`: characters of a fixed size, as many as a
`size_t` can count. -/
structure BasicString (charSize : ℕ) where
  chars : List (List.Vector Byte charSize)
  length_lt : chars.length < 2 ^ 64

namespace ArgType

/-- The values of a type. -/
abbrev Value : ArgType → Type
  | .trivial _ size => List.Vector Byte size
  | .basicString _ charSize => BasicString charSize

end ArgType

namespace Codec

/-- `sizeof(size_t)`, and the size of a pointer. -/
def wordSize : ℕ := 8

/-- `Codec<T>::encoded_size`. -/
def encodedSize : (t : ArgType) → t.Value → UInt64
  | .trivial _ size, _ => UInt64.ofNat size
  | .basicString _ charSize, s =>
      UInt64.ofNat wordSize + UInt64.ofNat (BasicString.chars s).length * UInt64.ofNat charSize

/-- `Codec<T>::encode`. -/
def encode : (t : ArgType) → t.Value → List Byte
  | .trivial _ _, v => List.Vector.toList v
  | .basicString _ _, s =>
      littleEndian wordSize (BasicString.chars s).length ++
        (BasicString.chars s).flatMap List.Vector.toList

/-- The bytes at an address, as the object representation of a value of that size. -/
def readVector (mem : ℕ → Byte) (cursor n : ℕ) : List.Vector Byte n :=
  ⟨readBytes mem cursor n, length_readBytes mem cursor n⟩

/-- `value.resize(length)` followed by the copy of all the characters. -/
def readChars (mem : ℕ → Byte) (cursor charSize length : ℕ) : List (List.Vector Byte charSize) :=
  (List.range length).map fun i => readVector mem (cursor + i * charSize) charSize

theorem length_readChars_lt (mem : ℕ → Byte) (cursor start charSize : ℕ) :
    (readChars mem start charSize (ofLittleEndian (readBytes mem cursor wordSize))).length
      < 2 ^ 64 := by
  have h := ofLittleEndian_lt (readBytes mem cursor wordSize)
  have hword : 256 ^ wordSize = 2 ^ 64 := by norm_num [wordSize]
  rw [length_readBytes, hword] at h
  rwa [readChars, List.length_map, List.length_range]

/-- `Codec<T>::decode`: the value, and the cursor past it. -/
def decode : (t : ArgType) → (ℕ → Byte) → ℕ → t.Value × ℕ
  | .trivial _ size, mem, cursor => (readVector mem cursor size, cursor + size)
  | .basicString _ charSize, mem, cursor =>
      let length := ofLittleEndian (readBytes mem cursor wordSize)
      let s : BasicString charSize :=
        { chars := readChars mem (cursor + wordSize) charSize length
          length_lt := length_readChars_lt mem cursor _ charSize }
      (s, cursor + wordSize + length * charSize)

/-- The number of bytes `encode` writes, counted without wrapping. -/
def size (t : ArgType) (v : t.Value) : ℕ := (encode t v).length

/-! ## One value -/

theorem length_flatMap_toList {n : ℕ} (cs : List (List.Vector Byte n)) :
    (cs.flatMap List.Vector.toList).length = cs.length * n := by
  induction cs with
  | nil => simp
  | cons c cs ih => simp [ih, Nat.succ_mul, Nat.add_comm]

/-- `encoded_size` is the number of bytes written, as a `size_t`. -/
theorem encodedSize_eq (t : ArgType) (v : t.Value) :
    encodedSize t v = UInt64.ofNat (size t v) := by
  cases t with
  | trivial name n =>
      rw [encodedSize, size, encode, List.Vector.toList_length]
  | basicString name n =>
      simp only [encodedSize, size, encode, List.length_append, length_littleEndian,
        length_flatMap_toList, UInt64.ofNat_add, UInt64.ofNat_mul]

theorem readVector_eq {mem : ℕ → Byte} {cursor n : ℕ} {v : List.Vector Byte n}
    (h : Holds mem cursor v.toList) : readVector mem cursor n = v := by
  refine List.Vector.toList_injective ?_
  exact h.readBytes_eq (by simp)

theorem readChars_eq {mem : ℕ → Byte} {n : ℕ} :
    ∀ {cursor : ℕ} {cs : List (List.Vector Byte n)},
      Holds mem cursor (cs.flatMap List.Vector.toList) → readChars mem cursor n cs.length = cs := by
  intro cursor cs
  induction cs generalizing cursor with
  | nil => intro _; rfl
  | cons c cs ih =>
      intro h
      rw [List.flatMap_cons] at h
      have hhead : readVector mem cursor n = c := readVector_eq h.append_left
      have htail : readChars mem (cursor + n) n cs.length = cs :=
        ih (by simpa using h.append_right)
      have hshift : ∀ i, cursor + (i + 1) * n = cursor + n + i * n := by
        intro i
        rw [Nat.succ_mul]
        omega
      unfold readChars at htail ⊢
      rw [List.length_cons, List.range_succ_eq_map, List.map_cons, List.map_map, Nat.zero_mul,
        Nat.add_zero, hhead]
      simp only [Function.comp_def, Nat.succ_eq_add_one, hshift]
      rw [htail]

/-- **Decoding returns the value encoded and moves the cursor past it.** -/
theorem decode_encode {mem : ℕ → Byte} {cursor : ℕ} {t : ArgType} {v : t.Value}
    (h : Holds mem cursor (encode t v)) : decode t mem cursor = (v, cursor + size t v) := by
  cases t with
  | trivial name n =>
      have hsize : size (.trivial name n) v = n := List.Vector.toList_length v
      rw [decode, readVector_eq h, hsize]
  | basicString name n =>
      obtain ⟨cs, hlt⟩ := v
      have hlen : ofLittleEndian (readBytes mem cursor wordSize) = cs.length := by
        rw [h.append_left.readBytes_eq (by simp), ofLittleEndian_littleEndian]
        exact Nat.mod_eq_of_lt hlt
      have hsize : size (.basicString name n) ⟨cs, hlt⟩ = wordSize + cs.length * n := by
        show (littleEndian wordSize cs.length ++ cs.flatMap List.Vector.toList).length = _
        rw [List.length_append, length_littleEndian, length_flatMap_toList]
      have hchars := h.append_right
      rw [length_littleEndian] at hchars
      simp only [decode, hlen, readChars_eq hchars, hsize, Nat.add_assoc]

end Codec

/-! ## A parameter pack -/

/-- The values of a list of types. -/
inductive Args : List ArgType → Type
  | nil : Args []
  | cons {t : ArgType} {ts : List ArgType} (v : t.Value) (rest : Args ts) : Args (t :: ts)

namespace Codec

/-- `(Codec<...>::encoded_size(args) + ...)`, zero for an empty pack. -/
def totalArgsSize : {ts : List ArgType} → Args ts → UInt64
  | _, .nil => 0
  | _, .cons (t := t) v rest => encodedSize t v + totalArgsSize rest

/-- `(Codec<...>::encode(buffer, args), ...)`. -/
def encodeArgs : {ts : List ArgType} → Args ts → List Byte
  | _, .nil => []
  | _, .cons (t := t) v rest => encode t v ++ encodeArgs rest

/-- `(Codec<...>::decode(args_data, std::get<Is>(args)), ...)`. -/
def decodeArgs : (ts : List ArgType) → (ℕ → Byte) → ℕ → Args ts × ℕ
  | [], _, cursor => (.nil, cursor)
  | t :: ts, mem, cursor =>
      let first := decode t mem cursor
      let rest := decodeArgs ts mem first.2
      (.cons first.1 rest.1, rest.2)

theorem totalArgsSize_eq {ts : List ArgType} (args : Args ts) :
    totalArgsSize args = UInt64.ofNat (encodeArgs args).length := by
  induction args with
  | nil => rfl
  | cons v rest ih =>
      rw [totalArgsSize, encodeArgs, List.length_append, UInt64.ofNat_add, ← ih, encodedSize_eq,
        size]

theorem decodeArgs_encodeArgs {ts : List ArgType} {args : Args ts} {mem : ℕ → Byte} :
    ∀ {cursor : ℕ}, Holds mem cursor (encodeArgs args) →
      decodeArgs ts mem cursor = (args, cursor + (encodeArgs args).length) := by
  induction args with
  | nil => intro cursor _; rfl
  | cons v rest ih =>
      intro cursor h
      have hrest := ih h.append_right
      rw [decodeArgs, decode_encode h.append_left]
      simp only [size, hrest, encodeArgs, List.length_append, Nat.add_assoc]

end Codec

end Papper
