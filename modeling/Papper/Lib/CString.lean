import Mathlib.Data.List.DropRight
import Papper.Lib.Memory

/-!
# C strings in a buffer

A buffer is the list of its bytes, and a pointer into it is an index.  An access outside of the
buffer has no result, and neither has what is computed from it; so that a program is shown to keep
to its buffers by showing that it has one.

`Spells buffer text` says that a buffer holds a string: its characters and a zero after them,
whatever is behind.  The functions are the loops that C programs write over such strings.

## Main definitions

* `Spells` — the string in a buffer.
* `text` — up to the zero.
* `store` — a block of bytes, as `memcpy` does.
* `clearTrailing`, `skipLeading` — what removes the blanks at both ends.
* `scanBack` — from the end to a character, with the test of the end behind that of the
  character.
-/

namespace Papper.CString

variable {c : Byte} {buffer buffer' string : List Byte}

/-- The buffer holds the characters, none of them zero, and then a zero. -/
def Spells (buffer string : List Byte) : Prop :=
  0 ∉ string ∧ ∃ rest, buffer = string ++ 0 :: rest

/-- The characters up to the zero. -/
def text : List Byte → Option (List Byte)
  | [] => none
  | b :: buffer => if b = 0 then some [] else (text buffer).map (b :: ·)

theorem text_of_spells (h : Spells buffer string) : text buffer = some string := by
  obtain ⟨hzero, rest, rfl⟩ := h
  induction string with
  | nil => simp [text]
  | cons b string ih =>
    rw [List.mem_cons, not_or] at hzero
    simp [text, ih hzero.2, Ne.symm hzero.1]

/-- Without a zero the end of the buffer is passed. -/
theorem text_eq_none_iff : text buffer = none ↔ 0 ∉ buffer := by
  induction buffer with
  | nil => simp [text]
  | cons b buffer ih =>
    by_cases hb : b = 0
    · simp [text, hb]
    · simp [text, hb, ih, Ne.symm hb]

theorem spells_takeWhile (h : 0 ∈ buffer) : Spells buffer (buffer.takeWhile (· != 0)) := by
  induction buffer with
  | nil => exact absurd h List.not_mem_nil
  | cons b buffer ih =>
    by_cases hb : b = 0
    · exact ⟨by simp [hb], buffer, by simp [hb]⟩
    · obtain ⟨hzero, rest, hrest⟩ := ih (by simpa [Ne.symm hb] using h)
      rw [List.takeWhile_cons_of_pos (by simpa using hb)]
      exact ⟨by simp [hzero, Ne.symm hb], rest, by rw [List.cons_append, ← hrest]⟩

/-! ## Blocks -/

/-- Bytes written from an index on. -/
def store (buffer : List Byte) (start : ℕ) (bytes : List Byte) : Option (List Byte) :=
  if start + bytes.length ≤ buffer.length then
    some (buffer.take start ++ bytes ++ buffer.drop (start + bytes.length))
  else none

/-- **Blocks stored one after another**, from the start of a buffer. -/
theorem foldlM_store {size : ℕ} {block : ℕ → List Byte} (hsize : ∀ i, (block i).length = size)
    (hpos : 0 < size) (buffer : List Byte) (n : ℕ) :
    (List.range n).foldlM (fun buffer i => store buffer (i * size) (block i)) buffer
      = if n * size ≤ buffer.length then
          some ((List.range n).flatMap block ++ buffer.drop (n * size))
        else none := by
  induction n with
  | zero => simp
  | succ n ih =>
    have hlength : ((List.range n).flatMap block).length = n * size := by
      simp [List.length_flatMap, hsize]
    rw [List.range_succ, List.foldlM_append, ih, Nat.succ_mul]
    split
    · rename_i hfits
      -- what is before the block stays, and so does what is behind it
      have htake : (((List.range n).flatMap block) ++ buffer.drop (n * size)).take (n * size)
          = (List.range n).flatMap block := by
        rw [← hlength, List.take_left]
      have hdrop : (((List.range n).flatMap block) ++ buffer.drop (n * size)).drop
          (n * size + size) = buffer.drop (n * size + size) := by
        rw [List.drop_append, List.drop_eq_nil_of_le (by omega), List.nil_append, hlength,
          List.drop_drop]
        congr 1
        omega
      have htotal : (((List.range n).flatMap block) ++ buffer.drop (n * size)).length
          = buffer.length := by
        rw [List.length_append, hlength, List.length_drop]
        omega
      simp only [Option.bind_eq_bind, Option.bind_some, List.foldlM_cons, List.foldlM_nil, store,
        hsize, htotal, htake, hdrop]
      split <;> simp
    · rename_i hfits
      rw [if_neg (by omega)]
      rfl

/-! ## Both ends -/

/-- `for (end = &start[last]; end > start && *end == c; end--) *end = 0`. -/
def clearTrailing (c : Byte) (buffer : List Byte) : ℕ → List Byte
  | 0 => buffer
  | last + 1 =>
    if buffer[last + 1]? = some c then clearTrailing c (buffer.set (last + 1) 0) last else buffer

/-- `for (; *start == c; start++)`. -/
def skipLeading (c : Byte) : List Byte → Option (List Byte)
  | [] => none
  | b :: buffer => if b = c then skipLeading c buffer else some (b :: buffer)

/-- The loop that clears stops at the first character, whatever that is. -/
theorem spells_clearTrailing {b : Byte} (h : Spells buffer (b :: string)) :
    Spells (clearTrailing c buffer string.length) (b :: string.rdropWhile (· == c)) := by
  induction string using List.reverseRecOn generalizing buffer with
  | nil => simpa [clearTrailing] using h
  | append_singleton string d ih =>
    obtain ⟨hzero, rest, rfl⟩ := h
    have hlast : (b :: (string ++ [d]) ++ 0 :: rest)[string.length + 1]? = some d := by
      simp
    rw [List.length_append, List.length_singleton, clearTrailing, hlast]
    by_cases hd : d = c
    · rw [if_pos (congrArg some hd), List.rdropWhile_concat_pos _ _ _ (by simpa using hd)]
      refine ih ⟨fun hmem => hzero ?_, 0 :: rest, ?_⟩
      · rw [← List.cons_append]
        exact List.mem_append_left _ hmem
      · simp
    · rw [if_neg (by simpa using hd), List.rdropWhile_concat_neg _ _ _ (by simpa using hd)]
      exact ⟨hzero, rest, rfl⟩

theorem spells_skipLeading (hc : c ≠ 0) (h : Spells buffer string) :
    ∃ buffer', skipLeading c buffer = some buffer' ∧
      Spells buffer' (string.dropWhile (· == c)) := by
  obtain ⟨hzero, rest, rfl⟩ := h
  induction string with
  | nil => exact ⟨0 :: rest, by simp [skipLeading, hc.symm], List.not_mem_nil, rest, rfl⟩
  | cons b string ih =>
    rw [List.mem_cons, not_or] at hzero
    by_cases hb : b = c
    · obtain ⟨buffer', hskip, hspells⟩ := ih hzero.2
      refine ⟨buffer', ?_, ?_⟩
      · rw [List.cons_append, skipLeading, if_pos hb, hskip]
      · rwa [List.dropWhile_cons_of_pos (by simpa using hb)]
    · refine ⟨b :: (string ++ 0 :: rest), ?_, ?_⟩
      · rw [List.cons_append, skipLeading, if_neg hb]
      · rw [List.dropWhile_cons_of_neg (by simpa using hb)]
        exact ⟨by simp [hzero.1, hzero.2], rest, rfl⟩

/-- Without `c` at the end, and then without `c` at the start. -/
def trimmed (c : Byte) (string : List Byte) : List Byte :=
  (string.rdropWhile (· == c)).dropWhile (· == c)

theorem rdropWhile_cons (p : Byte → Bool) (b : Byte) (string : List Byte) :
    (b :: string).rdropWhile p
      = if string.rdropWhile p = [] ∧ p b then [] else b :: string.rdropWhile p := by
  induction string using List.reverseRecOn with
  | nil => cases hb : p b <;> simp [hb, List.rdropWhile_singleton]
  | append_singleton string d ih =>
    rw [← List.cons_append]
    cases hd : p d
    · rw [List.rdropWhile_concat_neg _ _ _ (by simp [hd]),
        List.rdropWhile_concat_neg _ _ _ (by simp [hd])]
      simp
    · rw [List.rdropWhile_concat_pos _ _ _ hd, List.rdropWhile_concat_pos _ _ _ hd, ih]

/-- **The two loops trim the string.**  The first leaves the first character to the second. -/
theorem spells_trimmed (hc : c ≠ 0) (h : Spells buffer string) :
    ∃ buffer', skipLeading c (clearTrailing c buffer (string.length - 1)) = some buffer' ∧
      Spells buffer' (trimmed c string) := by
  cases string with
  | nil =>
    simpa [clearTrailing, trimmed] using spells_skipLeading hc h
  | cons b string =>
    obtain ⟨buffer', hskip, hspells⟩ := spells_skipLeading hc (spells_clearTrailing h)
    refine ⟨buffer', hskip, ?_⟩
    rw [trimmed, rdropWhile_cons]
    split
    · rename_i hblank
      rw [hblank.1] at hspells
      simpa [List.dropWhile, hblank.2] using hspells
    · exact hspells

/-! ## Backwards -/

/-- `while (*end != c && end >= start) end--`, from the index `last`: where it stops.  The
character is looked at first, so that the loop does not stop at the start. -/
def scanBack (c : Byte) (buffer : List Byte) : ℕ → Option ℕ
  | 0 => buffer[0]?.bind fun b => if b = c then some 0 else none
  | last + 1 => buffer[last + 1]?.bind fun b =>
      if b = c then some (last + 1) else scanBack c buffer last

theorem exists_getElem? {i : ℕ} (hi : i < buffer.length) : ∃ b, buffer[i]? = some b :=
  ⟨_, List.getElem?_eq_getElem hi⟩

/-- **It passes the start of the buffer exactly if there is no such character.** -/
theorem scanBack_eq_none_iff {last : ℕ} (hlast : last < buffer.length) :
    scanBack c buffer last = none ↔ c ∉ buffer.take (last + 1) := by
  induction last with
  | zero =>
    obtain ⟨b, hb⟩ := exists_getElem? hlast
    rw [List.take_add_one, hb]
    simp [scanBack, hb, eq_comm]
  | succ last ih =>
    obtain ⟨b, hb⟩ := exists_getElem? hlast
    rw [List.take_add_one, hb, List.mem_append, not_or, ← ih (by omega)]
    by_cases hbc : b = c
    · simp [scanBack, hb, hbc]
    · simp [scanBack, hb, hbc, Ne.symm hbc]

/-- **It stops at the last one**: there is none in what it has passed. -/
theorem drop_of_scanBack {last i : ℕ} (hlast : last < buffer.length)
    (h : scanBack c buffer last = some i) :
    buffer.drop (i + 1)
      = (buffer.take (last + 1)).rtakeWhile (· != c) ++ buffer.drop (last + 1) := by
  induction last with
  | zero =>
    obtain ⟨b, hb⟩ := exists_getElem? hlast
    simp only [scanBack, hb, Option.bind_some, Option.ite_none_right_eq_some,
      Option.some.injEq] at h
    obtain ⟨rfl, rfl⟩ := h
    rw [List.take_add_one, hb]
    simp [List.rtakeWhile]
  | succ last ih =>
    obtain ⟨b, hb⟩ := exists_getElem? hlast
    rw [List.take_add_one, hb, Option.toList_some]
    simp only [scanBack, hb, Option.bind_some] at h
    split at h
    · rename_i hbc
      cases h
      rw [List.rtakeWhile_concat_neg _ _ _ (by simpa using hbc), List.nil_append]
    · rename_i hbc
      have hdrop : buffer.drop (last + 1) = b :: buffer.drop (last + 1 + 1) := by
        rw [List.drop_eq_getElem_cons hlast, ← Option.some.inj
          ((List.getElem?_eq_getElem hlast).symm.trans hb)]
      rw [List.rtakeWhile_concat_pos _ _ _ (by simpa using hbc), List.append_assoc,
        ih (by omega) h, hdrop, List.singleton_append]

end Papper.CString
