import Mathlib.Data.List.Basic
import Mathlib.Data.Nat.Notation
import Papper.Lib.Loop
import Papper.Pattern.Grammar

/-!
# The pattern compiler, by index

`parse_pattern` on its arrays: the pattern is read at indices, and `ParsedPattern` is three
arrays of fixed size with the counts of what has been written.  The code checks the count of
the fields and nothing else.  It runs at compile time, where a write past the end of an array
is an error that stops it, so `write` fails there and says which array it was.

The scanner of `Papper.parsePattern` consumes a list and appends to lists.
`parsePattern_refines` says that the two come to the same.

## Main definitions

* `Result` — `ParsedPattern<MaxFmtStrLen, MaxFields>`.
* `Scan` — the index `i` and the result, at the head of the loop.
* `iteration`, `parsePattern` — the loop.
* `Result.toParsed` — what has been written, as lists.
-/

namespace Papper.Compiler

open Loop (Turn)

/-- A write past the end of one of the arrays. -/
inductive OutOfBounds
  | fmtStr (index : ℕ)
  | specs (index : ℕ)
  | fields (index : ℕ)
  deriving DecidableEq, Repr

/-- `array[index] = a`. -/
def write {α : Type} {size : ℕ} (fault : ℕ → OutOfBounds) (array : Vector α size) (index : ℕ)
    (a : α) : Except OutOfBounds (Vector α size) :=
  if h : index < size then .ok (array.set index a h) else .error (fault index)

/-- `ParsedPattern<MaxFmtStrLen, MaxFields>`. -/
structure Result (maxFmtStrLen maxFields : ℕ) where
  error : ParsingError
  fmtStr : Vector Char maxFmtStrLen
  fmtStrLen : ℕ
  fields : Vector PatternField maxFields
  specs : Vector PatternFieldFormatSpec maxFields
  fieldCount : ℕ
  deriving DecidableEq

namespace Result
variable {maxFmtStrLen maxFields : ℕ}

/-- `ParsedPattern<MaxFmtStrLen, MaxFields> result{}`: the elements of the arrays are zero. -/
def init : Result maxFmtStrLen maxFields where
  error := .None
  fmtStr := .replicate maxFmtStrLen '\x00'
  fmtStrLen := 0
  fields := .replicate maxFields .Level
  specs := .replicate maxFields .None
  fieldCount := 0

/-- `result.fmt_str[result.fmt_str_len++] = c`. -/
def pushChar (r : Result maxFmtStrLen maxFields) (c : Char) :
    Except OutOfBounds (Result maxFmtStrLen maxFields) := do
  let fmtStr ← write .fmtStr r.fmtStr r.fmtStrLen c
  return { r with fmtStr := fmtStr, fmtStrLen := r.fmtStrLen + 1 }

/-- A character at a time. -/
def pushChars (r : Result maxFmtStrLen maxFields) :
    List Char → Except OutOfBounds (Result maxFmtStrLen maxFields)
  | [] => return r
  | c :: cs => do
      let r' ← r.pushChar c
      r'.pushChars cs

/-- The spec and the field, and `result.field_count++`. -/
def pushField (r : Result maxFmtStrLen maxFields) (field : PatternField)
    (spec : PatternFieldFormatSpec) : Except OutOfBounds (Result maxFmtStrLen maxFields) := do
  let specs ← write .specs r.specs r.fieldCount spec
  let fields ← write .fields r.fields r.fieldCount field
  return { r with specs := specs, fields := fields, fieldCount := r.fieldCount + 1 }

end Result

/-- `expand_spec_into_result`. -/
def expandSpecIntoResult {maxFmtStrLen maxFields : ℕ} (spec : PatternFieldFormatSpec)
    (result : Result maxFmtStrLen maxFields) :
    Except OutOfBounds (Result maxFmtStrLen maxFields) :=
  result.pushChars (expansion spec)

/-! ## Indices into the pattern -/

/-- The search for the closing bracket, from `bracket_close_idx` on. -/
def bracketClose (pattern : List Char) (bracketCloseIdx : ℕ) : ℕ :=
  if h : bracketCloseIdx < pattern.length then
    if pattern[bracketCloseIdx] ≠ '}' then bracketClose pattern (bracketCloseIdx + 1)
    else bracketCloseIdx
  else bracketCloseIdx
termination_by pattern.length - bracketCloseIdx

/-- The field name and the spec name: `find_first_of` and the two `substr`. -/
def splitNameAndSpec (nameAndSpec : List Char) : List Char × List Char :=
  match nameAndSpec.findIdx? (· = ':') with
  | none => (nameAndSpec, [])
  | some separator => (nameAndSpec.take separator, nameAndSpec.drop (separator + 1))

/-! ## The loop -/

/-- The head of the loop. -/
structure Scan (maxFmtStrLen maxFields : ℕ) where
  i : ℕ
  result : Result maxFmtStrLen maxFields
  deriving DecidableEq

section Loop
variable {maxFmtStrLen maxFields : ℕ}

/-- The body of the loop at an opening brace that is not an escape. -/
def openingBrace (pattern : List Char) (s : Scan maxFmtStrLen maxFields) :
    Except OutOfBounds (Turn (Scan maxFmtStrLen maxFields) (Result maxFmtStrLen maxFields)) :=
  -- try to find the matching closing bracket
  let bracketCloseIdx := bracketClose pattern (s.i + 1)
  if bracketCloseIdx = pattern.length then
    return .done { s.result with error := .UnterminatedBrace }
  else
    let nameAndSpec := (pattern.drop (s.i + 1)).take (bracketCloseIdx - s.i - 1)
    match parseField splitNameAndSpec nameAndSpec with
    | .error e => return .done { s.result with error := e }
    | .ok (field, spec) =>
        if s.result.fieldCount ≥ maxFields then
          return .done { s.result with error := .TooManyFields }
        else do
          let result ← s.result.pushField field spec
          let result ← expandSpecIntoResult spec result
          return .next ⟨bracketCloseIdx + 1, result⟩

/-- The body of the loop. -/
def iteration (pattern : List Char) (s : Scan maxFmtStrLen maxFields) :
    Except OutOfBounds (Turn (Scan maxFmtStrLen maxFields) (Result maxFmtStrLen maxFields)) :=
  if h : s.i < pattern.length then
    if pattern[s.i] = '{' then
      if pattern[s.i + 1]? = some '{' then do
        -- forward escape sequence to fmt::vformat
        let result ← s.result.pushChar '{'
        let result ← result.pushChar '{'
        return .next ⟨s.i + 2, result⟩
      else openingBrace pattern s
    else if pattern[s.i] = '}' then
      if pattern[s.i + 1]? = some '}' then do
        let result ← s.result.pushChar '}'
        let result ← result.pushChar '}'
        return .next ⟨s.i + 2, result⟩
      else return .done { s.result with error := .UnmatchedClosingBrace }
    else do
      let result ← s.result.pushChar pattern[s.i]
      return .next ⟨s.i + 1, result⟩
  else return .done s.result

/-- `std::size_t i = 0`, and the empty result. -/
def Scan.init : Scan maxFmtStrLen maxFields := ⟨0, .init⟩

/-- `parse_pattern<Pattern, MaxFields, MaxFmtStrLen>()`. -/
def parsePattern (pattern : List Char) (maxFields maxFmtStrLen : ℕ) :
    Option (Except OutOfBounds (Result maxFmtStrLen maxFields)) :=
  Loop.run (iteration pattern) (pattern.length + 1) .init

end Loop

/-! ## What the indices stand for -/

/-- The search stops at the first closing bracket, or at the end. -/
theorem bracketClose_cases {pattern : List Char} {k : ℕ} (hk : k ≤ pattern.length) :
    (bracketClose pattern k = pattern.length ∧ splitAtFirst '}' (pattern.drop k) = none) ∨
      (k ≤ bracketClose pattern k ∧ bracketClose pattern k < pattern.length ∧
        splitAtFirst '}' (pattern.drop k)
          = some ((pattern.drop k).take (bracketClose pattern k - k),
              pattern.drop (bracketClose pattern k + 1))) := by
  fun_induction bracketClose pattern k with
  | case1 k hlt hne ih =>
      rw [List.drop_eq_getElem_cons hlt, splitAtFirst, if_neg hne]
      rcases ih hlt with ⟨hclose, hsplit⟩ | ⟨hle, hclose, hsplit⟩
      · exact .inl ⟨hclose, by rw [hsplit]; rfl⟩
      · refine .inr ⟨by omega, hclose, ?_⟩
        have htake : bracketClose pattern (k + 1) - k
            = bracketClose pattern (k + 1) - (k + 1) + 1 := by
          omega
        rw [hsplit, htake]
        rfl
  | case2 k hlt heq =>
      rw [ne_eq, not_not] at heq
      refine .inr ⟨le_rfl, hlt, ?_⟩
      rw [List.drop_eq_getElem_cons hlt, splitAtFirst, if_pos heq, Nat.sub_self]
      rfl
  | case3 k hge =>
      have hend : k = pattern.length := by omega
      refine .inl ⟨hend, ?_⟩
      rw [List.drop_eq_nil_of_le (by omega)]
      rfl

/-- The index of the first separator is where the text splits. -/
theorem splitAtFirst_eq_findIdx? (c : Char) (text : List Char) :
    splitAtFirst c text
      = (text.findIdx? (· = c)).map fun k => (text.take k, text.drop (k + 1)) := by
  induction text with
  | nil => rfl
  | cons d ds ih =>
      by_cases hd : d = c
      · simp [splitAtFirst, List.findIdx?_cons, hd]
      · simp [splitAtFirst, List.findIdx?_cons, hd, ih, Function.comp_def]

/-- The two ways to split the text are one. -/
theorem splitNameAndSpec_eq : splitNameAndSpec = Papper.splitNameAndSpec := by
  funext nameAndSpec
  rw [Papper.splitNameAndSpec, splitAtFirst_eq_findIdx?, splitNameAndSpec]
  cases nameAndSpec.findIdx? (· = ':') with
  | none => rfl
  | some separator => rfl

/-! ## What the arrays stand for -/

/-- What has been written, as lists. -/
def Result.toParsed {maxFmtStrLen maxFields : ℕ} (r : Result maxFmtStrLen maxFields) :
    ParsedPattern where
  error := r.error
  fmtStr := r.fmtStr.toList.take r.fmtStrLen
  fields := r.fields.toList.take r.fieldCount
  specs := r.specs.toList.take r.fieldCount

/-- The counts are within the arrays. -/
structure Result.Within {maxFmtStrLen maxFields : ℕ} (r : Result maxFmtStrLen maxFields) :
    Prop where
  fmtStrLen_le : r.fmtStrLen ≤ maxFmtStrLen
  fieldCount_le : r.fieldCount ≤ maxFields

theorem write_of_lt {α : Type} {size : ℕ} {fault : ℕ → OutOfBounds} {array : Vector α size}
    {index : ℕ} (h : index < size) (a : α) :
    write fault array index a = .ok (array.set index a h) :=
  dif_pos h

theorem write_of_le {α : Type} {size : ℕ} {fault : ℕ → OutOfBounds} {array : Vector α size}
    {index : ℕ} (h : size ≤ index) (a : α) : write fault array index a = .error (fault index) :=
  dif_neg (Nat.not_lt.mpr h)

/-- A write behind what has been written appends to it. -/
theorem take_set {α : Type} {size : ℕ} (array : Vector α size) {index : ℕ} (h : index < size)
    (a : α) :
    (array.set index a h).toList.take (index + 1) = array.toList.take index ++ [a] := by
  have hlen : index < (array.toList.set index a).length := by simpa using h
  rw [Vector.toList_set, List.take_succ_eq_append_getElem hlen, List.take_set_of_le le_rfl,
    List.getElem_set_self]

namespace Result
variable {maxFmtStrLen maxFields : ℕ} {r : Result maxFmtStrLen maxFields}

theorem Within.length_fmtStr (h : r.Within) : r.toParsed.fmtStr.length = r.fmtStrLen := by
  have hle := h.fmtStrLen_le
  simp [toParsed, hle]

theorem Within.length_fields (h : r.Within) : r.toParsed.fields.length = r.fieldCount := by
  have hle := h.fieldCount_le
  simp [toParsed, hle]

theorem within_init : (init : Result maxFmtStrLen maxFields).Within :=
  ⟨Nat.zero_le _, Nat.zero_le _⟩

/-- The character is written behind the format string. -/
def append (r : Result maxFmtStrLen maxFields) (c : Char) (h : r.fmtStrLen < maxFmtStrLen) :
    Result maxFmtStrLen maxFields :=
  { r with fmtStr := r.fmtStr.set r.fmtStrLen c h, fmtStrLen := r.fmtStrLen + 1 }

theorem pushChar_of_lt (h : r.fmtStrLen < maxFmtStrLen) (c : Char) :
    r.pushChar c = .ok (r.append c h) := by
  rw [pushChar, write_of_lt h]
  rfl

theorem Within.append (h : r.Within) {c : Char} (hlt : r.fmtStrLen < maxFmtStrLen) :
    (r.append c hlt).Within :=
  ⟨hlt, h.fieldCount_le⟩

@[simp] theorem fmtStrLen_append (c : Char) (h : r.fmtStrLen < maxFmtStrLen) :
    (r.append c h).fmtStrLen = r.fmtStrLen + 1 := rfl

theorem toParsed_append (c : Char) (h : r.fmtStrLen < maxFmtStrLen) :
    (r.append c h).toParsed = { r.toParsed with fmtStr := r.toParsed.fmtStr ++ [c] } := by
  simp [append, toParsed, take_set]

/-- **Where there is room**, characters are pushed. -/
theorem exists_pushChars (h : r.Within) {cs : List Char}
    (hroom : r.fmtStrLen + cs.length ≤ maxFmtStrLen) :
    ∃ r', r.pushChars cs = .ok r' ∧ r'.Within ∧
      r'.toParsed = { r.toParsed with fmtStr := r.toParsed.fmtStr ++ cs } := by
  induction cs generalizing r with
  | nil => exact ⟨r, rfl, h, by simp⟩
  | cons c cs ih =>
      rw [List.length_cons] at hroom
      have hlt : r.fmtStrLen < maxFmtStrLen := by omega
      obtain ⟨r', hr', hwithin, hparsed⟩ :=
        ih (h.append hlt) (by rw [fmtStrLen_append c hlt]; omega)
      refine ⟨r', ?_, hwithin, ?_⟩
      · rw [pushChars, pushChar_of_lt hlt]
        exact hr'
      · rw [hparsed, toParsed_append]
        simp

/-- **Where there is not**, the first write that has none is at the end of the array. -/
theorem pushChars_eq_error (h : r.Within) {cs : List Char}
    (hroom : maxFmtStrLen < r.fmtStrLen + cs.length) :
    r.pushChars cs = .error (.fmtStr maxFmtStrLen) := by
  induction cs generalizing r with
  | nil => exact absurd hroom (Nat.not_lt.mpr h.fmtStrLen_le)
  | cons c cs ih =>
      rw [List.length_cons] at hroom
      rw [pushChars]
      rcases Nat.lt_or_ge r.fmtStrLen maxFmtStrLen with hlt | hge
      · rw [pushChar_of_lt hlt]
        exact ih (h.append hlt) (by rw [fmtStrLen_append]; omega)
      · have heq : r.fmtStrLen = maxFmtStrLen := le_antisymm h.fmtStrLen_le hge
        rw [pushChar, write_of_le hge, heq]
        rfl

/-- **After the check of the count**, a field is pushed. -/
theorem exists_pushField (h : r.Within) (hcount : r.fieldCount < maxFields) (field : PatternField)
    (spec : PatternFieldFormatSpec) :
    ∃ r', r.pushField field spec = .ok r' ∧ r'.Within ∧
      r.toParsed.pushField maxFields field spec = some r'.toParsed := by
  have hlength := h.length_fields
  refine ⟨{ r with
    specs := r.specs.set r.fieldCount spec hcount
    fields := r.fields.set r.fieldCount field hcount
    fieldCount := r.fieldCount + 1 }, ?_, ⟨h.fmtStrLen_le, hcount⟩, ?_⟩
  · rw [pushField, write_of_lt hcount, write_of_lt hcount]
    rfl
  · rw [ParsedPattern.pushField, if_pos (by omega)]
    simp [Result.toParsed, take_set]

end Result

/-! ## One iteration -/

section Iteration
variable {maxFmtStrLen maxFields : ℕ} {pattern : List Char} {s : Scan maxFmtStrLen maxFields}

/-- The indices are within the pattern and the arrays. -/
structure Scan.Within (pattern : List Char) (s : Scan maxFmtStrLen maxFields) : Prop where
  i_le : s.i ≤ pattern.length
  result : s.result.Within

/-- How an iteration by index and one on lists end alike. -/
inductive Agrees (pattern : List Char) :
    Except OutOfBounds (Turn (Scan maxFmtStrLen maxFields) (Result maxFmtStrLen maxFields)) →
      Option Iteration → Prop
  | outOfBounds : Agrees pattern (.error (.fmtStr maxFmtStrLen)) none
  | done (r : Result maxFmtStrLen maxFields) :
      Agrees pattern (.ok (.done r)) (some (.done r.toParsed))
  | next {s' : Scan maxFmtStrLen maxFields} (h : s'.Within pattern) :
      Agrees pattern (.ok (.next s')) (some (.next (pattern.drop s'.i) s'.result.toParsed))

namespace Agrees
variable {o : Option Iteration}
  {x : Except OutOfBounds (Turn (Scan maxFmtStrLen maxFields) (Result maxFmtStrLen maxFields))}

theorem of_error (h : Agrees pattern x o) {fault : OutOfBounds} (hx : x = .error fault) :
    fault = .fmtStr maxFmtStrLen ∧ o = none := by
  subst hx
  cases h
  exact ⟨rfl, rfl⟩

theorem of_done (h : Agrees pattern x o) {r : Result maxFmtStrLen maxFields}
    (hx : x = .ok (.done r)) : o = some (.done r.toParsed) := by
  subst hx
  cases h
  rfl

theorem of_next (h : Agrees pattern x o) {s' : Scan maxFmtStrLen maxFields}
    (hx : x = .ok (.next s')) :
    s'.Within pattern ∧ o = some (.next (pattern.drop s'.i) s'.result.toParsed) := by
  subst hx
  cases h with
  | next hwithin => exact ⟨hwithin, rfl⟩

end Agrees

/-- Characters are pushed, and the scan goes on. -/
theorem agrees_pushChars {r : Result maxFmtStrLen maxFields} (h : r.Within) (cs : List Char)
    {i : ℕ} (hi : i ≤ pattern.length) :
    Agrees pattern (do
        let result ← r.pushChars cs
        return .next ⟨i, result⟩)
      ((r.toParsed.pushChars maxFmtStrLen cs).map (.next (pattern.drop i))) := by
  have hlength := h.length_fmtStr
  rcases Nat.lt_or_ge maxFmtStrLen (r.fmtStrLen + cs.length) with hroom | hroom
  · rw [Result.pushChars_eq_error h hroom,
      ParsedPattern.pushChars_eq_none (hlength ▸ h.fmtStrLen_le) (by omega)]
    exact .outOfBounds
  · obtain ⟨r', hr', hwithin, hparsed⟩ := Result.exists_pushChars h hroom
    rw [hr', ParsedPattern.pushChars_eq (by omega), ← hparsed]
    have hnext : Scan.Within pattern ⟨i, r'⟩ := ⟨hi, hwithin⟩
    exact .next hnext

/-- Two characters at a time. -/
theorem agrees_pushChar_pushChar {r : Result maxFmtStrLen maxFields} (h : r.Within) (a b : Char)
    {i : ℕ} (hi : i ≤ pattern.length) :
    Agrees pattern (do
        let result ← r.pushChar a
        let result ← result.pushChar b
        return .next ⟨i, result⟩)
      ((r.toParsed.pushChars maxFmtStrLen [a, b]).map (.next (pattern.drop i))) := by
  have hpush := agrees_pushChars h [a, b] hi
  simpa only [Result.pushChars, bind_assoc, bind_pure] using hpush

theorem openingBrace_agrees (h : s.Within pattern) (hlt : s.i < pattern.length) :
    Agrees pattern (openingBrace pattern s)
      (Papper.openingBrace maxFields maxFmtStrLen (pattern.drop (s.i + 1)) s.result.toParsed) := by
  have hlength := h.result.length_fields
  have hi : s.i + 1 ≤ pattern.length := hlt
  rw [openingBrace, Papper.openingBrace]
  rcases bracketClose_cases hi with ⟨hclose, hsplit⟩ | ⟨hle, hclose, hsplit⟩
  · rw [if_pos hclose, hsplit]
    exact .done _
  · rw [if_neg (Nat.ne_of_lt hclose), hsplit]
    simp only [Nat.sub_sub, splitNameAndSpec_eq, hlength, ge_iff_le]
    cases parseField Papper.splitNameAndSpec
        ((pattern.drop (s.i + 1)).take (bracketClose pattern (s.i + 1) - (s.i + 1))) with
    | error e => exact .done { s.result with error := e }
    | ok fieldAndSpec =>
        obtain ⟨field, spec⟩ := fieldAndSpec
        rcases Nat.lt_or_ge s.result.fieldCount maxFields with hcount | hcount
        · obtain ⟨r', hr', hwithin, hparsed⟩ :=
            Result.exists_pushField h.result hcount field spec
          simp only [if_neg (Nat.not_le.mpr hcount), hr', hparsed]
          exact agrees_pushChars hwithin (expansion spec) hclose
        · simp only [if_pos hcount]
          exact .done { s.result with error := .TooManyFields }

/-- **An iteration by index is one on the characters left.** -/
theorem iteration_agrees (h : s.Within pattern) :
    Agrees pattern (iteration pattern s)
      (Papper.iteration maxFields maxFmtStrLen (pattern.drop s.i) s.result.toParsed) := by
  by_cases hlt : s.i < pattern.length
  · have hescape : ∀ c, pattern[s.i + 1]? = some c →
        pattern.drop (s.i + 1) = c :: pattern.drop (s.i + 2) ∧ s.i + 2 ≤ pattern.length := by
      intro c hc
      obtain ⟨hnext, rfl⟩ := List.getElem?_eq_some_iff.mp hc
      exact ⟨List.drop_eq_getElem_cons hnext, hnext⟩
    rw [iteration, dif_pos hlt, List.drop_eq_getElem_cons hlt]
    by_cases hopen : pattern[s.i] = '{'
    · rw [if_pos hopen, hopen]
      by_cases hnext : pattern[s.i + 1]? = some '{'
      · obtain ⟨hdrop, hi⟩ := hescape _ hnext
        rw [if_pos hnext, hdrop]
        exact agrees_pushChar_pushChar h.result '{' '{' hi
      · have hhead : (pattern.drop (s.i + 1)).head? ≠ some '{' := by
          rwa [List.head?_drop]
        rw [if_neg hnext, iteration_openingBrace hhead]
        exact openingBrace_agrees h hlt
    · rw [if_neg hopen]
      by_cases hclose : pattern[s.i] = '}'
      · rw [if_pos hclose, hclose]
        by_cases hnext : pattern[s.i + 1]? = some '}'
        · obtain ⟨hdrop, hi⟩ := hescape _ hnext
          rw [if_pos hnext, hdrop]
          exact agrees_pushChar_pushChar h.result '}' '}' hi
        · have hhead : (pattern.drop (s.i + 1)).head? ≠ some '}' := by
            rwa [List.head?_drop]
          rw [if_neg hnext, iteration_closingBrace hhead]
          exact .done { s.result with error := .UnmatchedClosingBrace }
      · have hpush := agrees_pushChars h.result [pattern[s.i]] (i := s.i + 1) hlt
        rw [if_neg hclose, iteration_char hopen hclose]
        simpa only [Result.pushChars, ParsedPattern.pushChars, bind_pure, Option.bind_fun_some]
          using hpush
  · rw [iteration, dif_neg hlt, List.drop_eq_nil_of_le (by omega)]
    exact .done s.result

end Iteration

/-! ## The loop -/

/-- The body of `parseLoop`. -/
def listIteration (maxFields maxFmtStrLen : ℕ) (state : List Char × ParsedPattern) :
    Except Unit (Turn (List Char × ParsedPattern) ParsedPattern) :=
  match Papper.iteration maxFields maxFmtStrLen state.1 state.2 with
  | none => .error ()
  | some (.next rest r) => .ok (.next (rest, r))
  | some (.done r) => .ok (.done r)

/-- What a loop on lists has come to. -/
def outcome : Option (Except Unit ParsedPattern) → Except Stop ParsedPattern
  | none => .error .outOfFuel
  | some (.error _) => .error .outOfBounds
  | some (.ok r) => .ok r

theorem parseLoop_eq_run {maxFields maxFmtStrLen fuel : ℕ} {rest : List Char} {r : ParsedPattern} :
    parseLoop maxFields maxFmtStrLen fuel rest r
      = outcome (Loop.run (listIteration maxFields maxFmtStrLen) fuel (rest, r)) := by
  induction fuel generalizing rest r with
  | zero => rfl
  | succ fuel ih =>
      rw [parseLoop, Loop.run, listIteration]
      cases Papper.iteration maxFields maxFmtStrLen rest r with
      | none => rfl
      | some turn =>
          cases turn with
          | next rest' r' => exact ih
          | done r' => rfl

section Loop
variable {maxFmtStrLen maxFields : ℕ}

theorem Scan.within_init (pattern : List Char) :
    (Scan.init : Scan maxFmtStrLen maxFields).Within pattern :=
  ⟨Nat.zero_le _, Result.within_init⟩

theorem iteration_refines (pattern : List Char) :
    Loop.Refines
      (fun (s : Scan maxFmtStrLen maxFields) t =>
        s.Within pattern ∧ t = (pattern.drop s.i, s.result.toParsed))
      Result.toParsed (fun _ => ()) (iteration pattern) (listIteration maxFields maxFmtStrLen) where
  next := by
    rintro s t s' ⟨h, rfl⟩ hnext
    obtain ⟨hwithin, hlist⟩ := (iteration_agrees h).of_next hnext
    exact ⟨_, by rw [listIteration, hlist], hwithin, rfl⟩
  done := by
    rintro s t r ⟨h, rfl⟩ hdone
    have hlist := (iteration_agrees h).of_done hdone
    rw [listIteration, hlist]
  error := by
    rintro s t fault ⟨h, rfl⟩ herror
    obtain ⟨-, hlist⟩ := (iteration_agrees h).of_error herror
    rw [listIteration, hlist]

/-- **The compiler on its arrays and the one on lists come to the same.** -/
theorem parsePattern_refines (pattern : List Char) (maxFields maxFmtStrLen : ℕ) :
    Papper.parsePattern pattern maxFields maxFmtStrLen
      = outcome ((parsePattern pattern maxFields maxFmtStrLen).map fun o =>
          (o.map Result.toParsed).mapError fun _ => ()) := by
  rw [Papper.parsePattern, parseLoop_eq_run, parsePattern]
  congr 1
  exact (iteration_refines pattern).run ⟨Scan.within_init pattern, rfl⟩

end Loop

end Papper.Compiler
