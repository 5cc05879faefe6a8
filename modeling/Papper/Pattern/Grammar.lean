import Mathlib.Data.List.Basic
import Mathlib.Data.Nat.Basic
import Mathlib.Tactic.Common
import Papper.Pattern.Parse

/-!
# The grammar of patterns

A pattern is a concatenation of items: a character other than a brace, a doubled
brace, or a field in braces with an optional spec.  `Grammar` says that a list of items
is a decomposition of a pattern, and `FirstFault` that the items up to some point are
complete and the next one cannot be completed, and why.

Both are statements about text and mention no scanner.  The scanner is shown to agree
with them one item at a time: `iteration_text` and `iteration_fault` say what the loop
body does at the start of an item and at a fault, and `item_or_fault` that there is
nothing else.

## Main definitions

* `Item`, `Item.text`, `Item.Valid` — the items.
* `Grammar`, `FirstFault` — acceptance, and rejection with its reason.
* `ParsedPattern.push` — what one item adds to the result.
* `parsePattern_grammar` — the parser accepts exactly the grammar.
-/

namespace Papper

/-! ## Splitting at a separator -/

theorem splitAtFirst_append {c : Char} {as bs : List Char} (h : c ∉ as) :
    splitAtFirst c (as ++ c :: bs) = some (as, bs) := by
  induction as with
  | nil => simp [splitAtFirst]
  | cons a as ih =>
      rw [List.mem_cons, not_or] at h
      rw [List.cons_append, splitAtFirst, if_neg (Ne.symm h.1), ih h.2]
      rfl

theorem splitAtFirst_eq_none {c : Char} {as : List Char} (h : c ∉ as) :
    splitAtFirst c as = none := by
  induction as with
  | nil => rfl
  | cons a as ih =>
      rw [List.mem_cons, not_or] at h
      rw [splitAtFirst, if_neg (Ne.symm h.1), ih h.2]
      rfl

/-- A list is free of the separator, or splits at the first one. -/
theorem notMem_or_split (c : Char) (l : List Char) :
    c ∉ l ∨ ∃ as bs, c ∉ as ∧ l = as ++ c :: bs := by
  by_cases h : c ∈ l
  · obtain ⟨as, bs, heq, has⟩ := List.eq_append_cons_of_mem h
    exact Or.inr ⟨as, bs, has, heq⟩
  · exact Or.inl h

/-! ## Items -/

inductive Item
  | char (c : Char)
  | openBrace
  | closeBrace
  | field (name : List Char) (spec : Option (List Char))
  deriving DecidableEq

/-- The text between the braces of a field. -/
def bodyText (name : List Char) : Option (List Char) → List Char
  | none => name
  | some spec => name ++ ':' :: spec

namespace Item

/-- The text of an item. -/
def text : Item → List Char
  | char c => [c]
  | openBrace => ['{', '{']
  | closeBrace => ['}', '}']
  | field name spec => '{' :: (bodyText name spec ++ ['}'])

/-- What a field item stands for, when the tables know it. -/
def meaning : Item → Option (PatternField × PatternFieldFormatSpec)
  | field name spec =>
      (nameToFieldEnum name).bind fun f =>
        (nameToFormatSpecEnum (spec.getD [])).bind fun s =>
          if validateFieldSpecCombination f s then some (f, s) else none
  | _ => none

/-- An item of the grammar. -/
def Valid : Item → Prop
  | char c => c ≠ '{' ∧ c ≠ '}'
  | openBrace => True
  | closeBrace => True
  | field name spec => ∃ f s, nameToFieldEnum name = some f ∧
      nameToFormatSpecEnum (spec.getD []) = some s ∧ validateFieldSpecCombination f s = true

/-- The fields an item contributes. -/
def fields (it : Item) : List (PatternField × PatternFieldFormatSpec) := it.meaning.toList

/-- What an item contributes to the format string. -/
def fmtText : Item → List Char
  | char c => [c]
  | openBrace => ['{', '{']
  | closeBrace => ['}', '}']
  | field name spec =>
      match meaning (field name spec) with
      | some (_, s) => expansion s
      | none => []

end Item

/-- The text of a list of items. -/
def itemsText (items : List Item) : List Char := items.flatMap Item.text

/-- The text of the items in the format string. -/
def itemsFmtText (items : List Item) : List Char := items.flatMap Item.fmtText

/-- The fields of a list of items, in order. -/
def itemsFields (items : List Item) : List (PatternField × PatternFieldFormatSpec) :=
  items.flatMap Item.fields

/-- The items are a decomposition of the pattern, with at most `maxFields` fields. -/
structure Grammar (maxFields : ℕ) (pattern : List Char) (items : List Item) : Prop where
  valid : ∀ it ∈ items, it.Valid
  text_eq : itemsText items = pattern
  fields_le : (itemsFields items).length ≤ maxFields

/-! ## Faults -/

/-- What is wrong with a field, given the text between its braces, when `n` fields come
before it.  The cases exclude each other in the order the errors are listed. -/
inductive FieldFault (maxFields n : ℕ) : List Char → ParsingError → Prop
  | emptyFieldName : FieldFault maxFields n [] .EmptyFieldName
  | unknownFieldName {name : List Char} {spec : Option (List Char)} :
      ':' ∉ name → bodyText name spec ≠ [] → nameToFieldEnum name = none →
      FieldFault maxFields n (bodyText name spec) .UnknownFieldName
  | unknownFormatSpec {name : List Char} {spec : Option (List Char)} {f : PatternField} :
      nameToFieldEnum name = some f → nameToFormatSpecEnum (spec.getD []) = none →
      FieldFault maxFields n (bodyText name spec) .UnknownFormatSpec
  | invalidSpecUsage {name : List Char} {spec : Option (List Char)} {f : PatternField}
      {s : PatternFieldFormatSpec} :
      nameToFieldEnum name = some f → nameToFormatSpecEnum (spec.getD []) = some s →
      validateFieldSpecCombination f s = false →
      FieldFault maxFields n (bodyText name spec) .InvalidSpecUsage
  | tooManyFields {name : List Char} {spec : Option (List Char)} :
      (Item.field name spec).Valid → maxFields ≤ n →
      FieldFault maxFields n (bodyText name spec) .TooManyFields

/-- No item can be completed at the start of this text, for the given reason. -/
inductive Fault (maxFields n : ℕ) : List Char → ParsingError → Prop
  | unterminatedBrace {rest : List Char} :
      rest.head? ≠ some '{' → '}' ∉ rest → Fault maxFields n ('{' :: rest) .UnterminatedBrace
  | field {body after : List Char} {e : ParsingError} :
      body.head? ≠ some '{' → '}' ∉ body → FieldFault maxFields n body e →
      Fault maxFields n ('{' :: (body ++ '}' :: after)) e
  | unmatchedClosingBrace {rest : List Char} :
      rest.head? ≠ some '}' → Fault maxFields n ('}' :: rest) .UnmatchedClosingBrace

/-- The items before some point are complete, and the one that starts there is not. -/
def FirstFault (maxFields : ℕ) (pattern : List Char) (e : ParsingError) : Prop :=
  ∃ (items : List Item) (rest : List Char), (∀ it ∈ items, it.Valid) ∧
    pattern = itemsText items ++ rest ∧
    (itemsFields items).length ≤ maxFields ∧
    Fault maxFields (itemsFields items).length rest e

/-! ## What the tables say -/

theorem mem_of_lookup {α β : Type} [BEq α] [LawfulBEq α] {l : List (α × β)} {a : α} {b : β}
    (h : l.lookup a = some b) : (a, b) ∈ l := by
  obtain ⟨l₁, l₂, rfl, -⟩ := List.lookup_eq_some_iff.mp h
  simp

/-- Field names have no character that would end them, and are not empty. -/
theorem fieldName_clean {name : List Char} {f : PatternField} (h : nameToFieldEnum name = some f) :
    '}' ∉ name ∧ ':' ∉ name ∧ name.head? ≠ some '{' ∧ name ≠ [] := by
  have hall : ∀ e ∈ fieldNames, '}' ∉ e.1 ∧ ':' ∉ e.1 ∧ e.1.head? ≠ some '{' ∧ e.1 ≠ [] := by
    decide
  exact hall _ (mem_of_lookup h)

theorem specName_clean {name : List Char} {s : PatternFieldFormatSpec}
    (h : nameToFormatSpecEnum name = some s) : '}' ∉ name := by
  have hall : ∀ e ∈ specNames, '}' ∉ e.1 := by decide
  exact hall _ (mem_of_lookup h)

/-- The specs that expand to more than two characters have names of four. -/
theorem length_expansion_le {name : List Char} {s : PatternFieldFormatSpec}
    (h : nameToFormatSpecEnum name = some s) :
    (expansion s).length ≤ 2 ∨ (expansion s).length = 8 ∧ name.length = 4 := by
  have hall : ∀ e ∈ specNames,
      (expansion e.2).length ≤ 2 ∨ (expansion e.2).length = 8 ∧ e.1.length = 4 := by
    decide
  exact hall _ (mem_of_lookup h)

/-! ## Fields -/

theorem splitNameAndSpec_bodyText {name : List Char} (h : ':' ∉ name)
    (spec : Option (List Char)) :
    splitNameAndSpec (bodyText name spec) = (name, spec.getD []) := by
  cases spec with
  | none => simp [splitNameAndSpec, bodyText, splitAtFirst_eq_none h]
  | some spec => simp [splitNameAndSpec, bodyText, splitAtFirst_append h]

/-- Every text between braces is a name and possibly a spec. -/
theorem exists_bodyText (body : List Char) :
    ∃ name spec, ':' ∉ name ∧ body = bodyText name spec := by
  rcases notMem_or_split ':' body with h | ⟨name, spec, h, rfl⟩
  · exact ⟨body, none, h, rfl⟩
  · exact ⟨name, some spec, h, rfl⟩

theorem bodyText_ne_nil {name : List Char} (h : name ≠ []) (spec : Option (List Char)) :
    bodyText name spec ≠ [] := by
  cases spec <;> simp [bodyText, h]

theorem head?_bodyText {name : List Char} (h : name ≠ []) (spec : Option (List Char)) :
    (bodyText name spec).head? = name.head? := by
  obtain ⟨c, cs, rfl⟩ := List.exists_cons_of_ne_nil h
  cases spec <;> simp [bodyText]

namespace Item

theorem meaning_field {name : List Char} {spec : Option (List Char)} {f : PatternField}
    {s : PatternFieldFormatSpec} (hf : nameToFieldEnum name = some f)
    (hs : nameToFormatSpecEnum (spec.getD []) = some s)
    (hv : validateFieldSpecCombination f s = true) :
    (field name spec).meaning = some (f, s) := by
  simp [meaning, hf, hs, hv]

/-- The body of a valid field ends at the brace that closes it and is not taken for an
escape. -/
theorem Valid.body_clean {name : List Char} {spec : Option (List Char)}
    (h : (field name spec).Valid) :
    '}' ∉ bodyText name spec ∧ (bodyText name spec).head? ≠ some '{' ∧
      bodyText name spec ≠ [] := by
  obtain ⟨f, s, hf, hs, -⟩ := h
  obtain ⟨hclose, -, hopen, hne⟩ := fieldName_clean hf
  have hspec := specName_clean hs
  refine ⟨?_, by rwa [head?_bodyText hne], bodyText_ne_nil hne spec⟩
  cases spec with
  | none => exact hclose
  | some spec =>
      have hspec' : '}' ∉ spec := hspec
      simp [bodyText, hclose, hspec']

/-- An item is not longer in the format string than in the pattern. -/
theorem length_fmtText_le {it : Item} (h : it.Valid) : it.fmtText.length ≤ it.text.length := by
  cases it with
  | char c => exact le_rfl
  | openBrace => exact le_rfl
  | closeBrace => exact le_rfl
  | field name spec =>
      obtain ⟨f, s, hf, hs, hv⟩ := h
      have hname := List.length_pos_of_ne_nil (fieldName_clean hf).2.2.2
      simp only [fmtText, meaning_field hf hs hv, text, List.length_cons, List.length_append]
      rcases length_expansion_le hs with hle | ⟨heq, hlen⟩
      · omega
      · cases spec with
        | none => simp at hlen
        | some spec =>
            have hlen' : spec.length = 4 := hlen
            simp only [bodyText, List.length_append, List.length_cons]
            omega

theorem length_text_pos (it : Item) : 0 < it.text.length := by
  cases it <;> simp [text]

end Item

theorem parseField_of_valid {name : List Char} {spec : Option (List Char)} {f : PatternField}
    {s : PatternFieldFormatSpec} (hf : nameToFieldEnum name = some f)
    (hs : nameToFormatSpecEnum (spec.getD []) = some s)
    (hv : validateFieldSpecCombination f s = true) :
    parseField splitNameAndSpec (bodyText name spec) = .ok (f, s) := by
  obtain ⟨-, hcolon, -, hne⟩ := fieldName_clean hf
  rw [parseField, if_neg (bodyText_ne_nil hne spec)]
  simp only [splitNameAndSpec_bodyText hcolon, hf, hs, hv, if_true]

/-! ## One iteration -/

namespace ParsedPattern

/-- What an item adds to the result. -/
def push (r : ParsedPattern) (it : Item) : ParsedPattern :=
  { r with
    fmtStr := r.fmtStr ++ it.fmtText
    fields := r.fields ++ it.fields.map Prod.fst
    specs := r.specs ++ it.fields.map Prod.snd }

/-- What a list of items adds. -/
def pushAll (r : ParsedPattern) (items : List Item) : ParsedPattern := items.foldl push r

theorem pushChars_eq {maxFmtStrLen : ℕ} {cs : List Char} :
    ∀ {r : ParsedPattern}, r.fmtStr.length + cs.length ≤ maxFmtStrLen →
      r.pushChars maxFmtStrLen cs = some { r with fmtStr := r.fmtStr ++ cs } := by
  induction cs with
  | nil => intro r _; simp [pushChars]
  | cons c cs ih =>
      intro r h
      rw [List.length_cons] at h
      rw [pushChars, pushChar, if_pos (by omega), Option.bind_some, ih (by simp; omega)]
      simp

/-- Where there is no room, a write is out of bounds. -/
theorem pushChars_eq_none {maxFmtStrLen : ℕ} {cs : List Char} :
    ∀ {r : ParsedPattern}, r.fmtStr.length ≤ maxFmtStrLen →
      maxFmtStrLen < r.fmtStr.length + cs.length → r.pushChars maxFmtStrLen cs = none := by
  induction cs with
  | nil =>
      intro r hle hroom
      exact absurd hroom (Nat.not_lt.mpr hle)
  | cons c cs ih =>
      intro r hle hroom
      rw [List.length_cons] at hroom
      rw [pushChars, pushChar]
      by_cases hlt : r.fmtStr.length < maxFmtStrLen
      · rw [if_pos hlt]
        exact ih (by simpa using Nat.succ_le_of_lt hlt) (by simp; omega)
      · rw [if_neg hlt]
        rfl

theorem fields_pushAll (r : ParsedPattern) (items : List Item) :
    (r.pushAll items).fields = r.fields ++ (itemsFields items).map Prod.fst := by
  induction items generalizing r with
  | nil => simp [pushAll, itemsFields]
  | cons it items ih =>
      have h := ih (r.push it)
      simp only [pushAll, List.foldl_cons] at h ⊢
      rw [h]
      simp [push, itemsFields]

theorem specs_pushAll (r : ParsedPattern) (items : List Item) :
    (r.pushAll items).specs = r.specs ++ (itemsFields items).map Prod.snd := by
  induction items generalizing r with
  | nil => simp [pushAll, itemsFields]
  | cons it items ih =>
      have h := ih (r.push it)
      simp only [pushAll, List.foldl_cons] at h ⊢
      rw [h]
      simp [push, itemsFields]

theorem fmtStr_pushAll (r : ParsedPattern) (items : List Item) :
    (r.pushAll items).fmtStr = r.fmtStr ++ items.flatMap Item.fmtText := by
  induction items generalizing r with
  | nil => simp [pushAll]
  | cons it items ih =>
      have h := ih (r.push it)
      simp only [pushAll, List.foldl_cons] at h ⊢
      rw [h]
      simp [push]

theorem error_pushAll (r : ParsedPattern) (items : List Item) :
    (r.pushAll items).error = r.error := by
  induction items generalizing r with
  | nil => rfl
  | cons it items ih => exact ih (r.push it)

end ParsedPattern

section Iteration
variable {maxFields maxFmtStrLen : ℕ} {r : ParsedPattern}

/-- A brace that the next character does not double opens a field. -/
theorem iteration_openingBrace {rest : List Char} (h : rest.head? ≠ some '{') :
    iteration maxFields maxFmtStrLen ('{' :: rest) r
      = openingBrace maxFields maxFmtStrLen rest r := by
  cases rest with
  | nil => rfl
  | cons c cs =>
      have hc : c ≠ '{' := by simpa using h
      simp only [iteration, if_true]
      split
      · rename_i heq
        cases heq
        exact absurd rfl hc
      · rfl

/-- A closing brace that the next character does not double is unmatched. -/
theorem iteration_closingBrace {rest : List Char} (h : rest.head? ≠ some '}') :
    iteration maxFields maxFmtStrLen ('}' :: rest) r
      = some (.done { r with error := .UnmatchedClosingBrace }) := by
  have hne : ('}' : Char) ≠ '{' := by decide
  simp only [iteration, if_neg hne, if_true]
  split
  · simp at h
  · rfl

/-- A character other than a brace is forwarded. -/
theorem iteration_char {c : Char} (hopen : c ≠ '{') (hclose : c ≠ '}') (rest : List Char) :
    iteration maxFields maxFmtStrLen (c :: rest) r
      = (r.pushChar maxFmtStrLen c).map (.next rest) := by
  simp only [iteration, if_neg hopen, if_neg hclose]

theorem head?_append_cons {as bs : List Char} (c : Char) (h : as.head? ≠ some '{') (hc : c ≠ '{') :
    (as ++ c :: bs).head? ≠ some '{' := by
  cases as with
  | nil => simpa using hc
  | cons a as => simpa using h

/-- The loop body at a complete item, which pushes what the item stands for. -/
theorem iteration_item {it : Item} (h : it.Valid) (rest : List Char)
    (hfields : r.fields.length + it.fields.length ≤ maxFields) :
    iteration maxFields maxFmtStrLen (it.text ++ rest) r
      = (ParsedPattern.pushChars maxFmtStrLen
          { r with
            fields := r.fields ++ it.fields.map Prod.fst
            specs := r.specs ++ it.fields.map Prod.snd } it.fmtText).map (.next rest) := by
  cases it with
  | char c =>
      obtain ⟨hopen, hclose⟩ := h
      rw [Item.text, List.singleton_append, iteration_char hopen hclose]
      simp [Item.fmtText, Item.fields, Item.meaning, ParsedPattern.pushChars]
  | openBrace => simp [Item.text, iteration, Item.fmtText, Item.fields, Item.meaning]
  | closeBrace =>
      have hne : ('}' : Char) ≠ '{' := by decide
      simp [Item.text, iteration, hne, Item.fmtText, Item.fields, Item.meaning]
  | field name spec =>
      obtain ⟨hclose, hopen, -⟩ := h.body_clean
      obtain ⟨f, s, hf, hs, hv⟩ := h
      have hmeaning := Item.meaning_field hf hs hv
      have hlen : r.fields.length + 1 ≤ maxFields := by
        simpa [Item.fields, hmeaning] using hfields
      rw [Item.text, List.cons_append, List.append_assoc, List.singleton_append,
        iteration_openingBrace (head?_append_cons _ hopen (by decide)), openingBrace,
        splitAtFirst_append hclose]
      have hcount : r.fields.length < maxFields := hlen
      simp only [parseField_of_valid hf hs hv, if_neg (Nat.not_le.mpr hcount),
        ParsedPattern.pushField, if_pos hcount, Option.bind_some]
      simp [Item.fmtText, Item.fields, hmeaning]

/-- **The loop body at a complete item**, where there is room for it. -/
theorem iteration_text {it : Item} (h : it.Valid) (rest : List Char)
    (hfields : r.fields.length + it.fields.length ≤ maxFields)
    (hroom : r.fmtStr.length + it.fmtText.length ≤ maxFmtStrLen) :
    iteration maxFields maxFmtStrLen (it.text ++ rest) r = some (.next rest (r.push it)) := by
  rw [iteration_item h rest hfields, ParsedPattern.pushChars_eq (by exact hroom)]
  rfl

/-- Where there is none, it writes out of bounds. -/
theorem iteration_text_eq_none {it : Item} (h : it.Valid) (rest : List Char)
    (hfields : r.fields.length + it.fields.length ≤ maxFields)
    (hle : r.fmtStr.length ≤ maxFmtStrLen)
    (hroom : maxFmtStrLen < r.fmtStr.length + it.fmtText.length) :
    iteration maxFields maxFmtStrLen (it.text ++ rest) r = none := by
  rw [iteration_item h rest hfields,
    ParsedPattern.pushChars_eq_none (by exact hle) (by exact hroom)]
  rfl

/-- The scanner names the fault of a field. -/
theorem openingBrace_fault {body after : List Char} {e : ParsingError}
    (h : FieldFault maxFields r.fields.length body e) (hclose : '}' ∉ body) :
    openingBrace maxFields maxFmtStrLen (body ++ '}' :: after) r
      = some (.done { r with error := e }) := by
  rw [openingBrace, splitAtFirst_append hclose]
  cases h with
  | emptyFieldName => rfl
  | unknownFieldName hcolon hne hf =>
      simp only [parseField, if_neg hne, splitNameAndSpec_bodyText hcolon, hf]
  | unknownFormatSpec hf hs =>
      obtain ⟨-, hcolon, -, hne⟩ := fieldName_clean hf
      simp only [parseField, if_neg (bodyText_ne_nil hne _), splitNameAndSpec_bodyText hcolon,
        hf, hs]
  | invalidSpecUsage hf hs hv =>
      obtain ⟨-, hcolon, -, hne⟩ := fieldName_clean hf
      simp only [parseField, if_neg (bodyText_ne_nil hne _), splitNameAndSpec_bodyText hcolon,
        hf, hs, hv, Bool.false_eq_true, if_false]
  | tooManyFields hvalid hle =>
      obtain ⟨f, s, hf, hs, hv⟩ := hvalid
      simp only [parseField_of_valid hf hs hv, if_pos hle]

/-- **The loop body at a fault.** -/
theorem iteration_fault {rest : List Char} {e : ParsingError}
    (h : Fault maxFields r.fields.length rest e) :
    iteration maxFields maxFmtStrLen rest r = some (.done { r with error := e }) := by
  cases h with
  | unterminatedBrace hopen hclose =>
      rw [iteration_openingBrace hopen, openingBrace, splitAtFirst_eq_none hclose]
  | field hopen hclose hfault =>
      rw [iteration_openingBrace (head?_append_cons _ hopen (by decide)),
        openingBrace_fault hfault hclose]
  | unmatchedClosingBrace hclose => exact iteration_closingBrace hclose

end Iteration

/-- A field in braces is valid or at fault. -/
theorem valid_or_fieldFault (maxFields n : ℕ) (body : List Char) :
    (∃ name spec, body = bodyText name spec ∧ (Item.field name spec).Valid ∧ n < maxFields) ∨
      ∃ e, FieldFault maxFields n body e := by
  obtain ⟨name, spec, hcolon, rfl⟩ := exists_bodyText body
  by_cases hne : bodyText name spec = []
  · rw [hne]
    exact Or.inr ⟨_, .emptyFieldName⟩
  cases hf : nameToFieldEnum name with
  | none => exact Or.inr ⟨_, .unknownFieldName hcolon hne hf⟩
  | some f =>
      cases hs : nameToFormatSpecEnum (spec.getD []) with
      | none => exact Or.inr ⟨_, .unknownFormatSpec hf hs⟩
      | some s =>
          cases hv : validateFieldSpecCombination f s with
          | false => exact Or.inr ⟨_, .invalidSpecUsage hf hs hv⟩
          | true =>
              have hvalid : (Item.field name spec).Valid := ⟨f, s, hf, hs, hv⟩
              rcases Nat.lt_or_ge n maxFields with hlt | hge
              · exact Or.inl ⟨name, spec, rfl, hvalid, hlt⟩
              · exact Or.inr ⟨_, .tooManyFields hvalid hge⟩

/-- **Where text is left, an item is complete or there is a fault.** -/
theorem item_or_fault (maxFields n : ℕ) {rest : List Char} (hn : n ≤ maxFields) (hne : rest ≠ []) :
    (∃ (it : Item) (rest' : List Char), it.Valid ∧ rest = it.text ++ rest' ∧
        n + it.fields.length ≤ maxFields) ∨
      ∃ e, Fault maxFields n rest e := by
  obtain ⟨c, cs, rfl⟩ := List.exists_cons_of_ne_nil hne
  by_cases hopen : c = '{'
  · subst c
    by_cases hescape : cs.head? = some '{'
    · obtain ⟨cs, rfl⟩ := List.head?_eq_some_iff.mp hescape
      exact Or.inl ⟨.openBrace, cs, trivial, rfl, hn⟩
    rcases notMem_or_split '}' cs with hclose | ⟨body, after, hclose, rfl⟩
    · exact Or.inr ⟨_, .unterminatedBrace hescape hclose⟩
    have hbody : body.head? ≠ some '{' := by
      cases body with
      | nil => simp
      | cons b bs => simpa using hescape
    rcases valid_or_fieldFault maxFields n body with ⟨name, spec, rfl, hvalid, hlt⟩ | ⟨e, he⟩
    · refine Or.inl ⟨.field name spec, after, hvalid, by simp [Item.text], ?_⟩
      obtain ⟨f, s, hf, hs, hv⟩ := hvalid
      simpa [Item.fields, Item.meaning_field hf hs hv] using Nat.succ_le_of_lt hlt
    · exact Or.inr ⟨e, .field hbody hclose he⟩
  · by_cases hclose : c = '}'
    · subst c
      by_cases hescape : cs.head? = some '}'
      · obtain ⟨cs, rfl⟩ := List.head?_eq_some_iff.mp hescape
        exact Or.inl ⟨.closeBrace, cs, trivial, rfl, hn⟩
      · exact Or.inr ⟨_, .unmatchedClosingBrace hescape⟩
    · exact Or.inl ⟨.char c, cs, ⟨hopen, hclose⟩, rfl, hn⟩

/-! ## The loop -/

theorem itemsText_cons (it : Item) (items : List Item) :
    itemsText (it :: items) = it.text ++ itemsText items := by
  simp [itemsText]

theorem length_itemsFields_cons (it : Item) (items : List Item) :
    (itemsFields (it :: items)).length = it.fields.length + (itemsFields items).length := by
  simp [itemsFields]

theorem length_le_length_itemsText (items : List Item) :
    items.length ≤ (itemsText items).length := by
  induction items with
  | nil => simp
  | cons it items ih =>
      have := it.length_text_pos
      rw [itemsText_cons, List.length_append, List.length_cons]
      omega

theorem length_itemsFmtText_le {items : List Item} (hvalid : ∀ it ∈ items, it.Valid) :
    (itemsFmtText items).length ≤ (itemsText items).length := by
  induction items with
  | nil => exact Nat.le_refl _
  | cons it items ih =>
      rw [itemsText_cons, itemsFmtText, List.flatMap_cons, List.length_append, List.length_append]
      exact Nat.add_le_add (Item.length_fmtText_le (hvalid it List.mem_cons_self))
        (ih fun it' h => hvalid it' (List.mem_cons_of_mem _ h))

section Loop
variable {maxFields maxFmtStrLen : ℕ}

/-- Complete items are consumed one after another, as long as there is room for what they
become. -/
theorem parseLoop_items {items : List Item} (hvalid : ∀ it ∈ items, it.Valid) (rest : List Char)
    (fuel : ℕ) :
    ∀ {r : ParsedPattern}, r.fields.length + (itemsFields items).length ≤ maxFields →
      r.fmtStr.length + (itemsFmtText items).length ≤ maxFmtStrLen →
      parseLoop maxFields maxFmtStrLen (fuel + items.length) (itemsText items ++ rest) r
        = parseLoop maxFields maxFmtStrLen fuel rest (r.pushAll items) := by
  induction items with
  | nil => intro r _ _; rfl
  | cons it items ih =>
      intro r hfields hroom
      rw [length_itemsFields_cons] at hfields
      rw [itemsFmtText, List.flatMap_cons, List.length_append, ← itemsFmtText] at hroom
      have hit := hvalid it List.mem_cons_self
      have hstep : iteration maxFields maxFmtStrLen (it.text ++ (itemsText items ++ rest)) r
          = some (.next (itemsText items ++ rest) (r.push it)) :=
        iteration_text hit _ (by omega) (by omega)
      rw [itemsText_cons, List.append_assoc, List.length_cons, ← Nat.add_assoc, parseLoop, hstep]
      refine ih (fun it' h => hvalid it' (List.mem_cons_of_mem _ h)) ?_ ?_
      · simp only [ParsedPattern.push, List.length_append, List.length_map]
        omega
      · simp only [ParsedPattern.push, List.length_append]
        omega

/-- The fuel is enough to get past any items the pattern starts with. -/
theorem parsePattern_items {items : List Item} (hvalid : ∀ it ∈ items, it.Valid)
    (rest : List Char) (hfields : (itemsFields items).length ≤ maxFields)
    (hroom : (itemsFmtText items).length ≤ maxFmtStrLen) :
    ∃ fuel, parsePattern (itemsText items ++ rest) maxFields maxFmtStrLen
      = parseLoop maxFields maxFmtStrLen (fuel + 1) rest (ParsedPattern.empty.pushAll items) := by
  have hle := length_le_length_itemsText items
  refine ⟨(itemsText items).length - items.length + rest.length, ?_⟩
  rw [← parseLoop_items hvalid rest _ (by simpa [ParsedPattern.empty] using hfields)
    (by simpa [ParsedPattern.empty] using hroom), parsePattern, List.length_append]
  congr 1
  omega

/-- **A pattern of the grammar is accepted**, with what its items add up to. -/
theorem parsePattern_of_grammar {pattern : List Char} {items : List Item}
    (h : Grammar maxFields pattern items) (hlen : pattern.length ≤ maxFmtStrLen) :
    parsePattern pattern maxFields maxFmtStrLen = .ok (ParsedPattern.empty.pushAll items) := by
  have hroom : (itemsFmtText items).length ≤ maxFmtStrLen :=
    Nat.le_trans (length_itemsFmtText_le h.valid) (by rwa [h.text_eq])
  obtain ⟨fuel, hfuel⟩ := parsePattern_items h.valid [] h.fields_le hroom
  rw [List.append_nil, h.text_eq] at hfuel
  rw [hfuel, parseLoop, iteration]

/-- **A pattern with a fault is rejected with the first one.** -/
theorem parsePattern_of_firstFault {pattern : List Char} {e : ParsingError}
    (h : FirstFault maxFields pattern e) (hlen : pattern.length ≤ maxFmtStrLen) :
    ∃ r, parsePattern pattern maxFields maxFmtStrLen = .ok r ∧ r.error = e := by
  obtain ⟨items, rest, hvalid, rfl, hfields, hfault⟩ := h
  rw [List.length_append] at hlen
  have hroom : (itemsFmtText items).length ≤ maxFmtStrLen :=
    Nat.le_trans (length_itemsFmtText_le hvalid) (by omega)
  obtain ⟨fuel, hfuel⟩ := parsePattern_items hvalid rest hfields hroom
  have hcount : (ParsedPattern.empty.pushAll items).fields.length = (itemsFields items).length := by
    simp [ParsedPattern.fields_pushAll, ParsedPattern.empty]
  rw [← hcount] at hfault
  refine ⟨{ ParsedPattern.empty.pushAll items with error := e }, ?_, rfl⟩
  rw [hfuel, parseLoop, iteration_fault hfault]

end Loop

/-! ## There is no third case, and no second decomposition -/

/-- From any point with `n` fields behind it, the items go on to the end or to a fault. -/
theorem items_or_fault (maxFields : ℕ) (rest : List Char) {n : ℕ} (hn : n ≤ maxFields) :
    ∃ (items : List Item) (rest' : List Char), (∀ it ∈ items, it.Valid) ∧
      rest = itemsText items ++ rest' ∧ n + (itemsFields items).length ≤ maxFields ∧
      (rest' = [] ∨ ∃ e, Fault maxFields (n + (itemsFields items).length) rest' e) := by
  induction hlen : rest.length using Nat.strongRecOn generalizing rest n with
  | _ len ih =>
    by_cases hne : rest = []
    · exact ⟨[], [], by simp, by simpa [itemsText] using hne, by simpa [itemsFields] using hn,
        Or.inl rfl⟩
    rcases item_or_fault maxFields n hn hne with ⟨it, rest', hvalid, rfl, hfields⟩ | hfault
    · have hpos := it.length_text_pos
      rw [List.length_append] at hlen
      obtain ⟨items, rest'', hitems, rfl, hle, hend⟩ := ih rest'.length (by omega) rest' hfields rfl
      refine ⟨it :: items, rest'', ?_, ?_, ?_, ?_⟩
      · intro it' h
        rcases List.mem_cons.mp h with rfl | h
        · exact hvalid
        · exact hitems it' h
      · rw [itemsText_cons, List.append_assoc]
      · rw [length_itemsFields_cons]
        omega
      · rwa [length_itemsFields_cons, ← Nat.add_assoc]
    · exact ⟨[], rest, by simp, rfl, by simpa [itemsFields] using hn,
        Or.inr (by simpa [itemsFields] using hfault)⟩

theorem grammar_or_firstFault (maxFields : ℕ) (pattern : List Char) :
    (∃ items, Grammar maxFields pattern items) ∨ ∃ e, FirstFault maxFields pattern e := by
  obtain ⟨items, rest, hvalid, heq, hle, hend⟩ :=
    items_or_fault maxFields pattern (Nat.zero_le maxFields)
  rw [Nat.zero_add] at hle hend
  rcases hend with rfl | ⟨e, he⟩
  · exact Or.inl ⟨items, hvalid, by rw [heq, List.append_nil], hle⟩
  · exact Or.inr ⟨e, items, rest, hvalid, heq, hle, he⟩

theorem fieldFault_ne_none {maxFields n : ℕ} {body : List Char} {e : ParsingError}
    (h : FieldFault maxFields n body e) : e ≠ .None := by
  cases h <;> simp

theorem FirstFault.ne_none {maxFields : ℕ} {pattern : List Char} {e : ParsingError}
    (h : FirstFault maxFields pattern e) : e ≠ .None := by
  obtain ⟨_, _, _, _, _, hfault⟩ := h
  cases hfault with
  | unterminatedBrace _ _ => simp
  | field _ _ hfield => exact fieldFault_ne_none hfield
  | unmatchedClosingBrace _ => simp

/-- The first separator is found in one place only. -/
theorem append_cons_inj {c : Char} {as bs as' bs' : List Char} (h : c ∉ as) (h' : c ∉ as')
    (heq : as ++ c :: bs = as' ++ c :: bs') : as = as' ∧ bs = bs' := by
  have hsplit : some (as, bs) = some (as', bs') := by
    rw [← splitAtFirst_append h, ← splitAtFirst_append h', heq]
  simpa using hsplit

theorem bodyText_inj {name name' : List Char} {spec spec' : Option (List Char)} (h : ':' ∉ name)
    (h' : ':' ∉ name') (heq : bodyText name spec = bodyText name' spec') :
    name = name' ∧ spec = spec' := by
  cases spec with
  | none =>
      cases spec' with
      | none => exact ⟨heq, rfl⟩
      | some spec' =>
          rw [bodyText, bodyText] at heq
          exact absurd (by simp [heq]) h
  | some spec =>
      cases spec' with
      | none =>
          rw [bodyText, bodyText] at heq
          exact absurd (by simp [← heq]) h'
      | some spec' =>
          obtain ⟨hname, hspec⟩ := append_cons_inj h h' heq
          exact ⟨hname, congrArg some hspec⟩

namespace Item

theorem Valid.colon_notMem {name : List Char} {spec : Option (List Char)}
    (h : (field name spec).Valid) : ':' ∉ name := by
  obtain ⟨f, s, hf, -, -⟩ := h
  exact (fieldName_clean hf).2.1

/-- What follows the opening brace of a valid field is not a second brace. -/
theorem Valid.field_text_append_ne {name : List Char} {spec : Option (List Char)}
    (h : (field name spec).Valid) (as bs : List Char) :
    (field name spec).text ++ as ≠ '{' :: '{' :: bs := by
  intro heq
  obtain ⟨-, hopen, hne⟩ := h.body_clean
  obtain ⟨c, cs, hbody⟩ := List.exists_cons_of_ne_nil hne
  rw [hbody] at hopen
  simp only [text, hbody, List.cons_append, List.cons.injEq, true_and] at heq
  exact hopen (by rw [heq.1]; rfl)

/-- The text of a valid item determines the item and where it ends. -/
theorem text_append_inj {it it' : Item} {as bs : List Char} (h : it.Valid) (h' : it'.Valid)
    (heq : it.text ++ as = it'.text ++ bs) : it = it' ∧ as = bs := by
  cases it with
  | char c =>
      obtain ⟨hopen, hclose⟩ := h
      cases it' with
      | char c' => simpa [text] using heq
      | openBrace => exact absurd (List.cons.inj heq).1 hopen
      | closeBrace => exact absurd (List.cons.inj heq).1 hclose
      | field name spec => exact absurd (List.cons.inj heq).1 hopen
  | openBrace =>
      cases it' with
      | char c' => exact absurd (List.cons.inj heq).1.symm h'.1
      | openBrace => simpa [text] using heq
      | closeBrace => simp [text] at heq
      | field name spec => exact absurd heq.symm (h'.field_text_append_ne _ _)
  | closeBrace =>
      cases it' with
      | char c' => exact absurd (List.cons.inj heq).1.symm h'.2
      | openBrace => simp [text] at heq
      | closeBrace => simpa [text] using heq
      | field name spec => simp [text] at heq
  | field name spec =>
      cases it' with
      | char c' => exact absurd (List.cons.inj heq).1.symm h'.1
      | openBrace => exact absurd heq (h.field_text_append_ne _ _)
      | closeBrace => simp [text] at heq
      | field name' spec' =>
          simp only [text, List.cons_append, List.append_assoc, List.nil_append,
            List.cons.injEq, true_and] at heq
          obtain ⟨hbody, hrest⟩ := append_cons_inj h.body_clean.1 h'.body_clean.1 heq
          obtain ⟨rfl, rfl⟩ := bodyText_inj h.colon_notMem h'.colon_notMem hbody
          exact ⟨rfl, hrest⟩

end Item

theorem itemsText_inj {items items' : List Item} (h : ∀ it ∈ items, it.Valid)
    (h' : ∀ it ∈ items', it.Valid) (heq : itemsText items = itemsText items') :
    items = items' := by
  induction items generalizing items' with
  | nil =>
      cases items' with
      | nil => rfl
      | cons it' items' =>
          have hlen := congrArg List.length heq
          have hpos := it'.length_text_pos
          rw [itemsText_cons, List.length_append] at hlen
          simp only [itemsText, List.flatMap_nil, List.length_nil] at hlen
          omega
  | cons it items ih =>
      cases items' with
      | nil =>
          have hlen := congrArg List.length heq
          have hpos := it.length_text_pos
          rw [itemsText_cons, List.length_append] at hlen
          simp only [itemsText, List.flatMap_nil, List.length_nil] at hlen
          omega
      | cons it' items' =>
          rw [itemsText_cons, itemsText_cons] at heq
          obtain ⟨rfl, hrest⟩ := Item.text_append_inj (h it List.mem_cons_self)
            (h' it' List.mem_cons_self) heq
          rw [ih (fun i hi => h i (List.mem_cons_of_mem _ hi))
            (fun i hi => h' i (List.mem_cons_of_mem _ hi)) hrest]

theorem Grammar.unique {maxFields : ℕ} {pattern : List Char} {items items' : List Item}
    (h : Grammar maxFields pattern items) (h' : Grammar maxFields pattern items') :
    items' = items :=
  itemsText_inj h'.valid h.valid (h'.text_eq.trans h.text_eq.symm)

/-- **The parser accepts exactly its grammar and reports the first fault.** -/
theorem parsePattern_grammar {pattern : List Char} {maxFields maxFmtStrLen : ℕ}
    (hlen : pattern.length ≤ maxFmtStrLen) :
    ∃ r, parsePattern pattern maxFields maxFmtStrLen = .ok r ∧
      (r.error = .None ↔ ∃ items, Grammar maxFields pattern items) ∧
      (∀ items, Grammar maxFields pattern items →
        r.fields = (itemsFields items).map Prod.fst ∧
        r.specs = (itemsFields items).map Prod.snd ∧
        ∀ items', Grammar maxFields pattern items' → items' = items) ∧
      ∀ e, e ≠ .None → (r.error = e ↔ FirstFault maxFields pattern e) := by
  rcases grammar_or_firstFault maxFields pattern with ⟨items, hg⟩ | ⟨e, hf⟩
  · have hparse := parsePattern_of_grammar hg hlen
    have herror : (ParsedPattern.empty.pushAll items).error = .None :=
      ParsedPattern.error_pushAll _ _
    refine ⟨_, hparse, ⟨fun _ => ⟨items, hg⟩, fun _ => herror⟩, ?_, ?_⟩
    · intro items' hg'
      obtain rfl := hg.unique hg'
      exact ⟨ParsedPattern.fields_pushAll _ _, ParsedPattern.specs_pushAll _ _,
        fun _ hg'' => hg'.unique hg''⟩
    · intro e he
      constructor
      · intro h
        exact absurd (h.symm.trans herror) he
      · intro hf
        obtain ⟨r, hr, rfl⟩ := parsePattern_of_firstFault hf hlen
        rw [hparse] at hr
        cases hr
        rfl
  · obtain ⟨r, hparse, hr⟩ := parsePattern_of_firstFault hf hlen
    have hno : ∀ items, ¬ Grammar maxFields pattern items := by
      intro items hg
      rw [parsePattern_of_grammar hg hlen] at hparse
      cases hparse
      exact hf.ne_none (hr.symm.trans (ParsedPattern.error_pushAll _ _))
    refine ⟨r, hparse, ?_, fun items hg => absurd hg (hno items), ?_⟩
    · constructor
      · intro h
        exact absurd (hr.symm.trans h) hf.ne_none
      · rintro ⟨items, hg⟩
        exact absurd hg (hno items)
    · intro e' _
      constructor
      · intro h
        rwa [← h, hr]
      · intro hf'
        obtain ⟨r', hparse', hr'⟩ := parsePattern_of_firstFault hf' hlen
        rw [hparse] at hparse'
        cases hparse'
        exact hr'

theorem parsePattern_grammar_default :
    defaultPattern.length ≤ 1000 ∧
      ∃ r, parsePattern defaultPattern 16 1000 = .ok r ∧
        (r.error = .None ↔ ∃ items, Grammar 16 defaultPattern items) ∧
        (∀ items, Grammar 16 defaultPattern items →
          r.fields = (itemsFields items).map Prod.fst ∧
          r.specs = (itemsFields items).map Prod.snd ∧
          ∀ items', Grammar 16 defaultPattern items' → items' = items) ∧
        ∀ e, e ≠ .None → (r.error = e ↔ FirstFault 16 defaultPattern e) :=
  ⟨by decide +kernel, parsePattern_grammar (by decide +kernel)⟩

end Papper
