import Papper.Pattern.Data

/-!
# The pattern compiler

`parse_pattern` translates a pattern such as `[{time:HMSf}] {message}` at compile time
into a format string for `fmt::vformat` and the list of fields that fill it.  The two
template parameters bound the arrays it writes.

The scanner is kept as the list of characters not yet consumed.  Reading at an index
past the end of an array has no counterpart here; *writing* past it has: `pushChar` and
`pushField` have no result then, and `Stop.outOfBounds` is how the parse ends.

## Main definitions

* `nameToFieldEnum`, `nameToFormatSpecEnum`, `validateFieldSpecCombination` — the
  tables.
* `iteration` — the body of the loop.
* `parsePattern` — the loop, with as much fuel as the pattern has characters.
-/

namespace Papper

inductive ParsingError
  | None
  | UnterminatedBrace
  | EmptyFieldName
  | UnknownFieldName
  | UnknownFormatSpec
  | InvalidSpecUsage
  | TooManyFields
  | UnmatchedClosingBrace
  deriving DecidableEq, Repr

/-- The arrays of `ParsedPattern` as far as they have been written: `fmt_str_len` and
`field_count` are the lengths. -/
structure ParsedPattern where
  error : ParsingError
  fmtStr : List Char
  fields : List PatternField
  specs : List PatternFieldFormatSpec
  deriving DecidableEq

namespace ParsedPattern

/-- `ParsedPattern<MaxFmtStrLen, MaxFields> result{}`. -/
def empty : ParsedPattern := ⟨.None, [], [], []⟩

/-- `result.fmt_str[result.fmt_str_len++] = c`. -/
def pushChar (maxFmtStrLen : ℕ) (r : ParsedPattern) (c : Char) : Option ParsedPattern :=
  if r.fmtStr.length < maxFmtStrLen then some { r with fmtStr := r.fmtStr ++ [c] } else none

/-- A character at a time. -/
def pushChars (maxFmtStrLen : ℕ) : ParsedPattern → List Char → Option ParsedPattern
  | r, [] => some r
  | r, c :: cs => (r.pushChar maxFmtStrLen c).bind fun r' => pushChars maxFmtStrLen r' cs

/-- The writes to `specs[field_count]` and `fields[field_count]`. -/
def pushField (maxFields : ℕ) (r : ParsedPattern) (field : PatternField)
    (spec : PatternFieldFormatSpec) : Option ParsedPattern :=
  if r.fields.length < maxFields then
    some { r with specs := r.specs ++ [spec], fields := r.fields ++ [field] }
  else none

end ParsedPattern

/-! ## The tables -/

def fieldNames : List (List Char × PatternField) :=
  [("time".toList, .Time), ("file".toList, .File), ("function".toList, .Function),
    ("line".toList, .Line), ("level".toList, .Level), ("message".toList, .Message),
    ("m".toList, .Message), ("thread".toList, .ThreadName)]

def nameToFieldEnum (name : List Char) : Option PatternField := fieldNames.lookup name

def specNames : List (List Char × PatternFieldFormatSpec) :=
  [("".toList, .None), ("HMS".toList, .TimeHMS), ("HMSf".toList, .TimeHMSf),
    ("HMSF".toList, .TimeHMSF), ("path".toList, .None), ("nameonly".toList, .FileNameOnly)]

def nameToFormatSpecEnum (name : List Char) : Option PatternFieldFormatSpec :=
  specNames.lookup name

def validateFieldSpecCombination (field : PatternField) (spec : PatternFieldFormatSpec) : Bool :=
  if field = .Time ∧ (spec = .TimeHMS ∨ spec = .TimeHMSf ∨ spec = .TimeHMSF) then true
  else if field = .File ∧ spec = .FileNameOnly then true
  -- if not one of the above, only None is valid spec
  else decide (spec = .None)

/-- The string `expand_spec_into_result` pushes. -/
def expansion : PatternFieldFormatSpec → List Char
  | .None => ['{', '}']
  | .TimeHMS => ['{', '}']
  | .TimeHMSf => ['{', '}', '.', '{', ':', '0', '6', '}']
  | .TimeHMSF => ['{', '}', '.', '{', ':', '0', '9', '}']
  | .FileNameOnly => ['{', '}']

/-! ## The loop -/

/-- The characters before the first `c`, and those after it. -/
def splitAtFirst (c : Char) : List Char → Option (List Char × List Char)
  | [] => none
  | d :: ds => if d = c then some ([], ds) else (splitAtFirst c ds).map fun (a, b) => (d :: a, b)

/-- The text between the braces: the name and, after the first colon, the spec. -/
def splitNameAndSpec (nameAndSpec : List Char) : List Char × List Char :=
  (splitAtFirst ':' nameAndSpec).getD (nameAndSpec, [])

/-- What becomes of the text between the braces, up to the count of the fields; `split` finds the
name and the spec in it. -/
def parseField (split : List Char → List Char × List Char) (nameAndSpec : List Char) :
    Except ParsingError (PatternField × PatternFieldFormatSpec) :=
  if nameAndSpec = [] then .error .EmptyFieldName
  else
    match nameToFieldEnum (split nameAndSpec).1 with
    | none => .error .UnknownFieldName
    | some field =>
        match nameToFormatSpecEnum (split nameAndSpec).2 with
        | none => .error .UnknownFormatSpec
        | some spec =>
            if validateFieldSpecCombination field spec then .ok (field, spec)
            else .error .InvalidSpecUsage

/-- How one iteration of the loop ends. -/
inductive Iteration
  /-- Go round again, on the characters left. -/
  | next (rest : List Char) (result : ParsedPattern)
  /-- Return. -/
  | done (result : ParsedPattern)
  deriving DecidableEq

/-- The body of the loop at an opening brace that is not an escape: `rest` are the
characters after it. -/
def openingBrace (maxFields maxFmtStrLen : ℕ) (rest : List Char) (r : ParsedPattern) :
    Option Iteration :=
  -- try to find the matching closing bracket
  match splitAtFirst '}' rest with
  | none => some (.done { r with error := .UnterminatedBrace })
  | some (nameAndSpec, after) =>
      match parseField splitNameAndSpec nameAndSpec with
      | .error e => some (.done { r with error := e })
      | .ok (field, spec) =>
          if maxFields ≤ r.fields.length then
            some (.done { r with error := .TooManyFields })
          else
            ((r.pushField maxFields field spec).bind fun r' =>
              r'.pushChars maxFmtStrLen (expansion spec)).map (.next after)

/-- The body of the loop.  No result is a write out of bounds. -/
def iteration (maxFields maxFmtStrLen : ℕ) (rest : List Char) (r : ParsedPattern) :
    Option Iteration :=
  match rest with
  | [] => some (.done r)
  | c :: cs =>
      if c = '{' then
        match cs with
        | '{' :: after =>
            -- forward escape sequence to fmt::vformat
            (r.pushChars maxFmtStrLen ['{', '{']).map (.next after)
        | _ => openingBrace maxFields maxFmtStrLen cs r
      else if c = '}' then
        match cs with
        | '}' :: after => (r.pushChars maxFmtStrLen ['}', '}']).map (.next after)
        | _ => some (.done { r with error := .UnmatchedClosingBrace })
      else
        (r.pushChar maxFmtStrLen c).map (.next cs)

/-- How a parse can fail to return. -/
inductive Stop
  | outOfBounds
  | outOfFuel
  deriving DecidableEq, Repr

/-- The loop. -/
def parseLoop (maxFields maxFmtStrLen : ℕ) :
    ℕ → List Char → ParsedPattern → Except Stop ParsedPattern
  | 0, _, _ => .error .outOfFuel
  | fuel + 1, rest, r =>
      match iteration maxFields maxFmtStrLen rest r with
      | none => .error .outOfBounds
      | some (.done r') => .ok r'
      | some (.next rest' r') => parseLoop maxFields maxFmtStrLen fuel rest' r'

/-- `parse_pattern<Pattern, MaxFields, MaxFmtStrLen>()`. -/
def parsePattern (pattern : List Char) (maxFields maxFmtStrLen : ℕ) :
    Except Stop ParsedPattern :=
  parseLoop maxFields maxFmtStrLen (pattern.length + 1) pattern .empty

/-- The pattern `PatternFormatterHandler` starts with. -/
def defaultPattern : List Char :=
  "[\x7btime:HMSf\x7d] (\x7blevel\x7d) (\x7bfile:nameonly\x7d:\x7bline\x7d) \x7bmessage\x7d".toList

end Papper
