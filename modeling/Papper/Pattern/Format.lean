import Mathlib.Algebra.Group.Int.Defs
import Mathlib.Data.List.DropRight
import Mathlib.Tactic.Common
import Papper.Lib.FormatString
import Papper.Lib.Transition
import Papper.Pattern.Grammar

/-!
# Formatting a line

`PatternFormatter::format` expands every field into its arguments and hands them, with
the compiled format string, to `fmt::vformat`.  A time field with digits below the
second is one field and two arguments.  The `HH:MM:SS` part of a time is kept from one
call to the next in variables that live as long as the program, one pair for each spec.

`Item.rendering` reads a pattern without compiling it.  `formatImpl_rendering` says that
the two agree: for every pattern of the grammar, whatever was formatted before, and in
whatever order the compiler evaluates the arguments.

## Main definitions

* `TimeCaches`, `processTimeArg` — the cached text of the last second.
* `expandAndProcessFormatArg`, `evaluateArgs`, `formatImpl` — the formatter.
* `Item.rendering` — what a pattern says.
-/

namespace Papper

open Transition

/-! ## The formatter -/

/-- The two static variables of one `process_time_arg`. -/
structure TimeCache where
  hmsPart : List Char
  /-- In whole seconds since the epoch. -/
  lastUpdate : ℤ
  deriving DecidableEq

/-- The static variables of all of them. -/
abbrev TimeCaches := PatternFieldFormatSpec → TimeCache

/-- At the start of the program. -/
def TimeCaches.init : TimeCaches := fun _ => ⟨[], -1⟩

/-- What `process_time_arg` does to its cache. -/
def TimeCache.update (F : Fmt) (cache : TimeCache) (arg : ℤ) : TimeCache :=
  if arg / 10 ^ 9 = cache.lastUpdate then cache
  else ⟨F.clockText (arg / 10 ^ 9), arg / 10 ^ 9⟩

/-- A count converted to `uint64_t`. -/
def toUInt64 (n : ℤ) : ℕ := (n % 2 ^ 64).toNat

/-- The arguments `process_time_arg<Spec>` makes, once the cache is up to date. -/
def timeArgs (spec : PatternFieldFormatSpec) (hmsPart : List Char) (arg : ℤ) :
    Option (List FmtArg) :=
  match spec with
  | .TimeHMS => some [.text hmsPart]
  | .TimeHMSf => some [.text hmsPart, .uint (toUInt64 (arg.tmod (10 ^ 9) / 1000))]
  | .TimeHMSF => some [.text hmsPart, .uint (toUInt64 (arg.tmod (10 ^ 9)))]
  | _ => none

/-- `process_time_arg<Spec>(arg)`. -/
def processTimeArg (F : Fmt) (spec : PatternFieldFormatSpec) (arg : ℤ) (caches : TimeCaches) :
    Option (List FmtArg × TimeCaches) :=
  (timeArgs spec ((caches spec).update F arg).hmsPart arg).map fun args =>
    (args, Function.update caches spec ((caches spec).update F arg))

/-- `find_last_of`: the index of the last of these characters. -/
def findLastOf (set : List Char) : List Char → Option ℕ
  | [] => none
  | c :: cs =>
      match findLastOf set cs with
      | some i => some (i + 1)
      | none => if c ∈ set then some 0 else none

/-- `path_sv.substr(path_sv.find_last_of("/\\") + 1)`, where `npos + 1` is 0. -/
def fileName (path : List Char) : List Char :=
  path.drop ((findLastOf ['/', '\\'] path).elim 0 (· + 1))

/-- `get_field<Field>(data)`. -/
def getField (field : PatternField) (data : PatternData) : FmtArg :=
  match field with
  | .Level => .text (levelToName data.level)
  | .Time => .time data.timestamp
  | .File => .text data.filename
  | .Function => .text data.functionname
  | .Line => .uint data.linenumber
  | .Message => .text data.message
  | .ThreadName => .text data.threadName

/-- `expand_and_process_format_arg<Spec>(arg)`.  There is no such function for an
argument the spec does not apply to. -/
def expandAndProcessFormatArg (F : Fmt) (spec : PatternFieldFormatSpec) (arg : FmtArg)
    (caches : TimeCaches) : Option (List FmtArg × TimeCaches) :=
  match spec, arg with
  | .None, arg => some ([arg], caches)
  | .FileNameOnly, .text path => some ([.text (fileName path)], caches)
  | .TimeHMS, .time t => processTimeArg F .TimeHMS t caches
  | .TimeHMSf, .time t => processTimeArg F .TimeHMSf t caches
  | .TimeHMSF, .time t => processTimeArg F .TimeHMSF t caches
  | _, _ => none

/-- The calls that make up the argument of `tuple_cat`, evaluated in the order of the
list.  Only what the calls have to do with each other, the caches, depends on it. -/
def evaluateArgs (F : Fmt) (p : ParsedPattern) (data : PatternData) :
    List ℕ → TimeCaches → (ℕ → List FmtArg) → Option ((ℕ → List FmtArg) × TimeCaches)
  | [], caches, results => some (results, caches)
  | i :: order, caches, results =>
      match p.fields[i]?, p.specs[i]? with
      | some field, some spec =>
          (expandAndProcessFormatArg F spec (getField field data) caches).bind fun (args, caches') =>
            evaluateArgs F p data order caches' (Function.update results i args)
      | _, _ => none

/-- How a call of `format` ends. -/
structure Formatted where
  /-- The line, or nothing when `fmt::vformat` threw. -/
  line : Option (List Char)
  caches : TimeCaches

/-- `PatternFormatter::format_impl`.  There is no result where the formatter does not
compile. -/
def formatImpl (F : Fmt) (p : ParsedPattern) (order : List ℕ) (data : PatternData)
    (caches : TimeCaches) : Option Formatted :=
  (evaluateArgs F p data order caches fun _ => []).map fun (results, caches') =>
    ⟨F.vformat p.fmtStr ((List.range p.fields.length).flatMap results), caches'⟩

/-- One call of `format` of some formatter. -/
structure FormatCall where
  pattern : ParsedPattern
  order : List ℕ
  data : PatternData

/-- The effect of a call on the caches. -/
def FormatCall.step (F : Fmt) (caches : TimeCaches) (call : FormatCall) : Option TimeCaches :=
  (formatImpl F call.pattern call.order call.data caches).map Formatted.caches

/-! ## What a pattern says -/

/-- The rendering of a field. -/
def fieldRendering (F : Fmt) (data : PatternData) (field : PatternField) :
    PatternFieldFormatSpec → List Char
  | .None => F.argText (getField field data)
  | .TimeHMS => clockDigits (data.timestamp / 10 ^ 9).toNat
  | .TimeHMSf => clockDigits (data.timestamp / 10 ^ 9).toNat ++
      '.' :: fixedDigits 6 (data.timestamp % 10 ^ 9 / 1000).toNat
  | .TimeHMSF => clockDigits (data.timestamp / 10 ^ 9).toNat ++
      '.' :: fixedDigits 9 (data.timestamp % 10 ^ 9).toNat
  | .FileNameOnly => data.filename.rtakeWhile fun c => c ≠ '/' ∧ c ≠ '\\'

/-- The rendering of an item. -/
def Item.rendering (F : Fmt) (data : PatternData) : Item → List Char
  | .char c => [c]
  | .openBrace => ['{']
  | .closeBrace => ['}']
  | .field name spec =>
      match (Item.field name spec).meaning with
      | some (f, s) => fieldRendering F data f s
      | none => []

/-! ## The cached text -/

namespace TimeCache
variable {F : Fmt} {cache : TimeCache}

/-- The cache holds the text of its second, unless it is still the initial one. -/
def Current (F : Fmt) (cache : TimeCache) : Prop :=
  cache.lastUpdate = -1 ∨ cache.hmsPart = F.clockText cache.lastUpdate

theorem Current.update (h : cache.Current F) (arg : ℤ) : (cache.update F arg).Current F := by
  by_cases heq : arg / 10 ^ 9 = cache.lastUpdate
  · rwa [TimeCache.update, if_pos heq]
  · rw [TimeCache.update, if_neg heq]
    exact Or.inr rfl

/-- The sentinel is hit only in the last second before the epoch. -/
theorem Current.hmsPart_update (h : cache.Current F) {arg : ℤ} (harg : arg / 10 ^ 9 ≠ -1) :
    (cache.update F arg).hmsPart = F.clockText (arg / 10 ^ 9) := by
  by_cases heq : arg / 10 ^ 9 = cache.lastUpdate
  · rw [TimeCache.update, if_pos heq]
    rcases h with hinit | htext
    · exact absurd (heq.trans hinit) harg
    · rw [htext, heq]
  · rw [TimeCache.update, if_neg heq]

end TimeCache

/-- All of the caches do. -/
def TimeCaches.Current (F : Fmt) (caches : TimeCaches) : Prop := ∀ spec, (caches spec).Current F

theorem TimeCaches.current_init (F : Fmt) : TimeCaches.init.Current F := fun _ => Or.inl rfl

section Current
variable {F : Fmt} {caches caches' : TimeCaches}

theorem processTimeArg_current {spec : PatternFieldFormatSpec} {arg : ℤ} {args : List FmtArg}
    (hc : caches.Current F) (h : processTimeArg F spec arg caches = some (args, caches')) :
    caches'.Current F := by
  obtain ⟨args', -, heq⟩ := Option.map_eq_some_iff.mp h
  obtain ⟨-, rfl⟩ := Prod.mk.inj heq
  intro spec'
  by_cases hs : spec' = spec
  · subst spec'
    simpa using (hc spec).update arg
  · simpa [Function.update_of_ne hs] using hc spec'

theorem expandAndProcessFormatArg_current {spec : PatternFieldFormatSpec} {arg : FmtArg}
    {args : List FmtArg} (hc : caches.Current F)
    (h : expandAndProcessFormatArg F spec arg caches = some (args, caches')) :
    caches'.Current F := by
  unfold expandAndProcessFormatArg at h
  split at h
  · obtain ⟨-, rfl⟩ := Prod.mk.inj (Option.some.inj h)
    exact hc
  · obtain ⟨-, rfl⟩ := Prod.mk.inj (Option.some.inj h)
    exact hc
  · exact processTimeArg_current hc h
  · exact processTimeArg_current hc h
  · exact processTimeArg_current hc h
  · cases h

theorem evaluateArgs_current {p : ParsedPattern} {data : PatternData} {order : List ℕ}
    {results results' : ℕ → List FmtArg} (hc : caches.Current F)
    (h : evaluateArgs F p data order caches results = some (results', caches')) :
    caches'.Current F := by
  induction order generalizing caches results with
  | nil =>
      obtain ⟨-, rfl⟩ := Prod.mk.inj (Option.some.inj h)
      exact hc
  | cons i order ih =>
      rw [evaluateArgs] at h
      split at h
      · obtain ⟨⟨args, caches''⟩, hcall, hrest⟩ := Option.bind_eq_some_iff.mp h
        exact ih (expandAndProcessFormatArg_current hc hcall) hrest
      · cases h

/-- **Every call of every formatter keeps the caches current**, at any time before or after
the epoch. -/
theorem FormatCall.step_current {call : FormatCall} (hc : caches.Current F)
    (h : call.step F caches = some caches') : caches'.Current F := by
  obtain ⟨formatted, hcall, rfl⟩ := Option.map_eq_some_iff.mp h
  obtain ⟨⟨results, caches''⟩, heval, rfl⟩ := Option.map_eq_some_iff.mp hcall
  exact evaluateArgs_current hc heval

end Current

/-! ## File names -/

theorem findLastOf_eq_none {set path : List Char} (h : findLastOf set path = none) :
    ∀ c ∈ path, c ∉ set := by
  induction path with
  | nil => simp
  | cons c cs ih =>
      rw [findLastOf] at h
      split at h
      · cases h
      · rename_i hcs
        by_cases hc : c ∈ set
        · simp [hc] at h
        · intro d hd
          rcases List.mem_cons.mp hd with rfl | hd
          · exact hc
          · exact ih hcs d hd

/-- Nothing of the set comes after the last of its characters. -/
theorem findLastOf_eq_some {set path : List Char} {i : ℕ} (h : findLastOf set path = some i) :
    ∃ as c bs, path = as ++ c :: bs ∧ as.length = i ∧ c ∈ set ∧ ∀ d ∈ bs, d ∉ set := by
  induction path generalizing i with
  | nil => cases h
  | cons c cs ih =>
      rw [findLastOf] at h
      split at h
      · rename_i j hcs
        obtain ⟨as, d, bs, rfl, rfl, hd, hbs⟩ := ih hcs
        exact ⟨c :: as, d, bs, rfl, by simpa using h, hd, hbs⟩
      · rename_i hcs
        by_cases hc : c ∈ set
        · rw [if_pos hc] at h
          exact ⟨[], c, cs, rfl, by simpa using h, hc, findLastOf_eq_none hcs⟩
        · simp [hc] at h

/-- The file name is the longest suffix without a separator. -/
theorem fileName_eq (path : List Char) :
    fileName path = path.rtakeWhile fun c => c ≠ '/' ∧ c ≠ '\\' := by
  have hsep : ∀ c : Char, decide (c ≠ '/' ∧ c ≠ '\\') = true ↔ c ∉ ['/', '\\'] := by simp
  cases hfind : findLastOf ['/', '\\'] path with
  | none =>
      have hall := findLastOf_eq_none hfind
      have hpath : path.rtakeWhile (fun c => c ≠ '/' ∧ c ≠ '\\') = path := by
        rw [List.rtakeWhile_eq_self_iff]
        exact fun c hc => (hsep c).mpr (hall c hc)
      rw [hpath, fileName, hfind]
      rfl
  | some i =>
      obtain ⟨as, c, bs, rfl, rfl, hc, hbs⟩ := findLastOf_eq_some hfind
      have hname : fileName (as ++ c :: bs) = bs := by simp [fileName, hfind]
      have hclean : ∀ d ∈ bs.reverse, decide (d ≠ '/' ∧ d ≠ '\\') = true :=
        fun d hd => (hsep d).mpr (hbs d (List.mem_reverse.mp hd))
      have hstop : (c :: as.reverse).takeWhile (fun c => c ≠ '/' ∧ c ≠ '\\') = [] :=
        List.takeWhile_cons_of_neg fun h => (hsep c).mp h hc
      rw [hname, List.rtakeWhile, List.reverse_append, List.reverse_cons, List.append_assoc,
        List.takeWhile_append_of_pos hclean, List.singleton_append, hstop, List.append_nil,
        List.reverse_reverse]

/-! ## The arguments of a field -/

section Arguments
variable {F : Fmt} {data : PatternData}

/-- The arguments a field is expanded into, in the words of its rendering. -/
def fieldArgs (data : PatternData) (slot : PatternField × PatternFieldFormatSpec) : List FmtArg :=
  match slot.2 with
  | .None => [getField slot.1 data]
  | .TimeHMS => [.text (clockDigits (data.timestamp / 10 ^ 9).toNat)]
  | .TimeHMSf => [.text (clockDigits (data.timestamp / 10 ^ 9).toNat),
      .uint (data.timestamp % 10 ^ 9 / 1000).toNat]
  | .TimeHMSF => [.text (clockDigits (data.timestamp / 10 ^ 9).toNat),
      .uint (data.timestamp % 10 ^ 9).toNat]
  | .FileNameOnly => [.text (data.filename.rtakeWhile fun c => c ≠ '/' ∧ c ≠ '\\')]

theorem toUInt64_eq {n : ℤ} (h : 0 ≤ n) (hlt : n < 2 ^ 64) : toUInt64 n = n.toNat := by
  rw [toUInt64, Int.emod_eq_of_lt h hlt]

theorem Fmt.Documented.hmsPart_update (hF : F.Documented) {cache : TimeCache}
    (hc : cache.Current F) {t : ℤ} (ht : 0 ≤ t) :
    (cache.update F t).hmsPart = clockDigits (t / 10 ^ 9).toNat := by
  have hsec : ((t / 10 ^ 9).toNat : ℤ) = t / 10 ^ 9 := Int.toNat_of_nonneg (by omega)
  rw [hc.hmsPart_update (by omega), ← hsec, hF.clockText_eq, Int.toNat_natCast]

theorem timeArgs_eq {t : ℤ} (ht : 0 ≤ t) (hms : List Char) :
    timeArgs .TimeHMSf hms t = some [.text hms, .uint (t % 10 ^ 9 / 1000).toNat] ∧
      timeArgs .TimeHMSF hms t = some [.text hms, .uint (t % 10 ^ 9).toNat] := by
  have hmod : t.tmod (10 ^ 9) = t % 10 ^ 9 := Int.tmod_eq_emod_of_nonneg ht
  have hpos : 0 ≤ t % 10 ^ 9 := by omega
  have hlt : t % 10 ^ 9 < 10 ^ 9 := by omega
  constructor
  · rw [timeArgs, hmod, toUInt64_eq (by omega) (by omega)]
  · rw [timeArgs, hmod, toUInt64_eq (by omega) (by omega)]

theorem processTimeArg_eq (hF : F.Documented) {t : ℤ} (ht : 0 ≤ t) {caches : TimeCaches}
    (hc : caches.Current F) {spec : PatternFieldFormatSpec} {args : List FmtArg}
    (h : timeArgs spec (clockDigits (t / 10 ^ 9).toNat) t = some args) :
    ∃ caches', processTimeArg F spec t caches = some (args, caches') := by
  rw [processTimeArg, hF.hmsPart_update (hc spec) ht, h]
  exact ⟨_, rfl⟩

/-- **A field the tables allow is expanded into the arguments of its rendering.** -/
theorem expandAndProcessFormatArg_eq (hF : F.Documented) (ht : 0 ≤ data.timestamp)
    {caches : TimeCaches} (hc : caches.Current F) {field : PatternField}
    {spec : PatternFieldFormatSpec} (hv : validateFieldSpecCombination field spec = true) :
    ∃ caches', expandAndProcessFormatArg F spec (getField field data) caches
      = some (fieldArgs data (field, spec), caches') := by
  obtain ⟨hmicro, hnano⟩ := timeArgs_eq ht (clockDigits (data.timestamp / 10 ^ 9).toNat)
  cases spec with
  | None => cases field <;> exact ⟨_, rfl⟩
  | FileNameOnly =>
      have hfield : field = .File := by cases field <;> simp_all [validateFieldSpecCombination]
      subst field
      exact ⟨caches, by simp only [getField, expandAndProcessFormatArg, fileName_eq, fieldArgs]⟩
  | TimeHMS =>
      have hfield : field = .Time := by cases field <;> simp_all [validateFieldSpecCombination]
      subst field
      exact processTimeArg_eq hF ht hc rfl
  | TimeHMSf =>
      have hfield : field = .Time := by cases field <;> simp_all [validateFieldSpecCombination]
      subst field
      exact processTimeArg_eq hF ht hc hmicro
  | TimeHMSF =>
      have hfield : field = .Time := by cases field <;> simp_all [validateFieldSpecCombination]
      subst field
      exact processTimeArg_eq hF ht hc hnano

/-- Every slot that is evaluated gets its arguments, wherever it stands in the order. -/
theorem evaluateArgs_eq (hF : F.Documented) (ht : 0 ≤ data.timestamp) {p : ParsedPattern}
    {slots : List (PatternField × PatternFieldFormatSpec)} (hfields : p.fields = slots.map Prod.fst)
    (hspecs : p.specs = slots.map Prod.snd)
    (hv : ∀ slot ∈ slots, validateFieldSpecCombination slot.1 slot.2 = true) {order : List ℕ}
    (horder : ∀ i ∈ order, i < slots.length) {caches : TimeCaches} (hc : caches.Current F)
    (results : ℕ → List FmtArg) :
    ∃ results' caches', evaluateArgs F p data order caches results = some (results', caches') ∧
      ∀ i, results' i = if i ∈ order then (slots[i]?.map (fieldArgs data)).getD [] else results i := by
  induction order generalizing caches results with
  | nil => exact ⟨results, caches, rfl, fun i => by simp⟩
  | cons i order ih =>
      have hi := horder i List.mem_cons_self
      obtain ⟨caches', hcall⟩ :=
        expandAndProcessFormatArg_eq hF ht hc (hv slots[i] (List.getElem_mem hi))
      obtain ⟨results', caches'', hrest, heq⟩ :=
        ih (fun j hj => horder j (List.mem_cons_of_mem _ hj))
          (expandAndProcessFormatArg_current hc hcall)
          (Function.update results i (fieldArgs data slots[i]))
      refine ⟨results', caches'', ?_, ?_⟩
      · simp only [evaluateArgs, hfields, hspecs, List.getElem?_map, List.getElem?_eq_getElem hi,
          Option.map_some, hcall, Option.bind_some, hrest]
      · intro j
        rw [heq j]
        by_cases hj : j ∈ order
        · simp [hj]
        · by_cases hji : j = i
          · subst j
            simp [hj, hi]
          · simp [hj, hji]

end Arguments

/-! ## The compiled format string -/

/-- What an item becomes in the format string, as pieces. -/
def Item.pieces : Item → List Piece
  | .char c => [.char c]
  | .openBrace => [.openBrace]
  | .closeBrace => [.closeBrace]
  | .field name spec =>
      match (Item.field name spec).meaning with
      | some (_, .TimeHMSf) => [.arg, .char '.', .padded 6]
      | some (_, .TimeHMSF) => [.arg, .char '.', .padded 9]
      | some _ => [.arg]
      | none => []

namespace Item
variable {it : Item}

theorem valid_of_mem_pieces (h : it.Valid) : ∀ p ∈ it.pieces, p.Valid := by
  cases it with
  | char c =>
      intro p hp
      rw [List.mem_singleton.mp hp]
      exact h
  | openBrace => simp [pieces, Piece.Valid]
  | closeBrace => simp [pieces, Piece.Valid]
  | field name spec =>
      obtain ⟨f, s, hf, hs, hv⟩ := h
      rw [pieces, meaning_field hf hs hv]
      cases s <;> simp [Piece.Valid]

theorem text_pieces (h : it.Valid) : it.pieces.flatMap Piece.text = it.fmtText := by
  cases it with
  | char c => rfl
  | openBrace => rfl
  | closeBrace => rfl
  | field name spec =>
      obtain ⟨f, s, hf, hs, hv⟩ := h
      rw [pieces, fmtText, meaning_field hf hs hv]
      cases s <;> rfl

/-- A time with digits below the second takes two arguments. -/
theorem output_time (F : Fmt) {w n : ℕ} (hw : 0 < w) (hn : n < 10 ^ w) (hms : List Char)
    (ps : List Piece) (args : List FmtArg) :
    F.output (.arg :: .char '.' :: .padded w :: ps) (.text hms :: .uint n :: args)
      = (F.output ps args).map ((hms ++ '.' :: fixedDigits w n) ++ ·) := by
  simp [Fmt.output, Fmt.argText, zeroPad_eq_fixedDigits hw hn, Function.comp_def]

/-- **The pieces of an item consume the arguments of its field and print its rendering**,
whatever pieces and arguments come after. -/
theorem output_pieces {F : Fmt} {data : PatternData} (h : it.Valid) (ps : List Piece)
    (args : List FmtArg) :
    F.output (it.pieces ++ ps) (it.fields.flatMap (fieldArgs data) ++ args)
      = (F.output ps args).map (it.rendering F data ++ ·) := by
  cases it with
  | char c => rfl
  | openBrace => rfl
  | closeBrace => rfl
  | field name spec =>
      obtain ⟨f, s, hf, hs, hv⟩ := h
      have hmicro : (data.timestamp % 10 ^ 9 / 1000).toNat < 10 ^ 6 := by omega
      have hnano : (data.timestamp % 10 ^ 9).toNat < 10 ^ 9 := by omega
      rw [pieces, rendering, fields, meaning_field hf hs hv]
      cases s with
      | None => rfl
      | TimeHMS => rfl
      | FileNameOnly => rfl
      | TimeHMSf => exact output_time F (by decide) hmicro _ ps args
      | TimeHMSF => exact output_time F (by decide) hnano _ ps args

end Item

/-- The pieces of a pattern print the renderings of its items. -/
theorem output_items {F : Fmt} {data : PatternData} {items : List Item}
    (h : ∀ it ∈ items, it.Valid) :
    F.output (items.flatMap Item.pieces) ((itemsFields items).flatMap (fieldArgs data))
      = some (items.flatMap (Item.rendering F data)) := by
  induction items with
  | nil => rfl
  | cons it items ih =>
      have hrest := ih fun it' hit => h it' (List.mem_cons_of_mem _ hit)
      have hfields : itemsFields (it :: items) = it.fields ++ itemsFields items := rfl
      rw [List.flatMap_cons, hfields, List.flatMap_append,
        Item.output_pieces (h it List.mem_cons_self), hrest, Option.map_some, List.flatMap_cons]

theorem fmtText_items {items : List Item} (h : ∀ it ∈ items, it.Valid) :
    (items.flatMap Item.pieces).flatMap Piece.text = items.flatMap Item.fmtText := by
  induction items with
  | nil => rfl
  | cons it items ih =>
      rw [List.flatMap_cons, List.flatMap_append, Item.text_pieces (h it List.mem_cons_self),
        ih fun it' hit => h it' (List.mem_cons_of_mem _ hit), List.flatMap_cons]

/-- The fields of valid items are allowed combinations. -/
theorem validate_of_mem_itemsFields {items : List Item} (h : ∀ it ∈ items, it.Valid) :
    ∀ slot ∈ itemsFields items, validateFieldSpecCombination slot.1 slot.2 = true := by
  intro slot hslot
  obtain ⟨it, hit, hmem⟩ := List.mem_flatMap.mp hslot
  have hvalid := h it hit
  cases it with
  | char c => simp [Item.fields, Item.meaning] at hmem
  | openBrace => simp [Item.fields, Item.meaning] at hmem
  | closeBrace => simp [Item.fields, Item.meaning] at hmem
  | field name spec =>
      obtain ⟨f, s, hf, hs, hv⟩ := hvalid
      rw [Item.fields, Item.meaning_field hf hs hv, Option.toList_some,
        List.mem_singleton] at hmem
      rw [hmem]
      exact hv

/-- The slots of a list in turn are the list. -/
theorem flatMap_range_getElem? {α β : Type} (f : α → List β) (l : List α) :
    (List.range l.length).flatMap (fun i => (l[i]?.map f).getD []) = l.flatMap f := by
  induction l using List.reverseRecOn with
  | nil => rfl
  | append_singleton l a ih =>
      rw [List.length_append, List.length_singleton, List.range_succ, List.flatMap_append,
        List.flatMap_append, ← ih]
      congr 1
      · refine List.flatMap_congr fun i hi => ?_
        rw [List.getElem?_append_left (List.mem_range.mp hi)]
      · simp

/-- The formatter made of valid items prints their renderings. -/
theorem formatImpl_items {F : Fmt} (hF : F.Documented) {items : List Item}
    (hvalid : ∀ it ∈ items, it.Valid) {p : ParsedPattern}
    (hfields : p.fields = (itemsFields items).map Prod.fst)
    (hspecs : p.specs = (itemsFields items).map Prod.snd)
    (hfmtStr : p.fmtStr = items.flatMap Item.fmtText) {order : List ℕ}
    (horder : order.Perm (List.range p.fields.length)) {caches : TimeCaches}
    (hc : caches.Current F) {data : PatternData} (ht : 0 ≤ data.timestamp) :
    ∃ caches', formatImpl F p order data caches
      = some ⟨some (items.flatMap (Item.rendering F data)), caches'⟩ := by
  have hlength : p.fields.length = (itemsFields items).length := by rw [hfields, List.length_map]
  have hmem : ∀ i, i ∈ order ↔ i < (itemsFields items).length := by
    intro i
    rw [horder.mem_iff, List.mem_range, hlength]
  obtain ⟨results, caches', heval, hresults⟩ :=
    evaluateArgs_eq hF ht hfields hspecs (validate_of_mem_itemsFields hvalid)
      (fun i hi => (hmem i).mp hi) hc fun _ => []
  have hargs : (List.range (itemsFields items).length).flatMap results
      = (itemsFields items).flatMap (fieldArgs data) := by
    rw [← flatMap_range_getElem? (fieldArgs data)]
    refine List.flatMap_congr fun i hi => ?_
    rw [hresults i, if_pos ((hmem i).mpr (List.mem_range.mp hi))]
  have hpieces : ∀ p ∈ items.flatMap Item.pieces, p.Valid := by
    intro p hp
    obtain ⟨it, hit, hmem⟩ := List.mem_flatMap.mp hp
    exact Item.valid_of_mem_pieces (hvalid it hit) p hmem
  have hout : F.output (items.flatMap Item.pieces) ((itemsFields items).flatMap (fieldArgs data))
      = some (items.flatMap (Item.rendering F data)) := output_items hvalid
  have hline := hF.vformat_eq hpieces hout
  rw [fmtText_items hvalid, ← hfmtStr, ← hargs] at hline
  refine ⟨caches', ?_⟩
  rw [formatImpl, heval, Option.map_some, hlength]
  exact congrArg (fun line => some (Formatted.mk line caches')) hline

/-- **Formatting through the compiled pattern is reading the pattern.**  The caches are
those any calls of any formatters leave behind, and the arguments are evaluated in any
order. -/
theorem formatImpl_rendering {F : Fmt} (hF : F.Documented) {pattern : List Char}
    {maxFields maxFmtStrLen : ℕ} (hlen : pattern.length ≤ maxFmtStrLen) {p : ParsedPattern}
    (hp : parsePattern pattern maxFields maxFmtStrLen = .ok p) (herror : p.error = .None)
    {order : List ℕ} (horder : order.Perm (List.range p.fields.length)) {caches : TimeCaches}
    (hc : Reachable (FormatCall.step F) TimeCaches.init caches) {data : PatternData}
    (ht : 0 ≤ data.timestamp) :
    ∃ items, Grammar maxFields pattern items ∧
      ∃ caches', formatImpl F p order data caches
        = some ⟨some (items.flatMap (Item.rendering F data)), caches'⟩ := by
  have hcurrent : caches.Current F :=
    hc.invariant (TimeCaches.Current F) (TimeCaches.current_init F)
      fun _ _ _ hcur hstep => FormatCall.step_current hcur hstep
  rcases grammar_or_firstFault maxFields pattern with ⟨items, hg⟩ | ⟨e, hfault⟩
  · obtain rfl : ParsedPattern.empty.pushAll items = p :=
      Except.ok.inj ((parsePattern_of_grammar hg hlen).symm.trans hp)
    exact ⟨items, hg, formatImpl_items hF hg.valid (ParsedPattern.fields_pushAll _ _)
      (ParsedPattern.specs_pushAll _ _) (ParsedPattern.fmtStr_pushAll _ _) horder hcurrent ht⟩
  · obtain ⟨r, hr, rfl⟩ := parsePattern_of_firstFault hfault hlen
    rw [hp] at hr
    cases hr
    exact absurd herror hfault.ne_none

/-- The formatter of the default pattern. -/
def defaultFormatter : ParsedPattern where
  error := .None
  fmtStr := "[\x7b\x7d.\x7b:06\x7d] (\x7b\x7d) (\x7b\x7d:\x7b\x7d) \x7b\x7d".toList
  fields := [.Time, .Level, .File, .Line, .Message]
  specs := [.TimeHMSf, .None, .FileNameOnly, .None, .None]

/-- A line of the default pattern. -/
def sampleData : PatternData where
  level := .Info
  threadName := "main".toList
  timestamp := 58089796341126
  filename := "/home/user/main.cpp".toList
  functionname := "main".toList
  linenumber := 12
  message := "\x7b\x7d".toList

/-- The second argument is evaluated before the first. -/
theorem formatImpl_rendering_default :
    ∃ items, Grammar 16 defaultPattern items ∧
      ∃ caches', formatImpl simpleFmt defaultFormatter [1, 0, 2, 3, 4] sampleData TimeCaches.init
        = some ⟨some (items.flatMap (Item.rendering simpleFmt sampleData)), caches'⟩ :=
  formatImpl_rendering simpleFmt_documented (by decide +kernel : defaultPattern.length ≤ 1000)
    (by decide +kernel) rfl (by decide) (Reachable.refl _) (by decide)

example : (formatImpl simpleFmt defaultFormatter [1, 0, 2, 3, 4] sampleData TimeCaches.init).bind
    Formatted.line = some "[16:08:09.796341] (INFO) (main.cpp:12) \x7b\x7d".toList := by
  decide +kernel

end Papper
