import Papper.Pattern.Bounds

/-!
# What the pattern compiler comes to

The grammar and the bounds together, for patterns of any length.  A pattern is a list of items
up to a point, and what happens there is one of three things: the pattern ends, and is accepted;
no item can be completed, and the pattern is rejected with the reason; or there is an item that
`fmt_str` has no room for, and the compiler writes past the end of it.

## Main definitions

* `Outcome` — what a pattern has to come to.
* `Consumed` — what has been compiled at the head of the loop.
* `parsePattern_outcome` — the compiler comes to that, and to nothing else.
-/

namespace Papper

variable {maxFields maxFmtStrLen : ℕ} {pattern : List Char}

/-! ## What becomes of items -/

theorem pushAll_concat (r : ParsedPattern) (items : List Item) (it : Item) :
    r.pushAll (items ++ [it]) = (r.pushAll items).push it := by
  simp [ParsedPattern.pushAll]

theorem length_fields_pushAll (items : List Item) :
    (ParsedPattern.empty.pushAll items).fields.length = (itemsFields items).length := by
  simp [ParsedPattern.fields_pushAll, ParsedPattern.empty]

theorem length_fmtStr_pushAll (items : List Item) :
    (ParsedPattern.empty.pushAll items).fmtStr.length = (itemsFmtText items).length := by
  simp [ParsedPattern.fmtStr_pushAll, ParsedPattern.empty, itemsFmtText]

namespace Compiler

open Loop (Turn Heads Ends)

/-- What a pattern comes to: what has been written, or the write that has no place. -/
inductive Outcome (maxFields maxFmtStrLen : ℕ) (pattern : List Char) :
    Except OutOfBounds ParsedPattern → Prop
  | accepted {items : List Item} (hgrammar : Grammar maxFields pattern items)
      (hroom : (itemsFmtText items).length ≤ maxFmtStrLen) :
      Outcome maxFields maxFmtStrLen pattern (.ok (ParsedPattern.empty.pushAll items))
  | rejected {items : List Item} {rest : List Char} {e : ParsingError}
      (hvalid : ∀ it ∈ items, it.Valid) (htext : pattern = itemsText items ++ rest)
      (hfields : (itemsFields items).length ≤ maxFields)
      (hroom : (itemsFmtText items).length ≤ maxFmtStrLen)
      (hfault : Fault maxFields (itemsFields items).length rest e) :
      Outcome maxFields maxFmtStrLen pattern
        (.ok { ParsedPattern.empty.pushAll items with error := e })
  | outOfBounds {items : List Item} {it : Item} {rest : List Char}
      (hvalid : ∀ it ∈ items, it.Valid) (hit : it.Valid)
      (htext : pattern = itemsText items ++ (it.text ++ rest))
      (hfields : (itemsFields items).length + it.fields.length ≤ maxFields)
      (hroom : (itemsFmtText items).length ≤ maxFmtStrLen)
      (hfull : maxFmtStrLen < (itemsFmtText items).length + it.fmtText.length) :
      Outcome maxFields maxFmtStrLen pattern (.error (.fmtStr maxFmtStrLen))

/-- What the scanner of lists makes of an outcome. -/
def onLists (o : Except OutOfBounds ParsedPattern) : Except Stop ParsedPattern :=
  o.mapError fun _ => .outOfBounds

/-- **The scanner of lists comes to every outcome.** -/
theorem parsePattern_eq_of_outcome {o : Except OutOfBounds ParsedPattern}
    (h : Outcome maxFields maxFmtStrLen pattern o) :
    Papper.parsePattern pattern maxFields maxFmtStrLen = onLists o := by
  cases h with
  | @accepted items hgrammar hroom =>
      obtain ⟨fuel, hfuel⟩ := parsePattern_items hgrammar.valid [] hgrammar.fields_le hroom
      rw [List.append_nil, hgrammar.text_eq] at hfuel
      rw [hfuel, parseLoop, Papper.iteration]
      rfl
  | @rejected items rest e hvalid htext hfields hroom hfault =>
      obtain ⟨fuel, hfuel⟩ := parsePattern_items hvalid rest hfields hroom
      rw [← length_fields_pushAll] at hfault
      rw [htext, hfuel, parseLoop, iteration_fault hfault]
      rfl
  | @outOfBounds items it rest hvalid hit htext hfields hroom hfull =>
      have hle : (itemsFields items).length ≤ maxFields := by omega
      obtain ⟨fuel, hfuel⟩ := parsePattern_items hvalid (it.text ++ rest) hle hroom
      rw [← length_fields_pushAll] at hfields
      rw [← length_fmtStr_pushAll] at hroom hfull
      rw [htext, hfuel, parseLoop, iteration_text_eq_none hit rest hfields hroom hfull]
      rfl

/-- A pattern has one outcome. -/
theorem outcome_unique {o o' : Except OutOfBounds ParsedPattern}
    (h : Outcome maxFields maxFmtStrLen pattern o)
    (h' : Outcome maxFields maxFmtStrLen pattern o') : o = o' := by
  have heq := (parsePattern_eq_of_outcome h).symm.trans (parsePattern_eq_of_outcome h')
  cases h with
  | accepted | rejected =>
      cases h' with
      | accepted | rejected =>
          simp only [onLists, Except.mapError, Except.ok.injEq] at heq
          rw [heq]
      | outOfBounds => cases heq
  | outOfBounds =>
      cases h' with
      | accepted | rejected => cases heq
      | outOfBounds => rfl

/-! ## What has been compiled -/

/-- The items consumed at the head of the loop. -/
structure Consumed (pattern : List Char) (items : List Item) (s : Scan maxFmtStrLen maxFields) :
    Prop where
  within : s.Within pattern
  valid : ∀ it ∈ items, it.Valid
  text_eq : pattern = itemsText items ++ pattern.drop s.i
  parsed : s.result.toParsed = ParsedPattern.empty.pushAll items

namespace Consumed
variable {items : List Item} {s s' : Scan maxFmtStrLen maxFields}

theorem init (pattern : List Char) :
    Consumed pattern [] (.init : Scan maxFmtStrLen maxFields) :=
  ⟨Scan.within_init pattern, by simp, rfl, by simp [Scan.init, Result.init, Result.toParsed]; rfl⟩

theorem fields_le (h : Consumed pattern items s) : (itemsFields items).length ≤ maxFields := by
  rw [← length_fields_pushAll, ← h.parsed, h.within.result.length_fields]
  exact h.within.result.fieldCount_le

theorem fmtText_le (h : Consumed pattern items s) :
    (itemsFmtText items).length ≤ maxFmtStrLen := by
  rw [← length_fmtStr_pushAll, ← h.parsed, h.within.result.length_fmtStr]
  exact h.within.result.fmtStrLen_le

/-- One more item. -/
theorem next (h : Consumed pattern items s) (hnext : iteration pattern s = .ok (.next s')) :
    ∃ it, Consumed pattern (items ++ [it]) s' := by
  obtain ⟨hwithin, hlist⟩ := (iteration_agrees h.within).of_next hnext
  have hcount : s.result.toParsed.fields.length ≤ maxFields :=
    h.within.result.length_fields ▸ h.within.result.fieldCount_le
  have hlength : s.result.toParsed.fmtStr.length ≤ maxFmtStrLen :=
    h.within.result.length_fmtStr ▸ h.within.result.fmtStrLen_le
  obtain ⟨it, hvalid, htext, hpush⟩ := exists_item_of_next hcount hlength hlist
  refine ⟨it, hwithin, ?_, ?_, ?_⟩
  · simpa [or_imp, forall_and] using ⟨h.valid, hvalid⟩
  · have hitems : itemsText (items ++ [it]) = itemsText items ++ it.text := by simp [itemsText]
    rw [hitems, List.append_assoc, ← htext]
    exact h.text_eq
  · rw [hpush, h.parsed, pushAll_concat]

/-- **Where the loop ends.** -/
theorem ends (h : Consumed pattern items s)
    {o : Except OutOfBounds (Result maxFmtStrLen maxFields)}
    (hends : Ends (iteration pattern) s o) :
    Outcome maxFields maxFmtStrLen pattern (o.map Result.toParsed) := by
  have hcount : s.result.toParsed.fields.length = (itemsFields items).length := by
    rw [h.parsed, length_fields_pushAll]
  have hlength : s.result.toParsed.fmtStr.length = (itemsFmtText items).length := by
    rw [h.parsed, length_fmtStr_pushAll]
  have hagrees := iteration_agrees h.within
  have htext := h.text_eq
  -- what is left is nothing, an item or a fault
  by_cases hnil : pattern.drop s.i = []
  · have hstep : Papper.iteration maxFields maxFmtStrLen (pattern.drop s.i) s.result.toParsed
        = some (.done s.result.toParsed) := by rw [hnil]; rfl
    have hgrammar : Grammar maxFields pattern items := by
      refine ⟨h.valid, ?_, h.fields_le⟩
      rw [hnil, List.append_nil] at htext
      exact htext.symm
    cases hends with
    | done hdone =>
        have heq := (hagrees.of_done hdone).symm.trans hstep
        rw [Option.some.injEq, Iteration.done.injEq] at heq
        simp only [Except.map, heq, h.parsed]
        exact .accepted hgrammar h.fmtText_le
    | error herror =>
        rw [(hagrees.of_error herror).2] at hstep
        cases hstep
  · rcases item_or_fault maxFields (itemsFields items).length h.fields_le hnil with
      ⟨it, rest, hit, hrest, hfields⟩ | ⟨e, hfault⟩
    · rw [hrest] at hagrees htext
      rcases Nat.lt_or_ge maxFmtStrLen ((itemsFmtText items).length + it.fmtText.length) with
        hfull | hroom
      · cases hends with
        | done hdone =>
            have hnone := iteration_text_eq_none hit rest (r := s.result.toParsed)
              (hcount ▸ hfields) (hlength ▸ h.fmtText_le) (hlength ▸ hfull)
            rw [hagrees.of_done hdone] at hnone
            cases hnone
        | error herror =>
            obtain ⟨rfl, -⟩ := hagrees.of_error herror
            exact .outOfBounds h.valid hit htext hfields h.fmtText_le hfull
      · have hstep := iteration_text hit rest (r := s.result.toParsed) (hcount ▸ hfields)
          (hlength ▸ hroom)
        cases hends with
        | done hdone =>
            rw [hagrees.of_done hdone] at hstep
            cases hstep
        | error herror =>
            rw [(hagrees.of_error herror).2] at hstep
            cases hstep
    · have hstep : Papper.iteration maxFields maxFmtStrLen (pattern.drop s.i) s.result.toParsed
          = some (.done { s.result.toParsed with error := e }) := iteration_fault (hcount ▸ hfault)
      cases hends with
      | done hdone =>
          have heq := (hagrees.of_done hdone).symm.trans hstep
          rw [Option.some.injEq, Iteration.done.injEq] at heq
          simp only [Except.map, heq, h.parsed]
          exact .rejected h.valid htext h.fields_le h.fmtText_le hfault
      | error herror =>
          rw [(hagrees.of_error herror).2] at hstep
          cases hstep

end Consumed

/-- The compiler comes to an outcome. -/
theorem exists_outcome (pattern : List Char) (maxFields maxFmtStrLen : ℕ) :
    ∃ o, (parsePattern pattern maxFields maxFmtStrLen).map (fun r => r.map Result.toParsed)
        = some o ∧ Outcome maxFields maxFmtStrLen pattern o := by
  obtain ⟨⟨s, r, hheads, hends, hrun⟩, -⟩ := parsePattern_bounded pattern maxFields maxFmtStrLen
  obtain ⟨items, hconsumed⟩ : ∃ items, Consumed pattern items s :=
    hheads.invariant (fun t => ∃ items, Consumed pattern items t) ⟨[], .init pattern⟩
      fun _ _ ⟨_, ht⟩ hnext => (ht.next hnext).imp' _ fun _ h => h
  exact ⟨_, by rw [hrun, Option.map_some], hconsumed.ends hends⟩

/-- **What the pattern compiler comes to.**  For every pattern, of any length, and every size of
the arrays, the compiler comes to one outcome and it is this: it accepts the pattern, with what
its items add up to, if it is one of the grammar and the items fit in `fmt_str`; it rejects it
with the first fault, if what comes before fits; and otherwise it writes past the end of
`fmt_str`, at the first item that does not. -/
theorem parsePattern_outcome (pattern : List Char) (maxFields maxFmtStrLen : ℕ)
    (o : Except OutOfBounds ParsedPattern) :
    (parsePattern pattern maxFields maxFmtStrLen).map (fun r => r.map Result.toParsed) = some o ↔
      Outcome maxFields maxFmtStrLen pattern o := by
  obtain ⟨o', hrun, houtcome⟩ := exists_outcome pattern maxFields maxFmtStrLen
  rw [hrun, Option.some.injEq]
  constructor
  · rintro rfl
    exact houtcome
  · exact outcome_unique houtcome

end Compiler

end Papper
