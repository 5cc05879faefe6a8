import Papper.Pattern.Compiler

/-!
# The bounds of the pattern compiler

No item of a pattern is shorter than what it becomes in the format string, so `fmt_str_len`
never passes `i`: the longest expansions have eight characters, and so has the shortest text
that could ask for one.  Items are what an iteration consumes, whatever comes after them, and
an iteration that consumes none returns.

## Main definitions

* `Behind` — what holds at the head of the loop.
* `parsePattern_bounded` — the loop ends, and stays within its arrays.
-/

namespace Papper

section Iteration
variable {maxFields maxFmtStrLen : ℕ} {rest : List Char} {r : ParsedPattern}

/-- An iteration is at an item for which there is a field left, or it returns. -/
theorem item_or_done (maxFmtStrLen : ℕ) (rest : List Char) (hfields : r.fields.length ≤ maxFields) :
    (∃ (it : Item) (rest' : List Char), it.Valid ∧ rest = it.text ++ rest' ∧
        r.fields.length + it.fields.length ≤ maxFields) ∨
      ∃ r', iteration maxFields maxFmtStrLen rest r = some (.done r') := by
  cases rest with
  | nil => exact .inr ⟨r, rfl⟩
  | cons c cs =>
      rcases item_or_fault maxFields r.fields.length hfields (List.cons_ne_nil c cs) with
        hitem | ⟨e, hfault⟩
      · exact .inl hitem
      · exact .inr ⟨_, iteration_fault hfault⟩

/-- An iteration that goes on has consumed an item. -/
theorem exists_item_of_next {rest' : List Char} {r' : ParsedPattern}
    (hfields : r.fields.length ≤ maxFields) (hle : r.fmtStr.length ≤ maxFmtStrLen)
    (h : iteration maxFields maxFmtStrLen rest r = some (.next rest' r')) :
    ∃ it : Item, it.Valid ∧ rest = it.text ++ rest' ∧ r' = r.push it := by
  rcases item_or_done maxFmtStrLen rest hfields with
    ⟨it, after, hvalid, rfl, hcount⟩ | ⟨r'', hdone⟩
  · rcases Nat.lt_or_ge maxFmtStrLen (r.fmtStr.length + it.fmtText.length) with hlt | hroom
    · rw [iteration_text_eq_none hvalid after hcount hle hlt] at h
      cases h
    · rw [iteration_text hvalid after hcount hroom] at h
      cases h
      exact ⟨it, hvalid, rfl, rfl⟩
  · rw [hdone] at h
    cases h

/-- An iteration that writes out of bounds is at an item for which there is no room. -/
theorem exists_item_of_none (hfields : r.fields.length ≤ maxFields)
    (h : iteration maxFields maxFmtStrLen rest r = none) :
    ∃ (it : Item) (rest' : List Char), it.Valid ∧ rest = it.text ++ rest' ∧
      maxFmtStrLen < r.fmtStr.length + it.fmtText.length := by
  rcases item_or_done maxFmtStrLen rest hfields with
    ⟨it, after, hvalid, rfl, hcount⟩ | ⟨r'', hdone⟩
  · refine ⟨it, after, hvalid, rfl, ?_⟩
    by_contra hroom
    rw [iteration_text hvalid after hcount (Nat.not_lt.mp hroom)] at h
    cases h
  · rw [hdone] at h
    cases h

end Iteration

namespace Compiler

open Loop (Turn Heads Ends)

variable {maxFields maxFmtStrLen : ℕ} {pattern : List Char} {s s' : Scan maxFmtStrLen maxFields}

/-- At the head of the loop the indices are within their arrays, and no more characters have been
pushed than consumed. -/
structure Behind (pattern : List Char) (s : Scan maxFmtStrLen maxFields) : Prop where
  within : s.Within pattern
  fmtStrLen_le_i : s.result.fmtStrLen ≤ s.i

theorem behind_init (pattern : List Char) :
    Behind pattern (.init : Scan maxFmtStrLen maxFields) :=
  ⟨Scan.within_init pattern, le_rfl⟩

/-- **A literal, an escape or a field** is consumed, and no more characters are pushed. -/
theorem exists_consumed (h : s.Within pattern) (hnext : iteration pattern s = .ok (.next s')) :
    s'.Within pattern ∧ ∃ it : Item, s'.i = s.i + it.text.length ∧
      s'.result.fmtStrLen = s.result.fmtStrLen + it.fmtText.length ∧
      it.fmtText.length ≤ it.text.length := by
  obtain ⟨hwithin, hlist⟩ := (iteration_agrees h).of_next hnext
  have hcount := h.result.length_fields
  have hlength := h.result.length_fmtStr
  obtain ⟨it, hvalid, htext, hpush⟩ := exists_item_of_next (hcount ▸ h.result.fieldCount_le)
    (hlength ▸ h.result.fmtStrLen_le) hlist
  refine ⟨hwithin, it, ?_, ?_, Item.length_fmtText_le hvalid⟩
  · have hi := h.i_le
    have hi' := hwithin.i_le
    have hdrop := congrArg List.length htext
    rw [List.length_drop, List.length_append, List.length_drop] at hdrop
    omega
  · have hpushed := congrArg (fun r => r.fmtStr.length) hpush
    simp only [ParsedPattern.push, List.length_append] at hpushed
    rw [← hwithin.result.length_fmtStr, hpushed, hlength]

/-- **One iteration** that goes on. -/
theorem Behind.next (h : Behind pattern s) (hnext : iteration pattern s = .ok (.next s')) :
    Behind pattern s' ∧ s.i < s'.i := by
  obtain ⟨hwithin, it, hi, hlen, hle⟩ := exists_consumed h.within hnext
  have hpos := it.length_text_pos
  have hbehind := h.fmtStrLen_le_i
  exact ⟨⟨hwithin, by omega⟩, by omega⟩

/-- **One iteration** that writes out of bounds: it is the format string, and the pattern is
longer than that. -/
theorem Behind.error (h : Behind pattern s) {fault : OutOfBounds}
    (herror : iteration pattern s = .error fault) :
    fault = .fmtStr maxFmtStrLen ∧ maxFmtStrLen < pattern.length := by
  obtain ⟨hfault, hlist⟩ := (iteration_agrees h.within).of_error herror
  have hcount := h.within.result.length_fields
  obtain ⟨it, after, hvalid, htext, hroom⟩ :=
    exists_item_of_none (hcount ▸ h.within.result.fieldCount_le) hlist
  refine ⟨hfault, ?_⟩
  have hle := Item.length_fmtText_le hvalid
  have hi := h.within.i_le
  have hbehind := h.fmtStrLen_le_i
  have hdrop := congrArg List.length htext
  rw [List.length_drop, List.length_append] at hdrop
  rw [h.within.result.length_fmtStr] at hroom
  omega

/-- **At the head of the loop**, always. -/
theorem behind_of_heads (h : Heads (iteration pattern) .init s) : Behind pattern s :=
  h.invariant (Behind pattern) (behind_init pattern) fun _ _ hbehind hnext =>
    (hbehind.next hnext).1

/-- **The pattern compiler finishes and stays within its arrays.**  For every pattern and every
size of the arrays: the loop ends, after no more iterations than the pattern has characters and
one; at its head `fmt_str_len` has not passed `i`, and an iteration that goes on consumes
characters and pushes no more than these; a write out of bounds can only be one to `fmt_str`, at
its end, and only where the pattern is longer than that.  So with a pattern that is not, the
compiler returns, be it with an error. -/
theorem parsePattern_bounded (pattern : List Char) (maxFields maxFmtStrLen : ℕ) :
    (∃ s o, Heads (iteration pattern) .init s ∧ Ends (iteration pattern) s o ∧
        parsePattern pattern maxFields maxFmtStrLen = some o) ∧
      (∀ s : Scan maxFmtStrLen maxFields, Heads (iteration pattern) .init s →
        s.result.fmtStrLen ≤ s.i ∧ s.i ≤ pattern.length ∧
          s.result.fmtStrLen ≤ maxFmtStrLen ∧ s.result.fieldCount ≤ maxFields ∧
          (∀ s', iteration pattern s = .ok (.next s') → s.i < s'.i ∧
            s'.result.fmtStrLen ≤ s.result.fmtStrLen + (s'.i - s.i)) ∧
          ∀ fault, iteration pattern s = .error fault →
            fault = .fmtStr maxFmtStrLen ∧ maxFmtStrLen < pattern.length) ∧
      (pattern.length ≤ maxFmtStrLen →
        ∃ r, parsePattern pattern maxFields maxFmtStrLen = some (.ok r)) := by
  obtain ⟨o, hrun⟩ : ∃ o, parsePattern pattern maxFields maxFmtStrLen = some o := by
    refine Loop.exists_run (Behind pattern) (fun s => pattern.length - s.i) ?_
      (behind_init pattern) (Nat.lt_succ_of_le (Nat.sub_le _ _))
    intro s s' h hnext
    obtain ⟨h', hlt⟩ := h.next hnext
    have hi := h'.within.i_le
    exact ⟨h', by omega⟩
  obtain ⟨s, hheads, hends⟩ := Loop.exists_ends_of_run hrun
  refine ⟨⟨s, o, hheads, hends, hrun⟩, ?_, ?_⟩
  · intro t ht
    have hbehind := behind_of_heads ht
    refine ⟨hbehind.fmtStrLen_le_i, hbehind.within.i_le, hbehind.within.result.fmtStrLen_le,
      hbehind.within.result.fieldCount_le, ?_, fun fault => hbehind.error⟩
    intro t' hnext
    obtain ⟨-, it, hi, hlen, hle⟩ := exists_consumed hbehind.within hnext
    exact ⟨(hbehind.next hnext).2, by omega⟩
  · intro hlen
    cases hends with
    | done => exact ⟨_, hrun⟩
    | error herror =>
        have hlt := ((behind_of_heads hheads).error herror).2
        exact absurd hlen (Nat.not_le.mpr hlt)

/-- The pattern `PatternFormatterHandler` starts with. -/
theorem parsePattern_bounded_default :
    ∃ r : Result 1000 16, parsePattern defaultPattern 16 1000 = some (.ok r) :=
  (parsePattern_bounded defaultPattern 16 1000).2.2 (by decide +kernel)

end Compiler

end Papper
