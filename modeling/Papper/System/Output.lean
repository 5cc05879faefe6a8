import Papper.Pattern.Outcome
import Papper.System.Backend
import Papper.System.Settings
import Papper.System.Steps

/-!
# What is printed

A record of the backend has the data of its line and the formatter that was current.  The text
comes from `format`, which can throw, and which keeps the clock text of the last second in
variables that all formatters share.  All the same every line is the reading of its pattern, with
the data of its event, whatever lines were printed before it.

## Main definitions

* `ParsedPattern.Accepted` — a pattern that compiles to the formatter.
* `formatLines` — the calls of `format`, one after another.
* `Prints` — a line is the reading of its pattern.
* `exec_output` — every run.
-/

namespace Papper

open Transition

/-- Some pattern compiles to this formatter, in arrays of some size. -/
def ParsedPattern.Accepted (p : ParsedPattern) : Prop :=
  p.error = .None ∧ ∃ pattern maxFields maxFmtStrLen,
    (Compiler.parsePattern pattern maxFields maxFmtStrLen).map
      (fun r => r.map Compiler.Result.toParsed) = some (.ok p)

/-- What the scanner of lists accepts, the compiler does. -/
theorem ParsedPattern.accepted_of_parsePattern {p : ParsedPattern} {pattern : List Char}
    {maxFields maxFmtStrLen : ℕ} (hp : parsePattern pattern maxFields maxFmtStrLen = .ok p)
    (herror : p.error = .None) : p.Accepted := by
  refine ⟨herror, pattern, maxFields, maxFmtStrLen, ?_⟩
  rw [Compiler.parsePattern_refines] at hp
  cases hresult : Compiler.parsePattern pattern maxFields maxFmtStrLen with
  | none =>
      rw [hresult] at hp
      cases hp
  | some o =>
      rw [hresult] at hp
      cases o with
      | error fault => cases hp
      | ok r =>
          cases hp
          rfl

/-- It is what the items of the pattern add up to. -/
theorem ParsedPattern.Accepted.exists_items {p : ParsedPattern} (h : p.Accepted) :
    ∃ pattern maxFields items, Grammar maxFields pattern items ∧
      p = ParsedPattern.empty.pushAll items := by
  obtain ⟨herror, pattern, maxFields, maxFmtStrLen, hp⟩ := h
  obtain ⟨o, hrun, houtcome⟩ := Compiler.exists_outcome pattern maxFields maxFmtStrLen
  obtain rfl := Option.some.inj (hrun.symm.trans hp)
  cases houtcome with
  | accepted hgrammar => exact ⟨pattern, maxFields, _, hgrammar, rfl⟩
  | rejected hvalid htext hfields hroom hfault =>
      have hfirst : FirstFault maxFields pattern _ := ⟨_, _, hvalid, htext, hfields, hfault⟩
      exact absurd herror hfirst.ne_none

namespace System

variable {P : Program} {ι κ : Type}

/-! ## Lines -/

/-- The calls of `format`, one after another, with the orders in which they evaluate their
arguments: what is handed to the sink, unless a call throws. -/
def formatLines (F : Fmt) : List (List ℕ × Line) → TimeCaches →
    Option (List (Sink.File × List Char))
  | [], _ => some []
  | (order, l) :: calls, caches =>
      (formatImpl F l.formatter.value order l.data caches).bind fun r =>
        r.line.bind fun text => (formatLines F calls r.caches).map ((l.sink.value, text) :: ·)

/-- The line goes to its sink and is the reading of its pattern. -/
structure Prints (F : Fmt) (l : Line) (out : Sink.File × List Char) : Prop where
  file : out.1 = l.sink.value
  text : ∃ pattern maxFields items, Grammar maxFields pattern items ∧
    l.formatter.value = ParsedPattern.empty.pushAll items ∧
    out.2 = items.flatMap (Item.rendering F l.data)

/-- What is asked of a line. -/
structure Line.Printable (l : Line) : Prop where
  accepted : l.formatter.value.Accepted
  timestamp : 0 ≤ l.data.timestamp

/-- One line. -/
theorem Line.Printable.format {F : Fmt} (hF : F.Documented) {l : Line} (h : l.Printable)
    {order : List ℕ} (horder : order.Perm (List.range l.formatter.value.fields.length))
    {caches : TimeCaches} (hcaches : caches.Current F) :
    ∃ text caches', formatImpl F l.formatter.value order l.data caches = some ⟨some text, caches'⟩ ∧
      caches'.Current F ∧ Prints F l (l.sink.value, text) := by
  obtain ⟨pattern, maxFields, items, hgrammar, hp⟩ := h.accepted.exists_items
  obtain ⟨caches', hformat⟩ := formatImpl_items hF hgrammar.valid
    (hp ▸ ParsedPattern.fields_pushAll _ _) (hp ▸ ParsedPattern.specs_pushAll _ _)
    (hp ▸ ParsedPattern.fmtStr_pushAll _ _) horder hcaches h.timestamp
  have hstep : FormatCall.step F caches ⟨l.formatter.value, order, l.data⟩ = some caches' := by
    rw [FormatCall.step, hformat]
    rfl
  exact ⟨_, caches', hformat, FormatCall.step_current hcaches hstep,
    ⟨rfl, pattern, maxFields, items, hgrammar, hp, rfl⟩⟩

/-- **Lines are printed one after another**, whatever is in the caches. -/
theorem formatLines_prints {F : Fmt} (hF : F.Documented) {calls : List (List ℕ × Line)}
    (hcalls : ∀ call ∈ calls, call.2.Printable ∧
      call.1.Perm (List.range call.2.formatter.value.fields.length)) :
    ∀ {caches : TimeCaches}, caches.Current F →
      ∃ out, formatLines F calls caches = some out ∧
        List.Forall₂ (Prints F) (calls.map Prod.snd) out := by
  induction calls with
  | nil => exact fun _ => ⟨[], rfl, .nil⟩
  | cons call calls ih =>
      intro caches hcaches
      obtain ⟨order, l⟩ := call
      obtain ⟨hprintable, horder⟩ := hcalls _ List.mem_cons_self
      obtain ⟨text, caches', hformat, hcurrent, hprint⟩ := hprintable.format hF horder hcaches
      obtain ⟨out, hout, hprints⟩ :=
        ih (fun call hcall => hcalls call (List.mem_cons_of_mem _ hcall)) hcurrent
      refine ⟨(l.sink.value, text) :: out, ?_, .cons hprint hprints⟩
      rw [formatLines, hformat]
      simp [hout]

/-! ## Runs -/

/-- The lines that were written. -/
def State.lines (s : State P ι κ) : List Line := s.processed.filterMap Processed.line

/-- The formatters handed over come from patterns, and local time is not before the epoch. -/
def Settings : Action P ι κ → Prop
  | .setFormatter _ formatter => formatter.Accepted
  | .backend localTime => 0 ≤ localTime
  | _ => True

/-- All lines, and those to come, are printable. -/
structure Printable (s : State P ι κ) : Prop where
  current : s.formatter.current.value.Accepted
  pending : ∀ f, s.formatter.pending = some f → f.value.Accepted
  lines : ∀ l ∈ s.lines, l.Printable

theorem accepted_defaultFormatter : defaultFormatter.Accepted :=
  ParsedPattern.accepted_of_parsePattern
    (by decide +kernel : parsePattern defaultPattern 16 1000 = .ok defaultFormatter) rfl

theorem printable_init : Printable (init : State P ι κ) :=
  ⟨accepted_defaultFormatter, by simp [init], by simp [init, State.lines]⟩

variable {s s' : State P ι κ}

/-- The formatter that waits becomes the current one. -/
theorem Printable.poll (h : Printable s) : s.formatter.poll.current.value.Accepted := by
  cases hpending : s.formatter.pending with
  | none => simpa [Mailbox.poll, hpending] using h.current
  | some f => simpa [Mailbox.poll, hpending] using h.pending f hpending

variable [DecidableEq ι]

theorem Printable.visitStep (h : Printable s) {i : ι} {v : Visit} {localTime : ℤ}
    (htime : 0 ≤ localTime) (hstep : visitStep s i v localTime = some s') : Printable s' := by
  cases visitActs_of_visitStep hstep with
  | dropped => exact ⟨h.current, h.pending, by simpa [State.lines] using h.lines⟩
  | written hlevel hline =>
      obtain ⟨j, -, rfl⟩ := Option.map_eq_some_iff.mp hline
      refine ⟨h.current, h.pending, fun l hl => ?_⟩
      simp only [State.lines, List.filterMap_append, List.mem_append] at hl
      rcases hl with hl | hl
      · exact h.lines l hl
      · simp only [List.filterMap_cons, List.filterMap_nil, List.mem_singleton] at hl
        subst hl
        exact ⟨h.current, htime⟩
  | _ => exact ⟨h.current, h.pending, h.lines⟩

theorem Printable.backendStep (h : Printable s) {localTime : ℤ} (htime : 0 ≤ localTime)
    (hstep : backendStep s localTime = some s') : Printable s' := by
  cases backendActs_of_backendStep hstep with
  | pollFormatter => exact ⟨h.poll, by simp [Mailbox.poll], h.lines⟩
  | visit hloop hvisit hstep => exact h.visitStep htime hstep
  | _ => exact ⟨h.current, h.pending, h.lines⟩

variable [DecidableEq κ]

/-- **Every step.** -/
theorem Printable.step (h : Printable s) {a : Action P ι κ} (ha : Settings a)
    (hstep : System.step s a = some s') : Printable s' := by
  cases acts_of_step hstep with
  | initThread hidle hhandler hconstruct =>
      obtain ⟨-, rfl⟩ := construct_eq_some hconstruct
      exact ⟨h.current, h.pending, h.lines⟩
  | log hidle hlog =>
      rcases log_eq_some hlog with ⟨-, -, hconstruct⟩ | ⟨-, cached, rfl⟩
      · obtain ⟨-, rfl⟩ := construct_eq_some hconstruct
        exact ⟨h.current, h.pending, h.lines⟩
      · exact ⟨h.current, h.pending, h.lines⟩
  | thread hthread =>
      cases threadActs_of_threadStep hthread <;> exact ⟨h.current, h.pending, h.lines⟩
  | setFormatter =>
      refine ⟨h.current, fun f hf => ?_, h.lines⟩
      obtain rfl := Option.some.inj hf
      exact ha
  | backend hbackend => exact h.backendStep ha hbackend
  | _ => exact ⟨h.current, h.pending, h.lines⟩

/-- **Every line is the reading of its pattern.**  Whatever the threads and the backend do and in
whatever order: as long as the formatters handed over are those of patterns that compile, and
local time is not before the epoch, no call of `format` throws, in whatever order it evaluates
its arguments; and each line that goes to a sink is its pattern read item by item, with the data
of its event, whatever was formatted before. -/
theorem exec_output {F : Fmt} (hF : F.Documented) {as : List (Action P ι κ)}
    (hsettings : ∀ a ∈ as, Settings a) (hexec : exec step init as = some s)
    {calls : List (List ℕ × Line)} (hlines : calls.map Prod.snd = s.lines)
    (horders : ∀ call ∈ calls, call.1.Perm (List.range call.2.formatter.value.fields.length)) :
    ∃ out, formatLines F calls TimeCaches.init = some out ∧
      List.Forall₂ (Prints F) s.lines out := by
  have halong : Along (fun _ a => Settings a) step (init : State P ι κ) as :=
    Along.of_mem (fun a ha _ => hsettings a ha) _
  have hprintable : Printable s :=
    exec_induction_along Printable (fun _ _ _ h ha hstep => h.step ha hstep) printable_init halong
      hexec
  rw [← hlines]
  refine formatLines_prints hF (fun call hcall => ⟨?_, horders call hcall⟩)
    (TimeCaches.current_init F)
  apply hprintable.lines
  rw [← hlines]
  exact List.mem_map_of_mem hcall

theorem accepted_messageFormatter : messageFormatter.Accepted :=
  ParsedPattern.accepted_of_parsePattern
    (by decide +kernel : parsePattern "\x7bmessage\x7d".toList 16 1000 = .ok messageFormatter) rfl

/-- A pattern is handed over, a thread logs, and the backend prints the event. -/
def printRun : List (Action helloProgram ℕ ℕ) :=
  [.setFormatter 0 messageFormatter] ++ firstLogRun 0 100 8192 ++ backendRun 12

theorem exec_output_printRun :
    ∃ s l, exec step init printRun = some s ∧ s.lines = [l] ∧
      ∃ out, formatLines simpleFmt [([0], l)] TimeCaches.init = some out ∧
        List.Forall₂ (Prints simpleFmt) s.lines out := by
  have hrun : ∃ s l, exec step init printRun = some s ∧ s.lines = [l] ∧
      l.formatter.value.fields = [.Message] := ⟨_, _, rfl, rfl, rfl⟩
  obtain ⟨s, l, hs, hlines, hfields⟩ := hrun
  have hsettings : ∀ a ∈ printRun, Settings a := by
    have hbackend : ∀ a ∈ backendRun 12, Settings a := by
      intro a ha
      rw [List.eq_of_mem_replicate ha]
      exact le_refl (0 : ℤ)
    have hlog : ∀ a ∈ firstLogRun 0 100 8192, Settings a := by
      simp [firstLogRun, pushRun, Settings]
    simpa [printRun, or_imp, forall_and, Settings, accepted_messageFormatter]
      using ⟨hlog, hbackend⟩
  refine ⟨s, l, hs, hlines, exec_output simpleFmt_documented hsettings hs hlines.symm ?_⟩
  simp [hfields, List.range_succ]

end System

end Papper
