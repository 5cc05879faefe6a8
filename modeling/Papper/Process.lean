import Papper.Sink.Contents
import Papper.System.Levels
import Papper.System.Output

/-!
# The process

`Backend` with what it is made of: the threads and the backend thread, the sink with its calls
into `stdio`, and the clock texts that the formatters keep.  The machines of the parts take their
steps together: the exchange of `queue_new_sink` and that of `poll_for_pending_sink_switch` are
steps of the sink and of the program, and the step that makes the record of a line formats it and
hands it to `fwrite`.  The backend does nothing else while it is inside the sink.

`exec_files` is what all of it is for: a file has the lines that were recorded for it, each of
them the reading of its pattern with the data of its event.

## Main definitions

* `State`, `Action`, `step` — the process.
* `Acts` — what a step can do.
* `systemAction` — the step of the program in it.
* `Inv` — how the parts hang together.
-/

namespace Papper.Process

open Transition Papper.System

variable {P : Program} {ι κ : Type}

structure State (P : Program) (ι κ : Type) where
  system : System.State P ι κ
  sink : Sink.Machine ι
  caches : TimeCaches

def init : State P ι κ := ⟨System.init, Sink.init, TimeCaches.init⟩

inductive Action (P : Program) (ι κ : Type)
  /-- A step of a thread that is not in `queue_new_sink`. -/
  | thread (i : ι) (a : System.Action P ι κ)
  /-- A thread enters `queue_new_sink`. -/
  | queueNewSink (i : ι) (file : Option Sink.File) (bufferingMode : ℤ) (bufferSize : ℕ)
  /-- The next step of its call. -/
  | caller (i : ι)
  /-- The next step of the backend outside of the sink.  If it formats a line, it evaluates the
  arguments of `std::format` in this order. -/
  | backend (localTime : ℤ) (order : List ℕ)
  /-- The next step inside of the sink. -/
  | sink
  /-- `~SinkHandler` begins, once `~Backend` has joined the thread. -/
  | destroy

/-- The steps that concern neither the backend nor the sink. -/
def ofThread : System.Action P ι κ → Bool
  | .setSink .. | .backend _ => false
  | _ => true

/-- The line that a step has recorded. -/
def newLine (s s' : System.State P ι κ) : Option Line := (s'.lines.drop s.lines.length).head?

section Step
variable [DecidableEq ι] [Fintype ι] [DecidableEq κ]

/-- A step of the backend outside of the sink. -/
def backendStep (F : Fmt) (s : State P ι κ) (localTime : ℤ) (order : List ℕ) :
    Option (State P ι κ) :=
  (System.backendStep s.system localTime).bind fun system =>
    if s.system.loop = .pollSink then
      (Sink.step s.sink .poll).map fun sink => { s with system := system, sink := sink }
    else
      match newLine s.system system with
      | none => some { s with system := system }
      | some line =>
          if order.Perm (List.range line.formatter.value.fields.length) then
            (formatImpl F line.formatter.value order line.data s.caches).bind fun formatted =>
              match formatted.line with
              | none => some { s with system := s.system.terminate, caches := formatted.caches }
              | some text =>
                  (Sink.step s.sink (.writeStrAndEndl text)).map fun sink =>
                    ⟨system, sink, formatted.caches⟩
          else none

def step (F : Fmt) (s : State P ι κ) : Action P ι κ → Option (State P ι κ)
  | .thread i a =>
      if ofThread a = true ∧ a.Of i ∧ s.sink.calls i = none then
        (System.step s.system a).map fun system => { s with system := system }
      else none
  | .queueNewSink i file bufferingMode bufferSize =>
      if (s.system.threads i).pc.isIdle then
        (Sink.step s.sink (.queueNewSink i file bufferingMode bufferSize)).map fun sink =>
          { s with sink := sink }
      else none
  | .caller i =>
      (Sink.step s.sink (.caller i)).bind fun sink =>
        match s.sink.calls i with
        | some (.exchange newSink) =>
            (System.step s.system (.setSink i newSink.file)).map fun system =>
              { s with system := system, sink := sink }
        | _ => some { s with sink := sink }
  | .backend localTime order =>
      if s.sink.pc = .idle then backendStep F s localTime order else none
  | .sink => (Sink.step s.sink .next).map fun sink => { s with sink := sink }
  | .destroy =>
      if s.system.loop = .exited then
        (Sink.step s.sink .destroy).map fun sink => { s with sink := sink }
      else none

/-- What an action can do, and where its party has to be. -/
inductive Acts (F : Fmt) (s : State P ι κ) : Action P ι κ → State P ι κ → Prop
  | thread {i : ι} {a : System.Action P ι κ} {system : System.State P ι κ}
      (ha : ofThread a = true) (hsystem : System.step s.system a = some system) :
      Acts F s (.thread i a) { s with system := system }
  | queueNewSink {i : ι} {file : Option Sink.File} {mode : ℤ} {size : ℕ} {sink : Sink.Machine ι}
      (hsink : Sink.step s.sink (.queueNewSink i file mode size) = some sink) :
      Acts F s (.queueNewSink i file mode size) { s with sink := sink }
  | exchange {i : ι} {newSink : Sink.SinkDescriptor} {system : System.State P ι κ}
      {sink : Sink.Machine ι} (hcall : s.sink.calls i = some (.exchange newSink))
      (hsystem : System.step s.system (.setSink i newSink.file) = some system)
      (hsink : Sink.step s.sink (.caller i) = some sink) :
      Acts F s (.caller i) { s with system := system, sink := sink }
  | closePrev {i : ι} {prev : Sink.SinkDescriptor} {sink : Sink.Machine ι}
      (hcall : s.sink.calls i = some (.closePrev prev))
      (hsink : Sink.step s.sink (.caller i) = some sink) :
      Acts F s (.caller i) { s with sink := sink }
  | pollSink {localTime : ℤ} {order : List ℕ} {system : System.State P ι κ} {sink : Sink.Machine ι}
      (hloop : s.system.loop = .pollSink)
      (hsystem : System.backendStep s.system localTime = some system)
      (hsink : Sink.step s.sink .poll = some sink) :
      Acts F s (.backend localTime order) { s with system := system, sink := sink }
  | noLine {localTime : ℤ} {order : List ℕ} {system : System.State P ι κ}
      (hpc : s.sink.pc = .idle) (hloop : s.system.loop ≠ .pollSink)
      (hsystem : System.backendStep s.system localTime = some system)
      (hline : newLine s.system system = none) :
      Acts F s (.backend localTime order) { s with system := system }
  | throws {localTime : ℤ} {order : List ℕ} {system : System.State P ι κ} {line : Line}
      {formatted : Formatted} (hpc : s.sink.pc = .idle) (hloop : s.system.loop ≠ .pollSink)
      (hsystem : System.backendStep s.system localTime = some system)
      (hline : newLine s.system system = some line)
      (horder : order.Perm (List.range line.formatter.value.fields.length))
      (hformat : formatImpl F line.formatter.value order line.data s.caches = some formatted)
      (hthrown : formatted.line = none) :
      Acts F s (.backend localTime order)
        { s with system := s.system.terminate, caches := formatted.caches }
  | writes {localTime : ℤ} {order : List ℕ} {system : System.State P ι κ} {line : Line}
      {formatted : Formatted} {text : List Char} {sink : Sink.Machine ι} (hpc : s.sink.pc = .idle)
      (hloop : s.system.loop ≠ .pollSink)
      (hsystem : System.backendStep s.system localTime = some system)
      (hline : newLine s.system system = some line)
      (horder : order.Perm (List.range line.formatter.value.fields.length))
      (hformat : formatImpl F line.formatter.value order line.data s.caches = some formatted)
      (htext : formatted.line = some text)
      (hsink : Sink.step s.sink (.writeStrAndEndl text) = some sink) :
      Acts F s (.backend localTime order) ⟨system, sink, formatted.caches⟩
  | sink {sink : Sink.Machine ι} (hsink : Sink.step s.sink .next = some sink) :
      Acts F s .sink { s with sink := sink }
  | destroy {sink : Sink.Machine ι} (hloop : s.system.loop = .exited)
      (hsink : Sink.step s.sink .destroy = some sink) : Acts F s .destroy { s with sink := sink }

variable {F : Fmt} {s s' : State P ι κ}

theorem acts_of_backendStep {localTime : ℤ} {order : List ℕ} (hpc : s.sink.pc = .idle)
    (h : backendStep F s localTime order = some s') : Acts F s (.backend localTime order) s' := by
  obtain ⟨system, hsystem, h⟩ := Option.bind_eq_some_iff.mp h
  by_cases hloop : s.system.loop = .pollSink
  · rw [if_pos hloop] at h
    obtain ⟨sink, hsink, rfl⟩ := Option.map_eq_some_iff.mp h
    exact .pollSink hloop hsystem hsink
  · rw [if_neg hloop] at h
    cases hline : newLine s.system system with
    | none =>
        simp only [hline, Option.some.injEq] at h
        exact h ▸ .noLine hpc hloop hsystem hline
    | some line =>
        simp only [hline] at h
        by_cases horder : order.Perm (List.range line.formatter.value.fields.length)
        · rw [if_pos horder] at h
          obtain ⟨formatted, hformat, h⟩ := Option.bind_eq_some_iff.mp h
          cases htext : formatted.line with
          | none =>
              simp only [htext, Option.some.injEq] at h
              exact h ▸ .throws hpc hloop hsystem hline horder hformat htext
          | some text =>
              simp only [htext] at h
              obtain ⟨sink, hsink, rfl⟩ := Option.map_eq_some_iff.mp h
              exact .writes hpc hloop hsystem hline horder hformat htext hsink
        · rw [if_neg horder] at h
          cases h

/-- **Every step is an action**, taken where it is enabled. -/
theorem acts_of_step {a : Action P ι κ} (h : step F s a = some s') : Acts F s a s' := by
  cases a with
  | thread i a =>
      by_cases hcond : ofThread a = true ∧ a.Of i ∧ s.sink.calls i = none
      · rw [step, if_pos hcond] at h
        obtain ⟨system, hsystem, rfl⟩ := Option.map_eq_some_iff.mp h
        exact .thread hcond.1 hsystem
      · rw [step, if_neg hcond] at h
        cases h
  | queueNewSink i file mode size =>
      by_cases hidle : (s.system.threads i).pc.isIdle = true
      · rw [step, if_pos hidle] at h
        obtain ⟨sink, hsink, rfl⟩ := Option.map_eq_some_iff.mp h
        exact .queueNewSink hsink
      · rw [step, if_neg hidle] at h
        cases h
  | caller i =>
      obtain ⟨sink, hsink, h⟩ := Option.bind_eq_some_iff.mp h
      cases hcall : s.sink.calls i with
      | none =>
          rw [Sink.step, hcall] at hsink
          cases hsink
      | some call =>
          cases call with
          | exchange newSink =>
              simp only [hcall] at h
              obtain ⟨system, hsystem, rfl⟩ := Option.map_eq_some_iff.mp h
              exact .exchange hcall hsystem hsink
          | closePrev prev =>
              simp only [hcall, Option.some.injEq] at h
              exact h ▸ .closePrev hcall hsink
  | backend localTime order =>
      by_cases hpc : s.sink.pc = .idle
      · rw [step, if_pos hpc] at h
        exact acts_of_backendStep hpc h
      · rw [step, if_neg hpc] at h
        cases h
  | sink =>
      obtain ⟨sink, hsink, rfl⟩ := Option.map_eq_some_iff.mp h
      exact .sink hsink
  | destroy =>
      by_cases hloop : s.system.loop = .exited
      · rw [step, if_pos hloop] at h
        obtain ⟨sink, hsink, rfl⟩ := Option.map_eq_some_iff.mp h
        exact .destroy hloop hsink
      · rw [step, if_neg hloop] at h
        cases h

end Step

/-! ## What the steps of the program do -/

section Program
variable {s s' : System.State P ι κ}

/-- The lines, the sink and the place of the backend are what they were. -/
structure Apart (s s' : System.State P ι κ) : Prop where
  lines : s'.lines = s.lines
  sink : s'.sink = s.sink
  loop : s'.loop = s.loop

/-- A line may have been recorded, for the sink that is the current one. -/
structure Recorded (s s' : System.State P ι κ) : Prop where
  lines : s'.lines = s.lines ++ (newLine s s').toList
  sink : s'.sink = s.sink
  current : ∀ line ∈ newLine s s', line.sink = s.sink.current

theorem Recorded.noLine (hlines : s'.lines = s.lines) (hsink : s'.sink = s.sink) :
    Recorded s s' := by
  have hnew : newLine s s' = none := by
    rw [newLine, hlines, List.drop_length, List.head?_nil]
  exact ⟨by simp [hlines, hnew], hsink, by simp [hnew]⟩

theorem Recorded.line {line : Line} (hlines : s'.lines = s.lines ++ [line])
    (hsink : s'.sink = s.sink) (hline : line.sink = s.sink.current) : Recorded s s' := by
  have hnew : newLine s s' = some line := by
    rw [newLine, hlines, List.drop_left, List.head?_cons]
  exact ⟨by simp [hlines, hnew], hsink, by simpa [hnew] using hline⟩

variable [DecidableEq ι]

theorem Recorded.visitStep {i : ι} {v : Visit} {localTime : ℤ}
    (hstep : visitStep s i v localTime = some s') : Recorded s s' := by
  cases visitActs_of_visitStep hstep with
  | dropped => exact .noLine (by simp [System.State.lines]) rfl
  | written hlevel hline =>
      obtain ⟨j, -, rfl⟩ := Option.map_eq_some_iff.mp hline
      exact .line (by simp [System.State.lines]; rfl) rfl rfl
  | _ => exact .noLine rfl rfl

theorem Recorded.backendStep {localTime : ℤ} (hloop : s.loop ≠ .pollSink)
    (hstep : System.backendStep s localTime = some s') : Recorded s s' := by
  cases backendActs_of_backendStep hstep with
  | pollSink hpoll => exact absurd hpoll hloop
  | visit _ _ hvisit => exact .visitStep hvisit
  | _ => exact .noLine rfl rfl

variable [DecidableEq κ]

theorem apart_of_step {a : System.Action P ι κ} (ha : ofThread a = true)
    (hstep : System.step s a = some s') : Apart s s' := by
  cases System.acts_of_step hstep with
  | initThread hidle hhandler hconstruct =>
      obtain ⟨-, rfl⟩ := construct_eq_some hconstruct
      exact ⟨rfl, rfl, rfl⟩
  | log hidle hlog =>
      rcases log_eq_some hlog with ⟨-, -, hconstruct⟩ | ⟨-, cached, rfl⟩
      · obtain ⟨-, rfl⟩ := construct_eq_some hconstruct
        exact ⟨rfl, rfl, rfl⟩
      · exact ⟨rfl, rfl, rfl⟩
  | thread hthread => cases threadActs_of_threadStep hthread <;> exact ⟨rfl, rfl, rfl⟩
  | setSink | backend => cases ha
  | _ => exact ⟨rfl, rfl, rfl⟩

end Program

/-! ## The invariant -/

/-- The formatters and the clock do not make `format` throw. -/
def Settings : Action P ι κ → Prop
  | .thread _ a => System.Settings a
  | .backend localTime _ => 0 ≤ localTime
  | _ => True

/-- The program is one whose lines can be printed, the sink is the one it knows, and the files
have what was printed. -/
structure Inv (F : Fmt) (out : List (Sink.File × List Char)) (s : State P ι κ) : Prop where
  printable : Printable s.system
  caches : s.caches.Current F
  mailbox : s.sink.pc.usable = true → s.sink.mailbox = s.system.sink.values
  exited : s.sink.pc.usable = false → s.system.loop = .exited
  prints : List.Forall₂ (Prints F) s.system.lines out
  contents : Sink.Contents out s.sink.file s.sink.pc s.sink.ops

theorem inv_init {F : Fmt} : Inv F [] (Process.init : State P ι κ) where
  printable := printable_init
  caches := TimeCaches.current_init F
  mailbox _ := rfl
  exited hpc := by cases hpc
  prints := .nil
  contents := Sink.contents_init

section Step
variable {F : Fmt} {out : List (Sink.File × List Char)} {s s' : State P ι κ}

/-- A step of a thread outside of the sink. -/
theorem Inv.systemStep (h : Inv F out s) {system : System.State P ι κ}
    (hprintable : Printable system) (happart : Apart s.system system) :
    Inv F out { s with system := system } where
  printable := hprintable
  caches := h.caches
  mailbox hpc := happart.sink ▸ h.mailbox hpc
  exited hpc := happart.loop.trans (h.exited hpc)
  prints := happart.lines ▸ h.prints
  contents := h.contents

/-- A step of the backend that records no line. -/
theorem Inv.noLine (h : Inv F out s) (hpc : s.sink.pc = .idle) {system : System.State P ι κ}
    (hprintable : Printable system) (hrecorded : Recorded s.system system)
    (hline : newLine s.system system = none) : Inv F out { s with system := system } where
  printable := hprintable
  caches := h.caches
  mailbox husable := hrecorded.sink ▸ h.mailbox husable
  exited hnot := by
    rw [hpc] at hnot
    cases hnot
  prints := by
    rw [hrecorded.lines, hline]
    simpa using h.prints
  contents := h.contents

variable [DecidableEq ι] [Fintype ι]

/-- A step of the sink that is no line, with what it means to the program. -/
theorem Inv.sinkStep (h : Inv F out s) {a : Sink.Action ι} {sink : Sink.Machine ι}
    (hstep : Sink.step s.sink a = some sink) (ha : a ≠ .destroy)
    (hnone : Sink.lines s.sink a sink = []) {system : System.State P ι κ}
    (hprintable : Printable system) (hlines : system.lines = s.system.lines)
    (hloop : s.sink.pc.usable = false → system.loop = s.system.loop)
    (hvalues : s.sink.mailbox = s.system.sink.values → s.sink.afterStep a = system.sink.values) :
    Inv F out { s with system := system, sink := sink } := by
  have husable : sink.pc.usable = s.sink.pc.usable := Sink.usable_of_step hstep ha
  refine ⟨hprintable, h.caches, fun hpc => ?_, fun hpc => ?_, hlines ▸ h.prints, ?_⟩
  · rw [Sink.step_mailbox hstep hpc]
    exact hvalues (h.mailbox (husable ▸ hpc))
  · rw [husable] at hpc
    exact (hloop hpc).trans (h.exited hpc)
  · have hcontents := h.contents.step hstep
    rwa [hnone, List.append_nil] at hcontents

/-- **A line is recorded and written**, and it is what its pattern says. -/
theorem Inv.writes (h : Inv F out s) (hF : F.Documented) (hpc : s.sink.pc = .idle)
    (hloop : s.system.loop ≠ .pollSink) {localTime : ℤ} (htime : 0 ≤ localTime)
    {system : System.State P ι κ} (hsystem : System.backendStep s.system localTime = some system)
    {line : Line} (hline : newLine s.system system = some line) {order : List ℕ}
    (horder : order.Perm (List.range line.formatter.value.fields.length)) {formatted : Formatted}
    (hformat : formatImpl F line.formatter.value order line.data s.caches = some formatted) :
    ∃ text, formatted.line = some text ∧
      ∀ sink, Sink.step s.sink (.writeStrAndEndl text) = some sink →
        Inv F (out ++ [(line.sink.value, text)]) ⟨system, sink, formatted.caches⟩ := by
  have hprintable := h.printable.backendStep htime hsystem
  have hrecorded := Recorded.backendStep hloop hsystem
  have hlines : system.lines = s.system.lines ++ [line] := by
    rw [hrecorded.lines, hline]
    rfl
  obtain ⟨text, caches', hcall, hcurrent, hprints⟩ :=
    (hprintable.lines line (by simp [hlines])).format hF horder h.caches
  obtain rfl := Option.some.inj (hformat.symm.trans hcall)
  refine ⟨text, rfl, fun sink hstep => ?_⟩
  have husable : s.sink.pc.usable = true := by rw [hpc]; rfl
  have husable' : sink.pc.usable = true := (Sink.usable_of_step hstep (by simp)).trans husable
  have hmailbox := h.mailbox husable
  -- the file of the sink is the one the line was recorded for
  have hfile : s.sink.mailbox.current = line.sink.value := by
    rw [hmailbox, hrecorded.current line hline]
    rfl
  refine ⟨hprintable, hcurrent, fun _ => ?_, fun hnot => ?_, ?_, ?_⟩
  · rw [Sink.step_mailbox hstep husable', hrecorded.sink]
    exact hmailbox
  · rw [husable'] at hnot
    cases hnot
  · rw [hlines]
    exact List.rel_append h.prints (.cons hprints .nil)
  · rw [← hfile]
    exact h.contents.step hstep

variable [DecidableEq κ]

/-- **Every step.** -/
theorem Inv.step (h : Inv F out s) (hF : F.Documented) {a : Action P ι κ} (ha : Settings a)
    (hstep : Process.step F s a = some s') : ∃ out', Inv F out' s' := by
  cases acts_of_step hstep with
  | thread hthread hsystem =>
      exact ⟨out, h.systemStep (h.printable.step ha hsystem) (apart_of_step hthread hsystem)⟩
  | queueNewSink hsink | sink hsink =>
      exact ⟨out, h.sinkStep hsink (by simp) rfl h.printable rfl (fun _ => rfl) id⟩
  | closePrev hcall hsink =>
      refine ⟨out, h.sinkStep hsink (by simp) rfl h.printable rfl (fun _ => rfl) fun hmailbox => ?_⟩
      simpa [Sink.Machine.afterStep, hcall] using hmailbox
  | exchange hcall hsystem hsink =>
      have hprintable := h.printable.step (a := .setSink _ _) trivial hsystem
      cases System.acts_of_step hsystem with
      | setSink =>
          refine ⟨out, h.sinkStep hsink (by simp) rfl hprintable rfl (fun _ => rfl) ?_⟩
          intro hmailbox
          simp [Sink.Machine.afterStep, hcall, hmailbox]
  | pollSink hloop hsystem hsink =>
      have hprintable := h.printable.backendStep ha hsystem
      simp only [System.backendStep, hloop, Option.some.injEq] at hsystem
      subst hsystem
      refine ⟨out, h.sinkStep hsink (by simp) rfl hprintable rfl (fun hpc => ?_) fun hmailbox => ?_⟩
      · rw [h.exited hpc] at hloop
        cases hloop
      · simp [Sink.Machine.afterStep, hmailbox]
  | noLine hpc hloop hsystem hline =>
      exact ⟨out, h.noLine hpc (h.printable.backendStep ha hsystem)
        (Recorded.backendStep hloop hsystem) hline⟩
  | throws hpc hloop hsystem hline horder hformat hthrown =>
      obtain ⟨text, htext, -⟩ := h.writes hF hpc hloop ha hsystem hline horder hformat
      rw [hthrown] at htext
      cases htext
  | writes hpc hloop hsystem hline horder hformat htext hsink =>
      obtain ⟨text, htext', hwrites⟩ := h.writes hF hpc hloop ha hsystem hline horder hformat
      obtain rfl := Option.some.inj (htext.symm.trans htext')
      exact ⟨_, hwrites _ hsink⟩
  | @destroy sink hloop hsink =>
      have hcontents : Sink.Contents out sink.file sink.pc sink.ops := by
        simpa [Sink.lines] using h.contents.step hsink
      refine ⟨out, ⟨h.printable, h.caches, fun husable => ?_, fun _ => hloop, h.prints, hcontents⟩⟩
      cases Sink.acts_of_step hsink with
      | destroy =>
          cases hpending : s.sink.pendingNewSink <;> simp [Sink.Pc.usable, hpending] at husable

/-! ## Runs -/

/-- The step of the program that a step of the process is. -/
def systemAction (s : State P ι κ) (a : Action P ι κ) (_ : State P ι κ) :
    List (System.Action P ι κ) :=
  match a with
  | .thread _ a => [a]
  | .caller i =>
      match s.sink.calls i with
      | some (.exchange newSink) => [.setSink i newSink.file]
      | _ => []
  | .backend localTime _ => [.backend localTime]
  | _ => []

/-- **What the process does, the program does.** -/
theorem Inv.systemAction (h : Inv F out s) (hF : F.Documented) {a : Action P ι κ}
    (ha : Settings a) (hstep : Process.step F s a = some s') :
    exec System.step s.system (systemAction s a s') = some s'.system := by
  cases acts_of_step hstep with
  | queueNewSink | sink | destroy => rfl
  | closePrev hcall => simp [Process.systemAction, hcall]
  | thread hthread hsystem => exact exec_singleton hsystem
  | exchange hcall hsystem =>
      simp only [Process.systemAction, hcall]
      exact exec_singleton hsystem
  | pollSink hloop hsystem => exact exec_singleton hsystem
  | noLine hpc hloop hsystem => exact exec_singleton hsystem
  | throws hpc hloop hsystem hline horder hformat hthrown =>
      obtain ⟨text, htext, -⟩ := h.writes hF hpc hloop ha hsystem hline horder hformat
      rw [hthrown] at htext
      cases htext
  | writes hpc hloop hsystem => exact exec_singleton hsystem

/-- The files handed over, in the order of the calls. -/
def handedOver (as : List (Action P ι κ)) : List Sink.File :=
  as.filterMap fun
    | .queueNewSink _ file _ _ => file
    | _ => none

/-- No file but the standard streams is handed over twice. -/
def HandedOverOnce (as : List (Action P ι κ)) : Prop :=
  ∀ n, (handedOver as).count (.other n) ≤ 1

/-- What a step does to the sink. -/
theorem exists_sinkStep {a : Action P ι κ} (hstep : Process.step F s a = some s') :
    ∃ bs, exec Sink.step s.sink bs = some s'.sink ∧ Sink.handedOver bs = handedOver [a] := by
  cases acts_of_step hstep with
  | thread | noLine | throws => exact ⟨[], rfl, rfl⟩
  | queueNewSink hsink => exact ⟨_, exec_singleton hsink, rfl⟩
  | exchange _ _ hsink | closePrev _ hsink => exact ⟨_, exec_singleton hsink, rfl⟩
  | pollSink _ _ hsink => exact ⟨_, exec_singleton hsink, rfl⟩
  | writes _ _ _ _ _ _ _ hsink => exact ⟨_, exec_singleton hsink, rfl⟩
  | sink hsink | destroy _ hsink => exact ⟨_, exec_singleton hsink, rfl⟩

/-- **What the process does to the sink is a run of it**, with the files of the process. -/
theorem exists_sinkRun {as : List (Action P ι κ)} (hexec : exec (step F) s as = some s') :
    ∃ bs, exec Sink.step s.sink bs = some s'.sink ∧ Sink.handedOver bs = handedOver as := by
  induction as generalizing s with
  | nil =>
      rw [exec_nil, Option.some.injEq] at hexec
      exact ⟨[], by rw [exec_nil, hexec], rfl⟩
  | cons a as ih =>
      obtain ⟨t, hstep, hrest⟩ := exec_cons_eq_some.mp hexec
      obtain ⟨bs, hbs, hfirst⟩ := exists_sinkStep hstep
      obtain ⟨cs, hcs, hlater⟩ := ih hrest
      refine ⟨bs ++ cs, exec_append_eq_some.mpr ⟨t.sink, hbs, hcs⟩, ?_⟩
      have hsplit : handedOver (a :: as) = handedOver [a] ++ handedOver as :=
        List.filterMap_append (l := [a])
      rw [hsplit, ← hfirst, ← hlater]
      exact List.filterMap_append

/-- **The files have what was logged.**  Whatever the threads and the backend do and in whatever
order, as long as the formatters handed over are those of patterns that compile, no file is handed
over twice and local time is not before the epoch: the process runs the program, and each file gets
the lines that were recorded for it, in their order and whole, up to the end of the one that is
being written.  Each is its pattern read item by item with the data of its event.  Nothing is left
in the buffer of a file that is not the sink any more, and when the sink is destroyed the backend
has exited and nothing is left in the buffer of any file the program opened. -/
theorem exec_files (hF : F.Documented) {as : List (Action P ι κ)}
    (hsettings : ∀ a ∈ as, Settings a) (honce : HandedOverOnce as)
    (hexec : exec (step F) Process.init as = some s) :
    exec System.step System.init (trace systemAction (step F) Process.init as) = some s.system ∧
      ∃ out, List.Forall₂ (Prints F) s.system.lines out ∧
        (∀ f, Sink.received f s.sink.ops ++ s.sink.pc.endLine s.sink.file f
          = out.flatMap (Sink.lineIn f)) ∧
        (∀ f, f ≠ s.sink.file → Sink.unsettled f s.sink.ops = []) ∧
        (s.sink.pc = .destroyed →
          s.system.loop = .exited ∧ ∀ n, Sink.unsettled (.other n) s.sink.ops = []) := by
  have halong : Along (fun _ a => Settings a) (step F) (Process.init : State P ι κ) as :=
    Along.of_mem (fun a ha _ => hsettings a ha) _
  have hrefines : Refines (fun _ a => Settings a) (fun s : State P ι κ => ∃ out, Inv F out s)
      systemAction State.system (step F) System.step :=
    ⟨fun ⟨_, h⟩ ha hstep => h.step hF ha hstep, fun ⟨_, h⟩ ha hstep => h.systemAction hF ha hstep⟩
  have hinit : ∃ out, Inv F out (Process.init : State P ι κ) := ⟨[], inv_init⟩
  obtain ⟨out, h⟩ := exec_induction_along (fun s : State P ι κ => ∃ out, Inv F out s)
    (fun _ _ _ h ha hstep => hrefines.invariant h ha hstep) hinit halong hexec
  have hsafe : Sink.Safe s.sink.ops := by
    obtain ⟨bs, hbs, hfiles⟩ := exists_sinkRun hexec
    exact Sink.safe_of_handedOverOnce (fun n => hfiles ▸ honce n) hbs
  refine ⟨hrefines.exec hinit halong hexec, out, h.prints, fun f => ?_, h.contents.settled,
    fun hpc => ⟨h.exited (by rw [hpc]; rfl), fun n => ?_⟩⟩
  · rw [Sink.received_eq_written hsafe]
    exact h.contents.whole f
  by_cases hfile : Sink.File.other n = s.sink.file
  · rw [hfile]
    exact h.contents.destroyed hpc n hfile.symm
  · exact h.contents.settled _ hfile

end Step

/-- A step of the only thread, or several of the backend. -/
def threadSteps (n : ℕ) : List (Action helloProgram Unit ℕ) :=
  List.replicate n (.thread () (.thread ()))

def backendSteps (n : ℕ) : List (Action helloProgram Unit ℕ) := List.replicate n (.backend 0 [0])

/-- A pattern and a file are handed over, the thread logs and ends, the backend switches to the
file and writes the line, and the process ends. -/
def filesRun : List (Action helloProgram Unit ℕ) :=
  [.thread () (.setFormatter () messageFormatter), .queueNewSink () (some (.other 0)) 1 1024,
    .caller (), .thread () (.log () (hello 0) 64 8192), .thread () (.newNode () 100),
    .thread () (.registrar () false), .thread () (.registrar () false),
    .thread () (.registrar () false)] ++ threadSteps 35 ++ [.thread () (.kill ())] ++
    backendSteps 2 ++ [.sink, .sink, .sink, .sink] ++ backendSteps 7 ++ [.sink] ++
    backendSteps 3 ++ [.thread () .shutdown] ++ backendSteps 14 ++ [.destroy, .sink]

theorem settings_filesRun : ∀ a ∈ filesRun, Settings a := by
  have hthread : ∀ n, ∀ a ∈ threadSteps n, Settings a := by
    intro n a ha
    rw [List.eq_of_mem_replicate ha]
    trivial
  have hbackend : ∀ n, ∀ a ∈ backendSteps n, Settings a := by
    intro n a ha
    rw [List.eq_of_mem_replicate ha]
    exact le_refl (0 : ℤ)
  simp only [filesRun, List.forall_mem_append, and_assoc]
  refine ⟨?_, hthread 35, ?_, hbackend 2, ?_, hbackend 7, ?_, hbackend 3, ?_, hbackend 14, ?_⟩ <;>
    simp [Settings, System.Settings, accepted_messageFormatter]

theorem exec_files_filesRun :
    ∃ s, exec (step simpleFmt) Process.init filesRun = some s ∧ s.sink.pc = .destroyed ∧
      Sink.received (.other 0) s.sink.ops = "hello\n".toList ∧
      exec System.step System.init (trace systemAction (step simpleFmt) Process.init filesRun)
        = some s.system ∧
      ∃ out, List.Forall₂ (Prints simpleFmt) s.system.lines out ∧
        (∀ f, Sink.received f s.sink.ops ++ s.sink.pc.endLine s.sink.file f
          = out.flatMap (Sink.lineIn f)) ∧
        (∀ f, f ≠ s.sink.file → Sink.unsettled f s.sink.ops = []) ∧
        (s.sink.pc = .destroyed →
          s.system.loop = .exited ∧ ∀ n, Sink.unsettled (.other n) s.sink.ops = []) := by
  have hrun : (exec (step simpleFmt) Process.init filesRun).map
      (fun s => (s.sink.pc, Sink.received (.other 0) s.sink.ops))
        = some (.destroyed, "hello\n".toList) := by
    decide +kernel
  obtain ⟨s, hs, hstate⟩ := Option.map_eq_some_iff.mp hrun
  obtain ⟨hpc, hreceived⟩ := Prod.mk.inj hstate
  have honce : HandedOverOnce filesRun := by
    intro n
    exact List.nodup_iff_count_le_one.mp (by decide) _
  exact ⟨s, hs, hpc, hreceived, exec_files simpleFmt_documented settings_filesRun honce hs⟩

end Papper.Process
