import Papper.Lib.Lifetime
import Papper.Lib.Mailbox
import Papper.Lib.Transition

/-!
# The sink

`SinkHandler` owns the file that is written to and hands it over through one atomic
pointer: any thread may queue a new sink, the backend switches to it between two polls of
the queues, and whoever takes a descriptor out of the pointer and does not install it
closes its file.

The machine of this module takes one step for each access to the pointer and for each
call into `stdio`; its `ops` are those calls, and the installation of a file as the
current one, in the order they were made.  A file is the stream it was opened as, so two
descriptors have the same file when the same `FILE*` was handed over twice.

`exec_sound_iff` says when this is safe: the files handed over, other than `stdout` and
`stderr`, have to be distinct.  Every file has as many owners as it was handed over, less
the times it was closed (`exec_count`), and every call is made by an owner.

## Main definitions

* `Op` — the calls into `stdio`.
* `Machine`, `step` — the handler, the threads that queue sinks, and the backend.
* `Acts` — what a step can do.
* `Machine.mailbox` — what the callers and the backend see of it.
* `Safe` — no file is used or closed once it is closed, and the standard streams never are.
* `owners` — how many of the places that hold a file hold this one.
-/

namespace Papper.Sink

open Transition

inductive File
  | stdout
  | stderr
  /-- A file the program opened. -/
  | other (n : ℕ)
  deriving DecidableEq

structure SinkDescriptor where
  file : File
  bufferingMode : ℤ
  bufferSize : ℕ
  deriving DecidableEq

inductive Op
  | fclose (f : File)
  | fflush (f : File)
  /-- `_file = f`. -/
  | install (f : File)
  | setvbuf (f : File) (mode : ℤ) (size : ℕ)
  | fwrite (f : File) (str : List Char)
  | fputc (f : File) (c : Char)
  deriving DecidableEq

/-- The file an operation is about. -/
def Op.file : Op → File
  | fclose f => f
  | fflush f => f
  | install f => f
  | setvbuf f _ _ => f
  | fwrite f _ => f
  | fputc f _ => f

/-- `close_file`. -/
def closeFile (f : File) : List Op :=
  if f ≠ .stdout ∧ f ≠ .stderr then [.fclose f] else []

/-- Where a thread is in `queue_new_sink`. -/
inductive Call
  | exchange (newSink : SinkDescriptor)
  | closePrev (prev : SinkDescriptor)
  deriving DecidableEq

/-- Where the backend is in `poll_for_pending_sink_switch` or `write_str_and_endl`, or
the last thread in the destructor. -/
inductive Pc
  | idle
  | flush (newSink : SinkDescriptor)
  | closeOld (newSink : SinkDescriptor)
  | install (newSink : SinkDescriptor)
  | setvbuf (newSink : SinkDescriptor)
  | endl
  | closePending (pending : SinkDescriptor)
  | closeLast
  | destroyed
  deriving DecidableEq

/-- The handler, with the calls of the threads `ι`. -/
structure Machine (ι : Type) where
  file : File
  pendingNewSink : Option SinkDescriptor
  calls : ι → Option Call
  pc : Pc
  ops : List Op

variable {ι : Type}

def init : Machine ι := ⟨.stdout, none, fun _ => none, .idle, []⟩

inductive Action (ι : Type)
  /-- A thread enters `queue_new_sink`. -/
  | queueNewSink (t : ι) (file : Option File) (bufferingMode : ℤ) (bufferSize : ℕ)
  /-- The next step of its call. -/
  | caller (t : ι)
  /-- The exchange of `poll_for_pending_sink_switch`. -/
  | poll
  /-- The `fwrite` of `write_str_and_endl`. -/
  | writeStrAndEndl (str : List Char)
  /-- The exchange of `~SinkHandler`, once no call is left to return. -/
  | destroy
  /-- The next step of the backend, or of the destructor. -/
  | next
  deriving DecidableEq

/-- The steps after the exchange. -/
def nextStep (s : Machine ι) : Option (Machine ι) :=
  match s.pc with
  | .flush d => some { s with ops := s.ops ++ [.fflush s.file], pc := .closeOld d }
  | .closeOld d => some { s with ops := s.ops ++ closeFile s.file, pc := .install d }
  | .install d => some { s with file := d.file, ops := s.ops ++ [.install d.file], pc := .setvbuf d }
  | .setvbuf d =>
      some { s with
        ops := s.ops ++ [.setvbuf s.file d.bufferingMode d.bufferSize]
        pc := .idle }
  | .endl => some { s with ops := s.ops ++ [.fputc s.file '\n'], pc := .idle }
  | .closePending d => some { s with ops := s.ops ++ closeFile d.file, pc := .closeLast }
  | .closeLast => some { s with ops := s.ops ++ closeFile s.file, pc := .destroyed }
  | .idle => none
  | .destroyed => none

/-- The handler is not being destroyed. -/
def Pc.usable : Pc → Bool
  | closePending _ => false
  | closeLast => false
  | destroyed => false
  | _ => true

def step [DecidableEq ι] [Fintype ι] (s : Machine ι) : Action ι → Option (Machine ι)
  | .queueNewSink t file bufferingMode bufferSize =>
      if s.pc.usable ∧ s.calls t = none then
        match file with
        | none => some s
        | some f =>
            some { s with
              calls := Function.update s.calls t (some (.exchange ⟨f, bufferingMode, bufferSize⟩)) }
      else none
  | .caller t =>
      match s.calls t with
      | some (.exchange newSink) =>
          some { s with
            pendingNewSink := some newSink
            calls := Function.update s.calls t (s.pendingNewSink.map .closePrev) }
      | some (.closePrev prev) =>
          some { s with
            ops := s.ops ++ closeFile prev.file
            calls := Function.update s.calls t none }
      | none => none
  | .poll =>
      if s.pc = .idle then
        some { s with pendingNewSink := none, pc := s.pendingNewSink.elim .idle .flush }
      else none
  | .writeStrAndEndl str =>
      if s.pc = .idle then some { s with ops := s.ops ++ [.fwrite s.file str], pc := .endl }
      else none
  | .destroy =>
      if s.pc = .idle ∧ ∀ t, s.calls t = none then
        some { s with
          pendingNewSink := none
          pc := s.pendingNewSink.elim .closeLast .closePending }
      else none
  | .next => nextStep s

/-- What an action can do, and where its party has to be. -/
inductive Acts [DecidableEq ι] (s : Machine ι) : Action ι → Machine ι → Prop
  | queueNull {t : ι} {mode : ℤ} {size : ℕ} : Acts s (.queueNewSink t none mode size) s
  | queueNew {t : ι} {f : File} {mode : ℤ} {size : ℕ} (husable : s.pc.usable = true)
      (hcall : s.calls t = none) :
      Acts s (.queueNewSink t (some f) mode size)
        { s with calls := Function.update s.calls t (some (.exchange ⟨f, mode, size⟩)) }
  | exchange {t : ι} {newSink : SinkDescriptor} (hcall : s.calls t = some (.exchange newSink)) :
      Acts s (.caller t)
        { s with
          pendingNewSink := some newSink
          calls := Function.update s.calls t (s.pendingNewSink.map .closePrev) }
  | closePrev {t : ι} {prev : SinkDescriptor} (hcall : s.calls t = some (.closePrev prev)) :
      Acts s (.caller t)
        { s with
          ops := s.ops ++ closeFile prev.file
          calls := Function.update s.calls t none }
  | poll (hpc : s.pc = .idle) :
      Acts s .poll
        { s with pendingNewSink := none, pc := s.pendingNewSink.elim .idle .flush }
  | writeStrAndEndl {str : List Char} (hpc : s.pc = .idle) :
      Acts s (.writeStrAndEndl str) { s with ops := s.ops ++ [.fwrite s.file str], pc := .endl }
  | destroy (hpc : s.pc = .idle) (hcalls : ∀ t, s.calls t = none) :
      Acts s .destroy
        { s with
          pendingNewSink := none
          pc := s.pendingNewSink.elim .closeLast .closePending }
  | flush {d : SinkDescriptor} (hpc : s.pc = .flush d) :
      Acts s .next { s with ops := s.ops ++ [.fflush s.file], pc := .closeOld d }
  | closeOld {d : SinkDescriptor} (hpc : s.pc = .closeOld d) :
      Acts s .next { s with ops := s.ops ++ closeFile s.file, pc := .install d }
  | install {d : SinkDescriptor} (hpc : s.pc = .install d) :
      Acts s .next
        { s with file := d.file, ops := s.ops ++ [.install d.file], pc := .setvbuf d }
  | setvbuf {d : SinkDescriptor} (hpc : s.pc = .setvbuf d) :
      Acts s .next
        { s with
          ops := s.ops ++ [.setvbuf s.file d.bufferingMode d.bufferSize]
          pc := .idle }
  | endl (hpc : s.pc = .endl) :
      Acts s .next { s with ops := s.ops ++ [.fputc s.file '\n'], pc := .idle }
  | closePending {d : SinkDescriptor} (hpc : s.pc = .closePending d) :
      Acts s .next { s with ops := s.ops ++ closeFile d.file, pc := .closeLast }
  | closeLast (hpc : s.pc = .closeLast) :
      Acts s .next { s with ops := s.ops ++ closeFile s.file, pc := .destroyed }

/-- **Every step is an action**, taken where it is enabled. -/
theorem acts_of_step [DecidableEq ι] [Fintype ι] {s s' : Machine ι} {a : Action ι}
    (h : step s a = some s') : Acts s a s' := by
  cases a with
  | queueNewSink t file mode size =>
      simp only [step] at h
      by_cases hcall : s.pc.usable ∧ s.calls t = none
      · rw [if_pos hcall] at h
        cases file with
        | none =>
            cases h
            exact .queueNull
        | some f =>
            cases h
            exact .queueNew hcall.1 hcall.2
      · rw [if_neg hcall] at h
        cases h
  | caller t =>
      rw [step] at h
      cases hcall : s.calls t with
      | none =>
          rw [hcall] at h
          cases h
      | some call =>
          rw [hcall] at h
          cases call with
          | exchange newSink =>
              cases h
              exact .exchange hcall
          | closePrev prev =>
              cases h
              exact .closePrev hcall
  | poll =>
      by_cases hpc : s.pc = .idle
      · rw [step, if_pos hpc] at h
        cases h
        exact .poll hpc
      · rw [step, if_neg hpc] at h
        cases h
  | writeStrAndEndl str =>
      by_cases hpc : s.pc = .idle
      · rw [step, if_pos hpc] at h
        cases h
        exact .writeStrAndEndl hpc
      · rw [step, if_neg hpc] at h
        cases h
  | destroy =>
      by_cases hpc : s.pc = .idle ∧ ∀ t, s.calls t = none
      · rw [step, if_pos hpc] at h
        cases h
        exact .destroy hpc.1 hpc.2
      · rw [step, if_neg hpc] at h
        cases h
  | next =>
      rw [step, nextStep] at h
      cases hpc : s.pc with
      | idle | destroyed =>
          rw [hpc] at h
          cases h
      | flush d =>
          rw [hpc] at h
          cases h
          exact .flush hpc
      | closeOld d =>
          rw [hpc] at h
          cases h
          exact .closeOld hpc
      | install d =>
          rw [hpc] at h
          cases h
          exact .install hpc
      | setvbuf d =>
          rw [hpc] at h
          cases h
          exact .setvbuf hpc
      | endl =>
          rw [hpc] at h
          cases h
          exact .endl hpc
      | closePending d =>
          rw [hpc] at h
          cases h
          exact .closePending hpc
      | closeLast =>
          rw [hpc] at h
          cases h
          exact .closeLast hpc

/-! ## The mailbox -/

/-- The file that lines go to once the switch under way is done, and the one that
waits. -/
def Machine.mailbox (s : Machine ι) : Mailbox File where
  current :=
    match s.pc with
    | .flush d | .closeOld d | .install d => d.file
    | _ => s.file
  pending := s.pendingNewSink.map SinkDescriptor.file

/-- What the steps do to the mailbox: the exchanges of the callers put a file there, those
of the backend look for one, and nothing else changes it. -/
def Machine.afterStep (s : Machine ι) : Action ι → Mailbox File
  | .caller t =>
      match s.calls t with
      | some (.exchange newSink) => s.mailbox.queue newSink.file
      | _ => s.mailbox
  | .poll => s.mailbox.poll
  | _ => s.mailbox

/-- **The handler is a mailbox of files**, up to its destructor. -/
theorem step_mailbox [DecidableEq ι] [Fintype ι] {s s' : Machine ι} {a : Action ι}
    (h : step s a = some s') (husable : s'.pc.usable = true) : s'.mailbox = s.afterStep a := by
  cases acts_of_step h with
  | queueNull | queueNew => rfl
  | exchange hcall | closePrev hcall =>
      simp only [Machine.afterStep, hcall]
      rfl
  | poll hpc =>
      cases hpending : s.pendingNewSink <;>
        simp [Machine.afterStep, Machine.mailbox, Mailbox.poll, hpc, hpending]
  | destroy => cases hpending : s.pendingNewSink <;> simp [Pc.usable, hpending] at husable
  | closePending | closeLast => cases husable
  | writeStrAndEndl hpc | flush hpc | closeOld hpc | install hpc | setvbuf hpc | endl hpc =>
      simp [Machine.afterStep, Machine.mailbox, hpc]

/-- Only the destructor makes the handler unusable. -/
theorem usable_of_step [DecidableEq ι] [Fintype ι] {s s' : Machine ι} {a : Action ι}
    (h : step s a = some s') (ha : a ≠ .destroy) : s'.pc.usable = s.pc.usable := by
  cases acts_of_step h with
  | poll hpc => cases hpending : s.pendingNewSink <;> simp [Pc.usable, hpc]
  | destroy => exact absurd rfl ha
  | queueNull | queueNew | exchange | closePrev => rfl
  | writeStrAndEndl hpc | flush hpc | closeOld hpc | install hpc | setvbuf hpc | endl hpc
  | closePending hpc | closeLast hpc => rw [hpc]; rfl

/-! ## Safety -/

/-- The files closed, one occurrence for each `fclose`. -/
def closed (ops : List Op) : List File :=
  ops.filterMap fun
    | .fclose f => some f
    | _ => none

/-- Nothing is done to a file that was closed before, and the standard streams are never
closed. -/
structure Safe (ops : List Op) : Prop where
  not_closed : ∀ pre op post, ops = pre ++ op :: post → op.file ∉ closed pre
  stdout_open : File.stdout ∉ closed ops
  stderr_open : File.stderr ∉ closed ops

/-- The files handed over, in the order of the calls. -/
def handedOver (as : List (Action ι)) : List File :=
  as.filterMap fun
    | .queueNewSink _ file _ _ => file
    | _ => none

/-- No file but the standard streams is handed over twice. -/
def HandedOverOnce (as : List (Action ι)) : Prop :=
  ∀ n, (handedOver as).count (.other n) ≤ 1

/-- What is asked of the handler: it is safe, and has closed every file once when it is
destroyed. -/
def Sound (as : List (Action ι)) (s : Machine ι) : Prop :=
  Safe s.ops ∧
    (s.pc = .destroyed → ∀ n, .other n ∈ handedOver as → (closed s.ops).count (.other n) = 1)

/-! ## Owners -/

section Owners
variable (n : ℕ)

def File.holds (f : File) : ℕ := if f = .other n then 1 else 0

def SinkDescriptor.holds (d : SinkDescriptor) : ℕ := d.file.holds n

def Call.holds : Call → ℕ
  | .exchange newSink => newSink.holds n
  | .closePrev prev => prev.holds n

/-- The descriptor in the hands of the backend or of the destructor. -/
def Pc.holds : Pc → ℕ
  | .flush d => d.holds n
  | .closeOld d => d.holds n
  | .install d => d.holds n
  | .closePending d => d.holds n
  | _ => 0

/-- The current file, except while it is closed. -/
def Machine.holdsFile (s : Machine ι) : ℕ :=
  match s.pc with
  | .install _ => 0
  | .destroyed => 0
  | _ => s.file.holds n

/-- How many of the places that hold a file hold this one. -/
def owners [Fintype ι] (s : Machine ι) : ℕ :=
  s.pendingNewSink.elim 0 (SinkDescriptor.holds n) +
    ∑ t, (s.calls t).elim 0 (Call.holds n) + s.pc.holds n + s.holdsFile n

end Owners

theorem File.holds_other (n : ℕ) : (File.other n).holds n = 1 := if_pos rfl

theorem count_closeFile (f : File) (n : ℕ) :
    (closed (closeFile f)).count (.other n) = f.holds n := by
  cases f with
  | stdout => rfl
  | stderr => rfl
  | other m =>
      by_cases h : m = n
      · simp [closeFile, closed, File.holds, h]
      · simp [closeFile, closed, File.holds, h]

/-- The file an operation closes. -/
def Op.closes : Op → Option File
  | .fclose f => some f
  | _ => none

theorem closed_append (as bs : List Op) : closed (as ++ bs) = closed as ++ closed bs :=
  Lifetime.ended_append Op.closes as bs

/-- Changing the call of one thread changes the sum by what that thread holds. -/
theorem sum_calls_update [DecidableEq ι] [Fintype ι] (n : ℕ) (calls : ι → Option Call) (t : ι)
    (c : Option Call) :
    ∑ u, (Function.update calls t c u).elim 0 (Call.holds n) + (calls t).elim 0 (Call.holds n)
      = ∑ u, (calls u).elim 0 (Call.holds n) + c.elim 0 (Call.holds n) :=
  Lifetime.sum_update_add calls t c fun c => c.elim 0 (Call.holds n)

section Step
variable [DecidableEq ι] [Fintype ι] {s s' : Machine ι}

/-- **A step gives a file one more owner when it is handed over, and one fewer when it is
closed.** -/
theorem step_count (n : ℕ) {a : Action ι} (h : step s a = some s') :
    (closed s'.ops).count (.other n) + owners n s'
      = (closed s.ops).count (.other n) + owners n s + (handedOver [a]).count (.other n) := by
  have hclose := count_closeFile s.file n
  cases acts_of_step h with
  | queueNull => simp [handedOver]
  | @queueNew t f mode size husable hcall =>
      have hsum := sum_calls_update n s.calls t (some (.exchange ⟨f, mode, size⟩))
      rw [hcall] at hsum
      simp only [Option.elim, Call.holds, SinkDescriptor.holds] at hsum
      have hcount : (handedOver [Action.queueNewSink t (some f) mode size]).count (.other n)
          = f.holds n := by
        by_cases hf : f = .other n
        · simp [handedOver, File.holds, hf]
        · simp [handedOver, File.holds, hf]
      rw [hcount]
      simp only [owners, Machine.holdsFile, Option.elim] at hsum ⊢
      omega
  | @exchange t newSink hcall =>
      have hnone : (handedOver [Action.caller t]).count (.other n) = 0 := rfl
      rw [hnone]
      have hsum := sum_calls_update n s.calls t (s.pendingNewSink.map .closePrev)
      rw [hcall] at hsum
      cases hp : s.pendingNewSink with
      | none =>
          simp only [hp, Option.map_none, Option.elim, Call.holds] at hsum
          simp only [owners, Machine.holdsFile, hp, Option.map_none, Option.elim] at hsum ⊢
          omega
      | some prev =>
          simp only [hp, Option.map_some, Option.elim, Call.holds] at hsum
          simp only [owners, Machine.holdsFile, hp, Option.map_some, Option.elim] at hsum ⊢
          omega
  | @closePrev t prev hcall =>
      have hnone : (handedOver [Action.caller t]).count (.other n) = 0 := rfl
      rw [hnone]
      have hsum := sum_calls_update n s.calls t none
      rw [hcall] at hsum
      simp only [Option.elim, Call.holds, SinkDescriptor.holds] at hsum
      simp only [owners, Machine.holdsFile, closed_append, List.count_append, count_closeFile,
        Option.elim] at hsum ⊢
      omega
  | poll hpc =>
      cases hp : s.pendingNewSink with
      | none => simp [owners, Machine.holdsFile, Pc.holds, hp, hpc, handedOver]
      | some d =>
          simp only [owners, Machine.holdsFile, Pc.holds, hp, hpc, handedOver, Option.elim,
            List.filterMap_cons, List.filterMap_nil, List.count_nil]
          omega
  | destroy hpc =>
      cases hp : s.pendingNewSink with
      | none => simp [owners, Machine.holdsFile, Pc.holds, hp, hpc, handedOver]
      | some d =>
          simp only [owners, Machine.holdsFile, Pc.holds, hp, hpc, handedOver, Option.elim,
            List.filterMap_cons, List.filterMap_nil, List.count_nil]
          omega
  | writeStrAndEndl hpc | flush hpc | setvbuf hpc | endl hpc =>
      simp [owners, Machine.holdsFile, Pc.holds, hpc, closed, handedOver]
  | install hpc =>
      simp [owners, Machine.holdsFile, Pc.holds, hpc, closed, handedOver, SinkDescriptor.holds]
  | closeOld hpc | closeLast hpc =>
      have hnone : (handedOver [(.next : Action ι)]).count (.other n) = 0 := rfl
      simp only [owners, Machine.holdsFile, Pc.holds, hpc, closed_append, List.count_append, hclose,
        hnone]
      omega
  | closePending hpc =>
      have hnone : (handedOver [(.next : Action ι)]).count (.other n) = 0 := rfl
      simp only [owners, Machine.holdsFile, Pc.holds, hpc, closed_append, List.count_append,
        count_closeFile, SinkDescriptor.holds, hnone]
      omega

/-- Over a run every file has as many owners as it was handed over, less the times it was
closed. -/
theorem exec_count (n : ℕ) {as : List (Action ι)} (he : exec step s as = some s') :
    (closed s'.ops).count (.other n) + owners n s'
      = (closed s.ops).count (.other n) + owners n s + (handedOver as).count (.other n) := by
  induction as generalizing s with
  | nil =>
      cases he
      rfl
  | cons a as ih =>
      obtain ⟨s₁, hstep, hrest⟩ := exec_cons_eq_some.mp he
      have hcount := step_count n hstep
      have hsplit : handedOver (a :: as) = handedOver [a] ++ handedOver as :=
        List.filterMap_append (l := [a])
      rw [ih hrest, hcount, hsplit, List.count_append]
      omega

end Step

/-! ## Every call is made by an owner -/

namespace Safe
variable {ops : List Op}

theorem nil : Safe [] := ⟨by simp, by simp [closed], by simp [closed]⟩

theorem noUseAfter (h : Safe ops) :
    Lifetime.NoUseAfter (fun op : Op => some op.file) Op.closes ops := by
  intro pre op post heq f hf
  cases hf
  exact h.not_closed pre op post heq

/-- One more operation is safe when its file is open, and is not a standard stream that
gets closed. -/
theorem append (h : Safe ops) {op : Op} (hopen : op.file ∉ closed ops)
    (hout : op ≠ .fclose .stdout) (herr : op ≠ .fclose .stderr) : Safe (ops ++ [op]) where
  not_closed := by
    intro pre op' post heq
    refine h.noUseAfter.append ?_ pre op' post heq op'.file rfl
    intro f hf
    cases hf
    exact hopen
  stdout_open := by
    rw [closed_append, List.mem_append, not_or]
    refine ⟨h.stdout_open, ?_⟩
    cases op <;> simp_all [closed, eq_comm]
  stderr_open := by
    rw [closed_append, List.mem_append, not_or]
    refine ⟨h.stderr_open, ?_⟩
    cases op <;> simp_all [closed, eq_comm]

/-- A file with an owner is open, when there are never two. -/
theorem open_of_holds (h : Safe ops) {f : File}
    (hle : ∀ n, (closed ops).count (.other n) + f.holds n ≤ 1) : f ∉ closed ops := by
  cases f with
  | stdout => exact h.stdout_open
  | stderr => exact h.stderr_open
  | other n =>
      have hn := hle n
      rw [File.holds_other] at hn
      exact List.count_eq_zero.mp (by omega)

theorem append_closeFile (h : Safe ops) {f : File}
    (hle : ∀ n, (closed ops).count (.other n) + f.holds n ≤ 1) : Safe (ops ++ closeFile f) := by
  by_cases hstd : f ≠ .stdout ∧ f ≠ .stderr
  · rw [closeFile, if_pos hstd]
    exact h.append (h.open_of_holds hle) (by simp [hstd.1]) (by simp [hstd.2])
  · rwa [closeFile, if_neg hstd, List.append_nil]

end Safe

section Step
variable [DecidableEq ι] [Fintype ι] {s s' : Machine ι}

/-- What a place holds is among what all places hold. -/
theorem call_holds_le_owners (n : ℕ) {t : ι} {c : Call} (h : s.calls t = some c) :
    c.holds n ≤ owners n s := by
  have hsum := sum_calls_update n s.calls t none
  simp only [h, Option.elim] at hsum
  simp only [owners, Option.elim]
  omega

omit [DecidableEq ι] in
/-- The current file is open, while it is there. -/
theorem file_holds_le (hle : ∀ n, (closed s.ops).count (.other n) + owners n s ≤ 1)
    (hfile : ∀ n, s.holdsFile n = s.file.holds n) (n : ℕ) :
    (closed s.ops).count (.other n) + s.file.holds n ≤ 1 := by
  have hn := hle n
  rw [owners, hfile] at hn
  omega

/-- **A step is safe while no file has two owners, or an owner after it was closed.** -/
theorem step_safe {a : Action ι} (h : step s a = some s') (hs : Safe s.ops)
    (hle : ∀ n, (closed s.ops).count (.other n) + owners n s ≤ 1) : Safe s'.ops := by
  cases acts_of_step h with
  | queueNull | queueNew | exchange | poll | destroy => exact hs
  | closePrev hcall =>
      refine hs.append_closeFile fun n => ?_
      have hprev := call_holds_le_owners n hcall
      have hn := hle n
      simp only [Call.holds, SinkDescriptor.holds] at hprev
      omega
  | writeStrAndEndl hpc | flush hpc | setvbuf hpc | endl hpc =>
      have hfile := file_holds_le hle fun n => by rw [Machine.holdsFile, hpc]
      exact hs.append (hs.open_of_holds hfile) (by simp) (by simp)
  | closeOld hpc | closeLast hpc =>
      exact hs.append_closeFile (file_holds_le hle fun n => by rw [Machine.holdsFile, hpc])
  | install hpc =>
      refine hs.append (hs.open_of_holds fun n => ?_) (by simp) (by simp)
      have hn := hle n
      simp only [owners, Pc.holds, SinkDescriptor.holds, hpc, Op.file] at hn ⊢
      omega
  | closePending hpc =>
      refine hs.append_closeFile fun n => ?_
      have hn := hle n
      simp only [owners, Pc.holds, SinkDescriptor.holds, hpc] at hn
      omega

theorem exec_safe {as : List (Action ι)} (he : exec step s as = some s') (hs : Safe s.ops)
    (hle : ∀ n, (closed s.ops).count (.other n) + owners n s + (handedOver as).count (.other n) ≤ 1) :
    Safe s'.ops := by
  induction as generalizing s with
  | nil =>
      cases he
      exact hs
  | cons a as ih =>
      obtain ⟨s₁, hstep, hrest⟩ := exec_cons_eq_some.mp he
      have hsplit : handedOver (a :: as) = handedOver [a] ++ handedOver as :=
        List.filterMap_append (l := [a])
      simp only [hsplit, List.count_append] at hle
      refine ih hrest (step_safe hstep hs fun n => ?_) fun n => ?_
      · have hn := hle n
        omega
      · have hn := hle n
        have hcount := step_count n hstep
        omega

/-! ## After the destructor -/

/-- Once the destructor has begun nothing is pending and no call is left. -/
def Quiet (s : Machine ι) : Prop :=
  s.pc.usable = false → s.pendingNewSink = none ∧ ∀ t, s.calls t = none

theorem step_quiet {a : Action ι} (hq : Quiet s) (h : step s a = some s') : Quiet s' := by
  have hbusy : ∀ {t : ι} {c : Call}, s.calls t = some c → ¬ s.pc.usable = false := by
    intro t c hcall hpc
    rw [(hq hpc).2 t] at hcall
    cases hcall
  cases acts_of_step h with
  | queueNull => exact hq
  | queueNew husable hcall =>
      intro hpc
      rw [husable] at hpc
      cases hpc
  | exchange hcall | closePrev hcall => exact fun hpc => absurd hpc (hbusy hcall)
  | poll => cases s.pendingNewSink <;> simp [Quiet, Pc.usable]
  | destroy hpc hcalls => exact fun _ => ⟨rfl, hcalls⟩
  | writeStrAndEndl | flush | closeOld | install | setvbuf | endl =>
      intro hend
      cases hend
  | closePending hpc | closeLast hpc => exact fun _ => hq (by rw [hpc]; rfl)

omit [DecidableEq ι] in
theorem Quiet.owners_eq_zero (hq : Quiet s) (h : s.pc = .destroyed) (n : ℕ) : owners n s = 0 := by
  obtain ⟨hpending, hcalls⟩ := hq (by rw [h]; rfl)
  simp [owners, Machine.holdsFile, Pc.holds, h, hpending, hcalls]

omit [DecidableEq ι] in
theorem owners_init (n : ℕ) : owners n (init : Machine ι) = 0 := by
  simp [owners, Machine.holdsFile, Pc.holds, init, File.holds]

/-- **When no file is handed over twice**, nothing is done to a closed one. -/
theorem safe_of_handedOverOnce {as : List (Action ι)} (honce : HandedOverOnce as)
    (he : exec step init as = some s) : Safe s.ops := by
  refine exec_safe he Safe.nil fun n => ?_
  rw [owners_init]
  simpa [init, closed] using honce n

/-- **The handler is sound when no file is handed over twice, and in a complete run only
then.** -/
theorem exec_sound_iff {as : List (Action ι)} (he : exec step init as = some s) :
    (HandedOverOnce as → Sound as s) ∧ (s.pc = .destroyed → (Sound as s ↔ HandedOverOnce as)) := by
  have hcount : ∀ n, (closed s.ops).count (.other n) + owners n s
      = (handedOver as).count (.other n) := by
    intro n
    have hn := exec_count n he
    rw [owners_init] at hn
    simpa [init, closed] using hn
  have hquiet : Quiet s :=
    exec_induction Quiet (fun _ _ _ hq hstep => step_quiet hq hstep)
      (by simp [Quiet, init, Pc.usable]) he
  have honce : HandedOverOnce as → Sound as s := by
    intro h
    refine ⟨safe_of_handedOverOnce h he, fun hpc n hmem => ?_⟩
    have hn := hcount n
    have hpos := List.count_pos_iff.mpr hmem
    have hle := h n
    rw [hquiet.owners_eq_zero hpc n] at hn
    omega
  refine ⟨honce, fun hpc => ⟨fun hsound n => ?_, honce⟩⟩
  have hn := hcount n
  rw [hquiet.owners_eq_zero hpc n] at hn
  by_cases hmem : File.other n ∈ handedOver as
  · have hone := hsound.2 hpc n hmem
    omega
  · have hzero := List.count_eq_zero.mpr hmem
    omega

end Step

/-- One thread hands over two files, the second before the first is installed, then
`stdout`, and the handler is destroyed. -/
def switchRun : List (Action Unit) :=
  [.queueNewSink () (some (.other 0)) 1 1024, .caller (), .queueNewSink () (some (.other 1)) 1 1024,
    .caller (), .caller (), .poll, .next, .next, .next, .next, .writeStrAndEndl ['a'], .next,
    .queueNewSink () (some .stdout) 0 1024, .caller (), .destroy, .next, .next]

theorem exec_sound_switchRun :
    ∃ s, exec step init switchRun = some s ∧ s.pc = .destroyed ∧ Sound switchRun s := by
  have honce : HandedOverOnce switchRun := by
    intro n
    exact List.nodup_iff_count_le_one.mp (by decide) _
  exact ⟨_, rfl, rfl, (exec_sound_iff rfl).1 honce⟩

/-- The current sink is handed over again with another buffer size. -/
def rebufferRun : List (Action Unit) :=
  [.queueNewSink () (some (.other 0)) 1 1024, .caller (), .poll, .next, .next, .next, .next,
    .queueNewSink () (some (.other 0)) 0 65536, .caller (), .poll, .next, .next, .next]

/-- The file is installed after it was closed. -/
theorem exec_unsound_rebufferRun :
    ∃ s, exec step init rebufferRun = some s ∧ ¬ Sound rebufferRun s := by
  refine ⟨_, rfl, fun hsound => ?_⟩
  have hopen := hsound.1.not_closed
    [.fflush .stdout, .install (.other 0), .setvbuf (.other 0) 1 1024, .fflush (.other 0),
      .fclose (.other 0)] (.install (.other 0)) [] rfl
  exact hopen (by decide)

end Papper.Sink
