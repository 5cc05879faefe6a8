import Papper.Logger
import Papper.System.Backend
import Papper.System.Drain
import Papper.System.Loss
import Papper.ThreadList.Register

/-!
# The program is the logger

The rings of bytes, the list of nodes, the loads of shared variables and the loop of the
backend are an implementation of `Logger`: every step of the program is a step of the logger,
or none.  A thread joins by the compare-exchange that inserts its node, an entry is accepted by
the store of `commit_write`, processed by the load of the minimum level, and a thread leaves
when its node is unlinked.

The one thing that can go wrong is the race at the end of a thread: a thread that ends between
the two loads of the backend, with an event committed in between, leaves the list with an entry
pending, which the logger does not allow.  So the runs are those in which no thread does.

## Main definitions

* `State.logger` — the state of the logger that a state of the program stands for.
* `meaning` — the steps of the logger that a step of the program stands for.
* `exec_logger` — the runs of the program are runs of the logger.
-/

namespace Papper.System

open Transition

variable {P : Program} {ι κ : Type}

/-! ## What a state stands for -/

/-- What is handed over by an event. -/
def Push.entry (p : Push P) : Logger.Entry P := ⟨p.event.call, p.event.timestamp⟩

/-- The name of the thread, once it has one. -/
def Thread.name? (t : Thread P κ) : Option (List Char) :=
  if t.handler = .notConstructed then none else some t.context.name

/-- What is left of a thread when so many of its events are processed. -/
def Thread.waiting (t : Thread P κ) (n : ℕ) : List (Logger.Entry P) :=
  (t.accepted.drop n).map Push.entry

/-- A line without the numbers of its settings. -/
def Line.written (l : Line) : Logger.Line := ⟨l.data, l.formatter.value, l.sink.value⟩

/-- What was written of an event. -/
def Processed.written (r : Processed ι) : Option (ι × Logger.Line) :=
  r.line.map fun l => (r.thread, l.written)

variable [DecidableEq ι]

def State.logger (s : State P ι κ) : Logger.State P ι where
  name := fun i => (s.threads i).name?
  unnamed := s.unnamedThreadCounter
  members := s.list.members
  ended := fun i => decide ((s.threads i).handler = .destroyed)
  pending := fun i => (s.threads i).waiting (recordsOf s.processed i).length
  minLogLevel := s.minLogLevel
  sink := s.sink.values
  formatter := s.formatter.values
  running := s.running
  exited := decide (s.loop = .exited)
  lines := s.processed.filterMap Processed.written

/-! ## What a step stands for -/

/-- A step of the backend. -/
def backendMeaning (s : State P ι κ) (localTime : ℤ) (s' : State P ι κ) :
    List (Logger.Action P ι) :=
  match s.loop with
  | .pollSink => [.pollSink]
  | .pollFormatter => [.pollFormatter]
  | .drainTop => if s.list.head = none then [.exit] else []
  | _ =>
      (s'.processed.drop s.processed.length).map (fun r => .process r.thread localTime) ++
        (s'.list.unlinked.drop s.list.unlinked.length).map .leave

/-- The steps of the logger that a step of the program stands for. -/
def meaning (s : State P ι κ) (a : Action P ι κ) (s' : State P ι κ) : List (Logger.Action P ι) :=
  match a with
  | .initThread i name _ _ =>
      if (s.threads i).handler = .notConstructed then [.create i name] else []
  | .log i _ _ _ => if (s.threads i).handler = .notConstructed then [.create i []] else []
  | .newNode _ _ => []
  | .registrar i _ => if s'.list.inserted = s.list.inserted then [] else [.join i]
  | .thread i =>
      ((s'.threads i).accepted.drop (s.threads i).accepted.length).map fun p => .accept i p.entry
  | .kill i => [.finish i]
  | .setLevel _ level => [.setLevel level]
  | .setSink _ file => [.setSink file]
  | .setFormatter _ formatter => [.setFormatter formatter]
  | .shutdown => [.shutdown]
  | .backend localTime => backendMeaning s localTime s'

/-! ## What the logger relies on -/

variable {s s' : State P ι κ} {i : ι}

/-- The backend is past its main loop. -/
def Loop.stopping : Loop → Bool
  | .drainTop | .drainPoll | .drainPass | .exited => true
  | _ => false

/-- The invariants of the runs that lose nothing. -/
structure Lossless (s : State P ι κ) : Prop where
  sane : Sane s
  registered : Registered s
  loss : LossInv s
  stopped : s.loop.stopping = true → s.running = false

/-- The backend leaves its main loop when it has found that it is to stop. -/
theorem stopped_backend (h : Sane s) (hstopped : s.loop.stopping = true → s.running = false)
    {localTime : ℤ} (hstep : backendStep s localTime = some s') :
    s'.loop.stopping = true → s'.running = false := by
  cases backendActs_of_backendStep hstep with
  | top hloop =>
      cases hrunning : s.running with
      | true => simp [Loop.stopping]
      | false => exact fun _ => rfl
  | pollSink hloop => simp [Loop.stopping]
  | pollFormatter hloop => simp [Loop.stopping]
  | drainTop hloop => exact fun _ => hstopped (by rw [hloop]; rfl)
  | poll hloop hlist =>
      intro hstopping
      apply hstopped
      cases hold : s.loop <;> rw [hold] at hloop <;> cases hloop
      · cases hstopping
      · rfl
  | @visit i v s' hloop hvisit hstep =>
      have hvisits := (visitStep_cases h.flow h.life hvisit hstep).visits
      intro hstopping
      rw [hvisits.running]
      rcases hvisits.loop with heq | heq
      · exact hstopped (heq ▸ hstopping)
      · rw [heq] at hstopping
        cases hstopping
  | list => exact hstopped
  | passEnd hloop hvisit hout =>
      intro hstopping
      apply hstopped
      cases hold : s.loop <;> rw [hold] at hloop <;> cases hloop
      · cases hstopping
      · rfl

theorem Lossless.step [DecidableEq κ] (h : Lossless s) {a : Action P ι κ} (hclient : Client s a)
    (htime : EndsInTime s a) (hstep : System.step s a = some s') : Lossless s' := by
  have hcases := step_cases h.sane.flow h.sane.life hclient hstep
  refine ⟨h.sane.step hclient hstep, h.registered.step h.sane hstep,
    LossInv.step h.loss h.sane.flow h.sane.life htime hcases, ?_⟩
  cases hcases with
  | construct ha hhandler hsize hstep =>
      obtain ⟨-, rfl⟩ := construct_eq_some hstep
      exact h.stopped
  | shutdown => exact fun _ => rfl
  | backend => exact stopped_backend h.sane h.stopped hstep
  | _ => exact h.stopped

theorem lossless_init : Lossless (init : State P ι κ) :=
  ⟨sane_init, fun _ hhandler => absurd rfl hhandler, lossInv_init, by simp [init, Loop.stopping]⟩

/-- A thread that has registered and not ended is in the list. -/
theorem Lossless.mem_members (h : Lossless s) (hhandler : (s.threads i).handler = .constructed)
    (hdone : s.list.registration i = .done) : i ∈ s.list.members := by
  have hsound := ThreadList.reachable_sound h.sane.life.reachable
  refine ThreadList.mem_members.mpr
    ⟨ThreadList.reachable_inserted h.sane.life.reachable i hdone, fun hunlinked => ?_⟩
  have hdestroyed := (h.sane.life.thread i).requested (hsound.unlinked_requested.subset hunlinked)
  rw [hhandler] at hdestroyed
  cases hdestroyed

/-- There are no more records of a thread than events. -/
theorem FlowInv.length_recordsOf_le (h : FlowInv s) (i : ι) :
    (recordsOf s.processed i).length ≤ (s.threads i).accepted.length := by
  obtain ⟨n, hmatches⟩ := h.exists_matches i
  rw [hmatches.length_eq]
  exact hmatches.le

/-! ## The steps of the threads -/

/-- A step of one thread. -/
theorem logger_update (t : Thread P κ) (names : UInt64 → Option ι) (unnamed : Int32) (used : Bool) :
    ({ s with
        threads := Function.update s.threads i t
        names := names
        unnamedThreadCounter := unnamed
        usedDeletedQueue := used } : State P ι κ).logger =
      { s.logger with
        name := Function.update s.logger.name i t.name?
        unnamed := unnamed
        ended := Function.update s.logger.ended i (decide (t.handler = .destroyed))
        pending := Function.update s.logger.pending i
          (t.waiting (recordsOf s.processed i).length) } := by
  have hname := funext (Function.apply_update (fun _ => Thread.name?) s.threads i t)
  have hended := funext
    (Function.apply_update (fun _ t => decide (t.handler = .destroyed)) s.threads i t)
  have hpending := funext
    (Function.apply_update (fun j t => t.waiting (recordsOf s.processed j).length) s.threads i t)
  simp only [State.logger, hname, hended, hpending]

/-- A thread that keeps its name and its handler. -/
theorem logger_setThread (t : Thread P κ) (used : Bool) (hhandler : t.handler = (s.threads i).handler)
    (hname : t.context.name = (s.threads i).context.name) :
    ({ s.setThread i t with usedDeletedQueue := used } : State P ι κ).logger =
      { s.logger with
        pending := Function.update s.logger.pending i
          (t.waiting (recordsOf s.processed i).length) } := by
  have hname? : t.name? = s.logger.name i := by simp only [Thread.name?, hhandler, hname, State.logger]
  have hended : decide (t.handler = .destroyed) = s.logger.ended i := by
    simp only [hhandler, State.logger]
  have hlogger := logger_update (s := s) (i := i) t s.names s.unnamedThreadCounter used
  rw [hname?, hended, Function.update_eq_self, Function.update_eq_self] at hlogger
  exact hlogger

/-- A step of a thread that commits nothing. -/
theorem logger_of_accepted_eq (t : Thread P κ) (used : Bool)
    (hhandler : t.handler = (s.threads i).handler)
    (hname : t.context.name = (s.threads i).context.name)
    (haccepted : t.accepted = (s.threads i).accepted) :
    ({ s.setThread i t with usedDeletedQueue := used } : State P ι κ).logger = s.logger := by
  have hwaiting : t.waiting (recordsOf s.processed i).length = s.logger.pending i := by
    simp only [Thread.waiting, haccepted, State.logger]
  rw [logger_setThread t used hhandler hname, hwaiting, Function.update_eq_self]

/-- The construction of a handler. -/
theorem logger_construct (hhandler : (s.threads i).handler = .notConstructed) {name : List Char}
    {queueSize : ℕ} {namePtr : UInt64} {request : Option (Request P κ)}
    (hstep : construct s i name queueSize namePtr request = some s') :
    Logger.step s.logger (.create i name) = some s'.logger := by
  obtain ⟨-, rfl⟩ := construct_eq_some hstep
  have hnone : s.logger.name i = none := by simp [State.logger, Thread.name?, hhandler]
  let t : Thread P κ :=
    { s.threads i with
      handler := .constructed
      context :=
        ⟨threadName s.unnamedThreadCounter name, namePtr, Queue.Machine.new queueSize, true⟩
      pc := .registering request }
  have hname : t.name? = some (threadName s.logger.unnamed name) := rfl
  have hended : decide (t.handler = .destroyed) = s.logger.ended i := by
    simp [t, State.logger, hhandler]
  have hpending : t.waiting (recordsOf s.processed i).length = s.logger.pending i := rfl
  have hlogger := logger_update (s := s) (i := i) t (Function.update s.names namePtr (some i))
    (if name = [] then s.unnamedThreadCounter + 1 else s.unnamedThreadCounter) s.usedDeletedQueue
  rw [hname, hended, hpending, Function.update_eq_self, Function.update_eq_self] at hlogger
  rw [Logger.step, if_pos hnone]
  exact congrArg some hlogger.symm

/-- The compare-exchange that inserts a node. -/
theorem Lossless.logger_registrar (h : Lossless s) {spurious : Bool} {list' : ThreadList.State ι}
    (hpc : (s.threads i).pc.isIdle = false)
    (hlist : ThreadList.step s.list (.registrar i spurious) = some list') :
    exec Logger.step s.logger (if list'.inserted = s.list.inserted then [] else [.join i])
      = some ({ s with list := list' } : State P ι κ).logger := by
  obtain ⟨l, hinv⟩ := h.sane.exists_list
  have hsame : ∀ list'' : ThreadList.State ι, list''.members = s.list.members →
      ({ s with list := list'' } : State P ι κ).logger = s.logger := by
    intro list'' hmembers
    simp only [State.logger, hmembers]
  cases hinv.registerStep hlist with
  | @insert n node hi hn hhead hspurious =>
      obtain ⟨hhandler, -⟩ := Life.of_not_idle h.sane.life hpc
      have hfresh : i ∉ s.list.inserted := (hinv.registering_fresh (by rw [hi]; rfl)).1
      have hmember : i ∉ s.list.members := fun hmem => hfresh (ThreadList.mem_members.mp hmem).1
      have hjoin : s.logger.name i ≠ none ∧ s.logger.ended i = false ∧ i ∉ s.logger.members := by
        refine ⟨?_, ?_, hmember⟩
        · simp [State.logger, Thread.name?, hhandler]
        · simp [State.logger, hhandler]
      have hunlinked : i ∉ s.list.unlinked := fun hmem => hfresh (hinv.unlinked_inserted i hmem)
      rw [if_neg (by simp), exec_cons, Logger.step, if_pos hjoin, Option.bind_some, exec_nil]
      simp [State.logger, ThreadList.State.members, hunlinked]
  | _ =>
      rw [if_pos rfl, exec_nil]
      exact congrArg some (hsame _ rfl).symm

/-- A thread outside of `register_thread` that has something to do is in the list. -/
theorem Lossless.isOpen (h : Lossless s) (hpc : ∀ request, (s.threads i).pc ≠ .registering request)
    (hhandler : (s.threads i).handler = .constructed) :
    i ∈ s.logger.members ∧ s.logger.ended i = false := by
  refine ⟨h.mem_members hhandler (h.registered.done (by rw [hhandler]; simp) hpc), ?_⟩
  simp [State.logger, hhandler]

variable [DecidableEq κ]

/-- The other steps of a thread. -/
theorem Lossless.logger_threadStep (h : Lossless s) (hstep : threadStep s i = some s') :
    exec Logger.step s.logger
        (((s'.threads i).accepted.drop (s.threads i).accepted.length).map fun p =>
          .accept i p.entry)
      = some s'.logger := by
  have hsame : ∀ (t : Thread P κ) (used : Bool), t.handler = (s.threads i).handler →
      t.context.name = (s.threads i).context.name → t.accepted = (s.threads i).accepted →
      exec Logger.step s.logger
          (((({ s.setThread i t with usedDeletedQueue := used } : State P ι κ).threads i).accepted.drop
            (s.threads i).accepted.length).map fun p => .accept i p.entry)
        = some ({ s.setThread i t with usedDeletedQueue := used } : State P ι κ).logger := by
    intro t used hhandler hname haccepted
    rw [logger_of_accepted_eq t used hhandler hname haccepted]
    simp [State.setThread, haccepted]
  cases threadActs_of_threadStep hstep with
  | @commit p m res q hpc hproducer hq =>
      obtain ⟨hhandler, -⟩ := Life.of_not_idle h.sane.life (i := i) (by rw [hpc]; rfl)
      have hopen := h.isOpen (i := i) (by simp [hpc]) hhandler
      let t : Thread P κ :=
        { (s.threads i).setQueue q with pc := .idle, accepted := (s.threads i).accepted ++ [p] }
      have hdrop : t.accepted.drop (s.threads i).accepted.length = [p] := by simp [t]
      have hwaiting : t.waiting (recordsOf s.processed i).length = s.logger.pending i ++ [p.entry] := by
        have hle := h.sane.flow.length_recordsOf_le i
        simp [t, Thread.waiting, State.logger, List.drop_append_of_le_length hle]
      have hlogger : ((s.useQueue i).setThread i t).logger = _ :=
        logger_setThread (s := s) t (s.useQueue i).usedDeletedQueue rfl rfl
      rw [hwaiting] at hlogger
      have hthread : ((s.useQueue i).setThread i t).threads i = t := Function.update_self _ _ _
      rw [hthread, hdrop, List.map_singleton, exec_cons, Logger.step, if_pos hopen, Option.bind_some,
        exec_nil]
      exact congrArg some hlogger.symm
  | initialized => exact hsame _ _ rfl rfl rfl
  | registered => exact hsame _ _ rfl rfl rfl
  | reserve => exact hsame _ _ rfl rfl rfl
  | reload => exact hsame _ _ rfl rfl rfl
  | writeByte => exact hsame _ _ rfl rfl rfl

/-! ## The steps of the backend -/

omit [DecidableEq κ]

/-- What changes is nothing to the logger. -/
structure Quiet (s s' : State P ι κ) : Prop where
  threads : ∀ j, ∃ q, s'.threads j = (s.threads j).setQueue q
  unnamedThreadCounter : s'.unnamedThreadCounter = s.unnamedThreadCounter
  members : s'.list.members = s.list.members
  minLogLevel : s'.minLogLevel = s.minLogLevel
  sink : s'.sink = s.sink
  formatter : s'.formatter = s.formatter
  running : s'.running = s.running
  exited : s'.loop = .exited ↔ s.loop = .exited
  processed : s'.processed = s.processed

theorem Quiet.logger (h : Quiet s s') : s'.logger = s.logger := by
  have hthread : ∀ j, (s'.threads j).name? = (s.threads j).name? ∧
      ((s'.threads j).handler = .destroyed ↔ (s.threads j).handler = .destroyed) ∧
      ∀ n, (s'.threads j).waiting n = (s.threads j).waiting n := by
    intro j
    obtain ⟨q, hq⟩ := h.threads j
    rw [hq]
    exact ⟨rfl, Iff.rfl, fun _ => rfl⟩
  simp only [State.logger, (hthread _).1, (hthread _).2.1, (hthread _).2.2, h.unnamedThreadCounter,
    h.members, h.minLogLevel, h.sink, h.formatter, h.running, h.exited, h.processed]

/-- Only the place of the backend changes. -/
theorem quiet_loop {loop : Loop} (hexited : loop = .exited ↔ s.loop = .exited) :
    Quiet s { s with loop := loop } :=
  ⟨fun _ => ⟨_, rfl⟩, rfl, rfl, rfl, rfl, rfl, rfl, hexited, rfl⟩

/-- A step of the backend at a context that processes no event. -/
theorem VisitStep.quiet {v : Visit} (h : VisitStep s i v s') (hv : v.isLevel = false)
    (hinv : ∃ l, ThreadList.Inv l s.list) (hloop : s.loop ≠ .exited) :
    Quiet s s' ∧ s'.list.unlinked = s.list.unlinked := by
  have hthreads : ∀ (q : Queue.Machine) (j : ι), ∃ q',
      Function.update s.threads i ((s.threads i).setQueue q) j = (s.threads j).setQueue q' := by
    intro q j
    by_cases hj : j = i
    · subst hj
      exact ⟨q, Function.update_self _ _ _⟩
    · exact ⟨_, Function.update_of_ne hj _ _⟩
  obtain ⟨l, hinv⟩ := hinv
  have hmembers : ∀ {dead : Bool} {list' : ThreadList.State ι},
      ThreadList.step s.list (.visit dead) = some list' →
        list'.members = s.list.members ∧ list'.unlinked = s.list.unlinked := by
    intro dead list' hlist
    obtain ⟨-, hinserted, hunlinked, -⟩ := hinv.visit_frame hlist
    refine ⟨?_, hunlinked⟩
    simp only [ThreadList.State.members, hinserted, hunlinked]
  cases h with
  | goOn => exact ⟨⟨hthreads _, rfl, rfl, rfl, rfl, rfl, rfl, Iff.rfl, rfl⟩, rfl⟩
  | processed => cases hv
  | terminated => exact ⟨quiet_loop (by simp [hloop]), rfl⟩
  | committed hthread hconsumer hlist =>
      exact ⟨⟨hthreads _, rfl, (hmembers hlist).1, rfl, rfl, rfl, rfl, Iff.rfl, rfl⟩,
        (hmembers hlist).2⟩
  | left hlist =>
      exact ⟨⟨fun _ => ⟨_, rfl⟩, rfl, (hmembers hlist).1, rfl, rfl, rfl, rfl, Iff.rfl, rfl⟩,
        (hmembers hlist).2⟩

omit [DecidableEq ι] in
/-- The next of the events that wait. -/
theorem Thread.waiting_eq_cons {t : Thread P κ} {n : ℕ} {p : Push P} (hp : t.accepted[n]? = some p) :
    t.waiting n = p.entry :: t.waiting (n + 1) := by
  obtain ⟨hlt, rfl⟩ := List.getElem?_eq_some_iff.mp hp
  rw [Thread.waiting, List.drop_eq_getElem_cons hlt, List.map_cons, Thread.waiting]

/-- One more record. -/
theorem waiting_recordsOf_concat (r : Processed ι) (hr : r.thread = i) :
    (fun j => (s.threads j).waiting (recordsOf (s.processed ++ [r]) j).length)
      = Function.update s.logger.pending i
          ((s.threads i).waiting ((recordsOf s.processed i).length + 1)) := by
  funext j
  by_cases hj : j = i
  · subst hj
    rw [recordsOf_concat_self hr, List.length_append, List.length_singleton, Function.update_self]
  · rw [recordsOf_concat_of_ne (by rw [hr]; exact Ne.symm hj), Function.update_of_ne hj]
    rfl

/-- The load of the minimum level, and what becomes of the entry. -/
theorem logger_processEvent (hflow : FlowInv s) (hlife : LifeInv s) (hloop : s.loop ≠ .exited)
    {event : ReadEvent} {message : List Char} (hvisit : s.visit = some (i, .level event message))
    (localTime : ℤ) :
    Logger.step s.logger (.process i localTime)
      = some (processEvent s i event message localTime).logger := by
  obtain ⟨l, hlist⟩ := hlife.exists_inv
  have hvisited := hlife.visited hvisit
  obtain ⟨-, hlive, hconstructed⟩ := Life.of_visited hvisited
  obtain ⟨hmember, -⟩ := hlist.visiting_member hvisited.visited_eq.symm
  have hconsumer := hflow.consumer i
  rw [hvisit, visitOf, if_pos rfl] at hconsumer
  obtain ⟨p, res, hp, -, rfl, htext, hmatches⟩ := hconsumer
  rw [← hmatches.length_eq] at hp
  have hline : s.names p.event.threadName = some i := by
    rw [(hflow.thread i).named p (List.mem_of_getElem? hp)]
    exact (hlife.thread i).names_eq hconstructed hlive
  have hpending : s.logger.pending i
      = p.entry :: (s.threads i).waiting ((recordsOf s.processed i).length + 1) :=
    Thread.waiting_eq_cons hp
  have hname : s.logger.name i = some (s.threads i).context.name := if_neg hconstructed
  have hopen : s.logger.exited = false ∧ i ∈ s.logger.members := ⟨decide_eq_false hloop, hmember⟩
  simp only [Logger.step, hpending, hname, if_pos hopen]
  by_cases hlevel : p.event.call.site.level < s.minLogLevel
  · have hnone : s.logger.linesOf i p.entry (s.threads i).context.name localTime = some [] :=
      if_pos hlevel
    have hprocess : processEvent s i (p.readAt res.buffer) message localTime
        = { s with
            processed := s.processed ++ [⟨i, p.readAt res.buffer, s.minLogLevel, none⟩]
            visit := some (i, .commit p.event.header.totalEventSize) } := if_pos hlevel
    rw [hnone, hprocess, Option.map_some, List.append_nil]
    simp only [State.logger, waiting_recordsOf_concat _ rfl, List.filterMap_append]
    simp [Processed.written]
  · let line : Line :=
      { data := (p.readAt res.buffer).patternData (s.threads i).context.name localTime message
        formatter := s.formatter.current
        sink := s.sink.current }
    have hsome : s.logger.linesOf i p.entry (s.threads i).context.name localTime
        = some [(i, line.written)] := by
      have hmessage : p.entry.message = some message := htext
      have hkept : ¬ p.entry.call.site.level < s.logger.minLogLevel := hlevel
      rw [Logger.State.linesOf, if_neg hkept, hmessage]
      rfl
    have hline? : s.line? (p.readAt res.buffer) localTime message = some line := by
      rw [State.line?]
      exact congrArg (Option.map _) hline
    have hprocess : processEvent s i (p.readAt res.buffer) message localTime
        = { s with
            processed := s.processed ++ [⟨i, p.readAt res.buffer, s.minLogLevel, some line⟩]
            visit := some (i, .commit p.event.header.totalEventSize) } := by
      have hkept : ¬ (p.readAt res.buffer).site.level < s.minLogLevel := hlevel
      simp only [processEvent, if_neg hkept, hline?]
      rfl
    rw [hsome, hprocess, Option.map_some]
    simp only [State.logger, waiting_recordsOf_concat _ rfl, List.filterMap_append]
    simp [Processed.written]

/-- A node that is unlinked is that of a thread that has ended and has nothing left. -/
theorem Lossless.logger_list (h : Lossless s) {list' : ThreadList.State ι} (hloop : s.loop ≠ .exited)
    (hlist : ThreadList.step s.list .backend = some list') {names : UInt64 → Option ι}
    {visit : Option (ι × Visit)} :
    exec Logger.step s.logger ((list'.unlinked.drop s.list.unlinked.length).map .leave)
      = some ({ s with list := list', names := names, visit := visit } : State P ι κ).logger := by
  obtain ⟨l, hinv⟩ := h.sane.exists_list
  have hlist' := hlist
  simp only [ThreadList.step, hinv.fault, Bool.false_eq_true, if_false] at hlist'
  have hunlinks := ThreadList.unlinks_of_backend hlist'
  rcases hunlinks.unlinked with ⟨-, hunlinked⟩ | ⟨j, hunlinked⟩
  · have hmembers : list'.members = s.list.members := by
      simp only [ThreadList.State.members, hunlinks.inserted, hunlinked]
    have hquiet : Quiet s { s with list := list', names := names, visit := visit } :=
      ⟨fun _ => ⟨_, rfl⟩, rfl, hmembers, rfl, rfl, rfl, rfl, Iff.rfl, rfl⟩
    rw [hunlinked, List.drop_length, List.map_nil, exec_nil]
    exact congrArg some hquiet.logger.symm
  · have hsound := ThreadList.reachable_sound (h.sane.life.reachable.trans (.of_step hlist))
    have hrequested : j ∈ s.list.requested := by
      rw [← (ThreadList.walks_of_backend hlist).requested]
      exact hsound.unlinked_requested.subset (by simp [hunlinked])
    have hnodup := hsound.requested_once.sublist hsound.unlinked_requested.sublist
    rw [hunlinked] at hnodup
    have hfresh : j ∉ s.list.unlinked := by
      intro hmem
      exact (List.nodup_append.mp hnodup).2.2 j hmem j (List.mem_singleton_self j) rfl
    obtain ⟨l', hinv'⟩ := hinv.step hlist
    have hinserted : j ∈ s.list.inserted := by
      rw [← hunlinks.inserted]
      exact hinv'.unlinked_inserted j (by simp [hunlinked])
    have hleave : s.logger.exited = false ∧ j ∈ s.logger.members ∧ s.logger.ended j = true ∧
        s.logger.pending j = [] := by
      refine ⟨decide_eq_false hloop, ThreadList.mem_members.mpr ⟨hinserted, hfresh⟩,
        decide_eq_true ((h.sane.life.thread j).requested hrequested), ?_⟩
      obtain ⟨n, hle, hmatches⟩ := h.sane.flow.exists_matches_ge j
      have hdrained := h.loss.requested j hrequested
      rw [Thread.Drained] at hdrained
      rw [hdrained, ← hmatches.length_eq] at hle
      simp only [State.logger, Thread.waiting, List.drop_eq_nil_of_le hle, List.map_nil]
    have hmembers : list'.members = s.list.members.erase j := by
      have hnodup' : s.list.members.Nodup := hinv.inserted_nodup.filter _
      rw [hnodup'.erase_eq_filter]
      simp only [ThreadList.State.members, hunlinks.inserted, hunlinked, List.filter_filter]
      refine List.filter_congr fun i _ => ?_
      by_cases hi : i = j <;> simp [hi]
    rw [hunlinked, List.drop_left, List.map_singleton, exec_cons, Logger.step, if_pos hleave,
      Option.bind_some, exec_nil]
    simp only [State.logger, hmembers]

/-- **A step of the backend.** -/
theorem Lossless.logger_backendStep (h : Lossless s) {localTime : ℤ}
    (hstep : backendStep s localTime = some s') :
    exec Logger.step s.logger (backendMeaning s localTime s') = some s'.logger := by
  have hinv := h.sane.exists_list
  have hquiet : Quiet s s' → s.loop ≠ .pollSink → s.loop ≠ .pollFormatter → s.loop ≠ .drainTop →
      s'.list.unlinked = s.list.unlinked →
      exec Logger.step s.logger (backendMeaning s localTime s') = some s'.logger := by
    intro hquiet hsink hformatter hdrain hunlinked
    have hnil : backendMeaning s localTime s' = [] := by
      unfold backendMeaning
      split <;> simp_all [hquiet.processed]
    rw [hnil, exec_nil, hquiet.logger]
  cases backendActs_of_backendStep hstep with
  | top hloop =>
      refine hquiet (quiet_loop ?_) (by simp [hloop]) (by simp [hloop]) (by simp [hloop]) rfl
      cases s.running <;> simp [hloop]
  | pollSink hloop =>
      have hopen : s.logger.exited = false := by simp [State.logger, hloop]
      simp only [backendMeaning, hloop, exec_cons, Logger.step, if_pos hopen, Option.bind_some,
        exec_nil]
      simp [State.logger, hloop]
  | pollFormatter hloop =>
      have hopen : s.logger.exited = false := by simp [State.logger, hloop]
      simp only [backendMeaning, hloop, exec_cons, Logger.step, if_pos hopen, Option.bind_some,
        exec_nil]
      simp [State.logger, hloop]
  | drainTop hloop =>
      have hopen : s.logger.exited = false := by simp [State.logger, hloop]
      by_cases hhead : s.list.head = none
      · obtain ⟨l, hinv⟩ := hinv
        have hexit : s.logger.running = false ∧ s.logger.members = [] :=
          ⟨h.stopped (by rw [hloop]; rfl), hinv.head_eq_none_iff.mp hhead⟩
        simp only [backendMeaning, hloop, if_pos hhead, exec_cons, Logger.step, if_pos hexit,
          Option.bind_some, exec_nil]
        simp [State.logger]
      · have hquiet : Quiet s { s with loop := .drainPoll } := quiet_loop (by simp [hloop])
        simp only [backendMeaning, hloop, if_neg hhead, exec_nil, hquiet.logger]
  | @poll inside list' hloop hlist =>
      obtain ⟨-, hinserted, hunlinked, -⟩ := ThreadList.poll_frame hlist
      have hmembers : list'.members = s.list.members := by
        simp only [ThreadList.State.members, hinserted, hunlinked]
      have hexited : inside = .exited ↔ s.loop = .exited := by
        cases hold : s.loop <;> rw [hold] at hloop <;> cases hloop <;> simp
      refine hquiet ⟨fun _ => ⟨_, rfl⟩, rfl, hmembers, rfl, rfl, rfl, rfl, hexited, rfl⟩ ?_ ?_ ?_
        hunlinked
      all_goals
        intro hold
        rw [hold] at hloop
        cases hloop
  | @visit i v s' hloop hvisit hstep =>
      have hcases := visitStep_cases h.sane.flow h.sane.life hvisit hstep
      have hne : ∀ loop : Loop, loop.inPass = false → s.loop ≠ loop := by
        rintro loop hpass rfl
        rw [hloop] at hpass
        cases hpass
      cases hv : v.isLevel with
      | false =>
          obtain ⟨hquiet', hunlinked⟩ := hcases.quiet hv hinv (hne _ rfl)
          exact hquiet hquiet' (hne _ rfl) (hne _ rfl) (hne _ rfl) hunlinked
      | true =>
          cases v with
          | level event message =>
              have hlogger := logger_processEvent h.sane.flow h.sane.life (hne _ rfl) hvisit localTime
              have hprocess : processEvent s i event message localTime = s' := Option.some.inj hstep
              rw [hprocess] at hlogger
              have hmeaning : backendMeaning s localTime s' = [.process i localTime] := by
                cases hcases with
                | goOn hlevel => cases hlevel
                | processed =>
                    cases hold : s.loop <;> rw [hold] at hloop <;> cases hloop <;>
                      simp [backendMeaning, hold]
              rw [hmeaning, exec_cons, hlogger, Option.bind_some, exec_nil]
          | _ => cases hv
  | @list list' hloop hvisit hout hlist =>
      have hmeaning : backendMeaning s localTime
          { s with list := list', names := s.namesAfter, visit := entered list' }
            = (list'.unlinked.drop s.list.unlinked.length).map .leave := by
        cases hold : s.loop <;> rw [hold] at hloop <;> cases hloop <;> simp [backendMeaning, hold]
      rw [hmeaning]
      refine h.logger_list ?_ hlist
      rintro hold
      rw [hold] at hloop
      cases hloop
  | @passEnd back hloop hvisit hout =>
      have hexited : back = .exited ↔ s.loop = .exited := by
        cases hold : s.loop <;> rw [hold] at hloop <;> cases hloop <;> simp
      refine hquiet (quiet_loop hexited) ?_ ?_ ?_ rfl
      all_goals
        intro hold
        rw [hold] at hloop
        cases hloop

/-! ## Every run -/

variable [DecidableEq κ]

/-- **Every step of the program is the steps of the logger it stands for.** -/
theorem Lossless.logger_step (h : Lossless s) {a : Action P ι κ}
    (hstep : System.step s a = some s') :
    exec Logger.step s.logger (meaning s a s') = some s'.logger := by
  cases acts_of_step hstep with
  | initThread hidle hhandler hconstruct =>
      rw [meaning, if_pos hhandler, exec_cons, logger_construct hhandler hconstruct,
        Option.bind_some, exec_nil]
  | @initAgain i name queueSize namePtr =>
      by_cases hhandler : (s.threads i).handler = .notConstructed
      · simp only [System.step, if_pos hhandler] at hstep
        split at hstep
        · rw [meaning, if_pos hhandler, exec_cons, logger_construct hhandler hstep,
            Option.bind_some, exec_nil]
        · cases hstep
      · rw [meaning, if_neg hhandler, exec_nil]
  | @log i r queueSize namePtr s' hidle hlog =>
      rcases log_eq_some hlog with ⟨-, hhandler, hconstruct⟩ | ⟨hcached, cached, rfl⟩
      · rw [meaning, if_pos hhandler, exec_cons, logger_construct hhandler hconstruct,
          Option.bind_some, exec_nil]
      · have hhandler : (s.threads i).handler ≠ .notConstructed := by
          intro hhandler
          rcases hcached with hcached | hne
          · rw [((h.sane.life.thread i).untouched hhandler).cached] at hcached
            cases hcached
          · exact hne hhandler
        rw [meaning, if_neg hhandler, exec_nil]
        let t : Thread P κ :=
          { s.threads i with cached := cached, pc := .reserve ((s.threads i).push r) }
        have hlogger : (s.setThread i t).logger = s.logger :=
          logger_of_accepted_eq t s.usedDeletedQueue rfl rfl rfl
        rw [hlogger]
  | @newNode i n request list' hpc hlist =>
      have hmembers : list'.members = s.list.members := by
        simp only [ThreadList.step] at hlist
        split at hlist
        · cases hlist
          rfl
        · cases hlist
      have hquiet : Quiet s { s with list := list' } :=
        ⟨fun _ => ⟨_, rfl⟩, rfl, hmembers, rfl, rfl, rfl, rfl, Iff.rfl, rfl⟩
      rw [meaning, exec_nil, hquiet.logger]
  | registrar hpc hlist => exact h.logger_registrar (by rw [hpc]; rfl) hlist
  | thread hthread => exact h.logger_threadStep hthread
  | @kill i hidle hhandler =>
      have hopen := h.isOpen (i := i) (by
        intro request hrequest
        rw [hrequest] at hidle
        cases hidle) hhandler
      let t : Thread P κ :=
        { s.threads i with
          handler := .destroyed
          context := { (s.threads i).context with isAlive := false } }
      have hname : t.name? = s.logger.name i := by simp [t, Thread.name?, State.logger, hhandler]
      have hpending : t.waiting (recordsOf s.processed i).length = s.logger.pending i := rfl
      have hlogger := logger_update (s := s) (i := i) t s.names s.unnamedThreadCounter
        s.usedDeletedQueue
      rw [hname, hpending, Function.update_eq_self, Function.update_eq_self] at hlogger
      rw [meaning, exec_cons, Logger.step, if_pos hopen, Option.bind_some, exec_nil]
      exact congrArg some hlogger.symm
  | setLevel => rfl
  | @setSink i file =>
      let t : Thread P κ := { s.threads i with sinkStamp := s.sinkCalls + 1 }
      have hlogger : (s.setThread i t).logger = s.logger :=
        logger_of_accepted_eq t s.usedDeletedQueue rfl rfl rfl
      rw [meaning, exec_cons, Logger.step, Option.bind_some, exec_nil, ← hlogger]
      rfl
  | @setFormatter i formatter =>
      let t : Thread P κ := { s.threads i with formatterStamp := s.formatterCalls + 1 }
      have hlogger : (s.setThread i t).logger = s.logger :=
        logger_of_accepted_eq t s.usedDeletedQueue rfl rfl rfl
      rw [meaning, exec_cons, Logger.step, Option.bind_some, exec_nil, ← hlogger]
      rfl
  | shutdown => rfl
  | backend hbackend => exact h.logger_backendStep hbackend

/-- **The program is the logger.** -/
theorem refines_logger :
    Refines (fun s a => Client s a ∧ EndsInTime s a) Lossless meaning
      (State.logger (P := P) (ι := ι) (κ := κ)) step Logger.step where
  invariant h hcond hstep := h.step hcond.1 hcond.2 hstep
  step h _ hstep := h.logger_step hstep

/-- **Every run of the program is a run of the logger.**  Whatever the threads and the backend
do and in whatever order, as long as no thread ends in the gap between the two loads of the
backend with an event committed there: the steps of the logger that the run stands for are
enabled one after another, and lead to the state that the state of the program stands for.  So
the entries of a thread are processed in the order in which they were accepted, each once, with
the level, the pattern and the sink in force then, and no thread leaves with an entry
pending. -/
theorem exec_logger {as : List (Action P ι κ)}
    (hcond : Along (fun s a => Client s a ∧ EndsInTime s a) step init as)
    (hexec : exec step init as = some s) :
    exec Logger.step Logger.init (trace meaning step init as) = some s.logger :=
  refines_logger.exec lossless_init hcond hexec

/-- A thread logs and ends; the run stands for its name, joining, an entry, its end, two looks
at the mailboxes, the entry's line, two more looks, and leaving. -/
theorem exec_logger_endRun :
    ∃ s, exec step init endRun = some s ∧ s.logger.lines.length = 1 ∧ s.logger.members = [] ∧
      (trace meaning step init endRun).length = 10 ∧
      exec Logger.step Logger.init (trace meaning step init endRun) = some s.logger := by
  have hrun : ∃ s, exec step init endRun = some s ∧ s.logger.lines.length = 1 ∧
      s.logger.members = [] ∧ (trace meaning step init endRun).length = 10 :=
    ⟨_, rfl, rfl, rfl, by decide +kernel⟩
  obtain ⟨s, hs, hlines, hmembers, hlength⟩ := hrun
  exact ⟨s, hs, hlines, hmembers, hlength, exec_logger (by decide +kernel) hs⟩

end Papper.System
