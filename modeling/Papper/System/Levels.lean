import Papper.System.Flow

/-!
# Which minimum level an event meets

`set_level` takes effect at once, and the level of an event is compared where the backend
processes it, some time after the log call.  So an event is kept or dropped by the last
`set_level` before its processing, which need not be the last one before its log call.  For
one thread that sets levels and logs, this module says which level each event meets, and when
the outcome is the one of the program read from top to bottom.

## Main definitions

* `Call`, `callsOf` — the calls of a thread, as its program has them.
* `logCalls` — the log calls of a program, with the minimum level at each.
* `FilteredBy` — a record is that of an event that met a level.
* `exec_levels` — the level each event meets, and what is written.
-/

namespace Papper.System

open Transition
open scoped List

variable {P : Program} {ι κ : Type}

/-! ## Programs -/

/-- A call that sets the minimum level or logs. -/
inductive Call (P : Program)
  | setLevel (level : LogLevel)
  | log (call : LogCall P)

/-- The minimum level after a call. -/
def Call.levelAfter (level : LogLevel) : Call P → LogLevel
  | setLevel level' => level'
  | log _ => level

def Call.log? : Call P → Option (LogCall P)
  | setLevel _ => none
  | log call => some call

/-- The log calls of a program, each with the level set by the last call before it. -/
def logCalls (level : LogLevel) : List (Call P) → List (LogCall P × LogLevel)
  | [] => []
  | .setLevel level' :: rest => logCalls level' rest
  | .log call :: rest => (call, level) :: logCalls level rest

theorem map_fst_logCalls (level : LogLevel) (cs : List (Call P)) :
    (logCalls level cs).map Prod.fst = cs.filterMap Call.log? := by
  induction cs generalizing level with
  | nil => rfl
  | cons c cs ih =>
      cases c with
      | setLevel level' => exact ih level'
      | log call => exact congrArg (call :: ·) (ih level)

theorem length_logCalls (level : LogLevel) (cs : List (Call P)) :
    (logCalls level cs).length = (cs.filterMap Call.log?).length := by
  rw [← map_fst_logCalls level, List.length_map]

theorem logCalls_append (level : LogLevel) (cs cs' : List (Call P)) :
    logCalls level (cs ++ cs')
      = logCalls level cs ++ logCalls (cs.foldl Call.levelAfter level) cs' := by
  induction cs generalizing level with
  | nil => rfl
  | cons c cs ih =>
      cases c with
      | setLevel level' => exact ih level'
      | log call => exact congrArg ((call, level) :: ·) (ih level)

/-- The log calls that are not below the minimum level. -/
def kept (calls : List (LogCall P × LogLevel)) : List (LogCall P) :=
  (calls.filter fun c => ¬ c.1.site.level < c.2).map Prod.fst

/-! ## Records -/

/-- A line says what a call of the thread with this name logged. -/
def Line.Shows (name : List Char) (call : LogCall P) (line : Line) : Prop :=
  ∃ message localTime,
    P.vformat call.site.fmtStr call.site.decodingFn call.args = some message ∧
    line.data =
      { level := call.site.level
        threadName := name
        timestamp := localTime
        filename := call.site.filename
        functionname := call.site.functionname
        linenumber := call.site.line
        message := message }

/-- The record of the event of a call that met this minimum level. -/
structure FilteredBy (name : List Char) (level : LogLevel) (call : LogCall P) (r : Processed ι) :
    Prop where
  dropped : call.site.level < level → r.line = none
  written : ¬ call.site.level < level → ∃ line, r.line = some line ∧ line.Shows name call

/-- The two levels decide every event alike, the one it met and the one at its log call. -/
def Agree (calls : List (LogCall P × LogLevel)) (records : List (Processed ι)) : Prop :=
  List.Forall₂ (fun c r => c.1.site.level < r.minLogLevel ↔ c.1.site.level < c.2) calls records

section Records
variable {name : List Char} {calls : List (LogCall P × LogLevel)} {records : List (Processed ι)}

theorem Describes.filteredBy {p : Push P} {r : Processed ι} (h : Describes name p r) :
    FilteredBy name r.minLogLevel p.event.call r where
  dropped := h.dropped
  written := by
    intro hlevel
    obtain ⟨line, message, localTime, hline, htext, hdata⟩ := h.written hlevel
    exact ⟨line, hline, message, localTime, htext, hdata⟩

/-- An event is kept or dropped alike by two levels exactly if they decide it alike. -/
theorem FilteredBy.iff {level level' : LogLevel} {call : LogCall P} {r : Processed ι}
    (h : FilteredBy name level call r) :
    FilteredBy name level' call r ↔ (call.site.level < level ↔ call.site.level < level') := by
  constructor
  · intro h'
    constructor
    · intro hlt
      by_contra hnot
      obtain ⟨line, hline, -⟩ := h'.written hnot
      rw [h.dropped hlt] at hline
      cases hline
    · intro hlt
      by_contra hnot
      obtain ⟨line, hline, -⟩ := h.written hnot
      rw [h'.dropped hlt] at hline
      cases hline
  · intro hiff
    exact ⟨fun hlt => h.dropped (hiff.mpr hlt), fun hnot => h.written (mt hiff.mp hnot)⟩

/-- **The program decides exactly if the levels agree.** -/
theorem forall₂_filteredBy_iff
    (h : List.Forall₂ (fun c r => FilteredBy name r.minLogLevel c.1 r) calls records) :
    List.Forall₂ (fun c r => FilteredBy name c.2 c.1 r) calls records ↔ Agree calls records := by
  rw [Agree]
  induction h with
  | nil => simp
  | cons hhead _ ih => rw [List.forall₂_cons, List.forall₂_cons, ih, hhead.iff]

/-- What is written then. -/
theorem forall₂_shows_of_filteredBy
    (h : List.Forall₂ (fun c r => FilteredBy name c.2 c.1 r) calls records) :
    List.Forall₂ (Line.Shows name) (kept calls) (records.filterMap Processed.line) := by
  induction h with
  | nil => exact .nil
  | @cons c r _ _ hhead _ ih =>
      by_cases hlevel : c.1.site.level < c.2
      · rw [kept, List.filter_cons_of_neg (by simp [hlevel]),
          List.filterMap_cons_none (hhead.dropped hlevel)]
        exact ih
      · obtain ⟨line, hline, hshows⟩ := hhead.written hlevel
        rw [kept, List.filter_cons_of_pos (by simp [hlevel]), List.filterMap_cons_some hline]
        exact .cons hshows ih

end Records

/-! ## What a thread has logged -/

/-- The log call a thread is in. -/
def ThreadPc.call? : ThreadPc P κ → Option (LogCall P)
  | idle => none
  | registering request => request.map Request.call
  | reserve p | pushing p => some p.event.call

/-- The calls whose events a thread has committed, and the one it is in. -/
def Thread.logged (t : Thread P κ) : List (LogCall P) :=
  (t.accepted.map fun p => p.event.call) ++ t.pc.call?.toList

theorem ThreadPc.call?_of_isIdle {pc : ThreadPc P κ} (h : pc.isIdle = true) : pc.call? = none := by
  cases pc with
  | idle => rfl
  | _ => cases h

variable [DecidableEq ι]

/-- A step of the thread, or of the backend. -/
def Action.Of (i : ι) : Action P ι κ → Prop
  | initThread j .. | log j .. | newNode j .. | registrar j .. | thread j | kill j | setLevel j ..
  | setSink j .. | setFormatter j .. => j = i
  | shutdown | backend _ => True

instance decidableOf (i : ι) : (a : Action P ι κ) → Decidable (a.Of i)
  | .initThread j .. | .log j .. | .newNode j .. | .registrar j .. | .thread j | .kill j
  | .setLevel j .. | .setSink j .. | .setFormatter j .. => inferInstanceAs (Decidable (j = i))
  | .shutdown | .backend _ => isTrue trivial

/-- The call of the thread that a step begins. -/
def Action.callOf (i : ι) : Action P ι κ → Option (Call P)
  | setLevel j level => if j = i then some (.setLevel level) else none
  | log j r _ _ => if j = i then some (.log r.call) else none
  | _ => none

/-- The log call of the thread that a step begins. -/
def Action.logOf (i : ι) (a : Action P ι κ) : List (LogCall P) :=
  ((a.callOf i).bind Call.log?).toList

/-- The minimum level after a step. -/
def Action.levelAfter (level : LogLevel) : Action P ι κ → LogLevel
  | setLevel _ level' => level'
  | _ => level

/-- The calls of a thread, in the order of its program. -/
def callsOf (i : ι) (as : List (Action P ι κ)) : List (Call P) := as.filterMap (Action.callOf i)

theorem Action.Of.callOf_eq_none {i j : ι} {a : Action P ι κ} (h : a.Of i) (hj : j ≠ i) :
    a.callOf j = none := by
  cases a with
  | log k | setLevel k =>
      obtain rfl : k = i := h
      exact if_neg hj.symm
  | _ => rfl

/-- A step of the thread changes the minimum level as the call it begins. -/
theorem Action.Of.levelAfter_eq {i : ι} {a : Action P ι κ} (h : a.Of i) (level : LogLevel) :
    a.levelAfter level = (a.callOf i).toList.foldl Call.levelAfter level := by
  cases a with
  | log k | setLevel k =>
      obtain rfl : k = i := h
      rw [callOf, if_pos rfl]
      rfl
  | _ => rfl

theorem Action.filterMap_callOf (i : ι) (a : Action P ι κ) :
    (a.callOf i).toList.filterMap Call.log? = a.logOf i := by
  rw [logOf]
  cases a.callOf i with
  | none => rfl
  | some c => cases c <;> rfl

theorem callsOf_concat (i : ι) (as : List (Action P ι κ)) (a : Action P ι κ) :
    callsOf i (as ++ [a]) = callsOf i as ++ (a.callOf i).toList := by
  rw [callsOf, List.filterMap_append, callsOf]
  cases h : a.callOf i with
  | none => rw [List.filterMap_cons_none h]; rfl
  | some c => rw [List.filterMap_cons_some h]; rfl

variable {s s' : State P ι κ} {i : ι}

/-- What a step does to what the threads have logged, and that it leaves the minimum level
alone. -/
def Logs (s s' : State P ι κ) (new : ι → List (LogCall P)) : Prop :=
  (∀ j, (s'.threads j).logged <+ (s.threads j).logged ++ new j) ∧ s'.minLogLevel = s.minLogLevel

namespace Logs
variable {new : ι → List (LogCall P)}

omit [DecidableEq ι] in
theorem of_threads_eq (hthreads : s'.threads = s.threads)
    (hlevel : s'.minLogLevel = s.minLogLevel) : Logs s s' new := by
  refine ⟨fun j => ?_, hlevel⟩
  rw [hthreads]
  exact List.sublist_append_left _ _

/-- A step of one thread. -/
theorem update {t : Thread P κ} (hthreads : s'.threads = Function.update s.threads i t)
    (hlevel : s'.minLogLevel = s.minLogLevel) (ht : t.logged <+ (s.threads i).logged ++ new i) :
    Logs s s' new := by
  have hall := Function.forall_update_iff s.threads (a := i) (b := t) fun j t =>
    t.logged <+ (s.threads j).logged ++ new j
  refine ⟨?_, hlevel⟩
  rw [hthreads]
  exact hall.mpr ⟨ht, fun _ _ => List.sublist_append_left _ _⟩

/-- A step of one thread that begins no call. -/
theorem same {t : Thread P κ} (hthreads : s'.threads = Function.update s.threads i t)
    (hlevel : s'.minLogLevel = s.minLogLevel) (ht : t.logged <+ (s.threads i).logged) :
    Logs s s' new :=
  update hthreads hlevel (ht.trans (List.sublist_append_left _ _))

/-- The beginning of a call. -/
theorem begin (hidle : (s.threads i).pc.isIdle = true) {t : Thread P κ}
    (hthreads : s'.threads = Function.update s.threads i t)
    (hlevel : s'.minLogLevel = s.minLogLevel) (haccepted : t.accepted = (s.threads i).accepted)
    (hnew : t.pc.call?.toList = new i) : Logs s s' new := by
  refine update hthreads hlevel ?_
  rw [Thread.logged, Thread.logged, ThreadPc.call?_of_isIdle hidle, haccepted, hnew,
    Option.toList_none, List.append_nil]

/-- The constructor of a handler. -/
theorem construct (hidle : (s.threads i).pc.isIdle = true) {name : List Char} {queueSize : ℕ}
    {namePtr : UInt64} {request : Option (Request P κ)}
    (hnew : (request.map Request.call).toList = new i)
    (hstep : construct s i name queueSize namePtr request = some s') : Logs s s' new := by
  obtain ⟨-, rfl⟩ := construct_eq_some hstep
  exact begin hidle rfl rfl rfl hnew

variable [DecidableEq κ]

/-- The beginning of a log call. -/
theorem log (hidle : (s.threads i).pc.isIdle = true) {r : Request P κ} {queueSize : ℕ}
    {namePtr : UInt64} (hnew : [r.call] = new i)
    (hstep : log s i r queueSize namePtr = some s') : Logs s s' new := by
  rcases log_eq_some hstep with ⟨-, -, hconstruct⟩ | ⟨-, cached, rfl⟩
  · have hrequest : ((some r).map Request.call).toList = new i := hnew
    exact construct hidle hrequest hconstruct
  · exact begin hidle rfl rfl rfl hnew

/-- The other steps of a thread: a call goes on, commits its event or drops it. -/
theorem threadStep (hstep : threadStep s i = some s') : Logs s s' new := by
  cases threadActs_of_threadStep hstep with
  | initialized hpc =>
      refine same rfl rfl ?_
      simp [Thread.logged, ThreadPc.call?]
  | registered hpc | reserve hpc | commit hpc =>
      refine same rfl rfl ?_
      simp [Thread.logged, ThreadPc.call?, hpc, Thread.push, Thread.setQueue]
  | reload hpc =>
      refine same rfl rfl ?_
      rw [Thread.logged, Thread.logged, hpc]
      refine List.Sublist.append_left ?_ _
      split
      · exact List.nil_sublist _
      · exact List.Sublist.refl _
  | writeByte => exact same rfl rfl (List.Sublist.refl _)

omit [DecidableEq κ] in
/-- The steps of the backend. -/
theorem backend (hstep : BackendStep s s') : Logs s s' new := by
  have hqueue : ∀ {i : ι} (q : Queue.Machine),
      ((s.threads i).setQueue q).logged <+ (s.threads i).logged :=
    fun q => List.Sublist.refl _
  cases hstep with
  | visit hvisit hprocessing hstep =>
      cases hstep with
      | goOn => exact same rfl rfl (hqueue _)
      | committed => exact same rfl rfl (hqueue _)
      | _ => exact of_threads_eq rfl rfl
  | _ => exact of_threads_eq rfl rfl

end Logs

variable [DecidableEq κ]

/-- **Every step.** -/
theorem step_logged (hflow : FlowInv s) (hlife : LifeInv s) {a : Action P ι κ}
    (hstep : step s a = some s') :
    (∀ j, (s'.threads j).logged <+ (s.threads j).logged ++ a.logOf j) ∧
      s'.minLogLevel = a.levelAfter s.minLogLevel := by
  cases acts_of_step hstep with
  | @initThread i name queueSize namePtr s' hidle hhandler hstep =>
      have hnone : ((none : Option (Request P κ)).map Request.call).toList
          = (Action.initThread (P := P) (κ := κ) i name queueSize namePtr).logOf i := rfl
      exact Logs.construct hidle hnone hstep
  | initAgain => exact Logs.of_threads_eq rfl rfl
  | @log i r queueSize namePtr s' hidle hstep =>
      have hnew : [r.call] = (Action.log i r queueSize namePtr).logOf i := by
        simp [Action.logOf, Action.callOf, Call.log?]
      exact Logs.log hidle hnew hstep
  | newNode => exact Logs.of_threads_eq rfl rfl
  | registrar => exact Logs.of_threads_eq rfl rfl
  | thread hstep => exact Logs.threadStep hstep
  | kill => exact Logs.same rfl rfl (List.Sublist.refl _)
  | setLevel => exact ⟨fun j => List.sublist_append_left _ _, rfl⟩
  | setSink => exact Logs.same rfl rfl (List.Sublist.refl _)
  | setFormatter => exact Logs.same rfl rfl (List.Sublist.refl _)
  | shutdown => exact Logs.of_threads_eq rfl rfl
  | backend hstep => exact Logs.backend (backendStep_cases hflow hlife hstep)

/-! ## Runs of one thread -/

/-- The minimum level after a program. -/
def levelOf (cs : List (Call P)) : LogLevel := cs.foldl Call.levelAfter .Trace

/-- After the first of these steps the run loads the minimum level for the `n`-th event. -/
structure LoadsAfter (as before : List (Action P ι κ)) (n : ℕ) : Prop where
  next : ∃ localTime after, as = before ++ .backend localTime :: after
  state : ∃ t : State P ι κ, exec step init before = some t ∧ t.processing ≠ none ∧
    t.processed.length = n

theorem LoadsAfter.concat {as before : List (Action P ι κ)} {n : ℕ} (h : LoadsAfter as before n)
    (a : Action P ι κ) : LoadsAfter (as ++ [a]) before n := by
  obtain ⟨localTime, after, rfl⟩ := h.next
  exact ⟨⟨localTime, after ++ [a], by simp⟩, h.state⟩

/-- What a run of the thread and the backend has come to. -/
structure Traced (i : ι) (as : List (Action P ι κ)) (s : State P ι κ) : Prop where
  life : LifeInv s
  flow : FlowInv s
  others : ∀ j, j ≠ i → callsOf j as = []
  level : s.minLogLevel = levelOf (callsOf i as)
  logged : ∀ j, (s.threads j).logged <+ (callsOf j as).filterMap Call.log?
  loaded : ∀ n r, s.processed[n]? = some r →
    ∃ before, LoadsAfter as before n ∧ r.minLogLevel = levelOf (callsOf i before)

namespace Traced
variable {as : List (Action P ι κ)}

theorem init : Traced i [] (init : State P ι κ) where
  life := lifeInv_init
  flow := flowInv_init
  others := fun _ _ => rfl
  level := rfl
  logged := fun _ => List.Sublist.refl _
  loaded := by
    intro n r hr
    cases hr

/-- **Every step.** -/
theorem step (h : Traced i as s) (hexec : exec step System.init as = some s) {a : Action P ι κ}
    (hclient : Client s a) (hof : a.Of i) (hstep : System.step s a = some s') :
    Traced i (as ++ [a]) s' := by
  have hcases := step_cases h.flow h.life hclient hstep
  obtain ⟨hlogged, hlevel⟩ := step_logged h.flow h.life hstep
  constructor
  · exact h.life.step hclient.notLate hstep
  · exact h.flow.step h.life hcases
  · intro j hj
    rw [callsOf_concat, h.others j hj, hof.callOf_eq_none hj]
    rfl
  · rw [hlevel, hof.levelAfter_eq, h.level, callsOf_concat, levelOf, levelOf, List.foldl_append]
  · intro j
    rw [callsOf_concat, List.filterMap_append, a.filterMap_callOf]
    exact (hlogged j).trans ((h.logged j).append_right _)
  · intro n r hr
    have hold : s.processed[n]? = some r → ∃ before, LoadsAfter (as ++ [a]) before n ∧
        r.minLogLevel = levelOf (callsOf i before) := by
      intro hr
      obtain ⟨before, hbefore, hmin⟩ := h.loaded n r hr
      exact ⟨before, hbefore.concat a, hmin⟩
    cases hcases.records with
    | none hprocessed =>
        rw [hprocessed] at hr
        exact hold hr
    | one hbackend hvisit hprocessing hp hdescribes hline hs' =>
        subst s'
        rcases getElem?_concat_cases hr with hr | ⟨hn, hr⟩
        · exact hold hr
        · refine ⟨as, ⟨?_, s, hexec, by simp [hprocessing], hn.symm⟩, ?_⟩
          · cases a with
            | backend localTime => exact ⟨localTime, [], rfl⟩
            | _ => cases hbackend
          · rw [← hr]
            exact h.level

/-- Nothing else was logged. -/
theorem accepted_of_ne (h : Traced i as s) {j : ι} (hj : j ≠ i) : (s.threads j).accepted = [] := by
  have hlogged := h.logged j
  rw [h.others j hj, List.filterMap_nil, List.sublist_nil, Thread.logged, List.append_eq_nil_iff]
    at hlogged
  exact List.map_eq_nil_iff.mp hlogged.1

/-- All the records are of the thread. -/
theorem recordsOf_eq (h : Traced i as s) : recordsOf s.processed i = s.processed := by
  refine List.filter_eq_self.mpr ?_
  intro r hr
  by_contra hne
  have hj : r.thread ≠ i := by simpa using hne
  obtain ⟨n, hn⟩ := h.flow.exists_matches r.thread
  have hdescribes := hn.describes
  rw [h.accepted_of_ne hj, List.take_nil, List.forall₂_nil_left_iff] at hdescribes
  have hmem : r ∈ recordsOf s.processed r.thread := List.mem_filter.mpr ⟨hr, by simp⟩
  rw [hdescribes] at hmem
  cases hmem

theorem processed_le (h : Traced i as s) :
    s.processed.length ≤ (s.threads i).accepted.length := by
  obtain ⟨n, hn⟩ := h.flow.exists_matches i
  rw [← h.recordsOf_eq, hn.length_eq]
  exact hn.le

theorem accepted_le (h : Traced i as s) :
    (s.threads i).accepted.length ≤ (logCalls .Trace (callsOf i as)).length := by
  have hle := (h.logged i).length_le
  rw [← length_logCalls .Trace, Thread.logged, List.length_append, List.length_map] at hle
  omega

/-- **Where nothing was dropped and everything is processed, the records are those of the
calls, in program order.** -/
theorem filteredBy (h : Traced i as s)
    (hall : s.processed.length = (logCalls .Trace (callsOf i as)).length) :
    List.Forall₂ (fun c r => FilteredBy (s.threads i).context.name r.minLogLevel c.1 r)
      (logCalls .Trace (callsOf i as)) s.processed := by
  have hprocessed := h.processed_le
  have haccepted := h.accepted_le
  obtain ⟨n, hn⟩ := h.flow.exists_matches i
  have hlength := hn.length_eq
  have hdescribes := hn.describes
  rw [h.recordsOf_eq] at hlength hdescribes
  rw [List.take_of_length_le (by omega)] at hdescribes
  have hcalls : (s.threads i).accepted.map (fun p => p.event.call)
      = (logCalls .Trace (callsOf i as)).map Prod.fst := by
    rw [map_fst_logCalls]
    refine ((List.sublist_append_left _ _).trans (h.logged i)).eq_of_length ?_
    rw [← length_logCalls .Trace, List.length_map]
    omega
  have hfiltered : List.Forall₂ (fun c r => FilteredBy (s.threads i).context.name r.minLogLevel c r)
      ((s.threads i).accepted.map fun p => p.event.call) s.processed := by
    rw [List.forall₂_map_left_iff]
    exact hdescribes.imp fun p r h => h.filteredBy
  rwa [hcalls, List.forall₂_map_left_iff] at hfiltered

end Traced

/-- When the minimum level is set, everything logged before has been processed. -/
def Settled (i : ι) (s : State P ι κ) : Action P ι κ → Prop
  | .setLevel _ _ => s.processed.length = (s.threads i).logged.length
  | _ => True

omit [DecidableEq ι] [DecidableEq κ] in
instance decidableSettled (i : ι) (s : State P ι κ) : (a : Action P ι κ) → Decidable (Settled i s a)
  | .setLevel _ _ => inferInstanceAs (Decidable (s.processed.length = (s.threads i).logged.length))
  | .initThread .. | .log .. | .newNode .. | .registrar .. | .thread .. | .kill .. | .setSink ..
  | .setFormatter .. | .shutdown | .backend .. => isTrue trivial

/-- Each event has met the level of its log call, and the others are going to. -/
structure InOrder (calls : List (LogCall P × LogLevel)) (s : State P ι κ) : Prop where
  met : ∀ (n : ℕ) (c : LogCall P × LogLevel) (r : Processed ι), calls[n]? = some c →
    s.processed[n]? = some r → r.minLogLevel = c.2
  next : ∀ (n : ℕ) (c : LogCall P × LogLevel), calls[n]? = some c → s.processed.length ≤ n →
    s.minLogLevel = c.2

/-- **Every step.** -/
theorem InOrder.step {as : List (Action P ι κ)} (h : InOrder (logCalls .Trace (callsOf i as)) s)
    (htraced : Traced i as s) {a : Action P ι κ} (hclient : Client s a) (hof : a.Of i)
    (hlogged : (s.threads i).logged.length = (logCalls .Trace (callsOf i as)).length)
    (hsettled : Settled i s a) (hstep : System.step s a = some s') :
    InOrder (logCalls .Trace (callsOf i (as ++ [a]))) s' := by
  have hcases := step_cases htraced.flow htraced.life hclient hstep
  have hlevel := (step_logged htraced.flow htraced.life hstep).2
  rw [hof.levelAfter_eq] at hlevel
  rw [callsOf_concat, logCalls_append]
  cases hcases.records with
  | @one j event message p line hbackend hvisit hprocessing hp hdescribes hline hs' =>
      have hcall : a.callOf i = none := by
        cases a with
        | backend localTime => rfl
        | _ => cases hbackend
      rw [hcall, Option.toList_none, logCalls, List.append_nil]
      subst s'
      constructor
      · intro n c r hc hr
        rcases getElem?_concat_cases hr with hr | ⟨hn, hr⟩
        · exact h.met n c r hc hr
        · rw [← hr]
          exact h.next n c hc hn.ge
      · intro n c hc hn
        rw [List.length_append] at hn
        exact h.next n c hc (by omega)
  | none hprocessed =>
      cases hcall : a.callOf i with
      | none =>
          rw [hcall, Option.toList_none, List.foldl_nil] at hlevel
          rw [Option.toList_none, logCalls, List.append_nil]
          constructor
          · rw [hprocessed]
            exact h.met
          · rw [hprocessed, hlevel]
            exact h.next
      | some call =>
          rw [hcall, Option.toList_some] at hlevel
          rw [Option.toList_some]
          cases call with
          | setLevel level =>
              have hall : s.processed.length = (logCalls .Trace (callsOf i as)).length := by
                cases a with
                | setLevel => exact hsettled.trans hlogged
                | log => simp [Action.callOf] at hcall
                | _ => cases hcall
              rw [logCalls, logCalls, List.append_nil]
              constructor
              · rw [hprocessed]
                exact h.met
              · intro n c hc hn
                have hlt := (List.getElem?_eq_some_iff.mp hc).1
                rw [hprocessed] at hn
                omega
          | log call =>
              rw [logCalls, logCalls]
              have hle := htraced.processed_le.trans htraced.accepted_le
              have hsame : s'.minLogLevel = levelOf (callsOf i as) := hlevel.trans htraced.level
              constructor
              · intro n c r hc hr
                rw [hprocessed] at hr
                rcases getElem?_concat_cases hc with hc | ⟨hn, -⟩
                · exact h.met n c r hc hr
                · have hlt := (List.getElem?_eq_some_iff.mp hr).1
                  omega
              · intro n c hc hn
                rw [hprocessed] at hn
                rcases getElem?_concat_cases hc with hc | ⟨-, hc⟩
                · exact hlevel.trans (h.next n c hc hn)
                · rw [← hc]
                  exact hsame

omit [DecidableEq ι] [DecidableEq κ] in
/-- What is in force when the run is settled agrees with the program. -/
theorem InOrder.agree {calls : List (LogCall P × LogLevel)} (h : InOrder calls s)
    (hlength : calls.length = s.processed.length) : Agree calls s.processed := by
  rw [Agree, List.forall₂_iff_get]
  refine ⟨hlength, ?_⟩
  intro n hn hn'
  have hmet := h.met n _ _ (List.getElem?_eq_getElem hn) (List.getElem?_eq_getElem hn')
  simp only [List.get_eq_getElem, hmet]

variable {as : List (Action P ι κ)}

/-- What a run of one thread has come to. -/
theorem traced_exec (hclient : Along Client step init as) (hexec : exec step init as = some s)
    (hof : ∀ a ∈ as, a.Of i) : Traced i as s := by
  have hcond : Along (fun s a => Client s a ∧ a.Of i) step init as :=
    hclient.and (.of_mem (fun a ha _ => hof a ha) init)
  refine exec_history (Traced i) Traced.init ?_ hcond hexec
  intro as s a s' hexec htraced ⟨hclient, hof⟩ hstep
  exact htraced.step hexec hclient hof hstep

/-- Where nothing is dropped and the run is settled, the events meet the levels of their log
calls. -/
theorem inOrder_exec (hclient : Along Client step init as) (hexec : exec step init as = some s)
    (hof : ∀ a ∈ as, a.Of i) (hsettled : Along (Settled i) step init as)
    (hlogged : (s.threads i).logged.length = (logCalls .Trace (callsOf i as)).length) :
    InOrder (logCalls .Trace (callsOf i as)) s := by
  have hcond : Along (fun s a => (Client s a ∧ a.Of i) ∧ Settled i s a) step init as :=
    (hclient.and (.of_mem (fun a ha _ => hof a ha) init)).and hsettled
  refine (exec_history (fun as s => Traced i as s ∧
    ((s.threads i).logged.length = (logCalls .Trace (callsOf i as)).length →
      InOrder (logCalls .Trace (callsOf i as)) s)) ?_ ?_ hcond hexec).2 hlogged
  · refine ⟨.init, fun _ => ⟨?_, ?_⟩⟩
    · intro n c r hc
      cases hc
    · intro n c hc
      cases hc
  · intro as s a s' hexec ⟨htraced, hinOrder⟩ ⟨⟨hclient, hof⟩, hsettled⟩ hstep
    refine ⟨htraced.step hexec hclient hof hstep, ?_⟩
    intro hlogged
    have hbefore := (htraced.logged i).length_le
    have hnow := ((step_logged htraced.flow htraced.life hstep).1 i).length_le
    rw [List.length_append] at hnow
    rw [length_logCalls, callsOf_concat, List.filterMap_append, a.filterMap_callOf,
      List.length_append] at hlogged
    have hall : (s.threads i).logged.length = (logCalls .Trace (callsOf i as)).length := by
      rw [length_logCalls]
      omega
    exact (hinOrder hall).step htraced hclient hof hall hsettled hstep

/-- **The level an event meets.**  In every run of one thread that sets minimum levels and
logs, and of the backend, in which no event is dropped for want of room and all are processed:
the events are processed in the order of the program, and a line is written for exactly those
that are not below the level that the backend loads, the one set by the last `set_level` before
that.  So each event is kept or dropped as by the last `set_level` before its log call exactly
if the two levels decide it alike.  Where they do for all events, what is written is what the
program keeps; and they do where everything logged before a `set_level` has been processed by
then. -/
theorem exec_levels (hclient : Along Client step init as) (hexec : exec step init as = some s)
    (hof : ∀ a ∈ as, a.Of i)
    (hall : s.processed.length = (logCalls .Trace (callsOf i as)).length) :
    List.Forall₂ (fun c r => FilteredBy (s.threads i).context.name r.minLogLevel c.1 r)
        (logCalls .Trace (callsOf i as)) s.processed ∧
      (∀ n r, s.processed[n]? = some r →
        ∃ before, LoadsAfter as before n ∧ r.minLogLevel = levelOf (callsOf i before)) ∧
      (List.Forall₂ (fun c r => FilteredBy (s.threads i).context.name c.2 c.1 r)
        (logCalls .Trace (callsOf i as)) s.processed ↔
          Agree (logCalls .Trace (callsOf i as)) s.processed) ∧
      (Agree (logCalls .Trace (callsOf i as)) s.processed →
        List.Forall₂ (Line.Shows (s.threads i).context.name)
          (kept (logCalls .Trace (callsOf i as))) (s.processed.filterMap Processed.line)) ∧
      (Along (Settled i) step init as → Agree (logCalls .Trace (callsOf i as)) s.processed) := by
  have htraced : Traced i as s := traced_exec hclient hexec hof
  have hfiltered := htraced.filteredBy hall
  have hdecides := forall₂_filteredBy_iff hfiltered
  refine ⟨hfiltered, htraced.loaded, hdecides, ?_, ?_⟩
  · intro hagree
    exact forall₂_shows_of_filteredBy (hdecides.mpr hagree)
  · intro hsettled
    have hlogged : (s.threads i).logged.length = (logCalls .Trace (callsOf i as)).length := by
      have hle := (htraced.logged i).length_le
      have hprocessed := htraced.processed_le
      rw [← length_logCalls .Trace, Thread.logged, List.length_append, List.length_map] at hle
      rw [Thread.logged, List.length_append, List.length_map]
      omega
    exact (inOrder_exec hclient hexec hof hsettled hlogged).agree hall.symm

/-- A thread logs `hello` and then raises the minimum level, and the backend has written the
event by then. -/
def earlyRun : List (Action helloProgram ℕ ℕ) :=
  firstLogRun 0 100 8192 ++ backendRun 10 ++ [.setLevel 0 .Error]

theorem exec_levels_earlyRun :
    ∃ s, exec step init earlyRun = some s ∧
      List.Forall₂ (Line.Shows (s.threads 0).context.name) [(hello 0).call]
        (s.processed.filterMap Processed.line) := by
  have hrun : (exec step init earlyRun).map (fun s => s.processed.length) = some 1 := by
    decide +kernel
  obtain ⟨s, hs, hprocessed⟩ := Option.map_eq_some_iff.mp hrun
  obtain ⟨-, -, -, hwritten, hagree⟩ :=
    exec_levels (i := 0) (by decide +kernel) hs (by decide +kernel) hprocessed
  exact ⟨s, hs, hwritten (hagree (by decide +kernel))⟩

/-- The backend comes to the event after that. -/
def lateRun : List (Action helloProgram ℕ ℕ) :=
  firstLogRun 0 100 8192 ++ [.setLevel 0 .Error] ++ backendRun 10

/-- The same program writes a line in the one run and none in the other. -/
theorem exec_written_lateRun :
    Along Client step init earlyRun ∧ Along Client step init lateRun ∧
      (∀ a ∈ earlyRun, a.Of 0) ∧ (∀ a ∈ lateRun, a.Of 0) ∧
      callsOf 0 earlyRun = [.log (hello 0).call, .setLevel .Error] ∧
      callsOf 0 lateRun = [.log (hello 0).call, .setLevel .Error] ∧
      kept (logCalls .Trace (callsOf 0 lateRun)) = [(hello 0).call] ∧
      (∃ s, exec step init earlyRun = some s ∧ s.processed.length = 1 ∧
        (s.processed.filterMap Processed.line).length = 1) ∧
      ∃ s, exec step init lateRun = some s ∧ s.processed.length = 1 ∧
        s.processed.filterMap Processed.line = [] := by
  have hearly : (exec step init earlyRun).map (fun s =>
      (s.processed.length, (s.processed.filterMap Processed.line).length)) = some (1, 1) := by
    decide +kernel
  have hlate : (exec step init lateRun).map (fun s =>
      (s.processed.length, (s.processed.filterMap Processed.line).length)) = some (1, 0) := by
    decide +kernel
  obtain ⟨s, hs, hstate⟩ := Option.map_eq_some_iff.mp hearly
  obtain ⟨t, ht, htstate⟩ := Option.map_eq_some_iff.mp hlate
  rw [Prod.mk.injEq] at hstate htstate
  exact ⟨by decide +kernel, by decide +kernel, by decide +kernel, by decide +kernel, rfl, rfl, rfl,
    ⟨s, hs, hstate⟩, t, ht, htstate.1, List.length_eq_zero_iff.mp htstate.2⟩

end Papper.System
