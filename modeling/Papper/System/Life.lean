import Papper.System
import Papper.ThreadList.Frame

/-!
# Threads, contexts and their ends

A context is inserted by the thread that constructed it, its removal is requested when
the backend finds its thread dead, and a thread is dead once its handler is destroyed.
So a queue is deleted only after its thread has ended, and a thread that logs nothing
after that never uses a deleted queue.

The invariant `Life` is about the parts of the state that this concerns, so that a step
on the other parts preserves it as it stands.

## Main definitions

* `NotLate` — no log call begins after the handler of its thread was destroyed.
* `Acts` — what an action can do.
* `Life` — the invariant.
* `exec_unused` — no deleted queue is used.
-/

namespace Papper.System

open Transition

variable {P : Program} {ι κ : Type}

/-- No log call begins after the handler of its thread was destroyed. -/
def NotLate (s : State P ι κ) : Action P ι κ → Prop
  | .log i _ _ _ => (s.threads i).handler ≠ .destroyed
  | _ => True

instance decidableNotLate (s : State P ι κ) : (a : Action P ι κ) → Decidable (NotLate s a)
  | .log i _ _ _ => inferInstanceAs (Decidable ((s.threads i).handler ≠ .destroyed))
  | .initThread .. | .newNode .. | .registrar .. | .thread .. | .kill .. | .setLevel ..
  | .setSink .. | .setFormatter .. | .shutdown | .backend .. => isTrue trivial

/-! ## Actions -/

/-- What the constructor of a handler does: its name is at a place that was free. -/
theorem construct_eq_some [DecidableEq ι] {s s' : State P ι κ} {i : ι} {name : List Char}
    {queueSize : ℕ} {namePtr : UInt64} {request : Option (Request P κ)}
    (h : construct s i name queueSize namePtr request = some s') :
    s.names namePtr = none ∧ s' =
      { s with
        threads := Function.update s.threads i
          { s.threads i with
            handler := .constructed
            context :=
              ⟨threadName s.unnamedThreadCounter name, namePtr, Queue.Machine.new queueSize, true⟩
            pc := .registering request }
        names := Function.update s.names namePtr (some i)
        unnamedThreadCounter :=
          if name = [] then s.unnamedThreadCounter + 1 else s.unnamedThreadCounter } := by
  by_cases hfree : s.names namePtr = none
  · rw [construct, if_pos hfree, Option.some.injEq] at h
    exact ⟨hfree, h.symm⟩
  · rw [construct, if_neg hfree] at h
    cases h

/-- What the beginning of a log call does: it constructs the handler, or goes on to
`reserve_write`. -/
theorem log_eq_some [DecidableEq ι] [DecidableEq κ] {s s' : State P ι κ} {i : ι}
    {r : Request P κ} {queueSize : ℕ} {namePtr : UInt64}
    (h : log s i r queueSize namePtr = some s') :
    ((s.threads i).cached r.instantiation = false ∧ (s.threads i).handler = .notConstructed ∧
        construct s i [] queueSize namePtr (some r) = some s') ∨
      ((s.threads i).cached r.instantiation = true ∨ (s.threads i).handler ≠ .notConstructed) ∧
        ∃ cached, s' = s.setThread i
          { s.threads i with cached := cached, pc := .reserve ((s.threads i).push r) } := by
  by_cases hcached : (s.threads i).cached r.instantiation = true
  · rw [log, if_pos hcached, Option.some.injEq] at h
    exact .inr ⟨.inl hcached, (s.threads i).cached, h.symm⟩
  · rw [log, if_neg hcached] at h
    by_cases hhandler : (s.threads i).handler = .notConstructed
    · rw [if_pos hhandler] at h
      exact .inl ⟨Bool.eq_false_iff.mpr hcached, hhandler, h⟩
    · rw [if_neg hhandler, Option.some.injEq] at h
      exact .inr ⟨.inr hhandler, _, h.symm⟩

section Acts
variable [DecidableEq ι] [DecidableEq κ]

/-- What an action can do: the function that is called, and where its thread has to be. -/
inductive Acts (s : State P ι κ) : Action P ι κ → State P ι κ → Prop
  | initThread {i : ι} {name : List Char} {queueSize : ℕ} {namePtr : UInt64} {s' : State P ι κ}
      (hidle : (s.threads i).pc.isIdle = true) (hhandler : (s.threads i).handler = .notConstructed)
      (hstep : construct s i name queueSize namePtr none = some s') :
      Acts s (.initThread i name queueSize namePtr) s'
  | initAgain {i : ι} {name : List Char} {queueSize : ℕ} {namePtr : UInt64} :
      Acts s (.initThread i name queueSize namePtr) s
  | log {i : ι} {r : Request P κ} {queueSize : ℕ} {namePtr : UInt64} {s' : State P ι κ}
      (hidle : (s.threads i).pc.isIdle = true) (hstep : log s i r queueSize namePtr = some s') :
      Acts s (.log i r queueSize namePtr) s'
  | newNode {i : ι} {n : ℕ} {request : Option (Request P κ)} {list' : ThreadList.State ι}
      (hpc : (s.threads i).pc = .registering request)
      (hlist : ThreadList.step s.list (.register i n) = some list') :
      Acts s (.newNode i n) { s with list := list' }
  | registrar {i : ι} {spurious : Bool} {request : Option (Request P κ)}
      {list' : ThreadList.State ι} (hpc : (s.threads i).pc = .registering request)
      (hlist : ThreadList.step s.list (.registrar i spurious) = some list') :
      Acts s (.registrar i spurious) { s with list := list' }
  | thread {i : ι} {s' : State P ι κ} (hstep : threadStep s i = some s') : Acts s (.thread i) s'
  | kill {i : ι} (hidle : (s.threads i).pc.isIdle = true)
      (hhandler : (s.threads i).handler = .constructed) :
      Acts s (.kill i)
        (s.setThread i
          { s.threads i with
            handler := .destroyed
            context := { (s.threads i).context with isAlive := false } })
  | setLevel {i : ι} {level : LogLevel} : Acts s (.setLevel i level) { s with minLogLevel := level }
  | setSink {i : ι} {file : Sink.File} :
      Acts s (.setSink i file)
        { s.setThread i { s.threads i with sinkStamp := s.sinkCalls + 1 } with
          sink := s.sink.queue ⟨file, s.sinkCalls + 1⟩
          sinkCalls := s.sinkCalls + 1 }
  | setFormatter {i : ι} {formatter : ParsedPattern} :
      Acts s (.setFormatter i formatter)
        { s.setThread i { s.threads i with formatterStamp := s.formatterCalls + 1 } with
          formatter := s.formatter.queue ⟨formatter, s.formatterCalls + 1⟩
          formatterCalls := s.formatterCalls + 1 }
  | shutdown : Acts s .shutdown { s with running := false }
  | backend {localTime : ℤ} {s' : State P ι κ} (hstep : backendStep s localTime = some s') :
      Acts s (.backend localTime) s'

/-- **Every step is an action**, taken where it is enabled. -/
theorem acts_of_step {s s' : State P ι κ} {a : Action P ι κ} (hstep : step s a = some s') :
    Acts s a s' := by
  cases a with
  | initThread i name queueSize namePtr =>
      simp only [step] at hstep
      split at hstep
      · rename_i hidle
        split at hstep
        · rename_i hhandler
          exact .initThread hidle hhandler hstep
        · cases hstep
          exact .initAgain
      · cases hstep
  | log i r queueSize namePtr =>
      simp only [step] at hstep
      split at hstep
      · rename_i hidle
        exact .log hidle hstep
      · cases hstep
  | newNode i n =>
      simp only [step] at hstep
      split at hstep
      · rename_i request hpc
        obtain ⟨list', hlist, rfl⟩ := Option.map_eq_some_iff.mp hstep
        exact .newNode hpc hlist
      · cases hstep
  | registrar i spurious =>
      simp only [step] at hstep
      split at hstep
      · rename_i request hpc
        obtain ⟨list', hlist, rfl⟩ := Option.map_eq_some_iff.mp hstep
        exact .registrar hpc hlist
      · cases hstep
  | thread i => exact .thread hstep
  | kill i =>
      simp only [step] at hstep
      split at hstep
      · rename_i henabled
        cases hstep
        exact .kill henabled.1 henabled.2
      · cases hstep
  | setLevel i level =>
      simp only [step] at hstep
      split at hstep
      · cases hstep
        exact .setLevel
      · cases hstep
  | setSink i file =>
      simp only [step] at hstep
      split at hstep
      · cases hstep
        exact .setSink
      · cases hstep
  | setFormatter i formatter =>
      simp only [step] at hstep
      split at hstep
      · cases hstep
        exact .setFormatter
      · cases hstep
  | shutdown =>
      cases hstep
      exact .shutdown
  | backend localTime => exact .backend hstep

/-- What the step of a thread outside of `register_thread` can do: the queue operation it comes
to, and where its call goes on. -/
inductive ThreadActs (s : State P ι κ) (i : ι) : State P ι κ → Prop
  | initialized (hpc : (s.threads i).pc = .registering none)
      (hdone : s.list.registration i = .done) :
      ThreadActs s i (s.setThread i { s.threads i with pc := .idle })
  | registered {r : Request P κ} (hpc : (s.threads i).pc = .registering (some r))
      (hdone : s.list.registration i = .done) :
      ThreadActs s i
        (s.setThread i
          { s.threads i with
            cached := Function.update (s.threads i).cached r.instantiation true
            pc := .reserve ((s.threads i).push r) })
  | reserve {p : Push P} {q : Queue.Machine} (hpc : (s.threads i).pc = .reserve p)
      (hq : Queue.step (s.threads i).context.q (.reserveWrite p.event.message) = some q) :
      ThreadActs s i
        ((s.useQueue i).setThread i { (s.threads i).setQueue q with pc := .pushing p })
  | reload {p : Push P} {m : Message} {q : Queue.Machine}
      (hpc : (s.threads i).pc = .pushing p)
      (hproducer : (s.threads i).context.q.producer = .reload m)
      (hq : Queue.step (s.threads i).context.q
        (.loadR (s.threads i).context.q.q.atomicR.latest) = some q) :
      ThreadActs s i
        ((s.useQueue i).setThread i
          { (s.threads i).setQueue q with
            pc := match q.producer with
              | .idle => .idle
              | _ => .pushing p })
  | commit {p : Push P} {m : Message} {res : WriteReservation} {q : Queue.Machine}
      (hpc : (s.threads i).pc = .pushing p)
      (hproducer : (s.threads i).context.q.producer = .filling m res m.size)
      (hq : Queue.step (s.threads i).context.q .commitWrite = some q) :
      ThreadActs s i
        ((s.useQueue i).setThread i
          { (s.threads i).setQueue q with
            pc := .idle
            accepted := (s.threads i).accepted ++ [p] })
  | writeByte {p : Push P} {m : Message} {res : WriteReservation} {k : ℕ}
      {q : Queue.Machine} (hpc : (s.threads i).pc = .pushing p)
      (hproducer : (s.threads i).context.q.producer = .filling m res k) (hk : k ≠ m.size)
      (hq : Queue.step (s.threads i).context.q .writeByte = some q) :
      ThreadActs s i ((s.useQueue i).setThread i ((s.threads i).setQueue q))

/-- **Every such step is one of these.** -/
theorem threadActs_of_threadStep {s s' : State P ι κ} {i : ι} (hstep : threadStep s i = some s') :
    ThreadActs s i s' := by
  cases hpc : (s.threads i).pc with
  | idle => simp only [threadStep, hpc, reduceCtorEq] at hstep
  | registering request =>
      by_cases hdone : s.list.registration i = .done
      · cases request with
        | none =>
            simp only [threadStep, hpc, if_pos hdone, Option.some.injEq] at hstep
            subst s'
            exact .initialized hpc hdone
        | some r =>
            simp only [threadStep, hpc, if_pos hdone, Option.some.injEq] at hstep
            subst s'
            exact .registered hpc hdone
      · simp only [threadStep, hpc, if_neg hdone, reduceCtorEq] at hstep
  | reserve p =>
      simp only [threadStep, hpc] at hstep
      obtain ⟨q, hq, rfl⟩ := Option.map_eq_some_iff.mp hstep
      exact .reserve hpc hq
  | pushing p =>
      simp only [threadStep, hpc] at hstep
      cases hproducer : (s.threads i).context.q.producer with
      | idle => simp only [hproducer, reduceCtorEq] at hstep
      | reload m =>
          simp only [hproducer] at hstep
          obtain ⟨q, hq, rfl⟩ := Option.map_eq_some_iff.mp hstep
          exact .reload hpc hproducer hq
      | filling m res k =>
          simp only [hproducer] at hstep
          by_cases hk : k = m.size
          · rw [if_pos hk] at hstep
            subst hk
            obtain ⟨q, hq, rfl⟩ := Option.map_eq_some_iff.mp hstep
            exact .commit hpc hproducer hq
          · rw [if_neg hk] at hstep
            obtain ⟨q, hq, rfl⟩ := Option.map_eq_some_iff.mp hstep
            exact .writeByte hpc hproducer hk hq

end Acts

/-! ## Threads -/

/-- A thread whose handler was never constructed. -/
structure Untouched (t : Thread P κ) : Prop where
  idle : t.pc.isIdle = true
  cached : ∀ k, t.cached k = false

/-- What holds of a thread. -/
structure ThreadLife (list : ThreadList.State ι) (names : UInt64 → Option ι) (i : ι)
    (t : Thread P κ) : Prop where
  notStarted : t.handler = .notConstructed → list.registration i = .notStarted
  untouched : t.handler = .notConstructed → Untouched t
  isAlive : t.context.isAlive = decide (t.handler = .constructed)
  destroyed : t.handler = .destroyed → t.pc.isIdle = true
  requested : i ∈ list.requested → t.handler = .destroyed
  names_eq : t.handler ≠ .notConstructed → i ∉ list.deletedContexts →
    names t.context.namePtr = some i

variable [DecidableEq ι]

/-- The invariant, for the list, the threads, the names, the context the backend is at,
and whether a deleted queue was used. -/
structure Life (list : ThreadList.State ι) (threads : ι → Thread P κ) (names : UInt64 → Option ι)
    (visited : Option ι) (used : Bool) : Prop where
  reachable : Reachable ThreadList.step ThreadList.init list
  thread : ∀ i, ThreadLife list names i (threads i)
  visited_eq : visited = list.visiting
  unused : used = false

/-- The invariant of a state. -/
abbrev LifeInv (s : State P ι κ) : Prop :=
  Life s.list s.threads s.names (s.visit.map Prod.fst) s.usedDeletedQueue

namespace Life
variable {list list' : ThreadList.State ι} {threads : ι → Thread P κ}
  {names names' : UInt64 → Option ι} {visited : Option ι} {used : Bool} {i : ι} {t : Thread P κ}

theorem exists_inv (h : Life list threads names visited used) : ∃ l, ThreadList.Inv l list :=
  ThreadList.reachable_inv h.reachable

/-- Only the context of a thread that has ended is deleted. -/
theorem destroyed_of_deleted (h : Life list threads names visited used)
    (hi : i ∈ list.deletedContexts) : (threads i).handler = .destroyed := by
  have hsound := ThreadList.reachable_sound h.reachable
  exact (h.thread i).requested
    (hsound.unlinked_requested.subset (hsound.contexts_unlinked.subset hi))

/-- The context the backend is at is there, and its removal was not requested. -/
theorem of_visited (h : Life list threads names (some i) used) :
    i ∉ list.requested ∧ i ∉ list.deletedContexts ∧ (threads i).handler ≠ .notConstructed := by
  obtain ⟨l, hinv⟩ := h.exists_inv
  obtain ⟨-, hrequested, hdeleted, hdone⟩ := hinv.visiting_member h.visited_eq.symm
  refine ⟨hrequested, hdeleted, fun hhandler => ?_⟩
  rw [(h.thread i).notStarted hhandler] at hdone
  cases hdone

/-- A step of one thread. -/
theorem update (h : Life list threads names visited used) (hi : ThreadLife list names' i t)
    (hothers : ∀ j, j ≠ i → ThreadLife list names' j (threads j)) :
    Life list (Function.update threads i t) names' visited used where
  reachable := h.reachable
  thread := (Function.forall_update_iff threads (ThreadLife list names')).mpr ⟨hi, hothers⟩
  visited_eq := h.visited_eq
  unused := h.unused

/-- A step of one thread that stays what it is. -/
theorem setThread (h : Life list threads names visited used)
    (hhandler : t.handler = (threads i).handler)
    (hnamePtr : t.context.namePtr = (threads i).context.namePtr)
    (hisAlive : t.context.isAlive = (threads i).context.isAlive)
    (huntouched : t.handler = .notConstructed → Untouched t)
    (hdestroyed : t.handler = .destroyed → t.pc.isIdle = true) :
    Life list (Function.update threads i t) names visited used := by
  refine h.update ?_ fun j _ => h.thread j
  constructor
  · rw [hhandler]
    exact (h.thread i).notStarted
  · exact huntouched
  · rw [hisAlive, hhandler]
    exact (h.thread i).isAlive
  · exact hdestroyed
  · rw [hhandler]
    exact (h.thread i).requested
  · rw [hhandler, hnamePtr]
    exact (h.thread i).names_eq

/-- A thread that has a handler and goes on to some other place of its program. -/
theorem setPc (h : Life list threads names visited used)
    (hi : (threads i).handler = .constructed) (hhandler : t.handler = (threads i).handler)
    (hnamePtr : t.context.namePtr = (threads i).context.namePtr)
    (hisAlive : t.context.isAlive = (threads i).context.isAlive) :
    Life list (Function.update threads i t) names visited used := by
  refine h.setThread hhandler hnamePtr hisAlive ?_ ?_
  · intro hn
    rw [hhandler, hi] at hn
    cases hn
  · intro hd
    rw [hhandler, hi] at hd
    cases hd

/-- A thread that is not idle has a handler, and its context is not deleted. -/
theorem of_not_idle (h : Life list threads names visited used)
    (hpc : (threads i).pc.isIdle = false) :
    (threads i).handler = .constructed ∧ i ∉ list.deletedContexts := by
  have hnotDestroyed : (threads i).handler ≠ .destroyed := by
    intro hd
    rw [(h.thread i).destroyed hd] at hpc
    cases hpc
  refine ⟨?_, fun hdeleted => hnotDestroyed (h.destroyed_of_deleted hdeleted)⟩
  cases hhandler : (threads i).handler with
  | notConstructed =>
      rw [((h.thread i).untouched hhandler).idle] at hpc
      cases hpc
  | constructed => rfl
  | destroyed => exact absurd hhandler hnotDestroyed

/-- A step of the registration of a thread that has a handler. -/
theorem registers (h : Life list threads names visited used)
    (hi : (threads i).handler = .constructed) {a : ThreadList.Action ι}
    (hstep : ThreadList.step list a = some list') (hr : ThreadList.Registers list list' i) :
    Life list' threads names visited used := by
  obtain ⟨l, hinv⟩ := h.exists_inv
  refine ⟨h.reachable.trans (.of_step hstep), fun j => ?_, ?_, h.unused⟩
  · have hj := h.thread j
    refine ⟨fun hn => ?_, hj.untouched, hj.isAlive, hj.destroyed, ?_, ?_⟩
    · have hne : j ≠ i := by
        rintro rfl
        rw [hi] at hn
        cases hn
      rw [hr.registration j hne]
      exact hj.notStarted hn
    · rw [hr.requested]
      exact hj.requested
    · rw [hr.deletedContexts]
      exact hj.names_eq
  · rw [hinv.registers_visiting hr]
    exact h.visited_eq

/-- A step of the list by the backend. -/
theorem backend (h : Life list threads names visited used) {a : ThreadList.Action ι}
    (hstep : ThreadList.step list a = some list')
    (hregistration : list'.registration = list.registration)
    (hrequested : ∀ j ∈ list'.requested, (threads j).handler = .destroyed)
    (hnames : ∀ j, (threads j).handler ≠ .notConstructed → j ∉ list'.deletedContexts →
      names' (threads j).context.namePtr = some j) :
    Life list' threads names' list'.visiting used := by
  refine ⟨h.reachable.trans (.of_step hstep), fun j => ?_, rfl, h.unused⟩
  have hj := h.thread j
  refine ⟨?_, hj.untouched, hj.isAlive, hj.destroyed, hrequested j, hnames j⟩
  rw [hregistration]
  exact hj.notStarted

end Life

/-! ## The steps -/

variable {s s' : State P ι κ} {i : ι}

namespace LifeInv

theorem visited (h : LifeInv s) {v : Visit} (hvisit : s.visit = some (i, v)) :
    Life s.list s.threads s.names (some i) s.usedDeletedQueue := by
  have hi : s.visit.map Prod.fst = some i := by
    rw [hvisit]
    rfl
  exact hi ▸ h

/-- The constructor of a handler. -/
theorem construct (h : LifeInv s) (hhandler : (s.threads i).handler = .notConstructed)
    {name : List Char} {queueSize : ℕ} {namePtr : UInt64} {request : Option (Request P κ)}
    (hstep : construct s i name queueSize namePtr request = some s') : LifeInv s' := by
  obtain ⟨hfree, rfl⟩ := construct_eq_some hstep
  have hrequested : i ∉ s.list.requested := by
    intro hmem
    have hd := (h.thread i).requested hmem
    rw [hhandler] at hd
    cases hd
  refine Life.update h ?_ fun j hj => ?_
  · refine ⟨by simp, by simp, by simp, by simp, fun hmem => absurd hmem hrequested, ?_⟩
    intro _ _
    exact Function.update_self _ _ _
  · have hold := h.thread j
    refine ⟨hold.notStarted, hold.untouched, hold.isAlive, hold.destroyed, hold.requested, ?_⟩
    intro hc hd
    have hname := hold.names_eq hc hd
    have hne : (s.threads j).context.namePtr ≠ namePtr := by
      intro heq
      rw [heq, hfree] at hname
      cases hname
    exact (Function.update_of_ne hne _ _).trans hname

/-- Using the queue of a context that is not deleted. -/
theorem useQueue (h : LifeInv s) (hi : i ∉ s.list.deletedContexts) : LifeInv (s.useQueue i) := by
  refine ⟨h.reachable, h.thread, h.visited_eq, ?_⟩
  simp [State.useQueue, hi, h.unused]

/-- The destruction of a handler. -/
theorem kill (h : LifeInv s) (hpc : (s.threads i).pc.isIdle = true)
    (hhandler : (s.threads i).handler = .constructed) :
    LifeInv (s.setThread i
      { s.threads i with
        handler := .destroyed
        context := { (s.threads i).context with isAlive := false } }) := by
  refine Life.update h ?_ fun j _ => h.thread j
  refine ⟨by simp, by simp, by simp, fun _ => hpc, fun _ => rfl, fun _ hd => ?_⟩
  exact (h.thread i).names_eq (by rw [hhandler]; simp) hd

/-- A thread's queue changes. -/
theorem setQueue (h : LifeInv s) (q : Queue.Machine) :
    LifeInv (s.setThread i ((s.threads i).setQueue q)) :=
  Life.setThread h rfl rfl rfl
    (fun hn => ⟨((h.thread i).untouched hn).idle, ((h.thread i).untouched hn).cached⟩)
    (h.thread i).destroyed

/-- The end of a visit: the removal of a context is requested when its thread is dead. -/
theorem endVisit (h : LifeInv s) (hvisit : s.visit.map Prod.fst = some i) {dead : Bool}
    (hdead : dead = true → (s.threads i).handler = .destroyed) (hstep : endVisit s dead = some s') :
    LifeInv s' := by
  obtain ⟨list', hlist, rfl⟩ := Option.map_eq_some_iff.mp hstep
  obtain ⟨l, hinv⟩ := Life.exists_inv h
  obtain ⟨hrequested, hregistration, hdeleted, hvisiting⟩ :=
    hinv.endVisit (hvisit ▸ h.visited_eq.symm) hlist
  have hdestroyed : ∀ j ∈ list'.requested, (s.threads j).handler = .destroyed := by
    intro j hj
    rw [hrequested, List.mem_append] at hj
    rcases hj with hj | hj
    · exact (h.thread j).requested hj
    · cases dead with
      | false => simp at hj
      | true =>
          obtain rfl : j = i := by simpa using hj
          exact hdead rfl
  have hnames : ∀ j, (s.threads j).handler ≠ .notConstructed → j ∉ list'.deletedContexts →
      s.names (s.threads j).context.namePtr = some j := by
    intro j
    rw [hdeleted]
    exact (h.thread j).names_eq
  have hnext := Life.backend h hlist hregistration hdestroyed hnames
  rwa [hvisiting] at hnext

/-- The names after a step of the backend are those of the contexts that are left. -/
theorem namesAfter (h : LifeInv s) {list' : ThreadList.State ι}
    (hstep : ThreadList.step s.list .backend = some list') {j : ι}
    (hj : (s.threads j).handler ≠ .notConstructed) (hlive : j ∉ list'.deletedContexts) :
    s.namesAfter (s.threads j).context.namePtr = some j := by
  have hbefore : j ∉ s.list.deletedContexts := fun hmem =>
    hlive ((ThreadList.walks_of_backend hstep).deletedContexts hmem)
  have hname := (h.thread j).names_eq hj hbefore
  cases hpc : s.list.pc with
  | deleteContext n next =>
      cases hcontext : ThreadList.contextOf s.list.heap n with
      | none => simpa only [State.namesAfter, hpc, hcontext] using hname
      | some i =>
          obtain ⟨l, hinv⟩ := Life.exists_inv h
          obtain ⟨hrequested, hi, hdeleted⟩ := hinv.deletingContext hpc hcontext hstep
          have hne : (s.threads j).context.namePtr ≠ (s.threads i).context.namePtr := by
            intro heq
            have hhandler : (s.threads i).handler ≠ .notConstructed := by
              rw [(h.thread i).requested hrequested]
              simp
            rw [heq, (h.thread i).names_eq hhandler hi, Option.some.injEq] at hname
            exact hlive (hname ▸ hdeleted)
          simp only [State.namesAfter, hpc, hcontext]
          exact (Function.update_of_ne hne _ _).trans hname
  | _ => simpa only [State.namesAfter, hpc] using hname

/-- A step of `poll_threads` between two contexts. -/
theorem listStep (h : LifeInv s) {a : ThreadList.Action ι} (ha : a = .poll ∨ a = .backend)
    (hstep : listStep s a = some s') : LifeInv s' := by
  obtain ⟨list', hlist, rfl⟩ := Option.map_eq_some_iff.mp hstep
  have hentered : (entered list').map Prod.fst = list'.visiting := by
    cases hpc : list'.pc with
    | visit n next =>
        simp [entered, ThreadList.State.visiting, hpc, Option.map_map, Function.comp_def]
    | _ => simp [entered, ThreadList.State.visiting, hpc]
  have hwalks : ThreadList.Walks s.list list' := by
    rcases ha with rfl | rfl
    · exact (ThreadList.walks_of_poll hlist).1
    · exact ThreadList.walks_of_backend hlist
  have hrequested : ∀ j ∈ list'.requested, (s.threads j).handler = .destroyed := by
    intro j hj
    rw [hwalks.requested] at hj
    exact (h.thread j).requested hj
  have hnames : ∀ j, (s.threads j).handler ≠ .notConstructed → j ∉ list'.deletedContexts →
      s.namesAfter (s.threads j).context.namePtr = some j := by
    rcases ha with rfl | rfl
    · intro j hj hlive
      have houtside : s.list.pc = .outside := ThreadList.outside_of_poll hlist
      have hbefore : j ∉ s.list.deletedContexts := fun hmem => hlive (hwalks.deletedContexts hmem)
      simpa only [State.namesAfter, houtside] using (h.thread j).names_eq hj hbefore
    · exact fun j hj hlive => namesAfter h hlist hj hlive
  have hnext := Life.backend h hlist hwalks.registration hrequested hnames
  rwa [← hentered] at hnext

/-- A step of `poll_threads` at a context. -/
theorem visitStep (h : LifeInv s) {v : Visit} (hvisit : s.visit = some (i, v)) {localTime : ℤ}
    (hstep : visitStep s i v localTime = some s') : LifeInv s' := by
  have hfst : s.visit.map Prod.fst = some i := by rw [hvisit]; rfl
  have hstay : ∀ {s₁ : State P ι κ}, LifeInv s₁ → s₁.visit = s.visit → ∀ v' : Visit,
      LifeInv { s₁ with visit := some (i, v') } := by
    intro s₁ h₁ hv v'
    have heq : s₁.visit.map Prod.fst = some i := by rw [hv, hfst]
    exact ⟨h₁.reachable, h₁.thread, heq.symm.trans h₁.visited_eq, h₁.unused⟩
  cases v with
  | start =>
      obtain ⟨q, -, rfl⟩ := Option.map_eq_some_iff.mp hstep
      exact hstay (setQueue h q) rfl _
  | reload =>
      obtain ⟨q, -, rfl⟩ := Option.map_eq_some_iff.mp hstep
      exact hstay (setQueue h q) rfl _
  | process res =>
      simp only [System.visitStep] at hstep
      split at hstep
      · cases hstep
        exact h
      · split at hstep
        · cases hstep
          exact h
        · cases hstep
          exact hstay (setQueue h _) rfl _
  | level event message =>
      cases hstep
      simp only [processEvent]
      split
      · exact hstay h rfl _
      · split
        · exact h
        · exact hstay h rfl _
  | commit sizeRead =>
      obtain ⟨q, -, hend⟩ := Option.bind_eq_some_iff.mp hstep
      exact endVisit (setQueue h q) hfst (by simp) hend
  | alive =>
      refine endVisit h hfst (fun hdead => ?_) hstep
      have halive := (h.thread i).isAlive
      cases hhandler : (s.threads i).handler with
      | notConstructed => exact absurd hhandler (Life.of_visited (visited h hvisit)).2.2
      | constructed => simp [halive, hhandler] at hdead
      | destroyed => rfl

/-- A step of `poll_threads`. -/
theorem passStep (h : LifeInv s) {localTime : ℤ} {back : Loop}
    (hstep : passStep s localTime back = some s') : LifeInv s' := by
  simp only [System.passStep] at hstep
  cases hvisit : s.visit with
  | some iv =>
      rw [hvisit] at hstep
      exact visitStep h hvisit hstep
  | none =>
      rw [hvisit] at hstep
      by_cases hpc : s.list.pc = .outside
      · simp only [hpc, if_true, Option.some.injEq] at hstep
        subst s'
        exact ⟨h.reachable, h.thread, hvisit ▸ h.visited_eq, h.unused⟩
      · simp only [hpc, if_false] at hstep
        exact listStep h (.inr rfl) hstep

/-- A step of the backend. -/
theorem backendStep (h : LifeInv s) {localTime : ℤ} (hstep : backendStep s localTime = some s') :
    LifeInv s' := by
  cases hloop : s.loop with
  | top | pollSink | pollFormatter | drainTop =>
      simp only [System.backendStep, hloop, Option.some.injEq] at hstep
      subst s'
      exact h
  | poll | drainPoll =>
      simp only [System.backendStep, hloop] at hstep
      obtain ⟨t, ht, rfl⟩ := Option.map_eq_some_iff.mp hstep
      have hnext : LifeInv t := listStep h (.inl rfl) ht
      exact hnext
  | pass | drainPass =>
      simp only [System.backendStep, hloop] at hstep
      exact passStep h hstep
  | exited | terminated => simp only [System.backendStep, hloop, reduceCtorEq] at hstep

variable [DecidableEq κ]

/-- The beginning of a log call. -/
theorem log (h : LifeInv s) {r : Request P κ} {queueSize : ℕ} {namePtr : UInt64}
    (hlate : (s.threads i).handler ≠ .destroyed) (hstep : log s i r queueSize namePtr = some s') :
    LifeInv s' := by
  rcases log_eq_some hstep with ⟨-, hhandler, hconstruct⟩ | ⟨huse, cached, rfl⟩
  · exact construct h hhandler hconstruct
  · cases hhandler : (s.threads i).handler with
    | notConstructed =>
        have hcached := ((h.thread i).untouched hhandler).cached r.instantiation
        rcases huse with huse | huse
        · rw [hcached] at huse
          cases huse
        · exact absurd hhandler huse
    | constructed => exact Life.setPc h hhandler rfl rfl rfl
    | destroyed => exact absurd hhandler hlate

/-- A step of a thread outside of `register_thread`. -/
theorem threadStep (h : LifeInv s) (hstep : threadStep s i = some s') : LifeInv s' := by
  obtain ⟨hi, hlive⟩ : (s.threads i).handler = .constructed ∧ i ∉ s.list.deletedContexts := by
    refine Life.of_not_idle h ?_
    cases threadActs_of_threadStep hstep with
    | _ hpc => rw [hpc]; rfl
  cases threadActs_of_threadStep hstep with
  | initialized | registered => exact Life.setPc h hi rfl rfl rfl
  | _ => exact Life.setPc (useQueue h hlive) hi rfl rfl rfl

/-- **Every step.** -/
theorem step (h : LifeInv s) {a : Action P ι κ} (hlate : NotLate s a)
    (hstep : System.step s a = some s') : LifeInv s' := by
  have hstays : ∀ i {t : Thread P κ}, t.handler = (s.threads i).handler →
      t.context = (s.threads i).context → t.pc = (s.threads i).pc →
      t.cached = (s.threads i).cached →
      Life s.list (Function.update s.threads i t) s.names (s.visit.map Prod.fst)
        s.usedDeletedQueue := by
    intro i t hhandler hcontext hpc hcached
    refine Life.setThread h hhandler (by rw [hcontext]) (by rw [hcontext]) ?_ ?_
    · intro hn
      rw [hhandler] at hn
      have huntouched := (h.thread i).untouched hn
      exact ⟨by rw [hpc]; exact huntouched.idle, by rw [hcached]; exact huntouched.cached⟩
    · rw [hhandler, hpc]
      exact (h.thread i).destroyed
  cases acts_of_step hstep with
  | initThread hidle hhandler hstep => exact construct h hhandler hstep
  | initAgain => exact h
  | log hidle hstep => exact log h hlate hstep
  | @newNode i n request list' hpc hlist =>
      have hi := (Life.of_not_idle h (i := i) (by rw [hpc]; rfl)).1
      exact Life.registers h hi hlist (ThreadList.registers_of_register hlist)
  | @registrar i spurious request list' hpc hlist =>
      have hi := (Life.of_not_idle h (i := i) (by rw [hpc]; rfl)).1
      exact Life.registers h hi hlist (ThreadList.registers_of_registrar hlist)
  | thread hstep => exact threadStep h hstep
  | kill hidle hhandler => exact kill h hidle hhandler
  | setLevel => exact h
  | setSink => exact hstays _ rfl rfl rfl rfl
  | setFormatter => exact hstays _ rfl rfl rfl rfl
  | shutdown => exact h
  | backend hstep => exact backendStep h hstep

end LifeInv

theorem lifeInv_init : LifeInv (init : State P ι κ) where
  reachable := .refl _
  thread := fun i =>
    { notStarted := fun _ => rfl
      untouched := fun _ => ⟨rfl, fun _ => rfl⟩
      isAlive := rfl
      destroyed := by simp [init, Thread.init]
      requested := by simp [init, ThreadList.init]
      names_eq := by simp [init, Thread.init] }
  visited_eq := rfl
  unused := rfl

/-- **Every run.** -/
theorem lifeInv_exec [DecidableEq κ] {as : List (Action P ι κ)} (hlate : Along NotLate step init as)
    (hexec : exec step init as = some s) : LifeInv s :=
  exec_induction_along LifeInv (fun _ _ _ h hl hs => h.step hl hs) lifeInv_init hlate hexec

/-- **No deleted queue is used, unless a thread logs after its handler was destroyed.** -/
theorem exec_unused [DecidableEq κ] {as : List (Action P ι κ)} (hlate : Along NotLate step init as)
    (hexec : exec step init as = some s) : s.usedDeletedQueue = false :=
  (lifeInv_exec hlate hexec).unused

/-- A log call that begins once the context of its thread is deleted uses the deleted queue
with its next step. -/
theorem LifeInv.used_of_log [DecidableEq κ] (h : LifeInv s) (hdeleted : i ∈ s.list.deletedContexts)
    {r : Request P κ} {queueSize : ℕ} {namePtr : UInt64} {s₁ s₂ : State P ι κ}
    (hlog : System.log s i r queueSize namePtr = some s₁)
    (hstep : System.threadStep s₁ i = some s₂) : s₂.usedDeletedQueue = true := by
  have hhandler := Life.destroyed_of_deleted h hdeleted
  rcases log_eq_some hlog with ⟨-, hnot, -⟩ | ⟨-, cached, rfl⟩
  · rw [hhandler] at hnot
    cases hnot
  · simp only [System.threadStep, State.setThread, Function.update_self] at hstep
    obtain ⟨q, -, rfl⟩ := Option.map_eq_some_iff.mp hstep
    simp [State.useQueue, hdeleted]

/-! ## Runs -/

/-- A program with one call site, which logs no arguments. -/
def helloProgram : Program where
  staticData := fun a =>
    if a = 4096 then
      some
        { level := .Info
          fmtStr := "hello".toList
          decodingFn := []
          filename := "main.cpp".toList
          functionname := "main".toList
          line := 94 }
    else none
  vformat := fun fmtStr _ _ => some fmtStr

/-- A call there. -/
def hello (instantiation : ℕ) : Request helloProgram ℕ where
  instantiation := instantiation
  call :=
    { staticData := 4096
      site := _
      site_eq := rfl
      args := .nil
      fits := by decide }
  timestamp := 1000

/-- A thread that logs `hello` once it has its queue. -/
def pushRun (i : ℕ) : List (Action helloProgram ℕ ℕ) := List.replicate 34 (.thread i)

/-- A thread that logs `hello` for the first time, with its node and its name at two
addresses. -/
def firstLogRun (i node : ℕ) (namePtr : UInt64) : List (Action helloProgram ℕ ℕ) :=
  [.log i (hello 0) 64 namePtr, .newNode i node, .registrar i false, .registrar i false,
    .registrar i false, .thread i] ++ pushRun i

def backendRun (n : ℕ) : List (Action helloProgram ℕ ℕ) := List.replicate n (.backend 0)

/-- A thread logs and ends, and the backend writes the event and deletes the context. -/
def endRun : List (Action helloProgram ℕ ℕ) :=
  firstLogRun 0 100 8192 ++ [.kill 0] ++ backendRun 24

theorem exec_unused_endRun :
    ∃ s, exec step init endRun = some s ∧ s.list.deletedContexts = [0] ∧
      s.processed.length = 1 ∧ s.usedDeletedQueue = false := by
  have hrun : ∃ s, exec step init endRun = some s ∧ s.list.deletedContexts = [0] ∧
      s.processed.length = 1 := ⟨_, rfl, rfl, rfl⟩
  obtain ⟨s, hs, hdeleted, hprocessed⟩ := hrun
  exact ⟨s, hs, hdeleted, hprocessed, exec_unused (by decide +kernel) hs⟩

/-- After that an object of the thread that outlives the handler logs, through the pointer
its instantiation has kept. -/
theorem exec_used_lateRun :
    ∃ s, exec step init (endRun ++ [.log 0 (hello 0) 64 8192, .thread 0]) = some s ∧
      s.usedDeletedQueue = true :=
  ⟨_, rfl, rfl⟩

end Papper.System
