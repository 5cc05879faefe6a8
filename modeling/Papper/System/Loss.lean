import Papper.System.Flow

/-!
# What is lost when a thread ends

The backend deletes the context of a thread once it has found its queue empty and, after
that, its thread dead.  These are two loads, and nothing keeps the thread from committing
an event and ending between them: that event is deleted with the queue.  If no thread does
that, every event a thread has committed was processed when its context is deleted.

## Main definitions

* `EndsInTime` — no thread ends between the two loads with an event committed there.
* `LossInv` — the invariant.
* `exec_lossless` — nothing is lost then.
-/

namespace Papper.System

open Transition

variable {P : Program} {ι κ : Type}

/-- The backend is between its two loads. -/
def Visit.isAlive : Visit → Bool
  | alive => true
  | _ => false

/-- Every event the thread has committed was read. -/
def Thread.Drained (t : Thread P κ) : Prop := t.context.q.read.length = t.accepted.length

variable [DecidableEq ι]

/-- A thread that ends while the backend is between its two loads at the context has
committed nothing since the first of them: the position the backend has loaded is the one
the thread has committed. -/
def EndsInTime (s : State P ι κ) : Action P ι κ → Prop
  | .kill i =>
      (visitOf s.visit i).any Visit.isAlive = true →
        (s.threads i).context.q.q.w = (s.threads i).context.q.q.cachedW
  | _ => True

instance decidableEndsInTime (s : State P ι κ) : (a : Action P ι κ) → Decidable (EndsInTime s a)
  | .kill i =>
      inferInstanceAs (Decidable ((visitOf s.visit i).any Visit.isAlive = true →
        (s.threads i).context.q.q.w = (s.threads i).context.q.q.cachedW))
  | .initThread .. | .log .. | .newNode .. | .registrar .. | .thread .. | .setLevel ..
  | .setSink .. | .setFormatter .. | .shutdown | .backend .. => isTrue trivial

/-- What the backend knows of the thread of the context it is at. -/
structure Emptied (t : Thread P κ) : Prop where
  cachedW_eq : t.context.q.q.cachedW = t.context.q.q.r
  drained : t.handler = .destroyed → t.Drained

/-- The invariant, for the parts of the state it is about. -/
structure Loss (requested : List ι) (threads : ι → Thread P κ) (visit : Option (ι × Visit)) :
    Prop where
  requested : ∀ i ∈ requested, (threads i).Drained
  emptied : ∀ i, visit = some (i, .alive) → Emptied (threads i)

/-- The invariant of a state. -/
abbrev LossInv (s : State P ι κ) : Prop := Loss s.list.requested s.threads s.visit

namespace Loss
variable {requested : List ι} {threads : ι → Thread P κ} {visit : Option (ι × Visit)} {i : ι}
  {t : Thread P κ}

omit [DecidableEq ι] in
/-- The backend is nowhere between its two loads. -/
theorem leave (h : Loss requested threads visit) {visit' : Option (ι × Visit)}
    (hvisit : ∀ j, visit' ≠ some (j, .alive)) : Loss requested threads visit' :=
  ⟨h.requested, fun j hj => absurd hj (hvisit j)⟩

/-- A step of a thread. -/
theorem update (h : Loss requested threads visit) (hrequested : i ∈ requested → t.Drained)
    (hemptied : visit = some (i, .alive) → Emptied t) :
    Loss requested (Function.update threads i t) visit := by
  constructor
  · intro j hj
    by_cases heq : j = i
    · subst j
      rw [Function.update_self]
      exact hrequested hj
    · rw [Function.update_of_ne heq]
      exact h.requested j hj
  · intro j hj
    by_cases heq : j = i
    · subst j
      rw [Function.update_self]
      exact hemptied hj
    · rw [Function.update_of_ne heq]
      exact h.emptied j hj

/-- A step of the backend that stays at a context. -/
theorem visitTo (h : Loss requested threads visit) (hi : i ∉ requested) {v : Visit}
    (hemptied : v = .alive → Emptied t) :
    Loss requested (Function.update threads i t) (some (i, v)) := by
  constructor
  · intro j hj
    have hne : j ≠ i := by
      rintro rfl
      exact hi hj
    rw [Function.update_of_ne hne]
    exact h.requested j hj
  · intro j hj
    cases hj
    rw [Function.update_self]
    exact hemptied rfl

/-- A step of a thread that keeps its handler. -/
theorem runs (h : Loss requested threads visit)
    (hidle : (threads i).handler = .destroyed → (threads i).pc.isIdle = true)
    (hdestroyed : i ∈ requested → (threads i).handler = .destroyed)
    (hruns : Runs (threads i) t) : Loss requested (Function.update threads i t) visit := by
  have hdrained : (threads i).handler = .destroyed → (threads i).Drained → t.Drained := by
    intro hhandler hold
    have hpush : (threads i).pc.push? = none := by
      have hpc := hidle hhandler
      cases hp : (threads i).pc with
      | idle => rfl
      | _ => simp [hp, ThreadPc.isIdle] at hpc
    have haccepted : t.accepted = (threads i).accepted := by
      rcases hruns.accepted with heq | ⟨p, hp, -⟩
      · exact heq
      · rw [hpush] at hp
        cases hp
    rw [Thread.Drained, hruns.produces.read, haccepted]
    exact hold
  apply h.update
  · intro hi
    exact hdrained (hdestroyed hi) (h.requested i hi)
  · intro hvisit
    have hold := h.emptied i hvisit
    constructor
    · rw [hruns.produces.cachedW, hruns.produces.r]
      exact hold.cachedW_eq
    · intro hhandler
      rw [hruns.handler] at hhandler
      exact hdrained hhandler (hold.drained hhandler)

end Loss

variable {s s' : State P ι κ} {i : ι}

namespace LossInv

/-- The construction of a handler. -/
theorem construct (h : LossInv s) (hlife : LifeInv s)
    (hhandler : (s.threads i).handler = .notConstructed) {name : List Char} {queueSize : ℕ}
    {namePtr : UInt64} {request : Option (Request P κ)}
    (hstep : construct s i name queueSize namePtr request = some s') : LossInv s' := by
  obtain ⟨-, rfl⟩ := construct_eq_some hstep
  apply Loss.update h
  · intro hi
    have hdestroyed := (hlife.thread i).requested hi
    rw [hhandler] at hdestroyed
    cases hdestroyed
  · intro hvisit
    exact absurd hhandler (Life.of_visited (hlife.visited hvisit)).2.2

/-- The end of a thread. -/
theorem kill (h : LossInv s) (hflow : FlowInv s) (hlife : LifeInv s)
    (hhandler : (s.threads i).handler = .constructed) (htime : EndsInTime s (.kill i)) :
    LossInv (s.setThread i
      { s.threads i with
        handler := .destroyed
        context := { (s.threads i).context with isAlive := false } }) := by
  apply Loss.update h
  · intro hi
    have hdestroyed := (hlife.thread i).requested hi
    rw [hhandler] at hdestroyed
    cases hdestroyed
  · intro hvisit
    have hcached := (h.emptied i hvisit).cachedW_eq
    refine ⟨hcached, fun _ => ?_⟩
    have hw : (s.threads i).context.q.q.w = (s.threads i).context.q.q.cachedW :=
      htime (by rw [hvisit]; simp [visitOf, Visit.isAlive])
    obtain ⟨k, hinv⟩ := (hflow.thread i).queue
    have hread := hinv.w_eq_r_iff.mp (hw.trans hcached)
    rw [(hflow.thread i).committed, List.length_map] at hread
    exact hread.symm

/-- A step of the backend at a context. -/
theorem visit (h : LossInv s) (hlife : LifeInv s) {v : Visit} (hvisit : s.visit = some (i, v))
    (hstep : VisitStep s i v s') : LossInv s' := by
  have hvisited := hlife.visited hvisit
  have hnot : i ∉ s.list.requested := (Life.of_visited hvisited).1
  obtain ⟨l, hinv⟩ := Life.exists_inv hlife
  cases hstep with
  | @goOn _ v' q hv hthread hconsumer hread hempty =>
      apply Loss.visitTo h hnot
      rintro rfl
      obtain ⟨hlength, hcached⟩ := hempty rfl
      refine ⟨hcached, fun _ => ?_⟩
      have hlen := congrArg List.length hthread.committed
      rw [List.length_map] at hlen
      exact hlength.symm.trans hlen
  | processed => exact h.leave (by simp)
  | terminated => exact h
  | @committed sizeRead q list' hthread hconsumer hlist =>
      have hleft : Loss s.list.requested s.threads (none : Option (ι × Visit)) := h.leave (by simp)
      have hnext : Loss s.list.requested
          (Function.update s.threads i ((s.threads i).setQueue q)) none :=
        hleft.update (fun hi => absurd hi hnot) (by simp)
      obtain ⟨hrequested, -, -, -⟩ := hinv.endVisit hvisited.visited_eq.symm hlist
      rw [if_neg (by simp), List.append_nil] at hrequested
      rw [← hrequested] at hnext
      exact hnext
  | @left list' hlist =>
      obtain ⟨hrequested, -, -, -⟩ := hinv.endVisit hvisited.visited_eq.symm hlist
      refine ⟨fun j hj => ?_, by simp⟩
      rw [hrequested, List.mem_append] at hj
      rcases hj with hj | hj
      · exact h.requested j hj
      · have halive := (hlife.thread i).isAlive
        have hemptied := h.emptied i hvisit
        cases hdead : (s.threads i).context.isAlive with
        | true => simp [hdead] at hj
        | false =>
            obtain rfl : j = i := by simpa [hdead] using hj
            apply hemptied.drained
            rw [hdead, eq_comm, decide_eq_false_iff_not] at halive
            cases hhandler : (s.threads j).handler with
            | notConstructed => exact absurd hhandler (Life.of_visited hvisited).2.2
            | constructed => exact absurd hhandler halive
            | destroyed => rfl

/-- **Every step.** -/
theorem step (h : LossInv s) (hflow : FlowInv s) (hlife : LifeInv s) {a : Action P ι κ}
    (htime : EndsInTime s a) (hstep : Step s a s') : LossInv s' := by
  have hruns : ∀ {i : ι} {t : Thread P κ}, Runs (s.threads i) t →
      Loss s.list.requested (Function.update s.threads i t) s.visit := by
    intro i t hruns
    exact h.runs (hlife.thread i).destroyed (hlife.thread i).requested hruns
  cases hstep with
  | stay => exact h
  | construct ha hhandler hsize hstep => exact construct h hlife hhandler hstep
  | runs ha hthread h' => exact hruns h'
  | registers ha hregisters =>
      have hrequested := hregisters.requested
      rw [LossInv, hrequested]
      exact h
  | kill hpc hhandler => exact kill h hflow hlife hhandler htime
  | setLevel => exact h
  | setSink => exact hruns (Runs.of_context rfl rfl rfl fun _ hp => .inl hp)
  | setFormatter => exact hruns (Runs.of_context rfl rfl rfl fun _ hp => .inl hp)
  | shutdown => exact h
  | backend hstep =>
      cases hstep with
      | loop => exact h
      | pollSink => exact h
      | pollFormatter => exact h
      | list hnone hvisit hwalks =>
          have hrequested := hwalks.requested
          rw [LossInv, hrequested]
          apply h.leave
          intro j hj
          simp only [entered] at hj
          split at hj
          · obtain ⟨k, -, hk⟩ := Option.map_eq_some_iff.mp hj
            cases hk
          · cases hj
      | visit hvisit hprocessing hstep => exact visit h hlife hvisit hstep

end LossInv

omit [DecidableEq ι] in
theorem lossInv_init : LossInv (init : State P ι κ) := ⟨by simp [init, ThreadList.init], by simp [init]⟩

variable [DecidableEq κ]

/-- **Nothing is lost when a thread ends, unless it ends between the two loads of the
backend and has committed an event there.**  When a context is deleted, the records of
its thread are those of all the events the thread has committed, one for one. -/
theorem exec_lossless {as : List (Action P ι κ)}
    (hcond : Along (fun s a => Client s a ∧ EndsInTime s a) step init as)
    (hexec : exec step init as = some s) :
    ∀ i ∈ s.list.deletedContexts,
      List.Forall₂ (Describes (s.threads i).context.name) (s.threads i).accepted
        (recordsOf s.processed i) := by
  have hrun : LifeInv s ∧ FlowInv s ∧ LossInv s := by
    refine exec_induction_along (fun t => LifeInv t ∧ FlowInv t ∧ LossInv t) ?_
      ⟨lifeInv_init, flowInv_init, lossInv_init⟩ hcond hexec
    intro t a t' ⟨hlife, hflow, hloss⟩ hc hstep
    have hcases := step_cases hflow hlife hc.1 hstep
    exact ⟨hlife.step hc.1.notLate hstep, hflow.step hlife hcases,
      hloss.step hflow hlife hc.2 hcases⟩
  obtain ⟨hlife, hflow, hloss⟩ := hrun
  intro i hi
  have hsound := ThreadList.reachable_sound hlife.reachable
  have hrequested : i ∈ s.list.requested :=
    hsound.unlinked_requested.subset (hsound.contexts_unlinked.subset hi)
  have hvisit : visitOf s.visit i = none := by
    apply visitOf_eq_none
    intro v hv
    exact (Life.of_visited (hlife.visited hv)).1 hrequested
  have hconsumer := hflow.consumer i
  rw [hvisit] at hconsumer
  have hdescribes := hconsumer.2.describes
  have hdrained : (s.threads i).context.q.read.length = (s.threads i).accepted.length :=
    hloss.requested i hrequested
  rwa [hdrained, List.take_length] at hdescribes

/-- A thread that logs and ends before the backend looks. -/
theorem exec_lossless_endRun :
    ∃ s, exec step init endRun = some s ∧ 0 ∈ s.list.deletedContexts ∧
      List.Forall₂ (Describes (s.threads 0).context.name) (s.threads 0).accepted
        (recordsOf s.processed 0) := by
  have hrun : (exec step init endRun).map (fun s => s.list.deletedContexts) = some [0] := by
    decide +kernel
  obtain ⟨s, hs, hdeleted⟩ := Option.map_eq_some_iff.mp hrun
  have hmem : 0 ∈ s.list.deletedContexts := by rw [hdeleted]; exact List.mem_singleton_self 0
  exact ⟨s, hs, hmem, exec_lossless (by decide +kernel) hs 0 hmem⟩

/-- A thread with an empty queue logs and ends when the backend has found the queue empty
and is about to load whether the thread is alive. -/
def lossRun : List (Action helloProgram ℕ ℕ) :=
  [.initThread 0 "worker".toList 64 8192, .newNode 0 100, .registrar 0 false, .registrar 0 false,
    .registrar 0 false, .thread 0] ++ backendRun 7 ++ [.log 0 (hello 0) 64 8192] ++ pushRun 0 ++
    [.kill 0] ++ backendRun 5

/-- Its event was committed, and never processed. -/
theorem exec_lossy_lossRun :
    Along Client step init lossRun ∧ ∃ s, exec step init lossRun = some s ∧
      s.list.deletedContexts = [0] ∧ s.list.deletedNodes = [0] ∧
      (s.threads 0).accepted.length = 1 ∧ s.processed = [] :=
  ⟨by decide +kernel, _, rfl, rfl, rfl, rfl, rfl⟩

end Papper.System
