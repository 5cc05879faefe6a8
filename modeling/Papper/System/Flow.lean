import Papper.System.Steps

/-!
# What is written of a thread

The records of a thread's events, in the order in which the backend made them, are those
of a prefix of the events the thread has committed, one for one.  This puts the queue, the
framing of events and the list of threads together: the queue hands the bytes of the next
committed event over, `readEvent` finds the event in them and its end, and the name in its
header is there as long as its context is in the list.

## Main definitions

* `FlowInv.step` — every step preserves the invariant.
* `exec_exactPrefix` — what is written of a thread is an exact prefix.
-/

namespace Papper.System

open Transition

variable {P : Program} {ι κ : Type}

variable [DecidableEq ι]

namespace Flow
variable {threads : ι → Thread P κ} {processed : List (Processed ι)}
  {visit : Option (ι × Visit)} {fault : Bool} {i : ι} {t : Thread P κ}

/-- A step of a thread. -/
theorem update (h : Flow threads processed visit fault) (ht : ThreadFlow t)
    (hc : ConsumerAt t (recordsOf processed i) (visitOf visit i)) :
    Flow (Function.update threads i t) processed visit fault := by
  have hthread := Function.forall_update_iff threads (a := i) (b := t) fun _ => ThreadFlow
  have hconsumer := Function.forall_update_iff threads (a := i) (b := t) fun j t =>
    ConsumerAt t (recordsOf processed j) (visitOf visit j)
  exact ⟨hthread.mpr ⟨ht, fun j _ => h.thread j⟩, hconsumer.mpr ⟨hc, fun j _ => h.consumer j⟩,
    h.no_fault⟩

/-- A step of a thread that leaves the consumer of its queue alone. -/
theorem runs (h : Flow threads processed visit fault) (ht : ThreadFlow t) (hruns : Runs (threads i) t) :
    Flow (Function.update threads i t) processed visit fault := by
  apply h.update ht
  apply (h.consumer i).mono
  · exact hruns.produces.consumer
  · exact hruns.produces.read
  · exact hruns.name
  · exact hruns.accepted_isPrefix

/-- A step of the backend at a context. -/
theorem visitTo {v : Visit} (h : Flow threads processed (some (i, v)) fault) (ht : ThreadFlow t)
    {processed' : List (Processed ι)}
    (hothers : ∀ j, j ≠ i → recordsOf processed' j = recordsOf processed j) {v' : Option Visit}
    (hc : ConsumerAt t (recordsOf processed' i) v') :
    Flow (Function.update threads i t) processed' (v'.map (Prod.mk i)) fault := by
  have hself : visitOf (v'.map (Prod.mk i)) i = v' := by
    cases v' <;> simp [visitOf]
  have hother : ∀ j, j ≠ i → visitOf (v'.map (Prod.mk i)) j = visitOf (some (i, v)) j := by
    intro j hj
    cases v' <;> simp [visitOf, hj.symm]
  have hthread := Function.forall_update_iff threads (a := i) (b := t) fun _ => ThreadFlow
  have hconsumer := Function.forall_update_iff threads (a := i) (b := t) fun j t =>
    ConsumerAt t (recordsOf processed' j) (visitOf (v'.map (Prod.mk i)) j)
  refine ⟨hthread.mpr ⟨ht, fun j _ => h.thread j⟩, hconsumer.mpr ⟨?_, ?_⟩, h.no_fault⟩
  · rwa [hself]
  · intro j hj
    rw [hothers j hj, hother j hj]
    exact h.consumer j

/-- The backend between two contexts. -/
theorem list (h : Flow threads processed none fault)
    (hvisit : ∀ j v, visit = some (j, v) → v = .start) : Flow threads processed visit fault := by
  refine ⟨h.thread, fun j => ?_, h.no_fault⟩
  have hj := h.consumer j
  cases visit with
  | none => exact hj
  | some place =>
      obtain ⟨k, v⟩ := place
      obtain rfl := hvisit k v rfl
      by_cases heq : k = j
      · simp only [visitOf, heq, if_true]
        exact hj
      · simp only [visitOf, heq, if_false]
        exact hj

end Flow

variable {s s' : State P ι κ} {i : ι}

namespace FlowInv

/-- The constructor of a handler. -/
theorem construct (h : FlowInv s) (hlife : LifeInv s)
    (hhandler : (s.threads i).handler = .notConstructed) {name : List Char} {queueSize : ℕ}
    (hsize : 2 * bitCeil queueSize < 2 ^ 64) {namePtr : UInt64} {request : Option (Request P κ)}
    (hstep : construct s i name queueSize namePtr request = some s') : FlowInv s' := by
  obtain ⟨-, rfl⟩ := construct_eq_some hstep
  have haccepted := (h.thread i).fresh hhandler
  have hvisit : visitOf s.visit i = none := by
    apply visitOf_eq_none
    intro v hv
    exact (Life.of_visited (hlife.visited hv)).2.2 hhandler
  have hold := h.consumer i
  rw [hvisit] at hold
  have hrecords : recordsOf s.processed i = [] := by
    have hdescribes := hold.2.describes
    rw [haccepted, List.take_nil] at hdescribes
    exact List.forall₂_nil_left_iff.mp hdescribes
  apply Flow.update h
  · constructor
    · exact ⟨_, Queue.inv_new hsize⟩
    · simp [haccepted, Queue.Machine.new]
    · rfl
    · simp [haccepted]
    · intro hn
      cases hn
  · rw [hvisit, hrecords]
    refine ⟨rfl, rfl, ?_⟩
    simp [haccepted]

/-- A step of the backend at a context. -/
theorem visit (h : FlowInv s) {v : Visit} (hvisit : s.visit = some (i, v))
    (hstep : VisitStep s i v s') : FlowInv s' := by
  have hflow : Flow s.threads s.processed (some (i, v)) s.fault := hvisit ▸ h
  have hsame : ∀ {processed' : List (Processed ι)} {v' : Option Visit},
      (∀ j, j ≠ i → recordsOf processed' j = recordsOf s.processed j) →
      ConsumerAt (s.threads i) (recordsOf processed' i) v' →
      Flow s.threads processed' (v'.map (Prod.mk i)) s.fault := by
    intro processed' v' hothers hc
    have hnext := hflow.visitTo (hflow.thread i) hothers hc
    rwa [Function.update_eq_self] at hnext
  have hhere := h.consumer i
  rw [hvisit, visitOf, if_pos rfl] at hhere
  cases hstep with
  | goOn hv hthread hconsumer => exact hflow.visitTo hthread (fun _ _ => rfl) hconsumer
  | processed hp hdescribes hline hconsumer =>
      refine hsame ?_ hconsumer
      intro j hj
      exact recordsOf_concat_of_ne hj.symm
  | terminated => exact h
  | committed hthread hconsumer => exact hflow.visitTo hthread (fun _ _ => rfl) hconsumer
  | left hlist =>
      have hnext : ConsumerAt (s.threads i) (recordsOf s.processed i) none := hhere
      exact hsame (fun _ _ => rfl) hnext

/-- A step of the backend. -/
theorem backend (h : FlowInv s) (hstep : BackendStep s s') : FlowInv s' := by
  cases hstep with
  | loop => exact h
  | pollSink => exact h
  | pollFormatter => exact h
  | list hnone hvisit hwalks =>
      have hflow : Flow s.threads s.processed none s.fault := hvisit ▸ h
      apply hflow.list
      intro j v hj
      simp only [entered] at hj
      split at hj
      · obtain ⟨k, -, hk⟩ := Option.map_eq_some_iff.mp hj
        cases hk
        rfl
      · cases hj
  | visit hvisit hprocessing hstep => exact visit h hvisit hstep

/-- **Every step.** -/
theorem step (h : FlowInv s) (hlife : LifeInv s) {a : Action P ι κ} (hstep : Step s a s') :
    FlowInv s' := by
  cases hstep with
  | stay => exact h
  | construct ha hhandler hsize hstep => exact construct h hlife hhandler hsize hstep
  | runs ha hthread hruns => exact Flow.runs h hthread hruns
  | registers => exact h
  | @kill i hpc hhandler =>
      apply Flow.update h
      · constructor
        · exact (h.thread i).queue
        · exact (h.thread i).committed
        · exact (h.thread i).producing
        · exact (h.thread i).named
        · intro hn
          cases hn
      · exact (h.consumer i).mono rfl rfl rfl List.prefix_rfl
  | setLevel => exact h
  | @setSink i file =>
      have ht : ThreadFlow { s.threads i with sinkStamp := s.sinkCalls + 1 } :=
        (h.thread i).of_context rfl rfl rfl (h.thread i).producing
      exact Flow.runs h ht (Runs.of_context rfl rfl rfl fun _ hp => .inl hp)
  | @setFormatter i formatter =>
      have ht : ThreadFlow { s.threads i with formatterStamp := s.formatterCalls + 1 } :=
        (h.thread i).of_context rfl rfl rfl (h.thread i).producing
      exact Flow.runs h ht (Runs.of_context rfl rfl rfl fun _ hp => .inl hp)
  | shutdown => exact h
  | backend hstep => exact backend h hstep

/-- Wherever the backend is, the records of a thread are those of some number of events, and
what was read is among them. -/
theorem exists_matches_ge (h : FlowInv s) (i : ι) :
    ∃ n, (s.threads i).context.q.read.length ≤ n ∧
      Matches (s.threads i) (recordsOf s.processed i) n := by
  have hconsumer := h.consumer i
  rcases hv : visitOf s.visit i with _ | (_ | _ | res | ⟨event, message⟩ | sizeRead | _) <;>
    rw [hv] at hconsumer
  · exact ⟨_, le_rfl, hconsumer.2⟩
  · exact ⟨_, le_rfl, hconsumer.2⟩
  · exact ⟨_, le_rfl, hconsumer.2⟩
  · exact ⟨_, le_rfl, hconsumer.2⟩
  · obtain ⟨p, res, -, -, -, -, hmatches⟩ := hconsumer
    exact ⟨_, le_rfl, hmatches⟩
  · obtain ⟨p, res, -, -, -, hmatches⟩ := hconsumer
    exact ⟨_, Nat.le_succ _, hmatches⟩
  · exact ⟨_, le_rfl, hconsumer.2⟩

theorem exists_matches (h : FlowInv s) (i : ι) :
    ∃ n, Matches (s.threads i) (recordsOf s.processed i) n := by
  obtain ⟨n, -, hn⟩ := h.exists_matches_ge i
  exact ⟨n, hn⟩

end FlowInv

theorem flowInv_init : FlowInv (init : State P ι κ) where
  thread := fun _ =>
    { queue := ⟨_, Queue.inv_new (by decide)⟩
      committed := rfl
      producing := rfl
      named := by simp [init, Thread.init]
      fresh := fun _ => rfl }
  consumer := fun _ => ⟨rfl, rfl, .nil⟩
  no_fault := rfl

variable [DecidableEq κ]

/-- **Every run.** -/
theorem invariants_exec {as : List (Action P ι κ)} (hclient : Along Client step init as)
    (hexec : exec step init as = some s) : LifeInv s ∧ FlowInv s := by
  refine exec_induction_along (fun t => LifeInv t ∧ FlowInv t) ?_ ⟨lifeInv_init, flowInv_init⟩
    hclient hexec
  intro t a t' ht hc hstep
  exact ⟨ht.1.step hc.notLate hstep, ht.2.step ht.1 (step_cases ht.2 ht.1 hc hstep)⟩

/-- **What is written of a thread is an exact prefix.**  In every state, the records of a
thread are those of the first events it has committed, one for one and in order: each has
a line exactly if the event's level was not below the minimum that the backend loaded for
it, and then the line has the name of the thread and what the event says.  The backend has
not followed a pointer to nothing. -/
theorem exec_exactPrefix {as : List (Action P ι κ)} (hclient : Along Client step init as)
    (hexec : exec step init as = some s) :
    s.fault = false ∧ ∀ i, ∃ n ≤ (s.threads i).accepted.length,
      List.Forall₂ (Describes (s.threads i).context.name) ((s.threads i).accepted.take n)
        (recordsOf s.processed i) := by
  obtain ⟨-, hflow⟩ := invariants_exec hclient hexec
  refine ⟨hflow.no_fault, fun i => ?_⟩
  obtain ⟨n, hn⟩ := hflow.exists_matches i
  exact ⟨n, hn.le, hn.describes⟩

/-- A thread logs three times, and the third event finds its queue full; another thread
logs too.  Each has an event written before the minimum level is raised and the first
thread ends. -/
def fullRun : List (Action helloProgram ℕ ℕ) :=
  firstLogRun 0 100 8192 ++ [.log 0 (hello 0) 64 8192] ++ pushRun 0 ++
    [.log 0 (hello 1) 64 8192, .thread 0, .thread 0] ++ firstLogRun 1 101 8448 ++ backendRun 16 ++
    [.setLevel 1 .Error, .kill 0] ++ backendRun 14

theorem exec_exactPrefix_fullRun :
    ∃ s, exec step init fullRun = some s ∧ (s.threads 0).accepted.length = 2 ∧
      (recordsOf s.processed 0).map (fun r => r.line.isSome) = [true, false] ∧
      (recordsOf s.processed 1).map (fun r => r.line.isSome) = [true] ∧
      (s.fault = false ∧ ∀ i, ∃ n ≤ (s.threads i).accepted.length,
        List.Forall₂ (Describes (s.threads i).context.name) ((s.threads i).accepted.take n)
          (recordsOf s.processed i)) := by
  have hrun : (exec step init fullRun).map (fun s =>
      ((s.threads 0).accepted.length, (recordsOf s.processed 0).map (fun r => r.line.isSome),
        (recordsOf s.processed 1).map (fun r => r.line.isSome)))
      = some (2, [true, false], [true]) := by decide +kernel
  obtain ⟨s, hs, hrecords⟩ := Option.map_eq_some_iff.mp hrun
  rw [Prod.mk.injEq, Prod.mk.injEq] at hrecords
  obtain ⟨haccepted, hfirst, hsecond⟩ := hrecords
  exact ⟨s, hs, haccepted, hfirst, hsecond, exec_exactPrefix (by decide +kernel) hs⟩

end Papper.System
