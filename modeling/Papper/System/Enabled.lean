import Papper.System.Drain
import Papper.System.Logging

/-!
# Nobody waits

A party whose next step is not enabled waits for another one.  No thread in a call of the library
does so, in `register_thread` or in `push_log_event`, and neither does the backend, until it has
left its loop: whatever the others have done, and wherever they have stopped, its next step can be
taken.

## Main definitions

* `NextStep` — what the next step of a thread in a call is.
* `exec_neverWaits` — it can be taken, and so can that of the backend.
-/

namespace Papper

open Transition

namespace Queue
variable {s s' : Machine}

/-- No more bytes are filled than the message has. -/
def Machine.Bounded (s : Machine) : Prop :=
  ∀ m res k, s.producer = .filling m res k → k ≤ m.size

theorem bounded_of_producer_eq (h : s.Bounded) (hproducer : s'.producer = s.producer) :
    s'.Bounded := by
  rw [Machine.Bounded, hproducer]
  exact h

theorem bounded_of_idle (h : s.producer = .idle) : s.Bounded := by
  intro m res k hfilling
  rw [h] at hfilling
  cases hfilling

theorem bounded_grant {q : Queue} {m : Message} (h : s.producer = Machine.grant q m) :
    s.Bounded := by
  intro m' res k hfilling
  rw [h, Machine.grant] at hfilling
  cases hfilling
  exact Nat.zero_le _

/-- The producer's steps keep it. -/
theorem Machine.Bounded.reserveWrite {m : Message} (hstep : step s (.reserveWrite m) = some s') :
    s'.Bounded := by
  simp only [step] at hstep
  split at hstep
  · split at hstep
    · cases hstep
      intro m' res k hfilling
      cases hfilling
    · cases hstep
      exact bounded_grant rfl
  · cases hstep

theorem Machine.Bounded.loadR {i : ℕ} (hstep : step s (.loadR i) = some s') : s'.Bounded := by
  simp only [step] at hstep
  split at hstep
  · obtain ⟨q, -, rfl⟩ := Option.map_eq_some_iff.mp hstep
    split
    · exact bounded_of_idle rfl
    · exact bounded_grant rfl
  · cases hstep

theorem Machine.Bounded.writeByte (hstep : step s .writeByte = some s') : s'.Bounded := by
  simp only [step] at hstep
  split at hstep
  · rename_i m res k hproducer
    obtain ⟨b, hb, rfl⟩ := Option.map_eq_some_iff.mp hstep
    intro m' res' k' hfilling
    cases hfilling
    exact (List.getElem?_eq_some_iff.mp hb).1
  · cases hstep

theorem Machine.Bounded.commitWrite (hstep : step s .commitWrite = some s') : s'.Bounded := by
  simp only [step] at hstep
  split at hstep
  · split at hstep
    · cases hstep
      exact bounded_of_idle rfl
    · cases hstep
  · cases hstep

end Queue

namespace System

variable {P : Program} {ι κ : Type} [DecidableEq ι] {s s' : State P ι κ} {i : ι}

/-! ## What is filled -/

def QueuesBounded (s : State P ι κ) : Prop := ∀ i, (s.threads i).context.q.Bounded

theorem QueuesBounded.update (h : QueuesBounded s) {t : Thread P κ}
    (hthreads : s'.threads = Function.update s.threads i t) (ht : t.context.q.Bounded) :
    QueuesBounded s' := by
  intro j
  rw [hthreads]
  exact (Function.forall_update_iff s.threads fun _ t => t.context.q.Bounded).mpr
    ⟨ht, fun j _ => h j⟩ j

theorem QueuesBounded.construct (h : QueuesBounded s) {name : List Char} {queueSize : ℕ}
    {namePtr : UInt64} {request : Option (Request P κ)}
    (hstep : construct s i name queueSize namePtr request = some s') : QueuesBounded s' := by
  obtain ⟨-, rfl⟩ := construct_eq_some hstep
  exact h.update rfl (Queue.bounded_of_idle rfl)

variable [DecidableEq κ]

theorem QueuesBounded.thread (h : QueuesBounded s) (hstep : ThreadActs s i s') :
    QueuesBounded s' := by
  cases hstep with
  | initialized | registered => exact h.update rfl (h i)
  | reserve hpc hq => exact h.update rfl (Queue.Machine.Bounded.reserveWrite hq)
  | reload hpc hproducer hq => exact h.update rfl (Queue.Machine.Bounded.loadR hq)
  | commit hpc hproducer hq => exact h.update rfl (Queue.Machine.Bounded.commitWrite hq)
  | writeByte hpc hproducer hk hq => exact h.update rfl (Queue.Machine.Bounded.writeByte hq)

theorem QueuesBounded.step (h : QueuesBounded s) {a : Action P ι κ}
    (hstep : System.step s a = some s') : QueuesBounded s' := by
  cases acts_of_step hstep with
  | initThread hidle hhandler hconstruct => exact h.construct hconstruct
  | initAgain => exact h
  | @log i _ _ _ _ hidle hlog =>
      rcases log_eq_some hlog with ⟨-, -, hconstruct⟩ | ⟨-, cached, rfl⟩
      · exact h.construct hconstruct
      · exact h.update rfl (h i)
  | thread hthread => exact h.thread (threadActs_of_threadStep hthread)
  | @kill i | @setSink i | @setFormatter i => exact h.update rfl (h i)
  | backend hbackend =>
      intro i
      exact Queue.bounded_of_producer_eq (h i) (stays_of_backendStep hbackend i).drains.producer
  | newNode | registrar | setLevel | shutdown => exact h

/-! ## The next step -/

/-- The next step of a thread that is in a call. -/
inductive NextStep (s : State P ι κ) (i : ι) : Action P ι κ → Prop
  | newNode {n : ℕ} {request : Option (Request P κ)} (hpc : (s.threads i).pc = .registering request)
      (hregistration : s.list.registration i = .notStarted) (hfree : s.list.heap n = none) :
      NextStep s i (.newNode i n)
  | registrar {spurious : Bool} {request : Option (Request P κ)}
      (hpc : (s.threads i).pc = .registering request)
      (hstarted : s.list.registration i ≠ .notStarted) (hdone : s.list.registration i ≠ .done) :
      NextStep s i (.registrar i spurious)
  | registered {request : Option (Request P κ)} (hpc : (s.threads i).pc = .registering request)
      (hdone : s.list.registration i = .done) : NextStep s i (.thread i)
  | reserve {p : Push P} (hpc : (s.threads i).pc = .reserve p) : NextStep s i (.thread i)
  | pushing {p : Push P} (hpc : (s.threads i).pc = .pushing p) : NextStep s i (.thread i)

omit [DecidableEq ι] [DecidableEq κ] in
/-- A thread in a call has one, as long as there is memory. -/
theorem exists_nextStep (hpc : (s.threads i).pc.isIdle = false)
    (hmemory : ∃ n, s.list.heap n = none) : ∃ a, NextStep s i a := by
  cases hplace : (s.threads i).pc with
  | idle =>
      rw [hplace] at hpc
      cases hpc
  | registering request =>
      obtain ⟨n, hfree⟩ := hmemory
      cases hregistration : s.list.registration i with
      | notStarted => exact ⟨_, .newNode hplace hregistration hfree⟩
      | done => exact ⟨_, .registered hplace hregistration⟩
      | _ =>
          refine ⟨.registrar i false, .registrar hplace ?_ ?_⟩
          · simp [hregistration]
          · simp [hregistration]
  | reserve p => exact ⟨_, .reserve hplace⟩
  | pushing p => exact ⟨_, .pushing hplace⟩

/-- The producer's next step is there. -/
theorem threadStep_pushing (hthread : ThreadFlow (s.threads i))
    (hbounded : (s.threads i).context.q.Bounded) {p : Push P}
    (hpc : (s.threads i).pc = .pushing p) : ∃ s', threadStep s i = some s' := by
  obtain ⟨k, hinv⟩ := hthread.queue
  have hproducing := hthread.producing
  rw [hpc] at hproducing
  obtain ⟨hreload | ⟨res, k, hfilling⟩, -⟩ := hproducing
  · obtain ⟨q, hq, -⟩ := hinv.loadR_latest hreload
    simp [threadStep, hpc, hreload, hq]
  · by_cases hlast : k = p.event.message.size
    · simp [threadStep, hpc, hfilling, hlast, Queue.step]
    · have hk := lt_of_le_of_ne (hbounded _ _ _ hfilling) hlast
      have hbyte := List.getElem?_eq_getElem (l := p.event.message.bytes) hk
      simp [threadStep, hpc, hfilling, hlast, Queue.step, hbyte]

theorem NextStep.enabled (hsane : Sane s) (hbounded : QueuesBounded s) {a : Action P ι κ}
    (h : NextStep s i a) : ∃ s', System.step s a = some s' := by
  obtain ⟨l, hinv⟩ := hsane.exists_list
  have hthread := hsane.flow.thread i
  cases h with
  | newNode hpc hregistration hfree =>
      simp [System.step, hpc, ThreadList.step, hinv.fault, hregistration, hfree]
  | registrar hpc hstarted hdone =>
      simp only [System.step, hpc, ThreadList.step, hinv.fault, Bool.false_eq_true, if_false]
      cases hregistration : s.list.registration i with
      | notStarted => exact absurd hregistration hstarted
      | done => exact absurd hregistration hdone
      | _ =>
          simp only [ThreadList.registrar, hregistration, Option.map_some]
          exact ⟨_, rfl⟩
  | @registered request hpc hdone =>
      cases request <;> simp [System.step, threadStep, hpc, hdone]
  | @reserve p hpc =>
      obtain ⟨k, hqueue⟩ := hthread.queue
      have hproducing := hthread.producing
      rw [hpc] at hproducing
      obtain ⟨q, hq, -⟩ := hqueue.reserveWrite_enabled hproducing.1 p.event.message
      simp [System.step, threadStep, hpc, hq]
  | pushing hpc => exact threadStep_pushing hthread (hbounded i) hpc

omit [DecidableEq κ] in
theorem backendStep_enabled (hsane : Sane s) (hexited : s.loop ≠ .exited)
    (hterminated : s.loop ≠ .terminated) (localTime : ℤ) :
    ∃ s', backendStep s localTime = some s' := by
  obtain ⟨l, hinv⟩ := hsane.exists_list
  have hpoll : s.loop.between = true → ∃ s', listStep s .poll = some s' := by
    intro hbetween
    simp [listStep, ThreadList.step, hinv.fault, hsane.outside hbetween]
  have hpass : ∀ back, ∃ s', passStep s localTime back = some s' := by
    intro back
    cases hvisit : s.visit with
    | some place =>
        simp only [passStep, hvisit]
        exact hsane.visitStep_enabled hvisit localTime
    | none =>
        by_cases hout : s.list.pc = .outside
        · simp [passStep, hvisit, hout]
        · have hvisiting := hsane.life.visited_eq
          rw [hvisit] at hvisiting
          obtain ⟨list', hlist⟩ := hinv.backend_enabled hout hvisiting.symm
          simp [passStep, hvisit, hout, listStep, hlist]
  cases hloop : s.loop with
  | poll | drainPoll =>
      obtain ⟨s', hs'⟩ := hpoll (by rw [hloop]; rfl)
      simp [backendStep, hloop, hs']
  | pass | drainPass =>
      simp only [backendStep, hloop]
      exact hpass _
  | exited => exact absurd hloop hexited
  | terminated => exact absurd hloop hterminated
  | _ =>
      simp only [backendStep, hloop]
      exact ⟨_, rfl⟩

/-- **Nobody waits.**  In every state of every run, the next step of each thread that is in a call
can be taken, and as long as there is memory there is one; and so can the next step of the
backend, unless it has left its loop or an exception has left it.  Whatever parties have stopped
for good, the others go on. -/
theorem exec_neverWaits {as : List (Action P ι κ)} (hclient : Along Client step init as)
    (hexec : exec step init as = some s) :
    (∀ i a, NextStep s i a → ∃ s', step s a = some s') ∧
      (∀ i, (s.threads i).pc.isIdle = false → (∃ n, s.list.heap n = none) → ∃ a, NextStep s i a) ∧
      (s.loop ≠ .exited → s.loop ≠ .terminated →
        ∀ localTime, ∃ s', step s (.backend localTime) = some s') := by
  have hsane : Sane s := (sane_exec hclient hexec).1
  have hbounded : QueuesBounded s :=
    exec_induction QueuesBounded (fun _ _ _ h hstep => h.step hstep)
      (fun _ => Queue.bounded_of_idle rfl) hexec
  exact ⟨fun i a h => h.enabled hsane hbounded, fun i => exists_nextStep,
    backendStep_enabled hsane⟩

/-- A thread has stopped while it fills its buffer, another between two attempts to register, and
the backend at a context. -/
def stoppedRun : List (Action helloProgram ℕ ℕ) :=
  (firstLogRun 0 100 8192).take 20 ++
    [.log 1 (hello 0) 64 8448, .newNode 1 101, .registrar 1 false, .registrar 1 true] ++
    backendRun 6

theorem exec_neverWaits_stoppedRun :
    ∃ s, exec step init stoppedRun = some s ∧ (s.threads 0).pc.isIdle = false ∧
      (s.threads 1).pc.isIdle = false ∧ s.visit.isSome ∧
      (∀ i a, NextStep s i a → ∃ s', step s a = some s') ∧
      ∃ s', step s (.backend 0) = some s' := by
  have hrun : ∃ s, exec step init stoppedRun = some s ∧ (s.threads 0).pc.isIdle = false ∧
      (s.threads 1).pc.isIdle = false ∧ s.visit.isSome ∧ s.loop = .pass :=
    ⟨_, rfl, rfl, rfl, rfl, rfl⟩
  obtain ⟨s, hs, hfirst, hsecond, hvisit, hloop⟩ := hrun
  obtain ⟨hthreads, -, hbackend⟩ := exec_neverWaits (by decide +kernel) hs
  exact ⟨s, hs, hfirst, hsecond, hvisit, hthreads,
    hbackend (by simp [hloop]) (by simp [hloop]) 0⟩

end System

end Papper
