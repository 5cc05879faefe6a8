import Papper.System.Refinement

/-!
# Everybody is served

What the threads may rely on while the backend runs.  `poll_threads` takes at most one event
from each queue, so that no thread can keep it from the others: a complete pass takes one event
of every thread that has registered and has any left, however many events the others push
meanwhile, whoever registers, ends or changes a setting, and wherever in the pass they do.

And when the backend thread ends, every thread that had registered has ended, and all it has
logged is processed.

## Main definitions

* `passed` — a step that returns from `poll_threads`.
* `Serving` — how far the events of a thread are.
* `exec_servedWithin`, `exec_exited` — while the backend runs, and when it ends.
-/

namespace Papper.System

open Transition

variable {P : Program} {ι κ : Type} [DecidableEq ι] {s s' t : State P ι κ} {i : ι}

/-! ## What the steps of the threads leave alone -/

/-- A step that is not one of the backend. -/
structure Unserved (s s' : State P ι κ) : Prop where
  processed : s'.processed = s.processed
  loop : s'.loop = s.loop
  visit : s'.visit = s.visit
  list : ThreadList.Recorded s.list s'.list
  accepted : ∀ i, (s.threads i).accepted <+: (s'.threads i).accepted

/-! ## A thread that waits -/

/-- How many events of the thread are processed. -/
def State.done (s : State P ι κ) (i : ι) : ℕ := (recordsOf s.processed i).length

/-- A thread has registered and had committed so many events, of which after `p` passes at least
`goal p` are processed, and one more once the pass under way has come past its context. -/
structure Serving (i : ι) (committed : ℕ) (goal : ℕ → ℕ) (p : ℕ) (s : State P ι κ) : Prop where
  inserted : i ∈ s.list.inserted
  committed_le : committed ≤ (s.threads i).accepted.length
  served : goal p ≤ s.done i
  visiting : s.loop.inPass = true → ∀ v, s.visit = some (i, v) →
    v = .alive ∨ (∃ n, v = .commit n) → goal (p + 1) ≤ s.done i
  snapshot : s.loop.inPass = true → i ∈ s.list.snapshot ∨ goal (p + 1) ≤ s.done i
  visited : s.loop.inPass = true → i ∈ s.list.visited → goal (p + 1) ≤ s.done i

/-- A goal that grows by one event a pass, up to the number committed. -/
structure Paced (committed : ℕ) (goal : ℕ → ℕ) : Prop where
  le_committed : ∀ p, goal p ≤ committed
  succ_le : ∀ p, goal (p + 1) ≤ goal p + 1

namespace Serving
variable {committed p : ℕ} {goal : ℕ → ℕ}

/-- A step that is not one of the backend. -/
theorem unserved (h : Serving i committed goal p s) (hu : Unserved s s') :
    Serving i committed goal p s' := by
  have hdone : s'.done i = s.done i := by rw [State.done, hu.processed, State.done]
  have hcommitted := h.committed_le.trans (hu.accepted i).length_le
  refine ⟨hu.list.inserted h.inserted, hcommitted, ?_, ?_, ?_, ?_⟩
  · rw [hdone]
    exact h.served
  · rw [hu.loop, hu.visit, hdone]
    exact h.visiting
  · rw [hu.loop, hu.list.snapshot, hdone]
    exact h.snapshot
  · rw [hu.loop, hu.list.visited, hdone]
    exact h.visited

/-- A step of the backend outside of `poll_threads`. -/
theorem loop (h : Serving i committed goal p s) (hthreads : s'.threads = s.threads) (hlist : s'.list = s.list)
    (hprocessed : s'.processed = s.processed) (hloop : s'.loop.inPass = false) :
    Serving i committed goal p s' := by
  have hdone : s'.done i = s.done i := by rw [State.done, hprocessed, State.done]
  refine ⟨hlist ▸ h.inserted, hthreads ▸ h.committed_le, hdone ▸ h.served, ?_, ?_, ?_⟩
  all_goals simp [hloop]

/-- What is requested to be removed has been processed to the end. -/
theorem of_requested (h : Serving i committed goal p s) (hgoal : Paced committed goal)
    (hlossless : Lossless s) (hi : i ∈ s.list.requested) (q : ℕ) : goal q ≤ s.done i := by
  obtain ⟨n, hle, hmatches⟩ := hlossless.sane.flow.exists_matches_ge i
  have hdrained := hlossless.loss.requested i hi
  rw [Thread.Drained] at hdrained
  rw [hdrained, ← hmatches.length_eq] at hle
  exact ((hgoal.le_committed q).trans h.committed_le).trans hle

/-- The backend comes to another context. -/
theorem entered (h : Serving i committed goal p s) {list' : ThreadList.State ι}
    {names : UInt64 → Option ι} {loop : Loop} (hinserted : list'.inserted = s.list.inserted)
    (hsnapshot : loop.inPass = true → i ∈ list'.snapshot ∨ goal (p + 1) ≤ s.done i)
    (hvisited : loop.inPass = true → i ∈ list'.visited → goal (p + 1) ≤ s.done i) :
    Serving i committed goal p
      { s with list := list', names := names, visit := System.entered list', loop := loop } := by
  refine ⟨hinserted ▸ h.inserted, h.committed_le, h.served, ?_, hsnapshot, hvisited⟩
  intro _ v hv hplace
  obtain rfl := eq_start_of_entered hv
  rcases hplace with hplace | ⟨n, hplace⟩ <;> cases hplace

/-- Touching a queue commits nothing. -/
theorem accepted_setQueue (j : ι) (q : Queue.Machine) (i : ι) :
    (Function.update s.threads j ((s.threads j).setQueue q) i).accepted
      = (s.threads i).accepted := by
  by_cases hi : i = j
  · subst hi
    rw [Function.update_self]
    rfl
  · rw [Function.update_of_ne hi]

/-- The end of a visit, by which an event of the thread was processed if the visit was to it. -/
theorem endVisit {j : ι} {v : Visit} (h : Serving i committed goal p s) (hsane : Sane s)
    (hvisit : s.visit = some (j, v)) (hplace : v = .alive ∨ ∃ n, v = .commit n)
    {threads : ι → Thread P κ} (haccepted : (threads i).accepted = (s.threads i).accepted)
    {dead : Bool} {list' : ThreadList.State ι}
    (hlist : ThreadList.step s.list (.visit dead) = some list') :
    Serving i committed goal p { s with threads := threads, list := list', visit := none } := by
  obtain ⟨l, hinv⟩ := hsane.exists_list
  obtain ⟨hinserted, hsnapshot, hvisited⟩ := hinv.endVisit_visited (hsane.visiting hvisit) hlist
  refine ⟨hinserted ▸ h.inserted, haccepted ▸ h.committed_le, h.served, by simp, ?_, ?_⟩
  · intro hloop
    rw [hsnapshot]
    exact h.snapshot hloop
  · intro hloop hmem
    rw [hvisited, List.mem_append, List.mem_singleton] at hmem
    rcases hmem with hmem | rfl
    · exact h.visited hloop hmem
    · exact h.visiting hloop v hvisit hplace

/-- Where the backend has come to at the context of the thread without processing an event. -/
theorem succ_le_of_goOn {v v' : Visit} {q : Queue.Machine} (h : Serving i committed goal p s)
    (hgoal : Paced committed goal) (hsane : Sane s) (hloop : s.loop.inPass = true)
    (hvisit : s.visit = some (i, v)) (hv : v.isLevel = false) (hthread : ThreadFlow ((s.threads i).setQueue q))
    (hconsumer : ConsumerAt ((s.threads i).setQueue q) (recordsOf s.processed i) (some v'))
    (hread : q.read = (s.threads i).context.q.read)
    (hempty : v' = .alive → q.committed.length = q.read.length)
    (hplace : v' = .alive ∨ ∃ n, v' = .commit n) : goal (p + 1) ≤ s.done i := by
  have hold := hsane.consumerAt hvisit
  rcases hplace with rfl | ⟨n, rfl⟩
  · -- the queue was found empty, so everything committed was processed
    obtain ⟨-, hmatches⟩ := hconsumer
    have hlength := congrArg List.length hthread.committed
    rw [List.length_map] at hlength
    have hdone : s.done i = (s.threads i).accepted.length := by
      rw [State.done, hmatches.length_eq, q_setQueue, ← hempty rfl]
      exact hlength
    rw [hdone]
    exact (hgoal.le_committed _).trans h.committed_le
  · obtain ⟨p', res, -, -, -, hmatches⟩ := hconsumer
    have hlength := hmatches.length_eq
    rw [q_setQueue, hread] at hlength
    cases v with
    | alive => exact h.visiting hloop _ hvisit (.inl rfl)
    | commit m => exact h.visiting hloop _ hvisit (.inr ⟨m, rfl⟩)
    | level event message => cases hv
    | start | reload | process res' =>
        have hcount := hold.2.length_eq
        omega

/-- **A step of the backend at a context.** -/
theorem visit {j : ι} {v : Visit} (h : Serving i committed goal p s) (hgoal : Paced committed goal)
    (hsane : Sane s) (hloop : s.loop.inPass = true) (hvisit : s.visit = some (j, v))
    (hstep : VisitStep s j v s') : Serving i committed goal p s' := by
  cases hstep with
  | @goOn v v' q hv hthread hconsumer hread hempty =>
      have hcommitted := (accepted_setQueue j q i).symm ▸ h.committed_le
      refine ⟨h.inserted, hcommitted, h.served, ?_, h.snapshot, h.visited⟩
      intro _ v'' hv'' hplace
      rw [Option.some.injEq, Prod.mk.injEq] at hv''
      obtain ⟨rfl, rfl⟩ := hv''
      exact h.succ_le_of_goOn hgoal hsane hloop hvisit hv hthread hconsumer hread
        (fun hv' => (hempty hv').1) hplace
  | @processed event message p' line hp hdescribes hline hconsumer =>
      let r : Processed ι := ⟨j, event, s.minLogLevel, line⟩
      have hmono : s.done i ≤ (recordsOf (s.processed ++ [r]) i).length := by
        rw [recordsOf, List.filter_append, List.length_append]
        exact Nat.le_add_right _ _
      refine ⟨h.inserted, h.committed_le, h.served.trans hmono, ?_,
        fun hloop => (h.snapshot hloop).imp_right fun hnext => hnext.trans hmono,
        fun hloop hmem => (h.visited hloop hmem).trans hmono⟩
      intro _ v'' hv'' _
      rw [Option.some.injEq, Prod.mk.injEq] at hv''
      obtain ⟨rfl, -⟩ := hv''
      have hcount : (recordsOf (s.processed ++ [r]) j).length = s.done j + 1 := by
        rw [recordsOf_concat_self rfl, List.length_append, List.length_singleton, State.done]
      rw [State.done, hcount]
      exact (hgoal.succ_le p).trans (Nat.succ_le_succ h.served)
  | terminated =>
      exact h.loop rfl rfl rfl rfl
  | committed hthread hconsumer hlist =>
      exact h.endVisit hsane hvisit (.inr ⟨_, rfl⟩) (accepted_setQueue j _ i) hlist
  | left hlist => exact h.endVisit hsane hvisit (.inl rfl) rfl hlist

end Serving

/-! ## Passes -/

/-- A step that returns from `poll_threads`. -/
def passed (s : State P ι κ) (_ : Action P ι κ) (s' : State P ι κ) : List Unit :=
  if s.loop.inPass = true ∧ s'.loop.between = true then [()] else []

omit [DecidableEq ι] in
/-- A step that returns from nowhere. -/
theorem passed_of_not {a : Action P ι κ}
    (h : s.loop.inPass = true → s'.loop.inPass = true ∨ s'.loop = .terminated) :
    passed s a s' = [] := by
  refine if_neg ?_
  rintro ⟨hpass, hbetween⟩
  rcases h hpass with hloop | hloop
  · cases hs : s'.loop <;> rw [hs] at hloop hbetween
    all_goals simp [Loop.inPass, Loop.between] at hloop hbetween
  · rw [hloop] at hbetween
    cases hbetween

/-- **A step of the backend.** -/
theorem Serving.backend {committed p : ℕ} {goal : ℕ → ℕ} (h : Serving i committed goal p s)
    (hgoal : Paced committed goal) (hlossless : Lossless s) {localTime : ℤ}
    (hstep : backendStep s localTime = some s') :
    Serving i committed goal (p + (passed s (.backend localTime : Action P ι κ) s').length) s' := by
  obtain ⟨l, hinv⟩ := hlossless.sane.exists_list
  have hinside : ∀ {t : State P ι κ},
      (s.loop.inPass = true → t.loop.inPass = true ∨ t.loop = .terminated) →
      Serving i committed goal p t →
      Serving i committed goal (p + (passed s (.backend localTime : Action P ι κ) t).length) t := by
    intro t hloop ht
    rwa [passed_of_not hloop]
  have houtside : ∀ {t : State P ι κ}, s.loop.inPass = false → Serving i committed goal p t →
      Serving i committed goal (p + (passed s (.backend localTime : Action P ι κ) t).length) t := by
    intro t hloop ht
    exact hinside (by simp [hloop]) ht
  cases backendActs_of_backendStep hstep with
  | top hloop =>
      refine houtside (by rw [hloop]; rfl) (h.loop rfl rfl rfl ?_)
      cases s.running <;> rfl
  | pollSink hloop => exact houtside (by rw [hloop]; rfl) (h.loop rfl rfl rfl rfl)
  | pollFormatter hloop => exact houtside (by rw [hloop]; rfl) (h.loop rfl rfl rfl rfl)
  | drainTop hloop =>
      refine houtside (by rw [hloop]; rfl) (h.loop rfl rfl rfl ?_)
      by_cases hhead : s.list.head = none <;> simp [hhead, Loop.inPass]
  | poll hloop hlist =>
      refine houtside (Loop.inPass_of_enters hloop).2 ?_
      obtain ⟨-, hinserted, -, -⟩ := ThreadList.poll_frame hlist
      obtain ⟨hsnapshot, hvisited⟩ := ThreadList.poll_record hlist
      refine h.entered hinserted (fun _ => ?_) (fun _ hmem => ?_)
      · -- what is in no pass any more was asked to be removed
        rw [hsnapshot, hinv.mem_members_iff (ThreadList.outside_of_poll hlist)]
        by_cases hrequested : i ∈ s.list.requested
        · exact .inr (h.of_requested hgoal hlossless hrequested (p + 1))
        · exact .inl ⟨h.inserted, hrequested⟩
      · rw [hvisited] at hmem
        cases hmem
  | @visit j v s' hloop hvisit hstep =>
      have hcases := visitStep_cases hlossless.sane.flow hlossless.sane.life hvisit hstep
      refine hinside (fun hpass => ?_) (h.visit hgoal hlossless.sane hloop hvisit hcases)
      rcases hcases.visits.loop with heq | heq
      · exact .inl (heq ▸ hpass)
      · exact .inr heq
  | @list list' hloop hvisit hout hlist =>
      obtain ⟨l', hinv'⟩ := hinv.step hlist
      have hpasses := ThreadList.backend_cases hlist hinv'.fault
      refine hinside .inl (h.entered hpasses.inserted ?_ ?_)
      · rw [hpasses.snapshot]
        exact h.snapshot
      · rw [hpasses.visited]
        exact h.visited
  | @passEnd back hloop hvisit hout =>
      obtain ⟨hpass, hback⟩ := Loop.inPass_of_back hloop
      have hlabel : passed s (.backend localTime : Action P ι κ) { s with loop := back } = [()] :=
        if_pos ⟨hpass, Loop.between_of_back hloop⟩
      have hall := (ThreadList.reachable_sound hlossless.sane.life.reachable).visited_all hout
      have hnext : goal (p + 1) ≤ s.done i := by
        rcases h.snapshot hpass with hmem | hnext
        · exact h.visited hpass (hall ▸ hmem)
        · exact hnext
      rw [hlabel]
      refine ⟨h.inserted, h.committed_le, hnext, ?_, ?_, ?_⟩
      all_goals simp [hback]

/-- How many events of a thread are to be processed after so many passes. -/
def State.goal (s : State P ι κ) (i : ι) (p : ℕ) : ℕ :=
  min (s.threads i).accepted.length (s.done i + (p - s.loop.inPass.toNat))

theorem paced_goal (s : State P ι κ) (i : ι) :
    Paced (s.threads i).accepted.length (s.goal i) where
  le_committed := fun _ => min_le_left _ _
  succ_le := by
    intro p
    simp only [State.goal]
    omega

theorem serving_goal (h : Lossless s) (hdone : s.list.registration i = .done) :
    Serving i (s.threads i).accepted.length (s.goal i) 0 s := by
  have hnext : s.loop.inPass = true → s.goal i 1 ≤ s.done i := by
    intro hpass
    simp [State.goal, hpass]
  refine ⟨ThreadList.reachable_inserted h.sane.life.reachable i hdone, le_refl _, ?_, ?_, ?_, ?_⟩
  · simp [State.goal]
  · exact fun hpass _ _ _ => hnext hpass
  · exact fun hpass => .inr (hnext hpass)
  · exact fun hpass _ => hnext hpass

variable [DecidableEq κ]

theorem Sane.unserved (h : Sane s) {a : Action P ι κ} (hbackend : a.isBackend = false)
    (hstep : System.step s a = some s') : Unserved s s' := by
  have hprefix := fun i : ι => List.prefix_refl (s.threads i).accepted
  have hrefl := ThreadList.Recorded.refl s.list
  obtain ⟨l, hinv⟩ := h.exists_list
  cases acts_of_step hstep with
  | initThread hidle hhandler hconstruct =>
      obtain ⟨-, rfl⟩ := construct_eq_some hconstruct
      exact ⟨rfl, rfl, rfl, hrefl, accepted_update List.prefix_rfl⟩
  | log hidle hlog =>
      rcases log_eq_some hlog with ⟨-, -, hconstruct⟩ | ⟨-, cached, rfl⟩
      · obtain ⟨-, rfl⟩ := construct_eq_some hconstruct
        exact ⟨rfl, rfl, rfl, hrefl, accepted_update List.prefix_rfl⟩
      · exact ⟨rfl, rfl, rfl, hrefl, accepted_update List.prefix_rfl⟩
  | newNode hpc hlist =>
      exact ⟨rfl, rfl, rfl, ThreadList.recorded_of_register hlist, hprefix⟩
  | registrar hpc hlist => exact ⟨rfl, rfl, rfl, (hinv.registerStep hlist).recorded, hprefix⟩
  | thread hthread =>
      obtain ⟨t, used, rfl, -, hruns⟩ := threadStep_cases (h.flow.thread _)
        (fun hpc => (Life.of_not_idle h.life hpc).1) hthread
      exact ⟨rfl, rfl, rfl, hrefl, accepted_update hruns.accepted_isPrefix⟩
  | kill => exact ⟨rfl, rfl, rfl, hrefl, accepted_update List.prefix_rfl⟩
  | setSink => exact ⟨rfl, rfl, rfl, hrefl, accepted_update List.prefix_rfl⟩
  | setFormatter => exact ⟨rfl, rfl, rfl, hrefl, accepted_update List.prefix_rfl⟩
  | initAgain | setLevel | shutdown => exact ⟨rfl, rfl, rfl, hrefl, hprefix⟩
  | backend => cases hbackend

/-- **Every step.** -/
theorem Serving.step {committed p : ℕ} {goal : ℕ → ℕ}
    (h : Serving i committed goal p s) (hgoal : Paced committed goal) (hlossless : Lossless s)
    {a : Action P ι κ} (hstep : System.step s a = some s') :
    Serving i committed goal (p + (passed s a s').length) s' := by
  cases hbackend : a.isBackend with
  | false =>
      have hunserved := hlossless.sane.unserved hbackend hstep
      have hlabel : passed s a s' = [] := passed_of_not fun hpass => .inl (hunserved.loop ▸ hpass)
      rw [hlabel]
      exact h.unserved hunserved
  | true =>
      obtain ⟨localTime, rfl⟩ : ∃ localTime, a = .backend localTime := by
        cases a with
        | backend localTime => exact ⟨localTime, rfl⟩
        | _ => cases hbackend
      exact h.backend hgoal hlossless hstep

theorem lossless_exec {as : List (Action P ι κ)}
    (hcond : Along (fun s a => Client s a ∧ EndsInTime s a) step init as)
    (hexec : exec step init as = some s) : Lossless s :=
  exec_induction_along Lossless (fun _ _ _ h hcond hstep => h.step hcond.1 hcond.2 hstep)
    lossless_init hcond hexec

/-- **Every pass takes an event of every thread.**  From any state on, whatever the threads do
and in whatever order: once the backend has returned so many times from `poll_threads`, not
counting a pass that was under way, so many more events of each thread that had registered are
processed, or all that it had committed. -/
theorem exec_servedWithin {as bs : List (Action P ι κ)}
    (has : Along (fun s a => Client s a ∧ EndsInTime s a) step init as)
    (hs : exec step init as = some s)
    (hbs : Along (fun s a => Client s a ∧ EndsInTime s a) step s bs)
    (ht : exec step s bs = some t) (hdone : s.list.registration i = .done) :
    min (s.threads i).accepted.length
        (s.done i + ((trace passed step s bs).length - s.loop.inPass.toNat)) ≤ t.done i := by
  have hlossless := lossless_exec has hs
  have hrun : Lossless t ∧ Serving i (s.threads i).accepted.length (s.goal i)
      (trace passed step s bs).length t := by
    refine exec_induction_trace
      (fun ps t => Lossless t ∧ Serving i (s.threads i).accepted.length (s.goal i) ps.length t) ?_
      ⟨hlossless, serving_goal hlossless hdone⟩ hbs ht
    intro ps t a t' h hcond hstep
    refine ⟨h.1.step hcond.1 hcond.2 hstep, ?_⟩
    rw [List.length_append]
    exact h.2.step (paced_goal s i) h.1 hstep
  exact hrun.2.served

/-- A thread has logged twice and another once. -/
def twoRun : List (Action helloProgram ℕ ℕ) :=
  firstLogRun 0 100 8192 ++ [.log 0 (hello 0) 64 8192] ++ pushRun 0 ++ firstLogRun 1 101 8448

/-- The backend makes a pass, and the other thread logs again while it is at its context. -/
def passRun : List (Action helloProgram ℕ ℕ) :=
  backendRun 6 ++ [.log 1 (hello 0) 64 8448] ++ pushRun 1 ++ backendRun 12

theorem exec_servedWithin_passRun :
    ∃ s t, exec step init twoRun = some s ∧ exec step s passRun = some t ∧
      (s.threads 0).accepted.length = 2 ∧ (trace passed step s passRun).length = 1 ∧
      min (s.threads 0).accepted.length
        (s.done 0 + ((trace passed step s passRun).length - s.loop.inPass.toNat)) ≤ t.done 0 := by
  have hrun : ((exec step init twoRun).bind fun s => (exec step s passRun).map fun _ =>
      ((s.threads 0).accepted.length, (trace passed step s passRun).length,
        s.list.registration 0,
        decide (Along (fun s a => Client s a ∧ EndsInTime s a) step s passRun)))
      = some (2, 1, .done, true) := by
    decide +kernel
  obtain ⟨s, hs, hrun⟩ := Option.bind_eq_some_iff.mp hrun
  obtain ⟨t, ht, hstate⟩ := Option.map_eq_some_iff.mp hrun
  simp only [Prod.mk.injEq, decide_eq_true_eq] at hstate
  obtain ⟨haccepted, hpassed, hdone, hcond⟩ := hstate
  exact ⟨s, t, hs, ht, haccepted, hpassed,
    exec_servedWithin (by decide +kernel) hs hcond ht hdone⟩

/-! ## The end of the backend -/

/-- **The backend thread ends with nothing left.**  When it leaves its drain loop, the program
was shut down, and every thread that had registered, be it while the loop was running, has ended
and has no context and no node any more; and all that it had logged is processed, in its order
and each event once. -/
theorem exec_exited {as : List (Action P ι κ)}
    (hcond : Along (fun s a => Client s a ∧ EndsInTime s a) step init as)
    (hs : exec step init as = some s) {localTime : ℤ}
    (ht : step s (.backend localTime) = some t) (hexited : t.loop = .exited) :
    t.running = false ∧ ∀ i, t.list.registration i = .done →
      (t.threads i).handler = .destroyed ∧ i ∈ t.list.deletedContexts ∧ i ∈ t.list.deletedNodes ∧
        List.Forall₂ (Describes (t.threads i).context.name) (t.threads i).accepted
          (recordsOf t.processed i) := by
  have h := lossless_exec hcond hs
  have hnot : s.loop ≠ .exited := by
    intro hloop
    simp only [step, backendStep, hloop, reduceCtorEq] at ht
  cases backendActs_of_backendStep ht with
  | top hloop => cases hrunning : s.running <;> simp [hrunning] at hexited
  | pollSink hloop => cases hexited
  | pollFormatter hloop => cases hexited
  | poll hloop hlist =>
      have hpass := (Loop.inPass_of_enters hloop).1
      subst hexited
      cases hpass
  | visit hloop hvisit hstep =>
      rcases (visitStep_cases h.sane.flow h.sane.life hvisit hstep).visits.loop with heq | heq
      · exact absurd (heq ▸ hexited) hnot
      · rw [heq] at hexited
        cases hexited
  | list hloop hvisit hout hlist => exact absurd hexited hnot
  | passEnd hloop =>
      subst hexited
      cases hold : s.loop <;> rw [hold] at hloop <;> cases hloop
  | drainTop hloop =>
      by_cases hhead : s.list.head = none
      · refine ⟨h.stopped (by rw [hloop]; rfl), fun i hdone => ?_⟩
        have hout := h.sane.outside (by rw [hloop]; rfl)
        have hinserted := ThreadList.reachable_inserted h.sane.life.reachable i hdone
        obtain ⟨hcontext, hnode⟩ := h.sane.deleted hout hhead hinserted
        have hsound := ThreadList.reachable_sound h.sane.life.reachable
        have hrequested := hsound.unlinked_requested.subset (hsound.contexts_unlinked.subset hcontext)
        have hunread : (s.threads i).unread = [] := by
          rw [Thread.unread, List.drop_eq_nil_iff]
          exact (h.loss.requested i hrequested).ge
        exact ⟨(h.sane.life.thread i).requested hrequested, hcontext, hnode,
          h.sane.forall₂_of_unread (h.sane.visit_eq_none hout) hunread⟩
      · simp [hhead] at hexited

/-- A thread that logs and ends, the program is shut down, and the backend ends. -/
def exitRun : List (Action helloProgram ℕ ℕ) := endRun ++ [.shutdown, .backend 0]

theorem exec_exited_exitRun :
    ∃ s t, exec step init exitRun = some s ∧ step s (.backend 0) = some t ∧
      t.loop = .exited ∧ t.list.registration 0 = .done ∧ t.processed.length = 1 ∧
      t.running = false ∧ ∀ i, t.list.registration i = .done →
        (t.threads i).handler = .destroyed ∧ i ∈ t.list.deletedContexts ∧
          i ∈ t.list.deletedNodes ∧
          List.Forall₂ (Describes (t.threads i).context.name) (t.threads i).accepted
            (recordsOf t.processed i) := by
  have hrun : ∃ s t, exec step init exitRun = some s ∧ step s (.backend 0) = some t ∧
      t.loop = .exited ∧ t.list.registration 0 = .done ∧ t.processed.length = 1 :=
    ⟨_, _, rfl, rfl, rfl, rfl, rfl⟩
  obtain ⟨s, t, hs, ht, hexited, hdone, hprocessed⟩ := hrun
  exact ⟨s, t, hs, ht, hexited, hdone, hprocessed, exec_exited (by decide +kernel) hs ht hexited⟩

end Papper.System
