import Papper.System.Flow
import Papper.ThreadList.Progress

/-!
# The backend polls alone

While the threads take no steps the backend goes on by itself: each of its steps is enabled,
and a visit takes one event, or finds the queue empty and requests the removal of a dead
thread's context.  How far a pass is, is then a relation between the states at its beginning
and now.

## Main definitions

* `Thread.unread` — the events left in a queue.
* `Sane` — the invariants the backend relies on.
* `Passing` — how far a pass is.
* `Passing.step` — every step of a pass.
-/

namespace Papper.System

open Transition

variable {P : Program} {ι κ : Type}

/-- The events left in the queue. -/
def Thread.unread (t : Thread P κ) : List (Push P) :=
  t.accepted.drop t.context.q.read.length

@[simp] theorem accepted_setQueue (t : Thread P κ) (q : Queue.Machine) :
    (t.setQueue q).accepted = t.accepted := rfl

@[simp] theorem handler_setQueue (t : Thread P κ) (q : Queue.Machine) :
    (t.setQueue q).handler = t.handler := rfl

@[simp] theorem q_setQueue (t : Thread P κ) (q : Queue.Machine) :
    (t.setQueue q).context.q = q := rfl

/-- The backend is not in `poll_threads`, and no exception has left it. -/
def Loop.between : Loop → Bool
  | .pass | .drainPass | .terminated => false
  | _ => true

/-- The backend is in `poll_threads`. -/
def Loop.inPass : Loop → Bool
  | .pass | .drainPass => true
  | _ => false

/-- How far the backend is from the end of a visit. -/
def Visit.rank : Visit → ℕ
  | .start => 4
  | .reload => 3
  | .process _ => 2
  | .level _ _ => 1
  | .commit _ | .alive => 0

variable [DecidableEq ι]

/-- The invariants the backend relies on. -/
structure Sane (s : State P ι κ) : Prop where
  life : LifeInv s
  flow : FlowInv s
  outside : s.loop.between = true → s.list.pc = .outside

variable {s s' s₀ : State P ι κ} {i : ι}

/-! ## Every step -/

theorem VisitStep.loop_eq {v : Visit} (h : VisitStep s i v s') :
    s'.loop = s.loop ∨ s'.loop = .terminated := by
  cases h with
  | terminated => exact .inr rfl
  | _ => exact .inl rfl

namespace Sane

/-- A step of the backend leaves `poll_threads` only from outside of the list. -/
theorem outside_backend (h : Sane s) {localTime : ℤ} (hstep : backendStep s localTime = some s') :
    s'.loop.between = true → s'.list.pc = .outside := by
  have hpass : ∀ {back : Loop}, s.loop.between = false → passStep s localTime back = some s' →
      s'.loop.between = true → s'.list.pc = .outside := by
    intro back hloop hpass hbetween
    simp only [passStep] at hpass
    cases hvisit : s.visit with
    | some place =>
        simp only [hvisit] at hpass
        rcases (visitStep_cases h.flow h.life hvisit hpass).loop_eq with heq | heq
        · rw [heq, hloop] at hbetween
          cases hbetween
        · rw [heq] at hbetween
          cases hbetween
    | none =>
        simp only [hvisit] at hpass
        by_cases hpc : s.list.pc = .outside
        · rw [if_pos hpc] at hpass
          cases hpass
          exact hpc
        · rw [if_neg hpc] at hpass
          obtain ⟨list', -, rfl⟩ := Option.map_eq_some_iff.mp hpass
          exact absurd hbetween (by simp [hloop])
  cases hloop : s.loop with
  | top | pollSink | pollFormatter | drainTop =>
      have hout := h.outside (by rw [hloop]; rfl)
      simp only [backendStep, hloop, Option.some.injEq] at hstep
      subst s'
      exact fun _ => hout
  | poll | drainPoll =>
      simp only [backendStep, hloop] at hstep
      obtain ⟨t, -, rfl⟩ := Option.map_eq_some_iff.mp hstep
      intro hbetween
      cases hbetween
  | pass | drainPass =>
      simp only [backendStep, hloop] at hstep
      exact hpass (by rw [hloop]; rfl) hstep
  | exited | terminated => simp only [backendStep, hloop, reduceCtorEq] at hstep

/-- **Every step.** -/
theorem step [DecidableEq κ] (h : Sane s) {a : Action P ι κ} (hclient : Client s a)
    (hstep : System.step s a = some s') : Sane s' := by
  have hcases := step_cases h.flow h.life hclient hstep
  refine ⟨h.life.step hclient.notLate hstep, h.flow.step h.life hcases, ?_⟩
  cases hcases with
  | construct ha hhandler hsize hstep =>
      obtain ⟨-, rfl⟩ := construct_eq_some hstep
      exact h.outside
  | registers ha hregisters =>
      intro hbetween
      exact hregisters.pc.trans (h.outside hbetween)
  | backend => exact h.outside_backend hstep
  | _ => exact h.outside

/-- Between two passes the backend is at no context. -/
theorem visit_eq_none (h : Sane s) (hout : s.list.pc = .outside) : s.visit = none := by
  have hvisited := h.life.visited_eq
  simp only [ThreadList.State.visiting, hout] at hvisited
  exact Option.map_eq_none_iff.mp hvisited

end Sane

theorem sane_init : Sane (init : State P ι κ) := ⟨lifeInv_init, flowInv_init, fun _ => rfl⟩

/-! ## Visits -/

/-- The next event can be formatted, if there is one. -/
def Thread.NextFormats (t : Thread P κ) : Prop := ∀ p ∈ t.unread.head?, p.text? ≠ none

omit [DecidableEq ι] in
theorem Thread.mem_head?_unread {t : Thread P κ} {p : Push P} :
    p ∈ t.unread.head? ↔ t.accepted[t.context.q.read.length]? = some p := by
  rw [Thread.unread, List.head?_drop, Option.mem_def]

namespace Sane
variable {v : Visit} {localTime : ℤ}

theorem exists_list (h : Sane s) : ∃ l, ThreadList.Inv l s.list := h.life.exists_inv

theorem visiting (h : Sane s) (hvisit : s.visit = some (i, v)) : s.list.visiting = some i := by
  rw [← h.life.visited_eq, hvisit]
  rfl

theorem consumerAt (h : Sane s) (hvisit : s.visit = some (i, v)) :
    ConsumerAt (s.threads i) (recordsOf s.processed i) (some v) := by
  have hconsumer := h.flow.consumer i
  rwa [hvisit, visitOf, if_pos rfl] at hconsumer

/-- There is a next step of a visit. -/
theorem visitStep_enabled (h : Sane s) (hvisit : s.visit = some (i, v)) (localTime : ℤ) :
    ∃ s', visitStep s i v localTime = some s' := by
  obtain ⟨l, hinv⟩ := h.exists_list
  obtain ⟨k, hqueue⟩ := (h.flow.thread i).queue
  have hvisiting := h.visiting hvisit
  have hconsumer := h.consumerAt hvisit
  cases v with
  | start =>
      simp only [visitStep, Queue.step, hconsumer.1]
      split <;> exact ⟨_, rfl⟩
  | reload =>
      obtain ⟨q', hq⟩ := hqueue.loadW_enabled hconsumer.1
      simp only [visitStep, hq]
      exact ⟨_, rfl⟩
  | process res =>
      simp only [visitStep]
      split
      · exact ⟨_, rfl⟩
      · split <;> exact ⟨_, rfl⟩
  | level event message => exact ⟨_, rfl⟩
  | commit sizeRead =>
      obtain ⟨p, res, -, hreading, -⟩ := hconsumer
      obtain ⟨list', hlist⟩ := hinv.endVisit_enabled hvisiting false
      simp only [visitStep, Queue.step, hreading, Option.bind_some, endVisit, State.setThread, hlist]
      exact ⟨_, rfl⟩
  | alive =>
      obtain ⟨list', hlist⟩ := hinv.endVisit_enabled hvisiting (!(s.threads i).context.isAlive)
      simp only [visitStep, endVisit, hlist]
      exact ⟨_, rfl⟩

/-- An event that can be formatted does not end the backend. -/
theorem visitStep_loop (h : Sane s) (hvisit : s.visit = some (i, v))
    (hformats : (s.threads i).NextFormats) (hloop : s.loop ≠ .terminated)
    (hstep : visitStep s i v localTime = some s') : s'.loop = s.loop := by
  have hcases := visitStep_cases h.flow h.life hvisit hstep
  have hconsumer := h.consumerAt hvisit
  cases hcases with
  | @terminated res =>
      obtain ⟨p, hp, -, hevent⟩ := (h.flow.thread i).readEvent_eq hconsumer.1
      have htext := hformats p (Thread.mem_head?_unread.mpr hp)
      obtain ⟨message, hmessage⟩ := Option.ne_none_iff_exists'.mp htext
      simp only [visitStep, hevent, Push.readAt, hmessage, Option.some.injEq] at hstep
      have hterminated := congrArg State.loop hstep
      exact absurd hterminated hloop
  | _ => rfl

/-- A step of a visit ends it or is nearer to its end. -/
theorem visitStep_rank (hstep : visitStep s i v localTime = some s')
    (hloop : s'.loop ≠ .terminated) :
    s'.visit = none ∨ ∃ v', s'.visit = some (i, v') ∧ v'.rank < v.rank := by
  cases v with
  | start =>
      obtain ⟨q', -, rfl⟩ := Option.map_eq_some_iff.mp hstep
      refine .inr ⟨_, rfl, ?_⟩
      split <;> simp [Visit.rank]
  | reload =>
      obtain ⟨q', -, rfl⟩ := Option.map_eq_some_iff.mp hstep
      refine .inr ⟨_, rfl, ?_⟩
      split <;> simp [Visit.rank]
  | process res =>
      simp only [visitStep] at hstep
      split at hstep
      · cases hstep
        exact absurd rfl hloop
      · split at hstep
        · cases hstep
          exact absurd rfl hloop
        · cases hstep
          exact .inr ⟨_, rfl, by simp [Visit.rank]⟩
  | level event message =>
      cases hstep
      simp only [processEvent] at hloop ⊢
      split
      · exact .inr ⟨_, rfl, by simp [Visit.rank]⟩
      · rename_i hlevel
        rw [if_neg hlevel] at hloop
        split
        · rename_i hline
          simp only [hline] at hloop
          exact absurd rfl hloop
        · exact .inr ⟨_, rfl, by simp [Visit.rank]⟩
  | commit sizeRead =>
      obtain ⟨q', -, hend⟩ := Option.bind_eq_some_iff.mp hstep
      obtain ⟨list', -, rfl⟩ := Option.map_eq_some_iff.mp hend
      exact .inl rfl
  | alive =>
      obtain ⟨list', -, rfl⟩ := Option.map_eq_some_iff.mp hstep
      exact .inl rfl

end Sane

/-! ## A pass -/

/-- The thread has ended and left nothing. -/
def Thread.Done (t : Thread P κ) : Prop := t.handler = .destroyed ∧ t.unread = []

/-- The pass has come to its end. -/
def PassOver (s : State P ι κ) : Prop := s.visit = none ∧ s.list.pc = .outside

/-- How far the pass is that began in `s₀`: each context visited has had one event taken, or
its removal requested if its thread was done. -/
structure Passing (s₀ s : State P ι κ) : Prop where
  loop : s.loop = s₀.loop
  threads : ∀ i, ∃ q, s.threads i = (s₀.threads i).setQueue q
  inserted : s.list.inserted = s₀.list.inserted
  snapshot : s.list.snapshot = s₀.list.snapshot
  unread : ∀ i, (s.threads i).unread =
    if i ∈ s.list.visited then (s₀.threads i).unread.tail else (s₀.threads i).unread
  requested : ∀ i, i ∈ s.list.requested ↔
    i ∈ s₀.list.requested ∨ (i ∈ s.list.visited ∧ (s₀.threads i).Done)
  alive : ∀ i, s.visit = some (i, .alive) → (s.threads i).unread = []

/-- What is to be read can be formatted. -/
def Formats (s : State P ι κ) (is : List ι) : Prop :=
  ∀ i ∈ is, ∀ p ∈ (s.threads i).unread, p.text? ≠ none

namespace Passing
variable {v : Visit} {localTime : ℤ}

/-- A context that the backend is at has not been served yet. -/
theorem of_visiting (h : Passing s₀ s) (hsane : Sane s) (hvisit : s.visit = some (i, v)) :
    i ∈ s₀.list.snapshot ∧ i ∉ s.list.visited ∧ (s.threads i).unread = (s₀.threads i).unread := by
  obtain ⟨l, hinv⟩ := hsane.exists_list
  obtain ⟨hsnapshot, hvisited⟩ := hinv.visiting_notMem (hsane.visiting hvisit)
  refine ⟨h.snapshot ▸ hsnapshot, hvisited, ?_⟩
  rw [h.unread, if_neg hvisited]

theorem nextFormats (h : Passing s₀ s) (hsane : Sane s) (hvisit : s.visit = some (i, v))
    (hformats : Formats s₀ s₀.list.snapshot) : (s.threads i).NextFormats := by
  obtain ⟨hsnapshot, -, hunread⟩ := h.of_visiting hsane hvisit
  intro p hp
  rw [hunread] at hp
  exact hformats i hsnapshot p (List.mem_of_mem_head? hp)

/-- A queue that is touched. -/
theorem threads_update (h : Passing s₀ s) (q : Queue.Machine) (j : ι) :
    ∃ q', Function.update s.threads i ((s.threads i).setQueue q) j = (s₀.threads j).setQueue q' := by
  have hall := Function.forall_update_iff s.threads (a := i) (b := (s.threads i).setQueue q)
    fun j t => ∃ q', t = (s₀.threads j).setQueue q'
  refine hall.mpr ⟨?_, fun j _ => h.threads j⟩ j
  obtain ⟨q₀, hq₀⟩ := h.threads i
  rw [hq₀]
  exact ⟨q, rfl⟩

theorem unread_update (t : Thread P κ) (j : ι) :
    (Function.update s.threads i t j).unread = if j = i then t.unread else (s.threads j).unread := by
  by_cases hj : j = i
  · subst j
    rw [Function.update_self, if_pos rfl]
  · rw [Function.update_of_ne hj, if_neg hj]

/-- The visit goes on. -/
theorem goOn (h : Passing s₀ s) {q : Queue.Machine} {v' : Visit}
    (hthread : ThreadFlow ((s.threads i).setQueue q))
    (hread : q.read = (s.threads i).context.q.read)
    (hempty : v' = .alive → q.committed.length = q.read.length) :
    Passing s₀ { s.setThread i ((s.threads i).setQueue q) with visit := some (i, v') } := by
  have hsame : ((s.threads i).setQueue q).unread = (s.threads i).unread := by
    rw [Thread.unread, q_setQueue, hread]
    rfl
  refine ⟨h.loop, h.threads_update q, h.inserted, h.snapshot, ?_, h.requested, ?_⟩
  · intro j
    refine Eq.trans ?_ (h.unread j)
    refine (unread_update _ j).trans ?_
    split
    · subst j
      exact hsame
    · rfl
  · intro j hj
    cases hj
    have hlength := congrArg List.length hthread.committed
    rw [List.length_map] at hlength
    refine (unread_update _ i).trans ?_
    rw [if_pos rfl, Thread.unread, List.drop_eq_nil_iff, ← hlength, q_setQueue]
    exact (hempty rfl).le

/-- The visit ends: either an event was taken, or there was none and the thread was looked
at. -/
theorem endVisit (h : Passing s₀ s) (hsane : Sane s) (hvisit : s.visit = some (i, v))
    {t : Thread P κ} {q : Queue.Machine} (ht : t = (s.threads i).setQueue q)
    {dead : Bool} {list' : ThreadList.State ι}
    (hlist : ThreadList.step s.list (.visit dead) = some list')
    (hunread : t.unread = (s.threads i).unread.tail)
    (hdead : dead = true ↔ (s.threads i).Done) :
    Passing s₀ { s.setThread i t with list := list', visit := none } := by
  obtain ⟨l, hinv⟩ := hsane.exists_list
  have hvisiting := hsane.visiting hvisit
  obtain ⟨hinserted, hsnapshot, hvisited⟩ := hinv.endVisit_visited hvisiting hlist
  obtain ⟨hrequested, -, -, -⟩ := hinv.endVisit hvisiting hlist
  obtain ⟨-, hnew, hold⟩ := h.of_visiting hsane hvisit
  have hdone : (s.threads i).Done ↔ (s₀.threads i).Done := by
    obtain ⟨q₀, hq₀⟩ := h.threads i
    rw [Thread.Done, Thread.Done, hold, hq₀, handler_setQueue]
  subst ht
  refine ⟨h.loop, h.threads_update q, hinserted.trans h.inserted, hsnapshot.trans h.snapshot, ?_, ?_,
    by simp⟩
  · intro j
    refine (unread_update _ j).trans ?_
    rw [hvisited]
    by_cases hj : j = i
    · subst j
      rw [if_pos rfl, hunread, hold, if_pos (by simp)]
    · rw [if_neg hj, h.unread]
      simp [hj]
  · intro j
    have hrest := h.requested j
    by_cases hj : j = i
    · subst j
      have hnot := (hinv.visiting_member hvisiting).2.1
      have hnot₀ : i ∉ s₀.list.requested := fun hmem => hnot (hrest.mpr (.inl hmem))
      simp only [hrequested, hvisited, List.mem_append, hnot, hnot₀, false_or, List.mem_singleton,
        or_true, true_and]
      rw [← hdone, ← hdead]
      cases dead <;> simp
    · simp only [hrequested, hvisited, List.mem_append, List.mem_singleton, hj, or_false, hrest]
      cases dead <;> simp [hj]

/-- **A step of a visit.** -/
theorem visit (h : Passing s₀ s) (hsane : Sane s) (hvisit : s.visit = some (i, v))
    (hloop : s'.loop = s.loop) (hpass : s₀.loop.inPass = true) (hstep : VisitStep s i v s') :
    Passing s₀ s' := by
  have hconsumer := hsane.consumerAt hvisit
  cases hstep with
  | goOn hv hthread hconsumer' hread hempty => exact h.goOn hthread hread fun hv' => (hempty hv').1
  | processed => exact ⟨h.loop, h.threads, h.inserted, h.snapshot, h.unread, h.requested, by simp⟩
  | terminated =>
      have hterminated : s₀.loop = .terminated := (hloop.trans h.loop).symm
      rw [hterminated] at hpass
      cases hpass
  | @committed sizeRead q list' hthread hconsumer' hlist =>
      obtain ⟨p, res, hp, -, -, hmatches⟩ := hconsumer
      have hlength := hconsumer'.2.length_eq.symm.trans hmatches.length_eq
      rw [q_setQueue] at hlength
      have hne : (s.threads i).unread ≠ [] := by
        intro hnil
        rw [Thread.unread, List.drop_eq_nil_iff] at hnil
        have hlt := (List.getElem?_eq_some_iff.mp hp).1
        omega
      refine h.endVisit hsane hvisit rfl hlist ?_ ?_
      · rw [Thread.unread, Thread.unread, q_setQueue, hlength, List.tail_drop]
        rfl
      · simp [Thread.Done, hne]
  | @left list' hlist =>
      have hempty := h.alive i hvisit
      have hsame : s.threads i = (s.threads i).setQueue (s.threads i).context.q := rfl
      have hnext := h.endVisit hsane hvisit hsame hlist (by rw [hempty]; rfl) ?_
      · rwa [State.setThread, Function.update_eq_self] at hnext
      · have hconstructed := (Life.of_visited (hsane.life.visited hvisit)).2.2
        rw [(hsane.life.thread i).isAlive, Thread.Done, and_iff_left hempty]
        cases hhandler : (s.threads i).handler with
        | notConstructed => exact absurd hhandler hconstructed
        | constructed => simp
        | destroyed => simp

/-- A step between two visits. -/
theorem list (h : Passing s₀ s) (hsane : Sane s) {list' : ThreadList.State ι}
    (hlist : ThreadList.step s.list .backend = some list') :
    Passing s₀ { s with list := list', names := s.namesAfter, visit := entered list' } := by
  obtain ⟨l, hinv⟩ := hsane.exists_list
  obtain ⟨l', hinv'⟩ := hinv.step hlist
  have hpasses := ThreadList.backend_cases hlist hinv'.fault
  have hwalks := ThreadList.walks_of_backend hlist
  refine ⟨h.loop, h.threads, hpasses.inserted.trans h.inserted, hpasses.snapshot.trans h.snapshot,
    ?_, ?_, ?_⟩
  · intro j
    rw [hpasses.visited]
    exact h.unread j
  · intro j
    rw [hpasses.visited, hwalks.requested]
    exact h.requested j
  · intro j hj
    simp only [entered] at hj
    split at hj
    · obtain ⟨k, -, hk⟩ := Option.map_eq_some_iff.mp hj
      cases hk
    · cases hj

/-- **A step of a pass.** -/
theorem step (h : Passing s₀ s) (hsane : Sane s) (hpass : s₀.loop.inPass = true)
    (hformats : Formats s₀ s₀.list.snapshot) (hover : ¬ PassOver s)
    (hstep : backendStep s localTime = some s') : Passing s₀ s' := by
  have hnext : ∀ {back : Loop}, passStep s localTime back = some s' → Passing s₀ s' := by
    intro back hstep
    simp only [passStep] at hstep
    cases hvisit : s.visit with
    | some place =>
        obtain ⟨i, v⟩ := place
        simp only [hvisit] at hstep
        have hloop := hsane.visitStep_loop hvisit (h.nextFormats hsane hvisit hformats) (by
          rw [h.loop]
          intro hterminated
          rw [hterminated] at hpass
          cases hpass) hstep
        exact h.visit hsane hvisit hloop hpass (visitStep_cases hsane.flow hsane.life hvisit hstep)
    | none =>
        have hpc : s.list.pc ≠ .outside := fun hpc => hover ⟨hvisit, hpc⟩
        simp only [hvisit, if_neg hpc] at hstep
        obtain ⟨list', hlist, rfl⟩ := Option.map_eq_some_iff.mp hstep
        exact h.list hsane hlist
  have hloop := h.loop
  cases hl : s₀.loop with
  | pass | drainPass =>
      rw [hl] at hloop
      simp only [backendStep, hloop] at hstep
      exact hnext hstep
  | _ =>
      rw [hl] at hpass
      cases hpass

end Passing

end Papper.System
