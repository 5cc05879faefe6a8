import Papper.System.Polling

/-!
# A pass over the list

A pass of `poll_threads` comes to its end: a visit has few steps, a removal ends, and each
context is visited once.  What it does is then a relation between the states before and
after it, for any state from which the backend goes on alone.

## Main definitions

* `Reaches` — the backend comes to a state by its own steps.
* `InPass` — the backend is in a pass.
* `Polls` — what a pass does.
* `reaches_polls` — every pass comes to its end and does that.
-/

namespace Papper.System

open Transition

variable {P : Program} {ι κ : Type} [DecidableEq ι] [DecidableEq κ]
variable {s s' s₀ : State P ι κ} {i : ι}

/-- The backend is about to call `poll_threads` in the drain loop. -/
def State.drains (s : State P ι κ) : Bool := decide (s.loop = .drainPoll)

/-- Whatever the clock says, the backend comes to a state by its own steps, after `k` calls of
`poll_threads` in the drain loop. -/
abbrev Reaches (goal : State P ι κ → Prop) (k : ℕ) (s : State P ι κ) : Prop :=
  Inevitable step (fun a => a.isBackend = true) State.drains goal k s

/-- A step of the backend. -/
theorem Reaches.step {goal : State P ι κ → Prop} {k : ℕ} (hdrains : s.drains = false)
    (henabled : ∀ localTime, ∃ s', backendStep s localTime = some s')
    (h : ∀ localTime s', backendStep s localTime = some s' → Reaches goal k s') :
    Reaches goal k s := by
  refine Inevitable.step_of_not hdrains ?_ ?_
  · intro a ha
    cases a with
    | backend localTime => exact henabled localTime
    | _ => cases ha
  · intro a s' ha hstep
    cases a with
    | backend localTime => exact h localTime s' hstep
    | _ => cases ha

/-- A step of the backend that is the same whatever the clock says. -/
theorem Sane.inevitable {kind : State P ι κ → Bool} {goal : State P ι κ → Prop} {k : ℕ}
    (hsane : Sane s) (hkind : kind s = false)
    (hstep : ∀ localTime, backendStep s localTime = some s')
    (h : Sane s' → Inevitable System.step (fun a => a.isBackend = true) kind goal k s') :
    Inevitable System.step (fun a => a.isBackend = true) kind goal k s := by
  refine Inevitable.step_of_not hkind ?_ ?_
  · intro a ha
    cases a with
    | backend localTime => exact ⟨s', hstep localTime⟩
    | _ => cases ha
  · intro a t ha ht
    cases a with
    | backend localTime =>
        have hsane' : Sane t := hsane.step (a := .backend localTime) trivial ht
        rw [System.step, hstep, Option.some.injEq] at ht
        subst t
        exact h hsane'
    | _ => cases ha

/-- The backend is in the pass that began in `s₀`. -/
structure InPass (s₀ s : State P ι κ) : Prop where
  sane : Sane s
  passing : Passing s₀ s

namespace InPass

omit [DecidableEq κ] in
theorem drains_eq (h : InPass s₀ s) (hpass : s₀.loop.inPass = true) : s.drains = false := by
  rw [State.drains, h.passing.loop]
  refine decide_eq_false ?_
  intro hloop
  rw [hloop] at hpass
  cases hpass

theorem step (h : InPass s₀ s) (hpass : s₀.loop.inPass = true)
    (hformats : Formats s₀ s₀.list.snapshot) (hover : ¬ PassOver s) {localTime : ℤ}
    (hstep : backendStep s localTime = some s') : InPass s₀ s' :=
  ⟨h.sane.step (a := .backend localTime) trivial hstep,
    h.passing.step h.sane hpass hformats hover hstep⟩

omit [DecidableEq κ] in
/-- A step of the backend in a pass is one of `poll_threads`. -/
theorem backendStep_eq (h : InPass s₀ s) (hpass : s₀.loop.inPass = true) (localTime : ℤ) :
    ∃ back, backendStep s localTime = passStep s localTime back := by
  have hloop := h.passing.loop
  cases hl : s₀.loop with
  | pass | drainPass =>
      rw [hl] at hloop
      simp only [backendStep, hloop]
      exact ⟨_, rfl⟩
  | _ =>
      rw [hl] at hpass
      cases hpass

omit [DecidableEq κ] in
theorem visitStep_eq (h : InPass s₀ s) (hpass : s₀.loop.inPass = true) {v : Visit}
    (hvisit : s.visit = some (i, v)) (localTime : ℤ) :
    backendStep s localTime = visitStep s i v localTime := by
  obtain ⟨back, hback⟩ := h.backendStep_eq hpass localTime
  rw [hback, passStep, hvisit]

omit [DecidableEq κ] in
theorem listStep_eq (h : InPass s₀ s) (hpass : s₀.loop.inPass = true) (hvisit : s.visit = none)
    (hpc : s.list.pc ≠ .outside) (localTime : ℤ) :
    backendStep s localTime = listStep s .backend := by
  obtain ⟨back, hback⟩ := h.backendStep_eq hpass localTime
  rw [hback, passStep, hvisit]
  exact if_neg hpc

omit [DecidableEq κ] in
/-- There is a next step. -/
theorem enabled (h : InPass s₀ s) (hpass : s₀.loop.inPass = true) (hover : ¬ PassOver s)
    (localTime : ℤ) : ∃ s', backendStep s localTime = some s' := by
  obtain ⟨l, hinv⟩ := h.sane.exists_list
  cases hvisit : s.visit with
  | some place =>
      obtain ⟨i, v⟩ := place
      rw [h.visitStep_eq hpass hvisit]
      exact h.sane.visitStep_enabled hvisit localTime
  | none =>
      have hpc : s.list.pc ≠ .outside := fun hpc => hover ⟨hvisit, hpc⟩
      have hvisiting := h.sane.life.visited_eq
      rw [hvisit] at hvisiting
      obtain ⟨list', hlist⟩ := hinv.backend_enabled hpc hvisiting.symm
      rw [h.listStep_eq hpass hvisit hpc, listStep, hlist]
      exact ⟨_, rfl⟩

/-- **A removal comes to its end.** -/
theorem removalEnds (hpass : s₀.loop.inPass = true) (hformats : Formats s₀ s₀.list.snapshot)
    {k : ℕ} {list : ThreadList.State ι}
    (hends : Inevitable ThreadList.step (· = .backend) (fun _ => false)
      (fun t => t.pc.removing = false) k list) :
    ∀ {s : State P ι κ}, s.list = list → InPass s₀ s → s.visit = none →
      Reaches (fun t => InPass s₀ t ∧ t.visit = none ∧ t.list.pc.removing = false ∧
        t.list.visited = list.visited) 0 s := by
  induction hends with
  | here hremoving =>
      rintro s rfl h hvisit
      exact .here ⟨h, hvisit, hremoving, rfl⟩
  | @next _ list _ _ ih =>
      rintro s rfl h hvisit
      cases hremoving : s.list.pc.removing with
      | false => exact .here ⟨h, hvisit, hremoving, rfl⟩
      | true =>
          have hpc : s.list.pc ≠ .outside := by
            intro hout
            rw [hout] at hremoving
            cases hremoving
          have hover : ¬ PassOver s := fun hover => hpc hover.2
          refine Reaches.step (h.drains_eq hpass) (h.enabled hpass hover) ?_
          intro localTime s' hstep
          have hnext := h.step hpass hformats hover hstep
          rw [h.listStep_eq hpass hvisit hpc] at hstep
          obtain ⟨list', hlist, rfl⟩ := Option.map_eq_some_iff.mp hstep
          obtain ⟨l', hinv'⟩ := hnext.sane.exists_list
          have hpasses := ThreadList.backend_cases hlist hinv'.fault
          have hentered : entered list' = none := by
            cases hpc' : list'.pc with
            | visit n next => exact absurd hpc' (hpasses.follows.ne_visit hremoving)
            | _ => simp only [entered, hpc']
          have hrest := ih .backend list' rfl hlist rfl hnext hentered
          rwa [hpasses.visited] at hrest

omit [DecidableEq κ] in
/-- A step of a visit ends it, or is nearer to its end. -/
theorem visitStep_cases (h : InPass s₀ s) {v : Visit} (hvisit : s.visit = some (i, v))
    {localTime : ℤ} (hstep : visitStep s i v localTime = some s') (hloop : s'.loop ≠ .terminated) :
    (s'.visit = none ∧ s'.list.visited.length = s.list.visited.length + 1) ∨
      ∃ v', s'.visit = some (i, v') ∧ v'.rank < v.rank ∧ s'.list.visited = s.list.visited := by
  obtain ⟨l, hinv⟩ := h.sane.exists_list
  have hvisiting := h.sane.visiting hvisit
  have hrank := Sane.visitStep_rank hstep hloop
  cases System.visitStep_cases h.sane.flow h.sane.life hvisit hstep with
  | goOn =>
      obtain ⟨v', hv', hlt⟩ := hrank.resolve_left (by simp)
      exact .inr ⟨v', hv', hlt, rfl⟩
  | processed =>
      obtain ⟨v', hv', hlt⟩ := hrank.resolve_left (by simp)
      exact .inr ⟨v', hv', hlt, rfl⟩
  | terminated => exact absurd rfl hloop
  | committed hthread hconsumer hlist =>
      refine .inl ⟨rfl, ?_⟩
      rw [(hinv.endVisit_visited hvisiting hlist).2.2, List.length_append, List.length_singleton]
  | left hlist =>
      refine .inl ⟨rfl, ?_⟩
      rw [(hinv.endVisit_visited hvisiting hlist).2.2, List.length_append, List.length_singleton]

/-- **A visit comes to its end.** -/
theorem visitEnds (hpass : s₀.loop.inPass = true) (hformats : Formats s₀ s₀.list.snapshot) (n : ℕ) :
    ∀ {s : State P ι κ} {i : ι} {v : Visit}, v.rank = n → InPass s₀ s → s.visit = some (i, v) →
      Reaches (fun t => InPass s₀ t ∧ t.visit = none ∧
        t.list.visited.length = s.list.visited.length + 1) 0 s := by
  induction n using Nat.strong_induction_on with
  | _ n ih =>
      intro s i v hrank h hvisit
      have hover : ¬ PassOver s := by
        intro hover
        rw [hover.1] at hvisit
        cases hvisit
      refine Reaches.step (h.drains_eq hpass) (h.enabled hpass hover) ?_
      intro localTime s' hstep
      have hnext := h.step hpass hformats hover hstep
      have hloop : s'.loop ≠ .terminated := by
        rw [hnext.passing.loop]
        intro hterminated
        rw [hterminated] at hpass
        cases hpass
      rw [h.visitStep_eq hpass hvisit] at hstep
      rcases h.visitStep_cases hvisit hstep hloop with ⟨hnone, hvisited⟩ | ⟨v', hv', hlt, hvisited⟩
      · exact .here ⟨hnext, hnone, hvisited⟩
      · have hrest := ih v'.rank (hrank ▸ hlt) rfl hnext hv'
        rwa [hvisited] at hrest

/-- **A pass comes to its end.** -/
theorem passEnds (hpass : s₀.loop.inPass = true) (hformats : Formats s₀ s₀.list.snapshot) (n : ℕ) :
    ∀ {s : State P ι κ}, s.list.snapshot.length - s.list.visited.length = n → InPass s₀ s →
      s.visit = none → Reaches (fun t => InPass s₀ t ∧ PassOver t) 0 s := by
  induction n using Nat.strong_induction_on with
  | _ n ih =>
      intro s hn h hvisit
      obtain ⟨l, hinv⟩ := h.sane.exists_list
      show Reaches _ (0 + 0) s
      refine (removalEnds hpass hformats hinv.removalEnds rfl h hvisit).trans ?_
      rintro t ⟨ht, hnone, hremoving, hvisited⟩
      obtain ⟨l', hinv'⟩ := ht.sane.exists_list
      cases hpc : t.list.pc with
      | outside => exact .here ⟨ht, hnone, hpc⟩
      | visit m next =>
          obtain ⟨i, -, hvisiting⟩ := hinv'.exists_visiting hpc
          have hvisited_eq := ht.sane.life.visited_eq
          rw [hnone, hvisiting] at hvisited_eq
          cases hvisited_eq
      | node m =>
          have hout : t.list.pc ≠ .outside := by simp [hpc]
          have hover : ¬ PassOver t := fun hover => hout hover.2
          refine Reaches.step (ht.drains_eq hpass) (ht.enabled hpass hover) ?_
          intro localTime u hstep
          have hnext := ht.step hpass hformats hover hstep
          rw [ht.listStep_eq hpass hnone hout] at hstep
          obtain ⟨list', hlist, rfl⟩ := Option.map_eq_some_iff.mp hstep
          obtain ⟨l'', hinv''⟩ := hnext.sane.exists_list
          have hpasses := ThreadList.backend_cases hlist hinv''.fault
          have hfollows := hpasses.follows
          rw [hpc] at hfollows
          obtain ⟨next, hpc'⟩ := hfollows.eq_visit
          obtain ⟨i, -, hvisiting⟩ := hinv''.exists_visiting hpc'
          obtain ⟨place, hplace, -⟩ := Option.map_eq_some_iff.mp
            (hnext.sane.life.visited_eq.trans hvisiting)
          show Reaches _ (0 + 0) _
          refine (visitEnds hpass hformats _ rfl hnext hplace).trans ?_
          rintro w ⟨hw, hwvisit, hwvisited⟩
          refine ih _ ?_ rfl hw hwvisit
          have hle := (ThreadList.reachable_sound hw.sane.life.reachable).visited_snapshot.length_le
          have hsnapshot := congrArg List.length (hw.passing.snapshot.trans h.passing.snapshot.symm)
          have hlist' := congrArg List.length hpasses.visited
          have ht' := congrArg List.length hvisited
          simp only at hwvisited
          omega
      | _ =>
          rw [hpc] at hremoving
          cases hremoving

end InPass

/-- What a pass does: it takes an event from each queue, and removes the contexts of the
threads that were done. -/
structure Polls (s t : State P ι κ) : Prop where
  threads : ∀ i, ∃ q, t.threads i = (s.threads i).setQueue q
  inserted : t.list.inserted = s.list.inserted
  unread : ∀ i, (t.threads i).unread =
    if i ∈ s.list.members then (s.threads i).unread.tail else (s.threads i).unread
  members : ∀ i, i ∈ t.list.members ↔ i ∈ s.list.members ∧ ¬ (s.threads i).Done

omit [DecidableEq κ] in
/-- A pass that is over has visited what was in the list when it began. -/
theorem InPass.polls {s t : State P ι κ} (hsane : Sane s) (hout : s.list.pc = .outside)
    (hthreads : s₀.threads = s.threads) (hinserted : s₀.list.inserted = s.list.inserted)
    (hrequested : s₀.list.requested = s.list.requested)
    (hsnapshot : s₀.list.snapshot = s.list.members)
    (h : InPass s₀ t) (hover : PassOver t) : Polls s t := by
  obtain ⟨l, hinv⟩ := hsane.exists_list
  obtain ⟨l', hinv'⟩ := h.sane.exists_list
  have hvisited : t.list.visited = s.list.members := by
    have hall := (ThreadList.reachable_sound h.sane.life.reachable).visited_all hover.2
    rw [hall, h.passing.snapshot, hsnapshot]
  constructor
  · intro i
    rw [← hthreads]
    exact h.passing.threads i
  · exact h.passing.inserted.trans hinserted
  · intro i
    rw [← hthreads, ← hvisited]
    exact h.passing.unread i
  · intro i
    rw [hinv'.mem_members_iff hover.2, h.passing.requested, hvisited, h.passing.inserted, hinserted,
      hrequested, hthreads, hinv.mem_members_iff hout]
    tauto

/-- **Every pass comes to its end and does that.** -/
theorem reaches_polls (hsane : Sane s) (hout : s.list.pc = .outside)
    (hformats : Formats s s.list.members) (inside back : Loop) (hin : inside.inPass = true)
    (hpoll : ∀ localTime, backendStep s localTime
      = (listStep s .poll).map fun s' => { s' with loop := inside })
    (hpass : ∀ (t : State P ι κ) localTime, t.loop = inside →
      backendStep t localTime = passStep t localTime back) :
    Reaches (fun t => Sane t ∧ t.loop = back ∧ Polls s t) s.drains.toNat s := by
  obtain ⟨l, hinv⟩ := hsane.exists_list
  have hstep : ThreadList.step s.list .poll = some
      { s.list with
        pc := ThreadList.enter s.list.head
        snapshot := s.list.members
        visited := [] } := if_pos ⟨hinv.fault, hout⟩
  refine Inevitable.next (k := 0) ?_ ?_
  · intro a ha
    cases a with
    | backend localTime =>
        rw [step, hpoll, listStep, hstep]
        exact ⟨_, rfl⟩
    | _ => cases ha
  · intro a s₀ ha hs₀
    cases a with
    | backend localTime =>
        have hsane₀ : Sane s₀ := hsane.step (a := .backend localTime) trivial hs₀
        rw [step, hpoll, listStep, hstep, Option.map_some, Option.map_some, Option.some.injEq] at hs₀
        have hvisit : s₀.visit = none := by
          rw [← hs₀]
          cases hhead : s.list.head <;> rfl
        have hpassing : Passing s₀ s₀ := by
          refine ⟨rfl, fun i => ⟨_, rfl⟩, rfl, rfl, ?_, ?_, ?_⟩
          · intro i
            rw [← hs₀]
            simp
          · intro i
            rw [← hs₀]
            simp
          · rw [hvisit]
            simp
        have hloop : s₀.loop = inside := by rw [← hs₀]
        have hin₀ : s₀.loop.inPass = true := by rw [hloop, hin]
        have hformats₀ : Formats s₀ s₀.list.snapshot := by
          rw [← hs₀]
          exact hformats
        show Reaches _ (0 + 0) s₀
        refine (InPass.passEnds hin₀ hformats₀ _ rfl ⟨hsane₀, hpassing⟩ hvisit).trans ?_
        rintro t ⟨ht, hover⟩
        have hpolls : Polls s t := by
          refine InPass.polls hsane hout ?_ ?_ ?_ ?_ ht hover <;> rw [← hs₀]
        have hback : ∀ localTime, backendStep t localTime = some { t with loop := back } := by
          intro localTime
          rw [hpass t localTime (ht.passing.loop.trans hloop), passStep, hover.1]
          exact if_pos hover.2
        refine ht.sane.inevitable (ht.drains_eq hin₀) hback fun hu => .here ⟨hu, rfl, ?_⟩
        exact ⟨hpolls.threads, hpolls.inserted, hpolls.unread, hpolls.members⟩
    | _ => cases ha

end Papper.System
