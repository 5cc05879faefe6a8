import Mathlib.Data.Finset.Lattice.Fold
import Mathlib.Order.Lattice.Nat
import Papper.System.Pass

/-!
# The drain loop

When every thread has ended, `while (_head != nullptr) poll_threads()` takes the events that
are left, one of each queue in a pass, and removes a context in the first pass that finds its
queue empty.  So a queue with `n` events is gone after `n + 1` passes, and the loop ends
after as many as the longest queue needs.

A thread is in the list as long as its context is not deleted, since a thread that has its
handler has registered or is about to.

## Main definitions

* `Registered` — a thread that has its handler has inserted its context.
* `State.rounds` — the passes that are left.
* `exec_drained` — the drain loop ends, and what is then done.
-/

namespace Papper.System

open Transition

variable {P : Program} {ι κ : Type} [DecidableEq ι]
variable {s s' t : State P ι κ} {i : ι}

/-! ## Registration -/

/-- A thread that has a handler, or had one, is in `register_thread` or through. -/
def Registered (s : State P ι κ) : Prop :=
  ∀ i, (s.threads i).handler ≠ .notConstructed →
    (∃ request, (s.threads i).pc = .registering request) ∨ s.list.registration i = .done

namespace Registered

/-- A step of one thread. -/
theorem update (h : Registered s) {threads : ι → Thread P κ} {i : ι} {t : Thread P κ}
    (hthreads : threads = Function.update s.threads i t)
    (ht : t.handler ≠ .notConstructed →
      (∃ request, t.pc = .registering request) ∨ s.list.registration i = .done) (j : ι) :
    (threads j).handler ≠ .notConstructed →
      (∃ request, (threads j).pc = .registering request) ∨ s.list.registration j = .done := by
  have hall := Function.forall_update_iff s.threads (a := i) (b := t) fun j (t : Thread P κ) =>
    t.handler ≠ .notConstructed →
      (∃ request, t.pc = .registering request) ∨ s.list.registration j = .done
  rw [hthreads]
  exact hall.mpr ⟨ht, fun j _ => h j⟩ j

omit [DecidableEq ι] in
/-- A thread outside of `register_thread` is through. -/
theorem done (h : Registered s) (hhandler : (s.threads i).handler ≠ .notConstructed)
    (hpc : ∀ request, (s.threads i).pc ≠ .registering request) : s.list.registration i = .done := by
  rcases h i hhandler with ⟨request, hrequest⟩ | hdone
  · exact absurd hrequest (hpc request)
  · exact hdone

omit [DecidableEq ι] in
theorem done_of_idle (h : Registered s) (hhandler : (s.threads i).handler ≠ .notConstructed)
    (hpc : (s.threads i).pc.isIdle = true) : s.list.registration i = .done := by
  refine h.done hhandler ?_
  intro request hrequest
  rw [hrequest] at hpc
  cases hpc

/-- A step of a registration. -/
theorem registers (h : Registered s) {request : Option (Request P κ)}
    (hpc : (s.threads i).pc = .registering request) {list' : ThreadList.State ι}
    (hregisters : ThreadList.Registers s.list list' i) :
    Registered { s with list := list' } := by
  intro j hj
  by_cases hij : j = i
  · subst j
    exact .inl ⟨request, hpc⟩
  · have hrest := h j hj
    rw [← hregisters.registration j hij] at hrest
    exact hrest

/-- The constructor of a handler. -/
theorem construct (h : Registered s) {name : List Char} {queueSize : ℕ} {namePtr : UInt64}
    {request : Option (Request P κ)}
    (hstep : construct s i name queueSize namePtr request = some s') : Registered s' := by
  obtain ⟨-, rfl⟩ := construct_eq_some hstep
  exact h.update rfl fun _ => .inl ⟨request, rfl⟩

/-- A step of the backend. -/
theorem backend (h : Registered s) (hlife : LifeInv s) (hstep : BackendStep s s') :
    Registered s' := by
  obtain ⟨l, hinv⟩ := hlife.exists_inv
  cases hstep with
  | list hnone hvisit hwalks =>
      intro j hj
      have hrest := h j hj
      rw [← hwalks.registration] at hrest
      exact hrest
  | @visit i v s' hvisit hprocessing hstep =>
      have hvisiting := (hlife.visited hvisit).visited_eq.symm
      have hsetQueue : ∀ q, Registered (s.setThread i ((s.threads i).setQueue q)) := fun q =>
        h.update rfl (h i)
      cases hstep with
      | goOn => exact hsetQueue _
      | committed hthread hconsumer hlist =>
          intro j hj
          have hrest := hsetQueue _ j hj
          rw [State.setThread, ← (hinv.endVisit hvisiting hlist).2.1] at hrest
          exact hrest
      | left hlist =>
          intro j hj
          have hrest := h j hj
          rw [← (hinv.endVisit hvisiting hlist).2.1] at hrest
          exact hrest
      | _ => exact h
  | _ => exact h

variable [DecidableEq κ]

/-- The beginning of a log call. -/
theorem log (h : Registered s) (hflow : FlowInv s) (hpc : (s.threads i).pc.isIdle = true)
    {r : Request P κ} {queueSize : ℕ} {namePtr : UInt64}
    (hstep : log s i r queueSize namePtr = some s') : Registered s' := by
  rcases log_cases hpc (hflow.thread i) hstep with ⟨-, hconstruct⟩ | ⟨t, rfl, -, hruns⟩
  · exact h.construct hconstruct
  · refine h.update rfl fun hhandler => .inr (h.done_of_idle ?_ hpc)
    rwa [hruns.handler] at hhandler

/-- The other steps of a thread, which leave `register_thread` when it is through. -/
theorem threadStep (h : Registered s) (hsane : Sane s) (hstep : threadStep s i = some s') :
    Registered s' := by
  obtain ⟨t, used, rfl, -, hruns⟩ := threadStep_cases (hsane.flow.thread i)
    (fun hpc => (Life.of_not_idle hsane.life hpc).1) hstep
  refine h.update rfl fun hhandler => .inr ?_
  rw [hruns.handler] at hhandler
  rcases h i hhandler with ⟨request, hpc⟩ | hdone
  · by_contra hnot
    simp only [System.threadStep, hpc, if_neg hnot, reduceCtorEq] at hstep
  · exact hdone

/-- **Every step.** -/
theorem step (h : Registered s) (hsane : Sane s) {a : Action P ι κ}
    (hstep : System.step s a = some s') : Registered s' := by
  cases acts_of_step hstep with
  | initThread hidle hhandler hstep => exact h.construct hstep
  | initAgain => exact h
  | log hidle hstep => exact h.log hsane.flow hidle hstep
  | newNode hpc hlist => exact h.registers hpc (ThreadList.registers_of_register hlist)
  | registrar hpc hlist => exact h.registers hpc (ThreadList.registers_of_registrar hlist)
  | thread hstep => exact h.threadStep hsane hstep
  | kill hidle hhandler =>
      refine h.update rfl fun _ => .inr (h.done_of_idle ?_ hidle)
      rw [hhandler]
      simp
  | setLevel => exact h
  | setSink => exact h.update rfl (h _)
  | setFormatter => exact h.update rfl (h _)
  | shutdown => exact h
  | backend hstep => exact h.backend hsane.life (backendStep_cases hsane.flow hsane.life hstep)

end Registered

/-! ## The passes that are left -/

/-- Every thread that has registered has ended. -/
def State.AllEnded (s : State P ι κ) : Prop := ∀ i, (s.threads i).handler ≠ .constructed

/-- How many more passes the contexts of the list need. -/
def State.rounds (s : State P ι κ) : ℕ :=
  s.list.members.toFinset.sup fun i => (s.threads i).unread.length + 1

theorem rounds_le_iff {n : ℕ} :
    s.rounds ≤ n ↔ ∀ i ∈ s.list.members, (s.threads i).unread.length + 1 ≤ n := by
  simp only [State.rounds, Finset.sup_le_iff, List.mem_toFinset]

theorem rounds_eq_zero_iff : s.rounds = 0 ↔ s.list.members = [] := by
  rw [← Nat.le_zero, rounds_le_iff, List.eq_nil_iff_forall_not_mem]
  simp

/-- The passes that are left are those of the longest queue. -/
theorem rounds_eq (hne : s.list.members ≠ []) :
    s.rounds = 1 + s.list.members.toFinset.sup fun i => (s.threads i).unread.length := by
  have hnonempty : s.list.members.toFinset.Nonempty := by
    rwa [Finset.nonempty_iff_ne_empty, Ne, List.toFinset_eq_empty_iff]
  have hmono : Monotone fun n : ℕ => 1 + n := fun a b hab => Nat.add_le_add_left hab 1
  have hsup := Finset.apply_sup_eq_sup_comp_of_nonempty hmono hnonempty
    (f := fun i => (s.threads i).unread.length)
  rw [hsup]
  refine Finset.sup_congr rfl ?_
  intro i _
  exact Nat.add_comm _ _

/-- A context of the list is that of a thread that has ended. -/
theorem State.AllEnded.destroyed (h : s.AllEnded) (hsane : Sane s) (hi : i ∈ s.list.members) :
    (s.threads i).handler = .destroyed := by
  obtain ⟨l, hinv⟩ := hsane.exists_list
  cases hhandler : (s.threads i).handler with
  | notConstructed =>
      have hdone := hinv.inserted_done i (ThreadList.mem_members.mp hi).1
      rw [(hsane.life.thread i).notStarted hhandler] at hdone
      cases hdone
  | constructed => exact absurd hhandler (h i)
  | destroyed => rfl

/-- **A pass leaves one less.** -/
theorem rounds_of_polls (hended : s.AllEnded) (hsane : Sane s) (hpolls : Polls s t) :
    t.rounds = s.rounds - 1 := by
  refine eq_of_forall_ge_iff fun n => ?_
  rw [Nat.sub_le_iff_le_add, rounds_le_iff, rounds_le_iff]
  constructor
  · intro h i hi
    by_cases hnil : (s.threads i).unread = []
    · simp [hnil]
    · have hstays := (hpolls.members i).mpr ⟨hi, fun hdone => hnil hdone.2⟩
      have hlength := h i hstays
      rw [hpolls.unread, if_pos hi, List.length_tail] at hlength
      omega
  · intro h i hi
    obtain ⟨hmem, hnot⟩ := (hpolls.members i).mp hi
    have hne : (s.threads i).unread ≠ [] := fun hnil => hnot ⟨hended.destroyed hsane hmem, hnil⟩
    have hpos := List.length_pos_iff.mpr hne
    have hlength := h i hmem
    rw [hpolls.unread, if_pos hmem, List.length_tail]
    omega

/-! ## The loop -/

/-- Every queue has been read to its end. -/
structure Drained (s t : State P ι κ) : Prop where
  threads : ∀ i, ∃ q, t.threads i = (s.threads i).setQueue q
  inserted : t.list.inserted = s.list.inserted
  settled : ∀ i, (s.threads i).unread = [] → (t.threads i).unread = []
  members : ∀ i ∈ s.list.members, (t.threads i).unread = []

/-- A pass, and what the passes after it do. -/
theorem Drained.of_polls {u : State P ι κ} (hpolls : Polls s t) (h : Drained t u) : Drained s u where
  threads := by
    intro i
    obtain ⟨q, hq⟩ := hpolls.threads i
    obtain ⟨q', hq'⟩ := h.threads i
    rw [hq', hq]
    exact ⟨q', rfl⟩
  inserted := h.inserted.trans hpolls.inserted
  settled := by
    intro i hi
    refine h.settled i ?_
    rw [hpolls.unread, hi]
    simp
  members := by
    intro i hi
    by_cases hdone : (s.threads i).Done
    · refine h.settled i ?_
      rw [hpolls.unread, hdone.2]
      simp
    · exact h.members i ((hpolls.members i).mpr ⟨hi, hdone⟩)

theorem Formats.of_polls (h : Formats s s.list.members) (hpolls : Polls s t) :
    Formats t t.list.members := by
  intro i hi p hp
  obtain ⟨hmem, -⟩ := (hpolls.members i).mp hi
  rw [hpolls.unread, if_pos hmem] at hp
  exact h i hmem p (List.mem_of_mem_tail hp)

variable [DecidableEq κ]

/-- **The drain loop ends**, after so many passes. -/
theorem reaches_exited (n : ℕ) :
    ∀ {s : State P ι κ}, Sane s → s.loop = .drainTop → s.AllEnded → Formats s s.list.members →
      s.rounds = n →
      Reaches (fun t => Sane t ∧ t.loop = .exited ∧ t.list.head = none ∧ Drained s t) n s := by
  induction n with
  | zero =>
      intro s hsane hloop _ _ hrounds
      obtain ⟨l, hinv⟩ := hsane.exists_list
      have hmembers := rounds_eq_zero_iff.mp hrounds
      have hhead := hinv.head_eq_none_iff.mpr hmembers
      have hstep : ∀ localTime, backendStep s localTime = some { s with loop := .exited } := by
        intro localTime
        simp only [backendStep, hloop, if_pos hhead]
      have hdrains : s.drains = false := by
        rw [State.drains, hloop]
        rfl
      refine hsane.inevitable hdrains hstep fun ht => .here ⟨ht, rfl, hhead, ?_⟩
      refine ⟨fun i => ⟨_, rfl⟩, rfl, fun i hi => hi, ?_⟩
      rw [hmembers]
      simp
  | succ n ih =>
      intro s hsane hloop hended hformats hrounds
      obtain ⟨l, hinv⟩ := hsane.exists_list
      have hmembers : s.list.members ≠ [] := by
        intro hnil
        rw [rounds_eq_zero_iff.mpr hnil] at hrounds
        cases hrounds
      have hhead : s.list.head ≠ none := fun hhead => hmembers (hinv.head_eq_none_iff.mp hhead)
      have hstep : ∀ localTime, backendStep s localTime = some { s with loop := .drainPoll } := by
        intro localTime
        simp only [backendStep, hloop, if_neg hhead]
      have hdrains : s.drains = false := by
        rw [State.drains, hloop]
        rfl
      refine hsane.inevitable hdrains hstep fun hsane₁ => ?_
      have hpass := reaches_polls hsane₁ (hsane₁.outside rfl) hformats .drainPass .drainTop rfl
        (fun _ => rfl) (by
          intro t localTime ht
          simp only [backendStep, ht])
      rw [Nat.add_comm n 1]
      refine hpass.trans ?_
      rintro t ⟨ht, htloop, hpolled⟩
      have hpolls : Polls s t :=
        ⟨hpolled.threads, hpolled.inserted, hpolled.unread, hpolled.members⟩
      have hthreads : t.AllEnded := by
        intro i
        obtain ⟨q, hq⟩ := hpolls.threads i
        rw [hq]
        exact hended i
      have htrounds : t.rounds = n := by
        rw [rounds_of_polls hended hsane hpolls, hrounds, Nat.add_sub_cancel]
      refine (ih ht htloop hthreads (hformats.of_polls hpolls) htrounds).mono ?_
      rintro u ⟨hu, huloop, huhead, hdrained⟩
      exact ⟨hu, huloop, huhead, hdrained.of_polls hpolls⟩

/-- **Every run.** -/
theorem sane_exec {as : List (Action P ι κ)} (hclient : Along Client step init as)
    (hexec : exec step init as = some s) : Sane s ∧ Registered s := by
  refine exec_induction_along (fun t => Sane t ∧ Registered t) ?_ ⟨sane_init, ?_⟩ hclient hexec
  · intro t a t' ⟨hsane, hregistered⟩ hc hstep
    exact ⟨hsane.step hc hstep, hregistered.step hsane hstep⟩
  · intro i hi
    exact absurd rfl hi

omit [DecidableEq κ] in
/-- What was read to its end is processed. -/
theorem Sane.forall₂_of_unread (h : Sane t) (hvisit : t.visit = none)
    (hunread : (t.threads i).unread = []) :
    List.Forall₂ (Describes (t.threads i).context.name) (t.threads i).accepted
      (recordsOf t.processed i) := by
  have hconsumer := h.flow.consumer i
  rw [hvisit] at hconsumer
  have hdescribes := hconsumer.2.describes
  rwa [List.take_of_length_le (List.drop_eq_nil_iff.mp hunread)] at hdescribes

omit [DecidableEq κ] in
/-- An empty list has had all its contexts and nodes deleted. -/
theorem Sane.deleted (h : Sane t) (hout : t.list.pc = .outside) (hhead : t.list.head = none)
    (hi : i ∈ t.list.inserted) : i ∈ t.list.deletedContexts ∧ i ∈ t.list.deletedNodes := by
  obtain ⟨l, hinv⟩ := h.exists_list
  have hsound := ThreadList.reachable_sound h.life.reachable
  have hrequested : i ∈ t.list.requested := by
    by_contra hnot
    have hmem := (hinv.mem_members_iff hout).mpr ⟨hi, hnot⟩
    rw [hinv.head_eq_none_iff.mp hhead] at hmem
    cases hmem
  have hnode : i ∈ t.list.deletedNodes := by
    rw [hsound.removed (by rw [hout]; rfl)]
    exact hrequested
  exact ⟨hsound.nodes_unlinked.subset hnode, hnode⟩

/-- **The drain loop takes everything and ends.**  When all threads that registered have
ended, and the events left in the queues can be formatted, the loop ends, whatever the clock
says and the minimum level is, after one call of `poll_threads` more than the longest queue
has events, or none if the list is empty.  Then the events of every thread in the list are
processed, one for one and in the order of its queue, the context and the node of every
thread are deleted, each once, and the head is null. -/
theorem exec_drained {as : List (Action P ι κ)} (hclient : Along Client step init as)
    (hexec : exec step init as = some s) (hloop : s.loop = .drainTop) (hended : s.AllEnded)
    (hformats : Formats s s.list.members) (clock : ℕ → ℤ) :
    ∃ n t, exec step s ((List.range n).map fun k => .backend (clock k)) = some t ∧
      t.loop = .exited ∧
      count State.drains step s ((List.range n).map fun k => .backend (clock k))
        = (if s.list.head = none then 0
          else 1 + s.list.members.toFinset.sup fun i => (s.threads i).unread.length) ∧
      (∀ i ∈ s.list.members, List.Forall₂ (Describes (s.threads i).context.name)
        (s.threads i).accepted (recordsOf t.processed i)) ∧
      (∀ i, (s.threads i).handler ≠ .notConstructed →
        i ∈ t.list.deletedContexts ∧ i ∈ t.list.deletedNodes) ∧
      t.list.deletedContexts.Nodup ∧ t.list.deletedNodes.Nodup ∧ t.list.fault = false ∧
      t.list.head = none := by
  obtain ⟨hsane, hregistered⟩ := sane_exec hclient hexec
  obtain ⟨l, hinv⟩ := hsane.exists_list
  obtain ⟨n, t, hrun, ⟨ht, htloop, hhead, hdrained⟩, hcount⟩ :=
    (reaches_exited _ hsane hloop hended hformats rfl).exists_exec
      (f := fun k => .backend (clock k)) fun _ => rfl
  have hout : t.list.pc = .outside := ht.outside (by rw [htloop]; rfl)
  have hsound := ThreadList.reachable_sound ht.life.reachable
  have hnodes : t.list.deletedNodes = t.list.requested := hsound.removed (by rw [hout]; rfl)
  refine ⟨n, t, hrun, htloop, ?_, ?_, ?_, ?_, ?_, hsound.no_fault, hhead⟩
  · rw [hcount]
    split
    · rename_i hnone
      exact rounds_eq_zero_iff.mpr (hinv.head_eq_none_iff.mp hnone)
    · rename_i hsome
      exact rounds_eq fun hnil => hsome (hinv.head_eq_none_iff.mpr hnil)
  · intro i hi
    have hall := ht.forall₂_of_unread (ht.visit_eq_none hout) (hdrained.members i hi)
    obtain ⟨q, hq⟩ := hdrained.threads i
    rw [hq] at hall
    exact hall
  · intro i hi
    refine ht.deleted hout hhead ?_
    rw [hdrained.inserted]
    refine ThreadList.reachable_inserted hsane.life.reachable i (hregistered.done_of_idle hi ?_)
    cases hhandler : (s.threads i).handler with
    | notConstructed => exact absurd hhandler hi
    | constructed => exact absurd hhandler (hended i)
    | destroyed => exact (hsane.life.thread i).destroyed hhandler
  · exact (hsound.contexts_unlinked.trans hsound.unlinked_requested).sublist.nodup
      hsound.requested_once
  · rw [hnodes]
    exact hsound.requested_once

/-- A thread logs twice and another once, both end, and the program is shut down before the
backend has made a step. -/
def drainRun : List (Action helloProgram (Fin 2) ℕ) :=
  List.flatten [
    [.log 0 (hello 0) 64 8192, .newNode 0 100], List.replicate 3 (.registrar 0 false),
    List.replicate 35 (.thread 0), [.log 0 (hello 0) 64 8192], List.replicate 34 (.thread 0),
    [.log 1 (hello 0) 64 8448, .newNode 1 101], List.replicate 3 (.registrar 1 false),
    List.replicate 35 (.thread 1), [.kill 0, .kill 1, .shutdown, .backend 0]]

theorem exec_drained_drainRun :
    ∃ s, exec step init drainRun = some s ∧ s.list.members = [1, 0] ∧
      ∃ n t, exec step s ((List.range n).map fun _ => .backend 0) = some t ∧
        count State.drains step s ((List.range n).map fun _ => .backend 0) = 3 ∧
        t.list.head = none ∧ t.list.deletedNodes.Nodup ∧
        ∀ i ∈ s.list.members, List.Forall₂ (Describes (s.threads i).context.name)
          (s.threads i).accepted (recordsOf t.processed i) := by
  have hrun : (exec step init drainRun).map (fun s => (s.loop, s.list.members, s.list.head,
      [((s.threads 0).handler, (s.threads 0).unread.length),
        ((s.threads 1).handler, (s.threads 1).unread.length)]))
      = some (.drainTop, [1, 0], some 101, [(.destroyed, 2), (.destroyed, 1)]) := by
    decide +kernel
  obtain ⟨s, hs, hstate⟩ := Option.map_eq_some_iff.mp hrun
  simp only [Prod.mk.injEq, List.cons.injEq, and_true] at hstate
  obtain ⟨hloop, hmembers, hhead, ⟨h0, hunread0⟩, h1, hunread1⟩ := hstate
  have hended : s.AllEnded := by
    intro i
    match i with
    | 0 => simp [h0]
    | 1 => simp [h1]
  have hformats : Formats s s.list.members := fun _ _ _ _ => Option.some_ne_none _
  obtain ⟨n, t, hexec, -, hcount, hprocessed, -, -, hnodes, -, hhead'⟩ :=
    exec_drained (by decide +kernel) hs hloop hended hformats fun _ => 0
  refine ⟨s, hs, hmembers, n, t, hexec, ?_, hhead', hnodes, hprocessed⟩
  rw [hcount, hhead, hmembers]
  simp [hunread0, hunread1]

end Papper.System
