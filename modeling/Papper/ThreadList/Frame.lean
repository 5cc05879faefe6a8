import Papper.ThreadList.Sound

/-!
# What a step of the list leaves alone

A registration touches its own node and the head, the backend everything but the
registrations, and requests and deletions happen at one place each.  These are the facts
about the list that a system built on it needs, besides `reachable_sound`.

## Main definitions

* `Registers` — what a step of `register_thread` leaves alone.
* `Walks` — what a step of the backend between two visits leaves alone.
-/

namespace Papper.ThreadList

open Transition

variable {ι : Type} {s s' : State ι} {l : List ℕ} {i : ι}

/-- A step of the registration of a thread. -/
structure Registers (s s' : State ι) (i : ι) : Prop where
  pc : s'.pc = s.pc
  requested : s'.requested = s.requested
  deletedContexts : s'.deletedContexts = s.deletedContexts
  contextOf : ∀ n j, ThreadList.contextOf s.heap n = some j → ThreadList.contextOf s'.heap n = some j
  registration : ∀ j, j ≠ i → s'.registration j = s.registration j

/-- A step of the backend that is not the end of a visit. -/
structure Walks (s s' : State ι) : Prop where
  requested : s'.requested = s.requested
  registration : s'.registration = s.registration
  deletedContexts : s.deletedContexts ⊆ s'.deletedContexts

/-- The context the backend is at. -/
def State.visiting (s : State ι) : Option ι :=
  match s.pc with
  | .visit n _ => contextOf s.heap n
  | _ => none

/-- An access to a node does what is done with the node, or faults and does nothing. -/
theorem access_cases (n : ℕ) (k : Node ι → State ι) :
    s.access n k = { s with fault := true } ∨ ∃ node, s.heap n = some node ∧ s.access n k = k node := by
  cases hn : s.heap n with
  | none => exact Or.inl (by rw [State.access, hn])
  | some node => exact Or.inr ⟨node, rfl, by rw [State.access, hn]⟩

theorem Registers.access {n : ℕ} {k : Node ι → State ι}
    (h : ∀ node, s.heap n = some node → Registers s (k node) i) : Registers s (s.access n k) i := by
  rcases access_cases (s := s) n k with heq | ⟨node, hn, heq⟩
  · rw [heq]
    exact ⟨rfl, rfl, rfl, fun _ _ hm => hm, fun _ _ => rfl⟩
  · rw [heq]
    exact h node hn

theorem Walks.access {n : ℕ} {k : Node ι → State ι}
    (h : ∀ node, s.heap n = some node → Walks s (k node)) : Walks s (s.access n k) := by
  rcases access_cases (s := s) n k with heq | ⟨node, hn, heq⟩
  · rw [heq]
    exact ⟨rfl, rfl, List.Subset.refl _⟩
  · rw [heq]
    exact h node hn

/-- Registrations do not concern a visit. -/
theorem Registers.visiting (h : Registers s s' i) {j : ι} (hj : s.visiting = some j) :
    s'.visiting = some j := by
  cases hpc : s.pc with
  | visit n next =>
      simp only [State.visiting, hpc] at hj
      simp only [State.visiting, h.pc, hpc]
      exact h.contextOf n j hj
  | _ => simp [State.visiting, hpc] at hj

variable [DecidableEq ι]

/-- **Steps of `register_thread`.** -/
theorem registers_of_register {n : ℕ} (h : step s (.register i n) = some s') : Registers s s' i := by
  simp only [step] at h
  split at h
  · rename_i henabled
    cases h
    refine ⟨rfl, rfl, rfl, fun m j hm => ?_, fun j hj => Function.update_of_ne hj _ _⟩
    have hne : m ≠ n := by
      rintro rfl
      simp [contextOf, henabled.2.2] at hm
    simpa [contextOf, hne] using hm
  · cases h

theorem registers_of_registrar {spurious : Bool} (h : step s (.registrar i spurious) = some s') :
    Registers s s' i := by
  simp only [step] at h
  split at h
  · cases h
  cases hi : s.registration i with
  | notStarted => simp [registrar, hi] at h
  | done => simp [registrar, hi] at h
  | loadHead n =>
      simp only [registrar, hi, Option.some.injEq] at h
      subst s'
      exact ⟨rfl, rfl, rfl, fun _ _ hm => hm, fun j hj => Function.update_of_ne hj _ _⟩
  | writeNext n value =>
      simp only [registrar, hi, Option.some.injEq] at h
      subst s'
      refine Registers.access fun node hn => ?_
      refine ⟨rfl, rfl, rfl, fun m j hm => ?_, fun j hj => Function.update_of_ne hj _ _⟩
      rwa [contextOf_write hn]
  | compareExchange n =>
      simp only [registrar, hi, Option.some.injEq] at h
      subst s'
      refine Registers.access fun node hn => ?_
      by_cases hcas : s.head = node.next ∧ spurious = false
      · rw [if_pos hcas]
        exact ⟨rfl, rfl, rfl, fun _ _ hm => hm, fun j hj => Function.update_of_ne hj _ _⟩
      · rw [if_neg hcas]
        exact ⟨rfl, rfl, rfl, fun _ _ hm => hm, fun j hj => Function.update_of_ne hj _ _⟩

theorem outside_of_poll (h : step s .poll = some s') : s.pc = .outside := by
  simp only [step] at h
  split at h
  · rename_i henabled
    exact henabled.2
  · cases h

/-- **Steps of the backend between two visits.** -/
theorem walks_of_poll (h : step s .poll = some s') : Walks s s' ∧ s'.visiting = none := by
  simp only [step] at h
  split at h
  · cases h
    refine ⟨⟨rfl, rfl, List.Subset.refl _⟩, ?_⟩
    cases hhead : s.head <;> simp [State.visiting, enter]
  · cases h

theorem walks_of_backend (h : step s .backend = some s') : Walks s s' := by
  simp only [step] at h
  split at h
  · cases h
  have hsame : ∀ pc, Walks s { s with pc := pc } := fun pc => ⟨rfl, rfl, List.Subset.refl _⟩
  cases hpc : s.pc with
  | outside => simp [backend, hpc] at h
  | visit n next => simp [backend, hpc] at h
  | node n =>
      simp only [backend, hpc, Option.some.injEq] at h
      subst s'
      exact Walks.access fun node _ => hsame _
  | remove n next =>
      simp only [backend, hpc, Option.some.injEq] at h
      subst s'
      exact Walks.access fun node _ => hsame _
  | compareExchange n next desired =>
      simp only [backend, hpc] at h
      by_cases hhead : s.head = some n
      · rw [if_pos hhead, Option.some.injEq] at h
        subst s'
        exact Walks.access fun node _ => ⟨rfl, rfl, List.Subset.refl _⟩
      · rw [if_neg hhead, Option.some.injEq] at h
        subst s'
        exact hsame _
  | walk n next previous current =>
      cases current with
      | none =>
          simp only [backend, hpc, Option.some.injEq] at h
          subst s'
          exact hsame _
      | some c =>
          simp only [backend, hpc] at h
          by_cases hc : c = n
          · rw [if_pos hc, Option.some.injEq] at h
            subst s'
            exact hsame _
          · rw [if_neg hc, Option.some.injEq] at h
            subst s'
            exact Walks.access fun node _ => hsame _
  | readNext n next previous =>
      simp only [backend, hpc, Option.some.injEq] at h
      subst s'
      exact Walks.access fun node _ => hsame _
  | unlink n next previous value =>
      cases previous with
      | none =>
          simp only [backend, hpc, Option.some.injEq] at h
          subst s'
          exact ⟨rfl, rfl, List.Subset.refl _⟩
      | some p =>
          simp only [backend, hpc, Option.some.injEq] at h
          subst s'
          exact Walks.access fun removed _ => Walks.access fun node _ =>
            ⟨rfl, rfl, List.Subset.refl _⟩
  | deleteContext n next =>
      simp only [backend, hpc, Option.some.injEq] at h
      subst s'
      refine Walks.access fun node _ => ?_
      by_cases hmem : node.context ∈ s.deletedContexts
      · rw [if_pos hmem]
        exact ⟨rfl, rfl, List.Subset.refl _⟩
      · rw [if_neg hmem]
        exact ⟨rfl, rfl, List.subset_append_left _ _⟩
  | deleteNode n next =>
      simp only [backend, hpc, Option.some.injEq] at h
      subst s'
      exact Walks.access fun node _ => ⟨rfl, rfl, List.Subset.refl _⟩

/-! ## Visits -/

/-- The context the backend is at is in the list, and nobody has asked to remove it. -/
theorem Inv.visiting_member (h : Inv l s) (hi : s.visiting = some i) :
    i ∈ s.members ∧ i ∉ s.requested ∧ i ∉ s.deletedContexts ∧ s.registration i = .done := by
  cases hpc : s.pc with
  | visit n next =>
      have hinv := h.pc
      rw [hpc] at hinv
      obtain ⟨hprogress, pre, suf, hl, -, -⟩ := hinv
      obtain ⟨j, hj, hcontext⟩ := h.exists_member (n := n) (by simp [hl])
      simp only [State.visiting, hpc, hcontext, Option.some.injEq] at hi
      subst j
      obtain ⟨hinserted, hunlinked⟩ := mem_members.mp hj
      have hdeleted := hunlinked
      rw [hprogress.unlinked, List.append_nil] at hdeleted
      refine ⟨hj, ?_, hdeleted, h.inserted_done i hinserted⟩
      rwa [hprogress.requested, List.append_nil]
  | _ => simp [State.visiting, hpc] at hi

/-- A place that is a visit has a context. -/
theorem Inv.exists_visiting (h : Inv l s) {n : ℕ} {next : Option ℕ} (hpc : s.pc = .visit n next) :
    ∃ i, contextOf s.heap n = some i ∧ s.visiting = some i := by
  have hinv := h.pc
  rw [hpc] at hinv
  obtain ⟨-, pre, suf, hl, -, -⟩ := hinv
  obtain ⟨i, -, hcontext⟩ := h.exists_member (n := n) (by simp [hl])
  exact ⟨i, hcontext, by simp [State.visiting, hpc, hcontext]⟩

theorem Inv.registers_visiting (h : Inv l s) (hr : Registers s s' i) : s'.visiting = s.visiting := by
  cases hpc : s.pc with
  | visit n next =>
      obtain ⟨j, -, hj⟩ := h.exists_visiting hpc
      rw [hj, hr.visiting hj]
  | _ => simp [State.visiting, hr.pc, hpc]

/-- **The end of a visit**: the removal of a dead thread's context is requested. -/
theorem Inv.endVisit (h : Inv l s) (hi : s.visiting = some i) {dead : Bool}
    (hstep : ThreadList.step s (.visit dead) = some s') :
    s'.requested = s.requested ++ (if dead then [i] else []) ∧ s'.registration = s.registration ∧
      s'.deletedContexts = s.deletedContexts ∧ s'.visiting = none := by
  have hlive := (h.visiting_member hi).2.2.1
  cases hpc : s.pc with
  | visit n next =>
      simp only [State.visiting, hpc] at hi
      obtain ⟨node, hn, rfl⟩ := contextOf_eq_some.mp hi
      simp only [ThreadList.step, hpc, h.fault, access_eq hn, if_neg hlive, Option.some.injEq,
        Bool.false_eq_true, if_false] at hstep
      cases dead with
      | false =>
          simp only [Bool.false_eq_true, if_false] at hstep
          subst s'
          refine ⟨by simp, rfl, rfl, ?_⟩
          cases next <;> simp [State.visiting, enter]
      | true =>
          simp only [if_true] at hstep
          subst s'
          exact ⟨by simp, rfl, rfl, by simp [State.visiting]⟩
  | _ => simp [State.visiting, hpc] at hi

/-- A context that is about to be deleted was asked to be removed, is not deleted yet, and
is so after the step. -/
theorem Inv.deletingContext (h : Inv l s) {n : ℕ} {next : Option ℕ} (hpc : s.pc = .deleteContext n next)
    (hi : contextOf s.heap n = some i) (hstep : ThreadList.step s .backend = some s') :
    i ∈ s.requested ∧ i ∉ s.deletedContexts ∧ i ∈ s'.deletedContexts := by
  have hinv := h.pc
  rw [hpc] at hinv
  obtain ⟨j, pre, suf, hrem, hprogress⟩ := hinv
  obtain rfl := Option.some.inj (hrem.context.symm.trans hi)
  obtain ⟨node, hn, rfl⟩ := contextOf_eq_some.mp hrem.context
  have hlive := h.notMem_deletedContexts hprogress
  have hrequested : node.context ∈ s.requested := by
    rw [hprogress.requested, List.append_nil]
    exact hrem.unlinked
  simp only [ThreadList.step, h.fault, Bool.false_eq_true, if_false, ThreadList.backend, hpc,
    access_eq hn, if_neg hlive, Option.some.injEq] at hstep
  subst s'
  exact ⟨hrequested, hlive, by simp⟩

end Papper.ThreadList
