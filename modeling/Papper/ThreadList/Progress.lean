import Papper.Lib.Inevitable
import Papper.ThreadList.Frame

/-!
# The backend goes on

Between two visits there is always a next step of `poll_threads`, and it depends on nobody
else: a removal that fails at the head walks to its node, each of the steps being nearer to
it, and unlinks it.

## Main definitions

* `Pc.Follows` — where the backend goes next.
* `backend_cases` — what a step of the backend leaves alone.
* `Inv.removalEnds` — every removal comes to its end.
-/

namespace Papper.ThreadList

open Transition

variable {ι : Type}

/-- Where the backend goes next, between two visits. -/
inductive Pc.Follows : Pc → Pc → Prop
  | node {n : ℕ} {next : Option ℕ} : Follows (.node n) (.visit n next)
  | remove {n : ℕ} {next desired : Option ℕ} :
      Follows (.remove n next) (.compareExchange n next desired)
  | unlinkHead {n : ℕ} {next desired : Option ℕ} :
      Follows (.compareExchange n next desired) (.deleteContext n next)
  | walkFrom {n : ℕ} {next desired current : Option ℕ} :
      Follows (.compareExchange n next desired) (.walk n next none current)
  | walkOff {n : ℕ} {next previous : Option ℕ} :
      Follows (.walk n next previous none) (enter next)
  | found {n : ℕ} {next previous : Option ℕ} :
      Follows (.walk n next previous (some n)) (.readNext n next previous)
  | walk {n c : ℕ} {next previous current : Option ℕ} (hne : c ≠ n) :
      Follows (.walk n next previous (some c)) (.walk n next (some c) current)
  | readNext {n : ℕ} {next previous value : Option ℕ} :
      Follows (.readNext n next previous) (.unlink n next previous value)
  | unlink {n : ℕ} {next previous value : Option ℕ} :
      Follows (.unlink n next previous value) (.deleteContext n next)
  | deleteContext {n : ℕ} {next : Option ℕ} :
      Follows (.deleteContext n next) (.deleteNode n next)
  | deleteNode {n : ℕ} {next : Option ℕ} : Follows (.deleteNode n next) (enter next)

@[simp] theorem removing_enter (next : Option ℕ) : (enter next).removing = false := by
  cases next <;> rfl

theorem enter_ne_visit (next : Option ℕ) {n : ℕ} {next' : Option ℕ} :
    enter next ≠ .visit n next' := by
  cases next <;> simp [enter]

/-- A removal does not lead to a visit. -/
theorem Pc.Follows.ne_visit {pc pc' : Pc} (h : pc.Follows pc') (hremoving : pc.removing = true)
    {n : ℕ} {next : Option ℕ} : pc' ≠ .visit n next := by
  cases h with
  | node => cases hremoving
  | walkOff => exact enter_ne_visit _
  | deleteNode => exact enter_ne_visit _
  | _ => simp

/-- A node leads to the visit of its context. -/
theorem Pc.Follows.eq_visit {n : ℕ} {pc : Pc} (h : (Pc.node n).Follows pc) :
    ∃ next, pc = .visit n next := by
  cases h
  exact ⟨_, rfl⟩

/-- What a step of the backend between two visits leaves alone, besides `Walks`. -/
structure Passes (s s' : State ι) : Prop where
  follows : s.pc.Follows s'.pc
  inserted : s'.inserted = s.inserted
  snapshot : s'.snapshot = s.snapshot
  visited : s'.visited = s.visited

variable {s s' : State ι} {l : List ℕ} {i : ι}

/-- An access that has not faulted. -/
theorem Passes.access {n : ℕ} {k : Node ι → State ι} (hfault : (s.access n k).fault = false)
    (h : ∀ node, s.heap n = some node → (k node).fault = false → Passes s (k node)) :
    Passes s (s.access n k) := by
  rcases access_cases (s := s) n k with heq | ⟨node, hn, heq⟩
  · rw [heq] at hfault
    cases hfault
  · rw [heq] at hfault ⊢
    exact h node hn hfault

variable [DecidableEq ι]

/-- **Where a step of the backend leads** that has not faulted. -/
theorem backend_cases (h : step s .backend = some s') (hfault : s'.fault = false) :
    Passes s s' := by
  simp only [step] at h
  split at h
  · cases h
  have hsame : ∀ pc, s.pc.Follows pc → Passes s { s with pc := pc } := by
    intro pc hpc
    exact ⟨hpc, rfl, rfl, rfl⟩
  cases hpc : s.pc with
  | outside => simp [backend, hpc] at h
  | visit n next => simp [backend, hpc] at h
  | node n =>
      simp only [backend, hpc, Option.some.injEq] at h
      subst s'
      exact Passes.access hfault fun node _ _ => hsame _ (hpc ▸ .node)
  | remove n next =>
      simp only [backend, hpc, Option.some.injEq] at h
      subst s'
      exact Passes.access hfault fun node _ _ => hsame _ (hpc ▸ .remove)
  | compareExchange n next desired =>
      simp only [backend, hpc] at h
      by_cases hhead : s.head = some n
      · rw [if_pos hhead, Option.some.injEq] at h
        subst s'
        exact Passes.access hfault fun node _ _ => ⟨hpc ▸ .unlinkHead, rfl, rfl, rfl⟩
      · rw [if_neg hhead, Option.some.injEq] at h
        subst s'
        exact hsame _ (hpc ▸ .walkFrom)
  | walk n next previous current =>
      cases current with
      | none =>
          simp only [backend, hpc, Option.some.injEq] at h
          subst s'
          exact hsame _ (hpc ▸ .walkOff)
      | some c =>
          simp only [backend, hpc] at h
          by_cases hc : c = n
          · rw [if_pos hc, Option.some.injEq] at h
            subst c s'
            exact hsame _ (hpc ▸ .found)
          · rw [if_neg hc, Option.some.injEq] at h
            subst s'
            exact Passes.access hfault fun node _ _ => hsame _ (hpc ▸ .walk hc)
  | readNext n next previous =>
      simp only [backend, hpc, Option.some.injEq] at h
      subst s'
      exact Passes.access hfault fun node _ _ => hsame _ (hpc ▸ .readNext)
  | unlink n next previous value =>
      cases previous with
      | none =>
          simp only [backend, hpc, Option.some.injEq] at h
          subst s'
          cases hfault
      | some p =>
          simp only [backend, hpc, Option.some.injEq] at h
          subst s'
          exact Passes.access hfault fun removed _ hfault =>
            Passes.access hfault fun node _ _ => ⟨hpc ▸ .unlink, rfl, rfl, rfl⟩
  | deleteContext n next =>
      simp only [backend, hpc, Option.some.injEq] at h
      subst s'
      refine Passes.access hfault fun node _ hfault => ?_
      by_cases hmem : node.context ∈ s.deletedContexts
      · rw [if_pos hmem] at hfault
        cases hfault
      · rw [if_neg hmem]
        exact ⟨hpc ▸ .deleteContext, rfl, rfl, rfl⟩
  | deleteNode n next =>
      simp only [backend, hpc, Option.some.injEq] at h
      subst s'
      exact Passes.access hfault fun node _ _ => ⟨hpc ▸ .deleteNode, rfl, rfl, rfl⟩

/-- There is a next step. -/
theorem Inv.backend_enabled (h : Inv l s) (hout : s.pc ≠ .outside) (hvisiting : s.visiting = none) :
    ∃ s', ThreadList.step s .backend = some s' := by
  simp only [ThreadList.step, h.fault, Bool.false_eq_true, if_false]
  cases hpc : s.pc with
  | outside => exact absurd hpc hout
  | visit n next =>
      obtain ⟨i, -, hi⟩ := h.exists_visiting hpc
      rw [hvisiting] at hi
      cases hi
  | compareExchange n next desired =>
      simp only [ThreadList.backend, hpc]
      split <;> exact ⟨_, rfl⟩
  | walk n next previous current =>
      cases current with
      | none =>
          simp only [ThreadList.backend, hpc]
          exact ⟨_, rfl⟩
      | some c =>
          simp only [ThreadList.backend, hpc]
          split <;> exact ⟨_, rfl⟩
  | unlink n next previous value =>
      cases previous <;> simp only [ThreadList.backend, hpc] <;> exact ⟨_, rfl⟩
  | _ =>
      simp only [ThreadList.backend, hpc]
      exact ⟨_, rfl⟩

/-! ## Removals -/

/-- The removal comes to its end. -/
def RemovalEnds (s : State ι) : Prop :=
  Inevitable step (· = .backend) (fun _ => false) (fun t => t.pc.removing = false) 0 s

/-- One step of a removal. -/
theorem Inv.removalEnds_step (h : Inv l s) (hpc : s.pc.removing = true)
    (hnext : ∀ l' s', Inv l' s' → ThreadList.step s .backend = some s' → s.pc.Follows s'.pc →
      RemovalEnds s') : RemovalEnds s := by
  refine Inevitable.step_of_not rfl ?_ ?_
  · rintro a rfl
    refine h.backend_enabled ?_ ?_
    · intro hout
      rw [hout] at hpc
      cases hpc
    · cases hs : s.pc with
      | visit n next =>
          rw [hs] at hpc
          cases hpc
      | _ => simp only [State.visiting, hs]
  · rintro a s' rfl hstep
    obtain ⟨l', h'⟩ := h.step hstep
    exact hnext l' s' h' hstep (backend_cases hstep h'.fault).follows

/-- One step of a removal, by where it leads. -/
theorem Inv.removalEnds_of_follows (h : Inv l s) {pc : Pc} (hpc : s.pc = pc)
    (hremoving : pc.removing = true)
    (hnext : ∀ l' (s' : State ι) pc', pc.Follows pc' → Inv l' s' → s'.pc = pc' → RemovalEnds s') :
    RemovalEnds s := by
  refine h.removalEnds_step (by rw [hpc, hremoving]) ?_
  intro l' s' h' _ hfollows
  rw [hpc] at hfollows
  exact hnext l' s' _ hfollows h' rfl

theorem Inv.removalEnds_deleteNode (h : Inv l s) {n : ℕ} {next : Option ℕ}
    (hpc : s.pc = .deleteNode n next) : RemovalEnds s := by
  refine h.removalEnds_of_follows hpc rfl ?_
  intro l' s' pc' hfollows _ hpc'
  cases hfollows
  refine Inevitable.here ?_
  rw [hpc', removing_enter]

theorem Inv.removalEnds_deleteContext (h : Inv l s) {n : ℕ} {next : Option ℕ}
    (hpc : s.pc = .deleteContext n next) : RemovalEnds s := by
  refine h.removalEnds_of_follows hpc rfl ?_
  intro l' s' pc' hfollows h' hpc'
  cases hfollows
  exact h'.removalEnds_deleteNode hpc'

theorem Inv.removalEnds_readNext (h : Inv l s) {n : ℕ} {next previous : Option ℕ}
    (hpc : s.pc = .readNext n next previous) : RemovalEnds s := by
  refine h.removalEnds_of_follows hpc rfl ?_
  intro l' s' pc' hfollows h' hpc'
  cases hfollows
  refine h'.removalEnds_of_follows hpc' rfl ?_
  intro l'' s'' pc'' hfollows h'' hpc''
  cases hfollows
  exact h''.removalEnds_deleteContext hpc''

/-- **The walk ends**: what lies between it and the node gets less. -/
theorem removalEnds_walk {n : ℕ} {next : Option ℕ} {suf : List ℕ} (mid : List ℕ) :
    ∀ (pre : List ℕ) {s : State ι} {previous current : Option ℕ}, Inv l s →
      s.pc = .walk n next previous current → l = (pre ++ mid) ++ n :: suf →
      current = (mid ++ n :: suf).head? → RemovalEnds s := by
  induction mid with
  | nil =>
      intro pre s previous current h hpc hl hcurrent
      obtain rfl : current = some n := hcurrent
      refine h.removalEnds_of_follows hpc rfl ?_
      intro l' s' pc' hfollows h' hpc'
      cases hfollows with
      | found => exact h'.removalEnds_readNext hpc'
      | walk hne => exact absurd rfl hne
  | cons c mid ih =>
      intro pre s previous current h hpc hl hcurrent
      obtain rfl : current = some c := hcurrent
      have hl' : l = pre ++ c :: (mid ++ n :: suf) := by rw [hl, List.append_assoc]; rfl
      have hne : c ≠ n := by
        rintro rfl
        have hnodup := h.nodup
        rw [hl'] at hnodup
        exact (List.nodup_middle.mp hnodup).notMem (by simp)
      obtain ⟨node, hc, hnode, -⟩ := h.access hl'
      refine h.removalEnds_step (by rw [hpc]; rfl) ?_
      intro _ s' _ hstep _
      have hwalk : Inv l s' := by
        simp only [step, h.fault, Bool.false_eq_true, if_false] at hstep
        exact h.walk hpc hstep
      simp only [step, h.fault, Bool.false_eq_true, if_false, backend, hpc, if_neg hne,
        access_eq hc, Option.some.injEq] at hstep
      subst s'
      refine ih (pre ++ [c]) hwalk rfl ?_ hnode
      rw [hl, List.append_assoc, List.append_assoc, List.append_assoc]
      rfl

/-- **Every removal comes to its end.** -/
theorem Inv.removalEnds (h : Inv l s) : RemovalEnds s := by
  have hcompare : ∀ {l : List ℕ} {s : State ι} {n next desired}, Inv l s →
      s.pc = .compareExchange n next desired → RemovalEnds s := by
    intro l s n next desired h hpc
    refine h.removalEnds_of_follows hpc rfl ?_
    intro l' s' pc' hfollows h' hpc'
    cases hfollows with
    | unlinkHead => exact h'.removalEnds_deleteContext hpc'
    | walkFrom =>
        have hinv := h'.pc
        rw [hpc'] at hinv
        obtain ⟨_, pre, mid, suf, hrem, hcurrent, -, -⟩ := hinv
        exact removalEnds_walk mid pre h' hpc' hrem.split hcurrent
  cases hpc : s.pc with
  | outside | node | visit => exact Inevitable.here (by rw [hpc]; rfl)
  | remove n next =>
      refine h.removalEnds_of_follows hpc rfl ?_
      intro l' s' pc' hfollows h' hpc'
      cases hfollows
      exact hcompare h' hpc'
  | compareExchange n next desired => exact hcompare h hpc
  | walk n next previous current =>
      have hinv := h.pc
      rw [hpc] at hinv
      obtain ⟨_, pre, mid, suf, hrem, hcurrent, -, -⟩ := hinv
      exact removalEnds_walk mid pre h hpc hrem.split hcurrent
  | readNext n next previous => exact h.removalEnds_readNext hpc
  | unlink n next previous value =>
      refine h.removalEnds_of_follows hpc rfl ?_
      intro l' s' pc' hfollows h' hpc'
      cases hfollows
      exact h'.removalEnds_deleteContext hpc'
  | deleteContext n next => exact h.removalEnds_deleteContext hpc
  | deleteNode n next => exact h.removalEnds_deleteNode hpc

/-! ## Passes -/

/-- The context the backend is at is the next of those the pass has to visit. -/
theorem Inv.snapshot_eq (h : Inv l s) (hi : s.visiting = some i) :
    ∃ rest, s.snapshot = s.visited ++ i :: rest := by
  cases hpc : s.pc with
  | visit n next =>
      have hinv := h.pc
      rw [hpc] at hinv
      obtain ⟨-, pre, suf, -, -, hrem⟩ := hinv
      obtain ⟨rest, hsnapshot, hrest⟩ := hrem.visited_prefix
      simp only [State.visiting, hpc] at hi
      rw [List.map_cons, hi] at hrest
      obtain ⟨j, rest', rfl, hj, -⟩ := List.map_eq_cons_iff.mp hrest
      obtain rfl := Option.some.inj hj
      exact ⟨rest', hsnapshot⟩
  | _ => simp [State.visiting, hpc] at hi

/-- A context is visited once in a pass. -/
theorem Inv.visiting_notMem (h : Inv l s) (hi : s.visiting = some i) :
    i ∈ s.snapshot ∧ i ∉ s.visited := by
  obtain ⟨rest, hsnapshot⟩ := h.snapshot_eq hi
  have hnodup := h.snapshot_nodup
  rw [hsnapshot] at hnodup
  rw [hsnapshot]
  refine ⟨by simp, fun hmem => ?_⟩
  exact List.disjoint_of_nodup_append hnodup hmem List.mem_cons_self

/-- What the end of a visit changes, besides what it requests. -/
theorem Inv.endVisit_visited (h : Inv l s) (hi : s.visiting = some i) {dead : Bool}
    (hstep : ThreadList.step s (.visit dead) = some s') :
    s'.inserted = s.inserted ∧ s'.snapshot = s.snapshot ∧ s'.visited = s.visited ++ [i] := by
  have hlive := (h.visiting_member hi).2.2.1
  cases hpc : s.pc with
  | visit n next =>
      simp only [State.visiting, hpc] at hi
      obtain ⟨node, hn, rfl⟩ := contextOf_eq_some.mp hi
      simp only [ThreadList.step, hpc, h.fault, access_eq hn, if_neg hlive, Option.some.injEq,
        Bool.false_eq_true, if_false] at hstep
      cases dead with
      | false =>
          simp only [Bool.false_eq_true, if_false] at hstep
          subst s'
          exact ⟨rfl, rfl, rfl⟩
      | true =>
          simp only [if_true] at hstep
          subst s'
          exact ⟨rfl, rfl, rfl⟩
  | _ => simp [State.visiting, hpc] at hi

/-- There is always an end to a visit. -/
theorem Inv.endVisit_enabled (h : Inv l s) (hi : s.visiting = some i) (dead : Bool) :
    ∃ s', ThreadList.step s (.visit dead) = some s' := by
  cases hpc : s.pc with
  | visit n next =>
      simp only [ThreadList.step, hpc, h.fault, Bool.false_eq_true, if_false]
      exact ⟨_, rfl⟩
  | _ => simp [State.visiting, hpc] at hi

/-- Outside of `poll_threads` the list has what nobody has asked to remove. -/
theorem Inv.mem_members_iff (h : Inv l s) (hout : s.pc = .outside) :
    i ∈ s.members ↔ i ∈ s.inserted ∧ i ∉ s.requested := by
  have hinv := h.pc
  rw [hout] at hinv
  have hrequested := hinv.1.requested
  rw [List.append_nil] at hrequested
  rw [mem_members, hrequested]

/-- The head is null exactly when the list has nothing. -/
theorem Inv.head_eq_none_iff (h : Inv l s) : s.head = none ↔ s.members = [] := by
  have hlength := congrArg List.length h.contexts
  rw [List.length_map, List.length_map] at hlength
  rw [h.linked.head_eq, List.head?_eq_none_iff, ← List.length_eq_zero_iff, hlength,
    List.length_eq_zero_iff]

/-- **A thread that has registered has inserted its context.** -/
theorem reachable_inserted (hr : Reachable step init s) :
    ∀ i, s.registration i = .done → i ∈ s.inserted := by
  have hinvariant : (∃ l, Inv l s) ∧ ∀ i, s.registration i = .done → i ∈ s.inserted := by
    refine hr.invariant (fun s => (∃ l, Inv l s) ∧ ∀ i, s.registration i = .done → i ∈ s.inserted)
      ⟨⟨[], inv_init⟩, by simp [init]⟩ ?_
    rintro s a s' ⟨⟨l, hinv⟩, h⟩ hstep
    obtain ⟨l', hinv'⟩ := hinv.step hstep
    refine ⟨⟨l', hinv'⟩, ?_⟩
    have hkeep : ∀ {j r}, r ≠ .done → ∀ i, Function.update s.registration j r i = .done →
        i ∈ s.inserted := by
      intro j r hr i hi
      by_cases hij : i = j
      · subst j
        rw [Function.update_self] at hi
        exact absurd hi hr
      · rw [Function.update_of_ne hij] at hi
        exact h i hi
    cases a with
    | register j n =>
        simp only [step] at hstep
        split at hstep
        · cases hstep
          exact hkeep (by simp)
        · cases hstep
    | registrar j spurious =>
        simp only [step, hinv.fault, Bool.false_eq_true, if_false] at hstep
        cases hj : s.registration j with
        | notStarted => simp [registrar, hj] at hstep
        | done => simp [registrar, hj] at hstep
        | loadHead n =>
            simp only [registrar, hj, Option.some.injEq] at hstep
            subst s'
            exact hkeep (by simp)
        | writeNext n value =>
            simp only [registrar, hj, Option.some.injEq] at hstep
            subst s'
            rcases access_cases n _ with heq | ⟨node, -, heq⟩ <;> rw [heq]
            · exact h
            · exact hkeep (by simp)
        | compareExchange n =>
            simp only [registrar, hj, Option.some.injEq] at hstep
            subst s'
            rcases access_cases n _ with heq | ⟨node, -, heq⟩ <;> rw [heq]
            · exact h
            · split
              · intro i hi
                by_cases hij : i = j
                · exact hij ▸ List.mem_cons_self
                · simp only [Function.update_of_ne hij] at hi
                  exact List.mem_cons_of_mem _ (h i hi)
              · exact hkeep (by simp)
    | poll =>
        simp only [step] at hstep
        split at hstep
        · cases hstep
          exact h
        · cases hstep
    | visit dead =>
        cases hpc : s.pc with
        | visit n next =>
            obtain ⟨i, -, hvisiting⟩ := hinv.exists_visiting hpc
            rw [(hinv.endVisit hvisiting hstep).2.1, (hinv.endVisit_visited hvisiting hstep).1]
            exact h
        | _ => simp [step, hpc] at hstep
    | backend =>
        have hpasses := backend_cases hstep hinv'.fault
        rw [(walks_of_backend hstep).registration, hpasses.inserted]
        exact h
  exact hinvariant.2

end Papper.ThreadList
