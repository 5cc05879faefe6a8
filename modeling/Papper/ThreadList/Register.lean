import Papper.Lib.Refinement
import Papper.ThreadList.Progress

/-!
# Registration does not wait

A thread goes round the loop of `register_thread` again when its compare-exchange fails.  It
may do so for no reason, but otherwise it fails only because the head has changed since the
thread last loaded it, and the head changes when some other thread inserts its node or the
backend removes one.  So in any run a thread fails at most once for each insertion and removal
there has been: some thread gets on whenever one has to go round again, and a thread goes round
no more often than twice for every thread that has registered.

## Main definitions

* `RegisterStep` — what a step of `register_thread` can be.
* `Unlinks` — what a step of the backend does to the list.
* `failure` — a step that is a compare-exchange of a thread and fails for a reason.
-/

namespace Papper.ThreadList

open Transition

variable {ι : Type} {s s' : State ι} {l : List ℕ} {i : ι}

section RegisterStep
variable [DecidableEq ι]

/-- What a step of `register_thread` can be: the node of the thread is there. -/
inductive RegisterStep (s : State ι) (i : ι) (spurious : Bool) : State ι → Prop
  | loadHead {n : ℕ} (hi : s.registration i = .loadHead n) :
      RegisterStep s i spurious
        { s with registration := Function.update s.registration i (.writeNext n s.head) }
  | writeNext {n : ℕ} {value : Option ℕ} {node : Node ι} (hi : s.registration i = .writeNext n value)
      (hn : s.heap n = some node) :
      RegisterStep s i spurious
        { s with
          heap := Function.update s.heap n (some { node with next := value })
          registration := Function.update s.registration i (.compareExchange n) }
  | insert {n : ℕ} {node : Node ι} (hi : s.registration i = .compareExchange n)
      (hn : s.heap n = some node) (hhead : s.head = node.next) (hspurious : spurious = false) :
      RegisterStep s i spurious
        { s with
          head := some n
          registration := Function.update s.registration i .done
          inserted := i :: s.inserted }
  | retry {n : ℕ} {node : Node ι} (hi : s.registration i = .compareExchange n)
      (hn : s.heap n = some node) (hfail : ¬ (s.head = node.next ∧ spurious = false)) :
      RegisterStep s i spurious
        { s with registration := Function.update s.registration i (.writeNext n s.head) }

/-- A thread that registers has its node. -/
theorem Inv.exists_node (h : Inv l s) {n : ℕ} (hn : (s.registration i).node? = some n) :
    ∃ node, s.heap n = some node ∧ node.context = i :=
  contextOf_eq_some.mp (h.registering i n hn)

/-- **Every such step is one of these.** -/
theorem Inv.registerStep (h : Inv l s) {spurious : Bool}
    (hstep : ThreadList.step s (.registrar i spurious) = some s') : RegisterStep s i spurious s' := by
  simp only [ThreadList.step, h.fault, Bool.false_eq_true, if_false] at hstep
  cases hi : s.registration i with
  | notStarted => simp [ThreadList.registrar, hi] at hstep
  | done => simp [ThreadList.registrar, hi] at hstep
  | loadHead n =>
      simp only [ThreadList.registrar, hi, Option.some.injEq] at hstep
      exact hstep ▸ .loadHead hi
  | writeNext n value =>
      obtain ⟨node, hn, -⟩ := h.exists_node (i := i) (n := n) (by rw [hi]; rfl)
      simp only [ThreadList.registrar, hi, access_eq hn, Option.some.injEq] at hstep
      exact hstep ▸ .writeNext hi hn
  | compareExchange n =>
      obtain ⟨node, hn, -⟩ := h.exists_node (i := i) (n := n) (by rw [hi]; rfl)
      simp only [ThreadList.registrar, hi, access_eq hn, Option.some.injEq] at hstep
      by_cases hhead : s.head = node.next ∧ spurious = false
      · rw [if_pos hhead] at hstep
        exact hstep ▸ .insert hi hn hhead.1 hhead.2
      · rw [if_neg hhead] at hstep
        exact hstep ▸ .retry hi hn hhead

/-- What a registration leaves alone of the record. -/
structure Recorded (s s' : State ι) : Prop where
  inserted : s.inserted ⊆ s'.inserted
  snapshot : s'.snapshot = s.snapshot
  visited : s'.visited = s.visited

omit [DecidableEq ι] in
theorem Recorded.refl (s : State ι) : Recorded s s := ⟨List.Subset.refl _, rfl, rfl⟩

theorem recorded_of_register {n : ℕ} (hstep : step s (.register i n) = some s') : Recorded s s' := by
  simp only [step] at hstep
  split at hstep
  · cases hstep
    exact ⟨List.Subset.refl _, rfl, rfl⟩
  · cases hstep

theorem RegisterStep.recorded {spurious : Bool} (h : RegisterStep s i spurious s') :
    Recorded s s' := by
  cases h with
  | insert => exact ⟨List.subset_cons_self _ _, rfl, rfl⟩
  | _ => exact ⟨List.Subset.refl _, rfl, rfl⟩

end RegisterStep

/-! ## What a registering thread has loaded -/

/-- The head as the thread has loaded it, from then on until its compare-exchange. -/
def State.loaded (s : State ι) (i : ι) : Option (Option ℕ) :=
  match s.registration i with
  | .writeNext _ value => some value
  | .compareExchange n => some (nextOf s.heap n)
  | _ => none

/-- What a thread has loaded is not changed by the steps of others. -/
theorem loaded_congr (hregistration : s'.registration i = s.registration i)
    (hheap : ∀ n, (s.registration i).node? = some n → s'.heap n = s.heap n) :
    s'.loaded i = s.loaded i := by
  simp only [State.loaded, hregistration]
  cases hi : s.registration i with
  | compareExchange n => simp only [nextOf, hheap n (by rw [hi]; rfl)]
  | _ => rfl

section Loaded
variable [DecidableEq ι]

/-- The backend does not write to the node of a thread that registers. -/
theorem Inv.heap_backend (h : Inv l s) {n : ℕ} (hn : (s.registration i).node? = some n)
    (hstep : ThreadList.step s .backend = some s') : s'.heap n = s.heap n := by
  obtain ⟨hi, hl⟩ := h.registering_fresh hn
  simp only [ThreadList.step, h.fault, Bool.false_eq_true, if_false] at hstep
  have haccess : ∀ (m : ℕ) (k : Node ι → State ι), (∀ node, (k node).heap n = s.heap n) →
      (s.access m k).heap n = s.heap n := by
    intro m k hk
    rcases access_cases (s := s) m k with heq | ⟨node, -, heq⟩
    · rw [heq]
    · rw [heq, hk]
  have hpcinv := h.pc
  cases hpc : s.pc with
  | unlink m next previous value =>
      rw [hpc] at hpcinv
      obtain ⟨j, p, pre, suf, hrem, rfl, -⟩ := hpcinv
      simp only [ThreadList.backend, hpc, Option.some.injEq] at hstep
      subst s'
      refine haccess m _ fun removed => haccess p _ fun node => ?_
      refine Function.update_of_ne ?_ _ _
      rintro rfl
      exact hl (by rw [hrem.split]; simp)
  | deleteNode m next =>
      rw [hpc] at hpcinv
      obtain ⟨j, pre, suf, hrem, -⟩ := hpcinv
      simp only [ThreadList.backend, hpc, Option.some.injEq] at hstep
      subst s'
      refine haccess m _ fun node => Function.update_of_ne ?_ _ _
      rintro rfl
      have hj := (h.registering i n hn).symm.trans hrem.context
      rw [Option.some.injEq] at hj
      exact hi (h.unlinked_inserted i (hj ▸ hrem.unlinked))
  | compareExchange m next desired =>
      simp only [ThreadList.backend, hpc] at hstep
      by_cases hhead : s.head = some m
      · rw [if_pos hhead, Option.some.injEq] at hstep
        exact hstep ▸ haccess m _ fun node => rfl
      · rw [if_neg hhead, Option.some.injEq] at hstep
        exact hstep ▸ rfl
  | walk m next previous current =>
      cases current with
      | none =>
          simp only [ThreadList.backend, hpc, Option.some.injEq] at hstep
          exact hstep ▸ rfl
      | some c =>
          simp only [ThreadList.backend, hpc] at hstep
          by_cases hc : c = m
          · rw [if_pos hc, Option.some.injEq] at hstep
            exact hstep ▸ rfl
          · rw [if_neg hc, Option.some.injEq] at hstep
            exact hstep ▸ haccess c _ fun node => rfl
  | deleteContext m next =>
      simp only [ThreadList.backend, hpc, Option.some.injEq] at hstep
      subst s'
      refine haccess m _ fun node => ?_
      split <;> rfl
  | node m | remove m next | readNext m next previous =>
      simp only [ThreadList.backend, hpc, Option.some.injEq] at hstep
      exact hstep ▸ haccess m _ fun node => rfl
  | outside | visit m next => simp [ThreadList.backend, hpc] at hstep

theorem Inv.loaded_registrar (h : Inv l s) {j : ι} (hj : j ≠ i) {spurious : Bool}
    (hstep : ThreadList.step s (.registrar j spurious) = some s') : s'.loaded i = s.loaded i := by
  apply loaded_congr
  · exact (registers_of_registrar hstep).registration i hj.symm
  · intro n hn
    cases h.registerStep hstep with
    | @writeNext m value node hi hm =>
        refine Function.update_of_ne ?_ _ _
        rintro rfl
        have hother := h.registering j n (by rw [hi]; rfl)
        rw [h.registering i n hn, Option.some.injEq] at hother
        exact hj hother.symm
    | _ => rfl

theorem Inv.loaded_register (h : Inv l s) {j : ι} {n : ℕ}
    (hstep : ThreadList.step s (.register j n) = some s') : s'.loaded i = s.loaded i := by
  simp only [ThreadList.step] at hstep
  split at hstep
  · rename_i hnew
    cases hstep
    by_cases hj : i = j
    · subst hj
      simp [State.loaded, hnew.2.1]
    · apply loaded_congr
      · exact Function.update_of_ne hj _ _
      · intro m hm
        obtain ⟨node, hnode, -⟩ := h.exists_node hm
        refine Function.update_of_ne ?_ _ _
        rintro rfl
        rw [hnew.2.2] at hnode
        cases hnode
  · cases hstep

end Loaded

/-! ## How often the head has changed -/

/-- How many nodes have been inserted and removed. -/
def State.changes (s : State ι) : ℕ := s.inserted.length + s.unlinked.length

/-- The head is what it was, or one more node was inserted or removed. -/
structure Counted (s s' : State ι) : Prop where
  changes_le : s.changes ≤ s'.changes
  head : s'.head = s.head ∨ s.changes < s'.changes

/-- What a step of the backend does to the list: nothing, or it takes a node out. -/
structure Unlinks (s s' : State ι) : Prop where
  inserted : s'.inserted = s.inserted
  unlinked : (s'.head = s.head ∧ s'.unlinked = s.unlinked) ∨ ∃ j, s'.unlinked = s.unlinked ++ [j]

theorem Unlinks.access {n : ℕ} {k : Node ι → State ι} (h : ∀ node, Unlinks s (k node)) :
    Unlinks s (s.access n k) := by
  rcases access_cases (s := s) n k with heq | ⟨node, -, heq⟩
  · exact heq ▸ ⟨rfl, .inl ⟨rfl, rfl⟩⟩
  · exact heq ▸ h node

theorem Unlinks.counted (h : Unlinks s s') : Counted s s' := by
  rcases h.unlinked with ⟨hhead, hunlinked⟩ | ⟨j, hunlinked⟩
  · refine ⟨?_, .inl hhead⟩
    rw [State.changes, State.changes, h.inserted, hunlinked]
  · have hlt : s.changes < s'.changes := by simp [State.changes, h.inserted, hunlinked]
    exact ⟨hlt.le, .inr hlt⟩

/-- How often the thread has failed: less often than the head has changed if what it has
loaded is not the head any more. -/
structure Behind (s : State ι) (i : ι) (failures : ℕ) : Prop where
  failures_le : failures ≤ s.changes
  loaded : ∀ value, s.loaded i = some value → value = s.head ∨ failures < s.changes

/-- A step of somebody else. -/
theorem Behind.other {n : ℕ} (h : Behind s i n) (hcounted : Counted s s')
    (hloaded : s'.loaded i = s.loaded i) : Behind s' i n where
  failures_le := h.failures_le.trans hcounted.changes_le
  loaded := by
    intro value hvalue
    rw [hloaded] at hvalue
    rcases hcounted.head with hhead | hlt
    · rw [hhead]
      exact (h.loaded value hvalue).imp_right fun hn => hn.trans_le hcounted.changes_le
    · exact .inr (h.failures_le.trans_lt hlt)

variable [DecidableEq ι]

theorem unlinks_of_backend (hstep : backend s = some s') : Unlinks s s' := by
  have hsame : ∀ t : State ι, t.inserted = s.inserted → t.head = s.head → t.unlinked = s.unlinked →
      Unlinks s t := fun t hinserted hhead hunlinked => ⟨hinserted, .inl ⟨hhead, hunlinked⟩⟩
  cases hpc : s.pc with
  | compareExchange m next desired =>
      simp only [backend, hpc] at hstep
      by_cases hhead : s.head = some m
      · rw [if_pos hhead, Option.some.injEq] at hstep
        exact hstep ▸ Unlinks.access fun node => ⟨rfl, .inr ⟨node.context, rfl⟩⟩
      · rw [if_neg hhead, Option.some.injEq] at hstep
        exact hstep ▸ hsame _ rfl rfl rfl
  | walk m next previous current =>
      cases current with
      | none =>
          simp only [backend, hpc, Option.some.injEq] at hstep
          exact hstep ▸ hsame _ rfl rfl rfl
      | some c =>
          simp only [backend, hpc] at hstep
          by_cases hc : c = m
          · rw [if_pos hc, Option.some.injEq] at hstep
            exact hstep ▸ hsame _ rfl rfl rfl
          · rw [if_neg hc, Option.some.injEq] at hstep
            exact hstep ▸ Unlinks.access fun node => hsame _ rfl rfl rfl
  | unlink m next previous value =>
      cases previous with
      | none =>
          simp only [backend, hpc, Option.some.injEq] at hstep
          exact hstep ▸ hsame _ rfl rfl rfl
      | some p =>
          simp only [backend, hpc, Option.some.injEq] at hstep
          subst s'
          rcases access_cases (s := s) m _ with heq | ⟨removed, -, heq⟩
          · exact heq ▸ hsame _ rfl rfl rfl
          · exact heq ▸ Unlinks.access fun node => ⟨rfl, .inr ⟨removed.context, rfl⟩⟩
  | deleteContext m next =>
      simp only [backend, hpc, Option.some.injEq] at hstep
      subst s'
      refine Unlinks.access fun node => ?_
      split
      · exact hsame _ rfl rfl rfl
      · exact hsame _ rfl rfl rfl
  | node m | remove m next | readNext m next previous | deleteNode m next =>
      simp only [backend, hpc, Option.some.injEq] at hstep
      exact hstep ▸ Unlinks.access fun node => hsame _ rfl rfl rfl
  | outside | visit m next => simp [backend, hpc] at hstep

/-- The load of the head leaves the list and the registrations alone. -/
theorem poll_frame (hstep : step s .poll = some s') :
    s'.head = s.head ∧ s'.inserted = s.inserted ∧ s'.unlinked = s.unlinked ∧ s'.heap = s.heap ∧
      s'.registration = s.registration := by
  simp only [step] at hstep
  split at hstep
  · cases hstep
    exact ⟨rfl, rfl, rfl, rfl, rfl⟩
  · cases hstep

/-- The pass begins, with all to visit that is in the list. -/
theorem poll_record (hstep : step s .poll = some s') :
    s'.snapshot = s.members ∧ s'.visited = [] := by
  simp only [step] at hstep
  split at hstep
  · cases hstep
    exact ⟨rfl, rfl⟩
  · cases hstep

/-- The end of a visit leaves the list and the registrations alone. -/
theorem Inv.visit_frame (h : Inv l s) {dead : Bool}
    (hstep : ThreadList.step s (.visit dead) = some s') :
    s'.head = s.head ∧ s'.inserted = s.inserted ∧ s'.unlinked = s.unlinked ∧ s'.heap = s.heap ∧
      s'.registration = s.registration := by
  cases hpc : s.pc with
  | visit n next =>
      simp only [ThreadList.step, hpc, h.fault, Bool.false_eq_true, if_false,
        Option.some.injEq] at hstep
      subst s'
      rcases access_cases (s := s) n _ with heq | ⟨node, -, heq⟩
      · rw [heq]
        exact ⟨rfl, rfl, rfl, rfl, rfl⟩
      · rw [heq]
        split
        · exact ⟨rfl, rfl, rfl, rfl, rfl⟩
        · split <;> exact ⟨rfl, rfl, rfl, rfl, rfl⟩
  | _ => simp [ThreadList.step, hpc] at hstep

/-- **Every step.** -/
theorem Inv.counted (h : Inv l s) {a : Action ι} (hstep : ThreadList.step s a = some s') :
    Counted s s' := by
  cases a with
  | register j n =>
      simp only [ThreadList.step] at hstep
      split at hstep
      · cases hstep
        exact ⟨le_rfl, .inl rfl⟩
      · cases hstep
  | registrar j spurious =>
      cases h.registerStep hstep with
      | insert hi hn hhead =>
          have hlt : s.changes < (j :: s.inserted).length + s.unlinked.length := by
            simp [State.changes]
          exact ⟨hlt.le, .inr hlt⟩
      | _ => exact ⟨le_rfl, .inl rfl⟩
  | poll =>
      obtain ⟨hhead, hinserted, hunlinked, -⟩ := poll_frame hstep
      exact Unlinks.counted ⟨hinserted, .inl ⟨hhead, hunlinked⟩⟩
  | visit dead =>
      obtain ⟨hhead, hinserted, hunlinked, -⟩ := h.visit_frame hstep
      exact Unlinks.counted ⟨hinserted, .inl ⟨hhead, hunlinked⟩⟩
  | backend =>
      simp only [ThreadList.step, h.fault, Bool.false_eq_true, if_false] at hstep
      exact (unlinks_of_backend hstep).counted

/-! ## How often a thread fails -/

/-- The compare-exchange is next. -/
def Registration.exchanges : Registration → Bool
  | compareExchange _ => true
  | _ => false

/-- A step that is a compare-exchange of the thread and fails, and not spuriously. -/
def failure (i : ι) (s : State ι) (a : Action ι) (s' : State ι) : List Unit :=
  if a = .registrar i false ∧ (s.registration i).exchanges = true ∧ s'.registration i ≠ .done then
    [()]
  else []

/-- A step that is no compare-exchange of the thread. -/
theorem failure_of_not_exchanges {a : Action ι} (h : (s.registration i).exchanges = false) :
    failure i s a s' = [] := by
  simp [failure, h]

/-- A compare-exchange that succeeds. -/
theorem failure_of_done {a : Action ι} (h : s'.registration i = .done) : failure i s a s' = [] := by
  simp [failure, h]

theorem length_failure_le (a : Action ι) : (failure i s a s').length ≤ 1 := by
  rw [failure]
  split <;> simp

/-- A step of the thread's own registration. -/
theorem Behind.own {n : ℕ} (h : Behind s i n) {spurious : Bool} (hstep : RegisterStep s i spurious s') :
    Behind s' i (n + (failure i s (.registrar i spurious) s').length) := by
  cases hstep with
  | loadHead hi =>
      rw [failure_of_not_exchanges (by rw [hi]; rfl)]
      exact ⟨h.failures_le, fun value hvalue => .inl (by simpa [State.loaded] using hvalue.symm)⟩
  | writeNext hi hm =>
      rw [failure_of_not_exchanges (by rw [hi]; rfl)]
      refine ⟨h.failures_le, fun value hvalue => h.loaded value ?_⟩
      simpa [State.loaded, hi, nextOf] using hvalue
  | insert hi hm hhead hspurious =>
      rw [failure_of_done (Function.update_self _ _ _)]
      refine ⟨h.failures_le.trans (by simp [State.changes]), ?_⟩
      simp [State.loaded]
  | @retry m node hi hm hfail =>
      have hloaded := h.loaded node.next (by simp [State.loaded, hi, nextOf, hm])
      refine ⟨?_, fun value hvalue => .inl (by simpa [State.loaded] using hvalue.symm)⟩
      by_cases hspurious : spurious = false
      · -- it has failed for a reason, so the head is not what the thread had loaded
        have hlt : n < s.changes := by
          apply hloaded.resolve_left
          exact fun heq => hfail ⟨heq.symm, hspurious⟩
        exact (Nat.add_le_add_left (length_failure_le _) n).trans hlt
      · have hnone : ∀ t, failure i s (.registrar i spurious) t = [] := by
          intro t
          simp [failure, hspurious]
        rw [hnone]
        exact h.failures_le

/-- **Every step.** -/
theorem Behind.step {n : ℕ} (h : Behind s i n) (hinv : Inv l s) {a : Action ι}
    (hstep : ThreadList.step s a = some s') : Behind s' i (n + (failure i s a s').length) := by
  by_cases ha : ∃ spurious, a = .registrar i spurious
  · obtain ⟨spurious, rfl⟩ := ha
    exact h.own (hinv.registerStep hstep)
  · have hnone : failure i s a s' = [] := by
      refine if_neg fun hfailure => ha ⟨false, hfailure.1⟩
    rw [hnone]
    apply h.other (hinv.counted hstep)
    cases a with
    | register j m => exact hinv.loaded_register hstep
    | registrar j spurious =>
        refine hinv.loaded_registrar ?_ hstep
        rintro rfl
        exact ha ⟨spurious, rfl⟩
    | poll =>
        obtain ⟨-, -, -, hheap, hregistration⟩ := poll_frame hstep
        exact loaded_congr (by rw [hregistration]) fun m hm => by rw [hheap]
    | visit dead =>
        obtain ⟨-, -, -, hheap, hregistration⟩ := hinv.visit_frame hstep
        exact loaded_congr (by rw [hregistration]) fun m hm => by rw [hheap]
    | backend =>
        exact loaded_congr (by rw [(walks_of_backend hstep).registration]) fun m hm =>
          hinv.heap_backend hm hstep

/-- **A thread's registration fails no more often than nodes are inserted and removed.**  In
every run, whatever the threads and the backend do and in whatever order, the compare-exchange
of a thread has failed, other than spuriously, at most once for each insertion and each removal
there has been. -/
theorem exec_failures_le {as : List (Action ι)} (hexec : exec step init as = some s) (i : ι) :
    (trace (failure i) step init as).length ≤ s.inserted.length + s.unlinked.length := by
  have hrun : (∃ l, Inv l s) ∧ Behind s i (trace (failure i) step init as).length := by
    refine exec_induction_trace (fun fs t => (∃ l, Inv l t) ∧ Behind t i fs.length) ?_ ?_
      (.of_mem (fun _ _ _ => trivial) _) hexec
    · rintro fs t a t' ⟨⟨l, hinv⟩, hbehind⟩ - hstep
      refine ⟨hinv.step hstep, ?_⟩
      rw [List.length_append]
      exact hbehind.step hinv hstep
    · exact ⟨⟨[], inv_init⟩, Nat.zero_le _, by simp [State.loaded, init]⟩
  exact hrun.2.failures_le

/-- Two threads load the head, the first inserts its node, and the second fails once. -/
def contendRun : List (Action ℕ) :=
  [.register 0 100, .register 1 101, .registrar 0 false, .registrar 1 false, .registrar 0 false,
    .registrar 1 false, .registrar 0 false, .registrar 1 false, .registrar 1 false,
    .registrar 1 false]

theorem exec_failures_le_contendRun :
    ∃ s, exec step init contendRun = some s ∧ s.members = [1, 0] ∧
      (trace (failure 1) step init contendRun).length = 1 ∧
      (trace (failure 1) step init contendRun).length ≤ s.inserted.length + s.unlinked.length :=
  ⟨_, rfl, rfl, rfl, exec_failures_le rfl 1⟩

end Papper.ThreadList
