import Mathlib.Data.List.Nodup
import Mathlib.Data.Option.Basic
import Mathlib.Logic.Function.Basic
import Mathlib.Tactic.Common
import Papper.ThreadList

/-!
# The list of threads is a list

In every reachable state the nodes from the head on are those that were inserted and not
unlinked, no removal misses its node, nothing is deleted twice or touched after it was
deleted, and a pass of the backend visits what was there when it began.

The invariant names the addresses of the list, `l`.  A registration only ever puts an
address in front of them (`PcInv.prepend`), so all that the backend knows about the list
stays true: its position splits `l`, and everything from there on is what the pass has
still to visit.

## Main definitions

* `PcInv` — what holds at each place of `poll_threads`.
* `Inv` — the invariant.
* `Sound` — what is asked of the list, and `reachable_sound` that it is so.
-/

namespace Papper.ThreadList

open Transition

variable {ι : Type}

/-! ## The invariant -/

/-- The node of a thread that has not inserted it yet. -/
def Registration.node? : Registration → Option ℕ
  | .loadHead n => some n
  | .writeNext n _ => some n
  | .compareExchange n => some n
  | _ => none

/-- How far the removals are: the contexts to unlink, those unlinked but not deleted,
and those deleted without their node. -/
structure Progress (s : State ι) (toUnlink toDelete toFree : List ι) : Prop where
  requested : s.requested = s.unlinked ++ toUnlink
  unlinked : s.unlinked = s.deletedContexts ++ toDelete
  deletedContexts : s.deletedContexts = s.deletedNodes ++ toFree

/-- What the pass has still to visit is at these addresses. -/
def Remaining (s : State ι) (suf : List ℕ) : Prop :=
  s.snapshot.map some = s.visited.map some ++ suf.map (contextOf s.heap)

/-- The node to be removed is in the list. -/
structure Removing (l : List ℕ) (s : State ι) (n : ℕ) (next : Option ℕ) (i : ι)
    (pre suf : List ℕ) : Prop where
  split : l = pre ++ n :: suf
  next_eq : next = suf.head?
  context : contextOf s.heap n = some i
  progress : Progress s [i] [] []
  remaining : Remaining s suf

/-- The node is not in the list any more. -/
structure Removed (l : List ℕ) (s : State ι) (n : ℕ) (next : Option ℕ) (i : ι)
    (pre suf : List ℕ) : Prop where
  split : l = pre ++ suf
  next_eq : next = suf.head?
  context : contextOf s.heap n = some i
  unlinked : i ∈ s.unlinked
  notMem : n ∉ l
  remaining : Remaining s suf

/-- What holds at a place of `poll_threads`. -/
def PcInv (l : List ℕ) (s : State ι) : Pc → Prop
  | .outside => Progress s [] [] [] ∧ Remaining s []
  | .node n => Progress s [] [] [] ∧ ∃ pre suf, l = pre ++ n :: suf ∧ Remaining s (n :: suf)
  | .visit n next =>
      Progress s [] [] [] ∧
        ∃ pre suf, l = pre ++ n :: suf ∧ next = suf.head? ∧ Remaining s (n :: suf)
  | .remove n next => ∃ i pre suf, Removing l s n next i pre suf
  | .compareExchange n next desired =>
      ∃ i pre suf, Removing l s n next i pre suf ∧ desired = suf.head?
  | .walk n next previous current =>
      ∃ i pre mid suf, Removing l s n next i (pre ++ mid) suf ∧
        current = (mid ++ n :: suf).head? ∧ (previous = none → mid ≠ []) ∧
        ∀ p, previous = some p → ∃ pre', pre = pre' ++ [p]
  | .readNext n next previous =>
      ∃ i p pre suf, Removing l s n next i (pre ++ [p]) suf ∧ previous = some p
  | .unlink n next previous value =>
      ∃ i p pre suf, Removing l s n next i (pre ++ [p]) suf ∧ previous = some p ∧
        value = suf.head?
  | .deleteContext n next =>
      ∃ i pre suf, Removed l s n next i pre suf ∧ Progress s [] [i] []
  | .deleteNode n next =>
      ∃ i pre suf, Removed l s n next i pre suf ∧ Progress s [] [] [i]

/-- The invariant, for the addresses `l` from the head on. -/
structure Inv [DecidableEq ι] (l : List ℕ) (s : State ι) : Prop where
  linked : Linked (nextOf s.heap) s.head l
  nodup : l.Nodup
  contexts : l.map (contextOf s.heap) = s.members.map some
  inserted_nodup : s.inserted.Nodup
  unlinked_nodup : s.unlinked.Nodup
  unlinked_inserted : ∀ i ∈ s.unlinked, i ∈ s.inserted
  inserted_done : ∀ i ∈ s.inserted, s.registration i = .done
  registering : ∀ i n, (s.registration i).node? = some n → contextOf s.heap n = some i
  snapshot_nodup : s.snapshot.Nodup
  fault : s.fault = false
  pc : PcInv l s s.pc

/-! ## Nodes -/

section Heap
variable {s : State ι} {n m : ℕ} {i : ι}

theorem contextOf_eq_some :
    contextOf s.heap n = some i ↔ ∃ node, s.heap n = some node ∧ node.context = i :=
  Option.map_eq_some_iff

/-- An access to a node that is there. -/
theorem access_eq {node : Node ι} (h : s.heap n = some node) (k : Node ι → State ι) :
    s.access n k = k node := by
  rw [State.access, h]

theorem nextOf_eq {node : Node ι} (h : s.heap n = some node) : nextOf s.heap n = node.next := by
  rw [nextOf, h]
  rfl

/-- Writing a next pointer changes nothing else. -/
theorem nextOf_write {node : Node ι} (v : Option ℕ) :
    nextOf (Function.update s.heap n (some { node with next := v }))
      = Function.update (nextOf s.heap) n v := by
  funext m
  by_cases hm : m = n
  · subst m
    simp [nextOf]
  · simp [nextOf, hm]

theorem contextOf_write {node : Node ι} (h : s.heap n = some node) (v : Option ℕ) :
    contextOf (Function.update s.heap n (some { node with next := v })) = contextOf s.heap := by
  funext m
  by_cases hm : m = n
  · subst m
    simp [contextOf, h]
  · simp [contextOf, hm]

end Heap

namespace Inv
variable [DecidableEq ι] {l : List ℕ} {s : State ι}

/-- The context of a node of the list is a member. -/
theorem exists_member (h : Inv l s) {n : ℕ} (hn : n ∈ l) :
    ∃ i ∈ s.members, contextOf s.heap n = some i := by
  have hmem : contextOf s.heap n ∈ s.members.map some := by
    rw [← h.contexts]
    exact List.mem_map_of_mem hn
  obtain ⟨i, hi, heq⟩ := List.mem_map.mp hmem
  exact ⟨i, hi, heq.symm⟩

/-- A node that is being registered is not in the list, nor has its context ever been. -/
theorem registering_fresh (h : Inv l s) {i : ι} {n : ℕ}
    (hn : (s.registration i).node? = some n) : i ∉ s.inserted ∧ n ∉ l := by
  have hi : i ∉ s.inserted := by
    intro hi
    rw [h.inserted_done i hi] at hn
    cases hn
  refine ⟨hi, fun hl => ?_⟩
  obtain ⟨j, hj, hcontext⟩ := h.exists_member hl
  rw [h.registering i n hn] at hcontext
  obtain rfl := Option.some.inj hcontext
  exact hi (List.mem_of_mem_filter hj)

end Inv

/-! ## Registration -/

/-- Two states with the same record of removals and of the pass. -/
structure SameRecord (s s' : State ι) : Prop where
  requested : s'.requested = s.requested
  unlinked : s'.unlinked = s.unlinked
  deletedContexts : s'.deletedContexts = s.deletedContexts
  deletedNodes : s'.deletedNodes = s.deletedNodes
  snapshot : s'.snapshot = s.snapshot
  visited : s'.visited = s.visited

section Prepend
variable {s s' : State ι} {l p : List ℕ}

theorem Progress.congr {a b c : List ι} (h : Progress s a b c) (hr : SameRecord s s') :
    Progress s' a b c where
  requested := by rw [hr.requested, hr.unlinked, h.requested]
  unlinked := by rw [hr.unlinked, hr.deletedContexts, h.unlinked]
  deletedContexts := by rw [hr.deletedContexts, hr.deletedNodes, h.deletedContexts]

theorem Remaining.exists_context {suf : List ℕ} (h : Remaining s suf) {n : ℕ} (hn : n ∈ suf) :
    ∃ i, contextOf s.heap n = some i := by
  have hmem : contextOf s.heap n ∈ s.snapshot.map some := by
    rw [h]
    exact List.mem_append_right _ (List.mem_map_of_mem hn)
  obtain ⟨i, -, heq⟩ := List.mem_map.mp hmem
  exact ⟨i, heq.symm⟩

theorem Remaining.congr {suf : List ℕ} (h : Remaining s suf) (hr : SameRecord s s')
    (hheap : ∀ n i, contextOf s.heap n = some i → contextOf s'.heap n = some i) :
    Remaining s' suf := by
  have hsuf : suf.map (contextOf s'.heap) = suf.map (contextOf s.heap) := by
    refine List.map_congr_left fun n hn => ?_
    obtain ⟨i, hi⟩ := h.exists_context hn
    rw [hi, hheap n i hi]
  rw [Remaining, hr.snapshot, hr.visited, hsuf]
  exact h

/-- What the backend knows survives the registrations of the threads. -/
theorem PcInv.prepend {pc : Pc} (h : PcInv l s pc) (hr : SameRecord s s')
    (hheap : ∀ n i, contextOf s.heap n = some i → contextOf s'.heap n = some i)
    (hp : ∀ n ∈ p, ∀ i, contextOf s.heap n = some i → i ∉ s.unlinked) : PcInv (p ++ l) s' pc := by
  have hremoving : ∀ {n next i pre suf}, Removing l s n next i pre suf →
      Removing (p ++ l) s' n next i (p ++ pre) suf := fun h =>
    ⟨by rw [h.split, List.append_assoc], h.next_eq, hheap _ _ h.context, h.progress.congr hr,
      h.remaining.congr hr hheap⟩
  have hremoved : ∀ {n next i pre suf}, Removed l s n next i pre suf →
      Removed (p ++ l) s' n next i (p ++ pre) suf := by
    intro n next i pre suf h
    refine ⟨by rw [h.split, List.append_assoc], h.next_eq, hheap _ _ h.context, ?_, ?_,
      h.remaining.congr hr hheap⟩
    · rw [hr.unlinked]
      exact h.unlinked
    · rw [List.mem_append, not_or]
      exact ⟨fun hn => hp n hn i h.context h.unlinked, h.notMem⟩
  cases pc with
  | outside => exact ⟨h.1.congr hr, h.2.congr hr hheap⟩
  | node n =>
      obtain ⟨hprogress, pre, suf, rfl, hrem⟩ := h
      exact ⟨hprogress.congr hr, p ++ pre, suf, by simp, hrem.congr hr hheap⟩
  | visit n next =>
      obtain ⟨hprogress, pre, suf, rfl, hnext, hrem⟩ := h
      exact ⟨hprogress.congr hr, p ++ pre, suf, by simp, hnext, hrem.congr hr hheap⟩
  | remove n next =>
      obtain ⟨i, pre, suf, h⟩ := h
      exact ⟨i, p ++ pre, suf, hremoving h⟩
  | compareExchange n next desired =>
      obtain ⟨i, pre, suf, h, hdesired⟩ := h
      exact ⟨i, p ++ pre, suf, hremoving h, hdesired⟩
  | walk n next previous current =>
      obtain ⟨i, pre, mid, suf, h, hcurrent, hnone, hsome⟩ := h
      refine ⟨i, p ++ pre, mid, suf, ?_, hcurrent, hnone, fun q hq => ?_⟩
      · rw [List.append_assoc]
        exact hremoving h
      · obtain ⟨pre', rfl⟩ := hsome q hq
        exact ⟨p ++ pre', by simp⟩
  | readNext n next previous =>
      obtain ⟨i, q, pre, suf, h, hprevious⟩ := h
      refine ⟨i, q, p ++ pre, suf, ?_, hprevious⟩
      rw [List.append_assoc]
      exact hremoving h
  | unlink n next previous value =>
      obtain ⟨i, q, pre, suf, h, hprevious, hvalue⟩ := h
      refine ⟨i, q, p ++ pre, suf, ?_, hprevious, hvalue⟩
      rw [List.append_assoc]
      exact hremoving h
  | deleteContext n next =>
      obtain ⟨i, pre, suf, h, hprogress⟩ := h
      exact ⟨i, p ++ pre, suf, hremoved h, hprogress.congr hr⟩
  | deleteNode n next =>
      obtain ⟨i, pre, suf, h, hprogress⟩ := h
      exact ⟨i, p ++ pre, suf, hremoved h, hprogress.congr hr⟩

end Prepend

section Registrar
variable [DecidableEq ι] {s : State ι} {l : List ℕ} {i : ι}

/-- **A step of a registration that leaves the list alone.**  It may write the heap
outside the list, and the thread stays on the same node. -/
theorem Inv.of_registration (h : Inv l s) {heap' : ℕ → Option (Node ι)} {r : Registration}
    (hnext : ∀ n ∈ l, nextOf heap' n = nextOf s.heap n)
    (hheap : ∀ n j, contextOf s.heap n = some j → contextOf heap' n = some j)
    (hi : i ∉ s.inserted) (hnode : ∀ n, r.node? = some n → contextOf heap' n = some i) :
    Inv l { s with heap := heap', registration := Function.update s.registration i r } where
  linked := h.linked.congr hnext
  nodup := h.nodup
  contexts := by
    refine Eq.trans (List.map_congr_left fun n hn => ?_) h.contexts
    obtain ⟨j, -, hj⟩ := h.exists_member hn
    rw [hj, hheap n j hj]
  inserted_nodup := h.inserted_nodup
  unlinked_nodup := h.unlinked_nodup
  unlinked_inserted := h.unlinked_inserted
  inserted_done := by
    intro j hj
    have hne : j ≠ i := fun heq => hi (heq ▸ hj)
    simpa [Function.update_of_ne hne] using h.inserted_done j hj
  registering := by
    intro j n hn
    by_cases hji : j = i
    · subst j
      simp only [Function.update_self] at hn
      exact hnode n hn
    · simp only [Function.update_of_ne hji] at hn
      exact hheap n j (h.registering j n hn)
  snapshot_nodup := h.snapshot_nodup
  fault := h.fault
  pc := by
    have hrecord : SameRecord s
        { s with heap := heap', registration := Function.update s.registration i r } :=
      ⟨rfl, rfl, rfl, rfl, rfl, rfl⟩
    exact h.pc.prepend (p := []) hrecord hheap (by simp)

/-- A new node is outside the list. -/
theorem Inv.register (h : Inv l s) {n : ℕ} (hi : s.registration i = .notStarted)
    (hn : s.heap n = none) :
    Inv l { s with
      heap := Function.update s.heap n (some ⟨i, none⟩)
      registration := Function.update s.registration i (.loadHead n) } := by
  have hne : ∀ m j, contextOf s.heap m = some j → m ≠ n := by
    rintro m j hm rfl
    simp [contextOf, hn] at hm
  have hinserted : i ∉ s.inserted := by
    intro hmem
    rw [h.inserted_done i hmem] at hi
    cases hi
  refine h.of_registration ?_ ?_ hinserted ?_
  · intro m hm
    obtain ⟨j, -, hj⟩ := h.exists_member hm
    simp [nextOf, hne m j hj]
  · intro m j hm
    simpa [contextOf, hne m j hm] using hm
  · intro m hm
    cases hm
    simp [contextOf]

/-- A node is pushed in front of the list. -/
theorem Inv.push (h : Inv l s) {n : ℕ} {node : Node ι} (hi : s.registration i = .compareExchange n)
    (hn : s.heap n = some node) (hhead : s.head = node.next) :
    Inv (n :: l) { s with
      head := some n
      registration := Function.update s.registration i .done
      inserted := i :: s.inserted } := by
  have hnode : (s.registration i).node? = some n := by rw [hi]; rfl
  obtain ⟨hinserted, hl⟩ := h.registering_fresh hnode
  have hcontext := h.registering i n hnode
  have hunlinked : i ∉ s.unlinked := fun hmem => hinserted (h.unlinked_inserted i hmem)
  constructor
  · exact h.linked.push ((nextOf_eq hn).trans hhead.symm)
  · exact List.nodup_cons.mpr ⟨hl, h.nodup⟩
  · rw [State.members, List.filter_cons_of_pos (by simpa using hunlinked), List.map_cons,
      List.map_cons, h.contexts, hcontext]
    rfl
  · exact List.nodup_cons.mpr ⟨hinserted, h.inserted_nodup⟩
  · exact h.unlinked_nodup
  · exact fun j hj => List.mem_cons_of_mem _ (h.unlinked_inserted j hj)
  · intro j hj
    by_cases hji : j = i
    · simp [hji]
    · rcases List.mem_cons.mp hj with heq | hj
      · exact absurd heq hji
      · simpa [Function.update_of_ne hji] using h.inserted_done j hj
  · intro j m hm
    by_cases hji : j = i
    · subst j
      simp [Registration.node?] at hm
    · simp only [Function.update_of_ne hji] at hm
      exact h.registering j m hm
  · exact h.snapshot_nodup
  · exact h.fault
  · refine h.pc.prepend (p := [n]) ⟨rfl, rfl, rfl, rfl, rfl, rfl⟩ (fun _ _ hm => hm) ?_
    intro m hm j hj
    rw [List.mem_singleton.mp hm, hcontext] at hj
    cases hj
    exact hunlinked

/-- **A step of `register_thread`** leaves the list alone or pushes a node. -/
theorem Inv.registrar (h : Inv l s) {spurious : Bool} {s' : State ι}
    (hstep : registrar s i spurious = some s') : ∃ l', Inv l' s' := by
  cases hi : s.registration i with
  | notStarted => simp [ThreadList.registrar, hi] at hstep
  | done => simp [ThreadList.registrar, hi] at hstep
  | loadHead n =>
      have hnode : (s.registration i).node? = some n := by rw [hi]; rfl
      simp only [ThreadList.registrar, hi, Option.some.injEq] at hstep
      subst s'
      refine ⟨l, h.of_registration (fun _ _ => rfl) (fun _ _ hm => hm) (h.registering_fresh hnode).1 ?_⟩
      intro m hm
      exact h.registering i m (hnode.trans hm)
  | writeNext n value =>
      have hnode : (s.registration i).node? = some n := by rw [hi]; rfl
      obtain ⟨node, hn, -⟩ := contextOf_eq_some.mp (h.registering i n hnode)
      obtain ⟨hinserted, hl⟩ := h.registering_fresh hnode
      simp only [ThreadList.registrar, hi, access_eq hn, Option.some.injEq] at hstep
      subst s'
      refine ⟨l, h.of_registration ?_ ?_ hinserted ?_⟩
      · intro m hm
        have hne : m ≠ n := fun heq => hl (heq ▸ hm)
        rw [nextOf_write, Function.update_of_ne hne]
      · intro m j hm
        rwa [contextOf_write hn]
      · intro m hm
        rw [contextOf_write hn]
        exact h.registering i m (hnode.trans hm)
  | compareExchange n =>
      have hnode : (s.registration i).node? = some n := by rw [hi]; rfl
      obtain ⟨node, hn, -⟩ := contextOf_eq_some.mp (h.registering i n hnode)
      simp only [ThreadList.registrar, hi, access_eq hn, Option.some.injEq] at hstep
      by_cases hcas : s.head = node.next ∧ spurious = false
      · rw [if_pos hcas] at hstep
        subst s'
        exact ⟨n :: l, h.push hi hn hcas.1⟩
      · rw [if_neg hcas] at hstep
        subst s'
        refine ⟨l, h.of_registration (fun _ _ => rfl) (fun _ _ hm => hm)
          (h.registering_fresh hnode).1 ?_⟩
        intro m hm
        exact h.registering i m (hnode.trans hm)

end Registrar

/-! ## The backend -/

section Backend
variable {s s' : State ι} {l : List ℕ}

/-- Two states with the same list and the same threads at work on it. -/
structure SameList (s s' : State ι) : Prop where
  heap : s'.heap = s.heap
  head : s'.head = s.head
  registration : s'.registration = s.registration
  inserted : s'.inserted = s.inserted
  unlinked : s'.unlinked = s.unlinked
  snapshot : s'.snapshot = s.snapshot
  fault : s'.fault = s.fault

/-- The loop goes on with what remains. -/
theorem pcInv_enter {next : Option ℕ} {pre suf : List ℕ} (hprogress : Progress s [] [] [])
    (hl : l = pre ++ suf) (hnext : next = suf.head?) (hrem : Remaining s suf) :
    PcInv l s (enter next) := by
  subst hnext
  cases suf with
  | nil => exact ⟨hprogress, hrem⟩
  | cons m suf => exact ⟨hprogress, pre, suf, hl, hrem⟩

/-- Moving on changes nothing that is known at a place. -/
theorem PcInv.setPc {pc : Pc} (h : PcInv l s pc) (pc' : Pc) : PcInv l { s with pc := pc' } pc := by
  have hrecord : SameRecord s { s with pc := pc' } := ⟨rfl, rfl, rfl, rfl, rfl, rfl⟩
  exact h.prepend (p := []) hrecord (fun _ _ hm => hm) (by simp)

/-- What remains once the node has been visited. -/
theorem Remaining.visit {n : ℕ} {suf : List ℕ} {i : ι} (h : Remaining s (n :: suf))
    (hn : contextOf s.heap n = some i) (hheap : s'.heap = s.heap) (hsnapshot : s'.snapshot = s.snapshot)
    (hvisited : s'.visited = s.visited ++ [i]) : Remaining s' suf := by
  rw [Remaining, hheap, hsnapshot, hvisited, h, List.map_cons, hn]
  simp

variable [DecidableEq ι]

/-- **A step of the backend that leaves the list alone.** -/
theorem Inv.of_sameList (h : Inv l s) (hs : SameList s s') (hpc : PcInv l s' s'.pc) : Inv l s' where
  linked := by
    rw [hs.heap, hs.head]
    exact h.linked
  nodup := h.nodup
  contexts := by
    rw [hs.heap, State.members, hs.inserted, hs.unlinked]
    exact h.contexts
  inserted_nodup := by
    rw [hs.inserted]
    exact h.inserted_nodup
  unlinked_nodup := by
    rw [hs.unlinked]
    exact h.unlinked_nodup
  unlinked_inserted := by
    rw [hs.inserted, hs.unlinked]
    exact h.unlinked_inserted
  inserted_done := by
    rw [hs.inserted, hs.registration]
    exact h.inserted_done
  registering := by
    rw [hs.heap, hs.registration]
    exact h.registering
  snapshot_nodup := by
    rw [hs.snapshot]
    exact h.snapshot_nodup
  fault := hs.fault.trans h.fault
  pc := hpc

theorem Inv.setPc (h : Inv l s) {pc : Pc} (hpc : PcInv l s pc) : Inv l { s with pc := pc } :=
  h.of_sameList ⟨rfl, rfl, rfl, rfl, rfl, rfl, rfl⟩ (hpc.setPc pc)

/-- A node the backend is at can be accessed, and the list goes on behind it. -/
theorem Inv.access (h : Inv l s) {n : ℕ} {pre suf : List ℕ} (hl : l = pre ++ n :: suf) :
    ∃ node, s.heap n = some node ∧ node.next = suf.head? ∧ node.context ∈ s.members := by
  have hmem : n ∈ l := by rw [hl]; simp
  obtain ⟨i, hi, hcontext⟩ := h.exists_member hmem
  obtain ⟨node, hn, rfl⟩ := contextOf_eq_some.mp hcontext
  have hlinked := h.linked
  rw [hl] at hlinked
  exact ⟨node, hn, (nextOf_eq hn).symm.trans hlinked.next_eq, hi⟩

theorem mem_members {i : ι} : i ∈ s.members ↔ i ∈ s.inserted ∧ i ∉ s.unlinked := by
  simp [State.members]

/-- The pass begins with all members to visit. -/
theorem Inv.poll (h : Inv l s) (hout : s.pc = .outside) :
    Inv l { s with pc := enter s.head, snapshot := s.members, visited := [] } := by
  have hpc := h.pc
  rw [hout] at hpc
  have hmembers : s.members.Nodup := h.inserted_nodup.filter _
  have hrem : Remaining { s with pc := enter s.head, snapshot := s.members, visited := [] } l := by
    simpa [Remaining] using h.contexts.symm
  constructor
  case snapshot_nodup => exact hmembers
  case pc =>
    refine pcInv_enter ⟨hpc.1.requested, hpc.1.unlinked, hpc.1.deletedContexts⟩
      (List.nil_append l).symm h.linked.head_eq hrem
  case linked => exact h.linked
  case nodup => exact h.nodup
  case contexts => exact h.contexts
  case inserted_nodup => exact h.inserted_nodup
  case unlinked_nodup => exact h.unlinked_nodup
  case unlinked_inserted => exact h.unlinked_inserted
  case inserted_done => exact h.inserted_done
  case registering => exact h.registering
  case fault => exact h.fault

/-- **The visit of a context**, which is still there. -/
theorem Inv.visit (h : Inv l s) {dead : Bool} (hstep : step s (.visit dead) = some s') :
    Inv l s' := by
  have hpc := h.pc
  cases hs : s.pc with
  | visit n next =>
      rw [hs] at hpc
      obtain ⟨hprogress, pre, suf, hl, hnext, hrem⟩ := hpc
      obtain ⟨node, hn, -, hmember⟩ := h.access hl
      have hcontext : contextOf s.heap n = some node.context := contextOf_eq_some.mpr ⟨node, hn, rfl⟩
      have hlive : node.context ∉ s.deletedContexts := by
        have hnot := (mem_members.mp hmember).2
        rwa [hprogress.unlinked, List.append_nil] at hnot
      simp only [step, hs, h.fault, access_eq hn, if_neg hlive, Option.some.injEq,
        Bool.false_eq_true, if_false] at hstep
      cases dead with
      | false =>
          simp only [Bool.false_eq_true, if_false] at hstep
          subst s'
          refine h.of_sameList ⟨rfl, rfl, rfl, rfl, rfl, rfl, h.fault.symm⟩ ?_
          have hl' : l = (pre ++ [n]) ++ suf := by simpa using hl
          exact pcInv_enter ⟨hprogress.requested, hprogress.unlinked, hprogress.deletedContexts⟩
            hl' hnext (hrem.visit hcontext rfl rfl rfl)
      | true =>
          simp only [if_true] at hstep
          subst s'
          refine h.of_sameList ⟨rfl, rfl, rfl, rfl, rfl, rfl, h.fault.symm⟩ ?_
          refine ⟨node.context, pre, suf, hl, hnext, hcontext, ?_, hrem.visit hcontext rfl rfl rfl⟩
          refine ⟨?_, hprogress.unlinked, hprogress.deletedContexts⟩
          simp [hprogress.requested]
  | _ => simp [step, hs] at hstep

/-- The members once one of them is unlinked. -/
theorem filter_append_singleton {as bs : List ι} {i : ι} {inserted unlinked : List ι}
    (h : inserted.filter (· ∉ unlinked) = as ++ i :: bs) (hnodup : inserted.Nodup) :
    inserted.filter (· ∉ unlinked ++ [i]) = as ++ bs := by
  have hmembers : (as ++ i :: bs).Nodup := by
    rw [← h]
    exact hnodup.filter _
  have hsplit : inserted.filter (· ∉ unlinked ++ [i])
      = (inserted.filter (· ∉ unlinked)).filter (· ≠ i) := by
    rw [List.filter_filter]
    congr 1
    funext j
    simp [not_or, and_comm]
  have has : ∀ j ∈ as, decide (j ≠ i) = true := by
    intro j hj
    have hne := List.disjoint_of_nodup_append hmembers hj
    exact decide_eq_true fun heq => hne (by simp [heq])
  have hbs : ∀ j ∈ bs, decide (j ≠ i) = true := by
    intro j hj
    have hnot := (List.nodup_cons.mp hmembers.of_append_right).1
    exact decide_eq_true fun heq => hnot (heq ▸ hj)
  rw [hsplit, h, List.filter_append, List.filter_eq_self.mpr has, List.filter_cons_of_neg (by simp),
    List.filter_eq_self.mpr hbs]

/-- **A node is unlinked**: the others stay, in their order. -/
theorem Inv.unlink (h : Inv l s) {n : ℕ} {next : Option ℕ} {i : ι} {pre suf : List ℕ}
    (hrem : Removing l s n next i pre suf) {heap' : ℕ → Option (Node ι)} {head' : Option ℕ}
    (hheap : contextOf heap' = contextOf s.heap) (hlinked : Linked (nextOf heap') head' (pre ++ suf)) :
    Inv (pre ++ suf) { s with
      heap := heap'
      head := head'
      pc := .deleteContext n next
      unlinked := s.unlinked ++ [i] } := by
  have hl := hrem.split
  subst hl
  have hcontexts := h.contexts
  rw [List.map_append, List.map_cons, hrem.context] at hcontexts
  obtain ⟨as, bs', hmembers, has, hbs'⟩ := List.map_eq_append_iff.mp hcontexts.symm
  obtain ⟨j, bs, rfl, hj, hbs⟩ := List.map_eq_cons_iff.mp hbs'
  obtain rfl := Option.some.inj hj
  have hmember : j ∈ s.members := by rw [hmembers]; simp
  obtain ⟨hinserted, hunlinked⟩ := mem_members.mp hmember
  have hnotMem : n ∉ pre ++ suf := (List.nodup_middle.mp h.nodup).notMem
  constructor
  · exact hlinked
  · exact (List.nodup_middle.mp h.nodup).of_cons
  · rw [hheap, State.members, filter_append_singleton hmembers h.inserted_nodup, List.map_append,
      List.map_append, has, hbs]
  · exact h.inserted_nodup
  · refine List.nodup_append'.mpr ⟨h.unlinked_nodup, List.nodup_singleton j, ?_⟩
    simpa using hunlinked
  · intro k hk
    rcases List.mem_append.mp hk with hk | hk
    · exact h.unlinked_inserted k hk
    · rw [List.mem_singleton.mp hk]
      exact hinserted
  · exact h.inserted_done
  · rw [hheap]
    exact h.registering
  · exact h.snapshot_nodup
  · exact h.fault
  · refine ⟨j, pre, suf, ⟨rfl, hrem.next_eq, ?_, by simp, hnotMem, ?_⟩, ?_⟩
    · rw [hheap]
      exact hrem.context
    · rw [Remaining, hheap]
      exact hrem.remaining
    · exact ⟨by simp [hrem.progress.requested], by simp [hrem.progress.unlinked],
        hrem.progress.deletedContexts⟩

/-- The head can only be the node in front. -/
theorem Inv.pre_eq_nil (h : Inv l s) {n : ℕ} {pre suf : List ℕ} (hl : l = pre ++ n :: suf)
    (hhead : s.head = some n) : pre = [] := by
  have hfirst := h.linked.head_eq
  have hnodup := h.nodup
  rw [hhead, hl] at hfirst
  rw [hl] at hnodup
  cases pre with
  | nil => rfl
  | cons m pre =>
      obtain rfl : n = m := by simpa using hfirst
      simp at hnodup

/-- **The compare-exchange of a removal** takes out the head, or begins the walk at a node
in front of the one to remove. -/
theorem Inv.compareExchange (h : Inv l s) {n : ℕ} {next desired : Option ℕ}
    (hpc : s.pc = .compareExchange n next desired) (hstep : backend s = some s') :
    ∃ l', Inv l' s' := by
  have hinv := h.pc
  rw [hpc] at hinv
  obtain ⟨i, pre, suf, hrem, hdesired⟩ := hinv
  obtain ⟨node, hn, -, -⟩ := h.access hrem.split
  have hcontext : node.context = i := by
    have heq := hrem.context
    rw [contextOf_eq_some.mpr ⟨node, hn, rfl⟩] at heq
    exact Option.some.inj heq
  simp only [ThreadList.backend, hpc, access_eq hn] at hstep
  by_cases hhead : s.head = some n
  · rw [if_pos hhead, Option.some.injEq] at hstep
    subst s'
    have hpre := h.pre_eq_nil hrem.split hhead
    subst hpre
    have hlinked := h.linked
    rw [hrem.split] at hlinked
    refine ⟨suf, ?_⟩
    rw [hcontext]
    refine h.unlink hrem rfl ?_
    have htail : Linked (nextOf s.heap) (nextOf s.heap n) suf := hlinked.2
    rwa [htail.head_eq, ← hdesired] at htail
  · rw [if_neg hhead, Option.some.injEq] at hstep
    subst s'
    refine ⟨l, h.setPc ⟨i, [], pre, suf, hrem, ?_, fun _ => ?_, by simp⟩⟩
    · rw [h.linked.head_eq, hrem.split]
    · rintro rfl
      exact hhead (by rw [h.linked.head_eq, hrem.split]; rfl)

/-- **The walk** stays in front of the node until it is found. -/
theorem Inv.walk (h : Inv l s) {n : ℕ} {next previous current : Option ℕ}
    (hpc : s.pc = .walk n next previous current) (hstep : backend s = some s') : Inv l s' := by
  have hinv := h.pc
  rw [hpc] at hinv
  obtain ⟨i, pre, mid, suf, hrem, hcurrent, hnone, hsome⟩ := hinv
  cases mid with
  | nil =>
      obtain rfl : current = some n := hcurrent
      simp only [ThreadList.backend, hpc, if_true, Option.some.injEq] at hstep
      subst s'
      cases previous with
      | none => exact absurd rfl (hnone rfl)
      | some p =>
          obtain ⟨pre', rfl⟩ := hsome p rfl
          rw [List.append_nil] at hrem
          exact h.setPc ⟨i, p, pre', suf, hrem, rfl⟩
  | cons c mid =>
      obtain rfl : current = some c := hcurrent
      have hl : l = pre ++ c :: (mid ++ n :: suf) := by simp [hrem.split]
      have hne : c ≠ n := by
        rintro rfl
        have hnodup := h.nodup
        rw [hl] at hnodup
        exact (List.nodup_middle.mp hnodup).notMem (by simp)
      obtain ⟨node, hc, hnode, -⟩ := h.access hl
      simp only [ThreadList.backend, hpc, if_neg hne, access_eq hc, Option.some.injEq] at hstep
      subst s'
      refine h.setPc ⟨i, pre ++ [c], mid, suf, by simpa using hrem, hnode, by simp, ?_⟩
      intro p hp
      cases hp
      exact ⟨pre, rfl⟩

/-- **The write to the predecessor** takes the node out. -/
theorem Inv.unlinkWrite (h : Inv l s) {n : ℕ} {next previous value : Option ℕ}
    (hpc : s.pc = .unlink n next previous value) (hstep : backend s = some s') :
    ∃ l', Inv l' s' := by
  have hinv := h.pc
  rw [hpc] at hinv
  obtain ⟨i, p, pre, suf, hrem, rfl, rfl⟩ := hinv
  obtain ⟨removed, hn, -, -⟩ := h.access hrem.split
  have hcontext : removed.context = i := by
    have heq := hrem.context
    rw [contextOf_eq_some.mpr ⟨removed, hn, rfl⟩] at heq
    exact Option.some.inj heq
  have hl : l = pre ++ p :: n :: suf := by simpa using hrem.split
  obtain ⟨node, hp, -, -⟩ := h.access hl
  simp only [ThreadList.backend, hpc, access_eq hn, access_eq hp, Option.some.injEq] at hstep
  subst s'
  refine ⟨pre ++ [p] ++ suf, ?_⟩
  rw [hcontext]
  refine h.unlink hrem (contextOf_write hp _) ?_
  have hlinked := h.linked
  have hnodup := h.nodup
  rw [hl] at hlinked hnodup
  rw [nextOf_write, List.append_assoc]
  exact hlinked.unlink hnodup

/-- A context that is unlinked and still to be deleted is there. -/
theorem Inv.notMem_deletedContexts (h : Inv l s) {i : ι} (hprogress : Progress s [] [i] []) :
    i ∉ s.deletedContexts := by
  have hnodup := h.unlinked_nodup
  rw [hprogress.unlinked] at hnodup
  intro hmem
  exact List.disjoint_of_nodup_append hnodup hmem (List.mem_singleton_self _)

/-- A context is deleted once. -/
theorem Inv.deleteContext (h : Inv l s) {n : ℕ} {next : Option ℕ}
    (hpc : s.pc = .deleteContext n next) (hstep : backend s = some s') : Inv l s' := by
  have hinv := h.pc
  rw [hpc] at hinv
  obtain ⟨i, pre, suf, hrem, hprogress⟩ := hinv
  obtain ⟨node, hn, rfl⟩ := contextOf_eq_some.mp hrem.context
  have hlive := h.notMem_deletedContexts hprogress
  simp only [ThreadList.backend, hpc, access_eq hn, if_neg hlive, Option.some.injEq] at hstep
  subst s'
  refine h.of_sameList ⟨rfl, rfl, rfl, rfl, rfl, rfl, rfl⟩
    ⟨node.context, pre, suf, ⟨hrem.split, hrem.next_eq, hrem.context, hrem.unlinked, hrem.notMem,
      hrem.remaining⟩, hprogress.requested, ?_, ?_⟩
  · simp [hprogress.unlinked]
  · simp [hprogress.deletedContexts]

/-- The node is freed, and its address is nobody's. -/
theorem Inv.deleteNode (h : Inv l s) {n : ℕ} {next : Option ℕ}
    (hpc : s.pc = .deleteNode n next) (hstep : backend s = some s') : Inv l s' := by
  have hinv := h.pc
  rw [hpc] at hinv
  obtain ⟨i, pre, suf, hrem, hprogress⟩ := hinv
  obtain ⟨node, hn, rfl⟩ := contextOf_eq_some.mp hrem.context
  simp only [ThreadList.backend, hpc, access_eq hn, Option.some.injEq] at hstep
  subst s'
  have hne : ∀ m ∈ l, m ≠ n := fun m hm heq => hrem.notMem (heq ▸ hm)
  have hcontexts : ∀ m ∈ l, contextOf (Function.update s.heap n none) m = contextOf s.heap m := by
    intro m hm
    simp [contextOf, hne m hm]
  constructor
  · refine h.linked.congr fun m hm => ?_
    simp [nextOf, hne m hm]
  · exact h.nodup
  · exact (List.map_congr_left hcontexts).trans h.contexts
  · exact h.inserted_nodup
  · exact h.unlinked_nodup
  · exact h.unlinked_inserted
  · exact h.inserted_done
  · intro j m hm
    have hj := h.registering j m hm
    have hmn : m ≠ n := by
      rintro rfl
      rw [hrem.context] at hj
      obtain rfl := Option.some.inj hj
      rw [h.inserted_done _ (h.unlinked_inserted _ hrem.unlinked)] at hm
      cases hm
    simpa [contextOf, hmn] using hj
  · exact h.snapshot_nodup
  · exact h.fault
  · refine pcInv_enter ⟨hprogress.requested, hprogress.unlinked, ?_⟩ hrem.split hrem.next_eq ?_
    · simp [hprogress.deletedContexts]
    · have hsuf : suf.map (contextOf (Function.update s.heap n none)) = suf.map (contextOf s.heap) :=
        List.map_congr_left fun m hm => hcontexts m (by simp [hrem.split, hm])
      rw [Remaining, hsuf]
      exact hrem.remaining

/-- **A step of `poll_threads`** between two visits. -/
theorem Inv.backend (h : Inv l s) (hstep : backend s = some s') : ∃ l', Inv l' s' := by
  have hinv := h.pc
  cases hpc : s.pc with
  | outside => simp [ThreadList.backend, hpc] at hstep
  | visit n next => simp [ThreadList.backend, hpc] at hstep
  | node n =>
      rw [hpc] at hinv
      obtain ⟨hprogress, pre, suf, hl, hrem⟩ := hinv
      obtain ⟨node, hn, hnext, -⟩ := h.access hl
      simp only [ThreadList.backend, hpc, access_eq hn, Option.some.injEq] at hstep
      subst s'
      exact ⟨l, h.setPc ⟨hprogress, pre, suf, hl, hnext, hrem⟩⟩
  | remove n next =>
      rw [hpc] at hinv
      obtain ⟨i, pre, suf, hrem⟩ := hinv
      obtain ⟨node, hn, hnext, -⟩ := h.access hrem.split
      simp only [ThreadList.backend, hpc, access_eq hn, Option.some.injEq] at hstep
      subst s'
      exact ⟨l, h.setPc ⟨i, pre, suf, hrem, hnext⟩⟩
  | compareExchange n next desired => exact h.compareExchange hpc hstep
  | walk n next previous current => exact ⟨l, h.walk hpc hstep⟩
  | readNext n next previous =>
      rw [hpc] at hinv
      obtain ⟨i, p, pre, suf, hrem, hprevious⟩ := hinv
      obtain ⟨node, hn, hnext, -⟩ := h.access hrem.split
      simp only [ThreadList.backend, hpc, access_eq hn, Option.some.injEq] at hstep
      subst s'
      exact ⟨l, h.setPc ⟨i, p, pre, suf, hrem, hprevious, hnext⟩⟩
  | unlink n next previous value => exact h.unlinkWrite hpc hstep
  | deleteContext n next => exact ⟨l, h.deleteContext hpc hstep⟩
  | deleteNode n next => exact ⟨l, h.deleteNode hpc hstep⟩

/-! ## Every run -/

theorem inv_init : Inv [] (init : State ι) := by
  constructor <;> simp [init, Linked, State.members, Registration.node?, PcInv, Remaining]
  exact ⟨rfl, rfl, rfl⟩

/-- **Every step preserves the invariant.** -/
theorem Inv.step {a : Action ι} (h : Inv l s) (hstep : step s a = some s') : ∃ l', Inv l' s' := by
  cases a with
  | register i n =>
      simp only [ThreadList.step] at hstep
      split at hstep
      · rename_i henabled
        cases hstep
        exact ⟨l, h.register henabled.2.1 henabled.2.2⟩
      · cases hstep
  | registrar i spurious =>
      simp only [ThreadList.step, h.fault, Bool.false_eq_true, if_false] at hstep
      exact h.registrar hstep
  | poll =>
      simp only [ThreadList.step] at hstep
      split at hstep
      · rename_i henabled
        cases hstep
        exact ⟨l, h.poll henabled.2⟩
      · cases hstep
  | visit dead => exact ⟨l, h.visit hstep⟩
  | backend =>
      simp only [ThreadList.step, h.fault, Bool.false_eq_true, if_false] at hstep
      exact h.backend hstep

theorem reachable_inv (hr : Reachable step init s) : ∃ l, Inv l s :=
  hr.invariant (fun s => ∃ l, Inv l s) ⟨[], inv_init⟩ fun _ _ _ h hstep => h.choose_spec.step hstep

/-- The backend is in `remove_and_delete_node`. -/
def Pc.removing : Pc → Bool
  | outside => false
  | node _ => false
  | visit _ _ => false
  | _ => true

/-- What is asked of the list. -/
structure Sound (s : State ι) : Prop where
  /-- The chain from the head is finite and acyclic, and has the nodes that were inserted
  and not removed, each once and the last inserted first. -/
  list : ∃ l, Linked (nextOf s.heap) s.head l ∧ l.Nodup ∧
    l.map (contextOf s.heap) = (s.inserted.filter (· ∉ s.unlinked)).map some
  inserted_once : s.inserted.Nodup
  /-- What has been unlinked are the nodes whose removal was requested, in that order. -/
  unlinked_requested : s.unlinked <+: s.requested
  /-- No context or node is deleted twice, or while it is in the list. -/
  requested_once : s.requested.Nodup
  contexts_unlinked : s.deletedContexts <+: s.unlinked
  nodes_unlinked : s.deletedNodes <+: s.deletedContexts
  /-- Every removal that has returned was carried out. -/
  removed : s.pc.removing = false → s.deletedNodes = s.requested
  /-- Nothing that was deleted is touched. -/
  no_fault : s.fault = false
  /-- A pass visits the nodes that were in the list when it loaded the head, each once,
  and no others. -/
  snapshot_once : s.snapshot.Nodup
  visited_snapshot : s.visited <+: s.snapshot
  visited_all : s.pc = .outside → s.visited = s.snapshot

omit [DecidableEq ι] in
theorem Remaining.visited_prefix {suf : List ℕ} (h : Remaining s suf) :
    ∃ rest, s.snapshot = s.visited ++ rest ∧ rest.map some = suf.map (contextOf s.heap) := by
  obtain ⟨done, rest, hsnapshot, hdone, hrest⟩ := List.map_eq_append_iff.mp h
  have hvisited : done = s.visited := List.map_injective_iff.mpr (Option.some_injective ι) hdone
  exact ⟨rest, by rw [hsnapshot, hvisited], hrest⟩

theorem Removing.notMem_unlinked (h : Inv l s) {n : ℕ} {next : Option ℕ} {i : ι} {pre suf : List ℕ}
    (hrem : Removing l s n next i pre suf) : i ∉ s.unlinked := by
  obtain ⟨j, hj, hcontext⟩ := h.exists_member (n := n) (by simp [hrem.split])
  rw [hrem.context] at hcontext
  obtain rfl := Option.some.inj hcontext
  exact (mem_members.mp hj).2

/-- Wherever the backend is, its records agree but for the removal under way. -/
theorem Inv.exists_progress (h : Inv l s) :
    ∃ a b c, Progress s a b c ∧ (s.unlinked ++ a).Nodup ∧
      (s.pc.removing = false → a = [] ∧ b = [] ∧ c = []) ∧
      ∃ suf, Remaining s suf ∧ (s.pc = .outside → suf = []) := by
  have hnil : (s.unlinked ++ ([] : List ι)).Nodup := by simpa using h.unlinked_nodup
  have hremoving : ∀ {n next i pre suf}, Removing l s n next i pre suf →
      (s.unlinked ++ [i]).Nodup := by
    intro n next i pre suf hrem
    refine List.nodup_append'.mpr ⟨h.unlinked_nodup, List.nodup_singleton i, ?_⟩
    simpa using hrem.notMem_unlinked h
  have hinv := h.pc
  cases hpc : s.pc with
  | outside =>
      rw [hpc] at hinv
      exact ⟨[], [], [], hinv.1, hnil, fun _ => ⟨rfl, rfl, rfl⟩, [], hinv.2, fun _ => rfl⟩
  | node n =>
      rw [hpc] at hinv
      obtain ⟨hprogress, pre, suf, -, hrem⟩ := hinv
      exact ⟨[], [], [], hprogress, hnil, fun _ => ⟨rfl, rfl, rfl⟩, _, hrem, by simp⟩
  | visit n next =>
      rw [hpc] at hinv
      obtain ⟨hprogress, pre, suf, -, -, hrem⟩ := hinv
      exact ⟨[], [], [], hprogress, hnil, fun _ => ⟨rfl, rfl, rfl⟩, _, hrem, by simp⟩
  | remove n next =>
      rw [hpc] at hinv
      obtain ⟨i, pre, suf, hrem⟩ := hinv
      exact ⟨[i], [], [], hrem.progress, hremoving hrem, by simp [Pc.removing], suf,
        hrem.remaining, by simp⟩
  | compareExchange n next desired =>
      rw [hpc] at hinv
      obtain ⟨i, pre, suf, hrem, -⟩ := hinv
      exact ⟨[i], [], [], hrem.progress, hremoving hrem, by simp [Pc.removing], suf,
        hrem.remaining, by simp⟩
  | walk n next previous current =>
      rw [hpc] at hinv
      obtain ⟨i, pre, mid, suf, hrem, -, -, -⟩ := hinv
      exact ⟨[i], [], [], hrem.progress, hremoving hrem, by simp [Pc.removing], suf,
        hrem.remaining, by simp⟩
  | readNext n next previous =>
      rw [hpc] at hinv
      obtain ⟨i, p, pre, suf, hrem, -⟩ := hinv
      exact ⟨[i], [], [], hrem.progress, hremoving hrem, by simp [Pc.removing], suf,
        hrem.remaining, by simp⟩
  | unlink n next previous value =>
      rw [hpc] at hinv
      obtain ⟨i, p, pre, suf, hrem, -, -⟩ := hinv
      exact ⟨[i], [], [], hrem.progress, hremoving hrem, by simp [Pc.removing], suf,
        hrem.remaining, by simp⟩
  | deleteContext n next =>
      rw [hpc] at hinv
      obtain ⟨i, pre, suf, hrem, hprogress⟩ := hinv
      exact ⟨[], [i], [], hprogress, hnil, by simp [Pc.removing], suf, hrem.remaining, by simp⟩
  | deleteNode n next =>
      rw [hpc] at hinv
      obtain ⟨i, pre, suf, hrem, hprogress⟩ := hinv
      exact ⟨[], [], [i], hprogress, hnil, by simp [Pc.removing], suf, hrem.remaining, by simp⟩

/-- **The list of threads is a list in every reachable state.** -/
theorem reachable_sound (hr : Reachable step init s) : Sound s := by
  obtain ⟨l, h⟩ := reachable_inv hr
  obtain ⟨a, b, c, hprogress, hnodup, hremoving, suf, hrem, hout⟩ := h.exists_progress
  obtain ⟨rest, hsnapshot, hrest⟩ := hrem.visited_prefix
  constructor
  · exact ⟨l, h.linked, h.nodup, h.contexts⟩
  · exact h.inserted_nodup
  · exact ⟨a, hprogress.requested.symm⟩
  · rwa [hprogress.requested]
  · exact ⟨b, hprogress.unlinked.symm⟩
  · exact ⟨c, hprogress.deletedContexts.symm⟩
  · intro hpc
    obtain ⟨rfl, rfl, rfl⟩ := hremoving hpc
    simp [hprogress.requested, hprogress.unlinked, hprogress.deletedContexts]
  · exact h.fault
  · exact h.snapshot_nodup
  · exact ⟨rest, hsnapshot.symm⟩
  · intro hpc
    rw [hout hpc, List.map_nil, List.map_eq_nil_iff] at hrest
    rw [hsnapshot, hrest, List.append_nil]

end Backend

/-- Two threads register, the backend visits both and finds the first of them dead while
a third pushes its node; the address of the node it frees is used again. -/
def reuseRun : List (Action ℕ) :=
  [.register 0 100, .registrar 0 false, .registrar 0 false, .registrar 0 true, .registrar 0 false,
    .registrar 0 false, .register 1 101, .registrar 1 false, .registrar 1 false,
    .registrar 1 false, .poll, .backend, .visit false, .backend, .visit true, .register 2 102,
    .registrar 2 false, .registrar 2 false, .registrar 2 false, .backend, .backend, .backend,
    .backend, .backend, .backend, .backend, .backend, .backend, .register 3 100,
    .registrar 3 false, .registrar 3 false, .registrar 3 false]

theorem reachable_sound_reuseRun :
    ∃ s, exec step init reuseRun = some s ∧ s.pc = .outside ∧ s.members = [3, 2, 1] ∧
      s.deletedNodes = [0] ∧ s.head = some 100 ∧ Sound s :=
  ⟨_, rfl, rfl, rfl, rfl, rfl, reachable_sound ⟨reuseRun, rfl⟩⟩

end Papper.ThreadList
