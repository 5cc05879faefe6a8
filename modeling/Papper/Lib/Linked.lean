import Mathlib.Data.List.Nodup
import Mathlib.Logic.Function.Basic
import Mathlib.Tactic.Common

/-!
# Linked lists in a heap

A heap is seen here only through its next pointers, a function from addresses to
addresses or null.  `Linked next a l` says that following them from `a` visits exactly
the addresses `l` and ends at null, so that the list is finite; with `l.Nodup` it is
acyclic.

The lemmas are the three things that happen to such a list: a pointer outside it is
written (`Linked.update`), a node is pushed in front (`Linked.push`), and a node is
unlinked by a write to its predecessor (`Linked.unlink`).

## Main definitions

* `Linked next a l` — the addresses from `a` on are `l`.
-/

namespace Papper

variable {α : Type}

/-- Following the next pointers from an address visits the list and ends at null. -/
def Linked (next : α → Option α) : Option α → List α → Prop
  | a, [] => a = none
  | a, x :: xs => a = some x ∧ Linked next (next x) xs

namespace Linked
variable {next next' : α → Option α} {a : Option α} {l : List α}

/-- The first address of the list is where it starts. -/
theorem head_eq (h : Linked next a l) : a = l.head? := by
  cases l with
  | nil => exact h
  | cons x xs => exact h.1

/-- What follows an address of the list is the rest of the list. -/
theorem next_eq {xs ys : List α} {x : α} (h : Linked next a (xs ++ x :: ys)) :
    next x = ys.head? := by
  induction xs generalizing a with
  | nil => exact h.2.head_eq
  | cons y xs ih => exact ih h.2

/-- Only the next pointers of the list matter. -/
theorem congr (h : Linked next a l) (heq : ∀ x ∈ l, next' x = next x) : Linked next' a l := by
  induction l generalizing a with
  | nil => exact h
  | cons x xs ih =>
      refine ⟨h.1, ?_⟩
      rw [heq x List.mem_cons_self]
      exact ih h.2 fun y hy => heq y (List.mem_cons_of_mem _ hy)

/-- A node whose next pointer is the head becomes the head. -/
theorem push (h : Linked next a l) {x : α} (hx : next x = a) : Linked next (some x) (x :: l) :=
  ⟨rfl, by rwa [hx]⟩

variable [DecidableEq α]

/-- A write outside the list does not change it. -/
theorem update (h : Linked next a l) {x : α} (hx : x ∉ l) (v : Option α) :
    Linked (Function.update next x v) a l := by
  refine h.congr fun y hy => Function.update_of_ne ?_ _ _
  intro heq
  exact hx (heq ▸ hy)

/-- Writing a node's next pointer to its predecessor takes the node out. -/
theorem unlink {xs ys : List α} {x y : α} (h : Linked next a (xs ++ x :: y :: ys))
    (hnodup : (xs ++ x :: y :: ys).Nodup) :
    Linked (Function.update next x ys.head?) a (xs ++ x :: ys) := by
  induction xs generalizing a with
  | nil =>
      obtain ⟨hx, hys⟩ := List.nodup_cons.mp hnodup
      rw [List.mem_cons, not_or] at hx
      refine ⟨h.1, ?_⟩
      rw [Function.update_self, ← h.2.2.head_eq]
      exact h.2.2.update hx.2 _
  | cons z xs ih =>
      obtain ⟨hz, hrest⟩ := List.nodup_cons.mp hnodup
      have hne : z ≠ x := by
        intro heq
        exact hz (by simp [heq])
      refine ⟨h.1, ?_⟩
      rw [Function.update_of_ne hne]
      exact ih h.2 hrest

end Linked

end Papper
