import Mathlib.Algebra.BigOperators.Group.Finset.Basic
import Mathlib.Data.Fintype.Basic
import Mathlib.Tactic.Common

/-!
# The lifetime of objects

A program keeps a record of its operations, of which some touch an object and some end one.
The objects are held in places, and it is safe to do something to an object while some place
holds it, provided that an object is in one place at most until it is ended, and in none
afterwards.  The places are counted; that count is what a step of the program preserves.

## Main definitions

* `ended` — the objects ended by the operations of a record.
* `NoUseAfter` — nothing is done to an object that was ended before.
* `sum_update_add` — a change of one of the places.
-/

namespace Papper.Lifetime

universe u v
variable {α : Type u} {Op : Type v}

/-- The objects ended, one occurrence for each time. -/
def ended (ends : Op → Option α) (ops : List Op) : List α := ops.filterMap ends

@[simp] theorem ended_nil (ends : Op → Option α) : ended ends [] = [] := rfl

@[simp] theorem ended_append (ends : Op → Option α) (ops ops' : List Op) :
    ended ends (ops ++ ops') = ended ends ops ++ ended ends ops' :=
  List.filterMap_append

/-- Nothing is done to an object that was ended before. -/
def NoUseAfter (touches ends : Op → Option α) (ops : List Op) : Prop :=
  ∀ pre op post, ops = pre ++ op :: post → ∀ a, touches op = some a → a ∉ ended ends pre

namespace NoUseAfter
variable {touches ends : Op → Option α} {ops : List Op}

theorem nil : NoUseAfter touches ends [] := by
  intro pre op post h
  simp at h

/-- One more operation, on an object that is there if it is on one. -/
theorem append (h : NoUseAfter touches ends ops) {op : Op}
    (hop : ∀ a, touches op = some a → a ∉ ended ends ops) :
    NoUseAfter touches ends (ops ++ [op]) := by
  intro pre op' post heq
  rcases List.eq_nil_or_concat post with rfl | ⟨post, last, rfl⟩
  · obtain ⟨rfl, hlast⟩ := List.append_inj' heq rfl
    cases hlast
    exact hop
  · rw [List.concat_eq_append, ← List.cons_append, ← List.append_assoc] at heq
    exact h pre op' post (List.append_inj_left' heq rfl)

end NoUseAfter

/-- A change of what is in one place changes the sum by what was there and what is. -/
theorem sum_update_add {ι : Type u} {β : Type v} [DecidableEq ι] [Fintype ι] (f : ι → β) (i : ι)
    (b : β) (count : β → ℕ) :
    ∑ j, count (Function.update f i b j) + count (f i) = ∑ j, count (f j) + count b := by
  have hnew := Finset.add_sum_erase Finset.univ (fun j => count (Function.update f i b j))
    (Finset.mem_univ i)
  have hold := Finset.add_sum_erase Finset.univ (fun j => count (f j)) (Finset.mem_univ i)
  have hrest : ∑ j ∈ Finset.univ.erase i, count (Function.update f i b j)
      = ∑ j ∈ Finset.univ.erase i, count (f j) := by
    refine Finset.sum_congr rfl fun j hj => ?_
    rw [Function.update_of_ne (Finset.ne_of_mem_erase hj)]
  rw [Function.update_self] at hnew
  omega

end Papper.Lifetime
