import Mathlib.Data.List.Range
import Papper.Lib.Transition

/-!
# What cannot fail to happen

One party of a system goes on alone: all its labels are enabled, and which of them is
performed is not up to it.  A goal is inevitable if it is reached whatever they are.  Some
states may be counted on the way, and then the number of steps that begin in one of them is
the same in all these runs.

## Main definitions

* `count` — the steps of a run that begin in a state of a kind.
* `Inevitable` — a goal is reached, after so many of these.
* `Inevitable.trans` — goals one after another.
* `Inevitable.exists_exec` — the run that gets there.
-/

namespace Papper.Transition

universe u v
variable {σ : Type u} {α : Type v}

/-- The steps of a run that begin in a state of the kind. -/
def count (kind : σ → Bool) (step : σ → α → Option σ) : σ → List α → ℕ
  | _, [] => 0
  | s, a :: as => (kind s).toNat + ((step s a).map fun s' => count kind step s' as).getD 0

/-- Whatever the labels are, the goal is reached after `k` steps that begin in a state of the
kind. -/
inductive Inevitable (step : σ → α → Option σ) (ok : α → Prop) (kind : σ → Bool)
    (goal : σ → Prop) : ℕ → σ → Prop
  | here {s : σ} (h : goal s) : Inevitable step ok kind goal 0 s
  | next {k : ℕ} {s : σ} (henabled : ∀ a, ok a → ∃ s', step s a = some s')
      (h : ∀ a s', ok a → step s a = some s' → Inevitable step ok kind goal k s') :
      Inevitable step ok kind goal ((kind s).toNat + k) s

namespace Inevitable
variable {step : σ → α → Option σ} {ok : α → Prop} {kind : σ → Bool} {goal goal' : σ → Prop}
  {k k' : ℕ} {s : σ}

/-- A step that is not counted. -/
theorem step_of_not (hkind : kind s = false) (henabled : ∀ a, ok a → ∃ s', step s a = some s')
    (h : ∀ a s', ok a → step s a = some s' → Inevitable step ok kind goal k s') :
    Inevitable step ok kind goal k s := by
  have hnext := next henabled h
  rwa [hkind, Bool.toNat_false, Nat.zero_add] at hnext

/-- **Goals one after another.** -/
theorem trans (h : Inevitable step ok kind goal k s)
    (hgoal : ∀ t, goal t → Inevitable step ok kind goal' k' t) :
    Inevitable step ok kind goal' (k + k') s := by
  induction h with
  | here h =>
      rw [Nat.zero_add]
      exact hgoal _ h
  | next henabled _ ih =>
      rw [Nat.add_assoc]
      exact next henabled ih

theorem mono (h : Inevitable step ok kind goal k s) (hgoal : ∀ t, goal t → goal' t) :
    Inevitable step ok kind goal' k s :=
  h.trans fun t ht => here (hgoal t ht)

/-- What was counted on the way may be forgotten. -/
theorem forget (h : Inevitable step ok kind goal k s) :
    Inevitable step ok (fun _ => false) goal 0 s := by
  induction h with
  | here h => exact here h
  | next henabled _ ih => exact step_of_not rfl henabled ih

/-- **The run that gets there.** -/
theorem exists_exec (h : Inevitable step ok kind goal k s) :
    ∀ {f : ℕ → α}, (∀ n, ok (f n)) → ∃ n s', exec step s ((List.range n).map f) = some s' ∧
      goal s' ∧ count kind step s ((List.range n).map f) = k := by
  induction h with
  | @here s h => exact fun _ => ⟨0, s, rfl, h, rfl⟩
  | next henabled h ih =>
      intro f hf
      obtain ⟨t, ht⟩ := henabled (f 0) (hf 0)
      obtain ⟨n, s', hexec, hgoal, hcount⟩ := ih (f 0) t (hf 0) ht (f := fun n => f (n + 1))
        fun n => hf (n + 1)
      refine ⟨n + 1, s', ?_, hgoal, ?_⟩
      · rw [List.range_succ_eq_map, List.map_cons, List.map_map, exec_cons, ht]
        exact hexec
      · rw [List.range_succ_eq_map, List.map_cons, List.map_map, count, ht]
        exact congrArg _ hcount

end Inevitable

end Papper.Transition
