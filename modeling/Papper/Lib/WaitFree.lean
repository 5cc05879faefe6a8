import Mathlib.Data.List.Basic
import Papper.Lib.Transition

/-!
# Operations that wait for nobody

A party of a system is in an operation while the others go on as they like.  The operation is
wait-free if every step of its own brings it nearer to its end and no step of the others takes
it away from there: then it ends after a bounded number of its own steps, in every order in
which those of the others come between them.

## Main definitions

* `WaitFree cond own step I goal` — the steps marked `own` lead through `I` to the goal.
* `WaitFree.exec` — what becomes of the operation in a run.
-/

namespace Papper.Transition

universe u v
variable {σ : Type u} {α : Type v}

/-- `I n` holds where the goal is at most `n` own steps away. -/
structure WaitFree (cond : σ → α → Prop) (own : α → Bool) (step : σ → α → Option σ)
    (I : ℕ → σ → Prop) (goal : σ → Prop) : Prop where
  mine {n s a s'} : I n s → cond s a → step s a = some s' → own a = true →
    ∃ m < n, goal s' ∨ I m s'
  other {n s a s'} : I n s → cond s a → step s a = some s' → own a = false → I n s'

/-- **The rule for operations that wait for nobody**: in a run the goal is reached after at
most `n` own steps, or it is still ahead and nearer by the own steps there were. -/
theorem WaitFree.exec {cond : σ → α → Prop} {own : α → Bool} {step : σ → α → Option σ}
    {I : ℕ → σ → Prop} {goal : σ → Prop} (h : WaitFree cond own step I goal) {as : List α} :
    ∀ {n : ℕ} {s t : σ}, I n s → Along cond step s as → Transition.exec step s as = some t →
      (∃ us vs u, as = us ++ vs ∧ us.countP own ≤ n ∧ Transition.exec step s us = some u ∧
        goal u) ∨
      ∃ m, m + as.countP own ≤ n ∧ I m t := by
  induction as with
  | nil =>
      intro n s t hI _ hexec
      rw [exec_nil, Option.some.injEq] at hexec
      exact .inr ⟨n, Nat.le_refl n, hexec ▸ hI⟩
  | cons a as ih =>
      intro n s t hI hcond hexec
      obtain ⟨s', hstep, hexec⟩ := exec_cons_eq_some.mp hexec
      -- what becomes of the operation from the next state on, with the step in front
      have hnext : ∀ m, m + (own a).toNat ≤ n → I m s' →
          (∃ us vs u, a :: as = us ++ vs ∧ us.countP own ≤ n ∧
            Transition.exec step s us = some u ∧ goal u) ∨
          ∃ m, m + (a :: as).countP own ≤ n ∧ I m t := by
        intro m hm hI'
        have hcount : ∀ bs, (a :: bs).countP own = bs.countP own + (own a).toNat := by
          intro bs
          cases hown : own a <;> simp [hown]
        rcases ih hI' (hcond.2 s' hstep) hexec with ⟨us, vs, u, rfl, hus, hu, hgoal⟩ | ⟨m', hm', ht⟩
        · refine .inl ⟨a :: us, vs, u, rfl, ?_, ?_, hgoal⟩
          · rw [hcount]
            omega
          · rw [exec_cons, hstep]
            exact hu
        · refine .inr ⟨m', ?_, ht⟩
          rw [hcount]
          omega
      cases hown : own a with
      | false => exact hnext n (by simp [hown]) (h.other hI hcond.1 hstep hown)
      | true =>
          obtain ⟨m, hm, hgoal | hI'⟩ := h.mine hI hcond.1 hstep hown
          · refine .inl ⟨[a], as, s', rfl, ?_, exec_singleton hstep, hgoal⟩
            have hone : [a].countP own = 1 := by simp [hown]
            omega
          · exact hnext m (by simp [hown]; omega) hI'

end Papper.Transition
