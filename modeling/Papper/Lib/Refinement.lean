import Papper.Lib.Transition

/-!
# Refinement

The steps of one system, the implementation, are runs of another, the specification: a step
may be one step of the specification, or none that can be told apart from standing still, or
several.  Which they are is a function `label` of the step, and `trace` puts together what a
run stands for.

`exec_induction_trace` is the invariant rule for what holds of a state and the trace that led
there.  `Refines.exec` is the rule for refinement: what every step of the implementation
stands for leads from what its state stands for to what the next one does, so a run of the
implementation is a run of the specification.

## Main definitions

* `trace label step s as` — what a run stands for.
* `Refines cond I label abs impl spec` — every step is the run of the specification it stands
  for.
-/

namespace Papper.Transition

universe u v w x
variable {σ : Type u} {α : Type v} {τ : Type w} {β : Type x}

/-- What the steps of a run stand for, in order. -/
def trace (label : σ → α → σ → List β) (step : σ → α → Option σ) : σ → List α → List β
  | _, [] => []
  | s, a :: as => ((step s a).map fun s' => label s a s' ++ trace label step s' as).getD []

variable {label : σ → α → σ → List β} {step : σ → α → Option σ} {cond : σ → α → Prop}

@[simp] theorem trace_nil (s : σ) : trace label step s [] = [] := rfl

theorem trace_cons {s s' : σ} {a : α} (h : step s a = some s') (as : List α) :
    trace label step s (a :: as) = label s a s' ++ trace label step s' as := by
  simp [trace, h]

/-- **The invariant rule with the trace**: what one step and what it stands for keep, a run
and its trace keep. -/
theorem exec_induction_trace (I : List β → σ → Prop)
    (hstep : ∀ bs s a s', I bs s → cond s a → step s a = some s' → I (bs ++ label s a s') s')
    {s₀ : σ} (h₀ : I [] s₀) {as : List α} {s : σ} (hcond : Along cond step s₀ as)
    (hexec : exec step s₀ as = some s) : I (trace label step s₀ as) s := by
  have hgeneral : ∀ (as : List α) (bs : List β) (s s' : σ), I bs s → Along cond step s as →
      exec step s as = some s' → I (bs ++ trace label step s as) s' := by
    intro as
    induction as with
    | nil =>
        intro bs s s' h _ he
        rw [exec_nil, Option.some.injEq] at he
        rw [trace_nil, List.append_nil]
        exact he ▸ h
    | cons a as ih =>
        intro bs s s' h hc he
        obtain ⟨t, ht, he⟩ := exec_cons_eq_some.mp he
        rw [trace_cons ht, ← List.append_assoc]
        exact ih _ t s' (hstep bs s a t h hc.1 ht) (hc.2 t ht) he
  exact hgeneral as [] s₀ s h₀ hcond hexec

/-- The steps that meet `cond` keep `I`, and each is the run of the specification it stands
for. -/
structure Refines (cond : σ → α → Prop) (I : σ → Prop) (label : σ → α → σ → List β) (abs : σ → τ)
    (impl : σ → α → Option σ) (spec : τ → β → Option τ) : Prop where
  invariant {s a s'} : I s → cond s a → impl s a = some s' → I s'
  step {s a s'} : I s → cond s a → impl s a = some s' →
    exec spec (abs s) (label s a s') = some (abs s')

/-- **The refinement rule**: a run of the implementation is a run of the specification. -/
theorem Refines.exec {I : σ → Prop} {abs : σ → τ} {impl : σ → α → Option σ}
    {spec : τ → β → Option τ} (h : Refines cond I label abs impl spec) {s s' : σ} {as : List α}
    (hI : I s) (hcond : Along cond impl s as) (hexec : Transition.exec impl s as = some s') :
    Transition.exec spec (abs s) (trace label impl s as) = some (abs s') := by
  have hrun : I s' ∧ Transition.exec spec (abs s) (trace label impl s as) = some (abs s') := by
    refine exec_induction_trace (fun bs t => I t ∧ Transition.exec spec (abs s) bs = some (abs t)) ?_
      ⟨hI, rfl⟩ hcond hexec
    intro bs t a t' ht ha hstep
    refine ⟨h.invariant ht.1 ha hstep, ?_⟩
    rw [exec_append, ht.2]
    exact h.step ht.1 ha hstep
  exact hrun.2

end Papper.Transition
