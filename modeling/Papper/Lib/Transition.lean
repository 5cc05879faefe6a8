import Mathlib.Data.List.Induction

/-!
# Runs of labelled partial transitions

A system is a step function `σ → α → Option σ`: a label that is not enabled in a
state has no successor.  Nondeterminism is in the choice of the label, so a run is
a list of labels and an interleaving of several parties is nothing more than the
order in which their labels occur.

`exec` performs a list of labels.  The two rules every safety proof goes through
are `exec_induction`, for a property preserved by every step, and
`exec_induction_along`, for one preserved only by the steps that meet a side
condition.  `exec_iff_along` is for a property that is kept exactly by the steps
that meet one, and `exec_history` for one that is about the labels so far too.

## Main definitions

* `exec step s as` — the state after the labels `as`, if all of them are enabled.
* `Along cond step s as` — every step of that run starts in a state that meets
  `cond`.
* `Reachable step s₀ s` — some run leads from `s₀` to `s`.
* `answers step s as` — what the calls `as` answer, for steps that answer.
* `Simulates R impl spec` — the one step function answers as the other does.
-/

namespace Papper.Transition

universe u v
variable {σ : Type u} {α : Type v}

/-- Perform the labels in order. -/
def exec (step : σ → α → Option σ) : σ → List α → Option σ
  | s, [] => some s
  | s, a :: as => (step s a).bind fun s' => exec step s' as

/-- Every label of the run is performed in a state that meets `cond`. -/
def Along (cond : σ → α → Prop) (step : σ → α → Option σ) : σ → List α → Prop
  | _, [] => True
  | s, a :: as => cond s a ∧ ∀ s', step s a = some s' → Along cond step s' as

/-- A run can be checked against a decidable side condition by performing it. -/
instance decidableAlong (cond : σ → α → Prop) [∀ s a, Decidable (cond s a)]
    (step : σ → α → Option σ) : ∀ s as, Decidable (Along cond step s as)
  | _, [] => isTrue trivial
  | s, a :: as =>
      match h : step s a with
      | none => decidable_of_iff (cond s a) (by simp [Along, h])
      | some t =>
          have := decidableAlong cond step t as
          decidable_of_iff (cond s a ∧ Along cond step t as) (by simp [Along, h])

/-- Some run leads from `s₀` to `s`. -/
def Reachable (step : σ → α → Option σ) (s₀ s : σ) : Prop := ∃ as, exec step s₀ as = some s

variable {step : σ → α → Option σ} {cond : σ → α → Prop}

@[simp] theorem exec_nil (s : σ) : exec step s [] = some s := rfl

@[simp] theorem exec_cons (s : σ) (a : α) (as : List α) :
    exec step s (a :: as) = (step s a).bind fun s' => exec step s' as := rfl

theorem exec_cons_eq_some {s s' : σ} {a : α} {as : List α} :
    exec step s (a :: as) = some s' ↔ ∃ t, step s a = some t ∧ exec step t as = some s' := by
  simp [Option.bind_eq_some_iff]

/-- A run may be cut anywhere. -/
theorem exec_append (s : σ) (as bs : List α) :
    exec step s (as ++ bs) = (exec step s as).bind fun t => exec step t bs := by
  induction as generalizing s with
  | nil => rfl
  | cons a as ih =>
      simp only [List.cons_append, exec_cons, Option.bind_assoc]
      exact congrArg _ (funext ih)

theorem exec_append_eq_some {s s' : σ} {as bs : List α} :
    exec step s (as ++ bs) = some s' ↔
      ∃ t, exec step s as = some t ∧ exec step t bs = some s' := by
  rw [exec_append, Option.bind_eq_some_iff]

theorem exec_singleton {s s' : σ} {a : α} (h : step s a = some s') :
    exec step s [a] = some s' := by
  simp [h]

/-- **The invariant rule.** -/
theorem exec_induction (I : σ → Prop)
    (hstep : ∀ s a s', I s → step s a = some s' → I s') :
    ∀ {s as s'}, I s → exec step s as = some s' → I s' := by
  intro s as
  induction as generalizing s with
  | nil =>
      intro s' h he
      rw [exec_nil, Option.some.injEq] at he
      exact he ▸ h
  | cons a as ih =>
      intro s' h he
      obtain ⟨t, ht, he⟩ := exec_cons_eq_some.mp he
      exact ih (hstep s a t h ht) he

/-- **The invariant rule under a side condition**: it is enough that the steps
meeting `cond` preserve the property, in a run all of whose steps do. -/
theorem exec_induction_along (I : σ → Prop)
    (hstep : ∀ s a s', I s → cond s a → step s a = some s' → I s') :
    ∀ {s as s'}, I s → Along cond step s as → exec step s as = some s' → I s' := by
  intro s as
  induction as generalizing s with
  | nil =>
      intro s' h _ he
      rw [exec_nil, Option.some.injEq] at he
      exact he ▸ h
  | cons a as ih =>
      intro s' h hc he
      obtain ⟨t, ht, he⟩ := exec_cons_eq_some.mp he
      exact ih (hstep s a t h hc.1 ht) (hc.2 t ht) he

/-- **The rule for a property that is decided step by step**: when a step keeps `J`
exactly if it meets `cond`, a run ends in a state with `J` exactly if it begins in one and
all its steps do. -/
theorem exec_iff_along {pre : σ → α → Prop} (I J : σ → Prop)
    (hstep : ∀ s a s', I s → pre s a → step s a = some s' → I s' ∧ (J s' ↔ J s ∧ cond s a)) :
    ∀ {s as s'}, I s → Along pre step s as → exec step s as = some s' →
      (J s' ↔ J s ∧ Along cond step s as) := by
  intro s as
  induction as generalizing s with
  | nil =>
      intro s' _ _ he
      rw [exec_nil, Option.some.injEq] at he
      subst s'
      exact (and_iff_left trivial).symm
  | cons a as ih =>
      intro s' hI hpre he
      obtain ⟨t, ht, he⟩ := exec_cons_eq_some.mp he
      obtain ⟨hIt, hJt⟩ := hstep s a t hI hpre.1 ht
      have halong : Along cond step s (a :: as) ↔ cond s a ∧ Along cond step t as := by
        constructor
        · intro h
          exact ⟨h.1, h.2 t ht⟩
        · intro h
          refine ⟨h.1, fun u hu => ?_⟩
          obtain rfl := Option.some.inj (ht.symm.trans hu)
          exact h.2
      rw [ih hIt (hpre.2 t ht) he, hJt, halong, and_assoc]

theorem Along.and {cond' : σ → α → Prop} :
    ∀ {s as}, Along cond step s as → Along cond' step s as →
      Along (fun s a => cond s a ∧ cond' s a) step s as := by
  intro s as
  induction as generalizing s with
  | nil => exact fun _ _ => trivial
  | cons a as ih =>
      intro h h'
      exact ⟨⟨h.1, h'.1⟩, fun t ht => ih (h.2 t ht) (h'.2 t ht)⟩

/-- A side condition that an invariant of the run implies. -/
theorem Along.of_invariant {pre : σ → α → Prop} (I : σ → Prop)
    (hcond : ∀ s a, I s → pre s a → cond s a)
    (hstep : ∀ s a s', I s → pre s a → step s a = some s' → I s') :
    ∀ {s as}, I s → Along pre step s as → Along cond step s as := by
  intro s as
  induction as generalizing s with
  | nil => exact fun _ _ => trivial
  | cons a as ih =>
      intro h hpre
      exact ⟨hcond s a h hpre.1, fun t ht => ih (hstep s a t h hpre.1 ht) (hpre.2 t ht)⟩

/-- A side condition on a run is one on its two parts. -/
theorem along_append {s : σ} {as bs : List α} : Along cond step s (as ++ bs) ↔
    Along cond step s as ∧ ∀ t, exec step s as = some t → Along cond step t bs := by
  induction as generalizing s with
  | nil => simp [Along]
  | cons a as ih =>
      simp only [List.cons_append, Along, ih, exec_cons_eq_some, and_assoc]
      refine and_congr_right fun _ => ?_
      constructor
      · intro h
        refine ⟨fun t ht => (h t ht).1, ?_⟩
        rintro u ⟨t, ht, hu⟩
        exact (h t ht).2 u hu
      · rintro ⟨has, hbs⟩ t ht
        exact ⟨has t ht, fun u hu => hbs u ⟨t, ht, hu⟩⟩

/-- **The invariant rule with the history**: what holds of a state after the labels that led
there, before any, and is kept by one more, holds after every run. -/
theorem exec_history {s₀ : σ} (I : List α → σ → Prop) (h₀ : I [] s₀)
    (hstep : ∀ as s a s', exec step s₀ as = some s → I as s → cond s a → step s a = some s' →
      I (as ++ [a]) s') :
    ∀ {as s}, Along cond step s₀ as → exec step s₀ as = some s → I as s := by
  intro as
  induction as using List.reverseRecOn with
  | nil =>
      intro s _ he
      rw [exec_nil, Option.some.injEq] at he
      exact he ▸ h₀
  | append_singleton as a ih =>
      intro s hc he
      obtain ⟨has, ha⟩ := along_append.mp hc
      obtain ⟨t, ht, he⟩ := exec_append_eq_some.mp he
      obtain ⟨u, hu, hs⟩ := exec_cons_eq_some.mp he
      rw [exec_nil, Option.some.injEq] at hs
      subst u
      exact hstep as t a s ht (ih has ht) (ha t ht).1 hu

/-- Labels that meet the side condition in every state. -/
theorem Along.of_mem {as : List α} (h : ∀ a ∈ as, ∀ s, cond s a) : ∀ s, Along cond step s as := by
  induction as with
  | nil => exact fun _ => trivial
  | cons a as ih =>
      intro s
      refine ⟨h a List.mem_cons_self s, fun t _ => ih ?_ t⟩
      intro b hb
      exact h b (List.mem_cons_of_mem a hb)

/-- A label that meets the side condition in every state may be repeated. -/
theorem Along.replicate {a : α} (h : ∀ s, cond s a) (n : ℕ) (s : σ) :
    Along cond step s (List.replicate n a) := by
  refine .of_mem ?_ s
  intro b hb
  rw [List.eq_of_mem_replicate hb]
  exact h

theorem Reachable.refl (s : σ) : Reachable step s s := ⟨[], rfl⟩

theorem Reachable.trans {s t u : σ} (h : Reachable step s t) (h' : Reachable step t u) :
    Reachable step s u := by
  obtain ⟨as, ha⟩ := h
  obtain ⟨bs, hb⟩ := h'
  exact ⟨as ++ bs, exec_append_eq_some.mpr ⟨t, ha, hb⟩⟩

theorem Reachable.of_step {s s' : σ} {a : α} (h : step s a = some s') : Reachable step s s' :=
  ⟨[a], exec_singleton h⟩

theorem Reachable.invariant {s s' : σ} (hr : Reachable step s s') (I : σ → Prop) (h : I s)
    (hstep : ∀ s a s', I s → step s a = some s' → I s') : I s' := by
  obtain ⟨as, he⟩ := hr
  exact exec_induction I hstep h he

/-! ## Steps that answer -/

section Answers
variable {τ : Type u} {β : Type v}

/-- What the calls answer, in order, if all of them are enabled. -/
def answers (step : σ → α → Option (β × σ)) : σ → List α → Option (List β)
  | _, [] => some []
  | s, a :: as => (step s a).bind fun r => (answers step r.2 as).map (r.1 :: ·)

/-- In related states a call of the specification is one of the implementation, with the
same answer. -/
def Simulates (R : σ → τ → Prop) (impl : σ → α → Option (β × σ)) (spec : τ → α → Option (β × τ)) :
    Prop :=
  ∀ s t a b t', R s t → spec t a = some (b, t') → ∃ s', impl s a = some (b, s') ∧ R s' t'

/-- **The simulation rule**: whatever the specification answers, so does the
implementation. -/
theorem Simulates.same_answers {R : σ → τ → Prop} {impl : σ → α → Option (β × σ)}
    {spec : τ → α → Option (β × τ)} (h : Simulates R impl spec) :
    ∀ {s t as bs}, R s t → answers spec t as = some bs → answers impl s as = some bs := by
  intro s t as
  induction as generalizing s t with
  | nil => intro bs _ hbs; exact hbs
  | cons a as ih =>
      intro bs hR hbs
      obtain ⟨⟨b, t'⟩, hstep, hrest⟩ := Option.bind_eq_some_iff.mp hbs
      obtain ⟨bs', hbs', rfl⟩ := Option.map_eq_some_iff.mp hrest
      obtain ⟨s', himpl, hR'⟩ := h s t a b t' hR hstep
      simp only [answers, himpl, Option.bind_some, ih hR' hbs', Option.map_some]

end Answers

end Papper.Transition
