import Mathlib.Data.Nat.Notation
import Mathlib.Logic.Relation

/-!
# Loops

A loop is given by its body, a function of the state at its head: the body comes to the head
again with another state, or it returns, or it fails.  `run` goes round at most so many times.
What the rules are about is the states at the head, which do not depend on that number.

Three rules go through here: `Heads.invariant`, for what the body keeps; `exists_run`, for a
loop whose body keeps an invariant and decreases a measure; and `Refines.run`, for two loops
whose bodies agree.

## Main definitions

* `Turn` — how a body ends that does not fail.
* `run body fuel s` — the loop, begun with the state `s` at its head.
* `Heads body s t` — the loop that began with `s` comes to its head with `t`.
* `Ends body s o` — the body ends the loop there.
* `Refines R f g impl spec` — from related states the two bodies end alike.
-/

namespace Papper.Loop

universe u v w u' v' w'
variable {σ : Type u} {ρ : Type v} {ε : Type w}

/-- How a body ends: at the head of the loop again, or out of it. -/
inductive Turn (σ : Type u) (ρ : Type v)
  | next (s : σ)
  | done (r : ρ)

/-- Go round until the body returns or fails, at most so many times. -/
def run (body : σ → Except ε (Turn σ ρ)) : ℕ → σ → Option (Except ε ρ)
  | 0, _ => none
  | fuel + 1, s =>
      match body s with
      | .error e => some (.error e)
      | .ok (.done r) => some (.ok r)
      | .ok (.next s') => run body fuel s'

/-- The loop that began with `s` comes to its head with the other state. -/
def Heads (body : σ → Except ε (Turn σ ρ)) (s : σ) : σ → Prop :=
  Relation.ReflTransGen (fun s s' => body s = .ok (.next s')) s

/-- The body ends the loop. -/
inductive Ends (body : σ → Except ε (Turn σ ρ)) (s : σ) : Except ε ρ → Prop
  | done {r : ρ} (h : body s = .ok (.done r)) : Ends body s (.ok r)
  | error {e : ε} (h : body s = .error e) : Ends body s (.error e)

variable {body : σ → Except ε (Turn σ ρ)} {s t : σ}

/-- **The invariant rule.** -/
theorem Heads.invariant (h : Heads body s t) (I : σ → Prop) (h₀ : I s)
    (hbody : ∀ s s', I s → body s = .ok (.next s') → I s') : I t := by
  induction h with
  | refl => exact h₀
  | tail _ hnext ih => exact hbody _ _ ih hnext

/-- What a loop comes to is what its body ends with at some head. -/
theorem exists_ends_of_run {fuel : ℕ} {o : Except ε ρ} (h : run body fuel s = some o) :
    ∃ t, Heads body s t ∧ Ends body t o := by
  induction fuel generalizing s with
  | zero => cases h
  | succ fuel ih =>
      rw [run] at h
      cases hbody : body s with
      | error e =>
          rw [hbody] at h
          cases h
          exact ⟨s, .refl, .error hbody⟩
      | ok turn =>
          rw [hbody] at h
          cases turn with
          | done r =>
              cases h
              exact ⟨s, .refl, .done hbody⟩
          | next s' =>
              obtain ⟨t, ht, hends⟩ := ih h
              exact ⟨t, .head hbody ht, hends⟩

/-- **The termination rule**: when the body keeps an invariant and decreases a measure, the loop
ends. -/
theorem exists_run (I : σ → Prop) (measure : σ → ℕ)
    (hbody : ∀ s s', I s → body s = .ok (.next s') → I s' ∧ measure s' < measure s) {fuel : ℕ}
    (h : I s) (hfuel : measure s < fuel) : ∃ o, run body fuel s = some o := by
  induction fuel generalizing s with
  | zero => exact absurd hfuel (Nat.not_lt_zero _)
  | succ fuel ih =>
      rw [run]
      cases hs : body s with
      | error e => exact ⟨_, rfl⟩
      | ok turn =>
          cases turn with
          | done r => exact ⟨_, rfl⟩
          | next s' =>
              obtain ⟨hI, hlt⟩ := hbody s s' h hs
              exact ih hI (by omega)

/-! ## Refinement -/

section Refines
variable {σ' : Type u'} {ρ' : Type v'} {ε' : Type w'}

/-- From related states the bodies go round to related ones, return what `f` says, or fail as
`g` says. -/
structure Refines (R : σ → σ' → Prop) (f : ρ → ρ') (g : ε → ε')
    (impl : σ → Except ε (Turn σ ρ)) (spec : σ' → Except ε' (Turn σ' ρ')) : Prop where
  next {s t s'} : R s t → impl s = .ok (.next s') → ∃ t', spec t = .ok (.next t') ∧ R s' t'
  done {s t r} : R s t → impl s = .ok (.done r) → spec t = .ok (.done (f r))
  error {s t e} : R s t → impl s = .error e → spec t = .error (g e)

/-- **The refinement rule**: loops whose bodies agree come to the same. -/
theorem Refines.run {R : σ → σ' → Prop} {f : ρ → ρ'} {g : ε → ε'}
    {impl : σ → Except ε (Turn σ ρ)} {spec : σ' → Except ε' (Turn σ' ρ')}
    (h : Refines R f g impl spec) {fuel : ℕ} {s : σ} {t : σ'} (hR : R s t) :
    Loop.run spec fuel t = (Loop.run impl fuel s).map fun o => (o.map f).mapError g := by
  induction fuel generalizing s t with
  | zero => rfl
  | succ fuel ih =>
      rw [Loop.run, Loop.run]
      cases himpl : impl s with
      | error e =>
          rw [h.error hR himpl]
          rfl
      | ok turn =>
          cases turn with
          | done r =>
              rw [h.done hR himpl]
              rfl
          | next s' =>
              obtain ⟨t', hspec, hR'⟩ := h.next hR himpl
              rw [hspec]
              exact ih hR'

end Refines

end Papper.Loop
