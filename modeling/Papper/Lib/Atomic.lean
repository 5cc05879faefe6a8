import Mathlib.Data.List.Basic

/-!
# An atomic variable with one writer and one reader

The variable remembers every value stored to it, oldest first, together with the
position of the newest value its reader has loaded.  A load may return any stored
value that is not older than one the reader has loaded before.  This is what
coherence guarantees, and no more: a reader that always takes the last value has
the sequentially consistent behaviour, which is therefore among those considered.

## Main definitions

* `Atomic.store` — append a value.
* `Atomic.load? i` — load the value stored `i`-th, when coherence allows it.
* `Atomic.latest` — the position of the last value stored.
-/

namespace Papper

universe u

/-- The stored values, oldest first, and the position the reader has reached. -/
structure Atomic (α : Type u) where
  stores : List α
  seen : ℕ

namespace Atomic
variable {α : Type u}

/-- A variable that holds its initial value only. -/
def init (a : α) : Atomic α := ⟨[a], 0⟩

/-- Store a value. -/
def store (x : Atomic α) (a : α) : Atomic α := { x with stores := x.stores ++ [a] }

/-- The position of the last value stored. -/
def latest (x : Atomic α) : ℕ := x.stores.length - 1

/-- Load the value stored `i`-th. -/
def load? (x : Atomic α) (i : ℕ) : Option (α × Atomic α) :=
  if x.seen ≤ i then x.stores[i]?.map fun a => (a, { x with seen := i }) else none

@[simp] theorem stores_init (a : α) : (init a).stores = [a] := rfl
@[simp] theorem seen_init (a : α) : (init a).seen = 0 := rfl
@[simp] theorem stores_store (x : Atomic α) (a : α) : (x.store a).stores = x.stores ++ [a] := rfl
@[simp] theorem seen_store (x : Atomic α) (a : α) : (x.store a).seen = x.seen := rfl

/-- What a load can do, guards included. -/
theorem load?_eq_some {x y : Atomic α} {i : ℕ} {a : α} :
    x.load? i = some (a, y) ↔
      x.seen ≤ i ∧ x.stores[i]? = some a ∧ y = { x with seen := i } := by
  unfold load?
  split
  · rename_i h
    cases x.stores[i]? with
    | none => simp
    | some b => simp [h, eq_comm]
  · rename_i h
    simp [h]

end Atomic

end Papper
