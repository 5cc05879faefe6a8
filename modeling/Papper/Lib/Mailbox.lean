import Mathlib.Data.List.Induction
import Mathlib.Data.Nat.Notation
import Mathlib.Tactic.Common

/-!
# A mailbox of one slot

One side hands values over through an atomic pointer, each taking the place of the one
that waits there, and the other side empties the slot now and then and goes on with what
it found.  The value in use is therefore the last one handed over before the slot was
emptied last.

`Mailbox.Tracks` says so in numbers: values are stamped with the number of the call that
handed them over, and the stamp of the one in use is the number of calls there were when
the slot was last looked into.

## Main definitions

* `Mailbox`, `Mailbox.queue`, `Mailbox.poll` — the mailbox.
* `Mailbox.Event`, `Mailbox.run` — what happens to it, and what becomes of it.
* `Stamped`, `Mailbox.Tracks` — numbered values, and what their numbers say.
-/

namespace Papper

variable {α : Type}

/-- The value in use, and the one that waits. -/
structure Mailbox (α : Type) where
  current : α
  pending : Option α

namespace Mailbox

/-- Hand a value over. -/
def queue (m : Mailbox α) (a : α) : Mailbox α := { m with pending := some a }

/-- Empty the slot. -/
def poll (m : Mailbox α) : Mailbox α := ⟨m.pending.getD m.current, none⟩

inductive Event (α : Type)
  | queue (a : α)
  | poll
  deriving DecidableEq

def event (m : Mailbox α) : Event α → Mailbox α
  | .queue a => m.queue a
  | .poll => m.poll

/-- What becomes of the mailbox. -/
def run (m : Mailbox α) (es : List (Event α)) : Mailbox α := es.foldl event m

/-- The values handed over. -/
def queued (es : List (Event α)) : List α :=
  es.filterMap fun
    | .queue a => some a
    | .poll => none

theorem run_append (m : Mailbox α) (es es' : List (Event α)) :
    m.run (es ++ es') = (m.run es).run es' :=
  List.foldl_append

theorem queued_append (es es' : List (Event α)) : queued (es ++ es') = queued es ++ queued es' :=
  List.filterMap_append

/-- The value in use or waiting is the last one handed over. -/
theorem getD_run (m : Mailbox α) (es : List (Event α)) :
    (m.run es).pending.getD (m.run es).current
      = (queued es).getLast?.getD (m.pending.getD m.current) := by
  induction es using List.reverseRecOn with
  | nil => rfl
  | append_singleton es e ih =>
      rw [run_append, queued_append]
      cases e with
      | queue a =>
          have hlast : (queued es ++ queued [.queue a]).getLast? = some a := by simp [queued]
          rw [hlast]
          rfl
      | poll =>
          have hnone : queued [Event.poll] = ([] : List α) := rfl
          rw [hnone, List.append_nil, ← ih]
          rfl

/-- While nobody looks, the value in use stays. -/
theorem current_run (m : Mailbox α) {es : List (Event α)} (h : .poll ∉ es) :
    (m.run es).current = m.current := by
  induction es using List.reverseRecOn with
  | nil => rfl
  | append_singleton es e ih =>
      rw [List.mem_append, not_or] at h
      cases e with
      | queue a =>
          rw [run_append, ← ih h.1]
          rfl
      | poll => exact absurd (List.mem_singleton_self _) h.2

/-- **The value in use is the last one handed over before the slot was emptied last.** -/
theorem current_run_poll (a : α) (before : List (Event α)) {after : List (Event α)}
    (h : .poll ∉ after) :
    (run ⟨a, none⟩ (before ++ .poll :: after)).current = (queued before).getLast?.getD a := by
  have hpoll : run ⟨a, none⟩ (before ++ [.poll]) = (run ⟨a, none⟩ before).poll := by
    rw [run_append]
    rfl
  have hsplit : before ++ Event.poll :: after = before ++ [.poll] ++ after := by simp
  rw [hsplit, run_append, current_run _ h, hpoll]
  exact getD_run ⟨a, none⟩ before

end Mailbox

/-- A value and the number of the call that handed it over.  The initial value has number
0. -/
structure Stamped (α : Type) where
  value : α
  stamp : ℕ
  deriving DecidableEq

/-- The values without their numbers. -/
def Mailbox.values (m : Mailbox (Stamped α)) : Mailbox α :=
  ⟨m.current.value, m.pending.map Stamped.value⟩

@[simp] theorem Mailbox.values_queue (m : Mailbox (Stamped α)) (a : Stamped α) :
    (m.queue a).values = m.values.queue a.value := rfl

@[simp] theorem Mailbox.values_poll (m : Mailbox (Stamped α)) : m.poll.values = m.values.poll := by
  cases hp : m.pending <;> simp [Mailbox.poll, Mailbox.values, hp]

/-- There were `calls` calls, of which `polled` came before the slot was last looked
into. -/
structure Mailbox.Tracks (m : Mailbox (Stamped α)) (calls polled : ℕ) : Prop where
  current : m.current.stamp = polled
  polled_le : polled ≤ calls
  of_none : m.pending = none → polled = calls
  of_some : ∀ p, m.pending = some p → p.stamp = calls

namespace Mailbox.Tracks
variable {m : Mailbox (Stamped α)} {calls polled : ℕ}

theorem init (a : α) : Tracks ⟨⟨a, 0⟩, none⟩ 0 0 := ⟨rfl, Nat.le_refl _, fun _ => rfl, by simp⟩

theorem queue (h : m.Tracks calls polled) (a : α) :
    (m.queue ⟨a, calls + 1⟩).Tracks (calls + 1) polled where
  current := h.current
  polled_le := Nat.le_succ_of_le h.polled_le
  of_none := by simp [Mailbox.queue]
  of_some := by
    intro p hp
    cases hp
    rfl

/-- **After a poll the value in use is the last one handed over.** -/
theorem poll (h : m.Tracks calls polled) : m.poll.Tracks calls calls where
  current := by
    cases hp : m.pending with
    | none => simpa [Mailbox.poll, hp] using h.current.trans (h.of_none hp)
    | some p => simpa [Mailbox.poll, hp] using h.of_some p hp
  polled_le := Nat.le_refl _
  of_none := fun _ => rfl
  of_some := by simp [Mailbox.poll]

end Mailbox.Tracks

end Papper
