import Mathlib.Algebra.BigOperators.Group.List.Basic
import Mathlib.Algebra.GroupWithZero.Nat
import Mathlib.Tactic.Common

/-!
# A bounded FIFO of messages

A queue with room for a number of bytes, as its two clients see it.  The writer asks for a
buffer of some size and is given one if that many bytes are free; it may fill a part of it,
and hand in a message that fills it exactly.  The reader asks for the front message, reads
it, and takes it out.  Buffers that are not handed in, and reads that are not completed,
leave no trace.

A call is not enabled where a client has no right to it: only a buffer that was granted is
filled or handed in, and only a message that was found is read or taken out, with its own
size.

## Main definitions

* `Call`, `Answer` — the calls, and what they answer.
* `BoundedFifo`, `BoundedFifo.step` — the queue.
-/

namespace Papper

universe u
variable {α : Type u}

namespace BoundedFifo

/-- A call of one of the two clients; sizes are machine words. -/
inductive Call (α : Type u)
  | reserveWrite (size : UInt64)
  /-- Fill the beginning of the buffer. -/
  | fill (a : α)
  /-- Fill the buffer with a message and hand it in. -/
  | commitWrite (a : α)
  | isEmpty
  | reserveRead
  /-- Read a message of this size. -/
  | read (size : ℕ)
  /-- Take it out. -/
  | commitRead (size : ℕ)
  deriving DecidableEq

inductive Answer (α : Type u)
  | done
  | yes
  | no
  | message (a : α)
  deriving DecidableEq

/-- The answer to a question. -/
def Answer.of (p : Prop) [Decidable p] : Answer α := if p then yes else no

theorem Answer.of_congr {p q : Prop} [Decidable p] [Decidable q] (h : p ↔ q) :
    (Answer.of p : Answer α) = Answer.of q := by
  simp only [Answer.of, h]

end BoundedFifo

/-- The messages in the queue, the oldest first, the size of the buffer the writer holds,
and whether the reader has been given the front. -/
structure BoundedFifo (α : Type u) where
  contents : List α
  writing : Option UInt64
  reading : Bool
  deriving DecidableEq

namespace BoundedFifo

def empty : BoundedFifo α := ⟨[], none, false⟩

/-- The number of bytes in the queue. -/
def used (size : α → ℕ) (s : BoundedFifo α) : ℕ := (s.contents.map size).sum

/-- A call, for messages of these sizes and room for `capacity` bytes. -/
def step (size : α → ℕ) (capacity : ℕ) (s : BoundedFifo α) :
    Call α → Option (Answer α × BoundedFifo α)
  | .reserveWrite n =>
      if n.toNat ≤ capacity - s.used size then some (.yes, { s with writing := some n })
      else some (.no, s)
  | .fill a =>
      match s.writing with
      | some n => if size a ≤ n.toNat then some (.done, s) else none
      | none => none
  | .commitWrite a =>
      match s.writing with
      | some n =>
          if size a = n.toNat ∧ 0 < size a then
            some (.done, { s with contents := s.contents ++ [a], writing := none })
          else none
      | none => none
  | .isEmpty => some (.of (s.contents.length = 0), s)
  | .reserveRead =>
      some (.of (0 < s.contents.length), { s with reading := decide (0 < s.contents.length) })
  | .read n =>
      match s.contents with
      | a :: _ => if s.reading ∧ size a = n then some (.message a, s) else none
      | [] => none
  | .commitRead n =>
      match s.contents with
      | a :: rest =>
          if s.reading ∧ size a = n then some (.done, { s with contents := rest, reading := false })
          else none
      | [] => none

end BoundedFifo

end Papper
