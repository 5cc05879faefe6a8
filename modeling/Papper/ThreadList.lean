import Mathlib.Data.List.Nodup
import Mathlib.Logic.Function.Basic
import Mathlib.Tactic.Common
import Papper.Lib.Linked
import Papper.Lib.Transition

/-!
# The list of threads

Every thread that logs pushes a node in front of a singly linked list, and the backend,
which alone removes nodes, walks the list in `poll_threads`.  A thread retries its
compare-exchange until it succeeds; it may fail for no reason.  The backend removes the
head by a compare-exchange too, and any other node by a plain write to its predecessor,
which it finds by walking from the head it saw.

The machine takes one step for each load, compare-exchange and write of a next pointer.
Nodes are at addresses, and the address of a deleted node may be allocated again.  An
access to a node or a context that is not there is a fault.  What the backend finds at a
context, events or a dead thread, is left open: `Action.visit` says what becomes of it.

## Main definitions

* `State`, `step` — the list, the registering threads and the backend.
* `members` — the contexts that were inserted and not unlinked.
-/

namespace Papper.ThreadList

variable {ι : Type}

/-- `ThreadContextNode`. -/
structure Node (ι : Type) where
  context : ι
  next : Option ℕ
  deriving DecidableEq

/-- Where a thread is in `register_thread`. -/
inductive Registration
  | notStarted
  | loadHead (node : ℕ)
  /-- About to write `node->next`, by the assignment or by a compare-exchange that
  failed. -/
  | writeNext (node : ℕ) (value : Option ℕ)
  | compareExchange (node : ℕ)
  | done
  deriving DecidableEq

/-- Where the backend is in `poll_threads`: `next` is the local variable of that name. -/
inductive Pc
  | outside
  /-- About to read `node->next`. -/
  | node (n : ℕ)
  | visit (n : ℕ) (next : Option ℕ)
  /-- In `remove_and_delete_node`, about to read `node->next`. -/
  | remove (n : ℕ) (next : Option ℕ)
  | compareExchange (n : ℕ) (next desired : Option ℕ)
  | walk (n : ℕ) (next previous current : Option ℕ)
  /-- About to read `current->next`. -/
  | readNext (n : ℕ) (next previous : Option ℕ)
  /-- About to write `previous->next`. -/
  | unlink (n : ℕ) (next previous value : Option ℕ)
  | deleteContext (n : ℕ) (next : Option ℕ)
  | deleteNode (n : ℕ) (next : Option ℕ)
  deriving DecidableEq

/-- The list and the threads at work on it.  The contexts in the fields from `inserted`
on are a record of what happened and are not read, but for `deletedContexts`. -/
structure State (ι : Type) where
  heap : ℕ → Option (Node ι)
  head : Option ℕ
  registration : ι → Registration
  pc : Pc
  fault : Bool
  /-- By a compare-exchange that succeeded, the last one first. -/
  inserted : List ι
  /-- The arguments of `remove_and_delete_node`. -/
  requested : List ι
  unlinked : List ι
  deletedContexts : List ι
  deletedNodes : List ι
  /-- The members when the current pass, or the last one, loaded the head. -/
  snapshot : List ι
  /-- Those it has visited. -/
  visited : List ι

def init : State ι :=
  ⟨fun _ => none, none, fun _ => .notStarted, .outside, false, [], [], [], [], [], [], []⟩

/-- `while (node != nullptr)`. -/
def enter : Option ℕ → Pc
  | none => .outside
  | some n => .node n

def nextOf (heap : ℕ → Option (Node ι)) (n : ℕ) : Option ℕ := (heap n).bind Node.next

def contextOf (heap : ℕ → Option (Node ι)) (n : ℕ) : Option ι := (heap n).map Node.context

inductive Action (ι : Type)
  /-- A thread enters `register_thread` and gets its node at this address. -/
  | register (i : ι) (n : ℕ)
  /-- The next step of its registration; a compare-exchange may fail spuriously. -/
  | registrar (i : ι) (spurious : Bool)
  /-- The load of the head in `poll_threads`. -/
  | poll
  /-- The backend is done with the context, and found its thread dead or not. -/
  | visit (dead : Bool)
  /-- The next step of the backend. -/
  | backend
  deriving DecidableEq

section Step
variable [DecidableEq ι]

/-- The contexts that were inserted and not unlinked, the last inserted first. -/
def State.members (s : State ι) : List ι := s.inserted.filter (· ∉ s.unlinked)

/-- The node at an address, for an access that faults when there is none. -/
def State.access (s : State ι) (n : ℕ) (k : Node ι → State ι) : State ι :=
  match s.heap n with
  | none => { s with fault := true }
  | some node => k node

/-- A step of `register_thread`. -/
def registrar (s : State ι) (i : ι) (spurious : Bool) : Option (State ι) :=
  match s.registration i with
  | .notStarted => none
  | .loadHead n =>
      some { s with registration := Function.update s.registration i (.writeNext n s.head) }
  | .writeNext n value =>
      some (s.access n fun node =>
        { s with
          heap := Function.update s.heap n (some { node with next := value })
          registration := Function.update s.registration i (.compareExchange n) })
  | .compareExchange n =>
      some (s.access n fun node =>
        if s.head = node.next ∧ spurious = false then
          { s with
            head := some n
            registration := Function.update s.registration i .done
            inserted := i :: s.inserted }
        else { s with registration := Function.update s.registration i (.writeNext n s.head) })
  | .done => none

/-- A step of `poll_threads` between the visits of the contexts. -/
def backend (s : State ι) : Option (State ι) :=
  match s.pc with
  | .outside => none
  | .node n => some (s.access n fun node => { s with pc := .visit n node.next })
  | .visit _ _ => none
  | .remove n next => some (s.access n fun node => { s with pc := .compareExchange n next node.next })
  | .compareExchange n next desired =>
      if s.head = some n then
        some (s.access n fun node =>
          { s with
            head := desired
            pc := .deleteContext n next
            unlinked := s.unlinked ++ [node.context] })
      else some { s with pc := .walk n next none s.head }
  | .walk n next previous current =>
      match current with
      | none => some { s with pc := enter next }
      | some c =>
          if c = n then some { s with pc := .readNext n next previous }
          else some (s.access c fun node => { s with pc := .walk n next (some c) node.next })
  | .readNext n next previous =>
      some (s.access n fun node => { s with pc := .unlink n next previous node.next })
  | .unlink n next previous value =>
      match previous with
      | none => some { s with fault := true }
      | some p =>
          some (s.access n fun removed => s.access p fun node =>
            { s with
              heap := Function.update s.heap p (some { node with next := value })
              pc := .deleteContext n next
              unlinked := s.unlinked ++ [removed.context] })
  | .deleteContext n next =>
      some (s.access n fun node =>
        if node.context ∈ s.deletedContexts then { s with fault := true }
        else
          { s with
            deletedContexts := s.deletedContexts ++ [node.context]
            pc := .deleteNode n next })
  | .deleteNode n next =>
      some (s.access n fun node =>
        { s with
          heap := Function.update s.heap n none
          deletedNodes := s.deletedNodes ++ [node.context]
          pc := enter next })

def step (s : State ι) : Action ι → Option (State ι)
  | .register i n =>
      if s.fault = false ∧ s.registration i = .notStarted ∧ s.heap n = none then
        some { s with
          heap := Function.update s.heap n (some ⟨i, none⟩)
          registration := Function.update s.registration i (.loadHead n) }
      else none
  | .registrar i spurious => if s.fault then none else registrar s i spurious
  | .poll =>
      if s.fault = false ∧ s.pc = .outside then
        some { s with pc := enter s.head, snapshot := s.members, visited := [] }
      else none
  | .visit dead =>
      match s.pc with
      | .visit n next =>
          if s.fault then none
          else
            some (s.access n fun node =>
              if node.context ∈ s.deletedContexts then { s with fault := true }
              else if dead then
                { s with
                  pc := .remove n next
                  visited := s.visited ++ [node.context]
                  requested := s.requested ++ [node.context] }
              else { s with pc := enter next, visited := s.visited ++ [node.context] })
      | _ => none
  | .backend => if s.fault then none else backend s

end Step

end Papper.ThreadList
