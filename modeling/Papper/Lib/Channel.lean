import Mathlib.Algebra.BigOperators.Group.List.Basic
import Mathlib.Algebra.GroupWithZero.Nat
import Mathlib.Algebra.Order.BigOperators.Group.List
import Mathlib.Algebra.Order.Group.Nat
import Mathlib.Tactic.Common
import Papper.Lib.Transition

/-!
# A bounded channel

A channel that holds messages of some sizes up to a capacity, and between a sender and a
receiver that each do one thing at a time.  What a client is told is part of what happens: that
there is room, or none, that there is a message, or none.

An answer may be given in view of less than everything the other client has done.  A refusal says
how many receipts were out of view, and that the message would not fit if they had not happened;
an answer that nothing is there says the same of the last messages sent.  With nothing out of view
these are exact.  There is room is never said in error, and neither is that there is a message.

## Main definitions

* `Channel` — the messages sent, and how many of them were received.
* `Channel.Event`, `Channel.step` — what can happen.
-/

namespace Papper

open Transition

universe u
variable {α : Type u}

structure Channel (α : Type u) where
  sent : List α
  received : ℕ
  deriving DecidableEq

namespace Channel

inductive Event (α : Type u)
  /-- The sender is told that there is room. -/
  | granted (size : ℕ)
  /-- The sender is told that there is none, in view of all receipts but the last `unseen`. -/
  | refused (size unseen : ℕ)
  | send (a : α)
  /-- The receiver is told that there is a message. -/
  | found
  /-- The receiver is told that there is none, in view of all messages but the last `unseen`. -/
  | absent (unseen : ℕ)
  | receive (a : α)
  deriving DecidableEq

def empty : Channel α := ⟨[], 0⟩

/-- What the messages after the first `n` take up. -/
def sizeFrom (size : α → ℕ) (c : Channel α) (n : ℕ) : ℕ := ((c.sent.drop n).map size).sum

/-- What is in the channel. -/
def used (size : α → ℕ) (c : Channel α) : ℕ := c.sizeFrom size c.received

variable {size : α → ℕ} {c : Channel α}

/-- What comes after more messages takes up no more. -/
theorem sizeFrom_le {m n : ℕ} (h : m ≤ n) : c.sizeFrom size n ≤ c.sizeFrom size m := by
  obtain ⟨d, rfl⟩ := Nat.exists_eq_add_of_le h
  rw [sizeFrom, sizeFrom, ← List.drop_drop]
  exact ((List.drop_sublist d _).map size).sum_le_sum fun _ _ => Nat.zero_le _

def step [DecidableEq α] (size : α → ℕ) (capacity : ℕ) (c : Channel α) :
    Event α → Option (Channel α)
  | .granted n => if c.used size + n ≤ capacity then some c else none
  | .refused n unseen =>
      if unseen ≤ c.received ∧ capacity < c.sizeFrom size (c.received - unseen) + n then some c
      else none
  | .send a =>
      if c.used size + size a ≤ capacity then some { c with sent := c.sent ++ [a] } else none
  | .found => if c.received < c.sent.length then some c else none
  | .absent unseen => if c.received + unseen = c.sent.length then some c else none
  | .receive a =>
      if c.sent[c.received]? = some a then some { c with received := c.received + 1 } else none

variable [DecidableEq α] {capacity : ℕ} {c' : Channel α}

/-- Every message received was sent. -/
theorem received_le_step (h : c.received ≤ c.sent.length) {e : Event α}
    (hstep : step size capacity c e = some c') : c'.received ≤ c'.sent.length := by
  cases e with
  | send a =>
      simp only [step, Option.ite_none_right_eq_some, Option.some.injEq] at hstep
      obtain ⟨-, rfl⟩ := hstep
      simp only [List.length_append]
      omega
  | receive a =>
      simp only [step, Option.ite_none_right_eq_some, Option.some.injEq] at hstep
      obtain ⟨ha, rfl⟩ := hstep
      exact (List.getElem?_eq_some_iff.mp ha).1
  | _ =>
      simp only [step, Option.ite_none_right_eq_some, Option.some.injEq] at hstep
      exact hstep.2 ▸ h

/-- No step overfills it. -/
theorem used_le_step (h : c.received ≤ c.sent.length) (hused : c.used size ≤ capacity) {e : Event α}
    (hstep : step size capacity c e = some c') : c'.used size ≤ capacity := by
  cases e with
  | send a =>
      simp only [step, Option.ite_none_right_eq_some, Option.some.injEq] at hstep
      obtain ⟨hroom, rfl⟩ := hstep
      simp only [used, sizeFrom] at hroom ⊢
      rw [List.drop_append_of_le_length h]
      simpa using hroom
  | receive a =>
      simp only [step, Option.ite_none_right_eq_some, Option.some.injEq] at hstep
      obtain ⟨-, rfl⟩ := hstep
      have hle : c.sizeFrom size (c.received + 1) ≤ c.used size := sizeFrom_le (Nat.le_succ _)
      exact hle.trans hused
  | _ =>
      simp only [step, Option.ite_none_right_eq_some, Option.some.injEq] at hstep
      exact hstep.2 ▸ hused

/-- **It is never overfull.** -/
theorem exec_used_le {es : List (Event α)} (hexec : exec (step size capacity) empty es = some c) :
    c.used size ≤ capacity := by
  have hall : c.received ≤ c.sent.length ∧ c.used size ≤ capacity :=
    exec_induction (fun c => c.received ≤ c.sent.length ∧ c.used size ≤ capacity)
      (fun _ _ _ h hstep => ⟨received_le_step h.1 hstep, used_le_step h.1 h.2 hstep⟩)
      ⟨Nat.zero_le _, Nat.zero_le _⟩ hexec
  exact hall.2

end Channel

end Papper
