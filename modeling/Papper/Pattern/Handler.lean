import Papper.Lib.Lifetime
import Papper.Lib.Mailbox
import Papper.Lib.Transition

/-!
# Handing a formatter over

`PatternFormatterHandler` owns the formatter in use and a slot for the next one, an atomic
pointer that any thread may exchange.  A formatter has one owner at any time: the thread
that allocated it and is about to put it into the slot, the slot, the backend that has taken
it out, the handler, or the thread that has found it in the slot and is about to delete it.
Whoever takes a formatter out of the slot and does not put it to use deletes it.

The machine takes one step for each exchange, each `delete` and each call of `format`.
Formatters are numbered in the order of their allocation, 0 being the one of the default
pattern.  `ops` is a record that nothing reads.

## Main definitions

* `Op` — what is recorded.
* `Machine`, `step` — the handler, the threads that queue formatters, and the backend.
* `Acts` — what a step can do.
* `Sound` — what is asked of the handler.
* `owners` — how many of the places that hold a formatter hold this one.
* `Machine.mailbox` — what the callers and the backend see of it.
* `exec_sound` — it is so in every run.
-/

namespace Papper.Handler

open Transition Lifetime

inductive Op
  /-- `queue_new_formatter` puts a formatter into the slot. -/
  | exchange (f : ℕ)
  /-- `poll_for_pending_formatter_switch` empties the slot. -/
  | poll
  | format (f : ℕ)
  | delete (f : ℕ)
  deriving DecidableEq

namespace Op

/-- The formatter an operation needs. -/
def touches : Op → Option ℕ
  | format f | delete f => some f
  | _ => none

/-- The formatter an operation deletes. -/
def ends : Op → Option ℕ
  | delete f => some f
  | _ => none

/-- What an operation is to the slot. -/
def event : Op → Option (Mailbox.Event ℕ)
  | exchange f => some (.queue f)
  | poll => some .poll
  | _ => none

end Op

/-- The formatters deleted. -/
def deleted (ops : List Op) : List ℕ := ended Op.ends ops

/-- What happened to the slot. -/
def events (ops : List Op) : List (Mailbox.Event ℕ) := ops.filterMap Op.event

/-- Where a thread is in `queue_new_formatter`. -/
inductive Call
  | exchange (formatter : ℕ)
  | deletePrev (prev : ℕ)
  deriving DecidableEq

/-- Where the backend is in `poll_for_pending_formatter_switch`, or the last thread in the
destructor. -/
inductive Pc
  | idle
  /-- About to delete the formatter in use. -/
  | deleteOld (newFormatter : ℕ)
  /-- About to assign to `_formatter`. -/
  | install (newFormatter : ℕ)
  | deletePending (pending : ℕ)
  | deleteLast
  | destroyed
  deriving DecidableEq

/-- The handler, with the calls of the threads `ι`. -/
structure Machine (ι : Type) where
  formatter : ℕ
  pendingNewFormatter : Option ℕ
  calls : ι → Option Call
  pc : Pc
  /-- How many formatters have been allocated. -/
  allocated : ℕ
  ops : List Op

variable {ι : Type}

/-- The constructor allocates the default formatter. -/
def init : Machine ι := ⟨0, none, fun _ => none, .idle, 1, []⟩

inductive Action (ι : Type)
  /-- A thread enters `queue_new_formatter`, with a new formatter or with null. -/
  | queueNewFormatter (t : ι) (null : Bool)
  /-- The next step of its call. -/
  | caller (t : ι)
  /-- The exchange of `poll_for_pending_formatter_switch`. -/
  | poll
  | format
  /-- The exchange of `~PatternFormatterHandler`, once no call is left to return. -/
  | destroy
  /-- The next step of the backend, or of the destructor. -/
  | next
  deriving DecidableEq

/-- The steps after the exchange. -/
def nextStep (s : Machine ι) : Option (Machine ι) :=
  match s.pc with
  | .deleteOld f => some { s with ops := s.ops ++ [.delete s.formatter], pc := .install f }
  | .install f => some { s with formatter := f, pc := .idle }
  | .deletePending f => some { s with ops := s.ops ++ [.delete f], pc := .deleteLast }
  | .deleteLast => some { s with ops := s.ops ++ [.delete s.formatter], pc := .destroyed }
  | .idle => none
  | .destroyed => none

/-- The handler is not being destroyed. -/
def Pc.usable : Pc → Bool
  | deletePending _ => false
  | deleteLast => false
  | destroyed => false
  | _ => true

def step [DecidableEq ι] [Fintype ι] (s : Machine ι) : Action ι → Option (Machine ι)
  | .queueNewFormatter t null =>
      if s.pc.usable ∧ s.calls t = none then
        if null then some s
        else
          some { s with
            calls := Function.update s.calls t (some (.exchange s.allocated))
            allocated := s.allocated + 1 }
      else none
  | .caller t =>
      match s.calls t with
      | some (.exchange f) =>
          some { s with
            pendingNewFormatter := some f
            calls := Function.update s.calls t (s.pendingNewFormatter.map .deletePrev)
            ops := s.ops ++ [.exchange f] }
      | some (.deletePrev prev) =>
          some { s with
            calls := Function.update s.calls t none
            ops := s.ops ++ [.delete prev] }
      | none => none
  | .poll =>
      if s.pc = .idle then
        some { s with
          pendingNewFormatter := none
          pc := s.pendingNewFormatter.elim .idle .deleteOld
          ops := s.ops ++ [.poll] }
      else none
  | .format =>
      if s.pc = .idle then some { s with ops := s.ops ++ [.format s.formatter] } else none
  | .destroy =>
      if s.pc = .idle ∧ ∀ t, s.calls t = none then
        some { s with
          pendingNewFormatter := none
          pc := s.pendingNewFormatter.elim .deleteLast .deletePending }
      else none
  | .next => nextStep s

/-- What an action can do, and where its party has to be. -/
inductive Acts [DecidableEq ι] (s : Machine ι) : Action ι → Machine ι → Prop
  | queueNull {t : ι} : Acts s (.queueNewFormatter t true) s
  | queueNew {t : ι} (husable : s.pc.usable = true) (hcall : s.calls t = none) :
      Acts s (.queueNewFormatter t false)
        { s with
          calls := Function.update s.calls t (some (.exchange s.allocated))
          allocated := s.allocated + 1 }
  | exchange {t : ι} {f : ℕ} (hcall : s.calls t = some (.exchange f)) :
      Acts s (.caller t)
        { s with
          pendingNewFormatter := some f
          calls := Function.update s.calls t (s.pendingNewFormatter.map .deletePrev)
          ops := s.ops ++ [.exchange f] }
  | deletePrev {t : ι} {prev : ℕ} (hcall : s.calls t = some (.deletePrev prev)) :
      Acts s (.caller t)
        { s with
          calls := Function.update s.calls t none
          ops := s.ops ++ [.delete prev] }
  | poll (hpc : s.pc = .idle) :
      Acts s .poll
        { s with
          pendingNewFormatter := none
          pc := s.pendingNewFormatter.elim .idle .deleteOld
          ops := s.ops ++ [.poll] }
  | format (hpc : s.pc = .idle) :
      Acts s .format { s with ops := s.ops ++ [.format s.formatter] }
  | destroy (hpc : s.pc = .idle) (hcalls : ∀ t, s.calls t = none) :
      Acts s .destroy
        { s with
          pendingNewFormatter := none
          pc := s.pendingNewFormatter.elim .deleteLast .deletePending }
  | deleteOld {f : ℕ} (hpc : s.pc = .deleteOld f) :
      Acts s .next { s with ops := s.ops ++ [.delete s.formatter], pc := .install f }
  | install {f : ℕ} (hpc : s.pc = .install f) :
      Acts s .next { s with formatter := f, pc := .idle }
  | deletePending {f : ℕ} (hpc : s.pc = .deletePending f) :
      Acts s .next { s with ops := s.ops ++ [.delete f], pc := .deleteLast }
  | deleteLast (hpc : s.pc = .deleteLast) :
      Acts s .next { s with ops := s.ops ++ [.delete s.formatter], pc := .destroyed }

/-- **Every step is an action**, taken where it is enabled. -/
theorem acts_of_step [DecidableEq ι] [Fintype ι] {s s' : Machine ι} {a : Action ι}
    (hstep : step s a = some s') : Acts s a s' := by
  cases a with
  | queueNewFormatter t null =>
      by_cases hcall : s.pc.usable ∧ s.calls t = none
      · rw [step, if_pos hcall] at hstep
        cases null with
        | true =>
            cases hstep
            exact .queueNull
        | false =>
            cases hstep
            exact .queueNew hcall.1 hcall.2
      · rw [step, if_neg hcall] at hstep
        cases hstep
  | caller t =>
      rw [step] at hstep
      cases hcall : s.calls t with
      | none =>
          rw [hcall] at hstep
          cases hstep
      | some call =>
          rw [hcall] at hstep
          cases call with
          | exchange f =>
              cases hstep
              exact .exchange hcall
          | deletePrev prev =>
              cases hstep
              exact .deletePrev hcall
  | poll =>
      by_cases hpc : s.pc = .idle
      · rw [step, if_pos hpc] at hstep
        cases hstep
        exact .poll hpc
      · rw [step, if_neg hpc] at hstep
        cases hstep
  | format =>
      by_cases hpc : s.pc = .idle
      · rw [step, if_pos hpc] at hstep
        cases hstep
        exact .format hpc
      · rw [step, if_neg hpc] at hstep
        cases hstep
  | destroy =>
      by_cases hpc : s.pc = .idle ∧ ∀ t, s.calls t = none
      · rw [step, if_pos hpc] at hstep
        cases hstep
        exact .destroy hpc.1 hpc.2
      · rw [step, if_neg hpc] at hstep
        cases hstep
  | next =>
      rw [step, nextStep] at hstep
      cases hpc : s.pc with
      | idle | destroyed =>
          rw [hpc] at hstep
          cases hstep
      | deleteOld f =>
          rw [hpc] at hstep
          cases hstep
          exact .deleteOld hpc
      | install f =>
          rw [hpc] at hstep
          cases hstep
          exact .install hpc
      | deletePending f =>
          rw [hpc] at hstep
          cases hstep
          exact .deletePending hpc
      | deleteLast =>
          rw [hpc] at hstep
          cases hstep
          exact .deleteLast hpc

/-- What is asked of the handler. -/
structure Sound (s : Machine ι) : Prop where
  /-- No formatter is used or deleted once it is deleted. -/
  safe : NoUseAfter Op.touches Op.ends s.ops
  /-- Once the backend is done with a poll, and until the next one, the formatter in use is
  the one whose exchange came last before the poll; it is the default one if there was no
  exchange. -/
  newest : s.pc = .idle → ∀ pre post, s.ops = pre ++ .poll :: post → .poll ∉ post →
    s.formatter = (Mailbox.queued (events pre)).getLast?.getD 0
  /-- Before the first poll it is the default one. -/
  first : s.pc = .idle → .poll ∉ s.ops → s.formatter = 0
  /-- When the handler is destroyed, every formatter that was allocated has been deleted
  once. -/
  deleted_once : s.pc = .destroyed → ∀ f < s.allocated, (deleted s.ops).count f = 1

/-! ## Owners -/

section Owners
variable (n : ℕ)

def holds (f : ℕ) : ℕ := if f = n then 1 else 0

def Call.holds : Call → ℕ
  | .exchange f => Handler.holds n f
  | .deletePrev prev => Handler.holds n prev

/-- What a place for a call holds. -/
def callHolds (c : Option Call) : ℕ := c.elim 0 (Call.holds n)

/-- The formatter in the hands of the backend or of the destructor. -/
def Pc.holds : Pc → ℕ
  | .deleteOld f => Handler.holds n f
  | .install f => Handler.holds n f
  | .deletePending f => Handler.holds n f
  | _ => 0

/-- The formatter in use, except once it is deleted. -/
def Machine.holdsFormatter (s : Machine ι) : ℕ :=
  match s.pc with
  | .install _ => 0
  | .destroyed => 0
  | _ => Handler.holds n s.formatter

/-- How many of the places that hold a formatter hold this one. -/
def owners [Fintype ι] (s : Machine ι) : ℕ :=
  s.pendingNewFormatter.elim 0 (holds n) + ∑ t, callHolds n (s.calls t) + s.pc.holds n +
    s.holdsFormatter n

end Owners

/-- A formatter that was allocated has an owner or was deleted, and any other has none and
was not. -/
def Owned [Fintype ι] (s : Machine ι) : Prop :=
  ∀ n, (deleted s.ops).count n + owners n s = if n < s.allocated then 1 else 0

theorem holds_self (n : ℕ) : holds n n = 1 := if_pos rfl

theorem deleted_append (ops ops' : List Op) : deleted (ops ++ ops') = deleted ops ++ deleted ops' :=
  ended_append _ _ _

theorem count_delete (f n : ℕ) : (deleted [.delete f]).count n = holds n f := by
  by_cases h : f = n
  · simp [deleted, ended, Op.ends, holds, h]
  · simp [deleted, ended, Op.ends, holds, h]

section Step
variable [DecidableEq ι] [Fintype ι] {s s' : Machine ι}

/-- **Every step keeps the owners.** -/
theorem step_owned {a : Action ι} (h : Owned s) (hstep : step s a = some s') : Owned s' := by
  intro n
  have hn := h n
  have hdelete := count_delete s.formatter n
  cases acts_of_step hstep with
  | queueNull => exact hn
  | @queueNew t husable hcall =>
      have hsum := sum_update_add s.calls t (some (.exchange s.allocated)) (callHolds n)
      rw [hcall] at hsum
      simp only [callHolds, Option.elim, Call.holds, holds] at hsum
      simp only [owners, Machine.holdsFormatter, callHolds, Option.elim] at hn ⊢
      by_cases hnew : s.allocated = n
      · rw [if_neg (by omega)] at hn
        rw [if_pos hnew] at hsum
        rw [if_pos (by omega)]
        omega
      · rw [if_neg hnew] at hsum
        have hiff : n < s.allocated + 1 ↔ n < s.allocated := by omega
        simp only [hiff]
        omega
  | @exchange t f hcall =>
      have hnone : deleted [.exchange f] = [] := rfl
      have hsum := sum_update_add s.calls t (s.pendingNewFormatter.map .deletePrev) (callHolds n)
      have hprev : callHolds n (s.pendingNewFormatter.map .deletePrev)
          = s.pendingNewFormatter.elim 0 (holds n) := by
        cases s.pendingNewFormatter <;> rfl
      have hheld : callHolds n (some (.exchange f)) = holds n f := rfl
      rw [hcall, hprev, hheld] at hsum
      simp only [owners, Machine.holdsFormatter, deleted_append, hnone, List.append_nil,
        Option.elim_some] at hn ⊢
      omega
  | @deletePrev t prev hcall =>
      have hsum := sum_update_add s.calls t none (callHolds n)
      have hheld : callHolds n (some (.deletePrev prev)) = holds n prev := rfl
      have hempty : callHolds n none = 0 := rfl
      rw [hcall, hheld, hempty] at hsum
      simp only [owners, Machine.holdsFormatter, deleted_append, List.count_append, count_delete]
        at hn ⊢
      omega
  | poll hpc =>
      have hnone : deleted [.poll] = [] := rfl
      cases hp : s.pendingNewFormatter with
      | none =>
          simp only [owners, Machine.holdsFormatter, Pc.holds, hp, hpc, Option.elim_none,
            deleted_append, hnone, List.append_nil] at hn ⊢
          omega
      | some f =>
          simp only [owners, Machine.holdsFormatter, Pc.holds, hp, hpc, Option.elim_some,
            Option.elim_none, deleted_append, hnone, List.append_nil] at hn ⊢
          omega
  | format =>
      have hnone : deleted [.format s.formatter] = [] := rfl
      simpa only [owners, Machine.holdsFormatter, deleted_append, hnone, List.append_nil] using hn
  | destroy hpc =>
      cases hp : s.pendingNewFormatter with
      | none =>
          simp only [owners, Machine.holdsFormatter, Pc.holds, hp, hpc, Option.elim_none] at hn ⊢
          omega
      | some f =>
          simp only [owners, Machine.holdsFormatter, Pc.holds, hp, hpc, Option.elim_some,
            Option.elim_none] at hn ⊢
          omega
  | install hpc =>
      simp only [owners, Machine.holdsFormatter, Pc.holds, hpc] at hn ⊢
      omega
  | deleteOld hpc | deleteLast hpc =>
      simp only [owners, Machine.holdsFormatter, Pc.holds, hpc, deleted_append, List.count_append,
        hdelete] at hn ⊢
      omega
  | deletePending hpc =>
      simp only [owners, Machine.holdsFormatter, Pc.holds, hpc, deleted_append, List.count_append,
        count_delete] at hn ⊢
      omega

/-! ## Every operation is that of an owner -/

omit [DecidableEq ι] in
/-- A formatter with an owner is not deleted. -/
theorem Owned.not_deleted (h : Owned s) {f : ℕ} (hf : 0 < owners f s) : f ∉ deleted s.ops := by
  have hn := h f
  have hle : (if f < s.allocated then 1 else 0) ≤ 1 := by split <;> decide
  exact List.count_eq_zero.mp (by omega)

/-- What a place holds is among what all places hold. -/
theorem owners_call_pos {t : ι} {f : ℕ} (h : s.calls t = some (.deletePrev f)) :
    0 < owners f s := by
  have hsum := sum_update_add s.calls t none (callHolds f)
  have hheld : callHolds f (some (.deletePrev f)) = 1 := holds_self f
  rw [h, hheld] at hsum
  have hempty : callHolds f none = 0 := rfl
  simp only [owners]
  omega

omit [DecidableEq ι] in
/-- The formatter in use has an owner until it is deleted. -/
theorem owners_formatter_pos (h : s.holdsFormatter s.formatter = 1) :
    0 < owners s.formatter s := by
  simp only [owners]
  omega

theorem step_safe {a : Action ι} (h : Owned s) (hsafe : NoUseAfter Op.touches Op.ends s.ops)
    (hstep : step s a = some s') : NoUseAfter Op.touches Op.ends s'.ops := by
  have hone : ∀ {op : Op} {f : ℕ}, op.touches = some f → 0 < owners f s →
      NoUseAfter Op.touches Op.ends (s.ops ++ [op]) := by
    intro op f htouches hf
    apply hsafe.append
    intro g hg
    obtain rfl := Option.some.inj (htouches.symm.trans hg)
    exact h.not_deleted hf
  have hother : ∀ {op : Op}, op.touches = none →
      NoUseAfter Op.touches Op.ends (s.ops ++ [op]) := by
    intro op htouches
    apply hsafe.append
    intro g hg
    rw [htouches] at hg
    cases hg
  cases acts_of_step hstep with
  | queueNull | queueNew | destroy | install => exact hsafe
  | exchange | poll => exact hother rfl
  | deletePrev hcall => exact hone rfl (owners_call_pos hcall)
  | format hpc | deleteOld hpc | deleteLast hpc =>
      apply hone rfl (owners_formatter_pos _)
      simp only [Machine.holdsFormatter, hpc, holds_self]
  | deletePending hpc =>
      apply hone rfl
      simp only [owners, Pc.holds, hpc, holds_self]
      omega

/-! ## The mailbox -/

/-- The formatter that is in use once the poll under way is done, and the one that waits. -/
def Machine.mailbox (s : Machine ι) : Mailbox ℕ where
  current :=
    match s.pc with
    | .deleteOld f | .install f => f
    | _ => s.formatter
  pending := s.pendingNewFormatter

/-- **The handler is a mailbox of formatters**, up to its destructor: a step does to it what
it records. -/
theorem step_mailbox {a : Action ι} (hstep : step s a = some s') (husable : s'.pc.usable = true) :
    s.pc.usable = true ∧
      ∃ ops, s'.ops = s.ops ++ ops ∧ s'.mailbox = s.mailbox.run (events ops) := by
  cases acts_of_step hstep with
  | queueNull | queueNew => exact ⟨husable, [], by simp, rfl⟩
  | exchange | deletePrev | format => exact ⟨husable, _, rfl, rfl⟩
  | poll hpc =>
      refine ⟨by rw [hpc]; rfl, _, rfl, ?_⟩
      cases hp : s.pendingNewFormatter <;>
        simp [Machine.mailbox, hp, hpc, events, Op.event, Mailbox.run, Mailbox.event, Mailbox.poll]
  | destroy => cases hp : s.pendingNewFormatter <;> simp [Pc.usable, hp] at husable
  | deleteOld hpc =>
      exact ⟨by rw [hpc]; rfl, _, rfl, by rw [Machine.mailbox, Machine.mailbox, hpc]; rfl⟩
  | install hpc =>
      exact ⟨by rw [hpc]; rfl, [], by simp, by simp [Machine.mailbox, hpc, events, Mailbox.run]⟩
  | deletePending | deleteLast => cases husable

theorem events_append (ops ops' : List Op) : events (ops ++ ops') = events ops ++ events ops' :=
  List.filterMap_append

/-- The mailbox is what the record makes of it. -/
def Tracked (s : Machine ι) : Prop :=
  s.pc.usable = true → s.mailbox = Mailbox.run ⟨0, none⟩ (events s.ops)

theorem step_tracked {a : Action ι} (h : Tracked s) (hstep : step s a = some s') : Tracked s' := by
  intro husable
  obtain ⟨hbefore, ops, hops, hmailbox⟩ := step_mailbox hstep husable
  rw [hmailbox, h hbefore, hops, events_append, Mailbox.run_append]

theorem poll_mem_events {ops : List Op} (h : Mailbox.Event.poll ∈ events ops) : Op.poll ∈ ops := by
  obtain ⟨op, hop, hevent⟩ := List.mem_filterMap.mp h
  cases op <;> cases hevent
  exact hop

/-! ## After the destructor -/

/-- Once the destructor has begun nothing is pending and no call is left. -/
def Quiet (s : Machine ι) : Prop :=
  s.pc.usable = false → s.pendingNewFormatter = none ∧ ∀ t, s.calls t = none

theorem step_quiet {a : Action ι} (h : Quiet s) (hstep : step s a = some s') : Quiet s' := by
  have hbusy : ∀ {t : ι} {c : Call}, s.calls t = some c → ¬ s.pc.usable = false := by
    intro t c hcall hpc
    rw [(h hpc).2 t] at hcall
    cases hcall
  cases acts_of_step hstep with
  | queueNull | format => exact h
  | queueNew husable hcall =>
      intro hpc
      rw [husable] at hpc
      cases hpc
  | exchange hcall | deletePrev hcall => exact fun hpc => absurd hpc (hbusy hcall)
  | poll => cases s.pendingNewFormatter <;> simp [Quiet, Pc.usable]
  | destroy hpc hcalls => exact fun _ => ⟨rfl, hcalls⟩
  | deleteOld | install =>
      intro hend
      cases hend
  | deletePending hpc | deleteLast hpc => exact fun _ => h (by rw [hpc]; rfl)

omit [DecidableEq ι] in
theorem Quiet.owners_eq_zero (h : Quiet s) (hpc : s.pc = .destroyed) (n : ℕ) : owners n s = 0 := by
  obtain ⟨hpending, hcalls⟩ := h (by rw [hpc]; rfl)
  simp [owners, Machine.holdsFormatter, Pc.holds, callHolds, hpc, hpending, hcalls]

/-! ## Every run -/

omit [DecidableEq ι] in
theorem owned_init : Owned (init : Machine ι) := by
  intro n
  by_cases hn : n = 0
  · simp [owners, Machine.holdsFormatter, Pc.holds, callHolds, init, deleted, holds, hn]
  · have hne : ¬ 0 = n := by omega
    simp [owners, Machine.holdsFormatter, Pc.holds, callHolds, init, deleted, holds, hne]
    omega

/-- **The handler is sound in every run**: of any number of threads that queue formatters or
null, the backend, and the destructor. -/
theorem exec_sound {as : List (Action ι)} (he : exec step init as = some s) : Sound s := by
  obtain ⟨howned, hsafe, htracked, hquiet⟩ : Owned s ∧ NoUseAfter Op.touches Op.ends s.ops ∧
      Tracked s ∧ Quiet s := by
    refine exec_induction (fun t => Owned t ∧ NoUseAfter Op.touches Op.ends t.ops ∧ Tracked t ∧
      Quiet t) ?_ ⟨owned_init, .nil, fun _ => rfl, by simp [Quiet, init, Pc.usable]⟩ he
    intro t a t' ⟨howned, hsafe, htracked, hquiet⟩ hstep
    exact ⟨step_owned howned hstep, step_safe howned hsafe hstep, step_tracked htracked hstep,
      step_quiet hquiet hstep⟩
  have hinUse : s.pc = .idle → s.formatter = (Mailbox.run ⟨0, none⟩ (events s.ops)).current := by
    intro hpc
    rw [← htracked (by rw [hpc]; rfl)]
    simp only [Machine.mailbox, hpc]
  constructor
  · exact hsafe
  · intro hpc pre post hops hpost
    rw [hinUse hpc, hops, events_append]
    exact Mailbox.current_run_poll 0 (events pre) fun hmem => hpost (poll_mem_events hmem)
  · intro hpc hnone
    rw [hinUse hpc]
    exact Mailbox.current_run _ fun hmem => hnone (poll_mem_events hmem)
  · intro hpc f hf
    have hcount := howned f
    rw [if_pos hf, hquiet.owners_eq_zero hpc] at hcount
    exact hcount

end Step

/-- Two threads queue three formatters: the second one takes the place of the first, which
its thread deletes; it is polled and used, and the third is pending at the end. -/
def handOverRun : List (Action Bool) :=
  [.queueNewFormatter false false, .caller false, .format, .queueNewFormatter true false,
    .caller true, .poll, .queueNewFormatter false true, .caller true, .next, .next, .format,
    .queueNewFormatter false false, .caller false, .destroy, .next, .next]

theorem exec_sound_handOverRun :
    ∃ s, exec step init handOverRun = some s ∧ s.pc = .destroyed ∧ s.allocated = 4 ∧ Sound s := by
  have hrun : ∃ s, exec step init handOverRun = some s ∧ s.pc = .destroyed ∧ s.allocated = 4 :=
    ⟨_, rfl, rfl, rfl⟩
  obtain ⟨s, hs, hpc, hallocated⟩ := hrun
  exact ⟨s, hs, hpc, hallocated, exec_sound hs⟩

end Papper.Handler
