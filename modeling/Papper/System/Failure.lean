import Papper.System.Drain

/-!
# When formatting fails

`fmt::vformat` throws where a format string does not fit its arguments, and nothing ties the
one to the other before the call.  The exception leaves `decode_and_format`, before the level
is compared and before the read position moves, and then the backend thread, which catches
nothing.  So one such event in a queue is enough: it is not taken, and neither is what comes
after it in any queue.

## Main definitions

* `Tolerates` — the records of a list of events some of which cannot be formatted.
* `Served` — every queue has been read to its end.
* `exec_served_iff` — the backend gets there exactly if every event can be formatted.
-/

namespace Papper.System

open Transition

variable {P : Program} {ι κ : Type}

/-- The records of a list of events: an event that cannot be formatted may be left out, or
have a record of any kind in its place. -/
inductive Tolerates (name : List Char) : List (Push P) → List (Processed ι) → Prop
  | nil : Tolerates name [] []
  | formatted {p : Push P} {r : Processed ι} {ps : List (Push P)} {rs : List (Processed ι)}
      (h : Describes name p r) (hrest : Tolerates name ps rs) :
      Tolerates name (p :: ps) (r :: rs)
  | leftOut {p : Push P} {ps : List (Push P)} {rs : List (Processed ι)}
      (h : p.text? = none) (hrest : Tolerates name ps rs) : Tolerates name (p :: ps) rs
  | replaced {p : Push P} {r : Processed ι} {ps : List (Push P)} {rs : List (Processed ι)}
      (h : p.text? = none) (hrest : Tolerates name ps rs) : Tolerates name (p :: ps) (r :: rs)

theorem Tolerates.of_forall₂ {name : List Char} {ps : List (Push P)} {rs : List (Processed ι)}
    (h : List.Forall₂ (Describes name) ps rs) : Tolerates name ps rs := by
  induction h with
  | nil => exact .nil
  | cons h _ ih => exact .formatted h ih

/-- The backend is about to poll, sooner or later. -/
def Loop.polls : Loop → Bool
  | .top | .pollSink | .pollFormatter | .poll | .drainTop | .drainPoll => true
  | _ => false

/-- How many steps there are to the next pass. -/
def Loop.toPass : Loop → ℕ
  | .top => 3
  | .pollSink => 2
  | .pollFormatter | .drainTop => 1
  | _ => 0

variable [DecidableEq ι]
variable {s s' t u : State P ι κ} {i : ι}

/-- The backend goes on, every read position is at the end of an event, the events that were
in the queues of the list in `s` have been read, and each one that can be formatted has its
record. -/
structure Served (s t : State P ι κ) : Prop where
  going : t.loop ≠ .terminated
  boundary : ∀ i, ∃ n ≤ (t.threads i).accepted.length,
    (t.threads i).context.q.q.r
      = UInt64.ofNat (Queue.pos ((t.threads i).accepted.map fun p => p.event.message) n)
  consumed : ∀ i ∈ s.list.members,
    (t.threads i).context.q.read = (s.threads i).accepted.map fun p => p.event.encode
  processed : ∀ i ∈ s.list.members,
    Tolerates (s.threads i).context.name (s.threads i).accepted (recordsOf t.processed i)

/-! ## What has been processed -/

/-- Every event that has its record could be formatted. -/
def Formatted (s : State P ι κ) : Prop :=
  ∀ i, ∀ p ∈ (s.threads i).accepted.take (recordsOf s.processed i).length, p.text? ≠ none

theorem Records.accepted_isPrefix {a : Action P ι κ} (h : Records s a s') (i : ι) :
    (s.threads i).accepted <+: (s'.threads i).accepted := by
  cases h with
  | none hprocessed haccepted => exact haccepted i
  | one hbackend hvisit hprocessing hp hdescribes hline hs' =>
      subst s'
      exact List.prefix_rfl

/-- **Every step.** -/
theorem Formatted.step (h : Formatted s) (hflow : FlowInv s) {a : Action P ι κ}
    (hstep : Step s a s') : Formatted s' := by
  cases hstep.records with
  | none hprocessed haccepted =>
      intro i p hp
      obtain ⟨later, hlater⟩ := haccepted i
      obtain ⟨n, hn⟩ := hflow.exists_matches i
      rw [hprocessed, ← hlater, List.take_append_of_le_length (hn.length_eq.trans_le hn.le)] at hp
      exact h i p hp
  | @one i event message p line hbackend hvisit hprocessing hp hdescribes hline hs' =>
      subst s'
      intro j q hq
      by_cases hj : j = i
      · subst j
        have hconsumer := hflow.consumer i
        rw [hvisit, visitOf, if_pos rfl] at hconsumer
        obtain ⟨p', res, hp', -, -, htext, hmatches⟩ := hconsumer
        rw [← hmatches.length_eq, hp, Option.some.injEq] at hp'
        subst p'
        simp only [recordsOf_concat_self (r := (⟨i, event, s.minLogLevel, line⟩ : Processed ι)) rfl,
          List.length_append, List.length_singleton, List.take_add_one, hp] at hq
        rcases List.mem_append.mp hq with hold | hnew
        · exact h i q hold
        · rw [List.mem_singleton.mp hnew, htext]
          exact Option.some_ne_none _
      · simp only [recordsOf_concat_of_ne (r := (⟨i, event, s.minLogLevel, line⟩ : Processed ι))
          (Ne.symm hj)] at hq
        exact h j q hq

theorem formatted_init : Formatted (init : State P ι κ) := by
  intro i p hp
  cases hp

/-- **What was read to its end could be formatted.** -/
theorem Served.formats (h : Served s t) (hflow : FlowInv t) (hformatted : Formatted t)
    (haccepted : ∀ i, (s.threads i).accepted <+: (t.threads i).accepted) :
    Formats s s.list.members := by
  intro i hi p hp
  obtain ⟨later, hlater⟩ := haccepted i
  obtain ⟨n, hle, hn⟩ := hflow.exists_matches_ge i
  rw [h.consumed i hi, List.length_map, ← hn.length_eq] at hle
  refine hformatted i p ?_
  rw [← hlater]
  refine (List.take_sublist_take_left hle).subset ?_
  rw [List.take_left]
  exact List.mem_of_mem_drop hp

/-! ## What is taken from the queues -/

/-- Every position of a queue is at the end of an event. -/
theorem ThreadFlow.boundary {t : Thread P κ} (h : ThreadFlow t) :
    ∃ n ≤ t.accepted.length, t.context.q.q.r
      = UInt64.ofNat (Queue.pos (t.accepted.map fun p => p.event.message) n) := by
  obtain ⟨k, hinv⟩ := h.queue
  refine ⟨t.context.q.read.length, ?_, ?_⟩
  · have hle := hinv.read_le.trans hinv.seenW_le
    rwa [h.committed, List.length_map] at hle
  · rw [hinv.r_eq, h.committed]

/-- A queue that was read to its end. -/
theorem ThreadFlow.read_eq {t : Thread P κ} (h : ThreadFlow t) (hunread : t.unread = []) :
    t.context.q.read = t.accepted.map fun p => p.event.encode := by
  obtain ⟨k, hinv⟩ := h.queue
  have hall : t.context.q.committed.length ≤ t.context.q.read.length := by
    rw [h.committed, List.length_map]
    exact List.drop_eq_nil_iff.mp hunread
  rw [hinv.read_eq, List.take_of_length_le hall, h.committed, List.map_map]
  rfl

variable [DecidableEq κ]

/-- The backend comes to a state by its own steps, whatever the clock says. -/
abbrev Comes (goal : State P ι κ → Prop) (s : State P ι κ) : Prop :=
  Inevitable step (fun a => a.isBackend = true) (fun _ => false) goal 0 s

/-- The backend is about to begin a pass, and nothing has changed for it. -/
structure Ready (s t : State P ι κ) : Prop where
  sane : Sane t
  threads : t.threads = s.threads
  list : t.list = s.list
  loop : t.loop = .poll ∨ t.loop = .drainPoll

omit [DecidableEq κ] in
/-- Between two passes only the place of the backend matters, and each step is nearer to the
next pass. -/
theorem step_toPass (hhead : s.list.head ≠ none) (hpos : 0 < s.loop.toPass) :
    ∃ t, (∀ localTime, backendStep s localTime = some t) ∧ t.threads = s.threads ∧
      t.list = s.list ∧ t.loop.polls = true ∧ t.loop.toPass < s.loop.toPass := by
  cases hl : s.loop with
  | top =>
      refine ⟨{ s with loop := if s.running then .pollSink else .drainTop }, ?_, rfl, rfl, ?_, ?_⟩
      · intro localTime
        simp only [backendStep, hl]
      · cases s.running <;> rfl
      · cases s.running <;> simp [Loop.toPass]
  | pollSink =>
      refine ⟨{ s with sink := s.sink.poll, sinkPolled := s.sinkCalls, loop := .pollFormatter }, ?_,
        rfl, rfl, rfl, by simp [Loop.toPass]⟩
      intro localTime
      simp only [backendStep, hl]
  | pollFormatter =>
      refine ⟨{ s with
        formatter := s.formatter.poll
        formatterPolled := s.formatterCalls
        loop := .poll }, ?_, rfl, rfl, rfl, by simp [Loop.toPass]⟩
      intro localTime
      simp only [backendStep, hl]
  | drainTop =>
      refine ⟨{ s with loop := .drainPoll }, ?_, rfl, rfl, rfl, by simp [Loop.toPass]⟩
      intro localTime
      simp only [backendStep, hl, if_neg hhead]
  | _ =>
      rw [hl] at hpos
      cases hpos

/-- **The backend begins a pass**, if there is a context in the list. -/
theorem comes_ready (n : ℕ) :
    ∀ {s : State P ι κ}, s.loop.toPass = n → Sane s → s.loop.polls = true → s.list.head ≠ none →
      Comes (Ready s) s := by
  induction n using Nat.strong_induction_on with
  | _ n ih =>
      intro s hn hsane hloop hhead
      by_cases hpos : 0 < s.loop.toPass
      · obtain ⟨t, hstep, hthreads, hlist, htloop, hlt⟩ := step_toPass hhead hpos
        refine hsane.inevitable rfl hstep fun ht => ?_
        rw [hn] at hlt
        rw [← hlist] at hhead
        refine (ih _ hlt rfl ht htloop hhead).mono ?_
        rintro u ⟨hu, huthreads, hulist, huloop⟩
        exact ⟨hu, huthreads.trans hthreads, hulist.trans hlist, huloop⟩
      · refine .here ⟨hsane, rfl, rfl, ?_⟩
        cases hl : s.loop with
        | poll => exact .inl rfl
        | drainPoll => exact .inr rfl
        | top | pollSink | pollFormatter | drainTop => exact absurd (by rw [hl]; decide) hpos
        | _ =>
            rw [hl] at hloop
            cases hloop

/-- **A pass** from a place of the loop to another. -/
theorem comes_polls (hsane : Sane s) (hloop : s.loop.polls = true) (hhead : s.list.head ≠ none)
    (hformats : Formats s s.list.members) :
    Comes (fun t => Sane t ∧ t.loop.polls = true ∧ Polls s t) s := by
  show Inevitable _ _ _ _ (0 + 0) s
  refine (comes_ready _ rfl hsane hloop hhead).trans ?_
  rintro t ⟨ht, hthreads, hlist, htloop⟩
  have hout : t.list.pc = .outside := ht.outside (by rcases htloop with h | h <;> rw [h] <;> rfl)
  have htformats : Formats t t.list.members := by
    intro i hi p hp
    rw [hlist] at hi
    rw [hthreads] at hp
    exact hformats i hi p hp
  have hpolls : ∀ u, Polls t u → Polls s u := by
    intro u h
    constructor
    · rw [← hthreads]
      exact h.threads
    · rw [← hlist]
      exact h.inserted
    · rw [← hthreads, ← hlist]
      exact h.unread
    · rw [← hthreads, ← hlist]
      exact h.members
  rcases htloop with htloop | htloop
  · refine (reaches_polls ht hout htformats .pass .top rfl ?_ ?_).forget.mono ?_
    · intro localTime
      simp only [backendStep, htloop]
    · intro u localTime hu
      simp only [backendStep, hu]
    · rintro u ⟨hu, huloop, h⟩
      exact ⟨hu, by rw [huloop]; rfl, hpolls u h⟩
  · refine (reaches_polls ht hout htformats .drainPass .drainTop rfl ?_ ?_).forget.mono ?_
    · intro localTime
      simp only [backendStep, htloop]
    · intro u localTime hu
      simp only [backendStep, hu]
    · rintro u ⟨hu, huloop, h⟩
      exact ⟨hu, by rw [huloop]; rfl, hpolls u h⟩

/-- **The backend takes everything** that was in the queues of the list. -/
theorem comes_drained (n : ℕ) :
    ∀ {s : State P ι κ}, Sane s → s.loop.polls = true → Formats s s.list.members →
      (∀ i ∈ s.list.members, (s.threads i).unread.length ≤ n) →
      Comes (fun t => Sane t ∧ t.loop.polls = true ∧ Drained s t) s := by
  induction n with
  | zero =>
      intro s hsane hloop _ hlength
      refine .here ⟨hsane, hloop, fun i => ⟨_, rfl⟩, rfl, fun i hi => hi, ?_⟩
      intro i hi
      exact List.length_eq_zero_iff.mp (Nat.le_zero.mp (hlength i hi))
  | succ n ih =>
      intro s hsane hloop hformats hlength
      obtain ⟨l, hinv⟩ := hsane.exists_list
      by_cases hhead : s.list.head = none
      · refine .here ⟨hsane, hloop, fun i => ⟨_, rfl⟩, rfl, fun i hi => hi, ?_⟩
        rw [hinv.head_eq_none_iff.mp hhead]
        simp
      · show Inevitable _ _ _ _ (0 + 0) s
        refine (comes_polls hsane hloop hhead hformats).trans ?_
        rintro t ⟨ht, htloop, hpolls⟩
        have hshorter : ∀ i ∈ t.list.members, (t.threads i).unread.length ≤ n := by
          intro i hi
          obtain ⟨hmem, -⟩ := (hpolls.members i).mp hi
          have hle := hlength i hmem
          rw [hpolls.unread, if_pos hmem, List.length_tail]
          omega
        refine (ih ht htloop (hformats.of_polls hpolls) hshorter).mono ?_
        rintro u ⟨hu, huloop, hdrained⟩
        exact ⟨hu, huloop, hdrained.of_polls hpolls⟩

omit [DecidableEq κ] in
/-- Where everything was taken, everything has its record. -/
theorem Drained.served (h : Drained s t) (ht : Sane t) (hloop : t.loop.polls = true) :
    Served s t where
  going := by
    intro hterminated
    rw [hterminated] at hloop
    cases hloop
  boundary := fun i => (ht.flow.thread i).boundary
  consumed := by
    intro i hi
    obtain ⟨q, hq⟩ := h.threads i
    rw [(ht.flow.thread i).read_eq (h.members i hi), hq, accepted_setQueue]
  processed := by
    intro i hi
    have hvisit := ht.visit_eq_none (ht.outside (by
      cases hl : t.loop with
      | pass | drainPass | terminated =>
          rw [hl] at hloop
          cases hloop
      | _ => rfl))
    have hall := ht.forall₂_of_unread hvisit (h.members i hi)
    obtain ⟨q, hq⟩ := h.threads i
    rw [hq] at hall
    exact .of_forall₂ hall

/-! ## Runs -/

/-- What a run keeps. -/
theorem formatted_exec {as : List (Action P ι κ)} (hclient : Along Client step s as)
    (hsane : Sane s) (hformatted : Formatted s) (hexec : exec step s as = some t) :
    Sane t ∧ Formatted t ∧ ∀ i, (s.threads i).accepted <+: (t.threads i).accepted := by
  refine exec_induction_along
    (fun t => Sane t ∧ Formatted t ∧ ∀ i, (s.threads i).accepted <+: (t.threads i).accepted) ?_
    ⟨hsane, hformatted, fun _ => List.prefix_rfl⟩ hclient hexec
  intro t a t' ⟨hsane, hformatted, haccepted⟩ hc hstep
  have hcases := step_cases hsane.flow hsane.life hc hstep
  exact ⟨hsane.step hc hstep, hformatted.step hsane.flow hcases,
    fun i => (haccepted i).trans (hcases.records.accepted_isPrefix i)⟩

/-- **What the backend has served could be formatted.** -/
theorem Served.formats_of_exec {n : ℕ} {clock : ℕ → ℤ} (h : Served s t) (hsane : Sane s)
    (hformatted : Formatted s)
    (hexec : exec step s ((List.range n).map fun k => .backend (clock k)) = some t) :
    Formats s s.list.members := by
  have hclient : Along Client step s ((List.range n).map fun k => .backend (clock k)) := by
    refine .of_mem ?_ s
    intro a ha u
    obtain ⟨k, -, rfl⟩ := List.mem_map.mp ha
    trivial
  obtain ⟨ht, htformatted, haccepted⟩ := formatted_exec hclient hsane hformatted hexec
  exact h.formats ht.flow htformatted haccepted

/-- **One event that cannot be formatted stops the backend, and nothing else does.**  Wherever
the backend is between two passes, and whatever the clock says: by steps of its own it comes to
a state where it has read every queue of the list to its end and processed every event that can
be formatted, if and only if each event left in these queues can be. -/
theorem exec_served_iff {as : List (Action P ι κ)} (hclient : Along Client step init as)
    (hexec : exec step init as = some s) (hloop : s.loop.polls = true) (clock : ℕ → ℤ) :
    (∃ n t, exec step s ((List.range n).map fun k => .backend (clock k)) = some t ∧ Served s t) ↔
      Formats s s.list.members := by
  obtain ⟨hsane, hformatted, -⟩ := formatted_exec hclient sane_init formatted_init hexec
  constructor
  · rintro ⟨n, t, hrun, hserved⟩
    exact hserved.formats_of_exec hsane hformatted hrun
  · intro hformats
    have hlength : ∀ i ∈ s.list.members, (s.threads i).unread.length
        ≤ s.list.members.toFinset.sup fun i => (s.threads i).unread.length :=
      fun i hi =>
        Finset.le_sup (f := fun i => (s.threads i).unread.length) (List.mem_toFinset.mpr hi)
    obtain ⟨n, t, hrun, ⟨ht, htloop, hdrained⟩, -⟩ :=
      (comes_drained _ hsane hloop hformats hlength).exists_exec
        (f := fun k => .backend (clock k)) fun _ => rfl
    exact ⟨n, t, hrun, hdrained.served ht htloop⟩

/-- Two threads log. -/
theorem exec_served_iff_hello :
    ∃ s, exec step init (firstLogRun 0 100 8192 ++ firstLogRun 1 101 8448) = some s ∧
      s.list.members = [1, 0] ∧
      ∃ n t, exec step s ((List.range n).map fun _ => .backend 0) = some t ∧ Served s t := by
  have hrun : (exec step init (firstLogRun 0 100 8192 ++ firstLogRun 1 101 8448)).map (fun s =>
      (s.loop, s.list.members)) = some (.top, [1, 0]) := by
    decide +kernel
  obtain ⟨s, hs, hstate⟩ := Option.map_eq_some_iff.mp hrun
  obtain ⟨hloop, hmembers⟩ := Prod.mk.injEq .. ▸ hstate
  have hformats : Formats s s.list.members := fun _ _ _ _ => Option.some_ne_none _
  exact ⟨s, hs, hmembers,
    (exec_served_iff (by decide +kernel) hs (by rw [hloop]; rfl) fun _ => 0).mpr hformats⟩

/-- A program with two call sites, one of which lacks the argument of its format string. -/
def forgetfulProgram : Program where
  staticData := fun a =>
    if a = 4096 ∨ a = 4160 then
      some
        { level := .Info
          fmtStr := if a = 4096 then "hello".toList else "\x7b\x7d".toList
          decodingFn := []
          filename := "main.cpp".toList
          functionname := "main".toList
          line := 94 }
    else none
  vformat := fun fmtStr _ _ => if fmtStr.contains '\x7b' then none else some fmtStr

/-- A call at the one or the other. -/
def call (forgets : Bool) : LogCall forgetfulProgram where
  staticData := if forgets then 4160 else 4096
  site :=
    { level := .Info
      fmtStr := if forgets then "\x7b\x7d".toList else "hello".toList
      decodingFn := []
      filename := "main.cpp".toList
      functionname := "main".toList
      line := 94 }
  site_eq := by cases forgets <;> rfl
  args := .nil
  fits := by cases forgets <;> decide

/-- A thread logs for the first time. -/
def logRun (i node : ℕ) (namePtr : UInt64) (forgets : Bool) :
    List (Action forgetfulProgram ℕ ℕ) :=
  [.log i ⟨0, call forgets, 1000⟩ 64 namePtr, .newNode i node] ++
    List.replicate 3 (.registrar i false) ++ List.replicate 35 (.thread i)

/-- One thread logs `hello`, and another forgets the argument. -/
def forgetfulRun : List (Action forgetfulProgram ℕ ℕ) :=
  logRun 0 100 8192 false ++ logRun 1 101 8448 true

/-- The exception ends the backend at the second thread's event, and the first thread's
`hello` is written neither by then nor later. -/
theorem exec_notServed_forgetfulRun :
    Along Client step init forgetfulRun ∧ ∃ s, exec step init forgetfulRun = some s ∧
      s.loop = .top ∧ s.list.members = [1, 0] ∧
      (s.threads 1).unread.map Push.text? = [none] ∧
      (s.threads 0).unread.map Push.text? = [some "hello".toList] ∧
      (∃ t, exec step s (List.replicate 8 (.backend 0)) = some t ∧ t.loop = .terminated ∧
        t.processed.length = 0) ∧
      ∀ clock : ℕ → ℤ, ¬ ∃ n t,
        exec step s ((List.range n).map fun k => .backend (clock k)) = some t ∧ Served s t := by
  have hclient : Along Client step init forgetfulRun := by decide +kernel
  have hrun : (exec step init forgetfulRun).map (fun s => (s.loop, s.list.members))
      = some (.top, [1, 0]) := by
    decide +kernel
  have hunread : (exec step init forgetfulRun).map (fun s =>
      ((s.threads 1).unread.map Push.text?, (s.threads 0).unread.map Push.text?))
      = some ([none], [some "hello".toList]) := by
    decide +kernel
  have hends : (exec step init (forgetfulRun ++ List.replicate 8 (.backend 0))).map (fun t =>
      (t.loop, t.processed.length)) = some (.terminated, 0) := by
    decide +kernel
  obtain ⟨s, hs, hstate⟩ := Option.map_eq_some_iff.mp hrun
  rw [hs, Option.map_some, Option.some.injEq, Prod.mk.injEq] at hunread
  rw [Prod.mk.injEq] at hstate
  obtain ⟨hloop, hmembers⟩ := hstate
  obtain ⟨hforgets, hhello⟩ := hunread
  rw [exec_append, hs, Option.bind_some] at hends
  obtain ⟨t, ht, hend⟩ := Option.map_eq_some_iff.mp hends
  rw [Prod.mk.injEq] at hend
  refine ⟨hclient, s, hs, hloop, hmembers, hforgets, hhello, ⟨t, ht, hend⟩, ?_⟩
  rintro clock ⟨n, u, hexec, hserved⟩
  obtain ⟨hsane, hformatted, -⟩ := formatted_exec hclient sane_init formatted_init hs
  have hformats := hserved.formats_of_exec hsane hformatted hexec
  obtain ⟨p, hp, htext⟩ := List.mem_map.mp (hforgets ▸ List.mem_singleton_self _)
  exact hformats 1 (by simp [hmembers]) p hp htext

end Papper.System
