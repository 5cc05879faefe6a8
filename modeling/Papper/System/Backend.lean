import Papper.System.Polling

/-!
# What a step of the backend is

One inversion lemma for `backendStep`, exact in what becomes of the state: a step of the main
loop or of the drain loop, the load of the head at the start of a pass, a step at a context or
between two of them, or the return from `poll_threads`.

## Main definitions

* `Loop.enters`, `Loop.back` — where a pass begins, and where it returns to.
* `BackendActs`, `backendActs_of_backendStep` — what a step of the backend is.
* `VisitActs`, `visitActs_of_visitStep` — what a step at a context is.
-/

namespace Papper.System

variable {P : Program} {ι κ : Type}

/-- The pass that the call of `poll_threads` begins. -/
def Loop.enters : Loop → Option Loop
  | .poll => some .pass
  | .drainPoll => some .drainPass
  | _ => none

/-- Where a pass returns to. -/
def Loop.back : Loop → Option Loop
  | .pass => some .top
  | .drainPass => some .drainTop
  | _ => none

/-- A context is come to at the start of its visit. -/
theorem eq_start_of_entered {list : ThreadList.State ι} {j : ι} {v : Visit}
    (h : entered list = some (j, v)) : v = .start := by
  simp only [entered] at h
  split at h
  · obtain ⟨k, -, hk⟩ := Option.map_eq_some_iff.mp h
    cases hk
    rfl
  · cases h

variable [DecidableEq ι]

/-- What a step of the backend is, and where its loop has to be. -/
inductive BackendActs (s : State P ι κ) (localTime : ℤ) : State P ι κ → Prop
  | top (hloop : s.loop = .top) :
      BackendActs s localTime { s with loop := if s.running then .pollSink else .drainTop }
  | pollSink (hloop : s.loop = .pollSink) :
      BackendActs s localTime
        { s with sink := s.sink.poll, sinkPolled := s.sinkCalls, loop := .pollFormatter }
  | pollFormatter (hloop : s.loop = .pollFormatter) :
      BackendActs s localTime
        { s with formatter := s.formatter.poll, formatterPolled := s.formatterCalls, loop := .poll }
  | drainTop (hloop : s.loop = .drainTop) :
      BackendActs s localTime
        { s with loop := if s.list.head = none then .exited else .drainPoll }
  | poll {inside : Loop} {list' : ThreadList.State ι} (hloop : s.loop.enters = some inside)
      (hlist : ThreadList.step s.list .poll = some list') :
      BackendActs s localTime
        { s with list := list', names := s.namesAfter, visit := entered list', loop := inside }
  | visit {i : ι} {v : Visit} {s' : State P ι κ} (hloop : s.loop.inPass = true)
      (hvisit : s.visit = some (i, v)) (hstep : visitStep s i v localTime = some s') :
      BackendActs s localTime s'
  | list {list' : ThreadList.State ι} (hloop : s.loop.inPass = true) (hvisit : s.visit = none)
      (hout : s.list.pc ≠ .outside) (hlist : ThreadList.step s.list .backend = some list') :
      BackendActs s localTime { s with list := list', names := s.namesAfter, visit := entered list' }
  | passEnd {back : Loop} (hloop : s.loop.back = some back) (hvisit : s.visit = none)
      (hout : s.list.pc = .outside) : BackendActs s localTime { s with loop := back }

variable {s s' : State P ι κ} {localTime : ℤ}

/-- **Every step of the backend is one of these.** -/
theorem backendActs_of_backendStep (hstep : backendStep s localTime = some s') :
    BackendActs s localTime s' := by
  have hpoll : ∀ {inside : Loop}, s.loop.enters = some inside →
      (listStep s .poll).map (fun t => { t with loop := inside }) = some s' →
      BackendActs s localTime s' := by
    intro inside hloop hpoll
    obtain ⟨t, ht, rfl⟩ := Option.map_eq_some_iff.mp hpoll
    obtain ⟨list', hlist, rfl⟩ := Option.map_eq_some_iff.mp ht
    exact .poll hloop hlist
  have hpass : ∀ {back : Loop}, s.loop.inPass = true → s.loop.back = some back →
      passStep s localTime back = some s' → BackendActs s localTime s' := by
    intro back hloop hback hpass
    simp only [passStep] at hpass
    cases hvisit : s.visit with
    | some place =>
        simp only [hvisit] at hpass
        exact .visit hloop hvisit hpass
    | none =>
        simp only [hvisit] at hpass
        by_cases hout : s.list.pc = .outside
        · rw [if_pos hout] at hpass
          cases hpass
          have hend : BackendActs s localTime { s with loop := back } := .passEnd hback hvisit hout
          rwa [hvisit] at hend
        · rw [if_neg hout] at hpass
          obtain ⟨list', hlist, rfl⟩ := Option.map_eq_some_iff.mp hpass
          exact .list hloop hvisit hout hlist
  cases hloop : s.loop with
  | top =>
      simp only [backendStep, hloop, Option.some.injEq] at hstep
      exact hstep ▸ .top hloop
  | pollSink =>
      simp only [backendStep, hloop, Option.some.injEq] at hstep
      exact hstep ▸ .pollSink hloop
  | pollFormatter =>
      simp only [backendStep, hloop, Option.some.injEq] at hstep
      exact hstep ▸ .pollFormatter hloop
  | drainTop =>
      simp only [backendStep, hloop, Option.some.injEq] at hstep
      exact hstep ▸ .drainTop hloop
  | poll | drainPoll =>
      simp only [backendStep, hloop] at hstep
      exact hpoll (by rw [hloop]; rfl) hstep
  | pass | drainPass =>
      simp only [backendStep, hloop] at hstep
      exact hpass (by rw [hloop]; rfl) (by rw [hloop]; rfl) hstep
  | exited | terminated => simp only [backendStep, hloop, reduceCtorEq] at hstep

/-- What a step at the context of `i` is, and what was found there. -/
inductive VisitActs (s : State P ι κ) (i : ι) (localTime : ℤ) : Visit → State P ι κ → Prop
  | start {q : Queue.Machine}
      (hq : Queue.step (s.threads i).context.q .reserveRead = some q) :
      VisitActs s i localTime .start
        { s.setThread i ((s.threads i).setQueue q) with
          visit := some (i, match q.consumer with
            | .reading res _ => .process res
            | _ => .reload) }
  | reload {q : Queue.Machine}
      (hq : Queue.step (s.threads i).context.q
        (.loadW (s.threads i).context.q.q.atomicW.latest) = some q) :
      VisitActs s i localTime .reload
        { s.setThread i ((s.threads i).setQueue q) with
          visit := some (i, match q.consumer with
            | .reading res _ => .process res
            | _ => .alive) }
  | fault {res : ReadReservation}
      (hread : readEvent P (s.threads i).context.q.q.buffer res.buffer = none) :
      VisitActs s i localTime (.process res) { s with fault := true, loop := .terminated }
  | throws {res : ReadReservation} {event : ReadEvent}
      (hread : readEvent P (s.threads i).context.q.q.buffer res.buffer = some event)
      (htext : event.message = none) : VisitActs s i localTime (.process res) s.terminate
  | decoded {res : ReadReservation} {event : ReadEvent} {message : List Char}
      (hread : readEvent P (s.threads i).context.q.q.buffer res.buffer = some event)
      (htext : event.message = some message) :
      VisitActs s i localTime (.process res)
        { s.setThread i ((s.threads i).setQueue
            ((s.threads i).context.q.readBytes res event.header.totalEventSize.toNat)) with
          visit := some (i, .level event message) }
  | dropped {event : ReadEvent} {message : List Char} (hlevel : event.site.level < s.minLogLevel) :
      VisitActs s i localTime (.level event message)
        { s with
          processed := s.processed ++ [⟨i, event, s.minLogLevel, none⟩]
          visit := some (i, .commit event.header.totalEventSize) }
  | unnamed {event : ReadEvent} {message : List Char} (hlevel : ¬ event.site.level < s.minLogLevel)
      (hline : s.line? event localTime message = none) :
      VisitActs s i localTime (.level event message) { s with fault := true, loop := .terminated }
  | written {event : ReadEvent} {message : List Char} {line : Line}
      (hlevel : ¬ event.site.level < s.minLogLevel)
      (hline : s.line? event localTime message = some line) :
      VisitActs s i localTime (.level event message)
        { s with
          processed := s.processed ++ [⟨i, event, s.minLogLevel, some line⟩]
          visit := some (i, .commit event.header.totalEventSize) }
  | commit {sizeRead : UInt64} {q : Queue.Machine} {list' : ThreadList.State ι}
      (hq : Queue.step (s.threads i).context.q (.commitRead sizeRead.toNat) = some q)
      (hlist : ThreadList.step s.list (.visit false) = some list') :
      VisitActs s i localTime (.commit sizeRead)
        { s.setThread i ((s.threads i).setQueue q) with list := list', visit := none }
  | alive {list' : ThreadList.State ι}
      (hlist : ThreadList.step s.list (.visit !(s.threads i).context.isAlive) = some list') :
      VisitActs s i localTime .alive { s with list := list', visit := none }

/-- **Every step at a context is one of these.** -/
theorem visitActs_of_visitStep {i : ι} {v : Visit}
    (hstep : visitStep s i v localTime = some s') : VisitActs s i localTime v s' := by
  cases v with
  | start =>
      obtain ⟨q, hq, rfl⟩ := Option.map_eq_some_iff.mp hstep
      exact .start hq
  | reload =>
      obtain ⟨q, hq, rfl⟩ := Option.map_eq_some_iff.mp hstep
      exact .reload hq
  | process res =>
      simp only [visitStep] at hstep
      cases hread : readEvent P (s.threads i).context.q.q.buffer res.buffer with
      | none =>
          simp only [hread, Option.some.injEq] at hstep
          exact hstep ▸ .fault hread
      | some event =>
          simp only [hread] at hstep
          cases htext : event.message with
          | none =>
              simp only [htext, Option.some.injEq] at hstep
              exact hstep ▸ .throws hread htext
          | some message =>
              simp only [htext, Option.some.injEq] at hstep
              exact hstep ▸ .decoded hread htext
  | level event message =>
      simp only [visitStep, Option.some.injEq, processEvent] at hstep
      by_cases hlevel : event.site.level < s.minLogLevel
      · rw [if_pos hlevel] at hstep
        exact hstep ▸ .dropped hlevel
      · rw [if_neg hlevel] at hstep
        cases hline : s.line? event localTime message with
        | none =>
            simp only [hline] at hstep
            exact hstep ▸ .unnamed hlevel hline
        | some line =>
            simp only [hline] at hstep
            exact hstep ▸ .written hlevel hline
  | commit sizeRead =>
      obtain ⟨q, hq, hend⟩ := Option.bind_eq_some_iff.mp hstep
      obtain ⟨list', hlist, rfl⟩ := Option.map_eq_some_iff.mp hend
      exact .commit hq hlist
  | alive =>
      obtain ⟨list', hlist, rfl⟩ := Option.map_eq_some_iff.mp hstep
      exact .alive hlist

/-! ## Where the loops lead -/

theorem Loop.inPass_of_enters {loop inside : Loop} (h : loop.enters = some inside) :
    inside.inPass = true ∧ loop.inPass = false := by
  cases loop <;> cases h <;> exact ⟨rfl, rfl⟩

theorem Loop.inPass_of_back {loop back : Loop} (h : loop.back = some back) :
    loop.inPass = true ∧ back.inPass = false := by
  cases loop <;> cases h <;> exact ⟨rfl, rfl⟩

theorem Loop.between_of_back {loop back : Loop} (h : loop.back = some back) :
    back.between = true := by
  cases loop <;> cases h <;> rfl

/-- A step at a context leaves the loop and what belongs to it alone, unless formatting
throws. -/
structure Visits (s s' : State P ι κ) : Prop where
  loop : s'.loop = s.loop ∨ s'.loop = .terminated
  running : s'.running = s.running
  sink : s'.sink = s.sink
  formatter : s'.formatter = s.formatter
  unnamedThreadCounter : s'.unnamedThreadCounter = s.unnamedThreadCounter
  minLogLevel : s'.minLogLevel = s.minLogLevel

theorem VisitStep.visits {i : ι} {v : Visit} (h : VisitStep s i v s') : Visits s s' := by
  cases h with
  | terminated => exact ⟨.inr rfl, rfl, rfl, rfl, rfl, rfl⟩
  | _ => exact ⟨.inl rfl, rfl, rfl, rfl, rfl, rfl⟩

end Papper.System
