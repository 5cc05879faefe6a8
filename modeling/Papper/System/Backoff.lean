import Papper.Lib.Refinement
import Papper.System.Backend

/-!
# The pauses of the backend

`poll_threads` returns whether there were events, and the main loop sleeps when there were none:
for a microsecond at first, and each time in a row for twice as long as before, up to a limit.
The drain loop does not sleep.

What `poll_threads` returns is a flag that is set where an event is committed, some steps after
its record is made.  `exec_paced` says what comes of it in a whole run, in terms of the records:
the backend sleeps after the calls that processed nothing, and for how long.

## Main definitions

* `State`, `step` — the program with the flag and the pause.
* `result` — whether a call that returns to the main loop has processed an event.
* `pauses` — the pauses that go with these results.
-/

namespace Papper.Backoff

open Transition Papper.System

variable {P : Program} {ι κ : Type}

def maxBackoffUs : ℕ := 200

structure State (P : Program) (ι κ : Type) where
  system : System.State P ι κ
  /-- `b_were_events_to_process`. -/
  wereEvents : Bool
  backoffUs : ℕ
  /-- How long the backend has slept, each time. -/
  slept : List ℕ
  /-- How many records there were when `poll_threads` was called. -/
  atCall : ℕ

def init : State P ι κ := ⟨System.init, false, 1, [], 0⟩

/-- The flag and the pause when the program goes on to `system`. -/
def State.pace (s : State P ι κ) (system : System.State P ι κ) : State P ι κ :=
  match s.system.loop with
  | .poll | .drainPoll =>
      { s with system := system, wereEvents := false, atCall := s.system.processed.length }
  | .pass | .drainPass =>
      match s.system.visit with
      | some (_, .commit _) => { s with system := system, wereEvents := true }
      | some _ => { s with system := system }
      | none =>
          if system.loop = .top then
            if s.wereEvents then
              -- reset backoff if there were events to process
              { s with system := system, backoffUs := 1 }
            else
              { s with
                system := system
                slept := s.slept ++ [s.backoffUs]
                backoffUs := min (s.backoffUs * 2) maxBackoffUs }
          else { s with system := system }
  | _ => { s with system := system }

def step [DecidableEq ι] [DecidableEq κ] (s : State P ι κ) (a : System.Action P ι κ) :
    Option (State P ι κ) :=
  (System.step s.system a).map fun system =>
    if a.isBackend then s.pace system else { s with system := system }

/-! ## The results and the pauses -/

/-- Whether a call of `poll_threads` that returns to the main loop has processed an event. -/
def result (s : State P ι κ) (_ : System.Action P ι κ) (s' : State P ι κ) : List Bool :=
  if s.system.loop = .pass ∧ s'.system.loop = .top then
    [decide (s.atCall < s.system.processed.length)]
  else []

/-- How many calls in a row have processed nothing. -/
def idle (results : List Bool) : ℕ := (results.reverse.takeWhile (!·)).length

/-- The next pause. -/
def pause (results : List Bool) : ℕ := min (2 ^ idle results) maxBackoffUs

/-- One pause for each call that processed nothing, as long as the calls before it say. -/
def pauses (results : List Bool) : List ℕ :=
  (List.range results.length).filterMap fun n =>
    if results[n]? = some false then some (pause (results.take n)) else none

theorem pauses_concat (results : List Bool) (r : Bool) :
    pauses (results ++ [r]) = pauses results ++ if r then [] else [pause results] := by
  have hbefore : ∀ n ∈ List.range results.length,
      (if (results ++ [r])[n]? = some false then some (pause ((results ++ [r]).take n)) else none)
        = if results[n]? = some false then some (pause (results.take n)) else none := by
    intro n hn
    have hlt : n < results.length := List.mem_range.mp hn
    rw [List.getElem?_append_left hlt, List.take_append_of_le_length (by omega)]
  rw [pauses, List.length_append, List.length_singleton, List.range_succ, List.filterMap_append,
    List.filterMap_congr hbefore]
  cases r <;> simp [pauses]

theorem pause_concat (results : List Bool) (r : Bool) :
    pause (results ++ [r]) = if r then 1 else min (pause results * 2) maxBackoffUs := by
  cases r with
  | true => simp [pause, idle, maxBackoffUs]
  | false =>
      have hidle : idle (results ++ [false]) = idle results + 1 := by simp [idle]
      simp only [pause, hidle, Nat.pow_succ, maxBackoffUs, Bool.false_eq_true, if_false]
      omega

/-! ## Runs -/

/-- What belongs to the backend is as it was. -/
structure SameBackend (s s' : System.State P ι κ) : Prop where
  loop : s'.loop = s.loop
  visit : s'.visit = s.visit
  processed : s'.processed = s.processed

/-- An event has its record, and is not committed yet. -/
def recorded (visit : Option (ι × Visit)) : Bool :=
  match visit with
  | some (_, .commit _) => true
  | _ => false

/-- The flag says whether there are records of this call, one that is not committed yet apart;
the pause and the pauses are those of the results. -/
structure Inv (results : List Bool) (s : State P ι κ) : Prop where
  events : s.system.loop.inPass = true →
    ((s.wereEvents = true ∨ recorded s.system.visit = true)
      ↔ s.atCall < s.system.processed.length)
  atCall_le : s.system.loop.inPass = true → s.atCall ≤ s.system.processed.length
  backoffUs : s.backoffUs = pause results
  slept : s.slept = pauses results

theorem inv_init : Inv [] (Backoff.init : State P ι κ) :=
  ⟨by simp [Backoff.init, System.init, Loop.inPass], by simp [Backoff.init],
    by simp [Backoff.init, pause, idle, maxBackoffUs], rfl⟩

variable {s : State P ι κ} {system : System.State P ι κ} {results : List Bool}

/-- Outside of a pass the flag is not looked at. -/
theorem inv_of_outside (hout : s.system.loop.inPass = false)
    (hbackoff : s.backoffUs = pause results) (hslept : s.slept = pauses results) :
    Inv results s where
  events hpass := by
    rw [hout] at hpass
    cases hpass
  atCall_le hpass := by
    rw [hout] at hpass
    cases hpass
  backoffUs := hbackoff
  slept := hslept

/-- Nothing is recorded and nothing committed. -/
theorem Inv.same (h : Inv results s)
    (hpass : system.loop.inPass = true → s.system.loop.inPass = true)
    (hvisit : system.loop.inPass = true → recorded system.visit = recorded s.system.visit)
    (hprocessed : system.processed = s.system.processed) :
    Inv results { s with system := system } where
  events hin := by
    have hevents := h.events (hpass hin)
    simp only [hprocessed, hvisit hin]
    exact hevents
  atCall_le hin := by
    simp only [hprocessed]
    exact h.atCall_le (hpass hin)
  backoffUs := h.backoffUs
  slept := h.slept

theorem recorded_entered (list : ThreadList.State ι) : recorded (entered list) = false := by
  cases hentered : entered list with
  | none => rfl
  | some place =>
      obtain ⟨j, v⟩ := place
      obtain rfl := eq_start_of_entered hentered
      rfl

theorem pace_system (s : State P ι κ) (system : System.State P ι κ) :
    (s.pace system).system = system := by
  unfold State.pace
  repeat' split
  all_goals rfl

theorem pace_of_visit {i : ι} {v : Visit} (hloop : s.system.loop.inPass = true)
    (hvisit : s.system.visit = some (i, v)) :
    s.pace system =
      { s with
        system := system
        wereEvents := s.wereEvents || recorded s.system.visit } := by
  have hin : s.system.loop = .pass ∨ s.system.loop = .drainPass := by
    cases hplace : s.system.loop <;> simp_all [Loop.inPass]
  rcases hin with hin | hin <;> cases v <;> simp [State.pace, hin, hvisit, recorded]

variable [DecidableEq ι]

/-- **A step at a context**: an event is recorded, or committed, or neither. -/
theorem Inv.visitStep (h : Inv results s) {i : ι} {v : Visit} {localTime : ℤ}
    (hloop : s.system.loop.inPass = true) (hvisit : s.system.visit = some (i, v))
    (hstep : visitStep s.system i v localTime = some system) : Inv results (s.pace system) := by
  have hevents := h.events hloop
  have hle := h.atCall_le hloop
  have hrecord : ∀ {record : Processed ι} {sizeRead : UInt64},
      Inv results
        { s with
          system :=
            { s.system with
              processed := s.system.processed ++ [record]
              visit := some (i, .commit sizeRead) } } := by
    intro record sizeRead
    refine ⟨fun _ => ?_, fun _ => ?_, h.backoffUs, h.slept⟩
    · simp only [recorded, or_true, true_iff, List.length_append, List.length_singleton]
      omega
    · simp only [List.length_append]
      omega
  rw [pace_of_visit hloop hvisit]
  simp only [hvisit] at hevents ⊢
  cases visitActs_of_visitStep hstep with
  | @start q | @reload q =>
      simp only [recorded, Bool.or_false]
      refine h.same (fun _ => hloop) (fun _ => ?_) rfl
      cases q.consumer <;> simp [recorded, hvisit]
  | fault | throws | unnamed =>
      simp only [recorded, Bool.or_false]
      exact h.same (fun _ => hloop) (fun hin => by cases hin) rfl
  | decoded | alive =>
      simp only [recorded, Bool.or_false]
      exact h.same (fun _ => hloop) (fun _ => by simp [recorded, hvisit]) rfl
  | dropped | written =>
      simp only [recorded, Bool.or_false]
      exact hrecord
  | commit =>
      refine ⟨fun _ => ?_, fun _ => hle, h.backoffUs, h.slept⟩
      have hlt := hevents.mp (.inr rfl)
      exact iff_of_true (.inl (by simp [recorded])) hlt

theorem loop_of_visitStep {s s' : System.State P ι κ} {i : ι} {v : Visit} {localTime : ℤ}
    (hstep : visitStep s i v localTime = some s') : s'.loop = s.loop ∨ s'.loop = .terminated := by
  cases visitActs_of_visitStep hstep with
  | fault | throws | unnamed => exact .inr rfl
  | _ => exact .inl rfl

/-- **A step of the backend.** -/
theorem Inv.backendStep (h : Inv results s) {localTime : ℤ}
    (hstep : System.backendStep s.system localTime = some system) :
    Inv (results ++ result s (.backend localTime : System.Action P ι κ) (s.pace system))
      (s.pace system) := by
  have hquiet : s.system.loop ≠ .pass ∨ system.loop ≠ .top →
      result s (.backend localTime : System.Action P ι κ) (s.pace system) = [] := by
    intro hloop
    rw [result, pace_system, if_neg]
    rintro ⟨hpass, htop⟩
    exact hloop.elim (absurd hpass) (absurd htop)
  have hin : ∀ {back : Loop}, s.system.loop.back = some back →
      (s.system.loop = .pass ∧ back = .top) ∨ (s.system.loop = .drainPass ∧ back = .drainTop) := by
    intro back hback
    cases hloop : s.system.loop <;> simp_all [Loop.back]
  cases backendActs_of_backendStep hstep with
  | top hloop | pollSink hloop | pollFormatter hloop | drainTop hloop =>
      rw [hquiet (.inl (by simp [hloop])), List.append_nil]
      simp only [State.pace, hloop]
      refine inv_of_outside ?_ h.backoffUs h.slept
      first
        | rfl
        | split <;> rfl
  | @poll inside list' hloop hlist =>
      have hout := (Loop.inPass_of_enters hloop).2
      rw [hquiet (.inl fun hpass => by simp [hpass, Loop.inPass] at hout), List.append_nil]
      have hpace : ∀ t, s.pace t =
          { s with system := t, wereEvents := false, atCall := s.system.processed.length } := by
        intro t
        cases hplace : s.system.loop <;> simp_all [State.pace, Loop.enters]
      rw [hpace]
      refine ⟨fun _ => ?_, fun _ => le_rfl, h.backoffUs, h.slept⟩
      simp [recorded_entered]
  | visit hloop hvisit hstep =>
      rw [hquiet, List.append_nil]
      · exact h.visitStep hloop hvisit hstep
      · rcases loop_of_visitStep hstep with heq | heq
        · rw [heq]
          by_cases hpass : s.system.loop = .pass
          · exact .inr (by simp [hpass])
          · exact .inl hpass
        · exact .inr (by simp [heq])
  | @list list' hloop hvisit hout hlist =>
      have hnot : s.system.loop ≠ .top := by
        intro heq
        rw [heq] at hloop
        cases hloop
      rw [hquiet (.inr hnot), List.append_nil]
      have hpace : ∀ t : System.State P ι κ, t.loop = s.system.loop →
          s.pace t = { s with system := t } := by
        intro t ht
        cases hplace : s.system.loop <;> simp_all [State.pace, Loop.inPass]
      rw [hpace _ (by rfl)]
      have hnone : recorded (entered list') = recorded s.system.visit := by
        rw [recorded_entered, hvisit]
        rfl
      exact h.same (fun _ => hloop) (fun _ => hnone) rfl
  | @passEnd back hback hvisit hout =>
      rcases hin hback with ⟨hloop, rfl⟩ | ⟨hloop, rfl⟩
      · -- `poll_threads` returns to the main loop
        have hlabel : result s (.backend localTime : System.Action P ι κ)
            (s.pace { s.system with loop := .top })
              = [decide (s.atCall < s.system.processed.length)] := by
          rw [result, pace_system, if_pos ⟨hloop, rfl⟩]
        have hevents := h.events (by rw [hloop]; rfl)
        simp only [hvisit, recorded, Bool.false_eq_true, or_false] at hevents
        rw [hlabel]
        simp only [State.pace, hloop, hvisit, if_true]
        cases hwere : s.wereEvents with
        | true =>
            have hlt := hevents.mp hwere
            rw [if_pos rfl, decide_eq_true hlt]
            refine inv_of_outside rfl (pause_concat results true).symm ?_
            simp [pauses_concat, h.slept]
        | false =>
            have hnot : ¬ s.atCall < s.system.processed.length := by simp [← hevents, hwere]
            rw [if_neg (by simp), decide_eq_false hnot]
            refine inv_of_outside rfl ?_ ?_
            · simp [pause_concat, h.backoffUs]
            · simp [pauses_concat, h.slept, h.backoffUs]
      · rw [hquiet (.inl (by simp [hloop])), List.append_nil]
        simp only [State.pace, hloop, hvisit, reduceCtorEq, if_false]
        exact inv_of_outside rfl h.backoffUs h.slept

variable [DecidableEq κ]

theorem sameBackend_of_step {s s' : System.State P ι κ} {a : System.Action P ι κ}
    (ha : a.isBackend = false) (hstep : System.step s a = some s') : SameBackend s s' := by
  cases System.acts_of_step hstep with
  | initThread hidle hhandler hconstruct =>
      obtain ⟨-, rfl⟩ := construct_eq_some hconstruct
      exact ⟨rfl, rfl, rfl⟩
  | log hidle hlog =>
      rcases log_eq_some hlog with ⟨-, -, hconstruct⟩ | ⟨-, cached, rfl⟩
      · obtain ⟨-, rfl⟩ := construct_eq_some hconstruct
        exact ⟨rfl, rfl, rfl⟩
      · exact ⟨rfl, rfl, rfl⟩
  | thread hthread => cases threadActs_of_threadStep hthread <;> exact ⟨rfl, rfl, rfl⟩
  | backend => cases ha
  | _ => exact ⟨rfl, rfl, rfl⟩

/-- **Every step.** -/
theorem Inv.step (h : Inv results s) {a : System.Action P ι κ} {s' : State P ι κ}
    (hstep : Backoff.step s a = some s') : Inv (results ++ result s a s') s' := by
  obtain ⟨system, hsystem, rfl⟩ := Option.map_eq_some_iff.mp hstep
  by_cases ha : a.isBackend = true
  · rw [if_pos ha]
    cases a with
    | backend localTime => exact h.backendStep hsystem
    | _ => cases ha
  · rw [if_neg ha]
    obtain ⟨hloop, hvisit, hprocessed⟩ := sameBackend_of_step (by simpa using ha) hsystem
    have hquiet : result s a { s with system := system } = [] := by
      rw [result, if_neg]
      rintro ⟨hpass, htop⟩
      rw [hloop, hpass] at htop
      cases htop
    rw [hquiet, List.append_nil]
    exact h.same (fun hpass => hloop ▸ hpass) (fun _ => by rw [hvisit]) hprocessed

/-- **The backend sleeps when there is nothing to do**, and only then.  In every run, with the
results of the calls of `poll_threads` from the main loop, `true` for those in which an event was
processed: it has slept once for each call that processed nothing, for `2 ^ k` microseconds but at
most 200 when `k` such calls came directly before; and so long it is going to sleep next. -/
theorem exec_paced {as : List (System.Action P ι κ)} (hexec : exec step Backoff.init as = some s) :
    s.slept = pauses (trace result step Backoff.init as) ∧
      s.backoffUs = pause (trace result step Backoff.init as) := by
  have halong : Along (fun _ _ => True) step (Backoff.init : State P ι κ) as :=
    Along.of_mem (fun _ _ _ => trivial) _
  have h : Inv (trace result step Backoff.init as) s := by
    refine exec_induction_trace (fun results (t : State P ι κ) => Inv results t) ?_ inv_init halong
      hexec
    intro results t a t' h _ hstep
    exact h.step hstep
  exact ⟨h.slept, h.backoffUs⟩

/-- Two calls find nothing, one processes an event, and the next finds nothing again. -/
def pausesRun : List (System.Action helloProgram ℕ ℕ) :=
  backendRun 10 ++ firstLogRun 0 100 8192 ++ backendRun 22

theorem exec_paced_pausesRun :
    ∃ s, exec step Backoff.init pausesRun = some s ∧
      trace result step Backoff.init pausesRun = [false, false, true, false] ∧
      s.slept = [1, 2, 1] ∧
      s.slept = pauses (trace result step Backoff.init pausesRun) ∧
      s.backoffUs = pause (trace result step Backoff.init pausesRun) := by
  have hrun : (exec step Backoff.init pausesRun).map
      (fun s => (trace result step Backoff.init pausesRun, s.slept))
        = some ([false, false, true, false], [1, 2, 1]) := by
    decide +kernel
  obtain ⟨s, hs, hstate⟩ := Option.map_eq_some_iff.mp hrun
  obtain ⟨htrace, hslept⟩ := Prod.mk.inj hstate
  exact ⟨s, hs, htrace, hslept, exec_paced hs⟩

end Papper.Backoff
