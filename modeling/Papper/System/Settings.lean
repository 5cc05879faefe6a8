import Papper.System.Flow

/-!
# When a setting takes effect

A sink or a pattern that a thread sets waits in a mailbox until the backend looks into it,
at one place of its loop, and the backend reads the queues at another.  So an event that
the thread logs after the call can be written with the old setting: when the backend has
looked already, and when it looks no more, in the drain loop.

Settings and events carry stamps here.  An event has those of the last sink and the last
pattern that its thread had set, and the one in force has the number of the last call
before the backend looked.

## Main definitions

* `SettingsFresh` — no line was made with a setting older than its event's.
* `Polled` — the backend has looked since.
* `exec_settingsFresh_iff` — the one holds if the other does at every step, and only then.
-/

namespace Papper.System

open Transition

variable {P : Program} {ι κ : Type}

/-- The line of an event, if there is one, was made with the settings its thread had set
before it logged the event, or with later ones. -/
def Processed.Fresh (r : Processed ι) (p : Push P) : Prop :=
  ∀ l, r.line = some l → p.sinkStamp ≤ l.sink.stamp ∧ p.formatterStamp ≤ l.formatter.stamp

variable [DecidableEq ι]

/-- The event of a thread that is processed next. -/
def State.nextPush (s : State P ι κ) (i : ι) : Option (Push P) :=
  (s.threads i).accepted[(recordsOf s.processed i).length]?

/-- No line was made with an older setting than its event's. -/
def SettingsFresh (s : State P ι κ) : Prop :=
  ∀ (i : ι) (j : ℕ) (p : Push P) (r : Processed ι), (s.threads i).accepted[j]? = some p →
    (recordsOf s.processed i)[j]? = some r → r.Fresh p

/-- When the backend is about to make a line of an event, it has looked into both
mailboxes since the thread of the event last put something there before it logged the
event. -/
def Polled (s : State P ι κ) : Action P ι κ → Prop
  | .backend _ =>
      ∀ i ∈ s.processing, ∀ p ∈ s.nextPush i, ¬ p.event.call.site.level < s.minLogLevel →
        p.sinkStamp ≤ s.sinkPolled ∧ p.formatterStamp ≤ s.formatterPolled
  | _ => True

instance decidablePolled (s : State P ι κ) : (a : Action P ι κ) → Decidable (Polled s a)
  | .backend _ =>
      inferInstanceAs (Decidable (∀ i ∈ s.processing, ∀ p ∈ s.nextPush i,
        ¬ p.event.call.site.level < s.minLogLevel →
          p.sinkStamp ≤ s.sinkPolled ∧ p.formatterStamp ≤ s.formatterPolled))
  | .initThread .. | .log .. | .newNode .. | .registrar .. | .thread .. | .kill .. | .setLevel ..
  | .setSink .. | .setFormatter .. | .shutdown => isTrue trivial

/-- The mailboxes are what their counters say. -/
structure Mailboxes (s : State P ι κ) : Prop where
  sink : s.sink.Tracks s.sinkCalls s.sinkPolled
  formatter : s.formatter.Tracks s.formatterCalls s.formatterPolled

variable {s s' : State P ι κ} {i : ι}

theorem Mailboxes.step (h : Mailboxes s) {a : Action P ι κ} (hstep : Step s a s') :
    Mailboxes s' := by
  cases hstep with
  | construct ha hhandler hsize hstep =>
      obtain ⟨-, rfl⟩ := construct_eq_some hstep
      exact ⟨h.sink, h.formatter⟩
  | setSink => exact ⟨h.sink.queue _, h.formatter⟩
  | setFormatter => exact ⟨h.sink, h.formatter.queue _⟩
  | backend hstep =>
      cases hstep with
      | pollSink => exact ⟨h.sink.poll, h.formatter⟩
      | pollFormatter => exact ⟨h.sink, h.formatter.poll⟩
      | visit hvisit hprocessing hstep => cases hstep <;> exact ⟨h.sink, h.formatter⟩
      | _ => exact ⟨h.sink, h.formatter⟩
  | _ => exact ⟨h.sink, h.formatter⟩

theorem Polled.of_processing (h : s.processing = none) (localTime : ℤ) :
    Polled s (.backend localTime) := by
  intro i hi
  rw [h] at hi
  cases hi

/-- A step that makes no record. -/
theorem settingsFresh_congr (hflow : FlowInv s) (hprocessed : s'.processed = s.processed)
    (haccepted : ∀ i, (s.threads i).accepted <+: (s'.threads i).accepted) :
    SettingsFresh s' ↔ SettingsFresh s := by
  constructor
  · intro h i j p r hp hr
    obtain ⟨later, hlater⟩ := haccepted i
    have hlt : j < (s.threads i).accepted.length := (List.getElem?_eq_some_iff.mp hp).1
    refine h i j p r ?_ (by rwa [hprocessed])
    rw [← hlater, List.getElem?_append_left hlt, hp]
  · intro h i j p r hp hr
    rw [hprocessed] at hr
    obtain ⟨later, hlater⟩ := haccepted i
    obtain ⟨n, hn⟩ := hflow.exists_matches i
    have hlt : j < (s.threads i).accepted.length := by
      have hj := (List.getElem?_eq_some_iff.mp hr).1
      rw [hn.length_eq] at hj
      exact hj.trans_le hn.le
    rw [← hlater, List.getElem?_append_left hlt] at hp
    exact h i j p r hp hr

/-- A step that makes a record. -/
theorem settingsFresh_processed {p : Push P} {r : Processed ι} (hr : r.thread = i)
    (hp : s.nextPush i = some p) {visit : Option (ι × Visit)} :
    SettingsFresh { s with processed := s.processed ++ [r], visit := visit } ↔
      SettingsFresh s ∧ r.Fresh p := by
  have hself : recordsOf (s.processed ++ [r]) i = recordsOf s.processed i ++ [r] :=
    recordsOf_concat_self hr
  have hother : ∀ j, j ≠ i → recordsOf (s.processed ++ [r]) j = recordsOf s.processed j := by
    intro j hj
    exact recordsOf_concat_of_ne (by rw [hr]; exact hj.symm)
  constructor
  · intro h
    constructor
    · intro j n q u hq hu
      apply h j n q u hq
      by_cases hj : j = i
      · subst j
        simp only [hself]
        rw [List.getElem?_append_left (List.getElem?_eq_some_iff.mp hu).1, hu]
      · simp only [hother j hj]
        exact hu
    · apply h i _ p r hp
      simp only [hself, List.getElem?_concat_length]
  · intro h j n q u hq hu
    by_cases hj : j = i
    · subst j
      simp only [hself] at hu
      rcases getElem?_concat_cases hu with hold | ⟨rfl, rfl⟩
      · exact h.1 i n q u hq hold
      · obtain rfl := Option.some.inj (hp.symm.trans hq)
        exact h.2
    · simp only [hother j hj] at hu
      exact h.1 j n q u hq hu

/-- A step that makes no record has nothing to look for. -/
theorem Polled.of_records {a : Action P ι κ} (h : a.isBackend = true → s.processing = none) :
    Polled s a := by
  cases a with
  | backend localTime => exact .of_processing (h rfl) localTime
  | _ => trivial

/-- **A step keeps the lines fresh exactly if the backend has looked.** -/
theorem settingsFresh_step (hflow : FlowInv s) (hmail : Mailboxes s) {a : Action P ι κ}
    (hstep : Step s a s') : SettingsFresh s' ↔ SettingsFresh s ∧ Polled s a := by
  cases hstep.records with
  | none hprocessed haccepted hprocessing =>
      rw [and_iff_left (Polled.of_records hprocessing)]
      exact settingsFresh_congr hflow hprocessed haccepted
  | @one i event message p line hbackend hvisit hi hp hdescribes hline hs' =>
      have hnext : s.nextPush i = some p := hp
      cases a with
      | backend localTime =>
          rw [hs', settingsFresh_processed rfl hnext]
          apply and_congr_right
          intro _
          constructor
          · intro hfresh j hj q hq hlevel
            obtain rfl := Option.some.inj (hi.symm.trans hj)
            obtain rfl := Option.some.inj (hnext.symm.trans hq)
            obtain ⟨l, _, _, hl, -, -⟩ := hdescribes.written hlevel
            obtain ⟨hformatter, hsink⟩ := hline l hl
            have hstamps := hfresh l hl
            rwa [hsink, hformatter, hmail.sink.current, hmail.formatter.current] at hstamps
          · intro hpolled l hl
            obtain ⟨hformatter, hsink⟩ := hline l hl
            rw [hsink, hformatter, hmail.sink.current, hmail.formatter.current]
            apply hpolled i hi p hnext
            intro hlevel
            rw [hdescribes.dropped hlevel] at hl
            cases hl
      | _ => cases hbackend

variable [DecidableEq κ]

/-- **A setting takes effect for what its thread logs next exactly if the backend looks
into the mailboxes in between.**  At the end of a run no line was made with a sink or a
pattern older than the last one its thread had set before it logged the event, if and only
if the backend had, at each line of the run, looked into both mailboxes since. -/
theorem exec_settingsFresh_iff {as : List (Action P ι κ)} (hclient : Along Client step init as)
    (hexec : exec step init as = some s) : SettingsFresh s ↔ Along Polled step init as := by
  have hfresh : SettingsFresh (init : State P ι κ) := by
    intro i j p r hp
    cases hp
  have hmail : Mailboxes (init : State P ι κ) := ⟨.init _, .init _⟩
  have hrun : SettingsFresh s ↔
      SettingsFresh (init : State P ι κ) ∧ Along Polled step init as := by
    refine exec_iff_along (fun t => LifeInv t ∧ FlowInv t ∧ Mailboxes t) SettingsFresh ?_
      ⟨lifeInv_init, flowInv_init, hmail⟩ hclient hexec
    intro t a t' ⟨hlife, hflow, hmail⟩ hc hstep
    have hcases := step_cases hflow hlife hc hstep
    exact ⟨⟨hlife.step hc.notLate hstep, hflow.step hlife hcases, hmail.step hcases⟩,
      settingsFresh_step hflow hmail hcases⟩
  rw [hrun, and_iff_right hfresh]

/-- `{message}`. -/
def messageFormatter : ParsedPattern where
  error := .None
  fmtStr := "\x7b\x7d".toList
  fields := [.Message]
  specs := [.None]

/-- A thread sets a sink and a pattern and logs. -/
def setRun : List (Action helloProgram ℕ ℕ) :=
  [.setSink 0 (.other 0), .setFormatter 0 messageFormatter] ++ firstLogRun 0 100 8192

/-- The backend does all its work after that. -/
theorem exec_settingsFresh_iff_setRun :
    ∃ s, exec step init (setRun ++ backendRun 10) = some s ∧
      s.processed.map (fun r => r.line.map fun l => l.sink.value) = [some (.other 0)] ∧
      SettingsFresh s := by
  have hrun : (exec step init (setRun ++ backendRun 10)).map (fun s =>
      s.processed.map fun r => r.line.map fun l => l.sink.value) = some [some (.other 0)] := by
    decide +kernel
  obtain ⟨s, hs, hline⟩ := Option.map_eq_some_iff.mp hrun
  exact ⟨s, hs, hline, (exec_settingsFresh_iff (by decide +kernel) hs).mpr (by decide +kernel)⟩

/-- The thread ends and the program is shut down before the backend has made a step. -/
def shutdownRun : List (Action helloProgram ℕ ℕ) :=
  setRun ++ [.kill 0, .shutdown] ++ backendRun 10

/-- Its event is written in the drain loop, with the sink and the pattern that were there
before. -/
theorem exec_stale_shutdownRun :
    Along Client step init shutdownRun ∧ ∃ s, exec step init shutdownRun = some s ∧
      s.processed.map (fun r => r.line.map fun l => (l.sink.value, l.formatter.value))
        = [some (.stdout, defaultFormatter)] ∧ ¬ SettingsFresh s := by
  refine ⟨by decide +kernel, _, rfl, rfl, fun hfresh => ?_⟩
  have hstamps := hfresh 0 0 _ _ rfl rfl _ rfl
  exact absurd hstamps.1 (by decide)

end Papper.System
