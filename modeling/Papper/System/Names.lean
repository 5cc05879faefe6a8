import Papper.Lib.Refinement
import Papper.System.Flow

/-!
# The names of threads

A thread gets its name when its handler is constructed, by `init_thread` or by its first log call,
and keeps it: the names of later calls of `init_thread` are not looked at.  Threads that ask for
no name are numbered, in the order in which their handlers are constructed, with an `int` that
wraps.

## Main definitions

* `constructed` — the handler that a step constructs, with the name that is asked for.
* `unnamed` — how many have asked for no name.
* `exec_named` — the lines of a thread have its name.
-/

namespace Papper.System

open Transition

variable {P : Program} {ι κ : Type}

/-! ## What the names are -/

/-- How many have asked for none. -/
def unnamed (requests : List (ι × List Char)) : ℕ := (requests.filter fun r => r.2 = []).length

theorem unnamed_append (requests later : List (ι × List Char)) :
    unnamed (requests ++ later) = unnamed requests + unnamed later := by
  simp [unnamed]

@[simp] theorem unnamed_singleton (i : ι) (name : List Char) :
    unnamed [(i, name)] = if name = [] then 1 else 0 := by
  by_cases hname : name = []
  · simp [unnamed, hname]
  · simp [unnamed, hname]

variable {s s' : State P ι κ}

/-! ## Who asks -/

/-- The handler constructed in a step from `s` to `s'`, with the name that is asked for. -/
def constructed (s : State P ι κ) (a : Action P ι κ) (s' : State P ι κ) : List (ι × List Char) :=
  match a with
  | .initThread i name _ _ =>
      if (s.threads i).handler ≠ (s'.threads i).handler then [(i, name)] else []
  | .log i _ _ _ => if (s.threads i).handler ≠ (s'.threads i).handler then [(i, [])] else []
  | _ => []

/-- What has been asked for, and what the names are. -/
structure Named (requests : List (ι × List Char)) (s : State P ι κ) : Prop where
  nodup : (requests.map Prod.fst).Nodup
  asked : ∀ i, i ∈ requests.map Prod.fst ↔ (s.threads i).handler ≠ .notConstructed
  counter : s.unnamedThreadCounter = Int32.ofNat (unnamed requests)
  name : ∀ before i name after, requests = before ++ (i, name) :: after →
    (s.threads i).context.name = threadName (Int32.ofNat (unnamed before)) name

/-- The names are what they were. -/
structure SameNames (s s' : State P ι κ) : Prop where
  counter : s'.unnamedThreadCounter = s.unnamedThreadCounter
  handler : ∀ i, (s'.threads i).handler = .notConstructed ↔ (s.threads i).handler = .notConstructed
  name : ∀ i, (s'.threads i).context.name = (s.threads i).context.name

theorem sameNames_of_threads_eq (hthreads : s'.threads = s.threads)
    (hcounter : s'.unnamedThreadCounter = s.unnamedThreadCounter) : SameNames s s' :=
  ⟨hcounter, fun i => by rw [hthreads], fun i => by rw [hthreads]⟩

theorem Named.same {requests : List (ι × List Char)} (h : Named requests s)
    (hsame : SameNames s s') : Named requests s' where
  nodup := h.nodup
  asked i := (h.asked i).trans (not_congr (hsame.handler i)).symm
  counter := hsame.counter.trans h.counter
  name before i name after heq := (hsame.name i).trans (h.name before i name after heq)

variable [DecidableEq ι]

/-- A handler is constructed. -/
theorem Named.construct {requests : List (ι × List Char)} (h : Named requests s) {i : ι}
    {name : List Char} {queueSize : ℕ} {namePtr : UInt64} {request : Option (Request P κ)}
    (hhandler : (s.threads i).handler = .notConstructed)
    (hstep : construct s i name queueSize namePtr request = some s') :
    Named (requests ++ [(i, name)]) s' ∧ (s.threads i).handler ≠ (s'.threads i).handler := by
  have hnew : i ∉ requests.map Prod.fst := by
    rw [h.asked i, hhandler]
    exact not_not.mpr rfl
  obtain ⟨-, rfl⟩ := construct_eq_some hstep
  refine ⟨⟨?_, ?_, ?_, ?_⟩, by simp [hhandler]⟩
  · rw [List.map_append, List.nodup_append]
    exact ⟨h.nodup, List.nodup_singleton _, by simpa using fun j hj => ne_of_mem_of_not_mem hj hnew⟩
  · intro j
    by_cases hj : j = i
    · subst hj
      simp
    · simp [hj, ← h.asked j]
  · simp only [unnamed_append, unnamed_singleton, h.counter]
    split
    · exact (Int32.ofNat_add _ 1).symm
    · rfl
  · intro before j name' after heq
    rcases List.eq_nil_or_concat after with rfl | ⟨later, last, rfl⟩
    · obtain ⟨rfl, hlast⟩ := List.append_inj' heq rfl
      obtain ⟨rfl, rfl⟩ := Prod.mk.inj (List.singleton_inj.mp hlast)
      simp only [Function.update_self, h.counter]
    · rw [List.concat_eq_append, ← List.cons_append, ← List.append_assoc] at heq
      obtain ⟨hbefore, -⟩ := List.append_inj' heq rfl
      have hj : j ≠ i := by
        rintro rfl
        exact hnew (by simp [hbefore])
      simp only [Function.update_of_ne hj]
      exact h.name before j name' later hbefore

/-! ## One step -/

/-- A thread that keeps its handler and its name. -/
theorem sameNames_update {i : ι} {t : Thread P κ}
    (hthreads : s'.threads = Function.update s.threads i t)
    (hcounter : s'.unnamedThreadCounter = s.unnamedThreadCounter)
    (hhandler : t.handler = .notConstructed ↔ (s.threads i).handler = .notConstructed)
    (hname : t.context.name = (s.threads i).context.name) : SameNames s s' := by
  refine ⟨hcounter, fun j => ?_, fun j => ?_⟩
  · rw [hthreads]
    exact (Function.forall_update_iff s.threads fun j t =>
      (t.handler = .notConstructed ↔ (s.threads j).handler = .notConstructed)).mpr
        ⟨hhandler, fun _ _ => Iff.rfl⟩ j
  · rw [hthreads]
    exact (Function.forall_update_iff s.threads fun j t =>
      t.context.name = (s.threads j).context.name).mpr ⟨hname, fun _ _ => rfl⟩ j

theorem sameNames_visit {i : ι} {v : Visit} (hstep : VisitStep s i v s') : SameNames s s' := by
  cases hstep with
  | goOn | committed => exact sameNames_update rfl rfl Iff.rfl rfl
  | processed | terminated | left => exact sameNames_of_threads_eq rfl rfl

theorem sameNames_backend (hstep : BackendStep s s') : SameNames s s' := by
  cases hstep with
  | visit hvisit hprocessing hstep => exact sameNames_visit hstep
  | _ => exact sameNames_of_threads_eq rfl rfl

variable [DecidableEq κ]

theorem sameNames_thread {i : ι} (hstep : ThreadActs s i s') : SameNames s s' := by
  cases hstep <;> exact sameNames_update rfl rfl Iff.rfl rfl

/-- **A step gives out a name, or keeps all names.** -/
theorem Named.step {requests : List (ι × List Char)} (h : Named requests s) (hflow : FlowInv s)
    (hlife : LifeInv s) {a : Action P ι κ} (hstep : System.step s a = some s') :
    Named (requests ++ constructed s a s') s' := by
  have hnone : constructed s a s' = [] → SameNames s s' →
      Named (requests ++ constructed s a s') s' := by
    intro hnil hsame
    rw [hnil, List.append_nil]
    exact h.same hsame
  cases acts_of_step hstep with
  | @initThread i name _ _ _ hidle hhandler hconstruct =>
      obtain ⟨hnamed, hnew⟩ := h.construct hhandler hconstruct
      simpa only [constructed, if_pos hnew] using hnamed
  | initAgain => exact hnone (if_neg (not_not.mpr rfl)) (sameNames_of_threads_eq rfl rfl)
  | @log i r _ _ _ hidle hlog =>
      rcases log_eq_some hlog with ⟨-, hhandler, hconstruct⟩ | ⟨-, cached, rfl⟩
      · obtain ⟨hnamed, hnew⟩ := h.construct hhandler hconstruct
        simpa only [constructed, if_pos hnew] using hnamed
      · refine hnone ?_ (sameNames_update rfl rfl Iff.rfl rfl)
        simp [constructed, State.setThread]
  | thread hthread => exact hnone rfl (sameNames_thread (threadActs_of_threadStep hthread))
  | kill hidle hhandler =>
      refine hnone rfl (sameNames_update rfl rfl ?_ rfl)
      simp [hhandler]
  | setSink | setFormatter => exact hnone rfl (sameNames_update rfl rfl Iff.rfl rfl)
  | backend hbackend => exact hnone rfl (sameNames_backend (backendStep_cases hflow hlife hbackend))
  | newNode | registrar | setLevel | shutdown =>
      exact hnone rfl (sameNames_of_threads_eq rfl rfl)

omit [DecidableEq κ] in
/-- A record is of an event that its thread has committed. -/
theorem exists_describes (hflow : FlowInv s) {r : Processed ι} (hr : r ∈ s.processed) :
    ∃ p ∈ (s.threads r.thread).accepted, Describes (s.threads r.thread).context.name p r := by
  obtain ⟨n, hn⟩ := hflow.exists_matches r.thread
  have hmem : r ∈ recordsOf s.processed r.thread := List.mem_filter.mpr ⟨hr, by simp⟩
  obtain ⟨k, hk, hrecord⟩ := List.getElem_of_mem hmem
  have hk' : k < ((s.threads r.thread).accepted.take n).length := hn.describes.length_eq ▸ hk
  have hget := hn.describes.get hk' hk
  simp only [List.get_eq_getElem, hrecord] at hget
  exact ⟨_, List.mem_of_mem_take (List.getElem_mem hk'), hget⟩

omit [DecidableEq κ] in
/-- Every line has the name of its thread. -/
theorem Named.line {requests : List (ι × List Char)} (h : Named requests s) (hflow : FlowInv s)
    {r : Processed ι} (hr : r ∈ s.processed) {line : Line} (hline : r.line = some line) :
    ∃ before name after, requests = before ++ (r.thread, name) :: after ∧
      line.data.threadName = threadName (Int32.ofNat (unnamed before)) name := by
  obtain ⟨p, hp, hdescribes⟩ := exists_describes hflow hr
  have hconstructed : (s.threads r.thread).handler ≠ .notConstructed := by
    intro hfresh
    rw [(hflow.thread r.thread).fresh hfresh] at hp
    cases hp
  obtain ⟨⟨i, name⟩, hmem, hi⟩ := List.mem_map.mp ((h.asked r.thread).mpr hconstructed)
  obtain ⟨before, after, hrequests⟩ := List.append_of_mem hmem
  obtain rfl : i = r.thread := hi
  have hwritten : ¬ p.event.call.site.level < r.minLogLevel := by
    intro hlt
    rw [hdescribes.dropped hlt] at hline
    cases hline
  obtain ⟨l, message, localTime, hl, -, hdata⟩ := hdescribes.written hwritten
  obtain rfl : l = line := Option.some.inj (hl.symm.trans hline)
  refine ⟨before, name, after, hrequests, ?_⟩
  rw [hdata]
  exact h.name before _ name after hrequests

end Papper.System
