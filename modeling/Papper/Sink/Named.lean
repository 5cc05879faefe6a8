import Papper.Lib.Refinement
import Papper.Lib.Stdio
import Papper.Sink

/-!
# Sinks with a name

`set_sink` with the name of a file opens it and hands the stream over.  Every such stream is new,
so nothing is used or closed twice; but there may be several streams of one file, one that is
written to and others that wait.  `exec_expected` says what is in the files: when they are opened to
append, as they are unless something else is asked for, a file has what was there before and then
all lines that were written to it, however often it was opened meanwhile.  A file that is
truncated has the lines since then, provided that no stream of it was open and that it is not
opened again while the new stream waits.  `along_mayOpen` says that nothing of this kind is asked of
runs that truncate nothing.

## Main definitions

* `State`, `Action`, `step` — the sink handler with the files.
* `Event`, `expected` — what should be in the files.
* `MayOpen` — the proviso.
-/

namespace Papper.NamedSink

open Transition Sink Stdio

variable {π ι : Type}

/-- What a call into `stdio` does to the files.  The standard streams are none of them. -/
def perform [DecidableEq π] (fs : Files π) : Op → Files π
  | .fclose (.other n) => fs.fclose n
  | .fflush (.other n) => fs.fflush n
  | .setvbuf (.other n) _ _ => fs.touch n
  | .fwrite (.other n) str => fs.fwrite n str
  | .fputc (.other n) c => fs.fwrite n [c]
  | _ => fs

structure State (π ι : Type) where
  sink : Machine ι
  files : Files π

def init (content : π → List Char) : State π ι := ⟨Sink.init, Files.init content⟩

inductive Action (π ι : Type)
  /-- `set_sink` with a name, up to the exchange: `fopen` makes a stream. -/
  | setSink (t : ι) (path : π) (truncate : Bool) (flushOn : ℤ) (bufferSize : ℕ)
  /-- `fopen` fails, and `set_sink` returns `errno`. -/
  | setSinkFails (t : ι) (path : π)
  | sink (a : Sink.Action ι)
  /-- `stdio` writes a part of a buffer out. -/
  | writeOut (n k : ℕ)

/-- Only standard streams are handed over. -/
def standard : Sink.Action ι → Bool
  | .queueNewSink _ (some (.other _)) _ _ => false
  | _ => true

section Step
variable [DecidableEq π] [DecidableEq ι] [Fintype ι]

def step (s : State π ι) : Action π ι → Option (State π ι)
  | .setSink t path truncate flushOn bufferSize =>
      (Sink.step s.sink
        (.queueNewSink t (some (.other s.files.opened)) flushOn bufferSize)).map fun sink =>
          ⟨sink, s.files.fopen path truncate⟩
  | .setSinkFails t _ => if s.sink.pc.usable ∧ s.sink.calls t = none then some s else none
  | .sink a =>
      if standard a then
        (Sink.step s.sink a).map fun sink =>
          ⟨sink, (sink.ops.drop s.sink.ops.length).foldl perform s.files⟩
      else none
  | .writeOut n k =>
      if (s.files.path n).isSome then some { s with files := s.files.writeOut n k } else none

end Step

/-! ## What should be in the files -/

/-- The stream of a file that is no standard stream. -/
def streamOf : File → Option ℕ
  | .other n => some n
  | _ => none

/-- The stream of the current file, while it is there. -/
def writer (m : Machine ι) : Option ℕ :=
  match m.pc with
  | .install _ => none
  | .destroyed => none
  | _ => streamOf m.file

/-- The name of the current file. -/
def State.current (s : State π ι) : Option π := (writer s.sink).bind s.files.path

inductive Event (π : Type)
  | opened (path : π) (truncate : Bool)
  | line (path : π) (text : List Char)

def Event.apply [DecidableEq π] (content : π → List Char) : Event π → π → List Char
  | opened path truncate => if truncate then Function.update content path [] else content
  | line path text => Function.update content path (content path ++ text ++ ['\n'])

/-- What these events make of the files. -/
def expected [DecidableEq π] (content : π → List Char) (events : List (Event π)) :
    π → List Char :=
  events.foldl Event.apply content

theorem expected_append [DecidableEq π] (content : π → List Char) (events later : List (Event π)) :
    expected content (events ++ later) = expected (expected content events) later :=
  List.foldl_append

/-- What a step does to them: a file is opened, or a line is written to the current one. -/
def event (s : State π ι) (a : Action π ι) (_ : State π ι) : List (Event π) :=
  match a with
  | .setSink _ path truncate _ _ => [.opened path truncate]
  | .sink (.writeStrAndEndl str) => (s.current.map (.line · str)).toList
  | _ => []

/-- The proviso on the files that are opened. -/
def MayOpen (s : State π ι) : Action π ι → Prop
  | .setSink _ path truncate _ _ => s.files.MayOpen (writer s.sink) path truncate
  | _ => True

instance decidableMayOpen [DecidableEq π] (s : State π ι) :
    (a : Action π ι) → Decidable (MayOpen s a)
  | .setSink _ path truncate _ _ =>
      inferInstanceAs (Decidable (s.files.MayOpen (writer s.sink) path truncate))
  | .setSinkFails .. | .sink _ | .writeOut .. => isTrue trivial

/-! ## The invariant -/

theorem holdsFile_eq (m : Machine ι) (n : ℕ) :
    m.holdsFile n = if writer m = some n then 1 else 0 := by
  cases hpc : m.pc <;> cases hfile : m.file <;>
    simp [Machine.holdsFile, writer, streamOf, hpc, hfile, File.holds]

theorem file_of_writer {m : Machine ι} {n : ℕ} (h : writer m = some n) : m.file = .other n := by
  cases hpc : m.pc <;> cases hfile : m.file <;> simp_all [writer, streamOf]

/-- The end of the line that is being written to this file. -/
def State.endLine [DecidableEq π] (s : State π ι) (p : π) : List Char :=
  if s.sink.pc = .endl ∧ s.current = some p then ['\n'] else []

variable [DecidableEq π] [Fintype ι]

/-- A stream is open as long as somebody owns it, and the files have what they should. -/
structure Inv (content : π → List Char) (s : State π ι) : Prop where
  ordered : s.files.Ordered (writer s.sink)
  owned : ∀ n, owners n s.sink = if (s.files.path n).isSome then 1 else 0
  quiet : Quiet s.sink
  text : ∀ p, s.files.text (writer s.sink) p ++ s.endLine p = content p

theorem inv_init (content : π → List Char) : Inv content (init content : State π ι) where
  ordered := Files.ordered_init content
  owned n := owners_init n
  quiet := by simp [Quiet, init, Sink.init, Pc.usable]
  text p := by simp [State.endLine, init, Sink.init, Files.text, Files.unwritten, writer, streamOf,
    Files.init]

variable {s s' : State π ι} {content : π → List Char}

/-- What somebody owns is open. -/
theorem Inv.stream_open (h : Inv content s) {n : ℕ} (hpos : 0 < owners n s.sink) :
    ∃ st, s.files.streams n = some st := by
  have howned := h.owned n
  by_cases hopen : (s.files.path n).isSome = true
  · exact Option.isSome_iff_exists.mp (by simpa [Files.path] using hopen)
  · rw [if_neg hopen] at howned
    omega

variable [DecidableEq ι]

omit [DecidableEq π] in
/-- A step takes one owner from each file it closes. -/
theorem owners_step {m m' : Machine ι} {a : Sink.Action ι} (hstep : Sink.step m a = some m')
    {new : List Op} (hops : m'.ops = m.ops ++ new) (n : ℕ) :
    (closed new).count (.other n) + owners n m'
      = owners n m + (handedOver [a]).count (.other n) := by
  have hcount := step_count n hstep
  rw [hops, closed_append, List.count_append] at hcount
  omega

/-- A step of the handler, with what its calls do to the files. -/
theorem Inv.sinkStep (h : Inv content s) {a : Sink.Action ι} {sink : Machine ι}
    (hstep : Sink.step s.sink a = some sink) (hstandard : standard a = true) {new : List Op}
    (hops : sink.ops = s.sink.ops ++ new) {content' : π → List Char}
    (hordered : (new.foldl perform s.files).Ordered (writer sink))
    (hpath : ∀ n, (new.foldl perform s.files).path n
      = if .other n ∈ closed new then none else s.files.path n)
    (htext : ∀ p, (new.foldl perform s.files).text (writer sink) p
      ++ State.endLine ⟨sink, new.foldl perform s.files⟩ p = content' p) :
    Inv content' ⟨sink, (sink.ops.drop s.sink.ops.length).foldl perform s.files⟩ := by
  rw [hops, List.drop_left]
  refine ⟨hordered, fun n => ?_, step_quiet h.quiet hstep, htext⟩
  have hnone : (handedOver [a]).count (.other n) = 0 := by
    cases a with
    | queueNewSink t file mode size =>
        cases file with
        | none => rfl
        | some f =>
            cases f with
            | other k => cases hstandard
            | _ => rfl
    | _ => rfl
  have hcount := owners_step hstep hops n
  have howned := h.owned n
  rw [hnone] at hcount
  change owners n sink = if ((new.foldl perform s.files).path n).isSome then 1 else 0
  rw [hpath]
  by_cases hclosed : File.other n ∈ closed new
  · have hpos := List.count_pos_iff.mpr hclosed
    rw [if_pos hclosed]
    split at howned <;> simp <;> omega
  · rw [List.count_eq_zero.mpr hclosed] at hcount
    rw [if_neg hclosed]
    omega

/-- A step of the handler that makes no call. -/
theorem Inv.still (h : Inv content s) {a : Sink.Action ι} {sink : Machine ι}
    (hstep : Sink.step s.sink a = some sink) (hstandard : standard a = true)
    (hops : sink.ops = s.sink.ops) (hwriter : writer sink = writer s.sink)
    (hendl : sink.pc = .endl ↔ s.sink.pc = .endl) :
    Inv content ⟨sink, (sink.ops.drop s.sink.ops.length).foldl perform s.files⟩ := by
  have hnew : sink.ops = s.sink.ops ++ [] := by rw [hops, List.append_nil]
  refine h.sinkStep hstep hstandard hnew ?_ (fun n => rfl) fun p => ?_
  · rw [hwriter]
    exact h.ordered
  · have htext := h.text p
    simp only [State.endLine, State.current, List.foldl_nil, hwriter, hendl] at htext ⊢
    exact htext

omit [DecidableEq ι] in
/-- What is done to the files when one is closed by an owner. -/
theorem Inv.files_closeFile (h : Inv content s) {f : File}
    (howner : ∀ n, f = .other n → 0 < owners n s.sink) {writer' : Option ℕ}
    (hwriter : ∀ m, writer' = some m ↔ writer s.sink = some m ∧ f ≠ .other m) :
    ((closeFile f).foldl perform s.files).Ordered writer' ∧
      ((closeFile f).foldl perform s.files).text writer' = s.files.text (writer s.sink) ∧
      ∀ n, ((closeFile f).foldl perform s.files).path n
        = if .other n ∈ closed (closeFile f) then none else s.files.path n := by
  cases f with
  | stdout | stderr =>
      have hsame : writer' = writer s.sink := Option.ext fun m => by simpa using hwriter m
      subst hsame
      exact ⟨h.ordered, rfl, fun n => rfl⟩
  | other k =>
      obtain ⟨st, hst⟩ := h.stream_open (howner k rfl)
      have hremoved : ∀ m, writer' = some m ↔ writer s.sink = some m ∧ m ≠ k := by
        intro m
        rw [hwriter m]
        simp [eq_comm]
      obtain ⟨hordered, htext⟩ := h.ordered.fclose hst hremoved
      refine ⟨hordered, htext, fun n => ?_⟩
      change (s.files.fclose k).path n = _
      rw [Files.path_fclose]
      simp [Sink.closeFile, closed]

/-- A step that closes a file, between two lines or by somebody else than the backend. -/
theorem Inv.closeStep (h : Inv content s) {a : Sink.Action ι} {sink : Machine ι} {f : File}
    (hstep : Sink.step s.sink a = some sink) (hstandard : standard a = true)
    (hops : sink.ops = s.sink.ops ++ closeFile f)
    (howner : ∀ n, f = .other n → 0 < owners n s.sink)
    (hwriter : ∀ m, writer sink = some m ↔ writer s.sink = some m ∧ f ≠ .other m)
    (hendl : sink.pc = .endl ↔ s.sink.pc = .endl)
    (hline : s.sink.pc = .endl → writer sink = writer s.sink) :
    Inv content ⟨sink, (sink.ops.drop s.sink.ops.length).foldl perform s.files⟩ := by
  obtain ⟨hordered, htext, hpath⟩ := h.files_closeFile howner hwriter
  refine h.sinkStep hstep hstandard hops hordered hpath fun p => ?_
  rw [htext, ← h.text p]
  congr 1
  by_cases hpc : s.sink.pc = .endl
  · have hsame := hline hpc
    have hcurrent : State.current ⟨sink, (closeFile f).foldl perform s.files⟩ = s.current := by
      simp only [State.current, hsame]
      refine Option.bind_congr fun m hm => ?_
      -- the file that is closed is not the current one
      have hne := ((hwriter m).mp (hsame.trans hm)).2
      rw [hpath m, if_neg]
      cases f with
      | other k => simpa [Sink.closeFile, closed, eq_comm] using hne
      | _ => simp [Sink.closeFile, closed]
    simp only [State.endLine, hcurrent, hendl]
  · simp [State.endLine, hendl, hpc]

/-- The backend is at a place where the current file is open. -/
def Backs (m : Machine ι) : Prop := ∀ n, m.file = .other n → writer m = some n

omit [DecidableEq ι] in
/-- A call about the current file that writes nothing. -/
theorem Inv.perform_quiet (h : Inv content s) (hbacks : Backs s.sink) {op : Op}
    (hop : op = .fflush s.sink.file ∨ ∃ mode size, op = .setvbuf s.sink.file mode size) :
    (perform s.files op).Ordered (writer s.sink) ∧
      (∀ p, (perform s.files op).text (writer s.sink) p
        = s.files.text (writer s.sink) p ++ []) ∧
      ∀ n, (perform s.files op).path n = s.files.path n := by
  simp only [List.append_nil]
  cases hfile : s.sink.file with
  | stdout | stderr =>
      rw [hfile] at hop
      rcases hop with rfl | ⟨mode, size, rfl⟩ <;> exact ⟨h.ordered, fun _ => rfl, fun _ => rfl⟩
  | other n =>
      obtain ⟨st, hst⟩ := Option.isSome_iff_exists.mp (h.ordered.writer_open n (hbacks n hfile))
      rw [hfile] at hop
      rcases hop with rfl | ⟨mode, size, rfl⟩
      · obtain ⟨hordered, htext⟩ := h.ordered.fflush hst
        exact ⟨hordered, congrFun htext, fun m => Files.path_fflush s.files n m⟩
      · have htouch : perform s.files (.setvbuf (.other n) mode size) = s.files := by
          simp [perform, Files.touch, hst]
        rw [htouch]
        exact ⟨h.ordered, fun _ => rfl, fun _ => rfl⟩

omit [DecidableEq ι] in
/-- One that writes. -/
theorem Inv.perform_write (h : Inv content s) (hbacks : Backs s.sink) {op : Op} {str : List Char}
    (hop : op = .fwrite s.sink.file str ∨ ∃ c, op = .fputc s.sink.file c ∧ str = [c]) :
    (perform s.files op).Ordered (writer s.sink) ∧
      (∀ p, (perform s.files op).text (writer s.sink) p
        = s.files.text (writer s.sink) p ++ if s.current = some p then str else []) ∧
      ∀ n, (perform s.files op).path n = s.files.path n := by
  have hnone : (∀ n, s.sink.file ≠ .other n) → s.current = none := by
    intro hfile
    have hwriter : writer s.sink = none :=
      Option.eq_none_iff_forall_ne_some.mpr fun n hn => hfile n (file_of_writer hn)
    rw [State.current, hwriter, Option.bind_none]
  cases hfile : s.sink.file with
  | stdout | stderr =>
      rw [hnone (by simp [hfile])]
      rw [hfile] at hop
      rcases hop with rfl | ⟨c, rfl, rfl⟩ <;> exact ⟨h.ordered, by simp [perform], fun _ => rfl⟩
  | other n =>
      have hwriter := hbacks n hfile
      have hop' : perform s.files op = s.files.fwrite n str := by
        rw [hfile] at hop
        rcases hop with rfl | ⟨c, rfl, rfl⟩ <;> rfl
      have hordered := h.ordered
      rw [hwriter] at hordered ⊢
      obtain ⟨st, hst, hordered, htext⟩ := hordered.fwrite str
      have hcurrent : s.current = some st.path := by
        simp [State.current, hwriter, Files.path, hst]
      rw [hop', hcurrent]
      refine ⟨hordered, fun p => ?_, fun m => Files.path_fwrite s.files n str m⟩
      rw [htext p]
      by_cases hp : p = st.path
      · simp [hp]
      · simp [hp, Ne.symm hp]

/-- A step that makes such a call. -/
theorem Inv.callStep (h : Inv content s) {a : Sink.Action ι} {sink : Machine ι} {op : Op}
    (hstep : Sink.step s.sink a = some sink) (hstandard : standard a = true)
    (hops : sink.ops = s.sink.ops ++ [op]) (hclosed : closed [op] = [])
    (hwriter : writer sink = writer s.sink) {added : π → List Char} {content' : π → List Char}
    (hperform : (perform s.files op).Ordered (writer s.sink) ∧
      (∀ p, (perform s.files op).text (writer s.sink) p
        = s.files.text (writer s.sink) p ++ added p) ∧
      ∀ n, (perform s.files op).path n = s.files.path n)
    (hcontent : ∀ p, s.files.text (writer s.sink) p ++ added p
      ++ (if sink.pc = .endl ∧ s.current = some p then ['\n'] else []) = content' p) :
    Inv content' ⟨sink, (sink.ops.drop s.sink.ops.length).foldl perform s.files⟩ := by
  obtain ⟨hordered, htext, hpath⟩ := hperform
  refine h.sinkStep hstep hstandard hops (hwriter ▸ hordered) (fun n => ?_) fun p => ?_
  · rw [hclosed, if_neg List.not_mem_nil]
    exact hpath n
  · have hcurrent : State.current ⟨sink, [op].foldl perform s.files⟩ = s.current := by
      simp only [State.current, hwriter, List.foldl_cons, List.foldl_nil]
      exact Option.bind_congr fun m _ => hpath m
    rw [State.endLine, hcurrent, hwriter]
    exact (congrArg (· ++ _) (htext p)).trans (hcontent p)

omit [DecidableEq ι] in
theorem Inv.owners_le_one (h : Inv content s) (n : ℕ) : owners n s.sink ≤ 1 := by
  rw [h.owned n]
  split <;> omega

omit [DecidableEq π] in
/-- What a call holds is not the current file as well. -/
theorem call_ne_writer {m : Machine ι} (hle : ∀ n, owners n m ≤ 1) {t : ι} {c : Call}
    (hcall : m.calls t = some c) {n : ℕ} (hn : c.holds n = 1) : writer m ≠ some n := by
  intro hwriter
  have hsum := sum_calls_update n m.calls t none
  have hfile := holdsFile_eq m n
  have hone := hle n
  simp only [hcall, Option.elim, hn] at hsum
  rw [if_pos hwriter] at hfile
  simp only [owners, Option.elim] at hone
  omega

/-- **Every step of the handler.** -/
theorem Inv.handler (h : Inv content s) {a : Sink.Action ι} {sink : Machine ι}
    (hstep : Sink.step s.sink a = some sink) (hstandard : standard a = true) :
    Inv (expected content (event s (.sink a) s))
      ⟨sink, (sink.ops.drop s.sink.ops.length).foldl perform s.files⟩ := by
  have hholds : ∀ {f : File} {n : ℕ}, f = .other n → f.holds n = 1 := by
    rintro f n rfl
    exact File.holds_other n
  cases acts_of_step hstep with
  | queueNull | queueNew | exchange => exact h.still hstep hstandard rfl rfl Iff.rfl
  | poll hpc =>
      refine h.still hstep hstandard rfl ?_ ?_ <;>
        cases hpending : s.sink.pendingNewSink <;> simp [writer, hpc]
  | destroy hpc =>
      refine h.still hstep hstandard rfl ?_ ?_ <;>
        cases hpending : s.sink.pendingNewSink <;> simp [writer, hpc]
  | @closePrev t prev hcall =>
      refine h.closeStep hstep hstandard rfl (fun n hn => ?_) (fun m => ?_) Iff.rfl fun _ => rfl
      · have hle := call_holds_le_owners n hcall
        rw [Call.holds, SinkDescriptor.holds, hholds hn] at hle
        omega
      · refine (and_iff_left_of_imp fun hwriter hfile => ?_).symm
        exact call_ne_writer h.owners_le_one hcall (hholds hfile) hwriter
  | @closePending d hpc =>
      refine h.closeStep hstep hstandard rfl (fun n hn => ?_) (fun m => ?_) (by simp [hpc]) ?_
      · simp only [owners, hpc, Pc.holds, SinkDescriptor.holds, hholds hn]
        omega
      · have hsame : writer { s.sink with
            ops := s.sink.ops ++ closeFile d.file, pc := .closeLast } = writer s.sink := by
          simp [writer, hpc]
        rw [hsame]
        refine (and_iff_left_of_imp fun hwriter hfile => ?_).symm
        have hone := h.owners_le_one m
        have hfile' := holdsFile_eq s.sink m
        rw [if_pos hwriter] at hfile'
        simp only [owners, hpc, Pc.holds, SinkDescriptor.holds, hholds hfile, hfile'] at hone
        omega
      · simp [hpc]
  | closeOld hpc | closeLast hpc =>
      refine h.closeStep hstep hstandard rfl (fun n hn => ?_) (fun m => ?_) (by simp [hpc])
        (by simp [hpc])
      · simp only [owners, Machine.holdsFile, hpc, hholds hn]
        omega
      · simp only [writer, reduceCtorEq, false_iff, not_and, not_not]
        exact file_of_writer
  | flush hpc | setvbuf hpc =>
      have hbacks : Backs s.sink := fun n hn => by simp [writer, streamOf, hpc, hn]
      refine h.callStep hstep hstandard rfl rfl (by simp [writer, hpc])
        (h.perform_quiet hbacks (by simp)) fun p => ?_
      have htext := h.text p
      simp only [State.endLine, hpc, reduceCtorEq, false_and, if_false] at htext ⊢
      simpa [event, expected] using htext
  | endl hpc =>
      have hbacks : Backs s.sink := fun n hn => by simp [writer, streamOf, hpc, hn]
      refine h.callStep hstep hstandard rfl rfl (by simp [writer, hpc])
        (h.perform_write hbacks (.inr ⟨_, rfl, rfl⟩)) fun p => ?_
      have htext := h.text p
      simp only [State.endLine, hpc, true_and] at htext
      simpa [event, expected] using htext
  | @writeStrAndEndl str hpc =>
      have hbacks : Backs s.sink := fun n hn => by simp [writer, streamOf, hpc, hn]
      refine h.callStep hstep hstandard rfl rfl (by simp [writer, hpc])
        (h.perform_write hbacks (.inl rfl)) fun p => ?_
      have htext := h.text p
      simp only [State.endLine, hpc, reduceCtorEq, false_and, if_false, List.append_nil] at htext
      cases hcurrent : s.current with
      | none => simp [htext, event, hcurrent, expected]
      | some q =>
          by_cases hp : q = p
          · simp [htext, event, hcurrent, expected, Event.apply, hp]
          · simp [htext, event, hcurrent, expected, Event.apply, hp, Ne.symm hp]
  | @install d hpc =>
      have hordered := h.ordered
      have hnone : writer s.sink = none := by simp [writer, hpc]
      rw [hnone] at hordered
      have hswitch : s.files.Ordered (streamOf d.file) ∧
          s.files.text (streamOf d.file) = s.files.text none := by
        cases hfile : d.file with
        | stdout | stderr => exact ⟨hordered, rfl⟩
        | other n =>
            have hpos : 0 < owners n s.sink := by
              simp only [owners, hpc, Pc.holds, SinkDescriptor.holds, hholds hfile]
              omega
            obtain ⟨st, hst⟩ := h.stream_open hpos
            exact hordered.switch hst
      refine h.sinkStep hstep hstandard rfl hswitch.1 (fun n => rfl) fun p => ?_
      have htext := h.text p
      rw [hnone] at htext
      simp only [State.endLine, hpc, reduceCtorEq, false_and, if_false] at htext ⊢
      exact (congrArg (· ++ []) (congrFun hswitch.2 p)).trans htext

/-- A new stream is opened, and handed over. -/
theorem Inv.setSink (h : Inv content s) {t : ι} {path : π} {truncate : Bool} {flushOn : ℤ}
    {bufferSize : ℕ} {sink : Machine ι}
    (hmay : s.files.MayOpen (writer s.sink) path truncate)
    (hstep : Sink.step s.sink
      (.queueNewSink t (some (.other s.files.opened)) flushOn bufferSize) = some sink) :
    Inv (expected content [.opened path truncate]) ⟨sink, s.files.fopen path truncate⟩ := by
  obtain ⟨hops, hwriter, hpc⟩ :
      sink.ops = s.sink.ops ++ [] ∧ writer sink = writer s.sink ∧ sink.pc = s.sink.pc := by
    cases acts_of_step hstep with
    | queueNew => exact ⟨(List.append_nil _).symm, rfl, rfl⟩
  have howners : ∀ n, owners n sink = owners n s.sink + if n = s.files.opened then 1 else 0 := by
    intro n
    have hcount := owners_step hstep hops n
    by_cases hn : n = s.files.opened
    · simpa [closed, handedOver, hn] using hcount
    · simpa [closed, handedOver, List.count_singleton, hn, Ne.symm hn] using hcount
  have hcurrent : State.current ⟨sink, s.files.fopen path truncate⟩ = s.current := by
    simp only [State.current, hwriter]
    refine Option.bind_congr fun m hm => ?_
    rw [Files.path_fopen, if_neg]
    rintro rfl
    exact h.ordered.writer_ne hm
  refine ⟨?_, fun n => ?_, step_quiet h.quiet hstep, fun p => ?_⟩
  · simp only [hwriter]
    exact h.ordered.fopen hmay
  · have howned := h.owned n
    simp only [howners, howned, Files.path_fopen]
    by_cases hn : n = s.files.opened
    · subst hn
      simp [Files.path, h.ordered.unopened _ le_rfl]
    · simp [hn]
  · have htext := h.text p
    simp only [State.endLine, hcurrent, hwriter, hpc, h.ordered.text_fopen hmay] at htext ⊢
    by_cases hp : truncate = true ∧ p = path
    · obtain ⟨rfl, rfl⟩ := hp
      -- no line is being written to a file that may be truncated
      have hnot : s.current ≠ some p := by
        intro hsome
        obtain ⟨n, hn, hpath⟩ := Option.bind_eq_some_iff.mp hsome
        obtain ⟨st, hst, hpath⟩ := Files.path_eq_some.mp hpath
        cases (h.ordered.mayOpen hmay hst hpath).1
      simp [hnot, expected, Event.apply]
    · rw [if_neg hp, htext]
      cases truncate with
      | false => rfl
      | true => simp [expected, Event.apply, show p ≠ path from fun heq => hp ⟨rfl, heq⟩]

/-- **Every step.** -/
theorem Inv.step (h : Inv content s) {a : Action π ι} (hmay : MayOpen s a)
    (hstep : NamedSink.step s a = some s') : Inv (expected content (event s a s')) s' := by
  cases a with
  | setSink t path truncate flushOn bufferSize =>
      obtain ⟨sink, hsink, rfl⟩ := Option.map_eq_some_iff.mp hstep
      exact h.setSink hmay hsink
  | setSinkFails t path =>
      by_cases hcall : s.sink.pc.usable ∧ s.sink.calls t = none
      · rw [NamedSink.step, if_pos hcall] at hstep
        exact Option.some.inj hstep ▸ h
      · rw [NamedSink.step, if_neg hcall] at hstep
        cases hstep
  | sink a =>
      by_cases hstandard : standard a = true
      · rw [NamedSink.step, if_pos hstandard] at hstep
        obtain ⟨sink, hsink, rfl⟩ := Option.map_eq_some_iff.mp hstep
        exact h.handler hsink hstandard
      · rw [NamedSink.step, if_neg hstandard] at hstep
        cases hstep
  | writeOut n k =>
      by_cases hopen : (s.files.path n).isSome = true
      · rw [NamedSink.step, if_pos hopen] at hstep
        obtain rfl := Option.some.inj hstep
        obtain ⟨p, hp⟩ := Option.isSome_iff_exists.mp hopen
        obtain ⟨st, hst, -⟩ := Files.path_eq_some.mp hp
        obtain ⟨hordered, htext⟩ := h.ordered.writeOut hst k
        refine ⟨hordered, fun m => ?_, h.quiet, fun p => ?_⟩
        · rw [h.owned m, Files.path_writeOut]
        · have hcurrent : State.current { s with files := s.files.writeOut n k } = s.current :=
            Option.bind_congr fun m _ => Files.path_writeOut s.files n k m
          simp only [State.endLine, hcurrent, htext]
          exact h.text p
      · rw [NamedSink.step, if_neg hopen] at hstep
        cases hstep

/-! ## Files that are opened to append -/

/-- The call opens its file to append, as it does unless it is told not to. -/
def Appends : Action π ι → Prop
  | .setSink _ _ truncate _ _ => truncate = false
  | _ => True

omit [Fintype ι] [DecidableEq ι] in
theorem appendOnly_perform {fs : Files π} (h : fs.AppendOnly) (op : Op) :
    (perform fs op).AppendOnly := by
  cases op with
  | fclose f => cases f <;> first | exact h | exact h.fclose _
  | fflush f => cases f <;> first | exact h | exact h.fflush _
  | setvbuf f => cases f <;> first | exact h | exact h.touch _
  | fwrite f str => cases f <;> first | exact h | exact h.fwrite _ _
  | fputc f c => cases f <;> first | exact h | exact h.fwrite _ _
  | install f => exact h

theorem appendOnly_step (h : s.files.AppendOnly) {a : Action π ι} (ha : Appends a)
    (hstep : NamedSink.step s a = some s') : s'.files.AppendOnly := by
  cases a with
  | setSink t path truncate flushOn bufferSize =>
      obtain rfl : truncate = false := ha
      obtain ⟨sink, -, rfl⟩ := Option.map_eq_some_iff.mp hstep
      exact h.fopen path
  | setSinkFails t path =>
      simp only [NamedSink.step, Option.ite_none_right_eq_some, Option.some.injEq] at hstep
      exact hstep.2 ▸ h
  | sink a =>
      simp only [NamedSink.step, Option.ite_none_right_eq_some] at hstep
      obtain ⟨sink, -, rfl⟩ := Option.map_eq_some_iff.mp hstep.2
      exact List.foldlRecOn _ _ h fun _ hfs op _ => appendOnly_perform hfs op
  | writeOut n k =>
      simp only [NamedSink.step, Option.ite_none_right_eq_some, Option.some.injEq] at hstep
      exact hstep.2 ▸ h.writeOut n k

/-- **Files that are only opened to append may always be opened.** -/
theorem along_mayOpen {as : List (Action π ι)} (has : ∀ a ∈ as, Appends a) :
    Along MayOpen step (init content) as := by
  have halong : Along (fun _ a => Appends a) step (init content : State π ι) as :=
    Along.of_mem (fun a ha _ => has a ha) _
  refine Along.of_invariant (fun t : State π ι => t.files.AppendOnly) ?_
    (fun _ _ _ ht ha hstep => appendOnly_step ht ha hstep) ?_ halong
  · intro t a ht ha
    cases a with
    | setSink t' path truncate flushOn bufferSize =>
        obtain rfl : truncate = false := ha
        exact ht.mayOpen _ _
    | setSinkFails | sink | writeOut => trivial
  · intro n st hst
    cases hst

/-- **The files have their lines.**  In every run of threads that set sinks by name or go back to
the standard streams, of the backend that writes and of `stdio` that empties its buffers when it
likes, in which files are opened as `MayOpen` says: no stream is used that is not open; a file,
with what is in the buffer of the current sink, has its former content or nothing if it was
truncated, and then the lines written to it since, whole and in their order, up to the end of
the one that is being written; and when the handler is destroyed every stream is closed and all
of it is in the files. -/
theorem exec_expected {as : List (Action π ι)} (hcond : Along MayOpen step (init content) as)
    (hexec : exec step (init content) as = some s) :
    s.files.fault = false ∧
      (∀ p, s.files.text (writer s.sink) p ++ s.endLine p
        = expected content (trace event step (init content) as) p) ∧
      (s.sink.pc = .destroyed →
        (∀ n, s.files.streams n = none) ∧
          s.files.content = expected content (trace event step (init content) as)) := by
  have h : Inv (expected content (trace event step (init content) as)) s := by
    refine exec_induction_trace (fun events (t : State π ι) => Inv (expected content events) t) ?_
      (inv_init content) hcond hexec
    intro events t a t' h hmay hstep
    rw [expected_append]
    exact h.step hmay hstep
  refine ⟨h.ordered.noFault, h.text, fun hpc => ⟨fun n => ?_, funext fun p => ?_⟩⟩
  · have howned := h.owned n
    rw [h.quiet.owners_eq_zero hpc n] at howned
    by_contra hopen
    rw [if_pos (by simpa [Files.path, Option.isSome_iff_ne_none] using hopen)] at howned
    cases howned
  · have htext := h.text p
    simpa [State.endLine, hpc, writer, Files.text, Files.unwritten] using htext

/-- What the backend does when a sink waits. -/
def switchSteps : List (Action Unit Unit) :=
  [.sink .poll, .sink .next, .sink .next, .sink .next, .sink .next]

/-- A file is the sink, and becomes it again, opened anew while a line is being written. -/
def reopenRun (truncate : Bool) : List (Action Unit Unit) :=
  [.setSink () () truncate 1 1024, .sink (.caller ())] ++ switchSteps ++
    [.sink (.writeStrAndEndl ['a', 'b']), .writeOut 0 1, .setSink () () truncate 1 1024,
      .sink .next, .sink (.caller ())] ++ switchSteps ++
    [.sink (.writeStrAndEndl ['c']), .sink .next, .sink .destroy, .sink .next]

theorem exec_expected_reopenRun :
    ∃ s, exec step (init fun _ => ['o', '\n']) (reopenRun false) = some s ∧
      s.sink.pc = .destroyed ∧ s.files.content () = "o\nab\nc\n".toList ∧
      s.files.fault = false ∧
      (∀ p, s.files.text (writer s.sink) p ++ s.endLine p
        = expected (fun _ => ['o', '\n'])
            (trace event step (init fun _ => ['o', '\n']) (reopenRun false)) p) ∧
      (s.sink.pc = .destroyed →
        (∀ n, s.files.streams n = none) ∧
          s.files.content = expected (fun _ => ['o', '\n'])
            (trace event step (init fun _ => ['o', '\n']) (reopenRun false))) := by
  have hrun : (exec step (init fun _ => ['o', '\n']) (reopenRun false)).map
      (fun s => (s.sink.pc, s.files.content ())) = some (.destroyed, "o\nab\nc\n".toList) := by
    decide +kernel
  obtain ⟨s, hs, hstate⟩ := Option.map_eq_some_iff.mp hrun
  obtain ⟨hpc, hcontent⟩ := Prod.mk.inj hstate
  have hmay : Along MayOpen step (init fun _ => ['o', '\n']) (reopenRun false) :=
    along_mayOpen (by simp [reopenRun, switchSteps, Appends])
  exact ⟨s, hs, hpc, hcontent, exec_expected hmay hs⟩

/-- When it is truncated each time, the second stream writes over what the first one wrote. -/
example : (exec step (init fun _ => []) (reopenRun true)).map (fun s => s.files.content ())
    = some "c\n\n".toList := by
  decide +kernel

end Papper.NamedSink
