import Papper.Lib.Refinement
import Papper.Sink

/-!
# What is in the files

A line is written by two calls into `stdio`, and the sink may be switched at any time.  All the
same every file gets whole lines: those that were written while it was the sink, in their order.
A switch flushes the file it leaves, so what was written to a file that is not the sink any more
is out of its buffer, and when the handler is destroyed so is what was written to any file it
closes.  The standard streams are not closed, and the last of them may keep text in its buffer.

A file gets nothing of what is written to it after it was closed.  That does not happen as long
as no file is handed over twice.

## Main definitions

* `written`, `received` — all that was written to a file, and what of it was before it was closed.
* `unsettled` — what may still be in its buffer.
* `lines` — the line that a step begins to write.
* `exec_contents` — what is in the files in every run.
-/

namespace Papper.Sink

open Transition

variable {ι : Type} {f : File} {ops : List Op} {op : Op}

/-! ## Streams -/

/-- What a call appends to a file. -/
def Op.appends (f : File) : Op → List Char
  | fwrite g str => if g = f then str else []
  | fputc g c => if g = f then [c] else []
  | _ => []

/-- The call empties the buffer of the file. -/
def Op.settles (f : File) : Op → Bool
  | fflush g | fclose g => decide (g = f)
  | _ => false

/-- All that was written to the file. -/
def written (f : File) (ops : List Op) : List Char := ops.flatMap (Op.appends f)

/-- What the file gets: what was written to it before it was closed. -/
def received (f : File) (ops : List Op) : List Char :=
  written f (ops.takeWhile (· ≠ .fclose f))

/-- What was written to the file since its buffer was emptied last. -/
def unsettled (f : File) (ops : List Op) : List Char :=
  ops.foldl (fun buffer op => if op.settles f then [] else buffer ++ op.appends f) []

@[simp] theorem written_nil : written f [] = [] := rfl

@[simp] theorem written_append (ops' : List Op) :
    written f (ops ++ ops') = written f ops ++ written f ops' :=
  List.flatMap_append

@[simp] theorem written_singleton : written f [op] = op.appends f := List.flatMap_singleton _ _

@[simp] theorem written_closeFile (g : File) : written f (closeFile g) = [] := by
  by_cases hg : g ≠ .stdout ∧ g ≠ .stderr <;> simp [closeFile, hg, Op.appends]

/-- When nothing is done to a file that was closed, it gets everything. -/
theorem received_eq_written (h : Safe ops) (f : File) : received f ops = written f ops := by
  have hsplit : ops.takeWhile (· ≠ .fclose f) ++ ops.dropWhile (· ≠ .fclose f) = ops :=
    List.takeWhile_append_dropWhile
  cases hrest : ops.dropWhile (· ≠ .fclose f) with
  | nil =>
      rw [hrest, List.append_nil] at hsplit
      rw [received, hsplit]
  | cons last after =>
      have hlast : last = .fclose f := by
        have hnot := List.head?_dropWhile_not (· ≠ Op.fclose f) ops
        rw [hrest] at hnot
        simpa using hnot
      subst hlast
      rw [hrest] at hsplit
      -- the file is closed here, and nothing is done to it any more
      have hafter : written f after = [] := by
        rw [written, List.flatMap_eq_nil_iff]
        intro op hop
        obtain ⟨mid, post, rfl⟩ := List.append_of_mem hop
        have hnot := h.not_closed (ops.takeWhile (· ≠ .fclose f) ++ .fclose f :: mid) op post
          (by rw [List.append_assoc, List.cons_append, hsplit])
        have hne : op.file ≠ f := by
          rintro rfl
          exact hnot (by simp [closed])
        cases op <;> simp_all [Op.appends, Op.file]
      have hclosed : written f (.fclose f :: after) = [] := by
        rw [written, List.flatMap_cons, ← written, hafter]
        rfl
      rw [received]
      conv_rhs => rw [← hsplit, written_append, hclosed, List.append_nil]

theorem unsettled_concat :
    unsettled f (ops ++ [op]) = if op.settles f then [] else unsettled f ops ++ op.appends f := by
  simp [unsettled]

/-- A call that is about another file. -/
theorem unsettled_concat_of_ne (h : f ≠ op.file) : unsettled f (ops ++ [op]) = unsettled f ops := by
  have hne : op.file ≠ f := h.symm
  have hsettles : op.settles f = false := by cases op <;> simp_all [Op.settles, Op.file]
  have happends : op.appends f = [] := by cases op <;> simp_all [Op.appends, Op.file]
  rw [unsettled_concat, hsettles, happends]
  simp

/-- Nothing gets into a buffer when a file is closed. -/
theorem unsettled_closeFile (h : unsettled f ops = []) (g : File) :
    unsettled f (ops ++ closeFile g) = [] := by
  by_cases hg : g ≠ .stdout ∧ g ≠ .stderr
  · rw [closeFile, if_pos hg, unsettled_concat, h]
    simp [Op.appends]
  · rwa [closeFile, if_neg hg, List.append_nil]

/-- A file that is closed has nothing in its buffer. -/
theorem unsettled_closeFile_self (n : ℕ) (ops : List Op) :
    unsettled (.other n) (ops ++ closeFile (.other n)) = [] := by
  simp [closeFile, unsettled_concat, Op.settles]

/-! ## Lines -/

/-- The line that a step begins to write, and the file it goes to. -/
def lines (s : Machine ι) (a : Action ι) (_ : Machine ι) : List (File × List Char) :=
  match a with
  | .writeStrAndEndl str => [(s.mailbox.current, str)]
  | _ => []

/-- What a line puts into a file. -/
def lineIn (f : File) (line : File × List Char) : List Char :=
  if line.1 = f then line.2 ++ ['\n'] else []

/-- The end of the line that is being written to the current file. -/
def Pc.endLine (pc : Pc) (file f : File) : List Char :=
  if pc = endl ∧ file = f then ['\n'] else []

/-- The backend has flushed the current file and not replaced it yet. -/
def Pc.flushed : Pc → Bool
  | closeOld _ | install _ => true
  | _ => false

/-- The files have these lines, and what is not the current one has nothing in its buffer. -/
structure Contents (ls : List (File × List Char)) (file : File) (pc : Pc) (ops : List Op) :
    Prop where
  whole : ∀ f, written f ops ++ pc.endLine file f = ls.flatMap (lineIn f)
  settled : ∀ f, f ≠ file → unsettled f ops = []
  flushed : pc.flushed = true → unsettled file ops = []
  destroyed : pc = .destroyed → ∀ n, file = .other n → unsettled file ops = []

theorem contents_init : Contents [] .stdout .idle [] :=
  ⟨fun _ => rfl, fun _ _ => rfl, fun _ => rfl, fun _ _ _ => rfl⟩

variable {ls : List (File × List Char)} {file : File} {pc pc' : Pc}

namespace Contents

/-- Closing a file. -/
theorem closeFile (h : Contents ls file pc ops) (g : File) :
    Contents ls file pc (ops ++ closeFile g) where
  whole := by simpa using h.whole
  settled := fun f hf => unsettled_closeFile (h.settled f hf) g
  flushed := fun hpc => unsettled_closeFile (h.flushed hpc) g
  destroyed := fun hpc n hn => unsettled_closeFile (h.destroyed hpc n hn) g

/-- The backend goes on to some other place, between two lines. -/
theorem setPc (h : Contents ls file pc ops) (hold : pc ≠ .endl) (hnew : pc' ≠ .endl)
    (hflushed : pc'.flushed = true → unsettled file ops = [])
    (hdestroyed : pc' = .destroyed → ∀ n, file = .other n → unsettled file ops = []) :
    Contents ls file pc' ops where
  whole := by
    intro f
    have hwhole := h.whole f
    simp only [Pc.endLine, hold, hnew, false_and, if_false] at hwhole ⊢
    exact hwhole
  settled := h.settled
  flushed := hflushed
  destroyed := hdestroyed

/-- A call that writes nothing, about the current file. -/
theorem quiet (h : Contents ls file pc ops) (hfile : op.file = file)
    (happends : ∀ f, op.appends f = []) : Contents ls file pc (ops ++ [op]) where
  whole := by simpa [happends] using h.whole
  settled := by
    intro f hf
    rw [unsettled_concat_of_ne (hfile ▸ hf)]
    exact h.settled f hf
  flushed := by
    intro hpc
    rw [unsettled_concat, happends, h.flushed hpc, List.append_nil, ite_self]
  destroyed := by
    intro hpc n hn
    rw [unsettled_concat, happends, h.destroyed hpc n hn, List.append_nil, ite_self]

variable [DecidableEq ι] [Fintype ι] {s s' : Machine ι}

/-- **Every step.** -/
theorem step (h : Contents ls s.file s.pc s.ops) {a : Action ι}
    (hstep : Sink.step s a = some s') :
    Contents (ls ++ lines s a s') s'.file s'.pc s'.ops := by
  cases acts_of_step hstep with
  | queueNull | queueNew | exchange =>
      simp only [lines, List.append_nil]
      exact h
  | closePrev =>
      simp only [lines, List.append_nil]
      exact h.closeFile _
  | poll hpc =>
      simp only [lines, List.append_nil]
      cases s.pendingNewSink with
      | none => exact h.setPc (by simp [hpc]) (by simp) (by simp [Pc.flushed]) (by simp)
      | some d => exact h.setPc (by simp [hpc]) (by simp) (by simp [Pc.flushed]) (by simp)
  | destroy hpc =>
      simp only [lines, List.append_nil]
      cases s.pendingNewSink with
      | none => exact h.setPc (by simp [hpc]) (by simp) (by simp [Pc.flushed]) (by simp)
      | some d => exact h.setPc (by simp [hpc]) (by simp) (by simp [Pc.flushed]) (by simp)
  | @writeStrAndEndl str hpc =>
      have hcurrent : s.mailbox.current = s.file := by simp [Machine.mailbox, hpc]
      refine ⟨?_, ?_, by simp [Pc.flushed], by simp⟩
      · intro f
        have hwhole := h.whole f
        simp only [hpc, Pc.endLine, reduceCtorEq, false_and, if_false, List.append_nil] at hwhole
        by_cases hf : s.file = f
        · simp [lines, hcurrent, hwhole, Op.appends, Pc.endLine, lineIn, hf]
        · simp [lines, hcurrent, hwhole, Op.appends, Pc.endLine, lineIn, hf]
      · intro f hf
        rw [unsettled_concat_of_ne (by simpa [Op.file] using hf)]
        exact h.settled f hf
  | @flush d hpc =>
      simp only [lines, List.append_nil]
      have hflush : Contents ls s.file s.pc (s.ops ++ [.fflush s.file]) := h.quiet rfl fun _ => rfl
      refine hflush.setPc (by simp [hpc]) (by simp) (fun _ => ?_) (by simp)
      simp [unsettled_concat, Op.settles]
  | @closeOld d hpc =>
      simp only [lines, List.append_nil]
      have hclose := h.closeFile s.file
      exact hclose.setPc (by simp [hpc]) (by simp)
        (fun _ => hclose.flushed (by simp [hpc, Pc.flushed])) (by simp)
  | @install d hpc =>
      simp only [lines, List.append_nil]
      have hflushed := h.flushed (by simp [hpc, Pc.flushed])
      refine ⟨?_, ?_, by simp [Pc.flushed], by simp⟩
      · intro f
        have hwhole := h.whole f
        simpa [hpc, Pc.endLine, Op.appends] using hwhole
      · intro f hf
        rw [unsettled_concat_of_ne (by simpa [Op.file] using hf)]
        by_cases hold : f = s.file
        · exact hold ▸ hflushed
        · exact h.settled f hold
  | @setvbuf d hpc =>
      simp only [lines, List.append_nil]
      have hquiet : Contents ls s.file s.pc
          (s.ops ++ [.setvbuf s.file d.bufferingMode d.bufferSize]) := h.quiet rfl fun _ => rfl
      exact hquiet.setPc (by simp [hpc]) (by simp) (by simp [Pc.flushed]) (by simp)
  | @endl hpc =>
      simp only [lines, List.append_nil]
      refine ⟨?_, ?_, by simp [Pc.flushed], by simp⟩
      · intro f
        have hwhole := h.whole f
        simp only [hpc, Pc.endLine, true_and] at hwhole
        simpa [Pc.endLine, Op.appends] using hwhole
      · intro f hf
        rw [unsettled_concat_of_ne (by simpa [Op.file] using hf)]
        exact h.settled f hf
  | @closePending d hpc =>
      simp only [lines, List.append_nil]
      have hclose := h.closeFile d.file
      exact hclose.setPc (by simp [hpc]) (by simp) (by simp [Pc.flushed]) (by simp)
  | @closeLast hpc =>
      simp only [lines, List.append_nil]
      have hclose := h.closeFile s.file
      refine hclose.setPc (by simp [hpc]) (by simp) (by simp [Pc.flushed]) fun _ n hn => ?_
      rw [hn]
      exact unsettled_closeFile_self n s.ops

end Contents

variable [DecidableEq ι] [Fintype ι] {s : Machine ι}

/-- **Every file gets whole lines, and keeps them.**  In every run in which no file is handed over
twice, however the calls of the threads and of the backend fall together: a file gets the lines
that were written while it was the sink, whole and in their order, up to the end of the one that
is being written; nothing that was written to a file is left in its buffer once the sink is
another; and when the handler is destroyed, nothing is left in the buffer of any file the program
opened. -/
theorem exec_contents {as : List (Action ι)} (honce : HandedOverOnce as)
    (hexec : exec step init as = some s) :
    (∀ f, received f s.ops ++ s.pc.endLine s.file f
        = (trace lines step init as).flatMap (lineIn f)) ∧
      (∀ f, f ≠ s.file → unsettled f s.ops = []) ∧
      (s.pc = .destroyed → ∀ n, unsettled (.other n) s.ops = []) := by
  have halong : Along (fun _ _ => True) step (init : Machine ι) as :=
    Along.of_mem (fun _ _ _ => trivial) _
  have hrun : Contents (trace lines step init as) s.file s.pc s.ops := by
    refine exec_induction_trace (fun ls (t : Machine ι) => Contents ls t.file t.pc t.ops) ?_
      contents_init halong hexec
    intro ls t a t' h _ hstep
    exact h.step hstep
  have hsafe : Safe s.ops := safe_of_handedOverOnce honce hexec
  refine ⟨fun f => ?_, hrun.settled, fun hpc n => ?_⟩
  · rw [received_eq_written hsafe]
    exact hrun.whole f
  by_cases hfile : File.other n = s.file
  · rw [hfile]
    exact hrun.destroyed hpc n hfile.symm
  · exact hrun.settled _ hfile

/-- A line goes to `stdout`, one to a file that is handed over then, and the handler is
destroyed while a third file waits. -/
def linesRun : List (Action Unit) :=
  [.writeStrAndEndl ['a', 'b'], .queueNewSink () (some (.other 0)) 1 1024, .next, .caller (),
    .poll, .next, .next, .next, .next, .writeStrAndEndl ['c'], .next,
    .queueNewSink () (some (.other 1)) 1 1024, .caller (), .destroy, .next, .next]

theorem exec_contents_linesRun :
    ∃ s, exec step init linesRun = some s ∧ s.pc = .destroyed ∧
      trace lines step init linesRun = [(.stdout, ['a', 'b']), (.other 0, ['c'])] ∧
      ((∀ f, received f s.ops ++ s.pc.endLine s.file f
          = (trace lines step init linesRun).flatMap (lineIn f)) ∧
        (∀ f, f ≠ s.file → unsettled f s.ops = []) ∧
        (s.pc = .destroyed → ∀ n, unsettled (.other n) s.ops = [])) := by
  have honce : HandedOverOnce linesRun := by
    intro n
    exact List.nodup_iff_count_le_one.mp (by decide) _
  exact ⟨_, rfl, rfl, rfl, exec_contents honce rfl⟩

end Papper.Sink
