import Mathlib.Data.List.TakeDrop
import Mathlib.Data.Nat.Notation
import Mathlib.Logic.Function.Basic
import Mathlib.Tactic.Common

/-!
# Files that are written through streams

A stream keeps what is written to it in a buffer, and the library moves some of it to the file
whenever it likes.  A stream that was opened to append puts it at the end of the file, another one
at its own offset, over what may be there.  So two streams of one file can overwrite each other,
and nothing can be said of the file from the order of the writes alone.

`Files.Ordered` is a discipline under which it can: one stream at a time is written to, a file is
truncated only while no stream of it is open, and no other stream is opened while one that has
truncated it waits to be written to.  Then the file followed by what its writer has in the buffer
is all that was written since the file was truncated last, in the order of the writes.

## Main definitions

* `Stream`, `Files` — the streams, and the files with the streams that are open.
* `Files.fopen`, `fwrite`, `writeOut`, `fflush`, `fclose` — the operations.
* `Files.text` — a file with what its writer has in the buffer.
* `Files.Ordered` — the discipline.
-/

namespace Papper.Stdio

variable {π : Type}

structure Stream (π : Type) where
  path : π
  /-- What is written goes to the end of the file. -/
  append : Bool
  /-- Otherwise it goes there. -/
  offset : ℕ
  buffer : List Char

/-- The files, and the streams by the number of the call that opened them. -/
structure Files (π : Type) where
  content : π → List Char
  streams : ℕ → Option (Stream π)
  opened : ℕ
  /-- A stream was used that is not open. -/
  fault : Bool

/-- Files, and no stream. -/
def Files.init (content : π → List Char) : Files π := ⟨content, fun _ => none, 0, false⟩

/-- The file once these bytes are written: a gap before the offset is filled. -/
def Stream.put (st : Stream π) (old bytes : List Char) : List Char :=
  if st.append then old ++ bytes
  else old.takeD st.offset '\x00' ++ bytes ++ old.drop (st.offset + bytes.length)

/-- What the stream is once the first `k` of its buffer are out. -/
def Stream.drain (st : Stream π) (k : ℕ) : Stream π :=
  { st with offset := st.offset + (st.buffer.take k).length, buffer := st.buffer.drop k }

/-- Where the stream writes is the end of its file. -/
def Stream.AtEnd (st : Stream π) (content : List Char) : Prop :=
  st.append = true ∨ st.offset = content.length

theorem Stream.AtEnd.put_eq {st : Stream π} {old : List Char} (h : st.AtEnd old)
    (bytes : List Char) : st.put old bytes = old ++ bytes := by
  rcases h with happend | hoffset
  · rw [Stream.put, if_pos happend]
  · by_cases happend : st.append = true
    · rw [Stream.put, if_pos happend]
    · rw [Stream.put, if_neg happend, hoffset]
      simp [List.takeD_eq_take]

theorem Stream.AtEnd.drain {st : Stream π} {old : List Char} (h : st.AtEnd old) (k : ℕ) :
    (st.drain k).AtEnd (old ++ st.buffer.take k) := by
  rcases h with happend | hoffset
  · exact .inl happend
  · exact .inr (by rw [Stream.drain, hoffset, List.length_append])

namespace Files

/-- The file a stream was opened for, while it is open. -/
def path (fs : Files π) (n : ℕ) : Option π := (fs.streams n).map Stream.path

def undefined (fs : Files π) : Files π := { fs with fault := true }

/-- A call that touches the stream only. -/
def touch (fs : Files π) (n : ℕ) : Files π := if (fs.streams n).isSome then fs else fs.undefined

def fwrite (fs : Files π) (n : ℕ) (str : List Char) : Files π :=
  match fs.streams n with
  | none => fs.undefined
  | some st =>
      { fs with
        streams := Function.update fs.streams n (some { st with buffer := st.buffer ++ str }) }

section Content
variable [DecidableEq π]

/-- `fopen`, with mode `"w"` or `"a"`. -/
def fopen (fs : Files π) (path : π) (truncate : Bool) : Files π :=
  { fs with
    content := if truncate then Function.update fs.content path [] else fs.content
    streams := Function.update fs.streams fs.opened (some ⟨path, !truncate, 0, []⟩)
    opened := fs.opened + 1 }

/-- The library empties a part of the buffer. -/
def writeOut (fs : Files π) (n k : ℕ) : Files π :=
  match fs.streams n with
  | none => fs.undefined
  | some st =>
      { fs with
        content :=
          Function.update fs.content st.path (st.put (fs.content st.path) (st.buffer.take k))
        streams := Function.update fs.streams n (some (st.drain k)) }

def fflush (fs : Files π) (n : ℕ) : Files π :=
  match fs.streams n with
  | none => fs.undefined
  | some st => fs.writeOut n st.buffer.length

def fclose (fs : Files π) (n : ℕ) : Files π :=
  { fs.fflush n with streams := Function.update (fs.fflush n).streams n none }

/-- What the writer has not written out of this file. -/
def unwritten (fs : Files π) (writer : Option ℕ) (path : π) : List Char :=
  match writer.bind fs.streams with
  | some st => if st.path = path then st.buffer else []
  | none => []

/-- A file, with what its writer has in the buffer. -/
def text (fs : Files π) (writer : Option ℕ) (path : π) : List Char :=
  fs.content path ++ fs.unwritten writer path

end Content

/-! ## One writer -/

/-- One stream is written to, at the end of its file; the others have nothing in their buffers,
and those of them that have truncated their file are the only ones of it. -/
structure Ordered (fs : Files π) (writer : Option ℕ) : Prop where
  noFault : fs.fault = false
  unopened : ∀ n, fs.opened ≤ n → fs.streams n = none
  writer_open : ∀ n, writer = some n → (fs.streams n).isSome
  writer_atEnd : ∀ n st, fs.streams n = some st → writer = some n → st.AtEnd (fs.content st.path)
  others_empty : ∀ n st, fs.streams n = some st → writer ≠ some n → st.buffer = []
  others_alone : ∀ n st, fs.streams n = some st → writer ≠ some n → st.append = false →
    st.offset = 0 ∧ fs.content st.path = [] ∧
      ∀ m st', fs.streams m = some st' → st'.path = st.path → m = n

/-- A stream may be opened: of a file that is to be truncated none is open, and of another one
none that was opened to truncate it, the writer apart. -/
def MayOpen (fs : Files π) (writer : Option ℕ) (path : π) (truncate : Bool) : Prop :=
  ∀ n < fs.opened, ∀ st ∈ fs.streams n, st.path = path →
    truncate = false ∧ (st.append = true ∨ writer = some n)

instance decidableMayOpen [DecidableEq π] (fs : Files π) (writer : Option ℕ) (path : π)
    (truncate : Bool) : Decidable (fs.MayOpen writer path truncate) :=
  inferInstanceAs (Decidable (∀ n < fs.opened, ∀ st ∈ fs.streams n, st.path = path →
    truncate = false ∧ (st.append = true ∨ writer = some n)))

variable {fs : Files π} {writer : Option ℕ} {n : ℕ} {st : Stream π}

/-! ### Streams that append -/

/-- Every open stream appends. -/
def AppendOnly (fs : Files π) : Prop := ∀ n st, fs.streams n = some st → st.append = true

namespace AppendOnly

theorem mayOpen (h : fs.AppendOnly) (writer : Option ℕ) (path : π) :
    fs.MayOpen writer path false :=
  fun n _ st hst _ => ⟨rfl, .inl (h n st hst)⟩

/-- A change of one stream. -/
theorem update (h : fs.AppendOnly) {fs' : Files π} {st : Option (Stream π)}
    (hstreams : fs'.streams = Function.update fs.streams n st)
    (hst : ∀ st' ∈ st, st'.append = true) : fs'.AppendOnly := by
  intro m st' hm
  rw [hstreams] at hm
  by_cases hmn : m = n
  · subst hmn
    rw [Function.update_self] at hm
    exact hst st' hm
  · rw [Function.update_of_ne hmn] at hm
    exact h m st' hm

theorem touch (h : fs.AppendOnly) (n : ℕ) : (fs.touch n).AppendOnly := by
  unfold Files.touch
  split <;> exact h

theorem fwrite (h : fs.AppendOnly) (n : ℕ) (str : List Char) : (fs.fwrite n str).AppendOnly := by
  unfold Files.fwrite
  split
  · exact h
  · rename_i st hst
    exact h.update rfl (by simpa using h n st hst)

variable [DecidableEq π]

theorem fopen (h : fs.AppendOnly) (path : π) : (fs.fopen path false).AppendOnly :=
  h.update rfl (by simp)

theorem writeOut (h : fs.AppendOnly) (n k : ℕ) : (fs.writeOut n k).AppendOnly := by
  unfold Files.writeOut
  split
  · exact h
  · rename_i st hst
    exact h.update rfl (by simpa [Stream.drain] using h n st hst)

theorem fflush (h : fs.AppendOnly) (n : ℕ) : (fs.fflush n).AppendOnly := by
  unfold Files.fflush
  split
  · exact h
  · exact h.writeOut n _

theorem fclose (h : fs.AppendOnly) (n : ℕ) : (fs.fclose n).AppendOnly :=
  (h.fflush n).update rfl (by simp)

end AppendOnly

theorem path_eq_some {p : π} :
    fs.path n = some p ↔ ∃ st, fs.streams n = some st ∧ st.path = p := Option.map_eq_some_iff

/-- Another state of the same stream. -/
theorem path_update (hst : fs.streams n = some st) {st' : Stream π} (hpath : st'.path = st.path)
    (m : ℕ) : (Function.update fs.streams n (some st') m).map Stream.path = fs.path m := by
  by_cases hm : m = n
  · subst hm
    simp [path, hst, hpath]
  · rw [Function.update_of_ne hm, path]

@[simp] theorem path_fwrite (fs : Files π) (n : ℕ) (str : List Char) (m : ℕ) :
    (fs.fwrite n str).path m = fs.path m := by
  cases hst : fs.streams n with
  | none => simp [fwrite, hst, undefined, path]
  | some st =>
      simp only [fwrite, hst]
      exact path_update hst (by rfl) m

theorem ordered_init (content : π → List Char) : (Files.init content).Ordered none where
  noFault := rfl
  unopened _ _ := rfl
  writer_open n hn := by cases hn
  writer_atEnd n st hst := by cases hst
  others_empty n st hst := by cases hst
  others_alone n st hst := by cases hst

theorem Ordered.lt_opened (h : fs.Ordered writer) (hst : fs.streams n = some st) :
    n < fs.opened := by
  by_contra hle
  rw [h.unopened n (by omega)] at hst
  cases hst

theorem Ordered.writer_ne (h : fs.Ordered writer) : writer ≠ some fs.opened := by
  intro hwriter
  have hopen := h.writer_open _ hwriter
  rw [h.unopened _ (Nat.le_refl _)] at hopen
  cases hopen

theorem Ordered.mayOpen (h : fs.Ordered writer) {path : π} {truncate : Bool}
    (hmay : fs.MayOpen writer path truncate) (hst : fs.streams n = some st)
    (hpath : st.path = path) :
    truncate = false ∧ (st.append = true ∨ writer = some n) :=
  hmay n (h.lt_opened hst) st hst hpath

variable [DecidableEq π]

@[simp] theorem path_writeOut (fs : Files π) (n k m : ℕ) :
    (fs.writeOut n k).path m = fs.path m := by
  cases hst : fs.streams n with
  | none => simp [writeOut, hst, undefined, path]
  | some st =>
      simp only [writeOut, hst]
      exact path_update hst (by rfl) m

@[simp] theorem path_fflush (fs : Files π) (n m : ℕ) : (fs.fflush n).path m = fs.path m := by
  cases hst : fs.streams n with
  | none => simp [fflush, hst, undefined, path]
  | some st =>
      simp only [fflush, hst]
      exact path_writeOut fs n _ m

theorem path_fclose (fs : Files π) (n m : ℕ) :
    (fs.fclose n).path m = if m = n then none else fs.path m := by
  by_cases hm : m = n
  · simp [path, fclose, hm]
  · rw [if_neg hm, ← path_fflush fs n m]
    simp only [path, fclose, Function.update_of_ne hm]

theorem path_fopen (fs : Files π) (p : π) (truncate : Bool) (m : ℕ) :
    (fs.fopen p truncate).path m = if m = fs.opened then some p else fs.path m := by
  by_cases hm : m = fs.opened
  · simp [path, fopen, hm]
  · simp [path, fopen, hm]

/-! ### Opening -/

section Open
variable {path : π} {truncate : Bool}

/-- The other files are as they were. -/
theorem content_fopen {p : π} (hp : truncate = true → p ≠ path) :
    (fs.fopen path truncate).content p = fs.content p := by
  cases truncate with
  | false => rfl
  | true => exact Function.update_of_ne (hp rfl) _ _

theorem streams_fopen (hst : (fs.fopen path truncate).streams n = some st) :
    (n = fs.opened ∧ st = ⟨path, !truncate, 0, []⟩) ∨ fs.streams n = some st := by
  by_cases hn : n = fs.opened
  · subst hn
    simp only [fopen, Function.update_self, Option.some.injEq] at hst
    exact .inl ⟨rfl, hst.symm⟩
  · simp only [fopen, Function.update_of_ne hn] at hst
    exact .inr hst

/-- **A stream is opened.** -/
theorem Ordered.fopen (h : fs.Ordered writer) (hmay : fs.MayOpen writer path truncate) :
    (fs.fopen path truncate).Ordered writer where
  noFault := h.noFault
  unopened := by
    intro n hn
    have hlt : fs.opened < n := hn
    simp only [Files.fopen, Function.update_of_ne (show n ≠ fs.opened by omega)]
    exact h.unopened n (by omega)
  writer_open := by
    intro n hn
    have hne : n ≠ fs.opened := by
      rintro rfl
      exact h.writer_ne hn
    simp only [Files.fopen, Function.update_of_ne hne]
    exact h.writer_open n hn
  writer_atEnd := by
    intro n st hst hn
    rcases streams_fopen hst with ⟨rfl, -⟩ | hst
    · exact absurd hn h.writer_ne
    · rw [content_fopen fun htruncate hpath => by simp [(h.mayOpen hmay hst hpath).1] at htruncate]
      exact h.writer_atEnd n st hst hn
  others_empty := by
    intro n st hst hn
    rcases streams_fopen hst with ⟨-, rfl⟩ | hst
    · rfl
    · exact h.others_empty n st hst hn
  others_alone := by
    intro n st hst hn happend
    rcases streams_fopen hst with ⟨rfl, rfl⟩ | hst
    · obtain rfl : truncate = true := by simpa using happend
      refine ⟨rfl, Function.update_self _ _ _, fun m st' hst' hpath => ?_⟩
      rcases streams_fopen hst' with ⟨rfl, -⟩ | hst'
      · rfl
      · cases (h.mayOpen hmay hst' hpath).1
    · have hne : st.path ≠ path := by
        intro hpath
        rcases (h.mayOpen hmay hst hpath).2 with happend' | hw
        · rw [happend] at happend'
          cases happend'
        · exact hn hw
      obtain ⟨hoffset, hempty, halone⟩ := h.others_alone n st hst hn happend
      refine ⟨hoffset, by rwa [content_fopen fun _ => hne], fun m st' hst' hpath => ?_⟩
      rcases streams_fopen hst' with ⟨-, rfl⟩ | hst'
      · exact absurd hpath.symm hne
      · exact halone m st' hst' hpath

/-- **It truncates its file**, or leaves all as they are. -/
theorem Ordered.text_fopen (h : fs.Ordered writer) (hmay : fs.MayOpen writer path truncate)
    (p : π) :
    (fs.fopen path truncate).text writer p
      = if truncate = true ∧ p = path then [] else fs.text writer p := by
  have hunwritten : (fs.fopen path truncate).unwritten writer p = fs.unwritten writer p := by
    cases hwriter : writer with
    | none => rfl
    | some n =>
        have hn : n ≠ fs.opened := by
          rintro rfl
          exact h.writer_ne hwriter
        simp [unwritten, Files.fopen, Function.update_of_ne hn]
  rw [text, hunwritten]
  by_cases hp : truncate = true ∧ p = path
  · obtain ⟨rfl, rfl⟩ := hp
    rw [if_pos ⟨rfl, rfl⟩, unwritten]
    simp only [Files.fopen, if_true, Function.update_self, List.nil_append]
    cases hwriter : writer.bind fs.streams with
    | none => rfl
    | some st =>
        obtain ⟨n, rfl, hst⟩ := Option.bind_eq_some_iff.mp hwriter
        exact if_neg fun hpath => by cases (h.mayOpen hmay hst hpath).1
  · rw [if_neg hp, content_fopen fun htruncate hpath => hp ⟨htruncate, hpath⟩, text]

end Open

/-! ### Writing -/

theorem unwritten_writer (hst : fs.streams n = some st) (p : π) :
    fs.unwritten (some n) p = if st.path = p then st.buffer else [] := by
  simp [unwritten, hst]

/-- The writer goes on, to another end of its file. -/
theorem Ordered.update (h : fs.Ordered (some n)) (hst : fs.streams n = some st) {st' : Stream π}
    {content : List Char} (hpath : st'.path = st.path) (hend : st'.AtEnd content) :
    Ordered
      { fs with
        content := Function.update fs.content st.path content
        streams := Function.update fs.streams n (some st') } (some n) where
  noFault := h.noFault
  unopened := by
    intro m hm
    have hne : m ≠ n := by
      rintro rfl
      exact absurd (h.lt_opened hst) (Nat.not_lt.mpr hm)
    simp only [Function.update_of_ne hne]
    exact h.unopened m hm
  writer_open := by
    intro m hm
    obtain rfl := Option.some.inj hm
    simp
  writer_atEnd := by
    intro m stm hm hwriter
    obtain rfl := Option.some.inj hwriter
    simp only [Function.update_self, Option.some.injEq] at hm
    subst hm
    simpa [hpath] using hend
  others_empty := by
    intro m stm hm hwriter
    have hne : m ≠ n := fun heq => hwriter (by rw [heq])
    simp only [Function.update_of_ne hne] at hm
    exact h.others_empty m stm hm hwriter
  others_alone := by
    intro m stm hm hwriter happend
    have hne : m ≠ n := fun heq => hwriter (by rw [heq])
    simp only [Function.update_of_ne hne] at hm
    obtain ⟨hoffset, hempty, halone⟩ := h.others_alone m stm hm hwriter happend
    -- its file is not that of the writer
    have hother : st.path ≠ stm.path := fun heq => hne (halone n st hst heq).symm
    refine ⟨hoffset, ?_, fun k stk hk hk' => ?_⟩
    · simpa only [Function.update_of_ne (Ne.symm hother)] using hempty
    · by_cases hkn : k = n
      · subst hkn
        simp only [Function.update_self, Option.some.injEq] at hk
        subst hk
        exact absurd (hpath.symm.trans hk') hother
      · simp only [Function.update_of_ne hkn] at hk
        exact halone k stk hk hk'

/-- **The writer writes.** -/
theorem Ordered.fwrite (h : fs.Ordered (some n)) (str : List Char) :
    ∃ st, fs.streams n = some st ∧ (fs.fwrite n str).Ordered (some n) ∧
      ∀ p, (fs.fwrite n str).text (some n) p
        = if p = st.path then fs.text (some n) p ++ str else fs.text (some n) p := by
  obtain ⟨st, hst⟩ := Option.isSome_iff_exists.mp (h.writer_open n rfl)
  have hfwrite : fs.fwrite n str =
      { fs with
        content := Function.update fs.content st.path (fs.content st.path)
        streams :=
          Function.update fs.streams n (some { st with buffer := st.buffer ++ str }) } := by
    simp [Files.fwrite, hst]
  refine ⟨st, hst, ?_, fun p => ?_⟩
  · rw [hfwrite]
    exact h.update hst rfl (h.writer_atEnd n st hst rfl)
  · simp only [text, unwritten_writer hst, hfwrite, Function.update_eq_self]
    rw [unwritten_writer (Function.update_self _ _ _)]
    by_cases hp : p = st.path
    · simp [hp]
    · simp [hp, Ne.symm hp]

/-- A stream that is not the writer has nothing to write out. -/
theorem Ordered.writeOut_of_ne (h : fs.Ordered writer) (hst : fs.streams n = some st)
    (hn : writer ≠ some n) (k : ℕ) : fs.writeOut n k = fs := by
  have hbuffer := h.others_empty n st hst hn
  have hput : st.put (fs.content st.path) [] = fs.content st.path := by
    by_cases happend : st.append = true
    · rw [Stream.put, if_pos happend, List.append_nil]
    · obtain ⟨hoffset, -⟩ := h.others_alone n st hst hn (by simpa using happend)
      rw [Stream.put, if_neg happend, hoffset]
      simp
  have hdrain : st.drain k = st := by
    cases st
    simp_all [Stream.drain]
  simp only [Files.writeOut, hst, hbuffer, List.take_nil, hput, hdrain, Function.update_eq_self]
  rw [← hst, Function.update_eq_self]

/-- **The library empties a part of a buffer**, and nobody can tell. -/
theorem Ordered.writeOut (h : fs.Ordered writer) (hst : fs.streams n = some st) (k : ℕ) :
    (fs.writeOut n k).Ordered writer ∧ (fs.writeOut n k).text writer = fs.text writer := by
  by_cases hn : writer = some n
  · subst hn
    have hend := h.writer_atEnd n st hst rfl
    have hout : fs.writeOut n k =
        { fs with
          content :=
            Function.update fs.content st.path (fs.content st.path ++ st.buffer.take k)
          streams := Function.update fs.streams n (some (st.drain k)) } := by
      simp only [Files.writeOut, hst, hend.put_eq]
    refine ⟨?_, ?_⟩
    · rw [hout]
      exact h.update hst rfl (hend.drain k)
    · funext p
      simp only [text, unwritten_writer hst, hout]
      rw [unwritten_writer (Function.update_self _ _ _)]
      by_cases hp : st.path = p
      · subst hp
        simp [Stream.drain]
      · simp [Stream.drain, hp, Function.update_of_ne (Ne.symm hp)]
  · rw [h.writeOut_of_ne hst hn]
    exact ⟨h, rfl⟩

theorem Ordered.fflush (h : fs.Ordered writer) (hst : fs.streams n = some st) :
    (fs.fflush n).Ordered writer ∧ (fs.fflush n).text writer = fs.text writer := by
  rw [Files.fflush, hst]
  exact h.writeOut hst _

/-! ### Closing -/

/-- A flushed stream has nothing in its buffer. -/
theorem streams_fflush (hst : fs.streams n = some st) :
    (fs.fflush n).streams n = some (st.drain st.buffer.length) := by
  simp [Files.fflush, Files.writeOut, hst]

/-- A stream that has nothing in its buffer is closed. -/
theorem Ordered.remove (h : fs.Ordered writer) (hst : fs.streams n = some st)
    (hbuffer : st.buffer = []) {writer' : Option ℕ}
    (hwriter : ∀ m, writer' = some m ↔ writer = some m ∧ m ≠ n) :
    Ordered { fs with streams := Function.update fs.streams n none } writer' ∧
      text { fs with streams := Function.update fs.streams n none } writer' = fs.text writer := by
  have hold : ∀ {m stm}, Function.update fs.streams n none m = some stm →
      m ≠ n ∧ fs.streams m = some stm := by
    intro m stm hm
    by_cases hmn : m = n
    · simp [hmn] at hm
    · rw [Function.update_of_ne hmn] at hm
      exact ⟨hmn, hm⟩
  have hnot : ∀ {m}, m ≠ n → writer' ≠ some m → writer ≠ some m :=
    fun hmn hm heq => hm ((hwriter _).mpr ⟨heq, hmn⟩)
  refine ⟨⟨h.noFault, ?_, ?_, ?_, ?_, ?_⟩, ?_⟩
  · intro m hm
    by_cases hmn : m = n
    · simp [hmn]
    · simp only [Function.update_of_ne hmn]
      exact h.unopened m hm
  · intro m hm
    obtain ⟨hm, hmn⟩ := (hwriter m).mp hm
    simp only [Function.update_of_ne hmn]
    exact h.writer_open m hm
  · intro m stm hm hw
    exact h.writer_atEnd m stm (hold hm).2 ((hwriter m).mp hw).1
  · intro m stm hm hw
    exact h.others_empty m stm (hold hm).2 (hnot (hold hm).1 hw)
  · intro m stm hm hw happend
    obtain ⟨hoffset, hempty, halone⟩ :=
      h.others_alone m stm (hold hm).2 (hnot (hold hm).1 hw) happend
    exact ⟨hoffset, hempty, fun k stk hk hpath => halone k stk (hold hk).2 hpath⟩
  · funext p
    have hunwritten : unwritten { fs with streams := Function.update fs.streams n none } writer' p
        = fs.unwritten writer p := by
      by_cases hn : writer = some n
      · have hnone : writer' = none := by
          refine Option.eq_none_iff_forall_ne_some.mpr fun m hm => ?_
          obtain ⟨hm, hmn⟩ := (hwriter m).mp hm
          exact hmn (Option.some.inj (hm.symm.trans hn))
        simp [unwritten, hnone, hn, hst, hbuffer]
      · have hsame : writer' = writer := by
          refine Option.ext fun m => (hwriter m).trans (and_iff_left_of_imp ?_)
          rintro hm rfl
          exact hn hm
        cases hw : writer with
        | none => simp [unwritten, hsame, hw]
        | some m =>
            have hmn : m ≠ n := fun heq => hn (by rw [hw, heq])
            simp [unwritten, hsame, hw, Function.update_of_ne hmn]
    simp only [text, hunwritten]

/-- **A stream is closed.** -/
theorem Ordered.fclose (h : fs.Ordered writer) (hst : fs.streams n = some st) {writer' : Option ℕ}
    (hwriter : ∀ m, writer' = some m ↔ writer = some m ∧ m ≠ n) :
    (fs.fclose n).Ordered writer' ∧ (fs.fclose n).text writer' = fs.text writer := by
  obtain ⟨hflush, htext⟩ := h.fflush hst
  rw [← htext]
  exact hflush.remove (streams_fflush hst) (by simp [Stream.drain]) hwriter

/-- **A stream becomes the writer**, when there is none. -/
theorem Ordered.switch (h : fs.Ordered none) (hst : fs.streams n = some st) :
    fs.Ordered (some n) ∧ fs.text (some n) = fs.text none := by
  refine ⟨⟨h.noFault, h.unopened, ?_, ?_, ?_, ?_⟩, ?_⟩
  · intro m hm
    obtain rfl := Option.some.inj hm
    simp [hst]
  · intro m stm hm _
    by_cases happend : stm.append = true
    · exact .inl happend
    · obtain ⟨hoffset, hempty, -⟩ := h.others_alone m stm hm (by simp) (by simpa using happend)
      exact .inr (by rw [hoffset, hempty, List.length_nil])
  · exact fun m stm hm _ => h.others_empty m stm hm (by simp)
  · exact fun m stm hm _ => h.others_alone m stm hm (by simp)
  · funext p
    simp only [text, unwritten_writer hst, h.others_empty n st hst (by simp), ite_self]
    rfl

end Files

end Papper.Stdio
