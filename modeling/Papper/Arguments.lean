import Papper.Event
import Papper.Lib.Footprint

/-!
# What the message depends on

A `std::basic_string` is encoded with its characters.  A trivially copyable value is encoded
as it lies in memory, so a `const char*` or a `std::string_view`, alone or in a struct, is
encoded as a pointer, and its characters are read when the backend formats the event.
Between the call and that moment the caller may change or free everything but the static
call-site data, string literals and the queue's buffer.

`fmt::vformat` is handed the values and, for each of them, the strings that its formatter
reaches through the pointers it holds.

## Main definitions

* `StringRef` — a string held by a pointer.
* `Formatting` — the formatting library, with the strings it follows.
* `Formatting.reads` — the addresses of the characters it reads for a parameter pack.
* `MessageOfCall` — the message is that of the call, in every later memory.
* `messageOfCall_iff` — when it is.
-/

namespace Papper

open Memory Codec

/-- A string that a value refers to and does not contain. -/
inductive StringRef
  /-- A `const char*`. -/
  | cString (data : UInt64)
  /-- A `std::string_view`. -/
  | view (data size : UInt64)
  deriving DecidableEq

namespace StringRef

/-- The characters that a formatter finds.  A string of C ends before its first zero, within
the address space. -/
def text (mem : ℕ → Byte) : StringRef → List Byte
  | .cString data => Memory.cString mem data.toNat (2 ^ 64)
  | .view data size => readBytes mem data.toNat size.toNat

/-- The addresses read to find them. -/
def reads (mem : ℕ → Byte) : StringRef → Set ℕ
  | .cString data =>
      Set.Ico data.toNat
        (data.toNat + min (2 ^ 64) ((Memory.cString mem data.toNat (2 ^ 64)).length + 1))
  | .view data size => Set.Ico data.toNat (data.toNat + size.toNat)

theorem observes_text (mem : ℕ → Byte) (ref : StringRef) :
    Observes (fun m => ref.text m) mem (ref.reads mem) := by
  cases ref with
  | cString data => exact observes_cString mem data.toNat (2 ^ 64)
  | view data size => exact observes_readBytes mem data.toNat size.toNat

end StringRef

/-- The formatting library.  `refs` gives the strings that the formatter of a trivially
copyable type prints and a value of the type only refers to; `vformat` is `fmt::vformat`, with
the characters found for each argument beside the arguments. -/
structure Formatting where
  refs : String → List Byte → List StringRef
  vformat : List Char → (ts : List ArgType) → Args ts → List (List (List Byte)) →
    Option (List Char)

namespace Formatting
variable (F : Formatting)

/-- The strings one value refers to: a `std::basic_string` contains its own. -/
def valueRefs : (t : ArgType) → t.Value → List StringRef
  | .trivial name _, v => F.refs name (List.Vector.toList v)
  | .basicString _ _, _ => []

/-- The strings that the values of a parameter pack refer to. -/
def argRefs : {ts : List ArgType} → Args ts → List (List StringRef)
  | _, .nil => []
  | _, .cons (t := t) v rest => F.valueRefs t v :: argRefs rest

/-- The characters a formatter finds, argument by argument. -/
def texts (mem : ℕ → Byte) {ts : List ArgType} (args : Args ts) : List (List (List Byte)) :=
  (F.argRefs args).map fun refs => refs.map fun ref => ref.text mem

/-- The addresses read to find them. -/
def reads (mem : ℕ → Byte) {ts : List ArgType} (args : Args ts) : Set ℕ :=
  {a | ∃ refs ∈ F.argRefs args, ∃ ref ∈ refs, a ∈ ref.reads mem}

/-- What the arguments are formatted to in a memory, for each format string. -/
def messages {ts : List ArgType} (args : Args ts) (mem : ℕ → Byte) (fmtStr : List Char) :
    Option (List Char) :=
  F.vformat fmtStr ts args (F.texts mem args)

/-- `fmt::vformat` in a memory. -/
def program (staticData : UInt64 → Option CallSiteStaticData) (mem : ℕ → Byte) : Program where
  staticData := staticData
  vformat := fun fmtStr _ args => F.messages args mem fmtStr

/-- The message of `decode_and_format<Args...>` in a memory. -/
def message (staticData : UInt64 → Option CallSiteStaticData) (fmtStr : List Char)
    (ts : List ArgType) (mem : ℕ → Byte) (argsData : ℕ) : Option (List Char) :=
  (decodeAndFormat (F.program staticData mem) ts fmtStr mem argsData).1

/-- No character is hidden for values of these types: where one byte of the memory makes a
difference to the characters found, some format string prints it. -/
def Shows (ts : List ArgType) : Prop :=
  ∀ (args : Args ts) (mem : ℕ → Byte) (a : ℕ) (b : Byte),
    F.texts (Function.update mem a b) args ≠ F.texts mem args →
      ∃ fmtStr, F.messages args (Function.update mem a b) fmtStr ≠ F.messages args mem fmtStr

end Formatting

/-- The memory once `push_log_event` has encoded the arguments. -/
def pushArgs (mem : ℕ → Byte) (cursor : ℕ) {ts : List ArgType} (args : Args ts) : ℕ → Byte :=
  writeBytes mem cursor (encodeArgs args)

/-- The bytes of the encoded arguments. -/
def argsRegion (cursor : ℕ) {ts : List ArgType} (args : Args ts) : Set ℕ :=
  Set.Ico cursor (cursor + (encodeArgs args).length)

/-- Whatever the format string, the message does not depend on a memory that differs outside
of the queue's buffer and static storage, and is the one of the call.  The event stays in the
buffer, where other events come and go, and static storage does not change. -/
def MessageOfCall (F : Formatting) (staticData : UInt64 → Option CallSiteStaticData)
    (static buffer : Set ℕ) (called : ℕ → Byte) {ts : List ArgType} (args : Args ts)
    (cursor : ℕ) : Prop :=
  ∀ fmtStr mem mem',
    Set.EqOn (pushArgs called cursor args) mem (static ∪ argsRegion cursor args) →
    Set.EqOn mem mem' (static ∪ buffer) →
      F.message staticData fmtStr ts mem cursor = F.message staticData fmtStr ts mem' cursor ∧
      F.message staticData fmtStr ts mem cursor = F.messages args (pushArgs called cursor args) fmtStr

/-! ## The decoded arguments -/

theorem holds_pushArgs (mem : ℕ → Byte) (cursor : ℕ) {ts : List ArgType} (args : Args ts) :
    Holds (pushArgs mem cursor args) cursor (encodeArgs args) := by
  intro x b hx
  simp [pushArgs, writeBytes, hx]

theorem Memory.Holds.of_eqOn {mem mem' : ℕ → Byte} {start : ℕ} {bs : List Byte}
    (h : Holds mem start bs) (heq : Set.EqOn mem mem' (Set.Ico start (start + bs.length))) :
    Holds mem' start bs := by
  intro x b hx
  have hlt : x < bs.length := (List.getElem?_eq_some_iff.mp hx).1
  rw [← heq ⟨by omega, by omega⟩]
  exact h x b hx

namespace Formatting
variable (F : Formatting) (staticData : UInt64 → Option CallSiteStaticData)
variable {ts : List ArgType} {args : Args ts}

/-- As long as the event is in the buffer, its own arguments are formatted. -/
theorem message_eq {mem : ℕ → Byte} {cursor : ℕ} (h : Holds mem cursor (encodeArgs args))
    (fmtStr : List Char) :
    F.message staticData fmtStr ts mem cursor = F.messages args mem fmtStr := by
  rw [message, decodeAndFormat, decodeArgs_encodeArgs h]
  rfl

theorem observes_texts (mem : ℕ → Byte) (args : Args ts) :
    Observes (fun m => F.texts m args) mem (F.reads mem args) := by
  refine Observes.list ?_
  intro refs _
  refine Observes.list ?_
  intro ref _
  exact ref.observes_text mem

variable {F} in
/-- All the messages of a parameter pack together depend on the characters it refers to. -/
theorem Shows.observes (h : F.Shows ts) (mem : ℕ → Byte) (args : Args ts) :
    Observes (F.messages args) mem (F.reads mem args) := by
  refine (F.observes_texts mem args).map (g := fun texts fmtStr => F.vformat fmtStr ts args texts) ?_
  intro a b hne heq
  obtain ⟨fmtStr, hshow⟩ := h args mem a b hne
  exact hshow (congrFun heq fmtStr)

end Formatting

theorem messageOfCall_iff_determinedOn (F : Formatting)
    (staticData : UInt64 → Option CallSiteStaticData) {static buffer : Set ℕ} {called : ℕ → Byte}
    {ts : List ArgType} {args : Args ts} {cursor : ℕ} (hin : argsRegion cursor args ⊆ buffer) :
    MessageOfCall F staticData static buffer called args cursor ↔
      DeterminedOn (F.messages args) (pushArgs called cursor args)
        (static ∪ argsRegion cursor args) := by
  have hpushed := holds_pushArgs called cursor args
  have hmessage : ∀ {mem}, Set.EqOn (pushArgs called cursor args) mem
      (static ∪ argsRegion cursor args) → ∀ fmtStr,
      F.message staticData fmtStr ts mem cursor = F.messages args mem fmtStr := by
    intro mem heq
    exact F.message_eq staticData (hpushed.of_eqOn (heq.mono Set.subset_union_right))
  constructor
  · intro h mem heq
    funext fmtStr
    rw [← hmessage heq]
    exact (h fmtStr mem mem heq (Set.eqOn_refl _ _)).2
  · intro h fmtStr mem mem' heq heq'
    have hlater : Set.EqOn (pushArgs called cursor args) mem'
        (static ∪ argsRegion cursor args) :=
      heq.trans (heq'.mono (Set.union_subset_union_right _ hin))
    rw [hmessage heq, hmessage hlater, h mem heq, h mem' hlater]
    exact ⟨rfl, rfl⟩

/-- **Strings, integers and arrays are copied**: arguments that refer to no string are
formatted as they were at the call, whatever becomes of the memory. -/
theorem messageOfCall_of_argRefs (F : Formatting)
    (staticData : UInt64 → Option CallSiteStaticData) {static buffer : Set ℕ} {called : ℕ → Byte}
    {ts : List ArgType} {args : Args ts} {cursor : ℕ} (hin : argsRegion cursor args ⊆ buffer)
    (hrefs : ∀ refs ∈ F.argRefs args, refs = []) :
    MessageOfCall F staticData static buffer called args cursor := by
  rw [messageOfCall_iff_determinedOn F staticData hin]
  have hreads : F.reads (pushArgs called cursor args) args ⊆ static ∪ argsRegion cursor args := by
    rintro a ⟨refs, hmem, ref, href, _⟩
    rw [hrefs refs hmem] at href
    exact absurd href List.not_mem_nil
  have htexts := (F.observes_texts (pushArgs called cursor args) args).determined.mono hreads
  intro mem heq
  have htext : F.texts mem args = F.texts (pushArgs called cursor args) args := htexts mem heq
  funext fmtStr
  rw [Formatting.messages, htext, Formatting.messages]

/-- **The message is that of the call exactly if every character it refers to is in static
storage.**  A pointer into the event's own bytes is as good. -/
theorem messageOfCall_iff {F : Formatting} {ts : List ArgType} (hshows : F.Shows ts)
    (staticData : UInt64 → Option CallSiteStaticData) {static buffer : Set ℕ} {called : ℕ → Byte}
    {args : Args ts} {cursor : ℕ} (hin : argsRegion cursor args ⊆ buffer) :
    MessageOfCall F staticData static buffer called args cursor ↔
      F.reads (pushArgs called cursor args) args ⊆ static ∪ argsRegion cursor args := by
  rw [messageOfCall_iff_determinedOn F staticData hin]
  exact (hshows.observes (pushArgs called cursor args) args).determinedOn_iff

/-! ## A view -/

/-- `fmt` as it formats one `std::string_view`, whose size lies before its pointer. -/
private def viewFormatting : Formatting where
  refs := fun name bytes =>
    if name = "std::string_view" then [.view (wordAt bytes 1) (wordAt bytes 0)] else []
  vformat := fun fmtStr _ _ texts =>
    match texts with
    | [[text]] =>
        if fmtStr = "\x7b\x7d".toList then some (text.map Char.ofUInt8) else none
    | _ => none

private abbrev viewTypes : List ArgType := [.trivial "std::string_view" 16]

/-- A view of two characters at 8192. -/
private def viewArgs : Args viewTypes :=
  .cons (t := .trivial "std::string_view" 16)
    ⟨[2, 0, 0, 0, 0, 0, 0, 0, 0, 32, 0, 0, 0, 0, 0, 0], rfl⟩ .nil

private theorem ofUInt8_injective : Function.Injective Char.ofUInt8 := by
  intro b c h
  exact UInt8.toUInt32_inj.mp (congrArg Char.val h)

private theorem viewFormatting_shows : viewFormatting.Shows viewTypes := by
  intro args mem a b hne
  refine ⟨"\x7b\x7d".toList, ?_⟩
  intro heq
  cases args with
  | cons v rest =>
      cases rest
      refine hne ?_
      have hchars := List.map_injective_iff.mpr ofUInt8_injective (Option.some.inj heq)
      exact congrArg (fun text => [[text]]) hchars

/-- A view of a literal is as good as a copy of it. -/
theorem messageOfCall_iff_literal :
    MessageOfCall viewFormatting (fun _ => none) (Set.Ico 8192 8194) (Set.Ico 4096 5120)
      (fun _ => 111) viewArgs 4096 := by
  refine (messageOfCall_iff viewFormatting_shows _ ?_).mpr ?_
  · intro a ha
    have hlen : (encodeArgs viewArgs).length = 16 := rfl
    simp only [argsRegion, hlen, Set.mem_Ico] at ha ⊢
    omega
  · rintro a ⟨refs, hrefs, ref, href, ha⟩
    have hargs : viewFormatting.argRefs viewArgs = [[.view 8192 2]] := by decide
    rw [hargs, List.mem_singleton] at hrefs
    rw [hrefs, List.mem_singleton] at href
    rw [href] at ha
    exact Or.inl ha

/-- The characters behind a view are those of the moment the backend formats it: two memories
that differ in one of them give two messages. -/
theorem not_messageOfCall_view :
    ¬ MessageOfCall viewFormatting (fun _ => none) ∅ (Set.Ico 4096 5120) (fun _ => 111) viewArgs
      4096 := by
  intro h
  have h2 := h "\x7b\x7d".toList (pushArgs (fun _ => 111) 4096 viewArgs)
    (Function.update (pushArgs (fun _ => 111) 4096 viewArgs) 8192 120)
    (Set.eqOn_refl _ _) (by
      intro a ha
      have hne : a ≠ 8192 := by
        rintro rfl
        simp at ha
      rw [Function.update_of_ne hne])
  exact absurd h2.1 (by decide)

end Papper
