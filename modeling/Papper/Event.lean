import Papper.Codec
import Papper.Lib.FormatString
import Papper.Pattern.Data

/-!
# Log events in the queue

`push_log_event` lays an event out as a header, encoded field by field, and the
arguments of the call.  The backend reads the header back as one 32-byte struct, finds
the call site through the pointer in it, and lets the call site's decoding function
read the arguments.  Three computations must agree on where the event ends: the sizes
summed before the reservation, the encoders, and the decoders.

`fmt::vformat` is not part of the repository: it is a component of `Program`, and
throwing is returning `none`.  Pointers are 64-bit words, of which only those to static
call-site data are followed here; a thread name is followed through a map that the
caller supplies, since the string lives only as long as its thread's context.

## Main definitions

* `Program` — the static call-site data and the formatting library.
* `LogCall`, `Event` — a call of a logging macro, and the event it pushes.
* `Event.encode` — the bytes written by `push_log_event`.
* `readEvent`, `readAndProcessSingleEvent` — the backend's side.
* `threadName` — the text a header points to.
* `events_decode` — what is pushed is what is read, and the read ends where it ends.
-/

namespace Papper

open Memory Codec

/-- `CallSiteStaticData`.  The decoding function is `decode_and_format<Args...>` for the
types listed. -/
structure CallSiteStaticData where
  level : LogLevel
  fmtStr : List Char
  decodingFn : List ArgType
  filename : List Char
  functionname : List Char
  line : ℕ
  deriving DecidableEq

/-- What is fixed for a whole program: the static call-site data at each address, and
`fmt::vformat` on the values of a parameter pack. -/
structure Program where
  staticData : UInt64 → Option CallSiteStaticData
  vformat : List Char → (ts : List ArgType) → Args ts → Option (List Char)

structure LogEventHeader where
  staticData : UInt64
  threadName : UInt64
  timestamp : UInt64
  payloadSize : UInt64
  deriving DecidableEq

/-- The name the constructor of a context chooses: that which is asked for, or one with the number
of the thread, which is an `int` that wraps. -/
def threadName (unnamedThreadCounter : Int32) (name : List Char) : List Char :=
  if name = [] then "thread_".toList ++ signedDecimal (unnamedThreadCounter + 1).toInt else name

/-- `sizeof(LogEventHeader)`: four words and no padding. -/
def headerSize : ℕ := 32

/-- One call of a logging macro: static data and arguments of the types its decoding
function was instantiated at.  The encoded arguments are objects of one 64-bit address
space, so their size and the header's do not wrap. -/
structure LogCall (P : Program) where
  staticData : UInt64
  site : CallSiteStaticData
  site_eq : P.staticData staticData = some site
  args : Args site.decodingFn
  fits : headerSize + (encodeArgs args).length < 2 ^ 64

/-- What one `push_log_event` pushes: the call, the thread's name pointer and the tick
counter. -/
structure Event (P : Program) where
  call : LogCall P
  threadName : UInt64
  timestamp : UInt64

/-! ## The producer's side -/

/-- The size passed to `reserve_write`. -/
def LogCall.headerPlusArgsSize {P : Program} (call : LogCall P) : UInt64 :=
  totalArgsSize call.args + UInt64.ofNat headerSize

/-- `Codec<T>::encode` of a pointer or a 64-bit integer. -/
def encodeWord (v : UInt64) : List Byte := littleEndian wordSize v.toNat

/-- The header, field by field. -/
def LogEventHeader.encode (h : LogEventHeader) : List Byte :=
  encodeWord h.staticData ++ encodeWord h.threadName ++ encodeWord h.timestamp ++
    encodeWord h.payloadSize

namespace Event
variable {P : Program}

/-- The header of the event. -/
def header (e : Event P) : LogEventHeader where
  staticData := e.call.staticData
  threadName := e.threadName
  timestamp := e.timestamp
  payloadSize := totalArgsSize e.call.args

/-- The bytes `push_log_event` writes into its reservation. -/
def encode (e : Event P) : List Byte := e.header.encode ++ encodeArgs e.call.args

end Event

/-! ## The backend's side -/

/-- The `i`-th word of the struct whose bytes are given. -/
def wordAt (bs : List Byte) (i : ℕ) : UInt64 :=
  UInt64.ofNat (ofLittleEndian ((bs.drop (i * wordSize)).take wordSize))

/-- `Codec<LogEventHeader>::decode`: the whole struct at once. -/
def decodeHeader (mem : ℕ → Byte) (cursor : ℕ) : LogEventHeader × ℕ :=
  let bs := readBytes mem cursor headerSize
  ({ staticData := wordAt bs 0
     threadName := wordAt bs 1
     timestamp := wordAt bs 2
     payloadSize := wordAt bs 3 }, cursor + headerSize)

/-- `decode_and_format<Args...>`: the message, unless formatting throws, and the cursor
past the arguments. -/
def decodeAndFormat (P : Program) (ts : List ArgType) (fmtStr : List Char) (mem : ℕ → Byte)
    (argsData : ℕ) : Option (List Char) × ℕ :=
  let decoded := decodeArgs ts mem argsData
  (P.vformat fmtStr ts decoded.1, decoded.2)

/-- `sizeof(LogEventHeader) + header.payload_size`. -/
def LogEventHeader.totalEventSize (h : LogEventHeader) : UInt64 :=
  UInt64.ofNat headerSize + h.payloadSize

/-- What the backend has in hand when the decoding function has returned or thrown. -/
structure ReadEvent where
  header : LogEventHeader
  site : CallSiteStaticData
  message : Option (List Char)
  cursor : ℕ
  deriving DecidableEq

/-- The first half of `read_and_process_single_event`.  There is no result when the
header does not point to call-site data. -/
def readEvent (P : Program) (mem : ℕ → Byte) (buffer : ℕ) : Option ReadEvent :=
  let decoded := decodeHeader mem buffer
  (P.staticData decoded.1.staticData).map fun site =>
    let formatted := decodeAndFormat P site.decodingFn site.fmtStr mem decoded.2
    { header := decoded.1
      site := site
      message := formatted.1
      cursor := formatted.2 }

/-- The data of the line, for an event that passes the level filter. -/
def ReadEvent.patternData (e : ReadEvent) (threadName : List Char) (timestamp : ℤ)
    (message : List Char) : PatternData where
  level := e.site.level
  threadName := threadName
  timestamp := timestamp
  filename := e.site.filename
  functionname := e.site.functionname
  linenumber := e.site.line
  message := message

/-- How `read_and_process_single_event` can end. -/
inductive Outcome
  /-- The header does not point to call-site data. -/
  | undefined
  /-- Formatting threw. -/
  | threw
  /-- The size consumed, and the line unless the level filter dropped it. -/
  | processed (consumed : UInt64) (line : Option PatternData)
  deriving DecidableEq

/-- `read_and_process_single_event`, up to the formatting of the line.  `names` follows
the thread-name pointer and `localTime` is the clock's conversion. -/
def readAndProcessSingleEvent (P : Program) (names : UInt64 → List Char)
    (localTime : UInt64 → ℤ) (minLogLevel : LogLevel) (mem : ℕ → Byte) (buffer : ℕ) : Outcome :=
  match readEvent P mem buffer with
  | none => .undefined
  | some e =>
      match e.message with
      | none => .threw
      | some message =>
          if e.site.level < minLogLevel then
            -- drop the event if too low level
            .processed e.header.totalEventSize none
          else
            .processed e.header.totalEventSize
              (some (e.patternData (names e.header.threadName) (localTime e.header.timestamp)
                message))

/-- Where the backend reads after `n` events, when it starts at `start`. -/
def readPos (mem : ℕ → Byte) (start : ℕ) : ℕ → ℕ
  | 0 => start
  | n + 1 =>
      readPos mem start n + (decodeHeader mem (readPos mem start n)).1.totalEventSize.toNat

/-! ## The two sides agree -/

@[simp] theorem length_encodeWord (v : UInt64) : (encodeWord v).length = wordSize := by
  simp [encodeWord]

@[simp] theorem LogEventHeader.length_encode (h : LogEventHeader) :
    h.encode.length = headerSize := by
  simp [encode, wordSize, headerSize]

/-- A word is read back from the place where its field was written. -/
theorem wordAt_append (bs : List Byte) (v : UInt64) (cs : List Byte) {i : ℕ}
    (hbs : bs.length = i * wordSize) : wordAt (bs ++ (encodeWord v ++ cs)) i = v := by
  rw [wordAt, List.drop_left' hbs, List.take_left' (length_encodeWord v)]
  exact ofNat_ofLittleEndian v

/-- The struct read back is the one whose fields were written. -/
theorem decodeHeader_encode {mem : ℕ → Byte} {cursor : ℕ} {h : LogEventHeader}
    (hmem : Holds mem cursor h.encode) : decodeHeader mem cursor = (h, cursor + headerSize) := by
  obtain ⟨a, b, c, d⟩ := h
  have hbs : readBytes mem cursor headerSize
      = encodeWord a ++ (encodeWord b ++ (encodeWord c ++ (encodeWord d ++ []))) := by
    rw [hmem.readBytes_eq (by simp)]
    simp [LogEventHeader.encode]
  have h0 := wordAt_append [] a (encodeWord b ++ (encodeWord c ++ (encodeWord d ++ []))) (i := 0) rfl
  have h1 := wordAt_append (encodeWord a) b (encodeWord c ++ (encodeWord d ++ [])) (i := 1) rfl
  have h2 := wordAt_append (encodeWord a ++ encodeWord b) c (encodeWord d ++ []) (i := 2) rfl
  have h3 := wordAt_append (encodeWord a ++ encodeWord b ++ encodeWord c) d [] (i := 3) rfl
  simp only [List.append_assoc, List.nil_append] at h0 h1 h2 h3 hbs
  simp only [decodeHeader, hbs, h0, h1, h2, h3]

/-- The argument bytes are as many as the size in the header says. -/
theorem LogCall.toNat_totalArgsSize {P : Program} (call : LogCall P) :
    (totalArgsSize call.args).toNat = (encodeArgs call.args).length := by
  have := call.fits
  rw [totalArgsSize_eq, UInt64.toNat_ofNat']
  omega

/-- The reserved size is the true size of header and arguments. -/
theorem LogCall.toNat_headerPlusArgsSize {P : Program} (call : LogCall P) :
    call.headerPlusArgsSize.toNat = headerSize + (encodeArgs call.args).length := by
  have hfits := call.fits
  have hheader : (UInt64.ofNat headerSize).toNat = headerSize := rfl
  rw [headerPlusArgsSize, UInt64.toNat_add, call.toNat_totalArgsSize, hheader]
  omega

namespace Event
variable {P : Program} (e : Event P)

/-- **The encoders fill exactly the reserved region.** -/
theorem length_encode : e.encode.length = e.call.headerPlusArgsSize.toNat := by
  rw [encode, List.length_append, LogEventHeader.length_encode, e.call.toNat_headerPlusArgsSize]

theorem totalEventSize_header : e.header.totalEventSize = e.call.headerPlusArgsSize := by
  rw [LogEventHeader.totalEventSize, LogCall.headerPlusArgsSize, UInt64.add_comm]
  rfl

theorem toNat_totalEventSize_header : e.header.totalEventSize.toNat = e.encode.length := by
  rw [e.totalEventSize_header, e.length_encode]

variable {e} {mem : ℕ → Byte} {buffer : ℕ}

theorem decodeHeader_eq (h : Holds mem buffer e.encode) :
    decodeHeader mem buffer = (e.header, buffer + headerSize) :=
  decodeHeader_encode h.append_left

/-- The decoder of the arguments starts where the header ends, and stops exactly
`payload_size` bytes further on. -/
theorem decodeArgs_eq (h : Holds mem buffer e.encode) :
    decodeArgs e.call.site.decodingFn mem (buffer + headerSize)
      = (e.call.args, buffer + headerSize + e.header.payloadSize.toNat) := by
  have hargs := h.append_right
  rw [LogEventHeader.length_encode] at hargs
  rw [decodeArgs_encodeArgs hargs, header, e.call.toNat_totalArgsSize]

/-- What the backend has in hand after the first half of the processing. -/
theorem readEvent_eq (h : Holds mem buffer e.encode) :
    readEvent P mem buffer = some
      { header := e.header
        site := e.call.site
        message := P.vformat e.call.site.fmtStr e.call.site.decodingFn e.call.args
        cursor := buffer + headerSize + e.header.payloadSize.toNat } := by
  have hsite : P.staticData e.header.staticData = some e.call.site := e.call.site_eq
  simp only [readEvent, decodeHeader_eq h, hsite, decodeAndFormat, decodeArgs_eq h,
    Option.map_some]

/-- **The whole processing of one event**: it consumes the reserved size, whether or not
the level filter drops the event. -/
theorem readAndProcessSingleEvent_eq (h : Holds mem buffer e.encode)
    (names : UInt64 → List Char) (localTime : UInt64 → ℤ) (minLogLevel : LogLevel) :
    readAndProcessSingleEvent P names localTime minLogLevel mem buffer =
      match P.vformat e.call.site.fmtStr e.call.site.decodingFn e.call.args with
      | none => .threw
      | some message =>
          .processed e.call.headerPlusArgsSize
            (if e.call.site.level < minLogLevel then none else some
              { level := e.call.site.level
                threadName := names e.threadName
                timestamp := localTime e.timestamp
                filename := e.call.site.filename
                functionname := e.call.site.functionname
                linenumber := e.call.site.line
                message := message }) := by
  rw [readAndProcessSingleEvent, readEvent_eq h]
  cases P.vformat e.call.site.fmtStr e.call.site.decodingFn e.call.args with
  | none => rfl
  | some message =>
      simp only [totalEventSize_header]
      split <;> rfl

end Event

/-! ## Events laid end to end -/

/-- The number of bytes of a list of events. -/
def eventsSize {P : Program} (es : List (Event P)) : ℕ := (es.flatMap Event.encode).length

theorem eventsSize_take_succ {P : Program} {es : List (Event P)} {j : ℕ} {e : Event P}
    (h : es[j]? = some e) : eventsSize (es.take (j + 1)) = eventsSize (es.take j) + e.encode.length := by
  simp [eventsSize, List.take_add_one, h]

/-- Each event of a list laid end to end lies after those before it. -/
theorem holds_event {P : Program} {es : List (Event P)} {mem : ℕ → Byte} {start j : ℕ}
    {e : Event P} (h : Holds mem start (es.flatMap Event.encode)) (hj : es[j]? = some e) :
    Holds mem (start + eventsSize (es.take j)) e.encode := by
  obtain ⟨hlt, he⟩ := List.getElem?_eq_some_iff.mp hj
  have hsplit : es = es.take j ++ e :: es.drop (j + 1) := by
    rw [← he, List.cons_getElem_drop_succ, List.take_append_drop]
  rw [hsplit, List.flatMap_append, List.flatMap_cons] at h
  exact h.append_right.append_left

/-- **Framing never drifts**: after `j` events the backend reads at the start of the
next one. -/
theorem readPos_eq {P : Program} {es : List (Event P)} {mem : ℕ → Byte} {start : ℕ}
    (h : Holds mem start (es.flatMap Event.encode)) {j : ℕ} (hj : j ≤ es.length) :
    readPos mem start j = start + eventsSize (es.take j) := by
  induction j with
  | zero => simp [readPos, eventsSize]
  | succ j ih =>
      obtain ⟨e, he⟩ : ∃ e, es[j]? = some e := ⟨_, List.getElem?_eq_getElem (by omega)⟩
      rw [readPos, ih (by omega), Event.decodeHeader_eq (holds_event h he),
        e.totalEventSize_header, ← e.length_encode, eventsSize_take_succ he, Nat.add_assoc]

/-- **Events decode to what was encoded and framing never drifts.**  For events laid end
to end from `start` on, the backend reads the `j`-th at the end of those before it; the
encoders filled exactly the region reserved for it; header, arguments and cursor come
back; and the size consumed is the size reserved, whatever the level filter decides. -/
theorem events_decode {P : Program} {es : List (Event P)} {mem : ℕ → Byte} {start : ℕ}
    (h : Holds mem start (es.flatMap Event.encode)) {j : ℕ} {e : Event P} (hj : es[j]? = some e) :
    let p := readPos mem start j
    p = start + eventsSize (es.take j) ∧
    e.encode.length = e.call.headerPlusArgsSize.toNat ∧
    decodeHeader mem p =
      ({ staticData := e.call.staticData
         threadName := e.threadName
         timestamp := e.timestamp
         payloadSize := totalArgsSize e.call.args }, p + headerSize) ∧
    decodeArgs e.call.site.decodingFn mem (p + headerSize)
      = (e.call.args, p + headerSize + (totalArgsSize e.call.args).toNat) ∧
    (∀ names localTime minLogLevel,
      readAndProcessSingleEvent P names localTime minLogLevel mem p =
        match P.vformat e.call.site.fmtStr e.call.site.decodingFn e.call.args with
        | none => .threw
        | some message =>
            .processed e.call.headerPlusArgsSize
              (if e.call.site.level < minLogLevel then none else some
                { level := e.call.site.level
                  threadName := names e.threadName
                  timestamp := localTime e.timestamp
                  filename := e.call.site.filename
                  functionname := e.call.site.functionname
                  linenumber := e.call.site.line
                  message := message })) ∧
    readPos mem start (j + 1) = p + e.call.headerPlusArgsSize.toNat := by
  have hlt : j < es.length := (List.getElem?_eq_some_iff.mp hj).1
  have hp := readPos_eq h hlt.le
  have hmem : Holds mem (readPos mem start j) e.encode := by
    rw [hp]
    exact holds_event h hj
  refine ⟨hp, e.length_encode, Event.decodeHeader_eq hmem, Event.decodeArgs_eq hmem,
    Event.readAndProcessSingleEvent_eq hmem, ?_⟩
  rw [readPos, Event.decodeHeader_eq hmem, e.totalEventSize_header]

/-- A call site that logs an `int` and a string, called with 7 and the empty string. -/
private def sampleProgram : Program where
  staticData := fun a =>
    if a = 4096 then
      some
        { level := .Info
          fmtStr := "[\x7b\x7d] [\x7b\x7d]".toList
          decodingFn := [.trivial "int" 4, .basicString "char" 1]
          filename := "main.cpp".toList
          functionname := "main".toList
          line := 94 }
    else none
  vformat := fun _ _ _ => some "[7] []".toList

private def sampleEvent : Event sampleProgram where
  call :=
    { staticData := 4096
      site := _
      site_eq := rfl
      args := .cons (t := .trivial "int" 4) ⟨[7, 0, 0, 0], rfl⟩
        (.cons (t := .basicString "char" 1) ⟨[], by decide⟩ .nil)
      fits := by decide }
  threadName := 8192
  timestamp := 1000

theorem events_decode_sampleEvent :
    readPos (fun a => (sampleEvent.encode ++ sampleEvent.encode)[a]?.getD 0) 0 1 = 44 ∧
      readPos (fun a => (sampleEvent.encode ++ sampleEvent.encode)[a]?.getD 0) 0 2 = 88 := by
  have hmem : Holds (fun a => (sampleEvent.encode ++ sampleEvent.encode)[a]?.getD 0) 0
      ([sampleEvent, sampleEvent].flatMap Event.encode) := by
    intro x b hx
    simp only [List.flatMap_cons, List.flatMap_nil, List.append_nil] at hx
    simp only [Nat.zero_add, hx, Option.getD_some]
  have h1 := events_decode hmem (j := 1) rfl
  exact ⟨h1.1, h1.2.2.2.2.2.trans (by rw [h1.1]; rfl)⟩

end Papper
