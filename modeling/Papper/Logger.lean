import Papper.Event
import Papper.Lib.FormatString
import Papper.Lib.Mailbox
import Papper.Pattern.Format
import Papper.Sink

/-!
# What the logger is for

The purpose of the library, as a machine without memory, pointers, loads or loops.  A thread
that has a name and has joined hands entries over, and may end; the entries of a thread wait
in one list, in the order in which they were accepted.  Any entry at the front of its list may
be processed: it is dropped if its level is below the minimum, and otherwise becomes a line,
which is made with the pattern and written to the sink in use.  A thread leaves when it has
ended and nothing of it is left to process, and the logger exits when it was told to stop and
everyone has left.

Which thread is served next, how often the mailboxes of the settings are looked into, and when
a thread that may leave does so, are left open.

## Main definitions

* `Entry`, `Line` — what a call hands over, and what is written of it.
* `State`, `Action`, `step` — the machine.
-/

namespace Papper.Logger

/-- What a logging call hands over. -/
structure Entry (P : Program) where
  call : LogCall P
  timestamp : UInt64

/-- A line of output: what is formatted, by which formatter, and for which sink. -/
structure Line where
  data : PatternData
  formatter : ParsedPattern
  sink : Sink.File

structure State (P : Program) (ι : Type) where
  name : ι → Option (List Char)
  /-- How many threads have a name they did not choose, as an `int`. -/
  unnamed : Int32
  /-- The threads that have joined and not left, the last one first. -/
  members : List ι
  ended : ι → Bool
  pending : ι → List (Entry P)
  minLogLevel : LogLevel
  sink : Mailbox Sink.File
  formatter : Mailbox ParsedPattern
  running : Bool
  exited : Bool
  /-- What was written, and of which thread. -/
  lines : List (ι × Line)

inductive Action (P : Program) (ι : Type)
  /-- A thread gets its name. -/
  | create (i : ι) (name : List Char)
  | join (i : ι)
  | accept (i : ι) (entry : Entry P)
  | finish (i : ι)
  | leave (i : ι)
  | setLevel (level : LogLevel)
  | setSink (file : Sink.File)
  | setFormatter (formatter : ParsedPattern)
  | pollSink
  | pollFormatter
  /-- The next entry of a thread, which was logged at this local time. -/
  | process (i : ι) (localTime : ℤ)
  | shutdown
  | exit

variable {P : Program} {ι : Type}

def init : State P ι where
  name := fun _ => none
  unnamed := 0
  members := []
  ended := fun _ => false
  pending := fun _ => []
  minLogLevel := .Trace
  sink := ⟨.stdout, none⟩
  formatter := ⟨defaultFormatter, none⟩
  running := true
  exited := false
  lines := []

/-- The decoded message, unless formatting fails. -/
def Entry.message (e : Entry P) : Option (List Char) :=
  P.vformat e.call.site.fmtStr e.call.site.decodingFn e.call.args

/-- What there is to say of an entry. -/
def Entry.data (e : Entry P) (name : List Char) (localTime : ℤ) (message : List Char) :
    PatternData where
  level := e.call.site.level
  threadName := name
  timestamp := localTime
  filename := e.call.site.filename
  functionname := e.call.site.functionname
  linenumber := e.call.site.line
  message := message

/-- What is written of an entry. -/
def State.linesOf (l : State P ι) (i : ι) (e : Entry P) (name : List Char) (localTime : ℤ) :
    Option (List (ι × Line)) :=
  if e.call.site.level < l.minLogLevel then some []
  else e.message.map fun message =>
    [(i, ⟨e.data name localTime message, l.formatter.current, l.sink.current⟩)]

def step [DecidableEq ι] (l : State P ι) : Action P ι → Option (State P ι)
  | .create i name =>
      if l.name i = none then
        some { l with
          name := Function.update l.name i (some (threadName l.unnamed name))
          unnamed := if name = [] then l.unnamed + 1 else l.unnamed }
      else none
  | .join i =>
      if l.name i ≠ none ∧ l.ended i = false ∧ i ∉ l.members then
        some { l with members := i :: l.members }
      else none
  | .accept i entry =>
      if i ∈ l.members ∧ l.ended i = false then
        some { l with pending := Function.update l.pending i (l.pending i ++ [entry]) }
      else none
  | .finish i =>
      if i ∈ l.members ∧ l.ended i = false then
        some { l with ended := Function.update l.ended i true }
      else none
  | .leave i =>
      if l.exited = false ∧ i ∈ l.members ∧ l.ended i = true ∧ l.pending i = [] then
        some { l with members := l.members.erase i }
      else none
  | .setLevel level => some { l with minLogLevel := level }
  | .setSink file => some { l with sink := l.sink.queue file }
  | .setFormatter formatter => some { l with formatter := l.formatter.queue formatter }
  | .pollSink => if l.exited = false then some { l with sink := l.sink.poll } else none
  | .pollFormatter =>
      if l.exited = false then some { l with formatter := l.formatter.poll } else none
  | .process i localTime =>
      match l.pending i, l.name i with
      | entry :: rest, some name =>
          if l.exited = false ∧ i ∈ l.members then
            (l.linesOf i entry name localTime).map fun lines =>
              { l with pending := Function.update l.pending i rest, lines := l.lines ++ lines }
          else none
      | _, _ => none
  | .shutdown => some { l with running := false }
  | .exit =>
      if l.running = false ∧ l.members = [] then some { l with exited := true } else none

end Papper.Logger
