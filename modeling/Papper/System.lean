import Papper.Event
import Papper.Lib.FormatString
import Papper.Lib.Mailbox
import Papper.Pattern.Format
import Papper.Queue.Spsc
import Papper.Sink
import Papper.ThreadList

/-!
# The threads and the backend

The whole of `core.h` as one machine: any number of threads that call the logging
macros, change the settings and end, and the backend thread with its loop, its passes
over the list of threads and its drain loop.  The list and the queues are the machines of
their own modules, and this one says which of their steps belong to which thread.

The shared variables are sequentially consistent here: a load of a position of a queue
returns the last value stored.  A step is an access to one of them together with the
local computation around it; the bytes of an event, which nobody else touches, are read
in one step.

A thread's `ThreadContextHandler` is constructed by its first call that needs a queue
and destroyed when the thread ends.  Every instantiation of `push_log_event` keeps the
queue it was given in a pointer of its own, which outlives the handler.

## Main definitions

* `Thread`, `State` — the threads and the program.
* `threadStep`, `visitStep`, `backendStep` — the steps of the two sides.
* `Action`, `step` — the machine.
-/

namespace Papper

/-- The bytes of an event, as one message of its queue. -/
def Event.message {P : Program} (e : Event P) : Message where
  bytes := e.encode
  size_pos := by
    rw [e.length_encode, e.call.toNat_headerPlusArgsSize]
    exact Nat.lt_of_lt_of_le (by decide) (Nat.le_add_right headerSize _)
  size_lt := by
    rw [e.length_encode]
    exact e.call.headerPlusArgsSize.toNat_lt

/-- The backend reads `n` bytes of its reservation. -/
def Queue.Machine.readBytes (s : Queue.Machine) (res : ReadReservation) (n : ℕ) :
    Queue.Machine :=
  { s with consumer := .reading res (Memory.readBytes s.q.buffer res.buffer n) }

namespace System

/-! ## Threads -/

/-- `ThreadContext`. -/
structure ThreadContext where
  name : List Char
  /-- `_name.c_str()`. -/
  namePtr : UInt64
  q : Queue.Machine
  isAlive : Bool

/-- The `thread_local` `ThreadContextHandler`. -/
inductive Handler
  | notConstructed
  | constructed
  | destroyed
  deriving DecidableEq

/-- An event on its way into the queue.  The stamps, which nothing reads, are those of the
last sink and the last formatter that its thread had handed over. -/
structure Push (P : Program) where
  event : Event P
  sinkStamp : ℕ
  formatterStamp : ℕ

/-- A call of one of the instantiations `κ` of `push_log_event`, at a value of the tick
counter. -/
structure Request (P : Program) (κ : Type) where
  instantiation : κ
  call : LogCall P
  timestamp : UInt64

inductive ThreadPc (P : Program) (κ : Type)
  | idle
  /-- In the constructor of the handler, which a log call may be waiting for. -/
  | registering (request : Option (Request P κ))
  /-- About to call `reserve_write`. -/
  | reserve (p : Push P)
  /-- Between there and the end of `commit_write`. -/
  | pushing (p : Push P)

/-- A thread, with the events it has committed. -/
structure Thread (P : Program) (κ : Type) where
  handler : Handler
  context : ThreadContext
  /-- Whether an instantiation has its pointer to the queue. -/
  cached : κ → Bool
  pc : ThreadPc P κ
  sinkStamp : ℕ
  formatterStamp : ℕ
  accepted : List (Push P)

variable {P : Program} {ι κ : Type}

def Thread.init : Thread P κ :=
  ⟨.notConstructed, ⟨[], 0, Queue.Machine.new 0, false⟩, fun _ => false, .idle, 0, 0, []⟩

/-- The thread does nothing that takes steps. -/
def ThreadPc.isIdle : ThreadPc P κ → Bool
  | idle => true
  | _ => false

/-- The event a request pushes. -/
def Thread.push (t : Thread P κ) (r : Request P κ) : Push P :=
  ⟨⟨r.call, t.context.namePtr, r.timestamp⟩, t.sinkStamp, t.formatterStamp⟩

/-! ## The backend -/

/-- A line of output: what was formatted, by which formatter, and for which sink. -/
structure Line where
  data : PatternData
  formatter : Stamped ParsedPattern
  sink : Stamped Sink.File

/-- A run of `read_and_process_single_event` to its end: the thread whose queue the event
was in, the minimum level that was loaded, and the line unless the event was dropped. -/
structure Processed (ι : Type) where
  thread : ι
  event : ReadEvent
  minLogLevel : LogLevel
  line : Option Line

/-- Where the backend is at the context of a thread. -/
inductive Visit
  /-- About to call `reserve_read`. -/
  | start
  /-- About to load `_atomic_w`. -/
  | reload
  | process (read : ReadReservation)
  /-- The event is decoded, and the minimum level about to be loaded. -/
  | level (event : ReadEvent) (message : List Char)
  /-- About to call `commit_read`. -/
  | commit (sizeRead : UInt64)
  /-- The queue was empty, and `_is_alive` is about to be loaded. -/
  | alive

/-- Where the backend thread is in its two loops. -/
inductive Loop
  /-- About to load `_running`. -/
  | top
  | pollSink
  | pollFormatter
  /-- About to load `_head` in `poll_threads`. -/
  | poll
  | pass
  /-- About to load `_head` in the condition of the drain loop. -/
  | drainTop
  | drainPoll
  | drainPass
  | exited
  /-- An exception has left the thread. -/
  | terminated
  deriving DecidableEq

/-- The program. -/
structure State (P : Program) (ι κ : Type) where
  list : ThreadList.State ι
  threads : ι → Thread P κ
  /-- The context whose name is at an address. -/
  names : UInt64 → Option ι
  /-- `unnamed_thread_counter`, an `int`. -/
  unnamedThreadCounter : Int32
  loop : Loop
  visit : Option (ι × Visit)
  running : Bool
  minLogLevel : LogLevel
  sink : Mailbox (Stamped Sink.File)
  formatter : Mailbox (Stamped ParsedPattern)
  /-- How many sinks have been handed over, and how many of them before the backend last
  looked for one. -/
  sinkCalls : ℕ
  sinkPolled : ℕ
  formatterCalls : ℕ
  formatterPolled : ℕ
  processed : List (Processed ι)
  /-- `push_log_event` has used a queue after its context was deleted. -/
  usedDeletedQueue : Bool
  /-- The backend has followed a pointer in a header that points to nothing. -/
  fault : Bool

def init : State P ι κ where
  list := ThreadList.init
  threads := fun _ => Thread.init
  names := fun _ => none
  unnamedThreadCounter := 0
  loop := .top
  visit := none
  running := true
  minLogLevel := .Trace
  sink := ⟨⟨.stdout, 0⟩, none⟩
  formatter := ⟨⟨defaultFormatter, 0⟩, none⟩
  sinkCalls := 0
  sinkPolled := 0
  formatterCalls := 0
  formatterPolled := 0
  processed := []
  usedDeletedQueue := false
  fault := false

inductive Action (P : Program) (ι κ : Type)
  /-- `init_thread`.  A context that is constructed has its name at `namePtr`. -/
  | initThread (i : ι) (name : List Char) (queueSize : ℕ) (namePtr : UInt64)
  /-- `push_log_event`, where `queueSize` is the default at the time. -/
  | log (i : ι) (request : Request P κ) (queueSize : ℕ) (namePtr : UInt64)
  /-- `new ThreadContextNode`, at an address. -/
  | newNode (i : ι) (n : ℕ)
  | registrar (i : ι) (spurious : Bool)
  /-- The next step of a thread that is not in `register_thread`. -/
  | thread (i : ι)
  /-- `~ThreadContextHandler`. -/
  | kill (i : ι)
  | setLevel (i : ι) (level : LogLevel)
  /-- The exchange of `queue_new_sink`. -/
  | setSink (i : ι) (file : Sink.File)
  /-- The exchange of `queue_new_formatter`. -/
  | setFormatter (i : ι) (formatter : ParsedPattern)
  /-- `_running.store(false)`. -/
  | shutdown
  /-- The next step of the backend; `localTime` is what the clock makes of a timestamp. -/
  | backend (localTime : ℤ)

section Step
variable [DecidableEq ι] [DecidableEq κ]

def State.setThread (s : State P ι κ) (i : ι) (t : Thread P κ) : State P ι κ :=
  { s with threads := Function.update s.threads i t }

def Thread.setQueue (t : Thread P κ) (q : Queue.Machine) : Thread P κ :=
  { t with context := { t.context with q := q } }

/-- The construction of the handler, up to `register_thread`. -/
def construct (s : State P ι κ) (i : ι) (name : List Char) (queueSize : ℕ) (namePtr : UInt64)
    (request : Option (Request P κ)) : Option (State P ι κ) :=
  if s.names namePtr = none then
    some { s with
      threads := Function.update s.threads i
        { s.threads i with
          handler := .constructed
          context :=
            ⟨threadName s.unnamedThreadCounter name, namePtr, Queue.Machine.new queueSize, true⟩
          pc := .registering request }
      names := Function.update s.names namePtr (some i)
      unnamedThreadCounter :=
        if name = [] then s.unnamedThreadCounter + 1 else s.unnamedThreadCounter }
  else none

/-- `push_log_event`, up to the call of `reserve_write`.  Where the instantiation has no
pointer to the queue yet, it asks the handler, also one that was destroyed. -/
def log (s : State P ι κ) (i : ι) (r : Request P κ) (queueSize : ℕ) (namePtr : UInt64) :
    Option (State P ι κ) :=
  let t := s.threads i
  if t.cached r.instantiation then some (s.setThread i { t with pc := .reserve (t.push r) })
  else if t.handler = .notConstructed then construct s i [] queueSize namePtr (some r)
  else
    some (s.setThread i
      { t with
        cached := Function.update t.cached r.instantiation true
        pc := .reserve (t.push r) })

/-- A thread is about to touch its queue. -/
def State.useQueue (s : State P ι κ) (i : ι) : State P ι κ :=
  { s with usedDeletedQueue := s.usedDeletedQueue || decide (i ∈ s.list.deletedContexts) }

/-- A step of a thread outside of `register_thread`. -/
def threadStep (s : State P ι κ) (i : ι) : Option (State P ι κ) :=
  let t := s.threads i
  match t.pc with
  | .idle => none
  | .registering request =>
      if s.list.registration i = .done then
        match request with
        | none => some (s.setThread i { t with pc := .idle })
        | some r =>
            some (s.setThread i
              { t with
                cached := Function.update t.cached r.instantiation true
                pc := .reserve (t.push r) })
      else none
  | .reserve p =>
      (Queue.step t.context.q (.reserveWrite p.event.message)).map fun q =>
        (s.useQueue i).setThread i { t.setQueue q with pc := .pushing p }
  | .pushing p =>
      match t.context.q.producer with
      | .idle => none
      | .reload _ =>
          (Queue.step t.context.q (.loadR t.context.q.q.atomicR.latest)).map fun q =>
            (s.useQueue i).setThread i
              { t.setQueue q with
                pc := match q.producer with
                  -- not enough queue space, drop the event
                  | .idle => .idle
                  | _ => .pushing p }
      | .filling m _ k =>
          if k = m.size then
            (Queue.step t.context.q .commitWrite).map fun q =>
              (s.useQueue i).setThread i
                { t.setQueue q with pc := .idle, accepted := t.accepted ++ [p] }
          else
            (Queue.step t.context.q .writeByte).map fun q =>
              (s.useQueue i).setThread i (t.setQueue q)

/-- The backend is done with a context. -/
def endVisit (s : State P ι κ) (dead : Bool) : Option (State P ι κ) :=
  (ThreadList.step s.list (.visit dead)).map fun list => { s with list := list, visit := none }

/-- An exception leaves the backend thread. -/
def State.terminate (s : State P ι κ) : State P ι κ := { s with loop := .terminated }

/-- The line of an event that passes the level filter, when the name in its header is
there. -/
def State.line? (s : State P ι κ) (event : ReadEvent) (localTime : ℤ) (message : List Char) :
    Option Line :=
  (s.names event.header.threadName).map fun j =>
    { data := event.patternData (s.threads j).context.name localTime message
      formatter := s.formatter.current
      sink := s.sink.current }

/-- What is left of `read_and_process_single_event` once the event is decoded. -/
def processEvent (s : State P ι κ) (i : ι) (event : ReadEvent) (message : List Char)
    (localTime : ℤ) : State P ι κ :=
  let after := some (i, Visit.commit event.header.totalEventSize)
  if event.site.level < s.minLogLevel then
    { s with processed := s.processed ++ [⟨i, event, s.minLogLevel, none⟩], visit := after }
  else
    match s.line? event localTime message with
    | none => { s with fault := true, loop := .terminated }
    | some line =>
        { s with processed := s.processed ++ [⟨i, event, s.minLogLevel, some line⟩], visit := after }

/-- A step of `poll_threads` at the context of a thread. -/
def visitStep (s : State P ι κ) (i : ι) (visit : Visit) (localTime : ℤ) : Option (State P ι κ) :=
  let t := s.threads i
  let q := t.context.q
  match visit with
  | .start =>
      (Queue.step q .reserveRead).map fun q' =>
        { s.setThread i (t.setQueue q') with
          visit := some (i, match q'.consumer with
            | .reading res _ => .process res
            | _ => .reload) }
  | .reload =>
      (Queue.step q (.loadW q.q.atomicW.latest)).map fun q' =>
        { s.setThread i (t.setQueue q') with
          visit := some (i, match q'.consumer with
            | .reading res _ => .process res
            | _ => .alive) }
  | .process res =>
      match readEvent P q.q.buffer res.buffer with
      | none => some { s with fault := true, loop := .terminated }
      | some event =>
          match event.message with
          | none => some s.terminate
          | some message =>
              some { s.setThread i (t.setQueue (q.readBytes res event.header.totalEventSize.toNat)) with
                visit := some (i, .level event message) }
  | .level event message => some (processEvent s i event message localTime)
  | .commit sizeRead =>
      (Queue.step q (.commitRead sizeRead.toNat)).bind fun q' =>
        endVisit (s.setThread i (t.setQueue q')) false
  | .alive => endVisit s (!t.context.isAlive)

/-- The names once the next step of the list is done: a deleted context takes its name
with it. -/
def State.namesAfter (s : State P ι κ) : UInt64 → Option ι :=
  match s.list.pc with
  | .deleteContext n _ =>
      match ThreadList.contextOf s.list.heap n with
      | some i => Function.update s.names (s.threads i).context.namePtr none
      | none => s.names
  | _ => s.names

/-- The context a step of the list has come to. -/
def entered (list : ThreadList.State ι) : Option (ι × Visit) :=
  match list.pc with
  | .visit n _ => (ThreadList.contextOf list.heap n).map fun i => (i, .start)
  | _ => none

/-- A step of `poll_threads` between two contexts. -/
def listStep (s : State P ι κ) (action : ThreadList.Action ι) : Option (State P ι κ) :=
  (ThreadList.step s.list action).map fun list =>
    { s with list := list, names := s.namesAfter, visit := entered list }

/-- A step of `poll_threads`, which returns to `back`. -/
def passStep (s : State P ι κ) (localTime : ℤ) (back : Loop) : Option (State P ι κ) :=
  match s.visit with
  | some (i, visit) => visitStep s i visit localTime
  | none =>
      if s.list.pc = .outside then some { s with loop := back } else listStep s .backend

def backendStep (s : State P ι κ) (localTime : ℤ) : Option (State P ι κ) :=
  match s.loop with
  | .top => some { s with loop := if s.running then .pollSink else .drainTop }
  | .pollSink =>
      some { s with sink := s.sink.poll, sinkPolled := s.sinkCalls, loop := .pollFormatter }
  | .pollFormatter =>
      some { s with
        formatter := s.formatter.poll
        formatterPolled := s.formatterCalls
        loop := .poll }
  | .poll => (listStep s .poll).map fun s' => { s' with loop := .pass }
  | .pass => passStep s localTime .top
  | .drainTop => some { s with loop := if s.list.head = none then .exited else .drainPoll }
  | .drainPoll => (listStep s .poll).map fun s' => { s' with loop := .drainPass }
  | .drainPass => passStep s localTime .drainTop
  | .exited => none
  | .terminated => none

/-- One step of one of the threads or of the backend. -/
def step (s : State P ι κ) : Action P ι κ → Option (State P ι κ)
  | .initThread i name queueSize namePtr =>
      if (s.threads i).pc.isIdle then
        if (s.threads i).handler = .notConstructed then
          construct s i name queueSize namePtr none
        else some s
      else none
  | .log i request queueSize namePtr =>
      if (s.threads i).pc.isIdle then log s i request queueSize namePtr else none
  | .newNode i n =>
      match (s.threads i).pc with
      | .registering _ =>
          (ThreadList.step s.list (.register i n)).map fun list => { s with list := list }
      | _ => none
  | .registrar i spurious =>
      match (s.threads i).pc with
      | .registering _ =>
          (ThreadList.step s.list (.registrar i spurious)).map fun list => { s with list := list }
      | _ => none
  | .thread i => threadStep s i
  | .kill i =>
      let t := s.threads i
      if t.pc.isIdle ∧ t.handler = .constructed then
        some (s.setThread i
          { t with handler := .destroyed, context := { t.context with isAlive := false } })
      else none
  | .setLevel i level =>
      if (s.threads i).pc.isIdle then some { s with minLogLevel := level } else none
  | .setSink i file =>
      if (s.threads i).pc.isIdle then
        some { s.setThread i { s.threads i with sinkStamp := s.sinkCalls + 1 } with
          sink := s.sink.queue ⟨file, s.sinkCalls + 1⟩
          sinkCalls := s.sinkCalls + 1 }
      else none
  | .setFormatter i formatter =>
      if (s.threads i).pc.isIdle then
        some { s.setThread i { s.threads i with formatterStamp := s.formatterCalls + 1 } with
          formatter := s.formatter.queue ⟨formatter, s.formatterCalls + 1⟩
          formatterCalls := s.formatterCalls + 1 }
      else none
  | .shutdown => some { s with running := false }
  | .backend localTime => backendStep s localTime

end Step

end System

end Papper
