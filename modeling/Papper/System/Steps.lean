import Papper.Queue.Frame
import Papper.System.Life

/-!
# What a step can be

A step of the program is a step of one of its parts, and this module says which and what
it does: a thread goes on with its program and its side of its queue, or the backend with
the visit of a context, or with the list of threads.  The facts that decide it are
`ThreadFlow`, about a thread and the producing side of its queue, and `ConsumerAt`, about
the consuming side at each place of the backend, which come with every step.

## Main definitions

* `Client` — what the threads have to obey.
* `Describes` — a record is that of an event.
* `ThreadFlow`, `ConsumerAt`, `Flow` — the queues and the records.
* `Runs`, `VisitStep`, `BackendStep`, `Step` — what the steps can be.
* `step_cases` — every step is one of these.
-/

namespace Papper.System

open Transition

variable {P : Program} {ι κ : Type}

/-- Queues are requested with sizes they can have, and no log call begins after the
handler of its thread was destroyed. -/
def Client (s : State P ι κ) : Action P ι κ → Prop
  | .initThread i _ queueSize _ =>
      (s.threads i).handler = .notConstructed → 2 * bitCeil queueSize < 2 ^ 64
  | .log i _ queueSize _ =>
      (s.threads i).handler ≠ .destroyed ∧
        ((s.threads i).handler = .notConstructed → 2 * bitCeil queueSize < 2 ^ 64)
  | _ => True

instance decidableClient (s : State P ι κ) : (a : Action P ι κ) → Decidable (Client s a)
  | .initThread i _ queueSize _ =>
      inferInstanceAs (Decidable
        ((s.threads i).handler = .notConstructed → 2 * bitCeil queueSize < 2 ^ 64))
  | .log i _ queueSize _ =>
      inferInstanceAs (Decidable ((s.threads i).handler ≠ .destroyed ∧
        ((s.threads i).handler = .notConstructed → 2 * bitCeil queueSize < 2 ^ 64)))
  | .newNode .. | .registrar .. | .thread .. | .kill .. | .setLevel .. | .setSink ..
  | .setFormatter .. | .shutdown | .backend .. => isTrue trivial

theorem Client.notLate {s : State P ι κ} {a : Action P ι κ} (h : Client s a) : NotLate s a := by
  cases a with
  | log => exact h.1
  | _ => trivial

/-! ## Records and events -/

/-- The decoded message. -/
def Push.text? (p : Push P) : Option (List Char) :=
  P.vformat p.event.call.site.fmtStr p.event.call.site.decodingFn p.event.call.args

/-- What the backend has in hand when it has decoded the event at an offset. -/
def Push.readAt (p : Push P) (buffer : ℕ) : ReadEvent where
  header := p.event.header
  site := p.event.call.site
  message := p.text?
  cursor := buffer + headerSize + p.event.header.payloadSize.toNat

/-- The record of an event of a thread with this name: there is no line if its level is
below the minimum that was loaded, and otherwise a line with what the event says. -/
structure Describes (name : List Char) (p : Push P) (r : Processed ι) : Prop where
  dropped : p.event.call.site.level < r.minLogLevel → r.line = none
  written : ¬ p.event.call.site.level < r.minLogLevel →
    ∃ line message localTime, r.line = some line ∧ p.text? = some message ∧
      line.data =
        { level := p.event.call.site.level
          threadName := name
          timestamp := localTime
          filename := p.event.call.site.filename
          functionname := p.event.call.site.functionname
          linenumber := p.event.call.site.line
          message := message }

/-- A record whose line has what the backend read. -/
theorem Describes.of_line {p : Push P} {buffer : ℕ} {message : List Char}
    (htext : p.text? = some message) {name : List Char} {minLogLevel : LogLevel}
    (hlevel : ¬ p.event.call.site.level < minLogLevel) {i : ι} {line : Line} {localTime : ℤ}
    (hline : line.data = (p.readAt buffer).patternData name localTime message) :
    Describes name p (⟨i, p.readAt buffer, minLogLevel, some line⟩ : Processed ι) where
  dropped := fun hlt => absurd hlt hlevel
  written := fun _ => ⟨line, message, localTime, rfl, htext, hline⟩

/-- The records are those of the first `n` events the thread has committed. -/
structure Matches (t : Thread P κ) (records : List (Processed ι)) (n : ℕ) : Prop where
  length_eq : records.length = n
  describes : List.Forall₂ (Describes t.context.name) (t.accepted.take n) records

namespace Matches
variable {t t' : Thread P κ} {records : List (Processed ι)} {n : ℕ}

theorem le (h : Matches t records n) : n ≤ t.accepted.length := by
  have hlen := h.describes.length_eq
  rw [h.length_eq, List.length_take] at hlen
  omega

/-- Later events do not matter. -/
theorem mono (h : Matches t records n) (hname : t'.context.name = t.context.name)
    (haccepted : t.accepted <+: t'.accepted) : Matches t' records n := by
  obtain ⟨later, hlater⟩ := haccepted
  refine ⟨h.length_eq, ?_⟩
  rw [hname, ← hlater, List.take_append_of_le_length h.le]
  exact h.describes

theorem setQueue (h : Matches t records n) (q : Queue.Machine) : Matches (t.setQueue q) records n :=
  ⟨h.length_eq, h.describes⟩

/-- One more record. -/
theorem snoc (h : Matches t records n) {p : Push P} (hp : t.accepted[n]? = some p) {r : Processed ι}
    (hr : Describes t.context.name p r) : Matches t (records ++ [r]) (n + 1) := by
  refine ⟨by rw [List.length_append, h.length_eq, List.length_singleton], ?_⟩
  rw [List.take_add_one, hp]
  exact List.rel_append h.describes (.cons hr .nil)

end Matches

/-! ## A thread and the backend -/

/-- The place of a thread and that of the producer of its queue; the events that are under
way have its name. -/
def ThreadPc.Producing (namePtr : UInt64) (producer : Queue.Producer) : ThreadPc P κ → Prop
  | .idle | .registering _ => producer = .idle
  | .reserve p => producer = .idle ∧ p.event.threadName = namePtr
  | .pushing p =>
      (producer = .reload p.event.message ∨ ∃ res k, producer = .filling p.event.message res k) ∧
        p.event.threadName = namePtr

/-- A thread and the producing side of its queue. -/
structure ThreadFlow (t : Thread P κ) : Prop where
  queue : ∃ k, Queue.Inv k t.context.q
  committed : t.context.q.committed = t.accepted.map fun p => p.event.message
  producing : t.pc.Producing t.context.namePtr t.context.q.producer
  named : ∀ p ∈ t.accepted, p.event.threadName = t.context.namePtr
  fresh : t.handler = .notConstructed → t.accepted = []

/-- The consuming side of a thread's queue, when the backend is at that place of its visit
or is not there. -/
def ConsumerAt (t : Thread P κ) (records : List (Processed ι)) : Option Visit → Prop
  | none | some .start | some .alive =>
      t.context.q.consumer = .idle ∧ Matches t records t.context.q.read.length
  | some .reload => t.context.q.consumer = .reload ∧ Matches t records t.context.q.read.length
  | some (.process res) =>
      t.context.q.consumer = .reading res [] ∧ Matches t records t.context.q.read.length
  | some (.level event message) =>
      ∃ p res, t.accepted[t.context.q.read.length]? = some p ∧
        t.context.q.consumer = .reading res p.event.encode ∧ event = p.readAt res.buffer ∧
        p.text? = some message ∧ Matches t records t.context.q.read.length
  | some (.commit sizeRead) =>
      ∃ p res, t.accepted[t.context.q.read.length]? = some p ∧
        t.context.q.consumer = .reading res p.event.encode ∧
        sizeRead = p.event.header.totalEventSize ∧
        Matches t records (t.context.q.read.length + 1)

/-! ## The two sides -/

/-- The event a thread is about to push or pushing. -/
def ThreadPc.push? : ThreadPc P κ → Option (Push P)
  | .reserve p | .pushing p => some p
  | _ => none

/-- What the steps of a thread that has its handler, and goes on having it, do to it. -/
structure Runs (t t' : Thread P κ) : Prop where
  produces : Queue.Produces t.context.q t'.context.q
  handler : t'.handler = t.handler
  name : t'.context.name = t.context.name
  namePtr : t'.context.namePtr = t.context.namePtr
  push : ∀ p, t'.pc.push? = some p → t.pc.push? = some p ∨ ∃ r, p = t.push r
  accepted : t'.accepted = t.accepted ∨
    ∃ p, t.pc.push? = some p ∧ t'.accepted = t.accepted ++ [p]

theorem Runs.accepted_isPrefix {t t' : Thread P κ} (h : Runs t t') : t.accepted <+: t'.accepted := by
  rcases h.accepted with heq | ⟨p, -, heq⟩
  · rw [heq]
  · rw [heq]
    exact List.prefix_append _ _

/-- A step that does not touch the queue. -/
theorem Runs.of_context {t t' : Thread P κ} (hcontext : t'.context = t.context)
    (hhandler : t'.handler = t.handler) (haccepted : t'.accepted = t.accepted)
    (hpush : ∀ p, t'.pc.push? = some p → t.pc.push? = some p ∨ ∃ r, p = t.push r) : Runs t t' := by
  constructor
  · rw [hcontext]
    exact ⟨rfl, rfl, rfl, rfl, rfl⟩
  · exact hhandler
  · rw [hcontext]
  · rw [hcontext]
  · exact hpush
  · exact .inl haccepted

section Sides
variable {t t' : Thread P κ} {records : List (Processed ι)}

/-- A step that does not touch the queue. -/
theorem ThreadFlow.of_context (h : ThreadFlow t) (hcontext : t'.context = t.context)
    (hhandler : t'.handler = t.handler) (haccepted : t'.accepted = t.accepted)
    (hproducing : t'.pc.Producing t.context.namePtr t.context.q.producer) : ThreadFlow t' := by
  constructor
  · rw [hcontext]
    exact h.queue
  · rw [hcontext, haccepted]
    exact h.committed
  · rw [hcontext]
    exact hproducing
  · rw [hcontext, haccepted]
    exact h.named
  · rw [hhandler, haccepted]
    exact h.fresh

/-- A step of the queue that commits nothing. -/
theorem ThreadFlow.setQueue (h : ThreadFlow t) {q : Queue.Machine} (hq : ∃ k, Queue.Inv k q)
    (hcommitted : q.committed = t.context.q.committed) {pc : ThreadPc P κ}
    (hproducing : pc.Producing t.context.namePtr q.producer) :
    ThreadFlow { t.setQueue q with pc := pc } := by
  constructor
  · exact hq
  · exact hcommitted.trans h.committed
  · exact hproducing
  · exact h.named
  · exact h.fresh

/-- A thread that is about to load `_atomic_r` does so for the event it logs. -/
theorem ThreadFlow.of_reload (h : ThreadFlow t) {p : Push P} {m : Message}
    (hpc : t.pc = .pushing p) (hproducer : t.context.q.producer = .reload m) :
    m = p.event.message ∧ p.event.threadName = t.context.namePtr := by
  have hproducing := h.producing
  rw [hpc] at hproducing
  obtain ⟨hreload | ⟨res, k, hfilling⟩, hname⟩ := hproducing
  · rw [hproducer, Queue.Producer.reload.injEq] at hreload
    exact ⟨hreload, hname⟩
  · rw [hproducer] at hfilling
    cases hfilling

/-- A thread that fills a buffer fills it with the event it logs. -/
theorem ThreadFlow.of_filling (h : ThreadFlow t) {p : Push P} {m : Message}
    {res : WriteReservation} {k : ℕ} (hpc : t.pc = .pushing p)
    (hproducer : t.context.q.producer = .filling m res k) :
    m = p.event.message ∧ p.event.threadName = t.context.namePtr := by
  have hproducing := h.producing
  rw [hpc] at hproducing
  obtain ⟨hreload | ⟨res', k', hfilling⟩, hname⟩ := hproducing
  · rw [hproducer] at hreload
    cases hreload
  · rw [hproducer, Queue.Producer.filling.injEq] at hfilling
    exact ⟨hfilling.1, hname⟩

/-- A commit. -/
theorem ThreadFlow.commit (h : ThreadFlow t) (hhandler : t.handler = .constructed)
    {q : Queue.Machine} (hq : ∃ k, Queue.Inv k q) {p : Push P}
    (hcommitted : q.committed = t.context.q.committed ++ [p.event.message])
    (hidle : q.producer = .idle) (hname : p.event.threadName = t.context.namePtr) :
    ThreadFlow { t.setQueue q with pc := .idle, accepted := t.accepted ++ [p] } := by
  constructor
  · exact hq
  · exact hcommitted.trans (by rw [h.committed, List.map_append]; rfl)
  · exact hidle
  · intro p' hp'
    rcases List.mem_append.mp hp' with hp' | hp'
    · exact h.named p' hp'
    · obtain rfl := List.mem_singleton.mp hp'
      exact hname
  · intro hnot
    exact absurd (hnot.symm.trans hhandler) (by simp)

/-- A step of the consumer. -/
theorem ThreadFlow.consume (h : ThreadFlow t) {q : Queue.Machine} (hq : ∃ k, Queue.Inv k q)
    (hc : Queue.Consumes t.context.q q) : ThreadFlow (t.setQueue q) := by
  have hproducing : t.pc.Producing t.context.namePtr q.producer := by
    rw [hc.producer]
    exact h.producing
  exact h.setQueue hq hc.committed hproducing

/-- What a thread does leaves the consumer of its queue alone. -/
theorem ConsumerAt.mono {v : Option Visit} (h : ConsumerAt t records v)
    (hconsumer : t'.context.q.consumer = t.context.q.consumer)
    (hread : t'.context.q.read = t.context.q.read) (hname : t'.context.name = t.context.name)
    (haccepted : t.accepted <+: t'.accepted) : ConsumerAt t' records v := by
  have hnext : ∀ {n : ℕ} {p}, t.accepted[n]? = some p → t'.accepted[n]? = some p := by
    intro n p hp
    obtain ⟨later, hlater⟩ := haccepted
    rw [← hlater, List.getElem?_append_left (List.getElem?_eq_some_iff.mp hp).1, hp]
  rcases v with _ | (_ | _ | res | ⟨event, message⟩ | sizeRead | _) <;>
    simp only [ConsumerAt, hconsumer, hread] at h ⊢
  · exact ⟨h.1, h.2.mono hname haccepted⟩
  · exact ⟨h.1, h.2.mono hname haccepted⟩
  · exact ⟨h.1, h.2.mono hname haccepted⟩
  · exact ⟨h.1, h.2.mono hname haccepted⟩
  · obtain ⟨p, res, hp, hconsumer, hevent, hmessage, hmatches⟩ := h
    exact ⟨p, res, hnext hp, hconsumer, hevent, hmessage, hmatches.mono hname haccepted⟩
  · obtain ⟨p, res, hp, hconsumer, hsize, hmatches⟩ := h
    exact ⟨p, res, hnext hp, hconsumer, hsize, hmatches.mono hname haccepted⟩
  · exact ⟨h.1, h.2.mono hname haccepted⟩

/-- The producer of an idle thread is idle. -/
theorem ThreadFlow.idle (h : ThreadFlow t) (hpc : t.pc.isIdle = true) :
    t.context.q.producer = .idle := by
  have hproducing := h.producing
  cases hp : t.pc with
  | idle => simpa only [hp, ThreadPc.Producing] using hproducing
  | _ => simp [hp, ThreadPc.isIdle] at hpc

/-- The event at the front of a queue is read whole. -/
theorem ThreadFlow.readEvent_eq (h : ThreadFlow t) {res : ReadReservation}
    {got : List Byte} (hconsumer : t.context.q.consumer = .reading res got) :
    ∃ p, t.accepted[t.context.q.read.length]? = some p ∧
      Memory.Holds t.context.q.q.buffer res.buffer p.event.encode ∧
      readEvent P t.context.q.q.buffer res.buffer = some (p.readAt res.buffer) := by
  obtain ⟨k, hinv⟩ := h.queue
  obtain ⟨m, hm, hholds⟩ := hinv.front hconsumer
  rw [h.committed, List.getElem?_map, Option.map_eq_some_iff] at hm
  obtain ⟨p, hp, rfl⟩ := hm
  exact ⟨p, hp, hholds, Event.readEvent_eq hholds⟩

end Sides

/-! ## The invariant -/

/-- The last of a list, or one before. -/
theorem getElem?_concat_cases {α : Type} {l : List α} {x y : α} {n : ℕ}
    (h : (l ++ [x])[n]? = some y) : l[n]? = some y ∨ (n = l.length ∧ x = y) := by
  by_cases hn : n < l.length
  · rw [List.getElem?_append_left hn] at h
    exact .inl h
  · have hlength := (List.getElem?_eq_some_iff.mp h).1
    rw [List.length_append, List.length_singleton] at hlength
    obtain rfl : n = l.length := by omega
    rw [List.getElem?_concat_length, Option.some.injEq] at h
    exact .inr ⟨rfl, h⟩

variable [DecidableEq ι]

/-- The records of a thread. -/
def recordsOf (processed : List (Processed ι)) (i : ι) : List (Processed ι) :=
  processed.filter (·.thread = i)

theorem recordsOf_concat_self {processed : List (Processed ι)} {r : Processed ι} {i : ι}
    (hr : r.thread = i) : recordsOf (processed ++ [r]) i = recordsOf processed i ++ [r] := by
  rw [recordsOf, List.filter_append, List.filter_cons_of_pos (by simp [hr]), List.filter_nil,
    recordsOf]

theorem recordsOf_concat_of_ne {processed : List (Processed ι)} {r : Processed ι} {i : ι}
    (hr : r.thread ≠ i) : recordsOf (processed ++ [r]) i = recordsOf processed i := by
  rw [recordsOf, List.filter_append, List.filter_cons_of_neg (by simp [hr]), List.filter_nil,
    List.append_nil, recordsOf]

/-- Where the backend is at the context of a thread. -/
def visitOf (visit : Option (ι × Visit)) (i : ι) : Option Visit :=
  match visit with
  | some (j, v) => if j = i then some v else none
  | none => none

theorem visitOf_eq_none {visit : Option (ι × Visit)} {i : ι} (h : ∀ v, visit ≠ some (i, v)) :
    visitOf visit i = none := by
  cases visit with
  | none => rfl
  | some place =>
      have hne : place.1 ≠ i := by
        intro heq
        exact h place.2 (by rw [← heq])
      simp [visitOf, hne]

/-- The invariant, for the parts of the state it is about. -/
structure Flow (threads : ι → Thread P κ) (processed : List (Processed ι))
    (visit : Option (ι × Visit)) (fault : Bool) : Prop where
  thread : ∀ i, ThreadFlow (threads i)
  consumer : ∀ i, ConsumerAt (threads i) (recordsOf processed i) (visitOf visit i)
  no_fault : fault = false

/-- The invariant of a state. -/
abbrev FlowInv (s : State P ι κ) : Prop := Flow s.threads s.processed s.visit s.fault

variable {s s' : State P ι κ} {i : ι}

/-! ## The steps of the backend -/

/-- The event is decoded. -/
def Visit.isLevel : Visit → Bool
  | level _ _ => true
  | _ => false

/-- The thread of the event that the next step of the backend makes a record of. -/
def State.processing (s : State P ι κ) : Option ι :=
  match s.loop with
  | .pass | .drainPass => (s.visit.filter fun place => place.2.isLevel).map Prod.fst
  | _ => none

/-- What a step of the backend at the context of a thread can be. -/
inductive VisitStep (s : State P ι κ) (i : ι) : Visit → State P ι κ → Prop
  /-- It goes on there; where it has found the queue empty, everything was read. -/
  | goOn {v v' : Visit} {q : Queue.Machine} (hv : v.isLevel = false)
      (hthread : ThreadFlow ((s.threads i).setQueue q))
      (hconsumer : ConsumerAt ((s.threads i).setQueue q) (recordsOf s.processed i) (some v'))
      (hread : q.read = (s.threads i).context.q.read)
      (hempty : v' = .alive → q.committed.length = q.read.length ∧ q.q.cachedW = q.q.r) :
      VisitStep s i v { s.setThread i ((s.threads i).setQueue q) with visit := some (i, v') }
  /-- It has processed an event. -/
  | processed {event : ReadEvent} {message : List Char} {p : Push P} {line : Option Line}
      (hp : (s.threads i).accepted[(recordsOf s.processed i).length]? = some p)
      (hdescribes : Describes (s.threads i).context.name p
        (⟨i, event, s.minLogLevel, line⟩ : Processed ι))
      (hline : ∀ l, line = some l → l.formatter = s.formatter.current ∧ l.sink = s.sink.current)
      (hconsumer : ConsumerAt (s.threads i)
        (recordsOf (s.processed ++ [⟨i, event, s.minLogLevel, line⟩]) i)
        (some (.commit event.header.totalEventSize))) :
      VisitStep s i (.level event message)
        { s with
          processed := s.processed ++ [⟨i, event, s.minLogLevel, line⟩]
          visit := some (i, .commit event.header.totalEventSize) }
  /-- Formatting has thrown. -/
  | terminated {res : ReadReservation} : VisitStep s i (.process res) s.terminate
  /-- It has committed what it read. -/
  | committed {sizeRead : UInt64} {q : Queue.Machine} {list' : ThreadList.State ι}
      (hthread : ThreadFlow ((s.threads i).setQueue q))
      (hconsumer : ConsumerAt ((s.threads i).setQueue q) (recordsOf s.processed i) none)
      (hlist : ThreadList.step s.list (.visit false) = some list') :
      VisitStep s i (.commit sizeRead)
        { s.setThread i ((s.threads i).setQueue q) with list := list', visit := none }
  /-- It has looked whether the thread is alive. -/
  | left {list' : ThreadList.State ι}
      (hlist : ThreadList.step s.list (.visit (!(s.threads i).context.isAlive)) = some list') :
      VisitStep s i .alive { s with list := list', visit := none }

namespace VisitStep
variable {localTime : ℤ}

/-- The call of `reserve_read`. -/
theorem start (hthread : ThreadFlow (s.threads i))
    (hconsumer : ConsumerAt (s.threads i) (recordsOf s.processed i) (some .start))
    (hstep : visitStep s i .start localTime = some s') : VisitStep s i .start s' := by
  obtain ⟨k, hinv⟩ := hthread.queue
  obtain ⟨hidle, hmatches⟩ := hconsumer
  obtain ⟨q, hq, rfl⟩ := Option.map_eq_some_iff.mp hstep
  obtain ⟨hframe, hread, hcases⟩ := Queue.reserveRead_cases hq
  have hflow : ThreadFlow ((s.threads i).setQueue q) :=
    hthread.consume ⟨k, hinv.reserveRead hq⟩ hframe
  rw [← hread] at hmatches
  rcases hcases with hreload | ⟨res, hreading⟩
  · simp only [hreload]
    exact .goOn rfl hflow ⟨hreload, hmatches.setQueue q⟩ hread (by simp)
  · simp only [hreading]
    exact .goOn rfl hflow ⟨hreading, hmatches.setQueue q⟩ hread (by simp)

/-- The load of `_atomic_w`. -/
theorem reload (hthread : ThreadFlow (s.threads i))
    (hconsumer : ConsumerAt (s.threads i) (recordsOf s.processed i) (some .reload))
    (hstep : visitStep s i .reload localTime = some s') : VisitStep s i .reload s' := by
  obtain ⟨k, hinv⟩ := hthread.queue
  obtain ⟨hreload, hmatches⟩ := hconsumer
  obtain ⟨q, hq, rfl⟩ := Option.map_eq_some_iff.mp hstep
  obtain ⟨hframe, hread, hseen, hcases⟩ := Queue.loadW_cases hq
  have hflow : ThreadFlow ((s.threads i).setQueue q) := hthread.consume ⟨k, hinv.loadW hq⟩ hframe
  rw [← hread] at hmatches
  rcases hcases with ⟨hidle, -⟩ | ⟨res, hreading⟩
  · simp only [hidle]
    refine .goOn rfl hflow ⟨hidle, hmatches.setQueue q⟩ hread ?_
    intro _
    exact hinv.read_of_loadW_latest hq hidle
  · simp only [hreading]
    exact .goOn rfl hflow ⟨hreading, hmatches.setQueue q⟩ hread (by simp)

/-- The decoding of an event, which finds one, and may throw. -/
theorem process (hthread : ThreadFlow (s.threads i)) {res : ReadReservation}
    (hconsumer : ConsumerAt (s.threads i) (recordsOf s.processed i) (some (.process res)))
    (hstep : visitStep s i (.process res) localTime = some s') :
    VisitStep s i (.process res) s' := by
  obtain ⟨k, hinv⟩ := hthread.queue
  obtain ⟨hreading, hmatches⟩ := hconsumer
  obtain ⟨p, hp, hholds, hevent⟩ := hthread.readEvent_eq hreading
  simp only [visitStep, hevent] at hstep
  cases htext : p.text? with
  | none =>
      simp only [Push.readAt, htext, Option.some.injEq] at hstep
      subst s'
      exact .terminated
  | some message =>
      simp only [Push.readAt, htext, Option.some.injEq] at hstep
      subst s'
      have hbytes : (s.threads i).context.q.readBytes res p.event.header.totalEventSize.toNat
          = { (s.threads i).context.q with consumer := .reading res p.event.encode } := by
        rw [Queue.Machine.readBytes, hholds.readBytes_eq p.event.toNat_totalEventSize_header]
      have hflow : ThreadFlow ((s.threads i).setQueue
          ((s.threads i).context.q.readBytes res p.event.header.totalEventSize.toNat)) :=
        hthread.consume ⟨k, hinv.readBytes hreading _⟩ ⟨rfl, rfl, rfl⟩
      rw [hbytes] at hflow ⊢
      refine .goOn rfl hflow ⟨p, res, hp, rfl, ?_, htext, hmatches.setQueue _⟩ rfl (by simp)
      simp only [Push.readAt, htext]

/-- The load of the minimum level, and what becomes of the event. -/
theorem level {p : Push P} {res : ReadReservation} {message : List Char}
    (hp : (s.threads i).accepted[(s.threads i).context.q.read.length]? = some p)
    (hreading : (s.threads i).context.q.consumer = .reading res p.event.encode)
    (htext : p.text? = some message)
    (hmatches : Matches (s.threads i) (recordsOf s.processed i) (s.threads i).context.q.read.length)
    (hname : s.names p.event.threadName = some i) :
    VisitStep s i (.level (p.readAt res.buffer) message)
      (processEvent s i (p.readAt res.buffer) message localTime) := by
  have hnext : (s.threads i).accepted[(recordsOf s.processed i).length]? = some p := by
    rw [hmatches.length_eq, hp]
  have hcommit : ∀ r : Processed ι, r.thread = i → Describes (s.threads i).context.name p r →
      ConsumerAt (s.threads i) (recordsOf (s.processed ++ [r]) i)
        (some (.commit (p.readAt res.buffer).header.totalEventSize)) := by
    intro r hr hdescribes
    refine ⟨p, res, hp, hreading, rfl, ?_⟩
    rw [recordsOf_concat_self hr]
    exact hmatches.snoc hp hdescribes
  by_cases hlevel : p.event.call.site.level < s.minLogLevel
  · have hdescribes : Describes (s.threads i).context.name p
        (⟨i, p.readAt res.buffer, s.minLogLevel, none⟩ : Processed ι) :=
      ⟨fun _ => rfl, fun hnot => absurd hlevel hnot⟩
    have heq : processEvent s i (p.readAt res.buffer) message localTime = _ := if_pos hlevel
    rw [heq]
    exact .processed hnext hdescribes (by simp) (hcommit _ rfl hdescribes)
  · have heq : processEvent s i (p.readAt res.buffer) message localTime = _ := if_neg hlevel
    have hheader : (p.readAt res.buffer).header.threadName = p.event.threadName := rfl
    simp only [State.line?, hheader, hname, Option.map_some] at heq
    rw [heq]
    have hdescribes : Describes (s.threads i).context.name p
        (⟨i, p.readAt res.buffer, s.minLogLevel, some
          { data := (p.readAt res.buffer).patternData (s.threads i).context.name localTime message
            formatter := s.formatter.current
            sink := s.sink.current }⟩ : Processed ι) := .of_line htext hlevel rfl
    refine .processed hnext hdescribes ?_ (hcommit _ rfl hdescribes)
    intro l hl
    cases hl
    exact ⟨rfl, rfl⟩

/-- The call of `commit_read`, with the size of the event that was read. -/
theorem commit (hthread : ThreadFlow (s.threads i)) {sizeRead : UInt64}
    (hconsumer : ConsumerAt (s.threads i) (recordsOf s.processed i) (some (.commit sizeRead)))
    (hstep : visitStep s i (.commit sizeRead) localTime = some s') :
    VisitStep s i (.commit sizeRead) s' := by
  obtain ⟨k, hinv⟩ := hthread.queue
  obtain ⟨p, res, hp, hreading, rfl, hmatches⟩ := hconsumer
  obtain ⟨q, hq, hend⟩ := Option.bind_eq_some_iff.mp hstep
  obtain ⟨list', hlist, rfl⟩ := Option.map_eq_some_iff.mp hend
  obtain ⟨hframe, hread, hidle⟩ := Queue.commitRead_cases hreading hq
  have hclient : Queue.Client (s.threads i).context.q
      (.commitRead p.event.header.totalEventSize.toNat) := by
    constructor
    · rw [Queue.frontSize, hthread.committed, List.getElem?_map, hp,
        p.event.toNat_totalEventSize_header]
      rfl
    · rw [hreading, p.event.toNat_totalEventSize_header]
      rfl
  have hlength : q.read.length = (s.threads i).context.q.read.length + 1 := by
    rw [hread, List.length_append, List.length_singleton]
  rw [← hlength] at hmatches
  exact .committed (hthread.consume ⟨k, hinv.commitRead hclient hq⟩ hframe)
    ⟨hidle, hmatches.setQueue q⟩ hlist

end VisitStep

/-- **A step of the backend at a context.** -/
theorem visitStep_cases (h : FlowInv s) (hlife : LifeInv s) {v : Visit}
    (hvisit : s.visit = some (i, v)) {localTime : ℤ} (hstep : visitStep s i v localTime = some s') :
    VisitStep s i v s' := by
  have hthread := h.thread i
  have hconsumer := h.consumer i
  rw [hvisit, visitOf, if_pos rfl] at hconsumer
  cases v with
  | start => exact .start hthread hconsumer hstep
  | reload => exact .reload hthread hconsumer hstep
  | process res => exact .process hthread hconsumer hstep
  | level event message =>
      obtain ⟨p, res, hp, hreading, rfl, htext, hmatches⟩ := hconsumer
      cases hstep
      apply VisitStep.level hp hreading htext hmatches
      rw [hthread.named p (List.mem_of_getElem? hp)]
      -- the context is in the list, so its name is there
      obtain ⟨-, hlive, hconstructed⟩ := Life.of_visited (hlife.visited hvisit)
      exact (hlife.thread i).names_eq hconstructed hlive
  | commit sizeRead => exact .commit hthread hconsumer hstep
  | alive =>
      obtain ⟨list', hlist, rfl⟩ := Option.map_eq_some_iff.mp hstep
      exact .left hlist

/-- What a step of the backend can be. -/
inductive BackendStep (s : State P ι κ) : State P ι κ → Prop
  | loop {back : Loop} (hnone : s.processing = none) : BackendStep s { s with loop := back }
  | pollSink {back : Loop} (hnone : s.processing = none) :
      BackendStep s { s with sink := s.sink.poll, sinkPolled := s.sinkCalls, loop := back }
  | pollFormatter {back : Loop} (hnone : s.processing = none) :
      BackendStep s
        { s with formatter := s.formatter.poll, formatterPolled := s.formatterCalls, loop := back }
  | list {list' : ThreadList.State ι} {back : Loop} (hnone : s.processing = none)
      (hvisit : s.visit = none) (hwalks : ThreadList.Walks s.list list') :
      BackendStep s
        { s with list := list', names := s.namesAfter, visit := entered list', loop := back }
  | visit {i : ι} {v : Visit} {s' : State P ι κ} (hvisit : s.visit = some (i, v))
      (hprocessing : s.processing = if v.isLevel then some i else none)
      (hstep : VisitStep s i v s') : BackendStep s s'

theorem backendStep_cases (h : FlowInv s) (hlife : LifeInv s) {localTime : ℤ}
    (hstep : backendStep s localTime = some s') : BackendStep s s' := by
  have hpass : ∀ {back : Loop},
      s.processing = (s.visit.filter fun place => place.2.isLevel).map Prod.fst →
      passStep s localTime back = some s' → BackendStep s s' := by
    intro back hprocessing hpass
    simp only [passStep] at hpass
    cases hvisit : s.visit with
    | some place =>
        simp only [hvisit] at hpass
        have hthread : s.processing = if place.2.isLevel then some place.1 else none := by
          rw [hprocessing, hvisit, Option.filter_some]
          split <;> rfl
        exact .visit hvisit hthread (visitStep_cases h hlife hvisit hpass)
    | none =>
        simp only [hvisit] at hpass
        rw [hvisit, Option.filter_none, Option.map_none] at hprocessing
        by_cases hpc : s.list.pc = .outside
        · rw [if_pos hpc] at hpass
          cases hpass
          have hloop : BackendStep s { s with loop := back } := .loop hprocessing
          rwa [hvisit] at hloop
        · rw [if_neg hpc] at hpass
          obtain ⟨list', hlist, rfl⟩ := Option.map_eq_some_iff.mp hpass
          exact .list hprocessing hvisit (ThreadList.walks_of_backend hlist)
  have hpoll : ∀ {back : Loop}, s.processing = none →
      (listStep s .poll).map (fun t => { t with loop := back }) = some s' → BackendStep s s' := by
    intro back hnone hpoll
    obtain ⟨t, ht, rfl⟩ := Option.map_eq_some_iff.mp hpoll
    obtain ⟨list', hlist, rfl⟩ := Option.map_eq_some_iff.mp ht
    have hvisiting : s.list.visiting = none := by
      simp only [ThreadList.State.visiting, ThreadList.outside_of_poll hlist]
    have hvisit : s.visit = none := by
      have hfst := hlife.visited_eq
      rw [hvisiting] at hfst
      exact Option.map_eq_none_iff.mp hfst
    exact .list hnone hvisit (ThreadList.walks_of_poll hlist).1
  cases hloop : s.loop with
  | top | drainTop =>
      simp only [backendStep, hloop, Option.some.injEq] at hstep
      subst s'
      exact .loop (by simp only [State.processing, hloop])
  | pollSink =>
      simp only [backendStep, hloop, Option.some.injEq] at hstep
      subst s'
      exact .pollSink (by simp only [State.processing, hloop])
  | pollFormatter =>
      simp only [backendStep, hloop, Option.some.injEq] at hstep
      subst s'
      exact .pollFormatter (by simp only [State.processing, hloop])
  | poll | drainPoll =>
      simp only [backendStep, hloop] at hstep
      exact hpoll (by simp only [State.processing, hloop]) hstep
  | pass | drainPass =>
      simp only [backendStep, hloop] at hstep
      exact hpass (by simp only [State.processing, hloop]) hstep
  | exited | terminated => simp only [backendStep, hloop, reduceCtorEq] at hstep

/-! ## Every step -/

/-- The step is one of the backend. -/
def Action.isBackend : Action P ι κ → Bool
  | .backend _ => true
  | _ => false

/-- What a step can be. -/
inductive Step (s : State P ι κ) : Action P ι κ → State P ι κ → Prop
  | stay {a : Action P ι κ} (ha : a.isBackend = false) : Step s a s
  | construct {a : Action P ι κ} {i : ι} {name : List Char} {queueSize : ℕ} {namePtr : UInt64}
      {request : Option (Request P κ)} {s' : State P ι κ} (ha : a.isBackend = false)
      (hhandler : (s.threads i).handler = .notConstructed) (hsize : 2 * bitCeil queueSize < 2 ^ 64)
      (hstep : construct s i name queueSize namePtr request = some s') : Step s a s'
  | runs {a : Action P ι κ} {i : ι} {t : Thread P κ} {used : Bool} (ha : a.isBackend = false)
      (hthread : ThreadFlow t) (hruns : Runs (s.threads i) t) :
      Step s a { s.setThread i t with usedDeletedQueue := used }
  | registers {a : Action P ι κ} {i : ι} {list' : ThreadList.State ι} (ha : a.isBackend = false)
      (hregisters : ThreadList.Registers s.list list' i) : Step s a { s with list := list' }
  | kill {i : ι} (hpc : (s.threads i).pc.isIdle = true)
      (hhandler : (s.threads i).handler = .constructed) :
      Step s (.kill i) (s.setThread i
        { s.threads i with
          handler := .destroyed
          context := { (s.threads i).context with isAlive := false } })
  | setLevel {i : ι} {level : LogLevel} :
      Step s (.setLevel i level) { s with minLogLevel := level }
  | setSink {i : ι} {file : Sink.File} :
      Step s (.setSink i file)
        { s.setThread i { s.threads i with sinkStamp := s.sinkCalls + 1 } with
          sink := s.sink.queue ⟨file, s.sinkCalls + 1⟩
          sinkCalls := s.sinkCalls + 1 }
  | setFormatter {i : ι} {formatter : ParsedPattern} :
      Step s (.setFormatter i formatter)
        { s.setThread i { s.threads i with formatterStamp := s.formatterCalls + 1 } with
          formatter := s.formatter.queue ⟨formatter, s.formatterCalls + 1⟩
          formatterCalls := s.formatterCalls + 1 }
  | shutdown : Step s .shutdown { s with running := false }
  | backend {localTime : ℤ} {s' : State P ι κ} (hstep : BackendStep s s') :
      Step s (.backend localTime) s'

theorem accepted_update {threads : ι → Thread P κ} {t : Thread P κ}
    (h : (threads i).accepted <+: t.accepted) (j : ι) :
    (threads j).accepted <+: (Function.update threads i t j).accepted := by
  have hall := Function.forall_update_iff threads (a := i) (b := t) fun j t =>
    (threads j).accepted <+: t.accepted
  exact hall.mpr ⟨h, fun _ _ => List.prefix_rfl⟩ j

/-- What a step does to the records: it makes none, or one of the next event of a thread. -/
inductive Records (s : State P ι κ) (a : Action P ι κ) (s' : State P ι κ) : Prop
  | none (hprocessed : s'.processed = s.processed)
      (haccepted : ∀ i, (s.threads i).accepted <+: (s'.threads i).accepted)
      (hprocessing : a.isBackend = true → s.processing = Option.none)
  | one {i : ι} {event : ReadEvent} {message : List Char} {p : Push P} {line : Option Line}
      (hbackend : a.isBackend = true) (hvisit : s.visit = some (i, .level event message))
      (hprocessing : s.processing = some i)
      (hp : (s.threads i).accepted[(recordsOf s.processed i).length]? = some p)
      (hdescribes : Describes (s.threads i).context.name p
        (⟨i, event, s.minLogLevel, line⟩ : Processed ι))
      (hline : ∀ l, line = some l → l.formatter = s.formatter.current ∧ l.sink = s.sink.current)
      (hs' : s' =
        { s with
          processed := s.processed ++ [⟨i, event, s.minLogLevel, line⟩]
          visit := some (i, .commit event.header.totalEventSize) })

/-- **Records are made one at a time**, at one place of the backend. -/
theorem Step.records {a : Action P ι κ} (h : Step s a s') : Records s a s' := by
  have hthread : ∀ {a : Action P ι κ}, a.isBackend = false → a.isBackend = true →
      s.processing = none := by
    intro a ha ha'
    rw [ha] at ha'
    cases ha'
  cases h with
  | stay ha => exact .none rfl (fun _ => List.prefix_rfl) (hthread ha)
  | construct ha hhandler hsize hstep =>
      obtain ⟨-, rfl⟩ := construct_eq_some hstep
      exact .none rfl (accepted_update List.prefix_rfl) (hthread ha)
  | runs ha hthread' hruns => exact .none rfl (accepted_update hruns.accepted_isPrefix) (hthread ha)
  | registers ha => exact .none rfl (fun _ => List.prefix_rfl) (hthread ha)
  | kill => exact .none rfl (accepted_update List.prefix_rfl) (hthread rfl)
  | setLevel => exact .none rfl (fun _ => List.prefix_rfl) (hthread rfl)
  | setSink => exact .none rfl (accepted_update List.prefix_rfl) (hthread rfl)
  | setFormatter => exact .none rfl (accepted_update List.prefix_rfl) (hthread rfl)
  | shutdown => exact .none rfl (fun _ => List.prefix_rfl) (hthread rfl)
  | backend hstep =>
      cases hstep with
      | visit hvisit hprocessing hstep =>
          cases hstep with
          | goOn hv =>
              rw [hv] at hprocessing
              exact .none rfl (accepted_update List.prefix_rfl) fun _ => hprocessing
          | processed hp hdescribes hline hconsumer =>
              exact .one rfl hvisit hprocessing hp hdescribes hline rfl
          | committed =>
              exact .none rfl (accepted_update List.prefix_rfl) fun _ => hprocessing
          | _ => exact .none rfl (fun _ => List.prefix_rfl) fun _ => hprocessing
      | _ hnone => exact .none rfl (fun _ => List.prefix_rfl) fun _ => hnone

variable [DecidableEq κ]

/-- **A log call** constructs the handler, or goes on to `reserve_write`. -/
theorem log_cases {r : Request P κ} {queueSize : ℕ} {namePtr : UInt64}
    (hpc : (s.threads i).pc.isIdle = true) (hthread : ThreadFlow (s.threads i))
    (hstep : log s i r queueSize namePtr = some s') :
    ((s.threads i).handler = .notConstructed ∧
        construct s i [] queueSize namePtr (some r) = some s') ∨
      ∃ t, s' = s.setThread i t ∧ ThreadFlow t ∧ Runs (s.threads i) t := by
  rcases log_eq_some hstep with ⟨-, hhandler, hconstruct⟩ | ⟨-, cached, rfl⟩
  · exact .inl ⟨hhandler, hconstruct⟩
  · refine .inr ⟨_, rfl, hthread.of_context rfl rfl rfl ⟨hthread.idle hpc, rfl⟩, ?_⟩
    refine Runs.of_context rfl rfl rfl ?_
    intro p hp
    cases hp
    exact .inr ⟨r, rfl⟩

/-- **The other steps of a thread** outside of `register_thread`. -/
theorem threadStep_cases (hthread : ThreadFlow (s.threads i))
    (hpc : (s.threads i).pc.isIdle = false → (s.threads i).handler = .constructed)
    (hstep : threadStep s i = some s') :
    ∃ t used, s' = { s.setThread i t with usedDeletedQueue := used } ∧ ThreadFlow t ∧
      Runs (s.threads i) t := by
  obtain ⟨n, hinv⟩ := hthread.queue
  have hproducing := hthread.producing
  cases threadActs_of_threadStep hstep with
  | initialized hp =>
      rw [hp] at hproducing
      refine ⟨_, _, rfl, hthread.of_context rfl rfl rfl hproducing, ?_⟩
      exact Runs.of_context rfl rfl rfl (by simp [ThreadPc.push?])
  | @registered r hp =>
      rw [hp] at hproducing
      refine ⟨_, _, rfl, hthread.of_context rfl rfl rfl ⟨hproducing, rfl⟩, ?_⟩
      refine Runs.of_context rfl rfl rfl ?_
      intro p hpush
      cases hpush
      exact .inr ⟨r, rfl⟩
  | reserve hp hq =>
      rw [hp] at hproducing
      obtain ⟨hframe, hcommitted, hproducer⟩ := Queue.reserveWrite_cases hq
      refine ⟨_, _, rfl, hthread.setQueue ⟨n, hinv.reserveWrite hq⟩ hcommitted ⟨?_, hproducing.2⟩,
        hframe, rfl, rfl, rfl, ?_, .inl rfl⟩
      · rcases hproducer with hproducer | ⟨res, hproducer⟩
        · exact .inl hproducer
        · exact .inr ⟨res, 0, hproducer⟩
      · intro p' hp'
        rw [hp]
        exact .inl hp'
  | reload hp hreload hq =>
      obtain ⟨rfl, hname⟩ := hthread.of_reload hp hreload
      obtain ⟨hframe, hcommitted, hproducer⟩ := Queue.loadR_cases hreload hq
      refine ⟨_, _, rfl, hthread.setQueue ⟨n, hinv.loadR hq⟩ hcommitted ?_, hframe, rfl, rfl, rfl,
        ?_, .inl rfl⟩
      · rcases hproducer with hproducer | ⟨res, hproducer⟩
        · rw [hproducer]
          rfl
        · rw [hproducer]
          exact ⟨.inr ⟨res, 0, rfl⟩, hname⟩
      · intro p' hp'
        rw [hp]
        rcases hproducer with hproducer | ⟨res, hproducer⟩
        · simp [hproducer, ThreadPc.push?] at hp'
        · simp only [hproducer] at hp'
          exact .inl hp'
  | @commit p m res q hp hfilling hq =>
      obtain ⟨hm, hname⟩ := hthread.of_filling hp hfilling
      rw [hm] at hfilling
      obtain ⟨hframe, hcommitted, hproducer⟩ := Queue.commitWrite_cases hfilling hq
      have hhandler := hpc (by rw [hp]; rfl)
      exact ⟨_, _, rfl, hthread.commit hhandler ⟨n, hinv.commitWrite hq⟩ hcommitted hproducer hname,
        hframe, rfl, rfl, rfl, by simp [ThreadPc.push?], .inr ⟨p, by rw [hp]; rfl, rfl⟩⟩
  | @writeByte p m res k q hp hfilling hk hq =>
      obtain ⟨rfl, hname⟩ := hthread.of_filling hp hfilling
      obtain ⟨hframe, hcommitted, hproducer⟩ := Queue.writeByte_cases hfilling hq
      have hnext : (s.threads i).pc.Producing (s.threads i).context.namePtr q.producer := by
        rw [hp]
        exact ⟨.inr ⟨res, k + 1, hproducer⟩, hname⟩
      exact ⟨_, _, rfl, hthread.setQueue ⟨n, hinv.writeByte hq⟩ hcommitted hnext, hframe, rfl, rfl,
        rfl, fun p' hp' => .inl hp', .inl rfl⟩

/-- **Every step is one of these.** -/
theorem step_cases (h : FlowInv s) (hlife : LifeInv s) {a : Action P ι κ} (hclient : Client s a)
    (hstep : step s a = some s') : Step s a s' := by
  cases acts_of_step hstep with
  | initThread hidle hhandler hstep => exact .construct rfl hhandler (hclient hhandler) hstep
  | initAgain => exact .stay rfl
  | @log i r queueSize namePtr s' hidle hstep =>
      rcases log_cases hidle (h.thread i) hstep with ⟨hhandler, hconstruct⟩ | ⟨t, rfl, ht, hruns⟩
      · exact .construct rfl hhandler (hclient.2 hhandler) hconstruct
      · have hstep' : Step s (.log i r queueSize namePtr)
            { s.setThread i t with usedDeletedQueue := s.usedDeletedQueue } := .runs rfl ht hruns
        exact hstep'
  | newNode hpc hlist => exact .registers rfl (ThreadList.registers_of_register hlist)
  | registrar hpc hlist => exact .registers rfl (ThreadList.registers_of_registrar hlist)
  | @thread i s' hstep =>
      obtain ⟨t, used, rfl, ht, hruns⟩ := threadStep_cases (h.thread i)
        (fun hpc => (Life.of_not_idle hlife hpc).1) hstep
      exact .runs rfl ht hruns
  | kill hidle hhandler => exact .kill hidle hhandler
  | setLevel => exact .setLevel
  | setSink => exact .setSink
  | setFormatter => exact .setFormatter
  | shutdown => exact .shutdown
  | backend hstep => exact .backend (backendStep_cases h hlife hstep)

end Papper.System
