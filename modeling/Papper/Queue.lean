import Mathlib.Data.Nat.Log
import Mathlib.Logic.Function.Basic
import Papper.Lib.Atomic
import Papper.Lib.Memory

/-!
# The thread queue

`Queue` is the byte ring each logging thread shares with the backend.  One thread
reserves, fills and commits; the other reserves, reads and commits.  Positions are
64-bit words that are never reduced, and `_buffer` has twice the capacity, so that a
reservation that runs past the end of the ring is still one contiguous region.

The two sides run concurrently.  `Machine` is the queue together with the point each
side has reached in its calls, and `step` performs one of

* an access to a shared atomic, merged with the local computation around it,
* one byte written by the producer into its reservation, or
* one byte read by the consumer from its own.

A load names the stored value it returns, so a stale one is as good a step as a
fresh one.  The machine also keeps the messages committed and the messages read.
Nothing in `step` depends on these two: they record what the parties did.

## Main definitions

* `bitCeil` — `std::bit_ceil`.
* `Queue` — the members of the class, with the expressions its methods are made of.
* `Machine`, `Action`, `step` — the concurrent system.
-/

namespace Papper

/-- The least power of two that is at least `n`. -/
def bitCeil (n : ℕ) : ℕ := 2 ^ Nat.clog 2 n

/-- What a producer hands over in one reservation: at least one byte, and no more
than a `size_t` can count. -/
structure Message where
  bytes : List Byte
  size_pos : 0 < bytes.length
  size_lt : bytes.length < 2 ^ 64

/-- The number of bytes of a message. -/
def Message.size (m : Message) : ℕ := m.bytes.length

/-- The members of `Queue`.  `_wrap_mask` is computed from the capacity; the buffer
is a map from offsets, of which the first `2 * _capacity` are allocated. -/
structure Queue where
  capacity : UInt64
  buffer : ℕ → Byte
  atomicR : Atomic UInt64
  atomicW : Atomic UInt64
  -- producer local
  w : UInt64
  cachedR : UInt64
  -- consumer local
  r : UInt64
  cachedW : UInt64

/-- An offset into the buffer, and the position to commit when it has been filled. -/
structure WriteReservation where
  buffer : ℕ
  newWritePos : UInt64
  deriving DecidableEq

/-- An offset into the buffer, and the position it corresponds to. -/
structure ReadReservation where
  buffer : ℕ
  currentReadPos : UInt64
  deriving DecidableEq

namespace Queue

/-- The constructor: the capacity is rounded up and the buffer zeroed. -/
def new (capacity : ℕ) : Queue where
  capacity := UInt64.ofNat (bitCeil capacity)
  buffer := fun _ => 0
  atomicR := .init 0
  atomicW := .init 0
  w := 0
  cachedR := 0
  r := 0
  cachedW := 0

def wrapMask (q : Queue) : UInt64 := q.capacity - 1

/-- `_cached_r + _capacity - _w`, the room the producer believes it has. -/
def freeSpace (q : Queue) : UInt64 := q.cachedR + q.capacity - q.w

/-- What `reserve_write` returns once it has found enough room. -/
def writeReservation (q : Queue) (size : UInt64) : WriteReservation where
  buffer := (q.w &&& q.wrapMask).toNat
  newWritePos := q.w + size

/-- What `reserve_read` returns when the queue is not empty. -/
def readReservation (q : Queue) : ReadReservation where
  buffer := (q.r &&& q.wrapMask).toNat
  currentReadPos := q.r

/-- `commit_write`: the local position and the shared one. -/
def commitWrite (q : Queue) (newWritePos : UInt64) : Queue :=
  { q with w := newWritePos, atomicW := q.atomicW.store newWritePos }

/-- `commit_read`. -/
def commitRead (q : Queue) (newReadPos : UInt64) : Queue :=
  { q with r := newReadPos, atomicR := q.atomicR.store newReadPos }

/-- One byte through a pointer into the buffer. -/
def writeByte (q : Queue) (offset : ℕ) (b : Byte) : Queue :=
  { q with buffer := Function.update q.buffer offset b }

/-- The producer's reload of `_cached_r`, returning the `i`-th position stored. -/
def loadR (q : Queue) (i : ℕ) : Option Queue :=
  (q.atomicR.load? i).map fun (v, a) => { q with cachedR := v, atomicR := a }

/-- The consumer's reload of `_cached_w`. -/
def loadW (q : Queue) (i : ℕ) : Option Queue :=
  (q.atomicW.load? i).map fun (v, a) => { q with cachedW := v, atomicW := a }

/-! ## The two sides -/

/-- How far the producer is in its calls. -/
inductive Producer
  /-- Between calls. -/
  | idle
  /-- In `reserve_write`, about to load `_atomic_r`. -/
  | reload (m : Message)
  /-- Holding a buffer, `k` bytes of which have been filled. -/
  | filling (m : Message) (res : WriteReservation) (k : ℕ)

/-- How far the consumer is in its calls. -/
inductive Consumer
  /-- Between calls. -/
  | idle
  /-- In `is_empty`, about to load `_atomic_w`. -/
  | reload
  /-- Holding a buffer, the first bytes of which have been read. -/
  | reading (res : ReadReservation) (got : List Byte)

/-- The queue, its two sides, and the messages that have passed through. -/
structure Machine where
  q : Queue
  producer : Producer
  consumer : Consumer
  committed : List Message
  read : List (List Byte)

inductive Action
  /-- Call `reserve_write` with the size of the message. -/
  | reserveWrite (m : Message)
  /-- Load `_atomic_r`. -/
  | loadR (i : ℕ)
  /-- Fill the next byte. -/
  | writeByte
  /-- Call `commit_write` with the reservation's new position. -/
  | commitWrite
  /-- Let the write reservation lapse. -/
  | abandonWrite
  /-- Call `reserve_read`. -/
  | reserveRead
  /-- Load `_atomic_w`. -/
  | loadW (i : ℕ)
  /-- Read the next byte. -/
  | readByte
  /-- Call `commit_read` with the reservation's position plus `n`. -/
  | commitRead (n : ℕ)
  /-- Let the read reservation lapse. -/
  | abandonRead

namespace Machine

/-- A new queue that nobody is using. -/
def new (capacity : ℕ) : Machine := ⟨Queue.new capacity, .idle, .idle, [], []⟩

/-- The producer's next place after a comparison of the free space with the size. -/
def grant (q : Queue) (m : Message) : Producer :=
  .filling m (q.writeReservation (UInt64.ofNat m.size)) 0

end Machine

/-- One step of one of the sides. -/
def step (s : Machine) : Action → Option Machine
  | .reserveWrite m =>
      match s.producer with
      | .idle =>
          if s.q.freeSpace < UInt64.ofNat m.size then
            -- not enough space, reload cached r and try again
            some { s with producer := .reload m }
          else
            some { s with producer := Machine.grant s.q m }
      | _ => none
  | .loadR i =>
      match s.producer with
      | .reload m =>
          (s.q.loadR i).map fun q =>
            if q.freeSpace < UInt64.ofNat m.size then
              { s with q := q, producer := .idle }
            else
              { s with q := q, producer := Machine.grant q m }
      | _ => none
  | .writeByte =>
      match s.producer with
      | .filling m res k =>
          m.bytes[k]?.map fun b =>
            { s with
              q := s.q.writeByte (res.buffer + k) b
              producer := .filling m res (k + 1) }
      | _ => none
  | .commitWrite =>
      match s.producer with
      | .filling m res k =>
          if k = m.size then
            some { s with
              q := s.q.commitWrite res.newWritePos
              producer := .idle
              committed := s.committed ++ [m] }
          else none
      | _ => none
  | .abandonWrite =>
      match s.producer with
      | .filling _ _ _ => some { s with producer := .idle }
      | _ => none
  | .reserveRead =>
      match s.consumer with
      | .idle =>
          if s.q.cachedW ≤ s.q.r then
            -- reload cached w to really make sure it's empty
            some { s with consumer := .reload }
          else
            some { s with consumer := .reading s.q.readReservation [] }
      | _ => none
  | .loadW i =>
      match s.consumer with
      | .reload =>
          (s.q.loadW i).map fun q =>
            if q.cachedW = q.r then
              { s with q := q, consumer := .idle }
            else
              { s with q := q, consumer := .reading q.readReservation [] }
      | _ => none
  | .readByte =>
      match s.consumer with
      | .reading res got =>
          some { s with
            consumer := .reading res (got ++ [s.q.buffer (res.buffer + got.length)]) }
      | _ => none
  | .commitRead n =>
      match s.consumer with
      | .reading res got =>
          some { s with
            q := s.q.commitRead (res.currentReadPos + UInt64.ofNat n)
            consumer := .idle
            read := s.read ++ [got] }
      | _ => none
  | .abandonRead =>
      match s.consumer with
      | .reading _ _ => some { s with consumer := .idle }
      | _ => none

end Queue

end Papper
