import Papper.Lib.Channel
import Papper.Lib.Refinement
import Papper.Queue.Room

/-!
# The queue as a bounded channel

The calls of the two sides overlap in any way, each takes many steps, and each may load an old
position of the other.  Every call still takes effect at one of its steps: `commit_write` at its
store and `commit_read` at its own, `reserve_write` and `reserve_read` where they compare
positions the last time.  At these steps the queue is a channel that holds as many bytes as its
capacity, and the answers are those of the channel in view of what the side has loaded.

## Main definitions

* `Machine.channel` — the channel a queue stands for.
* `label` — what takes effect at a step.
-/

namespace Papper.Queue

open Transition

variable {k : ℕ} {s s' : Machine}

/-- The messages committed, and the number of those read. -/
def Machine.channel (s : Machine) : Channel (List Byte) :=
  ⟨s.committed.map Message.bytes, s.read.length⟩

/-- Between the grant of a buffer and its return. -/
def Producer.holds : Producer → Bool
  | .filling _ _ _ => true
  | _ => false

def Consumer.holds : Consumer → Bool
  | .reading _ _ => true
  | _ => false

/-- What takes effect at a step from `s` to `s'`. -/
def label (s : Machine) (a : Action) (s' : Machine) : List (Channel.Event (List Byte)) :=
  match a with
  | .reserveWrite m => if s'.producer.holds then [.granted m.size] else []
  | .loadR i =>
      match s.producer with
      | .reload m =>
          if s'.producer.holds then [.granted m.size]
          else [.refused m.size (s.read.length - i)]
      | _ => []
  | .commitWrite =>
      match s.producer with
      | .filling m _ _ => [.send m.bytes]
      | _ => []
  | .reserveRead => if s'.consumer.holds then [.found] else []
  | .loadW i => if s'.consumer.holds then [.found] else [.absent (s.committed.length - i)]
  | .commitRead _ =>
      match s.consumer with
      | .reading _ got => [.receive got]
      | _ => []
  | _ => []

theorem pos_add_sizeFrom_channel (s : Machine) (n : ℕ) :
    pos s.committed n + s.channel.sizeFrom List.length n = pos s.committed s.committed.length := by
  have hsum := pos_add_sum_drop s.committed n
  simp only [Machine.channel, Channel.sizeFrom, ← List.map_drop, List.map_map]
  exact hsum

/-- The steps of the channel. -/
abbrev channelStep (k : ℕ) :
    Channel (List Byte) → Channel.Event (List Byte) → Option (Channel (List Byte)) :=
  Channel.step List.length (2 ^ k)

/-- What fits in the queue fits in the channel. -/
theorem Inv.used_channel_add_le (h : Inv k s) (m : Message) :
    s.channel.used List.length + m.size ≤ 2 ^ k ↔ s.Fits m := by
  have hsum := pos_add_sizeFrom_channel s s.read.length
  have hused : s.channel.used List.length = s.channel.sizeFrom List.length s.read.length := rfl
  rw [h.fits_iff, hused]
  omega

/-- What the consumer holds is unread. -/
theorem Inv.read_lt (h : Inv k s) (hs : s.consumer.holds = true) :
    s.read.length < s.committed.length := by
  have hc := h.consumer
  cases hconsumer : s.consumer with
  | reading res got =>
      rw [hconsumer] at hc
      exact hc.front.trans_le h.seenW_le
  | _ =>
      rw [hconsumer] at hs
      cases hs

/-- A load sees the position it returns. -/
theorem seen_of_loadR {q q' : Queue} {i : ℕ} (hq : q.loadR i = some q') : q'.atomicR.seen = i := by
  obtain ⟨⟨v, x⟩, hload, rfl⟩ := Option.map_eq_some_iff.mp hq
  obtain ⟨-, -, rfl⟩ := Atomic.load?_eq_some.mp hload
  rfl

theorem seen_of_loadW {q q' : Queue} {i : ℕ} (hq : q.loadW i = some q') : q'.atomicW.seen = i := by
  obtain ⟨⟨v, x⟩, hload, rfl⟩ := Option.map_eq_some_iff.mp hq
  obtain ⟨-, -, rfl⟩ := Atomic.load?_eq_some.mp hload
  rfl

/-! ## One step -/

theorem granted_eq_some (h : Inv k s) {m : Message} (hm : s.Fits m) :
    channelStep k s.channel (.granted m.size) = some s.channel :=
  if_pos ((h.used_channel_add_le m).mpr hm)

theorem found_eq_some (h : Inv k s) (hs : s.consumer.holds = true) :
    channelStep k s.channel .found = some s.channel :=
  if_pos (by simpa [Machine.channel] using h.read_lt hs)

/-- A call of `reserve_write` that needs no load. -/
theorem reserveWrite_refines (h : Inv k s) {m : Message}
    (hs : step s (.reserveWrite m) = some s') :
    exec (channelStep k) s.channel (label s (.reserveWrite m) s') = some s'.channel := by
  simp only [step] at hs
  split at hs
  · by_cases hm : s.q.freeSpace < UInt64.ofNat m.size
    · rw [if_pos hm] at hs
      cases hs
      rfl
    · rw [if_neg hm] at hs
      cases hs
      exact exec_singleton (granted_eq_some h (h.fits_of_granted hm))
  · cases hs

/-- Its load of `_atomic_r`, which may return an old position. -/
theorem loadR_refines (h : Inv k s) {i : ℕ} (hs : step s (.loadR i) = some s') :
    exec (channelStep k) s.channel (label s (.loadR i) s') = some s'.channel := by
  simp only [step] at hs
  split at hs
  · rename_i m hproducer
    obtain ⟨q, hq, rfl⟩ := Option.map_eq_some_iff.mp hs
    have hreload := h.reloadR hq
    have hseen : q.atomicR.seen = i := seen_of_loadR hq
    have hle : i ≤ s.read.length := hseen ▸ hreload.seenR_le
    by_cases hm : q.freeSpace < UInt64.ofNat m.size
    · have hspace := (hreload.freeSpace_lt m).mp hm
      have hsum := pos_add_sizeFrom_channel s i
      simp only [hseen] at hspace
      have hrefused : channelStep k s.channel (.refused m.size (s.read.length - i))
          = some s.channel := by
        refine if_pos ⟨Nat.sub_le _ _, ?_⟩
        rw [show s.channel.received - (s.read.length - i) = i by
          simp only [Machine.channel]; omega]
        omega
      simp only [if_pos hm, label, hproducer, Producer.holds, Bool.false_eq_true, if_false]
      exact exec_singleton hrefused
    · have hfits := (hreload.used_channel_add_le m).mpr (hreload.fits_of_granted hm)
      simp only [if_neg hm, label, hproducer, Machine.grant, Producer.holds, if_true]
      exact exec_singleton (if_pos hfits)
  · cases hs

theorem commitWrite_refines (h : Inv k s) (hs : step s .commitWrite = some s') :
    exec (channelStep k) s.channel (label s .commitWrite s') = some s'.channel := by
  simp only [step] at hs
  split at hs
  · rename_i m res n hproducer
    have hf := h.producer
    rw [hproducer] at hf
    split at hs
    · cases hs
      have hseen := @pos_le_pos s.committed _ _ h.seenR_le
      have hroom := hf.room
      have hfits : s.Fits m := h.fits_iff.mpr (by omega)
      have hsend : channelStep k s.channel (.send m.bytes)
          = some { s.channel with sent := s.channel.sent ++ [m.bytes] } :=
        if_pos ((h.used_channel_add_le m).mpr hfits)
      simp only [label, hproducer]
      refine exec_singleton (hsend.trans ?_)
      simp [Machine.channel]
    · cases hs
  · cases hs

/-- A call of `reserve_read` that needs no load. -/
theorem reserveRead_refines (h : Inv k s) (hs : step s .reserveRead = some s') :
    exec (channelStep k) s.channel (label s .reserveRead s') = some s'.channel := by
  have hinv := h.reserveRead hs
  simp only [step] at hs
  split at hs
  · by_cases hempty : s.q.cachedW ≤ s.q.r
    · rw [if_pos hempty] at hs
      cases hs
      rfl
    · rw [if_neg hempty] at hs
      cases hs
      have hfound := found_eq_some hinv rfl
      exact exec_singleton hfound
  · cases hs

/-- Its load of `_atomic_w`. -/
theorem loadW_refines (h : Inv k s) {i : ℕ} (hs : step s (.loadW i) = some s') :
    exec (channelStep k) s.channel (label s (.loadW i) s') = some s'.channel := by
  have hinv := h.loadW hs
  simp only [step] at hs
  split at hs
  · obtain ⟨q, hq, rfl⟩ := Option.map_eq_some_iff.mp hs
    have hreload := h.reloadW hq
    have hseen : q.atomicW.seen = i := seen_of_loadW hq
    by_cases hempty : q.cachedW = q.r
    · have hall : i = s.read.length := hseen ▸ hreload.cachedW_eq_r_iff.mp hempty
      have hle : i ≤ s.committed.length := hseen ▸ hreload.seenW_le
      have habsent : channelStep k s.channel (.absent (s.committed.length - i))
          = some s.channel := by
        refine if_pos ?_
        simp only [Machine.channel, List.length_map]
        omega
      simp only [if_pos hempty, label, Consumer.holds, Bool.false_eq_true, if_false]
      exact exec_singleton habsent
    · rw [if_neg hempty] at hinv
      have hfound := found_eq_some hinv rfl
      simp only [if_neg hempty, label, Consumer.holds, if_true]
      exact exec_singleton hfound
  · cases hs

theorem commitRead_refines (h : Inv k s) {n : ℕ} (hclient : Client s (.commitRead n))
    (hs : step s (.commitRead n) = some s') :
    exec (channelStep k) s.channel (label s (.commitRead n) s') = some s'.channel := by
  have hinv := h.commitRead hclient hs
  simp only [step] at hs
  split at hs
  · rename_i res got hconsumer
    cases hs
    -- the messages read are the first ones sent, and this one is the next
    have hfront : s.channel.sent[s.channel.received]? = some got := by
      have hread := congrArg (fun l => l[s.read.length]?) hinv.read_eq
      simpa [Machine.channel, List.getElem?_take] using hread.symm
    have hreceive : channelStep k s.channel (.receive got)
        = some { s.channel with received := s.channel.received + 1 } := if_pos hfront
    simp only [label, hconsumer]
    refine exec_singleton (hreceive.trans ?_)
    simp [Machine.channel]
  · cases hs

/-- Nothing takes effect at the steps between. -/
theorem channel_eq_of_between {a : Action}
    (ha : a = .writeByte ∨ a = .abandonWrite ∨ a = .readByte ∨ a = .abandonRead)
    (hs : step s a = some s') : s'.channel = s.channel := by
  rcases ha with rfl | rfl | rfl | rfl
  · have hasks := asks_of_writeByte hs
    rw [Machine.channel, Machine.channel, hasks.committed, hasks.read]
  all_goals
    simp only [step] at hs
    split at hs
    · cases hs
      rfl
    · cases hs

/-- Every step does what takes effect at it. -/
theorem refines (k : ℕ) :
    Refines Client (Inv k) label Machine.channel step (channelStep k) where
  invariant h hclient hs := h.step hclient hs
  step {s a s'} h hclient hs := by
    cases a with
    | reserveWrite m => exact reserveWrite_refines h hs
    | loadR i => exact loadR_refines h hs
    | commitWrite => exact commitWrite_refines h hs
    | reserveRead => exact reserveRead_refines h hs
    | loadW i => exact loadW_refines h hs
    | commitRead n => exact commitRead_refines h hclient hs
    | writeByte | abandonWrite | readByte | abandonRead =>
        exact congrArg some (channel_eq_of_between (by simp) hs).symm

/-- **The queue is linearizable.**  What takes effect along a run, in any order of the steps of the
two sides and with any loads coherence allows, is a run of a channel that holds as many bytes as
the capacity, from the empty one to the one the queue stands for, and the channel is never
overfull. -/
theorem exec_linearizable {c : ℕ} (hc : 2 * bitCeil c < 2 ^ 64) {as : List Action} {s : Machine}
    (hclient : Along Client step (Machine.new c) as)
    (hexec : exec step (Machine.new c) as = some s) :
    exec (Channel.step List.length (bitCeil c)) Channel.empty
        (trace label step (Machine.new c) as) = some s.channel ∧
      s.channel.used List.length ≤ bitCeil c := by
  have hrun : exec (Channel.step List.length (bitCeil c)) Channel.empty
      (trace label step (Machine.new c) as) = some s.channel :=
    (refines (Nat.clog 2 c)).exec (inv_new hc) hclient hexec
  exact ⟨hrun, Channel.exec_used_le hrun⟩

/-- A message is read while the producer waits for room: it loads the old position, and is refused
with one receipt out of view, and then the new one. -/
def refusedRun : List Action :=
  [.reserveWrite ⟨[7, 8, 9], by decide, by decide⟩, .writeByte, .writeByte, .writeByte,
    .commitWrite, .reserveWrite ⟨[10, 11], by decide, by decide⟩, .reserveRead, .loadW 1, .readByte,
    .readByte, .readByte, .commitRead 3, .loadR 0,
    .reserveWrite ⟨[10, 11], by decide, by decide⟩, .loadR 1]

theorem exec_linearizable_refusedRun :
    ∃ s, exec step (Machine.new 4) refusedRun = some s ∧
      trace label step (Machine.new 4) refusedRun
        = [.granted 3, .send [7, 8, 9], .found, .receive [7, 8, 9], .refused 2 1, .granted 2] ∧
      exec (Channel.step List.length (bitCeil 4)) Channel.empty
        (trace label step (Machine.new 4) refusedRun) = some s.channel := by
  have hrun : ∃ s, exec step (Machine.new 4) refusedRun = some s := ⟨_, rfl⟩
  obtain ⟨s, hs⟩ := hrun
  refine ⟨s, hs, by decide +kernel, ?_⟩
  exact (exec_linearizable (by decide) (by decide +kernel) hs).1

end Papper.Queue
