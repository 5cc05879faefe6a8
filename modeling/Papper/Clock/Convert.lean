import Papper.Clock
import Papper.Lib.Binary64
import Papper.Lib.Transition

/-!
# From ticks to local time

Events carry a count of the processor.  The backend converts it to the time of the day with
a sync point, a count and the system time that were read together, and with the length of a tick.
It takes a new sync point every 100 ms, so that the conversion stays near the system clock, and
recomputes the offset of local time every second.

All of this is arithmetic on doubles, with counts of up to 64 bits.  The counts that are read and
what the system clock says at these moments are parameters.

## Main definitions

* `Clock`, `timestampToLocalSystemTime`, `syncToSystemClock` — the class.
* `BackendClock`, `tryResyncClock` — what the backend does with it.
* `timestampToLocalSystemTime_mono` — later events have later times.
* `exec_near` — the conversion is as near to local time as the readings are.
-/

namespace Papper

open Binary64 Transition

structure SyncPoint where
  ts : UInt64
  /-- In nanoseconds. -/
  systemTime : ℤ
  deriving DecidableEq

structure Clock where
  syncPoint : SyncPoint
  utcOffsetNs : ℤ
  nsPerTick : ℚ
  deriving DecidableEq

/-- An `int64_t`, where the number is one. -/
def int64? (n : ℤ) : Option ℤ := if -2 ^ 63 ≤ n ∧ n < 2 ^ 63 then some n else none

/-- A `double` as a `uint64_t`, where it has a value. -/
def toUInt64? (x : ℚ) : Option UInt64 :=
  if 0 ≤ truncate x ∧ truncate x < 2 ^ 64 then some (UInt64.ofNat (truncate x).toNat) else none

namespace Clock

/-- `(int64_t)(ts - _sync_point.ts)`. -/
def ticks (c : Clock) (ts : UInt64) : ℤ := (ts - c.syncPoint.ts).toInt64.toInt

/-- `ns_since_sync`. -/
def nsSinceSync (c : Clock) (ts : UInt64) : ℚ := rnd (c.nsPerTick * rnd (c.ticks ts))

/-- Ticks to local time; overflow of a signed integer has no result. -/
def timestampToLocalSystemTime (c : Clock) (ts : UInt64) : Option ℤ := do
  let ns ← int64? (truncate (c.nsSinceSync ts))
  let sinceSync ← int64? (ns + c.utcOffsetNs)
  int64? (c.syncPoint.systemTime + sinceSync)

/-- The average of two counts as it is computed. -/
def average (tsc₁ tsc₂ : UInt64) : ℚ :=
  rnd (rnd tsc₁.toNat + rnd (rnd (tsc₂ - tsc₁).toNat / 2))

/-- The time `t` was read between the two counts. -/
def syncToSystemClock (c : Clock) (tsc₁ : UInt64) (t : ℤ) (tsc₂ : UInt64) : Option Clock :=
  (toUInt64? (average tsc₁ tsc₂)).map fun avg => { c with syncPoint := ⟨avg, t⟩ }

def readTimestampNs (c : Clock) (tsc : UInt64) : ℚ := rnd (c.nsPerTick * rnd tsc.toNat)

variable {c : Clock} {ts ts' : UInt64} {t t' : ℤ}

theorem int64?_eq_some {n m : ℤ} (h : int64? n = some m) : m = n := by
  simp only [int64?, Option.ite_none_right_eq_some, Option.some.injEq] at h
  exact h.2.symm

/-- What a conversion comes to. -/
theorem eq_of_timestampToLocalSystemTime (h : c.timestampToLocalSystemTime ts = some t) :
    t = c.syncPoint.systemTime + (truncate (c.nsSinceSync ts) + c.utcOffsetNs) := by
  simp only [timestampToLocalSystemTime, Option.bind_eq_bind, Option.bind_eq_some_iff] at h
  obtain ⟨ns, hns, sinceSync, hsince, ht⟩ := h
  rw [int64?_eq_some ht, int64?_eq_some hsince, int64?_eq_some hns]

/-- The difference of two counts that are less than `2 ^ 63` apart. -/
theorem ticks_eq (hlow : c.syncPoint.ts.toNat ≤ ts.toNat + 2 ^ 63)
    (hhigh : ts.toNat < c.syncPoint.ts.toNat + 2 ^ 63) :
    c.ticks ts = ts.toNat - c.syncPoint.ts.toNat := by
  have hbits : c.ticks ts = (ts - c.syncPoint.ts).toBitVec.toInt := rfl
  rw [hbits, UInt64.toBitVec_sub, BitVec.toInt_sub, BitVec.toInt_eq_toNat_bmod,
    BitVec.toInt_eq_toNat_bmod, Int.bmod_sub_bmod, Int.sub_bmod_bmod]
  simp only [UInt64.toNat_toBitVec]
  rw [Int.bmod_eq_of_le] <;> omega

/-- **Later events have later times**, as long as the sync point and the offset are the same and
neither event is `2 ^ 63` ticks away from the sync point. -/
theorem timestampToLocalSystemTime_mono (hrate : 0 ≤ c.nsPerTick) (hle : ts ≤ ts')
    (hfirst : c.syncPoint.ts.toNat ≤ ts.toNat + 2 ^ 63)
    (hlast : ts'.toNat < c.syncPoint.ts.toNat + 2 ^ 63)
    (h : c.timestampToLocalSystemTime ts = some t)
    (h' : c.timestampToLocalSystemTime ts' = some t') : t ≤ t' := by
  have hnat : ts.toNat ≤ ts'.toNat := UInt64.le_iff_toNat_le.mp hle
  have hticks : c.ticks ts ≤ c.ticks ts' := by
    rw [ticks_eq hfirst (by omega), ticks_eq (by omega) hlast]
    omega
  have hcast : (c.ticks ts : ℚ) ≤ c.ticks ts' := by exact_mod_cast hticks
  have hns : c.nsSinceSync ts ≤ c.nsSinceSync ts' :=
    rnd_mono (mul_le_mul_of_nonneg_left (rnd_mono hcast) hrate)
  have htruncate := truncate_mono hns
  rw [eq_of_timestampToLocalSystemTime h, eq_of_timestampToLocalSystemTime h']
  omega

theorem timestampToLocalSystemTime_mono_next :
    ∃ t t', (Clock.mk ⟨1000000205, 500000103⟩ 0 (1 / 3)).timestampToLocalSystemTime 1000000000
        = some t ∧
      (Clock.mk ⟨1000000205, 500000103⟩ 0 (1 / 3)).timestampToLocalSystemTime 1000000004
        = some t' ∧ t ≤ t' := by
  have h : (Clock.mk ⟨1000000205, 500000103⟩ 0 (1 / 3)).timestampToLocalSystemTime 1000000000
      = some 500000035 := by decide +kernel
  have h' : (Clock.mk ⟨1000000205, 500000103⟩ 0 (1 / 3)).timestampToLocalSystemTime 1000000004
      = some 500000036 := by decide +kernel
  exact ⟨_, _, h, h',
    timestampToLocalSystemTime_mono (by norm_num) (by decide) (by decide) (by decide) h h'⟩

/-! ## The sync point -/

/-- The middle of two counts. -/
def middle (tsc₁ tsc₂ : UInt64) : ℚ := (tsc₁.toNat + tsc₂.toNat) / 2

theorem toNat_zero_or_one_le (n : UInt64) : (n.toNat : ℚ) = 0 ∨ 1 ≤ (n.toNat : ℚ) := by
  rcases Nat.eq_zero_or_pos n.toNat with hzero | hpos
  · exact .inl (by exact_mod_cast hzero)
  · exact .inr (by exact_mod_cast hpos)

/-- **The average is near the middle**, though counts of more than 53 bits are rounded before
they are added. -/
theorem abs_average_sub_le {tsc₁ tsc₂ : UInt64} (hle : tsc₁ ≤ tsc₂) :
    |average tsc₁ tsc₂ - middle tsc₁ tsc₂| ≤ middle tsc₁ tsc₂ / 2 ^ 51 := by
  have hdiff : ((tsc₂ - tsc₁).toNat : ℚ) = tsc₂.toNat - tsc₁.toNat := by
    rw [UInt64.toNat_sub_of_le _ _ hle, Nat.cast_sub (UInt64.le_iff_toNat_le.mp hle)]
  have hmiddle : middle tsc₁ tsc₂ = tsc₁.toNat + (tsc₂ - tsc₁).toNat / 2 := by
    rw [hdiff, middle]
    ring
  rw [hmiddle, average]
  -- four roundings: of the first count, of the difference, of its half and of the sum
  have hfirst := abs_rnd_natCast_sub_le tsc₁.toNat
  have hsecond := abs_rnd_natCast_sub_le (tsc₂ - tsc₁).toNat
  have hhalf : rnd (tsc₂ - tsc₁).toNat / 2 = 0 ∨ 1 / 2 ≤ rnd (tsc₂ - tsc₁).toNat / 2 := by
    refine (rnd_zero_or_le rnd_one (toNat_zero_or_one_le (tsc₂ - tsc₁))).imp (fun h => ?_)
      fun h => ?_ <;> linarith
  have hthird := abs_rnd_sub_le_of_half hhalf
  have hquot : rnd (rnd (tsc₂ - tsc₁).toNat / 2) = 0 ∨
      1 / 2 ≤ rnd (rnd (tsc₂ - tsc₁).toNat / 2) :=
    rnd_zero_or_le (by decide +kernel) hhalf
  have hsum : rnd tsc₁.toNat + rnd (rnd (tsc₂ - tsc₁).toNat / 2) = 0 ∨
      1 / 2 ≤ rnd tsc₁.toNat + rnd (rnd (tsc₂ - tsc₁).toNat / 2) := by
    rcases rnd_zero_or_le rnd_one (toNat_zero_or_one_le tsc₁) with h | h <;>
      rcases hquot with h' | h' <;> grind
  have hfourth := abs_rnd_sub_le_of_half hsum
  have hcount : (0 : ℚ) ≤ tsc₁.toNat := Nat.cast_nonneg _
  have hwidth : (0 : ℚ) ≤ (tsc₂ - tsc₁).toNat := Nat.cast_nonneg _
  rw [abs_le] at hfirst hsecond hthird hfourth ⊢
  constructor <;> linarith

/-- What a sync point is: the time, and a count near the middle of the two. -/
theorem eq_of_syncToSystemClock {tsc₁ tsc₂ : UInt64} {c' : Clock} (hle : tsc₁ ≤ tsc₂)
    (h : c.syncToSystemClock tsc₁ t tsc₂ = some c') :
    ∃ avg : UInt64, c' = { c with syncPoint := ⟨avg, t⟩ } ∧
      |avg.toNat - middle tsc₁ tsc₂| ≤ 1 + middle tsc₁ tsc₂ / 2 ^ 51 := by
  obtain ⟨avg, havg, rfl⟩ := Option.map_eq_some_iff.mp h
  refine ⟨avg, rfl, ?_⟩
  simp only [toUInt64?, Option.ite_none_right_eq_some, Option.some.injEq] at havg
  obtain ⟨⟨hnonneg, hlt⟩, rfl⟩ := havg
  have hnat : ((UInt64.ofNat (truncate (average tsc₁ tsc₂)).toNat).toNat : ℚ)
      = truncate (average tsc₁ tsc₂) := by
    rw [UInt64.toNat_ofNat_of_lt' (show _ < 2 ^ 64 by omega)]
    exact_mod_cast Int.toNat_of_nonneg hnonneg
  have htruncate := abs_truncate_sub_lt (average tsc₁ tsc₂)
  have haverage := abs_average_sub_le hle
  rw [hnat]
  calc |(truncate (average tsc₁ tsc₂) : ℚ) - middle tsc₁ tsc₂|
      ≤ |(truncate (average tsc₁ tsc₂) : ℚ) - average tsc₁ tsc₂|
          + |average tsc₁ tsc₂ - middle tsc₁ tsc₂| := abs_sub_le _ _ _
    _ ≤ 1 + middle tsc₁ tsc₂ / 2 ^ 51 := add_le_add htruncate.le haverage

end Clock

/-! ## The clock of the backend -/

/-- What the machine says in one call of `try_resync_clock`. -/
structure Readings where
  /-- The first count. -/
  now : UInt64
  /-- The offset of local time. -/
  utcOffsetNs : ℤ
  /-- The second count. -/
  now' : UInt64
  /-- The counts before and after the system time is read. -/
  tsc₁ : UInt64
  systemTime : ℤ
  tsc₂ : UInt64
  deriving DecidableEq

/-- The clock, and when it was last set. -/
structure BackendClock where
  clock : Clock
  lastUtcOffsetResync : ℚ
  lastSystemClockResync : ℚ
  deriving DecidableEq

namespace BackendClock

/-- `Clock::init`, and the variables of the thread. -/
def init (nsPerTick : ℚ) (r : Readings) : Option BackendClock :=
  let clock : Clock := ⟨⟨0, 0⟩, r.utcOffsetNs, nsPerTick⟩
  (clock.syncToSystemClock r.tsc₁ r.systemTime r.tsc₂).map fun clock => ⟨clock, 0, 0⟩

/-- The first half of `try_resync_clock`, every second. -/
def resyncUtcOffset (s : BackendClock) (r : Readings) : BackendClock :=
  let now := s.clock.readTimestampNs r.now
  if 1000000000 < rnd (now - s.lastUtcOffsetResync) then
    { s with clock := { s.clock with utcOffsetNs := r.utcOffsetNs }, lastUtcOffsetResync := now }
  else s

/-- The second half, every 100 ms. -/
def resyncSystemClock (s : BackendClock) (r : Readings) : Option BackendClock :=
  let now := s.clock.readTimestampNs r.now'
  if 100000000 < rnd (now - s.lastSystemClockResync) then
    (s.clock.syncToSystemClock r.tsc₁ r.systemTime r.tsc₂).map fun clock =>
      { s with clock := clock, lastSystemClockResync := now }
  else some s

def tryResyncClock (s : BackendClock) (r : Readings) : Option BackendClock :=
  (s.resyncUtcOffset r).resyncSystemClock r

/-! ### Near to the system clock

The system clock advances by `a` nanoseconds with every count, from `base`, and is read between
two counts no more than `width` nanoseconds apart.  Counts are up to `bound`.  The clock takes a
count for `tick` nanoseconds. -/

variable {a base width tick : ℚ} {bound : ℕ} {s s' : BackendClock} {r : Readings}

structure Bracketed (a base width : ℚ) (bound : ℕ) (r : Readings) : Prop where
  tsc_le : r.tsc₁ ≤ r.tsc₂
  le_systemTime : base + a * r.tsc₁.toNat ≤ r.systemTime
  systemTime_le : r.systemTime ≤ base + a * r.tsc₂.toNat
  width_le : a * r.tsc₂.toNat - a * r.tsc₁.toNat ≤ width
  bound_le : r.tsc₂.toNat ≤ bound

/-- How far a sync point may be from the system clock. -/
def syncError (a width : ℚ) (bound : ℕ) : ℚ := width / 2 + a * (1 + bound / 2 ^ 51)

structure Near (a base width : ℚ) (bound : ℕ) (tick : ℚ) (c : Clock) : Prop where
  rate : c.nsPerTick = tick
  ts_lt : c.syncPoint.ts.toNat < 2 ^ 63
  sync : |c.syncPoint.systemTime - (base + a * c.syncPoint.ts.toNat)| ≤ syncError a width bound

/-- A reading makes a near sync point. -/
theorem Bracketed.near {c c' : Clock} (hr : Bracketed a base width bound r) (ha : 0 ≤ a)
    (hbound : bound ≤ 2 ^ 62) (hrate : c.nsPerTick = tick)
    (h : c.syncToSystemClock r.tsc₁ r.systemTime r.tsc₂ = some c') :
    Near a base width bound tick c' := by
  obtain ⟨avg, rfl, havg⟩ := Clock.eq_of_syncToSystemClock hr.tsc_le h
  have hle : (r.tsc₁.toNat : ℚ) ≤ r.tsc₂.toNat := by
    exact_mod_cast UInt64.le_iff_toNat_le.mp hr.tsc_le
  have htop : (r.tsc₂.toNat : ℚ) ≤ bound := by exact_mod_cast hr.bound_le
  have hmax : (bound : ℚ) ≤ 2 ^ 62 := by exact_mod_cast hbound
  have hmiddle : Clock.middle r.tsc₁ r.tsc₂ ≤ bound := by
    rw [Clock.middle]
    linarith
  have herror : |(avg.toNat : ℚ) - Clock.middle r.tsc₁ r.tsc₂| ≤ 1 + bound / 2 ^ 51 :=
    havg.trans (by linarith)
  refine ⟨hrate, ?_, ?_⟩
  · have hlt : (avg.toNat : ℚ) < 2 ^ 63 := by
      have habs := (abs_le.mp herror).2
      linarith
    exact_mod_cast hlt
  · -- the time is half the width from the middle, and the count is near the middle
    have hhalf : |(r.systemTime : ℚ) - (base + a * Clock.middle r.tsc₁ r.tsc₂)| ≤ width / 2 := by
      have hmid : a * Clock.middle r.tsc₁ r.tsc₂
          = (a * r.tsc₁.toNat + a * r.tsc₂.toNat) / 2 := by
        rw [Clock.middle]
        ring
      have hlow := hr.le_systemTime
      have hhigh := hr.systemTime_le
      have hwidth := hr.width_le
      rw [hmid, abs_le]
      constructor <;> linarith
    have hcount : |a * Clock.middle r.tsc₁ r.tsc₂ - a * avg.toNat| ≤ a * (1 + bound / 2 ^ 51) := by
      rw [← mul_sub, abs_mul, abs_of_nonneg ha, abs_sub_comm]
      exact mul_le_mul_of_nonneg_left herror ha
    have hsum : (r.systemTime : ℚ) - (base + a * avg.toNat)
        = (r.systemTime - (base + a * Clock.middle r.tsc₁ r.tsc₂))
          + (a * Clock.middle r.tsc₁ r.tsc₂ - a * avg.toNat) := by ring
    show |(r.systemTime : ℚ) - (base + a * avg.toNat)| ≤ _
    rw [hsum]
    exact (abs_add_le _ _).trans (add_le_add hhalf hcount)

theorem near_tryResyncClock (h : Near a base width bound tick s.clock) (ha : 0 ≤ a)
    (hbound : bound ≤ 2 ^ 62) (hr : Bracketed a base width bound r)
    (hstep : s.tryResyncClock r = some s') : Near a base width bound tick s'.clock := by
  have hoffset : Near a base width bound tick (s.resyncUtcOffset r).clock := by
    simp only [resyncUtcOffset]
    split
    · exact ⟨h.rate, h.ts_lt, h.sync⟩
    · exact h
  simp only [tryResyncClock, resyncSystemClock] at hstep
  split at hstep
  · obtain ⟨c, hc, rfl⟩ := Option.map_eq_some_iff.mp hstep
    exact hr.near ha hbound hoffset.rate hc
  · cases hstep
    exact hoffset

/-- Every run keeps the clock near. -/
theorem near_exec (ha : 0 ≤ a) (hbound : bound ≤ 2 ^ 62) {r₀ : Readings} {rs : List Readings}
    (hreadings : ∀ r ∈ r₀ :: rs, Bracketed a base width bound r) {s₀ s : BackendClock}
    (hinit : init tick r₀ = some s₀) (hexec : exec tryResyncClock s₀ rs = some s) :
    Near a base width bound tick s.clock := by
  have hstart : Near a base width bound tick s₀.clock := by
    obtain ⟨c, hc, rfl⟩ := Option.map_eq_some_iff.mp hinit
    exact (hreadings r₀ List.mem_cons_self).near ha hbound rfl hc
  have halong : Along (fun _ r => Bracketed a base width bound r) tryResyncClock s₀ rs :=
    Along.of_mem (fun r hr _ => hreadings r (List.mem_cons_of_mem _ hr)) _
  exact exec_induction_along (fun s => Near a base width bound tick s.clock)
    (fun _ _ _ h hr hstep => near_tryResyncClock h ha hbound hr hstep) hstart halong hexec

/-- A near clock converts to near times, but for the product. -/
theorem Near.convert {c : Clock} (h : Near a base width bound tick c) {ts : UInt64} {t : ℤ}
    (hts : ts.toNat < 2 ^ 63) (ht : c.timestampToLocalSystemTime ts = some t) :
    |t - (base + a * ts.toNat + c.utcOffsetNs)|
      ≤ syncError a width bound + |rnd (tick * rnd (c.ticks ts)) - a * c.ticks ts| + 1 := by
  have htruncate := abs_truncate_sub_lt (c.nsSinceSync ts)
  have hticks : (c.ticks ts : ℚ) = ts.toNat - c.syncPoint.ts.toNat := by
    have hsync := h.ts_lt
    rw [Clock.ticks_eq (by omega) (by omega)]
    push_cast
    rfl
  have hsum : (t : ℚ) - (base + a * ts.toNat + c.utcOffsetNs)
      = (c.syncPoint.systemTime - (base + a * c.syncPoint.ts.toNat))
        + (c.nsSinceSync ts - a * c.ticks ts)
        + (truncate (c.nsSinceSync ts) - c.nsSinceSync ts) := by
    rw [Clock.eq_of_timestampToLocalSystemTime ht, hticks]
    push_cast
    ring
  rw [hsum]
  refine (abs_add_le _ _).trans (add_le_add ?_ htruncate.le)
  refine (abs_add_le _ _).trans (add_le_add h.sync ?_)
  rw [Clock.nsSinceSync, h.rate]

/-- **The conversion stays near local time.**  However often the clock is set and whatever the
rounding: if each time the system clock is read between its two counts, then every event is
converted to the local time it was recorded at, but for half the distance of the two counts, and
for the rounding of the counts and of the product. -/
theorem exec_near (ha : 2 ^ (-1022 : ℤ) ≤ a) (hbound : bound ≤ 2 ^ 62) {r₀ : Readings}
    {rs : List Readings} (hreadings : ∀ r ∈ r₀ :: rs, Bracketed a base width bound r)
    {s₀ s : BackendClock} (hinit : init a r₀ = some s₀)
    (hexec : exec tryResyncClock s₀ rs = some s) {ts : UInt64} {t : ℤ} (hts : ts.toNat < 2 ^ 63)
    (ht : s.clock.timestampToLocalSystemTime ts = some t) :
    |t - (base + a * ts.toNat + s.clock.utcOffsetNs)|
      ≤ width / 2 + a * (1 + bound / 2 ^ 51) + a * |(s.clock.ticks ts : ℚ)| / 2 ^ 51 + 1 := by
  have hnonneg : 0 ≤ a := (two_zpow_pos _).le.trans ha
  have hnear := near_exec hnonneg hbound hreadings hinit hexec
  have hproduct := abs_rnd_mul_rnd_sub_le ha (s.clock.ticks ts)
  refine (hnear.convert hts ht).trans ?_
  rw [syncError]
  linarith

/-- Half a nanosecond for a count; the clock is read at 500 ns and at 500 ms. -/
def firstReadings : Readings := ⟨1000, 3600000000000, 1000, 1000, 502, 1010⟩

def secondReadings : Readings :=
  ⟨1000000000, 7200000000000, 1000000100, 1000000200, 500000103, 1000000210⟩

theorem half_normal : (2 : ℚ) ^ (-1022 : ℤ) ≤ 1 / 2 := by
  have hle : (2 : ℚ) ^ (-1022 : ℤ) ≤ 2 ^ (-1 : ℤ) :=
    zpow_le_zpow_right₀ one_le_two (by norm_num)
  exact hle.trans (by norm_num)

theorem exec_near_secondReadings :
    ∃ s t, (init (1 / 2) firstReadings).bind (exec tryResyncClock · [secondReadings]) = some s ∧
      s.clock.timestampToLocalSystemTime 1000000000 = some t ∧ t = 3600500000001 ∧
      |(t : ℚ) - (0 + 1 / 2 * (1000000000 : UInt64).toNat + s.clock.utcOffsetNs)|
        ≤ 5 / 2 + 1 / 2 * (1 + (2000000000 : ℕ) / 2 ^ 51)
          + 1 / 2 * |(s.clock.ticks 1000000000 : ℚ)| / 2 ^ 51 + 1 := by
  have hrun : ((init (1 / 2) firstReadings).bind (exec tryResyncClock · [secondReadings])).bind
      (fun s => s.clock.timestampToLocalSystemTime 1000000000) = some 3600500000001 := by
    decide +kernel
  obtain ⟨s, hs, ht⟩ := Option.bind_eq_some_iff.mp hrun
  obtain ⟨s₀, hinit, hexec⟩ := Option.bind_eq_some_iff.mp hs
  have hreadings : ∀ r ∈ [firstReadings, secondReadings],
      Bracketed (1 / 2) 0 5 2000000000 r := by
    intro r hr
    simp only [List.mem_cons, List.not_mem_nil, or_false] at hr
    rcases hr with rfl | rfl
    · exact ⟨by decide, by decide +kernel, by decide +kernel, by decide +kernel, by decide⟩
    · exact ⟨by decide, by decide +kernel, by decide +kernel, by decide +kernel, by decide⟩
  exact ⟨s, _, hs, ht, rfl,
    exec_near half_normal (by norm_num) hreadings hinit hexec (by decide) ht⟩

/-! ### Set not long ago -/

/-- The value was read with this count, or by the constructor, before any count. -/
def TakenAt (count : Readings → UInt64) (value : Readings → ℤ) (r₀ : Readings) (rs : List Readings)
    (n : UInt64) (v : ℤ) : Prop :=
  n = 0 ∧ v = value r₀ ∨ ∃ r ∈ rs, n = count r ∧ v = value r

theorem TakenAt.concat {count : Readings → UInt64} {value : Readings → ℤ} {r₀ : Readings}
    {rs : List Readings} {n : UInt64} {v : ℤ} (h : TakenAt count value r₀ rs n v) (r : Readings) :
    TakenAt count value r₀ (rs ++ [r]) n v := by
  rcases h with h | ⟨r', hr', h⟩
  · exact .inl h
  · exact .inr ⟨r', List.mem_append_left _ hr', h⟩

theorem takenAt_concat (count : Readings → UInt64) (value : Readings → ℤ) (r₀ : Readings)
    (rs : List Readings) (r : Readings) :
    TakenAt count value r₀ (rs ++ [r]) (count r) (value r) :=
  .inr ⟨r, List.mem_append_right _ List.mem_cons_self, rfl, rfl⟩

/-- From the count `n` to `now` there are no more than `interval` nanoseconds, and what is lost
in rounding. -/
def Within (a interval : ℚ) (n now : UInt64) : Prop :=
  a * now.toNat - a * n.toNat ≤ interval + 1 + a * (n.toNat + now.toNat) / 2 ^ 51

/-- `read_timestamp_ns` of two counts, and the comparison. -/
theorem within_of_rnd_le (ha : 2 ^ (-1022 : ℤ) ≤ a) (interval : ℤ)
    (hinterval : |interval + 1| < 2 ^ 53) {n now : UInt64}
    (h : rnd (rnd (a * rnd now.toNat) - rnd (a * rnd n.toNat)) ≤ interval) :
    Within a interval n now := by
  have hlt : rnd (a * rnd now.toNat) - rnd (a * rnd n.toNat) < interval + 1 := by
    by_contra hge
    have hround := rnd_mono (not_lt.mp hge)
    have hexact : rnd ((interval : ℚ) + 1) = interval + 1 := by
      exact_mod_cast rnd_intCast hinterval
    linarith
  have hnow := (abs_le.mp (abs_rnd_mul_rnd_sub_le ha now.toNat)).1
  have hthen := (abs_le.mp (abs_rnd_mul_rnd_sub_le ha n.toNat)).2
  simp only [Int.cast_natCast, Nat.abs_cast] at hnow hthen
  rw [Within]
  linarith

theorem within_self (ha : 2 ^ (-1022 : ℤ) ≤ a) {interval : ℚ} (hinterval : 0 ≤ interval)
    (n : UInt64) : Within a interval n n := by
  have hpos : 0 ≤ a := (two_zpow_pos _).le.trans ha
  have hnonneg : 0 ≤ a * (n.toNat + n.toNat) / 2 ^ 51 := by positivity
  rw [Within, sub_self]
  linarith

/-- What the two settings stand on after the readings `rs`. -/
structure Taken (a : ℚ) (r₀ : Readings) (rs : List Readings) (s : BackendClock) : Prop where
  rate : s.clock.nsPerTick = a
  utcOffset : ∃ n, TakenAt Readings.now Readings.utcOffsetNs r₀ rs n s.clock.utcOffsetNs ∧
    s.lastUtcOffsetResync = rnd (a * rnd n.toNat)
  systemClock : ∃ n, TakenAt Readings.now' Readings.systemTime r₀ rs n
    s.clock.syncPoint.systemTime ∧ s.lastSystemClockResync = rnd (a * rnd n.toNat)

/-- They are as young as the intervals. -/
structure Fresh (a : ℚ) (r₀ : Readings) (rs : List Readings) (r : Readings) (s : BackendClock) :
    Prop where
  utcOffset : ∃ n, TakenAt Readings.now Readings.utcOffsetNs r₀ rs n s.clock.utcOffsetNs ∧
    Within a 1000000000 n r.now
  systemClock : ∃ n, TakenAt Readings.now' Readings.systemTime r₀ rs n
    s.clock.syncPoint.systemTime ∧ Within a 100000000 n r.now'

theorem Taken.utcOffset_next {r₀ : Readings} {rs : List Readings} (ha : 2 ^ (-1022 : ℤ) ≤ a)
    (h : Taken a r₀ rs s) (r : Readings) :
    ∃ n, TakenAt Readings.now Readings.utcOffsetNs r₀ (rs ++ [r]) n
        (s.resyncUtcOffset r).clock.utcOffsetNs ∧
      (s.resyncUtcOffset r).lastUtcOffsetResync = rnd (a * rnd n.toNat) ∧
      Within a 1000000000 n r.now := by
  obtain ⟨n, htaken, hlast⟩ := h.utcOffset
  simp only [resyncUtcOffset, Clock.readTimestampNs, h.rate, hlast]
  split
  · exact ⟨r.now, takenAt_concat _ _ r₀ rs r, rfl, within_self ha (by norm_num) _⟩
  · rename_i hdue
    refine ⟨n, htaken.concat r, hlast, ?_⟩
    exact_mod_cast within_of_rnd_le ha 1000000000 (by norm_num)
      (by exact_mod_cast not_lt.mp hdue)

/-- The other half keeps to the rest of the state. -/
theorem resyncUtcOffset_frame (s : BackendClock) (r : Readings) :
    (s.resyncUtcOffset r).clock.nsPerTick = s.clock.nsPerTick ∧
      (s.resyncUtcOffset r).clock.syncPoint = s.clock.syncPoint ∧
      (s.resyncUtcOffset r).lastSystemClockResync = s.lastSystemClockResync := by
  simp only [resyncUtcOffset]
  split <;> exact ⟨rfl, rfl, rfl⟩

theorem resyncSystemClock_frame (h : s.resyncSystemClock r = some s') :
    s'.clock.nsPerTick = s.clock.nsPerTick ∧ s'.clock.utcOffsetNs = s.clock.utcOffsetNs ∧
      s'.lastUtcOffsetResync = s.lastUtcOffsetResync := by
  simp only [resyncSystemClock] at h
  split at h
  · obtain ⟨c, hc, rfl⟩ := Option.map_eq_some_iff.mp h
    obtain ⟨avg, -, rfl⟩ := Option.map_eq_some_iff.mp hc
    exact ⟨rfl, rfl, rfl⟩
  · cases h
    exact ⟨rfl, rfl, rfl⟩

theorem Taken.systemClock_next {r₀ : Readings} {rs : List Readings} (ha : 2 ^ (-1022 : ℤ) ≤ a)
    (h : Taken a r₀ rs s) (hstep : s.tryResyncClock r = some s') :
    ∃ n, TakenAt Readings.now' Readings.systemTime r₀ (rs ++ [r]) n
        s'.clock.syncPoint.systemTime ∧
      s'.lastSystemClockResync = rnd (a * rnd n.toNat) ∧ Within a 100000000 n r.now' := by
  obtain ⟨n, htaken, hlast⟩ := h.systemClock
  obtain ⟨hrate, hpoint, hkept⟩ := resyncUtcOffset_frame s r
  simp only [tryResyncClock, resyncSystemClock, Clock.readTimestampNs, hrate, h.rate, hkept,
    hlast] at hstep
  split at hstep
  · obtain ⟨c, hc, rfl⟩ := Option.map_eq_some_iff.mp hstep
    obtain ⟨avg, -, rfl⟩ := Option.map_eq_some_iff.mp hc
    exact ⟨r.now', takenAt_concat _ _ r₀ rs r, rfl, within_self ha (by norm_num) _⟩
  · rename_i hdue
    cases hstep
    refine ⟨n, ?_, hkept.trans hlast, ?_⟩
    · rw [hpoint]
      exact htaken.concat r
    · exact_mod_cast within_of_rnd_le ha 100000000 (by norm_num)
        (by exact_mod_cast not_lt.mp hdue)

/-- One call of `try_resync_clock`. -/
theorem Taken.next {r₀ : Readings} {rs : List Readings} (ha : 2 ^ (-1022 : ℤ) ≤ a)
    (h : Taken a r₀ rs s) (hstep : s.tryResyncClock r = some s') :
    Taken a r₀ (rs ++ [r]) s' ∧ Fresh a r₀ (rs ++ [r]) r s' := by
  obtain ⟨n, htaken, hlast, hage⟩ := h.utcOffset_next ha r
  obtain ⟨n', htaken', hlast', hage'⟩ := h.systemClock_next ha hstep
  obtain ⟨hrate, -, -⟩ := resyncUtcOffset_frame s r
  obtain ⟨hrate', hoffset, hkept⟩ := resyncSystemClock_frame hstep
  refine ⟨⟨hrate'.trans (hrate.trans h.rate), ⟨n, ?_, hkept.trans hlast⟩, ⟨n', htaken', hlast'⟩⟩,
    ⟨⟨n, ?_, hage⟩, ⟨n', htaken', hage'⟩⟩⟩
  · exact hoffset ▸ htaken
  · exact hoffset ▸ htaken

theorem taken_init {r₀ : Readings} (h : init a r₀ = some s) : Taken a r₀ [] s := by
  obtain ⟨c, hc, rfl⟩ := Option.map_eq_some_iff.mp h
  obtain ⟨avg, -, rfl⟩ := Option.map_eq_some_iff.mp hc
  have hzero : (0 : ℚ) = rnd (a * rnd (0 : UInt64).toNat) := by simp
  exact ⟨rfl, ⟨0, .inl ⟨rfl, rfl⟩, hzero⟩, ⟨0, .inl ⟨rfl, rfl⟩, hzero⟩⟩

/-- **The clock was set not long ago.**  After every call of `try_resync_clock`, in any run, the
sync point in force was read in the last 100 ms and the offset in the last second, by the counts
of these calls; the ones of the constructor only while the counts are below that. -/
theorem exec_fresh (ha : 2 ^ (-1022 : ℤ) ≤ a) {r₀ : Readings} {rs : List Readings} {r : Readings}
    {s₀ s : BackendClock} (hinit : init a r₀ = some s₀)
    (hexec : exec tryResyncClock s₀ (rs ++ [r]) = some s) : Fresh a r₀ (rs ++ [r]) r s := by
  obtain ⟨s₁, hbefore, hlast⟩ := exec_append_eq_some.mp hexec
  have halong : Along (fun _ _ => True) tryResyncClock s₀ rs :=
    Along.of_mem (fun _ _ _ => trivial) _
  have htaken : Taken a r₀ rs s₁ :=
    exec_history (fun rs s => Taken a r₀ rs s) (taken_init hinit)
      (fun _ _ _ _ _ h _ hstep => (h.next ha hstep).1) halong hbefore
  obtain ⟨s₂, hstep, hnil⟩ := exec_cons_eq_some.mp hlast
  obtain rfl := Option.some.inj hnil
  exact (htaken.next ha hstep).2

theorem exec_fresh_secondReadings :
    ∃ s₀ s, init (1 / 2) firstReadings = some s₀ ∧
      exec tryResyncClock s₀ ([] ++ [secondReadings]) = some s ∧
      s.clock.syncPoint.systemTime = 500000103 ∧
      Fresh (1 / 2) firstReadings ([] ++ [secondReadings]) secondReadings s := by
  have hrun : ((init (1 / 2) firstReadings).bind
      (exec tryResyncClock · ([] ++ [secondReadings]))).map
        (fun s => s.clock.syncPoint.systemTime) = some 500000103 := by
    decide +kernel
  obtain ⟨s, hs, htime⟩ := Option.map_eq_some_iff.mp hrun
  obtain ⟨s₀, hinit, hexec⟩ := Option.bind_eq_some_iff.mp hs
  exact ⟨s₀, s, hinit, hexec, htime, exec_fresh half_normal hinit hexec⟩

end BackendClock

end Papper
