import Mathlib.Algebra.Order.Group.Int
import Mathlib.Tactic.Common

/-!
# The proleptic Gregorian calendar

Days are numbered from the first of January of year 1, in both directions, and a point in
time is a number of seconds since the first of January of 1970.  A calendar date is a year
and a day of that year, the first being day 0.

## Main definitions

* `IsLeap`, `yearLength`, `daysBefore` — years and their first days.
* `Civil` — the fields of a point in time.
* `civil` — the fields, computed.
-/

namespace Papper.Calendar

def IsLeap (y : ℤ) : Prop := y % 4 = 0 ∧ (y % 100 ≠ 0 ∨ y % 400 = 0)

instance (y : ℤ) : Decidable (IsLeap y) :=
  inferInstanceAs (Decidable (y % 4 = 0 ∧ (y % 100 ≠ 0 ∨ y % 400 = 0)))

def yearLength (y : ℤ) : ℤ := if IsLeap y then 366 else 365

/-- The number of the first day of a year. -/
def daysBefore (y : ℤ) : ℤ := 365 * (y - 1) + (y - 1) / 4 - (y - 1) / 100 + (y - 1) / 400

/-- The number of the first day of 1970. -/
def epochDay : ℤ := daysBefore 1970

theorem daysBefore_succ (y : ℤ) : daysBefore (y + 1) = daysBefore y + yearLength y := by
  by_cases hleap : IsLeap y
  · rw [yearLength, if_pos hleap]
    unfold IsLeap at hleap
    unfold daysBefore
    omega
  · rw [yearLength, if_neg hleap]
    unfold IsLeap at hleap
    unfold daysBefore
    omega

theorem yearLength_pos (y : ℤ) : 0 < yearLength y := by
  unfold yearLength
  split <;> decide

/-- A later year begins after an earlier one has ended. -/
theorem daysBefore_add_yearLength_le {y z : ℤ} (h : y < z) :
    daysBefore y + yearLength y ≤ daysBefore z := by
  have hmono : ∀ n : ℕ, daysBefore (y + 1) ≤ daysBefore (y + 1 + n) := by
    intro n
    induction n with
    | zero => simp
    | succ n ih =>
        have hstep := daysBefore_succ (y + 1 + n)
        have hpos := yearLength_pos (y + 1 + n)
        have hcast : y + 1 + ((n + 1 : ℕ) : ℤ) = y + 1 + n + 1 := by omega
        rw [hcast]
        omega
  have hlast := hmono (z - y - 1).toNat
  have hz : y + 1 + ((z - y - 1).toNat : ℤ) = z := by omega
  rwa [daysBefore_succ, hz] at hlast

/-- The fields of a point in time. -/
structure Fields where
  year : ℤ
  /-- The first of January is 0. -/
  yday : ℤ
  hour : ℤ
  min : ℤ
  sec : ℤ
  deriving DecidableEq

/-- The number of the day. -/
def Fields.day (f : Fields) : ℤ := daysBefore f.year + f.yday

/-- The number of seconds of the day that have passed. -/
def Fields.second (f : Fields) : ℤ := f.hour * 3600 + f.min * 60 + f.sec

/-- These are the fields of the point in time `t`. -/
structure Civil (f : Fields) (t : ℤ) : Prop where
  yday : 0 ≤ f.yday ∧ f.yday < yearLength f.year
  hour : 0 ≤ f.hour ∧ f.hour < 24
  min : 0 ≤ f.min ∧ f.min < 60
  sec : 0 ≤ f.sec ∧ f.sec < 60
  eq : (f.day - epochDay) * 86400 + f.second = t

namespace Civil
variable {f g : Fields} {s t : ℤ}

theorem second_lt (h : Civil f t) : 0 ≤ f.second ∧ f.second < 86400 := by
  have hhour := h.hour
  have hmin := h.min
  have hsec := h.sec
  unfold Fields.second
  omega

/-- The date of an earlier year is the earlier date. -/
theorem day_lt (hf : Civil f s) (hg : Civil g t) (h : f.year < g.year) : f.day < g.day := by
  have hyear := daysBefore_add_yearLength_le h
  have hfirst := hf.yday
  have hsecond := hg.yday
  unfold Fields.day
  omega

/-- Points in time less than a day apart are on one day or on two that follow each other. -/
theorem day_near (hf : Civil f s) (hg : Civil g t) (h : -86400 < s - t ∧ s - t < 86400) :
    f.day - g.day = -1 ∨ f.day = g.day ∨ f.day - g.day = 1 := by
  have hs := hf.eq
  have ht := hg.eq
  have hfsec := hf.second_lt
  have hgsec := hg.second_lt
  omega

end Civil

/-! ## The fields, computed -/

/-- How often a period is over, of the `n` there are in a longer one; the last may be a day
longer. -/
def quotient (n period r : ℤ) : ℤ := if r / period = n then n - 1 else r / period

/-- The year and the day of the year of a day, by periods of 400, 100, 4 years and 1. -/
def yearAndDay (d : ℤ) : ℤ × ℤ :=
  let r := d % 146097
  let b := quotient 4 36524 r
  let r' := (r - 36524 * b) % 1461
  let e := quotient 4 365 r'
  (400 * (d / 146097) + 100 * b + 4 * ((r - 36524 * b) / 1461) + e + 1, r' - 365 * e)

/-- The first day of a year, by periods. -/
theorem daysBefore_periods {a b c e : ℤ} (hb : 0 ≤ b ∧ b ≤ 3) (hc : 0 ≤ c ∧ c ≤ 24)
    (he : 0 ≤ e ∧ e ≤ 3) :
    daysBefore (400 * a + 100 * b + 4 * c + e + 1) = 146097 * a + 36524 * b + 1461 * c + 365 * e := by
  have hyear : 400 * a + 100 * b + 4 * c + e + 1 - 1 = 400 * a + 100 * b + 4 * c + e := by omega
  have hfour : (400 * a + 100 * b + 4 * c + e) / 4 = 100 * a + 25 * b + c := by omega
  have hhundred : (400 * a + 100 * b + 4 * c + e) / 100 = 4 * a + b := by omega
  have hcycle : (400 * a + 100 * b + 4 * c + e) / 400 = a := by omega
  rw [daysBefore, hyear, hfour, hhundred, hcycle]
  omega

/-- The last year of four is the longer one, but for the last four of a hundred years that
are not the last hundred of four. -/
theorem yearLength_periods {a b c e : ℤ} (hb : 0 ≤ b ∧ b ≤ 3) (hc : 0 ≤ c ∧ c ≤ 24)
    (he : 0 ≤ e ∧ e ≤ 3) :
    yearLength (400 * a + 100 * b + 4 * c + e + 1)
      = if e = 3 ∧ (c ≠ 24 ∨ b = 3) then 366 else 365 := by
  have hleap : IsLeap (400 * a + 100 * b + 4 * c + e + 1) ↔ e = 3 ∧ (c ≠ 24 ∨ b = 3) := by
    have hfour : (400 * a + 100 * b + 4 * c + e + 1) % 4 = 0 ↔ e = 3 := by omega
    have hhundred : (400 * a + 100 * b + 4 * c + e + 1) % 100 = 0 ↔ c = 24 ∧ e = 3 := by omega
    have hcycle : (400 * a + 100 * b + 4 * c + e + 1) % 400 = 0 ↔ b = 3 ∧ c = 24 ∧ e = 3 := by
      omega
    rw [IsLeap, Ne, hfour, hhundred, hcycle]
    omega
  simp only [yearLength, hleap]

theorem quotient_spec {n period r : ℤ} (hn : 0 < n) (hperiod : 0 < period)
    (hr : 0 ≤ r ∧ r ≤ n * period) :
    (0 ≤ quotient n period r ∧ quotient n period r ≤ n - 1) ∧
      0 ≤ r - period * quotient n period r ∧
      (r - period * quotient n period r < period ∨
        quotient n period r = n - 1 ∧ r = n * period) := by
  have hdiv := Int.mul_ediv_add_emod r period
  have hmod := Int.emod_nonneg r (by omega : period ≠ 0)
  have hlt := Int.emod_lt_of_pos r hperiod
  have hnonneg : 0 ≤ r / period := Int.ediv_nonneg hr.1 (by omega)
  have hle : r / period ≤ n := Int.ediv_le_of_le_mul hperiod hr.2
  by_cases hq : r / period = n
  · rw [quotient, if_pos hq]
    have heq : r = n * period := by
      have hge : n * period ≤ r := by
        rw [hq, Int.mul_comm] at hdiv
        omega
      omega
    refine ⟨⟨by omega, by omega⟩, ?_, .inr ⟨rfl, heq⟩⟩
    rw [heq, Int.mul_sub, Int.mul_comm n period]
    omega
  · rw [quotient, if_neg hq]
    exact ⟨⟨hnonneg, by omega⟩, by omega, .inl (by omega)⟩

/-- The fields of a point in time. -/
def civil (t : ℤ) : Fields :=
  let date := yearAndDay (t / 86400 + epochDay)
  let s := t % 86400
  ⟨date.1, date.2, s / 3600, s / 60 % 60, s % 60⟩

theorem yearAndDay_spec (d : ℤ) :
    0 ≤ (yearAndDay d).2 ∧ (yearAndDay d).2 < yearLength (yearAndDay d).1 ∧
      daysBefore (yearAndDay d).1 + (yearAndDay d).2 = d := by
  have hrange : 0 ≤ d % 146097 ∧ d % 146097 ≤ 4 * 36524 := by omega
  obtain ⟨hb, hbnonneg, hblast⟩ := quotient_spec (by decide) (by decide) hrange
  simp only [yearAndDay]
  generalize quotient 4 36524 (d % 146097) = b at *
  have hrange' : 0 ≤ (d % 146097 - 36524 * b) % 1461 ∧
      (d % 146097 - 36524 * b) % 1461 ≤ 4 * 365 := by omega
  obtain ⟨he, henonneg, helast⟩ := quotient_spec (by decide) (by decide) hrange'
  generalize quotient 4 365 ((d % 146097 - 36524 * b) % 1461) = e at *
  have hc : 0 ≤ (d % 146097 - 36524 * b) / 1461 ∧ (d % 146097 - 36524 * b) / 1461 ≤ 24 := by omega
  rw [yearLength_periods hb hc he, daysBefore_periods hb hc he]
  refine ⟨henonneg, ?_, by omega⟩
  split <;> omega

/-- **Every point in time has fields.** -/
theorem civil_spec (t : ℤ) : Civil (civil t) t := by
  obtain ⟨hnonneg, hlt, hday⟩ := yearAndDay_spec (t / 86400 + epochDay)
  constructor
  · exact ⟨hnonneg, hlt⟩
  · simp only [civil]
    omega
  · simp only [civil]
    omega
  · simp only [civil]
    omega
  · simp only [civil, Fields.day, Fields.second, hday]
    omega

end Papper.Calendar
