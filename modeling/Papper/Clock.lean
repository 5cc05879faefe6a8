import Mathlib.Algebra.Group.Int.Defs
import Papper.Lib.Calendar

/-!
# The offset of local time

`recalculate_utc_offset` takes the current time apart with `std::localtime` and
`std::gmtime` and rebuilds the difference of the two from the fields.  It looks at the day
of the year, so it needs to know what a change of the year means: since the two are less
than a day apart it can only be the next day, or the one before.

The two library functions are parameters.  What is assumed of them is that they return the
calendar fields of local time and of universal time; the products stay far inside `long`.

## Main definitions

* `Tm` — the fields of `std::tm` that are read.
* `recalculateUtcOffset` — the offset that is computed.
* `recalculateUtcOffset_eq` — it is the offset of local time.
-/

namespace Papper

open Calendar

/-- `std::tm`; `tmYear` counts from 1900. -/
structure Tm where
  tmSec : ℤ
  tmMin : ℤ
  tmHour : ℤ
  tmYear : ℤ
  tmYday : ℤ
  deriving DecidableEq

/-- The calendar fields. -/
def Tm.fields (tm : Tm) : Fields := ⟨tm.tmYear + 1900, tm.tmYday, tm.tmHour, tm.tmMin, tm.tmSec⟩

/-- The days from one date to another, which is less than a year away. -/
def dayDiff (loc utc : Tm) : ℤ :=
  if loc.tmYear ≠ utc.tmYear then
    if loc.tmYear > utc.tmYear then 1 else -1
  else loc.tmYday - utc.tmYday

/-- What `recalculate_utc_offset` assigns to `_utc_offset_ns` at the time `t`. -/
def recalculateUtcOffset (localtime gmtime : ℤ → Tm) (t : ℤ) : ℤ :=
  let loc := localtime t
  let utc := gmtime t
  1000000000 *
    (dayDiff loc utc * 86400 + (loc.tmHour - utc.tmHour) * 3600 + (loc.tmMin - utc.tmMin) * 60 +
      (loc.tmSec - utc.tmSec))

/-- **The day difference is that of the dates**, also across the end of a year. -/
theorem dayDiff_eq {loc utc : Tm} {s t : ℤ} (hloc : Civil loc.fields s) (hutc : Civil utc.fields t)
    (hnear : -86400 < s - t ∧ s - t < 86400) :
    dayDiff loc utc = loc.fields.day - utc.fields.day := by
  have hdays := hloc.day_near hutc hnear
  have hyear : ∀ tm : Tm, tm.fields.year = tm.tmYear + 1900 := fun _ => rfl
  rcases Int.lt_trichotomy loc.tmYear utc.tmYear with hlt | heq | hgt
  · have hday := hloc.day_lt hutc (by rw [hyear, hyear]; omega)
    rw [dayDiff, if_pos (by omega), if_neg (by omega)]
    omega
  · have hfirst : daysBefore loc.fields.year = daysBefore utc.fields.year := by
      rw [hyear, hyear, heq]
    have hyday : ∀ tm : Tm, tm.fields.day = daysBefore tm.fields.year + tm.tmYday := fun _ => rfl
    rw [dayDiff, if_neg (by omega), hyday, hyday]
    omega
  · have hday := hutc.day_lt hloc (by rw [hyear, hyear]; omega)
    rw [dayDiff, if_pos (by omega), if_pos hgt]
    omega

/-- **The offset is computed exactly.**  At every time, for every offset of less than a
day. -/
theorem recalculateUtcOffset_eq {localtime gmtime : ℤ → Tm} {t off : ℤ}
    (hoff : -86400 < off ∧ off < 86400) (hlocal : Civil (localtime t).fields (t + off))
    (hutc : Civil (gmtime t).fields t) :
    recalculateUtcOffset localtime gmtime t = off * 10 ^ 9 := by
  have hdays := dayDiff_eq hlocal hutc (by omega)
  have hlocalEq := hlocal.eq
  have hutcEq := hutc.eq
  have hsecond : ∀ tm : Tm, tm.fields.second = tm.tmHour * 3600 + tm.tmMin * 60 + tm.tmSec :=
    fun _ => rfl
  rw [hsecond] at hlocalEq hutcEq
  simp only [recalculateUtcOffset, hdays]
  omega

/-- A library that computes the fields. -/
def tmOf (f : Fields) : Tm := ⟨f.sec, f.min, f.hour, f.year - 1900, f.yday⟩

theorem civil_tmOf (t : ℤ) : Civil (tmOf (civil t)).fields t := by
  have hfields : (tmOf (civil t)).fields = civil t := by simp [Tm.fields, tmOf]
  rw [hfields]
  exact civil_spec t

/-- Half an hour before the end of the leap year 2024, in a zone an hour ahead. -/
theorem recalculateUtcOffset_eq_newYear :
    recalculateUtcOffset (fun t => tmOf (civil (t + 3600))) (fun t => tmOf (civil t)) 1735687800
      = 3600 * 10 ^ 9 :=
  recalculateUtcOffset_eq (by decide) (civil_tmOf _) (civil_tmOf _)

example : tmOf (civil 1735687800) = ⟨0, 30, 23, 124, 365⟩ ∧
    tmOf (civil (1735687800 + 3600)) = ⟨0, 30, 0, 125, 0⟩ := by
  decide

end Papper
