import Papper.Pattern.Format

/-!
# The time of a line

`process_time_arg` floors a point in time to whole seconds for the `HH:MM:SS` part, which
it keeps until the second changes, and takes the digits below the second from what the
truncating `%` leaves.  Both go wrong before the epoch only.

*The cached text.*  The variable for the last second starts with the value `-1`, which is
a second like any other: in it, and in no other second, a call finds a cache that was never
filled.

*The digits.*  Before the epoch the remainder is negative unless the time is a whole second,
and as a `uint64_t` it is a number of 20 digits.

## Main definitions

* `HistoryFree` — the result of a call does not depend on the calls before it.
* `Completes`, `Splits` — the digits complete the seconds, and the times where they do.
* `historyFree_iff`, `completes_iff` — when they do.
-/

namespace Papper

open Transition

/-- The specs of a point in time. -/
def PatternFieldFormatSpec.IsTime (spec : PatternFieldFormatSpec) : Prop :=
  spec = .TimeHMS ∨ spec = .TimeHMSf ∨ spec = .TimeHMSF

/-- A call of `process_time_arg<Spec>(arg)` and what it does to the static variables. -/
def timeCall (F : Fmt) (caches : TimeCaches) (call : PatternFieldFormatSpec × ℤ) :
    Option TimeCaches :=
  (processTimeArg F call.1 call.2 caches).map Prod.snd

/-- The arguments a call makes. -/
def timeResult (F : Fmt) (spec : PatternFieldFormatSpec) (arg : ℤ) (caches : TimeCaches) :
    Option (List FmtArg) :=
  (processTimeArg F spec arg caches).map Prod.fst

/-! ## The cached text -/

/-- The result of a call is the same after any two sequences of calls since the start of the
program, and is made of the text of its own second. -/
structure HistoryFree (F : Fmt) (spec : PatternFieldFormatSpec) (arg : ℤ) : Prop where
  same : ∀ as bs caches caches', exec (timeCall F) TimeCaches.init as = some caches →
    exec (timeCall F) TimeCaches.init bs = some caches' →
      timeResult F spec arg caches = timeResult F spec arg caches'
  uncached : ∀ as caches, exec (timeCall F) TimeCaches.init as = some caches →
    timeResult F spec arg caches = timeArgs spec (F.clockText (arg / 10 ^ 9)) arg

section
variable {F : Fmt} {spec : PatternFieldFormatSpec}

/-- Whatever was called before, the caches are current. -/
theorem current_of_exec {as : List (PatternFieldFormatSpec × ℤ)} {caches : TimeCaches}
    (h : exec (timeCall F) TimeCaches.init as = some caches) : caches.Current F := by
  refine exec_induction (TimeCaches.Current F) ?_ (TimeCaches.current_init F) h
  intro c call c' hc hstep
  obtain ⟨⟨args, c''⟩, hcall, rfl⟩ := Option.map_eq_some_iff.mp hstep
  exact processTimeArg_current hc hcall

theorem timeResult_eq (arg : ℤ) (caches : TimeCaches) :
    timeResult F spec arg caches = timeArgs spec ((caches spec).update F arg).hmsPart arg := by
  rw [timeResult, processTimeArg, Option.map_map]
  exact Option.map_id'

/-- The first part of the result is the text handed in. -/
theorem head_timeArgs (hspec : spec.IsTime) (hms : List Char) (arg : ℤ) :
    ∃ rest, timeArgs spec hms arg = some (.text hms :: rest) := by
  rcases hspec with rfl | rfl | rfl
  · exact ⟨_, rfl⟩
  · exact ⟨_, rfl⟩
  · exact ⟨_, rfl⟩

/-- In the last second before the epoch a first call returns the initial text. -/
theorem timeResult_init {arg : ℤ} (harg : arg / 10 ^ 9 = -1) :
    timeResult F spec arg TimeCaches.init = timeArgs spec [] arg := by
  have hsentinel : arg / 10 ^ 9 = (TimeCaches.init spec).lastUpdate := harg
  rw [timeResult_eq, TimeCache.update, if_pos hsentinel]
  rfl

theorem Fmt.Clock.ne_nil (hF : F.Clock) (s : ℤ) : F.clockText s ≠ [] := by
  rw [hF s]
  exact List.ne_nil_of_length_pos (by simp [clockDigits])

/-- **The clock text is free of history exactly outside of the last second before the
epoch.** -/
theorem historyFree_iff (hF : F.Clock) (hspec : spec.IsTime) (arg : ℤ) :
    HistoryFree F spec arg ↔ arg / 10 ^ 9 ≠ -1 := by
  constructor
  · intro h harg
    have hinit := h.uncached [] TimeCaches.init rfl
    rw [timeResult_init harg] at hinit
    obtain ⟨rest, hempty⟩ := head_timeArgs hspec [] arg
    obtain ⟨rest', htext⟩ := head_timeArgs hspec (F.clockText (arg / 10 ^ 9)) arg
    rw [hempty, htext, Option.some.injEq, List.cons.injEq, FmtArg.text.injEq] at hinit
    exact hF.ne_nil _ hinit.1.symm
  · intro harg
    have huncached : ∀ as caches, exec (timeCall F) TimeCaches.init as = some caches →
        timeResult F spec arg caches = timeArgs spec (F.clockText (arg / 10 ^ 9)) arg := by
      intro as caches hexec
      rw [timeResult_eq, (current_of_exec hexec spec).hmsPart_update harg]
    constructor
    · intro as bs caches caches' has hbs
      rw [huncached as caches has, huncached bs caches' hbs]
    · exact huncached

end

/-- A library whose clock text is the time of day. -/
def clockFmt : Fmt := { simpleFmt with clockText := fun s => clockDigits (s % 86400).toNat }

theorem clockFmt_clock : clockFmt.Clock := fun _ => rfl

/-- An hour before the epoch. -/
theorem historyFree_iff_hour :
    HistoryFree clockFmt .TimeHMSF (-3600000000000) ↔ (-3600000000000 : ℤ) / 10 ^ 9 ≠ -1 :=
  historyFree_iff clockFmt_clock (.inr (.inr rfl)) _

/-- Half a second before the epoch: nothing after no call, and the text after a call at
another time. -/
theorem not_historyFree_half :
    timeResult clockFmt .TimeHMS (-500000000) TimeCaches.init = some [.text []] ∧
      (exec (timeCall clockFmt) TimeCaches.init [(.TimeHMS, 0)]).bind
          (timeResult clockFmt .TimeHMS (-500000000)) = some [.text "23:59:59".toList] ∧
      ¬ HistoryFree clockFmt .TimeHMS (-500000000) := by
  refine ⟨by decide +kernel, by decide +kernel, fun h => ?_⟩
  have hinit := h.uncached [] TimeCaches.init rfl
  exact absurd hinit (by decide +kernel)

/-! ## The digits below the second -/

/-- How many digits below the second a spec prints. -/
def PatternFieldFormatSpec.digits : PatternFieldFormatSpec → Option ℕ
  | .TimeHMSf => some 6
  | .TimeHMSF => some 9
  | _ => none

/-- What the expansion of the spec prints of a point in time, when the cache is up to date. -/
def printed (F : Fmt) (spec : PatternFieldFormatSpec) (arg : ℤ) : Option (List Char) :=
  (timeArgs spec (F.clockText (arg / 10 ^ 9)) arg).bind (F.vformat (expansion spec))

/-- The number handed to the library has `w` digits, which with the whole seconds make up
the point in time, as far as `w` digits go, and that is what is printed. -/
def Completes (F : Fmt) (spec : PatternFieldFormatSpec) (w : ℕ) (arg : ℤ) : Prop :=
  ∃ n : ℕ, (∀ hms, timeArgs spec hms arg = some [.text hms, .uint n]) ∧ n < 10 ^ w ∧
    arg / 10 ^ 9 * 10 ^ w + n = arg / 10 ^ (9 - w) ∧
    ∃ digits : List Char, digits.length = w ∧
      printed F spec arg = some (F.clockText (arg / 10 ^ 9) ++ '.' :: digits)

/-- The points in time that are not before the epoch, or are whole seconds. -/
def Splits (arg : ℤ) : Prop := 0 ≤ arg ∨ arg % 10 ^ 9 = 0

theorem tmod_of_splits {arg : ℤ} (h : Splits arg) : arg.tmod (10 ^ 9) = arg % 10 ^ 9 := by
  rcases h with hpos | hwhole
  · exact Int.tmod_eq_emod_of_nonneg hpos
  · rw [hwhole]
    exact Int.tmod_eq_zero_of_dvd (Int.dvd_of_emod_eq_zero hwhole)

/-- Before the epoch a fraction of a second is negative. -/
theorem tmod_neg_of_not_splits {arg : ℤ} (h : ¬ Splits arg) :
    -10 ^ 9 < arg.tmod (10 ^ 9) ∧ arg.tmod (10 ^ 9) < 0 := by
  obtain ⟨hneg, hpart⟩ := not_or.mp h
  have hle := Int.tmod_nonneg (a := -arg) (10 ^ 9) (by omega)
  rw [Int.neg_tmod] at hle
  have hlt := Int.lt_tmod_of_pos arg (b := 10 ^ 9) (by decide)
  have hne : arg.tmod (10 ^ 9) ≠ 0 := by
    intro hzero
    exact hpart (Int.emod_eq_zero_of_dvd (Int.dvd_of_tmod_eq_zero hzero))
  omega

section
variable {F : Fmt} {spec : PatternFieldFormatSpec} {w : ℕ}

theorem timeArgs_digits (hspec : spec.digits = some w) (hms : List Char) (arg : ℤ) :
    timeArgs spec hms arg
      = some [.text hms, .uint (toUInt64 (arg.tmod (10 ^ 9) / 10 ^ (9 - w)))] := by
  cases spec with
  | TimeHMSf =>
      cases hspec
      rfl
  | TimeHMSF =>
      cases hspec
      simp [timeArgs]
  | _ => cases hspec

/-- The expansion of the spec prints the clock text, a point and the digits. -/
theorem vformat_expansion (hF : F.Documented) (hspec : spec.digits = some w) (hms : List Char)
    {n : ℕ} (hn : n < 10 ^ w) :
    F.vformat (expansion spec) [.text hms, .uint n] = some (hms ++ '.' :: fixedDigits w n) := by
  have hw : 1 ≤ w ∧ w ≤ 9 := by cases spec <;> cases hspec <;> decide
  have htext : expansion spec = [Piece.arg, .char '.', .padded w].flatMap Piece.text := by
    cases spec <;> cases hspec <;> rfl
  have hvalid : ∀ p ∈ [Piece.arg, .char '.', .padded w], p.Valid := by
    simp [Piece.Valid, hw]
  have hout := Item.output_time F hw.1 hn hms [] []
  rw [Fmt.output, Option.map_some, List.append_nil] at hout
  rw [htext]
  exact hF.vformat_eq hvalid hout

/-- The number that is printed of a point in time. -/
def fraction (w : ℕ) (arg : ℤ) : ℕ := (arg % 10 ^ 9 / 10 ^ (9 - w)).toNat

theorem fraction_spec (hspec : spec.digits = some w) (arg : ℤ) :
    fraction w arg < 10 ^ w ∧ arg / 10 ^ 9 * 10 ^ w + fraction w arg = arg / 10 ^ (9 - w) := by
  cases spec with
  | TimeHMSf =>
      cases hspec
      simp only [fraction]
      omega
  | TimeHMSF =>
      cases hspec
      simp only [fraction]
      omega
  | _ => cases hspec

theorem timeArgs_of_splits (hspec : spec.digits = some w) {arg : ℤ} (h : Splits arg)
    (hms : List Char) : timeArgs spec hms arg = some [.text hms, .uint (fraction w arg)] := by
  have hmod := tmod_of_splits h
  have hpow : (1 : ℤ) ≤ 10 ^ (9 - w) := by cases spec <;> cases hspec <;> decide
  have hnonneg : 0 ≤ arg % 10 ^ 9 / 10 ^ (9 - w) := Int.ediv_nonneg (by omega) (by omega)
  have hle : arg % 10 ^ 9 / 10 ^ (9 - w) ≤ arg % 10 ^ 9 := Int.ediv_le_self _ (by omega)
  rw [timeArgs_digits hspec, hmod, toUInt64_eq hnonneg (by omega), fraction]

theorem printed_of_splits (hF : F.Documented) (hspec : spec.digits = some w) {arg : ℤ}
    (h : Splits arg) :
    printed F spec arg
      = some (F.clockText (arg / 10 ^ 9) ++ '.' :: fixedDigits w (fraction w arg)) := by
  rw [printed, timeArgs_of_splits hspec h, Option.bind_some]
  exact vformat_expansion hF hspec _ (fraction_spec hspec arg).1

/-- Before the epoch the number has twenty digits. -/
theorem not_completes (hspec : spec.digits = some w) {arg : ℤ} (h : ¬ Splits arg) :
    ¬ Completes F spec w arg := by
  rintro ⟨n, hargs, hn, -⟩
  obtain ⟨hlt, hneg⟩ := tmod_neg_of_not_splits h
  have hfirst := hargs []
  rw [timeArgs_digits hspec, Option.some.injEq, List.cons.injEq, List.cons.injEq,
    FmtArg.uint.injEq] at hfirst
  have hvalue := hfirst.2.1
  cases spec with
  | TimeHMSf =>
      cases hspec
      simp only [toUInt64] at hvalue
      omega
  | TimeHMSF =>
      cases hspec
      simp only [toUInt64] at hvalue
      omega
  | _ => cases hspec

/-- Within one day the texts are ordered as the points in time are. -/
theorem printed_lt_iff (hclock : F.Clock) (hspec : spec.digits = some w) {s t : ℤ}
    (hday : s / (86400 * 10 ^ 9) = t / (86400 * 10 ^ 9)) :
    F.clockText (s / 10 ^ 9) ++ '.' :: fixedDigits w (fraction w s)
        < F.clockText (t / 10 ^ 9) ++ '.' :: fixedDigits w (fraction w t) ↔
      s / 10 ^ (9 - w) < t / 10 ^ (9 - w) := by
  have hs := fraction_spec hspec s
  have ht := fraction_spec hspec t
  have hclockLt := clockDigits_lt_iff (s := (s / 10 ^ 9 % 86400).toNat)
    (t := (t / 10 ^ 9 % 86400).toNat) (by omega) (by omega)
  have hclockGt := clockDigits_lt_iff (s := (t / 10 ^ 9 % 86400).toNat)
    (t := (s / 10 ^ 9 % 86400).toNat) (by omega) (by omega)
  have hclockEq := eq_iff_of_lt_iff hclockLt hclockGt
  have hpoint : ('.' :: fixedDigits w (fraction w s) < '.' :: fixedDigits w (fraction w t)) ↔
      fraction w s < fraction w t := by
    rw [← fixedDigits_lt_iff hs.1 ht.1]
    simp
  rw [hclock, hclock, append_lt_append_iff (by simp [clockDigits]), hclockLt, hclockEq, hpoint]
  cases spec with
  | TimeHMSf =>
      cases hspec
      omega
  | TimeHMSF =>
      cases hspec
      omega
  | _ => cases hspec

/-- **The digits complete the seconds exactly from the epoch on and in whole seconds.**  And
there the texts of two points in time of one day are ordered as these are, as far as the
digits go. -/
theorem completes_iff (hF : F.Documented) (hclock : F.Clock) (hspec : spec.digits = some w) :
    (∀ arg, Completes F spec w arg ↔ Splits arg) ∧
      ∀ s t, Splits s → Splits t → s / (86400 * 10 ^ 9) = t / (86400 * 10 ^ 9) →
        ∃ text text', printed F spec s = some text ∧ printed F spec t = some text' ∧
          (text < text' ↔ s / 10 ^ (9 - w) < t / 10 ^ (9 - w)) := by
  constructor
  · intro arg
    constructor
    · intro h
      by_contra hnot
      exact not_completes hspec hnot h
    · intro h
      obtain ⟨hlt, hsum⟩ := fraction_spec hspec arg
      exact ⟨fraction w arg, timeArgs_of_splits hspec h, hlt, hsum, _, length_fixedDigits _ _,
        printed_of_splits hF hspec h⟩
  · intro s t hs ht hday
    exact ⟨_, _, printed_of_splits hF hspec hs, printed_of_splits hF hspec ht,
      printed_lt_iff hclock hspec hday⟩

end

theorem clockFmt_documented : clockFmt.Documented where
  vformat_eq := by
    intro ps args out hvalid hout
    rw [Fmt.output_congr (F := clockFmt) (G := simpleFmt) rfl] at hout
    exact simpleFmt_documented.vformat_eq hvalid hout
  clockText_eq := by
    intro s
    have hday : ((s : ℤ) % 86400).toNat = s % 86400 := by omega
    have hhour : s % 86400 / 3600 % 24 = s / 3600 % 24 := by omega
    have hmin : s % 86400 / 60 % 60 = s / 60 % 60 := by omega
    have hsec : s % 86400 % 60 = s % 60 := by omega
    simp only [clockFmt, clockDigits, hday, hhour, hmin, hsec]

/-- A whole second before the epoch, and two points in time a nanosecond apart. -/
theorem completes_iff_second :
    Completes clockFmt .TimeHMSF 9 (-1000000000) ∧
      ∃ text text', printed clockFmt .TimeHMSF 58089796341126 = some text ∧
        printed clockFmt .TimeHMSF 58089796341127 = some text' ∧ text < text' := by
  have hdigits : PatternFieldFormatSpec.TimeHMSF.digits = some 9 := rfl
  obtain ⟨hiff, horder⟩ := completes_iff clockFmt_documented clockFmt_clock hdigits
  obtain ⟨text, text', hs, ht, hlt⟩ := horder 58089796341126 58089796341127 (.inl (by decide))
    (.inl (by decide)) (by decide)
  exact ⟨(hiff _).mpr (.inr (by decide)), text, text', hs, ht, hlt.mpr (by decide)⟩

/-- A nanosecond before the epoch. -/
theorem not_completes_nanosecond :
    printed clockFmt .TimeHMSF (-1) = some "23:59:59.18446744073709551615".toList ∧
      ¬ Completes clockFmt .TimeHMSF 9 (-1) :=
  ⟨by decide +kernel, not_completes rfl (by simp [Splits])⟩

end Papper
