import Mathlib.Algebra.Group.Nat.Defs
import Mathlib.Data.Int.Notation
import Mathlib.Data.List.Basic
import Mathlib.Data.Nat.Basic
import Mathlib.Tactic.Common

/-!
# Format strings with automatic arguments

The part of a format-string language that a translator into it can rely on: literal
characters, the two doubled braces, `{}` for the default text of the next argument and
`{:0w}` for an unsigned one padded with zeros.  A format string of this part is the text
of a list of `Piece`s, and `Fmt.output` is what its documentation says it prints.

The formatting library itself is a parameter `F : Fmt`: functions about which nothing is
known but `Fmt.Documented`.  `simpleFmt` is a library of this kind.

## Main definitions

* `FmtArg`, `Fmt` — arguments, and a formatting library.
* `Piece`, `Fmt.output` — the format strings, and what they print.
* `Fmt.Documented` — the library does what is documented for these format strings.
* `Fmt.Clock` — its clock text is the time of day.
* `fixedDigits` — a number in exactly `w` digits.
-/

namespace Papper

/-- An argument of a format string. -/
inductive FmtArg
  | text (s : List Char)
  | uint (n : ℕ)
  /-- A point in time, in nanoseconds since the epoch. -/
  | time (t : ℤ)
  deriving DecidableEq

/-- A formatting library. -/
structure Fmt where
  /-- The formatted text, or nothing when the call throws. -/
  vformat : List Char → List FmtArg → Option (List Char)
  /-- The default text of a point in time. -/
  timeText : ℤ → List Char
  /-- `%H:%M:%S` of a point in time in whole seconds since the epoch. -/
  clockText : ℤ → List Char

/-! ## Numbers -/

def decimal (n : ℕ) : List Char := Nat.toDigits 10 n

/-- With a sign if it is negative. -/
def signedDecimal (n : ℤ) : List Char :=
  if n < 0 then '-' :: decimal n.natAbs else decimal n.natAbs

/-- The number in at least `w` characters, padded with zeros. -/
def zeroPad (w n : ℕ) : List Char := (decimal n).leftpad w '0'

/-- The last `w` decimal digits. -/
def fixedDigits : ℕ → ℕ → List Char
  | 0, _ => []
  | w + 1, n => fixedDigits w (n / 10) ++ [Nat.digitChar (n % 10)]

/-- `HH:MM:SS` of a number of seconds. -/
def clockDigits (s : ℕ) : List Char :=
  fixedDigits 2 (s / 3600 % 24) ++ ':' :: (fixedDigits 2 (s / 60 % 60) ++
    ':' :: fixedDigits 2 (s % 60))

theorem length_decimal_le {w n : ℕ} (hw : 0 < w) (h : n < 10 ^ w) : (decimal n).length ≤ w :=
  (Nat.length_toDigits_le_iff (by decide) hw).mpr h

/-- Padding starts with the digits that are not zero. -/
theorem zeroPad_succ {w n : ℕ} (hw : 0 < w) (h : n < 10 ^ (w + 1)) :
    zeroPad (w + 1) n = zeroPad w (n / 10) ++ [Nat.digitChar (n % 10)] := by
  by_cases hn : n < 10
  · have hquot : n / 10 = 0 := Nat.div_eq_of_lt hn
    obtain ⟨v, rfl⟩ := Nat.exists_eq_succ_of_ne_zero (Nat.pos_iff_ne_zero.mp hw)
    rw [zeroPad, zeroPad, decimal, decimal, hquot, Nat.toDigits_of_lt_base hn,
      Nat.mod_eq_of_lt hn, Nat.toDigits_zero]
    simp [List.leftpad, List.replicate_succ']
  · have hquot : n / 10 < 10 ^ w := by
      rw [Nat.pow_succ] at h
      omega
    have hlen := length_decimal_le hw hquot
    have hdigits : decimal n = decimal (n / 10) ++ [Nat.digitChar (n % 10)] :=
      Nat.toDigits_of_base_le (by decide) (Nat.not_lt.mp hn)
    simp only [zeroPad, List.leftpad, hdigits, List.length_append, List.length_singleton,
      Nat.add_sub_add_right, List.append_assoc]

/-- A number that fits is padded to exactly its digits. -/
theorem zeroPad_eq_fixedDigits {w n : ℕ} (hw : 0 < w) (h : n < 10 ^ w) :
    zeroPad w n = fixedDigits w n := by
  induction w generalizing n with
  | zero => exact absurd hw (Nat.lt_irrefl 0)
  | succ w ih =>
      rcases Nat.eq_zero_or_pos w with rfl | hpos
      · have hn : n < 10 := by simpa using h
        simp [zeroPad, decimal, Nat.toDigits_of_lt_base hn, List.leftpad, fixedDigits,
          Nat.mod_eq_of_lt hn]
      · have hquot : n / 10 < 10 ^ w := by
          rw [Nat.pow_succ] at h
          omega
        rw [zeroPad_succ hpos h, ih hpos hquot, fixedDigits]

/-! ### Their order as texts -/

@[simp] theorem length_fixedDigits (w n : ℕ) : (fixedDigits w n).length = w := by
  induction w generalizing n with
  | zero => rfl
  | succ w ih => rw [fixedDigits, List.length_append, ih, List.length_singleton]

/-- Texts that begin with parts of one length. -/
theorem append_lt_append_iff {as bs cs ds : List Char} (h : as.length = bs.length) :
    as ++ cs < bs ++ ds ↔ as < bs ∨ as = bs ∧ cs < ds := by
  induction as generalizing bs with
  | nil =>
      obtain rfl := List.eq_nil_of_length_eq_zero h.symm
      simp
  | cons a as ih =>
      cases bs with
      | nil => cases h
      | cons b bs =>
          have hrest := ih (Nat.succ.inj h)
          simp only [List.cons_append, List.cons_lt_cons_iff, hrest, List.cons.injEq]
          constructor
          · rintro (hlt | ⟨rfl, hlt | ⟨rfl, hlt⟩⟩)
            · exact .inl (.inl hlt)
            · exact .inl (.inr ⟨rfl, hlt⟩)
            · exact .inr ⟨⟨rfl, rfl⟩, hlt⟩
          · rintro ((hlt | ⟨rfl, hlt⟩) | ⟨⟨rfl, rfl⟩, hlt⟩)
            · exact .inl hlt
            · exact .inr ⟨rfl, .inl hlt⟩
            · exact .inr ⟨rfl, .inr ⟨rfl, hlt⟩⟩

theorem digitChar_lt_iff {m n : ℕ} (hm : m < 10) (hn : n < 10) :
    Nat.digitChar m < Nat.digitChar n ↔ m < n := by
  have hall : ∀ a < 10, ∀ b < 10, Nat.digitChar a < Nat.digitChar b ↔ a < b := by decide
  exact hall m hm n hn

/-- Texts that are ordered like numbers are equal like them. -/
theorem eq_iff_of_lt_iff {f : ℕ → List Char} {m n : ℕ} (hlt : f m < f n ↔ m < n)
    (hgt : f n < f m ↔ n < m) : f m = f n ↔ m = n := by
  constructor
  · intro heq
    rw [heq] at hlt hgt
    have hle := mt hlt.mpr (List.lt_irrefl (f n))
    have hge := mt hgt.mpr (List.lt_irrefl (f n))
    omega
  · intro heq
    rw [heq]

/-- Numbers in the same number of digits are ordered like their texts. -/
theorem fixedDigits_lt_iff {w m n : ℕ} (hm : m < 10 ^ w) (hn : n < 10 ^ w) :
    fixedDigits w m < fixedDigits w n ↔ m < n := by
  induction w generalizing m n with
  | zero =>
      rw [Nat.pow_zero] at hm hn
      have hnot : ¬ m < n := by omega
      simp [fixedDigits, hnot]
  | succ w ih =>
      rw [Nat.pow_succ] at hm hn
      have hhigh := ih (m := m / 10) (n := n / 10) (by omega) (by omega)
      have hlow := ih (m := n / 10) (n := m / 10) (by omega) (by omega)
      have hdigit := digitChar_lt_iff (m := m % 10) (n := n % 10) (by omega) (by omega)
      have hsame := eq_iff_of_lt_iff hhigh hlow
      have hlast : [Nat.digitChar (m % 10)] < [Nat.digitChar (n % 10)] ↔ m % 10 < n % 10 := by
        simp [List.cons_lt_cons_iff, hdigit]
      rw [fixedDigits, fixedDigits, append_lt_append_iff (by simp), hhigh, hsame, hlast]
      omega

/-- Times of day are ordered like their texts. -/
theorem clockDigits_lt_iff {s t : ℕ} (hs : s < 86400) (ht : t < 86400) :
    clockDigits s < clockDigits t ↔ s < t := by
  have hdigits : ∀ {m n : ℕ}, m < 100 → n < 100 →
      (fixedDigits 2 m < fixedDigits 2 n ↔ m < n) ∧ (fixedDigits 2 m = fixedDigits 2 n ↔ m = n) := by
    intro m n hm hn
    have hlt := fixedDigits_lt_iff (w := 2) hm hn
    exact ⟨hlt, eq_iff_of_lt_iff hlt (fixedDigits_lt_iff hn hm)⟩
  have hcolon : ∀ cs ds : List Char, (':' :: cs < ':' :: ds) ↔ cs < ds := by
    intro cs ds
    simp
  have hhour := hdigits (m := s / 3600 % 24) (n := t / 3600 % 24) (by omega) (by omega)
  have hmin := hdigits (m := s / 60 % 60) (n := t / 60 % 60) (by omega) (by omega)
  have hsec := hdigits (m := s % 60) (n := t % 60) (by omega) (by omega)
  rw [clockDigits, clockDigits, append_lt_append_iff (by simp), hcolon,
    append_lt_append_iff (by simp), hcolon, hhour.1, hhour.2, hmin.1, hmin.2, hsec.1]
  omega

/-! ## Pieces -/

/-- A piece of a format string. -/
inductive Piece
  | char (c : Char)
  | openBrace
  | closeBrace
  /-- `{}` -/
  | arg
  /-- `{:0w}` -/
  | padded (w : ℕ)
  deriving DecidableEq

namespace Piece

def text : Piece → List Char
  | char c => [c]
  | openBrace => ['{', '{']
  | closeBrace => ['}', '}']
  | arg => ['{', '}']
  | padded w => ['{', ':', '0', Nat.digitChar w, '}']

/-- The pieces whose text means what it should. -/
def Valid : Piece → Prop
  | char c => c ≠ '{' ∧ c ≠ '}'
  | padded w => 1 ≤ w ∧ w ≤ 9
  | _ => True

end Piece

namespace Fmt
variable (F : Fmt)

/-- The default text of an argument. -/
def argText : FmtArg → List Char
  | .text s => s
  | .uint n => decimal n
  | .time t => F.timeText t

/-- What the pieces print.  Each argument is used once, in order; there is no result
when one is missing, or is not a number where one is padded. -/
def output : List Piece → List FmtArg → Option (List Char)
  | [], _ => some []
  | .char c :: ps, args => (output ps args).map (c :: ·)
  | .openBrace :: ps, args => (output ps args).map ('{' :: ·)
  | .closeBrace :: ps, args => (output ps args).map ('}' :: ·)
  | .arg :: ps, args =>
      match args with
      | a :: args => (output ps args).map (F.argText a ++ ·)
      | [] => none
  | .padded w :: ps, args =>
      match args with
      | .uint n :: args => (output ps args).map (zeroPad w n ++ ·)
      | _ => none

/-- What the pieces print depends on the default text of points in time alone. -/
theorem output_congr {F G : Fmt} (h : F.timeText = G.timeText) (ps : List Piece)
    (args : List FmtArg) : F.output ps args = G.output ps args := by
  have htext : F.argText = G.argText := by
    funext a
    cases a <;> simp [argText, h]
  induction ps generalizing args with
  | nil => rfl
  | cons p ps ih =>
      cases p with
      | arg => cases args <;> simp only [output, ih, htext]
      | padded w =>
          rcases args with _ | ⟨_ | _ | _, args⟩ <;> simp only [output, ih]
      | _ => simp only [output, ih]

/-- The library does what is documented. -/
structure Documented : Prop where
  vformat_eq : ∀ {ps : List Piece} {args : List FmtArg} {out : List Char},
    (∀ p ∈ ps, p.Valid) → F.output ps args = some out →
      F.vformat (ps.flatMap Piece.text) args = some out
  clockText_eq : ∀ s : ℕ, F.clockText s = clockDigits s

/-- `%H:%M:%S` is the time of day, before the epoch too. -/
def Clock : Prop := ∀ s : ℤ, F.clockText s = clockDigits (s % 86400).toNat

end Fmt

/-! ## A formatting library -/

/-- `vformat` for format strings of pieces alone. -/
def simpleVformat : List Char → List FmtArg → Option (List Char)
  | [], _ => some []
  | '{' :: '{' :: cs, args => (simpleVformat cs args).map ('{' :: ·)
  | '}' :: '}' :: cs, args => (simpleVformat cs args).map ('}' :: ·)
  | '{' :: '}' :: cs, .text s :: args => (simpleVformat cs args).map (s ++ ·)
  | '{' :: '}' :: cs, .uint n :: args => (simpleVformat cs args).map (decimal n ++ ·)
  | '{' :: '}' :: cs, .time t :: args => (simpleVformat cs args).map (decimal t.toNat ++ ·)
  | '{' :: ':' :: '0' :: c :: '}' :: cs, .uint n :: args =>
      (simpleVformat cs args).map (zeroPad (c.toNat - '0'.toNat) n ++ ·)
  | c :: cs, args =>
      if c = '{' ∨ c = '}' then none else (simpleVformat cs args).map (c :: ·)

def simpleFmt : Fmt where
  vformat := simpleVformat
  timeText t := decimal t.toNat
  clockText s := clockDigits s.toNat

theorem simpleVformat_char {c : Char} (hopen : c ≠ '{') (hclose : c ≠ '}') (cs : List Char)
    (args : List FmtArg) : simpleVformat (c :: cs) args = (simpleVformat cs args).map (c :: ·) := by
  rw [simpleVformat.eq_def]
  split <;> simp_all

theorem simpleVformat_arg (a : FmtArg) (cs : List Char) (args : List FmtArg) :
    simpleVformat ('{' :: '}' :: cs) (a :: args)
      = (simpleVformat cs args).map (simpleFmt.argText a ++ ·) := by
  cases a <;> simp [simpleVformat, Fmt.argText, simpleFmt]

theorem toNat_digitChar_sub {w : ℕ} (h : w ≤ 9) : (Nat.digitChar w).toNat - 48 = w := by
  have hall : ∀ v ≤ 9, (Nat.digitChar v).toNat - 48 = v := by decide
  exact hall w h

theorem simpleFmt_documented : simpleFmt.Documented where
  vformat_eq := by
    intro ps
    induction ps with
    | nil => intro args out _ h; exact h
    | cons p ps ih =>
        intro args out hvalid h
        have hp := hvalid p List.mem_cons_self
        have hps : ∀ q ∈ ps, q.Valid := fun q hq => hvalid q (List.mem_cons_of_mem _ hq)
        rw [List.flatMap_cons]
        cases p with
        | char c =>
            obtain ⟨out', hout, rfl⟩ := Option.map_eq_some_iff.mp h
            simp only [Piece.text, List.singleton_append, simpleFmt]
            rw [simpleVformat_char hp.1 hp.2, ← Option.map_some, ← ih hps hout]
            rfl
        | openBrace =>
            obtain ⟨out', hout, rfl⟩ := Option.map_eq_some_iff.mp h
            have hrest := ih hps hout
            simp only [simpleFmt] at hrest
            simp [Piece.text, simpleFmt, simpleVformat, hrest]
        | closeBrace =>
            obtain ⟨out', hout, rfl⟩ := Option.map_eq_some_iff.mp h
            have hrest := ih hps hout
            simp only [simpleFmt] at hrest
            simp [Piece.text, simpleFmt, simpleVformat, hrest]
        | arg =>
            cases args with
            | nil => simp only [Fmt.output, reduceCtorEq] at h
            | cons a args =>
                obtain ⟨out', hout, rfl⟩ := Option.map_eq_some_iff.mp h
                have hrest := ih hps hout
                simp only [Piece.text, List.cons_append, List.nil_append]
                exact (simpleVformat_arg a _ args).trans (by rw [← Option.map_some, ← hrest]; rfl)
        | padded w =>
            cases args with
            | nil => simp only [Fmt.output, reduceCtorEq] at h
            | cons a args =>
                cases a with
                | text s => simp only [Fmt.output, reduceCtorEq] at h
                | time t => simp only [Fmt.output, reduceCtorEq] at h
                | uint n =>
                    obtain ⟨out', hout, rfl⟩ := Option.map_eq_some_iff.mp h
                    have hrest := ih hps hout
                    simp only [simpleFmt] at hrest
                    simp [Piece.text, simpleFmt, simpleVformat, hrest, toNat_digitChar_sub hp.2]
  clockText_eq := fun s => by simp [simpleFmt]

end Papper
