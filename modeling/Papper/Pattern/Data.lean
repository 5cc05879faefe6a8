import Mathlib.Data.Int.Notation
import Mathlib.Data.Nat.Notation

/-!
# Levels, fields and the data of one line

The enumerations of `level.h` and `pattern.h`, and `PatternData`, from which a line of
output is made.  A C string or string view is the list of its characters, so a null
pointer is not a value here; a `sys_time` of nanoseconds is its count since the epoch.
-/

namespace Papper

/-- The levels, from the least severe. -/
inductive LogLevel
  | Trace
  | Debug
  | Info
  | Warn
  | Error
  deriving DecidableEq, Repr

namespace LogLevel

/-- The value of the enumerator. -/
def toNat : LogLevel → ℕ
  | Trace => 0
  | Debug => 1
  | Info => 2
  | Warn => 3
  | Error => 4

instance : LT LogLevel := ⟨fun a b => a.toNat < b.toNat⟩

instance (a b : LogLevel) : Decidable (a < b) := inferInstanceAs (Decidable (a.toNat < b.toNat))

end LogLevel

/-- `level_to_name`. -/
def levelToName : LogLevel → List Char
  | .Trace => "TRACE".toList
  | .Debug => "DEBUG".toList
  | .Info => "INFO".toList
  | .Warn => "WARN".toList
  | .Error => "ERROR".toList

/-- What a pattern can print. -/
structure PatternData where
  level : LogLevel
  threadName : List Char
  timestamp : ℤ
  filename : List Char
  functionname : List Char
  linenumber : ℕ
  message : List Char
  deriving DecidableEq

inductive PatternField
  | Level
  | ThreadName
  | Time
  | File
  | Function
  | Line
  | Message
  deriving DecidableEq, Repr

inductive PatternFieldFormatSpec
  | None
  /-- 16:08:09 -/
  | TimeHMS
  /-- 16:08:09.796341 -/
  | TimeHMSf
  /-- 16:08:09.796341126 -/
  | TimeHMSF
  /-- file.txt instead of /home/user/file.txt -/
  | FileNameOnly
  deriving DecidableEq, Repr

end Papper
