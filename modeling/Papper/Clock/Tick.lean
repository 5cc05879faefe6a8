import Mathlib.Data.List.Infix
import Papper.Clock.Convert
import Papper.Lib.CString

/-!
# The length of a tick

`Clock::init` asks the processor how long a tick of its counter is.  An x86 processor may say so in
a leaf of `cpuid`, or have it written in its name as in "CPU @ 3.20GHz"; otherwise the counter is
watched for ten milliseconds.

The name is put together in a buffer of 256 characters from as many leaves as an Intel processor
says there are, trimmed in place, and searched backwards for the number.  What `cpuid` returns is a
parameter, so all of this runs on whatever a processor or a virtual machine may answer.

The tick is a quotient of doubles.  It is so near to what the processor says that the times of
events are near to local time as well, which is what `exec_near` says of a tick that is exact.

## Main definitions

* `Cpu` — what the processor answers.
* `cpuModelName`, `extractTickTimeFromName`, `getTscNsPerTick` — the functions of the source; one
  that leaves its buffer has no result.
* `modelName`, `exactTick` — what they are for.
* `getTscNsPerTick_eq_none_iff` — when a buffer is left.
* `Cpu.init` — `Clock::init`, and `exec_near_exactTick` — from the processor to local time.
-/

namespace Papper

open Binary64 CString Memory

/-- `cpuid_t`. -/
structure CpuidT where
  eax : UInt32
  ebx : UInt32
  ecx : UInt32
  edx : UInt32
  deriving DecidableEq

/-- The registers as the processor stores them. -/
def CpuidT.bytes (r : CpuidT) : List Byte :=
  [r.eax, r.ebx, r.ecx, r.edx].flatMap fun v => littleEndian 4 v.toNat

@[simp] theorem CpuidT.length_bytes (r : CpuidT) : r.bytes.length = 16 := by
  simp [CpuidT.bytes]

/-- What the probe asks for. -/
structure Cpu where
  /-- The registers by leaf; the subleaf is zero everywhere. -/
  cpuid : UInt32 → CpuidT
  /-- The number a string starts with, which is a finite one. -/
  strtod : List Byte → ℚ
  /-- The counter before and after ten milliseconds. -/
  startTick : UInt64
  endTick : UInt64
  moves : startTick ≠ endTick

namespace Cpu

def blank : Byte := 0x20

def genuineIntel : List Byte :=
  ['G', 'e', 'n', 'u', 'i', 'n', 'e', 'I', 'n', 't', 'e', 'l'].map Char.toUInt8

def authenticAMD : List Byte :=
  ['A', 'u', 't', 'h', 'e', 'n', 't', 'i', 'c', 'A', 'M', 'D'].map Char.toUInt8

def apple : List Byte := ['A', 'p', 'p', 'l', 'e'].map Char.toUInt8

variable (cpu : Cpu)

/-- Twelve characters, and the zero that the code writes behind them. -/
def cpuBrandName : List Byte :=
  let info := cpu.cpuid 0
  ([info.ebx, info.edx, info.ecx].flatMap fun v => littleEndian 4 v.toNat).takeWhile (· != 0)

def onIntel : Bool := cpu.cpuBrandName == genuineIntel

def onAmd : Bool := cpu.cpuBrandName == authenticAMD

/-- The body of `cpu_model_name`, with the number of leaves. -/
def readModelName (ids : ℕ) : Option (List Byte) := do
  let brand ← (List.range ids).foldlM (fun brand i =>
    store brand (i * 16) (cpu.cpuid (UInt32.ofNat i + 0x80000002)).bytes) (List.replicate 256 0)
  let string ← text brand
  let start ← skipLeading blank (clearTrailing blank brand (string.length - 1))
  text start

/-- `cpuinfo.eax ^ 0x80000000`, the number of turns of a loop from zero to it as an `int`. -/
def intelIds : ℕ := ((cpu.cpuid 0x80000000).eax ^^^ 0x80000000).toInt32.toInt.toNat

def cpuModelName : Option (List Byte) :=
  if cpu.onAmd then cpu.readModelName 3
  else if cpu.onIntel then cpu.readModelName cpu.intelIds
  else some cpu.cpuBrandName

/-- Whether "Apple" is somewhere in the name. -/
def onAppleRosetta : Option Bool := cpu.cpuModelName.map fun name => decide (apple <:+: name)

/-- The registers are exact as doubles. -/
def extractTickTimeFromLeaf15h : Option ℚ :=
  if (cpu.cpuid 0).eax < 0x15 then none
  else
    let info := cpu.cpuid 0x15
    if info.ebx = 0 ∨ info.ecx = 0 then none
    else
      some (rnd (rnd (1000000000 * info.eax.toNat) / rnd (info.ebx.toNat * info.ecx.toNat)))

/-- `multiplier`, by the character before "Hz". -/
def multiplier (c : Byte) : Option ℕ :=
  if c = 'M'.toUInt8 then some 1000000
  else if c = 'G'.toUInt8 then some 1000000000
  else if c = 'T'.toUInt8 then some 1000000000000
  else none

/-- The inner result is that of the function. -/
def extractTickTimeFromName : Option (Option ℚ) := do
  let brand ← cpu.cpuModelName
  -- `end` is three characters before the zero, wherever the name starts
  let last ← if brand.length < 3 then none else some (brand.length - 3)
  match multiplier (← brand[last]?) with
  | none => some none
  | some multiplier =>
    let stop ← scanBack blank brand last
    let freq := cpu.strtod (brand.drop (stop + 1))
    if freq = 0 then some none
    else some (some (rnd (1000000000 / rnd (freq * multiplier))))

def measureTscTick : ℚ := rnd (10000000 / rnd (cpu.endTick - cpu.startTick).toNat)

/-- The inner result is that of the function: without it the processor has no counter to rely on. -/
def getTscNsPerTick : Option (Option ℚ) :=
  if (cpu.cpuid 0x80000000).eax < 0x80000007 then some none
  else if ((cpu.cpuid 0x80000007).edx &&& (1 : UInt32) <<< 8) = 0 then some none
  else match cpu.extractTickTimeFromLeaf15h with
    | some time => some (some time)
    | none =>
      if cpu.onIntel then do
        if ← cpu.onAppleRosetta then
          some (some cpu.measureTscTick)
        else
          match ← cpu.extractTickTimeFromName with
          | some time => some (some time)
          | none => some (some cpu.measureTscTick)
      else some (some cpu.measureTscTick)

/-! ## The name -/

/-- The registers of the leaves, one after another. -/
def leaves (ids : ℕ) : List Byte :=
  (List.range ids).flatMap fun i => (cpu.cpuid (UInt32.ofNat i + 0x80000002)).bytes

/-- They fit the buffer, with a zero. -/
def LeavesFit (ids : ℕ) : Prop := ids < 16 ∨ ids = 16 ∧ 0 ∈ cpu.leaves ids

instance (ids : ℕ) : Decidable (cpu.LeavesFit ids) :=
  inferInstanceAs (Decidable (_ ∨ _ ∧ _))

/-- The name in the leaves, without the blanks around it. -/
def nameIn (ids : ℕ) : List Byte := trimmed blank ((cpu.leaves ids).takeWhile (· != 0))

variable {cpu} {ids : ℕ}

/-- The buffer after the loop. -/
theorem foldlM_leaves (ids : ℕ) :
    (List.range ids).foldlM (fun brand i =>
        store brand (i * 16) (cpu.cpuid (UInt32.ofNat i + 0x80000002)).bytes)
        (List.replicate 256 0)
      = if ids ≤ 16 then some (cpu.leaves ids ++ List.replicate (256 - ids * 16) 0) else none := by
  rw [foldlM_store (fun i => CpuidT.length_bytes _) (by norm_num), List.length_replicate,
    List.drop_replicate, leaves]
  exact if_congr (by omega) rfl rfl

theorem spells_leaves (h : cpu.LeavesFit ids) :
    Spells (cpu.leaves ids ++ List.replicate (256 - ids * 16) 0)
      ((cpu.leaves ids).takeWhile (· != 0)) := by
  have hzero : 0 ∈ cpu.leaves ids ++ List.replicate (256 - ids * 16) 0 := by
    rcases h with h | h
    · exact List.mem_append_right _ (List.mem_replicate.mpr ⟨by omega, rfl⟩)
    · exact List.mem_append_left _ h.2
  have htake : (cpu.leaves ids ++ List.replicate (256 - ids * 16) 0).takeWhile (· != 0)
      = (cpu.leaves ids).takeWhile (· != 0) := by
    rw [List.takeWhile_append, List.takeWhile_replicate]
    split
    · rename_i hall
      rw [(List.takeWhile_prefix (· != 0)).eq_of_length hall]
      simp
    · rfl
  exact htake ▸ spells_takeWhile hzero

/-- **The name is read as it is meant**, in any number of leaves that fit. -/
theorem readModelName_eq (h : cpu.LeavesFit ids) :
    cpu.readModelName ids = some (cpu.nameIn ids) := by
  have hids : ids ≤ 16 := by rcases h with h | h <;> omega
  have hspells := spells_leaves h
  obtain ⟨start, hskip, hstart⟩ := spells_trimmed (c := blank) (by decide) hspells
  rw [readModelName, foldlM_leaves, if_pos hids]
  simp only [Option.bind_eq_bind, Option.bind_some, text_of_spells hspells, hskip,
    text_of_spells hstart, nameIn]

theorem readModelName_eq_none (h : ¬ cpu.LeavesFit ids) : cpu.readModelName ids = none := by
  rw [LeavesFit, not_or, not_and] at h
  rw [readModelName, foldlM_leaves]
  split
  · rename_i hids
    obtain rfl : ids = 16 := by omega
    have hnone : text (cpu.leaves 16) = none := text_eq_none_iff.mpr (h.2 rfl)
    simp [hnone]
  · rfl

/-- What `cpu_model_name` is for. -/
def modelName (cpu : Cpu) : List Byte :=
  if cpu.onAmd then cpu.nameIn 3
  else if cpu.onIntel then cpu.nameIn cpu.intelIds
  else cpu.cpuBrandName

theorem onAmd_of_onIntel (h : cpu.onIntel) : cpu.onAmd = false := by
  rw [onIntel, beq_iff_eq] at h
  rw [onAmd, h]
  decide

theorem cpuModelName_eq (h : cpu.onIntel → cpu.LeavesFit cpu.intelIds) :
    cpu.cpuModelName = some cpu.modelName := by
  simp only [cpuModelName, modelName]
  split
  · exact readModelName_eq (.inl (by norm_num))
  · split
    · rename_i hintel
      exact readModelName_eq (h hintel)
    · rfl

theorem cpuModelName_eq_none (hintel : cpu.onIntel) (h : ¬ cpu.LeavesFit cpu.intelIds) :
    cpu.cpuModelName = none := by
  rw [cpuModelName, onAmd_of_onIntel hintel, if_neg Bool.false_ne_true, if_pos hintel]
  exact readModelName_eq_none h

/-! ## The number in the name -/

/-- What the unit at the end multiplies by. -/
def unit (name : List Byte) : Option ℕ := name[name.length - 3]?.bind multiplier

/-- The number: from the last blank before the unit on. -/
def number (name : List Byte) : List Byte :=
  (name.take (name.length - 2)).rtakeWhile (· != blank) ++ name.drop (name.length - 2)

/-- There is room for a unit, and a blank before the number. -/
def Searchable (name : List Byte) : Prop :=
  3 ≤ name.length ∧ (unit name ≠ none → blank ∈ name.take (name.length - 2))

instance (name : List Byte) : Decidable (Searchable name) := inferInstanceAs (Decidable (_ ∧ _))

theorem extractTickTimeFromName_eq (hname : cpu.cpuModelName = some cpu.modelName)
    (h : Searchable cpu.modelName) :
    cpu.extractTickTimeFromName = some ((unit cpu.modelName).bind fun multiplier =>
      let freq := cpu.strtod (number cpu.modelName)
      if freq = 0 then none else some (rnd (1000000000 / rnd (freq * multiplier)))) := by
  obtain ⟨hlength, hblank⟩ := h
  have hlast : cpu.modelName.length - 3 < cpu.modelName.length := by omega
  have hsucc : cpu.modelName.length - 3 + 1 = cpu.modelName.length - 2 := by omega
  obtain ⟨c, hc⟩ := exists_getElem? hlast
  have hunit : unit cpu.modelName = multiplier c := by rw [unit, hc, Option.bind_some]
  rw [hunit] at hblank ⊢
  simp only [extractTickTimeFromName, hname, Option.bind_eq_bind, Option.bind_some,
    if_neg (show ¬ cpu.modelName.length < 3 by omega), hc]
  cases hmultiplier : multiplier c with
  | none => rfl
  | some m =>
    have hsome : scanBack blank cpu.modelName (cpu.modelName.length - 3) ≠ none := by
      rw [Ne, scanBack_eq_none_iff hlast, hsucc, not_not]
      exact hblank (by simp [hmultiplier])
    obtain ⟨stop, hstop⟩ := Option.ne_none_iff_exists'.mp hsome
    have hdrop := drop_of_scanBack hlast hstop
    rw [hsucc] at hdrop
    simp only [hstop, Option.bind_some, hdrop, number]
    exact (apply_ite some _ _ _).symm

theorem extractTickTimeFromName_eq_none (hname : cpu.cpuModelName = some cpu.modelName)
    (h : ¬ Searchable cpu.modelName) : cpu.extractTickTimeFromName = none := by
  simp only [extractTickTimeFromName, hname, Option.bind_eq_bind, Option.bind_some]
  by_cases hlength : cpu.modelName.length < 3
  · rw [if_pos hlength]
    rfl
  · have hlast : cpu.modelName.length - 3 < cpu.modelName.length := by omega
    have hsucc : cpu.modelName.length - 3 + 1 = cpu.modelName.length - 2 := by omega
    obtain ⟨c, hc⟩ := exists_getElem? hlast
    obtain ⟨hunit, hblank⟩ : unit cpu.modelName ≠ none ∧
        blank ∉ cpu.modelName.take (cpu.modelName.length - 2) := by
      rw [Searchable, not_and, Classical.not_imp] at h
      exact h (by omega)
    rw [unit, hc, Option.bind_some] at hunit
    obtain ⟨m, hm⟩ := Option.ne_none_iff_exists'.mp hunit
    have hnone : scanBack blank cpu.modelName (cpu.modelName.length - 3) = none := by
      rw [scanBack_eq_none_iff hlast, hsucc]
      exact hblank
    simp [hlength, hc, hm, hnone]

/-! ## The probe -/

/-- The processor tells that it has a counter of a constant rate. -/
def HasInvariantTsc (cpu : Cpu) : Prop :=
  0x80000007 ≤ (cpu.cpuid 0x80000000).eax ∧ (cpu.cpuid 0x80000007).edx &&& (1 : UInt32) <<< 8 ≠ 0

/-- Leaf 15h gives the rate. -/
def Enumerates (cpu : Cpu) : Prop :=
  0x15 ≤ (cpu.cpuid 0).eax ∧ (cpu.cpuid 0x15).ebx ≠ 0 ∧ (cpu.cpuid 0x15).ecx ≠ 0

instance : Decidable cpu.HasInvariantTsc := inferInstanceAs (Decidable (_ ∧ _))

instance : Decidable cpu.Enumerates := inferInstanceAs (Decidable (_ ∧ _ ∧ _))

/-- What the name or else the counter says, with a rounding after each operation. -/
def foundTick (cpu : Cpu) (round : ℚ → ℚ) : ℚ :=
  let named := if cpu.onIntel ∧ ¬ apple <:+: cpu.modelName then
    (unit cpu.modelName).bind fun multiplier =>
      let freq := cpu.strtod (number cpu.modelName)
      if freq = 0 then none else some (round (1000000000 / round (freq * multiplier)))
  else none
  named.getD (round (10000000 / round (cpu.endTick - cpu.startTick).toNat))

/-- The nanoseconds of a tick, with a rounding after each operation. -/
def tickWith (cpu : Cpu) (round : ℚ → ℚ) : ℚ :=
  if cpu.Enumerates then
    round (round (1000000000 * (cpu.cpuid 0x15).eax.toNat) /
      round ((cpu.cpuid 0x15).ebx.toNat * (cpu.cpuid 0x15).ecx.toNat))
  else cpu.foundTick round

/-- As the processor has it. -/
def exactTick (cpu : Cpu) : ℚ := cpu.tickWith id

/-- What the reads and writes around the name need. -/
structure NameInBuffers (cpu : Cpu) : Prop where
  leaves : cpu.LeavesFit cpu.intelIds
  name : ¬ apple <:+: cpu.modelName → Searchable cpu.modelName

/-- The probe, once the leaf has said nothing. -/
theorem extractTickTimeFromLeaf15h_eq (cpu : Cpu) :
    cpu.extractTickTimeFromLeaf15h = if cpu.Enumerates then some (cpu.tickWith rnd) else none := by
  rw [tickWith]
  simp only [extractTickTimeFromLeaf15h, Enumerates, ← UInt32.not_lt]
  grind

theorem getTscNsPerTick_of_not (h : ¬ cpu.HasInvariantTsc) : cpu.getTscNsPerTick = some none := by
  rw [HasInvariantTsc, not_and_or, UInt32.not_le, not_not] at h
  rw [getTscNsPerTick]
  rcases h with hmax | hbit
  · rw [if_pos hmax]
  · rw [if_pos hbit, ite_self]

theorem getTscNsPerTick_of_enumerates (htsc : cpu.HasInvariantTsc) (h : cpu.Enumerates) :
    cpu.getTscNsPerTick = some (some (cpu.tickWith rnd)) := by
  rw [getTscNsPerTick, if_neg (UInt32.not_lt.mpr htsc.1), if_neg htsc.2,
    extractTickTimeFromLeaf15h_eq, if_pos h]

theorem getTscNsPerTick_of_not_onIntel (htsc : cpu.HasInvariantTsc) (hleaf : ¬ cpu.Enumerates)
    (h : ¬ cpu.onIntel) : cpu.getTscNsPerTick = some (some (cpu.tickWith rnd)) := by
  rw [getTscNsPerTick, if_neg (UInt32.not_lt.mpr htsc.1), if_neg htsc.2,
    extractTickTimeFromLeaf15h_eq, if_neg hleaf, tickWith, if_neg hleaf]
  simp [foundTick, h, measureTscTick]

/-- What is left is the name. -/
theorem getTscNsPerTick_of_onIntel (htsc : cpu.HasInvariantTsc) (hleaf : ¬ cpu.Enumerates)
    (hintel : cpu.onIntel) :
    cpu.getTscNsPerTick = cpu.onAppleRosetta.bind fun rosetta =>
      if rosetta then some (some cpu.measureTscTick)
      else cpu.extractTickTimeFromName.bind fun time =>
        some (some (time.getD cpu.measureTscTick)) := by
  rw [getTscNsPerTick, if_neg (UInt32.not_lt.mpr htsc.1), if_neg htsc.2,
    extractTickTimeFromLeaf15h_eq, if_neg hleaf, if_pos hintel]
  refine Option.bind_congr fun rosetta _ => ?_
  cases rosetta with
  | true => rfl
  | false =>
    refine Option.bind_congr fun time _ => ?_
    cases time <;> rfl

theorem getTscNsPerTick_of_inBuffers (htsc : cpu.HasInvariantTsc) (hleaf : ¬ cpu.Enumerates)
    (hintel : cpu.onIntel) (h : cpu.NameInBuffers) :
    cpu.getTscNsPerTick = some (some (cpu.tickWith rnd)) := by
  have hname : cpu.cpuModelName = some cpu.modelName := cpuModelName_eq fun _ => h.leaves
  rw [getTscNsPerTick_of_onIntel htsc hleaf hintel, onAppleRosetta, hname, tickWith, if_neg hleaf,
    foundTick]
  by_cases happle : apple <:+: cpu.modelName
  · simp [happle, measureTscTick]
  · simp [happle, hintel, extractTickTimeFromName_eq hname (h.name happle), measureTscTick]

theorem getTscNsPerTick_of_not_inBuffers (htsc : cpu.HasInvariantTsc) (hleaf : ¬ cpu.Enumerates)
    (hintel : cpu.onIntel) (h : ¬ cpu.NameInBuffers) : cpu.getTscNsPerTick = none := by
  rw [getTscNsPerTick_of_onIntel htsc hleaf hintel, onAppleRosetta]
  by_cases hleaves : cpu.LeavesFit cpu.intelIds
  · have hname : cpu.cpuModelName = some cpu.modelName := cpuModelName_eq fun _ => hleaves
    obtain ⟨happle, hsearch⟩ : ¬ apple <:+: cpu.modelName ∧ ¬ Searchable cpu.modelName := by
      by_contra hcon
      exact h ⟨hleaves, fun happle => by_contra fun hsearch => hcon ⟨happle, hsearch⟩⟩
    simp [hname, happle, extractTickTimeFromName_eq_none hname hsearch]
  · simp [cpuModelName_eq_none hintel hleaves]

/-- An Intel processor that does not enumerate its rate, with a name that does not fit. -/
def NameLeavesBuffers (cpu : Cpu) : Prop :=
  ¬ cpu.Enumerates ∧ cpu.onIntel ∧ ¬ cpu.NameInBuffers

/-- All that the probe can come to. -/
theorem getTscNsPerTick_cases (cpu : Cpu) :
    ¬ cpu.HasInvariantTsc ∧ cpu.getTscNsPerTick = some none ∨
      cpu.HasInvariantTsc ∧ cpu.NameLeavesBuffers ∧ cpu.getTscNsPerTick = none ∨
      cpu.HasInvariantTsc ∧ ¬ cpu.NameLeavesBuffers ∧
        cpu.getTscNsPerTick = some (some (cpu.tickWith rnd)) := by
  by_cases htsc : cpu.HasInvariantTsc
  swap
  · exact .inl ⟨htsc, getTscNsPerTick_of_not htsc⟩
  right
  by_cases hleaf : cpu.Enumerates
  · exact .inr ⟨htsc, fun h => h.1 hleaf, getTscNsPerTick_of_enumerates htsc hleaf⟩
  by_cases hintel : cpu.onIntel
  swap
  · exact .inr ⟨htsc, fun h => hintel h.2.1, getTscNsPerTick_of_not_onIntel htsc hleaf hintel⟩
  by_cases hname : cpu.NameInBuffers
  · exact .inr ⟨htsc, fun h => h.2.2 hname,
      getTscNsPerTick_of_inBuffers htsc hleaf hintel hname⟩
  · exact .inl ⟨htsc, ⟨hleaf, hintel, hname⟩,
      getTscNsPerTick_of_not_inBuffers htsc hleaf hintel hname⟩

theorem eq_of_getTscNsPerTick {tick : ℚ} (h : cpu.getTscNsPerTick = some (some tick)) :
    tick = cpu.tickWith rnd := by
  rcases getTscNsPerTick_cases cpu with ⟨-, hnone⟩ | ⟨-, -, hnone⟩ | ⟨-, -, hsome⟩
  · simp [hnone] at h
  · simp [hnone] at h
  · simpa [hsome] using h.symm

/-- **When a buffer is left**: on an Intel processor that has a counter to rely on and does not
enumerate its rate, if it says that its name is longer than the buffer, or if the name is shorter
than a unit or ends in one without a blank before the number. -/
theorem getTscNsPerTick_eq_none_iff (cpu : Cpu) :
    cpu.getTscNsPerTick = none ↔ cpu.HasInvariantTsc ∧ cpu.NameLeavesBuffers := by
  rcases getTscNsPerTick_cases cpu with ⟨htsc, h⟩ | ⟨htsc, hname, h⟩ | ⟨htsc, hname, h⟩
  · simp [h, htsc]
  · simp [h, htsc, hname]
  · simp [h, hname]

/-- A virtual processor whose name is nothing but "2.40GHz". -/
example : (Cpu.mk
    (fun leaf =>
      if leaf = 0 then ⟨0x0d, 0x756e6547, 0x6c65746e, 0x49656e69⟩
      else if leaf = 0x80000000 then ⟨0x80000008, 0, 0, 0⟩
      else if leaf = 0x80000002 then ⟨0x30342e32, 0x007a4847, 0, 0⟩
      else if leaf = 0x80000007 then ⟨0, 0, 0, 0x100⟩
      else ⟨0, 0, 0, 0⟩)
    (fun _ => 12 / 5) 0 1 (by decide)).getTscNsPerTick = none := by
  decide +kernel

/-! ## The tick as a double -/

/-- Not small, and found to within a part in `2 ^ 51`. -/
structure Accurate (exact tick : ℚ) : Prop where
  normal : 2 ^ (-200 : ℤ) ≤ exact
  error : |tick - exact| ≤ exact / 2 ^ 51

theorem Accurate.of_div {x y x' y' : ℚ} (hx : 1 ≤ x) (hy : 0 < y) (hle : y ≤ 2 ^ 200)
    (hx' : |x' - x| ≤ x / 2 ^ 53) (hy' : |y' - y| ≤ y / 2 ^ 53) :
    Accurate (x / y) (rnd (x' / y')) := by
  have hxpos : 0 < x := by linarith
  have hpos : 0 < x / y := div_pos hxpos hy
  have hquot : (2 : ℚ) ^ (-200 : ℤ) ≤ x / y := by
    calc (2 : ℚ) ^ (-200 : ℤ) = 1 / 2 ^ 200 := by norm_num
      _ ≤ 1 / y := one_div_le_one_div_of_le hy hle
      _ ≤ x / y := div_le_div_of_nonneg_right hx hy.le
  have hnormal : (2 : ℚ) ^ (-1021 : ℤ) ≤ |x / y| := by
    rw [abs_of_pos hpos]
    exact (zpow_le_zpow_right₀ one_le_two (by norm_num)).trans hquot
  have herror := abs_rnd_div_sub_le hy.ne' (by rwa [abs_of_pos hxpos]) (by rwa [abs_of_pos hy])
    (.inr hnormal)
  rw [abs_of_pos hpos] at herror
  exact ⟨hquot, herror⟩

/-- What the processor says is nothing that a counter cannot have. -/
structure Plausible (cpu : Cpu) : Prop where
  eax_ne : cpu.Enumerates → (cpu.cpuid 0x15).eax ≠ 0
  freq : cpu.strtod (number cpu.modelName) = 0 ∨
    2 ^ (-100 : ℤ) ≤ cpu.strtod (number cpu.modelName) ∧
      cpu.strtod (number cpu.modelName) ≤ 2 ^ 100

theorem toNat_pos {n : UInt32} (h : n ≠ 0) : 0 < n.toNat :=
  Nat.pos_of_ne_zero fun hzero => h (UInt32.toNat_inj.mp hzero)

theorem multiplier_mem {c : Byte} {m : ℕ} (h : multiplier c = some m) : 1 ≤ m ∧ m ≤ 2 ^ 40 := by
  unfold multiplier at h
  split_ifs at h <;> cases h <;> norm_num

theorem accurate_measureTscTick (cpu : Cpu) :
    Accurate (10000000 / (cpu.endTick - cpu.startTick).toNat) cpu.measureTscTick := by
  have hpos : 0 < (cpu.endTick - cpu.startTick).toNat := by
    have hne : cpu.startTick.toNat ≠ cpu.endTick.toNat :=
      fun heq => cpu.moves (UInt64.toNat_inj.mp heq)
    have hstart := cpu.startTick.toNat_lt
    have hend := cpu.endTick.toNat_lt
    rw [UInt64.toNat_sub]
    omega
  have hlt := (cpu.endTick - cpu.startTick).toNat_lt
  have hle : (cpu.endTick - cpu.startTick).toNat ≤ 2 ^ 200 := by omega
  exact .of_div (by norm_num) (by exact_mod_cast hpos) (by exact_mod_cast hle) (by norm_num)
    (abs_rnd_natCast_sub_le _)

theorem accurate_named {freq : ℚ} {m : ℕ} (hlow : 2 ^ (-100 : ℤ) ≤ freq) (hhigh : freq ≤ 2 ^ 100)
    (hm : 1 ≤ m ∧ m ≤ 2 ^ 40) :
    Accurate (1000000000 / (freq * m)) (rnd (1000000000 / rnd (freq * m))) := by
  have hone : (1 : ℚ) ≤ m := by exact_mod_cast hm.1
  have htop : (m : ℚ) ≤ 2 ^ 40 := by exact_mod_cast hm.2
  have hpos : 0 < freq := (two_zpow_pos _).trans_le hlow
  have hproduct : 0 < freq * m := mul_pos hpos (by linarith)
  have hnormal : (2 : ℚ) ^ (-1022 : ℤ) ≤ |freq * m| := by
    have hsmall : (2 : ℚ) ^ (-1022 : ℤ) ≤ 2 ^ (-100 : ℤ) :=
      zpow_le_zpow_right₀ one_le_two (by norm_num)
    rw [abs_of_pos hproduct]
    exact (hsmall.trans hlow).trans (le_mul_of_one_le_right hpos.le hone)
  have hround := abs_rnd_sub_le_mul (.inr hnormal)
  rw [abs_of_pos hproduct] at hround
  have hle : freq * m ≤ 2 ^ 200 := by
    calc freq * m ≤ 2 ^ 100 * 2 ^ 40 := mul_le_mul hhigh htop (by linarith) (by norm_num)
      _ ≤ 2 ^ 200 := by norm_num
  exact .of_div (by norm_num) hproduct hle (by norm_num) hround

theorem accurate_foundTick (h : cpu.Plausible) :
    Accurate (cpu.foundTick id) (cpu.foundTick rnd) := by
  by_cases hname : cpu.onIntel ∧ ¬ apple <:+: cpu.modelName
  · simp only [foundTick, if_pos hname]
    cases hunit : unit cpu.modelName with
    | none => exact accurate_measureTscTick cpu
    | some m =>
      rcases h.freq with hzero | ⟨hlow, hhigh⟩
      · simp only [hzero, Option.bind_some, if_true]
        exact accurate_measureTscTick cpu
      · obtain ⟨c, -, hc⟩ := Option.bind_eq_some_iff.mp hunit
        have hne : cpu.strtod (number cpu.modelName) ≠ 0 := ((two_zpow_pos _).trans_le hlow).ne'
        simp only [Option.bind_some, if_neg hne]
        exact accurate_named hlow hhigh (multiplier_mem hc)
  · simp only [foundTick, if_neg hname]
    exact accurate_measureTscTick cpu

/-- **The tick is what the processor says**, but for the rounding. -/
theorem accurate_tickWith (h : cpu.Plausible) : Accurate cpu.exactTick (cpu.tickWith rnd) := by
  rw [exactTick, tickWith, tickWith]
  split
  · rename_i hleaf
    simp only [id]
    have heax : 1 ≤ 1000000000 * (cpu.cpuid 0x15).eax.toNat :=
      Nat.mul_pos (by norm_num) (toNat_pos (h.eax_ne hleaf))
    have hproduct : 0 < (cpu.cpuid 0x15).ebx.toNat * (cpu.cpuid 0x15).ecx.toNat :=
      Nat.mul_pos (toNat_pos hleaf.2.1) (toNat_pos hleaf.2.2)
    have hle : (cpu.cpuid 0x15).ebx.toNat * (cpu.cpuid 0x15).ecx.toNat ≤ 2 ^ 200 := by
      have hebx := (cpu.cpuid 0x15).ebx.toNat_lt
      have hecx := (cpu.cpuid 0x15).ecx.toNat_lt
      exact (Nat.mul_le_mul hebx.le hecx.le).trans (by norm_num)
    have hx := abs_rnd_natCast_sub_le (1000000000 * (cpu.cpuid 0x15).eax.toNat)
    have hy := abs_rnd_natCast_sub_le
      ((cpu.cpuid 0x15).ebx.toNat * (cpu.cpuid 0x15).ecx.toNat)
    push_cast at hx hy
    exact .of_div (by exact_mod_cast heax) (by exact_mod_cast hproduct) (by exact_mod_cast hle)
      hx hy
  · exact accurate_foundTick h

/-! ## Near to the system clock -/

/-- `Clock::init`, and the variables of the thread; the inner result is missing where it returns
false. -/
def init (cpu : Cpu) (r : Readings) : Option (Option BackendClock) :=
  cpu.getTscNsPerTick.bind fun tick? =>
    match tick? with
    | none => some none
    | some tick => (BackendClock.init tick r).map some

theorem init_eq_some_some {r : Readings} {s : BackendClock} (h : cpu.init r = some (some s)) :
    BackendClock.init (cpu.tickWith rnd) r = some s := by
  obtain ⟨tick?, htick, hinit⟩ := Option.bind_eq_some_iff.mp h
  cases tick? with
  | none => simp at hinit
  | some tick =>
    rw [← eq_of_getTscNsPerTick htick]
    simpa using hinit

/-- The product with a tick that is rounded itself. -/
theorem Accurate.abs_rnd_mul_sub_le {exact tick : ℚ} (h : Accurate exact tick) (n : ℤ) :
    |rnd (tick * rnd n) - exact * n| ≤ exact * |(n : ℚ)| / 2 ^ 49 := by
  have hpos : 0 < exact := (two_zpow_pos _).trans_le h.normal
  obtain ⟨hbelow, habove⟩ := abs_le.mp h.error
  have hhalf : exact / 2 ≤ tick := by linarith
  have hnormal : (2 : ℚ) ^ (-1022 : ℤ) ≤ tick := by
    calc (2 : ℚ) ^ (-1022 : ℤ) ≤ 2 ^ (-201 : ℤ) := zpow_le_zpow_right₀ one_le_two (by norm_num)
      _ = 2 ^ (-200 : ℤ) / 2 := by norm_num
      _ ≤ exact / 2 := div_le_div_of_nonneg_right h.normal two_pos.le
      _ ≤ tick := hhalf
  have hdouble : tick ≤ 2 * exact := by linarith
  have hround := abs_rnd_mul_rnd_sub_le hnormal n
  have hscale : tick * |(n : ℚ)| ≤ 2 * exact * |(n : ℚ)| :=
    mul_le_mul_of_nonneg_right hdouble (abs_nonneg _)
  calc |rnd (tick * rnd n) - exact * n|
      ≤ |rnd (tick * rnd n) - tick * n| + |tick * n - exact * n| := abs_sub_le _ _ _
    _ = |rnd (tick * rnd n) - tick * n| + |tick - exact| * |(n : ℚ)| := by
        rw [← sub_mul, abs_mul]
    _ ≤ tick * |(n : ℚ)| / 2 ^ 51 + exact / 2 ^ 51 * |(n : ℚ)| :=
        add_le_add hround (mul_le_mul_of_nonneg_right h.error (abs_nonneg _))
    _ ≤ exact * |(n : ℚ)| / 2 ^ 49 := by
        have hnonneg : 0 ≤ exact * |(n : ℚ)| := by positivity
        linarith

open BackendClock Transition

variable {base width : ℚ} {bound : ℕ}

/-- **From the processor to local time.**  If the system clock advances by what the processor says
a tick is, then the clock that is set up from the processor's answers converts every event to the
local time it was recorded at, with the rounding of the tick on top. -/
theorem exec_near_exactTick (hcpu : cpu.Plausible) (hbound : bound ≤ 2 ^ 62) {r₀ : Readings}
    {rs : List Readings}
    (hreadings : ∀ r ∈ r₀ :: rs, Bracketed cpu.exactTick base width bound r)
    {s₀ s : BackendClock} (hinit : cpu.init r₀ = some (some s₀))
    (hexec : exec tryResyncClock s₀ rs = some s) {ts : UInt64} {t : ℤ} (hts : ts.toNat < 2 ^ 63)
    (ht : s.clock.timestampToLocalSystemTime ts = some t) :
    |t - (base + cpu.exactTick * ts.toNat + s.clock.utcOffsetNs)|
      ≤ width / 2 + cpu.exactTick * (1 + bound / 2 ^ 51)
        + cpu.exactTick * |(s.clock.ticks ts : ℚ)| / 2 ^ 49 + 1 := by
  have hacc := accurate_tickWith hcpu
  have hnonneg : 0 ≤ cpu.exactTick := (two_zpow_pos _).le.trans hacc.normal
  have hnear := near_exec hnonneg hbound hreadings (init_eq_some_some hinit) hexec
  have hproduct := hacc.abs_rnd_mul_sub_le (s.clock.ticks ts)
  refine (hnear.convert hts ht).trans ?_
  rw [syncError]
  linarith

/-- A processor with two ticks of its counter to a nanosecond. -/
def enumerating : Cpu where
  cpuid leaf :=
    if leaf = 0 then ⟨0x16, 0x756e6547, 0x6c65746e, 0x49656e69⟩
    else if leaf = 0x15 then ⟨1, 2, 1000000000, 0⟩
    else if leaf = 0x80000000 then ⟨0x80000008, 0, 0, 0⟩
    else if leaf = 0x80000007 then ⟨0, 0, 0, 0x100⟩
    else ⟨0, 0, 0, 0⟩
  strtod _ := 0
  startTick := 0
  endTick := 20000000
  moves := by decide

theorem exec_near_exactTick_enumerating :
    ∃ s₀ s t, enumerating.init firstReadings = some (some s₀) ∧
      exec tryResyncClock s₀ [secondReadings] = some s ∧
      s.clock.timestampToLocalSystemTime 1000000000 = some t ∧ t = 3600500000001 ∧
      |t - (0 + enumerating.exactTick * (1000000000 : UInt64).toNat + s.clock.utcOffsetNs)|
        ≤ 5 / 2 + enumerating.exactTick * (1 + (2000000000 : ℕ) / 2 ^ 51)
          + enumerating.exactTick * |(s.clock.ticks 1000000000 : ℚ)| / 2 ^ 49 + 1 := by
  have htick : enumerating.exactTick = 1 / 2 := by decide +kernel
  have hrun : (((enumerating.init firstReadings).join.bind
      (exec tryResyncClock · [secondReadings])).bind
      fun s => s.clock.timestampToLocalSystemTime 1000000000) = some 3600500000001 := by
    decide +kernel
  obtain ⟨s, hs, ht⟩ := Option.bind_eq_some_iff.mp hrun
  obtain ⟨s₀, hjoin, hexec⟩ := Option.bind_eq_some_iff.mp hs
  have hinit : enumerating.init firstReadings = some (some s₀) := Option.join_eq_some_iff.mp hjoin
  have hreadings : ∀ r ∈ [firstReadings, secondReadings],
      Bracketed enumerating.exactTick 0 5 2000000000 r := by
    rw [htick]
    intro r hr
    simp only [List.mem_cons, List.not_mem_nil, or_false] at hr
    rcases hr with rfl | rfl
    · exact ⟨by decide, by decide +kernel, by decide +kernel, by decide +kernel, by decide⟩
    · exact ⟨by decide, by decide +kernel, by decide +kernel, by decide +kernel, by decide⟩
  have hcpu : enumerating.Plausible := ⟨fun _ => by decide, .inl rfl⟩
  exact ⟨s₀, s, _, hinit, hexec, ht, rfl,
    exec_near_exactTick hcpu (by norm_num) hreadings hinit hexec (by decide) ht⟩

end Cpu

end Papper
