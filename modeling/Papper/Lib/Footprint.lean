import Mathlib.Data.Set.Function
import Mathlib.Logic.Function.Basic
import Mathlib.Order.Interval.Set.Basic
import Papper.Lib.Memory

/-!
# What an observation of a memory depends on

An observation is a function of a memory.  Its footprint at a memory is the set of the
addresses it depends on there: a memory with the same contents on the footprint is observed
alike, and each address of the footprint can be given a content that shows.  Whether an
observation survives changes outside of a region is then a question about two sets.

## Main definitions

* `DeterminedOn` — changes outside of a set are not observed.
* `Observes` — the footprint of an observation.
* `Observes.determinedOn_iff` — only the footprint has to be kept.
* `observes_readBytes`, `observes_cString` — the footprints of a region and of a C string.
-/

namespace Papper.Memory

universe u v w
variable {Addr : Type u} {Val : Type v} {γ δ : Type w} {ι : Type u}

/-- Changes outside of the set are not observed. -/
def DeterminedOn (obs : (Addr → Val) → γ) (mem : Addr → Val) (T : Set Addr) : Prop :=
  ∀ mem', Set.EqOn mem mem' T → obs mem' = obs mem

/-- The set is the footprint of the observation at the memory. -/
structure Observes [DecidableEq Addr] (obs : (Addr → Val) → γ) (mem : Addr → Val)
    (S : Set Addr) : Prop where
  determined : DeterminedOn obs mem S
  sees : ∀ a ∈ S, ∃ b, obs (Function.update mem a b) ≠ obs mem

theorem DeterminedOn.mono {obs : (Addr → Val) → γ} {mem : Addr → Val} {S T : Set Addr}
    (h : DeterminedOn obs mem S) (hST : S ⊆ T) : DeterminedOn obs mem T := by
  intro mem' heq
  exact h mem' (heq.mono hST)

namespace Observes
variable [DecidableEq Addr] {obs : (Addr → Val) → γ} {mem : Addr → Val} {S : Set Addr}

/-- **Only the footprint has to be kept**: all of it, and nothing else. -/
theorem determinedOn_iff (h : Observes obs mem S) {T : Set Addr} :
    DeterminedOn obs mem T ↔ S ⊆ T := by
  constructor
  · intro hT a ha
    by_contra hout
    obtain ⟨b, hb⟩ := h.sees a ha
    refine hb (hT _ ?_)
    intro x hx
    have hne : x ≠ a := by
      rintro rfl
      exact hout hx
    rw [Function.update_of_ne hne]
  · exact h.determined.mono

/-- What is computed from an observation has the same footprint, if no change of one
content is lost in the computation. -/
theorem map (h : Observes obs mem S) {g : γ → δ}
    (hg : ∀ a b, obs (Function.update mem a b) ≠ obs mem →
      g (obs (Function.update mem a b)) ≠ g (obs mem)) :
    Observes (fun m => g (obs m)) mem S where
  determined := by
    intro mem' heq
    exact congrArg g (h.determined mem' heq)
  sees := by
    intro a ha
    obtain ⟨b, hb⟩ := h.sees a ha
    exact ⟨b, hg a b hb⟩

/-- Observations made one after another have the footprints of all of them. -/
theorem list {observe : ι → (Addr → Val) → γ} {footprint : ι → Set Addr} {is : List ι}
    (h : ∀ i ∈ is, Observes (observe i) mem (footprint i)) :
    Observes (fun m => is.map fun i => observe i m) mem {a | ∃ i ∈ is, a ∈ footprint i} where
  determined := by
    intro mem' heq
    refine List.map_congr_left ?_
    intro i hi
    refine (h i hi).determined mem' ?_
    intro a ha
    exact heq ⟨i, hi, ha⟩
  sees := by
    rintro a ⟨i, hi, ha⟩
    obtain ⟨b, hb⟩ := (h i hi).sees a ha
    refine ⟨b, ?_⟩
    intro heq
    exact hb (List.map_inj_left.mp heq i hi)

end Observes

/-! ## Regions -/

/-- The footprint of a region is the region. -/
theorem observes_readBytes (mem : ℕ → Byte) (start n : ℕ) :
    Observes (fun m => readBytes m start n) mem (Set.Ico start (start + n)) where
  determined := by
    intro mem' heq
    refine List.map_congr_left ?_
    intro i hi
    have hlt : i < n := List.mem_range.mp hi
    exact (heq ⟨by omega, by omega⟩).symm
  sees := by
    intro a ha
    refine ⟨mem a + 1, ?_⟩
    intro heq
    have hmem : a - start ∈ List.range n := List.mem_range.mpr (by grind)
    have ha' : start + (a - start) = a := by grind
    have := List.map_inj_left.mp heq _ hmem
    rw [ha', Function.update_self] at this
    exact absurd this (by grind)

/-! ## C strings -/

/-- The characters from an address on, up to the first that is zero; `n` bounds the number
of bytes looked at. -/
def cString (mem : ℕ → Byte) (start : ℕ) : ℕ → List Byte
  | 0 => []
  | n + 1 => if mem start = 0 then [] else mem start :: cString mem (start + 1) n

theorem cString_congr {mem mem' : ℕ → Byte} {n : ℕ} :
    ∀ {start : ℕ}, (∀ i ≤ (cString mem start n).length, i < n → mem (start + i) = mem' (start + i)) →
      cString mem' start n = cString mem start n := by
  induction n with
  | zero => intro start _; rfl
  | succ n ih =>
      intro start h
      have hhead : mem start = mem' start := h 0 (Nat.zero_le _) (Nat.succ_pos n)
      by_cases hzero : mem start = 0
      · rw [cString, cString, ← hhead, if_pos hzero, if_pos hzero]
      · rw [cString, if_neg hzero] at h
        rw [cString, cString, ← hhead, if_neg hzero, if_neg hzero]
        refine congrArg _ (ih ?_)
        intro i hi hin
        have := h (i + 1) (by simpa using hi) (by omega)
        rwa [← Nat.add_assoc, Nat.add_right_comm] at this

/-- Another character in the place of one of the string, or of what ends it. -/
theorem cString_update_ne {mem : ℕ → Byte} {n : ℕ} :
    ∀ {start i : ℕ} {b : Byte}, i ≤ (cString mem start n).length → i < n → b ≠ 0 →
      b ≠ mem (start + i) →
      cString (Function.update mem (start + i) b) start n ≠ cString mem start n := by
  induction n with
  | zero =>
      intro start i b _ hin
      exact absurd hin (Nat.not_lt_zero i)
  | succ n ih =>
      intro start i b hi hin hb hne
      cases i with
      | zero =>
          rw [Nat.add_zero] at hne ⊢
          rw [cString, cString, Function.update_self, if_neg hb]
          split
          · exact List.cons_ne_nil _ _
          · intro heq
            exact hne (List.cons.inj heq).1
      | succ i =>
          have hzero : mem start ≠ 0 := by
            intro h0
            rw [cString, if_pos h0] at hi
            exact absurd hi (Nat.not_succ_le_zero i)
          have hhead : Function.update mem (start + (i + 1)) b start = mem start :=
            Function.update_of_ne (by omega) _ _
          rw [cString, if_neg hzero] at hi
          have hstart : start + (i + 1) = start + 1 + i := by omega
          rw [cString, cString, hhead, if_neg hzero, if_neg hzero]
          intro heq
          rw [hstart] at heq hne
          exact ih (by simpa using hi) (by omega) hb hne (List.cons.inj heq).2

/-- The footprint of a C string is its characters and what ends it. -/
theorem observes_cString (mem : ℕ → Byte) (start n : ℕ) :
    Observes (fun m => cString m start n) mem
      (Set.Ico start (start + min n ((cString mem start n).length + 1))) where
  determined := by
    intro mem' heq
    refine cString_congr ?_
    intro i hi hin
    exact heq ⟨by omega, by omega⟩
  sees := by
    intro a ha
    obtain ⟨hle, hlt⟩ := ha
    obtain ⟨i, rfl⟩ := Nat.exists_eq_add_of_le hle
    obtain ⟨b, hb, hne⟩ : ∃ b : Byte, b ≠ 0 ∧ b ≠ mem (start + i) := by
      by_cases h : mem (start + i) = 1
      · exact ⟨2, by decide, by rw [h]; decide⟩
      · exact ⟨1, by decide, Ne.symm h⟩
    exact ⟨b, cString_update_ne (by omega) (by omega) hb hne⟩

end Papper.Memory
