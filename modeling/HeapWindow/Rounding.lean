/-!
# Whole words

Every request is counted in whole machine words. Rounding up is exact on all 32-bit counts: it
gives the least multiple of a word that is large enough, and fails only where none is left below
the top of the address space.
-/

namespace HeapWindow

/-- A 32-bit address. Byte counts have the same width. -/
abbrev Addr := UInt32

namespace Rounding

def wordSize : UInt32 := 4

@[simp] theorem toNat_wordSize : wordSize.toNat = 4 := rfl

/-- `n` is a whole number of words. -/
def Aligned (n : UInt32) : Prop := n % wordSize = 0

instance : DecidablePred Aligned := fun n => inferInstanceAs (Decidable (n % wordSize = 0))

theorem aligned_iff {n : UInt32} : Aligned n ↔ n.toNat % 4 = 0 := by
  simp [Aligned, ← UInt32.toNat_inj]

def roundDown (n : UInt32) : UInt32 := n / wordSize * wordSize

@[simp] theorem toNat_roundDown (n : UInt32) : (roundDown n).toNat = n.toNat / 4 * 4 := by
  have := n.toNat_lt
  simp [roundDown]
  omega

theorem aligned_roundDown (n : UInt32) : Aligned (roundDown n) := by
  rw [aligned_iff, toNat_roundDown, Nat.mul_mod_left]

theorem roundDown_le (n : UInt32) : roundDown n ≤ n := by
  rw [UInt32.le_iff_toNat_le, toNat_roundDown]
  exact Nat.div_mul_le_self n.toNat 4

theorem roundDown_eq_self_iff {n : UInt32} : roundDown n = n ↔ Aligned n := by
  rw [← UInt32.toNat_inj, toNat_roundDown, aligned_iff]
  omega

theorem le_roundDown_iff {a n : UInt32} (ha : Aligned a) : a ≤ roundDown n ↔ a ≤ n := by
  have ha := aligned_iff.1 ha
  rw [UInt32.le_iff_toNat_le, UInt32.le_iff_toNat_le, toNat_roundDown]
  omega

/-- The least whole number of words that is not below `n`, wrapping to zero past the top. -/
def roundUp (n : UInt32) : UInt32 := roundDown (n + (wordSize - 1))

/-- The least whole number of words that is not below `n`, if 32 bits can hold it. -/
def roundUp? (n : UInt32) : Option UInt32 :=
  if n.toNat + (wordSize - 1).toNat < UInt32.size then some (roundUp n) else none

theorem roundUp?_eq_some_iff {n a : UInt32} :
    roundUp? n = some a ↔ n.toNat + 3 < UInt32.size ∧ a.toNat = (n.toNat + 3) / 4 * 4 := by
  have h : (wordSize - 1).toNat = 3 := rfl
  rw [roundUp?, h]
  split
  · next hn =>
    have e : (roundUp n).toNat = (n.toNat + 3) / 4 * 4 := by
      rw [roundUp, toNat_roundDown, UInt32.toNat_add, h, Nat.mod_eq_of_lt hn]
    simp [hn, ← UInt32.toNat_inj, e, eq_comm]
  · next hn => simp [hn]

theorem aligned_of_roundUp? {n a : UInt32} (h : roundUp? n = some a) : Aligned a := by
  have ha := (roundUp?_eq_some_iff.1 h).2
  exact aligned_iff.2 (by omega)

theorem roundUp?_eq_none_iff {n : UInt32} : roundUp? n = none ↔ UInt32.size ≤ n.toNat + 3 := by
  have h : (wordSize - 1).toNat = 3 := rfl
  rw [roundUp?, h]
  split <;> simp <;> omega

theorem toNat_ofNat_whole {k : Nat} (hk : k + 3 < UInt32.size) :
    (UInt32.ofNat ((k + 3) / 4 * 4)).toNat = (k + 3) / 4 * 4 :=
  UInt32.toNat_ofNat_of_lt' (by omega)

/-- A whole number of words is enough for a count if it is enough for the rounded one. -/
theorem exists_roundUp?_le_iff {n b : UInt32} (hb : Aligned b) :
    (∃ a, roundUp? n = some a ∧ a ≤ b) ↔ n ≤ b := by
  have hb := aligned_iff.1 hb
  have hlt := b.toNat_lt
  rw [UInt32.le_iff_toNat_le]
  constructor
  · rintro ⟨a, ha, hle⟩
    have ha := (roundUp?_eq_some_iff.1 ha).2
    have hle := UInt32.le_iff_toNat_le.1 hle
    omega
  · intro hle
    have hn : n.toNat + 3 < UInt32.size := by
      simp only [UInt32.size]
      omega
    have he := toNat_ofNat_whole hn
    refine ⟨.ofNat ((n.toNat + 3) / 4 * 4), roundUp?_eq_some_iff.2 ⟨hn, he⟩, ?_⟩
    rw [UInt32.le_iff_toNat_le, he]
    omega

theorem exists_roundUp?_le_iff_le_roundDown {n b : UInt32} :
    (∃ a, roundUp? n = some a ∧ a ≤ b) ↔ n ≤ roundDown b := by
  rw [← exists_roundUp?_le_iff (aligned_roundDown b)]
  refine exists_congr fun a => and_congr_right fun ha => ?_
  exact (le_roundDown_iff (aligned_of_roundUp? ha)).symm

end Rounding
end HeapWindow
