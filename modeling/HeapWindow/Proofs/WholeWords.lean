import HeapWindow.Rounding
import Mathlib.Order.Bounds.Basic

/-!
# The least whole number of words

Rounding clears the lowest two bits of a word. In numbers without a bound it gives the least whole
number of words that is large enough, as long as 32 bits can hold that number. When they cannot,
no whole number of words that they hold is large enough, and the sum that wraps is rounded to zero.
So a request may be compared with a room of whole words before it is rounded or after.
-/

namespace HeapWindow
namespace Rounding

variable {n a : UInt32}

theorem aligned_iff_and : Aligned n ↔ n &&& (wordSize - 1) = 0 := by
  have hmod : (n &&& (wordSize - 1)).toNat = n.toNat % 4 := by
    rw [UInt32.toNat_and]
    exact Nat.and_two_pow_sub_one_eq_mod n.toNat 2
  rw [aligned_iff, ← hmod, ← UInt32.toNat_inj, UInt32.toNat_zero]

theorem roundDown_eq_and (n : UInt32) : roundDown n = n &&& ~~~(wordSize - 1) := by
  have hmask : (~~~(wordSize - 1)).toNat = 0xFFFFFFFC := rfl
  -- The mask takes nothing of the remainder and all thirty bits of the quotient.
  have hlow : (n.toNat &&& 0xFFFFFFFC) % 2 ^ 2 = 0 := by
    rw [Nat.and_mod_two_pow]
    exact Nat.and_zero _
  have hhigh : (n.toNat &&& 0xFFFFFFFC) / 2 ^ 2 = n.toNat / 4 := by
    have hlt : n.toNat / 4 < 2 ^ 30 := Nat.div_lt_of_lt_mul n.toNat_lt
    rw [Nat.and_div_two_pow]
    exact Nat.and_two_pow_sub_one_of_lt_two_pow hlt
  rw [← UInt32.toNat_inj, toNat_roundDown, UInt32.toNat_and, hmask, ← hhigh]
  omega

/-- The whole numbers of words that are not below `k`, in bytes. Nothing bounds them from above. -/
def wholeFrom (k : Nat) : Set Nat := {b | 4 ∣ b ∧ k ≤ b}

theorem isLeast_wholeFrom (k : Nat) : IsLeast (wholeFrom k) ((k + 3) / 4 * 4) := by
  refine ⟨⟨Nat.dvd_mul_left 4 _, by omega⟩, ?_⟩
  rintro b ⟨⟨c, rfl⟩, hle⟩
  omega

theorem roundUp?_eq_some_iff_isLeast :
    roundUp? n = some a ↔ IsLeast (wholeFrom n.toNat) a.toNat := by
  rw [roundUp?_eq_some_iff]
  constructor
  · rintro ⟨-, ha⟩
    rw [ha]
    exact isLeast_wholeFrom n.toNat
  · intro h
    have ha : a.toNat = (n.toNat + 3) / 4 * 4 := h.unique (isLeast_wholeFrom n.toNat)
    have hlt : a.toNat < UInt32.size := a.toNat_lt
    -- The top is a whole number of words itself: a sum that reached it would be rounded to no less.
    refine ⟨?_, ha⟩
    simp only [UInt32.size] at hlt ⊢
    omega

theorem roundUp?_eq_none_iff_forall :
    roundUp? n = none ↔ ∀ b ∈ wholeFrom n.toNat, UInt32.size ≤ b := by
  have hleast := isLeast_wholeFrom n.toNat
  rw [roundUp?_eq_none_iff]
  constructor
  · intro hn b hb
    have hle := hleast.2 hb
    simp only [UInt32.size] at hn ⊢
    omega
  · intro h
    have hle := h _ hleast.1
    omega

theorem roundUp_eq_getD (n : UInt32) : roundUp n = (roundUp? n).getD 0 := by
  cases hn : roundUp? n with
  | none =>
    have hsize := roundUp?_eq_none_iff.1 hn
    have hlt := n.toNat_lt
    have hsum : (n + (wordSize - 1)).toNat = (n.toNat + 3) % UInt32.size := UInt32.toNat_add _ _
    rw [Option.getD_none, ← UInt32.toNat_inj, roundUp, toNat_roundDown, hsum, UInt32.toNat_zero]
    simp only [UInt32.size] at hsize ⊢
    omega
  | some a =>
    rw [roundUp?] at hn
    split at hn
    · exact Option.some.inj hn
    · cases hn

theorem aligned_iff_roundUp? : Aligned n ↔ roundUp? n = some n := by
  constructor
  · intro h
    have hdvd : 4 ∣ n.toNat := Nat.dvd_of_mod_eq_zero (aligned_iff.1 h)
    exact roundUp?_eq_some_iff_isLeast.2 ⟨⟨hdvd, Nat.le_refl _⟩, fun b hb => hb.2⟩
  · exact aligned_of_roundUp?

/-- Rounding up gives the least whole number of words that is not below a count, and fails exactly
when 32 bits do not hold it. Clearing bits of a sum that may wrap comes to the same, but gives zero
where rounding fails. A count stays as it is exactly if it has no bits to clear, and it is within a
whole number of words exactly if it is when rounded. -/
theorem words_round_exactly (n : UInt32) :
    (∀ a, roundUp? n = some a ↔ IsLeast (wholeFrom n.toNat) a.toNat) ∧
    (roundUp? n = none ↔ ∀ b ∈ wholeFrom n.toNat, UInt32.size ≤ b) ∧
    roundUp n = (n + (wordSize - 1)) &&& ~~~(wordSize - 1) ∧
    roundUp n = (roundUp? n).getD 0 ∧
    (Aligned n ↔ n &&& (wordSize - 1) = 0) ∧
    (Aligned n ↔ roundUp? n = some n) ∧
    ∀ m, Aligned m → (n ≤ m ↔ ∃ a, roundUp? n = some a ∧ a ≤ m) := by
  refine ⟨fun a => roundUp?_eq_some_iff_isLeast, roundUp?_eq_none_iff_forall,
    roundDown_eq_and (n + (wordSize - 1)), roundUp_eq_getD n, aligned_iff_and,
    aligned_iff_roundUp?, fun m hm => ?_⟩
  exact (exists_roundUp?_le_iff hm).symm

/-- Four below the top is the greatest whole number of words. Seven below the top is rounded up to it.
Three below the top there is nothing left to round up to, and the sum wraps to zero. -/
theorem words_round_exactly_at_top :
    Aligned 0xFFFFFFFC ∧ IsLeast (wholeFrom 0xFFFFFFF9) 0xFFFFFFFC ∧
      (∃ a, roundUp? 0xFFFFFFF9 = some a ∧ a ≤ 0xFFFFFFFC) ∧
      (∀ b ∈ wholeFrom 0xFFFFFFFD, 0x100000000 ≤ b) ∧ roundUp 0xFFFFFFFD = 0 ∧
      ¬ ∃ a, roundUp? 0xFFFFFFFD = some a ∧ a ≤ 0xFFFFFFFC := by
  have hwhole : Aligned 0xFFFFFFFC := by decide
  obtain ⟨hsome, -, -, -, -, -, hwithin⟩ := words_round_exactly 0xFFFFFFF9
  obtain ⟨-, hnone, -, hwraps, -, -, habove⟩ := words_round_exactly 0xFFFFFFFD
  have h₀ : roundUp? 0xFFFFFFFD = none := by decide
  refine ⟨hwhole, (hsome 0xFFFFFFFC).1 (by decide), (hwithin _ hwhole).1 (by decide), hnone.1 h₀,
    ?_, ?_⟩
  · rw [hwraps, h₀, Option.getD_none]
  · rw [← habove _ hwhole]
    decide

end Rounding
end HeapWindow
