import Mathlib.Data.BitVec
import Mathlib.Data.Finset.Card

/-!
# Counting the bits of a word

A word with one bit more than another has one more bit set; everything that keeps a counter beside a bitmap rests on
this.
-/

namespace PreTeO.Lib
set_option autoImplicit false

variable {w : Nat}

/-- The number of set bits. -/
def ones (v : BitVec w) : Nat := ((Finset.range w).filter fun j => v.getLsbD j = true).card

theorem ones_le (v : BitVec w) : ones v ≤ w := by
  have := Finset.card_filter_le (Finset.range w) fun j => v.getLsbD j = true
  simpa [ones] using this

/-- Only bit `n` differs. -/
def SameBut (n : Nat) (v v' : BitVec w) : Prop := ∀ j, j < w → j ≠ n → v'.getLsbD j = v.getLsbD j

theorem ones_set {v v' : BitVec w} {n : Nat} (small : n < w) (same : SameBut n v v') (clear : v.getLsbD n = false)
    (set : v'.getLsbD n = true) : ones v' = ones v + 1 := by
  have insert : (Finset.range w).filter (fun j => v'.getLsbD j = true) =
      insert n ((Finset.range w).filter fun j => v.getLsbD j = true) := by
    ext j
    simp only [Finset.mem_filter, Finset.mem_range, Finset.mem_insert]
    by_cases here : j = n
    · subst here
      simp [small, set]
    · constructor
      · rintro ⟨bound, bit⟩
        exact Or.inr ⟨bound, by rw [← same j bound here, bit]⟩
      · rintro (rfl | ⟨bound, bit⟩)
        · exact absurd rfl here
        · exact ⟨bound, by rw [same j bound here, bit]⟩
  unfold ones
  rw [insert, Finset.card_insert_of_notMem]
  simp [clear]

/-- All bits are set exactly if none is clear. -/
theorem ones_lt_iff (v : BitVec w) : ones v < w ↔ ∃ j, j < w ∧ v.getLsbD j = false := by
  constructor
  · intro fewer
    by_contra none
    push Not at none
    have all : (Finset.range w).filter (fun j => v.getLsbD j = true) = Finset.range w := by
      apply Finset.filter_true_of_mem
      intro j bound
      simpa using none j (Finset.mem_range.mp bound)
    unfold ones at fewer
    rw [all, Finset.card_range] at fewer
    exact Nat.lt_irrefl w fewer
  · rintro ⟨j, bound, clear⟩
    have proper : (Finset.range w).filter (fun j => v.getLsbD j = true) ⊂ Finset.range w := by
      apply Finset.filter_ssubset.mpr
      exact ⟨j, Finset.mem_range.mpr bound, by simp [clear]⟩
    have := Finset.card_lt_card proper
    rwa [Finset.card_range] at this

/-- A word with the single bit `n`. -/
theorem getLsbD_mask {n j : Nat} (small : n < w) : (1#w <<< n).getLsbD j = decide (j = n) := by
  rw [BitVec.getLsbD_shiftLeft, BitVec.getLsbD_one]
  by_cases here : j = n
  · subst here
    simp
    omega
  · rcases Nat.lt_or_gt_of_ne here with below | above
    · simp [below, here]
    · have : j - n ≠ 0 := by omega
      simp [this, here]

/-- A byte taken out of a number by a mask and a shift. -/
theorem byte_lane (n k : Nat) : (n &&& 255 <<< k) >>> k = n / 2 ^ k % 256 := by
  rw [Nat.shiftRight_and_distrib, Nat.shiftLeft_shiftRight, Nat.shiftRight_eq_div_pow]
  exact Nat.and_two_pow_sub_one_eq_mod _ 8

end PreTeO.Lib
