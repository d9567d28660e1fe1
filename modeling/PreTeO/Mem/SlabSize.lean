import Mathlib.Data.Nat.Bitwise
import Mathlib.Algebra.Order.Ring.Nat

/-!
# Sizes of the slab allocator (`core/mem/slab.cpp`)

`_allign` rounds a request up to a power of two, or to pages if it is not smaller than one. It computes in 64 bits, and
all its users but one keep the lower 32: a request that is rounded to 4G has size 0.
-/

namespace PreTeO.Mem.Slab
set_option autoImplicit false

def slabMinAlloc : Nat := 16
def slabMinPage : Nat := 4096

/-- A page size: a power of two that `slab_init` takes, in 32 bits. -/
def PageSize (pageSize : Nat) : Prop := ∃ e, 12 ≤ e ∧ e ≤ 31 ∧ pageSize = 2 ^ e

/-- `while(!(m & r)) m >>= 1`, from bit `k` on. -/
def topBit (r : Nat) : Nat → Nat
  | 0 => 0
  | k + 1 => if r.testBit (k + 1) then k + 1 else topBit r k

/-- `while(n && !(n & r)) n >>= 1`, from the bit below `k` on, leaves a bit. -/
def lowerBit (r : Nat) : Nat → Bool
  | 0 => false
  | k + 1 => if r.testBit k then true else lowerBit r k

/-- `_allign`. -/
def allign (sz pageSize : Nat) : Nat :=
  let r := if sz < slabMinAlloc then slabMinAlloc else sz
  if r < pageSize then
    let m := topBit r 63
    if lowerBit r m then 2 ^ (m + 1) else 2 ^ m
  else (sz / pageSize + if sz % pageSize ≠ 0 then 1 else 0) * pageSize

/-- The loop of `slab_entry` over the size classes. -/
def slabEntryLoop (sz : Nat) : Nat → Nat → Nat → Option Nat
  | 0, _, _ => none
  | left + 1, p, b =>
    if b ≤ sz ∧ sz < b * 2 % 2 ^ 64 then some p else slabEntryLoop sz left (p + 1) (b * 2 % 2 ^ 64)

/-- `sizeof(_slab_t)`. -/
def slabSz : Nat := 64

/-- The size class that `slab_entry` finds. -/
def slabClass (size pageSize : Nat) : Option Nat :=
  slabEntryLoop (allign size pageSize) (pageSize / slabSz) 0 slabMinAlloc

/-! ## Rounding -/

theorem topBit_spec {r k : Nat} (some : r ≠ 0) (small : r < 2 ^ (k + 1)) : 2 ^ topBit r k ≤ r ∧ r < 2 ^ (topBit r k + 1) := by
  induction k with
  | zero =>
    have : topBit r 0 = 0 := rfl
    rw [this]
    omega
  | succ k ih =>
    rw [topBit]
    split_ifs with bit
    · exact ⟨Nat.ge_two_pow_of_testBit bit, small⟩
    · refine ih ?_
      have even : r / 2 ^ (k + 1) % 2 ≠ 1 := fun h => bit (by rw [Nat.testBit_eq_decide_div_mod_eq, h]; rfl)
      have low : r / 2 ^ (k + 1) < 2 := Nat.div_lt_of_lt_mul (by rw [← pow_succ]; exact small)
      have zero : r / 2 ^ (k + 1) = 0 := by
        generalize r / 2 ^ (k + 1) = q at even low
        omega
      exact (Nat.div_eq_zero_iff_lt (Nat.two_pow_pos _)).mp zero

theorem lowerBit_iff (r k : Nat) : lowerBit r k = true ↔ r % 2 ^ k ≠ 0 := by
  induction k with
  | zero => simp [lowerBit, Nat.mod_one]
  | succ k ih =>
    have split : r % 2 ^ (k + 1) = r % 2 ^ k + 2 ^ k * (r / 2 ^ k % 2) := by rw [pow_succ, Nat.mod_mul]
    have positive := Nat.two_pow_pos k
    rw [lowerBit, split, Nat.testBit_eq_decide_div_mod_eq]
    rcases Nat.mod_two_eq_zero_or_one (r / 2 ^ k) with even | odd
    · rw [even]
      simpa using ih
    · rw [odd, if_pos (by rfl), Nat.mul_one]
      simp only [true_iff]
      omega

section PageSize
variable {pageSize sz : Nat} (page : PageSize pageSize)
include page

theorem PageSize.bounds : 4096 ≤ pageSize ∧ pageSize ≤ 2 ^ 31 ∧ pageSize ∣ 2 ^ 32 := by
  obtain ⟨e, low, high, rfl⟩ := page
  exact ⟨Nat.pow_le_pow_right (Nat.succ_pos 1) low, Nat.pow_le_pow_right (Nat.succ_pos 1) high,
    Nat.pow_dvd_pow 2 (by omega)⟩

/-- Below a page, the size is a power of two. -/
theorem allign_small (small : sz < pageSize) :
    ∃ k, 4 ≤ k ∧ allign sz pageSize = 2 ^ k ∧ 2 ^ k ≤ pageSize ∧ sz ≤ 2 ^ k := by
  obtain ⟨four, high, -⟩ := page.bounds
  obtain ⟨e, low, -, rfl⟩ := page
  unfold allign slabMinAlloc
  set r := if sz < 16 then 16 else sz with r_eq
  have at_least : 16 ≤ r ∧ sz ≤ r ∧ r < 2 ^ e := by
    rw [r_eq]
    split_ifs <;> omega
  have some : r ≠ 0 := by omega
  obtain ⟨below, above⟩ := topBit_spec (k := 63) some (by omega)
  have top : 4 ≤ topBit r 63 := by
    by_contra less
    have : 2 ^ (topBit r 63 + 1) ≤ 2 ^ 4 := Nat.pow_le_pow_right (Nat.succ_pos 1) (by omega)
    omega
  have under : topBit r 63 < e := (Nat.pow_lt_pow_iff_right (by decide)).mp (below.trans_lt at_least.2.2)
  rw [if_pos at_least.2.2]
  dsimp only
  split_ifs with rest
  · exact ⟨topBit r 63 + 1, by omega, rfl, Nat.pow_le_pow_right (Nat.succ_pos 1) under, by omega⟩
  · have zero : r % 2 ^ topBit r 63 = 0 := not_not.mp ((lowerBit_iff _ _).not.mp rest)
    have exact_power : r = 2 ^ topBit r 63 := by
      have quotient : r / 2 ^ topBit r 63 = 1 := by
        refine Nat.div_eq_of_lt_le (by omega) ?_
        rw [pow_succ] at above
        omega
      have := Nat.div_add_mod r (2 ^ topBit r 63)
      rw [quotient, zero] at this
      omega
    exact ⟨topBit r 63, top, rfl, Nat.pow_le_pow_right (Nat.succ_pos 1) under.le, by omega⟩

/-- From a page on, it is a number of pages. -/
theorem allign_large (large : pageSize ≤ sz) :
    pageSize ∣ allign sz pageSize ∧ sz ≤ allign sz pageSize ∧ allign sz pageSize < sz + pageSize := by
  obtain ⟨four, -, -⟩ := page.bounds
  have not_small : ¬ (if sz < slabMinAlloc then slabMinAlloc else sz) < pageSize := by
    unfold slabMinAlloc
    split_ifs <;> omega
  unfold allign
  rw [if_neg not_small]
  have split := Nat.div_add_mod sz pageSize
  have rest := Nat.mod_lt sz (Nat.lt_of_lt_of_le (by decide) four : 0 < pageSize)
  refine ⟨Nat.dvd_mul_left _ _, ?_⟩
  rw [Nat.add_mul, Nat.mul_comm (sz / pageSize)]
  split_ifs <;> omega

theorem le_allign (sz : Nat) : sz ≤ allign sz pageSize ∧ slabMinAlloc ≤ allign sz pageSize := by
  obtain ⟨four, -, -⟩ := page.bounds
  rcases Nat.lt_or_ge sz pageSize with small | large
  · obtain ⟨k, low, power, -, le⟩ := allign_small page small
    rw [power]
    exact ⟨le, Nat.pow_le_pow_right (Nat.succ_pos 1) low⟩
  · obtain ⟨-, le, -⟩ := allign_large page large
    unfold slabMinAlloc
    omega

theorem allign_le (request : sz < 2 ^ 32) : allign sz pageSize ≤ 2 ^ 32 := by
  obtain ⟨-, high, pages⟩ := page.bounds
  rcases Nat.lt_or_ge sz pageSize with small | large
  · obtain ⟨k, -, power, le, -⟩ := allign_small page small
    omega
  · obtain ⟨⟨q, product⟩, -, less⟩ := allign_large page large
    obtain ⟨q', whole⟩ := pages
    rw [product] at less ⊢
    rw [whole] at request ⊢
    have : pageSize * q < pageSize * (q' + 1) := by
      rw [Nat.mul_succ]
      omega
    exact Nat.mul_le_mul_left _ (Nat.lt_succ_iff.mp (Nat.lt_of_mul_lt_mul_left this))

/-- The size that is kept is zero exactly if the request does not fit in pages below 4G. -/
theorem allign_low_iff (request : sz < 2 ^ 32) : allign sz pageSize % 2 ^ 32 ≠ 0 ↔ sz ≤ 2 ^ 32 - pageSize := by
  obtain ⟨four, high, pages⟩ := page.bounds
  have least := le_allign page sz
  have most := allign_le page request
  unfold slabMinAlloc at least
  constructor
  · intro some
    rcases Nat.lt_or_ge sz pageSize with small | large
    · omega
    · have less : allign sz pageSize < 2 ^ 32 := by
        rcases Nat.lt_or_eq_of_le most with less | full
        · exact less
        · rw [full] at some
          exact absurd (Nat.mod_self _) some
      obtain ⟨⟨q, product⟩, le, -⟩ := allign_large page large
      obtain ⟨q', whole⟩ := pages
      rw [product] at le less
      rw [whole] at less ⊢
      have below : q < q' := Nat.lt_of_mul_lt_mul_left less
      have : pageSize * (q + 1) ≤ pageSize * q' := Nat.mul_le_mul_left _ below
      rw [Nat.mul_succ] at this
      omega
  · intro fits
    have less : allign sz pageSize < 2 ^ 32 := by
      rcases Nat.lt_or_ge sz pageSize with small | large
      · obtain ⟨k, -, power, le, -⟩ := allign_small page small
        omega
      · have := (allign_large page large).2.2
        omega
    rw [Nat.mod_eq_of_lt less]
    omega

end PageSize

/-! ## Size classes -/

/-- The loop finds the class of a size that its classes reach. -/
theorem slabEntryLoop_found {sz left p : Nat} (low : 16 * 2 ^ p ≤ sz) (high : sz ≤ 2 ^ 32) (enough : 64 ≤ p + left) :
    ∃ q, slabEntryLoop sz left p (16 * 2 ^ p) = some q ∧ q < p + left ∧ 16 * 2 ^ q ≤ sz ∧ sz < 16 * 2 ^ (q + 1) := by
  have reach : p ≤ 28 := by
    by_contra more
    have : 2 ^ 29 ≤ 2 ^ p := Nat.pow_le_pow_right (Nat.succ_pos 1) (by omega)
    omega
  induction left generalizing p with
  | zero => omega
  | succ left ih =>
    have power : 2 ^ p ≤ 2 ^ 28 := Nat.pow_le_pow_right (Nat.succ_pos 1) reach
    have next : 16 * 2 ^ p * 2 % 2 ^ 64 = 16 * 2 ^ (p + 1) := by
      rw [Nat.mod_eq_of_lt (by omega), pow_succ, Nat.mul_assoc]
    rw [slabEntryLoop, next]
    by_cases here : 16 * 2 ^ p ≤ sz ∧ sz < 16 * 2 ^ (p + 1)
    · rw [if_pos here]
      exact ⟨p, rfl, by omega, here⟩
    · rw [if_neg here]
      have low' : 16 * 2 ^ (p + 1) ≤ sz := by omega
      have reach' : p + 1 ≤ 28 := by
        by_contra more
        have : 2 ^ 29 ≤ 2 ^ (p + 1) := Nat.pow_le_pow_right (Nat.succ_pos 1) (by omega)
        omega
      obtain ⟨q, found, less, class_q⟩ := ih low' (by omega) reach'
      exact ⟨q, found, by omega, class_q⟩

/-- Every request has a size class. -/
theorem slabClass_found {pageSize size : Nat} (page : PageSize pageSize) (request : size < 2 ^ 32) :
    ∃ p, slabClass size pageSize = some p ∧ p < pageSize / slabSz ∧
      16 * 2 ^ p ≤ allign size pageSize ∧ allign size pageSize < 16 * 2 ^ (p + 1) := by
  obtain ⟨four, -, -⟩ := page.bounds
  have least := (le_allign page size).2
  unfold slabMinAlloc at least
  have classes : 64 ≤ pageSize / slabSz := (Nat.le_div_iff_mul_le (by decide)).mpr four
  have enough : 64 ≤ 0 + pageSize / slabSz := by omega
  obtain ⟨p, found, less, class_p⟩ := slabEntryLoop_found (p := 0) least (allign_le page request) enough
  exact ⟨p, found, by omega, class_p⟩

end PreTeO.Mem.Slab
