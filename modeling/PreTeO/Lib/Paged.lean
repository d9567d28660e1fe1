import PreTeO.Lib.Bytes
import Mathlib.Logic.Function.Basic

/-!
# Bytes that lie in pages

A row of bytes lies in pages of one size, which may be anywhere: byte `p` is in page `p / size`. A write into one page is a
write into the row, and none into the rows that have no part in the page.
-/

namespace PreTeO.Lib
set_option autoImplicit false

namespace Mem

/-- The `n` bytes from `a` on. -/
def bytes (m : Mem) (a n : Nat) : List Byte := (List.range n).map fun i => m (a + i)

/-- The bytes of pages, one after the other. -/
def paged (mem : Nat → Mem) (size : Nat) (page : Nat → Nat) : Mem := fun p => mem (page (p / size)) (p % size)

variable {m m' : Mem} {mem : Nat → Mem} {a n k size o b x p count : Nat} {f g : Nat → Byte} {page : Nat → Nat}

@[simp] theorem length_bytes : (m.bytes a n).length = n := by
  rw [bytes, List.length_map, List.length_range]

theorem bytes_zero : m.bytes a 0 = [] := rfl

theorem bytes_append : m.bytes a n ++ m.bytes (a + n) k = m.bytes a (n + k) := by
  unfold bytes
  rw [List.range_add, List.map_append, List.map_map]
  refine congrArg _ (List.map_congr_left fun i _ => ?_)
  rw [Function.comp_apply, Nat.add_assoc]

/-- Bytes read in two parts, the second one maybe empty. -/
theorem bytes_parts (next : k = 0 ∨ b = a + n) (all : n + k = x) : m.bytes a n ++ m.bytes b k = m.bytes a x := by
  subst all
  rcases next with rfl | rfl
  · rw [bytes_zero, List.append_nil, Nat.add_zero]
  · exact bytes_append

theorem bytes_congr (same : ∀ p, a ≤ p → p < a + n → m p = m' p) : m.bytes a n = m'.bytes a n := by
  refine List.map_congr_left fun i inside => same _ (Nat.le_add_right a i) ?_
  exact Nat.add_lt_add_left (List.mem_range.mp inside) a

/-- A byte after a write depends on the same byte before. -/
theorem blit_at (same : m p = m' p) : m.blit a n f p = m'.blit a n f p := by
  unfold blit
  rw [same]

/-! ## Pages -/

theorem place_page (low : o < size) : (b * size + o) / size = b ∧ (b * size + o) % size = o := by
  have pos : 0 < size := Nat.zero_lt_of_lt low
  rw [Nat.mul_comm, Nat.mul_add_div pos, Nat.mul_add_mod, Nat.div_eq_of_lt low, Nat.mod_eq_of_lt low]
  exact ⟨rfl, rfl⟩

/-- Bytes within a page. -/
theorem paged_bytes (fits : o + n ≤ size) : (paged mem size page).bytes (b * size + o) n = (mem (page b)).bytes o n := by
  refine List.map_congr_left fun i inside => ?_
  obtain ⟨block, offset⟩ := @place_page size (o + i) b (by have := List.mem_range.mp inside; omega)
  unfold paged
  rw [Nat.add_assoc, block, offset]

/-- A write into a page of the row. -/
theorem paged_blit (own : ∀ c < count, page c = page b → c = b) (fits : o + n ≤ size) (inside : p < count * size) :
    paged (Function.update mem (page b) ((mem (page b)).blit o n f)) size page p =
      (paged mem size page).blit (b * size + o) n f p := by
  have pos : 0 < size := Nat.pos_of_mul_pos_left (Nat.zero_lt_of_lt inside)
  have parts := Nat.div_add_mod p size
  have rest := Nat.mod_lt p pos
  rw [Nat.mul_comm] at parts
  unfold paged
  by_cases here : p / size = b
  · rw [here, Function.update_self]
    rw [here] at parts
    by_cases within : o ≤ p % size ∧ p % size < o + n
    · rw [blit_in within.1 within.2, blit_in (by omega) (by omega)]
      congr 1
      omega
    · rw [blit_out (by omega), blit_out (by omega), here]
  · have other := fun same => here (own _ (Nat.div_lt_of_lt_mul (Nat.mul_comm size count ▸ inside)) same)
    rw [Function.update_of_ne other, blit_out]
    rcases Nat.lt_or_gt_of_ne here with before | behind
    · have := Nat.mul_le_mul_right size before
      rw [Nat.succ_mul] at this
      omega
    · have := Nat.mul_le_mul_right size behind
      rw [Nat.succ_mul] at this
      omega

/-- Rows are read from their own pages. -/
theorem paged_congr {mem' : Nat → Mem} (same : ∀ c < count, mem' (page c) = mem (page c)) (inside : p < count * size) :
    paged mem' size page p = paged mem size page p := by
  unfold paged
  rw [same _ (Nat.div_lt_of_lt_mul (Nat.mul_comm size count ▸ inside))]

end Mem

end PreTeO.Lib
