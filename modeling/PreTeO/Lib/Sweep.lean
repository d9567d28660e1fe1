import Mathlib.Order.Defs.LinearOrder
import Mathlib.Tactic.ByContra

/-!
# Searching downwards for a run

A search for `count` good positions in a row that goes down from `bound`, counting the good positions it passes and
starting again at zero at a bad one. `Swept` is its invariant; the first hit is the highest run there is.
-/

namespace PreTeO.Lib
set_option autoImplicit false

/-- The `count` positions from `q` on are good and lie below `bound`. -/
structure IsRun (good : Nat → Prop) (count bound q : Nat) : Prop where
  inside : q + count ≤ bound
  holds : ∀ p, q ≤ p → p < q + count → good p

/-- A run, with none above it. -/
structure Highest (good : Nat → Prop) (count bound q : Nat) : Prop extends IsRun good count bound q where
  above : ∀ q', IsRun good count bound q' → q' ≤ q

/-- The search came down to `x`: the `cnt` positions from there on are good, what follows them is not, and no run begins
at `x` or above. -/
structure Swept (good : Nat → Prop) (count bound x cnt : Nat) : Prop where
  short : cnt < count
  inside : x + cnt ≤ bound
  holds : ∀ p, x ≤ p → p < x + cnt → good p
  cut : x + cnt = bound ∨ ¬ good (x + cnt)
  none : ∀ q, IsRun good count bound q → q < x

namespace Swept

variable {good : Nat → Prop} {count bound x cnt : Nat}

theorem start (some : 0 < count) : Swept good count bound bound 0 := by
  refine ⟨some, Nat.le_refl _, fun p low high => by omega, Or.inl rfl, fun q run => ?_⟩
  have := run.inside
  omega

/-- What is counted so far is too short for a run that begins one lower. -/
theorem none_lower (swept : Swept good count bound (x + 1) cnt) (lower : good x → cnt + 1 < count) (q : Nat)
    (run : IsRun good count bound q) : q < x := by
  have below := swept.none q run
  have ends := run.inside
  by_contra not_lower
  obtain rfl : q = x := by omega
  have long := lower (run.holds q (Nat.le_refl _) (by have := swept.short; omega))
  rcases swept.cut with top | bad
  · omega
  · exact bad (run.holds _ (by omega) (by omega))

theorem miss (swept : Swept good count bound (x + 1) cnt) (bad : ¬ good x) : Swept good count bound x 0 := by
  have := swept.inside
  have := swept.short
  exact ⟨by omega, by omega, fun p low high => by omega, Or.inr bad, swept.none_lower fun fine => absurd fine bad⟩

theorem more (swept : Swept good count bound (x + 1) cnt) (fine : good x) (few : cnt + 1 < count) :
    Swept good count bound x (cnt + 1) := by
  have ends := swept.inside
  have cut := swept.cut
  rw [show x + 1 + cnt = x + (cnt + 1) by omega] at ends cut
  refine ⟨few, ends, fun p low high => ?_, cut, swept.none_lower fun _ => few⟩
  rcases Nat.eq_or_lt_of_le low with rfl | above
  · exact fine
  · exact swept.holds p above (by omega)

theorem hit (swept : Swept good count bound (x + 1) cnt) (fine : good x) (enough : cnt + 1 = count) :
    Highest good count bound x := by
  have ends := swept.inside
  refine ⟨⟨by omega, fun p low high => ?_⟩, fun q run => ?_⟩
  · rcases Nat.eq_or_lt_of_le low with rfl | above
    · exact fine
    · exact swept.holds p above (by omega)
  · have := swept.none q run
    omega

/-- A stretch without a good position. -/
theorem skip {k : Nat} (swept : Swept good count bound (x + k) cnt) (bad : ∀ p, x ≤ p → p < x + k → ¬ good p)
    (fresh : k = 0 → cnt = 0) : Swept good count bound x 0 := by
  induction k generalizing x with
  | zero =>
    cases fresh rfl
    exact swept
  | succ k ih =>
    rw [show x + (k + 1) = x + 1 + k by omega] at swept
    cases k with
    | zero => exact swept.miss (bad x (Nat.le_refl _) (by omega))
    | succ k =>
      have rest := ih swept (fun p low high => bad p (by omega) (by omega)) (fun none => by omega)
      exact rest.miss (bad x (Nat.le_refl _) (by omega))

end Swept

end PreTeO.Lib
