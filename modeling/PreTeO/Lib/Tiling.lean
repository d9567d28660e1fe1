import Mathlib.Algebra.GroupWithZero.Nat
import Mathlib.Data.List.Basic
import Mathlib.Algebra.BigOperators.Group.List.Basic

/-!
# Tilings of a range

Pieces that lie end to end from `a` to `b`: a list of start addresses, each piece as long as `size`
says. A piece is split in two or joined with the next one by changing the list in one place.
-/

namespace PreTeO.Lib
set_option autoImplicit false

/-- The pieces at the given addresses fill the range from `a` to `b` without gaps. -/
def Tiles (size : Nat → Nat) : Nat → Nat → List Nat → Prop
  | a, b, [] => a = b
  | a, b, o :: rest => o = a ∧ 0 < size o ∧ Tiles size (a + size o) b rest

namespace Tiles

variable {size size' : Nat → Nat} {a b : Nat} {l pre post : List Nat}

theorem append : Tiles size a b (pre ++ post) ↔ ∃ c, Tiles size a c pre ∧ Tiles size c b post := by
  induction pre generalizing a with
  | nil => simp [Tiles]
  | cons o pre ih => simp [Tiles, ih, and_assoc]

theorem congr (h : Tiles size a b l) (same : ∀ o ∈ l, size' o = size o) : Tiles size' a b l := by
  induction l generalizing a with
  | nil => exact h
  | cons o l ih =>
    obtain ⟨start, positive, rest⟩ := h
    have head := same o List.mem_cons_self
    refine ⟨start, head ▸ positive, ?_⟩
    rw [head]
    exact ih rest fun x hx => same x (List.mem_cons_of_mem o hx)

theorem le (h : Tiles size a b l) : a ≤ b := by
  induction l generalizing a with
  | nil => exact Nat.le_of_eq h
  | cons o l ih =>
    have := ih h.2.2
    omega

/-- Every piece lies in the range. -/
theorem bounds (h : Tiles size a b l) {o : Nat} (ho : o ∈ l) : a ≤ o ∧ 0 < size o ∧ o + size o ≤ b := by
  induction l generalizing a with
  | nil => cases ho
  | cons x l ih =>
    obtain ⟨rfl, positive, rest⟩ := h
    rcases List.mem_cons.mp ho with rfl | inside
    · exact ⟨Nat.le_refl _, positive, rest.le⟩
    · have := ih rest inside
      omega

/-- Different pieces do not overlap. -/
theorem apart (h : Tiles size a b l) {o x : Nat} (ho : o ∈ l) (hx : x ∈ l) (ne : o ≠ x) :
    o + size o ≤ x ∨ x + size x ≤ o := by
  induction l generalizing a with
  | nil => cases ho
  | cons y l ih =>
    obtain ⟨rfl, positive, rest⟩ := h
    rcases List.mem_cons.mp ho with rfl | insideO
    · rcases List.mem_cons.mp hx with rfl | insideX
      · exact absurd rfl ne
      · exact Or.inl (rest.bounds insideX).1
    · rcases List.mem_cons.mp hx with rfl | insideX
      · exact Or.inr (rest.bounds insideO).1
      · exact ih rest insideO insideX

theorem sorted (h : Tiles size a b l) : l.Pairwise (· < ·) := by
  induction l generalizing a with
  | nil => exact List.Pairwise.nil
  | cons o l ih =>
    obtain ⟨rfl, positive, rest⟩ := h
    refine List.pairwise_cons.mpr ⟨fun x hx => ?_, ih rest⟩
    have := rest.bounds hx
    omega

theorem nodup (h : Tiles size a b l) : l.Nodup := h.sorted.imp Nat.ne_of_lt

/-- The sizes add up to the range. -/
theorem sum (h : Tiles size a b l) : a + (l.map size).sum = b := by
  induction l generalizing a with
  | nil => simpa [Tiles] using h
  | cons o l ih =>
    have := ih h.2.2
    rw [List.map_cons, List.sum_cons]
    omega

/-- Behind a piece comes the next one, or the end. -/
theorem next (h : Tiles size a b l) {o : Nat} (ho : o ∈ l) (more : o + size o < b) : o + size o ∈ l := by
  induction l generalizing a with
  | nil => cases ho
  | cons x l ih =>
    obtain ⟨rfl, _, rest⟩ := h
    rcases List.mem_cons.mp ho with rfl | inside
    · cases l with
      | nil =>
        have stop : o + size o = b := rest
        omega
      | cons y l =>
        rw [← rest.1]
        exact List.mem_cons_of_mem o List.mem_cons_self
    · exact List.mem_cons_of_mem x (ih rest inside)

/-- The pieces are reached one after another. -/
theorem forall_of_next {P : Nat → Prop} (h : Tiles size a b l) (start : a < b → P a)
    (step : ∀ o, P o → o + size o < b → P (o + size o)) : ∀ o ∈ l, P o := by
  induction l generalizing a with
  | nil => exact nofun
  | cons x l ih =>
    have bound := (h.bounds List.mem_cons_self).2
    obtain ⟨rfl, positive, rest⟩ := h
    have here := start (by omega)
    intro o ho
    rcases List.mem_cons.mp ho with rfl | inside
    · exact here
    · exact ih rest (fun more => step x here more) o inside

theorem length_le (h : Tiles size a b l) : a + l.length ≤ b := by
  induction l generalizing a with
  | nil => exact Nat.le_of_eq h
  | cons o l ih =>
    have := ih h.2.2
    have := h.2.1
    rw [List.length_cons]
    omega

/-- Cut the piece at `o` in two. -/
theorem split {o : Nat} (h : Tiles size a b (pre ++ o :: post)) (left : 0 < size' o)
    (right : 0 < size' (o + size' o)) (whole : size' o + size' (o + size' o) = size o)
    (same : ∀ x ∈ pre ++ post, size' x = size x) : Tiles size' a b (pre ++ o :: (o + size' o) :: post) := by
  obtain ⟨c, before, rfl, _, after⟩ := append.mp h
  refine append.mpr ⟨o, before.congr fun x hx => same x ?_, rfl, left, rfl, right, ?_⟩
  · exact List.mem_append_left post hx
  · rw [Nat.add_assoc, whole]
    exact after.congr fun x hx => same x (List.mem_append_right pre hx)

/-- Join the piece at `o` with the next one. -/
theorem merge {o x : Nat} (h : Tiles size a b (pre ++ o :: x :: post)) (whole : size' o = size o + size x)
    (same : ∀ y ∈ pre ++ post, size' y = size y) : Tiles size' a b (pre ++ o :: post) := by
  obtain ⟨c, before, rfl, positive, rfl, _, after⟩ := append.mp h
  refine append.mpr ⟨o, before.congr fun y hy => same y ?_, rfl, by omega, ?_⟩
  · exact List.mem_append_left post hy
  · rw [whole, ← Nat.add_assoc]
    exact after.congr fun y hy => same y (List.mem_append_right pre hy)

end Tiles

end PreTeO.Lib
