import Mathlib.Data.List.Chain

/-!
# Pieces stacked downwards

Pieces that carry their own start and length and lie end to end from `top` down: each piece ends where the one before it
starts. A piece is added below the lowest one, cut in two in place, or joined with the one below it.
-/

namespace PreTeO.Lib
set_option autoImplicit false

variable {C : Type*} (start size : C → Nat)

/-- The start of the lowest piece. -/
def lowest : Nat → List C → Nat
  | top, [] => top
  | _, c :: rest => lowest (start c) rest

/-- The pieces lie end to end from `top` down, and none of them is empty. -/
def Stacked : Nat → List C → Prop
  | _, [] => True
  | top, c :: rest => start c + size c = top ∧ 0 < size c ∧ Stacked (start c) rest

instance Stacked.decidable : ∀ (top : Nat) (l : List C), Decidable (Stacked start size top l)
  | _, [] => inferInstanceAs (Decidable True)
  | _, c :: rest =>
    have := Stacked.decidable (start c) rest
    inferInstanceAs (Decidable (_ ∧ _ ∧ _))

variable {start size} {top : Nat} {l pre post : List C} {c d : C}

@[simp] theorem lowest_nil : lowest start top [] = top := rfl

@[simp] theorem lowest_cons : lowest start top (c :: l) = lowest start (start c) l := rfl

theorem lowest_append : lowest start top (pre ++ post) = lowest start (lowest start top pre) post := by
  induction pre generalizing top with
  | nil => rfl
  | cons c pre ih => exact ih

namespace Stacked

theorem append : Stacked start size top (pre ++ post) ↔
    Stacked start size top pre ∧ Stacked start size (lowest start top pre) post := by
  induction pre generalizing top with
  | nil => simp [Stacked]
  | cons c pre ih => simp [Stacked, ih, and_assoc]

theorem lowest_le (h : Stacked start size top l) : lowest start top l ≤ top := by
  induction l generalizing top with
  | nil => exact Nat.le_refl top
  | cons c l ih =>
    have := ih h.2.2
    have := h.1
    rw [lowest_cons]
    omega

/-- Every piece lies between the lowest start and the top. -/
theorem bounds (h : Stacked start size top l) (member : c ∈ l) :
    lowest start top l ≤ start c ∧ 0 < size c ∧ start c + size c ≤ top := by
  induction l generalizing top with
  | nil => cases member
  | cons x l ih =>
    obtain ⟨stop, positive, rest⟩ := h
    rw [lowest_cons]
    rcases List.mem_cons.mp member with rfl | inside
    · exact ⟨rest.lowest_le, positive, Nat.le_of_eq stop⟩
    · have := ih rest inside
      omega

/-- Different pieces do not overlap. -/
theorem apart (h : Stacked start size top l) (first : c ∈ l) (second : d ∈ l) (differ : c ≠ d) :
    start c + size c ≤ start d ∨ start d + size d ≤ start c := by
  induction l generalizing top with
  | nil => cases first
  | cons x l ih =>
    obtain ⟨-, -, rest⟩ := h
    rcases List.mem_cons.mp first with rfl | inside
    · rcases List.mem_cons.mp second with rfl | inside'
      · exact absurd rfl differ
      · exact Or.inr (rest.bounds inside').2.2
    · rcases List.mem_cons.mp second with rfl | inside'
      · exact Or.inl (rest.bounds inside).2.2
      · exact ih rest inside inside'

/-- Add a piece below the lowest one. -/
theorem push (h : Stacked start size top l) (stop : start c + size c = lowest start top l) (positive : 0 < size c) :
    Stacked start size top (l ++ [c]) :=
  append.mpr ⟨h, stop, positive, trivial⟩

/-- Cut a piece in two. -/
theorem split {upper lower : C} (h : Stacked start size top (pre ++ c :: post)) (begins : start lower = start c)
    (meets : start upper = start lower + size lower) (whole : size upper + size lower = size c)
    (left : 0 < size upper) (right : 0 < size lower) : Stacked start size top (pre ++ upper :: lower :: post) := by
  obtain ⟨before, stop, -, after⟩ := append.mp h
  refine append.mpr ⟨before, by omega, left, meets.symm, right, ?_⟩
  rwa [begins]

/-- Join a piece with the one below it. -/
theorem merge (pre : List C) {joined : C} (h : Stacked start size top (pre ++ c :: d :: post)) (begins : start joined = start d)
    (whole : size joined = size c + size d) : Stacked start size top (pre ++ joined :: post) := by
  obtain ⟨before, stop, positive, meets, positive', after⟩ := append.mp h
  refine append.mpr ⟨before, by omega, by omega, ?_⟩
  rwa [begins]

end Stacked

theorem lowest_split {upper lower : C} (begins : start lower = start c) :
    lowest start top (pre ++ upper :: lower :: post) = lowest start top (pre ++ c :: post) := by
  simp [lowest_append, begins]

theorem lowest_merge {joined : C} (begins : start joined = start d) :
    lowest start top (pre ++ joined :: post) = lowest start top (pre ++ c :: d :: post) := by
  simp [lowest_append, begins]

/-! ## Joining neighbours -/

/-- Join every piece with the ones below it as long as both are free. -/
def coalesce (join : C → C → C) (free : C → Bool) : List C → List C
  | [] => []
  | [c] => [c]
  | c :: d :: rest =>
    if free c && free d then coalesce join free (join c d :: rest) else c :: coalesce join free (d :: rest)
termination_by l => l.length

section Coalesce
variable {join : C → C → C} {free : C → Bool} (begins : ∀ c d, start (join c d) = start d)

include begins in
theorem lowest_coalesce (free : C → Bool) (l : List C) : lowest start top (coalesce join free l) = lowest start top l := by
  fun_induction coalesce join free l generalizing top with
  | case1 => rfl
  | case2 => rfl
  | case3 c d rest both ih => rw [ih, lowest_cons, lowest_cons, lowest_cons, begins]
  | case4 c d rest apart ih => simp only [lowest_cons, ih]

include begins in
theorem Stacked.coalesce (whole : ∀ c d, size (join c d) = size c + size d) (h : Stacked start size top l) :
    Stacked start size top (Lib.coalesce join free l) := by
  fun_induction Lib.coalesce join free l generalizing top with
  | case1 => exact h
  | case2 => exact h
  | case3 c d rest both ih => exact ih (h.merge [] (begins c d) (whole c d))
  | case4 c d rest apart ih => exact ⟨h.1, h.2.1, ih h.2.2⟩

/-- Pieces that are kept apart from their free neighbours are not joined. -/
theorem mem_coalesce (kept : C → Prop) (inherits : ∀ c d, free (join c d) = free d)
    (passes : ∀ c d, kept (join c d) → kept d)
    (chain : l.IsChain fun c d => free c = true → free d = true → ¬ kept c ∧ ¬ kept d) (member : c ∈ l) (stays : kept c) :
    c ∈ coalesce join free l := by
  fun_induction coalesce join free l with
  | case1 => exact member
  | case2 => exact member
  | case3 x d rest both ih =>
    obtain ⟨freeX, freeD⟩ := Bool.and_eq_true_iff.mp both
    obtain ⟨neither, tail⟩ := List.isChain_cons_cons.mp chain
    have notKept := neither freeX freeD
    apply ih
    · cases rest with
      | nil => exact List.IsChain.singleton _
      | cons e rest =>
        obtain ⟨next, tail⟩ := List.isChain_cons_cons.mp tail
        refine List.isChain_cons_cons.mpr ⟨fun freeJoin freeE => ?_, tail⟩
        rw [inherits] at freeJoin
        have := next freeJoin freeE
        exact ⟨fun keptJoin => this.1 (passes x d keptJoin), this.2⟩
    · rcases List.mem_cons.mp member with rfl | inside
      · exact absurd stays notKept.1
      · rcases List.mem_cons.mp inside with rfl | inside
        · exact absurd stays notKept.2
        · exact List.mem_cons_of_mem _ inside
  | case4 x d rest apart ih =>
    rcases List.mem_cons.mp member with rfl | inside
    · exact List.mem_cons_self
    · exact List.mem_cons_of_mem x (ih (List.isChain_cons_cons.mp chain).2 inside)

/-- Joined pieces are as good as the pieces they were made of. -/
theorem forall_coalesce {P : C → Prop} (joins : ∀ c d, P c → P d → P (join c d)) (all : ∀ c ∈ l, P c) :
    ∀ c ∈ coalesce join free l, P c := by
  fun_induction coalesce join free l with
  | case1 => exact all
  | case2 => exact all
  | case3 c d rest both ih =>
    obtain ⟨first, second, rest⟩ := by simpa using all
    exact ih (by simpa using ⟨joins c d first second, rest⟩)
  | case4 c d rest apart ih =>
    obtain ⟨first, rest⟩ := List.forall_mem_cons.mp all
    exact List.forall_mem_cons.mpr ⟨first, ih rest⟩

theorem length_coalesce (join : C → C → C) (free : C → Bool) (l : List C) : (coalesce join free l).length ≤ l.length := by
  fun_induction coalesce join free l with
  | case1 => exact Nat.le_refl _
  | case2 => exact Nat.le_refl _
  | case3 c d rest both ih =>
    simp only [List.length_cons] at ih ⊢
    omega
  | case4 c d rest apart ih =>
    simp only [List.length_cons] at ih ⊢
    omega

end Coalesce

end PreTeO.Lib
