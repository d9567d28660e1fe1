import PreTeO.Mgfs3.BlockTree

/-!
# Filled trees

The tree of an inode is filled from the front: below a table with `k` blocks each slot but the last has all the blocks it has
room for. `treeUnits` are the units such a tree is made of.
-/

namespace PreTeO.Mgfs3
set_option autoImplicit false
open PreTeO.Lib

/-- The blocks below slot `i` of a table at level `l + 1` that has `k` of them. -/
def share (n l k i : Nat) : Nat := min (n ^ (l + 1)) (k - i * n ^ (l + 1))

/-- A table of `c` slots at a level has `k` blocks, filled from the front. -/
def TreeFilled (dev : Nat → Option Mem) (n : Nat) : Nat → Table → Nat → Nat → Prop
  | 0, t, c, k => k ≤ c ∧ ∀ i < c, t i ≠ invalidUnitNumber ↔ i < k
  | l + 1, t, c, k => k ≤ c * n ^ (l + 1) ∧ ∀ i < c,
      if i * n ^ (l + 1) < k then
        t i ≠ invalidUnitNumber ∧ ∃ m, dev (t i) = some m ∧ TreeFilled dev n l (entry m) n (share n l k i)
      else t i = invalidUnitNumber

/-- The units below the first `c` slots of a table that has `k` blocks: data units, and the address units on the way. -/
def treeUnits (dev : Nat → Option Mem) (n : Nat) : Nat → Table → Nat → Nat → List Nat
  | 0, t, c, k => (List.range (min c k)).map t
  | l + 1, t, c, k => (List.range c).flatMap fun i =>
      if i * n ^ (l + 1) < k then
        match dev (t i) with
        | none => [t i]
        | some m => t i :: treeUnits dev n l (entry m) n (share n l k i)
      else []

section Trees
variable {dev dev' : Nat → Option Mem} {n l c k : Nat} {t t' : Table}

theorem share_full {i : Nat} (below : (i + 1) * n ^ (l + 1) ≤ k) : share n l k i = n ^ (l + 1) := by
  rw [Nat.succ_mul] at below
  unfold share
  omega

theorem share_last {i : Nat} (le : k ≤ (i + 1) * n ^ (l + 1)) : share n l k i = k - i * n ^ (l + 1) := by
  rw [Nat.succ_mul] at le
  unfold share
  omega

/-- A slot with blocks. -/
theorem TreeFilled.slot (filled : TreeFilled dev n (l + 1) t c k) {i : Nat} (inside : i < c) (some : i * n ^ (l + 1) < k) :
    t i ≠ invalidUnitNumber ∧ ∃ m, dev (t i) = Option.some m ∧ TreeFilled dev n l (entry m) n (share n l k i) := by
  have slot := filled.2 i inside
  rwa [if_pos some] at slot

theorem TreeFilled.invalid (filled : TreeFilled dev n (l + 1) t c k) {i : Nat} (inside : i < c) (none : k ≤ i * n ^ (l + 1)) :
    t i = invalidUnitNumber := by
  have slot := filled.2 i inside
  rwa [if_neg (Nat.not_lt_of_le none)] at slot

/-- The units below a slot with blocks. -/
theorem treeUnits_slot {i : Nat} {m : Mem} (some : i * n ^ (l + 1) < k) (read : dev (t i) = Option.some m) :
    treeUnits dev n (l + 1) t (i + 1) k =
      treeUnits dev n (l + 1) t i k ++ t i :: treeUnits dev n l (entry m) n (share n l k i) := by
  conv_lhs => unfold treeUnits
  rw [List.range_succ, List.flatMap_append, List.flatMap_singleton, if_pos some, read]
  rfl

theorem treeUnits_empty {i : Nat} (none : k ≤ i * n ^ (l + 1)) :
    treeUnits dev n (l + 1) t (i + 1) k = treeUnits dev n (l + 1) t i k := by
  conv_lhs => unfold treeUnits
  rw [List.range_succ, List.flatMap_append, List.flatMap_singleton, if_neg (Nat.not_lt_of_le none), List.append_nil]
  rfl

/-- Slots behind the last block have no units. -/
theorem treeUnits_slots {i : Nat} (le : i ≤ c) (all : k ≤ i * n ^ (l + 1)) :
    treeUnits dev n (l + 1) t c k = treeUnits dev n (l + 1) t i k := by
  induction c with
  | zero =>
    obtain rfl : i = 0 := by omega
    rfl
  | succ c ih =>
    rcases Nat.lt_or_ge i (c + 1) with before | last
    · rw [treeUnits_empty (Nat.le_trans all (Nat.mul_le_mul_right _ (Nat.le_of_lt_succ before))),
        ih (Nat.le_of_lt_succ before)]
    · obtain rfl : i = c + 1 := by omega
      rfl

/-- Slots that are full have the same units whatever is behind them. -/
theorem treeUnits_full {i k' : Nat} (pos : 0 < n) (full : i * n ^ (l + 1) ≤ k) (full' : i * n ^ (l + 1) ≤ k') :
    treeUnits dev n (l + 1) t i k = treeUnits dev n (l + 1) t i k' := by
  induction i with
  | zero => rfl
  | succ i ih =>
    have room : 0 < n ^ (l + 1) := Nat.pow_pos pos
    have share_eq : share n l k i = share n l k' i := by rw [share_full full, share_full full']
    rw [Nat.succ_mul] at full full'
    have some : i * n ^ (l + 1) < k := by omega
    have some' : i * n ^ (l + 1) < k' := by omega
    have before := ih (by omega) (by omega)
    unfold treeUnits at before ⊢
    rw [List.range_succ, List.flatMap_append, List.flatMap_append, before, List.flatMap_singleton, List.flatMap_singleton,
      if_pos some, if_pos some', share_eq]

/-! ## What a tree depends on -/

theorem mem_treeUnits_slot {i u : Nat} {m : Mem} (inside : i < c) (some : i * n ^ (l + 1) < k)
    (read : dev (t i) = Option.some m) (member : u = t i ∨ u ∈ treeUnits dev n l (entry m) n (share n l k i)) :
    u ∈ treeUnits dev n (l + 1) t c k := by
  unfold treeUnits
  refine List.mem_flatMap.2 ⟨i, List.mem_range.2 inside, ?_⟩
  rw [if_pos some, read]
  exact List.mem_cons.2 member

/-- Trees are found through their own units. -/
theorem TreeFilled.congr (filled : TreeFilled dev n l t c k) (table : ∀ i < c, t' i = t i)
    (units : ∀ u ∈ treeUnits dev n l t c k, dev' u = dev u) :
    TreeFilled dev' n l t' c k ∧ treeUnits dev' n l t' c k = treeUnits dev n l t c k := by
  induction l generalizing t t' c k with
  | zero =>
    refine ⟨⟨filled.1, fun i inside => ?_⟩, ?_⟩
    · rw [table i inside]
      exact filled.2 i inside
    · unfold treeUnits
      apply List.map_congr_left
      intro i member
      rw [List.mem_range] at member
      exact table i (by omega)
  | succ l ih =>
    -- a slot with blocks leads to the same tree
    have slot : ∀ i < c, i * n ^ (l + 1) < k → ∃ m, dev (t i) = some m ∧ dev' (t' i) = some m ∧
        TreeFilled dev' n l (entry m) n (share n l k i) ∧
        treeUnits dev' n l (entry m) n (share n l k i) = treeUnits dev n l (entry m) n (share n l k i) := by
      intro i inside some
      obtain ⟨_, m, read, below⟩ := filled.slot inside some
      refine ⟨m, read, ?_, ih below (fun _ _ => rfl) fun u member => ?_⟩
      · rw [table i inside, units (t i) (mem_treeUnits_slot inside some read (Or.inl rfl)), read]
      · exact units u (mem_treeUnits_slot inside some read (Or.inr member))
    refine ⟨⟨filled.1, fun i inside => ?_⟩, ?_⟩
    · rw [table i inside]
      by_cases some : i * n ^ (l + 1) < k
      · obtain ⟨m, read, read', below, _⟩ := slot i inside some
        rw [if_pos some]
        rw [table i inside] at read'
        exact ⟨(filled.slot inside some).1, m, read', below⟩
      · rw [if_neg some]
        exact filled.invalid inside (Nat.le_of_not_lt some)
    · unfold treeUnits
      rw [List.flatMap_def, List.flatMap_def]
      congr 1
      apply List.map_congr_left
      intro i member
      rw [List.mem_range] at member
      by_cases some : i * n ^ (l + 1) < k
      · obtain ⟨m, read, read', _, same⟩ := slot i member some
        rw [table i member] at read'
        simp only [if_pos some, read, read', same, table i member]
      · simp only [if_neg some]

/-- The tree without its last slot. -/
theorem TreeFilled.front (filled : TreeFilled dev n (l + 1) t c k) (pos : 0 < n) {i : Nat} (inside : i < c)
    (some : i * n ^ (l + 1) < k) (table : ∀ j < i, t' j = t j) (rest : ∀ j, i ≤ j → j < c → t' j = invalidUnitNumber)
    (units : ∀ u ∈ treeUnits dev n (l + 1) t i k, dev' u = dev u) :
    TreeFilled dev' n (l + 1) t' c (i * n ^ (l + 1)) ∧
      treeUnits dev' n (l + 1) t' i (i * n ^ (l + 1)) = treeUnits dev n (l + 1) t i k := by
  have room : 0 < n ^ (l + 1) := Nat.pow_pos pos
  have le : ∀ {j}, j < i → (j + 1) * n ^ (l + 1) ≤ i * n ^ (l + 1) := fun before => Nat.mul_le_mul_right _ before
  have front : TreeFilled dev n (l + 1) t i (i * n ^ (l + 1)) := by
    refine ⟨Nat.le_refl _, fun j before => ?_⟩
    have more := le before
    have next := le before
    rw [Nat.succ_mul] at more
    rw [if_pos (by omega)]
    have slot := filled.slot (i := j) (by omega) (by omega)
    rw [share_full (Nat.le_trans next some.le)] at slot
    rw [share_full next]
    exact slot
  have same : treeUnits dev n (l + 1) t i (i * n ^ (l + 1)) = treeUnits dev n (l + 1) t i k :=
    treeUnits_full pos (Nat.le_refl _) some.le
  rw [← same] at units ⊢
  obtain ⟨filled', units'⟩ := front.congr table units
  refine ⟨⟨Nat.mul_le_mul_right _ inside.le, fun j below => ?_⟩, units'⟩
  rcases Nat.lt_or_ge j i with before | behind
  · exact filled'.2 j before
  · rw [if_neg (Nat.not_lt_of_le (Nat.mul_le_mul_right _ behind))]
    exact rest j behind below

/-- Fewer blocks are made of fewer units. -/
theorem treeUnits_subset {q : Nat} (le : q ≤ k) (u : Nat) (member : u ∈ treeUnits dev n l t c q) : u ∈ treeUnits dev n l t c k := by
  induction l generalizing t c k q with
  | zero =>
    unfold treeUnits at member ⊢
    obtain ⟨i, inside, rfl⟩ := List.mem_map.1 member
    rw [List.mem_range] at inside
    exact List.mem_map.2 ⟨i, List.mem_range.2 (by omega), rfl⟩
  | succ l ih =>
    unfold treeUnits at member ⊢
    obtain ⟨i, inside, below⟩ := List.mem_flatMap.1 member
    refine List.mem_flatMap.2 ⟨i, inside, ?_⟩
    by_cases some : i * n ^ (l + 1) < q
    · rw [if_pos some] at below
      rw [if_pos (Nat.lt_of_lt_of_le some le)]
      cases read : dev (t i) with
      | none =>
        rw [read] at below
        exact below
      | some m =>
        rw [read] at below
        have share_le : share n l q i ≤ share n l k i := by
          unfold share
          omega
        exact List.mem_cons.2 ((List.mem_cons.1 below).imp_right (ih share_le))
    · rw [if_neg some] at below
      cases below

/-- The units of some blocks are found through the slots these blocks need. -/
theorem treeUnits_congr (table : ∀ i < c, i * n ^ l < k → t' i = t i) (units : ∀ u ∈ treeUnits dev n l t c k, dev' u = dev u) :
    treeUnits dev' n l t' c k = treeUnits dev n l t c k := by
  induction l generalizing t t' c k with
  | zero =>
    unfold treeUnits
    apply List.map_congr_left
    intro i member
    rw [List.mem_range] at member
    exact table i (by omega) (by rw [Nat.pow_zero]; omega)
  | succ l ih =>
    unfold treeUnits at units ⊢
    rw [List.flatMap_def, List.flatMap_def]
    congr 1
    apply List.map_congr_left
    intro i member
    by_cases some : i * n ^ (l + 1) < k
    · rw [if_pos some, if_pos some, table i (List.mem_range.1 member) some]
      have inside : ∀ u, (u ∈ match dev (t i) with
          | none => [t i]
          | Option.some m => t i :: treeUnits dev n l (entry m) n (share n l k i)) → dev' u = dev u := by
        intro u below
        apply units u
        refine List.mem_flatMap.2 ⟨i, member, ?_⟩
        rw [if_pos some]
        exact below
      cases read : dev (t i) with
      | none =>
        rw [read] at inside
        rw [inside (t i) List.mem_cons_self, read]
      | some m =>
        rw [read] at inside
        rw [inside (t i) List.mem_cons_self, read]
        dsimp only
        rw [ih (fun _ _ _ => rfl) fun u below => inside u (List.mem_cons_of_mem _ below)]
    · rw [if_neg some, if_neg some]

/-- The tree with a last slot that has fewer blocks. -/
theorem TreeFilled.shrink (filled : TreeFilled dev n (l + 1) t c k) (pos : 0 < n) {i q : Nat} (inside : i < c)
    (some : i * n ^ (l + 1) < k) (last : k ≤ (i + 1) * n ^ (l + 1)) (fewer : 0 < q) (room : q ≤ n ^ (l + 1))
    (table : ∀ j < c, t' j = t j) (units : ∀ u ∈ treeUnits dev n (l + 1) t i k, dev' u = dev u) {m : Mem}
    (read : dev' (t i) = Option.some m) (below : TreeFilled dev' n l (entry m) n q) :
    TreeFilled dev' n (l + 1) t' c (i * n ^ (l + 1) + q) := by
  have same : ∀ j < i, (fun j => if j < i then t j else invalidUnitNumber : Table) j = t j := fun j before => if_pos before
  obtain ⟨front, _⟩ := filled.front pos inside some same (fun j behind _ => if_neg (Nat.not_lt_of_le behind)) units
  have next : (i + 1) * n ^ (l + 1) ≤ c * n ^ (l + 1) := Nat.mul_le_mul_right _ inside
  rw [Nat.succ_mul] at next
  refine ⟨by omega, fun j low => ?_⟩
  rw [table j low]
  rcases Nat.lt_trichotomy j i with before | rfl | behind
  · have full : (j + 1) * n ^ (l + 1) ≤ i * n ^ (l + 1) := Nat.mul_le_mul_right _ before
    have slot := front.slot low (by rw [Nat.succ_mul] at full; omega)
    rw [share_full full, if_pos before] at slot
    rw [share_full (Nat.le_trans full (Nat.le_add_right _ _)), if_pos (by rw [Nat.succ_mul] at full; omega)]
    exact slot
  · rw [if_pos (by omega), share_last (by rw [Nat.succ_mul]; omega), Nat.add_sub_cancel_left]
    exact ⟨(filled.slot inside some).1, m, read, below⟩
  · have beyond : (i + 1) * n ^ (l + 1) ≤ j * n ^ (l + 1) := Nat.mul_le_mul_right _ behind
    rw [if_neg (by rw [Nat.succ_mul] at beyond; omega)]
    exact filled.invalid low (Nat.le_trans last beyond)

/-! ## Blocks -/

/-- The blocks of a filled tree are found, and no others. -/
theorem TreeFilled.mapped (filled : TreeFilled dev n l t c k) (f : Nat) : (unitAt dev n l t c f).isSome ↔ f < k := by
  induction l generalizing t c k f with
  | zero =>
    change (slotOf t c f).isSome ↔ _
    by_cases inside : f < c
    · rw [← filled.2 f inside]
      by_cases valid : t f ≠ invalidUnitNumber
      · simp [slotOf_of_lt inside valid, valid]
      · rw [not_not] at valid
        simp [slotOf_invalid valid, valid]
    · have none : slotOf t c f = none := if_neg fun both => inside both.1
      have le := filled.1
      simp only [none, Option.isSome_none, Bool.false_eq_true, false_iff]
      omega
  | succ l ih =>
    have le := filled.1
    rcases Nat.eq_zero_or_pos n with rfl | pos
    · -- there is no room for a block
      have none : unitAt dev 0 (l + 1) t c f = none := by
        rw [unitAt_succ, show slotOf t c (f / 0 ^ (l + 1)) = none from if_neg fun both =>
          both.2 (filled.invalid both.1 (by rw [Nat.zero_pow (Nat.succ_pos l)] at le ⊢; omega))]
        rfl
      rw [Nat.zero_pow (Nat.succ_pos l)] at le
      simp only [none, Option.isSome_none, Bool.false_eq_true, false_iff]
      omega
    have room : 0 < n ^ (l + 1) := Nat.pow_pos pos
    have whole := Nat.div_add_mod f (n ^ (l + 1))
    rw [Nat.mul_comm] at whole
    have low := Nat.mod_lt f room
    generalize f / n ^ (l + 1) = i at whole
    generalize f % n ^ (l + 1) = g at whole low
    subst whole
    by_cases inside : i < c
    · by_cases some : i * n ^ (l + 1) < k
      · obtain ⟨valid, m, read, below⟩ := filled.slot inside some
        rw [unitAt_child (slotOf_of_lt inside valid) read low, ih below g]
        unfold share
        omega
      · have none : unitAt dev n (l + 1) t c (i * n ^ (l + 1) + g) = none := by
          have digit : (i * n ^ (l + 1) + g) / n ^ (l + 1) = i := by
            rw [Nat.add_comm, Nat.add_mul_div_right _ _ room, Nat.div_eq_of_lt low, Nat.zero_add]
          rw [unitAt_succ, digit, slotOf_invalid (filled.invalid inside (Nat.le_of_not_lt some))]
          rfl
        simp only [none, Option.isSome_none, Bool.false_eq_true, false_iff]
        omega
    · have digit : (i * n ^ (l + 1) + g) / n ^ (l + 1) = i := by
        rw [Nat.add_comm, Nat.add_mul_div_right _ _ room, Nat.div_eq_of_lt low, Nat.zero_add]
      have none : unitAt dev n (l + 1) t c (i * n ^ (l + 1) + g) = none := by
        rw [unitAt_succ, digit, slotOf, if_neg fun both => inside both.1]
        rfl
      have beyond : c * n ^ (l + 1) ≤ i * n ^ (l + 1) := Nat.mul_le_mul_right _ (Nat.le_of_not_lt inside)
      simp only [none, Option.isSome_none, Bool.false_eq_true, false_iff]
      omega

end Trees

end PreTeO.Mgfs3
