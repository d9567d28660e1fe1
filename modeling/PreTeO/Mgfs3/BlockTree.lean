import PreTeO.Mgfs3.BlockLookup
import PreTeO.Mgfs3.Removal

/-!
# Trees of units

`unitAt` is the unit of a block below a table at some level, `addressesAt` the address units on the way to it. Where entries
become invalid, blocks are lost and none is found elsewhere.
-/

namespace PreTeO.Mgfs3
set_option autoImplicit false
open PreTeO.Lib

/-- The unit of block `f` below a table of `c` slots at level `l`. -/
def unitAt (dev : Nat → Option Mem) (n l : Nat) (t : Table) (c f : Nat) : Option Nat :=
  (leafOf dev n l t c f).bind fun (t, c, f) => slotOf t c f

/-- The address units on the way to a block. -/
def addressesAt (dev : Nat → Option Mem) (n : Nat) : Nat → Table → Nat → Nat → List Nat
  | 0, _, _, _ => []
  | l + 1, t, c, f =>
    match slotOf t c (f / n ^ (l + 1)) with
    | none => []
    | some u =>
      match dev u with
      | none => [u]
      | some m => u :: addressesAt dev n l (entry m) n (f % n ^ (l + 1))

/-- The address units on the way to a block of an inode. -/
def addressesOf (dev : Nat → Option Mem) (unitSize : Nat) (inode : Inode) (block : Nat) : List Nat :=
  addressesAt dev (unitSize / 4) inode.level inode.location maxLocationIndex block

section Trees
variable {dev dev' : Nat → Option Mem} {n l c f u : Nat} {t t' : Table}

theorem slotOf_eq_some : slotOf t c f = some u ↔ f < c ∧ t f ≠ invalidUnitNumber ∧ t f = u := by
  rw [slotOf, Option.ite_none_right_eq_some, Option.some.injEq, and_assoc]

theorem slotOf_of_lt (inside : f < c) (valid : t f ≠ invalidUnitNumber) : slotOf t c f = some (t f) := if_pos ⟨inside, valid⟩

theorem slotOf_invalid (invalid : t f = invalidUnitNumber) : slotOf t c f = none := if_neg fun both => both.2 invalid

theorem unitAt_succ : unitAt dev n (l + 1) t c f =
    ((slotOf t c (f / n ^ (l + 1))).bind dev).bind fun m => unitAt dev n l (entry m) n (f % n ^ (l + 1)) := by
  unfold unitAt
  rw [leafOf, Option.bind_assoc]

/-- A unit below a table with all the slots of an address unit has a number with as many digits. -/
theorem unitAt_lt (found : unitAt dev n l t n f = some u) : f < n ^ (l + 1) := by
  cases l with
  | zero =>
    rw [pow_one]
    exact (slotOf_eq_some.1 found).1
  | succ l =>
    rw [unitAt_succ] at found
    obtain ⟨m, read, rest⟩ := Option.bind_eq_some_iff.1 found
    obtain ⟨a, used, -⟩ := Option.bind_eq_some_iff.1 read
    have digit : f / n ^ (l + 1) < n := (slotOf_eq_some.1 used).1
    have pos : 0 < n ^ (l + 1) := Nat.pow_pos (Nat.lt_of_le_of_lt (Nat.zero_le _) digit)
    rw [Nat.div_lt_iff_lt_mul pos, Nat.mul_comm, ← Nat.pow_succ] at digit
    exact digit

/-- The blocks below a slot. -/
theorem unitAt_child {i : Nat} {m : Mem} (used : slotOf t c i = some u) (read : dev u = some m) (low : f < n ^ (l + 1)) :
    unitAt dev n (l + 1) t c (i * n ^ (l + 1) + f) = unitAt dev n l (entry m) n f := by
  have digit : (i * n ^ (l + 1) + f) / n ^ (l + 1) = i := by
    rw [Nat.add_comm, Nat.add_mul_div_right _ _ (Nat.lt_of_le_of_lt (Nat.zero_le _) low), Nat.div_eq_of_lt low,
      Nat.zero_add]
  have rest : (i * n ^ (l + 1) + f) % n ^ (l + 1) = f := by
    rw [Nat.mul_add_mod', Nat.mod_eq_of_lt low]
  rw [unitAt_succ, digit, rest, used, Option.bind_some, read, Option.bind_some]

/-! ## Cuts -/

/-- Entries are as they were, or invalid now. -/
def Cut (t t' : Table) : Prop := ∀ i, t' i = t i ∨ t' i = invalidUnitNumber

/-- The same of the units that can be read. -/
def CutUnits (dev dev' : Nat → Option Mem) : Prop := ∀ u m', dev' u = some m' → ∃ m, dev u = some m ∧ Cut (entry m) (entry m')

theorem Cut.refl (t : Table) : Cut t t := fun _ => Or.inl rfl

theorem Cut.trans {t'' : Table} (first : Cut t t') (second : Cut t' t'') : Cut t t'' := by
  intro i
  rcases second i with same | invalid
  · rw [same]
    exact first i
  · exact Or.inr invalid

theorem Cut.slotOf (cut : Cut t t') (used : slotOf t' c f = some u) : slotOf t c f = some u := by
  obtain ⟨inside, valid, rfl⟩ := slotOf_eq_some.1 used
  have same : t' f = t f := (cut f).resolve_right valid
  rw [same] at valid ⊢
  exact slotOf_of_lt inside valid

/-- A unit that is still found was found before. -/
theorem unitAt_cut (units : CutUnits dev dev') (cut : Cut t t') (found : unitAt dev' n l t' c f = some u) :
    unitAt dev n l t c f = some u := by
  induction l generalizing t t' c f with
  | zero => exact cut.slotOf found
  | succ l ih =>
    rw [unitAt_succ] at found ⊢
    obtain ⟨m', read, rest⟩ := Option.bind_eq_some_iff.1 found
    obtain ⟨a, used, reads⟩ := Option.bind_eq_some_iff.1 read
    obtain ⟨m, reads', below⟩ := units a m' reads
    rw [cut.slotOf used, Option.bind_some, reads', Option.bind_some]
    exact ih below rest

end Trees

end PreTeO.Mgfs3
