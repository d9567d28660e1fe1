import PreTeO.Mgfs3.InodeDeletion
import PreTeO.Mgfs3.RemoveSome

/-!
# What `inode_remove_block` is for

It is to remove the last blocks of an inode and no others. It does if it counts its blocks right at the level of the inode,
and what is left of them ends where `Stops` says.
-/

namespace PreTeO.Mgfs3
set_option autoImplicit false
open PreTeO.Lib

/-- The units of the first blocks of an inode: data units, and the address units on the way to them. -/
def Volume.firstUnits (v : Volume) (r : Ref) (blocks : Nat) : List Nat :=
  v.unitsAt (v.inodes r).level (.locations r) maxLocationIndex blocks

/-- The last `n` blocks of an inode are removed. -/
structure RemovesBlocks (v : Volume) (g : Growth) (base n hlock : Nat) (w : Volume) : Prop where
  run : ∃ empty, (inodeRemoveBlock g hlock (v.inodes g.inode.ref).level base n).run v = .ok ((n, empty), w)
  bits : ∀ u, w.bit g.bitmap.ref u = (v.bit g.bitmap.ref u &&
    !decide (u ∈ v.unitsOf g.inode.ref ∧ u ∉ v.firstUnits g.inode.ref ((v.inodes g.inode.ref).dunits - n)))
  dunits : (w.inodes g.inode.ref).dunits = (v.inodes g.inode.ref).dunits - n
  blocks : ∀ block, unitOf w.dev w.unitSize (w.inodes g.inode.ref) block =
    if block < (v.inodes g.inode.ref).dunits - n then unitOf v.dev v.unitSize (v.inodes g.inode.ref) block else none

/-- An inode with its blocks, and bitmap files for their units. -/
structure Removable (g : Growth) (v : Volume) : Prop where
  separate : g.Separate
  sound : Sound g (fun unit => unit ∈ v.unitsOf g.inode.ref) v
  holds : Holds g (fun unit => unit ∈ v.unitsOf g.inode.ref) v (v.inodes g.inode.ref).level (.locations g.inode.ref)
    maxLocationIndex (v.inodes g.inode.ref).dunits
  small : (v.inodes g.inode.ref).dunits < 2 ^ 32

section Removable
variable {g : Growth} {v w : Volume} {hlock base n : Nat}

theorem treeFilled_empty {dev : Nat → Option Mem} {m l c : Nat} {t : Table} (invalid : ∀ j < c, t j = invalidUnitNumber) :
    TreeFilled dev m l t c 0 := by
  cases l with
  | zero => exact ⟨Nat.zero_le _, fun j below => ⟨fun valid => absurd (invalid j below) valid, nofun⟩⟩
  | succ l =>
    refine ⟨Nat.zero_le _, fun j below => ?_⟩
    rw [if_neg (Nat.not_lt_zero _)]
    exact invalid j below

theorem stops_zero (m l : Nat) : Stops m l 0 := by
  cases l with
  | zero => rfl
  | succ l => exact Or.inl (Nat.zero_mod _)

/-- Where the removal stops as it should the blocks are left as they should be. -/
theorem Removable.leaves (inode : Removable g v) (ready : Ready hlock v) (le : n ≤ (v.inodes g.inode.ref).dunits)
    (pos : 0 < n) (stops : Stops (v.unitSize / 4) (v.inodes g.inode.ref).level ((v.inodes g.inode.ref).dunits - n)) (base : Nat) :
    ∃ empty w, (inodeRemoveBlock g hlock (v.inodes g.inode.ref).level base n).run v = .ok ((n, empty), w) ∧
      Leaves g v (v.inodes g.inode.ref).level (.locations g.inode.ref) maxLocationIndex (v.inodes g.inode.ref).dunits
        ((v.inodes g.inode.ref).dunits - n) w := by
  rcases Nat.lt_or_ge n (v.inodes g.inode.ref).dunits with less | all
  · obtain ⟨x, j, w, run, good, _⟩ := inodeRemoveBlock_part inode.separate inode.sound ready inode.holds base pos less
    obtain ⟨count, _, leaves⟩ := good stops
    obtain rfl : x = n := by simpa using count
    exact ⟨_, w, run, leaves⟩
  · obtain rfl : n = (v.inodes g.inode.ref).dunits := Nat.le_antisymm le all
    obtain ⟨empty, w, run, _, frees, invalid⟩ := inodeRemoveBlock_all inode.separate inode.sound ready inode.holds base
      (Nat.le_refl _)
    refine ⟨empty, w, run, ⟨_, fun u => ?_, frees⟩, ?_⟩
    · rw [Nat.sub_self, show v.unitsAt (v.inodes g.inode.ref).level (.locations g.inode.ref) maxLocationIndex 0 = [] from
        treeUnits_zero _ _ _ _ _]
      simp
    · rw [Nat.sub_self]
      exact treeFilled_empty invalid

/-- The blocks that are left are those there were. -/
theorem Leaves.blocks {l c k q : Nat} {place : Place} (leaves : Leaves g v l place c k q w) (moved : Prunable g v w)
    (block : Nat) :
    unitAt w.dev (w.unitSize / 4) l (place.table w) c block =
      if block < q then unitAt v.dev (v.unitSize / 4) l (place.table v) c block else none := by
  have size : w.unitSize = v.unitSize := moved.unitSize
  have left := leaves.filled
  rw [size] at left ⊢
  cases found : unitAt w.dev (v.unitSize / 4) l (place.table w) c block with
  | none =>
    rw [if_neg]
    intro below
    have is := (left.mapped block).2 below
    rw [found] at is
    cases is
  | some unit =>
    have below : block < q := (left.mapped block).1 (by rw [found]; rfl)
    rw [if_pos below]
    exact (unitAt_cut moved.units (moved.table place) found).symm

/-- A removal of no blocks. -/
theorem Removable.nothing (inode : Removable g v) (base : Nat) : RemovesBlocks v g base 0 hlock v := by
  refine ⟨⟨false, inodeRemoveBlock_none _ _ base _⟩, fun u => ?_, rfl, fun block => ?_⟩
  · rw [Nat.sub_zero, show v.firstUnits g.inode.ref (v.inodes g.inode.ref).dunits = v.unitsOf g.inode.ref from rfl]
    simp
  · rw [Nat.sub_zero]
    by_cases below : block < (v.inodes g.inode.ref).dunits
    · rw [if_pos below]
    · rw [if_neg below]
      have outside : unitOf v.dev v.unitSize (v.inodes g.inode.ref) block = none := by
        rw [← Option.not_isSome_iff_eq_none]
        exact fun is => below ((inode.holds.filled.mapped block).1 is)
      exact outside

/-- What the levels take off too much is lost in 32 bits. -/
theorem Removable.removes (inode : Removable g v) (ready : Ready hlock v) (le : n ≤ (v.inodes g.inode.ref).dunits)
    (pos : 0 < n) (wraps : 2 ^ 32 ∣ (v.inodes g.inode.ref).level * n)
    (stops : Stops (v.unitSize / 4) (v.inodes g.inode.ref).level ((v.inodes g.inode.ref).dunits - n)) (base : Nat) :
    ∃ w, RemovesBlocks v g base n hlock w := by
  obtain ⟨empty, w, run, leaves⟩ := inode.leaves ready le pos stops base
  obtain ⟨a, w', run', drops⟩ := inodeRemoveBlock_drops (g := g) base ready n
  rw [run] at run'
  cases run'
  have moved : Prunable g v w := by
    have passes := (inodeRemoveBlock_passes (prunable_removal g) (v.inodes g.inode.ref).level base n).of_run ready
      (by rw [holding_nil]; exact run)
    rwa [holding_nil] at passes
  obtain ⟨Z, members, frees⟩ := leaves.frees
  refine ⟨w, ⟨empty, run⟩, fun u => ?_, ?_, fun block => ?_⟩
  · rw [Volume.bit_eq, Volume.bit_eq, frees.main.bits]
    have same : u ∈ Z ↔ u ∈ v.unitsOf g.inode.ref ∧ u ∉ v.firstUnits g.inode.ref ((v.inodes g.inode.ref).dunits - n) :=
      members u
    by_cases here : u ∈ Z
    · rw [if_pos here, decide_eq_true (same.1 here), Bool.not_true, Bool.and_false]
    · rw [if_neg here, decide_eq_false fun both => here (same.2 both), Bool.not_false, Bool.and_true]
  · have after := drops.dunits
    have small := inode.small
    have small' := drops.small small
    dsimp only at after
    rw [Nat.mul_succ, Nat.mul_comm n] at after
    omega
  · have blocks := leaves.blocks moved block
    unfold unitOf
    rw [moved.level]
    exact blocks

/-- Where it does not stop as it should, or counts too much, it is no such removal. -/
theorem Removable.removed (inode : Removable g v) (ready : Ready hlock v) (le : n ≤ (v.inodes g.inode.ref).dunits)
    (pos : 0 < n) (removes : RemovesBlocks v g base n hlock w) : 2 ^ 32 ∣ (v.inodes g.inode.ref).level * n ∧
      Stops (v.unitSize / 4) (v.inodes g.inode.ref).level ((v.inodes g.inode.ref).dunits - n) := by
  obtain ⟨empty, run⟩ := removes.run
  constructor
  · obtain ⟨a, w', run', drops⟩ := inodeRemoveBlock_drops (g := g) base ready n
    rw [run] at run'
    cases run'
    have after := drops.dunits
    dsimp only at after
    rw [removes.dunits, Nat.mul_succ, Nat.mul_comm n] at after
    omega
  · rcases Nat.lt_or_ge n (v.inodes g.inode.ref).dunits with less | all
    · obtain ⟨x, j, w', run', _, bad⟩ := inodeRemoveBlock_part inode.separate inode.sound ready inode.holds base pos less
      rw [run] at run'
      cases run'
      by_contra goes_on
      rcases bad goes_on with many | ⟨b, below, gone⟩
      · dsimp only at many
        omega
      · have kept := removes.blocks b
        have found := (inode.holds.filled.mapped b).2 (by omega)
        have moved : Prunable g v w := by
          have passes := (inodeRemoveBlock_passes (prunable_removal g) (v.inodes g.inode.ref).level base n).of_run ready
            (by rw [holding_nil]; exact run)
          rwa [holding_nil] at passes
        rw [if_pos below, unitOf, moved.level] at kept
        rw [show unitAt v.dev (v.unitSize / 4) (v.inodes g.inode.ref).level (Place.table v (.locations g.inode.ref))
          maxLocationIndex b = none from kept.symm.trans gone] at found
        cases found
    · rw [Nat.sub_eq_zero_of_le all]
      exact stops_zero _ _

/-- The last `n` blocks are removed exactly if there are none to remove, or the levels do not count and the removal stops where
it should. -/
theorem removesBlocks_iff (inode : Removable g v) (ready : Ready hlock v) (le : n ≤ (v.inodes g.inode.ref).dunits) (base : Nat) :
    (∃ w, RemovesBlocks v g base n hlock w) ↔ n = 0 ∨ 2 ^ 32 ∣ (v.inodes g.inode.ref).level * n ∧
      Stops (v.unitSize / 4) (v.inodes g.inode.ref).level ((v.inodes g.inode.ref).dunits - n) := by
  rcases Nat.eq_zero_or_pos n with rfl | pos
  · exact ⟨fun _ => Or.inl rfl, fun _ => ⟨v, inode.nothing base⟩⟩
  · constructor
    · rintro ⟨w, removes⟩
      exact Or.inr (inode.removed ready le pos removes)
    · rintro (rfl | ⟨wraps, stops⟩)
      · exact absurd pos (Nat.lt_irrefl 0)
      · exact inode.removes ready le pos wraps stops base

end Removable

/-! ## A file of two blocks -/

/-- The file of two units and the space bitmap. -/
def twoGrowth : Growth := ⟨⟨.file 7, some 3⟩, ⟨spaceBitmap, some 2⟩, none⟩

theorem twoUnits_removable : Removable twoGrowth (mounted (twoUnits 1024)) := by
  have opened : twoGrowth.Opened spaceBitmapIdx spaceBitmapShadowIdx (mounted (twoUnits 1024)).shadow := ⟨rfl, rfl⟩
  exact ⟨opened.separate nofun (by decide), (mounted_intact _ _).sound opened, twoUnits_deletable.holds rfl opened,
    show 2 < 2 ^ 32 by decide⟩

theorem removesBlocks_two : (∃ w, RemovesBlocks (mounted (twoUnits 1024)) twoGrowth 10 2 0 w) ↔
    2 = 0 ∨ 2 ^ 32 ∣ 0 * 2 ∧ Stops 128 0 (2 - 2) :=
  removesBlocks_iff twoUnits_removable (Or.inl rfl) (Nat.le_refl 2) 10

/-- One block of a leaf of two is not removed. -/
theorem one_of_two_not_removed : ∃ g v, Removable g v ∧ Ready 0 v ∧ 1 ≤ (v.inodes g.inode.ref).dunits ∧
    ∀ base, ¬ ∃ w, RemovesBlocks v g base 1 0 w := by
  refine ⟨twoGrowth, mounted (twoUnits 1024), twoUnits_removable, Or.inl rfl, show 1 ≤ 2 by decide, ?_⟩
  rintro base ⟨w, removes⟩
  have stops := (twoUnits_removable.removed (Or.inl rfl) (show 1 ≤ 2 by decide) Nat.one_pos removes).2
  cases stops

end PreTeO.Mgfs3
