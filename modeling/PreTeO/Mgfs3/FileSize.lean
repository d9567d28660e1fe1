import PreTeO.Mgfs3.AppendCount
import PreTeO.Mgfs3.Truncation

/-!
# The size of the data of a file

The bytes of a file's units are a product of two 32-bit numbers that the code takes in 32 bits. `mgfs_inode_write` adds
the product after an append to the one before it, so that it knows the size of a grown file only if that had no unit.
-/

namespace PreTeO.Mgfs3
set_option autoImplicit false
open PreTeO.Lib

/-! ## Positions -/

/-- The position in a file of `total` bytes, by quotient, rest and ceiling. -/
def exactPos (unitSize total offset size : Nat) : DataPos :=
  if offset < total then
    let r := min size (total - offset)
    ⟨r, offset / unitSize, offset % unitSize, unitsFor unitSize (offset % unitSize + r)⟩
  else ⟨0, 0, 0, 0⟩

/-- The code's way to round up. -/
theorem ceil_eq {unitSize : Nat} (pos : 0 < unitSize) (n : Nat) :
    (n / unitSize + if n % unitSize ≠ 0 then 1 else 0) = unitsFor unitSize n := by
  have parts := Nat.div_add_mod n unitSize
  have rest := Nat.mod_lt n pos
  unfold unitsFor
  split
  · next some =>
    have low : (n % unitSize - 1) / unitSize = 0 := Nat.div_eq_of_lt (by omega)
    rw [show n + unitSize - 1 = (n % unitSize - 1) + unitSize * (n / unitSize + 1) by rw [Nat.mul_add]; omega,
      Nat.add_mul_div_left _ _ pos, low, Nat.zero_add]
  · next none =>
    have low : (unitSize - 1) / unitSize = 0 := Nat.div_eq_of_lt (by omega)
    rw [show n + unitSize - 1 = (unitSize - 1) + unitSize * (n / unitSize) by omega, Nat.add_mul_div_left _ _ pos, low,
      Nat.zero_add, Nat.add_zero]

/-- The units have room for the bytes they are counted for. -/
theorem le_unitsFor_mul {unitSize : Nat} (pos : 0 < unitSize) (n : Nat) : n ≤ unitsFor unitSize n * unitSize := by
  have parts := Nat.div_add_mod (n + unitSize - 1) unitSize
  have rest := Nat.mod_lt (n + unitSize - 1) pos
  rw [Nat.mul_comm] at parts
  unfold unitsFor
  omega

/-- Only where units have bytes is there an offset within them. -/
theorem unitSize_pos {unitSize dunits offset : Nat} (inside : offset < unitSize * dunits % 2 ^ 32) : 0 < unitSize := by
  apply Nat.pos_of_ne_zero
  rintro rfl
  rw [Nat.zero_mul, Nat.zero_mod] at inside
  omega

/-- The function is right about the size it takes the product for. -/
theorem calcDataPos_eq (unitSize : Nat) (inode : Inode) (offset size : Nat) :
    mgfsInodeCalcDataPos unitSize inode offset size = exactPos unitSize (unitSize * inode.dunits % 2 ^ 32) offset size := by
  unfold mgfsInodeCalcDataPos exactPos
  dsimp only
  split
  · next inside =>
    have pos := unitSize_pos inside
    have bytes : (if offset + size < unitSize * inode.dunits % 2 ^ 32 then size
        else unitSize * inode.dunits % 2 ^ 32 - offset) = min size (unitSize * inode.dunits % 2 ^ 32 - offset) := by
      split <;> omega
    rw [bytes, ceil_eq pos]
  · rfl

/-- For every offset of 64 bits and every size of 32 bits the position is the one in `dunits` units. -/
def PositionsRight (unitSize : Nat) (inode : Inode) : Prop :=
  ∀ offset size, offset < 2 ^ 64 → size < 2 ^ 32 →
    mgfsInodeCalcDataPos unitSize inode offset size = exactPos unitSize (inode.dunits * unitSize) offset size

theorem positionsRight_iff (unitSize : Nat) (inode : Inode) :
    PositionsRight unitSize inode ↔ inode.dunits * unitSize < 2 ^ 32 := by
  unfold PositionsRight
  simp only [calcDataPos_eq, Nat.mul_comm unitSize]
  constructor
  · -- the byte behind the size that is left of the product
    intro right
    by_contra large
    have low : inode.dunits * unitSize % 2 ^ 32 < 2 ^ 32 := Nat.mod_lt _ (by decide)
    have same := congrArg DataPos.size (right (inode.dunits * unitSize % 2 ^ 32) 1 (by omega) (by decide))
    unfold exactPos at same
    rw [if_neg (by omega), if_pos (by omega)] at same
    dsimp only at same
    omega
  · intro small offset size _ _
    rw [Nat.mod_eq_of_lt small]

/-! ## Writing -/

/-- The blocks `mgfs_inode_write` asks for, none where the file is large enough. -/
def askedBlocks (unitSize dunits offset size : Nat) : Nat :=
  if dunits * unitSize % 2 ^ 32 < endOf offset size then addBlocks unitSize (dunits * unitSize % 2 ^ 32) offset size else 0

/-- A write that goes on in `w` with the size `n`: the blocks it asked for, the size and the positions are those of the
units the file has. -/
structure SizesRight (v w : Volume) (ref : Ref) (offset size n : Nat) : Prop where
  before : PositionsRight v.unitSize (v.inodes ref)
  asked : askedBlocks v.unitSize (v.inodes ref).dunits offset size =
    unitsFor v.unitSize (offset + size - (v.inodes ref).dunits * v.unitSize)
  total : n = (w.inodes ref).dunits * w.unitSize
  after : PositionsRight w.unitSize (w.inodes ref)

/-- What `growInode` returns, and what it leaves. -/
theorem growInode_cases {h : InodeHandle} {offset size hlock n : Nat} {v w : Volume}
    (run : (growInode h offset size hlock).run v = .ok (n, w)) :
    if (v.inodes h.ref).dunits * v.unitSize % 2 ^ 32 < endOf offset size then
      ∃ k, (appendBlocks h (askedBlocks v.unitSize (v.inodes h.ref).dunits offset size) none hlock).run v = .ok (k, w) ∧
        n = (v.inodes h.ref).dunits * v.unitSize % 2 ^ 32 + (w.inodes h.ref).dunits * w.unitSize % 2 ^ 32
    else w = v ∧ n = (v.inodes h.ref).dunits * v.unitSize % 2 ^ 32 := by
  obtain ⟨_, _, start, run⟩ := Prog.bind_eq_ok run
  cases start
  dsimp only at run
  split
  · next short =>
    rw [if_pos short] at run
    obtain ⟨k, w', append, run⟩ := Prog.bind_eq_ok run
    cases run
    unfold askedBlocks
    rw [if_pos short]
    exact ⟨k, append, rfl⟩
  · next enough =>
    rw [if_neg enough] at run
    cases run
    exact ⟨rfl, rfl⟩

section Asked
variable {unitSize dunits offset size : Nat}

/-- The blocks asked for are the ones needed as long as 32 bits hold their number. -/
theorem askedBlocks_eq_iff (pos : 0 < unitSize) (units : unitSize < 2 ^ 24) (small : dunits * unitSize < 2 ^ 32) :
    askedBlocks unitSize dunits offset size = unitsFor unitSize (offset + size - dunits * unitSize) ↔
      unitsFor unitSize (offset + size - dunits * unitSize) < 2 ^ 32 := by
  unfold askedBlocks
  rw [Nat.mod_eq_of_lt small]
  constructor
  · intro same
    rw [← same]
    split
    · exact Nat.mod_lt _ (by decide)
    · decide
  · intro few
    have below : offset + size - dunits * unitSize < 2 ^ 32 * 2 ^ 24 :=
      Nat.lt_of_le_of_lt (le_unitsFor_mul pos _) (Nat.mul_lt_mul'' few units)
    have whole : endOf offset size = offset + size := Nat.mod_eq_of_lt (by omega)
    split
    · unfold addBlocks
      rw [whole]
      dsimp only
      rw [ceil_eq pos, Nat.mod_eq_of_lt few]
    · rw [whole] at *
      rw [show offset + size - dunits * unitSize = 0 by omega]
      unfold unitsFor
      rw [Nat.div_eq_of_lt (by omega)]

end Asked

section Write
variable {h : InodeHandle} {offset size hlock n : Nat} {v w : Volume}

/-- A write knows the size of its file where 32 bits hold the bytes and the units asked for, and either no unit is to be
added or there was none before. -/
theorem sizes_right_iff (pos : 0 < v.unitSize) (units : v.unitSize < 2 ^ 24)
    (run : (growInode h offset size hlock).run v = .ok (n, w)) :
    SizesRight v w h.ref offset size n ↔
      (v.inodes h.ref).dunits * v.unitSize < 2 ^ 32 ∧
        unitsFor v.unitSize (offset + size - (v.inodes h.ref).dunits * v.unitSize) < 2 ^ 32 ∧
        (offset + size ≤ (v.inodes h.ref).dunits * v.unitSize ∨
          (v.inodes h.ref).dunits = 0 ∧ (w.inodes h.ref).dunits * v.unitSize < 2 ^ 32) := by
  have cases := growInode_cases run
  constructor
  · intro right
    have small := (positionsRight_iff _ _).1 right.before
    have after := (positionsRight_iff _ _).1 right.after
    have few := (askedBlocks_eq_iff pos units small).1 right.asked
    refine ⟨small, few, ?_⟩
    by_cases enough : offset + size ≤ (v.inodes h.ref).dunits * v.unitSize
    · exact Or.inl enough
    · right
      have total := right.total
      have asked := right.asked
      split at cases
      · obtain ⟨k, append, sum⟩ := cases
        rw [Nat.mod_eq_of_lt small, Nat.mod_eq_of_lt after] at sum
        have nothing : (v.inodes h.ref).dunits * v.unitSize = 0 := by omega
        refine ⟨(Nat.mul_eq_zero.1 nothing).resolve_right (by omega), ?_⟩
        rwa [← (appendBlocks_appends append).unitSize]
      · next enough' =>
        unfold askedBlocks at asked
        rw [if_neg enough'] at asked
        have needed : 0 < unitsFor v.unitSize (offset + size - (v.inodes h.ref).dunits * v.unitSize) := by
          unfold unitsFor
          exact Nat.div_pos (by omega) pos
        omega
  · rintro ⟨small, few, room⟩
    have asked := (askedBlocks_eq_iff pos units small).2 few
    have before := (positionsRight_iff _ _).2 small
    rw [Nat.mod_eq_of_lt small] at cases
    have low : endOf offset size ≤ offset + size := Nat.mod_le _ _
    rcases room with enough | ⟨none, after⟩
    · rw [if_neg (by omega)] at cases
      obtain ⟨rfl, same⟩ := cases
      exact ⟨before, asked, same, before⟩
    · split at cases
      · obtain ⟨k, append, sum⟩ := cases
        rw [← (appendBlocks_appends append).unitSize] at after
        rw [none, Nat.zero_mul, Nat.zero_add, Nat.mod_eq_of_lt after] at sum
        exact ⟨before, asked, sum, (positionsRight_iff _ _).2 after⟩
      · obtain ⟨rfl, same⟩ := cases
        exact ⟨before, asked, same, before⟩

/-- Within a file of two units. -/
theorem sizes_right_twoUnits : SizesRight (mounted (twoUnits 1024)) (mounted (twoUnits 1024)) (.file 7) 100 200 1024 ↔
    2 * 512 < 2 ^ 32 ∧ unitsFor 512 (100 + 200 - 2 * 512) < 2 ^ 32 ∧
      (100 + 200 ≤ 2 * 512 ∨ (2 : Nat) = 0 ∧ 2 * 512 < 2 ^ 32) :=
  @sizes_right_iff ⟨.file 7, some 3⟩ 100 200 0 1024 (mounted (twoUnits 1024)) (mounted (twoUnits 1024))
    (show 0 < 512 by decide) (show 512 < 2 ^ 24 by decide) rfl

/-- The address units of a file of 2^20 blocks: the upper one is unit 1, the 1024 of the leaves and the data follow it. -/
def treeEntry (unit i : Nat) : Nat := if unit = 1 then 2 + i else 1026 + 1024 * (unit - 2) + i

/-- A volume with a file of 4 GiB. -/
def largeVolume : Volume :=
  { zeroVolume 4096 with
    inodes := fun _ => ⟨0, 0, 2 ^ 20, 2, fun i => if i = 0 then 1 else invalidUnitNumber, 2 ^ 32, 0⟩
    mem := fun unit k => Mem.digit (treeEntry unit (k / 4)) (k % 4) }

/-- Its last block has a unit. -/
example : unitOf largeVolume.whole 4096 (largeVolume.inodes (.file 7)) (2 ^ 20 - 1) = some (1026 + (2 ^ 20 - 1)) := by
  decide

/-- A file of 4 GiB counts as empty: its first byte is not found. -/
theorem sizes_wrong_large : ∃ (v w : Volume) (h : InodeHandle) (offset size n : Nat), 0 < v.unitSize ∧
    v.unitSize < 2 ^ 24 ∧ (v.inodes h.ref).dunits < 2 ^ 32 ∧ offset < 2 ^ 64 ∧ size < 2 ^ 32 ∧
    (growInode h offset size 0).run v = .ok (n, w) ∧
    mgfsInodeCalcDataPos v.unitSize (v.inodes h.ref) 0 1 = ⟨0, 0, 0, 0⟩ ∧ ¬ SizesRight v w h.ref offset size n := by
  refine ⟨largeVolume, largeVolume, ⟨.file 7, some 3⟩, 0, 0, 0, by decide, by decide, by decide, by decide, by decide, rfl,
    by decide, fun right => ?_⟩
  have wrong := right.before 0 1 (by decide) (by decide)
  revert wrong
  decide

end Write

end PreTeO.Mgfs3
