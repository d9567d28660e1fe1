import PreTeO.Bdev.CacheState

/-!
# Writing and reading packed block states

`set_bstate` and `get_bstate` agree only about the first block of each byte. A state that is set is read back for every
block of a chunk exactly if no byte is divided by the range, or its first block has the state anyway.
-/

namespace PreTeO.Bdev
set_option autoImplicit false
open PreTeO.Lib

/-- A range of blocks of the chunk at `p`, from offset `o` on. Block numbers have 64 bits. -/
structure ChunkRange (s : Cache) (p o count : Nat) : Prop where
  inside : o + count ≤ s.bcount p
  numbers : s.bstart p + s.bcount p < 2 ^ 64

/-- After the state of a range is set, each of its blocks has the state, and the other blocks of the chunk have theirs. -/
def BstateSet (s : Cache) (p o count : Nat) (mask : BitVec 2) : Prop :=
  ∀ k, k < s.bcount p →
    (s.setBstate p (s.bstart p + o) count mask).getBstate p (s.bstart p + k) =
      if o ≤ k ∧ k < o + count then mask else s.getBstate p (s.bstart p + k)

/-- The range has all blocks of a byte or none, or the first block of the byte has the state already. -/
def BytesWhole (s : Cache) (p o count : Nat) (mask : BitVec 2) : Prop :=
  ∀ k, k < s.bcount p →
    ((o ≤ k ∧ k < o + count ↔ o ≤ 4 * (k / 4) ∧ 4 * (k / 4) < o + count) ∨ s.pair p (4 * (k / 4)) = mask)

section Range
variable {s : Cache} {p o count : Nat} {mask : BitVec 2}

/-- `set_bstate` on a range of the chunk, which may be empty. -/
theorem ChunkRange.marked (range : ChunkRange s p o count) :
    Marked s (s.setBstate p (s.bstart p + o) count mask) p o count mask := by
  have blocks := bcount_lt s p
  have inside := range.inside
  rcases Nat.eq_zero_or_pos count with rfl | some
  · rw [setBstate_none]
    refine ⟨rfl, rfl, fun k => ?_, fun i _ => rfl, fun a member => .inl member⟩
    rw [if_neg (by omega)]
  · exact setBstate_marked (by omega) (by omega)

/-- What is read back is the state of the first block of the byte. -/
theorem ChunkRange.getBstate (range : ChunkRange s p o count) {k : Nat} (block : k < s.bcount p) :
    (s.setBstate p (s.bstart p + o) count mask).getBstate p (s.bstart p + k) =
      if o ≤ 4 * (k / 4) ∧ 4 * (k / 4) < o + count then mask else s.getBstate p (s.bstart p + k) := by
  have marked : Marked s (s.setBstate p (s.bstart p + o) count mask) p o count mask := range.marked
  have read := getBstate_eq (s := s.setBstate p (s.bstart p + o) count mask) (p := p) (o := k) (by
    rw [marked.head.bcount]
    exact block)
  rw [marked.head.bstart, marked.pair] at read
  rw [read, getBstate_eq block]

theorem bstateSet_iff (range : ChunkRange s p o count) : BstateSet s p o count mask ↔ BytesWhole s p o count mask := by
  refine forall_congr' fun k => forall_congr' fun block => ?_
  rw [range.getBstate block, getBstate_eq block]
  by_cases first : o ≤ 4 * (k / 4) ∧ 4 * (k / 4) < o + count
  · rw [if_pos first]
    by_cases here : o ≤ k ∧ k < o + count
    · rw [if_pos here]
      exact ⟨fun _ => .inl ⟨fun _ => first, fun _ => here⟩, fun _ => rfl⟩
    · rw [if_neg here]
      exact ⟨fun same => .inr same.symm, fun whole => (whole.resolve_left fun same => here (same.mpr first)).symm⟩
  · rw [if_neg first]
    by_cases here : o ≤ k ∧ k < o + count
    · rw [if_pos here]
      exact ⟨fun same => .inr same, fun whole => whole.resolve_left fun same => first (same.mp here)⟩
    · rw [if_neg here]
      exact ⟨fun _ => .inl ⟨fun h => absurd h here, fun h => absurd h first⟩, fun _ => rfl⟩

end Range

/-- A chunk of four clean and absent blocks. -/
def fourBlocks : Cache :=
  (alloc ⟨512, 16, 2, by decide, by decide, by decide⟩ ⟨16, fun _ => 0xaa#8⟩ fun k => k).setBcount 0 4

/-- The four blocks of a byte. -/
theorem bstateSet_iff_byte : BstateSet fourBlocks 0 0 4 3#2 ↔ BytesWhole fourBlocks 0 0 4 3#2 :=
  bstateSet_iff ⟨by decide +kernel, by decide +kernel⟩

/-- The second block of a byte is made dirty and present, and is read as neither. -/
theorem second_block_not_set : ¬ BstateSet fourBlocks 0 1 1 3#2 := by
  intro set
  have block : 1 < fourBlocks.bcount 0 := by decide +kernel
  have read := set 1 block
  revert read
  decide +kernel

end PreTeO.Bdev
