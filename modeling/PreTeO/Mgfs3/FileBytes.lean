import PreTeO.Lib.Paged
import PreTeO.Mgfs3.FileRead

/-!
# The bytes of a file

The units of a file have its bytes, in the order of the blocks. A read of `mgfs_inode_read` returns such bytes, and a write
of `mgfs_inode_write` that stays within the units stores them, one batch of listed units after the other.
-/

namespace PreTeO.Mgfs3
set_option autoImplicit false
open PreTeO.Lib

/-- The unit of a block that has one. -/
def Volume.unitNo (v : Volume) (ref : Ref) (block : Nat) : Nat :=
  (unitOf v.dev v.unitSize (v.inodes ref) block).getD invalidUnitNumber

/-- The bytes of a file, by position. -/
def Volume.fileBytes (v : Volume) (ref : Ref) : Mem := Mem.paged v.mem v.unitSize (v.unitNo ref)

/-- The bytes that the units of a file have room for. -/
def Volume.room (v : Volume) (ref : Ref) : Nat := (v.inodes ref).dunits * v.unitSize

/-- A file has all its blocks, their walks are clear, and 32 bits hold the number of its bytes. -/
structure Whole (v : Volume) (ref : Ref) : Prop where
  small : v.room ref < 2 ^ 32
  mapped : ∀ block < (v.inodes ref).dunits, (unitOf v.dev v.unitSize (v.inodes ref) block).isSome
  clear : ∀ block < (v.inodes ref).dunits, block < 2 ^ 32 ∧
    ClearWalk v.dev (v.unitSize / 4) (v.inodes ref).level (v.inodes ref).location maxLocationIndex block

/-! ## Walks through the same address units -/

section Walks
variable {dev dev' : Nat → Option Mem} {n l c f : Nat} {t : Table}

theorem Nothing.congr (nothing : Nothing dev n l t c f) (fails : ∀ u, dev u = none → dev' u = none) :
    Nothing dev' n l t c f :=
  ⟨fun m pos le i found => (nothing.1 m pos le i found).imp_right (fails (t i)), nothing.2⟩

/-- A walk that meets the same address units finds the same, and is as clear. -/
theorem leafOf_congr (fails : ∀ u, dev u = none → dev' u = none) (same : ∀ u ∈ addressesAt dev n l t c f, dev' u = dev u) :
    leafOf dev' n l t c f = leafOf dev n l t c f ∧ addressesAt dev' n l t c f = addressesAt dev n l t c f ∧
      (ClearWalk dev n l t c f → ClearWalk dev' n l t c f) := by
  induction l generalizing t c f with
  | zero => exact ⟨rfl, rfl, id⟩
  | succ l ih =>
    rw [addressesAt] at same
    unfold leafOf addressesAt ClearWalk
    cases used : slotOf t c (f / n ^ (l + 1)) with
    | none => exact ⟨rfl, rfl, fun nothing => nothing.congr fails⟩
    | some u =>
      rw [used] at same
      dsimp only at same ⊢
      rw [Option.bind_some, Option.bind_some]
      cases read : dev u with
      | none =>
        rw [fails u read]
        exact ⟨rfl, rfl, fun nothing => nothing.congr fails⟩
      | some m =>
        rw [read] at same
        dsimp only at same
        rw [same u List.mem_cons_self, read]
        obtain ⟨leaf, addresses, clear⟩ := @ih n (f % n ^ (l + 1)) (entry m)
          fun x inside => same x (List.mem_cons_of_mem u inside)
        exact ⟨leaf, congrArg (List.cons u) addresses, And.imp_right clear⟩

end Walks

/-! ## Reading -/

section Read
variable {ref : Ref} {hlock total : Nat} {v w : Volume}

/-- The units of an array of the file are read. -/
theorem readUnits_bytes (reads : ∀ unit, v.reads unit = true) (array : List Nat) {block : Nat} {out : List Byte}
    (named : ∀ i (inside : i < array.length), array[i] = v.unitNo ref (block + i)) (le : out.length ≤ total) {offset : Nat}
    (inside : array ≠ [] → offset ≤ v.unitSize) (ticked : Ticked v w) (ready : Ready hlock v) :
    ∃ u, (readUnits total hlock array out offset).run w = .ok ((out ++ (v.fileBytes ref).bytes (block * v.unitSize + offset)
      (min (total - out.length) (array.length * v.unitSize - offset)), true), u) ∧ Ticked v u := by
  induction array generalizing block out offset w with
  | nil =>
    refine ⟨w, ?_, ticked⟩
    rw [List.length_nil, Nat.zero_mul, Nat.zero_sub, Nat.min_zero, Mem.bytes_zero, List.append_nil]
    rfl
  | cons x rest ih =>
    have low := inside (List.cons_ne_nil x rest)
    obtain ⟨t, rfl⟩ := ticked
    obtain ⟨w', step, ticked'⟩ := @readUnits_cons { v with tickets := t } hlock total ready x (reads x) rest out offset
    rw [step]
    have first : x = v.unitNo ref block := named 0 (Nat.succ_pos _)
    have chunk : ((List.range (min (v.unitSize - offset) (total - out.length))).map fun i => v.mem x (offset + i)) =
        (v.fileBytes ref).bytes (block * v.unitSize + offset) (min (v.unitSize - offset) (total - out.length)) := by
      rw [first]
      exact (Mem.paged_bytes (by omega)).symm
    change ∃ u, (readUnits total hlock rest (out ++ (List.range (min (v.unitSize - offset) (total - out.length))).map
      fun i => v.mem x (offset + i)) 0).run w' = _ ∧ _
    rw [chunk]
    have named' : ∀ i (inside : i < rest.length), rest[i] = v.unitNo ref (block + 1 + i) := by
      intro i bound
      rw [Nat.add_assoc, Nat.add_comm 1 i]
      exact named (i + 1) (Nat.succ_lt_succ bound)
    have le' : (out ++ (v.fileBytes ref).bytes (block * v.unitSize + offset)
        (min (v.unitSize - offset) (total - out.length))).length ≤ total := by
      rw [List.length_append, Mem.length_bytes]
      omega
    obtain ⟨u, run, ticked⟩ := ih named' le' (fun _ => Nat.zero_le v.unitSize) (Ticked.trans ⟨t, rfl⟩ ticked')
    refine ⟨u, run.trans ?_, ticked⟩
    have joined : (v.fileBytes ref).bytes (block * v.unitSize + offset) (min (v.unitSize - offset) (total - out.length)) ++
        (v.fileBytes ref).bytes ((block + 1) * v.unitSize)
          (min (total - (out.length + min (v.unitSize - offset) (total - out.length))) (rest.length * v.unitSize)) =
        (v.fileBytes ref).bytes (block * v.unitSize + offset) (min (total - out.length) ((x :: rest).length * v.unitSize - offset)) := by
      rw [List.length_cons, Nat.succ_mul, Nat.succ_mul]
      exact Mem.bytes_parts (by omega) (by omega)
    rw [List.append_assoc, List.length_append, Mem.length_bytes, Nat.add_zero, Nat.sub_zero, joined]

/-- The units that a whole file lists. -/
theorem Whole.units (whole : Whole v ref) {block count : Nat} (inside : block + count ≤ (v.inodes ref).dunits) :
    (inodeListDunit v.dev v.unitSize (v.inodes ref) block count).length = count ∧
      ∀ i (bound : i < (inodeListDunit v.dev v.unitSize (v.inodes ref) block count).length),
        (inodeListDunit v.dev v.unitSize (v.inodes ref) block count)[i] = v.unitNo ref (block + i) := by
  have clear : Clear v.dev v.unitSize (v.inodes ref) block count := fun k bound _ => whole.clear _ (by omega)
  rw [inodeListDunit_units clear.rounds]
  refine ⟨unitsFrom_full fun j bound => whole.mapped _ (by omega), fun i bound => ?_⟩
  have found := unitsFrom_get (List.getElem?_eq_getElem bound)
  unfold Volume.unitNo
  rw [found, Option.getD_some]

/-- The blocks of a file are read in batches. -/
theorem readLoop_bytes (ready : Ready hlock v) (reads : ∀ unit, v.reads unit = true) (whole : Whole v ref) (fuel : Nat)
    {block count : Nat} (enough : count ≤ fuel) (inside : block + count ≤ (v.inodes ref).dunits) {out : List Byte}
    (le : out.length ≤ total) {offset : Nat} (low : offset ≤ v.unitSize) (ticked : Ticked v w) :
    ∃ u, (readLoop ref total hlock fuel block count out offset).run w = .ok (out ++ (v.fileBytes ref).bytes
      (block * v.unitSize + offset) (min (total - out.length) (count * v.unitSize - offset)), u) ∧ Ticked v u := by
  induction fuel generalizing block count out offset w with
  | zero =>
    obtain rfl := Nat.le_zero.mp enough
    refine ⟨w, ?_, ticked⟩
    rw [Nat.zero_mul, Nat.zero_sub, Nat.min_zero, Mem.bytes_zero, List.append_nil]
    rfl
  | succ fuel ih =>
    unfold readLoop
    split
    · next more =>
      obtain ⟨w₁, list, ticked₁⟩ := mgfsInodeListDunit_spec (ticked.ready ready) ref block (min count maxUnitArray)
      have same : inodeListDunit w.dev w.unitSize (w.inodes ref) block (min count maxUnitArray) =
          inodeListDunit v.dev v.unitSize (v.inodes ref) block (min count maxUnitArray) := by
        obtain ⟨t, rfl⟩ := ticked
        rfl
      rw [same] at list
      obtain ⟨length, named⟩ := @Whole.units ref v whole block (min count maxUnitArray) (by omega)
      rw [Prog.bind_ok list]
      generalize inodeListDunit v.dev v.unitSize (v.inodes ref) block (min count maxUnitArray) = array at length named
      dsimp only
      split
      · next none =>
        rw [none, List.length_nil] at length
        obtain rfl : count = 0 := by
          unfold maxUnitArray at length
          omega
        refine ⟨w₁, ?_, ticked.trans ticked₁⟩
        rw [Nat.zero_mul, Nat.zero_sub, Nat.min_zero, Mem.bytes_zero, List.append_nil]
        rfl
      · next some =>
        obtain ⟨w₂, units, ticked₂⟩ := readUnits_bytes reads array named le (fun _ => low) (ticked.trans ticked₁) ready
        rw [Prog.bind_ok units]
        have pos : 0 < array.length := List.length_pos_iff.mpr some
        have first : v.unitSize ≤ array.length * v.unitSize := Nat.le_mul_of_pos_left _ pos
        have split : array.length * v.unitSize + (count - array.length) * v.unitSize = count * v.unitSize := by
          rw [← Nat.add_mul]
          congr 1
          omega
        have enough' : count - array.length ≤ fuel := by omega
        have inside' : block + array.length + (count - array.length) ≤ (v.inodes ref).dunits := by omega
        have le' : (out ++ (v.fileBytes ref).bytes (block * v.unitSize + offset)
            (min (total - out.length) (array.length * v.unitSize - offset))).length ≤ total := by
          rw [List.length_append, Mem.length_bytes]
          omega
        obtain ⟨u, run, ticked₃⟩ := ih enough' inside' le' (Nat.zero_le v.unitSize) ticked₂
        refine ⟨u, run.trans ?_, ticked₃⟩
        have joined : (v.fileBytes ref).bytes (block * v.unitSize + offset)
              (min (total - out.length) (array.length * v.unitSize - offset)) ++
            (v.fileBytes ref).bytes ((block + array.length) * v.unitSize)
              (min (total - (out.length + min (total - out.length) (array.length * v.unitSize - offset)))
                ((count - array.length) * v.unitSize)) =
            (v.fileBytes ref).bytes (block * v.unitSize + offset) (min (total - out.length) (count * v.unitSize - offset)) := by
          rw [Nat.add_mul]
          exact Mem.bytes_parts (by omega) (by omega)
        rw [List.append_assoc, List.length_append, Mem.length_bytes, Nat.add_zero, Nat.sub_zero, joined]
    · refine ⟨w, ?_, ticked⟩
      rw [show total - out.length = 0 by omega, Nat.zero_min, Mem.bytes_zero, List.append_nil]
      rfl

/-- The blocks of a position lie in the file, and reach to the end of its bytes. -/
theorem Whole.position {ref : Ref} {v : Volume} {offset size : Nat} (inside : offset < v.room ref) :
    let pos := exactPos v.unitSize (v.room ref) offset size
    pos.block + pos.count ≤ (v.inodes ref).dunits ∧ pos.offset < v.unitSize ∧
      pos.block * v.unitSize + pos.offset = offset ∧
      min pos.size (pos.count * v.unitSize - pos.offset) = min size (v.room ref - offset) := by
  have pos : 0 < v.unitSize := Nat.pos_of_mul_pos_left (Nat.zero_lt_of_lt inside)
  have covers := @exactPos_covers v.unitSize _ offset size pos inside
  have parts := Nat.div_add_mod offset v.unitSize
  have rest := Nat.mod_lt offset pos
  rw [Nat.mul_comm] at parts
  unfold exactPos at covers ⊢
  rw [if_pos inside] at covers ⊢
  dsimp only at covers ⊢
  rw [Nat.add_mul] at covers
  refine ⟨?_, rest, parts, by omega⟩
  -- the last block has a byte that is in the file
  have last : offset / v.unitSize + unitsFor v.unitSize (offset % v.unitSize + min size (v.room ref - offset)) ≤
      unitsFor v.unitSize (v.room ref) := by
    unfold unitsFor
    rw [Nat.add_comm, ← Nat.add_mul_div_right _ _ pos]
    exact Nat.div_le_div_right (by omega)
  refine last.trans (Nat.le_of_eq ?_)
  unfold unitsFor Volume.room
  rw [show (v.inodes ref).dunits * v.unitSize + v.unitSize - 1 = (v.unitSize - 1) + (v.inodes ref).dunits * v.unitSize by omega,
    Nat.add_mul_div_right _ _ pos, Nat.div_eq_of_lt (by omega), Nat.zero_add]

/-- A read returns the bytes from its offset on, up to the end of the units. -/
theorem mgfsInodeRead_bytes {h : InodeHandle} {offset size : Nat} (ready : Ready hlock v)
    (reads : ∀ unit, v.reads unit = true) (whole : Whole v h.ref) (valid : h.hb ≠ none) :
    ∃ w, (mgfsInodeRead h offset size hlock).run v =
      .ok ((v.fileBytes h.ref).bytes offset (min size (v.room h.ref - offset)), w) ∧ Ticked v w := by
  have small : v.unitSize * (v.inodes h.ref).dunits < 2 ^ 32 := Nat.mul_comm _ v.unitSize ▸ whole.small
  unfold mgfsInodeRead
  rw [if_pos valid, Prog.bind_ok (Prog.run_get v)]
  dsimp only
  rw [calcDataPos_eq, Nat.mod_eq_of_lt small, Nat.mul_comm v.unitSize,
    show (v.inodes h.ref).dunits * v.unitSize = v.room h.ref from rfl]
  by_cases inside : offset < v.room h.ref
  · obtain ⟨blocks, low, start, ends⟩ := @Whole.position h.ref v offset size inside
    have none : ([] : List Byte).length ≤ (exactPos v.unitSize (v.room h.ref) offset size).size := Nat.zero_le _
    obtain ⟨w, run, ticked⟩ := readLoop_bytes ready reads whole _ (Nat.le_refl _) blocks none low.le (Ticked.refl v)
    refine ⟨w, run.trans ?_, ticked⟩
    rw [List.nil_append, List.length_nil, Nat.sub_zero, start, ends]
  · unfold exactPos
    rw [if_neg inside, Nat.sub_eq_zero_of_le (Nat.le_of_not_lt inside), Nat.min_zero, Mem.bytes_zero]
    exact ⟨v, rfl, Ticked.refl v⟩

end Read

end PreTeO.Mgfs3
