import PreTeO.Mgfs3.WriteSize

/-!
# Where a read ends

`mgfs_inode_read` never looks at the recorded size: it reads up to the end of the units. What it returns ends with the
file only where the units do, or where less is asked for.
-/

namespace PreTeO.Mgfs3
set_option autoImplicit false
open PreTeO.Lib

/-- How many blocks the batches of a transfer list, from `block` on. -/
def listedBlocks (dev : Nat → Option Mem) (unitSize : Nat) (inode : Inode) : Nat → Nat → Nat → Nat
  | 0, _, _ => 0
  | fuel + 1, block, count =>
    let array := inodeListDunit dev unitSize inode block (min count maxUnitArray)
    if array = [] then 0 else array.length + listedBlocks dev unitSize inode fuel (block + array.length) (count - array.length)

/-- Where the data end that a transfer finds from `offset` on: at the end of the units, or at the first block that is not
listed. -/
def foundEnd (v : Volume) (ref : Ref) (offset size : Nat) : Nat :=
  let pos := mgfsInodeCalcDataPos v.unitSize (v.inodes ref) offset size
  min (v.unitSize * (v.inodes ref).dunits % 2 ^ 32)
    ((pos.block + listedBlocks v.dev v.unitSize (v.inodes ref) pos.count pos.block pos.count) * v.unitSize)

section Loops
variable {ref : Ref} {hlock total : Nat} {v : Volume}

/-- All the units of an array are read, as far as bytes are wanted. -/
theorem readUnits_length (reads : ∀ unit, v.reads unit = true) (array : List Nat) {out : List Byte}
    (le : out.length ≤ total) {offset : Nat} (inside : array ≠ [] → offset ≤ v.unitSize) {w : Volume} (ticked : Ticked v w)
    (ready : Ready hlock v) :
    ∃ out' u, (readUnits total hlock array out offset).run w = .ok ((out', true), u) ∧ Ticked v u ∧
      out'.length = min total (out.length + (array.length * v.unitSize - offset)) := by
  induction array generalizing out offset w with
  | nil =>
    refine ⟨out, w, rfl, ticked, ?_⟩
    rw [List.length_nil, Nat.zero_mul, Nat.zero_sub]
    omega
  | cons x rest ih =>
    have low := inside (List.cons_ne_nil x rest)
    obtain ⟨t, rfl⟩ := ticked
    obtain ⟨w', step, ticked'⟩ := @readUnits_cons { v with tickets := t } hlock total ready x (reads x) rest out offset
    rw [step]
    have length : (out ++ (List.range (min (v.unitSize - offset) (total - out.length))).map fun i =>
        v.mem x (offset + i)).length = out.length + min (v.unitSize - offset) (total - out.length) := by simp
    obtain ⟨out', u, run, ticked, len⟩ := ih (by rw [length]; omega) (fun _ => Nat.zero_le _) (Ticked.trans ⟨t, rfl⟩ ticked')
    refine ⟨out', u, run, ticked, ?_⟩
    rw [len, length, List.length_cons, Nat.succ_mul]
    omega

/-- The loop of a read returns the bytes of the blocks it lists, as far as they are wanted. -/
theorem readLoop_length (ready : Ready hlock v) (reads : ∀ unit, v.reads unit = true) (fuel block count : Nat)
    {out : List Byte} (le : out.length ≤ total) {offset : Nat} (inside : offset ≤ v.unitSize) {w : Volume}
    (ticked : Ticked v w) :
    ∃ out' u, (readLoop ref total hlock fuel block count out offset).run w = .ok (out', u) ∧
      out'.length = min total
        (out.length + (listedBlocks v.dev v.unitSize (v.inodes ref) fuel block count * v.unitSize - offset)) := by
  induction fuel generalizing block count out offset w with
  | zero =>
    refine ⟨out, w, rfl, ?_⟩
    rw [listedBlocks, Nat.zero_mul, Nat.zero_sub]
    omega
  | succ fuel ih =>
    unfold readLoop
    split
    · next more =>
      obtain ⟨w₁, list, ticked₁⟩ := mgfsInodeListDunit_spec (ticked.ready ready) ref block (min count maxUnitArray)
      have same : inodeListDunit w.dev w.unitSize (w.inodes ref) block (min count maxUnitArray) =
          inodeListDunit v.dev v.unitSize (v.inodes ref) block (min count maxUnitArray) := by
        obtain ⟨t, rfl⟩ := ticked
        rfl
      rw [same] at list
      rw [Prog.bind_ok list, listedBlocks]
      dsimp only
      split
      · refine ⟨out, w₁, rfl, ?_⟩
        rw [Nat.zero_mul, Nat.zero_sub]
        omega
      · next some =>
        obtain ⟨out₁, w₂, units, ticked₂, length⟩ :=
          readUnits_length reads _ le (fun _ => inside) (ticked.trans ticked₁) ready
        rw [Prog.bind_ok units]
        obtain ⟨out', u, run, length'⟩ := ih _ _ (by rw [length]; omega) (Nat.zero_le _) ticked₂
        refine ⟨out', u, run, ?_⟩
        have units := List.length_pos_iff.2 some
        have first : v.unitSize ≤ (inodeListDunit v.dev v.unitSize (v.inodes ref) block (min count maxUnitArray)).length *
          v.unitSize := Nat.le_mul_of_pos_left _ units
        rw [length', length, Nat.add_mul]
        omega
    · next enough =>
      refine ⟨out, w, rfl, ?_⟩
      omega

end Loops

section Read
variable {h : InodeHandle} {offset size hlock : Nat} {v : Volume}

/-- The bytes of the listed blocks behind the offset are the data up to the end found. -/
theorem found_length (v : Volume) (ref : Ref) (offset size : Nat) :
    let pos := mgfsInodeCalcDataPos v.unitSize (v.inodes ref) offset size
    pos.offset ≤ v.unitSize ∧ min pos.size
      (listedBlocks v.dev v.unitSize (v.inodes ref) pos.count pos.block pos.count * v.unitSize - pos.offset) =
        min size (foundEnd v ref offset size - offset) := by
  unfold foundEnd
  rw [calcDataPos_eq, exactPos]
  split
  · next inside =>
    have pos := unitSize_pos inside
    have parts := Nat.div_add_mod offset v.unitSize
    rw [Nat.mul_comm] at parts
    dsimp only
    rw [Nat.add_mul]
    exact ⟨Nat.le_of_lt (Nat.mod_lt _ pos), by omega⟩
  · next behind =>
    dsimp only
    exact ⟨Nat.zero_le _, by omega⟩

/-- With unit I/O succeeding a read returns the bytes up to the end of the data it finds. -/
theorem mgfsInodeRead_length (ready : Ready hlock v) (reads : ∀ unit, v.reads unit = true) (valid : h.hb ≠ none) :
    ∃ bytes w, (mgfsInodeRead h offset size hlock).run v = .ok (bytes, w) ∧
      bytes.length = min size (foundEnd v h.ref offset size - offset) := by
  obtain ⟨inside, found⟩ := found_length v h.ref offset size
  unfold mgfsInodeRead
  rw [if_pos valid, Prog.bind_ok (Prog.run_get v)]
  dsimp only
  obtain ⟨bytes, w, run, length⟩ := readLoop_length ready reads _ _ _ (List.length_nil.trans_le (Nat.zero_le _)) inside (Ticked.refl v)
  refine ⟨bytes, w, run, ?_⟩
  rw [length, List.length_nil, Nat.zero_add]
  exact found

/-- The read returns as many bytes as the file has from `offset` on, and none for what is behind the recorded size. -/
def ReadsFile (v : Volume) (h : InodeHandle) (offset size hlock : Nat) : Prop :=
  ∃ bytes w, (mgfsInodeRead h offset size hlock).run v = .ok (bytes, w) ∧
    bytes.length = min size ((v.inodes h.ref).sz - offset)

/-- What is found within the request is what there is of the file. -/
theorem readsFile_iff (ready : Ready hlock v) (reads : ∀ unit, v.reads unit = true) (valid : h.hb ≠ none) :
    ReadsFile v h offset size hlock ↔
      min size (foundEnd v h.ref offset size - offset) = min size ((v.inodes h.ref).sz - offset) := by
  obtain ⟨bytes, w, run, length⟩ := @mgfsInodeRead_length h offset size hlock v ready reads valid
  rw [← length]
  constructor
  · rintro ⟨bytes', w', run', length'⟩
    rw [run] at run'
    cases run'
    exact length'
  · intro same
    exact ⟨bytes, w, run, same⟩

/-- A read stops at the end of the file if and only if the request ends within the recorded size and the data found, or
these two end at one place as seen from the offset. -/
theorem reads_file_iff (ready : Ready hlock v) (reads : ∀ unit, v.reads unit = true) (valid : h.hb ≠ none) :
    ReadsFile v h offset size hlock ↔
      size ≤ (v.inodes h.ref).sz - offset ∧ size ≤ foundEnd v h.ref offset size - offset ∨
        foundEnd v h.ref offset size - offset = (v.inodes h.ref).sz - offset := by
  rw [readsFile_iff ready reads valid]
  omega

/-! ## Files with all their blocks -/

section Mapped
variable {dev : Nat → Option Mem} {unitSize : Nat} {inode : Inode}

theorem unitsFrom_full {unit : Nat → Option Nat} {count block : Nat} (mapped : ∀ j < count, (unit (block + j)).isSome) :
    (unitsFrom unit count block).length = count := by
  induction count generalizing block with
  | zero => rfl
  | succ count ih =>
    obtain ⟨u, here⟩ : ∃ u, unit block = some u := Option.isSome_iff_exists.1 (mapped 0 (Nat.succ_pos _))
    rw [unitsFrom_cons here, List.length_cons, ih]
    intro j bound
    rw [Nat.add_assoc, Nat.add_comm 1 j]
    exact mapped (j + 1) (Nat.succ_lt_succ bound)

/-- The batches list all the blocks of a clear row. -/
theorem listedBlocks_full (fuel : Nat) {block count : Nat} (enough : count ≤ fuel)
    (clear : Clear dev unitSize inode block count) (mapped : ∀ j < count, (unitOf dev unitSize inode (block + j)).isSome) :
    listedBlocks dev unitSize inode fuel block count = count := by
  induction fuel generalizing block count with
  | zero => exact (Nat.le_zero.1 enough).symm
  | succ fuel ih =>
    have batch : Clear dev unitSize inode block (min count maxUnitArray) := fun k bound before => clear k (by omega) before
    rw [listedBlocks, inodeListDunit_units batch.rounds]
    have length := @unitsFrom_full (unitOf dev unitSize inode) (min count maxUnitArray) block
      fun j bound => mapped j (by omega)
    split
    · next none =>
      rw [none, List.length_nil] at length
      unfold maxUnitArray at length
      omega
    · rw [length, ih]
      · omega
      · unfold maxUnitArray
        omega
      · intro k bound before
        rw [Nat.add_assoc]
        refine clear _ (by omega) fun j low => mapped j (by omega)
      · intro j bound
        rw [Nat.add_assoc]
        exact mapped _ (by omega)

end Mapped

/-- The blocks of a position reach to the end of its bytes. -/
theorem exactPos_covers {unitSize total offset size : Nat} (pos : 0 < unitSize) (inside : offset < total) :
    offset + (exactPos unitSize total offset size).size ≤
      ((exactPos unitSize total offset size).block + (exactPos unitSize total offset size).count) * unitSize := by
  have parts := Nat.div_add_mod offset unitSize
  have room := le_unitsFor_mul pos (offset % unitSize + min size (total - offset))
  unfold exactPos
  rw [if_pos inside]
  dsimp only
  rw [Nat.mul_comm] at parts
  rw [Nat.add_mul]
  omega

/-- In a file that has all the blocks of the request the data found are those of the units, counted in 32 bits. -/
theorem reads_file_mapped_iff (ready : Ready hlock v) (reads : ∀ unit, v.reads unit = true) (valid : h.hb ≠ none)
    (whole : let pos := mgfsInodeCalcDataPos v.unitSize (v.inodes h.ref) offset size
      Clear v.dev v.unitSize (v.inodes h.ref) pos.block pos.count ∧
        ∀ j < pos.count, (unitOf v.dev v.unitSize (v.inodes h.ref) (pos.block + j)).isSome) :
    ReadsFile v h offset size hlock ↔
      let bytes := v.unitSize * (v.inodes h.ref).dunits % 2 ^ 32
      size ≤ (v.inodes h.ref).sz - offset ∧ size ≤ bytes - offset ∨ bytes - offset = (v.inodes h.ref).sz - offset := by
  rw [readsFile_iff ready reads valid]
  have all := listedBlocks_full _ (Nat.le_refl _) whole.1 whole.2
  have found : min size (foundEnd v h.ref offset size - offset) =
      min size (v.unitSize * (v.inodes h.ref).dunits % 2 ^ 32 - offset) := by
    unfold foundEnd
    dsimp only
    rw [all, calcDataPos_eq]
    by_cases inside : offset < v.unitSize * (v.inodes h.ref).dunits % 2 ^ 32
    · have pos := unitSize_pos inside
      have covers := @exactPos_covers v.unitSize _ offset size pos inside
      have bytes : (exactPos v.unitSize (v.unitSize * (v.inodes h.ref).dunits % 2 ^ 32) offset size).size =
          min size (v.unitSize * (v.inodes h.ref).dunits % 2 ^ 32 - offset) := by
        unfold exactPos
        rw [if_pos inside]
      omega
    · omega
  rw [found]
  dsimp only
  omega

/-- 24 bytes within a file of two units and 1000 bytes. -/
theorem reads_file_within : ReadsFile (mounted (twoUnits 1000)) ⟨.file 7, some 3⟩ 500 24 0 ↔
    24 ≤ 1000 - 500 ∧ 24 ≤ foundEnd (mounted (twoUnits 1000)) (.file 7) 500 24 - 500 ∨
      foundEnd (mounted (twoUnits 1000)) (.file 7) 500 24 - 500 = 1000 - 500 :=
  reads_file_iff (h := ⟨.file 7, some 3⟩) (Or.inl rfl) (fun _ => rfl) nofun

/-- A write of one byte at the start. -/
def oneByte : WriteCall := ⟨some 3, 0, 1, fun _ => 1#8, 0⟩

/-- How many bytes a write returns, the recorded size after it, and how many bytes a read of two from the start returns then. -/
def writeThenRead (call : WriteCall) (v : Volume) : Option (Nat × Nat × Nat) :=
  match call.run (.file 7) v with
  | .ok (r, w) => (bytesOf w ⟨.file 7, some 3⟩ 0 2 0).map fun bytes => (r, (w.inodes (.file 7)).sz, bytes.length)
  | .error _ => none

/-- One byte is written to a fresh file, and a read of two bytes returns two. -/
theorem oneByte_read_as_two : ∃ w, oneByte.run (.file 7) (mounted (Inode.fresh 0)) = .ok (1, w) ∧
    (w.inodes (.file 7)).sz = 1 ∧ (∀ unit, w.reads unit = true) ∧ ¬ ReadsFile w ⟨.file 7, some 3⟩ 0 2 0 := by
  have results : writeThenRead oneByte (mounted (Inode.fresh 0)) = some (1, 1, 2) := by decide +kernel
  unfold writeThenRead at results
  split at results
  · next r w run =>
    obtain ⟨bytes, read, same⟩ := Option.map_eq_some_iff.1 results
    obtain ⟨rfl, sz, two⟩ : r = 1 ∧ (w.inodes (.file 7)).sz = 1 ∧ bytes.length = 2 := by simpa using same
    obtain ⟨k, written⟩ := mgfsInodeWrite_written run
    refine ⟨w, run, sz, fun unit => by rw [written.reads]; rfl, ?_⟩
    rintro ⟨bytes', w', run', length⟩
    unfold bytesOf at read
    rw [run'] at read
    cases read
    rw [sz, two] at length
    cases length
  · cases results

end Read

end PreTeO.Mgfs3
