import PreTeO.Mgfs3.FileStore

/-!
# Files that the boot loader loads (`boot2/fs/mgfs3.c`, `arch/x86/boot/disk.c`)

`fs_read_file` lists the units of a file from its record and reads them one after the other to memory. What it reads is on
the disk: a file that was saved is loaded with the bytes that the writes of the kernel left. The kernel has the bytes of a
unit at an offset of 32 bits, the boot loader counts sectors from the partition's first one, and reads in real mode.
-/

namespace PreTeO.Mgfs3
set_option autoImplicit false
open PreTeO.Lib

def maxFileBlocks : Nat := 0x4c2

/-- `SECTOR_SIZE`, the sectors of the BIOS. -/
def sectorSize : Nat := 0x200

/-- `read_dev_unit` from sectors that can be read, with the sector that `read_sector` makes of it on the disk; `first` is
`_pt_lba_sector_lo_`. -/
def readDevUnit (disk : Mem) (first szUnit unit : Nat) : Option Mem :=
  some fun i => disk ((unit * szUnit % 2 ^ 32 + first) % 2 ^ 32 * sectorSize + i)

/-- The address that `read_sector` makes of `dst`: a segment of 16 bits, and an offset. -/
def segmentAddr (dst : Nat) : Nat := dst / 0x10 % 2 ^ 16 * 0x10 + dst % 0x10

/-- The loop of `fs_read_file` from address `addr` on. It ends at the first unit that can not be read. The BIOS gets the
number of sectors as a byte. -/
def loadUnits (dev : Nat → Option Mem) (szSector szUnit : Nat) : List Nat → Nat → Mem → Mem
  | [], _, m => m
  | unit :: rest, addr, m =>
    match dev unit with
    | some bytes => loadUnits dev szSector szUnit rest ((addr + getUnitSize szSector szUnit) % 2 ^ 32)
        (m.blit (segmentAddr addr) (szUnit % 2 ^ 8 * sectorSize) bytes)
    | none => m

/-- `fs_read_file`: the number of blocks, and the memory with what was read; `dev` is `read_dev_unit`, and `buffer` says
that `alloc_io_buffer` finds one. -/
def fsReadFile (dev : Nat → Option Mem) (szSector szUnit : Nat) (inode : Inode) (buffer : Bool) (dst : Nat) (m : Mem) :
    Nat × Mem :=
  if buffer then
    let units := inodeListDunit dev (getUnitSize szSector szUnit) inode 0 maxFileBlocks
    (units.length, loadUnits dev szSector szUnit units dst m)
  else (0, m)

/-! ## Rows of units -/

/-- A row of units that ends with the blocks that have one. -/
theorem unitsFrom_row {unit : Nat → Option Nat} {page : Nat → Nat} {k count b : Nat}
    (all : ∀ j < k, unit (b + j) = some (page (b + j))) (ends : count ≤ k ∨ unit (b + k) = none) :
    unitsFrom unit count b = (List.range' b (min k count)).map page := by
  induction count generalizing k b with
  | zero => rw [Nat.min_zero]; rfl
  | succ count ih =>
    cases k with
    | zero =>
      rw [Nat.zero_min]
      have none : unit b = none := ends.resolve_left (Nat.not_succ_le_zero count)
      rw [unitsFrom, none]
      rfl
    | succ k =>
      have rest : ∀ j < k, unit (b + 1 + j) = some (page (b + 1 + j)) := by
        intro j bound
        rw [Nat.add_assoc, Nat.add_comm 1 j]
        exact all (j + 1) (Nat.succ_lt_succ bound)
      have ends' : count ≤ k ∨ unit (b + 1 + k) = none := by
        rw [Nat.add_assoc, Nat.add_comm 1 k]
        exact ends.imp_left Nat.le_of_succ_le_succ
      have first : unit b = some (page b) := all 0 (Nat.succ_pos k)
      rw [unitsFrom_cons first, ih rest ends', Nat.succ_min_succ, List.range'_succ, List.map_cons]

theorem segmentAddr_eq {dst : Nat} (low : dst < 2 ^ 20) : segmentAddr dst = dst := by
  unfold segmentAddr
  omega

/-- Units in a row are loaded as they are. -/
theorem loadUnits_bytes {dev : Nat → Option Mem} {disk : Nat → Mem} {page : Nat → Nat} {szUnit : Nat} (pos : 0 < szUnit)
    (small : sectorSize * szUnit < 2 ^ 16) (k : Nat) {b addr : Nat}
    (reads : ∀ j, b ≤ j → j < b + k → ∃ bytes, dev (page j) = some bytes ∧
      ∀ i < sectorSize * szUnit, bytes i = disk (page j) i)
    (fits : addr + k * (sectorSize * szUnit) ≤ 2 ^ 20) (m : Mem) :
    loadUnits dev sectorSize szUnit ((List.range' b k).map page) addr m = m.blit addr (k * (sectorSize * szUnit))
      fun p => Mem.paged disk (sectorSize * szUnit) page (b * (sectorSize * szUnit) + p) := by
  have size : getUnitSize sectorSize szUnit = sectorSize * szUnit := Nat.mod_eq_of_lt small
  have sectors : szUnit % 2 ^ 8 * sectorSize = sectorSize * szUnit := by
    unfold sectorSize at small ⊢
    omega
  have some' : 0 < sectorSize * szUnit := Nat.mul_pos (by decide) pos
  induction k generalizing b addr m with
  | zero => rw [Nat.zero_mul, Mem.blit_zero]; rfl
  | succ k ih =>
    obtain ⟨bytes, read, same⟩ := reads b (Nat.le_refl b) (by omega)
    rw [List.range'_succ, List.map_cons, loadUnits, read]
    dsimp only
    rw [size, sectors]
    generalize sectorSize * szUnit = n at some' fits ih same reads ⊢
    rw [Nat.succ_mul] at fits
    have first : m.blit (segmentAddr addr) n bytes = m.blit addr n fun p => Mem.paged disk n page (b * n + p) := by
      rw [segmentAddr_eq (by omega)]
      refine Mem.blit_congr fun i low => ?_
      obtain ⟨block, offset⟩ := @Mem.place_page n i b low
      unfold Mem.paged
      rw [block, offset]
      exact same i low
    rw [first, Nat.succ_mul, Nat.add_comm (k * n), ← Mem.blit_append,
      Nat.mod_eq_of_lt (show addr + n < 2 ^ 32 by omega),
      ih (fun j low high => reads j (by omega) (by omega)) (by omega)]
    refine Mem.blit_congr fun i _ => ?_
    rw [Nat.succ_mul, Nat.add_assoc]

/-! ## Units that are read alike -/

/-- Two walks at the same pointers. -/
structure BootWalk.Alike (w w' : BootWalk) : Prop where
  c : w'.c = w.c
  f : w'.f = w.f
  table : ∀ i < w.c, w'.table i = w.table i

/-- The units are read alike, as far as a unit goes. -/
def ReadAlike (clSz : Nat) (dev dev' : Nat → Option Mem) : Prop :=
  ∀ u, (dev u = none ∧ dev' u = none) ∨ ∃ m m', dev u = some m ∧ dev' u = some m' ∧ ∀ i < clSz, m' i = m i

section Alike
variable {dev dev' : Nat → Option Mem} {clSz : Nat} {w w' : BootWalk}

theorem entry_congr {m m' : Mem} (same : ∀ i < clSz, m' i = m i) {i : Nat} (inside : i < clSz / 4) : entry m' i = entry m i :=
  Mem.load_congr fun k _ high => same k (by omega)

theorem BootWalk.Alike.level (alike : w.Alike w') (reads : ReadAlike clSz dev dev') (l : Nat) :
    (bootDescendLevel dev clSz l w).Alike (bootDescendLevel dev' clSz l w') := by
  unfold bootDescendLevel
  rw [alike.c, alike.f]
  dsimp only
  cases found : findPointer w.c (pow32 (clSz / 4) l) w.f with
  | none => exact alike
  | some i =>
    have inside : i < w.c := List.mem_range.mp (List.mem_of_find?_eq_some found)
    dsimp only
    rw [alike.table i inside]
    by_cases used : w.table i ≠ invalidUnitNumber
    · rw [if_pos used, if_pos used]
      rcases reads (w.table i) with ⟨fails, fails'⟩ | ⟨m, m', read, read', same⟩
      · rw [fails, fails']
        exact alike
      · rw [read, read']
        exact ⟨rfl, rfl, fun j low => entry_congr same low⟩
    · rw [if_neg used, if_neg used]
      exact alike

theorem BootWalk.Alike.descend (alike : w.Alike w') (reads : ReadAlike clSz dev dev') (l : Nat) :
    (bootDescend dev clSz l w).Alike (bootDescend dev' clSz l w') := by
  induction l generalizing w w' with
  | zero => exact alike
  | succ l ih => exact ih (alike.level reads (l + 1))

theorem takeEntries_congr {p p' : Table} {count n f : Nat} (same : ∀ i, f ≤ i → i < f + n → p' i = p i) (out : List Nat) :
    takeEntries p' count n f out = takeEntries p count n f out := by
  induction n generalizing f out with
  | zero => rfl
  | succ n ih =>
    unfold takeEntries
    rw [same f (Nat.le_refl f) (by omega), ih fun i low high => same i (by omega) (by omega)]

/-- The boot loader lists the same units from units that are read alike. -/
theorem inodeListDunit_alike (reads : ReadAlike clSz dev dev') (inode : Inode) (first count : Nat) :
    inodeListDunit dev' clSz inode first count = inodeListDunit dev clSz inode first count := by
  have loop (fuel : Nat) (out : List Nat) :
      bootListLoop dev' clSz inode first count fuel out = bootListLoop dev clSz inode first count fuel out := by
    induction fuel generalizing out with
    | zero => rfl
    | succ fuel ih =>
      have start : (⟨inode.location, maxLocationIndex, (first + out.length) % 2 ^ 32⟩ : BootWalk).Alike
        ⟨inode.location, maxLocationIndex, (first + out.length) % 2 ^ 32⟩ := ⟨rfl, rfl, fun _ _ => rfl⟩
      have alike := start.descend reads inode.level
      unfold bootListLoop
      dsimp only
      rw [alike.c, alike.f]
      split
      · split
        · rfl
        · next inside =>
          rw [takeEntries_congr fun i _ high => alike.table i (by omega)]
          split
          · rfl
          · exact ih _
      · rfl
  exact loop count []

end Alike

/-! ## The disk -/

/-- The volume lies on the disk from a sector on, with every unit that starts below 4 gigabytes. -/
def Volume.On (v : Volume) (first : Nat) (disk : Mem) : Prop :=
  ∀ unit, unit * v.unitSize < 2 ^ 32 → ∀ i < v.unitSize, disk (first * sectorSize + (unit * v.unitSize + i)) = v.disk unit i

/-- A disk with the volume. -/
def Volume.image (v : Volume) (first : Nat) : Mem := fun p => Mem.paged v.disk v.unitSize id (p - first * sectorSize)

theorem image_on (v : Volume) (first : Nat) : v.On first (v.image first) := by
  intro unit _ i low
  obtain ⟨block, offset⟩ := @Mem.place_page v.unitSize i unit low
  unfold Volume.image
  rw [Nat.add_sub_cancel_left, Mem.paged, block, offset]
  rfl

section Disk
variable {v : Volume} {first szUnit unit : Nat} {disk : Mem}

/-- The boot loader reads a unit where the kernel wrote it. -/
theorem readDevUnit_on (on : v.On first disk) (size : sectorSize * szUnit = v.unitSize) (part : first + 2 ^ 23 ≤ 2 ^ 32)
    (low : unit * v.unitSize < 2 ^ 32) :
    ∃ bytes, readDevUnit disk first szUnit unit = some bytes ∧ ∀ i < v.unitSize, bytes i = v.disk unit i := by
  refine ⟨_, rfl, fun i inside => ?_⟩
  rw [← on unit low i inside]
  rw [← size, Nat.mul_left_comm] at low
  have sector : unit * szUnit < 2 ^ 23 := by
    unfold sectorSize at low
    omega
  have place : first * sectorSize + (unit * v.unitSize + i) = (unit * szUnit + first) * sectorSize + i := by
    rw [← size]
    ring
  rw [Nat.mod_eq_of_lt (show unit * szUnit < 2 ^ 32 by omega), Nat.mod_eq_of_lt (by omega), place]

/-- What the boot loader would read if it read the cells of units; behind 4 gigabytes there are none. -/
def Volume.readWhole (v : Volume) (disk : Mem) (first szUnit unit : Nat) : Option Mem :=
  if unit * v.unitSize < 2 ^ 32 then some (v.disk unit) else readDevUnit disk first szUnit unit

theorem readWhole_alike (on : v.On first disk) (size : sectorSize * szUnit = v.unitSize) (part : first + 2 ^ 23 ≤ 2 ^ 32) :
    ReadAlike v.unitSize (v.readWhole disk first szUnit) (readDevUnit disk first szUnit) := by
  intro u
  refine .inr ?_
  unfold Volume.readWhole
  by_cases low : u * v.unitSize < 2 ^ 32
  · obtain ⟨bytes, read, same⟩ := readDevUnit_on on size part low
    exact ⟨v.disk u, bytes, if_pos low, read, same⟩
  · exact ⟨_, _, if_neg low, rfl, fun _ _ => rfl⟩

end Disk

/-! ## Saved files -/

/-- The boot loader finds the blocks of a file and their end: all its address units are on the disk, none of those that tell
the end has data, and the walk there is clear. All these units start below 4 gigabytes. -/
structure Loadable (F : Nat → Prop) (v : Volume) (number : Nat) : Prop where
  ends : unitOf v.dev v.unitSize (v.inodes (.file number)) (v.inodes (.file number)).dunits = none
  small : (v.inodes (.file number)).dunits < 2 ^ 32
  clear : ClearWalk v.dev (v.unitSize / 4) (v.inodes (.file number)).level (v.inodes (.file number)).location maxLocationIndex
    (v.inodes (.file number)).dunits
  apart : ∀ n, F n → ∀ c < (v.inodes (.file n)).dunits,
    v.unitNo (.file n) c ∉ addressesOf v.dev v.unitSize (v.inodes (.file number)) (v.inodes (.file number)).dunits
  saved : ∀ b ≤ (v.inodes (.file number)).dunits, ∀ u ∈ addressesOf v.dev v.unitSize (v.inodes (.file number)) b, v.Saved u
  low : ∀ b < (v.inodes (.file number)).dunits, v.unitNo (.file number) b * v.unitSize < 2 ^ 32
  tables : ∀ b ≤ (v.inodes (.file number)).dunits, ∀ u ∈ addressesOf v.dev v.unitSize (v.inodes (.file number)) b,
    u * v.unitSize < 2 ^ 32

section Saved
variable {hlock : Nat} {F : Nat → Prop} {v₀ v : Volume} {files : Nat → FileRow} {number first szUnit : Nat} {disk : Mem}

/-- The walks of the boot loader meet what those on the volume met. -/
theorem Has.readWhole (start : FilesOk hlock F v₀) (has : Has hlock F v₀ v files) (mine : F number)
    (loadable : Loadable F v₀ number) {b u : Nat} (low : b ≤ (v₀.inodes (.file number)).dunits)
    (member : u ∈ addressesOf v₀.dev v₀.unitSize (v₀.inodes (.file number)) b) :
    v.readWhole disk first szUnit u = v₀.dev u := by
  have kept : v.mem u = v₀.mem u := by
    refine has.others u fun n other c bound same => ?_
    subst same
    rcases Nat.lt_or_eq_of_le low with inside | rfl
    · exact start.data number n mine other b inside c bound member
    · exact loadable.apart n other c bound member
  have saved := (has.marked u (loadable.saved b low u member)).2
  have below := loadable.tables b low u member
  rw [← (has.same number mine).unitSize] at below
  unfold Volume.readWhole Volume.dev
  rw [if_pos below, saved, kept, if_pos (start.reads u)]

/-- The boot loader lists the units of the blocks. -/
theorem Has.listed (start : FilesOk hlock F v₀) (has : Has hlock F v₀ v files) (mine : F number)
    (loadable : Loadable F v₀ number) (filed : v₀.stored (.file number) = v₀.inodes (.file number)) (on : v.On first disk)
    (size : sectorSize * szUnit = v₀.unitSize) (part : first + 2 ^ 23 ≤ 2 ^ 32) (count : Nat) :
    inodeListDunit (readDevUnit disk first szUnit) v₀.unitSize (v.stored (.file number)) 0 count =
      (List.range' 0 (min (v₀.inodes (.file number)).dunits count)).map (v₀.unitNo (.file number)) := by
  have same := has.same number mine
  have alike := readWhole_alike on (same.unitSize ▸ size) part
  rw [same.unitSize] at alike
  rw [inodeListDunit_alike alike]
  generalize reads : v.readWhole disk first szUnit = dev
  have met {b u : Nat} (low : b ≤ (v₀.inodes (.file number)).dunits)
      (member : u ∈ addressesOf v₀.dev v₀.unitSize (v₀.inodes (.file number)) b) : dev u = v₀.dev u :=
    reads ▸ has.readWhole start mine loadable low member
  have fails : ∀ u, v₀.dev u = none → dev u = none := by
    intro u fails
    unfold Volume.dev at fails
    rw [if_pos (start.reads u)] at fails
    cases fails
  have walk {b : Nat} (low : b ≤ (v₀.inodes (.file number)).dunits) := leafOf_congr fails fun u member => met low member
  have found {b : Nat} (low : b ≤ (v₀.inodes (.file number)).dunits) :
      unitOf dev v₀.unitSize (v.stored (.file number)) b = unitOf v₀.dev v₀.unitSize (v₀.inodes (.file number)) b := by
    unfold unitOf
    rw [has.filed number mine filed, same.level, same.location, (walk low).1]
  have all : ∀ b < (v₀.inodes (.file number)).dunits,
      unitOf dev v₀.unitSize (v.stored (.file number)) b = some (v₀.unitNo (.file number) b) := by
    intro b inside
    obtain ⟨u, mapped⟩ := Option.isSome_iff_exists.mp ((start.whole number mine).mapped b inside)
    rw [found inside.le, Volume.unitNo, mapped, Option.getD_some]
  have ends := (found (Nat.le_refl _)).trans loadable.ends
  have clear : Clear dev v₀.unitSize (v.stored (.file number)) 0 count := by
    intro k _ before
    rw [Nat.zero_add]
    have low : k ≤ (v₀.inodes (.file number)).dunits := by
      by_contra beyond
      have last := before _ (Nat.lt_of_not_le beyond)
      rw [Nat.zero_add, ends] at last
      cases last
    rw [has.filed number mine filed, same.level, same.location]
    rcases Nat.lt_or_eq_of_le low with inside | rfl
    · obtain ⟨small, clear⟩ := (start.whole number mine).clear k inside
      exact ⟨small, (walk low).2.2 clear⟩
    · exact ⟨loadable.small, (walk low).2.2 loadable.clear⟩
  rw [inodeListDunit_units clear.rounds]
  refine unitsFrom_row (fun j bound => ?_) (.inr ?_)
  · rw [Nat.zero_add]
    exact all j bound
  · rw [Nat.zero_add]
    exact ends

/-- After any calls that stay within the units the boot loader loads the row of a file that was saved at first, in whole
blocks and as many as it has room for in its list, from any disk on which the volume lies. -/
theorem fsReadFile_row (start : FilesOk hlock F v₀) (calls : List InodeCall)
    (inside : ∀ call ∈ calls, call.Inside F fun n => v₀.room (.file n)) (mine : F number) (saved : v₀.FileSaved number)
    (loadable : Loadable F v₀ number) (size : sectorSize * szUnit = v₀.unitSize) (pos : 0 < v₀.unitSize)
    (small : v₀.unitSize < 2 ^ 16) (part : first + 2 ^ 23 ≤ 2 ^ 32) {dst : Nat}
    (fits : dst + min (v₀.inodes (.file number)).dunits maxFileBlocks * v₀.unitSize ≤ 2 ^ 20) (m : Mem) :
    let count := min (v₀.inodes (.file number)).dunits maxFileBlocks
    ∃ v, outcome (Volume.call hlock) v₀ calls =
        some ((results (FileRow.call fun n => v₀.room (.file n)) v₀.rows calls).1, v) ∧
      ∀ disk, v.On first disk →
        fsReadFile (readDevUnit disk first szUnit) sectorSize szUnit (v.stored (.file number)) true dst m =
          (count, m.blit dst (count * v₀.unitSize)
            ((results (FileRow.call fun n => v₀.room (.file n)) v₀.rows calls).2 number).bytes) := by
  intro count
  obtain ⟨v, returns, has⟩ := Has.run start calls inside
  refine ⟨v, returns, fun disk on => ?_⟩
  have same := has.same number mine
  have blocks : count ≤ (v₀.inodes (.file number)).dunits := Nat.min_le_left _ _
  have room : count * v₀.unitSize ≤ v₀.room (.file number) := Nat.mul_le_mul_right _ blocks
  have step : getUnitSize sectorSize szUnit = v₀.unitSize := (Nat.mod_eq_of_lt (size.trans_lt small)).trans size
  have some' : 0 < szUnit := by
    rw [← size] at pos
    exact Nat.pos_of_mul_pos_left pos
  unfold fsReadFile
  rw [if_pos rfl]
  dsimp only
  rw [step, has.listed start mine loadable saved.2 on size part, List.length_map, List.length_range']
  refine Prod.ext rfl ?_
  dsimp only
  have reads : ∀ j, 0 ≤ j → j < 0 + count → ∃ bytes, readDevUnit disk first szUnit (v₀.unitNo (.file number) j) = some bytes ∧
      ∀ i < sectorSize * szUnit, bytes i = v.disk (v₀.unitNo (.file number) j) i := by
    intro j _ bound
    have low := loadable.low j (by omega)
    rw [← same.unitSize] at low
    rw [size, ← same.unitSize]
    exact readDevUnit_on on (same.unitSize ▸ size) part low
  have loaded := loadUnits_bytes some' (size.trans_lt small) count reads (size ▸ fits) m
  refine Eq.trans loaded ?_
  rw [size]
  refine Mem.blit_congr fun p low => ?_
  have low' : p < v₀.room (.file number) := by omega
  rw [Nat.zero_mul, Nat.zero_add, ← (has.disk start mine saved).2 p low']
  have block : p / v₀.unitSize < (v₀.inodes (.file number)).dunits :=
    Nat.div_lt_of_lt_mul (Nat.mul_comm _ v₀.unitSize ▸ low')
  unfold Mem.paged
  rw [same.unitSize, has.unitNo start mine block]

end Saved

theorem twoFiles_loadable : Loadable (fun n => n = 1 ∨ n = 2) twoFiles 1 :=
  ⟨rfl, by decide, trivial, fun _ _ _ _ => List.not_mem_nil, fun _ _ _ member => absurd member List.not_mem_nil, by decide,
    fun _ _ _ member => absurd member List.not_mem_nil⟩

/-- Four bytes are written over the end of a unit, and the boot loader reads the two units to an address. -/
theorem fsReadFile_row_two : ∃ v,
    outcome (Volume.call 0) twoFiles [.write 1 3 510 4 fun i => BitVec.ofNat 8 (i + 1)] = some ([.count 4], v) ∧
    ∃ disk, v.On 63 disk ∧
      (fsReadFile (readDevUnit disk 63 1) sectorSize 1 (v.stored (.file 1)) true 0x8000 fun _ => 9#8).1 = 2 ∧
      (fsReadFile (readDevUnit disk 63 1) sectorSize 1 (v.stored (.file 1)) true 0x8000 fun _ => 9#8).2 (0x8000 + 513) = 4#8 ∧
      (fsReadFile (readDevUnit disk 63 1) sectorSize 1 (v.stored (.file 1)) true 0x8000 fun _ => 9#8).2 (0x8000 + 1024) =
        9#8 := by
  have saved : twoFiles.FileSaved 1 := ⟨fun _ _ => ⟨rfl, rfl⟩, rfl⟩
  have inside : ∀ call ∈ [InodeCall.write 1 3 510 4 fun i => BitVec.ofNat 8 (i + 1)],
      call.Inside (fun n => n = 1 ∨ n = 2) fun n => twoFiles.room (.file n) := by
    rw [List.forall_mem_singleton]
    exact ⟨.inl rfl, by decide⟩
  obtain ⟨v, returns, loads⟩ := @fsReadFile_row 0 _ twoFiles 1 63 1 twoFiles_ok _ inside (.inl rfl) saved twoFiles_loadable
    rfl (by decide) (by decide) (by decide) 0x8000 (by decide) fun _ => 9#8
  refine ⟨v, returns, v.image 63, image_on v 63, ?_⟩
  rw [loads _ (image_on v 63)]
  exact ⟨rfl, rfl, rfl⟩

end PreTeO.Mgfs3
