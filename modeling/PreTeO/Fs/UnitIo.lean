import Mathlib.Order.CompletePartialOrder
import Mathlib.Order.Interval.Set.Disjoint
import Mathlib.Tactic.NormNum

/-!
# From a unit number to the bytes of the device

A unit of a volume is transferred in three steps: `fs_unit_read` and `fs_unit_write`
(`core/driver/fs/vfs_buffer.cpp`) turn the unit number into a sector number, the callbacks of the file
system context turn the sector number into a byte offset, and the storage below gets one transfer. The
kernel's callbacks end in `cMGFS3_CXT::sector_io` (`core/driver/fs/mgfs3/vfs_context.cpp`), those of the
formatter in `sector_read` and `sector_write` (`host/mkfs/mgfs3/main.cpp`). Each product is computed in the
width the source computes it in.
-/

namespace PreTeO.Fs
set_option autoImplicit false

/-- One request to the storage: a byte offset and a number of bytes. -/
structure Transfer where
  write : Bool
  offset : Nat
  size : Nat
deriving DecidableEq, Repr

/-- The bytes of the storage the request touches. -/
def Transfer.bytes (t : Transfer) : Set Nat := Set.Ico t.offset (t.offset + t.size)

/-- `_fs_info_t`, as `p_info` fills it in. -/
structure FsInfo where
  sectorSize : Nat
  unitSize : Nat
  nunits : Nat
deriving DecidableEq, Repr

/-- The callbacks of `_fs_context_t` that transfer sectors; a null callback is `none`. -/
structure FsContext where
  info : FsInfo
  read : Option (Nat → Nat → Option Transfer)
  write : Option (Nat → Nat → Option Transfer)

/-- `_u32 sector = nunit * fsi.unit_size`, a product of 32 bits. -/
def FsInfo.sector (fsi : FsInfo) (nunit : Nat) : Nat := (nunit * fsi.unitSize) % 2 ^ 32

/-- The common body of `fs_unit_read` and `fs_unit_write`, with the callback the function calls. -/
def fsUnitIo (callback : Option (Nat → Nat → Option Transfer)) (fsi : FsInfo) (nunit : Nat) : Option Transfer :=
  match callback with
  | some io => if nunit < fsi.nunits then io (fsi.sector nunit) fsi.unitSize else none
  | none => none

/-- The transfer of `cFSBuffer::fs_unit_read`. -/
def fsUnitRead (cxt : FsContext) (nunit : Nat) : Option Transfer := fsUnitIo cxt.read cxt.info nunit

/-- The transfer of `cFSBuffer::fs_unit_write`. -/
def fsUnitWrite (cxt : FsContext) (nunit : Nat) : Option Transfer := fsUnitIo cxt.write cxt.info nunit

/-- `MGFS_SECTOR_SIZE` of the kernel and `SZ_SECTOR` of the formatter. -/
def sectorBytes : Nat := 512

/-- The types of a storage handle. -/
inductive HandleType where
  | device
  | volume
  | fsContext
  | file
deriving DecidableEq, Repr

/-- `cMGFS3_CXT::sector_io` on a storage handle of the given type; `driver` says whether the handle has one.
The product is made in 32 bits and widened after it. -/
def sectorIo (type : HandleType) (driver write : Bool) (sector count : Nat) : Option Transfer :=
  let offset := (sector * sectorBytes) % 2 ^ 32
  let size := (count * sectorBytes) % 2 ^ 32
  match type with
  | .volume => if driver then some ⟨write, offset, size⟩ else none
  | .fsContext => if driver then some ⟨write, offset, size⟩ else none
  | .file => if driver then some ⟨write, offset, size⟩ else none
  | .device => none

/-- `sector_read` and `sector_write` of the formatter; `dev` says whether the image is mapped. -/
def imageIo (dev write : Bool) (sector count : Nat) : Option Transfer :=
  if dev then some ⟨write, (sector * sectorBytes) % 2 ^ 32, (count * sectorBytes) % 2 ^ 32⟩ else none

/-- What the superblock says about the size of a volume. -/
structure Volume where
  szFs : Nat
  szUnit : Nat
  szFs_lt : szFs < 2 ^ 32
  szUnit_pos : 1 ≤ szUnit
  szUnit_le : szUnit ≤ 8

/-- Bytes in a unit. -/
def Volume.unitBytes (vol : Volume) : Nat := vol.szUnit * sectorBytes

/-- `mgfs3_info` and `fs_info`. -/
def Volume.info (vol : Volume) : FsInfo := ⟨sectorBytes, vol.szUnit, vol.szFs⟩

/-- The programs that mount a volume: the kernel on a storage handle, the formatter on a mapped image. -/
inductive Host where
  | kernelVolume
  | kernelFsContext
  | kernelFile
  | mkfs
deriving DecidableEq, Repr

/-- The transfer callback a mounted volume has. -/
def Host.io : Host → Bool → Nat → Nat → Option Transfer
  | .kernelVolume => sectorIo .volume true
  | .kernelFsContext => sectorIo .fsContext true
  | .kernelFile => sectorIo .file true
  | .mkfs => imageIo true

/-- The context of a mounted volume. -/
def Host.context (host : Host) (vol : Volume) : FsContext :=
  ⟨vol.info, some (host.io false), some (host.io true)⟩

/-- The transfer made to read or to write a unit. -/
def Host.unitIo (host : Host) (vol : Volume) (write : Bool) (u : Nat) : Option Transfer :=
  if write then fsUnitWrite (host.context vol) u else fsUnitRead (host.context vol) u

/-- The bytes of the storage touched when a unit is read or written. -/
def Host.touched (host : Host) (vol : Volume) (write : Bool) (u : Nat) : Set Nat :=
  match host.unitIo vol write u with
  | some t => t.bytes
  | none => ∅

/-- Every unit of the volume is transferred in its own byte range, and no two units share a byte. -/
structure AddressesUnits (host : Host) (vol : Volume) : Prop where
  exact_range : ∀ write u, u < vol.szFs →
    host.touched vol write u = Set.Ico (u * vol.unitBytes) ((u + 1) * vol.unitBytes)
  apart : ∀ write write' u v, u < vol.szFs → v < vol.szFs → u ≠ v →
    Disjoint (host.touched vol write u) (host.touched vol write' v)

/-! ## The transfer of a unit -/

/-- The two products of 32 bits are one: the byte offset of a unit modulo 4 GiB. -/
theorem sector_offset (vol : Volume) (u : Nat) :
    (vol.info.sector u * sectorBytes) % 2 ^ 32 = (u * vol.unitBytes) % 2 ^ 32 := by
  simp only [FsInfo.sector, Volume.info, Volume.unitBytes]
  rw [Nat.mod_mul_mod, Nat.mul_assoc]

theorem unitBytes_pos (vol : Volume) : 0 < vol.unitBytes := by
  have := vol.szUnit_pos
  simp only [Volume.unitBytes, sectorBytes]
  omega

theorem unitBytes_lt (vol : Volume) : vol.unitBytes < 2 ^ 32 := by
  have := vol.szUnit_le
  simp only [Volume.unitBytes, sectorBytes]
  omega

/-- All four hosts make the same transfer for a unit of the volume. -/
theorem unitIo_eq (host : Host) (vol : Volume) (write : Bool) {u : Nat} (inside : u < vol.szFs) :
    host.unitIo vol write u = some ⟨write, (u * vol.unitBytes) % 2 ^ 32, vol.unitBytes⟩ := by
  have size : (vol.info.unitSize * sectorBytes) % 2 ^ 32 = vol.unitBytes := Nat.mod_eq_of_lt (unitBytes_lt vol)
  have listed : u < vol.info.nunits := inside
  cases host <;> cases write <;>
    simp only [Host.unitIo, fsUnitRead, fsUnitWrite, fsUnitIo, Host.context, Host.io, sectorIo, imageIo, if_pos listed,
      sector_offset, size, if_true, Bool.false_eq_true, if_false]

theorem touched_eq (host : Host) (vol : Volume) (write : Bool) {u : Nat} (inside : u < vol.szFs) :
    host.touched vol write u =
      Set.Ico ((u * vol.unitBytes) % 2 ^ 32) ((u * vol.unitBytes) % 2 ^ 32 + vol.unitBytes) := by
  simp only [Host.touched, unitIo_eq host vol write inside, Transfer.bytes]

/-- Consecutive ranges of one length share no byte. -/
theorem disjoint_ranges {u v size : Nat} (differ : u ≠ v) :
    Disjoint (Set.Ico (u * size) ((u + 1) * size)) (Set.Ico (v * size) ((v + 1) * size)) := by
  rw [Set.Ico_disjoint_Ico]
  rcases Nat.lt_or_gt_of_ne differ with below | above
  · have := Nat.mul_le_mul_right size (show u + 1 ≤ v by omega)
    exact le_trans (min_le_left _ _) (le_trans this (le_max_right _ _))
  · have := Nat.mul_le_mul_right size (show v + 1 ≤ u by omega)
    exact le_trans (min_le_right _ _) (le_trans this (le_max_left _ _))

/-- A unit that starts below 4 GiB is transferred in its own range. -/
theorem touched_below (host : Host) (vol : Volume) (write : Bool) {u : Nat} (inside : u < vol.szFs)
    (low : u * vol.unitBytes < 2 ^ 32) :
    host.touched vol write u = Set.Ico (u * vol.unitBytes) ((u + 1) * vol.unitBytes) := by
  rw [touched_eq host vol write inside, Nat.mod_eq_of_lt low, Nat.succ_mul]

/-- A unit whose transfer starts where the unit does starts below 4 GiB. -/
theorem below_of_touched {host : Host} {vol : Volume} {write : Bool} {u : Nat} (inside : u < vol.szFs)
    (range : host.touched vol write u = Set.Ico (u * vol.unitBytes) ((u + 1) * vol.unitBytes)) :
    u * vol.unitBytes < 2 ^ 32 := by
  have positive := unitBytes_pos vol
  have first : (u * vol.unitBytes) % 2 ^ 32 ∈ host.touched vol write u := by
    rw [touched_eq host vol write inside, Set.mem_Ico]
    omega
  rw [range, Set.mem_Ico] at first
  have := Nat.mod_lt (u * vol.unitBytes) (show 0 < 2 ^ 32 by norm_num)
  omega

/-- The units of a volume are addressed exactly, whichever program mounts it, if and only if the last one
starts below 4 GiB. -/
theorem addresses_units_iff (host : Host) (vol : Volume) :
    AddressesUnits host vol ↔ (vol.szFs - 1) * vol.unitBytes < 2 ^ 32 := by
  constructor
  · intro addresses
    rcases Nat.eq_zero_or_pos vol.szFs with none | some
    · simp [none]
    · exact below_of_touched (by omega) (addresses.exact_range false (vol.szFs - 1) (by omega))
  · intro low
    have below : ∀ u, u < vol.szFs → u * vol.unitBytes < 2 ^ 32 := by
      intro u inside
      exact lt_of_le_of_lt (Nat.mul_le_mul_right _ (by omega)) low
    refine ⟨fun write u inside => touched_below host vol write inside (below u inside), ?_⟩
    intro write write' u v insideU insideV differ
    rw [touched_below host vol write insideU (below u insideU),
      touched_below host vol write' insideV (below v insideV)]
    exact disjoint_ranges differ

/-- A volume one unit of 4 KiB larger than 4 GiB. -/
def largeVolume : Volume := ⟨2 ^ 20 + 1, 8, by decide, by decide, by decide⟩

/-- On it the kernel writes the last unit over unit 0. -/
theorem last_unit_over_first :
    ¬ AddressesUnits .kernelVolume largeVolume ∧
      Host.touched .kernelVolume largeVolume true (2 ^ 20) = Host.touched .kernelVolume largeVolume true 0 := by
  refine ⟨fun addresses => ?_, ?_⟩
  · have := below_of_touched (by decide) (addresses.exact_range true (2 ^ 20) (by decide))
    revert this
    decide
  · rw [touched_eq _ _ _ (by decide), touched_eq _ _ _ (by decide)]
    rfl

end PreTeO.Fs
