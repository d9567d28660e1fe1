import Mathlib.Data.Fintype.Defs
import Mathlib.Logic.Function.Basic
import PreTeO.Lib.Bytes
import PreTeO.Lib.Prog

/-!
# The volume: lock, buffers, block lists (`mgfs3.cpp`, `buffer.cpp`, first part of `inode.cpp`)

A unit is bytes; address units are read as 32-bit numbers. Three kinds of records that live in units are kept as
what they are instead: inode records, and the records of the four bitmap files. `mem` is what the buffers hold, `disk`
what was marked for writing (the file system mounts with write-through), `unsaved` a unit changed since it was last
marked, `users` the usage counters of the buffers. A buffer handle is the unit it holds. So no two units share a place on the
device, as where the last one starts below 4 GiB, and a unit that is flushed gets there.

One thread runs at a time. A nested `mgfs_lock` with another handle than that of the lock held waits for the thread's
own unlock, so it never returns.
-/

namespace PreTeO.Mgfs3
set_option autoImplicit false
open PreTeO.Lib

def invalidUnitNumber : Nat := 0xffffffff
def maxLocationIndex : Nat := 8
def maxBitmapBits : Nat := 248

/-- 32-bit numbers in a row: the entries of an address unit, or `location` of an inode. -/
abbrev Table := Nat → Nat

/-- `_mgfs_inode_record_t`; `nused` is the counter a bitmap keeps in `reserved`. -/
structure Inode where
  flags : Nat
  lc : Nat
  dunits : Nat
  level : Nat
  location : Table
  sz : Nat
  nused : Nat

/-- Whose record it is: `fs.meta` in the superblock, a member of the meta group, a member of the inode container. -/
inductive Ref where
  | superblock
  | member (idx : Nat)
  | file (number : Nat)
deriving DecidableEq, Repr

/-- `_mgfs_bitmap_t`; bit 0 is the highest bit of the first byte. -/
structure BitmapRec where
  used : Nat
  bits : BitVec maxBitmapBits
deriving DecidableEq

/-- The lock that is held. -/
structure Lock where
  handle : Nat
  depth : Nat
deriving DecidableEq, Repr

/-- A mounted file system. `bits` are the records of a bitmap file, by its index in the meta group. -/
structure Volume where
  unitSize : Nat
  shadow : Bool
  reads : Nat → Bool
  mem : Nat → Mem
  disk : Nat → Mem
  unsaved : Nat → Bool
  users : Nat → Nat
  inodes : Ref → Inode
  stored : Ref → Inode
  bits : Nat → List BitmapRec
  held : Option Lock
  tickets : Nat

/-- Why a call does not return. -/
inductive Stuck where
  | waits
  | rounds
deriving DecidableEq, Repr

abbrev M := Prog Stuck Volume

/-! ## Lock and buffers -/

/-- `mgfs_lock`. -/
def mgfsLock (hlock : Nat) : M Nat := do
  let v ← Prog.get
  match v.held with
  | none =>
    Prog.modify fun v => { v with held := some ⟨v.tickets + 1, 1⟩, tickets := v.tickets + 1 }
    return v.tickets + 1
  | some l =>
    if hlock = l.handle then
      Prog.modify fun v => { v with held := some ⟨l.handle, l.depth + 1⟩ }
      return l.handle
    else Prog.stuck .waits

/-- `mgfs_unlock`. -/
def mgfsUnlock (hlock : Nat) : M Unit := Prog.modify fun v =>
  match v.held with
  | none => v
  | some l =>
    if hlock = l.handle then { v with held := if l.depth ≤ 1 then none else some ⟨l.handle, l.depth - 1⟩ } else v

/-- A piece of code between `mgfs_lock` and `mgfs_unlock`. -/
def locked {A : Type} (hlock : Nat) (body : Nat → M A) : M A := do
  let lock ← mgfsLock hlock
  let a ← body lock
  mgfsUnlock lock
  return a

/-- `mgfs_buffer_alloc`: the unit is the handle. -/
def mgfsBufferAlloc (unit hlock : Nat) : M (Option Nat) :=
  locked hlock fun _ => do
    let v ← Prog.get
    if v.reads unit then
      Prog.modify fun v => { v with users := Function.update v.users unit (v.users unit + 1) }
      return some unit
    else return none

/-- `mgfs_buffer_free`. -/
def mgfsBufferFree (unit hlock : Nat) : M Unit :=
  locked hlock fun _ =>
    Prog.modify fun v => { v with users := Function.update v.users unit (v.users unit - 1) }

/-- `mgfs_buffer_free` of a handle that may be invalid. -/
def mgfsBufferRelease (hb : Option Nat) (hlock : Nat) : M Unit :=
  match hb with
  | none => return ()
  | some unit => mgfsBufferFree unit hlock

/-- `mgfs_buffer_write`. -/
def mgfsBufferWrite (unit hlock : Nat) : M Unit :=
  locked hlock fun _ =>
    Prog.modify fun v =>
      { v with disk := Function.update v.disk unit (v.mem unit), unsaved := Function.update v.unsaved unit false }

/-- Bytes stored through the pointer to a buffer. -/
def putBytes (unit offset n : Nat) (f : Nat → Byte) : M Unit := Prog.modify fun v =>
  { v with
    mem := Function.update v.mem unit ((v.mem unit).blit offset n f)
    unsaved := Function.update v.unsaved unit true }

/-- Entry `i` of an address unit. -/
def entry (m : Mem) (i : Nat) : Nat := m.load (4 * i) 4

/-- An entry stored through the pointer to a buffer. -/
def putEntry (unit i x : Nat) : M Unit := putBytes unit (4 * i) 4 (Mem.digit x)

/-- A change of an inode record through its pointer. -/
def putInode (ref : Ref) (f : Inode → Inode) : M Unit := Prog.modify fun v =>
  { v with inodes := Function.update v.inodes ref (f (v.inodes ref)) }

/-! ## Block lists -/

/-- `_pow32`. -/
def pow32 (base : Nat) : Nat → Nat
  | 0 => 1
  | n + 1 => pow32 base n * base % 2 ^ 32

/-- The first pointer whose tree holds block `f`. -/
def findPointer (c max f : Nat) : Option Nat := (List.range c).find? fun i => f < (i + 1) * max % 2 ^ 32

/-- The entries from `f` on, `n` of them left, until one is invalid or `count` are in the list; `true` if one was
invalid. -/
def takeEntries (p : Table) (count : Nat) : Nat → Nat → List Nat → List Nat × Bool
  | 0, _, out => (out, false)
  | n + 1, f, out =>
    if p f ≠ invalidUnitNumber then
      if count ≤ out.length + 1 then (out ++ [p f], false) else takeEntries p count n (f + 1) (out ++ [p f])
    else (out, true)

/-- Where a walk down the tree stands: the pointers, how many they are, the block among them, the buffer in use. -/
structure Walk where
  table : Table
  c : Nat
  f : Nat
  hb : Option Nat

/-- The search at level `l` and the read of the address unit it finds. -/
def descendLevel (hlock l : Nat) (w : Walk) : M Walk := do
  let v ← Prog.get
  let max := pow32 (v.unitSize / 4) l
  match findPointer w.c max w.f with
  | none => return w
  | some i =>
    if w.table i ≠ invalidUnitNumber then
      match ← mgfsBufferAlloc (w.table i) hlock with
      | none => return { w with hb := none }
      | some unit => return ⟨entry (v.mem unit), v.unitSize / 4, w.f - i * max % 2 ^ 32, some unit⟩
    else return w

/-- The loop over the levels. The buffer of a level is released before its pointers are read. -/
def descend (hlock : Nat) : Nat → Walk → M Walk
  | 0, w => return w
  | l + 1, w => do
    let w ← descendLevel hlock (l + 1) w
    if l ≠ 0 then
      mgfsBufferRelease w.hb hlock
      descend hlock l { w with hb := none }
    else return w

/-- The loop that fills the array; every round but the last adds a unit. -/
def listLoop (inode : Inode) (first count hlock : Nat) : Nat → List Nat → M (List Nat)
  | 0, out => return out
  | fuel + 1, out =>
    if out.length < count then do
      let w ← descend hlock inode.level ⟨inode.location, maxLocationIndex, (first + out.length) % 2 ^ 32, none⟩
      if w.c ≤ w.f then do
        mgfsBufferRelease w.hb hlock
        return out
      else do
        let (out, invalid) := takeEntries w.table count (w.c - w.f) w.f out
        mgfsBufferRelease w.hb hlock
        if invalid then return out else listLoop inode first count hlock fuel out
    else return out

/-- `mgfs_inode_list_dunit`. -/
def mgfsInodeListDunit (ref : Ref) (first count hlock : Nat) : M (List Nat) := do
  let v ← Prog.get
  listLoop (v.inodes ref) first count hlock count []

/-! ## Positions and handles -/

/-- What `mgfs_inode_calc_data_pos` computes: the bytes there are, and the block, the offset in it and the number of
blocks. -/
structure DataPos where
  size : Nat
  block : Nat
  offset : Nat
  count : Nat
deriving DecidableEq, Repr

/-- `mgfs_inode_calc_data_pos`. The size of the blocks is a product of 32 bits. -/
def mgfsInodeCalcDataPos (unitSize : Nat) (inode : Inode) (offset size : Nat) : DataPos :=
  let inodeSize := unitSize * inode.dunits % 2 ^ 32
  if offset < inodeSize then
    let r := if offset + size < inodeSize then size else inodeSize - offset
    let last := offset % unitSize + r
    ⟨r, offset / unitSize, offset % unitSize, last / unitSize + if last % unitSize ≠ 0 then 1 else 0⟩
  else ⟨0, 0, 0, 0⟩

/-- `mgfs_inode_read_block`. -/
def mgfsInodeReadBlock (ref : Ref) (block hlock : Nat) : M (Option Nat) := do
  match ← mgfsInodeListDunit ref block 1 hlock with
  | [unit] => mgfsBufferAlloc unit hlock
  | _ => return none

/-- `_mgfs_inode_handle_t`: the record, and the buffer it lies in. -/
structure InodeHandle where
  ref : Ref
  hb : Option Nat
deriving DecidableEq, Repr

def szInodeRecord : Nat := 64
def spaceBitmapIdx : Nat := 0
def inodeBitmapIdx : Nat := 2
def spaceBitmapShadowIdx : Nat := 3
def inodeBitmapShadowIdx : Nat := 4

abbrev spaceBitmap : Ref := .member spaceBitmapIdx
abbrev spaceShadow : Ref := .member spaceBitmapShadowIdx

/-- The buffer of record `number` of the records in the file `ref`. -/
def readRecord (ref : Ref) (number hlock : Nat) : M (Option Nat) := do
  let v ← Prog.get
  let pos := mgfsInodeCalcDataPos v.unitSize (v.inodes ref) (number * szInodeRecord) szInodeRecord
  if pos.size = szInodeRecord then mgfsInodeReadBlock ref pos.block hlock else return none

/-- `mgfs_inode_close`. -/
def mgfsInodeClose (h : InodeHandle) (hlock : Nat) : M Unit := mgfsBufferRelease h.hb hlock

/-- `mgfs_inode_meta_open`. -/
def mgfsInodeMetaOpen (idx hlock : Nat) : M (Option InodeHandle) := do
  match ← readRecord .superblock idx hlock with
  | none => return none
  | some unit => return some ⟨.member idx, some unit⟩

/-- The two records lie in one unit. -/
def sameUnit (unitSize : Nat) : Ref → Ref → Bool
  | .member i, .member j => i * szInodeRecord / unitSize = j * szInodeRecord / unitSize
  | .file n, .file m => n * szInodeRecord / unitSize = m * szInodeRecord / unitSize
  | _, _ => false

/-- The records of a unit that was marked for writing. -/
def storeRecords (ref : Ref) : M Unit := Prog.modify fun v =>
  { v with stored := fun r => if sameUnit v.unitSize ref r then v.inodes r else v.stored r }

/-- `mgfs_inode_update`. -/
def mgfsInodeUpdate (h : InodeHandle) (hlock : Nat) : M Unit :=
  match h.hb with
  | none => return ()
  | some unit => do
    mgfsBufferWrite unit hlock
    storeRecords h.ref

end PreTeO.Mgfs3
