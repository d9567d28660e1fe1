import PreTeO.Mgfs3.Inode

/-!
# Files of inodes: read, write, remove (`core/driver/fs/mgfs3/inode.cpp`)

A removal goes down the tree from the last block on and ends where the wanted number of blocks is gone.
-/

namespace PreTeO.Mgfs3
set_option autoImplicit false
open PreTeO.Lib

def mgfsDeleted : Nat := 0x8000

/-! ## Reading and writing -/

/-- How a loop over units ends: with the bytes done, or before its end because a unit could not be read. -/
structure Copied where
  r : Nat
  ok : Bool

/-- The units of one array: `total` bytes are to be written, `r` of them are. -/
def writeUnits (data : Nat → Byte) (total hlock : Nat) : List Nat → Nat → Nat → M Copied
  | [], r, _ => return ⟨r, true⟩
  | x :: rest, r, offset => do
    match ← mgfsBufferAlloc x hlock with
    | none => return ⟨r, false⟩
    | some unit =>
      let v ← Prog.get
      let n := min (v.unitSize - offset) (total - r)
      putBytes unit offset n fun i => data (r + i)
      mgfsBufferWrite unit hlock
      mgfsBufferFree unit hlock
      writeUnits data total hlock rest (r + n) 0

/-- The loop of `mgfs_inode_write`. Every round takes a block off `count`. -/
def writeLoop (ref : Ref) (data : Nat → Byte) (total hlock : Nat) : Nat → Nat → Nat → Nat → Nat → M Nat
  | 0, _, _, r, _ => return r
  | fuel + 1, block, count, r, offset =>
    if r < total then do
      let array ← mgfsInodeListDunit ref block (min count maxUnitArray) hlock
      if array = [] then return r
      else
        let c ← writeUnits data total hlock array r offset
        if c.ok then writeLoop ref data total hlock fuel (block + array.length) (count - array.length) c.r 0
        else return c.r
    else return r

/-- `offset + size`, a sum of 64 bits. -/
def endOf (offset size : Nat) : Nat := (offset + size) % 2 ^ 64

/-- The blocks `mgfs_inode_write` asks for. -/
def addBlocks (unitSize inodeSize offset size : Nat) : Nat :=
  let rest := endOf offset size - inodeSize
  (rest / unitSize + if rest % unitSize ≠ 0 then 1 else 0) % 2 ^ 32

/-- The part of `mgfs_inode_write` that makes the inode large enough: the size it then works with. -/
def growInode (h : InodeHandle) (offset size hlock : Nat) : M Nat := do
  let v ← Prog.get
  let inodeSize := (v.inodes h.ref).dunits * v.unitSize % 2 ^ 32
  if inodeSize < endOf offset size then
    let _ ← appendBlocks h (addBlocks v.unitSize inodeSize offset size) none hlock
    let w ← Prog.get
    return inodeSize + (w.inodes h.ref).dunits * w.unitSize % 2 ^ 32
  else return inodeSize

/-- `mgfs_inode_write` of `size` bytes. -/
def mgfsInodeWrite (h : InodeHandle) (offset size : Nat) (data : Nat → Byte) (hlock : Nat) : M Nat := do
  let r ←
    if h.hb ≠ none then do
      let inodeSize ← growInode h offset size hlock
      let v ← Prog.get
      let pos := mgfsInodeCalcDataPos v.unitSize (v.inodes h.ref) offset size
      if endOf offset size ≤ inodeSize then writeLoop h.ref data pos.size hlock pos.count pos.block pos.count 0 pos.offset
      else pure 0
    else pure 0
  putInode h.ref fun inode => { inode with sz := max inode.sz (endOf offset r) }
  mgfsInodeUpdate h hlock
  return r

/-- The units of one array, read. -/
def readUnits (total hlock : Nat) : List Nat → List Byte → Nat → M (List Byte × Bool)
  | [], out, _ => return (out, true)
  | x :: rest, out, offset => do
    match ← mgfsBufferAlloc x hlock with
    | none => return (out, false)
    | some unit =>
      let v ← Prog.get
      let n := min (v.unitSize - offset) (total - out.length)
      let out := out ++ (List.range n).map fun i => v.mem unit (offset + i)
      mgfsBufferFree unit hlock
      readUnits total hlock rest out 0

/-- The loop of `mgfs_inode_read`. -/
def readLoop (ref : Ref) (total hlock : Nat) : Nat → Nat → Nat → List Byte → Nat → M (List Byte)
  | 0, _, _, out, _ => return out
  | fuel + 1, block, count, out, offset =>
    if out.length < total then do
      let array ← mgfsInodeListDunit ref block (min count maxUnitArray) hlock
      if array = [] then return out
      else
        let (out, ok) ← readUnits total hlock array out offset
        if ok then readLoop ref total hlock fuel (block + array.length) (count - array.length) out 0
        else return out
    else return out

/-- `mgfs_inode_read`: the bytes read. -/
def mgfsInodeRead (h : InodeHandle) (offset size hlock : Nat) : M (List Byte) := do
  if h.hb ≠ none then
    let v ← Prog.get
    let pos := mgfsInodeCalcDataPos v.unitSize (v.inodes h.ref) offset size
    readLoop h.ref pos.size hlock pos.count pos.block pos.count [] pos.offset
  else return []

/-! ## Inode numbers -/

/-- `inode_free`: whether the bit was cleared. -/
def inodeFree (number hlock : Nat) : M Bool := do
  match ← mgfsInodeMetaOpen inodeBitmapIdx hlock with
  | none => return false
  | some hibitmap =>
    let hisbitmap ← openShadow inodeBitmapShadowIdx hlock
    let r ← mgfsBitmapFree hibitmap [number] hlock
    syncShadow hibitmap hisbitmap hlock [number]
    closeShadow hisbitmap hlock
    mgfsInodeClose hibitmap hlock
    return r = 1

/-- A record as `mgfs_inode_create` makes it. -/
def Inode.fresh (flags : Nat) : Inode := ⟨flags, 0, 0, 0, fun _ => invalidUnitNumber, 0, 0⟩

/-! ## Removal -/

/-- The inner loop over the data units: from position `addrIdx` down, while fewer than `nblocks` are counted. -/
def scanDown (p : Table) (nblocks : Nat) : Nat → Nat → Nat → Nat × Nat
  | 0, _, count => (0, count)
  | k + 1, r, count =>
    if r < nblocks then
      if p (k + 1) ≠ invalidUnitNumber then scanDown p nblocks k (r + 1) (count + 1) else scanDown p nblocks k r count
    else (k + 1, count)

/-- Positions from 0 on set to the invalid number. -/
def clearPlace (place : Place) : Nat → M Unit
  | 0 => return ()
  | n + 1 => do
    clearPlace place n
    place.put n invalidUnitNumber

/-- Fewer data units. -/
def dropUnits (ref : Ref) (n : Nat) : M Unit :=
  putInode ref fun inode => { inode with dunits := (inode.dunits + (2 ^ 32 - n % 2 ^ 32)) % 2 ^ 32 }

/-- The data units of one stretch: what was removed and the position reached. -/
def removeData (g : Growth) (hlock nblocks : Nat) (place : Place) (addrIdx r : Nat) : M (Nat × Nat) := do
  let v ← Prog.get
  let p := place.table v
  let (i, count) := scanDown p nblocks addrIdx r 0
  let base := (List.range (count + 1)).map fun j => p (i + j)
  let n ← mgfsBitmapFree g.bitmap base hlock
  dropUnits g.inode.ref n
  syncShadow g.bitmap g.shadow hlock (base.take n)
  clearPlace place (count + 1)
  return (r + n, i)

/-- A subtree: what was removed of it. -/
def removeTree (down : Nat → Nat → M (Nat × Bool)) (g : Growth) (hlock nblocks : Nat) (place : Place) (i base r : Nat) :
    M Nat := do
  let (n, empty) ← down base (nblocks - r)
  dropUnits g.inode.ref n
  if empty then
    let _ ← mgfsBitmapFree g.bitmap [base] hlock
    syncShadow g.bitmap g.shadow hlock [base]
    place.put i invalidUnitNumber
  return r + n

/-- The loop over the positions, from `addrIdx` down; `down` is the call for the level below. -/
def removeLoop (down : Nat → Nat → M (Nat × Bool)) (g : Growth) (level hlock nblocks : Nat) (place : Place) :
    Nat → Nat → Nat → M (Nat × Nat)
  | 0, addrIdx, r => return (r, addrIdx)
  | fuel + 1, addrIdx, r =>
    if addrIdx ≠ 0 ∧ r < nblocks then do
      let i := addrIdx - 1
      let v ← Prog.get
      let base := place.table v i
      if base ≠ invalidUnitNumber then
        if level ≠ 0 then
          let r ← removeTree down g hlock nblocks place i base r
          removeLoop down g level hlock nblocks place fuel i r
        else
          let (r, i) ← removeData g hlock nblocks place i r
          removeLoop down g level hlock nblocks place fuel i r
      else removeLoop down g level hlock nblocks place fuel i r
    else return (r, addrIdx)

/-- One call of `inode_remove_block`: what was removed, and whether the first position was reached. -/
def removeAt (down : Nat → Nat → M (Nat × Bool)) (g : Growth) (level hlock base nblocks : Nat) : M (Nat × Bool) := do
  let v ← Prog.get
  if level = (v.inodes g.inode.ref).level then
    let (r, i) ←
      removeLoop down g level hlock nblocks (.locations g.inode.ref) maxLocationIndex maxLocationIndex 0
    return (r, i = 0)
  else
    match ← mgfsBufferAlloc base hlock with
    | none => return (0, true)
    | some unit =>
      let n := v.unitSize / 4
      let (r, i) ← removeLoop down g level hlock nblocks (.unit unit) n n 0
      if r ≠ 0 then mgfsBufferWrite unit hlock
      mgfsBufferFree unit hlock
      return (r, i = 0)

/-- `inode_remove_block`. -/
def inodeRemoveBlock (g : Growth) (hlock : Nat) : Nat → Nat → Nat → M (Nat × Bool)
  | 0, base, nblocks => removeAt (fun _ _ => return (0, false)) g 0 hlock base nblocks
  | level + 1, base, nblocks => removeAt (inodeRemoveBlock g hlock level) g (level + 1) hlock base nblocks

/-- The units of an inode without other names go back, and its number if all of them did. -/
def deleteUnits (h : InodeHandle) (number : Nat) (g : Growth) (hlock : Nat) : M Bool := do
  let v ← Prog.get
  let inode := v.inodes h.ref
  let (removed, empty) ← inodeRemoveBlock g hlock inode.level (inode.location 0) inode.dunits
  let done ← if empty ∧ inode.dunits = removed then inodeFree number hlock else pure false
  let w ← Prog.get
  putInode h.ref fun inode =>
    { inode with
      flags := if done then inode.flags ||| mgfsDeleted else inode.flags
      sz := inode.dunits * w.unitSize % 2 ^ 32 }
  mgfsInodeUpdate h hlock
  return done

/-- `mgfs_inode_delete`. -/
def mgfsInodeDelete (h : InodeHandle) (number hlock : Nat) : M Bool := do
  let v ← Prog.get
  if (v.inodes h.ref).lc ≠ 0 then
    putInode h.ref fun inode => { inode with lc := inode.lc - 1 }
    mgfsInodeUpdate h hlock
    return false
  else
    match ← mgfsInodeMetaOpen spaceBitmapIdx hlock with
    | none => return false
    | some hbitmap =>
      let hshadow ← openShadow spaceBitmapShadowIdx hlock
      let done ← deleteUnits h number ⟨h, hbitmap, hshadow⟩ hlock
      closeShadow hshadow hlock
      mgfsInodeClose hbitmap hlock
      return done

/-- The blocks `mgfs_inode_truncate` removes, a difference of 32 bits. -/
def cutBlocks (unitSize sz newSize : Nat) : Nat :=
  ((sz - newSize) / unitSize + (2 ^ 32 - if (sz - newSize) % unitSize ≠ 0 then 1 else 0)) % 2 ^ 32

/-- `mgfs_inode_truncate`: the new size. It opens the inode bitmap, not the space bitmap. -/
def mgfsInodeTruncate (h : InodeHandle) (newSize hlock : Nat) : M Nat := do
  let v ← Prog.get
  let inode := v.inodes h.ref
  if newSize < inode.sz then
    match ← mgfsInodeMetaOpen inodeBitmapIdx hlock with
    | none => return inode.sz
    | some hbitmap =>
      let hshadow ← openShadow spaceBitmapShadowIdx hlock
      let count := cutBlocks v.unitSize inode.sz newSize
      let (removed, _) ← inodeRemoveBlock ⟨h, hbitmap, hshadow⟩ hlock inode.level (inode.location 0) count
      let size := if removed = count then newSize else (inode.sz + (2 ^ 64 - removed * v.unitSize % 2 ^ 32)) % 2 ^ 64
      putInode h.ref fun inode => { inode with sz := size }
      closeShadow hshadow hlock
      mgfsInodeClose hbitmap hlock
      mgfsInodeUpdate h hlock
      return size
  else return inode.sz

end PreTeO.Mgfs3
