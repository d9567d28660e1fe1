import PreTeO.Mgfs3.Bitmap

/-!
# Growing inodes (`core/driver/fs/mgfs3/inode.cpp`)

`inode_append_block` hangs a batch of data units into the tree of an inode. One call works on one level, in rounds, and
calls itself for the level below; `level` is that of the call, the level of the inode may grow while it runs. The
function that calls it once per batch is written down once, with the byte the new units are filled with if they are.
-/

namespace PreTeO.Mgfs3
set_option autoImplicit false
open PreTeO.Lib

def maxUnitArray : Nat := 32
def maxInodeLevel : Nat := 3

/-- What `p_unit_number` points to. -/
inductive Place where
  | locations (ref : Ref)
  | unit (u : Nat)
deriving DecidableEq, Repr

/-- The numbers at a place. -/
def Place.table (v : Volume) : Place → Table
  | .locations ref => (v.inodes ref).location
  | .unit u => entry (v.mem u)

/-- A number stored at a place. -/
def Place.put (i x : Nat) : Place → M Unit
  | .locations ref => putInode ref fun inode => { inode with location := Function.update inode.location i x }
  | .unit u => putEntry u i x

/-- The first position that is free, or the number of positions. -/
def firstFree (p : Table) (n : Nat) : Nat := ((List.range n).find? fun i => p i = invalidUnitNumber).getD n

/-- `mem_set` of a whole unit. -/
def fillUnit (unit : Nat) (b : Byte) : M Unit := do
  let v ← Prog.get
  putBytes unit 0 v.unitSize fun _ => b

/-- The call of `mgfs_bitmap_sync` where there is a shadow. -/
def syncShadow (h : InodeHandle) (hshadow : Option InodeHandle) (hlock : Nat) (array : List Nat) : M Unit :=
  match hshadow with
  | none => return ()
  | some s => mgfsBitmapSync h s hlock array

/-- The inode that grows, and the space bitmap with its shadow. -/
structure Growth where
  inode : InodeHandle
  bitmap : InodeHandle
  shadow : Option InodeHandle

/-- A new address unit, handed to `use` while its buffer is in use; `none` if there is none. -/
def newAddrUnit (g : Growth) (hlock : Nat) (use : Nat → M Unit) : M (Option Nat) := do
  match ← mgfsBitmapAlloc 1 g.bitmap hlock with
  | [unit] =>
    match ← mgfsBufferAlloc unit hlock with
    | none =>
      let _ ← mgfsBitmapFree g.bitmap [unit] hlock
      return none
    | some _ =>
      use unit
      mgfsBufferFree unit hlock
      syncShadow g.bitmap g.shadow hlock [unit]
      return some unit
  | _ => return none

/-- The data units of the batch stored from position `i` on, while there are positions. -/
def fillPlace (ref : Ref) (place : Place) : Nat → Nat → List Nat → M Unit
  | 0, _, _ => return ()
  | _, _, [] => return ()
  | n + 1, i, x :: rest => do
    place.put i x
    putInode ref fun inode => { inode with dunits := (inode.dunits + 1) % 2 ^ 32 }
    fillPlace ref place n (i + 1) rest

/-- A new address unit at position `i`. -/
def addPointer (g : Growth) (hlock : Nat) (place : Place) (i : Nat) : M (Option Nat) :=
  newAddrUnit g hlock fun unit => do
    place.put i unit
    fillUnit unit 0xff#8
    mgfsBufferWrite unit hlock

/-- `location` copied to the entries of a unit. -/
def copyLocations (ref : Ref) (unit : Nat) : Nat → M Unit
  | 0 => return ()
  | n + 1 => do
    copyLocations ref unit n
    let v ← Prog.get
    putEntry unit n ((v.inodes ref).location n)

/-- The switch to the next level: the locations move to a new address unit. -/
def switchLevel (g : Growth) (hlock : Nat) : M (Option Nat) :=
  newAddrUnit g hlock fun unit => do
    fillUnit unit 0xff#8
    copyLocations g.inode.ref unit maxLocationIndex
    mgfsBufferWrite unit hlock
    putInode g.inode.ref fun inode =>
      { inode with
        level := (inode.level + 1) % 2 ^ 8
        location := Function.update (fun _ => invalidUnitNumber) 0 unit }

/-- How a round of `inode_append_block` ends. -/
inductive Round where
  | done (r : Nat)
  | again (base r : Nat)

/-- A round at a place with `n` positions; `down` is the call for the level below. -/
def appendAt (down : Nat → List Nat → M Nat) (g : Growth) (level hlock base : Nat) (place : Place) (n r : Nat)
    (array : List Nat) : M Round := do
  let v ← Prog.get
  let p := place.table v
  let i := firstFree p n
  if i < n then
    if level ≠ 0 then
      let r ← if 0 < i then do pure (r + (← down (p (i - 1)) (array.drop r))) else pure r
      if 0 < i ∧ array.length ≤ r then return .done r
      else
        match ← addPointer g hlock place i with
        | none => return .done r
        | some _ => return .again base r
    else
      let k := min (n - i) (array.length - r)
      fillPlace g.inode.ref place (n - i) i (array.drop r)
      match place with
      | .locations _ => pure ()
      | .unit u => mgfsBufferWrite u hlock
      return .again base (r + k)
  else
    if level = (v.inodes g.inode.ref).level ∧ level ≤ maxInodeLevel then
      match ← switchLevel g hlock with
      | none => return .done r
      | some unit => return .again unit r
    else return .done r

/-- The rounds. The buffer of an address unit is asked for without the lock's handle, and anew in every round; `hb` is
the one the call knows of. -/
def appendLoop (down : Nat → List Nat → M Nat) (g : Growth) (level hlock : Nat) (array : List Nat) :
    Nat → Nat → Nat → Option Nat → M (Nat × Option Nat)
  | 0, _, _, _ => Prog.stuck .rounds
  | fuel + 1, base, r, hb =>
    if r < array.length then do
      let v ← Prog.get
      if level = (v.inodes g.inode.ref).level then
        match ← appendAt down g level hlock base (.locations g.inode.ref) maxLocationIndex r array with
        | .done r => return (r, hb)
        | .again base r => appendLoop down g level hlock array fuel base r hb
      else
        match ← mgfsBufferAlloc base 0 with
        | none => return (r, none)
        | some unit =>
          match ← appendAt down g level hlock base (.unit unit) (v.unitSize / 4) r array with
          | .done r => return (r, some unit)
          | .again base r => appendLoop down g level hlock array fuel base r (some unit)
    else return (r, hb)

/-- The number of clear bits of a bitmap file. -/
def clearBits (recs : List BitmapRec) : Nat :=
  (recs.map fun r => ((List.range maxBitmapBits).filter fun bit => !r.bits.getLsbD bit).length).sum

/-- More rounds than a call can make: each but the last takes a unit or stores one. -/
def rounds (g : Growth) (v : Volume) (array : List Nat) : Nat := array.length + clearBits (v.bits g.bitmap.ref.idx) + 2

/-- `inode_append_block`, for one level: the number of units that were hung in. -/
def inodeAppendBlock (g : Growth) (hlock : Nat) : Nat → Nat → List Nat → M Nat
  | 0, base, array => do
    let v ← Prog.get
    let (r, hb) ← appendLoop (fun _ _ => return 0) g 0 hlock array (rounds g v array) base 0 none
    mgfsBufferRelease hb hlock
    return r
  | level + 1, base, array => do
    let v ← Prog.get
    let (r, hb) ←
      appendLoop (inodeAppendBlock g hlock level) g (level + 1) hlock array (rounds g v array) base 0 none
    mgfsBufferRelease hb hlock
    return r

/-- The new units filled with a byte. -/
def fillUnits (b : Byte) (hlock : Nat) : List Nat → M Unit
  | [] => return ()
  | x :: rest => do
    match ← mgfsBufferAlloc x hlock with
    | none => pure ()
    | some unit =>
      fillUnit unit b
      mgfsBufferWrite unit hlock
      mgfsBufferFree unit hlock
    fillUnits b hlock rest

/-- One batch. -/
def appendBatch (g : Growth) (pattern : Option Byte) (nblocks hlock : Nat) : M Nat := do
  let array ← mgfsBitmapAlloc (min nblocks maxUnitArray) g.bitmap hlock
  if array = [] then return 0
  else
    match pattern with
    | none => pure ()
    | some b => fillUnits b hlock array
    let v ← Prog.get
    let inode := v.inodes g.inode.ref
    let r ← inodeAppendBlock g hlock inode.level (inode.location 0) array
    syncShadow g.bitmap g.shadow hlock (array.take r)
    return r

/-- The loop over the batches. A batch is as large as the whole order, also the last one. -/
def appendBatches (g : Growth) (pattern : Option Byte) (nblocks hlock : Nat) : Nat → Nat → M Nat
  | 0, r => return r
  | fuel + 1, r =>
    if r < nblocks then do
      let n ← appendBatch g pattern nblocks hlock
      if n = 0 then return r else appendBatches g pattern nblocks hlock fuel (r + n)
    else return r

/-- The shadow of a bitmap file, where the volume has shadows. -/
def openShadow (idx hlock : Nat) : M (Option InodeHandle) := do
  let v ← Prog.get
  if v.shadow then mgfsInodeMetaOpen idx hlock else return none

/-- `mgfs_inode_close` of a handle there may not be. -/
def closeShadow (hshadow : Option InodeHandle) (hlock : Nat) : M Unit :=
  match hshadow with
  | none => return ()
  | some s => mgfsInodeClose s hlock

/-- The two functions that append `nblocks` blocks: `mgfs_inode_append_block` fills them, `inode_append_block` does
not. -/
def appendBlocks (h : InodeHandle) (nblocks : Nat) (pattern : Option Byte) (hlock : Nat) : M Nat := do
  match ← mgfsInodeMetaOpen spaceBitmapIdx hlock with
  | none => return 0
  | some hbitmap =>
    let hshadow ← openShadow spaceBitmapShadowIdx hlock
    let r ← appendBatches ⟨h, hbitmap, hshadow⟩ pattern nblocks hlock nblocks 0
    closeShadow hshadow hlock
    mgfsInodeClose hbitmap hlock
    return r

end PreTeO.Mgfs3
