import PreTeO.Mgfs3.Str

/-!
# Directories (`core/driver/fs/mgfs3/dentry.cpp`)

A directory is a file of units filled with records. A record is a packed header of 32 bytes, whose
reserved part holds the links of a binary search tree, and the name; for a soft link the path follows
the name. Positions are a block number and an offset in the block, and every function below computes
them from the bytes as the source does. A block is what its buffer holds: unit input and output
succeed and buffers of the same unit are the same memory.

`none` as a whole result is a call that does not return. `top` is a history variable: the end of the
highest byte written in any block buffer.
-/

namespace PreTeO.Mgfs3
set_option autoImplicit false
open PreTeO.Lib

/-- `_dentry_position_t`. -/
structure Position where
  block : Nat
  offset : Nat
deriving DecidableEq, Repr

def invalidBlockNumber : Nat := 0xffffffff
def invalidBlockOffset : Nat := 0xffff
def invalidInodeNumber : Nat := 0xffffffff

/-- The position that stands for no record. -/
def Position.invalid : Position := ⟨invalidBlockNumber, invalidBlockOffset⟩

/-- `sizeof(_mgfs_dir_record_t)`. -/
def szDirRecord : Nat := 32

def dentryDeleted : Byte := 1#8
def dentryLink : Byte := 2#8

/-- A directory inode with its data blocks. -/
structure Directory where
  unitSize : Nat
  blocks : Nat → Mem
  dunits : Nat
  sz : Nat
  top : Nat

/-- A directory right after its inode was created. -/
def Directory.empty (unitSize : Nat) : Directory := ⟨unitSize, fun _ _ => 0#8, 0, 0, 0⟩

/-! ## Records -/

/-- The three members of `_dentry_link_t`. -/
inductive Link where
  | left
  | parent
  | right
deriving DecidableEq, Repr

/-- Where the link lies in a record. -/
def Link.place : Link → Nat
  | .left => 9
  | .parent => 15
  | .right => 21

/-- Byte `i` of the record at `p`. -/
def Directory.byte (d : Directory) (p : Position) (i : Nat) : Byte := d.blocks p.block (p.offset + i)

def Directory.nameSize (d : Directory) (p : Position) : Nat := (d.blocks p.block).load p.offset 2
def Directory.recordSize (d : Directory) (p : Position) : Nat := (d.blocks p.block).load (p.offset + 2) 2
def Directory.flags (d : Directory) (p : Position) : Byte := d.byte p 4
def Directory.inodeNumber (d : Directory) (p : Position) : Nat := (d.blocks p.block).load (p.offset + 5) 4

def Directory.link (d : Directory) (l : Link) (p : Position) : Position :=
  ⟨(d.blocks p.block).load (p.offset + l.place) 4, (d.blocks p.block).load (p.offset + (l.place + 4)) 2⟩

/-- `_DENTRY_NAME_`. -/
def Directory.name (d : Directory) (p : Position) : Nat → Byte := fun i => d.byte p (szDirRecord + i)

/-- The record carries `DENTRY_DELETED`. -/
def Directory.Deleted (d : Directory) (p : Position) : Prop := d.flags p &&& dentryDeleted ≠ 0#8

instance (d : Directory) (p : Position) : Decidable (d.Deleted p) := inferInstanceAs (Decidable (_ ≠ _))

/-- Write `n` bytes at byte `i` of the record at `p`. -/
def Directory.write (d : Directory) (p : Position) (i n : Nat) (f : Nat → Byte) : Directory :=
  { d with
    blocks := Function.update d.blocks p.block ((d.blocks p.block).blit (p.offset + i) n f)
    top := max d.top (p.offset + i + n) }

/-- Write a number of `n` bytes. -/
def Directory.store (d : Directory) (p : Position) (i n v : Nat) : Directory := d.write p i n (Mem.digit v)

def Directory.setNameSize (d : Directory) (p : Position) (v : Nat) : Directory := d.store p 0 2 v
def Directory.setRecordSize (d : Directory) (p : Position) (v : Nat) : Directory := d.store p 2 2 v
def Directory.setFlags (d : Directory) (p : Position) (v : Byte) : Directory := d.write p 4 1 fun _ => v
def Directory.setInodeNumber (d : Directory) (p : Position) (v : Nat) : Directory := d.store p 5 4 v

def Directory.setLink (d : Directory) (l : Link) (p q : Position) : Directory :=
  (d.store p l.place 4 q.block).store p (l.place + 4) 2 q.offset

/-- `mgfs_inode_read_block` finds the block. -/
def Directory.HasBlock (d : Directory) (p : Position) : Prop := p.block < d.dunits

instance (d : Directory) (p : Position) : Decidable (d.HasBlock p) := inferInstanceAs (Decidable (_ < _))

/-! ## Searching -/

/-- What `dentry_find` returns. -/
structure Found where
  found : Bool
  last : Position
  inplace : Position
  deleted : Position
deriving DecidableEq, Repr

/-- The room behind the name of a record, in unsigned 64-bit arithmetic. -/
def Directory.slack (d : Directory) (p : Position) : Nat :=
  (d.recordSize p + 2 ^ 64 - szDirRecord - d.nameSize p) % 2 ^ 64

/-- The bookkeeping of one round of `dentry_find` at record `p`. -/
def Directory.note (d : Directory) (szName : Nat) (p : Position) (out : Found) : Found :=
  let out := { out with last := p }
  let out := if d.Deleted p ∧ out.deleted.block = invalidBlockNumber ∧
      szDirRecord + szName ≤ d.recordSize p then { out with deleted := p } else out
  if szDirRecord + szName ≤ d.slack p ∧ out.inplace.block = invalidBlockNumber then { out with inplace := p }
  else out

/-- The loop of `dentry_find` at position `p`. A deleted record of the same name leaves `p` as it is. -/
def Directory.findLoop (d : Directory) (name : Nat → Byte) (szName : Nat) :
    Nat → Position → Found → Option Found
  | 0, _, _ => none
  | fuel + 1, p, out =>
    if p.block = invalidBlockNumber then some out
    else if d.HasBlock p then
      let out := d.note szName p out
      let cmp := strCmp name (d.name p)
      if cmp = 0 then
        if d.Deleted p then Directory.findLoop d name szName fuel p { out with deleted := p }
        else some { out with found := true }
      else if cmp < 0 then Directory.findLoop d name szName fuel (d.link .left p) out
      else Directory.findLoop d name szName fuel (d.link .right p) out
    else some out

/-- More rounds than a directory has places for records. -/
def Directory.rounds (d : Directory) : Nat := d.dunits * d.unitSize + 2

/-- `dentry_find`. -/
def Directory.find (d : Directory) (name : Nat → Byte) (szName : Nat) : Option Found :=
  d.findLoop name szName d.rounds ⟨0, 0⟩ ⟨false, .invalid, .invalid, .invalid⟩

/-- `str_len`, with a bound on the characters read. -/
def strLen (s : Nat → Byte) : Nat := (chars s).length - 1

/-- `_DENTRY_LINK_NAME_`: the path of a soft link lies behind its name. -/
def Directory.linkName (d : Directory) (p : Position) : Nat → Byte := fun i => d.name p (strLen (d.name p) + 1 + i)

/-- `mgfs_dentry_open`: the position of the entry, if it is found. -/
def Directory.open (d : Directory) (name : Nat → Byte) : Option (Option Position) :=
  match d.find name (strLen name + 1) with
  | none => none
  | some out => some (if out.found then some out.last else none)

/-! ## Links -/

/-- The loop of `dentry_record_attach`: the record that gets a new child, and the comparison there. -/
def Directory.attachLoop (d : Directory) (p : Position) : Nat → Position → Option (Option (Position × Int))
  | 0, _ => none
  | fuel + 1, q =>
    if q.block = invalidBlockNumber then some none
    else if d.HasBlock q then
      let cmp := strCmp (d.name p) (d.name q)
      if cmp = 0 then some none
      else
        let next := if cmp < 0 then d.link .left q else d.link .right q
        if next.block ≠ invalidBlockNumber then Directory.attachLoop d p fuel next else some (some (q, cmp))
    else some none

/-- `dentry_record_attach`: hang the record at `p` below the record at `start`. -/
def Directory.attach (d : Directory) (p start : Position) : Option (Bool × Directory) :=
  if d.HasBlock p then
    match d.attachLoop p d.rounds start with
    | none => none
    | some none => some (false, d)
    | some (some (q, cmp)) =>
      let d := d.setLink .parent p q
      some (true, d.setLink (if cmp < 0 then .left else .right) q p)
  else some (false, d)

/-- `dentry_record_detach`. -/
def Directory.detach (d : Directory) (p : Position) : Bool × Directory :=
  let q := d.link .parent p
  if d.HasBlock p ∧ d.HasBlock q then
    let (r, d) := if d.link .left q = p then (true, d.setLink .left q .invalid) else (false, d)
    if d.link .right q = p then (true, d.setLink .right q .invalid) else (r, d)
  else (false, d)

/-- The two calls of `dentry_record_attach` for the children of a detached record; their results are
not looked at. -/
def Directory.attachChild (d : Directory) (l : Link) (p : Position) : Option Directory :=
  let child := d.link l p
  if child.block ≠ invalidBlockNumber ∧ child.offset ≠ invalidBlockOffset then
    (d.attach child (d.link .parent p)).map Prod.snd
  else some d

def Directory.attachChildren (d : Directory) (p : Position) : Option Directory :=
  (d.attachChild .left p).bind fun d => d.attachChild .right p

/-! ## Creating -/

/-- The arguments of `mgfs_dentry_create`. -/
structure NewEntry where
  name : Nat → Byte
  szName : Nat
  inodeNumber : Nat
  flags : Byte

/-- Fill in a record without links, apart from its size. -/
def Directory.fill (d : Directory) (p : Position) (e : NewEntry) : Directory :=
  let d := d.setNameSize p e.szName
  let d := d.setFlags p e.flags
  let d := d.setInodeNumber p e.inodeNumber
  let d := d.setLink .left p .invalid
  let d := d.setLink .parent p .invalid
  let d := d.setLink .right p .invalid
  d.write p szDirRecord e.szName e.name

/-- Replace the deleted record at `p`. -/
def Directory.createReplace (d : Directory) (e : NewEntry) (p last : Position) : Option (Bool × Directory) :=
  match d.detach p with
  | (false, d) => some (false, d)
  | (true, d) =>
    match d.attachChildren p with
    | none => none
    | some d => (d.fill p e).attach p last

/-- Split the record at `p`: the new record takes the end of it. -/
def Directory.createInplace (d : Directory) (e : NewEntry) (p last : Position) : Option (Bool × Directory) :=
  let nrecSz := (szDirRecord + e.szName) % 2 ^ 16
  let d := d.setRecordSize p ((d.recordSize p + 2 ^ 16 - nrecSz) % 2 ^ 16)
  let new : Position := ⟨p.block, (p.offset + d.recordSize p) % 2 ^ 16⟩
  let d := d.setRecordSize new nrecSz
  (d.fill new e).attach new last

/-- `mgfs_inode_append_block` of one block of zeros, and the directory's new size. -/
def Directory.append (d : Directory) : Directory :=
  { d with
    blocks := Function.update d.blocks d.dunits fun _ => 0#8
    dunits := d.dunits + 1
    sz := d.sz + d.unitSize
    top := max d.top d.unitSize }

/-- Start a new block; the very first record is not attached to another. -/
def Directory.createAppend (d : Directory) (e : NewEntry) (last : Position) : Option (Bool × Directory) :=
  let new : Position := ⟨d.dunits, 0⟩
  let first := d.sz = 0
  let d := d.append
  let d := d.setRecordSize new d.unitSize
  let d := d.fill new e
  if first then some (true, d) else d.attach new last

/-- `mgfs_dentry_create`; the directory has an unused block number. -/
def Directory.create (d : Directory) (e : NewEntry) : Option (Bool × Directory) :=
  match d.find e.name e.szName with
  | none => none
  | some out =>
    if out.found then some (false, d)
    else if out.deleted.block ≠ invalidBlockNumber then d.createReplace e out.deleted out.last
    else if out.inplace.block ≠ invalidBlockNumber then d.createInplace e out.inplace out.last
    else d.createAppend e out.last

/-- `mgfs_dentry_create` on a volume that has, or has not, a unit left for one more block of the directory. -/
def Directory.createIn (d : Directory) (space : Bool) (e : NewEntry) : Option (Bool × Directory) :=
  match d.find e.name e.szName with
  | none => none
  | some out =>
    if out.found then some (false, d)
    else if out.deleted.block ≠ invalidBlockNumber then d.createReplace e out.deleted out.last
    else if out.inplace.block ≠ invalidBlockNumber then d.createInplace e out.inplace out.last
    else if space then d.createAppend e out.last
    else some (false, d)

theorem Directory.createIn_true (d : Directory) (e : NewEntry) : d.createIn true e = d.create e := rfl

/-! ## Deleting -/

/-- The loop of `dentry_record_delete` that looks for the record before `p`: the offset reached and
the offset before it. -/
def Directory.previousLoop (d : Directory) (p : Position) : Nat → Nat → Nat → Option (Nat × Nat)
  | 0, _, _ => none
  | fuel + 1, cur, prev =>
    if cur ≠ p.offset ∧ cur < d.unitSize % 2 ^ 16 then
      Directory.previousLoop d p fuel ((cur + d.recordSize ⟨p.block, cur⟩) % 2 ^ 16) cur
    else some (cur, prev)

/-- Give the space of the record at `p` to the record before it. -/
def Directory.merge (d : Directory) (p : Position) (prev : Nat) : Directory :=
  let before : Position := ⟨p.block, prev⟩
  let size := d.recordSize p
  let d := d.setRecordSize before ((d.recordSize before + size) % 2 ^ 16)
  d.write p 0 size fun _ => 0#8

/-- `dentry_record_delete`. -/
def Directory.recordDelete (d : Directory) (p : Position) : Option (Bool × Directory) :=
  if d.HasBlock p then
    if p.offset = 0 then some (true, d.setFlags p (d.flags p ||| dentryDeleted))
    else
      match d.previousLoop p (d.unitSize + 2) 0 0 with
      | none => none
      | some (cur, prev) =>
        if cur < d.unitSize % 2 ^ 16 ∧ cur = p.offset then
          match d.detach p with
          | (false, d) => some (false, d)
          | (true, d) => (d.attachChildren p).map fun d => (true, d.merge p prev)
        else some (false, d)
  else some (false, d)

/-- `mgfs_dentry_delete`. -/
def Directory.delete (d : Directory) (name : Nat → Byte) : Option (Bool × Directory) :=
  match d.find name (strLen name) with
  | none => none
  | some out => if out.found then d.recordDelete out.last else some (false, d)

/-- A call on a directory. -/
inductive DirCall where
  | create (entry : NewEntry)
  | delete (name : Nat → Byte)

/-- One returning call. -/
def Directory.step (d : Directory) : DirCall → Option Directory
  | .create e => (d.create e).map Prod.snd
  | .delete name => (d.delete name).map Prod.snd

end PreTeO.Mgfs3
