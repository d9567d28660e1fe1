import PreTeO.Mgfs3.ContextIoctl
import PreTeO.Mgfs3.DirRun
import PreTeO.Lib.Prog

/-!
# Files by name (`core/driver/fs/mgfs3/file.cpp`)

A handle points to the record of an inode and to the entry it was opened by. A soft link has no inode: the pointer of its
handle is null, and to use a record through it is a fault. The functions of `inode.cpp` that make, empty and fill inodes, the
heap and the clock are parameters.
-/

namespace PreTeO.Mgfs3
set_option autoImplicit false
open PreTeO.Lib

def mgfsDir : Nat := 0x200
def mgfsDentryExists : Nat := 0xffffffff - 2

/-- What names lead to in an inode record; its size and its blocks are in the directory of the same number. -/
structure FileInode where
  flags : Nat
  lc : Nat
  cr : Nat
  mo : Nat
  owner : Nat
deriving DecidableEq, Repr

/-- The files of a volume: the records of the inode file, which holds `records` of them, with the blocks of each, and
`last_error`. -/
structure Files where
  inodes : Nat → FileInode
  records : Nat
  dirs : Nat → Directory
  lastError : Nat

/-- `_mgfs_file_handle_t`. `p_inode` is the number of the record it points to, `opened` says that `hb_inode` is valid, and
`p_dentry` is an inode number and a position in its blocks. -/
structure FileHandle where
  pInode : Option Nat
  opened : Bool
  number : Nat
  pDentry : Option (Nat × Position)
deriving DecidableEq, Repr

/-- Why a call on files does not return: it uses a record through a null pointer, or a search goes on forever. -/
inductive Fault where
  | nullInode
  | nullEntry
  | endless
deriving DecidableEq, Repr

abbrev FileM := Prog Fault Files

/-- What the functions of `file.cpp` call: `mgfs_inode_create`, `mgfs_inode_delete`, whether `mgfs_inode_append_block` finds
a unit for a block, `mgfs_inode_read` and `mgfs_inode_write`, whether `mgfs_mem_alloc` returns memory, `mgfs_timestamp`. -/
structure FileCalls where
  inodeCreate : (flags owner : Nat) → Files → Option Nat × Files
  inodeDelete : (number : Nat) → Files → Files
  grows : (number : Nat) → Files → Bool
  inodeIo : (write : Bool) → (number offset nbytes : Nat) → Files → Nat × Files
  alloc : (size : Nat) → Files → Bool
  timestamp : Files → Nat

/-! ## Inodes and entries -/

/-- `h->p_inode->..` -/
def FileHandle.record (h : FileHandle) : FileM FileInode :=
  match h.pInode with
  | none => Prog.stuck .nullInode
  | some n => do return (← Prog.get).inodes n

/-- `h->p_dentry`. -/
def FileHandle.entry (h : FileHandle) : FileM (Nat × Position) :=
  match h.pDentry with
  | none => Prog.stuck .nullEntry
  | some place => return place

/-- The blocks of an inode are written. -/
def Files.putDir (v : Files) (n : Nat) (d : Directory) : Files := { v with dirs := Function.update v.dirs n d }

/-- `mgfs_inode_update`. -/
def Files.touch (v : Files) (n now : Nat) : Files :=
  { v with inodes := Function.update v.inodes n { v.inodes n with mo := now } }

/-- Two strings, one behind the other. -/
def joinNames (s t : Nat → Byte) : Nat → Byte := fun i => if i ≤ strLen s then s i else t (i - (strLen s + 1))

/-- `mgfs_dentry_open`: without a buffer nothing is found. -/
def mgfsDentryOpen (h : FileHandle) (name : Nat → Byte) : FileM (Option Position) :=
  if h.opened then
    match h.pInode with
    | none => Prog.stuck .nullInode
    | some n => do
      match ((← Prog.get).dirs n).open name with
      | none => Prog.stuck .endless
      | some found => return found
  else return none

/-- Where `mgfs_dentry_create` puts a new entry. -/
def Directory.newPosition (d : Directory) (e : NewEntry) (out : Found) : Position :=
  if out.deleted.block ≠ invalidBlockNumber then out.deleted
  else if out.inplace.block ≠ invalidBlockNumber then
    let size := (d.recordSize out.inplace + 2 ^ 16 - (szDirRecord + e.szName) % 2 ^ 16) % 2 ^ 16
    ⟨out.inplace.block, (out.inplace.offset + size) % 2 ^ 16⟩
  else ⟨d.dunits, 0⟩

/-- `mgfs_dentry_create`, when the inode is open: the entry that was made. -/
def dentryCreate (calls : FileCalls) (n : Nat) (e : NewEntry) : FileM (Option Position) := do
  let v ← Prog.get
  let d := v.dirs n
  match d.find e.name e.szName, d.createIn (calls.grows n v) e with
  | some out, some (r, d') =>
    if out.found then
      Prog.modify fun v => { v with lastError := mgfsDentryExists }
      return none
    else
      let appends := out.deleted.block = invalidBlockNumber ∧ out.inplace.block = invalidBlockNumber
      Prog.modify fun v => if appends then (v.putDir n d').touch n (calls.timestamp v) else v.putDir n d'
      return if r then some (d.newPosition e out) else none
  | _, _ => Prog.stuck .endless

/-- `mgfs_dentry_create`. Without a buffer the search finds nothing; the inode still gets a block, which cannot be read. -/
def mgfsDentryCreate (calls : FileCalls) (h : FileHandle) (e : NewEntry) : FileM (Option Position) :=
  match h.pInode with
  | none => Prog.stuck .nullInode
  | some n =>
    if h.opened then dentryCreate calls n e
    else do
      let v ← Prog.get
      if calls.grows n v then Prog.modify fun v => v.putDir n (v.dirs n).append
      return none

/-- `mgfs_dentry_delete`. -/
def mgfsDentryDelete (h : FileHandle) (name : Nat → Byte) : FileM Bool :=
  if h.opened then
    match h.pInode with
    | none => Prog.stuck .nullInode
    | some n => do
      match ((← Prog.get).dirs n).delete name with
      | none => Prog.stuck .endless
      | some (r, d) =>
        Prog.modify fun v => v.putDir n d
        return r
  else return false

/-! ## The functions of `file.cpp` -/

/-- The handle of the entry at `p` in the directory `n`; a link has no inode. -/
def Files.handleOf (v : Files) (n : Nat) (p : Position) : Option FileHandle :=
  if (v.dirs n).flags p &&& dentryLink ≠ 0#8 then some ⟨none, false, invalidInodeNumber, some (n, p)⟩
  else
    let ino := (v.dirs n).inodeNumber p
    if ino < v.records then some ⟨some ino, true, ino, some (n, p)⟩ else none

/-- `mgfs_file_open`. -/
def mgfsFileOpen (name : Nat → Byte) (hdir : FileHandle) : FileM (Option FileHandle) :=
  match hdir.pInode with
  | none => return none
  | some n => do
    if ((← Prog.get).inodes n).flags &&& mgfsDir ≠ 0 then
      match ← mgfsDentryOpen hdir name with
      | none => return none
      | some p => return (← Prog.get).handleOf n p
    else return none

/-- `mgfs_file_create`. -/
def mgfsFileCreate (calls : FileCalls) (name : Nat → Byte) (flags owner : Nat) (hdir : FileHandle) :
    FileM (Option FileHandle) := do
  if (← hdir.record).flags &&& mgfsDir ≠ 0 then
    let (number, w) := calls.inodeCreate flags owner (← Prog.get)
    Prog.modify fun _ => w
    match number with
    | none => return none
    | some n =>
      match ← mgfsDentryCreate calls hdir ⟨name, strLen name + 1, n, 0#8⟩ with
      | none => return none
      | some p =>
        let hfile : FileHandle := ⟨some n, true, n, hdir.pInode.map fun dir => (dir, p)⟩
        if flags &&& mgfsDir ≠ 0 then
          let _ ← mgfsDentryCreate calls hfile ⟨cString [46], 2, n, 0#8⟩
          let _ ← mgfsDentryCreate calls hfile ⟨cString [46, 46], 3, hdir.number, 0#8⟩
        return some hfile
  else return none

/-- `mgfs_file_delete`. The flags of the file are looked at, and nothing follows from them. -/
def mgfsFileDelete (calls : FileCalls) (name : Nat → Byte) (hdir : FileHandle) : FileM Bool := do
  if (← hdir.record).flags &&& mgfsDir ≠ 0 then
    match ← mgfsFileOpen name hdir with
    | none => return false
    | some hfile =>
      let _ ← hfile.record
      match hfile.pInode with
      | none => mgfsDentryDelete hdir name
      | some n =>
        Prog.modify (calls.inodeDelete n)
        mgfsDentryDelete hdir name
  else return false

/-- The end of `mgfs_file_move`: the new entry is made, then the old one deleted. -/
def moveEntry (calls : FileCalls) (hsrcdir : FileHandle) (srcname : Nat → Byte) (hdst : FileHandle) (e : NewEntry) :
    FileM Bool := do
  match ← mgfsDentryCreate calls hdst e with
  | none => return false
  | some _ => mgfsDentryDelete hsrcdir srcname

/-- `mgfs_file_move`. -/
def mgfsFileMove (calls : FileCalls) (hsrcdir : FileHandle) (srcname : Nat → Byte) (hdstdir : FileHandle)
    (dstname : Nat → Byte) : FileM Bool := do
  match ← mgfsFileOpen srcname hsrcdir with
  | none => return false
  | some hfsrc =>
    let (n, p) ← hfsrc.entry
    let d := (← Prog.get).dirs n
    match ← mgfsFileOpen dstname hdstdir with
    | some hfdst =>
      if (← hfdst.record).flags &&& mgfsDir ≠ 0 then
        moveEntry calls hsrcdir srcname hfdst ⟨d.name p, d.nameSize p, hfsrc.number, d.flags p⟩
      else
        Prog.modify fun v => { v with lastError := mgfsDentryExists }
        return false
    | none =>
      if d.flags p &&& dentryLink ≠ 0#8 then
        let size := strLen dstname + 1 + strLen (d.linkName p) + 1
        if calls.alloc size (← Prog.get) then
          moveEntry calls hsrcdir srcname hdstdir ⟨joinNames dstname (d.linkName p), size, hfsrc.number, d.flags p⟩
        else return false
      else moveEntry calls hsrcdir srcname hdstdir ⟨dstname, strLen dstname + 1, hfsrc.number, d.flags p⟩

/-- `mgfs_file_create_hard_link`. -/
def mgfsFileCreateHardLink (calls : FileCalls) (hsrcdir : FileHandle) (name : Nat → Byte) (hdstdir : FileHandle)
    (linkName : Nat → Byte) : FileM Bool := do
  match ← mgfsFileOpen name hsrcdir with
  | none => return false
  | some hfile =>
    let (n, p) ← hfile.entry
    let ino := ((← Prog.get).dirs n).inodeNumber p
    match ← mgfsDentryCreate calls hdstdir ⟨linkName, strLen linkName + 1, ino, 0#8⟩ with
    | none => return false
    | some _ =>
      let inode ← hfile.record
      Prog.modify fun v =>
        let v := { v with inodes := Function.update v.inodes hfile.number { inode with lc := (inode.lc + 1) % 2 ^ 16 } }
        v.touch hfile.number (calls.timestamp v)
      return true

/-- `mgfs_file_create_soft_link`. -/
def mgfsFileCreateSoftLink (calls : FileCalls) (pathName : Nat → Byte) (hdstdir : FileHandle) (linkName : Nat → Byte) :
    FileM Bool := do
  let size := (strLen linkName + strLen pathName + 2) % 2 ^ 16
  if calls.alloc size (← Prog.get) then
    return (← mgfsDentryCreate calls hdstdir ⟨joinNames linkName pathName, size, invalidInodeNumber, dentryLink⟩).isSome
  else return false

/-- `mgfs_file_size`. -/
def mgfsFileSize (h : FileHandle) : FileM Nat :=
  match h.pInode with
  | none => return 0
  | some n => do return ((← Prog.get).dirs n).sz

/-! ## Requests on a handle (`vfs_context.cpp`) -/

/-- `cMGFS3_CXT::mgfs_pmask`. -/
def mgfsPmask (h : FileHandle) : FileM Nat := do
  let inode ← h.record
  match h.pDentry with
  | none => return inode.flags
  | some (n, p) =>
    if ((← Prog.get).dirs n).flags p &&& dentryLink ≠ 0#8 then return inode.flags ||| Cxt.fspSlink else return inode.flags

/-- What `DIOCTL_FINFO` answers. -/
structure HandleInfo where
  entry : Option (Nat × Position)
  size : Nat
  ctime : Nat
  mtime : Nat
  usrid : Nat
  pmask : Nat

/-- What a request on a handle answers: the handle is as it says afterwards. -/
structure Reply where
  ok : Bool
  result : Nat
  position : Nat
  made : Option FileHandle
  info : Option HandleInfo

/-- The cases of `driver_ioctl` for an open handle. `room` says that the table has room for a new handle, and `dest` is the
second handle if it is open and of this context. -/
inductive Request where
  | fopen (room : Bool) (name : Nat → Byte)
  | fclose (isRoot : Bool)
  | fcreate (room : Bool) (name : Nat → Byte) (pmask owner : Nat)
  | fdelete (name : Nat → Byte)
  | flink (name : Nat → Byte) (dest : Option FileHandle) (destName : Nat → Byte)
  | fslink (name path : Nat → Byte)
  | fmove (name : Nat → Byte) (dest : Option FileHandle) (destName : Nat → Byte)
  | serial (write : Bool) (size : Nat)
  | block (write : Bool) (lba count : Nat)
  | file (write : Bool) (offset size : Nat)
  | fseek (offset : Nat)
  | fpmask
  | fsize
  | finfo (isFile : Bool)
  | other

section Requests
variable (calls : FileCalls) (h : FileHandle) (position : Nat)

/-- No answer but the error that was set before. -/
def Reply.failed : Reply := ⟨false, 0, position, none, none⟩

/-- `error` is set. -/
def Reply.answer (ok : Bool) : Reply := { Reply.failed position with ok := ok }

/-- A transfer from `offset` on, if the handle is of a file. `always` says that an empty one counts as well. -/
def transfer (write always : Bool) (offset nbytes : Nat) : FileM Reply := do
  if (← mgfsPmask h) &&& (Cxt.fspDir ||| Cxt.fspSlink) = 0 then
    let (r, w) := calls.inodeIo write h.number offset nbytes (← Prog.get)
    Prog.modify fun _ => w
    return if always ∨ r ≠ 0 then ⟨true, r, (offset + r) % 2 ^ 64, none, none⟩ else ⟨false, r, position, none, none⟩
  else return Reply.failed position

/-- The `switch` of `driver_ioctl` for an open handle at a position. -/
def ioctl : Request → FileM Reply
  | .fopen room name => do
    if room then
      match ← mgfsFileOpen name h with
      | none => return Reply.failed position
      | some hf => return ⟨true, 0, position, some hf, none⟩
    else return Reply.failed position
  | .fclose isRoot => return Reply.answer position !isRoot
  | .fcreate room name pmask owner => do
    if room then
      match ← mgfsFileCreate calls name (pmask &&& Cxt.fspToMgfsMask) owner h with
      | none => return Reply.failed position
      | some hf => return ⟨true, 0, position, some hf, none⟩
    else return Reply.failed position
  | .fdelete name => do return Reply.answer position (← mgfsFileDelete calls name h)
  | .flink name dest destName => do
    match dest with
    | none => return Reply.failed position
    | some hdst => return Reply.answer position (← mgfsFileCreateHardLink calls h name hdst destName)
  | .fslink name path => do return Reply.answer position (← mgfsFileCreateSoftLink calls path h name)
  | .fmove name dest destName => do
    match dest with
    | none => return Reply.failed position
    | some hdst => return Reply.answer position (← mgfsFileMove calls h name hdst destName)
  | .serial write size => transfer calls h position write true position size
  | .block write lba count => transfer calls h position write false (lba * Cxt.mgfsSectorSize % 2 ^ 64)
      (count * Cxt.mgfsSectorSize % 2 ^ 32)
  | .file write offset size => transfer calls h position write false offset size
  | .fseek offset => do
    if (← mgfsPmask h) &&& (Cxt.fspDir ||| Cxt.fspSlink) = 0 then
      let size ← mgfsFileSize h
      return { Reply.answer position true with position := if offset < size then offset else size }
    else return Reply.failed position
  | .fpmask => do return { Reply.answer position true with result := ← mgfsPmask h }
  | .fsize => do return { Reply.answer position true with result := ← mgfsFileSize h }
  | .finfo isFile => do
    if h.opened ∧ isFile then
      let size ← mgfsFileSize h
      let inode ← h.record
      let pmask ← mgfsPmask h
      return { Reply.answer position true with
        info := some ⟨h.pDentry, size, inode.cr, inode.mo, inode.owner, pmask⟩ }
    else return Reply.failed position
  | .other => return Reply.failed position

end Requests

end PreTeO.Mgfs3
