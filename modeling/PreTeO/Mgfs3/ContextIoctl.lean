import Mathlib.Data.List.Basic
import PreTeO.Fs.Handle
import PreTeO.Sync.Mutex
import PreTeO.Sys.DriverIo

/-!
# The control function of a file-system context

`cMGFS3_CXT::driver_ioctl` of `vfs_context.cpp`, with its switch over the commands. A call takes the mutex of its context,
waits while a transfer is pending on the handle, and hands a handle of another context over to that context. The
functions of the file system itself are parameters: they may do what they like to the volume and to the table of handles,
into whose records their pointers lead. A call does nothing to the mutex but `lock` and `unlock`, so what it did there is
the row of its events.
-/

namespace PreTeO.Mgfs3.Cxt
set_option autoImplicit false
open PreTeO.Fs PreTeO.Sync PreTeO.Sys

def hstateOpen : Nat := 1
def hstateIoPending : Nat := 2

def fspDir : Nat := 0x200
def fspSlink : Nat := 0x800
def fspToMgfsMask : Nat := 0x7ff
def dentryLinkBit : Nat := 2
def mgfsSectorSize : Nat := 512
def invalidBufferHandle : Nat := 0xffffffff

/-- What the context reads of `_mgfs_inode_t`. -/
structure InodeView where
  flags : Nat
  sz : Nat
  cr : Nat
  mo : Nat
  owner : Nat
deriving DecidableEq, Repr

/-- A word of `n` bytes of a handle's data. -/
def dataWord (data : List Nat) (off n : Nat) : Nat := ((data.drop off).take n).foldr (fun b acc => b + 256 * acc) 0

/-- A word of `n` bytes is written to a handle's data. -/
def setDataWord (data : List Nat) (off n v : Nat) : List Nat :=
  data.take off ++ (List.range n).map (fun k => v / 256 ^ k % 256) ++ data.drop (off + n)

/-- `handle.hinode.p_inode` of `_mgfs_handle_data_t`. -/
def pInode (data : List Nat) : Nat := dataWord data 0 8

/-- `handle.hinode.hb_inode`. -/
def hbInode (data : List Nat) : Nat := dataWord data 8 4

/-- `handle.hdentry.p_dentry`. -/
def pDentry (data : List Nat) : Nat := dataWord data 16 8

/-- `position`. -/
def position (data : List Nat) : Nat := dataWord data 32 8

/-- `position` is written. -/
def setPosition (data : List Nat) (pos : Nat) : List Nat := setDataWord data 32 8 pos

/-- What the context calls of the file system, with the volume and the table of handles. `hdir` and the like are the handles
whose data an `_h_file_` points to, 0 for a null pointer. -/
structure FileOps (φ : Type) where
  fileOpen : (name hdir hfile : Nat) → φ × HandleTable → Bool × φ × HandleTable
  fileClose : (hfile : Nat) → φ × HandleTable → φ × HandleTable
  fileCreate : (name flags owner hdir hfile : Nat) → φ × HandleTable → Bool × φ × HandleTable
  fileDelete : (name hdir : Nat) → φ × HandleTable → Bool × φ × HandleTable
  createHardLink : (hsrcdir name hdstdir linkName : Nat) → φ × HandleTable → Bool × φ × HandleTable
  createSoftLink : (pathName hdstdir linkName : Nat) → φ × HandleTable → Bool × φ × HandleTable
  fileMove : (hsrcdir srcname hdstdir dstname : Nat) → φ × HandleTable → Bool × φ × HandleTable
  fileIo : (write : Bool) → (hfile offset buffer nbytes : Nat) → φ × HandleTable → Nat × φ × HandleTable
  inode : φ → Nat → Option InodeView
  dentryFlags : φ → Nat → Option Nat
  dentryName : φ → Nat → Nat
  dentryLinkName : φ → Nat → Nat

/-- What a command works on: the volume, the handles and the request. -/
structure Body (φ : Type) where
  fs : φ
  handles : HandleTable
  dio : DriverIo

section Commands
variable {φ : Type} (ops : FileOps φ)

/-- A function of the file system is called, and `error` is set if it returns true. -/
def Body.report (b : Body φ) (out : Bool × φ × HandleTable) : Body φ :=
  { fs := out.2.1, handles := out.2.2, dio := if out.1 then b.dio.ok else b.dio }

/-- `get_mgfs_handle`: the handle itself stands for the pointer to its data. -/
def getMgfsHandle (s : HandleTable) (h : Nat) : Option Nat := do
  let p ← HandleTable.dataOf s h
  some (if p.isSome then h else 0)

/-- `mgfs_pmask`. -/
def mgfsPmask (fs : φ) (s : HandleTable) (h : Nat) : Option Nat := do
  match ← HandleTable.dataOf s h with
  | none => some 0
  | some hf =>
    let inode ← ops.inode fs (pInode hf)
    if pDentry hf ≠ 0 then
      let flags ← ops.dentryFlags fs (pDentry hf)
      some (if flags &&& dentryLinkBit ≠ 0 then inode.flags ||| fspSlink else inode.flags)
    else some inode.flags

/-- `mgfs_file_size`. -/
def mgfsFileSize (fs : φ) (hf : List Nat) : Option Nat :=
  if pInode hf ≠ 0 then (ops.inode fs (pInode hf)).map InodeView.sz else some 0

/-- The part of `DIOCTL_FOPEN` and `DIOCTL_FCREATE` after the file is opened: the new handle is given out or removed. -/
def Body.giveHandle (b : Body φ) (h : Nat) (opened : Bool) : Option (Body φ) := do
  if opened then
    let handles ← b.handles.updateState h hstateOpen
    some { b with handles := handles, dio := ({ b.dio with destHandle := h } : DriverIo).ok }
  else
    let handles ← b.handles.remove h
    some { b with handles := handles }

/-- `DIOCTL_FOPEN`. -/
def fopen (drv : Driver) (mem h : Nat) (b : Body φ) : Option (Body φ) := do
  let (newHandle, handles) ←
    b.handles.create drv b.dio.userId htypeFile (some (List.replicate fsMaxHandleData 0)) mem
  let b := { b with handles := handles }
  if newHandle = 0 then some b
  else
    let b := { b with dio := { b.dio with destHandle := 0 } }
    let hdir ← getMgfsHandle b.handles h
    let hfout ← getMgfsHandle b.handles newHandle
    if hdir ≠ 0 ∧ hfout ≠ 0 then
      let (opened, fs, handles) := ops.fileOpen b.dio.name hdir hfout (b.fs, b.handles)
      ({ b with fs := fs, handles := handles } : Body φ).giveHandle newHandle opened
    else b.giveHandle newHandle false

/-- `DIOCTL_FCLOSE`; `rootAddr` is `&m_hroot`. -/
def fclose (rootAddr h : Nat) (b : Body φ) : Option (Body φ) := do
  if h ≠ rootAddr then
    let hf ← getMgfsHandle b.handles h
    if hf ≠ 0 then
      let (fs, handles) := ops.fileClose hf (b.fs, b.handles)
      let handles ← handles.remove h
      some { fs := fs, handles := handles, dio := b.dio.ok }
    else some b
  else some b

/-- `DIOCTL_FCREATE`. -/
def fcreate (drv : Driver) (mem h : Nat) (b : Body φ) : Option (Body φ) := do
  let (newHandle, handles) ←
    b.handles.create drv b.dio.userId htypeFile (some (List.replicate fsMaxHandleData 0)) mem
  let b := { b with handles := handles }
  if newHandle = 0 then some b
  else
    let b := { b with dio := { b.dio with destHandle := 0 } }
    let hdir ← getMgfsHandle b.handles h
    let hfout ← getMgfsHandle b.handles newHandle
    let pmask := b.dio.pmask &&& fspToMgfsMask
    let (made, fs, handles) := ops.fileCreate b.dio.name pmask b.dio.userId hdir hfout (b.fs, b.handles)
    ({ b with fs := fs, handles := handles } : Body φ).giveHandle newHandle made

/-- `DIOCTL_FDELETE`. -/
def fdelete (h : Nat) (b : Body φ) : Option (Body φ) := do
  let hdir ← getMgfsHandle b.handles h
  some (b.report (ops.fileDelete b.dio.name hdir (b.fs, b.handles)))

/-- `DIOCTL_FLINK` and `DIOCTL_FMOVE`: `call` is given the two directories. -/
def onTwoDirs (this : Nat) (call : (hdir hdst : Nat) → Body φ → Bool × φ × HandleTable) (h : Nat) (b : Body φ) :
    Option (Body φ) := do
  let dest := b.dio.destHandle
  let dstate ← b.handles.stateOf dest
  if dest ≠ 0 ∧ dstate &&& hstateOpen ≠ 0 then
    let drv ← b.handles.driverOf dest
    if drv = this then
      let hdir ← getMgfsHandle b.handles h
      let hdst ← getMgfsHandle b.handles dest
      some (b.report (call hdir hdst b))
    else some b
  else some b

def flink (this : Nat) : Nat → Body φ → Option (Body φ) :=
  onTwoDirs this fun hdir hdst b => ops.createHardLink hdir b.dio.name hdst b.dio.destName (b.fs, b.handles)

def fmove (this : Nat) : Nat → Body φ → Option (Body φ) :=
  onTwoDirs this fun hdir hdst b => ops.fileMove hdir b.dio.name hdst b.dio.destName (b.fs, b.handles)

/-- `DIOCTL_FSLINK`. -/
def fslink (h : Nat) (b : Body φ) : Option (Body φ) := do
  let hdir ← getMgfsHandle b.handles h
  some (b.report (ops.createSoftLink b.dio.destName hdir b.dio.name (b.fs, b.handles)))

/-- The position of a handle is written. -/
def Body.seek (b : Body φ) (h pos : Nat) : Option (Body φ) := do
  let handles ← b.handles.write h fun hi => { hi with data := setPosition hi.data (pos % 2 ^ 64) }
  some { b with handles := handles }

/-- A transfer from `offset` on: `result` is set, and the handle's data is read again after it. -/
def Body.transfer (b : Body φ) (write : Bool) (h offset nbytes : Nat) : Body φ :=
  let (r, fs, handles) := ops.fileIo write h offset b.dio.buffer nbytes (b.fs, b.handles)
  { fs := fs, handles := handles, dio := b.dio.setResult r }

/-- `DIOCTL_SREAD` and `DIOCTL_SWRITE`. -/
def serialIo (write : Bool) (h : Nat) (b : Body φ) : Option (Body φ) := do
  if (← mgfsPmask ops b.fs b.handles h) &&& (fspDir ||| fspSlink) = 0 then
    let hf ← (← HandleTable.dataOf b.handles h)
    let b := b.transfer ops write h (position hf) b.dio.size
    let hf ← (← HandleTable.dataOf b.handles h)
    let b ← b.seek h (position hf + b.dio.result)
    some { b with dio := b.dio.ok }
  else some b

/-- The part of the block and file transfers after the position is known. -/
def ioAt (write : Bool) (offset nbytes h : Nat) (b : Body φ) : Option (Body φ) := do
  if (← mgfsPmask ops b.fs b.handles h) &&& (fspDir ||| fspSlink) = 0 then
    let _ ← (← HandleTable.dataOf b.handles h)
    let b := b.transfer ops write h offset nbytes
    if b.dio.result ≠ 0 then
      let b ← b.seek h (offset + b.dio.result)
      some { b with dio := b.dio.ok }
    else some b
  else some b

/-- `DIOCTL_BREAD` and `DIOCTL_BWRITE`. -/
def blockIo (write : Bool) (h : Nat) (b : Body φ) : Option (Body φ) :=
  ioAt ops write (b.dio.offset * mgfsSectorSize % 2 ^ 64) (b.dio.result * mgfsSectorSize % 2 ^ 32) h b

/-- `DIOCTL_FREAD` and `DIOCTL_FWRITE`. -/
def fileIo (write : Bool) (h : Nat) (b : Body φ) : Option (Body φ) := ioAt ops write b.dio.offset b.dio.size h b

/-- `DIOCTL_FSEEK`. -/
def fseek (h : Nat) (b : Body φ) : Option (Body φ) := do
  if (← mgfsPmask ops b.fs b.handles h) &&& (fspDir ||| fspSlink) = 0 then
    let hf ← (← HandleTable.dataOf b.handles h)
    let fsize ← mgfsFileSize ops b.fs hf
    let b ← b.seek h (if b.dio.offset < fsize then b.dio.offset else fsize)
    some { b with dio := b.dio.ok }
  else some b

/-- `DIOCTL_FPMASK`. -/
def fpmask (h : Nat) (b : Body φ) : Option (Body φ) := do
  let pmask ← mgfsPmask ops b.fs b.handles h
  some { b with dio := ({ b.dio with pmask := pmask } : DriverIo).setResult pmask |>.ok }

/-- `DIOCTL_FSIZE`. -/
def fsize (h : Nat) (b : Body φ) : Option (Body φ) := do
  match ← HandleTable.dataOf b.handles h with
  | none => some b
  | some hf =>
    let size ← mgfsFileSize ops b.fs hf
    some { b with dio := ({ b.dio with result64 := size } : DriverIo).ok }

/-- `DIOCTL_FINFO`. -/
def finfo (h : Nat) (b : Body φ) : Option (Body φ) := do
  let hf ← (← HandleTable.dataOf b.handles h)
  let type ← b.handles.typeOf h
  if hbInode hf ≠ invalidBufferHandle ∧ type = htypeFile then
    let size ← mgfsFileSize ops b.fs hf
    let inode ← if pInode hf ≠ 0 then ops.inode b.fs (pInode hf) else some ⟨0, 0, 0, 0, 0⟩
    let pmask ← mgfsPmask ops b.fs b.handles h
    let info : FileInfo := ⟨ops.dentryName b.fs (pDentry hf), ops.dentryLinkName b.fs (pDentry hf), size,
      inode.cr, inode.mo, inode.owner, pmask⟩
    some { b with dio := ({ b.dio with info := info } : DriverIo).ok }
  else some b

/-- The `switch` of `driver_ioctl`, for the context `drv`. -/
def command (drv : Driver) (rootAddr mem cmd h : Nat) (b : Body φ) : Option (Body φ) :=
  if cmd = dioctlFopen then fopen ops drv mem h b
  else if cmd = dioctlFclose then fclose ops rootAddr h b
  else if cmd = dioctlFcreate then fcreate ops drv mem h b
  else if cmd = dioctlFdelete then fdelete ops h b
  else if cmd = dioctlFlink then flink ops drv.self h b
  else if cmd = dioctlFslink then fslink ops h b
  else if cmd = dioctlFmove then fmove ops drv.self h b
  else if cmd = dioctlSread then serialIo ops false h b
  else if cmd = dioctlSwrite then serialIo ops true h b
  else if cmd = dioctlBread then blockIo ops false h b
  else if cmd = dioctlBwrite then blockIo ops true h b
  else if cmd = dioctlFread then fileIo ops false h b
  else if cmd = dioctlFwrite then fileIo ops true h b
  else if cmd = dioctlFseek then fseek ops h b
  else if cmd = dioctlFpmask then fpmask ops h b
  else if cmd = dioctlFsize then fsize ops h b
  else if cmd = dioctlFinfo then finfo ops h b
  else some b

end Commands

/-- An object of `cMGFS3_CXT`, without the volume's own data: `this` with what it says of itself, `&m_hroot`,
`m_io_enable`, `m_io_lock` and `_d_mutex_`, which `object_init` made. -/
structure State (φ : Type) where
  drv : Driver
  rootAddr : Nat
  ioEnable : Bool
  ioLock : BitVec 64
  mutex : Mutex
  fs : φ

/-- What one call of `driver_ioctl` does that its caller can see later: it takes or gives back the mutex of a context, or
marks a handle as busy. -/
inductive Event where
  | acquire (cxt : Nat)
  | release (cxt : Nat)
  | pending (h : Nat)
deriving DecidableEq, Repr

/-- The contexts by their pointers, the handles, and the request. `naps` is what the other threads make of the handles in
each `sleep_systhread`, `mem` what `p_alloc` returns to `create`, and `events` what was done so far. -/
structure World (φ : Type) where
  cxts : Nat → Option (State φ)
  handles : HandleTable
  naps : List HandleTable
  mem : Nat
  dio : DriverIo
  events : List Event

section Ioctl
variable {φ : Type}

/-- `m_io_lock = lock(m_io_lock)`. No handle means that the thread has to wait: the call goes on from the state in which
the mutex is free. -/
def State.lock (c : State φ) : Option (State φ) :=
  let (r, m) := mutexTryLock c.mutex c.ioLock
  if r = 0#64 then none else some { c with mutex := m, ioLock := r }

namespace World

def put (w : World φ) (this : Nat) (c : State φ) : World φ := { w with cxts := Function.update w.cxts this (some c) }

def log (w : World φ) (e : Event) : World φ := { w with events := w.events ++ [e] }

def fail (w : World φ) (error : Nat) : World φ := { w with dio := { w.dio with error := error } }

/-- The answer that a request has until it gets another one. -/
def enter (w : World φ) : World φ := { w with dio := { w.dio.setResult 0 with error := fsResultErr } }

/-- The mutex is taken. -/
def lock (w : World φ) (this : Nat) : Option (World φ) := do
  let c ← w.cxts this
  let c ← c.lock
  some ((w.put this c).log (.acquire this))

/-- `unlock(m_io_lock)`. The mutex takes no notice of another handle than its own. -/
def unlock (w : World φ) (this : Nat) : Option (World φ) := do
  let c ← w.cxts this
  let w := w.put this { c with mutex := mutexUnlock c.mutex c.ioLock }
  some (if c.ioLock = c.mutex.getHandle then w.log (.release this) else w)

end World

/-- The loop that waits for the end of another transfer: the state that was read, the naps that are left and the
handles. -/
def ioWait (h : Nat) : Nat → List HandleTable → HandleTable → Option (Nat × List HandleTable × HandleTable)
  | hstate, [], s => if hstate &&& hstateIoPending ≠ 0 then none else some (hstate, [], s)
  | hstate, next :: naps, s =>
    if hstate &&& hstateIoPending ≠ 0 then do
      let hstate ← next.stateOf h
      ioWait h hstate naps next
    else some (hstate, next :: naps, s)

/-- The handle is marked as busy, the command is done, and the mark is taken away. -/
def perform (ops : FileOps φ) (this cmd h : Nat) (w : World φ) : Option (World φ) := do
  let c ← w.cxts this
  let hstate ← w.handles.stateOf h
  let handles ← w.handles.updateState h (hstate ||| hstateIoPending)
  let b ← command ops c.drv c.rootAddr w.mem cmd h ⟨c.fs, handles, w.dio⟩
  let hstate ← b.handles.stateOf h
  let handles ← b.handles.updateState h (hstate &&& 0xfd)
  let w := (w.put this { c with fs := b.fs }).log (.pending h)
  some { w with handles := handles, dio := b.dio }

/-- `driver_ioctl`, after the mutex is taken and the handle is not busy any more. `redirect` is the `driver_ioctl` of another
context. -/
def dispatch (ops : FileOps φ) (redirect : Nat → World φ → Option (World φ)) (this cmd h hstate : Nat) (w : World φ) :
    Option (World φ) := do
  if hstate &&& hstateOpen = 0 then some (w.fail fsResultInvalidHandle)
  else
    let fscxt ← w.handles.driverOf h
    if fscxt = 0 then some w
    else
      let type ← w.handles.typeOf h
      if (type = htypeFscontext ∨ type = htypeFile) ∧ fscxt ≠ this then redirect fscxt w
      else if type = htypeVolume ∨ type = htypeDevice then some w
      else
        let w ← perform ops this cmd h w
        w.unlock this

/-- The body of `driver_ioctl`. -/
def ioctlWith (ops : FileOps φ) (redirect : Nat → World φ → Option (World φ)) (this cmd : Nat) (w : World φ) :
    Option (World φ) := do
  let w ← w.enter.lock this
  let c ← w.cxts this
  if c.ioEnable = false then w.unlock this
  else
    let h := w.dio.handle
    let hstate ← w.handles.stateOf h
    if h ≠ 0 ∧ hstate &&& hstateOpen ≠ 0 then
      let (hstate, naps, handles) ← ioWait h hstate w.naps w.handles
      dispatch ops redirect this cmd h hstate { w with naps := naps, handles := handles }
    else (w.fail fsResultInvalidHandle).unlock this

/-- `driver_ioctl` of the context `this`, with at most `n` contexts on the stack. -/
def driverIoctl (ops : FileOps φ) : Nat → Nat → Nat → World φ → Option (World φ)
  | 0, _, _, _ => none
  | n + 1, this, cmd, w => ioctlWith ops (fun cxt w => driverIoctl ops n cxt cmd w) this cmd w

/-- A call begins. -/
def World.fresh (w : World φ) : World φ := { w with events := [] }

end Ioctl

end PreTeO.Mgfs3.Cxt
