import Mathlib.Algebra.Group.Nat.Defs
import Mathlib.Logic.Function.Basic
import PreTeO.Fs.Handle
import PreTeO.Sys.DriverIo

/-!
# Paths in the root file system

`trace_path`, `open_file`, `fopen` and `fclose` of `vfs_root.cpp`. They work on the handles of `iFSHandle` and on the
contexts that own them, and take the data of a handle for the file it is of: a file is a context and a node in it. What the
contexts have in their directories, and which handle is created next, is up to them. A handle that was removed is still a
record, of type 0, and can be created again.

The two functions that get the address of a local variable in place of the handle in it get `frame` here, which is no
record. The lock of the mount table and the log are left out.
-/

namespace PreTeO.Fs.Root
set_option autoImplicit false
open PreTeO.Sys

def maxItrc : Nat := 8
def fsMaxPath : Nat := 256
def fsResultInvalidPath : Nat := 2 ^ 32 - 3
def fsResultItrcErr : Nat := 2 ^ 32 - 4
def fspDir : Nat := 0x200
def fspSlink : Nat := 0x800
def fspCreateNew : Nat := 0x80000000
def fspToMgfsMask : Nat := 0x7ff

/-- A handle: its type and driver, the file its data is of, and whether it is open. -/
structure Record where
  type : Nat
  driver : Nat
  node : Nat
  isOpen : Bool
deriving DecidableEq, Repr

/-- The contexts open and close handles. -/
inductive Event where
  | opened (h : Nat)
  | closed (h : Nat)
deriving DecidableEq, Repr

/-- The records of the handles, of which there are finitely many, and what the contexts did to them. -/
structure State where
  handles : Nat → Option Record
  bound : Nat
  above : ∀ h, bound ≤ h → handles h = none
  events : List Event

/-- `_mount_point_t`, without the names. -/
structure MountPoint where
  hmpDir : Nat
  htpDir : Nat
deriving DecidableEq, Repr

/-- A handle that `create` can give out is not in use. -/
def State.Unused (s : State) (h : Nat) : Prop := ∀ r, s.handles h = some r → r.type = 0 ∧ r.isOpen = false

theorem State.beyond_real (s : State) : s.bound + 10 ≠ 0 := by omega

theorem State.beyond_frame (s : State) : s.bound + 10 ≠ 9 := by omega

/-- No handle beyond the bound is in use. -/
theorem State.beyond_unused (s : State) : s.Unused (s.bound + 10) := by
  intro r found
  rw [s.above _ (Nat.le_add_right _ _)] at found
  cases found

/-- The rest of the system: the mount table, the classes of the drivers, the files of the contexts, and the handles that are
created. `room k` says whether there is one more after `k` were opened. -/
structure System where
  mounts : List MountPoint
  frame : Nat
  isFsc : Nat → Bool
  pmask : (driver node : Nat) → Nat
  lookup : (driver node : Nat) → List Char → Option Nat
  make : (driver node : Nat) → List Char → (flags : Nat) → Option Nat
  lname : (driver node : Nat) → List Char
  room : Nat → Bool
  fresh : State → Nat
  fresh_real : ∀ s : State, fresh s ≠ 0
  fresh_frame : ∀ s : State, fresh s ≠ frame
  fresh_unused : ∀ s : State, s.Unused (fresh s)

namespace State

def type (s : State) (h : Nat) : Nat := ((s.handles h).map Record.type).getD 0
def driver (s : State) (h : Nat) : Nat := ((s.handles h).map Record.driver).getD 0

/-- The handle is open. -/
def IsOpen (s : State) (h : Nat) : Prop := ∃ r, s.handles h = some r ∧ r.isOpen = true

/-- How many handles were opened. -/
def openings (s : State) : Nat := s.events.countP fun e => match e with | .opened _ => true | .closed _ => false

def put (s : State) (h : Nat) (r : Record) (e : Event) : State where
  handles := Function.update s.handles h (some r)
  bound := max s.bound (h + 1)
  above q far := by
    rw [Function.update_of_ne (by omega), s.above q (by omega)]
  events := s.events ++ [e]

end State

/-- The comparison of two records. -/
def Record.same (a b : Record) : Bool :=
  if a.type = b.type then
    if a.type = htypeDevice ∨ a.type = htypeVolume ∨ a.type = htypeFscontext then a.driver = b.driver
    else if a.type = htypeFile then a.driver = b.driver ∧ a.node = b.node
    else false
  else false

/-- `compare_handle`. -/
def compareHandle (s : State) (h₁ h₂ : Nat) : Bool :=
  if h₁ ≠ h₂ then
    match s.handles h₁, s.handles h₂ with
    | some a, some b => a.same b
    | _, _ => false
  else true

section Functions
variable (sys : System)

/-- `get_mount_record`: whether there is one. -/
def getMountRecord (s : State) (h : Nat) : Bool :=
  if s.type h = htypeFile ∧ s.driver h ≠ 0 then
    sys.mounts.any fun mp => compareHandle s h mp.hmpDir || compareHandle s h mp.htpDir
  else false

/-- `get_mount_point`. -/
def getMountPoint (s : State) (hdir : Nat) : Nat :=
  match sys.mounts.find? fun mp => if hdir ≠ 0 then compareHandle s mp.hmpDir hdir else true with
  | some mp => mp.htpDir
  | none => hdir

/-- `get_pmask`; a context answers 0 for a handle that is not open. -/
def getPmask (s : State) (h : Nat) : Nat :=
  match s.handles h with
  | some r => if r.driver ≠ 0 ∧ sys.isFsc r.driver ∧ r.isOpen then sys.pmask r.driver r.node else 0
  | none => 0

/-- `get_fs_context`, for a handle that has a driver; 0 is the null pointer. -/
def getFsContext (s : State) (h : Nat) : Nat := if sys.isFsc (s.driver h) then s.driver h else 0

/-- `fopen` and `fcreate` of a context, which look for the file in the directory or make it: the result, the handle and the
state. -/
def openNode (s : State) (hdir : Nat) (found : (driver node : Nat) → Option Nat) : Nat × Nat × State :=
  match s.handles hdir with
  | some r =>
    if r.isOpen then
      match found r.driver r.node with
      | some node =>
        if sys.room s.openings then
          (fsResultOk, sys.fresh s, s.put (sys.fresh s) ⟨htypeFile, r.driver, node, true⟩ (.opened (sys.fresh s)))
        else (fsResultErr, 0, s)
      | none => (fsResultErr, 0, s)
    else (fsResultInvalidHandle, 0, s)
  | none => (fsResultInvalidHandle, 0, s)

/-- `fopen` of a context. -/
def cxtFopen (s : State) (name : List Char) (hdir : Nat) : Nat × Nat × State :=
  openNode sys s hdir fun driver node => sys.lookup driver node name

/-- `fcreate` of a context. -/
def cxtFcreate (s : State) (name : List Char) (pmask hdir : Nat) : Nat × Nat × State :=
  openNode sys s hdir fun driver node => sys.make driver node name (pmask &&& fspToMgfsMask)

/-- `fclose` of a context. -/
def cxtFclose (s : State) (h : Nat) : Nat × State :=
  match s.handles h with
  | some r => if r.isOpen then (fsResultOk, s.put h ⟨0, 0, r.node, false⟩ (.closed h)) else (fsResultInvalidHandle, s)
  | none => (fsResultInvalidHandle, s)

/-- `fclose`. -/
def fclose (s : State) (hfile : Nat) : Nat × State :=
  if s.type hfile = htypeFile then
    if getMountRecord sys s hfile then (fsResultErr, s)
    else if getFsContext sys s hfile ≠ 0 then cxtFclose s hfile
    else (fsResultErr, s)
  else (fsResultErr, s)

/-- `get_link_name`. -/
def getLinkName (s : State) (h : Nat) : Option (List Char) :=
  match s.handles h with
  | some r =>
    if h ≠ 0 ∧ r.type = htypeFile ∧ getPmask sys s h &&& fspSlink ≠ 0 ∧ r.driver ≠ 0 then
      if sys.lname r.driver r.node ≠ [] then some (sys.lname r.driver r.node) else none
    else none
  | none => none

/-- The characters that `clrspc` takes away. -/
def isSpace (c : Char) : Bool := c = ' ' || c = '\t'

/-- `trim_right`. On blanks only its loop goes on below the first character. -/
def trimRight (str : List Char) : Option (List Char) :=
  if str ≠ [] ∧ str.all isSpace then none else some (str.reverse.dropWhile isSpace).reverse

/-- `trim_left`. -/
def trimLeft (str : List Char) : List Char := str.dropWhile isSpace

/-- `clrspc`. -/
def clrspc (str : List Char) : Option (List Char) := (trimRight str).map trimLeft

/-- The name that `open_file` looks up. -/
def fileName (fn : List Char) : Option (List Char) := clrspc (fn.take (fsMaxPath - 1))

/-- `open_file` for the `sz_fn` characters `fn`: the result, what `hfile` points to, and the state; `none` where it does not
stay in the name. `trace` is `trace_path` with the next iteration counter. -/
def openFile (trace : List Char → Nat → Nat → State → Option (Nat × Nat × State)) (hdir : Nat) (fn : List Char)
    (hfile : Nat) (s : State) : Option (Nat × Nat × State) := do
  if hdir = 0 then some (fsResultErr, hfile, s)
  else if fn = [] then some (fsResultOk, getMountPoint sys s hdir, s)
  else
    let fname ← fileName fn
    if s.type hdir = htypeFile ∧ getPmask sys s hdir &&& fspDir ≠ 0 ∧ s.driver hdir ≠ 0 then
      let (r, h, s) := cxtFopen sys s fname hdir
      let (r, h, s) ←
        if r = fsResultOk ∧ getPmask sys s h &&& fspSlink ≠ 0 then
          let lname := getLinkName sys s sys.frame
          let (_, s) := fclose sys s sys.frame
          match lname with
          | some lname => trace lname hdir h s
          | none => some (fsResultInvalidPath, h, s)
        else some (r, h, s)
      let hfile := if r = fsResultOk then getMountPoint sys s h else hfile
      let s := if compareHandle s hdir sys.frame then s else (fclose sys s hdir).2
      some (r, hfile, s)
    else some (fsResultErr, hfile, s)

/-- The loop of `trace_path` ends at `i` and `j`, or a component cannot be opened. -/
inductive Traced where
  | ended (i j hcd : Nat) (s : State)
  | failed (r : Nat) (s : State)

/-- The loop of `trace_path`; `i`, `j` and `len` have 16 bits, and a round of the loop takes one of the `rounds`. -/
def traceLoop (open_ : Nat → List Char → Nat → State → Option (Nat × Nat × State)) (path : List Char) (len : Nat) :
    Nat → Nat → Nat → Nat → State → Option Traced
  | 0, i, j, hcd, s => if i < len then none else some (.ended i j hcd s)
  | rounds + 1, i, j, hcd, s =>
    if i < len then
      if path[i]? = some '/' then do
        let (r, hcd, s) ← open_ hcd ((path.drop j).take (i - j)) hcd s
        if r = fsResultOk then
          let i := if getPmask sys s hcd &&& fspDir = 0 then len else i
          traceLoop open_ path len rounds ((i + 1) % 0x10000) ((i + 1) % 0x10000) hcd s
        else some (.failed r s)
      else traceLoop open_ path len rounds ((i + 1) % 0x10000) j hcd s
    else some (.ended i j hcd s)

/-- `trace_path` with `left` iterations left before the counter is `MAX_ITRC`. -/
def tracePath (rounds : Nat) : Nat → List Char → Nat → Nat → State → Option (Nat × Nat × State)
  | 0, _, _, hres, s => some (fsResultItrcErr, hres, s)
  | left + 1, path, hstart, hres, s => do
    let start := if path[0]? = some '/' then getMountPoint sys s 0 else getMountPoint sys s hstart
    if start = 0 then some (fsResultErr, hres, s)
    else
      let open_ := openFile sys (tracePath rounds left)
      match ← traceLoop sys open_ path (path.length % 0x10000) rounds 0 0 start s with
      | .failed r s => some (r, hres, s)
      | .ended i j hcd s => open_ hcd ((path.drop j).take (i - j)) hres s

/-- `fopen`: the result, `hfile` if it was written, and the state. `lfname` has 8 bits, and the `open_file` here starts with
the whole of the iterations. -/
def fopen (rounds : Nat) (path fname : List Char) (flags hcd : Nat) (s : State) :
    Option (Nat × Option Nat × State) := do
  let lfname := fname.length % 0x100
  let (r, hdir, s) ← tracePath sys rounds maxItrc path hcd 0 s
  if r = fsResultOk then
    if lfname ≠ 0 ∨ flags &&& fspCreateNew ≠ 0 then
      if getPmask sys s hdir ≠ 0 then
        if lfname ≠ 0 then
          let (r, hfile, s) ←
            if getFsContext sys s hdir ≠ 0 then
              if flags &&& fspCreateNew ≠ 0 then
                let (r, hfile, s) := cxtFcreate sys s fname flags hdir
                some (r, some hfile, s)
              else
                let (r, hfile, s) ← openFile sys (tracePath sys rounds maxItrc) hdir (fname.take lfname) 0 s
                some (r, some hfile, s)
            else some (r, none, s)
          some (r, hfile, (fclose sys s hdir).2)
        else some (r, none, s)
      else some (fsResultInvalidPath, none, s)
    else some (r, some (getMountPoint sys s hdir), s)
  else some (r, none, s)

end Functions

end PreTeO.Fs.Root
