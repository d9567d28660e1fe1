import PreTeO.Fs.UnitIo
import PreTeO.Lib.Run

/-!
# The buffer map of a file system (`core/driver/fs/vfs_buffer.cpp`)

`cFSBuffer` keeps a map of records, one for each unit that has a buffer. The handle of a buffer is the index
of its record. A map of no records is the null pointer a context starts with: `init_buffer_map` never makes
an empty map. The content of a unit is a value of an arbitrary type `B`; the device gives one for each sector a
transfer starts at, the heap one for each block.

The callbacks of the context may fail. What they answer during one call is an argument of the call. `log` and
`failures` are history variables: the transfers to the device that succeeded, as pairs of a unit and a heap
block, and the number of memory requests and unit reads that failed.

`none` as the whole result is a call that does not return.
-/

namespace PreTeO.Fs
set_option autoImplicit false

variable {B : Type}

def invalidUnitNumber : Nat := 0xffffffff
def firstMapSize : Nat := 256

/-- `_fs_buffer_t`. `_uc` has 31 bits. -/
structure Record where
  pBuffer : Nat
  unitNumber : Nat
  uc : Nat
  wf : Bool
deriving DecidableEq, Repr

/-- A record of a new map. -/
def Record.unused : Record := ⟨0, invalidUnitNumber, 0, false⟩

/-- `_uc++`. -/
def Record.retain (r : Record) : Record := { r with uc := (r.uc + 1) % 2 ^ 31 }

/-- `_uc--`. -/
def Record.release (r : Record) : Record := { r with uc := r.uc - 1 }

/-- `_wf = 1`. -/
def Record.mark (r : Record) : Record := { r with wf := true }

/-- `_wf = 0`. -/
def Record.clean (r : Record) : Record := { r with wf := false }

/-- The context of `cFSBuffer` with the heap and the device behind the callbacks. -/
structure Buffers (B : Type) where
  map : List Record
  writeBack : Bool
  info : FsInfo
  dev : Nat → B
  mem : Nat → B
  next : Nat
  log : List (Nat × Nat)
  failures : Nat

/-- A context before its first call. -/
def Buffers.start (writeBack : Bool) (info : FsInfo) (dev mem : Nat → B) : Buffers B :=
  ⟨[], writeBack, info, dev, mem, 1, [], 0⟩

/-- What the callbacks answer during a call: whether the `k`-th memory request succeeds, what a failed read
leaves in the buffer, what a failed write leaves on the device. -/
structure Answers (B : Type) where
  memory : Nat → Bool
  read : Option B
  write : Nat → Option B

/-- Every memory request and every transfer succeeds. -/
def Answers.fine : Answers B := ⟨fun _ => true, none, fun _ => none⟩

namespace Buffers

/-- One record changed. -/
def modify (s : Buffers B) (i : Nat) (f : Record → Record) : Buffers B := { s with map := s.map.modify i f }

/-- A request that failed. -/
def fail (s : Buffers B) : Buffers B := { s with failures := s.failures + 1 }

/-- `init_buffer_map`. The request is `new_size * sizeof(_fs_buffer_t)` truncated to 32 bits: beyond that the
map does not fit into its memory and nothing is known of what follows. -/
def initBufferMap (s : Buffers B) (answer : Bool) (newSize : Nat) : Option (Buffers B) :=
  if newSize * 16 < 2 ^ 32 then
    if answer then
      some { s with map := s.map ++ List.replicate (newSize - s.map.length) Record.unused, next := s.next + 1 }
    else some s.fail
  else none

/-- `fs_unit_read` into a heap block. -/
def fsUnitRead (s : Buffers B) (answers : Answers B) (nunit block : Nat) : Bool × Buffers B :=
  if nunit < s.info.nunits then
    match answers.read with
    | none => (true, { s with mem := Function.update s.mem block (s.dev (s.info.sector nunit)) })
    | some b => (false, { s with mem := Function.update s.mem block b }.fail)
  else (false, s.fail)

/-- `fs_unit_write` from a heap block. -/
def fsUnitWrite (s : Buffers B) (answers : Answers B) (nunit block : Nat) : Bool × Buffers B :=
  if nunit < s.info.nunits then
    match answers.write nunit with
    | none =>
      (true, { s with dev := Function.update s.dev (s.info.sector nunit) (s.mem block), log := s.log ++ [(nunit, block)] })
    | some b => (false, { s with dev := Function.update s.dev (s.info.sector nunit) b })
  else (false, s)

/-! ## `alloc` -/

/-- What the loop over the records ends with. -/
inductive Scan where
  | found (i : Nat)
  | missing (hfree : Option Nat)
deriving DecidableEq, Repr

/-- The first idle record met is noted. -/
def note (r : Record) (i : Nat) (hfree : Option Nat) : Option Nat :=
  if r.uc = 0 ∧ r.wf = false ∧ hfree = none then some i else hfree

/-- The loop of `alloc` over the records from index `i` on. -/
def scan (unitNumber : Nat) : List Record → Nat → Option Nat → Scan
  | [], _, hfree => .missing hfree
  | r :: rest, i, hfree =>
    if r.unitNumber = unitNumber then .found i
    else if r.unitNumber = invalidUnitNumber then .missing (note r i hfree)
    else scan unitNumber rest (i + 1) (note r i hfree)

/-- `p_buffer = fs_mem_alloc(..)` for the record `i`. -/
def newBuffer (s : Buffers B) (answer : Bool) (i : Nat) : Bool × Buffers B :=
  if answer then (true, { s with map := s.map.modify i (fun r => { r with pBuffer := s.next }), next := s.next + 1 })
  else (false, s.fail)

/-- The branch of `alloc` where record `i` already names the unit. -/
def allocFound (s : Buffers B) (answers : Answers B) (unitNumber k i : Nat) : Option Nat × Buffers B :=
  match s.map[i]? with
  | none => (none, s)
  | some r =>
    if r.pBuffer = 0 then
      match s.newBuffer (answers.memory k) i with
      | (false, s) => (none, s)
      | (true, t) =>
        match t.fsUnitRead answers unitNumber s.next with
        | (false, t) => (none, t)
        | (true, t) => (some i, t.modify i Record.retain)
    else (some i, s.modify i Record.retain)

/-- The read of the unit into the buffer of the record `hfree`, which takes the unit if the read succeeds. -/
def fillFree (s : Buffers B) (answers : Answers B) (unitNumber hfree block : Nat) : Option Nat × Buffers B :=
  match s.fsUnitRead answers unitNumber block with
  | (false, s) => (none, s)
  | (true, s) => (some hfree, s.modify hfree fun r => Record.retain { r with unitNumber := unitNumber })

/-- The branch of `alloc` that gives the unit to the record `hfree`. -/
def allocFree (s : Buffers B) (answers : Answers B) (unitNumber k hfree : Nat) : Option Nat × Buffers B :=
  match s.map[hfree]? with
  | none => (none, s)
  | some r =>
    if r.pBuffer = 0 then
      match s.newBuffer (answers.memory k) hfree with
      | (false, s) => (none, s)
      | (true, t) => t.fillFree answers unitNumber hfree s.next
    else s.fillFree answers unitNumber hfree r.pBuffer

/-- The passes from `_buffer_alloc_` on; `k` memory requests were made before. A pass that finds neither the unit nor
a free record grows the map and starts again, whatever became of the growth. -/
def allocLoop (answers : Answers B) (unitNumber : Nat) : Nat → Buffers B → Nat → Option (Option Nat × Buffers B)
  | 0, _, _ => none
  | passes + 1, s, k =>
    if s.map = [] then some (none, s)
    else
      match scan unitNumber s.map 0 none with
      | .found i => some (s.allocFound answers unitNumber k i)
      | .missing (some hfree) => some (s.allocFree answers unitNumber k hfree)
      | .missing none =>
        (s.initBufferMap (answers.memory k) (s.map.length + firstMapSize)).bind fun t =>
          allocLoop answers unitNumber passes t (k + 1)

/-- `cFSBuffer::alloc`, given a number of passes. -/
def alloc (s : Buffers B) (answers : Answers B) (unitNumber passes : Nat) : Option (Option Nat × Buffers B) :=
  if s.map = [] then
    (s.initBufferMap (answers.memory 0) firstMapSize).bind fun t => allocLoop answers unitNumber passes t 1
  else allocLoop answers unitNumber passes s 0

/-! ## `free`, `write` and `flush` -/

/-- `cFSBuffer::ptr`. -/
def ptr (s : Buffers B) (hb : Nat) : Nat :=
  match s.map[hb]? with
  | some r => r.pBuffer
  | none => 0

/-- The write back of record `i`. -/
def flushRecord (s : Buffers B) (answers : Answers B) (i : Nat) : Buffers B :=
  match s.map[i]? with
  | none => s
  | some r =>
    if r.wf then
      match s.fsUnitWrite answers r.unitNumber r.pBuffer with
      | (true, s) => s.modify i Record.clean
      | (false, s) => s
    else s

/-- The loop of `flush` over `n` records from index `i` on. -/
def flushFrom (answers : Answers B) : Nat → Nat → Buffers B → Buffers B
  | 0, _, s => s
  | n + 1, i, s => flushFrom answers n (i + 1) (s.flushRecord answers i)

/-- `cFSBuffer::flush`; no handle is `INVALID_BUFFER_HANDLE`. -/
def flush (s : Buffers B) (answers : Answers B) : Option Nat → Buffers B
  | none => flushFrom answers s.map.length 0 s
  | some hb => s.flushRecord answers hb

/-- `cFSBuffer::free`. -/
def free (s : Buffers B) (answers : Answers B) (hb : Nat) : Buffers B :=
  match s.map[hb]? with
  | none => s
  | some r =>
    if r.uc = 0 then s
    else
      let s := if s.writeBack then s else s.flushRecord answers hb
      s.modify hb Record.release

/-- `cFSBuffer::write`. -/
def write (s : Buffers B) (answers : Answers B) (hb : Nat) : Buffers B :=
  match s.map[hb]? with
  | none => s
  | some _ =>
    let s := s.modify hb Record.mark
    if s.writeBack then s else s.flushRecord answers hb

/-- The owner of a handle changes the bytes of its buffer through `ptr`. -/
def store (s : Buffers B) (hb : Nat) (b : B) : Buffers B :=
  if s.ptr hb = 0 then s else { s with mem := Function.update s.mem (s.ptr hb) b }

end Buffers

end PreTeO.Fs
