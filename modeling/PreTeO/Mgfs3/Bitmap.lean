import PreTeO.Mgfs3.Volume

/-!
# Bitmap files (`core/driver/fs/mgfs3/bitmap.cpp`)

A bitmap file is a row of records of 248 bits, each with its own counter, and a counter for the whole file in its inode
record. Allocation takes clear bits from the front, records whose counter is full are skipped. Sequential allocation
(`MGFS_SEQUENTIAL_ALLOC`) is for formatting only and is left out.
-/

namespace PreTeO.Mgfs3
set_option autoImplicit false
open PreTeO.Lib

def szBitmapRec : Nat := 32

/-- The index in the meta group. -/
def Ref.idx : Ref → Nat
  | .member i => i
  | _ => 0

/-- The record at an index of a bitmap file; past the end of the file there is none. -/
def Volume.bitmapRec (v : Volume) (ref : Ref) (k : Nat) : Option BitmapRec := (v.bits ref.idx)[k]?

/-- `bitmap_record`: the buffer of the record of a bit. -/
def bitmapRecord (h : InodeHandle) (bitNumber hlock : Nat) : M (Option Nat) := do
  let v ← Prog.get
  let inode := v.inodes h.ref
  let nbrec := inode.sz / szBitmapRec % 2 ^ 32
  if bitNumber < nbrec * maxBitmapBits % 2 ^ 32 then
    let pos := mgfsInodeCalcDataPos v.unitSize inode (bitNumber / maxBitmapBits * szBitmapRec) szBitmapRec
    if pos.size = szBitmapRec then mgfsInodeReadBlock h.ref pos.block hlock else return none
  else return none

/-- A record with one bit set or cleared, and its counter. -/
def BitmapRec.put (r : BitmapRec) (bit : Nat) (state : Bool) : BitmapRec :=
  if state then ⟨(r.used + 1) % 2 ^ 8, r.bits ||| BitVec.ofNat maxBitmapBits 1 <<< bit⟩
  else ⟨(r.used + (2 ^ 8 - 1)) % 2 ^ 8, r.bits &&& ~~~(BitVec.ofNat maxBitmapBits 1 <<< bit)⟩

/-- The counter of the whole file after one bit changed. -/
def countBit (nused : Nat) (state : Bool) : Nat :=
  if state then (nused + 1) % 2 ^ 32 else (nused + (2 ^ 32 - 1)) % 2 ^ 32

/-- The change of a bit that was another before. -/
def putBit (h : InodeHandle) (bitNumber : Nat) (state : Bool) : M Unit := Prog.modify fun v =>
  { v with
    bits := Function.update v.bits h.ref.idx ((v.bits h.ref.idx).modify (bitNumber / maxBitmapBits)
      (·.put (bitNumber % maxBitmapBits) state))
    inodes := Function.update v.inodes h.ref
      { v.inodes h.ref with nused := countBit (v.inodes h.ref).nused state } }

/-- The bit of a file. -/
def Volume.bit (v : Volume) (ref : Ref) (bitNumber : Nat) : Bool :=
  match v.bitmapRec ref (bitNumber / maxBitmapBits) with
  | none => false
  | some r => r.bits.getLsbD (bitNumber % maxBitmapBits)

/-- `mgfs_bitmap_set`. -/
def mgfsBitmapSet (h : InodeHandle) (bitNumber : Nat) (state : Bool) (hlock : Nat) : M Bool := do
  match ← bitmapRecord h bitNumber hlock with
  | none => return false
  | some hb =>
    locked hlock fun lock => do
      let v ← Prog.get
      if v.bit h.ref bitNumber ≠ state then
        putBit h bitNumber state
        mgfsBufferWrite hb lock
        mgfsInodeUpdate h lock
      mgfsBufferFree hb lock
      return true

/-- `mgfs_bitmap_set_array`. -/
def mgfsBitmapSetArray (h : InodeHandle) (state : Bool) (hlock : Nat) : List Nat → M Nat
  | [] => return 0
  | x :: rest => do
    if x ≠ invalidUnitNumber then
      let done ← mgfsBitmapSet h x state hlock
      let r ← mgfsBitmapSetArray h state hlock rest
      return if done then r + 1 else r
    else mgfsBitmapSetArray h state hlock rest

/-- `mgfs_bitmap_free`. -/
def mgfsBitmapFree (h : InodeHandle) (array : List Nat) (hlock : Nat) : M Nat := mgfsBitmapSetArray h false hlock array

/-- `bitmap_record_alloc_bit`: the first clear bit. -/
def BitmapRec.allocBit (r : BitmapRec) : Option (Nat × BitmapRec) :=
  if r.used < maxBitmapBits then
    match (List.range maxBitmapBits).find? fun bit => !r.bits.getLsbD bit with
    | none => none
    | some bit => some (bit, r.put bit true)
  else none

/-- The loop over the bits of a record. -/
def allocBits (base count : Nat) : Nat → BitmapRec → List Nat → BitmapRec × List Nat
  | 0, r, out => (r, out)
  | fuel + 1, r, out =>
    if out.length < count then
      match r.allocBit with
      | none => (r, out)
      | some (bit, r) => allocBits base count fuel r (out ++ [(base + bit) % 2 ^ 32])
    else (r, out)

/-- The loop over the records of a block, from the record at index `k` of the file on; `n` of them are left. -/
def allocRecords (count sz : Nat) : Nat → Nat → Nat → List BitmapRec → List Nat → List BitmapRec × List Nat × Nat
  | 0, _, offset, recs, out => (recs, out, offset)
  | n + 1, k, offset, recs, out =>
    if out.length < count ∧ offset < sz then
      match recs[k]? with
      | none => (recs, out, offset)
      | some r =>
        let (r, out) := allocBits (k * maxBitmapBits) count maxBitmapBits r out
        allocRecords count sz n (k + 1) (offset + szBitmapRec) (recs.set k r) out
    else (recs, out, offset)

/-- What a block of the file gives. -/
def allocBlock (h : InodeHandle) (count block hb : Nat) (offset : Nat) (out : List Nat) (lock : Nat) :
    M (List Nat × Nat) := do
  let v ← Prog.get
  let inode := v.inodes h.ref
  let nbrec := v.unitSize / szBitmapRec
  let (recs, out', offset) := allocRecords count inode.sz nbrec (block * nbrec) offset (v.bits h.ref.idx) out
  if out'.length ≠ out.length then
    Prog.modify fun v => { v with bits := Function.update v.bits h.ref.idx recs }
    putInode h.ref fun inode => { inode with nused := (inode.nused + (out'.length - out.length)) % 2 ^ 32 }
    mgfsBufferWrite hb lock
  mgfsBufferFree hb lock
  return (out', offset)

/-- The loop over the blocks. -/
def allocBlocks (h : InodeHandle) (count hlock : Nat) : Nat → Nat → Nat → List Nat → M (List Nat)
  | 0, _, _, out => return out
  | n + 1, block, offset, out => do
    let v ← Prog.get
    if out.length < count ∧ offset < (v.inodes h.ref).sz then
      match ← mgfsInodeReadBlock h.ref block hlock with
      | none => allocBlocks h count hlock n (block + 1) offset out
      | some hb =>
        let (out, offset) ← locked hlock (allocBlock h count block hb offset out)
        allocBlocks h count hlock n (block + 1) offset out
    else return out

/-- `mgfs_bitmap_alloc`: the bits taken. -/
def mgfsBitmapAlloc (count : Nat) (h : InodeHandle) (hlock : Nat) : M (List Nat) := do
  let v ← Prog.get
  let out ← allocBlocks h count hlock (v.inodes h.ref).dunits 0 0 []
  if out ≠ [] then mgfsInodeUpdate h hlock
  return out

/-- `mgfs_bitmap_sync`. -/
def mgfsBitmapSync (h hshadow : InodeHandle) (hlock : Nat) : List Nat → M Unit
  | [] => return ()
  | x :: rest => do
    if x ≠ invalidUnitNumber then
      match ← bitmapRecord h x hlock with
      | none => pure ()
      | some hb =>
        locked hlock fun lock => do
          let v ← Prog.get
          let _ ← mgfsBitmapSet hshadow x (v.bit h.ref x) lock
          mgfsBufferFree hb lock
    mgfsBitmapSync h hshadow hlock rest

end PreTeO.Mgfs3
