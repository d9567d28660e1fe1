import PreTeO.Lib.Bytes

/-!
# The block cache (`core/driver/bdev/cache.cpp`)

One cache entry: `numChunks` chunks lie one after the other in one piece of memory, each with a
header (`_chunk_hdr_t`, then two state bits for every block, rounded up to whole kilobytes) and the
data area. All of it is bytes, and every function below computes its addresses as the source does,
so a copy that runs past its area changes what really lies there. Addresses are relative to the
first header. The device callback transfers the requested blocks that the device has.

The log is a history variable: the memory ranges copied into or out of a data area, also by the
device callback, and the state bytes touched.
-/

namespace PreTeO.Bdev
set_option autoImplicit false
open PreTeO.Lib

/-- `_cache_info_t` without the callback: three 16-bit numbers. -/
structure Geometry where
  blockSize : Nat
  chunkSize : Nat
  numChunks : Nat
  block_lt : blockSize < 2 ^ 16
  chunk_lt : chunkSize < 2 ^ 16
  num_lt : numChunks < 2 ^ 16

/-- `sizeof(_chunk_hdr_t)`: `bstart` 8, `cstate:2` and `bcount:30` 4, `tstamp` 8, `p_mutex` 8. -/
def szChunkHdr : Nat := 28

/-- `hdr_bytes` of `cCache::alloc`: header and state bits in whole kilobytes. -/
def Geometry.hdrBytes (g : Geometry) : Nat :=
  let bytes := g.chunkSize / 4 + szChunkHdr
  (bytes / 1024 + if bytes % 1024 ≠ 0 then 1 else 0) * 1024

/-- `hdr_size`, kept in 16 bits. -/
def Geometry.hdrSize (g : Geometry) : Nat := g.hdrBytes % 2 ^ 16

/-- `chunk_sz`: size of a chunk in bytes, in 32 bits. -/
def Geometry.chunkSz (g : Geometry) : Nat := (g.chunkSize * g.blockSize + g.hdrBytes) % 2 ^ 32

/-- The device behind the callback. -/
structure Device where
  nblocks : Nat
  bytes : Nat → Byte

/-- Number of blocks the callback transfers. -/
def Device.transfer (d : Device) (bstart bcount : Nat) : Nat := min bcount (d.nblocks - bstart)

inductive Area where
  | data
  | state
deriving DecidableEq, Repr

/-- A range of cache memory touched on behalf of the chunk whose header lies at `chunk`. -/
structure Access where
  area : Area
  chunk : Nat
  lo : Nat
  hi : Nat
deriving DecidableEq, Repr

/-- A cache entry with its memory, its device and the readings the CPU's timestamp will give. -/
structure Cache where
  geo : Geometry
  mem : Mem
  dev : Device
  tsc : Nat → Nat
  log : List Access

/-- `cCache::alloc`: the memory is zeroed. -/
def alloc (g : Geometry) (d : Device) (tsc : Nat → Nat) : Cache :=
  ⟨g, fun _ => 0#8, d, tsc, []⟩

/-! ## Chunk headers -/

def cbstatePresent : BitVec 2 := 1#2
def cbstateDirty : BitVec 2 := 2#2

/-- `get_chunk`. -/
def Geometry.getChunk (g : Geometry) (num : Nat) : Option Nat :=
  if num < g.numChunks then some (num * g.chunkSz % 2 ^ 32) else none

/-- `get_cache_ptr`. -/
def Geometry.getCachePtr (g : Geometry) (p : Nat) : Nat := p + g.hdrSize

/-- `get_bstate_ptr`. -/
def getBstatePtr (p : Nat) : Nat := p + szChunkHdr

def Cache.bstart (s : Cache) (p : Nat) : Nat := s.mem.load p 8
def Cache.cstate (s : Cache) (p : Nat) : BitVec 2 := BitVec.ofNat 2 (s.mem.load (p + 8) 4)
def Cache.bcount (s : Cache) (p : Nat) : Nat := s.mem.load (p + 8) 4 / 4
def Cache.tstamp (s : Cache) (p : Nat) : Nat := s.mem.load (p + 12) 8

def Cache.setBstart (s : Cache) (p v : Nat) : Cache := { s with mem := s.mem.store p 8 v }

/-- Write the word that holds the two bit fields. -/
def Cache.setWord (s : Cache) (p : Nat) (state : BitVec 2) (count : Nat) : Cache :=
  { s with mem := s.mem.store (p + 8) 4 (state.toNat + 4 * (count % 2 ^ 30)) }

def Cache.setCstate (s : Cache) (p : Nat) (v : BitVec 2) : Cache := s.setWord p v (s.bcount p)
def Cache.setBcount (s : Cache) (p v : Nat) : Cache := s.setWord p (s.cstate p) v

/-- `r->tstamp = p_cpu->timestamp()`. -/
def Cache.stamp (s : Cache) (p : Nat) : Cache :=
  { s with mem := s.mem.store (p + 12) 8 (s.tsc 0), tsc := fun k => s.tsc (k + 1) }

def Cache.touch (s : Cache) (a : Access) : Cache := { s with log := a :: s.log }

/-- The chunk holds blocks of the device. -/
def Cache.Present (s : Cache) (p : Nat) : Prop := s.cstate p &&& cbstatePresent ≠ 0#2

/-- The chunk was written since the last flush. -/
def Cache.Dirty (s : Cache) (p : Nat) : Prop := s.cstate p &&& cbstateDirty ≠ 0#2

instance (s : Cache) (p : Nat) : Decidable (s.Present p) := inferInstanceAs (Decidable (_ ≠ _))
instance (s : Cache) (p : Nat) : Decidable (s.Dirty p) := inferInstanceAs (Decidable (_ ≠ _))

/-! ## Selecting a chunk -/

/-- The loop of `select_chunk` from chunk `nc` on. Only chunks that are not present become a
candidate for `p_ch_free` or for `p_ch_min_ref`. -/
def Cache.selectLoop (s : Cache) (bstart : Nat) :
    Nat → Nat → Option Nat → Option Nat → Nat → Option Nat
  | 0, _, free, minRef, _ => free.or minRef
  | fuel + 1, nc, free, minRef, tmexp =>
    match s.geo.getChunk nc with
    | none => free.or minRef
    | some p =>
      let chStart := s.bstart p % 2 ^ 32
      let chEnd := (s.bstart p + s.geo.chunkSize) % 2 ^ 32
      if s.Present p then
        if chStart ≤ bstart ∧ bstart < chEnd then some p
        else s.selectLoop bstart fuel (nc + 1) free minRef tmexp
      else if s.tstamp p < tmexp then
        s.selectLoop bstart fuel (nc + 1) (free.or (some p)) (some p) (s.tstamp p)
      else s.selectLoop bstart fuel (nc + 1) (free.or (some p)) minRef tmexp

/-- The chunk `select_chunk` finds; the loop ends at the first number without a chunk. -/
def Cache.selected (s : Cache) (bstart : Nat) : Option Nat :=
  s.selectLoop bstart (s.geo.numChunks + 1) 0 none none (2 ^ 64 - 1)

/-- `select_chunk`: the chunk found gets a new time stamp. -/
def Cache.selectChunk (s : Cache) (bstart : Nat) : Option Nat × Cache :=
  match s.selected bstart with
  | none => (none, s)
  | some p => (some p, s.stamp p)

/-! ## Block states -/

/-- One round of `set_bstate` on the byte that holds the block at `offset`: first the dirty bit,
then, one place lower, the present bit. -/
def putState (byte : Byte) (offset : Nat) (mask : BitVec 2) : Byte :=
  let bit := 0x80#8 >>> ((offset % 4) * 2)
  let byte := if mask &&& cbstateDirty ≠ 0#2 then byte ||| bit else byte &&& ~~~bit
  let bit := bit >>> 1
  if mask &&& cbstatePresent ≠ 0#2 then byte ||| bit else byte &&& ~~~bit

/-- One round of `set_bstate` in memory. -/
def Cache.mark (s : Cache) (p offset : Nat) (mask : BitVec 2) : Cache :=
  let a := getBstatePtr p + offset / 4
  let mem := Function.update s.mem a (putState (s.mem a) offset mask)
  Cache.touch { s with mem := mem } ⟨.state, p, a, a + 1⟩

/-- The loop of `set_bstate` from block `bs` on. -/
def Cache.setBstateLoop (s : Cache) (p : Nat) (mask : BitVec 2) : Nat → Nat → Cache
  | _, 0 => s
  | bs, count + 1 =>
    let offset := (bs - s.bstart p) % 2 ^ 32
    Cache.setBstateLoop (s.mark p offset mask) p mask (bs + 1) count

/-- `set_bstate`: only the first block of the range is checked against the chunk. -/
def Cache.setBstate (s : Cache) (p bstart bcount : Nat) (mask : BitVec 2) : Cache :=
  if s.bstart p ≤ bstart ∧ bstart < s.bstart p + s.bcount p then s.setBstateLoop p mask bstart bcount
  else s

/-- `get_bstate`. In the source's expression the shifts bind tighter than the mask. -/
def Cache.getBstate (s : Cache) (p bnum : Nat) : BitVec 2 :=
  if s.bstart p ≤ bnum ∧ bnum < s.bstart p + s.bcount p then
    let offset := (bnum - s.bstart p) % 2 ^ 32
    let fbit := (offset % 4) * 2
    BitVec.ofNat 2 (((s.mem (getBstatePtr p + offset / 4)).toNat &&& ((0xc0 >>> fbit) <<< fbit)) >>> 6)
  else 0#2

/-! ## Transfers between a chunk and the device -/

/-- The callback with `CIOCTL_WRITE`: `bcount` blocks at address `buffer`, to block `bstart`. -/
def Cache.deviceWrite (s : Cache) (bstart bcount buffer : Nat) : Nat × Cache :=
  let nb := s.dev.transfer bstart bcount
  let bs := s.geo.blockSize
  (nb, { s with dev := { s.dev with
    bytes := Mem.blit s.dev.bytes (bstart * bs) (nb * bs) fun i => s.mem (buffer + i) } })

/-- The callback with `CIOCTL_READ` into address `buffer`. -/
def Cache.deviceRead (s : Cache) (bstart bcount buffer : Nat) : Nat × Cache :=
  let nb := s.dev.transfer bstart bcount
  let bs := s.geo.blockSize
  (nb, { s with mem := s.mem.blit buffer (nb * bs) fun i => s.dev.bytes (bstart * bs + i) })

/-- The code at `_flush_buffer_`: write the collected run and mark what was written as clean. -/
def Cache.flushBuffer (s : Cache) (p cstart ccount : Nat) : Cache :=
  let buffer := s.geo.getCachePtr p + (cstart - s.bstart p) * s.geo.blockSize
  let (nb, s) := s.deviceWrite cstart ccount buffer
  let s := s.touch ⟨.data, p, buffer, buffer + nb * s.geo.blockSize⟩
  s.setBstate p cstart nb cbstatePresent

/-- The loop of `cache_flush_chunk` from block `bs` on, with the run collected so far in
`(cstart, ccount)`. -/
def Cache.flushLoop (p : Nat) : Nat → Cache → Nat → Nat → Nat → Cache
  | 0, s, _, _, _ => s
  | fuel + 1, s, bs, cstart, ccount =>
    if s.bstart p ≤ bs ∧ bs < s.bstart p + s.bcount p then
      let bstate := s.getBstate p bs
      if bstate &&& cbstateDirty ≠ 0#2 ∧ bstate &&& cbstatePresent ≠ 0#2 then
        Cache.flushLoop p fuel s (bs + 1) cstart (ccount + 1)
      else
        let s := if ccount ≠ 0 then s.flushBuffer p cstart ccount else s
        -- a clean block becomes the start of the next run
        Cache.flushLoop p fuel s (bs + 1) bs 0
    else if ccount ≠ 0 then s.flushBuffer p cstart ccount
    else s

/-- `cache_flush_chunk`. -/
def Cache.flushChunk (s : Cache) (p : Nat) : Cache :=
  if s.Dirty p then
    let s := Cache.flushLoop p (s.bcount p + 1) s (s.bstart p) (s.bstart p) 0
    s.setCstate p (s.cstate p &&& ~~~cbstateDirty)
  else s

/-- `cache_flush` of one entry. -/
def Cache.flush (s : Cache) : Cache :=
  (List.range s.geo.numChunks).foldl (fun s num =>
    match s.geo.getChunk num with
    | none => s
    | some p => s.flushChunk p) s

/-- `read_whole_chunk`: the number of blocks read. -/
def Cache.readWholeChunk (s : Cache) (p bstart : Nat) : Nat × Cache :=
  let s := s.flushChunk p
  let chsz := s.geo.chunkSize
  let cstart := (bstart / chsz) * chsz
  let buffer := s.geo.getCachePtr p
  let (r, s) := s.deviceRead cstart chsz buffer
  if r ≠ 0 then
    let s := s.touch ⟨.data, p, buffer, buffer + r * s.geo.blockSize⟩
    let s := s.setBstart p cstart
    let s := s.setBcount p r
    let s := s.setCstate p (s.cstate p ||| cbstatePresent)
    (r, s.setBstate p (s.bstart p) r cbstatePresent)
  else (0, s)

/-- `update_chunk`: read the blocks the chunk does not have yet. -/
def Cache.updateChunk (s : Cache) (p : Nat) : Nat × Cache :=
  let cstart := s.bstart p + s.bcount p
  let chMax := (s.bstart p + s.geo.chunkSize) % 2 ^ 32
  if s.bstart p ≤ cstart ∧ cstart < chMax then
    let buffer := s.geo.getCachePtr p + s.bcount p * s.geo.blockSize
    let (r, s) := s.deviceRead cstart (s.geo.chunkSize - s.bcount p) buffer
    let s := s.touch ⟨.data, p, buffer, buffer + r * s.geo.blockSize⟩
    let s := s.setBcount p (s.bcount p + r)
    let s := s.setCstate p (s.cstate p ||| cbstatePresent)
    (r, s.setBstate p cstart r cbstatePresent)
  else (0, s)

/-- `get_chunk_buffer`: the buffer and the number of blocks it is said to cover. -/
def Cache.getChunkBuffer (s : Cache) (p bstart : Nat) : Option Nat × Nat :=
  let chMax := (s.bstart p + s.geo.chunkSize) % 2 ^ 32
  if s.bstart p ≤ bstart ∧ bstart < chMax then
    let cbn := (bstart - s.bstart p) % 2 ^ 32
    (some (s.geo.getCachePtr p + cbn * s.geo.blockSize), if cbn < s.bcount p then chMax - cbn else 0)
  else (none, 0)

/-! ## Requests -/

/-- What `cache_buffer_lock` leaves in the request: the locked chunk, the buffer and how far it is
said to reach. -/
structure Buffer where
  chunk : Nat
  buffer : Nat
  bcount : Nat
  bsize : Nat
deriving DecidableEq, Repr

/-- The two labels of `cache_buffer_lock`. -/
inductive Label where
  | readWholeChunk
  | verifyChunk
deriving DecidableEq, Repr

/-- The body of `cache_buffer_lock` on chunk `p` from a label on. The labels jump to each other, so
the outcome is `none` while the jumps go on; otherwise it is the buffer, if any. -/
def Cache.lockLoop (p bstart : Nat) : Nat → Label → Cache → Option (Option Buffer × Cache)
  | 0, _, _ => none
  | fuel + 1, .readWholeChunk, s =>
    let (r, s) := s.readWholeChunk p bstart
    if r ≠ 0 then Cache.lockLoop p bstart fuel .verifyChunk s else some (none, s)
  | fuel + 1, .verifyChunk, s =>
    match s.getChunkBuffer p bstart with
    | (none, _) => Cache.lockLoop p bstart fuel .readWholeChunk s
    | (some buf, bcount) =>
      if bcount ≠ 0 then some (some ⟨p, buf, bcount, bcount * s.geo.blockSize % 2 ^ 32⟩, s)
      else
        let (r, s) := s.updateChunk p
        if r ≠ 0 then Cache.lockLoop p bstart fuel .verifyChunk s else some (none, s)

/-- `cache_buffer_unlock` selects the chunk once more before it releases its mutex. -/
def Cache.bufferUnlock (s : Cache) (bstart : Nat) : Cache := (s.selectChunk bstart).2

/-- `cache_buffer_lock`, with a bound on the number of jumps. -/
def Cache.bufferLock (fuel : Nat) (s : Cache) (bstart : Nat) : Option (Option Buffer × Cache) :=
  match s.selectChunk bstart with
  | (none, s) => some (none, s)
  | (some p, s) =>
    let label := if s.Present p then Label.verifyChunk else Label.readWholeChunk
    match Cache.lockLoop p bstart fuel label s with
    | none => none
    | some (none, s) => some (none, s.bufferUnlock bstart)
    | some (some b, s) => some (some b, s)

/-- `cache_dirty`. -/
def Cache.dirty (s : Cache) (b : Buffer) (bstart : Nat) : Cache :=
  let (r, s) := s.selectChunk bstart
  if r = some b.chunk then
    let s := s.setBstate b.chunk bstart b.bcount (cbstatePresent ||| cbstateDirty)
    s.setCstate b.chunk (s.cstate b.chunk ||| cbstateDirty)
  else s

/-- The copy of `cache_io` out of or into a locked buffer; `pos` is the place reached in the
caller's buffer `user`. -/
def Cache.copy (s : Cache) (write : Bool) (user : Nat → Byte) (pos : Nat) (b : Buffer)
    (offset nbytes : Nat) : (Nat → Byte) × Cache :=
  let a := b.buffer + offset
  let s := s.touch ⟨.data, b.chunk, a, a + nbytes⟩
  if write then (user, { s with mem := s.mem.blit a nbytes fun i => user (pos + i) })
  else (Mem.blit user pos nbytes fun i => s.mem (a + i), s)

/-- The result of a request: the bytes transferred and the caller's buffer afterwards. -/
structure Reply where
  count : Nat
  user : Nat → Byte

/-- Bound on the jumps of one `cache_buffer_lock`. -/
def lockFuel : Nat := 8

/-- The loop of `cache_io`: `bcount` blocks from `bstart` on and `rest` bytes are left, `pos` bytes
are done. -/
def Cache.ioLoop (write : Bool) :
    Nat → Cache → (Nat → Byte) → Nat → Nat → Nat → Nat → Nat → Option (Reply × Cache)
  | 0, s, user, pos, _, _, _, _ => some (⟨pos, user⟩, s)
  | fuel + 1, s, user, pos, bstart, bcount, offset, rest =>
    if bcount ≠ 0 ∧ rest ≠ 0 then
      match s.bufferLock lockFuel bstart with
      | none => none
      | some (none, s) => some (⟨pos, user⟩, s)
      | some (some b, s) =>
        let nbytes := if rest < b.bsize then rest else b.bsize
        let (user, s) := s.copy write user pos b offset nbytes
        let s := if write then s.dirty b bstart else s
        let s := s.bufferUnlock bstart
        Cache.ioLoop write fuel s user (pos + nbytes) ((bstart + b.bcount) % 2 ^ 32)
          (if b.bcount > bcount then 0 else bcount - b.bcount) 0 (rest - nbytes)
    else some (⟨pos, user⟩, s)

/-- `cache_io`. Every round covers at least one block, so `bcount` rounds are enough. -/
def Cache.io (s : Cache) (write : Bool) (bstart boffset bcount bsize : Nat) (user : Nat → Byte) :
    Option (Reply × Cache) :=
  Cache.ioLoop write bcount s user 0 (bstart % 2 ^ 32) bcount boffset bsize

/-- A request of a volume: a byte range given by block, offset in the block and size. -/
inductive Request where
  | read (block offset size : Nat)
  | write (block offset size : Nat) (data : Nat → Byte)
  | flush

/-- The block count of a byte range, as `vol_calc_offset` and `vol_block_io` compute it. -/
def Geometry.blockCount (g : Geometry) (size : Nat) : Nat :=
  size / g.blockSize + if size % g.blockSize ≠ 0 then 1 else 0

/-- `cache_ioctl`. A read starts from a zeroed buffer of the caller. -/
def Cache.ioctl (s : Cache) : Request → Option (Reply × Cache)
  | .read block offset size => s.io false block offset (s.geo.blockCount size) size fun _ => 0#8
  | .write block offset size data => s.io true block offset (s.geo.blockCount size) size data
  | .flush => some (⟨0, fun _ => 0#8⟩, s.flush)

end PreTeO.Bdev
