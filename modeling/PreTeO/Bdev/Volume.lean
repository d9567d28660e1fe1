import Mathlib.Algebra.Group.Nat.Defs
import Mathlib.Logic.Function.Basic
import PreTeO.Fs.Handle
import PreTeO.Sys.DriverIo

/-!
# Volumes (`core/driver/bdev/volume.cpp`)

A volume rebases the requests it gets and hands them to the cache, to its host device or to the volume it is a part of.
The disk volume reads the partition table from the boot sector when it is made, and again after every write to block 0,
and registers a volume for each partition.

What a volume asks of the cache and of the host is kept in a row, with what the cache asks of the host for it. Which chunks
the cache has, what the host answers, and what the boot sector holds then, is up to them. The bytes themselves, the names of
the volumes and the locks are left out.
-/

namespace PreTeO.Bdev.Vol
set_option autoImplicit false
open PreTeO.Sys PreTeO.Fs

def vfReadonly : Nat := 1
def vfNocache : Nat := 2
def vfHostctrl : Nat := 4

def dclassHdd : Nat := 2
def dmodeBlock : Nat := 2
def dioctlErrcmd : Nat := 2 ^ 32 - 1

/-- The host device of a volume. -/
structure Host where
  self : Nat
  blockSize : Nat
  driverClass : Nat
  driverType : Nat
  driverMode : Nat
  maxOpSectors : Nat
  positive : 0 < blockSize
  small : blockSize < 2 ^ 16
  maxOp_lt : maxOpSectors < 2 ^ 16
deriving DecidableEq

theorem sector_positive : 0 < 512 := by decide

theorem sector_small : 512 < 2 ^ 16 := by decide

theorem ide_sectors : 256 < 2 ^ 16 := by decide

/-- `cVolume` and `_volume_t`. -/
structure Volume where
  flags : Nat
  pidx : Nat
  offset : Nat
  size : Nat
  pvd : Nat
  host : Host
  currentOffset : Nat
  ioEnable : Bool
deriving DecidableEq

inductive Route where
  | cache
  | host
  | marked
deriving DecidableEq, Repr

/-- Bytes that a round of `cache_io` copies, blocks that the host is to transfer, or blocks that the cache marks as written:
the host is to write them when the cache is flushed. -/
structure Ask where
  route : Route
  write : Bool
  bstart : Nat
  boffset : Nat
  bcount : Nat
  bsize : Nat
deriving DecidableEq, Repr

/-- The volumes by their addresses, those that are registered, and what was asked so far. -/
structure World where
  vols : Nat → Option Volume
  drivers : List Nat
  asks : List Ask

/-- The rest of the system: whether `vol_cache_alloc` has a cache, what `cache_buffer_lock` finds there for a block (how many
blocks of its chunk the cache has before and after, unless it has no chunk for it or the host gives no block), how many blocks
the host transfers, whether there is memory for the buffer of uncached transfers and for the boot sector, the four records that
the boot sector holds in memory, and the address of a new volume object. Uncached transfers are repeated `rounds` times at
most. -/
structure Services where
  cacheReady : List Ask → Nat → Bool
  lock : List Ask → (self block : Nat) → Option (Nat × Nat)
  answer : List Ask → Ask → Nat
  ncBuffer : Nat → Bool
  rounds : Nat
  bootMemory : Bool
  partition : List Ask → Fin 4 → Fin (2 ^ 32) × Fin (2 ^ 32)
  clone : List Nat → Nat

namespace World

def asked (w : World) (a : Ask) : World := { w with asks := w.asks ++ [a] }

/-- The answer, and the world after the ask. -/
def ask (sys : Services) (w : World) (a : Ask) : Nat × World := (sys.answer w.asks a, w.asked a)

def put (w : World) (p : Nat) (v : Volume) : World := { w with vols := Function.update w.vols p (some v) }

end World

/-- The blocks that `size` bytes fill, as `vol_calc_offset` and `vol_block_io` count them. -/
def blocksOf (bs size : Nat) : Nat := size / bs + if size % bs ≠ 0 then 1 else 0

/-- The calls that a volume makes to the volume it is a part of. -/
structure Parent where
  ioctl : (cmd self : Nat) → DriverIo → World → Option (DriverIo × World)
  fileIo : (write : Bool) → (self offset sz : Nat) → World → Option (Nat × World)

/-! ## The cache (`cache_io` of `core/driver/bdev/cache.cpp`) -/

/-- The first block of a block's chunk. A chunk has as many blocks as the host transfers at once. -/
def Host.chunkStart (host : Host) (block : Nat) : Nat := block / host.maxOpSectors * host.maxOpSectors

/-- `ch_max` of `get_chunk_buffer`. -/
def Host.chMax (host : Host) (block : Nat) : Nat := (host.chunkStart block + host.maxOpSectors) % 2 ^ 32

/-- The number of blocks that `get_chunk_buffer` reports: a block number less one that counts from the chunk. -/
def Host.reported (host : Host) (block : Nat) : Nat := host.chMax block - (block - host.chunkStart block)

/-- The bytes that a round copies. -/
def Host.copied (host : Host) (block rest : Nat) : Nat := min rest (host.reported block * host.blockSize % 2 ^ 32)

/-- What a round comes to: the blocks that are read into the chunk, from those on that it has, the bytes that are copied, and
after a write the blocks from its first one on, as many as the chunk has. -/
def Host.round (host : Host) (write : Bool) (block offset rest : Nat) (chunk : Nat × Nat) : List Ask :=
  let read := chunk.2 - chunk.1
  let marked := host.chunkStart block + chunk.2 - block
  ⟨.host, false, host.chunkStart block + chunk.1, 0, read, read * host.blockSize⟩ ::
    ⟨.cache, write, block, offset, host.reported block, host.copied block rest⟩ ::
    if write then [⟨.marked, true, block, 0, marked, marked * host.blockSize⟩] else []

/-- The loop of `cache_io`: `bcount` blocks from `bstart` on and `rest` bytes are left, `r` bytes are done. It does not return
where `cache_buffer_lock` reads a chunk again and again. -/
def cacheLoop (sys : Services) (self : Nat) (host : Host) (write : Bool) :
    Nat → (bstart bcount offset rest r : Nat) → World → Option (Nat × World)
  | 0, _, _, _, _, r, w => some (r, w)
  | fuel + 1, bstart, bcount, offset, rest, r, w =>
    if bcount ≠ 0 ∧ rest ≠ 0 then
      match sys.lock w.asks self bstart with
      | none => some (r, w)
      | some chunk =>
        if bstart < host.chMax bstart then
          cacheLoop sys self host write fuel ((bstart + host.reported bstart) % 2 ^ 32) (bcount - host.reported bstart) 0
            (rest - host.copied bstart rest) (r + host.copied bstart rest)
            { w with asks := w.asks ++ host.round write bstart offset rest chunk }
        else none
    else some (r, w)

/-- `cache_io`, where block numbers have 32 bits. Every round covers at least one block, so `bcount` rounds are enough. -/
def cacheIo (sys : Services) (self : Nat) (host : Host) (write : Bool) (bstart boffset bcount bsize : Nat) (w : World) :
    Option (Nat × World) :=
  cacheLoop sys self host write bcount (bstart % 2 ^ 32) bcount boffset bsize 0 w

/-! ## Volumes -/

section Functions
variable (sys : Services) (up : Parent)

/-- An empty request. -/
def DriverIo.blank : DriverIo := ⟨0, 0, 0, 0, 0, 0, 0, 0, 0, 0, 0, ⟨0, 0, 0, 0, 0, 0, 0⟩⟩

/-- The part of `vol_block_io` after `_vol_direct_io_`, but for the scan. -/
def directIo (v : Volume) (write : Bool) (block count : Nat) (w : World) : Option (Nat × World) := do
  let lba := (block + v.offset) % 2 ^ 64
  if v.flags &&& vfHostctrl ≠ 0 then
    some (w.ask sys ⟨.host, write, lba, 0, count, count * v.host.blockSize⟩)
  else if v.pvd ≠ 0 then
    let dio := ({ DriverIo.blank with offset := lba } : DriverIo).setResult count
    let (dio, w) ← up.ioctl (if write then dioctlBwrite else dioctlBread) v.pvd dio w
    some (dio.result, w)
  else some (count, w)

/-- `vol_block_io` without the scan. -/
def blockIo (self : Nat) (v : Volume) (write : Bool) (block count : Nat) (w : World) : Option (Nat × World) :=
  if v.flags &&& vfNocache ≠ 0 then directIo sys up v write block count w
  else if sys.cacheReady w.asks self then do
    let (bytes, w) ← cacheIo sys self v.host write ((block + v.offset) % 2 ^ 64) 0 count
      (count * v.host.blockSize % 2 ^ 32) w
    some (blocksOf v.host.blockSize bytes, w)
  else directIo sys up v write block count w

/-- The loop of `scan` that reads the boot sector: `tmo` afterwards. -/
def readBoot (read : World → Option (Nat × World)) : Nat → World → Option (Nat × World)
  | 0, w => do
    let (r, w) ← read w
    some (if r ≠ 1 then 255 else 0, w)
  | tmo + 1, w => do
    let (r, w) ← read w
    if r ≠ 1 then readBoot read tmo w else some (tmo + 1, w)

/-- The search of `verify`: the registered volume of partition `idx` on the host. -/
def findPartition (w : World) (host : Host) (idx : Nat) : Option Nat :=
  w.drivers.find? fun p =>
    match w.vols p with
    | some v => v.host.self = host.self ∧ v.pidx ≠ 0 ∧ v.pidx = idx
    | none => false

/-- One record of the partition table: `verify`, and the new volume if there is none. A new object lies where no other
volume does. -/
def scanEntry (self : Nat) (host : Host) (w : World) (idx first count : Nat) : Option World := do
  match findPartition w host idx with
  | some p =>
    let v ← w.vols p
    if first ≠ 0 ∧ count ≠ 0 then some (w.put p { v with offset := first, size := count })
    else some { w with vols := Function.update w.vols p none, drivers := w.drivers.erase p }
  | none =>
    if first ≠ 0 ∧ count ≠ 0 ∧ sys.clone w.drivers ≠ 0 then
      let p := sys.clone w.drivers
      if (w.vols p).isSome then none
      else
        let v : Volume := ⟨vfNocache, idx, first, count, self, host, 0, true⟩
        some { w.put p v with drivers := w.drivers ++ [p] }
    else some w

/-- The records of the partition table from `k` on. -/
def scanTable (self : Nat) (host : Host) (table : Fin 4 → Fin (2 ^ 32) × Fin (2 ^ 32)) :
    List (Fin 4) → World → Option World
  | [], w => some w
  | k :: rest, w => do
    let w ← scanEntry sys self host w (k + 1) (table k).1 (table k).2
    scanTable self host table rest w

/-- `scan`. -/
def scan (self : Nat) (w : World) : Option World := do
  let v ← w.vols self
  if v.pidx = 0 ∧ v.host.driverClass = dclassHdd ∧ v.host.driverType = dtypeDev ∧ v.host.driverMode = dmodeBlock ∧
      sys.bootMemory then
    let (tmo, w) ← readBoot (blockIo sys up self v false 0 1) 3 w
    if tmo ≠ 0 then scanTable sys self v.host (sys.partition w.asks) [0, 1, 2, 3] w else some w
  else some w

/-- The scan after a write to block 0. -/
def rescan (self : Nat) (write : Bool) (block : Nat) (w : World) : Option World :=
  if write ∧ block = 0 then scan sys up self w else some w

/-- `vol_block_io`. -/
def volBlockIo (self : Nat) (write : Bool) (block count : Nat) (w : World) : Option (Nat × World) := do
  let v ← w.vols self
  if write ∧ v.flags &&& vfReadonly ≠ 0 then some (0, w)
  else
    let (r, w) ← blockIo sys up self v write block count w
    let w ← rescan sys up self write block w
    some (r, w)

/-- The loops of `vol_file_io` without cache and parent, from `block` on: the bytes transferred. -/
def ncLoop (host : Host) (write : Bool) (nblocks last : Nat) : Nat → Nat → Nat → World → Option (Nat × World)
  | 0, block, r, w => if block < last then none else some (r, w)
  | rounds + 1, block, r, w =>
    if block < last then
      let (n, w) := w.ask sys ⟨.host, write, block, 0, nblocks, nblocks * host.blockSize⟩
      ncLoop host write nblocks last rounds ((block + n) % 2 ^ 32) ((r + n * host.blockSize) % 2 ^ 32) w
    else some (r, w)

/-- `voffset` of `vol_calc_offset`: the product has 32 bits. -/
def Volume.voffset (v : Volume) (offset : Nat) : Nat :=
  (offset + v.offset * v.host.blockSize % 2 ^ 32) % 2 ^ 64

/-- `vol_file_io`. -/
def volFileIo (write : Bool) (self offset sz : Nat) (w : World) : Option (Nat × World) := do
  let v ← w.vols self
  if write ∧ v.flags &&& vfReadonly ≠ 0 then some (0, w)
  else
    let bs := v.host.blockSize
    let nblocks := blocksOf bs sz
    let fblock := v.voffset offset / bs
    let fboffset := v.voffset offset % bs
    if v.flags &&& vfNocache = 0 then
      if sys.cacheReady w.asks self then
        let (r, w) ← cacheIo sys self v.host write fblock fboffset nblocks sz w
        let w ← rescan sys up self (r ≠ 0 && write) fblock w
        some (r, w)
      else some (0, w)
    else if v.pvd ≠ 0 then up.fileIo write v.pvd (v.voffset offset) sz w
    else if sys.ncBuffer nblocks then
      let (_, w) ← ncLoop sys v.host false nblocks (fblock + nblocks) sys.rounds (fblock % 2 ^ 32) 0 w
      if write then ncLoop sys v.host true nblocks (fblock + nblocks) sys.rounds 0 0 w else some (sz, w)
    else some (0, w)

/-- `vol_serial_io`. -/
def volSerialIo (write : Bool) (self sz : Nat) (w : World) : Option (Nat × World) := do
  let v ← w.vols self
  let (r, w) ← volFileIo sys up write self v.currentOffset sz w
  let v ← w.vols self
  some (r, w.put self { v with currentOffset := (v.currentOffset + r) % 2 ^ 64 })

/-- The `switch` of `driver_ioctl`; `none` inside is a command it does not know. The count of a block transfer is read after
`result`, which is the same word, was set. -/
def volCommand (cmd self : Nat) (dio : DriverIo) (w : World) : Option (Option Nat × World) :=
  if cmd = dioctlFseek then do
    let v ← w.vols self
    some (some dio.result, w.put self { v with currentOffset := dio.offset })
  else if cmd = dioctlSread then (volSerialIo sys up false self dio.size w).map (Prod.map some id)
  else if cmd = dioctlSwrite then (volSerialIo sys up true self dio.size w).map (Prod.map some id)
  else if cmd = dioctlBread then (volBlockIo sys up self false dio.offset dio.result w).map (Prod.map some id)
  else if cmd = dioctlBwrite then (volBlockIo sys up self true dio.offset dio.result w).map (Prod.map some id)
  else if cmd = dioctlFread then (volFileIo sys up false self dio.offset dio.size w).map (Prod.map some id)
  else if cmd = dioctlFwrite then (volFileIo sys up true self dio.offset dio.size w).map (Prod.map some id)
  else some (none, w)

/-- `driver_ioctl`. -/
def volIoctl (cmd self : Nat) (dio : DriverIo) (w : World) : Option (DriverIo × World) := do
  let v ← w.vols self
  let dio := { dio.setResult 0 with error := 0 }
  if v.ioEnable then
    match ← volCommand sys up cmd self dio w with
    | (some r, w) => some (dio.setResult r, w)
    | (none, w) => some ({ dio with error := dioctlErrcmd }, w)
  else some (dio, w)

end Functions

/-- The volumes, with at most `n` of them on the stack. -/
def volumes (sys : Services) : Nat → Parent
  | 0 => ⟨fun _ _ _ _ => none, fun _ _ _ _ _ => none⟩
  | n + 1 => ⟨volIoctl sys (volumes sys n), volFileIo sys (volumes sys n)⟩

end PreTeO.Bdev.Vol
