import PreTeO.Bdev.Volume
import PreTeO.Common.MemCpy
import PreTeO.Lib.Bytes

/-!
# Bytes of an uncached volume (`core/driver/bdev/volume.cpp`)

A volume without cache and without parent reads and writes bytes by whole blocks: it reads the blocks of a request into a
buffer of its own, and copies the bytes from there to the caller; or it copies the caller's bytes there and writes blocks.
A device transfers as many of the blocks of a call as it likes, but at least one.
-/

namespace PreTeO.Bdev.Bytes
set_option autoImplicit false

open Lib (Mem Byte)
open Lib.Mem (Apart)
open Common (memCpy memCpy_copied Copied)
open Vol (Volume blocksOf vfReadonly vfNocache vfHostctrl dclassHdd dmodeBlock)

/-- How many blocks a device transfers, in its `calls`th call. -/
structure Device where
  transfers : (calls : Nat) → (write : Bool) → (lba count : Nat) → Nat
  some_blocks : ∀ calls write lba count, 0 < count → 0 < transfers calls write lba count
  at_most : ∀ calls write lba count, transfers calls write lba count ≤ count

/-- Memory, the bytes on the device, and the number of calls it got. -/
structure Io where
  mem : Mem
  disk : Mem
  calls : Nat

/-- `m_p_ncbuf` and `m_ncp_count`. -/
structure NcBuffer where
  ptr : Nat
  pages : Nat
  held : pages ≠ 0 → ptr ≠ 0

/-- `alloc_nc_io_buffer`, with the addresses that the page allocator gives: the buffer that is kept, and the result. -/
def allocNcIoBuffer (pma : Nat → Nat) (pgsz bs nblocks : Nat) (b : NcBuffer) : NcBuffer × Nat :=
  let nbytes := nblocks * bs % 2 ^ 32
  let npages := blocksOf pgsz nbytes
  if b.pages < npages then
    if granted : pma npages ≠ 0 then (⟨pma npages, npages, fun _ => granted⟩, pma npages)
    else (⟨0, 0, fun some_pages => absurd rfl some_pages⟩, 0)
  else (b, b.ptr)

section Loops
variable (dev : Device) (bs nblocks last : Nat)

/-- `DRIVER_HOST->read(block, nblocks, ptr, &_nbio)`. -/
def hostRead (block ptr : Nat) (s : Io) : Nat × Io :=
  let n := dev.transfers s.calls false block nblocks
  (n, { s with mem := s.mem.blit ptr (n * bs) (fun i => s.disk (block * bs + i)), calls := s.calls + 1 })

/-- `DRIVER_HOST->write(block, nblocks, ptr, &_nbio)`. -/
def hostWrite (block ptr : Nat) (s : Io) : Nat × Io :=
  let n := dev.transfers s.calls true block nblocks
  (n, { s with disk := s.disk.blit (block * bs) (n * bs) (fun i => s.mem (ptr + i)), calls := s.calls + 1 })

/-- The loop that reads, in so many rounds at most: `ptr` behind it. A block number has 32 bits. -/
def readLoop : Nat → Nat → Nat → Io → Option (Nat × Io)
  | 0, block, ptr, s => if block < last then none else some (ptr, s)
  | rounds + 1, block, ptr, s =>
    if block < last then
      let (n, s) := hostRead dev bs nblocks block ptr s
      readLoop rounds ((block + n) % 2 ^ 32) (ptr + n * bs % 2 ^ 32) s
    else some (ptr, s)

/-- The loop that writes: the number of bytes, of 32 bits. -/
def writeLoop : Nat → Nat → Nat → Nat → Io → Option (Nat × Io)
  | 0, block, _, r, s => if block < last then none else some (r, s)
  | rounds + 1, block, ptr, r, s =>
    if block < last then
      let (n, s) := hostWrite dev bs nblocks block ptr s
      writeLoop rounds ((block + n) % 2 ^ 32) (ptr + n * bs % 2 ^ 32) ((r + n * bs) % 2 ^ 32) s
    else some (r, s)

end Loops

/-- `vol_file_io` of a volume without cache and parent, with so many rounds for a loop. There is no result if a loop needs
more. -/
def volFileIo (dev : Device) (pma : Nat → Nat) (pgsz : Nat) (v : Volume) (rounds : Nat) (write : Bool)
    (offset pBuffer sz : Nat) (b : NcBuffer) (s : Io) : Option (Nat × Io) :=
  if write ∧ v.flags &&& vfReadonly ≠ 0 then some (0, s)
  else
    let bs := v.host.blockSize
    let nblocks := blocksOf bs sz
    let fblock := v.voffset offset / bs
    let fboffset := v.voffset offset % bs
    let last := (fblock + nblocks) % 2 ^ 64
    let buf := (allocNcIoBuffer pma pgsz bs nblocks b).2
    if buf = 0 then some (0, s)
    else
      (readLoop dev bs nblocks last rounds (fblock % 2 ^ 32) buf s).bind fun (ptr, s) =>
        if write then
          writeLoop dev bs nblocks last rounds 0 ptr 0 { s with mem := memCpy s.mem (buf + fboffset) pBuffer sz }
        else some (sz, { s with mem := memCpy s.mem pBuffer (buf + fboffset) sz })

/-! ## What the caller is promised -/

/-- The first byte of a request on the device. -/
def address (v : Volume) (offset : Nat) : Nat := v.offset * v.host.blockSize + offset

/-- A request is done, and all its bytes are. -/
def Done (v : Volume) (write : Bool) (offset pBuffer sz : Nat) (s : Io) (r : Nat) (s' : Io) : Prop :=
  r = sz ∧
    if write then
      ∀ i, s'.disk i =
        if address v offset ≤ i ∧ i < address v offset + sz then s.mem (pBuffer + (i - address v offset)) else s.disk i
    else (∀ j, j < sz → s'.mem (pBuffer + j) = s.disk (address v offset + j)) ∧ s'.disk = s.disk

/-- The page allocator has memory, and none of it is in the caller's buffer, nor is the buffer that the volume has. -/
structure Memory (pma : Nat → Nat) (pgsz pBuffer sz : Nat) (b : NcBuffer) : Prop where
  positive : 0 < pgsz
  granted : ∀ n, n ≠ 0 → pma n ≠ 0
  apart : ∀ n, Apart pBuffer sz (pma n) (n * pgsz)
  kept : Apart pBuffer sz b.ptr (b.pages * pgsz)

/-- The request is done as by a device that is accessed byte by byte, on every device and with every content of memory. -/
def ByteIo (v : Volume) (write : Bool) (offset sz : Nat) : Prop :=
  ∀ (dev : Device) (pma : Nat → Nat) (pgsz pBuffer : Nat) (b : NcBuffer) (s : Io), Memory pma pgsz pBuffer sz b →
    ∃ rounds r s', volFileIo dev pma pgsz v rounds write offset pBuffer sz b s = some (r, s') ∧
      Done v write offset pBuffer sz s r s'

/-- The blocks of a request. -/
def nblocks (v : Volume) (sz : Nat) : Nat := blocksOf v.host.blockSize sz

/-- The block with its first byte. -/
def fblock (v : Volume) (offset : Nat) : Nat := v.voffset offset / v.host.blockSize

/-- The bytes before the first in this block. -/
def fboffset (v : Volume) (offset : Nat) : Nat := v.voffset offset % v.host.blockSize

/-- A read of `sz` bytes is done: the address is not cut off, the block numbers do not pass 32 bits even if the last call
transfers as many blocks as the request has, the last byte is in one of the blocks that are read, and the number of their
bytes does not look like zero. -/
structure ReadOk (v : Volume) (offset sz : Nat) : Prop where
  base : v.offset * v.host.blockSize < 2 ^ 32
  whole : address v offset < 2 ^ 64
  blocks : fblock v offset + 2 * nblocks v sz ≤ 2 ^ 32
  inside : fboffset v offset + sz ≤ nblocks v sz * v.host.blockSize
  bytes : nblocks v sz * v.host.blockSize % 2 ^ 32 ≠ 0

/-- The requests that are done. -/
def Served (v : Volume) (write : Bool) (offset sz : Nat) : Prop :=
  if write then sz = 0 ∧ (v.flags &&& vfReadonly ≠ 0 ∨ fblock v offset = 0)
  else if sz = 0 then fblock v offset < 2 ^ 32
  else ReadOk v offset sz

/-! ## Counting blocks -/

section Count
variable {v : Volume} {offset sz : Nat}

theorem blocksOf_zero (bs : Nat) : blocksOf bs 0 = 0 := by
  simp [blocksOf]

theorem blocksOf_pos {bs size : Nat} (some_bytes : 0 < size) : 0 < blocksOf bs size := by
  rw [blocksOf]
  by_cases whole : size % bs = 0
  · have division := Nat.div_add_mod size bs
    rw [whole, Nat.add_zero] at division
    have quotient : 0 < size / bs := by
      rcases Nat.eq_zero_or_pos (size / bs) with zero | more
      · rw [zero, Nat.mul_zero] at division
        omega
      · exact more
    omega
  · rw [if_pos whole]
    exact Nat.succ_pos _

theorem blocksOf_covers {bs : Nat} (positive : 0 < bs) (size : Nat) : size ≤ blocksOf bs size * bs := by
  have division := Nat.div_add_mod' size bs
  have small := Nat.mod_lt size positive
  rw [blocksOf, Nat.add_mul]
  by_cases whole : size % bs = 0
  · omega
  · rw [if_pos whole]
    omega

/-- The blocks but the last have fewer bytes. -/
theorem blocksOf_before {bs size k : Nat} (less : k < blocksOf bs size) : k * bs < size := by
  have division := Nat.div_add_mod' size bs
  rw [blocksOf] at less
  by_cases whole : size % bs = 0
  · rw [if_neg (fun ne => ne whole), Nat.add_zero] at less
    have positive : 0 < bs := Nat.pos_of_ne_zero fun zero => by rw [zero, Nat.div_zero] at less; omega
    exact (Nat.mul_lt_mul_of_pos_right less positive).trans_le (Nat.div_mul_le_self size bs)
  · rw [if_pos whole] at less
    have le := Nat.mul_le_mul_right bs (Nat.le_of_lt_succ less)
    omega

theorem blocksOf_le {bs size : Nat} (positive : 0 < bs) : blocksOf bs size ≤ size := by
  by_contra more
  have less : size * bs < size := blocksOf_before (Nat.lt_of_not_le more)
  exact absurd less (Nat.not_lt.2 (Nat.le_mul_of_pos_right size positive))

theorem voffset_le : v.voffset offset ≤ address v offset := by
  rw [Volume.voffset, address]
  have outer := Nat.mod_le (offset + v.offset * v.host.blockSize % 2 ^ 32) (2 ^ 64)
  have inner := Nat.mod_le (v.offset * v.host.blockSize) (2 ^ 32)
  omega

theorem voffset_lt : v.voffset offset < 2 ^ 64 := Nat.mod_lt _ (by decide)

/-- The address of a request is not cut off. -/
theorem voffset_eq_iff :
    v.voffset offset = address v offset ↔ v.offset * v.host.blockSize < 2 ^ 32 ∧ address v offset < 2 ^ 64 := by
  have below : v.voffset offset < 2 ^ 64 := voffset_lt
  have inner := Nat.mod_le (v.offset * v.host.blockSize) (2 ^ 32)
  constructor
  · intro eq
    refine ⟨?_, eq ▸ below⟩
    have outer := Nat.mod_le (offset + v.offset * v.host.blockSize % 2 ^ 32) (2 ^ 64)
    have same : v.offset * v.host.blockSize % 2 ^ 32 = v.offset * v.host.blockSize := by
      rw [Volume.voffset, address] at eq
      omega
    rw [← same]
    exact Nat.mod_lt _ (by decide)
  · rintro ⟨small, whole⟩
    rw [address] at whole
    rw [Volume.voffset, address, Nat.mod_eq_of_lt small, Nat.mod_eq_of_lt (by omega), Nat.add_comm]

theorem fblock_mul : fblock v offset * v.host.blockSize + fboffset v offset = v.voffset offset := Nat.div_add_mod' _ _

theorem fboffset_lt : fboffset v offset < v.host.blockSize := Nat.mod_lt _ v.host.positive

end Count

/-! ## The function -/

section Function
variable {dev : Device} {pma : Nat → Nat} {pgsz : Nat} {v : Volume} {rounds : Nat} {write : Bool} {offset pBuffer sz : Nat}
  {b : NcBuffer} {s : Io}

/-- The block behind the last one of a request. -/
def lastBlock (v : Volume) (offset sz : Nat) : Nat := (fblock v offset + nblocks v sz) % 2 ^ 64

/-- The buffer of a request. -/
def bounce (pma : Nat → Nat) (pgsz : Nat) (v : Volume) (sz : Nat) (b : NcBuffer) : Nat :=
  (allocNcIoBuffer pma pgsz v.host.blockSize (nblocks v sz) b).2

theorem volFileIo_noBuffer (enabled : ¬ (write = true ∧ v.flags &&& vfReadonly ≠ 0)) (none : bounce pma pgsz v sz b = 0) :
    volFileIo dev pma pgsz v rounds write offset pBuffer sz b s = some (0, s) := by
  rw [volFileIo, if_neg enabled]
  exact if_pos none

theorem volFileIo_read (buffer : bounce pma pgsz v sz b ≠ 0) :
    volFileIo dev pma pgsz v rounds false offset pBuffer sz b s =
      (readLoop dev v.host.blockSize (nblocks v sz) (lastBlock v offset sz) rounds (fblock v offset % 2 ^ 32)
        (bounce pma pgsz v sz b) s).map
        fun out => (sz, { out.2 with mem := memCpy out.2.mem pBuffer (bounce pma pgsz v sz b + fboffset v offset) sz }) := by
  rw [volFileIo, if_neg (fun both => Bool.noConfusion both.1)]
  refine (if_neg buffer).trans ?_
  exact Option.map_eq_bind.symm

theorem volFileIo_write (enabled : v.flags &&& vfReadonly = 0) (buffer : bounce pma pgsz v sz b ≠ 0) :
    volFileIo dev pma pgsz v rounds true offset pBuffer sz b s =
      (readLoop dev v.host.blockSize (nblocks v sz) (lastBlock v offset sz) rounds (fblock v offset % 2 ^ 32)
        (bounce pma pgsz v sz b) s).bind
        fun out => writeLoop dev v.host.blockSize (nblocks v sz) (lastBlock v offset sz) rounds 0 out.1 0
          { out.2 with mem := memCpy out.2.mem (bounce pma pgsz v sz b + fboffset v offset) pBuffer sz } := by
  rw [volFileIo, if_neg (fun both => both.2 enabled)]
  exact if_neg buffer

/-- There is a buffer for a number of bytes that does not look like zero. -/
theorem Memory.bounce_ne_zero (memory : Memory pma pgsz pBuffer sz b)
    (bytes : nblocks v sz * v.host.blockSize % 2 ^ 32 ≠ 0) : bounce pma pgsz v sz b ≠ 0 := by
  have pages : 0 < blocksOf pgsz _ := blocksOf_pos (Nat.pos_of_ne_zero bytes)
  have granted := memory.granted _ pages.ne'
  simp only [bounce, allocNcIoBuffer]
  split_ifs with more
  · exact granted
  · exact b.held (by omega)

end Function

/-! ## A read that is done -/

section Reading
variable {bs nb first : Nat}

/-- From `k` blocks on, the loop reads the rest, in however many calls. -/
theorem readLoop_reads (dev : Device) (buf : Nat) (blocks : first + 2 * nb ≤ 2 ^ 32)
    (bytes : ∀ k, k < nb → k * bs < 2 ^ 32) (k ptr : Nat) (s : Io)
    (here : k < nb → ptr = buf + k * bs) (got : ∀ i, i < nb * bs → i < k * bs → s.mem (buf + i) = s.disk (first * bs + i)) :
    ∃ rounds ptr' s', readLoop dev bs nb (first + nb) rounds (first + k) ptr s = some (ptr', s') ∧ s'.disk = s.disk ∧
      ∀ i, i < nb * bs → s'.mem (buf + i) = s.disk (first * bs + i) := by
  induction hd : nb - k using Nat.strong_induction_on generalizing k ptr s with
  | _ d ih =>
    by_cases more : k < nb
    · have n_pos := dev.some_blocks s.calls false (first + k) nb (by omega)
      have n_le := dev.at_most s.calls false (first + k) nb
      obtain ⟨n, hn⟩ : ∃ n, dev.transfers s.calls false (first + k) nb = n := ⟨_, rfl⟩
      rw [hn] at n_pos n_le
      have start := here more
      have product : (k + n) * bs = k * bs + n * bs := Nat.add_mul k n bs
      have block : (first + k) * bs = first * bs + k * bs := Nat.add_mul first k bs
      have rest := ih (nb - (k + n)) (by omega) (k + n) (ptr + n * bs % 2 ^ 32) (hostRead dev bs nb (first + k) ptr s).2
        (by
          intro still
          have less := bytes n (by omega)
          rw [Nat.mod_eq_of_lt less]
          omega)
        (by
          intro i inside read
          rw [hostRead, hn]
          show Mem.blit s.mem ptr (n * bs) (fun i => s.disk ((first + k) * bs + i)) (buf + i) = s.disk (first * bs + i)
          by_cases old : i < k * bs
          · rw [Mem.blit_out (by omega)]
            exact got i inside old
          · rw [Mem.blit_in (by omega) (by omega)]
            congr 1
            omega) rfl
      obtain ⟨rounds, ptr', s', run, disk, read⟩ := rest
      refine ⟨rounds + 1, ptr', s', ?_, disk, read⟩
      have next : (first + k + n) % 2 ^ 32 = first + (k + n) := by
        rw [Nat.mod_eq_of_lt (by omega), Nat.add_assoc]
      rw [readLoop, if_pos (by omega)]
      simp only [hostRead, hn] at run ⊢
      rw [next]
      exact run
    · refine ⟨0, ptr, s, ?_, rfl, fun i less => got i less ?_⟩
      · rw [readLoop, if_neg (by omega)]
      · exact less.trans_le (Nat.mul_le_mul_right bs (by omega))

end Reading

/-- The bytes behind a copy. -/
theorem memCpy_in (m : Mem) (dst src : Nat) {sz k : Nat} (less : k < sz) : memCpy m dst src sz (dst + k) = m (src + k) := by
  rw [(memCpy_copied m dst src sz).at, if_pos (by omega)]
  congr 1
  omega

theorem memCpy_out (m : Mem) (dst src : Nat) {sz i : Nat} (outside : i < dst ∨ dst + sz ≤ i) :
    memCpy m dst src sz i = m i := by
  rw [(memCpy_copied m dst src sz).at, if_neg (by omega)]

section Promise
variable {v : Volume} {offset sz : Nat}

theorem fblock_lt : fblock v offset < 2 ^ 64 := Nat.lt_of_le_of_lt (Nat.div_le_self _ _) voffset_lt

theorem ReadOk.byteIo (ok : ReadOk v offset sz) (some_bytes : 0 < sz) (small : sz < 2 ^ 32) : ByteIo v false offset sz := by
  intro dev pma pgsz pBuffer b s memory
  have buffer := memory.bounce_ne_zero (v := v) ok.bytes
  have blocks := ok.blocks
  have nblocks_pos : 0 < nblocks v sz := blocksOf_pos some_bytes
  have bytes (k : Nat) (less : k < nblocks v sz) : k * v.host.blockSize < 2 ^ 32 :=
    (blocksOf_before less).trans small
  obtain ⟨rounds, ptr, s', run, disk, read⟩ := readLoop_reads dev (bounce pma pgsz v sz b) blocks bytes 0
    (bounce pma pgsz v sz b) s (fun _ => by omega) (fun i _ none => by omega)
  have last : lastBlock v offset sz = fblock v offset + nblocks v sz := Nat.mod_eq_of_lt (by omega)
  have first : fblock v offset % 2 ^ 32 = fblock v offset + 0 := Nat.mod_eq_of_lt (by omega)
  refine ⟨rounds, sz, { s' with mem := memCpy s'.mem pBuffer (bounce pma pgsz v sz b + fboffset v offset) sz }, ?_, rfl, ?_⟩
  · rw [volFileIo_read buffer, last, first, run]
    rfl
  · rw [if_neg Bool.false_ne_true]
    refine ⟨fun j less => ?_, disk⟩
    have inside := ok.inside
    have start : fblock v offset * v.host.blockSize + fboffset v offset = address v offset :=
      fblock_mul.trans (voffset_eq_iff.2 ⟨ok.base, ok.whole⟩)
    show memCpy s'.mem pBuffer (bounce pma pgsz v sz b + fboffset v offset) sz (pBuffer + j) = s.disk (address v offset + j)
    rw [memCpy_in _ _ _ less, Nat.add_assoc, read _ (by omega), ← start, Nat.add_assoc]

end Promise

/-! ## Loops without an end -/

section Endless
variable {dev : Device} {bs nb last : Nat}

/-- A block number that never gets to the last block. -/
def Stuck (dev : Device) (write : Bool) (nb last : Nat) (Reached : Nat → Prop) : Prop :=
  ∀ block, Reached block → block < last ∧ ∀ calls, Reached ((block + dev.transfers calls write block nb) % 2 ^ 32)

theorem readLoop_none {Reached : Nat → Prop} (stuck : Stuck dev false nb last Reached) (rounds : Nat) {block : Nat}
    (reached : Reached block) (ptr : Nat) (s : Io) : readLoop dev bs nb last rounds block ptr s = none := by
  induction rounds generalizing block ptr s with
  | zero => exact if_pos (stuck block reached).1
  | succ rounds ih =>
    rw [readLoop, if_pos (stuck block reached).1]
    exact ih ((stuck block reached).2 s.calls) _ _

theorem writeLoop_none {Reached : Nat → Prop} (stuck : Stuck dev true nb last Reached) (rounds : Nat) {block : Nat}
    (reached : Reached block) (ptr r : Nat) (s : Io) : writeLoop dev bs nb last rounds block ptr r s = none := by
  induction rounds generalizing block ptr r s with
  | zero => exact if_pos (stuck block reached).1
  | succ rounds ih =>
    rw [writeLoop, if_pos (stuck block reached).1]
    exact ih ((stuck block reached).2 s.calls) _ _ _

/-- A call for no blocks gets no further. -/
theorem stuck_empty (dev : Device) (write : Bool) (last : Nat) : Stuck dev write 0 last (· < last) := by
  intro block below
  refine ⟨below, fun calls => ?_⟩
  have none := dev.at_most calls write block 0
  exact (Nat.mod_le _ _).trans_lt (by omega)

end Endless

/-- The device that transfers one block in a call. -/
def oneByOne : Device where
  transfers _ _ _ count := min count 1
  some_blocks _ _ _ _ positive := by omega
  at_most _ _ _ _ := Nat.min_le_left _ _

/-! ## Requests for no bytes -/

section Empty
variable {v : Volume} {offset : Nat}

theorem nblocks_zero (v : Volume) : nblocks v 0 = 0 := blocksOf_zero _

theorem lastBlock_zero : lastBlock v offset 0 = fblock v offset := by
  rw [lastBlock, nblocks_zero, Nat.add_zero, Nat.mod_eq_of_lt fblock_lt]

/-- A buffer that the volume has from an earlier request. -/
def onePage : NcBuffer := ⟨1, 1, fun _ => Nat.one_ne_zero⟩

theorem onePage_memory : Memory (fun _ => 1) 1 0 0 onePage where
  positive := Nat.one_pos
  granted _ _ := Nat.one_ne_zero
  apart _ := .inl (Nat.zero_le _)
  kept := .inl (Nat.zero_le _)

theorem onePage_bounce (v : Volume) : bounce (fun _ => 1) 1 v 0 onePage ≠ 0 := by
  rw [bounce, nblocks_zero, allocNcIoBuffer, Nat.zero_mul, Nat.zero_mod, blocksOf_zero]
  exact Nat.one_ne_zero

theorem empty_read_iff : ByteIo v false offset 0 ↔ fblock v offset < 2 ^ 32 := by
  constructor
  · intro served
    by_contra above
    obtain ⟨rounds, r, s', run, -⟩ := served oneByOne _ _ _ onePage ⟨fun _ => 0, fun _ => 0, 0⟩ onePage_memory
    have small := Nat.mod_lt (fblock v offset) (show 0 < 2 ^ 32 by decide)
    rw [volFileIo_read (onePage_bounce v), nblocks_zero, lastBlock_zero,
      readLoop_none (stuck_empty oneByOne false _) rounds (show _ < _ by omega)] at run
    cases run
  · intro below dev pma pgsz pBuffer b s memory
    by_cases buffer : bounce pma pgsz v 0 b = 0
    · refine ⟨0, 0, s, volFileIo_noBuffer (fun both => Bool.noConfusion both.1) buffer, rfl, ?_⟩
      rw [if_neg Bool.false_ne_true]
      exact ⟨fun j less => absurd less (Nat.not_lt_zero j), rfl⟩
    · refine ⟨0, 0, { s with mem := memCpy s.mem pBuffer (bounce pma pgsz v 0 b + fboffset v offset) 0 }, ?_, rfl, ?_⟩
      · rw [volFileIo_read buffer, lastBlock_zero, Nat.mod_eq_of_lt below, readLoop, if_neg (lt_irrefl _)]
        rfl
      · rw [if_neg Bool.false_ne_true]
        exact ⟨fun j less => absurd less (Nat.not_lt_zero j), rfl⟩

/-- Nothing is written, and that is what is asked for. -/
theorem done_nothing (v : Volume) (offset pBuffer : Nat) (s : Io) (m : Mem) :
    Done v true offset pBuffer 0 s 0 { s with mem := m } := by
  refine ⟨rfl, ?_⟩
  rw [if_pos rfl]
  intro i
  rw [if_neg (by omega)]

theorem readonly_write (readonly : v.flags &&& vfReadonly ≠ 0) (dev : Device) (pma : Nat → Nat) (pgsz rounds : Nat)
    (pBuffer sz : Nat) (b : NcBuffer) (s : Io) :
    volFileIo dev pma pgsz v rounds true offset pBuffer sz b s = some (0, s) := by
  rw [volFileIo, if_pos ⟨rfl, readonly⟩]

theorem empty_write_iff : ByteIo v true offset 0 ↔ v.flags &&& vfReadonly ≠ 0 ∨ fblock v offset = 0 := by
  by_cases readonly : v.flags &&& vfReadonly ≠ 0
  · refine ⟨fun _ => .inl readonly, fun _ dev pma pgsz pBuffer b s _ => ?_⟩
    exact ⟨0, 0, s, readonly_write readonly dev pma pgsz 0 pBuffer 0 b s, done_nothing v offset pBuffer s s.mem⟩
  have enabled : v.flags &&& vfReadonly = 0 := not_not.1 readonly
  constructor
  · intro served
    right
    by_contra some_block
    obtain ⟨rounds, r, s', run, -⟩ := served oneByOne _ _ _ onePage ⟨fun _ => 0, fun _ => 0, 0⟩ onePage_memory
    rw [volFileIo_write enabled (onePage_bounce v)] at run
    obtain ⟨out, -, written⟩ := Option.bind_eq_some_iff.1 run
    rw [nblocks_zero, lastBlock_zero,
      writeLoop_none (stuck_empty oneByOne true _) rounds (Nat.pos_of_ne_zero some_block)] at written
    cases written
  · intro cases dev pma pgsz pBuffer b s memory
    have first : fblock v offset = 0 := cases.resolve_left readonly
    by_cases buffer : bounce pma pgsz v 0 b = 0
    · exact ⟨0, 0, s, volFileIo_noBuffer (fun both => readonly both.2) buffer, done_nothing v offset pBuffer s s.mem⟩
    · refine ⟨0, 0, _, ?_, done_nothing v offset pBuffer s
        (memCpy s.mem (bounce pma pgsz v 0 b + fboffset v offset) pBuffer 0)⟩
      rw [volFileIo_write enabled buffer, lastBlock_zero, first]
      rfl

end Empty

/-! ## Requests for bytes -/

/-- What a loop did that read `n` blocks, one by one. -/
structure ReadOne (bs block last ptr n : Nat) (s s' : Io) : Prop where
  disk : s'.disk = s.disk
  outside : ∀ a, a < ptr ∨ ptr + n * bs ≤ a → s'.mem a = s.mem a
  first : 0 < n → ∀ o, o < bs → s'.mem (ptr + o) = s.disk (block * bs + o)
  count : last < 2 ^ 32 → block ≤ last → n = last - block

section Experiments
variable {bs nb last : Nat}

theorem ReadOne.none {block ptr : Nat} {s : Io} (reached : ¬ block < last) : ReadOne bs block last ptr 0 s s where
  disk := rfl
  outside _ _ := rfl
  first positive := absurd positive (lt_irrefl 0)
  count _ le := by omega

theorem readOne (small : bs < 2 ^ 16) (some_blocks : 0 < nb) {rounds block ptr : Nat} {s : Io}
    {out : Nat × Io} (run : readLoop oneByOne bs nb last rounds block ptr s = some out) :
    ∃ n, out.1 = ptr + n * bs ∧ ReadOne bs block last ptr n s out.2 := by
  induction rounds generalizing block ptr s with
  | zero =>
    rw [readLoop] at run
    split_ifs at run with more
    cases run
    exact ⟨0, by omega, ReadOne.none more⟩
  | succ rounds ih =>
    rw [readLoop] at run
    split_ifs at run with more
    · have one : min nb 1 = 1 := by omega
      have width : 1 * bs % 2 ^ 32 = bs := by
        rw [Nat.one_mul, Nat.mod_eq_of_lt (by omega)]
      simp only [hostRead, oneByOne, one, width] at run
      obtain ⟨n, pointer, rest⟩ := ih run
      have product : (n + 1) * bs = n * bs + bs := Nat.succ_mul n bs
      refine ⟨n + 1, by omega, rest.disk, ?_, ?_, ?_⟩
      · intro a outside
        rw [rest.outside a (by omega)]
        show Mem.blit s.mem ptr (1 * bs) (fun i => s.disk (block * bs + i)) a = s.mem a
        rw [Mem.blit_out (by omega)]
      · intro _ o less
        rw [rest.outside (ptr + o) (by omega)]
        show Mem.blit s.mem ptr (1 * bs) (fun i => s.disk (block * bs + i)) (ptr + o) = s.disk (block * bs + o)
        rw [Mem.blit_in (by omega) (by omega), Nat.add_sub_cancel_left]
      · intro below le
        have next : (block + 1) % 2 ^ 32 = block + 1 := Nat.mod_eq_of_lt (by omega)
        have count := rest.count below (by omega)
        omega
    · cases run
      exact ⟨0, by omega, ReadOne.none more⟩

/-- A byte on the device that the loop may write has what is in memory behind the buffer. -/
theorem writeLoop_byte {dev : Device} {P : Byte → Prop} {rounds block ptr r d : Nat} {s : Io} {out : Nat × Io}
    (run : writeLoop dev bs nb last rounds block ptr r s = some out) (source : ∀ a, ptr ≤ a → P (s.mem a))
    (byte : P (s.disk d)) : P (out.2.disk d) := by
  induction rounds generalizing block ptr r s with
  | zero =>
    rw [writeLoop] at run
    split_ifs at run
    cases run
    exact byte
  | succ rounds ih =>
    rw [writeLoop] at run
    split_ifs at run
    · refine ih run (fun a above => source a ((Nat.le_add_right _ _).trans above)) ?_
      simp only [Mem.blit]
      split_ifs
      · exact source _ (Nat.le_add_right _ _)
      · exact byte
    · cases run
      exact byte

/-- The first byte on the device is written first. -/
theorem writeLoop_first {dev : Device} {P : Byte → Prop} {rounds ptr r : Nat} {s : Io} {out : Nat × Io} (positive : 0 < bs)
    (some_blocks : 0 < nb) (more : 0 < last) (run : writeLoop dev bs nb last rounds 0 ptr r s = some out)
    (source : ∀ a, ptr ≤ a → P (s.mem a)) : P (out.2.disk 0) := by
  cases rounds with
  | zero =>
    rw [writeLoop, if_pos more] at run
    cases run
  | succ rounds =>
    rw [writeLoop, if_pos more] at run
    refine writeLoop_byte run (fun a above => source a ((Nat.le_add_right _ _).trans above)) ?_
    have width := Nat.mul_pos (dev.some_blocks s.calls true 0 nb some_blocks) positive
    simp only
    rw [Mem.blit_in (by omega) (by omega)]
    exact source _ (Nat.le_add_right _ _)

end Experiments

/-- A volume that had no request yet. -/
def noPages : NcBuffer := ⟨0, 0, fun some_pages => absurd rfl some_pages⟩

/-- Memory for the buffer at `2^33`, the caller's buffer at 0. -/
def farAway (_ : Nat) : Nat := 2 ^ 33

section Needed
variable {v : Volume} {offset sz : Nat}

theorem farAway_memory (small : sz < 2 ^ 32) : Memory farAway 1 0 sz noPages where
  positive := Nat.one_pos
  granted _ _ := by rw [farAway]; decide
  apart _ := .inl (by rw [farAway]; omega)
  kept := .inr (Nat.le_refl 0)

theorem farAway_bounce (v : Volume) (sz : Nat) :
    bounce farAway 1 v sz noPages = 0 ∨
      (nblocks v sz * v.host.blockSize % 2 ^ 32 ≠ 0 ∧ bounce farAway 1 v sz noPages = 2 ^ 33) := by
  by_cases bytes : nblocks v sz * v.host.blockSize % 2 ^ 32 = 0
  · left
    rw [bounce, allocNcIoBuffer, bytes, blocksOf_zero]
    rfl
  · right
    have pages : noPages.pages < blocksOf 1 (nblocks v sz * v.host.blockSize % 2 ^ 32) :=
      blocksOf_pos (Nat.pos_of_ne_zero bytes)
    refine ⟨bytes, ?_⟩
    rw [bounce, allocNcIoBuffer, if_pos pages]
    rfl

/-- A read that is done, on a device with these contents: what the loop left in the buffer. -/
theorem ByteIo.read (served : ByteIo v false offset sz) (some_bytes : 0 < sz) (small : sz < 2 ^ 32) (dev : Device)
    (disk : Mem) :
    nblocks v sz * v.host.blockSize % 2 ^ 32 ≠ 0 ∧
      ∃ rounds ptr s', readLoop dev v.host.blockSize (nblocks v sz) (lastBlock v offset sz) rounds
          (fblock v offset % 2 ^ 32) (2 ^ 33) ⟨fun _ => 0, disk, 0⟩ = some (ptr, s') ∧
        ∀ j, j < sz → s'.mem (2 ^ 33 + fboffset v offset + j) = disk (address v offset + j) := by
  obtain ⟨rounds, r, s', run, count, bytes⟩ := served dev _ _ _ noPages ⟨fun _ => 0, disk, 0⟩ (farAway_memory small)
  rcases farAway_bounce v sz with none | ⟨wide, buffer⟩
  · rw [volFileIo_noBuffer (fun both => Bool.noConfusion both.1) none, Option.some.injEq, Prod.mk.injEq] at run
    omega
  · rw [volFileIo_read (by rw [buffer]; decide), buffer] at run
    obtain ⟨out, loop, eq⟩ := Option.map_eq_some_iff.1 run
    rw [if_neg Bool.false_ne_true] at bytes
    rw [Prod.mk.injEq] at eq
    refine ⟨wide, rounds, out.1, out.2, loop, fun j less => ?_⟩
    have byte := bytes.1 j less
    rw [← eq.2] at byte
    exact (memCpy_in _ _ _ less).symm.trans byte

theorem zero_ne_one_byte : (0 : Byte) ≠ 1 := by decide

theorem ByteIo.address (served : ByteIo v false offset sz) (some_bytes : 0 < sz) (small : sz < 2 ^ 32) :
    fblock v offset < 2 ^ 32 ∧ v.voffset offset = address v offset := by
  obtain ⟨-, rounds, ptr, s', run, bytes⟩ :=
    served.read some_bytes small oneByOne fun i => if i = Bytes.address v offset then 1 else 0
  obtain ⟨n, -, read⟩ := readOne v.host.small (blocksOf_pos some_bytes) run
  have byte := bytes 0 some_bytes
  rw [Nat.add_zero, Nat.add_zero, if_pos rfl] at byte
  have inBlock : fboffset v offset < v.host.blockSize := fboffset_lt
  rcases Nat.eq_zero_or_pos n with zero | positive
  · rw [read.outside _ (by rw [zero]; omega)] at byte
    exact absurd byte zero_ne_one_byte
  · rw [read.first positive _ inBlock] at byte
    have here : fblock v offset % 2 ^ 32 * v.host.blockSize + fboffset v offset = Bytes.address v offset := by
      by_contra elsewhere
      exact zero_ne_one_byte ((if_neg elsewhere).symm.trans byte)
    have whole : fblock v offset * v.host.blockSize + fboffset v offset = v.voffset offset := fblock_mul
    have below : v.voffset offset ≤ Bytes.address v offset := voffset_le
    have cut := Nat.mul_le_mul_right v.host.blockSize (Nat.mod_le (fblock v offset) (2 ^ 32))
    have same : fblock v offset % 2 ^ 32 = fblock v offset :=
      Nat.eq_of_mul_eq_mul_right v.host.positive (by omega)
    exact ⟨same ▸ Nat.mod_lt _ (by decide), by omega⟩

/-- The device that transfers one block in a call, and at the last block as many as bring the number back to 0. -/
def wrapping (last : Nat) : Device where
  transfers _ _ lba count := if lba + 1 = last ∧ lba < 2 ^ 32 then min count (2 ^ 32 - lba) else min count 1
  some_blocks _ _ _ _ positive := by split_ifs <;> omega
  at_most _ _ _ _ := by split_ifs <;> omega

theorem stuck_wrapping {nb last : Nat} (far : 2 ^ 32 < last + nb) :
    Stuck (wrapping last) false nb last fun block => block < last ∧ block < 2 ^ 32 := by
  rintro block ⟨below, small⟩
  refine ⟨below, fun calls => ⟨?_, Nat.mod_lt _ (by decide)⟩⟩
  by_cases atLast : block + 1 = last
  · have n : (wrapping last).transfers calls false block nb = 2 ^ 32 - block := by
      simp only [wrapping, if_pos (And.intro atLast small)]
      omega
    rw [n, Nat.add_sub_cancel' small.le, Nat.mod_self]
    omega
  · have n : (wrapping last).transfers calls false block nb ≤ 1 := by
      simp only [wrapping, if_neg (fun both => atLast (And.left both))]
      omega
    exact (Nat.mod_le _ _).trans_lt (by omega)

theorem lastBlock_eq (first : fblock v offset < 2 ^ 32) (small : sz < 2 ^ 32) :
    lastBlock v offset sz = fblock v offset + nblocks v sz := by
  have few : nblocks v sz ≤ sz := blocksOf_le v.host.positive
  exact Nat.mod_eq_of_lt (by omega)

theorem ByteIo.blocks (served : ByteIo v false offset sz) (some_bytes : 0 < sz) (small : sz < 2 ^ 32) :
    fblock v offset + 2 * nblocks v sz ≤ 2 ^ 32 := by
  by_contra far
  have first := (served.address some_bytes small).1
  have positive : 0 < nblocks v sz := blocksOf_pos some_bytes
  have last := lastBlock_eq first small
  obtain ⟨-, rounds, ptr, s', run, -⟩ := served.read some_bytes small (wrapping (lastBlock v offset sz)) fun _ => 0
  have stuck : Stuck (wrapping (lastBlock v offset sz)) false (nblocks v sz) (lastBlock v offset sz) _ :=
    stuck_wrapping (by omega)
  rw [Nat.mod_eq_of_lt first, readLoop_none stuck rounds ⟨by omega, first⟩] at run
  cases run

theorem ByteIo.inside (served : ByteIo v false offset sz) (some_bytes : 0 < sz) (small : sz < 2 ^ 32) :
    fboffset v offset + sz ≤ nblocks v sz * v.host.blockSize := by
  by_contra crosses
  have first := (served.address some_bytes small).1
  have blocks := served.blocks some_bytes small
  have positive : 0 < nblocks v sz := blocksOf_pos some_bytes
  have last := lastBlock_eq first small
  obtain ⟨-, rounds, ptr, s', run, bytes⟩ := served.read some_bytes small oneByOne fun _ => 1
  obtain ⟨n, -, read⟩ := readOne v.host.small positive run
  have count := read.count (by omega) (by rw [Nat.mod_eq_of_lt first]; omega)
  rw [Nat.mod_eq_of_lt first] at count
  have all : n = nblocks v sz := by omega
  have byte := bytes (sz - 1) (by omega)
  rw [read.outside _ (by rw [all]; omega)] at byte
  exact absurd byte zero_ne_one_byte

/-- The caller's buffer is full of ones, and the memory behind the buffer of the volume of zeros. -/
def onesBelow (a : Nat) : Byte := if a < 2 ^ 33 then 1 else 0

theorem onesBelow_ne (a : Nat) : onesBelow a ≠ 2 := by
  rw [onesBelow]
  split_ifs
  · decide
  · decide

/-- The loop that writes finds nothing of the device's contents behind what was read. -/
theorem source_ne {n : Nat} {s s' : Io} (start : s.mem = onesBelow)
    (read : ReadOne v.host.blockSize (fblock v offset % 2 ^ 32) (lastBlock v offset sz) (2 ^ 33) n s s')
    (small : sz < 2 ^ 32) {a : Nat} (above : 2 ^ 33 + n * v.host.blockSize ≤ a) :
    memCpy s'.mem (2 ^ 33 + fboffset v offset) 0 sz a ≠ 2 := by
  by_cases copied : 2 ^ 33 + fboffset v offset ≤ a ∧ a < 2 ^ 33 + fboffset v offset + sz
  · obtain ⟨k, rfl⟩ := Nat.exists_eq_add_of_le copied.1
    rw [memCpy_in _ _ _ (by omega), read.outside _ (by omega), start]
    exact onesBelow_ne _
  · rw [memCpy_out _ _ _ (by omega), read.outside _ (by omega), start]
    exact onesBelow_ne _

/-- A request at the start of the device writes what is behind the buffer there. -/
theorem source_zero {n : Nat} {s s' : Io} (start : s.mem = onesBelow)
    (read : ReadOne v.host.blockSize (fblock v offset % 2 ^ 32) (lastBlock v offset sz) (2 ^ 33) n s s')
    (small : sz < 2 ^ 32) (atStart : Bytes.address v offset = 0) {a : Nat} (above : 2 ^ 33 + n * v.host.blockSize ≤ a) :
    memCpy s'.mem (2 ^ 33 + fboffset v offset) 0 sz a = 0 := by
  have below : v.voffset offset ≤ Bytes.address v offset := voffset_le
  have zero : v.voffset offset = 0 := by omega
  have first : fblock v offset = 0 := by rw [fblock, zero, Nat.zero_div]
  have inBlock : fboffset v offset = 0 := by rw [fboffset, zero, Nat.zero_mod]
  have few : nblocks v sz ≤ sz := blocksOf_le v.host.positive
  have last : lastBlock v offset sz = nblocks v sz := by
    rw [lastBlock_eq (by omega) small, first, Nat.zero_add]
  have all := read.count (by omega) (by rw [first]; exact Nat.zero_le _)
  rw [first, Nat.zero_mod, Nat.sub_zero, last] at all
  have bytes := blocksOf_covers v.host.positive sz
  have whole : sz ≤ n * v.host.blockSize := by rw [all]; exact bytes
  rw [memCpy_out _ _ _ (by omega), read.outside _ (by omega), start, onesBelow, if_neg (by omega)]

/-- No bytes are ever written as they should be. -/
theorem not_byteIo_write (some_bytes : 0 < sz) (small : sz < 2 ^ 32) : ¬ ByteIo v true offset sz := by
  intro served
  obtain ⟨rounds, r, s', run, count, bytes⟩ :=
    served oneByOne _ _ _ noPages ⟨onesBelow, fun _ => 2, 0⟩ (farAway_memory small)
  rw [if_pos rfl] at bytes
  by_cases readonly : v.flags &&& vfReadonly ≠ 0
  · rw [readonly_write readonly, Option.some.injEq, Prod.mk.injEq] at run
    omega
  rcases farAway_bounce v sz with none | ⟨-, buffer⟩
  · rw [volFileIo_noBuffer (fun both => readonly both.2) none, Option.some.injEq, Prod.mk.injEq] at run
    omega
  rw [volFileIo_write (not_not.1 readonly) (by rw [buffer]; decide), buffer] at run
  obtain ⟨out, loop, written⟩ := Option.bind_eq_some_iff.1 run
  obtain ⟨n, pointer, read⟩ := readOne v.host.small (blocksOf_pos some_bytes) loop
  rw [pointer] at written
  by_cases more : 0 < lastBlock v offset sz
  · have first := bytes 0
    by_cases atStart : Bytes.address v offset = 0
    · have stale : s'.disk 0 = 0 := writeLoop_first (P := fun byte => byte = 0) v.host.positive (blocksOf_pos some_bytes)
        more written fun a above => source_zero rfl read small atStart above
      rw [if_pos (by omega), atStart] at first
      exact zero_ne_one_byte (stale.symm.trans first)
    · have stale : s'.disk 0 ≠ 2 := writeLoop_first (P := fun byte => byte ≠ 2) v.host.positive (blocksOf_pos some_bytes)
        more written fun a above => source_ne rfl read small above
      rw [if_neg (by omega)] at first
      exact stale first
  · have kept : s'.disk = fun _ => 2 := by
      have stop : some (0, { out.2 with mem := memCpy out.2.mem (2 ^ 33 + fboffset v offset) 0 sz }) = some (r, s') := by
        rw [← written]
        cases rounds <;> rw [writeLoop, if_neg more]
      cases stop
      exact read.disk
    have byte := bytes (Bytes.address v offset)
    rw [if_pos (by omega), kept, Nat.sub_self] at byte
    have different : (2 : Byte) ≠ 1 := by decide
    exact different byte

theorem read_iff (some_bytes : 0 < sz) (small : sz < 2 ^ 32) : ByteIo v false offset sz ↔ ReadOk v offset sz := by
  constructor
  · intro served
    have whole := voffset_eq_iff.1 (served.address some_bytes small).2
    exact ⟨whole.1, whole.2, served.blocks some_bytes small, served.inside some_bytes small,
      (served.read some_bytes small oneByOne fun _ => 0).1⟩
  · exact fun ok => ok.byteIo some_bytes small

end Needed

/-- The requests that are done as by a device that is accessed byte by byte. -/
theorem byteIo_iff (v : Volume) (write : Bool) (offset sz : Nat) (small : sz < 2 ^ 32) :
    ByteIo v write offset sz ↔ Served v write offset sz := by
  rcases Nat.eq_zero_or_pos sz with rfl | some_bytes
  · cases write with
    | false => exact empty_read_iff
    | true =>
      rw [empty_write_iff, Served, if_pos rfl]
      exact (and_iff_right rfl).symm
  · cases write with
    | false =>
      rw [read_iff some_bytes small, Served, if_neg Bool.false_ne_true, if_neg some_bytes.ne']
    | true =>
      rw [Served, if_pos rfl]
      exact ⟨fun served => absurd served (not_byteIo_write some_bytes small), fun served => absurd served.1 some_bytes.ne'⟩

/-- An uncached disk with blocks of 512 bytes. -/
def uncachedDisk : Volume where
  flags := vfNocache ||| vfHostctrl
  pidx := 0
  offset := 0
  size := 64
  pvd := 0
  host := ⟨4096, 512, dclassHdd, 0, dmodeBlock, 256, Vol.sector_positive, Vol.sector_small, Vol.ide_sectors⟩
  currentOffset := 0
  ioEnable := true

theorem byteIo_iff_block : ByteIo uncachedDisk false 512 512 ↔ Served uncachedDisk false 512 512 :=
  byteIo_iff uncachedDisk false 512 512 (by decide)

/-- A block that is written goes elsewhere, and the block there is lost. -/
theorem block_not_written :
    ¬ (∀ (v : Volume) (write : Bool) (offset sz : Nat), v.flags &&& vfNocache ≠ 0 → v.flags &&& vfReadonly = 0 → v.pvd = 0 →
      sz < 2 ^ 32 → ByteIo v write offset sz) := fun claim =>
  not_byteIo_write (by decide) (by decide)
    (claim uncachedDisk true 512 512 (by decide) (by decide) rfl (by decide))

end PreTeO.Bdev.Bytes
