import PreTeO.Bdev.CacheSelect

/-!
# Locking a buffer

`cache_buffer_lock` takes the chunk `select_chunk` finds, fills it from the device if it holds
nothing, and returns a buffer that starts at the block asked for. It fails exactly when there is no
chunk for the block or the block lies behind the end of the device.
-/

namespace PreTeO.Bdev
set_option autoImplicit false
open PreTeO.Lib

/-! ## Filling an empty chunk -/

theorem flushChunk_clean {s : Cache} {p : Nat} (clean : ¬ s.Dirty p) : s.flushChunk p = s := by
  rw [Cache.flushChunk, if_neg clean]

/-- The first block of the piece that block `b` belongs to. -/
def Geometry.piece (g : Geometry) (b : Nat) : Nat := b / g.chunkSize * g.chunkSize

theorem Geometry.piece_le (g : Geometry) (b : Nat) : g.piece b ≤ b := Nat.div_mul_le_self b g.chunkSize

theorem Geometry.lt_piece (g : Geometry) (pos : 0 < g.chunkSize) (b : Nat) :
    b < g.piece b + g.chunkSize := by
  have split := Nat.div_add_mod b g.chunkSize
  have small := Nat.mod_lt b pos
  rw [Nat.mul_comm] at split
  simp only [Geometry.piece]
  omega

/-- `read_whole_chunk` has filled the chunk at `p` with the `r` blocks from `start` on. -/
structure Filled (s s' : Cache) (p start r : Nat) : Prop where
  geo : s'.geo = s.geo
  dev : s'.dev = s.dev
  bstart : s'.bstart p = start
  bcount : s'.bcount p = r
  cstate : s'.cstate p = cbstatePresent
  pair : ∀ k, k < r → s'.pair p k = cbstatePresent
  data : ∀ i, i < r * s.geo.blockSize →
    s'.mem (s.geo.getCachePtr p + i) = s.dev.bytes (start * s.geo.blockSize + i)
  outside : ∀ i, i < p ∨ p + s.geo.chunkSz ≤ i → s'.mem i = s.mem i
  log : ∀ a ∈ s'.log, a ∈ s.log ∨ a.Inside s.geo

/-- The header `read_whole_chunk` writes into the chunk at `p`. -/
def Cache.setHead (s : Cache) (p start r : Nat) : Cache :=
  let s := s.setBstart p start
  let s := s.setBcount p r
  s.setCstate p (s.cstate p ||| cbstatePresent)

section SetHead

variable {s : Cache} {p start r : Nat}

theorem setHead_geo : (s.setHead p start r).geo = s.geo := rfl

theorem setHead_dev : (s.setHead p start r).dev = s.dev := rfl

theorem setHead_log : (s.setHead p start r).log = s.log := rfl

theorem setHead_bstart (small : start < 2 ^ 64) : (s.setHead p start r).bstart p = start := by
  simp only [Cache.setHead, Cache.setCstate, Cache.setBcount, setWord_bstart, setBstart_bstart small]

theorem setHead_bcount (small : r < 2 ^ 30) : (s.setHead p start r).bcount p = r := by
  simp only [Cache.setHead, Cache.setCstate, Cache.setBcount]
  rw [setWord_bcount (bcount_lt _ p), setWord_bcount small]

theorem setHead_cstate : (s.setHead p start r).cstate p = s.cstate p ||| cbstatePresent := by
  simp only [Cache.setHead, Cache.setCstate, Cache.setBcount, setWord_cstate]
  rw [Cache.cstate, setBstart_word, Cache.cstate]

theorem setHead_out (i : Nat) (out : i < p ∨ p + 12 ≤ i) : (s.setHead p start r).mem i = s.mem i := by
  simp only [Cache.setHead, Cache.setCstate, Cache.setBcount]
  rw [setWord_out i (by omega), setWord_out i (by omega), setBstart_out i (by omega)]

end SetHead

/-- The state after the callback of `read_whole_chunk`, with the data in the chunk. -/
def Cache.readIn (s : Cache) (p start r : Nat) : Cache :=
  let buffer := s.geo.getCachePtr p
  let mem := s.mem.blit buffer (r * s.geo.blockSize) fun i => s.dev.bytes (start * s.geo.blockSize + i)
  Cache.touch { s with mem := mem } ⟨.data, p, buffer, buffer + r * s.geo.blockSize⟩

theorem readIn_geo (s : Cache) (p start r : Nat) : (s.readIn p start r).geo = s.geo := by
  simp only [Cache.readIn, Cache.touch]

theorem readIn_dev (s : Cache) (p start r : Nat) : (s.readIn p start r).dev = s.dev := by
  simp only [Cache.readIn, Cache.touch]

theorem readIn_data {s : Cache} {p start r i : Nat} (hi : i < r * s.geo.blockSize) :
    (s.readIn p start r).mem (s.geo.getCachePtr p + i) = s.dev.bytes (start * s.geo.blockSize + i) := by
  simp only [Cache.readIn, Cache.touch]
  rw [Mem.blit_in (by omega) (by omega), Nat.add_sub_cancel_left]

theorem readIn_out {s : Cache} {p start r : Nat} (bound : r ≤ s.geo.chunkSize) (i : Nat)
    (out : i < p + s.geo.hdrSize ∨ p + s.geo.chunkSz ≤ i) : (s.readIn p start r).mem i = s.mem i := by
  have area : r * s.geo.blockSize ≤ s.geo.chunkSize * s.geo.blockSize := Nat.mul_le_mul_right _ bound
  have size := s.geo.chunkSz_eq
  simp only [Cache.readIn, Cache.touch]
  apply Mem.blit_out
  simp only [Geometry.getCachePtr]
  omega

theorem readWholeChunk_clean {s : Cache} {p b r : Nat} (clean : ¬ s.Dirty p)
    (transfer : s.dev.transfer (s.geo.piece b) s.geo.chunkSize = r) (some : r ≠ 0) :
    s.readWholeChunk p b = (r, ((s.readIn p (s.geo.piece b) r).setHead p (s.geo.piece b) r).setBstate p
      (((s.readIn p (s.geo.piece b) r).setHead p (s.geo.piece b) r).bstart p) r cbstatePresent) := by
  rw [Geometry.piece] at transfer
  simp only [Cache.readWholeChunk, flushChunk_clean clean, Cache.deviceRead, transfer, ne_eq, some,
    not_false_eq_true, if_true]
  rfl

theorem fill_filled {s : Cache} {p start r : Nat} (fits : s.geo.Fits s.dev.nblocks)
    (vacant : s.cstate p = 0#2) (small : start < 2 ^ 64) (positive : r ≠ 0) (bound : r ≤ s.geo.chunkSize) :
    Filled s (((s.readIn p start r).setHead p start r).setBstate p
      (((s.readIn p start r).setHead p start r).bstart p) r cbstatePresent) p start r := by
  have states := fits.states
  have size := s.geo.chunkSz_eq
  have chunkLt := s.geo.chunk_lt
  have area : r * s.geo.blockSize ≤ s.geo.chunkSize * s.geo.blockSize := Nat.mul_le_mul_right _ bound
  -- the data area lies behind the header
  have read := @readIn_out s p start r bound
  generalize hs : (s.readIn p start r).setHead p start r = s2
  have count : s2.bcount p = r := hs ▸ setHead_bcount (by omega)
  have headOut : ∀ i, i < p ∨ p + 12 ≤ i → s2.mem i = (s.readIn p start r).mem i := fun i out =>
    hs ▸ setHead_out i out
  have state2 : s2.cstate p = cbstatePresent := by
    have same : HeadSame s (s.readIn p start r) p := fun i _ high => read i (by simp only [szChunkHdr] at *; omega)
    rw [← hs, setHead_cstate, same.cstate, vacant]
    rfl
  have marked : Marked s2 (s2.setBstate p (s2.bstart p) r cbstatePresent) p 0 r cbstatePresent := by
    rw [← Nat.add_zero (s2.bstart p)]
    exact setBstate_marked (by omega) (by omega)
  have stateBytes : ∀ i, i < p + 28 ∨ p + s.geo.hdrSize ≤ i →
      (s2.setBstate p (s2.bstart p) r cbstatePresent).mem i = s2.mem i := by
    intro i out
    apply marked.outside
    simp only [getBstatePtr, szChunkHdr] at *
    omega
  generalize s2.setBstate p (s2.bstart p) r cbstatePresent = s3 at marked stateBytes
  have geo2 : s2.geo = s.geo := by rw [← hs, setHead_geo, readIn_geo]
  have dev2 : s2.dev = s.dev := by rw [← hs, setHead_dev, readIn_dev]
  constructor
  · rw [marked.geo, geo2]
  · rw [marked.dev, dev2]
  · rw [marked.head.bstart, ← hs, setHead_bstart small]
  · rw [marked.head.bcount, count]
  · rw [marked.head.cstate, state2]
  · intro k hk
    rw [marked.pair, if_pos (by omega)]
  · intro i hi
    simp only [szChunkHdr] at states
    rw [stateBytes _ (by simp only [Geometry.getCachePtr]; omega),
      headOut _ (by simp only [Geometry.getCachePtr]; omega)]
    exact readIn_data hi
  · intro i out
    simp only [szChunkHdr] at states
    rw [stateBytes i (by omega), headOut i (by omega), read i (by omega)]
  · intro a member
    rcases marked.log a member with old | ⟨area, chunk, lo, hi⟩
    · replace old : a ∈ (⟨.data, p, s.geo.getCachePtr p, s.geo.getCachePtr p + r * s.geo.blockSize⟩ : Access) ::
          s.log := by
        rwa [← hs, setHead_log] at old
      rcases List.mem_cons.mp old with rfl | old
      · right
        simp only [Access.Inside, Geometry.getCachePtr]
        omega
      · exact Or.inl old
    · right
      simp only [Access.Inside, area, chunk]
      simp only [getBstatePtr, szChunkHdr] at *
      omega

/-- A freshly filled chunk holds what the history left on the device, and nothing of it is dirty. -/
theorem Filled.loaded {s s' : Cache} {disk : Nat → Byte} {p start : Nat} (fits : s.geo.Fits s.dev.nblocks)
    (filled : Filled s s' p start (min s.geo.chunkSize (s.dev.nblocks - start)))
    (aligned : s.geo.chunkSize ∣ start) (inside : start < s.dev.nblocks)
    (same : ∀ b, start ≤ b → b < start + s.geo.chunkSize → b < s.dev.nblocks → ∀ i, i < s.geo.blockSize →
      s.dev.bytes (b * s.geo.blockSize + i) = disk (b * s.geo.blockSize + i)) : Loaded s' disk p := by
  have clean : ∀ o, o < s'.bcount p → ¬ s'.MarkedDirty p o := by
    intro o ho dirty
    rw [filled.bcount] at ho
    rw [Cache.MarkedDirty, filled.pair o ho] at dirty
    exact dirty (by decide)
  constructor
  · rw [filled.geo, filled.bstart]
    exact aligned
  · rw [filled.dev, filled.bstart]
    exact inside
  · rw [filled.geo, filled.dev, filled.bstart, filled.bcount]
  · intro i hi
    rw [filled.bcount, filled.geo] at hi
    rw [filled.geo, filled.bstart, filled.data i hi]
    obtain ⟨o, j, ho, hj, rfl⟩ := block_of_byte fits.block_pos hi
    rw [← Nat.add_assoc, ← Nat.add_mul]
    exact same _ (by omega) (by omega) (by omega) _ hj
  · intro o ho
    rw [filled.bcount] at ho
    rw [filled.pair o ho]
    decide
  · intro o ho _ i hi
    rw [filled.bcount] at ho
    rw [filled.geo] at hi ⊢
    rw [filled.dev, filled.bstart, filled.data _ (block_inside ho hi), Nat.add_mul, Nat.add_assoc]
  · intro dirty
    have positive : 0 < s'.bcount p := by
      have := fits.chunk_pos
      rw [filled.bcount]
      omega
    exact absurd dirty (clean 0 positive)
  · intro o ho dirty
    exact absurd dirty (clean o ho)

/-- A chunk that can serve block `b`: if it holds anything, it holds the block. -/
def Cache.Usable (s : Cache) (p b : Nat) : Prop := s.Present p → s.Covers p b

instance (s : Cache) (p b : Nat) : Decidable (s.Usable p b) := inferInstanceAs (Decidable (_ → _))

/-- What finding room for block `b` may change: chunks keep the piece they hold, and a chunk that
held nothing may now hold the piece of the block. -/
structure Grows (s s' : Cache) (b : Nat) : Prop where
  geo : s'.geo = s.geo
  dev : s'.dev = s.dev
  keep : ∀ c, c < s.geo.numChunks → s.Present (s.geo.addr c) →
    s'.Present (s.geo.addr c) ∧ s'.bstart (s.geo.addr c) = s.bstart (s.geo.addr c)
  fresh : ∀ c, c < s.geo.numChunks → s'.Present (s.geo.addr c) → ¬ s.Present (s.geo.addr c) →
    s'.Covers (s.geo.addr c) b
  log : ∀ a ∈ s'.log, a ∈ s.log ∨ a.Inside s.geo

theorem Grows.trans {s t u : Cache} {b : Nat} (h : Grows s t b) (k : Grows t u b) : Grows s u b := by
  have geo := h.geo
  refine ⟨k.geo.trans h.geo, k.dev.trans h.dev, ?_, ?_, ?_⟩
  · intro c hc present
    obtain ⟨here, start⟩ := h.keep c hc present
    have later := k.keep c (geo ▸ hc) (geo ▸ here)
    rw [geo] at later
    exact ⟨later.1, later.2.trans start⟩
  · intro c hc present absent
    by_cases before : t.Present (s.geo.addr c)
    · have covers := h.fresh c hc before absent
      have later := k.keep c (geo ▸ hc) (geo ▸ before)
      rw [geo] at later
      rw [Cache.Covers, later.2, k.geo]
      exact covers
    · have := k.fresh c (geo ▸ hc) (geo ▸ present) (geo ▸ before)
      rwa [geo] at this
  · intro a member
    rcases k.log a member with old | inside
    · exact h.log a old
    · exact Or.inr (geo ▸ inside)

theorem Grows.stamp {s : Cache} (fits : s.geo.Fits s.dev.nblocks) (b c : Nat) :
    Grows s (s.stamp (s.geo.addr c)) b := by
  have alike : ∀ d, Alike s (s.stamp (s.geo.addr c)) (s.geo.addr d) := fun d => stamp_alike fits
  refine ⟨rfl, rfl, ?_, ?_, fun a member => Or.inl member⟩
  · intro d _ present
    exact ⟨(alike d).present.mpr present, (alike d).head.bstart⟩
  · intro d _ present absent
    exact absurd ((alike d).present.mp present) absent

/-- The invariant after an empty chunk was filled with the piece of block `b`. -/
theorem Inv.fill {s s' : Cache} {disk : Nat → Byte} {b c : Nat} (inv : Inv s disk)
    (hc : c < s.geo.numChunks) (absent : ¬ s.Present (s.geo.addr c))
    (uncovered : ∀ d, d < s.geo.numChunks → s.Present (s.geo.addr d) → ¬ s.Covers (s.geo.addr d) b)
    (inside : s.geo.piece b < s.dev.nblocks)
    (filled : Filled s s' (s.geo.addr c) (s.geo.piece b)
      (min s.geo.chunkSize (s.dev.nblocks - s.geo.piece b))) :
    Inv s' disk ∧ Grows s s' b := by
  have pos := inv.fits.chunk_pos
  have aligned : s.geo.chunkSize ∣ s.geo.piece b := Dvd.intro_left _ rfl
  have low := s.geo.piece_le b
  have high := s.geo.lt_piece pos b
  -- a present chunk that had a block of this piece would have all of it
  have apart : ∀ d, d < s.geo.numChunks → s.Present (s.geo.addr d) →
      s.bstart (s.geo.addr d) + s.geo.chunkSize ≤ s.geo.piece b ∨
        s.geo.piece b + s.geo.chunkSize ≤ s.bstart (s.geo.addr d) := by
    intro d hd here
    apply pieces_apart (inv.loaded d hd here).aligned aligned
    intro same
    apply uncovered d hd here
    rw [Cache.Covers, same]
    exact ⟨low, high⟩
  have present : s'.Present (s.geo.addr c) := by
    rw [Cache.Present, filled.cstate]
    decide
  have loaded : Loaded s' disk (s.geo.addr c) := by
    apply filled.loaded inv.fits aligned inside
    intro x lowX highX hx i hi
    refine inv.rest x hx (fun d hd here covers => ?_) i hi
    simp only [Cache.Covers] at covers
    rcases apart d hd here with h | h <;> omega
  have other : ∀ d, d ≠ c → ChunkSame s s' (s.geo.addr d) := by
    intro d ne i lowI highI
    apply filled.outside
    rcases s.geo.addr_apart ne with h | h <;> omega
  constructor
  · apply inv.replace hc filled.geo (by rw [filled.dev]) filled.outside present loaded
    · intro d hd _ here same
      rw [filled.bstart] at same
      rcases apart d hd here with h | h <;> omega
    · intro here
      exact absurd here absent
    · intro x _
      exact ⟨by rw [filled.dev], rfl⟩
  · refine ⟨filled.geo, filled.dev, ?_, ?_, filled.log⟩
    · intro d hd here
      have ne : d ≠ c := by
        rintro rfl
        exact absent here
      exact ⟨((other d ne).present inv.fits).mpr here, ((other d ne).head inv.fits).bstart⟩
    · intro d hd here before
      by_cases same : d = c
      · rw [same, Cache.Covers, filled.bstart, filled.geo]
        exact ⟨low, high⟩
      · exact absurd (((other d same).present inv.fits).mp here) before

/-! ## The buffer of a present chunk -/

/-- The buffer `get_chunk_buffer` computes for block `b` of the chunk at `p`. The block count is the
end of the chunk, an absolute block number, less the block's number inside the chunk. -/
def Cache.bufferAt (s : Cache) (p b : Nat) : Buffer :=
  let cbn := b - s.bstart p
  let bcount := s.bstart p + s.geo.chunkSize - cbn
  ⟨p, s.geo.getCachePtr p + cbn * s.geo.blockSize, bcount, bcount * s.geo.blockSize % 2 ^ 32⟩

section Verify

variable {s : Cache} {disk : Nat → Byte} {b p : Nat}

theorem Loaded.getChunkBuffer (loaded : Loaded s disk p) (fits : s.geo.Fits s.dev.nblocks)
    (covers : s.Covers p b) :
    s.getChunkBuffer p b = (some (s.bufferAt p b).buffer,
      if b - s.bstart p < s.bcount p then (s.bufferAt p b).bcount else 0) := by
  have start := loaded.start
  have blocks := fits.blocks
  have chunkLt := s.geo.chunk_lt
  obtain ⟨low, high⟩ := covers
  have max : (s.bstart p + s.geo.chunkSize) % 2 ^ 32 = s.bstart p + s.geo.chunkSize :=
    Nat.mod_eq_of_lt (by omega)
  have offset : (b - s.bstart p) % 2 ^ 32 = b - s.bstart p := Nat.mod_eq_of_lt (by omega)
  simp only [Cache.getChunkBuffer, max, offset]
  rw [if_pos ⟨low, high⟩]
  rfl

/-- The block is in the chunk. -/
theorem lockLoop_holder (loaded : Loaded s disk p) (fits : s.geo.Fits s.dev.nblocks)
    (covers : s.Covers p b) (inside : b < s.dev.nblocks) (fuel : Nat) :
    Cache.lockLoop p b (fuel + 1) .verifyChunk s = some (some (s.bufferAt p b), s) := by
  obtain ⟨low, high⟩ := covers
  have here : b - s.bstart p < s.bcount p := by
    rw [loaded.count]
    omega
  have some : (s.bufferAt p b).bcount ≠ 0 := by
    simp only [Cache.bufferAt]
    omega
  rw [Cache.lockLoop, loaded.getChunkBuffer fits ⟨low, high⟩]
  simp only [here, if_true, some, ne_eq, not_false_eq_true]
  rfl

/-- A chunk that ends at the end of the device has no more blocks to read: `update_chunk` reads
nothing and writes its header back as it was. -/
theorem Loaded.updateChunk (loaded : Loaded s disk p) (fits : s.geo.Fits s.dev.nblocks)
    (present : s.Present p) (short : s.bcount p < s.geo.chunkSize) :
    ∃ a : Access, a.Inside s.geo ∧ s.updateChunk p = (0, s.touch a) := by
  have start := loaded.start
  have blocks := fits.blocks
  have finish : s.bstart p + s.bcount p = s.dev.nblocks := by
    have := loaded.count
    omega
  have max : (s.bstart p + s.geo.chunkSize) % 2 ^ 32 = s.bstart p + s.geo.chunkSize :=
    Nat.mod_eq_of_lt (by omega)
  have nothing : ∀ n, s.dev.transfer (s.bstart p + s.bcount p) n = 0 := by
    intro n
    rw [Device.transfer, finish]
    omega
  have state : ∀ t : Cache, t.Present p → t.cstate p ||| cbstatePresent = t.cstate p := by
    have table : ∀ v : BitVec 2, v &&& cbstatePresent ≠ 0#2 → v ||| cbstatePresent = v := by decide
    exact fun t here => table _ here
  have area := Nat.mul_le_mul_right s.geo.blockSize loaded.within
  have size := s.geo.chunkSz_eq
  refine ⟨⟨.data, p, s.geo.getCachePtr p + s.bcount p * s.geo.blockSize,
    s.geo.getCachePtr p + s.bcount p * s.geo.blockSize⟩, ?_, ?_⟩
  · simp only [Access.Inside, Geometry.getCachePtr]
    omega
  · rw [Cache.updateChunk]
    simp only [max]
    rw [if_pos (by omega)]
    simp only [Cache.deviceRead, nothing, Nat.zero_mul, Mem.blit_zero, Nat.add_zero]
    generalize hs : Cache.touch _ _ = s1
    have present1 : s1.Present p := hs ▸ present
    rw [Cache.setBcount, setWord_self, Cache.setCstate, state s1 present1, setWord_self, setBstate_none]

/-- The block lies behind the end of the device. -/
theorem lockLoop_beyond (loaded : Loaded s disk p) (fits : s.geo.Fits s.dev.nblocks)
    (present : s.Present p) (covers : s.Covers p b) (outside : s.dev.nblocks ≤ b) (fuel : Nat) :
    ∃ a : Access, a.Inside s.geo ∧
      Cache.lockLoop p b (fuel + 1) .verifyChunk s = some (none, s.touch a) := by
  have range := covers
  obtain ⟨low, high⟩ := range
  have missing : ¬ b - s.bstart p < s.bcount p := by
    rw [loaded.count]
    omega
  obtain ⟨a, inside, update⟩ := loaded.updateChunk fits present (by rw [loaded.count]; omega)
  refine ⟨a, inside, ?_⟩
  rw [Cache.lockLoop, loaded.getChunkBuffer fits covers]
  simp only [missing, if_false, ne_eq, not_true_eq_false, update]

end Verify

/-! ## `cache_buffer_lock` -/

theorem Inv.touch {s : Cache} {disk : Nat → Byte} (inv : Inv s disk) (a : Access) : Inv (s.touch a) disk :=
  inv.frame rfl rfl fun _ _ => ⟨fun _ _ _ => rfl, fun _ _ => rfl, fun _ _ => rfl⟩

theorem Grows.refl (s : Cache) (b : Nat) : Grows s s b :=
  ⟨rfl, rfl, fun _ _ here => ⟨here, rfl⟩, fun _ _ here absent => absurd here absent, fun _ => Or.inl⟩

theorem Grows.touch {s : Cache} {a : Access} (b : Nat) (inside : a.Inside s.geo) : Grows s (s.touch a) b := by
  refine ⟨rfl, rfl, fun _ _ here => ⟨here, rfl⟩, fun _ _ here absent => absurd here absent, ?_⟩
  intro x member
  rcases List.mem_cons.mp member with rfl | old
  · exact Or.inr inside
  · exact Or.inl old

/-- Both `select_chunk` and the `cache_buffer_unlock` built on it only set a time stamp. -/
theorem Inv.bufferUnlock {s : Cache} {disk : Nat → Byte} (inv : Inv s disk) (b : Nat) :
    Inv (s.bufferUnlock b) disk ∧ Grows s (s.bufferUnlock b) b := by
  have selection := inv.selection b
  rw [Cache.bufferUnlock, Cache.selectChunk]
  generalize s.selected b = r at selection
  cases selection with
  | @holder c _ _ _ => exact ⟨inv.stamp c, Grows.stamp inv.fits b c⟩
  | @empty c _ _ _ => exact ⟨inv.stamp c, Grows.stamp inv.fits b c⟩
  | full _ => exact ⟨inv, Grows.refl s b⟩

/-- What `cache_buffer_lock` may answer. -/
inductive LockResult (s s' : Cache) (b : Nat) : Option Buffer → Prop
  | granted {c : Nat} : c < s.geo.numChunks → s.Usable (s.geo.addr c) b → b < s.dev.nblocks →
      s'.Present (s.geo.addr c) → s'.Covers (s.geo.addr c) b →
      LockResult s s' b (some (s'.bufferAt (s.geo.addr c) b))
  | full : (∀ c, c < s.geo.numChunks → ¬ s.Usable (s.geo.addr c) b) → LockResult s s' b none
  | beyond : s.dev.nblocks ≤ b → LockResult s s' b none

/-- A returning lock keeps the invariant. -/
structure Locked (s : Cache) (disk : Nat → Byte) (b : Nat) (out : Option Buffer) (s' : Cache) : Prop where
  result : LockResult s s' b out
  inv : Inv s' disk
  grows : Grows s s' b

/-- From `_verify_chunk_` on, with the block's chunk present. -/
theorem Inv.verify {s t : Cache} {disk : Nat → Byte} {b c : Nat} (inv : Inv t disk) (before : Grows s t b)
    (hc : c < s.geo.numChunks) (usable : s.Usable (s.geo.addr c) b) (present : t.Present (s.geo.addr c))
    (covers : t.Covers (s.geo.addr c) b) (fuel : Nat) :
    ∃ out u, Cache.lockLoop (s.geo.addr c) b (fuel + 1) .verifyChunk t = some (out, u) ∧
      (∀ buf, out = some buf → Locked s disk b out u) ∧
      (out = none → Locked s disk b none (u.bufferUnlock b)) := by
  have geo := before.geo
  have loaded : Loaded t disk (s.geo.addr c) := by
    have := inv.loaded c (geo ▸ hc) (geo ▸ present)
    rwa [geo] at this
  by_cases inside : b < t.dev.nblocks
  · refine ⟨_, _, lockLoop_holder loaded inv.fits covers inside fuel, ?_, fun h => by cases h⟩
    intro _ _
    exact ⟨.granted hc usable (before.dev ▸ inside) present covers, inv, before⟩
  · obtain ⟨a, good, run⟩ := lockLoop_beyond loaded inv.fits present covers (by omega) fuel
    refine ⟨_, _, run, (fun _ h => by cases h), ?_⟩
    intro _
    obtain ⟨after, grows⟩ := (inv.touch a).bufferUnlock b
    exact ⟨.beyond (by rw [← before.dev]; omega), after, (before.trans (Grows.touch b good)).trans grows⟩

theorem readWholeChunk_none {s : Cache} {p b : Nat} (clean : ¬ s.Dirty p)
    (outside : s.dev.nblocks ≤ s.geo.piece b) : s.readWholeChunk p b = (0, s) := by
  have nothing : s.dev.transfer (s.geo.piece b) s.geo.chunkSize = 0 := by
    rw [Device.transfer]
    omega
  rw [Geometry.piece] at nothing
  simp only [Cache.readWholeChunk, flushChunk_clean clean, Cache.deviceRead, nothing, ne_eq,
    not_true_eq_false, if_false, Nat.zero_mul, Mem.blit_zero]

/-- From `_read_whole_chunk_` on, with an empty chunk for the block. -/
theorem Inv.refill {s t : Cache} {disk : Nat → Byte} {b c : Nat} (inv : Inv t disk) (before : Grows s t b)
    (small : b < 2 ^ 32) (hc : c < s.geo.numChunks) (usable : s.Usable (s.geo.addr c) b)
    (absent : ¬ t.Present (s.geo.addr c))
    (uncovered : ∀ d, d < s.geo.numChunks → t.Present (s.geo.addr d) → ¬ t.Covers (s.geo.addr d) b)
    (fuel : Nat) :
    ∃ out u, Cache.lockLoop (s.geo.addr c) b (fuel + 2) .readWholeChunk t = some (out, u) ∧
      (∀ buf, out = some buf → Locked s disk b out u) ∧
      (out = none → Locked s disk b none (u.bufferUnlock b)) := by
  have geo := before.geo
  have vacant : t.cstate (s.geo.addr c) = 0#2 := by
    have := inv.empty c (geo ▸ hc) (geo ▸ absent)
    rwa [geo] at this
  have clean : ¬ t.Dirty (s.geo.addr c) := by
    rw [Cache.Dirty, vacant]
    exact fun h => h rfl
  have low := t.geo.piece_le b
  by_cases inside : t.geo.piece b < t.dev.nblocks
  · have pos := inv.fits.chunk_pos
    have transfer : t.dev.transfer (t.geo.piece b) t.geo.chunkSize =
      min t.geo.chunkSize (t.dev.nblocks - t.geo.piece b) := rfl
    have filled := fill_filled inv.fits vacant (show t.geo.piece b < 2 ^ 64 by omega)
      (show min t.geo.chunkSize (t.dev.nblocks - t.geo.piece b) ≠ 0 by omega) (min_le_left _ _)
    rw [Cache.lockLoop, readWholeChunk_clean clean transfer (by omega)]
    simp only [ne_eq, show min t.geo.chunkSize (t.dev.nblocks - t.geo.piece b) ≠ 0 by omega,
      not_false_eq_true, if_true]
    generalize Cache.setBstate _ _ _ _ _ = u at filled
    have filled' := filled
    rw [show s.geo.addr c = t.geo.addr c by rw [geo]] at filled' absent
    rw [← geo] at uncovered
    obtain ⟨after, grows⟩ := inv.fill (geo ▸ hc) absent uncovered inside filled'
    apply after.verify (before.trans grows) hc usable
    · rw [Cache.Present, filled.cstate]
      decide
    · rw [Cache.Covers, filled.bstart, filled.geo]
      exact ⟨low, t.geo.lt_piece pos b⟩
  · rw [Cache.lockLoop, readWholeChunk_none clean (by omega)]
    refine ⟨none, t, rfl, (fun _ h => by cases h), fun _ => ?_⟩
    obtain ⟨after, grows⟩ := inv.bufferUnlock b
    exact ⟨.beyond (by rw [← before.dev]; omega), after, before.trans grows⟩

/-- The end of `cache_buffer_lock`: without a buffer the chunk is unlocked again. -/
theorem bufferLock_of_loop {s t : Cache} {disk : Nat → Byte} {b p : Nat} {label : Label}
    (select : s.selectChunk b = (some p, t))
    (start : label = if t.Present p then Label.verifyChunk else Label.readWholeChunk)
    (loop : ∃ out u, Cache.lockLoop p b lockFuel label t = some (out, u) ∧
      (∀ buf, out = some buf → Locked s disk b out u) ∧
      (out = none → Locked s disk b none (u.bufferUnlock b))) :
    ∃ out s', s.bufferLock lockFuel b = some (out, s') ∧ Locked s disk b out s' := by
  obtain ⟨out, u, run, granted, refused⟩ := loop
  subst start
  cases out with
  | none => exact ⟨none, u.bufferUnlock b, by simp only [Cache.bufferLock, select, run], refused rfl⟩
  | some buf => exact ⟨some buf, u, by simp only [Cache.bufferLock, select, run], granted buf rfl⟩

/-- `cache_buffer_lock` always returns. -/
theorem Inv.bufferLock {s : Cache} {disk : Nat → Byte} (inv : Inv s disk) (b : Nat) (small : b < 2 ^ 32) :
    ∃ out s', s.bufferLock lockFuel b = some (out, s') ∧ Locked s disk b out s' := by
  have selection := inv.selection b
  have select : s.selectChunk b = (s.selected b).elim (none, s) fun p => (some p, s.stamp p) := by
    unfold Cache.selectChunk
    cases s.selected b <;> rfl
  generalize s.selected b = r at selection select
  cases selection with
  | full all =>
    rw [Option.elim_none] at select
    refine ⟨none, s, by simp only [Cache.bufferLock, select], .full fun c hc usable => ?_, inv, .refl s b⟩
    exact (all c hc).2 (usable (all c hc).1)
  | @holder c hc present covers =>
    have alike : Alike s (s.stamp (s.geo.addr c)) (s.geo.addr c) := stamp_alike inv.fits
    have still := alike.present.mpr present
    apply bufferLock_of_loop select (if_pos still).symm
    refine (inv.stamp c).verify (Grows.stamp inv.fits b c) hc (fun _ => covers) still ?_ 7
    rw [Cache.Covers, alike.head.bstart]
    exact covers
  | @empty c hc absent uncovered =>
    have alike : ∀ d, Alike s (s.stamp (s.geo.addr c)) (s.geo.addr d) := fun d => stamp_alike inv.fits
    have still : ¬ (s.stamp (s.geo.addr c)).Present (s.geo.addr c) := fun h => absent ((alike c).present.mp h)
    apply bufferLock_of_loop select (if_neg still).symm
    refine (inv.stamp c).refill (Grows.stamp inv.fits b c) small hc (fun h => absurd h absent) still ?_ 6
    intro d hd here
    rw [Cache.Covers, (alike d).head.bstart]
    exact uncovered d hd ((alike d).present.mp here)

end PreTeO.Bdev
