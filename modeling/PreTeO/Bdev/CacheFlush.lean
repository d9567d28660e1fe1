import PreTeO.Bdev.CacheLock

/-!
# Writing back

`cache_flush_chunk` collects runs of dirty blocks, writes each run to the device and marks it clean.
A run that does not start at the first block of the chunk is written one block too low: its start is
the last clean block before it. So a chunk whose first block is dirty is written back as a whole, and
the last block of any other chunk keeps its mark.
-/

namespace PreTeO.Bdev
set_option autoImplicit false
open PreTeO.Lib

/-! ## One run -/

/-- What a flush of the chunk at `p` has done on the way from `s` to `t`: only state bits changed in
memory, only blocks of the chunk on the device, and a block without a dirty mark is on the device. -/
structure Flushing (s t : Cache) (p : Nat) : Prop where
  geo : t.geo = s.geo
  nblocks : t.dev.nblocks = s.dev.nblocks
  memory : ∀ i, i < p + szChunkHdr ∨ p + s.geo.hdrSize ≤ i → t.mem i = s.mem i
  pair : ∀ o, o < s.bcount p → t.pair p o = s.pair p o ∨ t.pair p o = cbstatePresent
  bytes : ∀ x, x < s.bstart p * s.geo.blockSize ∨ (s.bstart p + s.bcount p) * s.geo.blockSize ≤ x →
    t.dev.bytes x = s.dev.bytes x
  synced : ∀ o, o < s.bcount p → ¬ t.MarkedDirty p o → ∀ i, i < s.geo.blockSize →
    t.dev.bytes ((s.bstart p + o) * s.geo.blockSize + i) =
      s.mem (s.geo.getCachePtr p + (o * s.geo.blockSize + i))
  log : ∀ a ∈ t.log, a ∈ s.log ∨ a.Inside s.geo

section Flush

variable {s t : Cache} {disk : Nat → Byte} {p : Nat}

theorem Loaded.flushing (loaded : Loaded s disk p) : Flushing s s p :=
  ⟨rfl, rfl, fun _ _ => rfl, fun _ _ => Or.inl rfl, fun _ _ => rfl, loaded.synced, fun _ => Or.inl⟩

theorem Flushing.head (h : Flushing s t p) : HeadSame s t p := fun i _ high =>
  h.memory i (by simp only [szChunkHdr]; omega)

/-- The state after the callback of `_flush_buffer_`. -/
def Cache.writeOut (s : Cache) (p start a k : Nat) : Cache :=
  let buffer := s.geo.getCachePtr p + a * s.geo.blockSize
  let bytes := Mem.blit s.dev.bytes ((start + a) * s.geo.blockSize) (k * s.geo.blockSize) fun i => s.mem (buffer + i)
  Cache.touch { s with dev := { s.dev with bytes := bytes } } ⟨.data, p, buffer, buffer + k * s.geo.blockSize⟩

theorem flushBuffer_eq {a k : Nat} (inside : t.bstart p + a + k ≤ t.dev.nblocks) :
    t.flushBuffer p (t.bstart p + a) k =
      (t.writeOut p (t.bstart p) a k).setBstate p (t.bstart p + a) k cbstatePresent := by
  have all : t.dev.transfer (t.bstart p + a) k = k := by
    rw [Device.transfer]
    omega
  simp only [Cache.flushBuffer, Cache.deviceWrite, all, Nat.add_sub_cancel_left, Cache.writeOut]

section WriteOut

variable (t : Cache) (p start a k : Nat)

theorem writeOut_geo : (t.writeOut p start a k).geo = t.geo := by
  simp only [Cache.writeOut, Cache.touch]

theorem writeOut_mem : (t.writeOut p start a k).mem = t.mem := by
  simp only [Cache.writeOut, Cache.touch]

theorem writeOut_nblocks : (t.writeOut p start a k).dev.nblocks = t.dev.nblocks := by
  simp only [Cache.writeOut, Cache.touch]

theorem writeOut_log : (t.writeOut p start a k).log = ⟨.data, p, t.geo.getCachePtr p + a * t.geo.blockSize,
    t.geo.getCachePtr p + a * t.geo.blockSize + k * t.geo.blockSize⟩ :: t.log := by
  simp only [Cache.writeOut, Cache.touch]

theorem writeOut_in {o i : Nat} (low : a ≤ o) (high : o < a + k) (hi : i < t.geo.blockSize) :
    (t.writeOut p start a k).dev.bytes ((start + o) * t.geo.blockSize + i) =
      t.mem (t.geo.getCachePtr p + (o * t.geo.blockSize + i)) := by
  obtain ⟨j, rfl⟩ := Nat.exists_eq_add_of_le low
  have place := block_inside (show j < k by omega) hi
  have address : (start + (a + j)) * t.geo.blockSize + i =
      (start + a) * t.geo.blockSize + (j * t.geo.blockSize + i) := by ring
  simp only [Cache.writeOut, Cache.touch]
  rw [address, Mem.blit_in (by omega) (by omega), Nat.add_sub_cancel_left]
  congr 1
  ring

theorem writeOut_out {x : Nat} (out : x < (start + a) * t.geo.blockSize ∨
    (start + (a + k)) * t.geo.blockSize ≤ x) : (t.writeOut p start a k).dev.bytes x = t.dev.bytes x := by
  simp only [Cache.writeOut, Cache.touch]
  apply Mem.blit_out
  rw [← Nat.add_mul, Nat.add_assoc]
  exact out

end WriteOut

/-- One run written back. -/
theorem Flushing.flushBuffer (h : Flushing s t p) (loaded : Loaded s disk p) (fits : s.geo.Fits s.dev.nblocks)
    {a k : Nat} (inside : a + k ≤ s.bcount p) (some : k ≠ 0) :
    Flushing s (t.flushBuffer p (s.bstart p + a) k) p ∧
      ∀ o, (t.flushBuffer p (s.bstart p + a) k).pair p o =
        if a ≤ o ∧ o < a + k then cbstatePresent else t.pair p o := by
  have start := h.head.bstart
  have count := h.head.bcount
  have geo := h.geo
  have within := loaded.within
  have states := fits.states
  have chunkLt := s.geo.chunk_lt
  have size := s.geo.chunkSz_eq
  have room : s.bstart p + a + k ≤ s.dev.nblocks := by
    have := loaded.count
    have := loaded.start
    omega
  have equal : t.flushBuffer p (s.bstart p + a) k = _ :=
    start ▸ flushBuffer_eq (by rw [start, h.nblocks]; exact room)
  rw [equal]
  have sameMem := writeOut_mem t p (s.bstart p) a k
  have sameGeo := writeOut_geo t p (s.bstart p) a k
  have nblocks := writeOut_nblocks t p (s.bstart p) a k
  have inRun := fun o i => @writeOut_in t p (s.bstart p) a k o i
  have outRun := fun x => @writeOut_out t p (s.bstart p) a k x
  have log := writeOut_log t p (s.bstart p) a k
  generalize t.writeOut p (s.bstart p) a k = w at *
  have head : HeadSame s w p := fun i low high => by rw [sameMem, h.head i low high]
  have marked : Marked w (w.setBstate p (s.bstart p + a) k cbstatePresent) p a k cbstatePresent := by
    rw [← head.bstart]
    exact setBstate_marked (by rw [head.bcount]; omega) (by omega)
  have pairs : ∀ o, (w.setBstate p (s.bstart p + a) k cbstatePresent).pair p o =
      if a ≤ o ∧ o < a + k then cbstatePresent else t.pair p o := by
    intro o
    rw [marked.pair, Cache.pair, sameMem, ← Cache.pair]
  refine ⟨?_, pairs⟩
  generalize w.setBstate p (s.bstart p + a) k cbstatePresent = u at marked pairs
  constructor
  · rw [marked.geo, sameGeo, geo]
  · rw [marked.dev, nblocks, h.nblocks]
  · intro i out
    rw [marked.outside i (by simp only [getBstatePtr] at *; omega), sameMem]
    exact h.memory i out
  · intro o ho
    rw [pairs]
    split
    · exact Or.inr rfl
    · exact h.pair o ho
  · intro x out
    have low := Nat.mul_le_mul_right s.geo.blockSize (show s.bstart p ≤ s.bstart p + a by omega)
    have high := Nat.mul_le_mul_right s.geo.blockSize
      (show s.bstart p + (a + k) ≤ s.bstart p + s.bcount p by omega)
    rw [marked.dev, outRun x (by rw [geo]; omega), h.bytes x out]
  · intro o ho clean i hi
    rw [marked.dev]
    by_cases run : a ≤ o ∧ o < a + k
    · have written := inRun o i run.1 run.2 (by rw [geo]; exact hi)
      rw [geo] at written
      rw [written]
      apply h.memory
      simp only [Geometry.getCachePtr]
      omega
    · have before : ¬ t.MarkedDirty p o := by
        rwa [Cache.MarkedDirty, pairs, if_neg run] at clean
      rw [← h.synced o ho before i hi]
      apply outRun
      rw [geo]
      by_cases low : o < a
      · left
        exact block_inside (show s.bstart p + o < s.bstart p + a by omega) hi
      · right
        have := Nat.mul_le_mul_right s.geo.blockSize (show s.bstart p + (a + k) ≤ s.bstart p + o by omega)
        omega
  · intro x member
    rcases marked.log x member with old | ⟨area, chunk, lo, hi⟩
    · rw [log, List.mem_cons] at old
      rcases old with rfl | old
      · right
        have area := Nat.mul_le_mul_right s.geo.blockSize (show a + k ≤ s.geo.chunkSize by omega)
        rw [Nat.add_mul] at area
        simp only [Access.Inside, Geometry.getCachePtr, geo]
        omega
      · exact h.log x old
    · right
      simp only [Access.Inside, area, chunk]
      simp only [getBstatePtr, szChunkHdr] at *
      omega

/-! ## The loop over the blocks -/

/-- What the loop of `cache_flush_chunk` asks: the mark of the first block of the byte. -/
theorem Flushing.bstate (h : Flushing s t p) (loaded : Loaded s disk p) {o : Nat} (ho : o < s.bcount p) :
    (t.getBstate p (s.bstart p + o) &&& cbstateDirty ≠ 0#2 ∧
        t.getBstate p (s.bstart p + o) &&& cbstatePresent ≠ 0#2) ↔ t.MarkedDirty p (4 * (o / 4)) := by
  have group : 4 * (o / 4) < s.bcount p := by omega
  have held : t.pair p (4 * (o / 4)) &&& cbstatePresent ≠ 0#2 := by
    rcases h.pair _ group with same | present
    · rw [same]
      exact loaded.held _ group
    · rw [present]
      decide
  have read := getBstate_eq (s := t) (p := p) (o := o) (by rw [h.head.bcount]; exact ho)
  rw [h.head.bstart] at read
  rw [read, Cache.MarkedDirty]
  exact ⟨fun both => both.1, fun dirty => ⟨dirty, held⟩⟩

/-- One round of the loop. -/
theorem Flushing.flushLoop_succ (h : Flushing s t p) (fuel o cstart ccount : Nat) (ho : o < s.bcount p) :
    Cache.flushLoop p (fuel + 1) t (s.bstart p + o) cstart ccount =
      if t.getBstate p (s.bstart p + o) &&& cbstateDirty ≠ 0#2 ∧
          t.getBstate p (s.bstart p + o) &&& cbstatePresent ≠ 0#2 then
        Cache.flushLoop p fuel t (s.bstart p + (o + 1)) cstart (ccount + 1)
      else Cache.flushLoop p fuel (if ccount ≠ 0 then t.flushBuffer p cstart ccount else t)
        (s.bstart p + (o + 1)) (s.bstart p + o) 0 := by
  rw [Cache.flushLoop, h.head.bstart, h.head.bcount, if_pos (by omega)]
  simp only [Nat.add_assoc]

/-- The end of the loop. -/
theorem Flushing.flushLoop_end (h : Flushing s t p) (fuel cstart ccount : Nat) :
    Cache.flushLoop p (fuel + 1) t (s.bstart p + s.bcount p) cstart ccount =
      if ccount ≠ 0 then t.flushBuffer p cstart ccount else t := by
  rw [Cache.flushLoop, h.head.bstart, h.head.bcount, if_neg (by omega)]

/-- A chunk whose blocks are all dirty is written back in one run. -/
theorem flushLoop_all (loaded : Loaded s disk p) (fits : s.geo.Fits s.dev.nblocks)
    (all : ∀ o, o < s.bcount p → s.MarkedDirty p o) :
    ∀ fuel o, o ≤ s.bcount p → s.bcount p - o < fuel →
      Cache.flushLoop p fuel s (s.bstart p + o) (s.bstart p) o = s.flushBuffer p (s.bstart p) (s.bcount p) := by
  intro fuel
  induction fuel with
  | zero => intro o _ enough; omega
  | succ fuel ih =>
    intro o le enough
    have h := loaded.flushing
    by_cases more : o < s.bcount p
    · rw [h.flushLoop_succ _ _ _ _ more, if_pos ((h.bstate loaded more).mpr (all _ (by omega)))]
      exact ih (o + 1) more (by omega)
    · have done : o = s.bcount p := by omega
      have positive := loaded.positive fits
      rw [done, h.flushLoop_end, if_pos (by omega)]

/-- Once a clean block was seen, every run ends before the block the loop has reached, so the last
block is never written back. -/
theorem flushLoop_rest (loaded : Loaded s disk p) (fits : s.geo.Fits s.dev.nblocks) :
    ∀ fuel t o a k, Flushing s t p → a + k + 1 ≤ o → o ≤ s.bcount p → s.bcount p - o < fuel →
      t.pair p (s.bcount p - 1) = s.pair p (s.bcount p - 1) →
      Flushing s (Cache.flushLoop p fuel t (s.bstart p + o) (s.bstart p + a) k) p ∧
        (Cache.flushLoop p fuel t (s.bstart p + o) (s.bstart p + a) k).pair p (s.bcount p - 1) =
          s.pair p (s.bcount p - 1) := by
  intro fuel
  induction fuel with
  | zero => intro t o a k _ _ _ enough; omega
  | succ fuel ih =>
    intro t o a k h before le enough last
    -- the run collected so far, written back if there is one
    have written : Flushing s (if k ≠ 0 then t.flushBuffer p (s.bstart p + a) k else t) p ∧
        (if k ≠ 0 then t.flushBuffer p (s.bstart p + a) k else t).pair p (s.bcount p - 1) =
          s.pair p (s.bcount p - 1) := by
      split
      · next some =>
        obtain ⟨flushed, pairs⟩ := h.flushBuffer loaded fits (show a + k ≤ s.bcount p by omega) some
        exact ⟨flushed, by rw [pairs, if_neg (by omega), last]⟩
      · exact ⟨h, last⟩
    by_cases more : o < s.bcount p
    · rw [h.flushLoop_succ _ _ _ _ more]
      split
      · exact ih t (o + 1) a (k + 1) h (by omega) more (by omega) last
      · exact ih _ (o + 1) o 0 written.1 (by omega) more (by omega) written.2
    · have done : o = s.bcount p := by omega
      rw [done, h.flushLoop_end]
      exact written

/-! ## One chunk -/

/-- Nothing of the chunk is marked dirty, and the device has what the chunk holds. -/
def ChunkComplete (s : Cache) (p : Nat) : Prop :=
  ∀ o, o < s.bcount p → ¬ s.MarkedDirty p o ∧ ∀ i, i < s.geo.blockSize →
    s.dev.bytes ((s.bstart p + o) * s.geo.blockSize + i) =
      s.mem (s.geo.getCachePtr p + (o * s.geo.blockSize + i))

/-- If a block of the chunk is marked dirty, the first one is. -/
def ChunkReady (s : Cache) (p : Nat) : Prop := (∃ o, o < s.bcount p ∧ s.MarkedDirty p o) → s.MarkedDirty p 0

instance (s : Cache) (p : Nat) : Decidable (ChunkReady s p) :=
  inferInstanceAs (Decidable ((∃ o, o < s.bcount p ∧ _) → _))

/-- What `cache_flush_chunk` does to a present chunk. -/
structure ChunkFlushed (s t : Cache) (disk : Nat → Byte) (p : Nat) : Prop where
  geo : t.geo = s.geo
  nblocks : t.dev.nblocks = s.dev.nblocks
  memory : ∀ i, i < p ∨ p + s.geo.hdrSize ≤ i → t.mem i = s.mem i
  bytes : ∀ x, x < s.bstart p * s.geo.blockSize ∨ (s.bstart p + s.bcount p) * s.geo.blockSize ≤ x →
    t.dev.bytes x = s.dev.bytes x
  bstart : t.bstart p = s.bstart p
  bcount : t.bcount p = s.bcount p
  present : t.Present p
  loaded : Loaded t disk p
  complete : ChunkComplete t p ↔ ChunkReady s p
  log : ∀ a ∈ t.log, a ∈ s.log ∨ a.Inside s.geo

section SetCstate

variable (u : Cache) (p : Nat) (v : BitVec 2)

theorem setCstate_bstart : (u.setCstate p v).bstart p = u.bstart p := setWord_bstart

theorem setCstate_bcount : (u.setCstate p v).bcount p = u.bcount p := setWord_bcount (bcount_lt u p)

theorem setCstate_cstate : (u.setCstate p v).cstate p = v := setWord_cstate

theorem setCstate_out (i : Nat) (out : i < p + 8 ∨ p + 12 ≤ i) : (u.setCstate p v).mem i = u.mem i :=
  setWord_out i out

theorem setCstate_pair (o : Nat) : (u.setCstate p v).pair p o = u.pair p o := by
  rw [Cache.pair, setCstate_out _ _ _ _ (by simp only [getBstatePtr, szChunkHdr]; omega), Cache.pair]

end SetCstate

/-- The end of `cache_flush_chunk`: the chunk loses its dirty flag. The first block is clean, and if
a dirty block is left, the last one is. -/
theorem Flushing.finish {u : Cache} (h : Flushing s u p) (loaded : Loaded s disk p)
    (fits : s.geo.Fits s.dev.nblocks) (present : s.Present p) (clean : ¬ u.MarkedDirty p 0)
    (last : ∀ o, o < s.bcount p → u.MarkedDirty p o → u.MarkedDirty p (s.bcount p - 1))
    (complete : (∀ o, o < s.bcount p → ¬ u.MarkedDirty p o) ↔ ChunkReady s p) :
    ChunkFlushed s (u.setCstate p (u.cstate p &&& ~~~cbstateDirty)) disk p := by
  have states := fits.states
  have within := loaded.within
  have table : ∀ v : BitVec 2, v &&& cbstatePresent ≠ 0#2 → v &&& ~~~cbstateDirty &&& cbstatePresent ≠ 0#2 := by
    decide
  generalize hv : u.cstate p &&& ~~~cbstateDirty = v
  have flag : v &&& cbstatePresent ≠ 0#2 := by
    rw [← hv, h.head.cstate]
    exact table _ present
  have bstart : (u.setCstate p v).bstart p = s.bstart p := by rw [setCstate_bstart, h.head.bstart]
  have bcount : (u.setCstate p v).bcount p = s.bcount p := by rw [setCstate_bcount, h.head.bcount]
  have pair := setCstate_pair u p v
  have state := setCstate_cstate u p v
  have geo : (u.setCstate p v).geo = s.geo := h.geo
  have dev : (u.setCstate p v).dev = u.dev := rfl
  have log : (u.setCstate p v).log = u.log := rfl
  have memory : ∀ i, i < p ∨ p + szChunkHdr ≤ i → (u.setCstate p v).mem i = u.mem i := fun i out =>
    setCstate_out u p v i (by simp only [szChunkHdr] at out; omega)
  generalize u.setCstate p v = w at *
  have marked : ∀ o, w.MarkedDirty p o ↔ u.MarkedDirty p o := by
    intro o
    rw [Cache.MarkedDirty, pair, Cache.MarkedDirty]
  have area : ∀ i, w.mem (s.geo.getCachePtr p + i) = s.mem (s.geo.getCachePtr p + i) := by
    intro i
    simp only [Geometry.getCachePtr]
    rw [memory _ (by omega), h.memory _ (by omega)]
  have synced : ∀ o, o < w.bcount p → ¬ w.MarkedDirty p o → ∀ i, i < w.geo.blockSize →
      w.dev.bytes ((w.bstart p + o) * w.geo.blockSize + i) =
        w.mem (w.geo.getCachePtr p + (o * w.geo.blockSize + i)) := by
    intro o ho unmarked i hi
    rw [bcount] at ho
    rw [geo] at hi
    rw [geo, dev, bstart, area]
    exact h.synced o ho (fun d => unmarked ((marked o).mpr d)) i hi
  refine ⟨geo, by rw [dev, h.nblocks], ?_, ?_, bstart, bcount, by rw [Cache.Present, state]; exact flag, ?_, ?_, ?_⟩
  · intro i out
    rw [memory i (by omega), h.memory i (by simp only [szChunkHdr] at *; omega)]
  · intro x out
    rw [dev, h.bytes x out]
  · constructor
    · rw [geo, bstart]
      exact loaded.aligned
    · rw [dev, h.nblocks, bstart]
      exact loaded.start
    · rw [geo, dev, h.nblocks, bstart, bcount]
      exact loaded.count
    · intro i hi
      rw [bcount, geo] at hi
      rw [geo, bstart, area]
      exact loaded.data i hi
    · intro o ho
      rw [bcount] at ho
      rw [pair]
      rcases h.pair o ho with same | present
      · rw [same]
        exact loaded.held o ho
      · rw [present]
        decide
    · exact synced
    · intro dirty
      exact absurd ((marked 0).mp dirty) clean
    · intro o ho dirty
      rw [bcount] at ho ⊢
      exact (marked _).mpr (last o ho ((marked o).mp dirty))
  · rw [← complete]
    constructor
    · intro done o ho
      exact fun dirty => (done o (by rw [bcount]; exact ho)).1 ((marked o).mpr dirty)
    · intro none o ho
      have unmarked : ¬ w.MarkedDirty p o := fun dirty => none o (by rw [← bcount]; exact ho) ((marked o).mp dirty)
      exact ⟨unmarked, synced o ho unmarked⟩
  · intro a member
    rw [log] at member
    exact h.log a member

theorem flushChunk_dirty {u : Cache} (dirty : s.Dirty p)
    (loop : Cache.flushLoop p (s.bcount p + 1) s (s.bstart p) (s.bstart p) 0 = u) :
    s.flushChunk p = u.setCstate p (u.cstate p &&& ~~~cbstateDirty) := by
  rw [Cache.flushChunk, if_pos dirty]
  simp only [loop]

/-- A chunk whose first block is dirty. -/
theorem Loaded.flushChunk_first (loaded : Loaded s disk p) (fits : s.geo.Fits s.dev.nblocks)
    (present : s.Present p) (first : s.MarkedDirty p 0) : ChunkFlushed s (s.flushChunk p) disk p := by
  have positive := loaded.positive fits
  have whole := flushLoop_all loaded fits (loaded.first first).2 (s.bcount p + 1) 0 (by omega) (by omega)
  obtain ⟨flushed, pairs⟩ :=
    loaded.flushing.flushBuffer loaded fits (show 0 + s.bcount p ≤ s.bcount p by omega) (by omega)
  rw [Nat.add_zero (s.bstart p)] at whole flushed pairs
  rw [flushChunk_dirty (loaded.first first).1 whole]
  generalize s.flushBuffer p (s.bstart p) (s.bcount p) = u at flushed pairs
  have unmarked : ∀ o, o < s.bcount p → ¬ u.MarkedDirty p o := by
    intro o ho
    rw [Cache.MarkedDirty, pairs, if_pos (by omega)]
    decide
  apply flushed.finish loaded fits present (unmarked 0 positive)
  · exact fun o ho marked => absurd marked (unmarked o ho)
  · exact ⟨fun _ _ => first, fun _ => unmarked⟩

/-- A chunk whose first block is clean: the runs after it start too low. -/
theorem Loaded.flushChunk_rest (loaded : Loaded s disk p) (fits : s.geo.Fits s.dev.nblocks)
    (present : s.Present p) (dirty : s.Dirty p) (first : ¬ s.MarkedDirty p 0) :
    ChunkFlushed s (s.flushChunk p) disk p := by
  have positive := loaded.positive fits
  have h := loaded.flushing
  have round := h.flushLoop_succ (s.bcount p) 0 (s.bstart p) 0 positive
  rw [if_neg (fun both => first ((h.bstate loaded positive).mp both)), if_neg (by omega)] at round
  obtain ⟨flushed, last⟩ := flushLoop_rest loaded fits (s.bcount p) s 1 0 0 h (by omega) (by omega) (by omega) rfl
  rw [Nat.add_zero (s.bstart p)] at round flushed last
  rw [flushChunk_dirty dirty round]
  generalize Cache.flushLoop p (s.bcount p) s (s.bstart p + (0 + 1)) (s.bstart p) 0 = u at flushed last
  have before : ∀ o, o < s.bcount p → u.MarkedDirty p o → s.MarkedDirty p o := by
    intro o ho marked
    rw [Cache.MarkedDirty] at marked
    rcases flushed.pair o ho with same | clean
    · rwa [same] at marked
    · rw [clean] at marked
      exact absurd (by decide) marked
  have lastMark : u.MarkedDirty p (s.bcount p - 1) ↔ s.MarkedDirty p (s.bcount p - 1) := by
    rw [Cache.MarkedDirty, last, Cache.MarkedDirty]
  apply flushed.finish loaded fits present (fun marked => first (before 0 positive marked))
  · exact fun o ho marked => lastMark.mpr (loaded.last o ho (before o ho marked))
  · constructor
    · rintro unmarked ⟨o, ho, marked⟩
      exact absurd (lastMark.mpr (loaded.last o ho marked)) (unmarked _ (by omega))
    · intro ready o ho marked
      exact first (ready ⟨o, ho, before o ho marked⟩)

theorem Loaded.flushChunk (loaded : Loaded s disk p) (fits : s.geo.Fits s.dev.nblocks)
    (present : s.Present p) : ChunkFlushed s (s.flushChunk p) disk p := by
  by_cases dirty : s.Dirty p
  · by_cases first : s.MarkedDirty p 0
    · exact loaded.flushChunk_first fits present first
    · exact loaded.flushChunk_rest fits present dirty first
  · rw [flushChunk_clean dirty]
    refine ⟨rfl, rfl, fun _ _ => rfl, fun _ _ => rfl, rfl, rfl, present, loaded, ?_, fun _ => Or.inl⟩
    constructor
    · rintro done ⟨o, ho, marked⟩
      exact absurd marked (done o ho).1
    · intro ready o ho
      have unmarked : ¬ s.MarkedDirty p o := fun marked =>
        dirty (loaded.first (ready ⟨o, ho, marked⟩)).1
      exact ⟨unmarked, loaded.synced o ho unmarked⟩

theorem Alike.marked (alike : Alike s t p) {o : Nat} (ho : o < s.geo.chunkSize) :
    t.MarkedDirty p o ↔ s.MarkedDirty p o := by
  rw [Cache.MarkedDirty, alike.pair o ho, Cache.MarkedDirty]

theorem Alike.ready (alike : Alike s t p) (loaded : Loaded s disk p) (fits : s.geo.Fits s.dev.nblocks) :
    ChunkReady t p ↔ ChunkReady s p := by
  have within := loaded.within
  rw [ChunkReady, ChunkReady, alike.head.bcount, alike.marked fits.chunk_pos]
  have same : (∃ o, o < s.bcount p ∧ t.MarkedDirty p o) ↔ ∃ o, o < s.bcount p ∧ s.MarkedDirty p o :=
    exists_congr fun o => and_congr_right fun ho => alike.marked (by omega)
  rw [same]

theorem Alike.complete (alike : Alike s t p) (loaded : Loaded s disk p) (geo : t.geo = s.geo)
    (bytes : ∀ x, s.bstart p * s.geo.blockSize ≤ x → x < (s.bstart p + s.bcount p) * s.geo.blockSize →
      t.dev.bytes x = s.dev.bytes x) : ChunkComplete t p ↔ ChunkComplete s p := by
  have within := loaded.within
  rw [ChunkComplete, ChunkComplete, alike.head.bcount, alike.head.bstart, geo]
  refine forall_congr' fun o => forall_congr' fun ho => and_congr ?_ ?_
  · rw [alike.marked (by omega)]
  · refine forall_congr' fun i => forall_congr' fun hi => ?_
    have place := block_inside ho hi
    have area := Nat.mul_le_mul_right s.geo.blockSize within
    rw [alike.area _ (by omega), bytes _ (by rw [Nat.add_mul]; omega) (by rw [Nat.add_mul, Nat.add_mul]; omega)]

end Flush

/-! ## All chunks -/

/-- The first `k` chunks have been flushed. -/
structure FlushedTo (s t : Cache) (disk : Nat → Byte) (k : Nat) : Prop where
  geo : t.geo = s.geo
  nblocks : t.dev.nblocks = s.dev.nblocks
  inv : Inv t disk
  present : ∀ c, c < s.geo.numChunks → (t.Present (s.geo.addr c) ↔ s.Present (s.geo.addr c))
  bstart : ∀ c, c < s.geo.numChunks → t.bstart (s.geo.addr c) = s.bstart (s.geo.addr c)
  later : ∀ c, c < s.geo.numChunks → k ≤ c → Alike s t (s.geo.addr c)
  complete : ∀ c, c < k → s.Present (s.geo.addr c) →
    (ChunkComplete t (s.geo.addr c) ↔ ChunkReady s (s.geo.addr c))
  log : ∀ a ∈ t.log, a ∈ s.log ∨ a.Inside s.geo

/-- The invariant after one chunk was flushed. -/
theorem ChunkFlushed.inv {t u : Cache} {disk : Nat → Byte} {k : Nat} (inv : Inv t disk)
    (hk : k < t.geo.numChunks) (present : t.Present (t.geo.addr k))
    (flushed : ChunkFlushed t u disk (t.geo.addr k)) : Inv u disk := by
  have size := t.geo.chunkSz_eq
  apply inv.replace hk flushed.geo flushed.nblocks (fun i out => flushed.memory i (by omega)) flushed.present
    flushed.loaded
  · intro d hd ne here same
    rw [flushed.bstart] at same
    exact ne (inv.unique d k hd hk here present same)
  · intro _
    exact flushed.bstart.symm
  · intro x out
    rw [flushed.bstart, flushed.bcount] at out
    exact ⟨flushed.bytes x out, rfl⟩

/-- Flushing one chunk leaves the others and their blocks on the device alone. -/
theorem ChunkFlushed.other {t u : Cache} {disk : Nat → Byte} {c k : Nat} (inv : Inv t disk)
    (flushed : ChunkFlushed t u disk (t.geo.addr k)) (ne : c ≠ k) : Alike t u (t.geo.addr c) := by
  apply ChunkSame.alike _ inv.fits
  intro i low high
  apply flushed.memory
  have size := t.geo.chunkSz_eq
  rcases t.geo.addr_apart ne with h | h <;> omega

theorem ChunkFlushed.other_complete {t u : Cache} {disk : Nat → Byte} {c k : Nat} (inv : Inv t disk)
    (hk : k < t.geo.numChunks) (present : t.Present (t.geo.addr k))
    (flushed : ChunkFlushed t u disk (t.geo.addr k)) (ne : c ≠ k) (hc : c < t.geo.numChunks)
    (here : t.Present (t.geo.addr c)) : ChunkComplete u (t.geo.addr c) ↔ ChunkComplete t (t.geo.addr c) := by
  have loaded := inv.loaded c hc here
  have flushedLoaded := inv.loaded k hk present
  have within := loaded.within
  have withinK := flushedLoaded.within
  have different : t.bstart (t.geo.addr c) ≠ t.bstart (t.geo.addr k) := fun same =>
    ne (inv.unique c k hc hk here present same)
  apply (flushed.other inv ne).complete loaded flushed.geo
  intro x low high
  apply flushed.bytes
  rcases pieces_apart loaded.aligned flushedLoaded.aligned different with h | h
  · left
    exact lt_of_lt_of_le high (Nat.mul_le_mul_right _ (by omega))
  · right
    exact le_trans (Nat.mul_le_mul_right _ (by omega)) low

theorem Alike.trans {s t u : Cache} {p : Nat} (h : Alike s t p) (k : Alike t u p) (geo : t.geo = s.geo) :
    Alike s u p := by
  refine ⟨fun i low high => (k.head i low high).trans (h.head i low high), fun o ho => ?_, fun i hi => ?_⟩
  · exact (k.pair o (geo ▸ ho)).trans (h.pair o ho)
  · have := k.area i (geo ▸ hi)
    rw [geo] at this
    exact this.trans (h.area i hi)

/-- One chunk more. -/
theorem FlushedTo.succ {s t : Cache} {disk : Nat → Byte} {k : Nat} (inv : Inv s disk)
    (h : FlushedTo s t disk k) (hk : k < s.geo.numChunks) :
    FlushedTo s (t.flushChunk (s.geo.addr k)) disk (k + 1) := by
  have geo := h.geo
  by_cases present : t.Present (s.geo.addr k)
  · have hk' : k < t.geo.numChunks := geo ▸ hk
    have present' : t.Present (t.geo.addr k) := geo ▸ present
    have flushed := (h.inv.loaded k hk' present').flushChunk h.inv.fits present'
    have after := flushed.inv h.inv hk' present'
    have other := fun c ne => ChunkFlushed.other (c := c) h.inv flushed ne
    have otherComplete := fun c ne => ChunkFlushed.other_complete (c := c) h.inv hk' present' flushed ne
    rw [geo] at flushed other otherComplete after
    generalize t.flushChunk (s.geo.addr k) = u at flushed other otherComplete after
    refine ⟨flushed.geo.trans geo, flushed.nblocks.trans h.nblocks, after, ?_, ?_, ?_, ?_, ?_⟩
    · intro c hc
      by_cases same : c = k
      · subst same
        exact ⟨fun _ => (h.present c hc).mp present, fun _ => flushed.present⟩
      · exact (other c same).present.trans (h.present c hc)
    · intro c hc
      by_cases same : c = k
      · subst same
        exact flushed.bstart.trans (h.bstart c hc)
      · exact (other c same).head.bstart.trans (h.bstart c hc)
    · intro c hc le
      exact (h.later c hc (by omega)).trans (other c (by omega)) geo
    · intro c hc here
      rcases Nat.lt_succ_iff_lt_or_eq.mp hc with old | rfl
      · rw [otherComplete c (by omega) (by omega) ((h.present c (by omega)).mpr here)]
        exact h.complete c old here
      · rw [flushed.complete]
        exact (h.later c hk (le_refl c)).ready (inv.loaded c hk here) inv.fits
    · intro a member
      rcases flushed.log a member with old | inside
      · exact h.log a old
      · exact Or.inr (geo ▸ inside)
  · have vacant := h.inv.empty k (geo ▸ hk) (geo ▸ present)
    rw [geo] at vacant
    have clean : ¬ t.Dirty (s.geo.addr k) := by
      rw [Cache.Dirty, vacant]
      exact fun h => h rfl
    rw [flushChunk_clean clean]
    refine ⟨h.geo, h.nblocks, h.inv, h.present, h.bstart, fun c hc le => h.later c hc (by omega), ?_, h.log⟩
    intro c hc here
    rcases Nat.lt_succ_iff_lt_or_eq.mp hc with old | rfl
    · exact h.complete c old here
    · exact absurd ((h.present c hk).mpr here) present

/-- `cache_flush` of an entry flushes every chunk once. -/
theorem Inv.flush {s : Cache} {disk : Nat → Byte} (inv : Inv s disk) :
    FlushedTo s s.flush disk s.geo.numChunks := by
  have loop : ∀ {round : Cache → Nat → Cache},
      (∀ (t : Cache) (num p : Nat), t.geo.getChunk num = some p → round t num = t.flushChunk p) →
      ∀ k, k ≤ s.geo.numChunks → FlushedTo s ((List.range k).foldl round s) disk k := by
    intro round flushes k
    induction k with
    | zero =>
      intro _
      exact ⟨rfl, rfl, inv, fun _ _ => Iff.rfl, fun _ _ => rfl,
        fun _ _ _ => ⟨fun _ _ _ => rfl, fun _ _ => rfl, fun _ _ => rfl⟩, fun c hc => by omega, fun _ => Or.inl⟩
    | succ k ih =>
      intro hk
      have before := ih (by omega)
      have chunk : ∀ t : Cache, t.geo = s.geo → t.geo.getChunk k = some (s.geo.addr k) := by
        intro t geo
        rw [geo]
        exact inv.fits.getChunk hk
      rw [List.range_succ, List.foldl_append, List.foldl_cons, List.foldl_nil, flushes _ _ _ (chunk _ before.geo)]
      exact before.succ inv hk
  exact loop (fun t num p get => by simp only [get]) _ (le_refl _)

end PreTeO.Bdev
