import PreTeO.Bdev.CacheFlush

/-!
# Reads and writes

One round of `cache_io` copies a piece of the request out of or into the buffer of one chunk. As long
as the piece stays inside the data area, a read round returns what the history left there and a write
round makes its bytes part of the history; the marks it sets reach from the first block written to
the end of the chunk and, in chunks behind the first, as many blocks further as lie before the chunk.
-/

namespace PreTeO.Bdev
set_option autoImplicit false
open PreTeO.Lib

/-! ## Selection again -/

/-- `select_chunk` reads the first twenty bytes of each header. -/
theorem selectLoop_congr {s s' : Cache} (geo : s'.geo = s.geo) (fits : s.geo.Fits s.dev.nblocks) (b : Nat)
    (same : ∀ c, c < s.geo.numChunks → ∀ i, s.geo.addr c ≤ i → i < s.geo.addr c + 20 → s'.mem i = s.mem i) :
    ∀ fuel nc free minRef tmexp,
      s'.selectLoop b fuel nc free minRef tmexp = s.selectLoop b fuel nc free minRef tmexp := by
  intro fuel
  induction fuel with
  | zero =>
    intro nc free minRef tmexp
    rw [Cache.selectLoop, Cache.selectLoop]
  | succ fuel ih =>
    intro nc free minRef tmexp
    rw [Cache.selectLoop, Cache.selectLoop, geo]
    by_cases more : nc < s.geo.numChunks
    · rw [fits.getChunk more]
      have head : HeadSame s s' (s.geo.addr nc) := fun i low high => same nc more i low (by omega)
      have present : s'.Present (s.geo.addr nc) ↔ s.Present (s.geo.addr nc) := by
        rw [Cache.Present, head.cstate, Cache.Present]
      have stamp : s'.tstamp (s.geo.addr nc) = s.tstamp (s.geo.addr nc) :=
        Mem.load_congr fun i low high => same nc more i (by omega) (by omega)
      simp only [head.bstart, present, stamp, ih]
    · rw [Geometry.getChunk, if_neg more]

theorem selected_congr {s s' : Cache} (geo : s'.geo = s.geo) (fits : s.geo.Fits s.dev.nblocks) (b : Nat)
    (same : ∀ c, c < s.geo.numChunks → ∀ i, s.geo.addr c ≤ i → i < s.geo.addr c + 20 → s'.mem i = s.mem i) :
    s'.selected b = s.selected b := by
  rw [Cache.selected, geo]
  exact selectLoop_congr geo fits b same _ _ _ _ _

/-! ## A write round -/

/-- The state after the copy of a write: `n` bytes at offset `x` of the data area of the chunk at `p`. -/
def Cache.copyIn (s : Cache) (p x n : Nat) (f : Nat → Byte) : Cache :=
  let a := s.geo.getCachePtr p + x
  Cache.touch { s with mem := s.mem.blit a n f } ⟨.data, p, a, a + n⟩

/-- What a write round leaves in the chunk at `p`. -/
structure Written (s t : Cache) (p o count x n : Nat) (f : Nat → Byte) : Prop where
  geo : t.geo = s.geo
  dev : t.dev = s.dev
  bstart : t.bstart p = s.bstart p
  bcount : t.bcount p = s.bcount p
  cstate : t.cstate p = s.cstate p ||| cbstateDirty
  pair : ∀ k, k < s.geo.chunkSize →
    t.pair p k = if o ≤ k ∧ k < o + count then cbstatePresent ||| cbstateDirty else s.pair p k
  data : ∀ i, t.mem (s.geo.getCachePtr p + i) =
    Mem.blit (fun i => s.mem (s.geo.getCachePtr p + i)) x n f i
  outside : ∀ i, i < p ∨ p + s.geo.chunkSz ≤ i → t.mem i = s.mem i
  log : ∀ a ∈ t.log, a ∈ s.log ∨ a.Inside s.geo

section Write

variable {s : Cache} {disk : Nat → Byte}

theorem dirty_eq {w u : Cache} {buf : Buffer} {b : Nat} (selected : w.selected b = some buf.chunk)
    (marks : (w.stamp buf.chunk).setBstate buf.chunk b buf.bcount (cbstatePresent ||| cbstateDirty) = u) :
    w.dirty buf b = u.setCstate buf.chunk (u.cstate buf.chunk ||| cbstateDirty) := by
  have select : w.selectChunk b = (some buf.chunk, w.stamp buf.chunk) := by
    rw [Cache.selectChunk, selected]
  rw [Cache.dirty, select]
  simp only [if_true, marks]

/-- `cache_dirty` after the copy. -/
theorem dirty_written {p b x n : Nat} {f : Nat → Byte} (fits : s.geo.Fits s.dev.nblocks)
    (selected : s.selected b = some p) (low : s.bstart p ≤ b) (high : b < s.bstart p + s.bcount p)
    (count : s.bcount p ≤ s.geo.chunkSize) (start : s.bstart p < s.dev.nblocks)
    (room : x + n ≤ s.geo.chunkSize * s.geo.blockSize)
    (marks : szChunkHdr + (s.bstart p + s.geo.chunkSize + 3) / 4 ≤ s.geo.hdrSize)
    (same : (s.copyIn p x n f).selected b = s.selected b) :
    Written s ((s.copyIn p x n f).dirty (s.bufferAt p b) b) p (b - s.bstart p)
      (s.bufferAt p b).bcount x n f := by
  have states := fits.states
  have size := s.geo.chunkSz_eq
  have blocks := fits.blocks
  have chunkLt := s.geo.chunk_lt
  obtain ⟨o, rfl⟩ := Nat.exists_eq_add_of_le low
  rw [dirty_eq (show _ = some (s.bufferAt p (s.bstart p + o)).chunk from same.trans selected) rfl]
  have chunk : (s.bufferAt p (s.bstart p + o)).chunk = p := rfl
  have bcount : (s.bufferAt p (s.bstart p + o)).bcount = s.bstart p + s.geo.chunkSize - o := by
    simp only [Cache.bufferAt, Nat.add_sub_cancel_left]
  rw [chunk, bcount, Nat.add_sub_cancel_left]
  simp only [szChunkHdr] at states marks
  -- the copy changes the data area, the stamp eight bytes of the header
  have copied : ∀ i, i < p + s.geo.hdrSize ∨ p + s.geo.chunkSz ≤ i → (s.copyIn p x n f).mem i = s.mem i := by
    intro i out
    simp only [Cache.copyIn, Cache.touch]
    apply Mem.blit_out
    simp only [Geometry.getCachePtr]
    omega
  have stamped : ∀ i, i < p + 12 ∨ p + 20 ≤ i →
      ((s.copyIn p x n f).stamp p).mem i = (s.copyIn p x n f).mem i := fun i out => stamp_out i out
  have geo : ((s.copyIn p x n f).stamp p).geo = s.geo := by
    simp only [Cache.stamp, Cache.copyIn, Cache.touch]
  have dev : ((s.copyIn p x n f).stamp p).dev = s.dev := by
    simp only [Cache.stamp, Cache.copyIn, Cache.touch]
  have log : ((s.copyIn p x n f).stamp p).log =
      ⟨.data, p, s.geo.getCachePtr p + x, s.geo.getCachePtr p + x + n⟩ :: s.log := by
    simp only [Cache.stamp, Cache.copyIn, Cache.touch]
  have area : ∀ i, ((s.copyIn p x n f).stamp p).mem (s.geo.getCachePtr p + i) =
      Mem.blit (fun i => s.mem (s.geo.getCachePtr p + i)) x n f i := by
    intro i
    rw [stamped _ (by simp only [Geometry.getCachePtr]; omega)]
    simp only [Cache.copyIn, Cache.touch]
    exact Mem.blit_base s.mem (s.geo.getCachePtr p) x n i f
  generalize (s.copyIn p x n f).stamp p = w at *
  have head : HeadSame s w p := fun i low high => by rw [stamped i (by omega), copied i (by omega)]
  have marked : Marked w (w.setBstate p (s.bstart p + o) (s.bstart p + s.geo.chunkSize - o)
      (cbstatePresent ||| cbstateDirty)) p o (s.bstart p + s.geo.chunkSize - o)
      (cbstatePresent ||| cbstateDirty) := by
    rw [← head.bstart]
    exact setBstate_marked (by rw [head.bcount]; omega) (by rw [head.bstart]; omega)
  have stateBytes : ∀ i, i < p + 28 ∨ p + s.geo.hdrSize ≤ i → (w.setBstate p (s.bstart p + o)
      (s.bstart p + s.geo.chunkSize - o) (cbstatePresent ||| cbstateDirty)).mem i = w.mem i := by
    intro i out
    apply marked.outside
    simp only [getBstatePtr, szChunkHdr] at *
    omega
  generalize w.setBstate p (s.bstart p + o) (s.bstart p + s.geo.chunkSize - o)
    (cbstatePresent ||| cbstateDirty) = u at marked stateBytes
  constructor
  · exact marked.geo.trans geo
  · exact marked.dev.trans dev
  · rw [setCstate_bstart, marked.head.bstart, head.bstart]
  · rw [setCstate_bcount, marked.head.bcount, head.bcount]
  · rw [setCstate_cstate, marked.head.cstate, head.cstate]
  · intro k hk
    rw [setCstate_pair, marked.pair]
    have before : w.pair p k = s.pair p k := by
      simp only [Cache.pair, getBstatePtr, szChunkHdr]
      rw [stamped _ (by omega), copied _ (by omega)]
    rw [before]
  · intro i
    rw [setCstate_out _ _ _ _ (by simp only [Geometry.getCachePtr]; omega),
      stateBytes _ (by simp only [Geometry.getCachePtr]; omega), area]
  · intro i out
    rw [setCstate_out _ _ _ _ (by omega), stateBytes _ (by omega), stamped _ (by omega), copied _ (by omega)]
  · intro a member
    replace member : a ∈ u.log := member
    rcases marked.log a member with old | ⟨area, chunk, lo, hi⟩
    · rw [log, List.mem_cons] at old
      rcases old with rfl | old
      · right
        simp only [Access.Inside, Geometry.getCachePtr]
        omega
      · exact Or.inl old
    · right
      simp only [Access.Inside, area, chunk]
      simp only [getBstatePtr, szChunkHdr] at *
      omega

/-- A written chunk: the bytes written are its blocks' new history, and every block from the first one
written on is dirty. -/
theorem Written.loaded {t : Cache} {p b off n : Nat} {f : Nat → Byte} (loaded : Loaded s disk p)
    (low : s.bstart p ≤ b) (high : b < s.bstart p + s.bcount p)
    (range : (b - s.bstart p) * s.geo.blockSize + off + n ≤ s.bcount p * s.geo.blockSize)
    (written : Written s t p (b - s.bstart p) (s.bufferAt p b).bcount
      ((b - s.bstart p) * s.geo.blockSize + off) n f) :
    Loaded t (Mem.blit disk (b * s.geo.blockSize + off) n f) p := by
  obtain ⟨o, rfl⟩ := Nat.exists_eq_add_of_le low
  have within := loaded.within
  have bcount : (s.bufferAt p (s.bstart p + o)).bcount = s.bstart p + s.geo.chunkSize - o := by
    simp only [Cache.bufferAt, Nat.add_sub_cancel_left]
  rw [bcount] at written
  rw [Nat.add_sub_cancel_left] at written range
  have pair : ∀ k, k < s.bcount p →
      t.pair p k = if o ≤ k then cbstatePresent ||| cbstateDirty else s.pair p k := by
    intro k hk
    rw [written.pair k (by omega)]
    by_cases reached : o ≤ k
    · rw [if_pos (by omega), if_pos reached]
    · rw [if_neg (by omega), if_neg reached]
  have marked : ∀ k, k < s.bcount p → (t.MarkedDirty p k ↔ o ≤ k ∨ s.MarkedDirty p k) := by
    intro k hk
    rw [Cache.MarkedDirty, pair k hk]
    split
    · next reached => exact ⟨fun _ => Or.inl reached, fun _ => by decide⟩
    · next before => exact ⟨Or.inr, fun h => h.resolve_left before⟩
  constructor
  · rw [written.geo, written.bstart]
    exact loaded.aligned
  · rw [written.dev, written.bstart]
    exact loaded.start
  · rw [written.geo, written.dev, written.bstart, written.bcount]
    exact loaded.count
  · intro i hi
    rw [written.bcount, written.geo] at hi
    have base : (s.bstart p + o) * s.geo.blockSize + off =
        s.bstart p * s.geo.blockSize + (o * s.geo.blockSize + off) := by ring
    rw [written.geo, written.bstart, written.data, base, Mem.blit_base]
    by_cases inside : o * s.geo.blockSize + off ≤ i ∧ i < o * s.geo.blockSize + off + n
    · rw [Mem.blit_in inside.1 inside.2, Mem.blit_in inside.1 inside.2]
    · rw [Mem.blit_out (by omega), Mem.blit_out (by omega)]
      exact loaded.data i hi
  · intro k hk
    rw [written.bcount] at hk
    rw [pair k hk]
    split
    · decide
    · exact loaded.held k hk
  · intro k hk clean i hi
    rw [written.bcount] at hk
    rw [written.geo] at hi ⊢
    rw [marked k hk] at clean
    obtain ⟨before, unmarked⟩ := not_or.mp clean
    have place := block_inside (Nat.lt_of_not_le before) hi
    rw [written.dev, written.bstart, written.data, Mem.blit_out (by omega)]
    exact loaded.synced k hk unmarked i hi
  · intro first
    have positive : 0 < s.bcount p := by omega
    refine ⟨?_, fun k hk => ?_⟩
    · have table : ∀ v : BitVec 2, (v ||| cbstateDirty) &&& cbstateDirty ≠ 0#2 := by decide
      rw [Cache.Dirty, written.cstate]
      exact table _
    · rw [written.bcount] at hk
      rw [marked 0 positive] at first
      rw [marked k hk]
      rcases first with zero | old
      · left
        omega
      · exact Or.inr ((loaded.first old).2 k hk)
  · intro k hk _
    rw [written.bcount]
    exact (marked _ (by omega)).mpr (Or.inl (by omega))

/-- A piece of a request that stays inside the data area of the chunk of block `b`. -/
def Geometry.Inside (g : Geometry) (b off n : Nat) : Prop :=
  (b - g.piece b) * g.blockSize + off + n ≤ g.chunkSize * g.blockSize

instance (g : Geometry) (b off n : Nat) : Decidable (g.Inside b off n) := inferInstanceAs (Decidable (_ ≤ _))

/-- The marks of a write from block `b` on stay inside the header. -/
def Geometry.MarksFit (g : Geometry) (b : Nat) : Prop :=
  szChunkHdr + (g.piece b + g.chunkSize + 3) / 4 ≤ g.hdrSize

instance (g : Geometry) (b : Nat) : Decidable (g.MarksFit b) := inferInstanceAs (Decidable (_ ≤ _))

/-- The chunk that covers a block starts at the block's piece. -/
theorem Loaded.piece {p b : Nat} (loaded : Loaded s disk p) (fits : s.geo.Fits s.dev.nblocks)
    (covers : s.Covers p b) : s.bstart p = s.geo.piece b := by
  have low := s.geo.piece_le b
  have high := s.geo.lt_piece fits.chunk_pos b
  by_contra ne
  obtain ⟨lowC, highC⟩ := covers
  rcases pieces_apart loaded.aligned (Dvd.intro_left _ rfl : s.geo.chunkSize ∣ s.geo.piece b) ne with h | h <;>
    omega

/-- A copy into a data area changes no header. -/
theorem copyIn_selected {c x n : Nat} {f : Nat → Byte} (fits : s.geo.Fits s.dev.nblocks) (b : Nat)
    (room : x + n ≤ s.geo.chunkSize * s.geo.blockSize) :
    (s.copyIn (s.geo.addr c) x n f).selected b = s.selected b := by
  have states := fits.states
  have size := s.geo.chunkSz_eq
  simp only [szChunkHdr] at states
  apply selected_congr (by simp only [Cache.copyIn, Cache.touch]) fits b
  intro d _ i low high
  simp only [Cache.copyIn, Cache.touch]
  apply Mem.blit_out
  simp only [Geometry.getCachePtr]
  by_cases same : d = c
  · subst same
    omega
  · rcases s.geo.addr_apart same with h | h <;> omega

/-- A piece inside the data area and inside the device lies in the blocks the chunk has. -/
theorem Loaded.range {p b off n : Nat} (loaded : Loaded s disk p) (low : s.bstart p ≤ b)
    (room : (b - s.bstart p) * s.geo.blockSize + off + n ≤ s.geo.chunkSize * s.geo.blockSize)
    (range : b * s.geo.blockSize + off + n ≤ s.dev.nblocks * s.geo.blockSize) :
    (b - s.bstart p) * s.geo.blockSize + off + n ≤ s.bcount p * s.geo.blockSize := by
  obtain ⟨o, rfl⟩ := Nat.exists_eq_add_of_le low
  have count := loaded.count
  have start := loaded.start
  rw [Nat.add_sub_cancel_left] at *
  by_cases full : s.bcount p = s.geo.chunkSize
  · rwa [full]
  · have finish : s.dev.nblocks = s.bstart p + s.bcount p := by omega
    rw [finish, Nat.add_mul, Nat.add_mul] at range
    omega

/-- One round of a write. -/
theorem Inv.writeRound {b c off n : Nat} {f : Nat → Byte} (inv : Inv s disk) (hc : c < s.geo.numChunks)
    (present : s.Present (s.geo.addr c)) (covers : s.Covers (s.geo.addr c) b) (inside : b < s.dev.nblocks)
    (room : s.geo.Inside b off n) (range : b * s.geo.blockSize + off + n ≤ s.dev.nblocks * s.geo.blockSize)
    (marks : s.geo.MarksFit b) :
    Inv ((s.copyIn (s.geo.addr c) ((b - s.geo.piece b) * s.geo.blockSize + off) n f).dirty
        (s.bufferAt (s.geo.addr c) b) b) (Mem.blit disk (b * s.geo.blockSize + off) n f) ∧
      Grows s ((s.copyIn (s.geo.addr c) ((b - s.geo.piece b) * s.geo.blockSize + off) n f).dirty
        (s.bufferAt (s.geo.addr c) b) b) b := by
  have loaded := inv.loaded c hc present
  have start := loaded.piece inv.fits covers
  have within := loaded.within
  have count := loaded.count
  have states := inv.fits.states
  have size := s.geo.chunkSz_eq
  obtain ⟨low, high⟩ := covers
  have here : b < s.bstart (s.geo.addr c) + s.bcount (s.geo.addr c) := by omega
  rw [Geometry.Inside, ← start] at room
  rw [Geometry.MarksFit, ← start] at marks
  rw [← start]
  have selected := inv.selected_holder hc present ⟨low, high⟩
  have same := copyIn_selected (c := c) (x := (b - s.bstart (s.geo.addr c)) * s.geo.blockSize + off) (f := f)
    inv.fits b room
  have written := dirty_written inv.fits selected low here within loaded.start room marks same
  generalize Cache.dirty _ _ _ = t at written
  have after := written.loaded loaded low here (loaded.range low room range)
  have flag : t.Present (s.geo.addr c) := by
    have table : ∀ v : BitVec 2, v &&& cbstatePresent ≠ 0#2 → (v ||| cbstateDirty) &&& cbstatePresent ≠ 0#2 := by
      decide
    rw [Cache.Present, written.cstate]
    exact table _ present
  have other : ∀ d, d ≠ c → Alike s t (s.geo.addr d) := by
    intro d ne
    apply ChunkSame.alike _ inv.fits
    intro i lowI highI
    apply written.outside
    rcases s.geo.addr_apart ne with h | h <;> omega
  constructor
  · apply inv.replace hc written.geo (by rw [written.dev]) written.outside flag after
    · intro d hd ne hereD equal
      rw [written.bstart] at equal
      exact ne (inv.unique d c hd hc hereD present equal)
    · intro _
      exact written.bstart.symm
    · intro x out
      rw [written.bstart, written.bcount] at out
      refine ⟨by rw [written.dev], Mem.blit_out ?_⟩
      have span := loaded.range low room range
      obtain ⟨o, rfl⟩ := Nat.exists_eq_add_of_le low
      rw [Nat.add_sub_cancel_left] at span
      rw [Nat.add_mul] at out ⊢
      omega
  · refine ⟨written.geo, written.dev, ?_, ?_, written.log⟩
    · intro d hd hereD
      by_cases equal : d = c
      · subst equal
        exact ⟨flag, written.bstart⟩
      · exact ⟨(other d equal).present.mpr hereD, (other d equal).head.bstart⟩
    · intro d hd hereD absent
      by_cases equal : d = c
      · subst equal
        exact absurd present absent
      · exact absurd ((other d equal).present.mp hereD) absent

end Write

/-! ## Rounds of `cache_io` -/

/-- What a round does once it has its buffer. -/
def Cache.round (t : Cache) (write : Bool) (user : Nat → Byte) (pos : Nat) (buf : Buffer) (off n b : Nat) :
    (Nat → Byte) × Cache :=
  let r := t.copy write user pos buf off n
  (r.1, (if write then r.2.dirty buf b else r.2).bufferUnlock b)

theorem ioLoop_round {write : Bool} {s t : Cache} {user : Nat → Byte} {b bcount rest : Nat} {buf : Buffer}
    (fuel pos off : Nat) (more : bcount ≠ 0 ∧ rest ≠ 0)
    (lock : s.bufferLock lockFuel b = some (some buf, t)) :
    Cache.ioLoop write (fuel + 1) s user pos b bcount off rest =
      Cache.ioLoop write fuel (t.round write user pos buf off (min rest buf.bsize) b).2
        (t.round write user pos buf off (min rest buf.bsize) b).1 (pos + min rest buf.bsize)
        ((b + buf.bcount) % 2 ^ 32) (bcount - buf.bcount) 0 (rest - min rest buf.bsize) := by
  have bytes : (if rest < buf.bsize then rest else buf.bsize) = min rest buf.bsize := by
    split <;> omega
  have blocks : (if buf.bcount > bcount then 0 else bcount - buf.bcount) = bcount - buf.bcount := by
    split <;> omega
  rw [Cache.ioLoop, if_pos more, lock]
  simp only [bytes, blocks, Cache.round]

theorem ioLoop_done {write : Bool} {s : Cache} {user : Nat → Byte} (fuel pos b bcount off rest : Nat)
    (done : bcount = 0 ∨ rest = 0) :
    Cache.ioLoop write fuel s user pos b bcount off rest = some (⟨pos, user⟩, s) := by
  cases fuel with
  | zero => rfl
  | succ fuel => rw [Cache.ioLoop, if_neg (by omega)]

/-- Some chunk can serve block `b`. -/
def Cache.Room (s : Cache) (b : Nat) : Prop := ∃ c, c < s.geo.numChunks ∧ s.Usable (s.geo.addr c) b

instance (s : Cache) (b : Nat) : Decidable (s.Room b) :=
  inferInstanceAs (Decidable (∃ c, c < s.geo.numChunks ∧ _))

section Round

variable {s : Cache} {disk : Nat → Byte}

/-- What the history is after a round. -/
def after (write : Bool) (disk : Nat → Byte) (place n : Nat) (f : Nat → Byte) : Nat → Byte :=
  if write then Mem.blit disk place n f else disk

theorem copy_write (t : Cache) (user : Nat → Byte) (p b pos off n : Nat) :
    t.copy true user pos (t.bufferAt p b) off n =
      (user, t.copyIn p ((b - t.bstart p) * t.geo.blockSize + off) n fun i => user (pos + i)) := by
  simp only [Cache.copy, Cache.copyIn, Cache.bufferAt, Cache.touch, if_true, Nat.add_assoc]

/-- The access of a round's copy. -/
def Cache.access (t : Cache) (p b off n : Nat) : Access :=
  ⟨.data, p, t.geo.getCachePtr p + ((b - t.bstart p) * t.geo.blockSize + off),
    t.geo.getCachePtr p + ((b - t.bstart p) * t.geo.blockSize + off) + n⟩

theorem copy_read (t : Cache) (user : Nat → Byte) (p b pos off n : Nat) :
    t.copy false user pos (t.bufferAt p b) off n =
      (Mem.blit user pos n fun i => t.mem (t.geo.getCachePtr p + ((b - t.bstart p) * t.geo.blockSize + off + i)),
        t.touch (t.access p b off n)) := by
  simp only [Cache.copy, Cache.bufferAt, Cache.touch, Cache.access, Nat.add_assoc, Bool.false_eq_true, if_false]

/-- A round in the chunk `c` that was locked for it. -/
theorem Inv.roundAt {b c off n : Nat} (inv : Inv s disk) (write : Bool) (user : Nat → Byte) (pos : Nat)
    (hc : c < s.geo.numChunks) (present : s.Present (s.geo.addr c)) (covers : s.Covers (s.geo.addr c) b)
    (inside : b < s.dev.nblocks) (room : s.geo.Inside b off n)
    (range : b * s.geo.blockSize + off + n ≤ s.dev.nblocks * s.geo.blockSize)
    (marks : write = true → s.geo.MarksFit b) :
    Inv (s.round write user pos (s.bufferAt (s.geo.addr c) b) off n b).2
        (after write disk (b * s.geo.blockSize + off) n fun i => user (pos + i)) ∧
      Grows s (s.round write user pos (s.bufferAt (s.geo.addr c) b) off n b).2 b ∧
      (write = false → (s.round write user pos (s.bufferAt (s.geo.addr c) b) off n b).1 =
        Mem.blit user pos n fun i => disk (b * s.geo.blockSize + off + i)) := by
  have loaded := inv.loaded c hc present
  have start := loaded.piece inv.fits covers
  have size := s.geo.chunkSz_eq
  cases write with
  | true =>
    obtain ⟨inv', grows⟩ := inv.writeRound (f := fun i => user (pos + i)) hc present covers inside room range (marks rfl)
    simp only [Cache.round, copy_write, start, after, if_true]
    obtain ⟨unlocked, more⟩ := inv'.bufferUnlock b
    exact ⟨unlocked, grows.trans more, fun h => by cases h⟩
  | false =>
    simp only [Cache.round, copy_read, after, Bool.false_eq_true, if_false]
    have good : (s.access (s.geo.addr c) b off n).Inside s.geo := by
      rw [Geometry.Inside, ← start] at room
      simp only [Cache.access, Access.Inside, Geometry.getCachePtr]
      omega
    obtain ⟨unlocked, more⟩ := (inv.touch (s.access (s.geo.addr c) b off n)).bufferUnlock b
    refine ⟨unlocked, (Grows.touch b good).trans more, fun _ => Mem.blit_congr fun i hi => ?_⟩
    rw [Geometry.Inside, ← start] at room
    have span := loaded.range covers.1 room range
    rw [loaded.data _ (by omega)]
    obtain ⟨o, rfl⟩ := Nat.exists_eq_add_of_le covers.1
    rw [Nat.add_sub_cancel_left]
    exact congrArg disk (by ring)

/-- A round whose piece stays inside the data area. -/
theorem Inv.round {b : Nat} (inv : Inv s disk) (write : Bool) (user : Nat → Byte) (pos off n : Nat)
    (inside : b < s.dev.nblocks) (found : s.Room b) (room : s.geo.Inside b off n)
    (range : b * s.geo.blockSize + off + n ≤ s.dev.nblocks * s.geo.blockSize)
    (marks : write = true → s.geo.MarksFit b) :
    ∃ buf t, s.bufferLock lockFuel b = some (some buf, t) ∧
      buf.bcount = s.geo.piece b + s.geo.chunkSize - (b - s.geo.piece b) ∧
      buf.bsize = buf.bcount * s.geo.blockSize % 2 ^ 32 ∧
      Inv (t.round write user pos buf off n b).2
        (after write disk (b * s.geo.blockSize + off) n fun i => user (pos + i)) ∧
      Grows s (t.round write user pos buf off n b).2 b ∧
      (write = false → (t.round write user pos buf off n b).1 =
        Mem.blit user pos n fun i => disk (b * s.geo.blockSize + off + i)) := by
  have blocks := inv.fits.blocks
  obtain ⟨out, t, lock, locked⟩ := inv.bufferLock b (by omega)
  obtain ⟨result, inv', grows⟩ := locked
  have geo := grows.geo
  cases result with
  | full none =>
    obtain ⟨c, hc, usable⟩ := found
    exact absurd usable (none c hc)
  | beyond outside => omega
  | @granted c hc _ _ present covers =>
    rw [← geo] at hc present covers room range marks
    rw [← grows.dev] at inside range
    obtain ⟨keeps, more, bytes⟩ := inv'.roundAt write user pos hc present covers inside room range marks
    have start := (inv'.loaded c hc present).piece inv'.fits covers
    rw [geo] at hc present covers start keeps more bytes
    refine ⟨_, t, lock, ?_, ?_, keeps, grows.trans more, bytes⟩
    · simp only [Cache.bufferAt, geo, start]
    · simp only [Cache.bufferAt, geo]

end Round

end PreTeO.Bdev
