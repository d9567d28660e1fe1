import PreTeO.Bdev.CacheIo

/-!
# Whole requests

`get_chunk_buffer` gives the end of the chunk as an absolute block number, so a round of `cache_io`
believes its chunk reaches further the further the chunk lies from the start of the device, and the
next round starts behind that belief. A request is therefore served right if it stays inside one
chunk, or if it starts with a whole block of the device's first chunk and ends in the second one.
-/

namespace PreTeO.Bdev
set_option autoImplicit false
open PreTeO.Lib

/-! ## Requests that are served right -/

/-- How many bytes the buffer of block `b` is said to cover. -/
def Geometry.reach (g : Geometry) (b : Nat) : Nat :=
  (g.piece b + g.chunkSize - (b - g.piece b)) * g.blockSize % 2 ^ 32

/-- `size` bytes at offset `off` of block `b` are one round, and it stays inside its chunk. -/
def Geometry.OneRound (g : Geometry) (b off size : Nat) : Prop := g.Inside b off size ∧ size ≤ g.reach b

instance (g : Geometry) (b off size : Nat) : Decidable (g.OneRound b off size) :=
  inferInstanceAs (Decidable (_ ∧ _))

/-- The request starts with a whole block of the first chunk of the device and ends in the second. -/
def Geometry.TwoRounds (g : Geometry) (b off size : Nat) : Prop :=
  b < g.chunkSize ∧ off = 0 ∧ (g.chunkSize - b) * g.blockSize < size ∧
    g.OneRound g.chunkSize 0 (size - (g.chunkSize - b) * g.blockSize)

instance (g : Geometry) (b off size : Nat) : Decidable (g.TwoRounds b off size) :=
  inferInstanceAs (Decidable (_ ∧ _))

/-- Two chunks, one for block `b` and one for block `b'`. -/
def Cache.RoomForTwo (s : Cache) (b b' : Nat) : Prop :=
  ∃ c, c < s.geo.numChunks ∧ ∃ d, d < s.geo.numChunks ∧ c ≠ d ∧ s.Usable (s.geo.addr c) b ∧
    s.Usable (s.geo.addr d) b'

instance (s : Cache) (b b' : Nat) : Decidable (s.RoomForTwo b b') :=
  inferInstanceAs (Decidable (∃ c, c < s.geo.numChunks ∧ ∃ d, d < s.geo.numChunks ∧ _))

/-- The byte range lies on the device. -/
def Cache.InRange (s : Cache) (b off size : Nat) : Prop :=
  off < s.geo.blockSize ∧ b * s.geo.blockSize + off + size ≤ s.dev.nblocks * s.geo.blockSize

instance (s : Cache) (b off size : Nat) : Decidable (s.InRange b off size) :=
  inferInstanceAs (Decidable (_ ∧ _))

/-- A byte range the rounds of `cache_io` serve right in the state `s`. -/
def Cache.Sound (s : Cache) (write : Bool) (b off size : Nat) : Prop :=
  size = 0 ∨
    (s.geo.OneRound b off size ∧ s.Room b ∧ (write = true → s.geo.MarksFit b)) ∨
    (s.geo.TwoRounds b off size ∧ s.RoomForTwo b s.geo.chunkSize ∧
      (write = true → s.geo.MarksFit s.geo.chunkSize))

instance (s : Cache) (write : Bool) (b off size : Nat) : Decidable (s.Sound write b off size) :=
  inferInstanceAs (Decidable (_ ∨ _))

/-! ## Serving them -/

/-- What a request without a write-back leaves alone. -/
structure Kept (s s' : Cache) : Prop where
  geo : s'.geo = s.geo
  dev : s'.dev = s.dev
  log : ∀ a ∈ s'.log, a ∈ s.log ∨ a.Inside s.geo

theorem Grows.kept {s s' : Cache} {b : Nat} (h : Grows s s' b) : Kept s s' := ⟨h.geo, h.dev, h.log⟩

theorem Kept.trans {s t u : Cache} (h : Kept s t) (k : Kept t u) : Kept s u := by
  refine ⟨k.geo.trans h.geo, k.dev.trans h.dev, fun a member => ?_⟩
  rcases k.log a member with old | inside
  · exact h.log a old
  · exact Or.inr (h.geo ▸ inside)

theorem Geometry.lt_blockCount {g : Geometry} (pos : 0 < g.blockSize) {n size : Nat}
    (more : n * g.blockSize < size) : n < g.blockCount size := by
  have split := Nat.div_add_mod size g.blockSize
  have low : n ≤ size / g.blockSize := (Nat.le_div_iff_mul_le pos).mpr more.le
  rw [Geometry.blockCount]
  by_cases equal : n = size / g.blockSize
  · rw [if_pos]
    · omega
    · intro zero
      rw [zero, ← equal, Nat.mul_comm] at split
      omega
  · omega

/-- Served: the count is the size, the bytes read are the history's, the bytes written are its new
part. -/
structure Served (s : Cache) (disk : Nat → Byte) (write : Bool) (b off size : Nat) (user : Nat → Byte)
    (reply : Reply) (s' : Cache) : Prop where
  kept : Kept s s'
  inv : Inv s' (after write disk (b * s.geo.blockSize + off) size user)
  count : reply.count = size
  bytes : write = false → reply.user = Mem.blit user 0 size fun i => disk (b * s.geo.blockSize + off + i)

section Serve

variable {s : Cache} {disk : Nat → Byte} {b off size : Nat}

theorem InRange.lt (inRange : s.InRange b off size) (positive : 0 < size) : b < s.dev.nblocks := by
  by_contra beyond
  have := Nat.mul_le_mul_right s.geo.blockSize (Nat.le_of_not_lt beyond)
  have := inRange.2
  omega

theorem Inv.io_empty (inv : Inv s disk) (write : Bool) (user : Nat → Byte) :
    ∃ reply s', s.io write b off (s.geo.blockCount 0) 0 user = some (reply, s') ∧
      Served s disk write b off 0 user reply s' := by
  refine ⟨_, _, ioLoop_done _ _ _ _ _ _ (Or.inr rfl), ⟨rfl, rfl, fun _ => Or.inl⟩, ?_, rfl, fun _ => ?_⟩
  · rw [after, Mem.blit_zero, ite_self]
    exact inv
  · rw [Mem.blit_zero]

/-- A request of one round. -/
theorem Inv.io_one (inv : Inv s disk) (write : Bool) (user : Nat → Byte) (positive : 0 < size)
    (inRange : s.InRange b off size) (one : s.geo.OneRound b off size) (room : s.Room b)
    (marks : write = true → s.geo.MarksFit b) :
    ∃ reply s', s.io write b off (s.geo.blockCount size) size user = some (reply, s') ∧
      Served s disk write b off size user reply s' := by
  have inside := InRange.lt inRange positive
  have blocks := inv.fits.blocks
  obtain ⟨buf, t, lock, bcount, bsize, keeps, grows, bytes⟩ :=
    inv.round write user 0 off size inside room one.1 inRange.2 marks
  have covered : min size buf.bsize = size := by
    rw [bsize, bcount]
    exact min_eq_left one.2
  have rounds : 0 < s.geo.blockCount size := Geometry.lt_blockCount inv.fits.block_pos (by omega)
  obtain ⟨k, hk⟩ := Nat.exists_eq_succ_of_ne_zero rounds.ne'
  rw [Cache.io, Nat.mod_eq_of_lt (show b < 2 ^ 32 by omega), hk,
    ioLoop_round k 0 off ⟨by omega, by omega⟩ lock, covered, ioLoop_done _ _ _ _ _ _ (Or.inr (Nat.sub_self size))]
  simp only [Nat.zero_add] at keeps bytes ⊢
  exact ⟨_, _, rfl, grows.kept, keeps, rfl, bytes⟩

/-- Two chunks that cover the same block are one chunk. -/
theorem Grows.single {s' : Cache} {c d : Nat} (grows : Grows s s' b) (inv : Inv s' disk)
    (hc : c < s.geo.numChunks) (hd : d < s.geo.numChunks) (hereC : s'.Present (s.geo.addr c))
    (hereD : s'.Present (s.geo.addr d)) (coversC : s'.Covers (s.geo.addr c) b)
    (coversD : s'.Covers (s.geo.addr d) b) : c = d := by
  rw [← grows.geo] at hc hd hereC hereD coversC coversD
  have startC := (inv.loaded c hc hereC).piece inv.fits coversC
  have startD := (inv.loaded d hd hereD).piece inv.fits coversD
  exact inv.unique c d hc hd hereC hereD (startC.trans startD.symm)

/-- After a round for block `b`, a second chunk that can serve `b'` is still there. -/
theorem Grows.room {s' : Cache} {b' : Nat} (grows : Grows s s' b) (inv : Inv s' disk)
    (two : s.RoomForTwo b b') : s'.Room b' := by
  obtain ⟨c, hc, d, hd, ne, forB, forB'⟩ := two
  have geo := grows.geo
  by_cases hereD : s'.Present (s.geo.addr d)
  · by_cases beforeD : s.Present (s.geo.addr d)
    · refine ⟨d, geo ▸ hd, fun _ => ?_⟩
      rw [geo, Cache.Covers, (grows.keep d hd beforeD).2, geo]
      exact forB' beforeD
    · -- chunk `d` was taken for `b`, so chunk `c` was not
      have coversD := grows.fresh d hd hereD beforeD
      refine ⟨c, geo ▸ hc, fun hereC => ?_⟩
      rw [geo] at hereC
      refine absurd (grows.single inv hc hd hereC hereD ?_ coversD) ne
      by_cases beforeC : s.Present (s.geo.addr c)
      · rw [Cache.Covers, (grows.keep c hc beforeC).2, geo]
        exact forB beforeC
      · exact grows.fresh c hc hereC beforeC
  · exact ⟨d, geo ▸ hd, fun here => absurd (geo ▸ here) hereD⟩

/-- A request of two rounds. -/
theorem Inv.io_two (inv : Inv s disk) (write : Bool) (user : Nat → Byte) (inRange : s.InRange b off size)
    (two : s.geo.TwoRounds b off size) (room : s.RoomForTwo b s.geo.chunkSize)
    (marks : write = true → s.geo.MarksFit s.geo.chunkSize) :
    ∃ reply s', s.io write b off (s.geo.blockCount size) size user = some (reply, s') ∧
      Served s disk write b off size user reply s' := by
  obtain ⟨low, rfl, more, one⟩ := two
  have pos := inv.fits.block_pos
  have blocks := inv.fits.blocks
  have inside := InRange.lt inRange (by omega)
  have piece : s.geo.piece b = 0 := by rw [Geometry.piece, Nat.div_eq_of_lt low, Nat.zero_mul]
  have pieceNext : s.geo.piece s.geo.chunkSize = s.geo.chunkSize := by
    rw [Geometry.piece, Nat.div_self inv.fits.chunk_pos, Nat.one_mul]
  have split : b * s.geo.blockSize + (s.geo.chunkSize - b) * s.geo.blockSize =
      s.geo.chunkSize * s.geo.blockSize := by
    rw [← Nat.add_mul]
    congr 1
    omega
  have range := inRange.2
  have insideNext : s.geo.chunkSize < s.dev.nblocks := by
    apply Nat.lt_of_mul_lt_mul_right (a := s.geo.blockSize)
    omega
  have small : (s.geo.chunkSize - b) * s.geo.blockSize < 2 ^ 32 := by
    have := Nat.mul_le_mul (show s.geo.chunkSize - b ≤ 2 ^ 16 - 1 by have := s.geo.chunk_lt; omega)
      (show s.geo.blockSize ≤ 2 ^ 16 - 1 by have := s.geo.block_lt; omega)
    omega
  -- the first round: up to the end of the first chunk
  have first : s.Room b := by
    obtain ⟨c, hc, _, _, _, forB, _⟩ := room
    exact ⟨c, hc, forB⟩
  have marksFirst : write = true → s.geo.MarksFit b := by
    intro h
    have := marks h
    rw [Geometry.MarksFit, pieceNext] at this
    rw [Geometry.MarksFit, piece]
    omega
  obtain ⟨buf, t, lock, bcount, bsize, keeps, grows, bytes⟩ :=
    inv.round write user 0 0 ((s.geo.chunkSize - b) * s.geo.blockSize) inside first
      (by rw [Geometry.Inside, piece, Nat.sub_zero]; omega) (by omega) marksFirst
  rw [piece, Nat.sub_zero, Nat.zero_add] at bcount
  rw [bcount, Nat.mod_eq_of_lt small] at bsize
  generalize hr : t.round write user 0 buf 0 ((s.geo.chunkSize - b) * s.geo.blockSize) b = r at keeps grows bytes
  -- the second round: the rest, in the second chunk
  have geo := grows.geo
  obtain ⟨buf', t', lock', bcount', bsize', keeps', grows', bytes'⟩ :=
    keeps.round write r.1 ((s.geo.chunkSize - b) * s.geo.blockSize) 0
      (size - (s.geo.chunkSize - b) * s.geo.blockSize) (show s.geo.chunkSize < r.2.dev.nblocks by rw [grows.dev]; exact insideNext)
      (grows.room keeps room) (by rw [geo]; exact one.1) (by rw [geo, grows.dev]; omega) (by rw [geo]; exact marks)
  rw [geo] at bcount' bsize' keeps' bytes'
  have rounds := Geometry.lt_blockCount pos more
  obtain ⟨k, hk⟩ : ∃ k, s.geo.blockCount size = k + 2 := ⟨s.geo.blockCount size - 2, by omega⟩
  have cover : min size buf.bsize = (s.geo.chunkSize - b) * s.geo.blockSize := by
    rw [bsize]
    omega
  have cover' : min (size - (s.geo.chunkSize - b) * s.geo.blockSize) buf'.bsize =
      size - (s.geo.chunkSize - b) * s.geo.blockSize := by
    rw [bsize', bcount']
    exact min_eq_left one.2
  have next : (b + buf.bcount) % 2 ^ 32 = s.geo.chunkSize := by
    have := s.geo.chunk_lt
    rw [bcount, Nat.mod_eq_of_lt (by omega)]
    omega
  rw [Cache.io, Nat.mod_eq_of_lt (show b < 2 ^ 32 by omega), hk,
    ioLoop_round (k + 1) 0 0 ⟨by omega, by omega⟩ lock, cover, hr, next, Nat.zero_add,
    ioLoop_round k _ 0 ⟨by omega, by omega⟩ lock', cover',
    ioLoop_done _ _ _ _ _ _ (Or.inr (Nat.sub_self _))]
  have whole : (s.geo.chunkSize - b) * s.geo.blockSize + (size - (s.geo.chunkSize - b) * s.geo.blockSize) = size := by
    omega
  simp only [Nat.add_zero, Nat.zero_add] at keeps' bytes bytes' ⊢
  refine ⟨_, _, rfl, grows.kept.trans grows'.kept, ?_, whole, fun h => ?_⟩
  · cases write with
    | false => exact keeps'
    | true =>
      have caller : r.1 = user := by
        rw [← hr]
        simp only [Cache.round, Cache.copy, if_true]
      simp only [after, if_true, caller] at keeps' ⊢
      rw [← split, Mem.blit_append, whole] at keeps'
      exact keeps'
  · subst h
    have second : Mem.blit r.1 ((s.geo.chunkSize - b) * s.geo.blockSize)
          (size - (s.geo.chunkSize - b) * s.geo.blockSize)
          (fun i => disk (b * s.geo.blockSize + ((s.geo.chunkSize - b) * s.geo.blockSize + i))) = _ :=
      (Mem.blit_congr fun i _ => by rw [← Nat.add_assoc, split]; rfl).trans (bytes' rfl).symm
    have append := Mem.blit_append user 0 ((s.geo.chunkSize - b) * s.geo.blockSize)
      (size - (s.geo.chunkSize - b) * s.geo.blockSize) fun i => disk (b * s.geo.blockSize + i)
    rw [Nat.zero_add, whole, ← bytes rfl] at append
    exact second.symm.trans append

theorem Inv.io (inv : Inv s disk) (write : Bool) (user : Nat → Byte) (inRange : s.InRange b off size)
    (sound : s.Sound write b off size) :
    ∃ reply s', s.io write b off (s.geo.blockCount size) size user = some (reply, s') ∧
      Served s disk write b off size user reply s' := by
  rcases Nat.eq_zero_or_pos size with rfl | positive
  · exact inv.io_empty write user
  · rcases sound with zero | ⟨one, room, marks⟩ | ⟨two, room, marks⟩
    · omega
    · exact inv.io_one write user positive inRange one room marks
    · exact inv.io_two write user inRange two room marks

end Serve

/-! ## Any read -/

/-- A read round outside the chunk returns foreign bytes but changes nothing. -/
theorem Inv.readRound {s : Cache} {disk : Nat → Byte} (inv : Inv s disk) (user : Nat → Byte)
    (pos off n b : Nat) (buf : Buffer) :
    Inv (s.round false user pos buf off n b).2 disk ∧ (s.round false user pos buf off n b).2.geo = s.geo ∧
      (s.round false user pos buf off n b).2.dev = s.dev := by
  simp only [Cache.round, Cache.copy, Bool.false_eq_true, if_false]
  generalize (⟨.data, buf.chunk, buf.buffer + off, buf.buffer + off + n⟩ : Access) = a
  obtain ⟨unlocked, grows⟩ := (inv.touch a).bufferUnlock b
  exact ⟨unlocked, grows.geo, grows.dev⟩

/-- Every read returns, whatever its range. -/
theorem Inv.ioLoop_read {disk : Nat → Byte} : ∀ (fuel : Nat) (s : Cache) (user : Nat → Byte)
    (pos b bcount off rest : Nat), Inv s disk → b < 2 ^ 32 →
    ∃ reply s', Cache.ioLoop false fuel s user pos b bcount off rest = some (reply, s') ∧ Inv s' disk ∧
      s'.geo = s.geo ∧ s'.dev = s.dev := by
  intro fuel
  induction fuel with
  | zero =>
    intro s user pos b bcount off rest inv _
    exact ⟨_, s, rfl, inv, rfl, rfl⟩
  | succ fuel ih =>
    intro s user pos b bcount off rest inv small
    by_cases more : bcount ≠ 0 ∧ rest ≠ 0
    · obtain ⟨out, t, lock, locked⟩ := inv.bufferLock b small
      cases out with
      | none =>
        refine ⟨⟨pos, user⟩, t, ?_, locked.inv, locked.grows.geo, locked.grows.dev⟩
        rw [Cache.ioLoop, if_pos more, lock]
      | some buf =>
        rw [ioLoop_round fuel pos off more lock]
        obtain ⟨keeps, geo, dev⟩ := locked.inv.readRound user pos off (min rest buf.bsize) b buf
        obtain ⟨reply, s', run, after, geo', dev'⟩ := ih _ (t.round false user pos buf off (min rest buf.bsize) b).1
          (pos + min rest buf.bsize) ((b + buf.bcount) % 2 ^ 32) (bcount - buf.bcount) 0
          (rest - min rest buf.bsize) keeps (Nat.mod_lt _ (by decide))
        exact ⟨reply, s', run, after, geo'.trans (geo.trans locked.grows.geo),
          dev'.trans (dev.trans locked.grows.dev)⟩
    · exact ⟨_, s, ioLoop_done _ _ _ _ _ _ (by omega), inv, rfl, rfl⟩

end PreTeO.Bdev
