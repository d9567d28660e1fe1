import PreTeO.Bdev.CacheState

/-!
# The cache invariant

A present chunk holds the blocks of one aligned piece of the device, and holds them as the history
of requests left them; no two chunks hold the same piece; a piece in no chunk is on the device as
the history left it. The marks say which blocks differ between a chunk and the device, and how the
requests and the flush of the source can leave them.
-/

namespace PreTeO.Bdev
set_option autoImplicit false
open PreTeO.Lib

/-! ## Geometry -/

/-- The geometries whose chunks lie where the source computes them: nothing is empty, the memory is
below `2^32` bytes, the last state bits are inside the header, and the block numbers of the device
fit the 32-bit chunk bounds. -/
structure Geometry.Fits (g : Geometry) (nblocks : Nat) : Prop where
  block_pos : 0 < g.blockSize
  chunk_pos : 0 < g.chunkSize
  memory : g.numChunks * g.chunkSz ≤ 2 ^ 32
  states : szChunkHdr + (g.chunkSize + 3) / 4 ≤ g.hdrSize
  blocks : nblocks + g.chunkSize ≤ 2 ^ 32

theorem Geometry.hdrSize_eq (g : Geometry) : g.hdrSize = g.hdrBytes := by
  have := g.chunk_lt
  apply Nat.mod_eq_of_lt
  unfold Geometry.hdrBytes szChunkHdr
  dsimp only
  split <;> omega

theorem Geometry.chunkSz_eq (g : Geometry) :
    g.chunkSz = g.chunkSize * g.blockSize + g.hdrSize := by
  have area : g.chunkSize * g.blockSize ≤ (2 ^ 16 - 1) * (2 ^ 16 - 1) :=
    Nat.mul_le_mul (by have := g.chunk_lt; omega) (by have := g.block_lt; omega)
  have hdr : g.hdrBytes < 2 ^ 16 := by
    rw [← g.hdrSize_eq]
    exact Nat.mod_lt _ (by decide)
  rw [g.hdrSize_eq]
  apply Nat.mod_eq_of_lt
  omega

/-- The address of chunk `c` when the memory does not wrap. -/
def Geometry.addr (g : Geometry) (c : Nat) : Nat := c * g.chunkSz

theorem Geometry.Fits.getChunk {g : Geometry} {n c : Nat} (fits : g.Fits n) (hc : c < g.numChunks) :
    g.getChunk c = some (g.addr c) := by
  have pos : 0 < g.chunkSz := by
    have := fits.states
    rw [g.chunkSz_eq]
    simp only [szChunkHdr] at this
    omega
  have below : c * g.chunkSz < g.numChunks * g.chunkSz := Nat.mul_lt_mul_of_pos_right hc pos
  have := fits.memory
  rw [Geometry.getChunk, if_pos hc, Nat.mod_eq_of_lt (by omega)]
  rfl

/-- Different chunks have no byte in common. -/
theorem Geometry.addr_apart (g : Geometry) {c d : Nat} (ne : c ≠ d) :
    Mem.Apart (g.addr c) g.chunkSz (g.addr d) g.chunkSz := by
  rcases Nat.lt_or_gt_of_ne ne with h | h
  · left
    have := Nat.mul_le_mul_right g.chunkSz h
    simp only [Geometry.addr]
    rwa [Nat.succ_mul] at this
  · right
    have := Nat.mul_le_mul_right g.chunkSz h
    simp only [Geometry.addr]
    rwa [Nat.succ_mul] at this

/-- The access stays inside its area of the chunk. -/
def Access.Inside (g : Geometry) (a : Access) : Prop :=
  match a.area with
  | .data => a.chunk + g.hdrSize ≤ a.lo ∧ a.hi ≤ a.chunk + g.chunkSz
  | .state => a.chunk + szChunkHdr ≤ a.lo ∧ a.hi ≤ a.chunk + g.hdrSize

instance (g : Geometry) : (a : Access) → Decidable (a.Inside g)
  | ⟨.data, _, _, _⟩ => inferInstanceAs (Decidable (_ ∧ _))
  | ⟨.state, _, _, _⟩ => inferInstanceAs (Decidable (_ ∧ _))

/-! ## The invariant -/

/-- The block at offset `o` is marked dirty. -/
def Cache.MarkedDirty (s : Cache) (p o : Nat) : Prop := s.pair p o &&& cbstateDirty ≠ 0#2

instance (s : Cache) (p o : Nat) : Decidable (s.MarkedDirty p o) := inferInstanceAs (Decidable (_ ≠ _))

/-- Block `b` belongs to the piece of the chunk at `p`. -/
def Cache.Covers (s : Cache) (p b : Nat) : Prop :=
  s.bstart p ≤ b ∧ b < s.bstart p + s.geo.chunkSize

instance (s : Cache) (p b : Nat) : Decidable (s.Covers p b) := inferInstanceAs (Decidable (_ ∧ _))

/-- A present chunk: what it holds and how its blocks are marked. -/
structure Loaded (s : Cache) (disk : Nat → Byte) (p : Nat) : Prop where
  aligned : s.geo.chunkSize ∣ s.bstart p
  start : s.bstart p < s.dev.nblocks
  count : s.bcount p = min s.geo.chunkSize (s.dev.nblocks - s.bstart p)
  data : ∀ i, i < s.bcount p * s.geo.blockSize →
    s.mem (s.geo.getCachePtr p + i) = disk (s.bstart p * s.geo.blockSize + i)
  held : ∀ o, o < s.bcount p → s.pair p o &&& cbstatePresent ≠ 0#2
  synced : ∀ o, o < s.bcount p → ¬ s.MarkedDirty p o → ∀ i, i < s.geo.blockSize →
    s.dev.bytes ((s.bstart p + o) * s.geo.blockSize + i) =
      s.mem (s.geo.getCachePtr p + (o * s.geo.blockSize + i))
  first : s.MarkedDirty p 0 → s.Dirty p ∧ ∀ o, o < s.bcount p → s.MarkedDirty p o
  last : ∀ o, o < s.bcount p → s.MarkedDirty p o → s.MarkedDirty p (s.bcount p - 1)

/-- The invariant of a cache whose history of requests left the bytes `disk`. -/
structure Inv (s : Cache) (disk : Nat → Byte) : Prop where
  fits : s.geo.Fits s.dev.nblocks
  loaded : ∀ c, c < s.geo.numChunks → s.Present (s.geo.addr c) → Loaded s disk (s.geo.addr c)
  empty : ∀ c, c < s.geo.numChunks → ¬ s.Present (s.geo.addr c) → s.cstate (s.geo.addr c) = 0#2
  unique : ∀ c d, c < s.geo.numChunks → d < s.geo.numChunks → s.Present (s.geo.addr c) →
    s.Present (s.geo.addr d) → s.bstart (s.geo.addr c) = s.bstart (s.geo.addr d) → c = d
  rest : ∀ b, b < s.dev.nblocks →
    (∀ c, c < s.geo.numChunks → s.Present (s.geo.addr c) → ¬ s.Covers (s.geo.addr c) b) →
    ∀ i, i < s.geo.blockSize →
      s.dev.bytes (b * s.geo.blockSize + i) = disk (b * s.geo.blockSize + i)

/-- A fresh cache over the device's own bytes. -/
theorem alloc_inv {g : Geometry} {d : Device} (tsc : Nat → Nat) (fits : g.Fits d.nblocks) :
    Inv (alloc g d tsc) d.bytes := by
  have state : ∀ p, (alloc g d tsc).cstate p = 0#2 := by
    intro p
    have zero : (alloc g d tsc).mem.load (p + 8) 4 = 0 := Mem.load_zero fun i _ _ => rfl
    rw [Cache.cstate, zero]
  have absent : ∀ p, ¬ (alloc g d tsc).Present p := by
    intro p present
    rw [Cache.Present, state p] at present
    exact present rfl
  exact ⟨fits, fun c _ present => absurd present (absent _), fun c _ _ => state _,
    fun c _ _ _ present => absurd present (absent _), fun b _ _ i _ => rfl⟩

/-! ## Frames -/

/-- The two caches agree on the bytes of the chunk at `p`. -/
def ChunkSame (s s' : Cache) (p : Nat) : Prop :=
  ∀ i, p ≤ i → i < p + s.geo.chunkSz → s'.mem i = s.mem i

theorem ChunkSame.head {s s' : Cache} {p : Nat} (h : ChunkSame s s' p)
    (fits : s.geo.Fits s.dev.nblocks) : HeadSame s s' p := by
  intro i low high
  have := fits.states
  have := s.geo.chunkSz_eq
  simp only [szChunkHdr] at *
  exact h i low (by omega)

theorem ChunkSame.present {s s' : Cache} {p : Nat} (h : ChunkSame s s' p)
    (fits : s.geo.Fits s.dev.nblocks) : s'.Present p ↔ s.Present p := by
  rw [Cache.Present, (h.head fits).cstate, Cache.Present]

theorem ChunkSame.pair {s s' : Cache} {p : Nat} (h : ChunkSame s s' p)
    (fits : s.geo.Fits s.dev.nblocks) {o : Nat} (ho : o < s.geo.chunkSize) :
    s'.pair p o = s.pair p o := by
  have := fits.states
  have := s.geo.chunkSz_eq
  rw [Cache.pair, Cache.pair, h _ (by simp only [getBstatePtr]; omega)
    (by simp only [getBstatePtr, szChunkHdr] at *; omega)]

/-- The two caches agree on what the invariant reads of the chunk at `p`: its head, its block states
and its data area. -/
structure Alike (s s' : Cache) (p : Nat) : Prop where
  head : HeadSame s s' p
  pair : ∀ o, o < s.geo.chunkSize → s'.pair p o = s.pair p o
  area : ∀ i, i < s.geo.chunkSize * s.geo.blockSize →
    s'.mem (s.geo.getCachePtr p + i) = s.mem (s.geo.getCachePtr p + i)

theorem ChunkSame.alike {s s' : Cache} {p : Nat} (h : ChunkSame s s' p)
    (fits : s.geo.Fits s.dev.nblocks) : Alike s s' p := by
  refine ⟨h.head fits, fun o ho => h.pair fits ho, fun i hi => ?_⟩
  have := s.geo.chunkSz_eq
  simp only [Geometry.getCachePtr]
  exact h _ (by omega) (by omega)

theorem Alike.present {s s' : Cache} {p : Nat} (h : Alike s s' p) : s'.Present p ↔ s.Present p := by
  rw [Cache.Present, h.head.cstate, Cache.Present]

/-- A block of a chunk lies inside its data. -/
theorem block_inside {o n i size : Nat} (ho : o < n) (hi : i < size) : o * size + i < n * size := by
  have := Nat.mul_le_mul_right size (show o + 1 ≤ n from ho)
  rw [Nat.succ_mul] at this
  omega

/-- Every byte of a chunk's data is a byte of one of its blocks. -/
theorem block_of_byte {i n size : Nat} (pos : 0 < size) (hi : i < n * size) :
    ∃ o j, o < n ∧ j < size ∧ i = o * size + j := by
  refine ⟨i / size, i % size, Nat.div_lt_of_lt_mul (by rwa [Nat.mul_comm]), Nat.mod_lt i pos, ?_⟩
  have := Nat.div_add_mod i size
  rwa [Nat.mul_comm, eq_comm] at this

theorem Loaded.within {s : Cache} {disk : Nat → Byte} {p : Nat} (loaded : Loaded s disk p) :
    s.bcount p ≤ s.geo.chunkSize := by
  rw [loaded.count]
  exact min_le_left _ _

theorem Loaded.positive {s : Cache} {disk : Nat → Byte} {p : Nat} (loaded : Loaded s disk p)
    (fits : s.geo.Fits s.dev.nblocks) : 0 < s.bcount p := by
  have := loaded.start
  have := fits.chunk_pos
  rw [loaded.count]
  omega

/-- A chunk survives whatever leaves it, its blocks on the device and their history alone. -/
theorem Loaded.frame {s s' : Cache} {disk disk' : Nat → Byte} {p : Nat} (loaded : Loaded s disk p)
    (fits : s.geo.Fits s.dev.nblocks) (geo : s'.geo = s.geo) (nblocks : s'.dev.nblocks = s.dev.nblocks)
    (alike : Alike s s' p)
    (bytes : ∀ x, s.bstart p * s.geo.blockSize ≤ x → x < (s.bstart p + s.bcount p) * s.geo.blockSize →
      s'.dev.bytes x = s.dev.bytes x ∧ disk' x = disk x) : Loaded s' disk' p := by
  obtain ⟨head, pairs, area⟩ := alike
  have within := loaded.within
  have marked : ∀ o, o < s.bcount p → (s'.MarkedDirty p o ↔ s.MarkedDirty p o) := by
    intro o ho
    rw [Cache.MarkedDirty, pairs o (by omega), Cache.MarkedDirty]
  have memory : ∀ i, i < s.bcount p * s.geo.blockSize →
      s'.mem (s.geo.getCachePtr p + i) = s.mem (s.geo.getCachePtr p + i) := fun i hi =>
    area i (lt_of_lt_of_le hi (Nat.mul_le_mul_right _ within))
  constructor
  · rw [geo, head.bstart]
    exact loaded.aligned
  · rw [nblocks, head.bstart]
    exact loaded.start
  · rw [geo, nblocks, head.bstart, head.bcount]
    exact loaded.count
  · intro i hi
    rw [head.bcount, geo] at hi
    rw [geo, head.bstart, memory i hi, loaded.data i hi]
    exact ((bytes _ (by omega) (by rw [Nat.add_mul]; omega)).2).symm
  · intro o ho
    rw [head.bcount] at ho
    rw [pairs o (by omega)]
    exact loaded.held o ho
  · intro o ho clean i hi
    rw [head.bcount] at ho
    rw [geo] at hi
    have place := block_inside ho hi
    rw [geo, head.bstart, memory _ place, ← loaded.synced o ho (fun h => clean ((marked o ho).mpr h)) i hi]
    refine (bytes _ ?_ ?_).1
    · rw [Nat.add_mul]
      omega
    · rw [Nat.add_mul, Nat.add_mul]
      omega
  · intro h
    obtain ⟨flag, all⟩ := loaded.first ((marked 0 (loaded.positive fits)).mp h)
    refine ⟨by rw [Cache.Dirty, head.cstate]; exact flag, ?_⟩
    intro o ho
    rw [head.bcount] at ho
    exact (marked o ho).mpr (all o ho)
  · intro o ho h
    rw [head.bcount] at ho ⊢
    exact (marked _ (by omega)).mpr (loaded.last o ho ((marked o ho).mp h))

/-- The invariant reads nothing else. -/
theorem Inv.frame {s s' : Cache} {disk : Nat → Byte} (inv : Inv s disk) (geo : s'.geo = s.geo)
    (dev : s'.dev = s.dev) (alike : ∀ c, c < s.geo.numChunks → Alike s s' (s.geo.addr c)) : Inv s' disk := by
  have start : ∀ c, c < s.geo.numChunks → s'.bstart (s.geo.addr c) = s.bstart (s.geo.addr c) :=
    fun c hc => (alike c hc).head.bstart
  refine ⟨by rw [geo, dev]; exact inv.fits, ?_, ?_, ?_, ?_⟩
  · intro c hc here
    rw [geo] at hc here ⊢
    apply (inv.loaded c hc ((alike c hc).present.mp here)).frame inv.fits geo (by rw [dev]) (alike c hc)
    intro x _ _
    exact ⟨by rw [dev], rfl⟩
  · intro c hc absent
    rw [geo] at hc absent ⊢
    rw [(alike c hc).head.cstate]
    exact inv.empty c hc fun h => absent ((alike c hc).present.mpr h)
  · intro c d hc hd hereC hereD equal
    rw [geo] at hc hd hereC hereD equal
    rw [start c hc, start d hd] at equal
    exact inv.unique c d hc hd ((alike c hc).present.mp hereC) ((alike d hd).present.mp hereD) equal
  · intro b hb uncovered i hi
    rw [geo] at uncovered hi ⊢
    rw [dev] at hb ⊢
    refine inv.rest b hb (fun c hc here => ?_) i hi
    have := uncovered c hc ((alike c hc).present.mpr here)
    rwa [Cache.Covers, geo, start c hc] at this

/-- Pieces of different chunks have no block in common. -/
theorem pieces_apart {a b n : Nat} (ha : n ∣ a) (hb : n ∣ b) (ne : a ≠ b) : a + n ≤ b ∨ b + n ≤ a := by
  obtain ⟨q, rfl⟩ := ha
  obtain ⟨r, rfl⟩ := hb
  have different : q ≠ r := fun h => ne (by rw [h])
  rcases Nat.lt_or_gt_of_ne different with h | h
  · left
    have := Nat.mul_le_mul_left n (show q + 1 ≤ r from h)
    rwa [Nat.mul_succ] at this
  · right
    have := Nat.mul_le_mul_left n (show r + 1 ≤ q from h)
    rwa [Nat.mul_succ] at this

/-- The invariant after a change to one chunk and to the blocks it holds. -/
theorem Inv.replace {s s' : Cache} {disk disk' : Nat → Byte} {c : Nat} (inv : Inv s disk)
    (hc : c < s.geo.numChunks) (geo : s'.geo = s.geo) (nblocks : s'.dev.nblocks = s.dev.nblocks)
    (memory : ∀ i, i < s.geo.addr c ∨ s.geo.addr c + s.geo.chunkSz ≤ i → s'.mem i = s.mem i)
    (present : s'.Present (s.geo.addr c)) (loaded : Loaded s' disk' (s.geo.addr c))
    (fresh : ∀ d, d < s.geo.numChunks → d ≠ c → s.Present (s.geo.addr d) →
      s.bstart (s.geo.addr d) ≠ s'.bstart (s.geo.addr c))
    (stays : s.Present (s.geo.addr c) → s.bstart (s.geo.addr c) = s'.bstart (s.geo.addr c))
    (bytes : ∀ x, x < s'.bstart (s.geo.addr c) * s.geo.blockSize ∨
      (s'.bstart (s.geo.addr c) + s'.bcount (s.geo.addr c)) * s.geo.blockSize ≤ x →
      s'.dev.bytes x = s.dev.bytes x ∧ disk' x = disk x) : Inv s' disk' := by
  have other : ∀ d, d ≠ c → ChunkSame s s' (s.geo.addr d) := by
    intro d ne i low high
    apply memory
    rcases s.geo.addr_apart ne with h | h <;> omega
  have within := loaded.within
  rw [geo] at within
  have was : ∀ d, d ≠ c → (s'.Present (s.geo.addr d) ↔ s.Present (s.geo.addr d)) :=
    fun d ne => (other d ne).present inv.fits
  have start : ∀ d, d ≠ c → s'.bstart (s.geo.addr d) = s.bstart (s.geo.addr d) :=
    fun d ne => ((other d ne).head inv.fits).bstart
  refine ⟨by rw [geo, nblocks]; exact inv.fits, ?_, ?_, ?_, ?_⟩
  · intro d hd here
    rw [geo] at hd here ⊢
    by_cases same : d = c
    · exact same ▸ loaded
    · have held := inv.loaded d hd ((was d same).mp here)
      apply held.frame inv.fits geo nblocks ((other d same).alike inv.fits)
      intro x low high
      apply bytes
      have count := held.within
      have al := loaded.aligned
      rw [geo] at al
      rcases pieces_apart held.aligned al (fresh d hd same ((was d same).mp here)) with h | h
      · left
        exact lt_of_lt_of_le high (Nat.mul_le_mul_right _ (by omega))
      · right
        exact le_trans (Nat.mul_le_mul_right _ (by omega)) low
  · intro d hd absent
    rw [geo] at hd absent ⊢
    by_cases same : d = c
    · subst same
      exact absurd present absent
    · rw [((other d same).head inv.fits).cstate]
      exact inv.empty d hd fun h => absent ((was d same).mpr h)
  · intro d e hd he hereD hereE equal
    rw [geo] at hd he hereD hereE equal
    by_cases sd : d = c
    · by_cases se : e = c
      · rw [sd, se]
      · rw [sd, start e se] at equal
        exact absurd equal.symm (fresh e he se ((was e se).mp hereE))
    · by_cases se : e = c
      · rw [se, start d sd] at equal
        exact absurd equal (fresh d hd sd ((was d sd).mp hereD))
      · rw [start d sd, start e se] at equal
        exact inv.unique d e hd he ((was d sd).mp hereD) ((was e se).mp hereE) equal
  · intro b hb uncovered i hi
    rw [geo] at uncovered hi ⊢
    rw [nblocks] at hb
    have notHere := uncovered c hc present
    simp only [Cache.Covers, geo] at notHere
    have before : ∀ d, d < s.geo.numChunks → s.Present (s.geo.addr d) → ¬ s.Covers (s.geo.addr d) b := by
      intro d hd here
      by_cases same : d = c
      · subst same
        rw [Cache.Covers, stays here]
        exact notHere
      · have := uncovered d hd ((was d same).mpr here)
        rw [Cache.Covers, geo, start d same] at this
        exact this
    have outside := bytes (b * s.geo.blockSize + i) (by
      by_cases low : b < s'.bstart (s.geo.addr c)
      · left
        have := Nat.mul_le_mul_right s.geo.blockSize (show b + 1 ≤ s'.bstart (s.geo.addr c) from low)
        rw [Nat.succ_mul] at this
        omega
      · right
        have := Nat.mul_le_mul_right s.geo.blockSize
          (show s'.bstart (s.geo.addr c) + s'.bcount (s.geo.addr c) ≤ b by omega)
        omega)
    rw [outside.1, outside.2]
    exact inv.rest b hb before i hi

end PreTeO.Bdev
