import Mathlib.Order.CompletePartialOrder
import Mathlib.Data.Set.BooleanAlgebra
import Mathlib.Data.Set.Basic
import Mathlib.Order.Interval.Set.Basic
import PreTeO.Lib.Run
import PreTeO.Mem.RingSteps

/-!
# Runs of the ring heap

The blocks that were handed out and not freed are kept as a history variable: the address and the number of bytes asked
for. Their owners store any bytes in them. As long as no live block is taken for a free chunk and there is room for the
entry that is added to the table, the chunks lie end to end, the live blocks do not overlap, and the table stays below the
lowest chunk.
-/

namespace PreTeO.Mem
set_option autoImplicit false
open PreTeO.Lib

/-- The heap with its live blocks. -/
structure Tenancy where
  heap : RingHeap
  live : List (Nat × Nat)

/-- The calls of the heap, and a byte that the owner of a block stores in it. -/
inductive HeapCall where
  | alloc (sz : Nat)
  | free (p : Nat)
  | write (a v : Nat)

/-- The live blocks without the one at `p`. -/
def leave (live : List (Nat × Nat)) (p : Nat) : List (Nat × Nat) := live.eraseP fun b => b.1 = p

/-- The bytes of a block. -/
def blockBytes (b : Nat × Nat) : Set Nat := Set.Ico b.1 (b.1 + b.2)

/-- A live block starts at `p`. -/
def StartsAt (live : List (Nat × Nat)) (p : Nat) : Prop := ∃ b ∈ live, b.1 = p

instance (live : List (Nat × Nat)) (p : Nat) : Decidable (StartsAt live p) :=
  inferInstanceAs (Decidable (∃ b ∈ live, _))

namespace Tenancy

/-- One call. A null pointer gives nothing out. -/
def step (t : Tenancy) : HeapCall → Option Tenancy
  | .alloc sz =>
    let (r, heap) := t.heap.alloc sz
    some { heap, live := if r = 0 then t.live else (r, sz) :: t.live }
  | .free p => some { heap := t.heap.free p, live := leave t.live p }
  | .write a v => some { t with heap := { t.heap with mem := t.heap.mem.store a 1 v } }

/-- Sizes have 32 bits, only live blocks are freed, and only their owners write to them. -/
def Proper (t : Tenancy) : HeapCall → Prop
  | .alloc sz => sz < 2 ^ 32
  | .free p => StartsAt t.live p
  | .write a _ => ∃ b ∈ t.live, b.1 ≤ a ∧ a < b.1 + b.2

/-- Chunk `i` looks free once `p` is freed. -/
def Marked (t : Tenancy) (p i : Nat) : Prop := t.heap.ptr i = p ∨ t.heap.word (t.heap.ptr i) = freePattern

/-- No live block is taken for a free chunk, and there is room for the entry that is added. -/
def Clear (t : Tenancy) : HeapCall → Prop
  | .alloc sz =>
    (∀ i, i < t.heap.count → t.heap.Suits (askedSize sz) i → (∀ j, j < i → ¬ t.heap.Suits (askedSize sz) j) →
      ¬ StartsAt t.live (t.heap.ptr i) ∧
        (askedSize sz + umaxSize < t.heap.size i → t.heap.tableEnd (t.heap.count + 1) ≤ t.heap.low)) ∧
    ((∀ i, i < t.heap.count → ¬ t.heap.Suits (askedSize sz) i) →
      t.heap.tableEnd t.heap.count < below t.heap.low (askedSize sz) →
        askedSize sz ≤ t.heap.low ∧ t.heap.tableEnd (t.heap.count + 1) ≤ t.heap.low - askedSize sz)
  | .free p =>
    t.heap.word p ≠ freePattern → ∀ i, i < t.heap.count - 1 → t.Marked p i → t.Marked p (i + 1) →
      ¬ StartsAt (leave t.live p) (t.heap.ptr i) ∧ ¬ StartsAt (leave t.live p) (t.heap.ptr (i + 1)) ∧
        t.heap.tableEnd (t.heap.count + 1) ≤ t.heap.low
  | .write _ _ => True

instance (t : Tenancy) : ∀ call, Decidable (t.Proper call)
  | .alloc sz => inferInstanceAs (Decidable (sz < 2 ^ 32))
  | .free p => inferInstanceAs (Decidable (StartsAt t.live p))
  | .write a _ => inferInstanceAs (Decidable (∃ b ∈ t.live, b.1 ≤ a ∧ a < b.1 + b.2))

instance (t : Tenancy) (p i : Nat) : Decidable (t.Marked p i) := inferInstanceAs (Decidable (_ ∨ _))

instance (t : Tenancy) : ∀ call, Decidable (t.Clear call)
  | .alloc _ => inferInstanceAs (Decidable (_ ∧ _))
  | .free _ => inferInstanceAs (Decidable (_ → _))
  | .write _ _ => inferInstanceAs (Decidable True)

/-- The chunks lie end to end from the end of the heap down, the table ends below them, and the live blocks have a chunk
each. -/
structure Sound (t : Tenancy) : Prop where
  tiles : Stacked Chunk.ptr Chunk.size t.heap.top t.heap.chunks
  room : t.heap.tableEnd t.heap.count ≤ t.heap.low
  owned : ∀ b ∈ t.live, ∃ c ∈ t.heap.chunks, c.ptr = b.1 ∧ b.2 ≤ c.size
  apart : t.live.Pairwise fun x y => x.1 ≠ y.1 ∧ Disjoint (blockBytes x) (blockBytes y)

/-! ## The invariant -/

/-- The invariant of a run: every chunk has nine bytes at least, so that its first word lies in it. -/
structure Kept (t : Tenancy) : Prop where
  space : t.heap.top ≤ 2 ^ 64
  small : t.heap.heapSz < 2 ^ 32
  tiles : Stacked Chunk.ptr Chunk.size t.heap.top t.heap.chunks
  room : t.heap.tableEnd t.heap.count ≤ t.heap.low
  long : ∀ c ∈ t.heap.chunks, umaxSize < c.size
  owned : ∀ b ∈ t.live, ∃ c ∈ t.heap.chunks, c.ptr = b.1 ∧ b.2 ≤ c.size
  starts : t.live.Pairwise fun x y => x.1 ≠ y.1

/-- Where the heap stands when a chunk for a request was found or made. -/
def Served (t : Tenancy) (size : Nat) (out : Nat × RingHeap) : Prop :=
  Kept ⟨out.2, t.live⟩ ∧ (out.1 ≠ 0 → ∃ c ∈ out.2.chunks, c.ptr = out.1 ∧ size ≤ c.size ∧ ¬ StartsAt t.live c.ptr)

namespace Kept
variable {t : Tenancy}

theorem sound (kept : t.Kept) : t.Sound := by
  refine ⟨kept.tiles, kept.room, kept.owned, kept.starts.imp_of_mem fun {x y} first second differ => ⟨differ, ?_⟩⟩
  obtain ⟨c, inside, start, long⟩ := kept.owned x first
  obtain ⟨d, inside', start', long'⟩ := kept.owned y second
  have apart := kept.tiles.apart inside inside' fun same => differ (by rw [← start, ← start', same])
  rw [Set.disjoint_left]
  intro i here there
  simp only [blockBytes, Set.mem_Ico] at here there
  omega

/-- Fewer live blocks. -/
theorem fewer (kept : t.Kept) (live : List (Nat × Nat)) (sub : live.Sublist t.live) : Kept ⟨t.heap, live⟩ :=
  ⟨kept.space, kept.small, kept.tiles, kept.room, kept.long, fun b member => kept.owned b (sub.subset member),
    kept.starts.sublist sub⟩

theorem checkAll (kept : t.Kept) : Kept ⟨t.heap.checkAll, t.live⟩ :=
  ⟨kept.space, kept.small, kept.tiles, kept.room, kept.long, kept.owned, kept.starts⟩

/-- The table does not reach into a chunk. -/
theorem tableEnd_le (kept : t.Kept) {c : Chunk} (member : c ∈ t.heap.chunks) : t.heap.tableEnd t.heap.count ≤ c.ptr :=
  Nat.le_trans kept.room (kept.tiles.bounds member).1

/-- A heap in the same place with another table. -/
theorem retile (kept : t.Kept) {g : RingHeap} {live : List (Nat × Nat)} (base : g.base = t.heap.base)
    (heapSz : g.heapSz = t.heap.heapSz) (tiles : Stacked Chunk.ptr Chunk.size t.heap.top g.chunks)
    (room : t.heap.tableEnd g.count ≤ lowest Chunk.ptr t.heap.top g.chunks) (long : ∀ c ∈ g.chunks, umaxSize < c.size)
    (owned : ∀ b ∈ live, ∃ c ∈ g.chunks, c.ptr = b.1 ∧ b.2 ≤ c.size) (starts : live.Pairwise fun x y => x.1 ≠ y.1) :
    Kept ⟨g, live⟩ := by
  have top : g.top = t.heap.top := by rw [RingHeap.top, RingHeap.top, base, heapSz]
  refine ⟨?_, ?_, ?_, ?_, long, owned, starts⟩
  · rw [top]
    exact kept.space
  · rw [heapSz]
    exact kept.small
  · rw [top]
    exact tiles
  · rw [RingHeap.low, RingHeap.tableEnd, top, base]
    exact room

/-- A store above the table. -/
theorem store (kept : t.Kept) {a n v : Nat} (above : t.heap.tableEnd t.heap.count ≤ a) :
    Kept ⟨{ t.heap with mem := t.heap.mem.store a n v }, t.live⟩ := by
  have table : RingHeap.chunks { t.heap with mem := t.heap.mem.store a n v } = t.heap.chunks :=
    RingHeap.chunks_congr rfl rfl fun _ inside => Mem.store_out (Or.inl (by omega))
  refine kept.retile rfl rfl ?_ ?_ ?_ ?_ kept.starts
  · rw [table]
    exact kept.tiles
  · rw [table]
    exact kept.room
  · rw [table]
    exact kept.long
  · rw [table]
    exact kept.owned

/-- A chunk without an owner becomes a live block. -/
theorem settle (kept : t.Kept) {c : Chunk} {sz : Nat} (member : c ∈ t.heap.chunks) (vacant : ¬ StartsAt t.live c.ptr)
    (fits : sz ≤ c.size) : Kept ⟨t.heap, (c.ptr, sz) :: t.live⟩ := by
  refine ⟨kept.space, kept.small, kept.tiles, kept.room, kept.long, ?_, ?_⟩
  · intro b inside
    rcases List.mem_cons.mp inside with rfl | inside
    · exact ⟨c, member, rfl, fits⟩
    · exact kept.owned b inside
  · exact List.pairwise_cons.mpr ⟨fun b inside same => vacant ⟨b, inside, same.symm⟩, kept.starts⟩

/-! ## The search -/

/-- An entry of the table in its place. -/
theorem table_at {h : RingHeap} {k : Nat} (inside : k < h.count) :
    ∃ pre post, h.chunks = pre ++ h.chunk k :: post ∧ pre.length = k := by
  have bound : k < h.chunks.length := by rwa [RingHeap.length_chunks]
  have here : h.chunks[k] = h.chunk k := by
    have := RingHeap.getElem?_chunks inside
    rw [List.getElem?_eq_getElem bound] at this
    exact Option.some.inj this
  refine ⟨h.chunks.take k, h.chunks.drop (k + 1), ?_, ?_⟩
  · rw [← here, ← List.drop_eq_getElem_cons bound, List.take_append_drop]
  · rw [List.length_take]
    omega

theorem askedSize_le (sz : Nat) : sz ≤ askedSize sz := by
  unfold askedSize umaxSize
  split <;> omega

theorem askedSize_long (sz : Nat) : umaxSize < askedSize sz := by
  unfold askedSize umaxSize
  split <;> omega

/-- A chunk that looks free is used as it is. -/
theorem place_whole (kept : t.Kept) {k size r : Nat} (inside : k < t.heap.count) (suits : t.heap.Suits size k)
    (whole : t.heap.size k - size ≤ umaxSize) (vacant : ¬ StartsAt t.live (t.heap.ptr k)) :
    t.Served size (t.heap.place size k r) := by
  rw [RingHeap.place, if_neg (by omega), if_pos whole]
  exact ⟨kept, fun _ => ⟨t.heap.chunk k, RingHeap.mem_chunks.mpr ⟨k, inside, rfl⟩, rfl, suits.2, vacant⟩⟩

/-- A chunk that looks free is cut in two. -/
theorem place_split (kept : t.Kept) {k size r : Nat} (inside : k < t.heap.count)
    (more : umaxSize < t.heap.size k - size) (long : umaxSize < size) (vacant : ¬ StartsAt t.live (t.heap.ptr k))
    (room : t.heap.tableEnd (t.heap.count + 1) ≤ t.heap.low) : t.Served size (t.heap.place size k r) := by
  obtain ⟨pre, post, table, place⟩ := table_at inside
  obtain ⟨c, here⟩ : ∃ c, c = t.heap.chunk k := ⟨_, rfl⟩
  have csize : t.heap.size k = c.size := by rw [here]; rfl
  have cptr : t.heap.ptr k = c.ptr := by rw [here]; rfl
  rw [← here] at table
  rw [csize] at more
  rw [cptr] at vacant
  have member : c ∈ t.heap.chunks := by rw [table]; simp
  have bounds := kept.tiles.bounds member
  have space := kept.space
  have entries : (t.heap.count + 1) * entrySize < 2 ^ 32 := by
    have top : t.heap.top = t.heap.base + t.heap.heapSz := rfl
    have := kept.small
    have := kept.tiles.lowest_le
    unfold RingHeap.tableEnd RingHeap.low at room
    omega
  obtain ⟨start, split⟩ := RingHeap.insertIn_spec size table place (by omega) (by omega) (by omega) entries
  have frame := RingHeap.insertIn_frame (h := t.heap) size inside
  have count : (t.heap.insertIn k size).2.count = t.heap.count + 1 := by
    rw [RingHeap.count_of_table split, RingHeap.count_of_table table]
    simp only [List.length_append, List.length_cons]
    omega
  rw [RingHeap.place, if_neg (by omega), if_neg (by rw [csize]; omega)]
  refine ⟨kept.retile frame.base frame.heapSz ?_ ?_ ?_ ?_ kept.starts, fun _ => ?_⟩
  · rw [split]
    have tiles := kept.tiles
    rw [table] at tiles
    exact tiles.split rfl rfl (by change size + (c.size - size) = c.size; omega) (by change 0 < size; omega)
      (by change 0 < c.size - size; omega)
  · rw [split, count, lowest_split (c := c) (by rfl), ← table]
    exact room
  · rw [split]
    intro d inside
    rcases List.mem_append.mp inside with before | later
    · exact kept.long d (by rw [table]; simp [before])
    · rcases List.mem_cons.mp later with rfl | later
      · exact long
      · rcases List.mem_cons.mp later with rfl | later
        · exact more
        · exact kept.long d (by rw [table]; simp [later])
  · intro b inside
    obtain ⟨d, found, start, fits⟩ := kept.owned b inside
    refine ⟨d, ?_, start, fits⟩
    have differ : d ≠ c := fun same => vacant ⟨b, inside, by rw [← start, same]⟩
    rw [table] at found
    rw [split]
    simp only [List.mem_append, List.mem_cons, differ, false_or] at found ⊢
    exact found.imp_right fun later => Or.inr (Or.inr later)
  · refine ⟨⟨size, c.ptr + (c.size - size)⟩, by rw [split]; simp, start.symm, Nat.le_refl size, ?_⟩
    -- no chunk of the old table starts inside the one that was cut
    rintro ⟨b, inside, same⟩
    obtain ⟨d, found, start, -⟩ := kept.owned b inside
    have strict : d.ptr = c.ptr + (c.size - size) := start.trans same
    have positive := (kept.tiles.bounds found).2.1
    have differ : d ≠ c := by
      rintro rfl
      omega
    rcases kept.tiles.apart found member differ with below | above
    · omega
    · omega

/-- A chunk is added below the lowest one, or the request is refused. -/
theorem place_push (kept : t.Kept) {size : Nat} (positive : umaxSize < size) (small : size < 2 ^ 32)
    (room : t.heap.tableEnd t.heap.count < below t.heap.low size →
      size ≤ t.heap.low ∧ t.heap.tableEnd (t.heap.count + 1) ≤ t.heap.low - size) :
    t.Served size (t.heap.place size t.heap.count (below t.heap.low size)) := by
  rw [RingHeap.place, if_pos rfl]
  split
  · next more =>
    obtain ⟨fits, room⟩ := room more
    have space := kept.space
    have least : t.heap.low ≤ t.heap.top := kept.tiles.lowest_le
    have start : below t.heap.low size = t.heap.low - size := by
      unfold umaxSize at positive
      unfold below
      omega
    have address : t.heap.low - size < 2 ^ 64 := by
      unfold umaxSize at positive
      omega
    rw [start]
    have table := RingHeap.chunks_push (h := t.heap) small address
    have here : ∀ b ∈ t.live, b.1 ≠ t.heap.low - size := by
      intro b inside same
      obtain ⟨d, found, start, -⟩ := kept.owned b inside
      have := (kept.tiles.bounds found).1
      unfold RingHeap.low at same fits
      unfold umaxSize at positive
      omega
    refine ⟨kept.retile rfl rfl ?_ ?_ ?_ ?_ kept.starts, fun _ => ?_⟩
    · rw [table]
      refine kept.tiles.push ?_ ?_
      · change t.heap.low - size + size = t.heap.low
        omega
      · change 0 < size
        omega
    · rw [table, lowest_append]
      exact room
    · rw [table]
      intro d inside
      rcases List.mem_append.mp inside with old | new
      · exact kept.long d old
      · rw [List.mem_singleton.mp new]
        exact positive
    · rw [table]
      intro b inside
      obtain ⟨d, found, rest⟩ := kept.owned b inside
      exact ⟨d, List.mem_append_left _ found, rest⟩
    · refine ⟨⟨size, t.heap.low - size⟩, by rw [table]; simp, rfl, Nat.le_refl size, ?_⟩
      rintro ⟨b, inside, same⟩
      exact here b inside same
  · exact ⟨kept, fun zero => absurd rfl zero⟩

/-- `_alloc`, as long as what it finds is no live block and there is room for a new entry. -/
theorem alloc (kept : t.Kept) {sz : Nat} (small : sz < 2 ^ 32) (clear : t.Clear (.alloc sz)) :
    Kept ⟨(t.heap.alloc sz).2, if (t.heap.alloc sz).1 = 0 then t.live else ((t.heap.alloc sz).1, sz) :: t.live⟩ := by
  by_cases null : t.heap.base = 0
  · rw [RingHeap.alloc, if_pos null]
    exact kept
  by_cases wrong : t.heap.checked ≠ 0
  · rw [RingHeap.alloc, if_neg null, if_pos wrong]
    exact kept
  have narrow : askedSize sz < 2 ^ 32 := by
    unfold askedSize umaxSize
    split <;> omega
  -- what the search stops at
  obtain ⟨i, r, stop, served⟩ : ∃ i r,
      t.heap.search (askedSize sz) 0 t.heap.count (below t.heap.top (askedSize sz)) = (i, r) ∧
        t.Served (askedSize sz) (t.heap.place (askedSize sz) i r) := by
    rcases RingHeap.search_all (h := t.heap) (askedSize sz) with ⟨k, inside, suits, before, stop⟩ | ⟨none, stop⟩
    · obtain ⟨vacant, room⟩ := clear.1 k inside suits before
      refine ⟨k, t.heap.ptr k, stop, ?_⟩
      by_cases whole : t.heap.size k - askedSize sz ≤ umaxSize
      · exact kept.place_whole inside suits whole vacant
      · exact kept.place_split inside (by omega) (askedSize_long sz) vacant (room (by omega))
    · exact ⟨_, _, stop, kept.place_push (askedSize_long sz) narrow (clear.2 none)⟩
  obtain ⟨q, g, placed⟩ : ∃ q g, t.heap.place (askedSize sz) i r = (q, g) := ⟨_, _, rfl⟩
  have run : t.heap.alloc sz = (q, (if q ≠ 0 then g.setWord q 0 else g).checkAll) := by
    rw [RingHeap.alloc, if_neg null, if_neg wrong, ← RingHeap.top, stop]
    simp only [placed]
  rw [placed] at served
  obtain ⟨stays, found⟩ := served
  rw [run]
  by_cases zero : q = 0
  · subst zero
    exact stays.checkAll
  · obtain ⟨c, member, rfl, fits, vacant⟩ := found zero
    rw [if_neg zero, if_pos zero]
    have long := Nat.le_trans (askedSize_le sz) fits
    exact ((stays.settle member vacant long).store (stays.tableEnd_le member)).checkAll

/-! ## The joining -/

/-- `pack`, as long as no live block is joined with a neighbour and the table has room for one more entry then. -/
theorem pack (kept : t.Kept)
    (clear : ∀ i, i + 1 < t.heap.count → t.heap.word (t.heap.ptr i) = freePattern →
      t.heap.word (t.heap.ptr (i + 1)) = freePattern →
        ¬ StartsAt t.live (t.heap.ptr i) ∧ ¬ StartsAt t.live (t.heap.ptr (i + 1)) ∧
          t.heap.tableEnd (t.heap.count + 1) ≤ t.heap.low) :
    Kept ⟨t.heap.pack, t.live⟩ := by
  by_cases room : t.heap.tableEnd (t.heap.count + 1) ≤ t.heap.low
  · obtain ⟨frame, table⟩ := RingHeap.packFrom_all kept.small kept.tiles room
    have fewer := length_coalesce RingHeap.join t.heap.looksFree t.heap.chunks
    rw [← table, RingHeap.length_chunks, RingHeap.length_chunks] at fewer
    refine Kept.checkAll (t := ⟨RingHeap.packFrom t.heap.count 0 none t.heap, t.live⟩)
      (kept.retile frame.base frame.heapSz ?_ ?_ ?_ ?_ kept.starts)
    · rw [table]
      exact kept.tiles.coalesce (fun _ _ => rfl) fun _ _ => rfl
    · rw [table, lowest_coalesce RingHeap.join_ptr]
      refine Nat.le_trans ?_ kept.room
      have := Nat.mul_le_mul_right entrySize fewer
      unfold RingHeap.tableEnd
      omega
    · rw [table]
      refine forall_coalesce (fun c d first second => ?_) kept.long
      change umaxSize < c.size + d.size
      omega
    · intro b inside
      obtain ⟨c, found, start, fits⟩ := kept.owned b inside
      refine ⟨c, ?_, start, fits⟩
      rw [table]
      refine mem_coalesce (fun c => StartsAt t.live c.ptr) (fun _ _ => rfl) (fun _ _ => id) ?_ found
        ⟨b, inside, start.symm⟩
      rw [List.isChain_iff_getElem]
      intro i bound free free'
      rw [RingHeap.length_chunks] at bound
      have first : t.heap.chunks[i] = t.heap.chunk i := by simp [RingHeap.chunks]
      have second : t.heap.chunks[i + 1] = t.heap.chunk (i + 1) := by simp [RingHeap.chunks]
      rw [first] at free ⊢
      rw [second] at free' ⊢
      have := clear i bound (of_decide_eq_true free) (of_decide_eq_true free')
      exact ⟨this.1, this.2.1⟩
  · have stays := (RingHeap.packFrom_none (h := t.heap) t.heap.count (i := 0) (by omega)
      fun k bound free free' => room (clear k bound free free').2.2).1
    rw [RingHeap.pack, stays]
    exact kept.checkAll

/-- What looks free after the pattern was stored in a block is that block or looked free before. -/
theorem marked (kept : t.Kept) {p i : Nat} (live : StartsAt t.live p) (inside : i < t.heap.count)
    (free : (t.heap.setWord p freePattern).word (t.heap.ptr i) = freePattern) : t.Marked p i := by
  by_cases same : t.heap.ptr i = p
  · exact Or.inl same
  · right
    obtain ⟨b, member, rfl⟩ := live
    obtain ⟨c, found, start, -⟩ := kept.owned b member
    have other : t.heap.chunk i ∈ t.heap.chunks := RingHeap.mem_chunks.mpr ⟨i, inside, rfl⟩
    have apart := kept.tiles.apart found other fun eq => same (by rw [← start, eq]; rfl)
    have long := kept.long c found
    have long' := kept.long _ other
    rw [← free]
    refine (Mem.load_store_out ?_).symm
    change t.heap.ptr i + 4 ≤ b.1 ∨ b.1 + 4 ≤ t.heap.ptr i
    change umaxSize < t.heap.size i at long'
    change c.ptr + c.size ≤ t.heap.ptr i ∨ t.heap.ptr i + t.heap.size i ≤ c.ptr at apart
    unfold umaxSize at long long'
    omega

/-- `_free`, as long as no live block is joined with a neighbour and the table has room for one more entry then. -/
theorem free (kept : t.Kept) {p : Nat} (live : StartsAt t.live p) (clear : t.Clear (.free p)) :
    Kept ⟨t.heap.free p, leave t.live p⟩ := by
  have fewer := kept.fewer (leave t.live p) List.eraseP_sublist
  unfold RingHeap.free
  split
  · next verified =>
    have plain : t.heap.word p ≠ freePattern := by
      simp only [RingHeap.verify, Bool.and_eq_true, decide_eq_true_eq] at verified
      exact verified.1.2
    obtain ⟨b, member, rfl⟩ := live
    obtain ⟨c, found, start, -⟩ := kept.owned b member
    have above : t.heap.tableEnd t.heap.count ≤ b.1 := start ▸ kept.tableEnd_le found
    have table : (t.heap.setWord b.1 freePattern).chunks = t.heap.chunks := RingHeap.chunks_setWord above
    have entry : ∀ i, i < t.heap.count → (t.heap.setWord b.1 freePattern).ptr i = t.heap.ptr i := by
      intro i inside
      have same := RingHeap.ptr_of_chunk (RingHeap.chunk_of_table table (RingHeap.getElem?_chunks inside))
      exact same
    refine Kept.pack (t := ⟨t.heap.setWord b.1 freePattern, leave t.live b.1⟩) (fewer.store above) ?_
    intro i bound first second
    change i + 1 < t.heap.count at bound
    have count : i < t.heap.count - 1 := by omega
    simp only [entry i (by omega), entry (i + 1) bound] at first second ⊢
    have low : (t.heap.setWord b.1 freePattern).low = t.heap.low := by
      rw [RingHeap.low, table]
      rfl
    rw [low]
    exact clear plain i count (kept.marked ⟨b, member, rfl⟩ (by omega) first)
      (kept.marked ⟨b, member, rfl⟩ bound second)
  · exact fewer

end Kept

/-! ## Runs -/

/-- One call keeps the invariant. -/
theorem Kept.step {t u : Tenancy} (kept : t.Kept) {call : HeapCall} (proper : t.Proper call) (clear : t.Clear call)
    (returns : t.step call = some u) : u.Kept := by
  cases call with
  | alloc sz =>
    cases returns
    exact kept.alloc proper clear
  | free p =>
    cases returns
    exact kept.free proper clear
  | write a v =>
    cases returns
    obtain ⟨b, member, low, high⟩ := proper
    obtain ⟨c, found, start, fits⟩ := kept.owned b member
    have above := kept.tableEnd_le found
    exact kept.store (by omega)

/-- A heap that was just set up. -/
def start (mem : Mem) (base heapSz : Nat) : Tenancy := { heap := RingHeap.init mem base heapSz, live := [] }

theorem start_kept {mem : Mem} {base heapSz : Nat} (space : base + heapSz ≤ 2 ^ 64) (small : heapSz < 2 ^ 32) :
    (start mem base heapSz).Kept := by
  refine ⟨space, small, trivial, ?_, nofun, nofun, List.Pairwise.nil⟩
  change base + 0 * entrySize ≤ base + heapSz
  omega

/-- In every run in which no live block is taken for a free chunk and every new entry has room, the heap is sound. -/
theorem ringHeap_sound (mem : Mem) (base heapSz : Nat) (space : base + heapSz ≤ 2 ^ 64) (small : heapSz < 2 ^ 32)
    {t : Tenancy} (run : Reach step (fun s call => s.Proper call ∧ s.Clear call) (start mem base heapSz) t) : t.Sound := by
  have kept : t.Kept := run.invariant (start_kept space small) fun _ _ _ kept ok returns =>
    Kept.step kept ok.1 ok.2 returns
  exact kept.sound

/-- A run that adds, splits, frees and joins chunks. -/
theorem ringHeap_sound_calls : ∃ t, Reach step (fun s call => s.Proper call ∧ s.Clear call) (start (fun _ => 0) 4096 256) t ∧
    t.live = [(4188, 100)] ∧ t.Sound := by
  have run : ∃ t, runAll step (fun s call => s.Proper call ∧ s.Clear call) (start (fun _ => 0) 4096 256)
      [.alloc 40, .alloc 24, .write 4312 7, .free 4288, .alloc 9, .free 4312, .alloc 100, .free 4303] = some t ∧
        t.live = [(4188, 100)] := ⟨_, rfl, rfl⟩
  obtain ⟨t, returns, live⟩ := run
  have reach := Reach.of_runAll _ returns
  exact ⟨t, reach, live, ringHeap_sound (fun _ => 0) 4096 256 (by decide) (by decide) reach⟩

/-- Without the condition it is not. In a heap of 20 bytes the entry of the first chunk lies over its block, and a block
that begins with the four bytes of the pattern is given out twice. -/
theorem ringHeap_unsound :
    (∃ t, Reach step Proper (start (fun _ => 0) 4096 20) t ∧ ¬ t.Sound) ∧
      ∃ t, Reach step Proper (start (fun _ => 0) 4096 256) t ∧ ¬ t.Sound := by
  have overlap : ∃ t, runAll step Proper (start (fun _ => 0) 4096 20) [.alloc 16] = some t ∧
      t.heap.tableEnd t.heap.count = 4108 ∧ t.heap.low = 0 := ⟨_, rfl, rfl, rfl⟩
  have twice : ∃ t, runAll step Proper (start (fun _ => 0) 4096 256)
      [.alloc 16, .write 4336 0xca, .write 4337 0xca, .write 4338 0xca, .write 4339 0xca, .alloc 16] = some t ∧
        t.live = [(4336, 16), (4336, 16)] := ⟨_, rfl, rfl⟩
  constructor
  · obtain ⟨t, run, tableEnd, low⟩ := overlap
    refine ⟨t, Reach.of_runAll _ run, fun sound => ?_⟩
    have room := sound.room
    omega
  · obtain ⟨t, run, live⟩ := twice
    refine ⟨t, Reach.of_runAll _ run, fun sound => ?_⟩
    have apart := sound.apart
    rw [live] at apart
    exact (List.pairwise_cons.mp apart).1 _ List.mem_cons_self |>.1 rfl

end Tenancy

end PreTeO.Mem
