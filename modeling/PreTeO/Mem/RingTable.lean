import PreTeO.Mem.RingHeap

/-!
# The chunk table of the ring heap in memory

What the operations do to the table as a list of chunks: a store into a block leaves it alone, `_alloc` adds an entry
behind it, `insert_in` puts the upper part of a chunk before the chunk, and `pack` makes one entry of two neighbours.
-/

namespace PreTeO.Mem
set_option autoImplicit false
open PreTeO.Lib

namespace RingHeap

variable {h h' : RingHeap} {l pre post : List Chunk} {c d : Chunk}

@[simp] theorem length_chunks : h.chunks.length = h.count := by
  simp [chunks]

theorem getElem?_chunks {i : Nat} (inside : i < h.count) : h.chunks[i]? = some (h.chunk i) := by
  simp [chunks, inside]

theorem mem_chunks : c ∈ h.chunks ↔ ∃ i, i < h.count ∧ h.chunk i = c := by
  simp [chunks]

theorem size_of_chunk {i : Nat} (here : h.chunk i = c) : h.size i = c.size := by
  rw [← here]
  rfl

theorem ptr_of_chunk {i : Nat} (here : h.chunk i = c) : h.ptr i = c.ptr := by
  rw [← here]
  rfl

/-- The table is known by its entries. -/
theorem chunks_eq (count : h.count = l.length) (entries : ∀ i c, l[i]? = some c → h.chunk i = c) : h.chunks = l := by
  apply List.ext_getElem?
  intro i
  by_cases inside : i < h.count
  · rw [getElem?_chunks inside, List.getElem?_eq_getElem (count ▸ inside)]
    exact congrArg some (entries i _ (List.getElem?_eq_getElem (count ▸ inside)))
  · rw [List.getElem?_eq_none (by rw [length_chunks]; omega), List.getElem?_eq_none (by omega)]

/-- The entry in the middle of the table. -/
theorem chunk_middle (table : h.chunks = pre ++ c :: post) : h.chunk pre.length = c := by
  have count := congrArg List.length table
  rw [length_chunks, List.length_append, List.length_cons] at count
  have found := getElem?_chunks (h := h) (i := pre.length) (by omega)
  rw [table, List.getElem?_append_right (Nat.le_refl _), Nat.sub_self] at found
  exact (Option.some.inj found).symm

/-! ## Stores -/

/-- An entry is its twelve bytes. -/
theorem chunk_congr {i : Nat} (base : h'.base = h.base)
    (same : ∀ x, h.entry i ≤ x → x < h.entry i + entrySize → h'.mem x = h.mem x) : h'.chunk i = h.chunk i := by
  have entry : h'.entry i = h.entry i := by rw [RingHeap.entry, base, ← RingHeap.entry]
  unfold entrySize at same
  unfold chunk size ptr
  rw [entry, Mem.load_congr (fun x low high => same x low (by omega)),
    Mem.load_congr (fun x low high => same x (by omega) (by omega))]

/-- The table is the bytes below its end. -/
theorem chunks_congr (base : h'.base = h.base) (count : h'.count = h.count)
    (same : ∀ x, x < h.tableEnd h.count → h'.mem x = h.mem x) : h'.chunks = h.chunks := by
  refine chunks_eq (by rw [count, length_chunks]) fun i c found => ?_
  obtain ⟨inside, rfl⟩ := List.getElem?_eq_some_iff.mp found
  rw [length_chunks] at inside
  have entry := getElem?_chunks (h := h) inside
  rw [found] at entry
  rw [Option.some.inj entry]
  refine chunk_congr base fun x _ high => same x ?_
  have := Nat.mul_le_mul_right entrySize (show i + 1 ≤ h.count from inside)
  rw [Nat.add_mul] at this
  unfold RingHeap.entry at high
  unfold tableEnd
  omega

/-- A first word behind the table is no part of it. -/
theorem chunks_setWord {p v : Nat} (behind : h.tableEnd h.count ≤ p) : (h.setWord p v).chunks = h.chunks :=
  chunks_congr rfl rfl fun x inside => Mem.store_out (Or.inl (by omega))

theorem size_setSize {i j v : Nat} (small : v < 2 ^ 32) :
    (h.setSize j v).size i = if i = j then v else h.size i := by
  split
  · next same =>
    subst same
    exact Mem.load_store_of_lt (n := 4) small
  · next differ =>
    apply Mem.load_store_out
    simp only [Mem.Apart, setSize, entry, entrySize]
    omega

theorem ptr_setSize {i j v : Nat} : (h.setSize j v).ptr i = h.ptr i := by
  apply Mem.load_store_out
  simp only [Mem.Apart, setSize, entry, entrySize]
  omega

theorem size_setPtr {i j v : Nat} : (h.setPtr j v).size i = h.size i := by
  apply Mem.load_store_out
  simp only [Mem.Apart, setPtr, entry, entrySize]
  omega

theorem ptr_setPtr {i j v : Nat} (address : v < 2 ^ 64) : (h.setPtr j v).ptr i = if i = j then v else h.ptr i := by
  split
  · next same =>
    subst same
    exact Mem.load_store_of_lt (n := 8) address
  · next differ =>
    apply Mem.load_store_out
    simp only [Mem.Apart, setPtr, entry, entrySize]
    omega

/-- `n` entries from `s` on are copied to the entries from `d` on. -/
theorem chunk_memCpy {d s n i : Nat} (base : h'.base = h.base)
    (copy : h'.mem = memCpy h.mem (h.entry d) (h.entry s) (n * entrySize)) :
    h'.chunk i = if d ≤ i ∧ i < d + n then h.chunk (i - d + s) else h.chunk i := by
  have address : h'.entry i = h.entry i := by rw [RingHeap.entry, base, ← RingHeap.entry]
  split
  · next inside =>
    have bytes : ∀ t, t < entrySize → h'.mem (h.entry i + t) = h.mem (h.entry (i - d + s) + t) := by
      intro t less
      have low : h.entry d ≤ h.entry i + t := by
        unfold entry entrySize
        omega
      have high : h.entry i + t < h.entry d + n * entrySize := by
        unfold entrySize at less
        unfold entry entrySize
        omega
      rw [copy, memCpy, Mem.blit_in low high]
      congr 1
      unfold entry entrySize
      omega
    unfold entrySize at bytes
    unfold chunk size ptr
    rw [address, Mem.load_moved (fun t less => bytes t (by omega)), Mem.load_moved (n := 8) fun t less => ?_]
    rw [Nat.add_assoc, Nat.add_assoc]
    exact bytes (4 + t) (by omega)
  · next outside =>
    refine chunk_congr base fun x low high => ?_
    rw [copy]
    apply Mem.blit_out
    unfold entry entrySize at low high ⊢
    omega

/-! ## Entries added, split and joined -/

/-- An entry as the list has it. -/
theorem chunk_of_table (table : h.chunks = l) {i : Nat} (found : l[i]? = some c) : h.chunk i = c := by
  subst table
  obtain ⟨inside, -⟩ := List.getElem?_eq_some_iff.mp found
  rw [length_chunks] at inside
  rw [getElem?_chunks inside] at found
  exact Option.some.inj found

theorem count_of_table (table : h.chunks = l) : h.count = l.length := by
  rw [← length_chunks, table]

/-- A new entry behind the table. -/
theorem chunks_push {sz r : Nat} (small : sz < 2 ^ 32) (address : r < 2 ^ 64) :
    chunks { (h.setSize h.count sz).setPtr h.count r with count := h.count + 1 } = h.chunks ++ [⟨sz, r⟩] := by
  refine chunks_eq (by simp) fun i c found => ?_
  have entry : chunk { (h.setSize h.count sz).setPtr h.count r with count := h.count + 1 } i =
      ((h.setSize h.count sz).setPtr h.count r).chunk i := rfl
  rw [entry, chunk, size_setPtr, size_setSize small, ptr_setPtr address, ptr_setSize]
  by_cases last : i = h.count
  · subst last
    rw [List.getElem?_append_right (by simp), length_chunks, Nat.sub_self] at found
    rw [if_pos rfl, if_pos rfl]
    exact Option.some.inj found
  · obtain ⟨inside, -⟩ := List.getElem?_eq_some_iff.mp found
    rw [List.length_append, length_chunks, List.length_singleton] at inside
    rw [List.getElem?_append_left (by rw [length_chunks]; omega)] at found
    rw [if_neg last, if_neg last]
    exact chunk_of_table rfl found

/-- The entries from an index on are moved up by one. -/
theorem chunk_moveUp {g : RingHeap} {index i : Nat} (base : g.base = h.base)
    (copy : g.mem =
      memCpy h.mem (h.entry (index + 1)) (h.entry index) ((h.count - index) * entrySize % 2 ^ 32))
    (room : (h.count + 1) * entrySize < 2 ^ 32) (inside : i ≤ h.count) :
    g.chunk i = if i ≤ index then h.chunk i else h.chunk (i - 1) := by
  have bytes : (h.count - index) * entrySize % 2 ^ 32 = (h.count - index) * entrySize := by
    apply Nat.mod_eq_of_lt
    unfold entrySize at room ⊢
    omega
  rw [bytes] at copy
  rw [chunk_memCpy base copy]
  by_cases before : i ≤ index
  · rw [if_pos before, if_neg (by omega)]
  · rw [if_neg before, if_pos (by omega), show i - (index + 1) + index = i - 1 by omega]

/-- The entries behind an index are moved down by one. -/
theorem chunk_moveDown {g : RingHeap} {index i : Nat} (base : g.base = h.base)
    (copy : g.mem =
      memCpy h.mem (h.entry index) (h.entry (index + 1)) ((h.count - index + 1) * entrySize % 2 ^ 32))
    (room : (h.count + 1) * entrySize < 2 ^ 32) (inside : i < h.count) :
    g.chunk i = if i < index then h.chunk i else h.chunk (i + 1) := by
  have bytes : (h.count - index + 1) * entrySize % 2 ^ 32 = (h.count - index + 1) * entrySize := by
    apply Nat.mod_eq_of_lt
    unfold entrySize at room ⊢
    omega
  rw [bytes] at copy
  rw [chunk_memCpy base copy]
  by_cases before : i < index
  · rw [if_pos before, if_neg (by omega)]
  · rw [if_neg before, if_pos (by omega), show i - index + (index + 1) = i + 1 by omega]

/-- `insert_in` puts the upper part of the chunk before the rest of it. -/
theorem insertIn_spec (sz : Nat) {index : Nat} (table : h.chunks = pre ++ c :: post) (place : pre.length = index)
    (more : sz < c.size) (address : c.ptr + c.size ≤ 2 ^ 64) (positive : 0 < sz)
    (room : (h.count + 1) * entrySize < 2 ^ 32) :
    (h.insertIn index sz).1 = c.ptr + (c.size - sz) ∧
      (h.insertIn index sz).2.chunks = pre ++ ⟨sz, c.ptr + (c.size - sz)⟩ :: ⟨c.size - sz, c.ptr⟩ :: post := by
  have count := count_of_table table
  simp only [List.length_append, List.length_cons] at count
  have here : h.chunk index = c := by rw [← place]; exact chunk_middle table
  have size : h.size index = c.size := size_of_chunk here
  have narrow : c.size < 2 ^ 32 := by
    rw [← size]
    exact Mem.load_lt _ _ 4
  -- the entries from the index on are moved up
  obtain ⟨g, moved⟩ : ∃ g : RingHeap, g = { h with
    mem := memCpy h.mem (h.entry (index + 1)) (h.entry index) ((h.count - index) * entrySize % 2 ^ 32)
    count := h.count + 1 } := ⟨_, rfl⟩
  have shift : ∀ i, i ≤ h.count → g.chunk i = if i ≤ index then h.chunk i else h.chunk (i - 1) :=
    fun i inside => chunk_moveUp (by rw [moved]) (by rw [moved]) room inside
  have upper := shift index (by omega)
  have lower := shift (index + 1) (by omega)
  rw [if_pos (Nat.le_refl _), here] at upper
  rw [if_neg (by omega), Nat.add_sub_cancel, here] at lower
  -- the sizes of both parts
  obtain ⟨k, sized⟩ : ∃ k : RingHeap, k = (g.setSize (index + 1) (c.size - sz)).setSize index sz := ⟨_, rfl⟩
  have sizes : ∀ i, k.size i = if i = index then sz else if i = index + 1 then c.size - sz else g.size i := by
    intro i
    have wide : c.size - sz < 2 ^ 32 := by omega
    have small : sz < 2 ^ 32 := by omega
    rw [sized, size_setSize small, size_setSize wide]
  have ptrs : ∀ i, k.ptr i = g.ptr i := by
    intro i
    rw [sized, ptr_setSize, ptr_setSize]
  have run : h.insertIn index sz =
      ((k.ptr index + k.size (index + 1)) % 2 ^ 64, k.setPtr index ((k.ptr index + k.size (index + 1)) % 2 ^ 64)) := by
    have gsize : g.size index = c.size := size_of_chunk upper
    rw [insertIn, if_pos ⟨by omega, by omega⟩, sized, ← gsize, moved]
  have start : (k.ptr index + k.size (index + 1)) % 2 ^ 64 = c.ptr + (c.size - sz) := by
    rw [ptrs, sizes, if_neg (by omega), if_pos rfl, ptr_of_chunk upper]
    omega
  have fits : c.ptr + (c.size - sz) < 2 ^ 64 := by omega
  rw [run, start]
  refine ⟨rfl, chunks_eq ?_ fun i x found => ?_⟩
  · have : k.count = h.count + 1 := by rw [sized, moved]; rfl
    simp only [setPtr, List.length_append, List.length_cons, this]
    omega
  · have bound := (List.getElem?_eq_some_iff.mp found).1
    simp only [List.length_append, List.length_cons] at bound
    have old := shift i (by omega)
    rw [chunk, size_setPtr, ptr_setPtr fits, sizes, ptrs]
    rcases Nat.lt_trichotomy i index with less | rfl | greater
    · have differ : i ≠ index := by omega
      have differ' : i ≠ index + 1 := by omega
      rw [if_neg differ, if_neg differ', if_neg differ]
      rw [if_pos (by omega)] at old
      refine old.trans (chunk_of_table table ?_)
      rw [List.getElem?_append_left (by omega)] at found ⊢
      exact found
    · rw [if_pos rfl, if_pos rfl]
      rw [List.getElem?_append_right (by omega), place, Nat.sub_self] at found
      exact Option.some.inj found
    · have differ : i ≠ index := by omega
      rw [if_neg differ, if_neg differ]
      rw [List.getElem?_append_right (by omega), place] at found
      by_cases second : i = index + 1
      · subst second
        rw [if_pos rfl, ptr_of_chunk lower]
        rw [show index + 1 - index = 1 by omega] at found
        exact Option.some.inj found
      · rw [if_neg second]
        rw [if_neg (by omega)] at old
        refine old.trans (chunk_of_table table ?_)
        rw [List.getElem?_append_right (by omega), place]
        rw [show i - index = i - 1 - index - 1 + 1 + 1 by omega] at found
        rw [show i - 1 - index = i - 1 - index - 1 + 1 by omega]
        exact found

/-- `pack` joins the chunks of neighbouring entries. -/
theorem chunks_mergeInto {j : Nat} (table : h.chunks = pre ++ c :: d :: post) (place : pre.length = j)
    (small : c.size + d.size < 2 ^ 32) (room : (h.count + 1) * entrySize < 2 ^ 32) :
    (h.mergeInto j (j + 1)).chunks = pre ++ ⟨c.size + d.size, d.ptr⟩ :: post := by
  have count := count_of_table table
  simp only [List.length_append, List.length_cons] at count
  have first : h.chunk j = c := by rw [← place]; exact chunk_middle table
  have second : h.chunk (j + 1) = d := by
    apply chunk_of_table table
    rw [List.getElem?_append_right (by omega), show j + 1 - pre.length = 1 by omega]
    rfl
  have address : d.ptr < 2 ^ 64 := by
    rw [← second]
    exact Mem.load_lt _ _ 8
  -- the joined entry
  obtain ⟨g, joined⟩ : ∃ g : RingHeap, g = (h.setSize j (c.size + d.size)).setPtr j d.ptr := ⟨_, rfl⟩
  have parts : ∀ i, g.chunk i = if i = j then ⟨c.size + d.size, d.ptr⟩ else h.chunk i := by
    intro i
    rw [joined, chunk, size_setPtr, size_setSize small, ptr_setPtr address, ptr_setSize]
    split <;> rfl
  have run : h.mergeInto j (j + 1) = { g with
      mem := memCpy g.mem (g.entry (j + 1)) (g.entry (j + 2)) ((g.count - (j + 1) + 1) * entrySize % 2 ^ 32)
      count := g.count - 1 } := by
    have sizes : h.size j + h.size (j + 1) = c.size + d.size := by
      rw [← first, ← second]
      rfl
    have ptr : (h.setSize j (c.size + d.size)).ptr (j + 1) = d.ptr := by
      rw [ptr_setSize, ← second]
      rfl
    rw [joined, mergeInto, sizes, ptr]
  have amount : g.count = h.count := by rw [joined]; rfl
  have moved : ∀ i, i < h.count →
      (h.mergeInto j (j + 1)).chunk i = if i < j + 1 then g.chunk i else g.chunk (i + 1) := by
    intro i inside
    rw [run]
    exact chunk_moveDown rfl rfl (by rwa [amount]) (by rwa [amount])
  refine chunks_eq ?_ fun i x found => ?_
  · rw [run]
    simp only [List.length_append, List.length_cons]
    omega
  · have bound := (List.getElem?_eq_some_iff.mp found).1
    simp only [List.length_append, List.length_cons] at bound
    rw [moved i (by omega), parts, parts]
    rcases Nat.lt_trichotomy i j with less | rfl | greater
    · rw [if_pos (by omega), if_neg (by omega)]
      apply chunk_of_table table
      rw [List.getElem?_append_left (by omega)] at found ⊢
      exact found
    · rw [if_pos (by omega), if_pos rfl]
      rw [List.getElem?_append_right (by omega), place, Nat.sub_self] at found
      exact Option.some.inj found
    · rw [if_neg (by omega), if_neg (by omega)]
      apply chunk_of_table table
      rw [List.getElem?_append_right (by omega), place] at found ⊢
      rw [show i - j = i - (j + 1) + 1 by omega] at found
      rw [show i + 1 - j = i - (j + 1) + 1 + 1 by omega]
      exact found

end RingHeap

end PreTeO.Mem
