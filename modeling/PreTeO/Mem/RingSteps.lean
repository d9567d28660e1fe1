import PreTeO.Mem.RingTable

/-!
# The loops of the ring heap

The search of `_alloc` stops at the first chunk that looks free and is long enough, or below the lowest chunk. `pack`
joins the neighbours that look free, as long as there is room for one more entry behind the table: its copy of the table
is two entries too long.
-/

namespace PreTeO.Mem
set_option autoImplicit false
open PreTeO.Lib
namespace RingHeap

variable {h g : RingHeap} {pre rest : List Chunk} {c d : Chunk}

/-- The heap in the same place, with the same bytes from `lo` on. -/
structure Frame (lo : Nat) (h g : RingHeap) : Prop where
  base : g.base = h.base
  heapSz : g.heapSz = h.heapSz
  bytes : ∀ x, lo ≤ x → g.mem x = h.mem x

namespace Frame
variable {lo : Nat}

theorem refl (h : RingHeap) : Frame lo h h := ⟨rfl, rfl, fun _ _ => rfl⟩

theorem trans {k : RingHeap} (first : Frame lo h g) (second : Frame lo g k) : Frame lo h k :=
  ⟨second.base.trans first.base, second.heapSz.trans first.heapSz,
    fun x above => (second.bytes x above).trans (first.bytes x above)⟩

theorem mono {lo' : Nat} (frame : Frame lo h g) (le : lo ≤ lo') : Frame lo' h g :=
  ⟨frame.base, frame.heapSz, fun x above => frame.bytes x (Nat.le_trans le above)⟩

theorem top (frame : Frame lo h g) : g.top = h.top := by
  rw [RingHeap.top, RingHeap.top, frame.base, frame.heapSz]

theorem tableEnd (frame : Frame lo h g) (n : Nat) : g.tableEnd n = h.tableEnd n := by
  rw [RingHeap.tableEnd, RingHeap.tableEnd, frame.base]

theorem word (frame : Frame lo h g) {p : Nat} (above : lo ≤ p) : g.word p = h.word p :=
  Mem.load_congr fun x low _ => frame.bytes x (by omega)

end Frame

/-! ## The search -/

/-- A chunk that `_alloc` takes for a request of `sz` bytes. -/
def Suits (h : RingHeap) (sz i : Nat) : Prop := h.word (h.ptr i) = freePattern ∧ sz ≤ h.size i

instance (h : RingHeap) (sz i : Nat) : Decidable (h.Suits sz i) := inferInstanceAs (Decidable (_ ∧ _))

theorem search_spec (sz : Nat) {left i r : Nat} (total : i + left = h.count) :
    (∃ k, i ≤ k ∧ k < h.count ∧ h.Suits sz k ∧ (∀ j, i ≤ j → j < k → ¬ h.Suits sz j) ∧
      h.search sz i left r = (k, h.ptr k)) ∨
    ((∀ j, i ≤ j → j < h.count → ¬ h.Suits sz j) ∧
      h.search sz i left r = (h.count, if left = 0 then r else below (h.ptr (h.count - 1)) sz)) := by
  induction left generalizing i r with
  | zero => exact Or.inr ⟨fun j low high => by omega, by rw [search, if_pos rfl, ← total, Nat.add_zero]⟩
  | succ left ih =>
    simp only [search]
    split
    · next suits => exact Or.inl ⟨i, Nat.le_refl i, by omega, suits, fun j low high => by omega, rfl⟩
    · next passed =>
      have first : ∀ j, i ≤ j → ¬ i + 1 ≤ j → ¬ h.Suits sz j := by
        intro j low high
        rw [show j = i by omega]
        exact passed
      rcases ih (i := i + 1) (r := below (h.ptr i) sz) (by omega) with
        ⟨k, above, inside, suits, before, stop⟩ | ⟨none, stop⟩
      · refine Or.inl ⟨k, by omega, inside, suits, fun j low high => ?_, stop⟩
        by_cases later : i + 1 ≤ j
        · exact before j later high
        · exact first j low later
      · refine Or.inr ⟨fun j low high => ?_, ?_⟩
        · by_cases later : i + 1 ≤ j
          · exact none j later high
          · exact first j low later
        · rw [stop, if_neg (Nat.succ_ne_zero left)]
          by_cases last : left = 0
          · rw [if_pos last, show h.count - 1 = i by omega]
          · rw [if_neg last]

theorem low_zero (empty : h.count = 0) : h.low = h.top := by
  rw [low, chunks, empty]
  rfl

theorem low_succ {n : Nat} (count : h.count = n + 1) : h.low = h.ptr n := by
  rw [low, chunks, count, List.range_succ, List.map_append, lowest_append]
  rfl

/-- The search of `_alloc`, from the first entry on. -/
theorem search_all (sz : Nat) :
    (∃ k, k < h.count ∧ h.Suits sz k ∧ (∀ j, j < k → ¬ h.Suits sz j) ∧
      h.search sz 0 h.count (below h.top sz) = (k, h.ptr k)) ∨
    ((∀ j, j < h.count → ¬ h.Suits sz j) ∧
      h.search sz 0 h.count (below h.top sz) = (h.count, below h.low sz)) := by
  rcases search_spec (h := h) sz (r := below h.top sz) (Nat.zero_add h.count) with
    ⟨k, -, inside, suits, before, stop⟩ | ⟨none, stop⟩
  · exact Or.inl ⟨k, inside, suits, fun j less => before j (Nat.zero_le j) less, stop⟩
  · refine Or.inr ⟨fun j inside => none j (Nat.zero_le j) inside, stop.trans ?_⟩
    cases count : h.count with
    | zero => rw [if_pos rfl, low_zero count]
    | succ n => rw [if_neg (Nat.succ_ne_zero n), low_succ count, Nat.add_sub_cancel]

/-! ## The check -/

/-! ## Joining -/

/-- The chunk of two neighbours. -/
def join (c d : Chunk) : Chunk := ⟨c.size + d.size, d.ptr⟩

theorem join_ptr (c d : Chunk) : (join c d).ptr = d.ptr := rfl

/-- The chunk looks free. -/
def looksFree (h : RingHeap) (c : Chunk) : Bool := h.word c.ptr = freePattern

theorem Frame.setSize {lo i v : Nat} (inside : h.entry i + entrySize ≤ lo) : Frame lo h (h.setSize i v) := by
  refine ⟨rfl, rfl, fun x above => Mem.store_out (Or.inr ?_)⟩
  unfold entrySize at inside
  omega

theorem Frame.setPtr {lo i v : Nat} (inside : h.entry i + entrySize ≤ lo) : Frame lo h (h.setPtr i v) := by
  refine ⟨rfl, rfl, fun x above => Mem.store_out (Or.inr ?_)⟩
  unfold entrySize at inside
  omega

theorem Frame.memCpy {lo dst n : Nat} (inside : dst + n ≤ lo) (src count : Nat) :
    Frame lo h { h with mem := Mem.memCpy h.mem dst src n, count := count } := by
  refine ⟨rfl, rfl, fun x above => ?_⟩
  have outside : x < dst ∨ dst + n ≤ x := by omega
  change h.mem.blit dst n (fun k => h.mem (src + k)) x = h.mem x
  exact Mem.blit_out outside

theorem entry_end {i n : Nat} (less : i < n) : h.entry i + entrySize ≤ h.tableEnd n := by
  unfold entry tableEnd entrySize
  omega

theorem insertIn_frame (sz : Nat) {index : Nat} (inside : index < h.count) :
    Frame (h.tableEnd (h.count + 1)) h (h.insertIn index sz).2 := by
  unfold insertIn
  split
  · have copied : h.entry (index + 1) + (h.count - index) * entrySize % 2 ^ 32 ≤ h.tableEnd (h.count + 1) := by
      have := Nat.mod_le ((h.count - index) * entrySize) (2 ^ 32)
      unfold entry tableEnd entrySize at *
      omega
    have first : h.entry index + entrySize ≤ h.tableEnd (h.count + 1) := entry_end (by omega)
    have second : h.entry (index + 1) + entrySize ≤ h.tableEnd (h.count + 1) := entry_end (by omega)
    refine (Frame.memCpy copied (h.entry index) (h.count + 1)).trans ?_
    refine (Frame.setSize ?_).trans ((Frame.setSize ?_).trans (Frame.setPtr ?_))
    · exact second
    · exact first
    · exact first
  · exact Frame.refl h

theorem mergeInto_frame {j : Nat} (inside : j + 1 < h.count) :
    Frame (h.tableEnd (h.count + 1)) h (h.mergeInto j (j + 1)) := by
  have copied : h.entry (j + 1) + (h.count - (j + 1) + 1) * entrySize % 2 ^ 32 ≤ h.tableEnd (h.count + 1) := by
    have := Nat.mod_le ((h.count - (j + 1) + 1) * entrySize) (2 ^ 32)
    unfold entry tableEnd entrySize at *
    omega
  have here : h.entry j + entrySize ≤ h.tableEnd (h.count + 1) := entry_end (by omega)
  refine (Frame.setSize here).trans ((Frame.setPtr ?_).trans (Frame.memCpy ?_ _ _))
  · exact here
  · exact copied

theorem coalesce_cons_of_not {free : Chunk → Bool} (busy : free c = false) :
    coalesce join free (c :: rest) = c :: coalesce join free rest := by
  cases rest with
  | nil => simp [coalesce]
  | cons d rest => simp [coalesce, busy]

/-- The bytes of the chunks of a table with room for one more entry are left alone by the joining of two of them. -/
theorem packFrom_spec {h₀ : RingHeap} {lo : Nat} (narrow : h₀.heapSz < 2 ^ 32) (space : lo ≤ h₀.top) (left : Nat) :
    ∀ {h : RingHeap} (pre : List Chunk) {rest : List Chunk}, Frame lo h₀ h →
      Stacked Chunk.ptr Chunk.size h₀.top h.chunks → h.low = lo →
      h₀.tableEnd (h.count + 1) ≤ lo → rest.length = left →
      (h.chunks = pre ++ rest →
        Frame lo h₀ (packFrom left pre.length none h) ∧
          (packFrom left pre.length none h).chunks = pre ++ coalesce join h₀.looksFree rest) ∧
      ∀ c, h.chunks = pre ++ c :: rest → h₀.looksFree c = true →
        Frame lo h₀ (packFrom left (pre.length + 1) (some pre.length) h) ∧
          (packFrom left (pre.length + 1) (some pre.length) h).chunks = pre ++ coalesce join h₀.looksFree (c :: rest) := by
  induction left with
  | zero =>
    intro h pre rest frame _ _ _ length
    obtain rfl := List.length_eq_zero_iff.mp length
    refine ⟨fun table => ⟨frame, by simpa [coalesce, packFrom] using table⟩, fun c table _ => ⟨frame, ?_⟩⟩
    simpa [coalesce, packFrom] using table
  | succ left ih =>
    intro h pre rest frame stacked low room length
    cases rest with
    | nil => cases length
    | cons d rest =>
      have length : rest.length = left := by simpa using length
      -- the first word of a chunk of the table is what it was
      have looks : ∀ {i : Nat} (pre' : List Chunk) {post : List Chunk}, h.chunks = pre' ++ d :: post → pre'.length = i →
          (h.word (h.ptr i) = freePattern ↔ h₀.looksFree d = true) := by
        intro i pre' post table place
        have member : d ∈ h.chunks := by rw [table]; simp
        have above := (stacked.bounds member).1
        rw [← frame.top] at above
        have here : h.chunk i = d := by rw [← place]; exact chunk_middle table
        rw [ptr_of_chunk here, frame.word (low ▸ above), looksFree, decide_eq_true_iff]
      refine ⟨fun table => ?_, fun c table free => ?_⟩
      · rw [packFrom]
        have same := looks pre table rfl
        by_cases free : h₀.looksFree d = true
        · rw [if_pos (same.mpr free)]
          exact (ih pre frame stacked low room length).2 d table free
        · rw [if_neg (fun looks => free (same.mp looks)), coalesce_cons_of_not (by simpa using free)]
          have next := (ih (pre ++ [d]) frame stacked low room length).1 (by simpa using table)
          simpa using next
      · rw [packFrom]
        have same := looks (pre ++ [c]) (by simpa using table) (List.length_append)
        simp only [List.length_singleton] at same
        by_cases free' : h₀.looksFree d = true
        · rw [if_pos (same.mpr free'), coalesce, if_pos (by rw [free, free']; rfl)]
          have size : c.size + d.size < 2 ^ 32 := by
            have above := (stacked.bounds (c := d) (by rw [table]; simp)).1
            rw [← frame.top, ← RingHeap.low, low] at above
            rw [table] at stacked
            obtain ⟨before, stop, -, stop', -, -⟩ := Stacked.append.mp stacked
            have under := before.lowest_le
            have end_eq : h₀.top = h₀.base + h₀.heapSz := rfl
            unfold tableEnd at room
            omega
          have entries : (h.count + 1) * entrySize < 2 ^ 32 := by
            unfold tableEnd at room
            unfold top at space
            omega
          have chunks := chunks_mergeInto table rfl size entries
          have inside : pre.length + 1 < h.count := by
            rw [count_of_table table]
            simp
          have step : Frame lo h (h.mergeInto pre.length (pre.length + 1)) := by
            have fits : h.tableEnd (h.count + 1) ≤ lo := by rwa [frame.tableEnd]
            exact (mergeInto_frame inside).mono fits
          have count : (h.mergeInto pre.length (pre.length + 1)).count = h.count - 1 := rfl
          refine (ih pre (frame.trans step) ?_ ?_ ?_ length).2 (join c d) chunks free'
          · rw [chunks]
            rw [table] at stacked
            exact stacked.merge pre rfl rfl
          · rw [RingHeap.low, chunks, step.top, lowest_merge (c := c) (d := d) (by rfl), ← table, ← RingHeap.low, low]
          · rw [count]
            refine Nat.le_trans ?_ room
            unfold tableEnd
            have := Nat.mul_le_mul_right entrySize (show h.count - 1 + 1 ≤ h.count + 1 by omega)
            omega
        · rw [if_neg (fun looks => free' (same.mp looks)), coalesce, if_neg (by simp [free']),
            coalesce_cons_of_not (by simpa using free')]
          have next := (ih (pre ++ [c, d]) frame stacked low room length).1 (by simpa using table)
          simpa using next

/-- `pack` joins what looks free, and leaves the bytes of the chunks alone. -/
theorem packFrom_all (narrow : h.heapSz < 2 ^ 32) (stacked : Stacked Chunk.ptr Chunk.size h.top h.chunks)
    (room : h.tableEnd (h.count + 1) ≤ h.low) :
    Frame h.low h (packFrom h.count 0 none h) ∧
      (packFrom h.count 0 none h).chunks = coalesce join h.looksFree h.chunks := by
  have packed := packFrom_spec narrow stacked.lowest_le h.count [] (Frame.refl h) stacked rfl room length_chunks
  exact packed.1 rfl

/-- Where no two neighbours look free nothing is joined. -/
theorem packFrom_none (left : Nat) {i : Nat} (total : i + left = h.count)
    (none : ∀ k, k + 1 < h.count → h.word (h.ptr k) = freePattern → h.word (h.ptr (k + 1)) ≠ freePattern) :
    packFrom left i Option.none h = h ∧
      ∀ j, i = j + 1 → h.word (h.ptr j) = freePattern → packFrom left i (some j) h = h := by
  induction left generalizing i with
  | zero => exact ⟨rfl, fun _ _ _ => rfl⟩
  | succ left ih =>
    have next := ih (i := i + 1) (by omega)
    refine ⟨?_, fun j after free => ?_⟩
    · rw [packFrom]
      split
      · next here => exact next.2 i rfl here
      · exact next.1
    · have busy := none j (by omega) free
      rw [← after] at busy
      rw [packFrom, if_neg busy]
      exact next.1

end RingHeap

end PreTeO.Mem
