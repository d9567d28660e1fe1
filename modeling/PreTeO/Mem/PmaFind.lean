import Mathlib.Order.CompletePartialOrder
import PreTeO.Mem.PmaBits
import Mathlib.Order.Interval.Set.Disjoint

/-!
# The search for free pages

`find` counts free pages downwards through the records of a block and starts again at zero at a taken page, at a
record it may not use and at the next block. What it counts is a run of free pages that begins right above the page
it looks at next; this is the invariant of all three loops.
-/

namespace PreTeO.Mem
set_option autoImplicit false

/-- The `k` pages from `q` on exist and are free. -/
structure FreeRun (recs : List Rec) (q k : Nat) : Prop where
  inside : q + k ≤ 24 * recs.length
  free : ∀ p, q ≤ p → p < q + k → takenIn recs p = false

theorem FreeRun.mono {recs : List Rec} {q k k' : Nat} (run : FreeRun recs q k) (fewer : k' ≤ k) : FreeRun recs q k' :=
  ⟨by have := run.inside; omega, fun p low high => run.free p low (by omega)⟩

theorem FreeRun.zero {recs : List Rec} {q : Nat} (inside : q ≤ 24 * recs.length) : FreeRun recs q 0 :=
  ⟨by omega, fun p low high => by omega⟩

/-- One more free page below a run. -/
theorem FreeRun.extend {recs : List Rec} {q k : Nat} (run : FreeRun recs (q + 1) k) (free : takenIn recs q = false) :
    FreeRun recs q (k + 1) := by
  refine ⟨by have := run.inside; omega, fun p low high => ?_⟩
  rcases Nat.eq_or_lt_of_le low with rfl | above
  · exact free
  · exact run.free p above (by omega)

theorem takenIn_get {recs : List Rec} {i n : Nat} {r : Rec} (get : recs[i]? = some r) (small : n < 24) :
    takenIn recs (24 * i + n) = r.bmp.getLsbD (23 - n) := by
  unfold takenIn maxRecAmount
  rw [show (24 * i + n) / 24 = i by omega, show (24 * i + n) % 24 = n by omega, get]

/-- What a loop of `find` below the pages of record `i` may leave: a hit is a run of `count` free pages, and what was
counted without a hit is a run that begins with the record. -/
def Leaves (recs : List Rec) (count i : Nat) : Scan (Nat × Nat) → Prop
  | .found (j, bit) => j < recs.length ∧ bit < 24 ∧ FreeRun recs (24 * j + bit) count
  | .rest cnt n => n ≤ 24 ∧ FreeRun recs (24 * i) cnt ∧ (count = 0 ∨ cnt < count)

/-- The loop over the masks of record `i`. -/
theorem scanBits_leaves {recs : List Rec} {i : Nat} {r : Rec} (get : recs[i]? = some r) {count : Nat}
    (short : count < 2 ^ 32) (n cnt : Nat) (small : n ≤ 24) (run : FreeRun recs (24 * i + n) cnt)
    (fewer : count = 0 ∨ cnt < count) :
    match scanBits r.bmp count n cnt with
    | .found bit => Leaves recs count i (.found (i, bit))
    | .rest cnt n => Leaves recs count i (.rest cnt n) := by
  induction n generalizing cnt with
  | zero => exact ⟨Nat.zero_le _, run, fewer⟩
  | succ n ih =>
    have bound := (List.getElem?_eq_some_iff.mp get).1
    have page := takenIn_get get (show n < 24 by omega)
    have wrapped : (cnt + 1) % 2 ^ 32 ≤ cnt + 1 := Nat.mod_le _ _
    unfold scanBits
    cases taken : r.bmp.getLsbD (23 - n) with
    | true =>
      rw [if_pos rfl]
      refine ih 0 (by omega) (FreeRun.zero (by omega)) ?_
      omega
    | false =>
      rw [taken] at page
      have longer := run.extend page
      rw [if_neg Bool.false_ne_true]
      by_cases hit : (cnt + 1) % 2 ^ 32 = count
      · rw [if_pos hit]
        exact ⟨bound, by omega, longer.mono (by omega)⟩
      · rw [if_neg hit]
        refine ih _ (by omega) (longer.mono wrapped) ?_
        rcases fewer with none | some
        · exact Or.inl none
        · exact Or.inr (by rw [Nat.mod_eq_of_lt (by omega)] at hit ⊢; omega)

theorem scanAt_leaves {recs : List Rec} (type : Nat) {count i : Nat} (bound : i < recs.length) (short : count < 2 ^ 32)
    (n cnt : Nat) (small : n ≤ 24) (run : FreeRun recs (24 * i + n) cnt) (fewer : count = 0 ∨ cnt < count) :
    Leaves recs count i (scanAt type count recs i n cnt) := by
  have get := List.getElem?_eq_getElem bound
  have bits := scanBits_leaves get short n cnt small run fewer
  simp only [scanAt, get, scanRec]
  by_cases usable : (recs[i].type = 0 ∨ recs[i].type = type) ∧ recs[i].amount < maxRecAmount
  · simp only [if_pos usable]
    cases result : scanBits recs[i].bmp count n cnt with
    | found bit =>
      rw [result] at bits
      exact bits
    | rest cnt' n' =>
      rw [result] at bits
      exact bits
  · simp only [if_neg usable]
    exact ⟨small, FreeRun.zero (by omega), by omega⟩

/-- The loop over the records. -/
theorem scanRecs_leaves {recs : List Rec} (type : Nat) {count : Nat} (short : count < 2 ^ 32) (i n cnt : Nat)
    (bound : i < recs.length) (small : n ≤ 24) (run : FreeRun recs (24 * i + n) cnt) (fewer : count = 0 ∨ cnt < count) :
    Leaves recs count 0 (scanRecs type count recs i n cnt) := by
  induction i generalizing n cnt with
  | zero => exact scanAt_leaves type bound short n cnt small run fewer
  | succ i ih =>
    have step := scanAt_leaves type bound short n cnt small run fewer
    unfold scanRecs
    split
    · next hit =>
      rw [hit] at step
      exact step
    · next cnt' n' miss =>
      rw [miss] at step
      obtain ⟨-, run, fewer⟩ := step
      refine ih _ _ (by omega) (le_refl _) ?_ fewer
      rw [show 24 * i + maxRecAmount = 24 * (i + 1) by unfold maxRecAmount; omega]
      exact run

/-- The position is that of a page of a block. -/
structure Pma.At (s : Pma) (p : Position) (b : Ram) : Prop where
  block : s.ram[p.block]? = some b
  index : p.index < b.recs.length
  bit : p.bit < 24

/-- The page of a position. -/
def Position.page (p : Position) : Nat := 24 * p.index + p.bit

theorem Pma.scanBlock_leaves {s : Pma} (type : Nat) {count i index n : Nat} {b : Ram} (get : s.ram[i]? = some b)
    (short : count < 2 ^ 32) (bound : index < b.recs.length) (small : n ≤ 24) :
    Leaves b.recs count 0 (s.scanBlock type count i index n) := by
  simp only [Pma.scanBlock, get]
  refine scanRecs_leaves type short index n 0 bound small (FreeRun.zero (by omega)) ?_
  omega

/-- The loop over the blocks. -/
theorem Pma.scanBlocks_found {s : Pma} (records : ∀ b ∈ s.ram, b.recs ≠ []) {type count : Nat} (short : count < 2 ^ 32)
    {i index n : Nat} {b : Ram} (get : s.ram[i]? = some b) (bound : index < b.recs.length) (small : n ≤ 24)
    {p : Position} (found : s.scanBlocks type count i index n = some p) :
    ∃ b, s.At p b ∧ FreeRun b.recs p.page count := by
  induction i generalizing index n b with
  | zero =>
    have leaves := Pma.scanBlock_leaves type get short bound small
    unfold Pma.scanBlocks at found
    split at found
    · next hit =>
      rw [hit] at leaves
      cases found
      exact ⟨b, ⟨get, leaves.1, leaves.2.1⟩, leaves.2.2⟩
    · next miss =>
      rw [miss] at leaves
      obtain ⟨few, -, fewer⟩ := leaves
      split at found
      · next same =>
        -- only a search for no pages at all ends here
        have none : count = 0 := by omega
        cases found
        rw [none]
        refine ⟨b, ⟨get, show 0 < b.recs.length by omega, show _ - 1 < 24 by omega⟩, FreeRun.zero ?_⟩
        simp only [Position.page]
        omega
      · cases found
  | succ i ih =>
    have leaves := Pma.scanBlock_leaves type get short bound small
    unfold Pma.scanBlocks at found
    split at found
    · next hit =>
      rw [hit] at leaves
      cases found
      exact ⟨b, ⟨get, leaves.1, leaves.2.1⟩, leaves.2.2⟩
    · have below : i < s.ram.length := by
        have := (List.getElem?_eq_some_iff.mp get).1
        omega
      have get' := List.getElem?_eq_getElem below
      refine ih get' ?_ (le_refl _) found
      have := List.length_pos_of_ne_nil (records _ (List.getElem_mem below))
      simp only [Pma.lastRec, get']
      omega

/-- An address in a block has a position in it. -/
theorem Pma.addressToPosition_at {s : Pma} (positive : 0 < s.pageSize) {addr : Nat} {p : Position}
    (found : s.addressToPosition addr = some p) :
    ∃ b, s.At p b ∧ b.addr ≤ addr - addr % s.pageSize ∧ addr - addr % s.pageSize < b.blockEnd s.pageSize ∧
      p.page = (addr - addr % s.pageSize - b.addr) / s.pageSize := by
  unfold Pma.addressToPosition at found
  dsimp only at found
  generalize page_start : addr - addr % s.pageSize = a at found ⊢
  split at found
  · cases found
  · next i search =>
    obtain ⟨bound, inside, -⟩ := List.findIdx?_eq_some_iff_getElem.mp search
    rw [List.getElem?_eq_getElem bound] at found
    dsimp only at found
    simp only [Bool.and_eq_true, decide_eq_true_eq] at inside
    have below : a < s.ram[i].addr + s.ram[i].npages * s.pageSize := lt_of_lt_of_le inside.2 (Nat.mod_le _ _)
    have page : (a - s.ram[i].addr) / s.pageSize < s.ram[i].recs.length * 24 := by
      rw [Nat.div_lt_iff_lt_mul positive]
      unfold Ram.npages maxRecAmount at below
      omega
    cases found
    refine ⟨s.ram[i], ⟨List.getElem?_eq_getElem bound, ?_, Nat.mod_lt _ (by decide)⟩, inside.1, inside.2, ?_⟩
    · change (a - s.ram[i].addr) / s.pageSize / 24 < s.ram[i].recs.length
      omega
    · simp only [Position.page, maxRecAmount]
      omega

/-- The bytes of the pages of a block. -/
def Ram.area (b : Ram) (pageSize : Nat) : Set Nat := Set.Ico b.addr (b.addr + b.npages * pageSize)

/-- The blocks have records, lie in the address space page by page, and share no byte. -/
structure Pma.Layout (s : Pma) : Prop where
  positive : 0 < s.pageSize
  records : ∀ b ∈ s.ram, b.recs ≠ []
  nonnull : ∀ b ∈ s.ram, 0 < b.addr
  aligned : ∀ b ∈ s.ram, s.pageSize ∣ b.addr
  fits : ∀ b ∈ s.ram, b.addr + b.npages * s.pageSize < 2 ^ 64
  apart : ∀ (i j : Nat) (b b' : Ram), s.ram[i]? = some b → s.ram[j]? = some b' → i ≠ j →
    Disjoint (b.area s.pageSize) (b'.area s.pageSize)

/-- A page address of a block that ends inside the address space leads to the position of the page. -/
theorem Pma.addressToPosition_page {s : Pma} (positive : 0 < s.pageSize) {i q : Nat} {b : Ram}
    (get : s.ram[i]? = some b) (aligned : s.pageSize ∣ b.addr) (fits : b.addr + b.npages * s.pageSize < 2 ^ 64)
    (apart : ∀ (j : Nat) (b' : Ram), s.ram[j]? = some b' → j < i → Disjoint (b'.area s.pageSize) (b.area s.pageSize))
    (inside : q < b.npages) :
    s.addressToPosition (b.addr + q * s.pageSize) = some ⟨i, q / maxRecAmount, q % maxRecAmount⟩ := by
  have whole : (b.addr + q * s.pageSize) % s.pageSize = 0 := by
    rw [Nat.add_mul_mod_self_right]
    exact Nat.mod_eq_zero_of_dvd aligned
  have below : q * s.pageSize < b.npages * s.pageSize := Nat.mul_lt_mul_of_pos_right inside positive
  have ends : b.blockEnd s.pageSize = b.addr + b.npages * s.pageSize := Nat.mod_eq_of_lt fits
  obtain ⟨bound, same⟩ := List.getElem?_eq_some_iff.mp get
  have search : s.ram.findIdx? (fun b' => b'.addr ≤ b.addr + q * s.pageSize &&
      b.addr + q * s.pageSize < b'.blockEnd s.pageSize) = some i := by
    rw [List.findIdx?_eq_some_iff_getElem]
    refine ⟨bound, ?_, ?_⟩
    · rw [same, ends]
      simp only [Bool.and_eq_true, decide_eq_true_eq]
      omega
    · intro j earlier hit
      simp only [Bool.and_eq_true, decide_eq_true_eq] at hit
      have lower : j < s.ram.length := by omega
      have disjoint := apart j _ (List.getElem?_eq_getElem lower) earlier
      have less : b.addr + q * s.pageSize < s.ram[j].addr + s.ram[j].npages * s.pageSize :=
        lt_of_lt_of_le hit.2 (Nat.mod_le _ _)
      have shared : b.addr + q * s.pageSize ∈ b.area s.pageSize := ⟨by omega, by omega⟩
      exact Set.disjoint_left.mp disjoint ⟨hit.1, less⟩ shared
  unfold Pma.addressToPosition
  dsimp only
  rw [whole, Nat.sub_zero, search]
  dsimp only
  rw [get]
  dsimp only
  rw [Nat.add_sub_cancel_left, Nat.mul_div_cancel _ positive]

/-- A page address leads to the position of the page. -/
theorem Pma.Layout.addressToPosition {s : Pma} (layout : s.Layout) {i q : Nat} {b : Ram} (get : s.ram[i]? = some b)
    (inside : q < b.npages) :
    s.addressToPosition (b.addr + q * s.pageSize) = some ⟨i, q / maxRecAmount, q % maxRecAmount⟩ := by
  have member := List.mem_of_getElem? get
  refine Pma.addressToPosition_page layout.positive get (layout.aligned b member) (layout.fits b member) ?_ inside
  intro j b' get' earlier
  exact layout.apart j i b' b get' get (by omega)

/-- What `find` finds is a run of free pages of one block. -/
theorem Pma.find_spec {s : Pma} (positive : 0 < s.pageSize) (records : ∀ b ∈ s.ram, b.recs ≠ []) {limit type count : Nat}
    (short : count < 2 ^ 32) {p : Position} (found : s.find limit type count = some (some p)) :
    ∃ b, s.At p b ∧ FreeRun b.recs p.page count := by
  unfold Pma.find at found
  split at found
  · cases found
  · split at found
    · cases found
    · dsimp only at found
      split at found
      · cases found
      · next place =>
        injection found with found
        obtain ⟨b, at_b, -⟩ := Pma.addressToPosition_at positive place
        refine Pma.scanBlocks_found records short at_b.block at_b.index ?_ found
        have := at_b.bit
        split <;> omega

end PreTeO.Mem
