import PreTeO.Lib.Sweep
import PreTeO.Mem.PmaInit

/-!
# Contiguous allocation finds the highest run

`find` sweeps down from the last page below the limit, through the records of a block and then the blocks below it. Its
first hit is the highest run of usable pages, and without a hit there is none. It starts from a position it computes from
the limit, and that computation needs a block, and an end of the block that is an address.
-/

namespace PreTeO.Mem
set_option autoImplicit false
open PreTeO.Lib

/-- The page is free, and the type of its record allows it. -/
def Usable (recs : List Rec) (type p : Nat) : Prop :=
  takenIn recs p = false ∧ ∃ r, recs[p / maxRecAmount]? = some r ∧ (r.type = 0 ∨ r.type = type)

/-- The pages of a block whose last byte is below the limit. -/
def Ram.pagesBelow (b : Ram) (pageSize limit : Nat) : Nat := min b.npages ((limit - b.addr) / pageSize)

/-- A run of `npages` usable pages in a row inside the block, from page `q` on, whose last byte is below the limit. -/
structure Ram.RunBelow (b : Ram) (pageSize type limit npages q : Nat) : Prop where
  inside : q + npages ≤ b.npages
  usable : ∀ p, q ≤ p → p < q + npages → Usable b.recs type p
  below : b.addr + (q + npages) * pageSize - 1 < limit

/-- The same, as the search sees it. -/
abbrev Ram.RunAt (b : Ram) (pageSize type limit npages q : Nat) : Prop :=
  IsRun (Usable b.recs type) npages (b.pagesBelow pageSize limit) q

theorem Ram.runBelow_iff {b : Ram} {pageSize type limit n q : Nat} (positive : 0 < pageSize) (some : 0 < n) :
    b.RunBelow pageSize type limit n q ↔ b.RunAt pageSize type limit n q := by
  have bytes : 0 < (q + n) * pageSize := Nat.mul_pos (by omega) positive
  have bound : q + n ≤ b.pagesBelow pageSize limit ↔ q + n ≤ b.npages ∧ (q + n) * pageSize ≤ limit - b.addr := by
    unfold Ram.pagesBelow
    rw [Nat.le_min, Nat.le_div_iff_mul_le positive]
  constructor
  · intro run
    have := run.below
    exact ⟨bound.mpr ⟨run.inside, by omega⟩, run.usable⟩
  · intro run
    obtain ⟨inside, below⟩ := bound.mp run.inside
    exact ⟨inside, run.holds, by omega⟩

/-! ## The loops -/

/-- What a loop of `find` comes to: the highest run, or no run down to page `low`. -/
def Settles (recs : List Rec) (type count bound low : Nat) : Scan (Nat × Nat) → Prop
  | .found (j, bit) => j < recs.length ∧ bit < 24 ∧ Highest (Usable recs type) count bound (24 * j + bit)
  | .rest cnt _ => Swept (Usable recs type) count bound low cnt

section Loops
variable {recs : List Rec} {type count bound i : Nat} {r : Rec}

theorem usable_iff (get : recs[i]? = some r) (fits : r.type = 0 ∨ r.type = type) {n : Nat} (small : n < 24) :
    Usable recs type (24 * i + n) ↔ r.bmp.getLsbD (23 - n) = false := by
  unfold Usable
  rw [takenIn_get get small, show (24 * i + n) / maxRecAmount = i by unfold maxRecAmount; omega, get]
  constructor
  · exact And.left
  · intro free
    exact ⟨free, r, rfl, fits⟩

/-- A record that is passed over has no usable page. -/
theorem not_usable (get : recs[i]? = some r) (counted : r.Counted)
    (passed : ¬ ((r.type = 0 ∨ r.type = type) ∧ r.amount < maxRecAmount)) {p : Nat} (low : 24 * i ≤ p)
    (high : p < 24 * i + 24) : ¬ Usable recs type p := by
  obtain ⟨n, rfl⟩ := Nat.exists_eq_add_of_le low
  rintro ⟨free, r', get', fits⟩
  rw [show (24 * i + n) / maxRecAmount = i by unfold maxRecAmount; omega, get] at get'
  cases get'
  rw [takenIn_get get (by omega)] at free
  have fewer := (ones_lt_iff r.bmp).mpr ⟨23 - n, by omega, free⟩
  apply passed
  refine ⟨fits, ?_⟩
  rw [show r.amount = ones r.bmp from counted]
  exact fewer

/-- The loop over the masks of record `i`. -/
theorem scanBits_settles (get : recs[i]? = some r) (fits : r.type = 0 ∨ r.type = type) (short : count < 2 ^ 32)
    {n cnt : Nat} (small : n ≤ 24) (swept : Swept (Usable recs type) count bound (24 * i + n) cnt) :
    match scanBits r.bmp count n cnt with
    | .found bit => Settles recs type count bound (24 * i) (.found (i, bit))
    | .rest cnt n => Settles recs type count bound (24 * i) (.rest cnt n) := by
  induction n generalizing cnt with
  | zero => exact swept
  | succ n ih =>
    have page := usable_iff get fits (show n < 24 by omega)
    have fewer := swept.short
    have whole : (cnt + 1) % 2 ^ 32 = cnt + 1 := Nat.mod_eq_of_lt (by omega)
    unfold scanBits
    cases taken : r.bmp.getLsbD (23 - n) with
    | true =>
      rw [if_pos rfl]
      apply ih (by omega)
      apply swept.miss
      intro usable
      have free := page.mp usable
      rw [taken] at free
      cases free
    | false =>
      have fine := page.mpr taken
      rw [if_neg Bool.false_ne_true, whole]
      by_cases hit : cnt + 1 = count
      · rw [if_pos hit]
        exact ⟨(List.getElem?_eq_some_iff.mp get).1, by omega, swept.hit fine hit⟩
      · rw [if_neg hit]
        exact ih (by omega) (swept.more fine (by omega))

theorem scanAt_settles (counted : ∀ r ∈ recs, r.Counted) (inside : i < recs.length) (short : count < 2 ^ 32) {n cnt : Nat}
    (small : n ≤ 24) (fresh : n = 0 → cnt = 0) (swept : Swept (Usable recs type) count bound (24 * i + n) cnt) :
    Settles recs type count bound (24 * i) (scanAt type count recs i n cnt) := by
  have get := List.getElem?_eq_getElem inside
  simp only [scanAt, get, scanRec]
  by_cases usable : (recs[i].type = 0 ∨ recs[i].type = type) ∧ recs[i].amount < maxRecAmount
  · have bits := scanBits_settles get usable.1 short small swept
    simp only [if_pos usable]
    cases result : scanBits recs[i].bmp count n cnt with
    | found bit =>
      rw [result] at bits
      exact bits
    | rest cnt' n' =>
      rw [result] at bits
      exact bits
  · simp only [if_neg usable]
    apply swept.skip _ fresh
    intro p low high
    exact not_usable get (counted _ (List.getElem_mem inside)) usable low (by omega)

/-- The loop over the records. -/
theorem scanRecs_settles (counted : ∀ r ∈ recs, r.Counted) (inside : i < recs.length) (short : count < 2 ^ 32)
    {n cnt : Nat} (small : n ≤ 24) (fresh : n = 0 → cnt = 0)
    (swept : Swept (Usable recs type) count bound (24 * i + n) cnt) :
    Settles recs type count bound 0 (scanRecs type count recs i n cnt) := by
  induction i generalizing n cnt with
  | zero => exact scanAt_settles counted inside short small fresh swept
  | succ i ih =>
    have step := scanAt_settles counted inside short small fresh swept
    unfold scanRecs
    split
    · next hit =>
      rw [hit] at step
      exact step
    · next cnt' n' miss =>
      rw [miss] at step
      exact ih (by omega) (le_refl 24) (fun none => absurd none (by decide)) step

end Loops

/-! ## The blocks -/

/-- The blocks of RAM: page by page, one after the other, each with a record. -/
structure Pma.Blocks (s : Pma) : Prop where
  positive : 0 < s.pageSize
  records : ∀ b ∈ s.ram, b.recs ≠ []
  aligned : ∀ b ∈ s.ram, s.pageSize ∣ b.addr
  sorted : ∀ (i j : Nat) (b b' : Ram), s.ram[i]? = some b → s.ram[j]? = some b' → i < j →
    b.addr + b.npages * s.pageSize ≤ b'.addr
  inSpace : ∀ b ∈ s.ram, b.addr + b.npages * s.pageSize ≤ 2 ^ 64

/-- Blocks in a sorted row share no byte. -/
theorem Pma.Blocks.apart {s : Pma} (blocks : s.Blocks) {i j : Nat} {b b' : Ram} (get : s.ram[i]? = some b)
    (get' : s.ram[j]? = some b') (differ : i ≠ j) : Disjoint (b.area s.pageSize) (b'.area s.pageSize) := by
  unfold Ram.area
  rw [Set.Ico_disjoint_Ico]
  rcases Nat.lt_or_gt_of_ne differ with less | less
  · have := blocks.sorted i j b b' get get' less
    omega
  · have := blocks.sorted j i b' b get' get less
    omega

theorem Pma.Blocks.addressToPosition {s : Pma} (blocks : s.Blocks) {i q : Nat} {b : Ram} (get : s.ram[i]? = some b)
    (fits : b.addr + b.npages * s.pageSize < 2 ^ 64) (inside : q < b.npages) :
    s.addressToPosition (b.addr + q * s.pageSize) = some ⟨i, q / maxRecAmount, q % maxRecAmount⟩ := by
  refine Pma.addressToPosition_page blocks.positive get (blocks.aligned b (List.mem_of_getElem? get)) fits ?_ inside
  intro j b' get' earlier
  exact blocks.apart get' get (by omega)

/-- Every counter of set bits is right. -/
def Pma.RecsCounted (s : Pma) : Prop := ∀ b ∈ s.ram, ∀ r ∈ b.recs, r.Counted

section Blocks
variable {s : Pma} {type limit count : Nat}

theorem scanBlock_settles (type : Nat) (counted : s.RecsCounted) (pos : 0 < count) (short : count < 2 ^ 32)
    {i index n : Nat} {b : Ram}
    (get : s.ram[i]? = some b) (inside : index < b.recs.length) (small : n ≤ 24)
    (top : b.pagesBelow s.pageSize limit = 24 * index + n) :
    Settles b.recs type count (b.pagesBelow s.pageSize limit) 0 (s.scanBlock type count i index n) := by
  simp only [Pma.scanBlock, get]
  apply scanRecs_settles (counted b (List.mem_of_getElem? get)) inside short small (fun _ => rfl)
  rw [← top]
  exact Swept.start pos

/-- What the loop over the blocks comes to. -/
def Pma.Found (s : Pma) (type limit count i : Nat) : Option Position → Prop
  | none => ∀ (k : Nat) (b : Ram), k ≤ i → s.ram[k]? = some b → ∀ q, ¬ b.RunAt s.pageSize type limit count q
  | some p => ∃ b, s.At p b ∧ Highest (Usable b.recs type) count (b.pagesBelow s.pageSize limit) p.page ∧
      ∀ (k : Nat) (b' : Ram), p.block < k → k ≤ i → s.ram[k]? = some b' → ∀ q, ¬ b'.RunAt s.pageSize type limit count q

/-- The blocks above that the search left out have no run. -/
theorem Pma.Found.above {i j : Nat} {o : Option Position} (found : s.Found type limit count i o)
    (none : ∀ (k : Nat) (b : Ram), i < k → k ≤ j → s.ram[k]? = some b → ∀ q, ¬ b.RunAt s.pageSize type limit count q) :
    s.Found type limit count j o := by
  cases o with
  | none =>
    intro k b under get
    rcases Nat.lt_or_ge i k with beyond | inner
    · exact none k b beyond under get
    · exact found k b inner get
  | some p =>
    obtain ⟨b, at_b, highest, between⟩ := found
    refine ⟨b, at_b, highest, fun k b' low under get => ?_⟩
    rcases Nat.lt_or_ge i k with beyond | inner
    · exact none k b' beyond under get
    · exact between k b' low inner get

/-- The loop over the blocks, down from a block in which the pages below the limit end with mask `n` of record `index`.
The blocks below it lie below the limit. -/
theorem scanBlocks_settles (type : Nat) (blocks : s.Blocks) (counted : s.RecsCounted) (pos : 0 < count)
    (short : count < 2 ^ 32) {i index n : Nat} {b : Ram} (get : s.ram[i]? = some b) (inside : index < b.recs.length) (small : n ≤ 24)
    (top : b.pagesBelow s.pageSize limit = 24 * index + n)
    (lower : ∀ (k : Nat) (b' : Ram), k < i → s.ram[k]? = some b' → b'.pagesBelow s.pageSize limit = b'.npages) :
    s.Found type limit count i (s.scanBlocks type count i index n) := by
  have settles := scanBlock_settles type counted pos short get inside small top
  induction i generalizing index n b with
  | zero =>
    unfold Pma.scanBlocks
    split
    · next hit =>
      rw [hit] at settles
      refine ⟨b, ⟨get, settles.1, settles.2.1⟩, settles.2.2, ?_⟩
      intro k b' above below
      exact absurd above (by simpa using below)
    · next cnt n' miss =>
      rw [miss] at settles
      have swept : Swept _ _ _ _ _ := settles
      rw [if_neg (Nat.ne_of_lt swept.short)]
      intro k b' below get' q run
      obtain rfl := Nat.le_zero.mp below
      rw [get] at get'
      cases get'
      exact Nat.not_lt_zero q (swept.none q run)
  | succ i ih =>
    unfold Pma.scanBlocks
    split
    · next hit =>
      rw [hit] at settles
      refine ⟨b, ⟨get, settles.1, settles.2.1⟩, settles.2.2, ?_⟩
      intro k b' above below
      exact absurd above (by simpa using below)
    · next cnt n' miss =>
      rw [miss] at settles
      have swept : Swept _ _ _ _ _ := settles
      have here : ∀ q, ¬ b.RunAt s.pageSize type limit count q := fun q run => Nat.not_lt_zero q (swept.none q run)
      have bound : i < s.ram.length := by
        have := (List.getElem?_eq_some_iff.mp get).1
        omega
      have get' := List.getElem?_eq_getElem bound
      have nonempty := List.length_pos_of_ne_nil (blocks.records _ (List.getElem_mem bound))
      have last : s.lastRec i = (s.ram[i]).recs.length - 1 := by simp only [Pma.lastRec, get']
      have top' : (s.ram[i]).pagesBelow s.pageSize limit = 24 * s.lastRec i + maxRecAmount := by
        rw [lower i _ (by omega) get', last, Ram.npages]
        simp only [maxRecAmount]
        omega
      have inside' : s.lastRec i < (s.ram[i]).recs.length := by omega
      have rest := ih get' inside' (le_refl maxRecAmount) top' (fun k b' below => lower k b' (by omega))
        (scanBlock_settles type counted pos short get' inside' (le_refl maxRecAmount) top')
      -- the block of this round has no run either
      cases found : s.scanBlocks type count i (s.lastRec i) maxRecAmount with
      | none =>
        rw [found] at rest
        intro k b' below get'' q
        rcases Nat.lt_or_ge k (i + 1) with under | here_k
        · exact rest k b' (by omega) get'' q
        · obtain rfl : k = i + 1 := by omega
          rw [get] at get''
          cases get''
          exact here q
      | some p =>
        rw [found] at rest
        obtain ⟨b', at_b', highest, between⟩ := rest
        refine ⟨b', at_b', highest, ?_⟩
        intro k b'' above below get'' q
        rcases Nat.lt_or_ge k (i + 1) with under | here_k
        · exact between k b'' above (by omega) get'' q
        · obtain rfl : k = i + 1 := by omega
          rw [get] at get''
          cases get''
          exact here q

/-- The search for the block to start in. -/
theorem startBlock_none {j : Nat} (none : s.startBlock limit j = none) (inside : j < s.ram.length) :
    ∀ (k : Nat) (b : Ram), k ≤ j → s.ram[k]? = some b → limit ≤ b.addr := by
  induction j with
  | zero =>
    intro k b low get
    obtain rfl := Nat.le_zero.mp low
    simp only [Pma.startBlock, get] at none
    by_contra above
    rw [if_neg above] at none
    cases none
  | succ j ih =>
    have get' := List.getElem?_eq_getElem inside
    simp only [Pma.startBlock, get'] at none
    split at none
    · next below =>
      intro k b low get
      rcases Nat.lt_or_ge k (j + 1) with under | here
      · exact ih none (by omega) k b (by omega) get
      · obtain rfl : k = j + 1 := by omega
        rw [get'] at get
        cases get
        exact below
    · cases none

theorem startBlock_some {j : Nat} {b : Ram} (found : s.startBlock limit j = some b) :
    ∃ i, i ≤ j ∧ s.ram[i]? = some b ∧ b.addr < limit ∧
      ∀ (k : Nat) (b' : Ram), i < k → k ≤ j → s.ram[k]? = some b' → limit ≤ b'.addr := by
  induction j with
  | zero =>
    simp only [Pma.startBlock] at found
    split at found
    · cases found
    · next b' get =>
      split at found
      · cases found
      · next above =>
        cases found
        refine ⟨0, le_refl _, get, by omega, ?_⟩
        intro k b' low high
        omega
  | succ j ih =>
    simp only [Pma.startBlock] at found
    split at found
    · cases found
    · next b' get =>
      split at found
      · next below =>
        obtain ⟨i, low, get', above, rest⟩ := ih found
        refine ⟨i, by omega, get', above, ?_⟩
        intro k b'' beyond under get''
        rcases Nat.lt_or_ge k (j + 1) with inner | here
        · exact rest k b'' beyond (by omega) get''
        · obtain rfl : k = j + 1 := by omega
          rw [get] at get''
          cases get''
          exact below
      · next above =>
        cases found
        refine ⟨j + 1, le_refl _, get, by omega, ?_⟩
        intro k b'' low high
        omega

/-- A block from the limit on has no page below it. -/
theorem no_run_above {b : Ram} (pos : 0 < count) (above : limit ≤ b.addr) (q : Nat) :
    ¬ b.RunAt s.pageSize type limit count q := by
  intro run
  have ends := run.inside
  unfold Ram.pagesBelow at ends
  rw [Nat.sub_eq_zero_of_le above, Nat.zero_div, Nat.min_zero] at ends
  omega

/-- The position of a byte of a block. -/
theorem addressToPosition_byte (blocks : s.Blocks) {i d : Nat} {b : Ram} (get : s.ram[i]? = some b)
    (fits : b.addr + b.npages * s.pageSize < 2 ^ 64) (inside : d / s.pageSize < b.npages) :
    s.addressToPosition (b.addr + d) =
      some ⟨i, d / s.pageSize / maxRecAmount, d / s.pageSize % maxRecAmount⟩ := by
  obtain ⟨c, aligned⟩ := blocks.aligned b (List.mem_of_getElem? get)
  have start : pageOf s.pageSize (b.addr + d) = b.addr + d / s.pageSize * s.pageSize := by
    rw [Arena.pageOf_eq, aligned, Nat.mul_add_div blocks.positive, Nat.add_mul, Nat.mul_comm c]
  rw [← Arena.addressToPosition_pageOf (h := ⟨s, []⟩) blocks.positive, start]
  exact blocks.addressToPosition get fits inside

/-- `find` finds the highest run, if the block it starts in does not end at the top of the address space. -/
theorem find_settles (blocks : s.Blocks) (counted : s.RecsCounted) (pos : 0 < count)
    (short : count < 2 ^ 32) (some : s.ram ≠ [])
    (ends : ∀ b, s.startBlock limit (s.ram.length - 1) = Option.some b → b.addr + b.npages * s.pageSize < 2 ^ 64) :
    ∃ found, s.find limit type count = Option.some found ∧ s.Found type limit count (s.ram.length - 1) found := by
  have positive := blocks.positive
  have length := List.length_pos_of_ne_nil some
  unfold Pma.find
  rw [if_neg some]
  cases start : s.startBlock limit (s.ram.length - 1) with
  | none =>
    refine ⟨none, rfl, fun k b low get q => ?_⟩
    exact no_run_above pos (startBlock_none start (by omega) k b low get) q
  | some b =>
    obtain ⟨i, low, get, below, above⟩ := startBlock_some start
    have member := List.mem_of_getElem? get
    have fits := ends b start
    have nonempty := List.length_pos_of_ne_nil (blocks.records b member)
    have number : b.npages = b.recs.length * 24 := rfl
    have pages : 24 ≤ b.npages := by omega
    have size : s.pageSize ≤ b.npages * s.pageSize := Nat.le_mul_of_pos_left _ (by omega)
    have last : (b.addr + b.npages * s.pageSize + 2 ^ 64 - 1) % 2 ^ 64 = b.addr + (b.npages * s.pageSize - 1) := by
      omega
    have lower : ∀ (k : Nat) (b' : Ram), k < i → s.ram[k]? = Option.some b' →
        b'.pagesBelow s.pageSize limit = b'.npages := by
      intro k b' under get'
      have order := blocks.sorted k i b' b get' get under
      unfold Ram.pagesBelow
      rw [Nat.min_eq_left]
      rw [Nat.le_div_iff_mul_le positive]
      omega
    have finish : ∀ index n, index < b.recs.length → n ≤ 24 → b.pagesBelow s.pageSize limit = 24 * index + n →
        s.Found type limit count (s.ram.length - 1) (s.scanBlocks type count i index n) := by
      intro index n inside small top
      have settles := scanBlocks_settles type blocks counted pos short get inside small top lower
      exact settles.above fun k b' beyond under get' => no_run_above pos (above k b' beyond under get')
    dsimp only
    rw [last]
    by_cases beyond : b.addr + (b.npages * s.pageSize - 1) < limit
    · -- the limit is above the block, and the search starts with its last page
      have page : (b.npages * s.pageSize - 1) / s.pageSize = b.npages - 1 := by
        have whole : b.npages * s.pageSize = (b.npages - 1) * s.pageSize + s.pageSize := by
          rw [← Nat.succ_mul, Nat.succ_eq_add_one, Nat.sub_add_cancel (by omega)]
        rw [Nat.div_eq_iff positive]
        omega
      have top : b.pagesBelow s.pageSize limit = b.npages := by
        unfold Ram.pagesBelow
        rw [Nat.min_eq_left]
        rw [Nat.le_div_iff_mul_le positive]
        omega
      rw [if_pos beyond, if_pos beyond, addressToPosition_byte blocks get fits (by omega), page]
      refine ⟨_, rfl, finish _ _ ?_ ?_ ?_⟩
      · dsimp only [maxRecAmount]
        omega
      · dsimp only [maxRecAmount]
        omega
      · dsimp only [maxRecAmount]
        omega
    · -- the limit cuts the block, and the page it lies in is left out
      obtain ⟨d, rfl⟩ := Nat.exists_eq_add_of_lt below
      have page : (d + 1) / s.pageSize < b.npages := by
        rw [Nat.div_lt_iff_lt_mul positive]
        omega
      have top : b.pagesBelow s.pageSize (b.addr + d + 1) = (d + 1) / s.pageSize := by
        unfold Ram.pagesBelow
        rw [show b.addr + d + 1 - b.addr = d + 1 by omega, Nat.min_eq_right page.le]
      rw [if_neg beyond, if_neg beyond, Nat.add_assoc, addressToPosition_byte blocks get fits page]
      rw [Nat.add_assoc] at finish top
      refine ⟨_, rfl, finish _ _ ?_ ?_ ?_⟩
      · dsimp only [maxRecAmount]
        omega
      · dsimp only [maxRecAmount]
        omega
      · dsimp only [maxRecAmount]
        omega

end Blocks

/-! ## `alloc` -/

/-- Exactly the bits of the `npages` pages from `addr` on were set. -/
structure Pma.Sets (s t : Pma) (npages addr : Nat) : Prop where
  length : t.ram.length = s.ram.length
  bits : ∀ (i : Nat) (b b' : Ram), s.ram[i]? = some b → t.ram[i]? = some b' → b'.addr = b.addr ∧ b'.npages = b.npages ∧
    ∀ p, p < b.npages → b'.taken p =
      (b.taken p || decide (addr ≤ b.addr + p * s.pageSize ∧ b.addr + p * s.pageSize < addr + npages * s.pageSize))

/-- `alloc` returns the highest run there is and sets its bits, and null without a change exactly if there is none. -/
def Pma.AllocOk (s : Pma) (npages type limit : Nat) : Prop :=
  ∃ addr t, s.alloc npages type limit = some (addr, t) ∧
    (addr ≠ 0 ↔ ∃ b ∈ s.ram, ∃ q, b.RunBelow s.pageSize type limit npages q) ∧
    (addr = 0 → t = s) ∧
    (addr ≠ 0 → s.Sets t npages addr ∧ ∃ b ∈ s.ram, ∃ q, b.RunBelow s.pageSize type limit npages q ∧
      addr = b.addr + q * s.pageSize ∧
      ∀ b' ∈ s.ram, ∀ q', b'.RunBelow s.pageSize type limit npages q' → b'.addr + q' * s.pageSize ≤ addr)

/-- The order of two runs of a sorted row of blocks. -/
theorem Pma.Blocks.run_le {s : Pma} (blocks : s.Blocks) {i j : Nat} {b b' : Ram} (get : s.ram[i]? = some b)
    (get' : s.ram[j]? = some b') (less : i < j) {q q' : Nat} (inside : q ≤ b.npages) :
    b.addr + q * s.pageSize ≤ b'.addr + q' * s.pageSize := by
  have order := blocks.sorted i j b b' get get' less
  have := Nat.mul_le_mul_right s.pageSize inside
  omega

/-- The run of `npages` usable pages from page `q` of the block on is the highest one below the limit. -/
structure Pma.HighestRun (s : Pma) (type limit npages : Nat) (b : Ram) (q : Nat) : Prop where
  run : b.RunBelow s.pageSize type limit npages q
  above : ∀ b' ∈ s.ram, ∀ q', b'.RunBelow s.pageSize type limit npages q' →
    b'.addr + q' * s.pageSize ≤ b.addr + q * s.pageSize

/-- What `find` found is the highest run of all blocks. -/
theorem Pma.Found.highest {s : Pma} (blocks : s.Blocks) {type limit npages : Nat} (pos : 0 < npages) {p : Position}
    (found : s.Found type limit npages (s.ram.length - 1) (some p)) :
    ∃ b, s.At p b ∧ s.HighestRun type limit npages b p.page := by
  have positive := blocks.positive
  obtain ⟨b, at_b, highest, above⟩ := found
  refine ⟨b, at_b, (Ram.runBelow_iff positive pos).mpr highest.toIsRun, ?_⟩
  intro c member q run
  obtain ⟨j, get⟩ := List.getElem?_of_mem member
  have at_c := (Ram.runBelow_iff positive pos).mp run
  rcases Nat.lt_trichotomy j p.block with lower | rfl | higher
  · exact blocks.run_le get at_b.block lower (by have := run.inside; omega)
  · rw [at_b.block] at get
    cases get
    exact Nat.add_le_add_left (Nat.mul_le_mul_right _ (highest.above q at_c)) _
  · have := (List.getElem?_eq_some_iff.mp get).1
    exact absurd at_c (above j c higher (by omega) get q)

/-- What every call keeps, whatever it gives back: the blocks stay where they are, with right counters. -/
structure Pma.Ledger (s : Pma) : Prop where
  layout : s.Layout
  counted : ∀ b ∈ s.ram, b.Counted

/-- The part of it that does not depend on where the blocks lie. -/
structure Pma.Counts (s : Pma) : Prop where
  positive : 0 < s.pageSize
  records : ∀ b ∈ s.ram, b.recs ≠ []
  room : ∀ b ∈ s.ram, b.npages < 2 ^ 64
  counted : ∀ b ∈ s.ram, b.Counted

section Ledger
variable {s : Pma}

theorem Pma.Layout.room (layout : s.Layout) {b : Ram} (member : b ∈ s.ram) : b.npages < 2 ^ 64 := by
  have := layout.fits b member
  have := Nat.le_mul_of_pos_right b.npages layout.positive
  omega

/-- The number of pages of a block is a multiple of 24, so that it is not the size of the address space either. -/
theorem Pma.Blocks.room (blocks : s.Blocks) {b : Ram} (member : b ∈ s.ram) : b.npages < 2 ^ 64 := by
  have := blocks.inSpace b member
  have := Nat.le_mul_of_pos_right b.npages blocks.positive
  have : b.npages = b.recs.length * 24 := rfl
  omega

theorem Pma.Ledger.counts (ledger : s.Ledger) : s.Counts :=
  ⟨ledger.layout.positive, ledger.layout.records, fun _ member => ledger.layout.room member, ledger.counted⟩

theorem Pma.Counts.recsCounted (counts : s.Counts) : s.RecsCounted :=
  fun b member => (counts.counted b member).recs

/-- `set_bits` at a position sets a run of pages of the block and keeps its counters right. -/
theorem Pma.Counts.setBits_spec (counts : s.Counts) {p : Position} {b : Ram} (at_b : s.At p b)
    (count type : Nat) (set : Bool) :
    ∃ b' k, s.setBits p count type set = ({ s with ram := s.ram.set p.block b' }, k) ∧ b'.addr = b.addr ∧
      b'.recs.length = b.recs.length ∧ k = min count (b.npages - p.page) ∧ b'.Counted ∧
      ∀ x, b'.taken x = if p.page ≤ x ∧ x < p.page + k then set else b.taken x := by
  have member := List.mem_of_getElem? at_b.block
  obtain ⟨b', k, run, addr, length, amount, fine, bits⟩ :=
    Ram.setBits_spec (counts.counted b member) (counts.room b member) at_b.index at_b.bit count type set
  refine ⟨b', k, ?_, addr, length, amount, fine, bits⟩
  simp only [Pma.setBits, at_b.block, run]

theorem Pma.Counts.setBits (counts : s.Counts) {p : Position} {b : Ram} (at_b : s.At p b) (count type : Nat) (set : Bool) :
    (s.setBits p count type set).1.Counts := by
  obtain ⟨b', k, run, addr, length, -, counted, -⟩ := counts.setBits_spec at_b count type set
  have member := List.mem_of_getElem? at_b.block
  have each : ∀ {P : Ram → Prop}, (∀ c ∈ s.ram, P c) → P b' → ∀ c ∈ s.ram.set p.block b', P c := by
    intro P old new c inside
    rcases List.mem_or_eq_of_mem_set inside with kept | rfl
    · exact old c kept
    · exact new
  rw [run]
  refine ⟨counts.positive, each counts.records ?_, each counts.room ?_, each counts.counted counted⟩
  · intro none
    rw [none, List.length_nil] at length
    exact counts.records b member (List.length_eq_zero_iff.mp length.symm)
  · rw [Ram.npages, length]
    exact counts.room b member

/-- All bits of a free run are set, and the address is that of its first page. -/
theorem Pma.Counts.take (counts : s.Counts) {p : Position} {b : Ram} (at_b : s.At p b) {n : Nat}
    (free : FreeRun b.recs p.page n) (type : Nat) :
    ∃ b', s.setBits p n type true = ({ s with ram := s.ram.set p.block b' }, n) ∧ b'.addr = b.addr ∧
      b'.recs.length = b.recs.length ∧
      Pma.positionToAddress { s with ram := s.ram.set p.block b' } p = b.addr + p.page * s.pageSize ∧
      ∀ x, b'.taken x = if p.page ≤ x ∧ x < p.page + n then true else b.taken x := by
  obtain ⟨b', k, run, addr, length, amount, -, bits⟩ := counts.setBits_spec at_b n type true
  have room := free.inside
  rw [← Arena.npages_eq] at room
  obtain rfl : k = n := by omega
  refine ⟨b', run, addr, length, ?_, bits⟩
  have bound := (List.getElem?_eq_some_iff.mp at_b.block).1
  have index := at_b.index
  simp only [Pma.positionToAddress, List.getElem?_set_self bound, length, if_pos index, addr, Position.page, maxRecAmount]
  rw [Nat.add_mul, Nat.mul_comm 24 p.index, Nat.add_assoc]

theorem Pma.Counts.alloc (counts : s.Counts) {npages type limit addr : Nat} {t : Pma} (short : npages < 2 ^ 32)
    (returns : s.alloc npages type limit = some (addr, t)) : t.Counts := by
  unfold Pma.alloc at returns
  split at returns
  · cases returns
  · cases returns
    exact counts
  · next p found =>
    obtain ⟨b, at_b, free⟩ := Pma.find_spec counts.positive counts.records short found
    obtain ⟨b', run, -⟩ := counts.take at_b free type
    have after := counts.setBits at_b npages type true
    rw [run] at returns after
    dsimp only at returns
    rw [if_pos rfl] at returns
    cases returns
    exact after

theorem Pma.Counts.allocPages (counts : s.Counts) {type limit n i r r' : Nat} {pages : List Nat} {t : Pma}
    (returns : Pma.allocPages type limit n i r s = some (pages, r', t)) : t.Counts := by
  induction n generalizing s i r pages with
  | zero =>
    cases returns
    exact counts
  | succ n ih =>
    unfold Pma.allocPages at returns
    split at returns
    · cases returns
    · cases returns
      exact counts
    · next p found =>
      obtain ⟨b, at_b, -⟩ := Pma.find_spec counts.positive counts.records (by decide) found
      have after := counts.setBits at_b 1 type true
      dsimp only at returns
      split at returns
      · split at returns
        · cases returns
          exact after
        · obtain ⟨⟨pages', r₁, u⟩, rest, same⟩ := Option.map_eq_some_iff.mp returns
          cases same
          exact ih after rest
      · cases returns
        exact after

theorem Pma.Counts.free (counts : s.Counts) (addr npages : Nat) : (s.free addr npages).1.Counts := by
  unfold Pma.free
  split
  · exact counts
  · next p found =>
    obtain ⟨b, at_b, -⟩ := Pma.addressToPosition_at counts.positive found
    exact counts.setBits at_b _ _ _

theorem Pma.Counts.freeArray (counts : s.Counts) (pages : List Nat) : (Pma.freeArray pages s).Counts := by
  induction pages generalizing s with
  | nil => exact counts
  | cons page rest ih =>
    unfold Pma.freeArray
    split
    · exact counts
    · next p found =>
      obtain ⟨b, at_b, -⟩ := Pma.addressToPosition_at counts.positive found
      have after := counts.setBits at_b 1 (s.typeAt p) false
      dsimp only
      split
      · exact ih after
      · exact after

theorem Pma.Counts.allocAt (counts : s.Counts) (addr npages type : Nat) : (s.allocAt addr npages type).1.Counts := by
  unfold Pma.allocAt
  split
  · exact counts
  · next p found =>
    obtain ⟨b, at_b, -⟩ := Pma.addressToPosition_at counts.positive found
    exact counts.setBits at_b _ _ _

theorem Pma.Ledger.allocOk (ledger : s.Ledger) (blocks : s.Blocks) (some : s.ram ≠ []) {npages : Nat} (pos : 0 < npages)
    (short : npages < 2 ^ 32) (type limit : Nat) : s.AllocOk npages type limit := by
  have positive := ledger.layout.positive
  obtain ⟨found, find, settles⟩ : ∃ found, s.find limit type npages = Option.some found ∧
      s.Found type limit npages (s.ram.length - 1) found := by
    apply find_settles blocks ledger.counts.recsCounted pos short some
    intro b start
    obtain ⟨i, -, get, -⟩ := startBlock_some start
    exact ledger.layout.fits b (List.mem_of_getElem? get)
  have index : ∀ {k : Nat} {b : Ram}, s.ram[k]? = Option.some b → k ≤ s.ram.length - 1 := by
    intro k b get
    have := (List.getElem?_eq_some_iff.mp get).1
    omega
  unfold Pma.AllocOk Pma.alloc
  rw [find]
  cases found with
  | none =>
    refine ⟨0, s, rfl, ⟨fun differ => absurd rfl differ, ?_⟩, fun _ => rfl, fun differ => absurd rfl differ⟩
    rintro ⟨b, member, q, run⟩
    obtain ⟨k, get⟩ := List.getElem?_of_mem member
    exact absurd ((Ram.runBelow_iff positive pos).mp run) (settles k b (index get) get q)
  | some p =>
    obtain ⟨b, at_b, ⟨run, highest⟩⟩ := settles.highest blocks pos
    have member := List.mem_of_getElem? at_b.block
    have free : FreeRun b.recs p.page npages :=
      ⟨by rw [← Arena.npages_eq]; exact run.inside, fun x low high => (run.usable x low high).1⟩
    obtain ⟨b', set, addr', length', address, bits⟩ := ledger.counts.take at_b free type
    have nonnull := ledger.layout.nonnull b member
    dsimp only
    rw [set]
    dsimp only
    rw [if_pos rfl, address]
    refine ⟨_, _, rfl, ⟨fun _ => ⟨b, member, _, run⟩, fun _ => by omega⟩, fun null => by omega, fun _ => ⟨?_, ?_⟩⟩
    · refine ⟨List.length_set, fun i c c' get get' => ?_⟩
      rw [List.getElem?_set] at get'
      split at get'
      · next here =>
        subst here
        rw [at_b.block] at get
        cases get
        rw [if_pos (List.getElem?_eq_some_iff.mp at_b.block).1] at get'
        cases get'
        refine ⟨addr', by rw [Ram.npages, Ram.npages, length'], fun x inside => ?_⟩
        have place : (b.addr + p.page * s.pageSize ≤ b.addr + x * s.pageSize ∧
            b.addr + x * s.pageSize < b.addr + p.page * s.pageSize + npages * s.pageSize) ↔
            p.page ≤ x ∧ x < p.page + npages := Arena.page_mem positive
        rw [bits x]
        simp only [place]
        by_cases fresh : p.page ≤ x ∧ x < p.page + npages
        · rw [if_pos fresh, decide_eq_true fresh, Bool.or_true]
        · rw [if_neg fresh, decide_eq_false fresh, Bool.or_false]
      · next differ =>
        rw [get] at get'
        cases get'
        refine ⟨rfl, rfl, fun x inside => ?_⟩
        have placed : Arena.PlacedAt s (b.addr + p.page * s.pageSize, npages) p.block b p.page :=
          ⟨at_b.block, rfl, run.inside⟩
        have outside : ¬ (b.addr + p.page * s.pageSize ≤ c.addr + x * s.pageSize ∧
            c.addr + x * s.pageSize < b.addr + p.page * s.pageSize + npages * s.pageSize) :=
          placed.elsewhere ledger.layout get (Ne.symm differ) inside
        rw [decide_eq_false outside, Bool.or_false]
    · exact ⟨b, member, _, run, rfl, highest⟩

end Ledger

/-! ## Runs -/

/-- Where the blocks lie. -/
def Pma.shape (s : Pma) : Nat × List (Nat × Nat) := (s.pageSize, s.ram.map fun b => (b.addr, b.recs.length))

theorem setRecords_length (set : Bool) (type count : Nat) (recs : List Rec) (n nfree cnt : Nat) :
    (setRecords set type count recs n nfree cnt).1.length = recs.length := by
  induction recs generalizing n nfree cnt with
  | nil => rfl
  | cons r rest ih =>
    unfold setRecords
    split
    · dsimp only
      rw [List.length_cons, List.length_cons, ih]
    · rfl

theorem Ram.setBits_length (b : Ram) (index bit count type : Nat) (set : Bool) :
    (b.setBits index bit count type set).1.recs.length = b.recs.length := by
  dsimp only [Ram.setBits]
  rw [List.length_append, setRecords_length, ← List.length_append, List.take_append_drop]

theorem Pma.setBits_shape (s : Pma) (p : Position) (count type : Nat) (set : Bool) :
    (s.setBits p count type set).1.shape = s.shape := by
  unfold Pma.setBits
  split
  · rfl
  · next b get =>
    have length := b.setBits_length p.index p.bit count type set
    obtain ⟨bound, same⟩ := List.getElem?_eq_some_iff.mp get
    unfold Pma.shape
    dsimp only
    rw [List.map_set, length, ← same]
    congr 1
    apply List.ext_getElem (by simp)
    intro i low high
    rw [List.getElem_set]
    split
    · next here =>
      subst here
      rw [List.getElem_map]
      rfl
    · rfl

theorem Pma.alloc_shape {s t : Pma} {npages type limit addr : Nat} (call : s.alloc npages type limit = some (addr, t)) :
    t.shape = s.shape := by
  unfold Pma.alloc at call
  split at call
  · cases call
  · cases call
    rfl
  · dsimp only at call
    split at call
    · cases call
      exact Pma.setBits_shape _ _ _ _ _
    · cases call
      rw [Pma.setBits_shape, Pma.setBits_shape]

theorem Pma.allocPages_shape {type limit n i r r' : Nat} {s t : Pma} {pages : List Nat}
    (call : Pma.allocPages type limit n i r s = some (pages, r', t)) : t.shape = s.shape := by
  induction n generalizing s i r pages with
  | zero =>
    cases call
    rfl
  | succ n ih =>
    unfold Pma.allocPages at call
    split at call
    · cases call
    · cases call
      rfl
    · next p _ =>
      have first := s.setBits_shape p 1 type true
      dsimp only at call
      split at call
      · split at call
        · cases call
          exact first
        · obtain ⟨⟨pages', r'', u⟩, rest, same⟩ := Option.map_eq_some_iff.mp call
          cases same
          rw [ih rest, first]
      · cases call
        exact first

theorem Pma.freeArray_shape (pages : List Nat) (s : Pma) : (Pma.freeArray pages s).shape = s.shape := by
  induction pages generalizing s with
  | nil => rfl
  | cons page rest ih =>
    unfold Pma.freeArray
    split
    · rfl
    · next p _ =>
      have first := s.setBits_shape p 1 (s.typeAt p) false
      dsimp only
      split
      · rw [ih, first]
      · exact first

/-- One call. -/
def Pma.step (s : Pma) : Request → Option Pma
  | .alloc npages type limit => (s.alloc npages type limit).map fun r => r.2
  | .free addr npages => some (s.free addr npages).1
  | .allocArray npages type limit => (s.allocArray npages type limit).map fun r => r.2.2
  | .freeArray pages => some (Pma.freeArray pages s)
  | .allocAt addr npages type => some (s.allocAt addr npages type).1

/-- Numbers of pages have 32 bits. Nothing else is asked of a caller: it may give back what it does not own. -/
def Request.Sized : Request → Prop
  | .alloc npages _ _ => npages < 2 ^ 32
  | .free _ npages => npages < 2 ^ 32
  | .allocArray npages _ _ => npages < 2 ^ 32
  | .freeArray pages => pages.length < 2 ^ 32
  | .allocAt _ npages _ => npages < 2 ^ 32

theorem Pma.step_shape {s t : Pma} {request : Request} (step : s.step request = some t) : t.shape = s.shape := by
  cases request with
  | alloc npages type limit =>
    obtain ⟨⟨addr, u⟩, call, rfl⟩ := Option.map_eq_some_iff.mp step
    exact Pma.alloc_shape call
  | free addr npages =>
    cases step
    dsimp only [Pma.free]
    split
    · rfl
    · exact Pma.setBits_shape _ _ _ _ _
  | allocArray npages type limit =>
    obtain ⟨⟨pages, r, u⟩, call, rfl⟩ := Option.map_eq_some_iff.mp step
    exact Pma.allocPages_shape call
  | freeArray pages =>
    cases step
    exact Pma.freeArray_shape pages s
  | allocAt addr npages type =>
    cases step
    dsimp only [Pma.allocAt]
    split
    · rfl
    · exact Pma.setBits_shape _ _ _ _ _

theorem Pma.Counts.step {s t : Pma} (counts : s.Counts) {request : Request} (sized : request.Sized)
    (step : s.step request = some t) : t.Counts := by
  cases request with
  | alloc npages type limit =>
    obtain ⟨⟨addr, u⟩, call, rfl⟩ := Option.map_eq_some_iff.mp step
    exact counts.alloc sized call
  | free addr npages =>
    cases step
    exact counts.free addr npages
  | allocArray npages type limit =>
    obtain ⟨⟨pages, r, u⟩, call, rfl⟩ := Option.map_eq_some_iff.mp step
    exact counts.allocPages call
  | freeArray pages =>
    cases step
    exact counts.freeArray pages
  | allocAt addr npages type =>
    cases step
    exact counts.allocAt addr npages type

/-- The blocks before and after a call, one by one. -/
theorem Pma.shape_back {s t : Pma} (same : t.shape = s.shape) {i : Nat} {b : Ram} (get : t.ram[i]? = some b) :
    ∃ b', s.ram[i]? = some b' ∧ b.addr = b'.addr ∧ b.recs.length = b'.recs.length := by
  obtain ⟨-, rows⟩ := Prod.mk.inj same
  have row : (t.ram.map fun b => (b.addr, b.recs.length))[i]? = some (b.addr, b.recs.length) := by
    rw [List.getElem?_map, get]
    rfl
  rw [rows, List.getElem?_map] at row
  obtain ⟨b', get', equal⟩ := Option.map_eq_some_iff.mp row
  obtain ⟨addr, length⟩ := Prod.mk.inj equal
  exact ⟨b', get', addr.symm, length.symm⟩

theorem Ram.npages_congr {b b' : Ram} (length : b.recs.length = b'.recs.length) : b.npages = b'.npages := by
  rw [Ram.npages, Ram.npages, length]

theorem Pma.Blocks.of_shape {s t : Pma} (blocks : s.Blocks) (same : t.shape = s.shape) : t.Blocks := by
  obtain ⟨size, -⟩ := Prod.mk.inj same
  refine ⟨size ▸ blocks.positive, ?_, ?_, ?_, ?_⟩
  · intro b member none
    obtain ⟨i, get⟩ := List.getElem?_of_mem member
    obtain ⟨b', get', -, length⟩ := Pma.shape_back same get
    rw [none, List.length_nil] at length
    exact blocks.records b' (List.mem_of_getElem? get') (List.length_eq_zero_iff.mp length.symm)
  · intro b member
    obtain ⟨i, get⟩ := List.getElem?_of_mem member
    obtain ⟨b', get', addr, -⟩ := Pma.shape_back same get
    rw [size, addr]
    exact blocks.aligned b' (List.mem_of_getElem? get')
  · intro i j b c get get' less
    obtain ⟨b', old, addr, length⟩ := Pma.shape_back same get
    obtain ⟨c', old', addr', -⟩ := Pma.shape_back same get'
    rw [size, addr, addr', Ram.npages_congr length]
    exact blocks.sorted i j b' c' old old' less
  · intro b member
    obtain ⟨i, get⟩ := List.getElem?_of_mem member
    obtain ⟨b', get', addr, length⟩ := Pma.shape_back same get
    rw [size, addr, Ram.npages_congr length]
    exact blocks.inSpace b' (List.mem_of_getElem? get')

/-- A block as `init_ram_block` leaves it. -/
def Ram.fresh (addr records : Nat) : Ram := ⟨addr, List.replicate records ⟨0#24, 0, 0⟩, records * maxRecAmount⟩

/-- Every block is as `init_ram_block` leaves it. -/
def Pma.Fresh (s : Pma) : Prop := ∀ b ∈ s.ram, b = Ram.fresh b.addr b.recs.length

/-- There is a block, none at address 0, and none that ends at the very top of the address space. -/
structure Pma.Addressable (s : Pma) : Prop where
  some : s.ram ≠ []
  nonnull : ∀ b ∈ s.ram, 0 < b.addr
  below : ∀ b ∈ s.ram, b.addr + b.npages * s.pageSize < 2 ^ 64

section Start
variable {s : Pma}

theorem Pma.Blocks.layout (blocks : s.Blocks) (addressable : s.Addressable) : s.Layout := by
  refine ⟨blocks.positive, blocks.records, addressable.nonnull, blocks.aligned, addressable.below, ?_⟩
  intro i j b b' get get' differ
  exact blocks.apart get get' differ

theorem Ram.fresh_free (addr n p : Nat) : (Ram.fresh addr n).taken p = false := by
  unfold Ram.taken takenIn
  split
  · rfl
  · next r get =>
    rw [List.eq_of_mem_replicate (List.mem_of_getElem? get)]
    exact BitVec.getLsbD_zero

theorem Ram.fresh_counted (addr n : Nat) : (Ram.fresh addr n).Counted := by
  refine ⟨?_, ?_⟩
  · intro r member
    rw [List.eq_of_mem_replicate member]
    decide
  · have free : Rec.free ⟨0#24, 0, 0⟩ = maxRecAmount := rfl
    simp [Ram.fresh, free]

theorem Pma.Fresh.counts (fresh : s.Fresh) (blocks : s.Blocks) : s.Counts := by
  refine ⟨blocks.positive, blocks.records, fun _ member => blocks.room member, ?_⟩
  intro b member
  rw [fresh b member]
  exact Ram.fresh_counted _ _

/-- From fresh blocks on, every run of calls keeps the counters right and the blocks where they are. -/
theorem Pma.Fresh.run (fresh : s.Fresh) (blocks : s.Blocks) {t : Pma}
    (reach : Reach Pma.step (fun _ request => request.Sized) s t) : t.Counts ∧ t.shape = s.shape := by
  apply reach.invariant
  · exact ⟨fresh.counts blocks, rfl⟩
  · intro u request v ⟨counts, same⟩ sized step
    exact ⟨counts.step sized step, (Pma.step_shape step).trans same⟩

theorem Pma.Addressable.of_shape {t : Pma} (addressable : s.Addressable) (same : t.shape = s.shape) : t.Addressable := by
  refine ⟨?_, ?_, ?_⟩
  · intro none
    have rows := congrArg (fun x => x.2.length) same
    simp only [Pma.shape, none, List.map_nil, List.length_nil, List.length_map] at rows
    exact addressable.some (List.length_eq_zero_iff.mp rows.symm)
  · intro b member
    obtain ⟨i, get⟩ := List.getElem?_of_mem member
    obtain ⟨b', get', addr, -⟩ := Pma.shape_back same get
    rw [addr]
    exact addressable.nonnull b' (List.mem_of_getElem? get')
  · intro b member
    obtain ⟨i, get⟩ := List.getElem?_of_mem member
    obtain ⟨b', get', addr, length⟩ := Pma.shape_back same get
    rw [addr, Ram.npages_congr length, (Prod.mk.inj same).1]
    exact addressable.below b' (List.mem_of_getElem? get')

/-- Every page of a fresh block is usable. -/
theorem Pma.Fresh.usable (fresh : s.Fresh) {b : Ram} (member : b ∈ s.ram) {p : Nat} (inside : p < b.npages) (type : Nat) :
    Usable b.recs type p := by
  refine ⟨?_, ?_⟩
  · have free := Ram.fresh_free b.addr b.recs.length p
    rw [← fresh b member] at free
    exact free
  · have bound : p / maxRecAmount < b.recs.length := (Nat.div_lt_iff_lt_mul (by decide)).mpr inside
    refine ⟨_, List.getElem?_eq_getElem bound, Or.inl ?_⟩
    have same : b.recs[p / maxRecAmount] ∈ (Ram.fresh b.addr b.recs.length).recs := by
      rw [← fresh b member]
      exact List.getElem_mem bound
    rw [List.eq_of_mem_replicate same]

/-- A page of a fresh block that ends below the limit is a run. -/
theorem Pma.Fresh.page (fresh : s.Fresh) (blocks : s.Blocks) {b : Ram} (member : b ∈ s.ram) {limit : Nat}
    (below : b.addr + s.pageSize ≤ limit) (type : Nat) : b.RunBelow s.pageSize type limit 1 0 := by
  have records := List.length_pos_of_ne_nil (blocks.records b member)
  have positive := blocks.positive
  have pages : 0 < b.npages := Nat.mul_pos records (by decide)
  refine ⟨by omega, fun p low high => ?_, by omega⟩
  obtain rfl : p = 0 := by omega
  exact fresh.usable member pages type

/-- Every block has the pages of a record. -/
theorem Pma.Blocks.bytes (blocks : s.Blocks) {b : Ram} (member : b ∈ s.ram) :
    24 * s.pageSize ≤ b.npages * s.pageSize := by
  have records := List.length_pos_of_ne_nil (blocks.records b member)
  have number : b.npages = b.recs.length * 24 := rfl
  apply Nat.mul_le_mul_right
  omega

/-- The last block is the one that ends at the top of the address space. -/
theorem Pma.Blocks.last_top (blocks : s.Blocks) {i k : Nat} {b c : Ram} (get : s.ram[i]? = some b)
    (top : b.addr + b.npages * s.pageSize = 2 ^ 64) (other : s.ram[k]? = some c) : k ≤ i := by
  by_contra above
  have order := blocks.sorted i k b c get other (by omega)
  have inside := blocks.inSpace c (List.mem_of_getElem? other)
  have bytes := blocks.bytes (List.mem_of_getElem? other)
  have positive := blocks.positive
  omega

/-- An address in a block that ends at the top of the address space has no position, since the end of that block is 0
in 64 bits. -/
theorem Pma.Blocks.addressToPosition_top (blocks : s.Blocks) {b : Ram} (member : b ∈ s.ram)
    (top : b.addr + b.npages * s.pageSize = 2 ^ 64) {addr : Nat} (above : b.addr ≤ addr) :
    s.addressToPosition addr = none := by
  obtain ⟨i, get⟩ := List.getElem?_of_mem member
  have page : b.addr ≤ addr - addr % s.pageSize := by
    obtain ⟨m, start⟩ := blocks.aligned b member
    have whole : s.pageSize * m ≤ s.pageSize * (addr / s.pageSize) := by
      apply Nat.mul_le_mul_left
      rw [Nat.le_div_iff_mul_le blocks.positive, Nat.mul_comm, ← start]
      exact above
    have split := Nat.div_add_mod addr s.pageSize
    omega
  have nowhere : s.ram.findIdx? (fun c => c.addr ≤ addr - addr % s.pageSize &&
      addr - addr % s.pageSize < c.blockEnd s.pageSize) = none := by
    rw [List.findIdx?_eq_none_iff]
    intro c other
    obtain ⟨k, get'⟩ := List.getElem?_of_mem other
    have ends : c.blockEnd s.pageSize ≤ addr - addr % s.pageSize := by
      unfold Ram.blockEnd
      rcases Nat.lt_or_eq_of_le (blocks.last_top get top get') with less | rfl
      · have order := blocks.sorted k i c b get' get less
        have small := Nat.mod_le (c.addr + c.npages * s.pageSize) (2 ^ 64)
        omega
      · rw [get] at get'
        cases get'
        rw [top, Nat.mod_self]
        exact Nat.zero_le _
    rw [Bool.and_eq_false_iff, decide_eq_false_iff_not, decide_eq_false_iff_not]
    exact Or.inr (Nat.not_lt.mpr ends)
  unfold Pma.addressToPosition
  dsimp only
  rw [nowhere]

/-- A search that starts in a block at the top of the address space finds nothing. -/
theorem find_top_block (blocks : s.Blocks) {b : Ram} {limit : Nat}
    (start : s.startBlock limit (s.ram.length - 1) = some b) (top : b.addr + b.npages * s.pageSize = 2 ^ 64)
    (small : limit < 2 ^ 64) (type count : Nat) : s.find limit type count = some none := by
  obtain ⟨i, -, get, below, -⟩ := startBlock_some start
  have member := List.mem_of_getElem? get
  have inside : ¬ (2 ^ 64 + 2 ^ 64 - 1) % 2 ^ 64 < limit := by omega
  unfold Pma.find
  rw [if_neg (List.ne_nil_of_mem member), start]
  dsimp only
  rw [top, if_neg inside, if_neg inside, blocks.addressToPosition_top member top below.le]

/-- The block at the top is the last one, and a limit above its start leads to it. -/
theorem startBlock_top (blocks : s.Blocks) {b : Ram} (member : b ∈ s.ram)
    (top : b.addr + b.npages * s.pageSize = 2 ^ 64) {limit : Nat} (above : b.addr < limit) :
    s.startBlock limit (s.ram.length - 1) = some b := by
  obtain ⟨i, get⟩ := List.getElem?_of_mem member
  have bound := (List.getElem?_eq_some_iff.mp get).1
  cases found : s.startBlock limit (s.ram.length - 1) with
  | none =>
    have below : limit ≤ b.addr := startBlock_none found (by omega) i b (by omega) get
    omega
  | some c =>
    obtain ⟨k, -, other, -, later⟩ := startBlock_some found
    have under := blocks.last_top get top other
    rcases Nat.lt_or_eq_of_le under with less | rfl
    · have below : limit ≤ b.addr := later i b less (by omega) get
      omega
    · exact other.symm.trans get

/-- With a block that ends at the top of the address space, nothing is found below the highest limit. -/
theorem alloc_top_block (blocks : s.Blocks) {b : Ram} (member : b ∈ s.ram)
    (top : b.addr + b.npages * s.pageSize = 2 ^ 64) (npages type : Nat) :
    s.alloc npages type (2 ^ 64 - 1) = some (0, s) := by
  have bytes := blocks.bytes member
  have positive := blocks.positive
  unfold Pma.alloc
  rw [find_top_block blocks (startBlock_top blocks member top (by omega)) top (by decide)]

/-- What `find` finds is the highest run, in a block that does not end at the top of the address space. -/
theorem Pma.Blocks.find (blocks : s.Blocks) (counted : s.RecsCounted) {limit type npages : Nat} (pos : 0 < npages)
    (short : npages < 2 ^ 32) (small : limit < 2 ^ 64) {p : Position}
    (found : s.find limit type npages = some (some p)) :
    ∃ b, s.At p b ∧ s.HighestRun type limit npages b p.page ∧ b.addr + b.npages * s.pageSize < 2 ^ 64 := by
  have inside : ∀ b ∈ s.ram, b.addr < limit → b.addr + b.npages * s.pageSize < 2 ^ 64 := by
    intro b member below
    by_contra ends
    have space := blocks.inSpace b member
    have top : b.addr + b.npages * s.pageSize = 2 ^ 64 := by omega
    rw [find_top_block blocks (startBlock_top blocks member top below) top small] at found
    cases found
  have nonempty : s.ram ≠ [] := by
    intro none
    unfold Pma.find at found
    rw [if_pos none] at found
    cases found
  have ends : ∀ b, s.startBlock limit (s.ram.length - 1) = some b → b.addr + b.npages * s.pageSize < 2 ^ 64 := by
    intro b start
    obtain ⟨i, -, get, below, -⟩ := startBlock_some start
    exact inside b (List.mem_of_getElem? get) below
  obtain ⟨place, same, settles⟩ : ∃ place, s.find limit type npages = some place ∧
      s.Found type limit npages (s.ram.length - 1) place := find_settles blocks counted pos short nonempty ends
  obtain rfl : some p = place := Option.some.inj (found.symm.trans same)
  obtain ⟨b, at_b, highest⟩ := settles.highest blocks pos
  refine ⟨b, at_b, highest, inside b (List.mem_of_getElem? at_b.block) ?_⟩
  have below := highest.run.below
  have bytes : 0 < (p.page + npages) * s.pageSize := Nat.mul_pos (by omega) blocks.positive
  omega

/-- Blocks for which every call finds the highest run: at the limit of the first page, and at the highest limit. -/
theorem Pma.Fresh.addressable (fresh : s.Fresh) (blocks : s.Blocks)
    (all : ∀ limit, limit < 2 ^ 64 → s.AllocOk 1 1 limit) : s.Addressable := by
  refine ⟨?_, ?_, ?_⟩
  · intro none
    obtain ⟨addr, t, call, -⟩ := all 0 (by decide)
    unfold Pma.alloc Pma.find at call
    rw [if_pos none] at call
    cases call
  · intro b member
    by_contra zero
    have null : b.addr = 0 := by omega
    -- the only run below the end of the first page is at the null pointer
    have bytes := blocks.bytes member
    have inside := blocks.inSpace b member
    have positive := blocks.positive
    obtain ⟨addr, t, call, found, -, highest⟩ := all s.pageSize (by omega)
    have nonnull := found.mpr ⟨b, member, 0, fresh.page blocks member (by omega) 1⟩
    obtain ⟨-, c, -, q, run, place, -⟩ := highest nonnull
    have below := run.below
    rw [Nat.add_mul] at below
    omega
  · intro b member
    by_contra ends
    have inside := blocks.inSpace b member
    have top : b.addr + b.npages * s.pageSize = 2 ^ 64 := by omega
    obtain ⟨addr, t, call, found, -⟩ := all (2 ^ 64 - 1) (by decide)
    rw [alloc_top_block blocks member top] at call
    cases call
    have bytes := blocks.bytes member
    have positive := blocks.positive
    exact found.mpr ⟨b, member, 0, fresh.page blocks member (by omega) 1⟩ rfl

/-- After every run of calls `alloc` finds the highest run of free pages, if and only if there is a block, none at
address 0 and none that ends at the top of the address space. -/
theorem alloc_finds_highest_run_iff (blocks : s.Blocks) (fresh : s.Fresh) :
    (∀ t, Reach Pma.step (fun _ request => request.Sized) s t → ∀ npages type limit, 0 < npages → npages < 2 ^ 32 →
      type ≠ 0 → type < 2 ^ 8 → limit < 2 ^ 64 → t.AllocOk npages type limit) ↔ s.Addressable := by
  constructor
  · intro all
    apply fresh.addressable blocks
    intro limit small
    exact all s (Reach.refl s) 1 1 limit (by decide) (by decide) (by decide) (by decide) small
  · intro addressable t reach npages type limit pos short _ _ _
    obtain ⟨counts, same⟩ := fresh.run blocks reach
    have there := blocks.of_shape same
    have below := addressable.of_shape same
    exact Pma.Ledger.allocOk ⟨there.layout below, counts.counted⟩ there below.some pos short type limit

end Start

/-- Two blocks of a record, at 1 MiB and at 16 MiB. -/
def twoBlocks : Pma := ⟨4096, [Ram.fresh 0x100000 1, Ram.fresh 0x1000000 1]⟩

theorem twoBlocks_blocks : twoBlocks.Blocks := by
  refine ⟨by decide, by decide, by decide, ?_, by decide⟩
  intro i j b b' get get' less
  match i, j with
  | 0, 1 =>
    cases get
    cases get'
    decide
  | 0, j + 2 => cases get'
  | i + 1, j + 2 => cases get'

/-- The two blocks meet the condition, so that `alloc` is right after a page of the upper block was taken. -/
theorem alloc_finds_highest_run_twoBlocks :
    ∃ t, twoBlocks.step (.alloc 1 1 0x1000000000) = some t ∧ t ≠ twoBlocks ∧ t.AllocOk 3 2 0x1000800 := by
  have addressable : twoBlocks.Addressable := ⟨by decide, by decide, by decide⟩
  have fresh : twoBlocks.Fresh := by
    unfold Pma.Fresh
    decide
  have all := (alloc_finds_highest_run_iff twoBlocks_blocks fresh).mpr addressable
  have change : (twoBlocks.step (.alloc 1 1 0x1000000000)).map (fun t => decide (t ≠ twoBlocks)) = some true := by
    decide +kernel
  obtain ⟨t, step, differ⟩ := Option.map_eq_some_iff.mp change
  have sized : (Request.alloc 1 1 0x1000000000).Sized := by
    unfold Request.Sized
    decide
  have reach : Reach Pma.step (fun _ request => request.Sized) twoBlocks t :=
    Reach.snoc (Reach.refl twoBlocks) sized step
  exact ⟨t, step, of_decide_eq_true differ, all t reach 3 2 0x1000800 (by decide) (by decide) (by decide) (by decide)
    (by decide)⟩

/-- A block of a record that ends at the top of the address space. -/
def topBlock : Pma := ⟨4096, [Ram.fresh (2 ^ 64 - 24 * 4096) 1]⟩

/-- The pages of the block are free and lie below the limit but for the last, and null is returned. -/
theorem alloc_misses_topBlock : topBlock.Blocks ∧ topBlock.Fresh ∧
    (∃ b ∈ topBlock.ram, b.RunBelow topBlock.pageSize 1 (2 ^ 64 - 1) 1 0) ∧
    topBlock.alloc 1 1 (2 ^ 64 - 1) = some (0, topBlock) ∧ ¬ topBlock.AllocOk 1 1 (2 ^ 64 - 1) := by
  have blocks : topBlock.Blocks := by
    refine ⟨by decide, by decide, by decide, ?_, by decide⟩
    intro i j b b' get get' less
    match j with
    | j + 1 => cases get'
  have fresh : topBlock.Fresh := by
    unfold Pma.Fresh
    decide
  have member : Ram.fresh (2 ^ 64 - 24 * 4096) 1 ∈ topBlock.ram := List.mem_cons_self
  have run : (Ram.fresh (2 ^ 64 - 24 * 4096) 1).RunBelow topBlock.pageSize 1 (2 ^ 64 - 1) 1 0 :=
    fresh.page blocks member (by decide) 1
  have call : topBlock.alloc 1 1 (2 ^ 64 - 1) = some (0, topBlock) := by decide +kernel
  refine ⟨blocks, fresh, ⟨_, member, run⟩, call, ?_⟩
  rintro ⟨addr, t, call', found, -⟩
  rw [call] at call'
  cases call'
  exact found.mpr ⟨_, member, 0, run⟩ rfl

end PreTeO.Mem
