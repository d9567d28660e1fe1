import PreTeO.Mem.PmaInit
import PreTeO.Mem.PmaUndo
import PreTeO.Mem.Startup

/-!
# Parts of any size and in any order

`init_ram_block` takes every part of more than 25 pages. An aligned part loses a whole page to the alignment and the
records of 24 pages take one more, so a part of 25 pages and a few bytes becomes a block of 23 pages, which is no record.
`init` counts neither the parts it takes nor the blocks it has when it is done.
-/

namespace PreTeO.Mem
set_option autoImplicit false

/-- `init_ram_block` makes a block of the part. -/
def RamPart.Accepted (part : RamPart) (pageSize : Nat) : Prop := (maxRecAmount + 1) * pageSize < part.size

instance (part : RamPart) (pageSize : Nat) : Decidable (part.Accepted pageSize) :=
  inferInstanceAs (Decidable (_ < _))

/-- The pages of the records: `init_ram_block` clears them, and `p_rec` points to the first. -/
def RamPart.recArea (part : RamPart) (pageSize : Nat) : Set Nat :=
  Set.Ico (part.aligned pageSize) (part.aligned pageSize + pagesFor pageSize (part.records pageSize * 4) * pageSize)

/-- The block of a part has a record, and its records and its pages lie in the part, page by page and apart. -/
structure RamPart.BlockOk (part : RamPart) (pageSize : Nat) : Prop where
  some : 0 < (part.block pageSize).recs.length
  recAligned : pageSize ∣ part.aligned pageSize
  aligned : pageSize ∣ (part.block pageSize).addr
  apart : Disjoint (part.recArea pageSize) ((part.block pageSize).area pageSize)
  recInside : part.recArea pageSize ⊆ part.extent
  inside : (part.block pageSize).area pageSize ⊆ part.extent

/-- There is a call of `alloc` that returns pages. -/
def Pma.CanAlloc (s : Pma) : Prop :=
  ∃ npages type limit addr t, 0 < npages ∧ type < 2 ^ 3 ∧ limit < 2 ^ 64 ∧
    s.alloc npages type limit = some (addr, t) ∧ addr ≠ 0

/-- `init` stays inside `m_ram` and makes a good block of every part it takes, and a page can be allocated from them. -/
def InitOk (parts : List RamPart) (pageSize : Nat) : Prop :=
  ∃ s, Pma.init parts pageSize = some s ∧ s.ram.length ≤ maxRamBlocks ∧
    s.ram = (parts.filter fun part => part.Accepted pageSize).map (·.block pageSize) ∧
    (∀ part ∈ parts, part.Accepted pageSize → part.BlockOk pageSize) ∧ s.CanAlloc

/-- Every part of more than 25 pages has 25 whole pages behind its first page boundary, there are no more than 20 of them,
and one of them does not fill the address space up to its end. -/
structure PartsFit (parts : List RamPart) (pageSize : Nat) : Prop where
  pages : ∀ part ∈ parts, part.Accepted pageSize → (maxRecAmount + 2) * pageSize ≤ part.size + part.addr % pageSize
  room : (parts.countP fun part => part.Accepted pageSize) ≤ maxRamBlocks
  below : ∃ part ∈ parts, part.Accepted pageSize ∧
    (part.block pageSize).addr + (part.block pageSize).npages * pageSize < 2 ^ 64

/-! ## One part -/

section Part
variable {pageSize : Nat}

/-- Records of four bytes take no more pages than there are records. -/
theorem pagesFor_records (large : 4 ≤ pageSize) (n : Nat) : pagesFor pageSize (n * 4) ≤ n := by
  have less : n * 4 ≤ n * pageSize := Nat.mul_le_mul_left n large
  have whole : pagesFor pageSize (n * pageSize) = n := by
    unfold pagesFor
    rw [Nat.mul_mod_left, Nat.mul_div_cancel _ (by omega)]
    rfl
  calc pagesFor pageSize (n * 4) ≤ pagesFor pageSize (n * pageSize) := pagesFor_mono (by omega) less
    _ = n := whole

/-- The whole pages of a part behind its first page boundary. -/
theorem RamPart.whole_pages_iff (large : 0 < pageSize) {part : RamPart} (accepted : part.Accepted pageSize) (k : Nat)
    (few : k ≤ maxRecAmount + 1) :
    k ≤ (part.size - (pageSize - part.addr % pageSize)) / pageSize ↔
      (k + 1) * pageSize ≤ part.size + part.addr % pageSize := by
  have offset := Nat.mod_lt part.addr large
  have most : k * pageSize ≤ (maxRecAmount + 1) * pageSize := Nat.mul_le_mul_right _ few
  unfold RamPart.Accepted maxRecAmount at accepted
  unfold maxRecAmount at most
  rw [Nat.le_div_iff_mul_le large, Nat.succ_mul]
  omega

/-- The block of a part has a record iff 25 pages are left behind the first page boundary. -/
theorem RamPart.records_pos_iff (large : 4 ≤ pageSize) {part : RamPart} (accepted : part.Accepted pageSize) :
    0 < part.records pageSize ↔ (maxRecAmount + 2) * pageSize ≤ part.size + part.addr % pageSize := by
  rw [← part.whole_pages_iff (by omega) accepted (maxRecAmount + 1) (le_refl _)]
  have least : maxRecAmount ≤ (part.size - (pageSize - part.addr % pageSize)) / pageSize := by
    rw [part.whole_pages_iff (by omega) accepted maxRecAmount (by omega)]
    exact le_trans (Nat.le_of_lt accepted) (Nat.le_add_right _ _)
  unfold RamPart.records
  dsimp only
  generalize (part.size - (pageSize - part.addr % pageSize)) / pageSize = pages at least ⊢
  have taken := pagesFor_records large (pages / maxRecAmount)
  unfold maxRecAmount at least taken ⊢
  constructor
  · -- 24 pages hold one record, and that record takes one of them
    intro some
    by_contra short
    obtain rfl : pages = 24 := by omega
    have one : 0 < pagesFor pageSize (24 / 24 * 4) := by
      unfold pagesFor
      rcases Nat.lt_or_ge (24 / 24 * 4) pageSize with less | more
      · rw [Nat.mod_eq_of_lt less, if_pos (by decide)]
        exact Nat.succ_pos _
      · exact Nat.add_pos_left (Nat.div_pos more (by omega)) _
    rw [Nat.div_eq_of_lt (Nat.sub_lt (by decide) one)] at some
    exact Nat.lt_irrefl 0 some
  · intro enough
    exact Nat.div_pos (by omega) (by decide)

/-- The records of a part lie in it. -/
theorem RamPart.recArea_inside (positive : 0 < pageSize) (part : RamPart) :
    part.recArea pageSize ⊆ part.extent := by
  have pages := Nat.mul_le_mul_right pageSize (part.pages_le positive)
  have whole := Nat.div_mul_le_self (part.size - (pageSize - part.addr % pageSize)) pageSize
  have offset := Nat.mod_lt part.addr positive
  rw [Nat.add_mul] at pages
  intro x inside
  simp only [RamPart.recArea, RamPart.aligned, Set.mem_Ico] at inside
  exact ⟨by omega, by omega⟩

theorem RamPart.aligned_dvd (positive : 0 < pageSize) (part : RamPart) : pageSize ∣ part.aligned pageSize := by
  have offset := Nat.mod_lt part.addr positive
  have whole := Nat.div_add_mod part.addr pageSize
  refine ⟨part.addr / pageSize + 1, ?_⟩
  rw [Nat.mul_add]
  unfold RamPart.aligned
  omega

/-- The block of a part is good iff it has a record. -/
theorem RamPart.blockOk_iff (large : 4 ≤ pageSize) {part : RamPart} (accepted : part.Accepted pageSize) :
    part.BlockOk pageSize ↔ (maxRecAmount + 2) * pageSize ≤ part.size + part.addr % pageSize := by
  have positive : 0 < pageSize := by omega
  have length : (part.block pageSize).recs.length = part.records pageSize := by simp [RamPart.block]
  rw [← RamPart.records_pos_iff large accepted]
  constructor
  · intro ok
    rw [← length]
    exact ok.some
  · intro records
    have size : pageSize ≤ part.size := by
      unfold RamPart.Accepted maxRecAmount at accepted
      omega
    refine ⟨by rw [length]; exact records, part.aligned_dvd positive, part.block_aligned positive, ?_,
      part.recArea_inside positive, part.block_inside positive size⟩
    -- the pages begin where the records end
    exact Set.Ico_disjoint_Ico_same

end Part

/-! ## All parts -/

/-- `init` makes one block of each part it takes, as long as `m_ram` has room. -/
theorem initRamBlock_parts {pageSize : Nat} (parts : List RamPart) (ram : List Ram) (bound : ram.length ≤ maxRamBlocks) :
    parts.foldlM Pma.initRamBlock ⟨pageSize, ram⟩ =
      if ram.length + (parts.countP fun part => part.Accepted pageSize) ≤ maxRamBlocks then
        some ⟨pageSize, ram ++ (parts.filter fun part => part.Accepted pageSize).map (·.block pageSize)⟩
      else none := by
  induction parts generalizing ram with
  | nil => simp [bound]
  | cons part rest ih =>
    rw [List.foldlM_cons]
    by_cases accepted : part.Accepted pageSize
    · rw [List.countP_cons_of_pos (by simpa using accepted), List.filter_cons_of_pos (by simpa using accepted)]
      by_cases room : ram.length < maxRamBlocks
      · have step : Pma.initRamBlock ⟨pageSize, ram⟩ part = some ⟨pageSize, ram ++ [part.block pageSize]⟩ :=
          (if_pos accepted).trans (if_pos room)
        rw [step]
        refine (ih _ (by rw [List.length_append]; exact room)).trans ?_
        simp only [List.length_append, List.length_singleton, List.map_cons, List.append_assoc, List.singleton_append]
        rw [Nat.add_right_comm, ← Nat.add_assoc]
      · have step : Pma.initRamBlock ⟨pageSize, ram⟩ part = none := (if_pos accepted).trans (if_neg room)
        rw [step, if_neg (by omega)]
        rfl
    · rw [List.countP_cons_of_neg (by simpa using accepted), List.filter_cons_of_neg (by simpa using accepted)]
      have step : Pma.initRamBlock ⟨pageSize, ram⟩ part = some ⟨pageSize, ram⟩ := if_neg accepted
      rw [step]
      exact ih ram bound

/-- Blocks as `init_ram_block` leaves them, in any order, apart or not. -/
structure Pma.Loaded (s : Pma) : Prop where
  positive : 0 < s.pageSize
  records : ∀ b ∈ s.ram, b.recs ≠ []
  nonnull : ∀ b ∈ s.ram, 0 < b.addr
  aligned : ∀ b ∈ s.ram, s.pageSize ∣ b.addr
  inSpace : ∀ b ∈ s.ram, b.addr + b.npages * s.pageSize ≤ 2 ^ 64
  fresh : s.Fresh

/-! ## The search in fresh blocks -/

section Search
variable {recs : List Rec} {i index n : Nat} (type : Nat)

theorem scanAt_free {type : Nat} (free : ∀ r ∈ recs, r = ⟨0#24, 0, 0⟩) (inside : i < recs.length) (n : Nat) :
    scanAt type 1 recs i (n + 1) 0 = .found (i, n) := by
  have get := List.getElem?_eq_getElem inside
  rw [free _ (List.getElem_mem inside)] at get
  have bits : scanRec type 1 ⟨0#24, 0, 0⟩ (n + 1) 0 = .found n := by
    unfold scanRec scanBits
    rw [if_pos ⟨Or.inl rfl, by decide⟩, BitVec.getLsbD_zero]
    rfl
  unfold scanAt
  rw [get]
  dsimp only
  rw [bits]

/-- The loop over free records stops at the first page below its start. -/
theorem scanRecs_free (free : ∀ r ∈ recs, r = ⟨0#24, 0, 0⟩) (inside : index < recs.length) (some : 0 < n ∨ 0 < index) :
    ∃ place, scanRecs type 1 recs index n 0 = .found place := by
  induction index generalizing n with
  | zero =>
    obtain ⟨n, rfl⟩ := Nat.exists_eq_succ_of_ne_zero (show n ≠ 0 by omega)
    exact ⟨(0, n), scanAt_free free inside n⟩
  | succ i ih =>
    unfold scanRecs
    cases n with
    | succ n =>
      rw [scanAt_free free inside n]
      exact ⟨_, rfl⟩
    | zero =>
      have none : scanAt type 1 recs (i + 1) 0 0 = .rest 0 0 := by
        have get := List.getElem?_eq_getElem inside
        rw [free _ (List.getElem_mem inside)] at get
        have bits : scanRec type 1 ⟨0#24, 0, 0⟩ 0 0 = .rest 0 0 := if_pos ⟨Or.inl rfl, by decide⟩
        unfold scanAt
        rw [get]
        dsimp only
        rw [bits]
      rw [none]
      exact ih (by omega) (Or.inl (by decide))

variable {s : Pma} {b : Ram}

theorem Pma.Loaded.free (loaded : s.Loaded) (member : b ∈ s.ram) : ∀ r ∈ b.recs, r = ⟨0#24, 0, 0⟩ := by
  intro r inside
  rw [loaded.fresh b member] at inside
  exact List.eq_of_mem_replicate inside

/-- The loop over fresh blocks finds a page, unless it begins below the first page of the first block. -/
theorem Pma.Loaded.scanBlocks (loaded : s.Loaded) (get : s.ram[i]? = some b) (inside : index < b.recs.length)
    (some : 0 < n ∨ 0 < index ∨ 0 < i) : ∃ p, s.scanBlocks type 1 i index n = .some p := by
  induction i generalizing index n b with
  | zero =>
    obtain ⟨place, found⟩ := scanRecs_free type (loaded.free (List.mem_of_getElem? get)) inside
      (show 0 < n ∨ 0 < index by omega)
    unfold Pma.scanBlocks Pma.scanBlock
    rw [get]
    dsimp only
    rw [found]
    exact ⟨_, rfl⟩
  | succ i ih =>
    unfold Pma.scanBlocks
    split
    · exact ⟨_, rfl⟩
    · have bound : i < s.ram.length := by
        have := (List.getElem?_eq_some_iff.mp get).1
        omega
      have get' := List.getElem?_eq_getElem bound
      have records := List.length_pos_of_ne_nil (loaded.records _ (List.getElem_mem bound))
      refine ih get' ?_ (Or.inl (by decide))
      unfold Pma.lastRec
      rw [get']
      exact Nat.sub_lt records (by decide)

/-- The address of a page of a block that ends below the top of the address space has a position. -/
theorem Pma.addressToPosition_some (addr : Nat) (member : b ∈ s.ram) (low : b.addr ≤ addr - addr % s.pageSize)
    (high : addr - addr % s.pageSize < b.blockEnd s.pageSize) : ∃ p, s.addressToPosition addr = some p := by
  unfold Pma.addressToPosition
  dsimp only
  split
  · next none =>
    have := List.findIdx?_eq_none_iff.mp none b member
    simp only [Bool.and_eq_false_iff, decide_eq_false_iff_not] at this
    omega
  · next i search =>
    obtain ⟨bound, -, -⟩ := List.findIdx?_eq_some_iff_getElem.mp search
    rw [List.getElem?_eq_getElem bound]
    exact ⟨_, rfl⟩

/-- With a limit on a page of a block there is a page to find, unless it is the first page of the first block. -/
theorem Pma.Loaded.find_page (loaded : s.Loaded) {k : Nat} (member : b ∈ s.ram)
    (below : b.addr + b.npages * s.pageSize < 2 ^ 64) (some : 0 < k) (inside : k < b.npages) :
    (∃ p, s.find (b.addr + k * s.pageSize) type 1 = .some (.some p)) ∨
      ∃ c, s.ram[0]? = .some c ∧ c.addr = b.addr + k * s.pageSize := by
  have positive := loaded.positive
  have later : 0 < k * s.pageSize := Nat.mul_pos some positive
  have earlier : k * s.pageSize < b.npages * s.pageSize := Nat.mul_lt_mul_of_pos_right inside positive
  have whole : (b.addr + k * s.pageSize) % s.pageSize = 0 := by
    rw [Nat.add_mul_mod_self_right]
    exact Nat.mod_eq_zero_of_dvd (loaded.aligned b member)
  obtain ⟨i, get⟩ := List.getElem?_of_mem member
  have bound := (List.getElem?_eq_some_iff.mp get).1
  unfold Pma.find
  rw [if_neg (List.ne_nil_of_mem member)]
  cases start : s.startBlock (b.addr + k * s.pageSize) (s.ram.length - 1) with
  | none =>
    have := startBlock_none start (by omega) i b (by omega) get
    omega
  | some c =>
    obtain ⟨j, -, get_c, -, -⟩ := startBlock_some start
    have member_c := List.mem_of_getElem? get_c
    have space := loaded.inSpace c member_c
    have pages : s.pageSize ≤ c.npages * s.pageSize := by
      have := List.length_pos_of_ne_nil (loaded.records c member_c)
      refine Nat.le_mul_of_pos_left _ ?_
      unfold Ram.npages maxRecAmount
      omega
    have ends : (c.addr + c.npages * s.pageSize + 2 ^ 64 - 1) % 2 ^ 64 = c.addr + c.npages * s.pageSize - 1 := by
      rw [show c.addr + c.npages * s.pageSize + 2 ^ 64 - 1 = c.addr + c.npages * s.pageSize - 1 + 2 ^ 64 by omega,
        Nat.add_mod_right]
      exact Nat.mod_eq_of_lt (by omega)
    dsimp only
    rw [ends]
    by_cases beyond : c.addr + c.npages * s.pageSize - 1 < b.addr + k * s.pageSize
    · -- the limit is above the block, and the search begins with its last page
      rw [if_pos beyond, if_pos beyond]
      have rest := Nat.mod_lt (c.addr + c.npages * s.pageSize - 1) positive
      have high : c.blockEnd s.pageSize = c.addr + c.npages * s.pageSize := Nat.mod_eq_of_lt (by omega)
      obtain ⟨p, place⟩ := Pma.addressToPosition_some (c.addr + c.npages * s.pageSize - 1) member_c
        (by omega) (by omega)
      obtain ⟨d, at_d, -⟩ := Pma.addressToPosition_at positive place
      rw [place]
      obtain ⟨q, found⟩ := loaded.scanBlocks type (n := 1 + p.bit) at_d.block at_d.index (by omega)
      exact Or.inl ⟨q, congrArg _ found⟩
    · rw [if_neg beyond, if_neg beyond]
      have high : b.blockEnd s.pageSize = b.addr + b.npages * s.pageSize := Nat.mod_eq_of_lt below
      obtain ⟨p, place⟩ := Pma.addressToPosition_some (b.addr + k * s.pageSize) member (by omega) (by omega)
      obtain ⟨d, at_d, low, -, page⟩ := Pma.addressToPosition_at positive place
      rw [place]
      by_cases first : 0 < 0 + p.bit ∨ 0 < p.index ∨ 0 < p.block
      · obtain ⟨q, found⟩ := loaded.scanBlocks type at_d.block at_d.index first
        exact Or.inl ⟨q, congrArg _ found⟩
      · refine Or.inr ⟨d, ?_, ?_⟩
        · rw [← at_d.block, show p.block = 0 by omega]
        · -- page 0 of the block is the page of the limit
          have zero : p.page = 0 := by
            unfold Position.page
            omega
          rw [zero, whole, Nat.sub_zero] at page
          rw [whole, Nat.sub_zero] at low
          obtain ⟨x, addr_d⟩ := loaded.aligned d (List.mem_of_getElem? at_d.block)
          obtain ⟨y, addr_b⟩ := loaded.aligned b member
          have same : b.addr + k * s.pageSize - d.addr = (y + k - x) * s.pageSize := by
            rw [addr_d, addr_b, Nat.sub_mul, Nat.add_mul, Nat.mul_comm y, Nat.mul_comm x]
          rw [same, Nat.mul_div_cancel _ positive] at page
          rw [← page, Nat.zero_mul] at same
          omega

/-- A page can be allocated from fresh blocks iff one of them does not end at the very top of the address space. -/
theorem Pma.Loaded.canAlloc_iff (loaded : s.Loaded) :
    s.CanAlloc ↔ ∃ b ∈ s.ram, b.addr + b.npages * s.pageSize < 2 ^ 64 := by
  constructor
  · rintro ⟨npages, type, limit, addr, t, -, -, -, call, nonnull⟩
    by_contra top
    simp only [not_exists, not_and, Nat.not_lt] at top
    -- every end of a block is 0, and no address is below it
    have nowhere : ∀ a, s.addressToPosition a = none := by
      intro a
      cases place : s.addressToPosition a with
      | none => rfl
      | some p =>
        obtain ⟨b, at_b, -, high, -⟩ := Pma.addressToPosition_at loaded.positive place
        have member := List.mem_of_getElem? at_b.block
        have ends : b.addr + b.npages * s.pageSize = 2 ^ 64 := Nat.le_antisymm (loaded.inSpace b member) (top b member)
        unfold Ram.blockEnd at high
        rw [ends, Nat.mod_self] at high
        omega
    have miss : s.find limit type npages = none ∨ s.find limit type npages = some none := by
      unfold Pma.find
      split
      · exact Or.inl rfl
      · split
        · exact Or.inr rfl
        · dsimp only
          rw [nowhere]
          exact Or.inr rfl
    unfold Pma.alloc at call
    rcases miss with miss | miss
    · rw [miss] at call
      cases call
    · rw [miss] at call
      cases call
      exact nonnull rfl
  · rintro ⟨b, member, below⟩
    have positive := loaded.positive
    have pages : 24 ≤ b.npages := by
      have := List.length_pos_of_ne_nil (loaded.records b member)
      unfold Ram.npages maxRecAmount
      omega
    have inside : 24 * s.pageSize ≤ b.npages * s.pageSize := Nat.mul_le_mul_right _ pages
    have counts : s.Counts := by
      refine ⟨positive, loaded.records, ?_, ?_⟩
      · intro c member_c
        have space := loaded.inSpace c member_c
        have nonnull := loaded.nonnull c member_c
        have := Nat.le_mul_of_pos_right c.npages positive
        omega
      · intro c member_c
        rw [loaded.fresh c member_c]
        exact Ram.fresh_counted _ _
    -- the second page of the block is a limit that works, or the third
    have works : ∃ k p, k ≤ 2 ∧ s.find (b.addr + k * s.pageSize) 0 1 = some (some p) := by
      rcases loaded.find_page 0 (k := 1) member below (by decide) (by omega) with ⟨p, found⟩ | ⟨c, get, second⟩
      · exact ⟨1, p, by decide, found⟩
      · rcases loaded.find_page 0 (k := 2) member below (by decide) (by omega) with ⟨p, found⟩ | ⟨c', get', third⟩
        · exact ⟨2, p, by decide, found⟩
        · rw [get] at get'
          cases get'
          omega
    obtain ⟨k, p, few, found⟩ := works
    obtain ⟨c, at_c, run⟩ := Pma.find_spec positive loaded.records (by decide) found
    have nonnull := loaded.nonnull c (List.mem_of_getElem? at_c.block)
    have limit : k * s.pageSize ≤ 2 * s.pageSize := Nat.mul_le_mul_right _ few
    exact ⟨1, 0, b.addr + k * s.pageSize, _, _, by decide, by decide, by omega, counts.alloc_found found at_c run, by omega⟩

end Search

/-! ## `init` on any parts -/

section Parts
variable {parts : List RamPart} {pageSize : Nat}

/-- The blocks that `init` makes, when each has a record. -/
theorem loaded_of_parts (large : 4 ≤ pageSize) (inSpace : ∀ part ∈ parts, part.addr + part.size ≤ 2 ^ 64)
    (good : ∀ part ∈ parts, part.Accepted pageSize → part.BlockOk pageSize) :
    Pma.Loaded ⟨pageSize, (parts.filter fun part => part.Accepted pageSize).map (·.block pageSize)⟩ := by
  have positive : 0 < pageSize := by omega
  have each : ∀ {P : Ram → Prop}, (∀ part ∈ parts, part.Accepted pageSize → P (part.block pageSize)) →
      ∀ b ∈ (parts.filter fun part => part.Accepted pageSize).map (·.block pageSize), P b := by
    intro P all b member
    obtain ⟨part, inside, rfl⟩ := List.mem_map.mp member
    obtain ⟨given, accepted⟩ := List.mem_filter.mp inside
    exact all part given (by simpa using accepted)
  refine ⟨positive, ?_, ?_, ?_, ?_, ?_⟩
  · exact each fun part given accepted => List.ne_nil_of_length_pos (good part given accepted).some
  · exact each fun part _ _ => part.block_nonnull positive
  · exact each fun part _ _ => part.block_aligned positive
  · apply each
    intro part given accepted
    have ok := good part given accepted
    have space := inSpace part given
    have some : 0 < (part.block pageSize).npages * pageSize :=
      Nat.mul_pos (Nat.mul_pos ok.some (by decide)) positive
    -- the last byte of the pages is a byte of the part
    have last : (part.block pageSize).addr + (part.block pageSize).npages * pageSize - 1 ∈
        (part.block pageSize).area pageSize := ⟨by omega, by omega⟩
    have high := (ok.inside last).2
    dsimp only
    omega
  · unfold Pma.Fresh
    apply each
    intro part _ _
    simp [RamPart.block, Ram.fresh]

/-- `init` keeps what is asked of it iff the parts fit. -/
theorem init_ok_iff (large : 4 ≤ pageSize) (inSpace : ∀ part ∈ parts, part.addr + part.size ≤ 2 ^ 64) :
    InitOk parts pageSize ↔ PartsFit parts pageSize := by
  have start := @initRamBlock_parts pageSize parts [] (by decide)
  rw [List.length_nil, Nat.zero_add, List.nil_append] at start
  have blocks : (∃ b ∈ (parts.filter fun part => part.Accepted pageSize).map (·.block pageSize),
      b.addr + b.npages * pageSize < 2 ^ 64) ↔ ∃ part ∈ parts, part.Accepted pageSize ∧
        (part.block pageSize).addr + (part.block pageSize).npages * pageSize < 2 ^ 64 := by
    constructor
    · rintro ⟨b, member, below⟩
      obtain ⟨part, inside, rfl⟩ := List.mem_map.mp member
      obtain ⟨given, accepted⟩ := List.mem_filter.mp inside
      exact ⟨part, given, by simpa using accepted, below⟩
    · rintro ⟨part, given, accepted, below⟩
      exact ⟨_, List.mem_map_of_mem (List.mem_filter.mpr ⟨given, by simpa using accepted⟩), below⟩
  constructor
  · rintro ⟨s, returns, -, ram, good, can⟩
    unfold Pma.init at returns
    rw [start] at returns
    have loaded := loaded_of_parts large inSpace good
    by_cases room : (parts.countP fun part => part.Accepted pageSize) ≤ maxRamBlocks
    · rw [if_pos room] at returns
      cases returns
      exact ⟨fun part given accepted => (RamPart.blockOk_iff large accepted).mp (good part given accepted), room,
        blocks.mp (loaded.canAlloc_iff.mp can)⟩
    · rw [if_neg room] at returns
      cases returns
  · intro fit
    have good : ∀ part ∈ parts, part.Accepted pageSize → part.BlockOk pageSize :=
      fun part given accepted => (RamPart.blockOk_iff large accepted).mpr (fit.pages part given accepted)
    have loaded := loaded_of_parts large inSpace good
    refine ⟨_, start.trans (if_pos fit.room), ?_, rfl, good, loaded.canAlloc_iff.mpr (blocks.mpr fit.below)⟩
    rw [List.length_map, ← List.countP_eq_length_filter]
    exact fit.room

/-- One part of 26 pages that starts at a page. -/
theorem init_ok_one_part : InitOk [⟨0x100000, 0x1a000⟩] 4096 := by
  apply (init_ok_iff (by decide) (by decide)).mpr
  exact ⟨by decide, by decide, by decide⟩

/-- A part of 25 pages and a byte: 24 of the pages are left behind the boundary, and 23 behind the records. -/
theorem init_makes_empty_block : ∃ s b, Pma.init [⟨0x100000, 0x19001⟩] 4096 = some s ∧ s.ram = [b] ∧ b.recs = [] ∧
    ¬ InitOk [⟨0x100000, 0x19001⟩] 4096 := by
  refine ⟨⟨4096, [⟨0x101000, [], 0⟩]⟩, ⟨0x101000, [], 0⟩, by decide, rfl, rfl, ?_⟩
  rintro ⟨s, -, -, -, good, -⟩
  have some := (good ⟨0x100000, 0x19001⟩ (by decide) (by decide)).some
  revert some
  decide

end Parts

/-! ## The early `init` -/

def pmaPageSize : Nat := 4096

/-- The part without the reserved range, if it starts with it. -/
def RamPart.trim (part : RamPart) (rt : MemTag) : RamPart :=
  if part.addr = rt.address ∧ rt.size ≤ part.size then ⟨part.addr + rt.size, part.size - rt.size⟩ else part

/-- The free ranges of the memory map, in an array of as many parts as `m_ram` has blocks; `none` is an access outside
of it. -/
def earlyParts (rmap : List MemTag) (vbase : Nat) (mmap : List MemTag) : Option (List RamPart) :=
  mmap.foldlM (fun ram tag =>
    if tag.type = memTypeFree then
      if ram.length < maxRamBlocks then
        let part := rmap.foldl RamPart.trim ⟨tag.address, tag.size⟩
        some (ram ++ [⟨(part.addr + vbase) % 2 ^ 64, part.size⟩])
      else none
    else some ram) []

/-- The early `init` of the allocator. -/
def Pma.earlyInit (sc : StartupContext) : Option Pma :=
  (earlyParts (sc.rmap.take sc.rmCnt) sc.vbase (sc.mmap.take sc.mmCnt)).bind fun parts => Pma.init parts pmaPageSize

/-- The loop over the memory map makes a part of every free range. -/
theorem earlyParts_length (rmap : List MemTag) (vbase : Nat) (mmap : List MemTag) :
    (earlyParts rmap vbase mmap).map List.length =
      if (mmap.countP fun tag => tag.type = memTypeFree) ≤ maxRamBlocks then
        some (mmap.countP fun tag => tag.type = memTypeFree) else none := by
  suffices all : ∀ ram : List RamPart, ram.length ≤ maxRamBlocks →
      (mmap.foldlM (fun ram tag =>
        if tag.type = memTypeFree then
          if ram.length < maxRamBlocks then
            let part := rmap.foldl RamPart.trim ⟨tag.address, tag.size⟩
            some (ram ++ [⟨(part.addr + vbase) % 2 ^ 64, part.size⟩])
          else none
        else some ram) ram).map List.length =
      if ram.length + (mmap.countP fun tag => tag.type = memTypeFree) ≤ maxRamBlocks then
        some (ram.length + mmap.countP fun tag => tag.type = memTypeFree) else none by
    have from_empty := all [] (by decide)
    rw [List.length_nil, Nat.zero_add] at from_empty
    exact from_empty
  induction mmap with
  | nil =>
    intro ram bound
    simp [bound]
  | cons tag rest ih =>
    intro ram bound
    rw [List.foldlM_cons]
    by_cases free : tag.type = memTypeFree
    · rw [if_pos free, List.countP_cons_of_pos (by simpa using free)]
      by_cases room : ram.length < maxRamBlocks
      · rw [if_pos room]
        refine (ih _ (by rw [List.length_append]; exact room)).trans ?_
        rw [List.length_append, List.length_singleton, Nat.add_right_comm, ← Nat.add_assoc]
      · rw [if_neg room, if_neg (by omega)]
        rfl
    · rw [if_neg free, List.countP_cons_of_neg (by simpa using free)]
      exact ih ram bound

/-- The early `init` stays inside its arrays iff the memory map has at most 20 free ranges; `m_ram` is never the one that
is too short. -/
theorem earlyInit_returns_iff (sc : StartupContext) :
    (∃ s, Pma.earlyInit sc = some s) ↔
      ((sc.mmap.take sc.mmCnt).countP fun tag => tag.type = memTypeFree) ≤ maxRamBlocks := by
  have length := earlyParts_length (sc.rmap.take sc.rmCnt) sc.vbase (sc.mmap.take sc.mmCnt)
  unfold Pma.earlyInit
  cases gathered : earlyParts (sc.rmap.take sc.rmCnt) sc.vbase (sc.mmap.take sc.mmCnt) with
  | none =>
    rw [gathered] at length
    constructor
    · rintro ⟨s, returns⟩
      cases returns
    · intro few
      rw [if_pos few] at length
      cases length
  | some parts =>
    rw [gathered] at length
    by_cases few : ((sc.mmap.take sc.mmCnt).countP fun tag => tag.type = memTypeFree) ≤ maxRamBlocks
    · rw [if_pos few] at length
      have same : parts.length = (sc.mmap.take sc.mmCnt).countP fun tag => tag.type = memTypeFree :=
        Option.some.inj length
      have taken : (parts.countP fun part => part.Accepted pmaPageSize) ≤ parts.length := List.countP_le_length
      have start := @initRamBlock_parts pmaPageSize parts [] (by decide)
      rw [List.length_nil, Nat.zero_add, if_pos (by omega)] at start
      exact ⟨fun _ => few, fun _ => ⟨_, start⟩⟩
    · rw [if_neg few] at length
      cases length

end PreTeO.Mem
