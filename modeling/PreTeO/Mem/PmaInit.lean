import Mathlib.Order.Interval.Set.Disjoint
import PreTeO.Mem.PmaRun

/-!
# The blocks after `init`, and runs from there

A part becomes one block inside the bytes of the part, so disjoint parts give disjoint blocks. `m_ram` has room for
20 blocks and `init_ram_block` does not look at its index: with more parts the run leaves the array.
-/

namespace PreTeO.Mem
set_option autoImplicit false
open PreTeO.Lib

/-- The bytes of a part. -/
def RamPart.extent (part : RamPart) : Set Nat := Set.Ico part.addr (part.addr + part.size)

/-- The part becomes a block with at least one record. -/
def RamPart.Yields (part : RamPart) (pageSize : Nat) : Prop :=
  (maxRecAmount + 1) * pageSize < part.size ∧ 0 < part.records pageSize

/-- Disjoint parts of the address space that each yield a record, and a page size. -/
structure RamParts (parts : List RamPart) (pageSize : Nat) : Prop where
  positive : 0 < pageSize
  small : pageSize < 2 ^ 16
  inSpace : ∀ part ∈ parts, part.addr + part.size ≤ 2 ^ 64
  apart : parts.Pairwise fun x y => Disjoint x.extent y.extent
  yields : ∀ part ∈ parts, part.Yields pageSize

/-- `m_ram` has room for the parts, and no block ends at the very top of the address space. -/
structure Fits (parts : List RamPart) (pageSize : Nat) : Prop where
  some : parts ≠ []
  room : parts.length ≤ maxRamBlocks
  below : ∀ part ∈ parts, (part.block pageSize).addr + (part.block pageSize).npages * pageSize < 2 ^ 64

/-! ## One part -/

section Part
variable {pageSize : Nat}

theorem pagesFor_le (positive : 0 < pageSize) (size : Nat) : pagesFor pageSize size ≤ size := by
  unfold pagesFor
  have whole := Nat.div_add_mod size pageSize
  have := Nat.le_mul_of_pos_left (size / pageSize) positive
  split <;> omega

theorem pagesFor_mono (positive : 0 < pageSize) {n m : Nat} (less : n ≤ m) :
    pagesFor pageSize n ≤ pagesFor pageSize m := by
  have ceil : ∀ k, pagesFor pageSize k = (k + (pageSize - 1)) / pageSize := by
    intro k
    unfold pagesFor
    symm
    rw [Nat.div_eq_iff positive]
    have whole := Nat.div_add_mod k pageSize
    have rest := Nat.mod_lt k positive
    rw [Nat.mul_comm] at whole
    split
    · rw [Nat.add_mul]
      omega
    · rw [Nat.add_zero]
      omega
  rw [ceil, ceil]
  exact Nat.div_le_div_right (by omega)

/-- The pages of the records and the pages of the block are pages of the part. -/
theorem RamPart.pages_le (positive : 0 < pageSize) (part : RamPart) :
    pagesFor pageSize (part.records pageSize * 4) + part.records pageSize * 24 ≤
      (part.size - (pageSize - part.addr % pageSize)) / pageSize := by
  unfold RamPart.records maxRecAmount
  dsimp only
  generalize (part.size - (pageSize - part.addr % pageSize)) / pageSize = pages
  -- the second count has no more records than the first
  have fewer : (pages - pagesFor pageSize (pages / 24 * 4)) / 24 * 4 ≤ pages / 24 * 4 := by omega
  have first := pagesFor_le positive (pages / 24 * 4)
  have second := pagesFor_mono positive fewer
  omega

/-- The block of a part lies in the part. -/
theorem RamPart.block_inside (positive : 0 < pageSize) (part : RamPart) (large : pageSize ≤ part.size) :
    (part.block pageSize).area pageSize ⊆ part.extent := by
  have pages := Nat.mul_le_mul_right pageSize (part.pages_le positive)
  have whole := Nat.div_mul_le_self (part.size - (pageSize - part.addr % pageSize)) pageSize
  have offset := Nat.mod_lt part.addr positive
  rw [Nat.add_mul] at pages
  intro x inside
  simp only [Ram.area, RamPart.block, Ram.npages, List.length_replicate, RamPart.aligned, maxRecAmount,
    Set.mem_Ico] at inside
  exact ⟨by omega, by omega⟩

theorem RamPart.block_aligned (positive : 0 < pageSize) (part : RamPart) : pageSize ∣ (part.block pageSize).addr := by
  have offset := Nat.mod_lt part.addr positive
  have whole := Nat.div_add_mod part.addr pageSize
  refine Nat.dvd_add ⟨part.addr / pageSize + 1, ?_⟩ (Nat.dvd_mul_left _ _)
  rw [Nat.mul_add]
  unfold RamPart.aligned
  omega

theorem RamPart.block_nonnull (positive : 0 < pageSize) (part : RamPart) : 0 < (part.block pageSize).addr := by
  have offset := Nat.mod_lt part.addr positive
  simp only [RamPart.block, RamPart.aligned]
  omega

/-- A fresh block has only free pages. -/
theorem RamPart.block_free (part : RamPart) (p : Nat) : (part.block pageSize).taken p = false := by
  unfold Ram.taken takenIn
  split
  · rfl
  · next r get =>
    rw [List.eq_of_mem_replicate (List.mem_of_getElem? get)]
    exact BitVec.getLsbD_zero

theorem RamPart.block_counted (part : RamPart) : (part.block pageSize).Counted := by
  refine ⟨?_, ?_⟩
  · intro r member
    rw [List.eq_of_mem_replicate member]
    decide
  · have free : Rec.free ⟨0#24, 0, 0⟩ = maxRecAmount := rfl
    simp [RamPart.block, free]

end Part

/-! ## All parts -/

/-- `init` makes one block of each part. -/
theorem initRamBlock_all {pageSize : Nat} {parts : List RamPart} (yields : ∀ part ∈ parts, part.Yields pageSize)
    (ram : List Ram) (room : ram.length + parts.length ≤ maxRamBlocks) :
    parts.foldlM Pma.initRamBlock ⟨pageSize, ram⟩ = some ⟨pageSize, ram ++ parts.map (·.block pageSize)⟩ := by
  induction parts generalizing ram with
  | nil => simp
  | cons part rest ih =>
    have large := (yields part List.mem_cons_self).1
    rw [List.length_cons] at room
    have first : Pma.initRamBlock ⟨pageSize, ram⟩ part = some ⟨pageSize, ram ++ [part.block pageSize]⟩ := by
      unfold Pma.initRamBlock
      rw [if_pos large, if_pos (by dsimp only; omega)]
    rw [List.foldlM_cons, first]
    refine (ih (fun p member => yields p (List.mem_cons_of_mem _ member)) _ ?_).trans ?_
    · rw [List.length_append, List.length_singleton]
      omega
    · rw [List.append_assoc]
      rfl

variable {parts : List RamPart} {pageSize : Nat}

/-- The blocks of disjoint parts are a layout. -/
theorem layout_of_parts (fine : RamParts parts pageSize) (fits : Fits parts pageSize) :
    Pma.Layout ⟨pageSize, parts.map (·.block pageSize)⟩ := by
  have positive := fine.positive
  have each : ∀ {P : Ram → Prop}, (∀ part ∈ parts, P (part.block pageSize)) →
      ∀ b ∈ parts.map (·.block pageSize), P b := by
    intro P all b member
    obtain ⟨part, inside, rfl⟩ := List.mem_map.mp member
    exact all part inside
  have inside : ∀ part ∈ parts, (part.block pageSize).area pageSize ⊆ part.extent := by
    intro part member
    have large := (fine.yields part member).1
    unfold maxRecAmount at large
    exact part.block_inside positive (by omega)
  refine ⟨positive, ?_, ?_, ?_, ?_, ?_⟩
  · apply each
    intro part member
    have := (fine.yields part member).2
    exact List.ne_nil_of_length_pos (by simpa [RamPart.block] using this)
  · exact each fun part _ => part.block_nonnull positive
  · exact each fun part _ => part.block_aligned positive
  · exact each fits.below
  · intro i j b b' first second differ
    simp only [List.getElem?_map, Option.map_eq_some_iff] at first second
    obtain ⟨part, get, rfl⟩ := first
    obtain ⟨part', get', rfl⟩ := second
    have apart : Disjoint part.extent part'.extent := by
      obtain ⟨bound, same⟩ := List.getElem?_eq_some_iff.mp get
      obtain ⟨bound', same'⟩ := List.getElem?_eq_some_iff.mp get'
      have pairs := List.pairwise_iff_getElem.mp fine.apart
      rcases Nat.lt_or_gt_of_ne differ with less | less
      · rw [← same, ← same']
        exact pairs i j bound bound' less
      · rw [← same, ← same']
        exact (pairs j i bound' bound less).symm
    exact apart.mono (inside part (List.mem_of_getElem? get)) (inside part' (List.mem_of_getElem? get'))

/-- After `init` no page is live and the accounts are right. -/
theorem account_of_parts (fine : RamParts parts pageSize) (fits : Fits parts pageSize) :
    Arena.Account ⟨⟨pageSize, parts.map (·.block pageSize)⟩, []⟩ := by
  refine ⟨layout_of_parts fine fits, ?_, ?_, List.Pairwise.nil, ?_⟩
  · intro i b get
    obtain ⟨part, -, rfl⟩ := List.mem_map.mp (List.mem_of_getElem? get)
    exact part.block_counted
  · intro i b get p _
    obtain ⟨part, -, rfl⟩ := List.mem_map.mp (List.mem_of_getElem? get)
    simp [part.block_free p, Arena.Covered, CoveredBy]
  · intro range member
    cases member

/-! ## Runs -/

theorem Pma.setBits_length (s : Pma) (p : Position) (count type : Nat) (set : Bool) :
    (s.setBits p count type set).1.ram.length = s.ram.length := by
  unfold Pma.setBits
  split
  · rfl
  · exact List.length_set

/-- With a block, `find` stays inside `m_ram`. -/
theorem Pma.find_returns {s : Pma} (some : s.ram ≠ []) (limit type count : Nat) :
    ∃ place, s.find limit type count = Option.some place := by
  unfold Pma.find
  rw [if_neg some]
  split
  · exact ⟨_, rfl⟩
  · dsimp only
    split <;> exact ⟨_, rfl⟩

theorem Pma.alloc_returns {s : Pma} (some : s.ram ≠ []) (npages type limit : Nat) :
    ∃ addr t, s.alloc npages type limit = Option.some (addr, t) ∧ t.ram.length = s.ram.length := by
  obtain ⟨place, found⟩ := Pma.find_returns some limit type npages
  unfold Pma.alloc
  rw [found]
  cases place with
  | none => exact ⟨0, s, rfl, rfl⟩
  | some p =>
    dsimp only
    split
    · exact ⟨_, _, rfl, s.setBits_length _ _ _ _⟩
    · exact ⟨_, _, rfl, (Pma.setBits_length _ _ _ _ _).trans (s.setBits_length _ _ _ _)⟩

theorem Pma.allocPages_returns (type limit n i r : Nat) {s : Pma} (some : s.ram ≠ []) :
    ∃ pages r' t, Pma.allocPages type limit n i r s = Option.some (pages, r', t) ∧ t.ram.length = s.ram.length := by
  induction n generalizing s i r with
  | zero => exact ⟨[], r, s, rfl, rfl⟩
  | succ n ih =>
    obtain ⟨place, found⟩ := Pma.find_returns some limit type 1
    unfold Pma.allocPages
    rw [found]
    cases place with
    | none => exact ⟨[], r, s, rfl, rfl⟩
    | some p =>
      have same := s.setBits_length p 1 type true
      have left : (s.setBits p 1 type true).1.ram ≠ [] :=
        List.ne_nil_of_length_pos (by rw [same]; exact List.length_pos_of_ne_nil some)
      dsimp only
      split
      · split
        · exact ⟨_, _, _, rfl, same⟩
        · obtain ⟨pages, r', t, rest, length⟩ := ih (i + 1) i left
          rw [rest]
          exact ⟨_, r', t, rfl, length.trans same⟩
      · exact ⟨_, _, _, rfl, same⟩

theorem Pma.freeArray_length (pages : List Nat) (s : Pma) : (Pma.freeArray pages s).ram.length = s.ram.length := by
  induction pages generalizing s with
  | nil => rfl
  | cons page rest ih =>
    unfold Pma.freeArray
    split
    · rfl
    · next p _ =>
      have same := s.setBits_length p 1 (s.typeAt p) false
      dsimp only
      split
      · exact (ih _).trans same
      · exact same

/-- With a block, every call returns, and the number of blocks stays. -/
theorem Arena.step_returns {h : Arena} (some : h.pma.ram ≠ []) (request : Request) :
    ∃ h', h.step request = Option.some h' ∧ h'.pma.ram.length = h.pma.ram.length := by
  cases request with
  | alloc npages type limit =>
    obtain ⟨addr, t, returns, length⟩ := Pma.alloc_returns some npages type limit
    refine ⟨_, by rw [Arena.step, returns], length⟩
  | free addr npages =>
    refine ⟨_, rfl, ?_⟩
    dsimp only [Pma.free]
    split
    · rfl
    · exact Pma.setBits_length _ _ _ _ _
  | allocArray npages type limit =>
    obtain ⟨pages, r, t, returns, length⟩ := Pma.allocPages_returns type limit npages 0 0 some
    refine ⟨_, by rw [Arena.step, Pma.allocArray, returns], length⟩
  | freeArray pages => exact ⟨_, rfl, Pma.freeArray_length pages h.pma⟩
  | allocAt addr npages type =>
    refine ⟨_, rfl, ?_⟩
    dsimp only [Pma.allocAt]
    split
    · rfl
    · exact Pma.setBits_length _ _ _ _ _

/-- From `init` on, no call leaves `m_ram`, and the accounts are right in every state. -/
theorem pages_accounted (fine : RamParts parts pageSize) (fits : Fits parts pageSize) :
    ∃ s, Pma.init parts pageSize = some s ∧
      ∀ h, Reach Arena.step Arena.Proper ⟨s, []⟩ h →
        h.Balanced ∧ ∀ request, h.Proper request → ∃ h', h.step request = some h' := by
  have room : ([] : List Ram).length + parts.length ≤ maxRamBlocks := by simpa using fits.room
  have start := initRamBlock_all fine.yields [] room
  rw [List.nil_append] at start
  refine ⟨_, start, ?_⟩
  intro h reach
  have kept : h.Account ∧ 0 < h.pma.ram.length := by
    apply reach.invariant
    · refine ⟨account_of_parts fine fits, ?_⟩
      dsimp only
      rw [List.length_map]
      exact List.length_pos_of_ne_nil fits.some
    · intro s request t ⟨account, blocks⟩ proper returns
      obtain ⟨t', same, length⟩ := Arena.step_returns (List.ne_nil_of_length_pos blocks) request
      obtain rfl : t' = t := Option.some.inj (same.symm.trans returns)
      exact ⟨account.step proper returns, by omega⟩
  refine ⟨kept.1.balanced, ?_⟩
  intro request _
  obtain ⟨h', returns, -⟩ := Arena.step_returns (List.ne_nil_of_length_pos kept.2) request
  exact ⟨h', returns⟩

/-- One part of 26 pages that starts at a page: it becomes a block of one record. -/
theorem pages_accounted_one_part :
    ∃ s, Pma.init [⟨0x100000, 0x1a000⟩] 4096 = some s ∧
      ∀ h, Reach Arena.step Arena.Proper ⟨s, []⟩ h →
        h.Balanced ∧ ∀ request, h.Proper request → ∃ h', h.step request = some h' := by
  apply pages_accounted
  · refine ⟨by decide, by decide, by decide, List.pairwise_singleton _ _, ?_⟩
    simp only [List.mem_singleton, forall_eq]
    exact ⟨by decide, by decide⟩
  · exact ⟨by decide, by decide, by decide⟩

/-- Twenty-one disjoint parts of half a megabyte. -/
def manyParts : List RamPart := (List.range 21).map fun i => ⟨0x100000 * (i + 1), 0x80000⟩

/-- With more parts than `m_ram` has room for, `init` stores a block outside of it. -/
theorem init_leaves_array : RamParts manyParts 4096 ∧ Pma.init manyParts 4096 = none := by
  refine ⟨⟨by decide, by decide, by decide, ?_, ?_⟩, by decide +kernel⟩
  · unfold manyParts
    rw [List.pairwise_map]
    refine List.Pairwise.imp ?_ List.pairwise_lt_range
    intro i j less
    simp only [RamPart.extent, Set.Ico_disjoint_Ico]
    omega
  · have all : ∀ part ∈ manyParts, (maxRecAmount + 1) * 4096 < part.size ∧ 0 < part.records 4096 := by decide +kernel
    exact all

end PreTeO.Mem
