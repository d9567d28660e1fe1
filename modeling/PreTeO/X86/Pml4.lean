import PreTeO.Mem.Startup
import PreTeO.X86.Paging

/-!
# The page table of the boot code (`arch/x86/boot/pml4.c`)

One PML4, one PDP and as many PD tables as the memory has pages of 2M are laid out one after the other. The tables are
filled through flat pointers, so memory is here a row of entries, by the address in units of eight bytes.
-/

namespace PreTeO.X86
set_option autoImplicit false
open PreTeO.Mem

def page2m : Nat := 0x200000
def page4k : Nat := 0x1000
def maxRecords : Nat := 512
def recordSz : Nat := 8
def vbase64 : Nat := 0xffffff8000000000
def pgPml4 : Nat := 2

/-- The entries of memory, in a row. -/
abbrev Words : Type := Nat → Entry

/-- The entries of every page. -/
def Words.tables (m : Words) : Tables := fun page i => m (page * 512 + i)

/-- An entry is stored. -/
def Words.set (m : Words) (w : Nat) (e : Entry) : Words := fun w' => if w' = w then e else m w'

/-- The pages of a table with so many records, in 32 bits. -/
def recordPages (records : Nat) : Nat :=
  let bytes := records * recordSz % 2 ^ 32
  bytes / page4k + if bytes % page4k ≠ 0 then 1 else 0

/-- `ram_pages_2m`. -/
def ramPages2m (ramSz : Nat) : Nat := ramSz / page2m + if ramSz % page2m ≠ 0 then 1 else 0

/-- The sizes of the table: the pages of 2M, the records and pages of the PD and the PDP tables. -/
structure Sizes where
  ramPages2m : Nat
  pdRecords : Nat
  pdPages : Nat
  pdpRecords : Nat
  pdpPages : Nat
  tableSz : Nat
deriving DecidableEq, Repr

/-- The sizes for so many bytes of memory. No memory is mapped by pages of 4K, so there are no PT tables. -/
def sizes (ramSz : Nat) : Sizes :=
  let pml4Pages := 1
  let ramPages2m := ramPages2m ramSz
  let ramPages4k := 0
  let ptPages := recordPages ramPages4k
  let pdRecords := (ramPages2m + ramPages4k) % 2 ^ 32
  let pdPages := recordPages pdRecords
  let pdpRecords := if maxRecords < pdPages then maxRecords else pdPages
  let pdpPages := recordPages pdpRecords
  let tableSz := (pdpPages * page4k + pdPages * page4k + ptPages * page4k + pml4Pages * page4k) % 2 ^ 32
  ⟨ramPages2m, pdRecords, pdPages, pdpRecords, pdpPages, tableSz⟩

/-- An entry for a table at an address of 32 bits, as the PML4 and the PDP get it. -/
def tableEntry (addr : Nat) : Entry :=
  { Entry.empty with p := true, rw := true, base := BitVec.ofNat 28 (addr % 2 ^ 32 / 2 ^ 12) }

/-- An entry for a page of 2M: of its base the upper 19 bits are `f.t._2m.base`. -/
def pageEntry (ramByte : Nat) : Entry :=
  { Entry.empty with p := true, rw := true, ps := true, base := BitVec.ofNat 28 (ramByte / 2 ^ 21 % 2 ^ 19 * 2 ^ 9) }

/-- The loop that clears the table. -/
def clearTable (w : Nat) : Nat → Words → Words
  | 0, m => m
  | n + 1, m => clearTable (w + 1) n (m.set w Entry.empty)

/-- The loop over the records of the PDP; `pd` is `p_pd_byte`. -/
def fillPdp (pdp : Nat) : Nat → Nat → Nat → Words → Words
  | 0, _, _, m => m
  | n + 1, ipdp, pd, m => fillPdp pdp n (ipdp + 1) (pd + page4k) (m.set (pdp / recordSz + ipdp) (tableEntry pd))

/-- The loop over the pages of 2M, and the byte it ends at. -/
def fillPd (pd : Nat) : Nat → Nat → Nat → Words → Words × Nat
  | 0, _, ramByte, m => (m, ramByte)
  | n + 1, ipd, ramByte, m =>
    fillPd pd n (ipd + 1) (ramByte + page2m) (m.set (pd / recordSz + ipd) (pageEntry ramByte))

/-- The tables of `_pm_build_pml4_2m`, and the byte that the last page ends at. -/
def buildTables (ptAddr : Nat) (size : Sizes) (m : Words) : Words × Nat :=
  let pdp := ptAddr + 1 * page4k
  let pd := pdp + size.pdpPages * page4k
  let m := clearTable (ptAddr / recordSz) (size.tableSz / recordSz) m
  let m := m.set (ptAddr / recordSz + 0) (tableEntry pdp)
  let m := m.set (ptAddr / recordSz + (vbase64 &&& 0x0000ff8000000000) / 2 ^ 39) (tableEntry pdp)
  let m := fillPdp pdp size.pdpRecords 0 pd m
  fillPd pd size.ramPages2m 0 0 m

/-- The record of the tables in the startup context; `none` is an access outside of `rmap`. -/
def recordTables (ptAddr tableSz ramByte : Nat) (sc : StartupContext) : Option StartupContext :=
  match sc.rmap[sc.rmCnt]? with
  | none => none
  | some tag =>
    let tag := { tag with addrLo := ptAddr % 2 ^ 32, sizeLo := tableSz, type := memTypePageMap }
    some { sc with
      rmap := sc.rmap.set sc.rmCnt tag, rmCnt := sc.rmCnt + 1, ptPageSize := page2m, ptTableSize := tableSz
      ptRange := ramByte, ptType := pgPml4, vbase := vbase64 }

/-- The last range of the memory map; its index is computed from the lower eight bits of `mm_cnt`. -/
def lastTag (sc : StartupContext) : Option MemTag :=
  if sc.mmCnt % 2 ^ 8 = 0 then none else sc.mmap[sc.mmCnt % 2 ^ 8 - 1]?

/-- `_pm_build_pml4_2m`; `none` is an access outside of `mmap` or `rmap`. -/
def pmBuildPml42m (ptAddr : Nat) (sc : StartupContext) (m : Words) : Option (Words × StartupContext) :=
  match lastTag sc with
  | none => none
  | some last =>
    let size := sizes ((last.address + last.size) % 2 ^ 64)
    let built := buildTables ptAddr size m
    (recordTables ptAddr size.tableSz built.2 sc).map fun sc => (built.1, sc)

/-! ## The loops -/

/-- `n` entries in a row are stored. -/
def Words.fill (m : Words) (w n : Nat) (f : Nat → Entry) : Words := fun x => if w ≤ x ∧ x < w + n then f (x - w) else m x

theorem Words.fill_zero (m : Words) (w : Nat) (f : Nat → Entry) : m.fill w 0 f = m := by
  funext x
  unfold Words.fill
  rw [if_neg (by omega)]

/-- The first of the entries, and then the others. -/
theorem Words.fill_succ (m : Words) (w n : Nat) (f : Nat → Entry) :
    (m.set w (f 0)).fill (w + 1) n (fun k => f (k + 1)) = m.fill w (n + 1) f := by
  funext x
  unfold Words.fill Words.set
  by_cases inside : w + 1 ≤ x ∧ x < w + 1 + n
  · rw [if_pos inside, if_pos (by omega)]
    exact congrArg f (by omega)
  · rw [if_neg inside]
    by_cases first : x = w
    · rw [if_pos first, if_pos (by omega), first, Nat.sub_self]
    · rw [if_neg first, if_neg (by omega)]

theorem clearTable_eq (w n : Nat) (m : Words) : clearTable w n m = m.fill w n fun _ => Entry.empty := by
  induction n generalizing w m with
  | zero => exact (m.fill_zero w _).symm
  | succ n ih => exact (ih (w + 1) (m.set w Entry.empty)).trans (m.fill_succ w n fun _ => Entry.empty)

theorem fillPdp_eq (pdp n ipdp pd : Nat) (m : Words) :
    fillPdp pdp n ipdp pd m = m.fill (pdp / recordSz + ipdp) n fun k => tableEntry (pd + k * page4k) := by
  induction n generalizing ipdp pd m with
  | zero => exact (m.fill_zero _ _).symm
  | succ n ih =>
    refine (ih (ipdp + 1) (pd + page4k) _).trans ?_
    rw [← Words.fill_succ, Nat.zero_mul, Nat.add_zero]
    simp only [Nat.succ_mul, Nat.add_assoc, Nat.add_comm page4k]
    rfl

theorem fillPd_eq (pd n ipd ramByte : Nat) (m : Words) :
    fillPd pd n ipd ramByte m =
      (m.fill (pd / recordSz + ipd) n (fun k => pageEntry (ramByte + k * page2m)), ramByte + n * page2m) := by
  induction n generalizing ipd ramByte m with
  | zero =>
    rw [Words.fill_zero, Nat.zero_mul]
    rfl
  | succ n ih =>
    refine (ih (ipd + 1) (ramByte + page2m) _).trans ?_
    rw [← Words.fill_succ, Nat.zero_mul, Nat.add_zero]
    simp only [Nat.succ_mul, Nat.add_assoc, Nat.add_comm page2m]
    rfl

/-! ## The sizes -/

theorem recordPages_eq {n : Nat} (few : n < 2 ^ 29) : recordPages n = (n + 511) / 512 := by
  unfold recordPages recordSz page4k
  dsimp only
  rw [Nat.mod_eq_of_lt (by omega)]
  split <;> omega

/-- Up to 512G there is one PDP table, and all tables fit in 32 bits. -/
theorem sizes_eq {ramSz : Nat} (some : 0 < ramSz) (small : ramSz ≤ 2 ^ 39) :
    0 < ramPages2m ramSz ∧ ramPages2m ramSz ≤ 2 ^ 18 ∧
      sizes ramSz = ⟨ramPages2m ramSz, ramPages2m ramSz, (ramPages2m ramSz + 511) / 512, (ramPages2m ramSz + 511) / 512, 1,
        (2 + (ramPages2m ramSz + 511) / 512) * 4096⟩ := by
  have positive : 0 < ramPages2m ramSz := by
    unfold ramPages2m page2m
    split <;> omega
  have few : ramPages2m ramSz ≤ 2 ^ 18 := by
    unfold ramPages2m page2m
    split <;> omega
  refine ⟨positive, few, ?_⟩
  unfold sizes
  generalize ramPages2m ramSz = pages at positive few
  dsimp only
  have none : recordPages 0 = 0 := by decide
  have records : (pages + 0) % 2 ^ 32 = pages := Nat.mod_eq_of_lt (by omega)
  rw [none, records, recordPages_eq (by omega), if_neg (by unfold maxRecords; omega), recordPages_eq (by omega)]
  have one : ((pages + 511) / 512 + 511) / 512 = 1 := by omega
  have bytes : (1 * page4k + (pages + 511) / 512 * page4k + 0 * page4k + 1 * page4k) % 2 ^ 32 =
      (2 + (pages + 511) / 512) * 4096 := by
    unfold page4k
    rw [Nat.mod_eq_of_lt (by omega)]
    omega
  rw [one, bytes]

/-! ## The entries of the tables -/

@[simp] theorem tableEntry_p (addr : Nat) : (tableEntry addr).p = true := rfl
@[simp] theorem tableEntry_ps (addr : Nat) : (tableEntry addr).ps = false := rfl
@[simp] theorem pageEntry_p (ramByte : Nat) : (pageEntry ramByte).p = true := rfl
@[simp] theorem pageEntry_ps (ramByte : Nat) : (pageEntry ramByte).ps = true := rfl

theorem tableEntry_frame {k : Nat} (below : k < 2 ^ 20) : (tableEntry (k * 4096)).frame = k := by
  unfold Entry.frame tableEntry
  have mbz : BitVec.toNat (0 : BitVec 12) = 0 := rfl
  simp only [Entry.empty, mbz, BitVec.toNat_ofNat]
  omega

theorem pageEntry_frame {k : Nat} (below : k < 2 ^ 18) : (pageEntry (k * page2m)).frame = k * 2 ^ 9 := by
  unfold Entry.frame pageEntry page2m
  have mbz : BitVec.toNat (0 : BitVec 12) = 0 := rfl
  simp only [Entry.empty, mbz, BitVec.toNat_ofNat]
  omega

/-- The tables from page `first` on, for `pages` pages of 2M. -/
structure Built (mem : Tables) (first pages : Nat) : Prop where
  pml4 : ∀ i < 512, mem first i = if i = 0 ∨ i = 511 then tableEntry ((first + 1) * 4096) else Entry.empty
  pdp : ∀ i < 512, mem (first + 1) i =
    if i < (pages + 511) / 512 then tableEntry ((first + 2 + i) * 4096) else Entry.empty
  pd : ∀ k < (pages + 511) / 512, ∀ i < 512, mem (first + 2 + k) i =
    if 512 * k + i < pages then pageEntry ((512 * k + i) * page2m) else Entry.empty

/-- The loops build the tables. -/
theorem built (m : Words) {first pages : Nat} (some : 0 < pages) :
    Built (Words.tables ((((((m.fill (first * 512) ((2 + (pages + 511) / 512) * 512) fun _ => Entry.empty).set
      (first * 512) (tableEntry ((first + 1) * 4096))).set (first * 512 + 511) (tableEntry ((first + 1) * 4096))).fill
      ((first + 1) * 512) ((pages + 511) / 512) fun k => tableEntry ((first + 2 + k) * 4096))).fill
      ((first + 2) * 512) pages fun k => pageEntry (k * page2m))) first pages := by
  refine ⟨?_, ?_, ?_⟩
  · intro i small
    simp only [Words.tables, Words.fill, Words.set]
    rw [if_neg (by omega), if_neg (by omega)]
    by_cases last : i = 511
    · rw [if_pos (by omega), if_pos (Or.inr last)]
    · rw [if_neg (by omega)]
      by_cases zero : i = 0
      · rw [if_pos (by omega), if_pos (Or.inl zero)]
      · rw [if_neg (by omega), if_pos (by omega), if_neg (by omega)]
  · intro i small
    simp only [Words.tables, Words.fill, Words.set]
    rw [if_neg (by omega)]
    by_cases inside : i < (pages + 511) / 512
    · rw [if_pos (by omega), if_pos inside, show (first + 1) * 512 + i - (first + 1) * 512 = i by omega]
    · rw [if_neg (by omega), if_neg (by omega), if_neg (by omega), if_pos (by omega), if_neg inside]
  · intro k few i small
    simp only [Words.tables, Words.fill, Words.set]
    by_cases inside : 512 * k + i < pages
    · rw [if_pos (by omega), if_pos inside, show (first + 2 + k) * 512 + i - (first + 2) * 512 = 512 * k + i by omega]
    · rw [if_neg (by omega), if_neg (by omega), if_neg (by omega), if_neg (by omega), if_pos (by omega), if_neg inside]

/-! ## The walk of the tables -/

section Walk
variable {mem : Tables} {first pages : Nat}

/-- The index of a page of 2M below 512G, by the indices of its address. -/
theorem index2m (va : Nat) : 512 * pdpIndex va + pdIndex va = va % 2 ^ 39 / 2 ^ 21 := by
  unfold pdpIndex pdIndex
  omega

/-- The walk takes an address of the first or the last 512G to its offset there, as far as there are pages. -/
theorem Built.walk (tables : Built mem first pages) (few : pages ≤ 2 ^ 18)
    (below : first + 2 + (pages + 511) / 512 ≤ 2 ^ 20) (va : Nat) :
    walk mem first va =
      if (pml4Index va = 0 ∨ pml4Index va = 511) ∧ va % 2 ^ 39 / 2 ^ 21 < pages then
        some ⟨va % 2 ^ 39, true, false, false⟩
      else none := by
  have small4 : pml4Index va < 512 := Nat.mod_lt _ (by decide)
  have small3 : pdpIndex va < 512 := Nat.mod_lt _ (by decide)
  have small2 : pdIndex va < 512 := Nat.mod_lt _ (by decide)
  have index := index2m va
  unfold X86.walk
  rw [tables.pml4 _ small4]
  by_cases top : pml4Index va = 0 ∨ pml4Index va = 511
  swap
  · simp [top]
  rw [if_pos top]
  simp only [tableEntry_p, if_true, tableEntry_frame (show first + 1 < 2 ^ 20 by omega), tables.pdp _ small3]
  by_cases table : pdpIndex va < (pages + 511) / 512
  swap
  · rw [if_neg table, if_neg (show ¬ (_ ∧ _) by omega)]
    rfl
  rw [if_pos table]
  simp only [tableEntry_p, tableEntry_ps, if_true, Bool.false_eq_true, if_false,
    tableEntry_frame (show first + 2 + pdpIndex va < 2 ^ 20 by omega), tables.pd _ table _ small2, index]
  by_cases inside : va % 2 ^ 39 / 2 ^ 21 < pages
  swap
  · have miss : ¬ ((pml4Index va = 0 ∨ pml4Index va = 511) ∧ va % 2 ^ 39 / 2 ^ 21 < pages) := fun both => inside both.2
    rw [if_neg miss, if_neg inside]
    rfl
  have both : (pml4Index va = 0 ∨ pml4Index va = 511) ∧ va % 2 ^ 39 / 2 ^ 21 < pages := ⟨top, inside⟩
  rw [if_pos inside, if_pos both]
  simp only [pageEntry_p, pageEntry_ps, if_true, pageEntry_frame (show va % 2 ^ 39 / 2 ^ 21 < 2 ^ 18 by omega)]
  have addr : va % 2 ^ 39 / 2 ^ 21 * 2 ^ 9 / 2 ^ 9 * 2 ^ 21 + pt2mOffset va = va % 2 ^ 39 := by
    unfold pt2mOffset
    omega
  rw [addr]
  rfl

/-- The walk reads only pages of the three tables. -/
theorem Built.walkPages (tables : Built mem first pages) (few : pages ≤ 2 ^ 18)
    (below : first + 2 + (pages + 511) / 512 ≤ 2 ^ 20) (va : Nat) :
    ∀ page ∈ walkPages mem first va, first ≤ page ∧ page < first + 2 + (pages + 511) / 512 := by
  have small4 : pml4Index va < 512 := Nat.mod_lt _ (by decide)
  have small3 : pdpIndex va < 512 := Nat.mod_lt _ (by decide)
  have small2 : pdIndex va < 512 := Nat.mod_lt _ (by decide)
  unfold X86.walkPages
  rw [tables.pml4 _ small4]
  intro page member
  by_cases top : pml4Index va = 0 ∨ pml4Index va = 511
  swap
  · simp only [if_neg top, Entry.empty_p, Bool.false_eq_true, if_false, List.mem_singleton] at member
    omega
  rw [if_pos top] at member
  simp only [tableEntry_p, if_true, tableEntry_frame (show first + 1 < 2 ^ 20 by omega), tables.pdp _ small3] at member
  by_cases table : pdpIndex va < (pages + 511) / 512
  swap
  · simp only [if_neg table, Entry.empty_p, Bool.false_eq_true, false_and, if_false, List.mem_cons, List.not_mem_nil,
      or_false] at member
    omega
  rw [if_pos table] at member
  simp only [tableEntry_p, tableEntry_ps, Bool.false_eq_true, not_false_eq_true, and_self, if_true,
    tableEntry_frame (show first + 2 + pdpIndex va < 2 ^ 20 by omega), tables.pd _ table _ small2] at member
  -- a PD entry is empty or a page, so no table of a fourth level is read
  split at member <;>
  · simp at member
    omega

end Walk

/-! ## The boot page table -/

/-- An address of memory, rounded up to 2M. -/
def roundUp2m (ramSz : Nat) : Nat := (ramSz + (page2m - 1)) / page2m * page2m

/-- The walk takes the memory to itself, at its own addresses and behind `VBASE_64`, and no other address anywhere, and it
reads only tables that lie in the area that `rmap` has for them. -/
structure BootTables (m : Words) (ptAddr ramSz : Nat) (tag : MemTag) : Prop where
  low : ∀ pa < roundUp2m ramSz, (walk m.tables (ptAddr / page4k) pa).map (·.addr) = some pa
  high : ∀ pa < roundUp2m ramSz, (walk m.tables (ptAddr / page4k) (vbase64 + pa)).map (·.addr) = some pa
  nothing_else : ∀ va, Canonical va → (walk m.tables (ptAddr / page4k) va).isSome →
    ∃ pa < roundUp2m ramSz, va = pa ∨ va = vbase64 + pa
  inside : ∀ va, ∀ page ∈ walkPages m.tables (ptAddr / page4k) va,
    tag.addrLo ≤ page * page4k ∧ (page + 1) * page4k ≤ tag.addrLo + tag.sizeLo

/-- The tables built for `pages` pages of 2M. -/
theorem Built.bootTables {m : Words} {first ramSz : Nat} (some : 0 < ramSz) (small : ramSz ≤ 2 ^ 39)
    (below : first + 2 + (ramPages2m ramSz + 511) / 512 ≤ 2 ^ 20) (tables : Built m.tables first (ramPages2m ramSz))
    {tag : MemTag} (addr : tag.addrLo = first * 4096)
    (size : tag.sizeLo = (2 + (ramPages2m ramSz + 511) / 512) * 4096) : BootTables m (first * 4096) ramSz tag := by
  obtain ⟨-, few, -⟩ := sizes_eq some small
  have round : roundUp2m ramSz = ramPages2m ramSz * 2 ^ 21 := by
    unfold roundUp2m ramPages2m page2m
    split <;> omega
  have first_page : first * 4096 / page4k = first := Nat.mul_div_cancel _ (by decide)
  have translate := tables.walk few below
  generalize ramPages2m ramSz = pages at *
  refine ⟨?_, ?_, ?_, ?_⟩
  · intro pa inside
    rw [first_page, translate, if_pos]
    · simp only [Option.map_some]
      exact congrArg _ (Nat.mod_eq_of_lt (by omega))
    · refine ⟨Or.inl ?_, by omega⟩
      unfold pml4Index
      omega
  · intro pa inside
    unfold vbase64
    rw [first_page, translate, if_pos]
    · simp only [Option.map_some]
      exact congrArg _ (by omega)
    · refine ⟨Or.inr ?_, by omega⟩
      unfold pml4Index
      omega
  · intro va canonical mapped
    rw [first_page, translate] at mapped
    split at mapped
    · next both =>
      obtain ⟨top, inside⟩ := both
      unfold pml4Index at top
      unfold Canonical at canonical
      refine ⟨va % 2 ^ 39, by omega, ?_⟩
      unfold vbase64
      omega
    · cases mapped
  · intro va page member
    rw [first_page] at member
    have := tables.walkPages few below va page member
    unfold page4k
    omega

/-- What the source stores into memory. -/
def bootWords (m : Words) (first pages : Nat) : Words :=
  (((((m.fill (first * 512) ((2 + (pages + 511) / 512) * 512) fun _ => Entry.empty).set
    (first * 512) (tableEntry ((first + 1) * 4096))).set (first * 512 + 511) (tableEntry ((first + 1) * 4096))).fill
    ((first + 1) * 512) ((pages + 511) / 512) fun k => tableEntry ((first + 2 + k) * 4096))).fill
    ((first + 2) * 512) pages fun k => pageEntry (k * page2m)

/-- The PML4 entry of the kernel is the last one. -/
theorem vbase64_index : (vbase64 &&& 0x0000ff8000000000) / 2 ^ 39 = 511 := by decide +kernel

/-- The word a page begins with. -/
theorem page_word (page : Nat) : page * 4096 / recordSz = page * 512 := by
  unfold recordSz
  omega

theorem next_page (page : Nat) : page * 4096 + 1 * page4k = (page + 1) * 4096 := by
  unfold page4k
  omega

theorem later_page (page k : Nat) : page * 4096 + k * page4k = (page + k) * 4096 := by
  unfold page4k
  omega

/-- The tables for a memory of at most 512G. -/
theorem buildTables_eq (m : Words) {first ramSz : Nat} (some : 0 < ramSz) (small : ramSz ≤ 2 ^ 39) :
    buildTables (first * 4096) (sizes ramSz) m =
      (bootWords m first (ramPages2m ramSz), ramPages2m ramSz * page2m) := by
  obtain ⟨-, -, size⟩ := sizes_eq some small
  unfold buildTables
  rw [size, vbase64_index]
  generalize ramPages2m ramSz = pages
  dsimp only
  rw [clearTable_eq, fillPdp_eq, fillPd_eq, next_page, next_page]
  simp only [page_word, later_page, Nat.zero_add, Nat.add_zero]
  rfl

section Boot
variable {sc : StartupContext} {m : Words} {last tag : MemTag} {ptAddr : Nat}

/-- `_pm_build_pml4_2m` builds the tables for the memory below the end of the last range of the memory map. -/
theorem pmBuildPml42m_tables (some : 0 < sc.mmCnt) (ranges : sc.mmCnt ≤ maxMemTags)
    (get : sc.mmap[sc.mmCnt - 1]? = Option.some last) (positive : 0 < last.address + last.size)
    (small : last.address + last.size ≤ 2 ^ 39) (aligned : page4k ∣ ptAddr)
    (below : ptAddr + (sizes (last.address + last.size)).tableSz ≤ 2 ^ 32) (room : sc.rmap[sc.rmCnt]? = Option.some tag) :
    ∃ m' sc' tag', pmBuildPml42m ptAddr sc m = Option.some (m', sc') ∧ sc'.rmap[sc.rmCnt]? = Option.some tag' ∧
      sc'.rmCnt = sc.rmCnt + 1 ∧ tag'.addrLo = ptAddr ∧ tag'.sizeLo = sc'.ptTableSize ∧ tag'.type = memTypePageMap ∧
      tag'.addrHi = tag.addrHi ∧ tag'.sizeHi = tag.sizeHi ∧ BootTables m' ptAddr (last.address + last.size) tag' := by
  obtain ⟨first, rfl⟩ := aligned
  obtain ⟨pages, -, size⟩ := sizes_eq positive small
  have chunks : sc.mmCnt % 2 ^ 8 = sc.mmCnt := Nat.mod_eq_of_lt (by unfold maxMemTags at ranges; omega)
  have ramSz : (last.address + last.size) % 2 ^ 64 = last.address + last.size := Nat.mod_eq_of_lt (by omega)
  have bound := (List.getElem?_eq_some_iff.mp room).1
  have tag_last : lastTag sc = Option.some last := by
    unfold lastTag
    rw [chunks, if_neg (by omega), get]
  have fits : (sizes (last.address + last.size)).tableSz =
      (2 + (ramPages2m (last.address + last.size) + 511) / 512) * 4096 :=
    congrArg Sizes.tableSz size
  have start : page4k * first = first * 4096 := Nat.mul_comm _ _
  rw [start, fits] at below
  rw [start]
  have addr : first * 4096 % 2 ^ 32 = first * 4096 := Nat.mod_eq_of_lt (by omega)
  unfold pmBuildPml42m recordTables
  rw [tag_last]
  dsimp only
  rw [ramSz, room, buildTables_eq m positive small, fits, addr]
  refine ⟨_, _, _, rfl, List.getElem?_set_self bound, rfl, rfl, rfl, rfl, rfl, rfl, ?_⟩
  exact Built.bootTables positive small (by omega) (built m pages) rfl rfl

end Boot

/-- A context with 128M of memory in two ranges and one range reserved. -/
def smallContext : StartupContext :=
  { ptPageSize := 0, ptTableSize := 0, ptType := 0, ptRange := 0, vbase := 0
    mmap := [⟨0, 0, 0x9f000, 0, 1⟩, ⟨0x100000, 0, 0x7f00000, 0, 1⟩], mmCnt := 2
    rmap := [⟨0, 0, 0x1000, 0, 2⟩, ⟨0, 0, 0, 0, 0⟩], rmCnt := 1 }

/-- The tables for 128M of memory at the address where the boot code puts them. -/
theorem pmBuildPml42m_tables_small :
    ∃ m' sc' tag', pmBuildPml42m 0x100000 smallContext (fun _ => Entry.empty) = some (m', sc') ∧ sc'.rmap[1]? = some tag' ∧
      sc'.rmCnt = 2 ∧ tag'.addrLo = 0x100000 ∧ tag'.sizeLo = sc'.ptTableSize ∧ tag'.type = memTypePageMap ∧
      tag'.addrHi = 0 ∧ tag'.sizeHi = 0 ∧ BootTables m' 0x100000 0x8000000 tag' :=
  @pmBuildPml42m_tables smallContext _ ⟨0x100000, 0, 0x7f00000, 0, 1⟩ ⟨0, 0, 0, 0, 0⟩ 0x100000
    (by decide) (by decide) rfl (by decide) (by decide) (by decide) (by decide) rfl

end PreTeO.X86
