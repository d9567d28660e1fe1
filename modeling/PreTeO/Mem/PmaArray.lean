import PreTeO.Mem.PmaSearch

/-!
# The calls with an array of pages

`alloc` into an array keeps the index of the last page it stored as its result, and `free` of an array never counts
the pages it gives back. Both results are right only where there is nothing to report.
-/

namespace PreTeO.Mem
set_option autoImplicit false
open PreTeO.Lib

/-- `free` of the pages of an array with what it returns: `r` is set to 0 and never again. -/
def Pma.freeArrayReturns (s : Pma) (pages : List Nat) : Pma × Nat := (Pma.freeArray pages s, 0)

/-- The record of a page takes pages of the type. -/
def Ram.takesType (b : Ram) (type q : Nat) : Bool :=
  match b.recs[q / maxRecAmount]? with
  | none => false
  | some r => r.type == 0 || r.type == type

/-- A free page of the block that may be used for the type and whose last byte is below the limit. -/
def Ram.eligible (b : Ram) (pageSize type limit q : Nat) : Bool :=
  !b.taken q && b.takesType type q && decide (b.addr + (q + 1) * pageSize - 1 < limit)

/-- The addresses of these pages in all blocks. -/
def Pma.eligible (s : Pma) (type limit : Nat) : List Nat :=
  s.ram.flatMap fun b =>
    ((List.range b.npages).filter (b.eligible s.pageSize type limit)).map fun q => b.addr + q * s.pageSize

/-- Exactly the given pages became used. -/
structure Pma.Takes (s t : Pma) (pages : List Nat) : Prop where
  length : t.ram.length = s.ram.length
  bits : ∀ (i : Nat) (b b' : Ram), s.ram[i]? = some b → t.ram[i]? = some b' → ∀ p, p < b.npages →
    (b'.taken p = true ↔ b.taken p = true ∨ b.addr + p * s.pageSize ∈ pages)

/-- `alloc` into an array reports the number of pages it stored, as many as were asked for and there are; they are
different eligible pages, and exactly these become used. -/
def Pma.AllocArrayOk (s : Pma) (npages type limit : Nat) : Prop :=
  ∃ pages r t, s.allocArray npages type limit = some (pages, r, t) ∧ r = pages.length ∧
    r = min npages (s.eligible type limit).length ∧ pages.Nodup ∧ (∀ page ∈ pages, page ∈ s.eligible type limit) ∧
    s.Takes t pages

/-- How many pages are taken in the first state and free in the second. -/
def Pma.released (s t : Pma) : Nat :=
  ((s.ram.zip t.ram).map fun x => (List.range x.1.npages).countP fun p => x.1.taken p && !x.2.taken p).sum

/-- `free` of an array reports the number of pages it gave back. -/
def Pma.FreeArrayOk (s : Pma) (pages : List Nat) : Prop :=
  (s.freeArrayReturns pages).2 = s.released (s.freeArrayReturns pages).1

/-- The page an address lies in is taken. -/
def Pma.takenAt (s : Pma) (addr : Nat) : Bool :=
  match s.addressToPosition addr with
  | none => false
  | some p =>
    match s.ram[p.block]? with
    | none => false
    | some b => b.taken p.page

/-- The pages of an array up to the first address that lies in no block. -/
def Pma.located (s : Pma) (pages : List Nat) : List Nat := pages.takeWhile fun addr => (s.addressToPosition addr).isSome

section Alloc
variable {s : Pma} {type limit : Nat}

theorem Ram.takesType_iff {b : Ram} {q : Nat} :
    b.takesType type q = true ↔ ∃ r, b.recs[q / maxRecAmount]? = some r ∧ (r.type = 0 ∨ r.type = type) := by
  unfold Ram.takesType
  split
  · next get => simp [get]
  · next r get => simp [get]

theorem Ram.eligible_iff {b : Ram} {pageSize q : Nat} (inside : q < b.npages) :
    b.eligible pageSize type limit q = true ↔ b.RunBelow pageSize type limit 1 q := by
  unfold Ram.eligible
  rw [Bool.and_eq_true, Bool.and_eq_true, Bool.not_eq_true', Ram.takesType_iff, decide_eq_true_eq]
  constructor
  · rintro ⟨⟨free, fits⟩, below⟩
    refine ⟨by omega, fun p low high => ?_, below⟩
    obtain rfl : p = q := by omega
    exact ⟨free, fits⟩
  · intro run
    exact ⟨run.usable q (le_refl q) (by omega), run.below⟩

theorem Pma.mem_eligible {page : Nat} : page ∈ s.eligible type limit ↔
    ∃ b ∈ s.ram, ∃ q, b.RunBelow s.pageSize type limit 1 q ∧ page = b.addr + q * s.pageSize := by
  unfold Pma.eligible
  simp only [List.mem_flatMap, List.mem_map, List.mem_filter, List.mem_range]
  constructor
  · rintro ⟨b, member, q, ⟨inside, fine⟩, rfl⟩
    exact ⟨b, member, q, (Ram.eligible_iff inside).mp fine, rfl⟩
  · rintro ⟨b, member, q, run, rfl⟩
    have inside : q < b.npages := by
      have := run.inside
      omega
    exact ⟨b, member, q, ⟨inside, (Ram.eligible_iff inside).mpr run⟩, rfl⟩

/-- The result is the index of the last page stored. -/
theorem Pma.allocPages_result {n i r r' : Nat} {pages : List Nat} {t : Pma}
    (returns : Pma.allocPages type limit n i r s = some (pages, r', t)) :
    (pages = [] ∧ r' = r) ∨ r' + 1 = i + pages.length := by
  induction n generalizing s i r pages with
  | zero =>
    cases returns
    exact Or.inl ⟨rfl, rfl⟩
  | succ n ih =>
    unfold Pma.allocPages at returns
    split at returns
    · cases returns
    · cases returns
      exact Or.inl ⟨rfl, rfl⟩
    · dsimp only at returns
      split at returns
      · split at returns
        · cases returns
          exact Or.inl ⟨rfl, rfl⟩
        · obtain ⟨⟨pages', r₁, u⟩, rest, same⟩ := Option.map_eq_some_iff.mp returns
          cases same
          have last := ih rest
          right
          dsimp only at last ⊢
          rw [List.length_cons]
          rcases last with ⟨none, here⟩ | further
          · rw [none, List.length_nil]
            omega
          · omega
      · cases returns
        exact Or.inl ⟨rfl, rfl⟩

/-- Without a block the search for the first page leaves `m_ram`. -/
theorem Pma.allocPages_nowhere {n i r : Nat} (none : s.ram = []) :
    Pma.allocPages type limit (n + 1) i r s = Option.none := by
  simp only [Pma.allocPages, Pma.find, if_pos none]

theorem Pma.Takes.refl (s : Pma) : s.Takes s [] := by
  refine ⟨rfl, fun i b b' get get' p _ => ?_⟩
  rw [get] at get'
  cases get'
  simp

/-- The result is right exactly if no page is asked for or none is eligible. -/
theorem Pma.allocArrayOk_iff (blocks : s.Blocks) (counts : s.Counts) (small : limit < 2 ^ 64) (npages : Nat) :
    s.AllocArrayOk npages type limit ↔ npages = 0 ∨ (s.ram ≠ [] ∧ s.eligible type limit = []) := by
  constructor
  · rintro ⟨pages, r, t, returns, count, amount, -, -, -⟩
    cases npages with
    | zero => exact Or.inl rfl
    | succ n =>
      refine Or.inr ⟨fun none => ?_, ?_⟩
      · rw [Pma.allocArray, Pma.allocPages_nowhere none] at returns
        cases returns
      · rcases Pma.allocPages_result returns with ⟨none, -⟩ | last
        · rw [none, List.length_nil] at count
          exact List.length_eq_zero_iff.mp (by omega)
        · omega
  · rintro (rfl | ⟨some, none⟩)
    · exact ⟨[], 0, s, rfl, rfl, (Nat.zero_min _).symm, List.nodup_nil, by simp, Pma.Takes.refl s⟩
    · have nothing : s.allocArray npages type limit = Option.some ([], 0, s) := by
        cases npages with
        | zero => rfl
        | succ n =>
          obtain ⟨place, found⟩ := Pma.find_returns some limit type 1
          cases place with
          | none => simp only [Pma.allocArray, Pma.allocPages, found]
          | some p =>
            obtain ⟨b, at_b, highest, -⟩ :=
              blocks.find counts.recsCounted (by decide) (by decide) small found
            have page := Pma.mem_eligible.mpr ⟨b, List.mem_of_getElem? at_b.block, p.page, highest.run, rfl⟩
            rw [none] at page
            cases page
      refine ⟨[], 0, s, nothing, rfl, ?_, List.nodup_nil, by simp, Pma.Takes.refl s⟩
      rw [none, List.length_nil, Nat.min_zero]

end Alloc

section Free
variable {s t : Pma}

/-- Positions depend on where the blocks lie only. -/
theorem Pma.addressToPosition_shape (same : t.shape = s.shape) (addr : Nat) :
    t.addressToPosition addr = s.addressToPosition addr := by
  obtain ⟨size, rows⟩ := Prod.mk.inj same
  have search : ∀ a, t.ram.findIdx? (fun b => b.addr ≤ a && a < b.blockEnd t.pageSize) =
      s.ram.findIdx? (fun b => b.addr ≤ a && a < b.blockEnd s.pageSize) := by
    intro a
    have row := congrArg (List.findIdx? fun x : Nat × Nat =>
      x.1 ≤ a && a < (x.1 + x.2 * maxRecAmount * s.pageSize) % 2 ^ 64) rows
    rw [List.findIdx?_map, List.findIdx?_map] at row
    rw [size]
    exact row
  unfold Pma.addressToPosition
  dsimp only
  rw [size, ← size, search, size]
  split
  · rfl
  · next i found =>
    cases get : t.ram[i]? with
    | some b =>
      obtain ⟨b', get', addr', -⟩ := Pma.shape_back same get
      rw [get']
      dsimp only
      rw [addr']
    | none =>
      cases get' : s.ram[i]? with
      | none => rfl
      | some b =>
        obtain ⟨b', old, -⟩ := Pma.shape_back same.symm get'
        rw [get] at old
        cases old

theorem Pma.located_shape (same : t.shape = s.shape) (pages : List Nat) : t.located pages = s.located pages := by
  unfold Pma.located
  congr 1
  funext addr
  rw [Pma.addressToPosition_shape same]

/-- A page is taken after `free` of an array if it was and no located address of the array leads to it. -/
theorem Pma.Counts.freeArray_bits (counts : s.Counts) (pages : List Nat) {i : Nat} {b' : Ram}
    (get : (Pma.freeArray pages s).ram[i]? = some b') :
    ∃ b, s.ram[i]? = some b ∧ ∀ x, b'.taken x = true ↔
      b.taken x = true ∧ ∀ page ∈ s.located pages, ∀ p, s.addressToPosition page = some p → ¬ (p.block = i ∧ p.page = x) := by
  induction pages generalizing s with
  | nil => exact ⟨b', get, fun x => by simp [Pma.located]⟩
  | cons page rest ih =>
    unfold Pma.freeArray at get
    cases place : s.addressToPosition page with
    | none =>
      rw [place] at get
      refine ⟨b', get, fun x => ?_⟩
      simp [Pma.located, place]
    | some p =>
      obtain ⟨c, at_c, -⟩ := Pma.addressToPosition_at counts.positive place
      have inside := Arena.At.page_lt at_c
      obtain ⟨c', k, run, -, -, amount, -, bits⟩ := counts.setBits_spec at_c 1 (s.typeAt p) false
      obtain rfl : k = 1 := by omega
      have after := counts.setBits at_c 1 (s.typeAt p) false
      have same := s.setBits_shape p 1 (s.typeAt p) false
      rw [run] at after same
      rw [place] at get
      dsimp only at get
      rw [run] at get
      dsimp only at get after same
      rw [if_pos rfl] at get
      obtain ⟨b₁, get₁, rule⟩ := ih after get
      have front : s.located (page :: rest) = page :: s.located rest := by
        simp [Pma.located, place]
      simp only [Pma.located_shape same, Pma.addressToPosition_shape same] at rule
      have head : ∀ x, (∀ a ∈ s.located (page :: rest), ∀ p', s.addressToPosition a = some p' → ¬ (p'.block = i ∧ p'.page = x)) ↔
          ¬ (p.block = i ∧ p.page = x) ∧
            ∀ a ∈ s.located rest, ∀ p', s.addressToPosition a = some p' → ¬ (p'.block = i ∧ p'.page = x) := by
        intro x
        rw [front, List.forall_mem_cons, place]
        simp only [Option.some.injEq, forall_eq']
      rw [List.getElem?_set] at get₁
      split at get₁
      · next here =>
        subst here
        rw [if_pos (List.getElem?_eq_some_iff.mp at_c.block).1] at get₁
        cases get₁
        refine ⟨c, at_c.block, fun x => ?_⟩
        rw [rule x, head x, bits x]
        by_cases this : p.page = x
        · simp [this]
        · rw [if_neg (by omega)]
          simp [this]
      · next differ =>
        refine ⟨b₁, get₁, fun x => ?_⟩
        rw [rule x, head x]
        simp [differ]

theorem Pma.released_eq_zero : s.released t = 0 ↔
    ∀ (i : Nat) (b b' : Ram), s.ram[i]? = some b → t.ram[i]? = some b' → ∀ x, x < b.npages → b.taken x = true → b'.taken x = true := by
  unfold Pma.released
  rw [List.sum_eq_zero_iff_forall_eq_nat]
  simp only [List.mem_map, forall_exists_index, and_imp, forall_apply_eq_imp_iff₂, List.countP_eq_zero, List.mem_range]
  constructor
  · intro all i b b' get get' x inside taken
    have pair : (b, b') ∈ s.ram.zip t.ram := List.mem_of_getElem? (List.getElem?_zip_eq_some.mpr ⟨get, get'⟩)
    simpa [taken] using all (b, b') pair x inside
  · intro all pair member x inside
    obtain ⟨i, get⟩ := List.getElem?_of_mem member
    obtain ⟨get₁, get₂⟩ := List.getElem?_zip_eq_some.mp get
    have kept := all i pair.1 pair.2 get₁ get₂ x inside
    cases taken : pair.1.taken x with
    | false => simp
    | true => simp [kept taken]

/-- The result is right exactly if no page of the array, up to the first address that lies in no block, is taken. -/
theorem Pma.freeArrayOk_iff (counts : s.Counts) (pages : List Nat) :
    s.FreeArrayOk pages ↔ ∀ page ∈ s.located pages, s.takenAt page = false := by
  have length := Pma.freeArray_length pages s
  unfold Pma.FreeArrayOk Pma.freeArrayReturns
  dsimp only
  rw [eq_comm, Pma.released_eq_zero]
  constructor
  · intro all page member
    unfold Pma.takenAt
    split
    · rfl
    · next p place =>
      obtain ⟨b, at_b, -⟩ := Pma.addressToPosition_at counts.positive place
      rw [at_b.block]
      dsimp only
      have bound := (List.getElem?_eq_some_iff.mp at_b.block).1
      have get := List.getElem?_eq_getElem (show p.block < (Pma.freeArray pages s).ram.length by omega)
      obtain ⟨b₁, get₁, rule⟩ := counts.freeArray_bits pages get
      rw [at_b.block] at get₁
      cases get₁
      by_contra taken
      have set : b.taken p.page = true := by simpa using taken
      have kept := all p.block b _ at_b.block get p.page (Arena.At.page_lt at_b) set
      exact ((rule p.page).mp kept).2 page member p place ⟨rfl, rfl⟩
  · intro free i b b' get get' x inside taken
    obtain ⟨b₁, get₁, rule⟩ := counts.freeArray_bits pages get'
    rw [get] at get₁
    cases get₁
    refine (rule x).mpr ⟨taken, ?_⟩
    rintro page member p place ⟨rfl, rfl⟩
    have none := free page member
    simp only [Pma.takenAt, place, get, taken] at none
    cases none

end Free

/-- After every run of calls, `alloc` into an array reports what it did exactly if no page is asked for, or there is a
block and no page is eligible; `free` of an array exactly if it meets no taken page. -/
theorem array_calls_report_iff {s t : Pma} (blocks : s.Blocks) (fresh : s.Fresh)
    (reach : Reach Pma.step (fun _ request => request.Sized) s t) :
    (∀ npages type limit, npages < 2 ^ 32 → type < 2 ^ 8 → limit < 2 ^ 64 →
      (t.AllocArrayOk npages type limit ↔ npages = 0 ∨ (t.ram ≠ [] ∧ t.eligible type limit = []))) ∧
    ∀ pages, pages.length < 2 ^ 32 →
      (t.FreeArrayOk pages ↔ ∀ page ∈ t.located pages, t.takenAt page = false) := by
  obtain ⟨counts, same⟩ := fresh.run blocks reach
  refine ⟨fun npages type limit _ _ small => ?_, fun pages _ => Pma.freeArrayOk_iff counts pages⟩
  exact Pma.allocArrayOk_iff (blocks.of_shape same) counts small npages

theorem twoBlocks_fresh : twoBlocks.Fresh := by
  unfold Pma.Fresh
  decide

/-- After a call for one page: the limit at the start of the first block leaves no eligible page, and the address 0 lies
in no block. -/
theorem array_calls_report_twoBlocks :
    ∃ t, twoBlocks.step (.alloc 1 1 0x1000000000) = some t ∧ t ≠ twoBlocks ∧ t.AllocArrayOk 2 1 0x100000 ∧
      ¬ t.AllocArrayOk 2 1 0x1000000000 ∧ t.FreeArrayOk [0] ∧ ¬ t.FreeArrayOk [0x1017000] := by
  have sized : Request.Sized (.alloc 1 1 0x1000000000) := show 1 < 2 ^ 32 by decide
  obtain ⟨t, step⟩ : ∃ t, twoBlocks.step (.alloc 1 1 0x1000000000) = some t := ⟨_, rfl⟩
  obtain ⟨first, second⟩ := array_calls_report_iff twoBlocks_blocks twoBlocks_fresh
    (Reach.snoc (Reach.refl twoBlocks) sized step)
  cases step
  refine ⟨_, rfl, by decide, ?_, ?_, ?_, ?_⟩
  · exact (first 2 1 0x100000 (by decide) (by decide) (by decide)).mpr (by decide)
  · exact fun fine => absurd ((first 2 1 0x1000000000 (by decide) (by decide) (by decide)).mp fine) (by decide)
  · exact (second [0] (by decide)).mpr (by decide)
  · exact fun fine => absurd ((second [0x1017000] (by decide)).mp fine) (by decide)

/-- Two pages are stored and 1 is returned; both are given back and 0 is returned. -/
theorem array_calls_misreport : twoBlocks.Blocks ∧ twoBlocks.Fresh ∧
    (twoBlocks.allocArray 2 1 0x1000000000).map (fun x => (x.1, x.2.1)) = some ([0x1017000, 0x1016000], 1) ∧
    ¬ twoBlocks.AllocArrayOk 2 1 0x1000000000 ∧
    ∃ t, twoBlocks.step (.allocArray 2 1 0x1000000000) = some t ∧
      (t.freeArrayReturns [0x1017000, 0x1016000]).2 = 0 ∧
      t.released (t.freeArrayReturns [0x1017000, 0x1016000]).1 = 2 := by
  refine ⟨twoBlocks_blocks, twoBlocks_fresh, by decide, ?_, _, rfl, by decide, by decide⟩
  rintro ⟨pages, r, t, returns, count, amount, -⟩
  have known : (twoBlocks.allocArray 2 1 0x1000000000).map (fun x => (x.1, x.2.1)) =
      some ([0x1017000, 0x1016000], 1) := by decide
  rw [returns] at known
  cases known
  cases count

end PreTeO.Mem
