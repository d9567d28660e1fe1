import PreTeO.Mem.PmaArray

/-!
# `free` after `alloc`

`free` gives back the pages and both counters, but every record that the run of pages touches keeps the type `alloc`
gave it. A record that had none is closed to other types from then on, so that later searches see the difference.
-/

namespace PreTeO.Mem
set_option autoImplicit false
open PreTeO.Lib

/-- What a call answers. -/
inductive Reply where
  | address (addr : Nat)
  | count (n : Nat)
  | pages (pages : List Nat) (r : Nat)
deriving DecidableEq, Repr

/-- One call with its answer. -/
def Pma.answer (s : Pma) : Request → Option (Reply × Pma)
  | .alloc npages type limit => (s.alloc npages type limit).map fun (addr, t) => (.address addr, t)
  | .free addr npages =>
    let (t, r) := s.free addr npages
    some (.count r, t)
  | .allocArray npages type limit =>
    (s.allocArray npages type limit).map fun (pages, r, t) => (.pages pages r, t)
  | .freeArray pages =>
    let (t, r) := s.freeArrayReturns pages
    some (.count r, t)
  | .allocAt addr npages type =>
    let (t, r) := s.allocAt addr npages type
    some (.count r, t)

/-- The answers to a sequence of calls; `none` if one of them leaves `m_ram`. -/
def Pma.answers : List Request → Pma → Option (List Reply)
  | [], _ => some []
  | request :: rest, s =>
    match s.answer request with
    | none => none
    | some (reply, t) => (Pma.answers rest t).map (reply :: ·)

/-- The arguments have the widths of the source: numbers of pages 32 bits, types 8 and addresses 64. -/
def Request.Wide : Request → Prop
  | .alloc npages type limit => npages < 2 ^ 32 ∧ type < 2 ^ 8 ∧ limit < 2 ^ 64
  | .free addr npages => addr < 2 ^ 64 ∧ npages < 2 ^ 32
  | .allocArray npages type limit => npages < 2 ^ 32 ∧ type < 2 ^ 8 ∧ limit < 2 ^ 64
  | .freeArray pages => pages.length < 2 ^ 32 ∧ ∀ page ∈ pages, page < 2 ^ 64
  | .allocAt addr npages type => addr < 2 ^ 64 ∧ npages < 2 ^ 32 ∧ type < 2 ^ 8

/-- `free` of the pages returns their number, and from then on every sequence of calls is answered as in `s`. -/
def Pma.FreeUndoes (s t : Pma) (addr npages : Nat) : Prop :=
  (t.free addr npages).2 = npages ∧
    ∀ requests : List Request, (∀ request ∈ requests, request.Wide) →
      Pma.answers requests (t.free addr npages).1 = Pma.answers requests s

/-- A call with its answer makes the step. -/
theorem Pma.answer_step (s : Pma) (request : Request) : (s.answer request).map (·.2) = s.step request := by
  cases request with
  | alloc npages type limit =>
    simp only [Pma.answer, Pma.step, Option.map_map]
    rfl
  | free addr npages => rfl
  | allocArray npages type limit =>
    simp only [Pma.answer, Pma.step, Option.map_map]
    rfl
  | freeArray pages => rfl
  | allocAt addr npages type => rfl

/-! ## A block is its bits and types -/

theorem Rec.eq_of_bits {r r' : Rec} (counted : r.Counted) (counted' : r'.Counted)
    (bits : ∀ j, j < 24 → r.bmp.getLsbD j = r'.bmp.getLsbD j) (type : r.type = r'.type) : r = r' := by
  have same : r.bmp = r'.bmp := BitVec.eq_of_getLsbD_eq bits
  unfold Rec.Counted at counted counted'
  rw [same, ← counted'] at counted
  cases r
  cases r'
  simp_all only

theorem Ram.eq_of_bits {b b' : Ram} (counted : b.Counted) (counted' : b'.Counted) (addr : b.addr = b'.addr)
    (length : b.recs.length = b'.recs.length) (bits : ∀ p, b.taken p = b'.taken p)
    (types : ∀ (i : Nat) (r r' : Rec), b.recs[i]? = some r → b'.recs[i]? = some r' → r.type = r'.type) : b = b' := by
  have recs : b.recs = b'.recs := by
    refine List.ext_getElem length fun i inside inside' => ?_
    have get := List.getElem?_eq_getElem inside
    have get' := List.getElem?_eq_getElem inside'
    refine Rec.eq_of_bits (counted.recs _ (List.getElem_mem inside)) (counted'.recs _ (List.getElem_mem inside')) ?_
      (types i _ _ get get')
    intro j small
    have page := bits (24 * i + (23 - j))
    rw [Ram.taken, Ram.taken, takenIn_get get (by omega), takenIn_get get' (by omega),
      show 23 - (23 - j) = j by omega] at page
    exact page
  have free : b.nfree = b'.nfree := by
    rw [counted.nfree, counted'.nfree, recs]
  cases b
  cases b'
  simp_all only

/-! ## The pair of calls -/

/-- The block after a run of free pages was set and cleared again: the records the run touches have the type. -/
structure Ram.Retyped (b b' : Ram) (page npages type : Nat) : Prop where
  addr : b'.addr = b.addr
  length : b'.recs.length = b.recs.length
  counted : b'.Counted
  bits : ∀ p, b'.taken p = b.taken p
  types : ∀ (i : Nat) (r r' : Rec), b.recs[i]? = some r → b'.recs[i]? = some r' →
    r'.type = if Touches page npages i then type % 2 ^ 3 else r.type

theorem Ram.Retyped.eq_iff {b b' : Ram} {page npages type : Nat} (retyped : b.Retyped b' page npages type)
    (counted : b.Counted) :
    b' = b ↔ ∀ (i : Nat) (r : Rec), b.recs[i]? = some r → Touches page npages i → r.type = type % 2 ^ 3 := by
  constructor
  · rintro rfl i r get touches
    have rule := retyped.types i r r get get
    rwa [if_pos touches] at rule
  · intro typed
    refine Ram.eq_of_bits retyped.counted counted retyped.addr retyped.length retyped.bits ?_
    intro i r' r get' get
    rw [retyped.types i r r' get get']
    split
    · next touches => exact (typed i r get touches).symm
    · rfl

section Pair
variable {s : Pma}

/-- The types of the records of the block after `set_bits`. -/
theorem Pma.setBits_types {p : Position} {b b' : Ram} (at_b : s.At p b) {count type k : Nat} {set : Bool}
    (run : s.setBits p count type set = ({ s with ram := s.ram.set p.block b' }, k)) {i : Nat} {r' : Rec}
    (get : b'.recs[i]? = some r') :
    ∃ r, b.recs[i]? = some r ∧ r'.type = if Touches p.page count i then type % 2 ^ 3 else r.type := by
  have bound := (List.getElem?_eq_some_iff.mp at_b.block).1
  have same : b' = (b.setBits p.index p.bit count type set).1 := by
    simp only [Pma.setBits, at_b.block] at run
    have row := congrArg (fun x : Pma × Nat => x.1.ram[p.block]?) run
    simpa [bound] using row.symm
  rw [same] at get
  exact Ram.setBits_type at_b.index at_b.bit count type set get

theorem Pma.typeAt_eq {p : Position} {b : Ram} (at_b : s.At p b) :
    ∃ r, b.recs[p.index]? = some r ∧ s.typeAt p = r.type := by
  have get := List.getElem?_eq_getElem at_b.index
  refine ⟨_, get, ?_⟩
  simp only [Pma.typeAt, at_b.block, get]

/-- The record of the first page of a run is touched by it. -/
theorem Touches.first {p : Position} {n : Nat} (small : p.bit < 24) (pos : 0 < n) : Touches p.page n p.index := by
  unfold Touches Position.page
  omega

/-- Clearing a run of pages that was just set. -/
theorem Pma.Counts.setBits_clear (counts : s.Counts) {p : Position} {b : Ram} (at_b : s.At p b) {n : Nat}
    (free : FreeRun b.recs p.page n) (type : Nat) :
    ∃ t b', s.setBits p n type true = (t, n) ∧
      t.setBits p n (t.typeAt p) false = ({ s with ram := s.ram.set p.block b' }, n) ∧
      b.Retyped b' p.page n type := by
  have bound := (List.getElem?_eq_some_iff.mp at_b.block).1
  have room := free.inside
  rw [← Arena.npages_eq] at room
  obtain ⟨b₁, k, run, addr₁, length₁, amount, -, bits₁⟩ := counts.setBits_spec at_b n type true
  obtain rfl : k = n := by omega
  have counts₁ := counts.setBits at_b k type true
  rw [run] at counts₁
  dsimp only at counts₁
  have at_b₁ : Pma.At { s with ram := s.ram.set p.block b₁ } p b₁ :=
    ⟨List.getElem?_set_self bound, by rw [length₁]; exact at_b.index, at_b.bit⟩
  obtain ⟨first, there, typed⟩ := Pma.typeAt_eq at_b₁
  obtain ⟨b₂, k', run', addr₂, length₂, amount', counted₂, bits₂⟩ := counts₁.setBits_spec at_b₁ k first.type false
  have pages : b₁.npages = b.npages := Ram.npages_congr length₁
  obtain rfl : k' = k := by omega
  refine ⟨_, b₂, run, ?_, ⟨addr₂.trans addr₁, length₂.trans length₁, counted₂, fun x => ?_, ?_⟩⟩
  · rw [typed, run', List.set_set]
  · rw [bits₂ x, bits₁ x]
    split
    · next inside => exact (free.free x inside.1 inside.2).symm
    · rfl
  · intro i r r' get get'
    obtain ⟨r₁, get₁, rule'⟩ := Pma.setBits_types at_b₁ run' get'
    obtain ⟨r₀, get₀, rule⟩ := Pma.setBits_types at_b run get₁
    rw [get] at get₀
    cases get₀
    by_cases touches : Touches p.page k' i
    · -- the type that `free` uses is that of the first record, which `alloc` has just set
      obtain ⟨_, -, start⟩ := Pma.setBits_types at_b run there
      rw [if_pos (Touches.first at_b.bit touches.1)] at start
      rw [if_pos touches] at rule' ⊢
      rw [rule', start, Nat.mod_mod]
    · rw [if_neg touches] at rule rule' ⊢
      rw [rule', rule]

/-- A free run at the place `find` found is handed out. -/
theorem Pma.Counts.alloc_found (counts : s.Counts) {limit type npages : Nat} {p : Position} {b : Ram}
    (found : s.find limit type npages = some (some p)) (at_b : s.At p b) (free : FreeRun b.recs p.page npages) :
    s.alloc npages type limit = some (b.addr + p.page * s.pageSize, (s.setBits p npages type true).1) := by
  obtain ⟨b', run, -, -, address, -⟩ := counts.take at_b free type
  unfold Pma.alloc
  rw [found]
  dsimp only
  rw [run]
  dsimp only
  rw [if_pos rfl, address]

theorem Ram.RunBelow.freeRun {b : Ram} {pageSize type limit npages q : Nat}
    (run : b.RunBelow pageSize type limit npages q) : FreeRun b.recs q npages := by
  refine ⟨?_, fun x low high => (run.usable x low high).1⟩
  rw [← Arena.npages_eq]
  exact run.inside

/-- The pair of calls changes one block, in the types of the records that the run touches. -/
theorem Pma.Counts.free_alloc (counts : s.Counts) (blocks : s.Blocks) {npages type limit addr : Nat} {u : Pma}
    (pos : 0 < npages) (short : npages < 2 ^ 32) (small : limit < 2 ^ 64)
    (call : s.alloc npages type limit = some (addr, u)) (nonnull : addr ≠ 0) :
    ∃ i b b' q, s.ram[i]? = some b ∧ s.HighestRun type limit npages b q ∧ addr = b.addr + q * s.pageSize ∧
      b.addr + b.npages * s.pageSize < 2 ^ 64 ∧ b.Retyped b' q npages type ∧
      u.free addr npages = ({ s with ram := s.ram.set i b' }, npages) := by
  have shape := Pma.alloc_shape call
  cases found : s.find limit type npages with
  | none =>
    simp only [Pma.alloc, found] at call
    cases call
  | some place =>
    cases place with
    | none =>
      simp only [Pma.alloc, found] at call
      cases call
      exact absurd rfl nonnull
    | some p =>
      obtain ⟨b, at_b, highest, fits⟩ := blocks.find counts.recsCounted pos short small found
      have free := highest.run.freeRun
      obtain ⟨t, b', set, clear, retyped⟩ := counts.setBits_clear at_b free type
      rw [counts.alloc_found found at_b free, set] at call
      cases call
      have place := blocks.addressToPosition at_b.block fits (Arena.At.page_lt at_b)
      have same : (⟨p.block, p.page / maxRecAmount, p.page % maxRecAmount⟩ : Position) = p := by
        have := at_b.bit
        unfold Position.page maxRecAmount
        rw [show (24 * p.index + p.bit) / 24 = p.index by omega, show (24 * p.index + p.bit) % 24 = p.bit by omega]
      rw [same, ← Pma.addressToPosition_shape shape] at place
      refine ⟨p.block, b, b', p.page, at_b.block, highest, rfl, fits, retyped, ?_⟩
      unfold Pma.free
      rw [place]
      exact clear

/-- Setting or clearing no page changes nothing. -/
theorem Pma.setBits_zero (p : Position) (type : Nat) (set : Bool) : s.setBits p 0 type set = (s, 0) := by
  have recs : ∀ (recs : List Rec) (n nfree : Nat), setRecords set type 0 recs n nfree 0 = (recs, nfree, 0) := by
    intro recs n nfree
    cases recs <;> rfl
  unfold Pma.setBits
  split
  · rfl
  · next b get =>
    have same : b.setBits p.index p.bit 0 type set = (b, 0) := by
      simp only [Ram.setBits, recs, List.take_append_drop]
    obtain ⟨bound, here⟩ := List.getElem?_eq_some_iff.mp get
    rw [same]
    dsimp only
    rw [← here, List.set_getElem_self]

/-- A call for no page and the `free` after it change nothing. -/
theorem Pma.free_alloc_zero {type limit addr : Nat} {u : Pma} (call : s.alloc 0 type limit = some (addr, u)) :
    u.free addr 0 = (s, 0) := by
  have same : u = s := by
    unfold Pma.alloc at call
    split at call
    · cases call
    · cases call
      rfl
    · rw [Pma.setBits_zero] at call
      dsimp only at call
      rw [if_pos rfl] at call
      cases call
      rfl
  unfold Pma.free
  split
  · rw [same]
  · rw [Pma.setBits_zero, same]

/-! ## What a type hides -/

/-- A page address belongs to one page of one block. -/
theorem Pma.Blocks.page_unique (blocks : s.Blocks) {i j q x : Nat} {b c : Ram} (get : s.ram[i]? = some b)
    (get' : s.ram[j]? = some c) (inside : q < b.npages) (inside' : x < c.npages)
    (same : b.addr + q * s.pageSize = c.addr + x * s.pageSize) : b = c ∧ q = x := by
  have positive := blocks.positive
  by_cases differ : i = j
  · subst differ
    rw [get] at get'
    cases get'
    exact ⟨rfl, Nat.eq_of_mul_eq_mul_right positive (Nat.add_left_cancel same)⟩
  · have there := Arena.page_in_area positive inside'
    rw [← same] at there
    exact absurd there (Set.disjoint_left.mp (blocks.apart get get' differ) (Arena.page_in_area positive inside))

/-- With the limit right above a free page, the page is handed out exactly if its record takes the type. -/
theorem Pma.Counts.alloc_page_iff (counts : s.Counts) (blocks : s.Blocks) {i x type : Nat} {b : Ram}
    (get : s.ram[i]? = some b) (fits : b.addr + b.npages * s.pageSize < 2 ^ 64) (inside : x < b.npages)
    (free : b.taken x = false) (nonnull : b.addr + x * s.pageSize ≠ 0) :
    (∃ t, s.alloc 1 type (b.addr + (x + 1) * s.pageSize) = some (b.addr + x * s.pageSize, t)) ↔
      b.takesType type x = true := by
  have positive := blocks.positive
  have next : (x + 1) * s.pageSize = x * s.pageSize + s.pageSize := Nat.succ_mul x s.pageSize
  have below : (x + 1) * s.pageSize ≤ b.npages * s.pageSize := Nat.mul_le_mul_right _ inside
  constructor
  · rintro ⟨t, call⟩
    obtain ⟨j, c, -, q, get', highest, same, -⟩ := counts.free_alloc blocks (by decide) (by decide) (by omega) call nonnull
    have room : q < c.npages := by
      have := highest.run.inside
      omega
    obtain ⟨rfl, rfl⟩ := blocks.page_unique get get' inside room same
    exact Ram.takesType_iff.mpr (highest.run.usable x (le_refl x) (by omega)).2
  · intro takes
    have run : b.RunBelow s.pageSize type (b.addr + (x + 1) * s.pageSize) 1 x := by
      refine ⟨by omega, fun p low high => ?_, by omega⟩
      obtain rfl : p = x := by omega
      exact ⟨free, Ram.takesType_iff.mp takes⟩
    -- the search starts in this block, or in one below
    have ends : ∀ c, s.startBlock (b.addr + (x + 1) * s.pageSize) (s.ram.length - 1) = some c →
        c.addr + c.npages * s.pageSize < 2 ^ 64 := by
      intro c start
      obtain ⟨j, -, get', less, -⟩ := startBlock_some start
      rcases Nat.lt_trichotomy i j with after | rfl | before
      · have := blocks.sorted i j b c get get' after
        omega
      · rw [get] at get'
        cases get'
        exact fits
      · have := blocks.sorted j i c b get' get before
        omega
    obtain ⟨place, found, settles⟩ : ∃ place, s.find (b.addr + (x + 1) * s.pageSize) type 1 = some place ∧
        s.Found type (b.addr + (x + 1) * s.pageSize) 1 (s.ram.length - 1) place :=
      find_settles blocks counts.recsCounted (by decide) (by decide) (List.ne_nil_of_mem (List.mem_of_getElem? get)) ends
    cases place with
    | none =>
      have bound := (List.getElem?_eq_some_iff.mp get).1
      exact absurd ((Ram.runBelow_iff positive (by decide)).mp run) (settles i b (by omega) get x)
    | some p =>
      obtain ⟨c, at_c, highest⟩ := settles.highest blocks (by decide)
      have higher := highest.above b (List.mem_of_getElem? get) x run
      have under := highest.run.below
      rw [Nat.add_mul, Nat.one_mul] at under
      have same : c.addr + p.page * s.pageSize = b.addr + x * s.pageSize := by omega
      have call := counts.alloc_found found at_c highest.run.freeRun
      rw [same] at call
      exact ⟨_, call⟩

/-- Two different types of a record, one of 8 bits, are told apart by some type asked for. -/
theorem exists_type_between {a a' : Nat} (wide : a < 2 ^ 8) (differ : a ≠ a') :
    ∃ type, type < 2 ^ 8 ∧ ¬ ((a = 0 ∨ a = type) ↔ (a' = 0 ∨ a' = type)) := by
  by_cases untyped : a = 0 ∨ a' = 0
  · by_cases one : a = 1 ∨ a' = 1
    · exact ⟨2, by decide, by omega⟩
    · exact ⟨1, by decide, by omega⟩
  · exact ⟨a, wide, by omega⟩

theorem Pma.answers_alloc (npages type limit addr : Nat) :
    Pma.answers [.alloc npages type limit] s = some [.address addr] ↔ ∃ t, s.alloc npages type limit = some (addr, t) := by
  simp only [Pma.answers, Pma.answer]
  cases s.alloc npages type limit with
  | none => simp
  | some result =>
    obtain ⟨found, t⟩ := result
    simp

/-- Two states with the blocks at the same places that differ in the type of a free page answer some call in different
ways. -/
theorem Pma.Counts.told_apart {s' : Pma} (counts : s.Counts) (counts' : s'.Counts) (blocks : s.Blocks)
    (shape : s'.shape = s.shape) {i y : Nat} {b b' : Ram} (get : s.ram[i]? = some b) (get' : s'.ram[i]? = some b')
    (fits : b.addr + b.npages * s.pageSize < 2 ^ 64) (inside : y < b.npages) (free : b.taken y = false)
    (free' : b'.taken y = false) (nonnull : b.addr + y * s.pageSize ≠ 0) {r r' : Rec}
    (record : b.recs[y / maxRecAmount]? = some r) (record' : b'.recs[y / maxRecAmount]? = some r')
    (wide : r.type < 2 ^ 8) (differ : r.type ≠ r'.type) :
    ∃ request : Request, request.Wide ∧ Pma.answers [request] s' ≠ Pma.answers [request] s := by
  obtain ⟨b₀, get₀, addr, length⟩ := Pma.shape_back shape get'
  rw [get] at get₀
  cases get₀
  have size := (Prod.mk.inj shape).1
  have pages := Ram.npages_congr length
  have top : (y + 1) * s.pageSize ≤ b.npages * s.pageSize := Nat.mul_le_mul_right _ inside
  obtain ⟨type, byte, between⟩ := exists_type_between wide differ
  refine ⟨.alloc 1 type (b.addr + (y + 1) * s.pageSize), ⟨by decide, byte, by omega⟩, fun same => ?_⟩
  have first : _ ↔ b.takesType type y = true := counts.alloc_page_iff blocks get fits inside free nonnull
  have second : _ ↔ b'.takesType type y = true :=
    counts'.alloc_page_iff (blocks.of_shape shape) get' (by rw [addr, pages, size]; exact fits)
      (by rw [pages]; exact inside) free' (by rw [addr, size]; exact nonnull)
  rw [← Pma.answers_alloc, Ram.takesType_iff, record] at first
  rw [← Pma.answers_alloc, Ram.takesType_iff, record', addr, size, same, first] at second
  simp only [Option.some.injEq, exists_eq_left'] at second
  exact between second

end Pair

/-- `free` after `alloc` undoes it exactly if every record that the highest run touches had the type before. -/
theorem free_undoes_alloc_iff {s t u : Pma} (blocks : s.Blocks) (fresh : s.Fresh)
    (reach : Reach Pma.step (fun _ request => request.Sized) s t) {npages type limit addr : Nat} (short : npages < 2 ^ 32)
    (wide : type < 2 ^ 8) (small : limit < 2 ^ 64) (call : t.alloc npages type limit = some (addr, u))
    (nonnull : addr ≠ 0) :
    t.FreeUndoes u addr npages ↔
      ∀ b ∈ t.ram, ∀ q, t.HighestRun type limit npages b q →
        ∀ (i : Nat) (r : Rec), b.recs[i]? = some r → Touches q npages i → r.type = type % 2 ^ 3 := by
  obtain ⟨counts, same⟩ := fresh.run blocks reach
  have there := blocks.of_shape same
  rcases Nat.eq_zero_or_pos npages with rfl | pos
  · have undone := Pma.free_alloc_zero call
    unfold Pma.FreeUndoes
    rw [undone]
    refine ⟨fun _ b _ q _ i r _ touches => absurd touches.1 (by decide), fun _ => ⟨rfl, fun _ _ => rfl⟩⟩
  · obtain ⟨i, b, b', q, get, highest, start, fits, retyped, undone⟩ :=
      counts.free_alloc there pos short small call nonnull
    have member := List.mem_of_getElem? get
    have bound := (List.getElem?_eq_some_iff.mp get).1
    have unique : ∀ c ∈ t.ram, ∀ x, t.HighestRun type limit npages c x → c = b ∧ x = q := by
      intro c inside x other
      obtain ⟨j, get'⟩ := List.getElem?_of_mem inside
      have equal : c.addr + x * t.pageSize = b.addr + q * t.pageSize :=
        Nat.le_antisymm (highest.above c inside x other.run) (other.above b member q highest.run)
      have room := other.run.inside
      have room' := highest.run.inside
      exact there.page_unique get' get (by omega) (by omega) equal
    constructor
    · rintro ⟨-, answers⟩ c inside x other j r record touches
      obtain ⟨rfl, rfl⟩ := unique c inside x other
      rw [undone] at answers
      dsimp only at answers
      by_contra differ
      -- a page of the run in this record: free before and after, and usable before
      obtain ⟨y, low, high, number⟩ : ∃ y, x ≤ y ∧ y < x + npages ∧ y / maxRecAmount = j := by
        obtain ⟨-, first, last⟩ := touches
        refine ⟨max x (24 * j), by omega, by omega, ?_⟩
        unfold maxRecAmount
        omega
      have room : y < c.npages := by
        have := highest.run.inside
        omega
      obtain ⟨free, r₁, record₁, fine⟩ := highest.run.usable y low high
      rw [number, record] at record₁
      cases record₁
      obtain ⟨r', record'⟩ : ∃ r', b'.recs[j]? = some r' := by
        have := (List.getElem?_eq_some_iff.mp record).1
        exact ⟨_, List.getElem?_eq_getElem (show j < b'.recs.length by rw [retyped.length]; exact this)⟩
      have typed := retyped.types j r r' record record'
      rw [if_pos touches] at typed
      -- the state after both calls
      have shape : Pma.shape { t with ram := t.ram.set i b' } = t.shape := by
        have first := Pma.alloc_shape call
        have second := Pma.step_shape (show u.step (.free addr npages) = some (u.free addr npages).1 from rfl)
        rw [undone] at second
        exact second.trans first
      have counts' : Pma.Counts { t with ram := t.ram.set i b' } := by
        have after := (counts.alloc short call).free addr npages
        rw [undone] at after
        exact after
      have place := Nat.mul_le_mul_right t.pageSize low
      obtain ⟨request, proper, apart⟩ := counts.told_apart counts' there shape get (List.getElem?_set_self bound) fits
        room free ((retyped.bits y).trans free) (by omega) (by rw [number]; exact record)
        (by rw [number]; exact record') (by omega) (fun equal => differ (equal.trans typed))
      refine apart (answers [request] ?_)
      intro other single
      rw [List.mem_singleton.mp single]
      exact proper
    · intro typed
      have whole : b' = b := (retyped.eq_iff (counts.counted b member)).mpr (typed b member q highest)
      have back : t.ram.set i b = t.ram := by
        obtain ⟨_, here⟩ := List.getElem?_eq_some_iff.mp get
        rw [← here, List.set_getElem_self]
      unfold Pma.FreeUndoes
      rw [undone, whole, back]
      exact ⟨rfl, fun _ _ => rfl⟩

/-- The second page of a type comes from the record that the first one has marked. -/
theorem free_undoes_alloc_twoBlocks :
    ∃ t u, twoBlocks.step (.alloc 1 1 0x1000000000) = some t ∧ t.alloc 1 1 0x1000000000 = some (0x1016000, u) ∧
      u ≠ t ∧ t.FreeUndoes u 0x1016000 1 := by
  have sized : Request.Sized (.alloc 1 1 0x1000000000) := show 1 < 2 ^ 32 by decide
  obtain ⟨t, step⟩ : ∃ t, twoBlocks.step (.alloc 1 1 0x1000000000) = some t := ⟨_, rfl⟩
  have reach : Reach Pma.step (fun _ request => request.Sized) twoBlocks t :=
    Reach.snoc (Reach.refl twoBlocks) sized step
  cases step
  refine ⟨_, _, rfl, rfl, by decide, ?_⟩
  refine (free_undoes_alloc_iff twoBlocks_blocks twoBlocks_fresh reach (by decide) (show 1 < 2 ^ 8 by decide)
    (show 0x1000000000 < 2 ^ 64 by decide) rfl (by decide)).mpr ?_
  intro b member q highest i r record touches
  rcases List.mem_cons.mp member with rfl | member
  · -- no run of the lower block is the highest
    have run := (Ram.eligible_iff (by decide)).mp (show Ram.eligible ⟨0x1000000, [⟨1#24, 1, 1⟩], 23⟩ 4096 1
      0x1000000000 22 = true by decide)
    have above : 0x1000000 + 22 * 4096 ≤ 0x100000 + q * 4096 := highest.above _ (by decide) 22 run
    have inside : q + 1 ≤ 24 := highest.run.inside
    omega
  · obtain rfl := List.mem_singleton.mp member
    cases i with
    | zero =>
      cases record
      rfl
    | succ i => cases record

/-- A page is handed out and given back. A call for a page of another type got the page before, and gets one of the
lower block now. -/
theorem free_leaves_type : twoBlocks.Blocks ∧ twoBlocks.Fresh ∧
    ∃ u, twoBlocks.alloc 1 1 0x1000000000 = some (0x1017000, u) ∧ (u.free 0x1017000 1).2 = 1 ∧
      Pma.answers [.alloc 1 2 0x1000000000] twoBlocks = some [.address 0x1017000] ∧
      Pma.answers [.alloc 1 2 0x1000000000] (u.free 0x1017000 1).1 = some [.address 0x117000] ∧
      ¬ twoBlocks.FreeUndoes u 0x1017000 1 := by
  refine ⟨twoBlocks_blocks, twoBlocks_fresh, _, rfl, by decide, by decide, by decide, ?_⟩
  rintro ⟨-, answers⟩
  have same := answers [.alloc 1 2 0x1000000000] (by
    simp only [List.mem_singleton, forall_eq]
    exact ⟨by decide, by decide, by decide⟩)
  exact absurd same (by decide)

end PreTeO.Mem
