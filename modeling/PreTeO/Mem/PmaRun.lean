import PreTeO.Mem.PmaFind

/-!
# Page accounting over whole runs

The pages that were handed out and not given back form the live ranges, kept as a history variable: an address and a
number of pages each. In every state the bits of the records are exactly the pages of the live ranges, and both levels
of counters agree with the bits.
-/

namespace PreTeO.Mem
set_option autoImplicit false
open PreTeO.Lib

/-- The allocator with its live ranges. -/
structure Arena where
  pma : Pma
  live : List (Nat × Nat)

/-- The bytes of a range of pages. -/
def extent (pageSize : Nat) (range : Nat × Nat) : Set Nat := Set.Ico range.1 (range.1 + range.2 * pageSize)

/-- A live range without one of its pages. -/
def splitAt (pageSize page : Nat) (range : Nat × Nat) : List (Nat × Nat) :=
  if range.1 ≤ page ∧ page < range.1 + range.2 * pageSize then
    let i := (page - range.1) / pageSize
    [(range.1, i), (range.1 + (i + 1) * pageSize, range.2 - (i + 1))]
  else [range]

/-- The calls of the allocator. -/
inductive Request where
  | alloc (npages type limit : Nat)
  | free (addr npages : Nat)
  | allocArray (npages type limit : Nat)
  | freeArray (pages : List Nat)
  | allocAt (addr npages type : Nat)

/-- The start of the page an address lies in. -/
def pageOf (pageSize addr : Nat) : Nat := addr - addr % pageSize

/-- The live ranges after a page was given back. -/
def dropPage (pageSize : Nat) (live : List (Nat × Nat)) (page : Nat) : List (Nat × Nat) :=
  live.flatMap (splitAt pageSize (pageOf pageSize page))

/-- The live ranges after the pages of an array were given back. -/
def dropPages (pageSize : Nat) : List (Nat × Nat) → List Nat → List (Nat × Nat)
  | live, [] => live
  | live, page :: rest => dropPages pageSize (dropPage pageSize live page) rest

/-- Some live range holds the byte. -/
def CoveredBy (pageSize : Nat) (live : List (Nat × Nat)) (x : Nat) : Prop := ∃ range ∈ live, x ∈ extent pageSize range

/-- Every page of the array is live when its turn comes. -/
def LivePages (pageSize : Nat) : List (Nat × Nat) → List Nat → Prop
  | _, [] => True
  | live, page :: rest => CoveredBy pageSize live (pageOf pageSize page) ∧ LivePages pageSize (dropPage pageSize live page) rest

namespace Arena

/-- One call. A null pointer gives nothing out. -/
def step (h : Arena) : Request → Option Arena
  | .alloc npages type limit =>
    match h.pma.alloc npages type limit with
    | none => none
    | some (addr, t) => some { pma := t, live := if addr = 0 then h.live else (addr, npages) :: h.live }
  | .free addr npages => some { pma := (h.pma.free addr npages).1, live := h.live.erase (addr, npages) }
  | .allocArray npages type limit =>
    match h.pma.allocArray npages type limit with
    | none => none
    | some (pages, _, t) => some { pma := t, live := pages.map (·, 1) ++ h.live }
  | .freeArray pages => some { pma := Pma.freeArray pages h.pma, live := dropPages h.pma.pageSize h.live pages }
  | .allocAt addr npages type =>
    some { pma := (h.pma.allocAt addr npages type).1, live := (pageOf h.pma.pageSize addr, npages) :: h.live }

/-- Some live range holds the byte. -/
def Covered (h : Arena) (x : Nat) : Prop := CoveredBy h.pma.pageSize h.live x

/-- Numbers of pages have 32 bits; only live ranges and live pages are given back, and only free pages of a block are
asked for by address. -/
def Proper (h : Arena) : Request → Prop
  | .alloc npages _ _ => npages < 2 ^ 32
  | .free addr npages => (addr, npages) ∈ h.live
  | .allocArray npages _ _ => npages < 2 ^ 32
  | .freeArray pages => LivePages h.pma.pageSize h.live pages
  | .allocAt addr npages _ => npages < 2 ^ 32 ∧
    (∃ b ∈ h.pma.ram, pageOf h.pma.pageSize addr ∈ b.area h.pma.pageSize ∧
      pageOf h.pma.pageSize addr + npages * h.pma.pageSize ≤ b.addr + b.npages * h.pma.pageSize) ∧
    ∀ range ∈ h.live,
      Disjoint (extent h.pma.pageSize range) (extent h.pma.pageSize (pageOf h.pma.pageSize addr, npages))

/-- The accounts are right. -/
structure Balanced (h : Arena) : Prop where
  amount : ∀ b ∈ h.pma.ram, ∀ r ∈ b.recs, r.amount = ones r.bmp
  nfree : ∀ b ∈ h.pma.ram, b.nfree = (b.recs.map fun r => 24 - r.amount).sum
  bits : ∀ b ∈ h.pma.ram, ∀ p, p < b.npages → (b.taken p = true ↔ h.Covered (b.addr + p * h.pma.pageSize))
  apart : h.live.Pairwise fun x y => Disjoint (extent h.pma.pageSize x) (extent h.pma.pageSize y)
  inside : ∀ range ∈ h.live, ∃ b ∈ h.pma.ram, b.addr ≤ range.1 ∧
    range.1 + range.2 * h.pma.pageSize ≤ b.addr + b.npages * h.pma.pageSize

/-! ## The invariant -/

/-- A range is a run of pages of block `i`. -/
def PlacedAt (s : Pma) (range : Nat × Nat) (i : Nat) (b : Ram) (q : Nat) : Prop :=
  s.ram[i]? = some b ∧ range.1 = b.addr + q * s.pageSize ∧ q + range.2 ≤ b.npages

/-- The invariant of a run. -/
structure Account (h : Arena) : Prop where
  layout : h.pma.Layout
  counted : ∀ (i : Nat) (b : Ram), h.pma.ram[i]? = some b → b.Counted
  bits : ∀ (i : Nat) (b : Ram), h.pma.ram[i]? = some b → ∀ p, p < b.npages →
    (b.taken p = true ↔ h.Covered (b.addr + p * h.pma.pageSize))
  apart : h.live.Pairwise fun x y => Disjoint (extent h.pma.pageSize x) (extent h.pma.pageSize y)
  placed : ∀ range ∈ h.live, ∃ i b q, PlacedAt h.pma range i b q

theorem Account.balanced {h : Arena} (account : h.Account) : h.Balanced := by
  refine ⟨?_, ?_, ?_, account.apart, ?_⟩
  · intro b member r inside
    obtain ⟨i, get⟩ := List.getElem?_of_mem member
    exact (account.counted i b get).recs r inside
  · intro b member
    obtain ⟨i, get⟩ := List.getElem?_of_mem member
    exact (account.counted i b get).nfree
  · intro b member
    obtain ⟨i, get⟩ := List.getElem?_of_mem member
    exact account.bits i b get
  · intro range member
    obtain ⟨i, b, q, get, start, fits⟩ := account.placed range member
    refine ⟨b, List.mem_of_getElem? get, by omega, ?_⟩
    have := Nat.mul_le_mul_right h.pma.pageSize fits
    rw [Nat.add_mul] at this
    omega

variable {s : Pma} {h : Arena}

/-- A page of a block lies in a run of pages of the block as its number does. -/
theorem page_mem (positive : 0 < s.pageSize) {addr p q n : Nat} :
    addr + p * s.pageSize ∈ extent s.pageSize (addr + q * s.pageSize, n) ↔ q ≤ p ∧ p < q + n := by
  unfold extent
  rw [Set.mem_Ico, Nat.add_assoc, ← Nat.add_mul, Nat.add_le_add_iff_left, Nat.add_lt_add_iff_left,
    Nat.mul_le_mul_right_iff positive, Nat.mul_lt_mul_right positive]

/-- Every page of a block lies in its area. -/
theorem page_in_area (positive : 0 < s.pageSize) {b : Ram} {p : Nat} (inside : p < b.npages) :
    b.addr + p * s.pageSize ∈ b.area s.pageSize := by
  have := Nat.mul_lt_mul_of_pos_right inside positive
  exact ⟨by omega, by omega⟩

/-- A placed range lies in the area of its block. -/
theorem PlacedAt.subset {range : Nat × Nat} {i q : Nat} {b : Ram} (placed : PlacedAt s range i b q) :
    extent s.pageSize range ⊆ b.area s.pageSize := by
  obtain ⟨-, start, fits⟩ := placed
  have := Nat.mul_le_mul_right s.pageSize fits
  rw [Nat.add_mul] at this
  intro x inside
  unfold extent at inside
  rw [Set.mem_Ico, start] at inside
  exact ⟨by omega, by omega⟩

/-- A range in one block holds no page of another. -/
theorem PlacedAt.elsewhere (layout : s.Layout) {range : Nat × Nat} {i j p q : Nat} {b b' : Ram}
    (placed : PlacedAt s range j b' q) (get : s.ram[i]? = some b) (differ : i ≠ j) (inside : p < b.npages) :
    b.addr + p * s.pageSize ∉ extent s.pageSize range := by
  intro covered
  have apart := layout.apart i j b b' get placed.1 differ
  exact Set.disjoint_left.mp apart (page_in_area layout.positive inside) (placed.subset covered)

/-- Blocks are changed in place. -/
theorem Layout.set (layout : s.Layout) {i : Nat} {b b' : Ram} (get : s.ram[i]? = some b) (addr : b'.addr = b.addr)
    (length : b'.recs.length = b.recs.length) : Pma.Layout { s with ram := s.ram.set i b' } := by
  have bound := (List.getElem?_eq_some_iff.mp get).1
  have pages : b'.npages = b.npages := by rw [Ram.npages, Ram.npages, length]
  have member := List.mem_of_getElem? get
  have old : ∀ x ∈ s.ram.set i b', x = b' ∨ x ∈ s.ram := fun x inside => (List.mem_or_eq_of_mem_set inside).symm
  -- what a block of the new list was before
  have back : ∀ {j : Nat} {x : Ram}, (s.ram.set i b')[j]? = some x →
      ∃ y, s.ram[j]? = some y ∧ x.addr = y.addr ∧ x.npages = y.npages := by
    intro j x found
    rw [List.getElem?_set] at found
    split at found
    · next here =>
      subst here
      cases found
      exact ⟨b, get, addr, pages⟩
    · exact ⟨x, found, rfl, rfl⟩
  refine ⟨layout.positive, ?_, ?_, ?_, ?_, ?_⟩
  · intro x inside
    rcases old x inside with rfl | inside
    · intro none
      rw [none, List.length_nil] at length
      exact layout.records b member (List.length_eq_zero_iff.mp length.symm)
    · exact layout.records x inside
  · intro x inside
    rcases old x inside with rfl | inside
    · rw [addr]
      exact layout.nonnull b member
    · exact layout.nonnull x inside
  · intro x inside
    rcases old x inside with rfl | inside
    · rw [addr]
      exact layout.aligned b member
    · exact layout.aligned x inside
  · intro x inside
    rcases old x inside with rfl | inside
    · rw [addr, pages]
      exact layout.fits b member
    · exact layout.fits x inside
  · intro j k x y first second differ
    obtain ⟨x', first, addr₁, pages₁⟩ := back first
    obtain ⟨y', second, addr₂, pages₂⟩ := back second
    have := layout.apart j k x' y' first second differ
    unfold Ram.area at this ⊢
    rw [addr₁, pages₁, addr₂, pages₂]
    exact this

/-- `set_bits` at a position sets a run of pages of the block and keeps its counters right. -/
theorem setBits_spec (layout : s.Layout) {p : Position} {b : Ram} (at_b : s.At p b) (counted : b.Counted)
    (count type : Nat) (set : Bool) :
    ∃ b' k, s.setBits p count type set = ({ s with ram := s.ram.set p.block b' }, k) ∧ b'.addr = b.addr ∧
      b'.recs.length = b.recs.length ∧ k = min count (b.npages - p.page) ∧ b'.Counted ∧
      ∀ x, b'.taken x = if p.page ≤ x ∧ x < p.page + k then set else b.taken x := by
  have room : b.npages < 2 ^ 64 := by
    have := layout.fits b (List.mem_of_getElem? at_b.block)
    have := Nat.le_mul_of_pos_right b.npages layout.positive
    omega
  obtain ⟨b', k, run, addr, length, amount, fine, bits⟩ := Ram.setBits_spec counted room at_b.index at_b.bit count type set
  refine ⟨b', k, ?_, addr, length, amount, fine, bits⟩
  simp only [Pma.setBits, at_b.block, run]

/-- One block was changed, and the live ranges with it. -/
theorem Account.change (account : h.Account) {i : Nat} {b b' : Ram} {live : List (Nat × Nat)}
    (get : h.pma.ram[i]? = some b) (addr : b'.addr = b.addr) (length : b'.recs.length = b.recs.length)
    (counted : b'.Counted)
    (here : ∀ p, p < b.npages →
      (b'.taken p = true ↔ ∃ range ∈ live, b.addr + p * h.pma.pageSize ∈ extent h.pma.pageSize range))
    (others : ∀ (j : Nat) (x : Ram), h.pma.ram[j]? = some x → j ≠ i → ∀ p, p < x.npages →
      (h.Covered (x.addr + p * h.pma.pageSize) ↔
        ∃ range ∈ live, x.addr + p * h.pma.pageSize ∈ extent h.pma.pageSize range))
    (apart : live.Pairwise fun x y => Disjoint (extent h.pma.pageSize x) (extent h.pma.pageSize y))
    (placed : ∀ range ∈ live, ∃ j x q, PlacedAt h.pma range j x q) :
    Account ⟨{ h.pma with ram := h.pma.ram.set i b' }, live⟩ := by
  have bound := (List.getElem?_eq_some_iff.mp get).1
  have pages : b'.npages = b.npages := by rw [Ram.npages, Ram.npages, length]
  have cases : ∀ {j : Nat} {x : Ram}, (h.pma.ram.set i b')[j]? = some x →
      (j = i ∧ x = b') ∨ (j ≠ i ∧ h.pma.ram[j]? = some x) := by
    intro j x found
    rw [List.getElem?_set] at found
    split at found
    · next same =>
      subst same
      cases found
      exact Or.inl ⟨rfl, rfl⟩
    · next differ => exact Or.inr ⟨fun same => differ same.symm, found⟩
  refine ⟨Layout.set account.layout get addr length, ?_, ?_, apart, ?_⟩
  · intro j x found
    rcases cases found with ⟨-, rfl⟩ | ⟨-, old⟩
    · exact counted
    · exact account.counted j x old
  · intro j x found p inside
    rcases cases found with ⟨-, rfl⟩ | ⟨differ, old⟩
    · rw [addr]
      exact here p (by rwa [← pages])
    · rw [account.bits j x old p inside]
      exact others j x old differ p inside
  · intro range member
    obtain ⟨j, x, q, found, start, fits⟩ := placed range member
    by_cases same : j = i
    · subst same
      rw [get] at found
      cases found
      refine ⟨j, b', q, ?_, by rw [addr]; exact start, by rw [pages]; exact fits⟩
      simp [bound]
    · refine ⟨j, x, q, ?_, start, fits⟩
      simp [Ne.symm same, found]

/-- Two runs of pages without a common page share no byte. -/
theorem extent_disjoint (positive : 0 < s.pageSize) {addr q n q' n' : Nat}
    (apart : ∀ p, q ≤ p → p < q + n → q' ≤ p → p < q' + n' → False) :
    Disjoint (extent s.pageSize (addr + q * s.pageSize, n)) (extent s.pageSize (addr + q' * s.pageSize, n')) := by
  rw [Set.disjoint_left]
  intro x first second
  simp only [extent, Set.mem_Ico, Nat.add_assoc, ← Nat.add_mul] at first second
  refine apart ((x - addr) / s.pageSize) ?_ ?_ ?_ ?_
  · rw [Nat.le_div_iff_mul_le positive]
    omega
  · rw [Nat.div_lt_iff_lt_mul positive]
    omega
  · rw [Nat.le_div_iff_mul_le positive]
    omega
  · rw [Nat.div_lt_iff_lt_mul positive]
    omega

theorem npages_eq (b : Ram) : b.npages = 24 * b.recs.length := Nat.mul_comm _ _

theorem At.page_lt {p : Position} {b : Ram} (at_b : s.At p b) : p.page < b.npages := by
  have := at_b.index
  have := at_b.bit
  rw [npages_eq]
  unfold Position.page
  omega

/-- A run of free pages becomes a live range. -/
theorem Account.take (account : h.Account) {p : Position} {b : Ram} (at_b : h.pma.At p b) {n : Nat}
    (free : FreeRun b.recs p.page n) (type : Nat) :
    ∃ t, h.pma.setBits p n type true = (t, n) ∧ t.pageSize = h.pma.pageSize ∧
      t.positionToAddress p = b.addr + p.page * h.pma.pageSize ∧
      Account ⟨t, (b.addr + p.page * h.pma.pageSize, n) :: h.live⟩ := by
  have positive := account.layout.positive
  have room := free.inside
  rw [← npages_eq] at room
  obtain ⟨b', k, run, addr, length, amount, counted, bits⟩ :=
    setBits_spec account.layout at_b (account.counted p.block b at_b.block) n type true
  have whole : k = n := by omega
  subst whole
  have new : PlacedAt h.pma (b.addr + p.page * h.pma.pageSize, k) p.block b p.page := ⟨at_b.block, rfl, room⟩
  have bound := (List.getElem?_eq_some_iff.mp at_b.block).1
  refine ⟨_, run, rfl, ?_, account.change at_b.block addr length counted ?_ ?_ ?_ ?_⟩
  · have index := at_b.index
    simp only [Pma.positionToAddress, List.getElem?_set_self bound, length, if_pos index, addr, Position.page, maxRecAmount]
    rw [Nat.add_mul, Nat.mul_comm 24 p.index, Nat.add_assoc]
  · intro x inside
    rw [bits x]
    simp only [List.mem_cons, exists_eq_or_imp, page_mem positive]
    by_cases fresh : p.page ≤ x ∧ x < p.page + k
    · simp [fresh]
    · rw [if_neg fresh, account.bits p.block b at_b.block x inside]
      simp only [fresh, false_or]
      rfl
  · intro j x get differ y inside
    simp only [List.mem_cons, exists_eq_or_imp, new.elsewhere account.layout get differ inside, false_or]
    rfl
  · refine List.pairwise_cons.mpr ⟨fun range member => ?_, account.apart⟩
    obtain ⟨j, x, q, old⟩ := account.placed range member
    by_cases same : j = p.block
    · subst same
      have block := old.1
      rw [at_b.block] at block
      cases block
      obtain ⟨start, count⟩ := range
      obtain ⟨-, rfl, fits⟩ := old
      refine extent_disjoint positive fun y low high low' high' => ?_
      have taken := (account.bits p.block b at_b.block y (by omega)).mpr ⟨_, member, (page_mem positive).mpr ⟨low', high'⟩⟩
      have clear : b.taken y = false := free.free y low high
      rw [clear] at taken
      cases taken
    · exact Set.disjoint_of_subset new.subset old.subset
        (account.layout.apart p.block j b x at_b.block old.1 (Ne.symm same))
  · intro range member
    rcases List.mem_cons.mp member with rfl | old
    · exact ⟨p.block, b, p.page, new⟩
    · exact account.placed range old

/-- A run of pages leaves the live ranges. -/
theorem Account.clear (account : h.Account) {p : Position} {b : Ram} (at_b : h.pma.At p b) {n : Nat}
    (room : p.page + n ≤ b.npages) (type : Nat) {live : List (Nat × Nat)}
    (cover : ∀ x, (∃ range ∈ live, x ∈ extent h.pma.pageSize range) ↔
      h.Covered x ∧ x ∉ extent h.pma.pageSize (b.addr + p.page * h.pma.pageSize, n))
    (apart : live.Pairwise fun x y => Disjoint (extent h.pma.pageSize x) (extent h.pma.pageSize y))
    (placed : ∀ range ∈ live, ∃ j x q, PlacedAt h.pma range j x q) :
    ∃ t, h.pma.setBits p n type false = (t, n) ∧ t.pageSize = h.pma.pageSize ∧ Account ⟨t, live⟩ := by
  have positive := account.layout.positive
  obtain ⟨b', k, run, addr, length, amount, counted, bits⟩ :=
    setBits_spec account.layout at_b (account.counted p.block b at_b.block) n type false
  have whole : k = n := by omega
  subst whole
  have gone : PlacedAt h.pma (b.addr + p.page * h.pma.pageSize, k) p.block b p.page := ⟨at_b.block, rfl, room⟩
  refine ⟨_, run, rfl, account.change at_b.block addr length counted ?_ ?_ apart placed⟩
  · intro x inside
    rw [bits x, cover, page_mem positive, ← account.bits p.block b at_b.block x inside]
    by_cases cleared : p.page ≤ x ∧ x < p.page + k
    · simp [cleared]
    · simp [cleared]
  · intro j x get differ y inside
    rw [cover]
    exact ⟨fun covered => ⟨covered, gone.elsewhere account.layout get differ inside⟩, fun both => both.1⟩

/-- The order of the live ranges does not matter. -/
theorem Account.perm (account : h.Account) {live : List (Nat × Nat)} (perm : h.live.Perm live) :
    Account { h with live := live } := by
  refine ⟨account.layout, account.counted, ?_, ?_, ?_⟩
  · intro i b get p inside
    rw [account.bits i b get p inside]
    exact ⟨fun ⟨range, member, covers⟩ => ⟨range, perm.mem_iff.mp member, covers⟩,
      fun ⟨range, member, covers⟩ => ⟨range, perm.mem_iff.mpr member, covers⟩⟩
  · exact (perm.pairwise_iff fun disjoint => disjoint.symm).mp account.apart
  · intro range member
    exact account.placed range (perm.mem_iff.mpr member)

/-- `alloc` of consecutive pages. -/
theorem Account.alloc (account : h.Account) {npages type limit addr : Nat} {t : Pma} (short : npages < 2 ^ 32)
    (returns : h.pma.alloc npages type limit = some (addr, t)) :
    Account ⟨t, if addr = 0 then h.live else (addr, npages) :: h.live⟩ := by
  unfold Pma.alloc at returns
  split at returns
  · cases returns
  · cases returns
    rw [if_pos rfl]
    exact account
  · next p found =>
    obtain ⟨b, at_b, free⟩ := Pma.find_spec account.layout.positive account.layout.records short found
    obtain ⟨t', run, -, address, after⟩ := account.take at_b free type
    have nonnull := account.layout.nonnull b (List.mem_of_getElem? at_b.block)
    rw [run] at returns
    dsimp only at returns
    rw [if_pos rfl, address] at returns
    cases returns
    rw [if_neg (by omega)]
    exact after

/-- The loop of `alloc` for single pages. -/
theorem Account.allocPages (account : h.Account) {type limit n i r r' : Nat} {pages : List Nat} {t : Pma}
    (returns : Pma.allocPages type limit n i r h.pma = some (pages, r', t)) :
    Account ⟨t, pages.map (·, 1) ++ h.live⟩ := by
  induction n generalizing h i r pages with
  | zero =>
    cases returns
    exact account
  | succ n ih =>
    unfold Pma.allocPages at returns
    split at returns
    · cases returns
    · cases returns
      exact account
    · next p found =>
      obtain ⟨b, at_b, free⟩ := Pma.find_spec account.layout.positive account.layout.records (by decide) found
      obtain ⟨t', run, -, address, after⟩ := account.take at_b free type
      have nonnull := account.layout.nonnull b (List.mem_of_getElem? at_b.block)
      rw [run] at returns
      dsimp only at returns
      rw [if_pos rfl, address, if_neg (by omega)] at returns
      obtain ⟨⟨pages', r₁, u⟩, rest, same⟩ := Option.map_eq_some_iff.mp returns
      cases same
      refine (ih after rest).perm ?_
      rw [List.map_cons, List.cons_append]
      exact List.perm_middle

/-- A range without pages covers nothing. -/
theorem not_mem_empty (pageSize addr x : Nat) : x ∉ extent pageSize (addr, 0) := by
  unfold extent
  simp

/-- The live ranges without one of them. -/
theorem Account.erase_cover (account : h.Account) {range : Nat × Nat} (member : range ∈ h.live) (x : Nat) :
    (∃ other ∈ h.live.erase range, x ∈ extent h.pma.pageSize other) ↔
      h.Covered x ∧ x ∉ extent h.pma.pageSize range := by
  have perm := List.perm_cons_erase member
  have apart := (perm.pairwise_iff fun disjoint => disjoint.symm).mp account.apart
  obtain ⟨others, -⟩ := List.pairwise_cons.mp apart
  constructor
  · rintro ⟨other, old, covers⟩
    exact ⟨⟨other, List.mem_of_mem_erase old, covers⟩,
      fun twice => Set.disjoint_left.mp (others other old) twice covers⟩
  · rintro ⟨⟨other, old, covers⟩, outside⟩
    rcases List.mem_cons.mp (perm.mem_iff.mp old) with rfl | kept
    · exact absurd covers outside
    · exact ⟨other, kept, covers⟩

/-- Other live ranges for the same pages. -/
theorem Account.relive (account : h.Account) {live : List (Nat × Nat)}
    (cover : ∀ x, (∃ range ∈ live, x ∈ extent h.pma.pageSize range) ↔ h.Covered x)
    (apart : live.Pairwise fun x y => Disjoint (extent h.pma.pageSize x) (extent h.pma.pageSize y))
    (placed : ∀ range ∈ live, ∃ j x q, PlacedAt h.pma range j x q) : Account { h with live := live } := by
  refine ⟨account.layout, account.counted, fun i b get p inside => ?_, apart, placed⟩
  rw [account.bits i b get p inside]
  exact (cover _).symm

/-- `free` of a live range. -/
theorem Account.free (account : h.Account) {addr npages : Nat} (member : (addr, npages) ∈ h.live) :
    Account ⟨(h.pma.free addr npages).1, h.live.erase (addr, npages)⟩ := by
  have cover := account.erase_cover member
  have apart : (h.live.erase (addr, npages)).Pairwise _ := account.apart.sublist List.erase_sublist
  have placed : ∀ range ∈ h.live.erase (addr, npages), ∃ j x q, PlacedAt h.pma range j x q :=
    fun range kept => account.placed range (List.mem_of_mem_erase kept)
  obtain ⟨i, b, q, get, start, fits⟩ := account.placed _ member
  dsimp only at start fits
  unfold Pma.free
  rcases Nat.eq_zero_or_pos npages with none | some
  · -- a range without pages: nothing is cleared, wherever its address leads
    subst none
    cases place : h.pma.addressToPosition addr with
    | none => exact account.relive (fun x => by rw [cover]; simp [not_mem_empty]) apart placed
    | some p =>
      obtain ⟨b', at_b', -⟩ := Pma.addressToPosition_at account.layout.positive place
      have inside := At.page_lt at_b'
      obtain ⟨t, run, -, after⟩ := account.clear at_b' (n := 0) (by omega) (h.pma.typeAt p)
        (fun x => by rw [cover]; simp [not_mem_empty]) apart placed
      dsimp only
      rw [run]
      exact after
  · have place := account.layout.addressToPosition get (show q < b.npages by omega)
    rw [← start] at place
    have at_b : h.pma.At ⟨i, q / maxRecAmount, q % maxRecAmount⟩ b := by
      obtain ⟨b', at_b', -⟩ := Pma.addressToPosition_at account.layout.positive place
      have same := at_b'.block
      rw [get] at same
      cases same
      exact at_b'
    have page : Position.page ⟨i, q / maxRecAmount, q % maxRecAmount⟩ = q := Nat.div_add_mod q 24
    obtain ⟨t, run, -, after⟩ := account.clear at_b (n := npages) (by rw [page]; exact fits) (h.pma.typeAt _)
      (fun x => by rw [cover, page, start]) apart placed
    rw [place]
    dsimp only
    rw [run]
    exact after

/-- A byte lies in a run of pages as the number of its page does. -/
theorem mem_extent {pageSize : Nat} (positive : 0 < pageSize) (first n x : Nat) :
    x ∈ extent pageSize (first * pageSize, n) ↔ first ≤ x / pageSize ∧ x / pageSize < first + n := by
  unfold extent
  rw [Set.mem_Ico, ← Nat.add_mul, Nat.le_div_iff_mul_le positive, Nat.div_lt_iff_lt_mul positive]

/-- The split in numbers of pages. -/
theorem splitAt_eq {pageSize : Nat} (positive : 0 < pageSize) (page first n : Nat) :
    splitAt pageSize (page * pageSize) (first * pageSize, n) =
      if first ≤ page ∧ page < first + n then
        [(first * pageSize, page - first), ((page + 1) * pageSize, n - (page - first + 1))]
      else [(first * pageSize, n)] := by
  have numbers : (first * pageSize ≤ page * pageSize ∧ page * pageSize < first * pageSize + n * pageSize) ↔
      (first ≤ page ∧ page < first + n) := by
    rw [← Nat.add_mul, Nat.mul_le_mul_right_iff positive, Nat.mul_lt_mul_right positive]
  unfold splitAt
  dsimp only
  by_cases inside : first ≤ page ∧ page < first + n
  · rw [if_pos (numbers.mpr inside), if_pos inside, ← Nat.sub_mul, Nat.mul_div_cancel _ positive, ← Nat.add_mul,
      show first + (page - first + 1) = page + 1 by omega]
  · rw [if_neg (fun bytes => inside (numbers.mp bytes)), if_neg inside]

/-- What is left of a range is the range without the page. -/
theorem mem_splitAt {pageSize : Nat} (positive : 0 < pageSize) (page first n x : Nat) :
    (∃ piece ∈ splitAt pageSize (page * pageSize) (first * pageSize, n), x ∈ extent pageSize piece) ↔
      x ∈ extent pageSize (first * pageSize, n) ∧ x ∉ extent pageSize (page * pageSize, 1) := by
  rw [splitAt_eq positive, mem_extent positive, mem_extent positive]
  split
  · simp only [List.mem_cons, List.not_mem_nil, or_false, exists_eq_or_imp, exists_eq_left, mem_extent positive]
    omega
  · simp only [List.mem_singleton, exists_eq_left, mem_extent positive]
    omega

/-- The pieces of a range share no byte. -/
theorem splitAt_apart {pageSize : Nat} (positive : 0 < pageSize) (page first n : Nat) :
    (splitAt pageSize (page * pageSize) (first * pageSize, n)).Pairwise fun x y =>
      Disjoint (extent pageSize x) (extent pageSize y) := by
  rw [splitAt_eq positive]
  split
  · refine List.pairwise_pair.mpr (Set.disjoint_left.mpr fun x front back => ?_)
    rw [mem_extent positive] at front back
    omega
  · exact List.pairwise_singleton _ _

/-- Every live range starts at a page. -/
theorem Account.aligned (account : h.Account) {range : Nat × Nat} (member : range ∈ h.live) :
    ∃ first, range = (first * h.pma.pageSize, range.2) := by
  obtain ⟨i, b, q, get, start, -⟩ := account.placed range member
  obtain ⟨k, base⟩ := account.layout.aligned b (List.mem_of_getElem? get)
  refine ⟨k + q, ?_⟩
  rw [Nat.add_mul, Nat.mul_comm k, ← base, ← start]

theorem pageOf_eq (pageSize addr : Nat) : pageOf pageSize addr = addr / pageSize * pageSize := by
  unfold pageOf
  have := Nat.div_add_mod addr pageSize
  rw [Nat.mul_comm] at this
  omega

/-- The live ranges after a page was given back cover what they covered without the page. -/
theorem Account.drop_cover (account : h.Account) (page x : Nat) :
    (∃ range ∈ dropPage h.pma.pageSize h.live page, x ∈ extent h.pma.pageSize range) ↔
      h.Covered x ∧ x ∉ extent h.pma.pageSize (pageOf h.pma.pageSize page, 1) := by
  have positive := account.layout.positive
  unfold dropPage
  rw [pageOf_eq]
  constructor
  · rintro ⟨piece, member, covers⟩
    obtain ⟨range, old, split⟩ := List.mem_flatMap.mp member
    obtain ⟨first, same⟩ := account.aligned old
    rw [same] at split
    obtain ⟨inside, outside⟩ := (mem_splitAt positive _ first range.2 x).mp ⟨piece, split, covers⟩
    exact ⟨⟨range, old, by rw [same]; exact inside⟩, outside⟩
  · rintro ⟨⟨range, old, covers⟩, outside⟩
    obtain ⟨first, same⟩ := account.aligned old
    rw [same] at covers
    obtain ⟨piece, split, covers⟩ := (mem_splitAt positive _ first range.2 x).mpr ⟨covers, outside⟩
    rw [← same] at split
    exact ⟨piece, List.mem_flatMap.mpr ⟨range, old, split⟩, covers⟩

theorem Account.drop_apart (account : h.Account) (page : Nat) :
    (dropPage h.pma.pageSize h.live page).Pairwise fun x y => Disjoint (extent h.pma.pageSize x) (extent h.pma.pageSize y) := by
  have positive := account.layout.positive
  -- a piece lies in its range
  have within : ∀ range ∈ h.live, ∀ piece ∈ splitAt h.pma.pageSize (page / h.pma.pageSize * h.pma.pageSize) range,
      extent h.pma.pageSize piece ⊆ extent h.pma.pageSize range := by
    intro range old piece split x covers
    obtain ⟨first, same⟩ := account.aligned old
    rw [same] at split ⊢
    exact ((mem_splitAt positive _ first range.2 x).mp ⟨piece, split, covers⟩).1
  unfold dropPage
  rw [pageOf_eq]
  refine List.pairwise_flatMap.mpr ⟨fun range old => ?_, ?_⟩
  · obtain ⟨first, same⟩ := account.aligned old
    rw [same]
    exact splitAt_apart positive _ first range.2
  · refine account.apart.imp_of_mem fun {a b} left right disjoint x inA y inB => ?_
    exact Set.disjoint_of_subset (within a left x inA) (within b right y inB) disjoint

theorem Account.drop_placed (account : h.Account) (page : Nat) :
    ∀ range ∈ dropPage h.pma.pageSize h.live page, ∃ j x q, PlacedAt h.pma range j x q := by
  have positive := account.layout.positive
  intro piece member
  unfold dropPage at member
  rw [pageOf_eq] at member
  obtain ⟨range, old, split⟩ := List.mem_flatMap.mp member
  obtain ⟨first, same⟩ := account.aligned old
  obtain ⟨i, b, q, get, start, fits⟩ := account.placed range old
  have begins : first * h.pma.pageSize = b.addr + q * h.pma.pageSize := by
    rw [← start, same]
  rw [same, splitAt_eq positive] at split
  split at split
  · next inside =>
    simp only [List.mem_cons, List.not_mem_nil, or_false] at split
    rcases split with rfl | rfl
    · exact ⟨i, b, q, get, begins, by dsimp only; omega⟩
    · refine ⟨i, b, q + (page / h.pma.pageSize - first + 1), get, ?_, by dsimp only; omega⟩
      dsimp only
      rw [show page / h.pma.pageSize + 1 = first + (page / h.pma.pageSize - first + 1) by omega, Nat.add_mul,
        Nat.add_mul q, begins, Nat.add_assoc]
  · rw [List.mem_singleton] at split
    subst split
    exact ⟨i, b, q, get, begins, fits⟩

/-- Addresses in one page have one position. -/
theorem addressToPosition_pageOf (positive : 0 < h.pma.pageSize) (addr : Nat) :
    h.pma.addressToPosition (pageOf h.pma.pageSize addr) = h.pma.addressToPosition addr := by
  have whole : pageOf h.pma.pageSize addr % h.pma.pageSize = 0 := by
    rw [pageOf_eq]
    exact Nat.mul_mod_left _ _
  have same : pageOf h.pma.pageSize addr - pageOf h.pma.pageSize addr % h.pma.pageSize = addr - addr % h.pma.pageSize := by
    rw [whole]
    rfl
  simp only [Pma.addressToPosition, same]

/-- The position of a page address of a block. -/
theorem Account.position (account : h.Account) {i q addr : Nat} {b : Ram} (get : h.pma.ram[i]? = some b)
    (start : pageOf h.pma.pageSize addr = b.addr + q * h.pma.pageSize) (inside : q < b.npages) :
    ∃ p, h.pma.addressToPosition addr = some p ∧ h.pma.At p b ∧ p.page = q := by
  have place := account.layout.addressToPosition get inside
  rw [← start, addressToPosition_pageOf account.layout.positive] at place
  obtain ⟨b', at_b', -⟩ := Pma.addressToPosition_at account.layout.positive place
  have same := at_b'.block
  rw [get] at same
  cases same
  exact ⟨_, place, at_b', Nat.div_add_mod q 24⟩

/-- A live page is a page of a block. -/
theorem Account.live_page (account : h.Account) {addr : Nat} (covered : h.Covered (pageOf h.pma.pageSize addr)) :
    ∃ (i : Nat) (b : Ram) (q : Nat), h.pma.ram[i]? = some b ∧ pageOf h.pma.pageSize addr = b.addr + q * h.pma.pageSize ∧ q < b.npages := by
  have positive := account.layout.positive
  obtain ⟨range, member, covers⟩ := covered
  obtain ⟨first, same⟩ := account.aligned member
  obtain ⟨i, b, q, get, start, fits⟩ := account.placed range member
  have begins : first * h.pma.pageSize = b.addr + q * h.pma.pageSize := by
    rw [← start, same]
  rw [same, pageOf_eq, mem_extent positive, Nat.mul_div_cancel _ positive] at covers
  refine ⟨i, b, q + (addr / h.pma.pageSize - first), get, ?_, by omega⟩
  rw [pageOf_eq, Nat.add_mul, ← Nat.add_assoc, ← begins, ← Nat.add_mul,
    show first + (addr / h.pma.pageSize - first) = addr / h.pma.pageSize by omega]

/-- `free` of the pages of an array. -/
theorem Account.freeArray (account : h.Account) {pages : List Nat} (live : LivePages h.pma.pageSize h.live pages) :
    Account ⟨Pma.freeArray pages h.pma, dropPages h.pma.pageSize h.live pages⟩ := by
  induction pages generalizing h with
  | nil => exact account
  | cons page rest ih =>
    obtain ⟨covered, later⟩ := live
    obtain ⟨i, b, q, get, start, inside⟩ := account.live_page covered
    obtain ⟨p, place, at_b, number⟩ := account.position get start inside
    obtain ⟨t, run, size, after⟩ := account.clear at_b (n := 1) (by omega) (h.pma.typeAt p)
      (fun x => by rw [account.drop_cover page x, number, ← start]) (account.drop_apart page) (account.drop_placed page)
    unfold Pma.freeArray dropPages
    rw [place]
    dsimp only
    rw [run]
    dsimp only
    rw [if_pos rfl, ← size]
    rw [← size] at later after
    exact ih after later

/-- `alloc` of free pages of a block by their address. -/
theorem Account.allocAt (account : h.Account) {addr npages : Nat} (type : Nat)
    (proper : h.Proper (.allocAt addr npages type)) :
    Account ⟨(h.pma.allocAt addr npages type).1, (pageOf h.pma.pageSize addr, npages) :: h.live⟩ := by
  have positive := account.layout.positive
  obtain ⟨-, ⟨b, member, ⟨low, high⟩, fits⟩, unused⟩ := proper
  obtain ⟨i, get⟩ := List.getElem?_of_mem member
  obtain ⟨base, aligned⟩ := account.layout.aligned b member
  -- the address is that of page `q` of the block
  obtain ⟨q, start⟩ : ∃ q, pageOf h.pma.pageSize addr = b.addr + q * h.pma.pageSize := by
    rw [pageOf_eq, aligned, Nat.mul_comm _ base] at low ⊢
    refine ⟨addr / h.pma.pageSize - base, ?_⟩
    rw [← Nat.add_mul, Nat.add_sub_cancel' (Nat.le_of_mul_le_mul_right low positive)]
  rw [start] at high fits unused ⊢
  have inside : q < b.npages := Nat.lt_of_mul_lt_mul_right (Nat.lt_of_add_lt_add_left high)
  have room : q + npages ≤ b.npages := by
    rw [Nat.add_assoc, ← Nat.add_mul] at fits
    exact Nat.le_of_mul_le_mul_right (Nat.le_of_add_le_add_left fits) positive
  obtain ⟨p, place, at_b, number⟩ := account.position get start inside
  have free : FreeRun b.recs p.page npages := by
    rw [number]
    refine ⟨by rw [← npages_eq]; exact room, fun x low high => ?_⟩
    by_contra taken
    have set : b.taken x = true := by simpa [Ram.taken] using taken
    obtain ⟨range, old, covers⟩ := (account.bits i b get x (by omega)).mp set
    exact Set.disjoint_left.mp (unused range old) covers ((page_mem positive).mpr ⟨low, high⟩)
  obtain ⟨t, run, -, -, after⟩ := account.take at_b free type
  unfold Pma.allocAt
  rw [place]
  dsimp only
  rw [run, ← number]
  exact after

/-- Every proper call keeps the account. -/
theorem Account.step (account : h.Account) {request : Request} (proper : h.Proper request) {h' : Arena}
    (returns : h.step request = some h') : h'.Account := by
  cases request with
  | alloc npages type limit =>
    simp only [Arena.step] at returns
    split at returns
    · cases returns
    · next call =>
      cases returns
      exact account.alloc proper call
  | free addr npages =>
    cases returns
    exact account.free proper
  | allocArray npages type limit =>
    simp only [Arena.step] at returns
    split at returns
    · cases returns
    · next call =>
      cases returns
      exact account.allocPages call
  | freeArray pages =>
    cases returns
    exact account.freeArray proper
  | allocAt addr npages type =>
    cases returns
    exact account.allocAt type proper

end Arena

end PreTeO.Mem
