import PreTeO.Mem.SlabVisit
import Mathlib.Algebra.Order.BigOperators.Group.List
import Mathlib.Data.Multiset.OrderedMonoid

/-!
# Stores, status and destruction of a slab tree

What the owners of the objects, `_slab_status` and `_destroy_slab` do, in terms of the pages of the tree.
-/

namespace PreTeO.Mem.Slab
set_option autoImplicit false

/-! ## Stores -/

/-- A word is stored at an address. -/
def Item.store (p v : Nat) : Item → Item
  | .index a => .index a
  | .data osz a words => .data osz a (storeWords p v osz a words)

theorem storeWords_length (p v osz a : Nat) (words : List Nat) : (storeWords p v osz a words).length = words.length := by
  rw [storeWords, List.length_mapIdx]

@[simp] theorem Item.group_store (pageSize p v : Nat) (i : Item) : (i.store p v).group pageSize = i.group pageSize := by
  cases i <;> rfl

theorem Item.slots_store (p v : Nat) (i : Item) :
    (i.store p v).slots = i.slots.map fun slot => (slot.1, if slot.1.addr = p then v else slot.2) := by
  cases i with
  | index a => rfl
  | data osz a words =>
    rw [Item.store, Item.slots, Item.slots, Multiset.map_coe]
    congr 1
    refine List.ext_getElem (by simp [storeWords]) fun j less less' => ?_
    simp [storeWords]

theorem slotsOf_store (p v : Nat) (M : Multiset Item) :
    slotsOf (M.map (Item.store p v)) = (slotsOf M).map fun slot => (slot.1, if slot.1.addr = p then v else slot.2) := by
  rw [slotsOf, Multiset.bind_map, slotsOf, Multiset.map_bind]
  exact Multiset.bind_congr fun i _ => Item.slots_store p v i

/-- A word that is not one of a free object leaves the same objects in use, if it is not stored in a free object. -/
theorem usedOf_store {p v : Nat} {M : Multiset Item} (busy : ¬ IsFree v) (owned : ¬ FreeAt p M) :
    usedOf (M.map (Item.store p v)) = usedOf M := by
  rw [usedOf, slotsOf_store, Multiset.filter_map, Multiset.map_map, usedOf]
  refine congrArg (Multiset.map Prod.fst) (Multiset.filter_congr fun slot member => not_congr ?_)
  show IsFree (if slot.1.addr = p then v else slot.2) ↔ IsFree slot.2
  split_ifs with here
  · exact iff_of_false busy fun free => owned ⟨slot.1, slot.2, member, here, free⟩
  · rfl

/-- Chunks that are changed one by one. -/
theorem items_map_sum {K : Type} {sub : Node K → Multiset Item} {osz : Nat} {f : Chunk K → Chunk K} {g : Item → Item}
    (each : ∀ c, (f c).items sub osz = (c.items sub osz).map g) (cs : List (Chunk K)) :
    ((cs.map f).map (Chunk.items sub osz)).sum = (cs.map (Chunk.items sub osz)).sum.map g := by
  induction cs with
  | nil => rfl
  | cons c rest ih => simp only [List.map_cons, List.sum_cons, Multiset.map_add, each, ih]

theorem itemsAt_store (p v d : Nat) (n : Node (Kind d)) : itemsAt d (storeAt p v d n) = (itemsAt d n).map (Item.store p v) := by
  induction d with
  | zero => rfl
  | succ d ih =>
    refine items_map_sum (fun c => ?_) n.ptr
    cases c with
    | null => rfl
    | data a words => rfl
    | index a nodes =>
      have below : ((nodes.map (storeAt p v d)).map (itemsAt d)).sum = (nodes.map (itemsAt d)).sum.map (Item.store p v) := by
        induction nodes with
        | nil => rfl
        | cons n' nodes ih_nodes => simp only [List.map_cons, List.sum_cons, Multiset.map_add, ih, ih_nodes]
      simp only [Chunk.items, Multiset.map_cons, below]
      rfl

theorem storeAt_fields (p v d : Nat) (n : Node (Kind d)) :
    (storeAt p v d n).level = n.level ∧ (storeAt p v d n).osz = n.osz ∧ (storeAt p v d n).count = n.count := by
  cases d <;> exact ⟨rfl, rfl, rfl⟩

theorem fitsAt_store {m : Pushes} {pageSize p v : Nat} (busy : ¬ IsFree v) (d : Nat) (n : Node (Kind d))
    (owned : ¬ FreeAt p (itemsAt d n)) (fit : FitsAt m pageSize d n) : FitsAt m pageSize d (storeAt p v d n) := by
  induction d with
  | zero => exact fit.elim
  | succ d ih =>
    have items := itemsAt_store p v (d + 1) n
    have node : FitsNode m pageSize d (itemsAt d) (FitsAt m pageSize d) n := fit
    refine ⟨node.level, (List.length_map _).trans node.length, fun zero c member => ?_, node.size, fun c member => ?_,
      fun only level => ?_⟩
    · obtain ⟨c', member', rfl⟩ := List.mem_map.mp member
      rw [node.unused zero c' member']
    · obtain ⟨c', member', rfl⟩ := List.mem_map.mp member
      have fit_c := node.chunks c' member'
      cases c' with
      | null => trivial
      | data a words => exact ⟨fit_c.1, (storeWords_length ..).trans fit_c.2⟩
      | index a nodes =>
        refine ⟨fit_c.1, fun n' below => ?_⟩
        obtain ⟨n'', below', rfl⟩ := List.mem_map.mp below
        obtain ⟨fit_n, level_n⟩ := fit_c.2 n'' below'
        have inside : itemsAt d n'' ≤ itemsAt (d + 1) n := by
          have in_chunk : itemsAt d n'' ≤ Chunk.items (itemsAt d) n.osz (.index a nodes) :=
            (List.single_le_sum (fun _ _ => Multiset.zero_le _) _ (List.mem_map_of_mem below')).trans (Multiset.le_cons_self _ _)
          exact in_chunk.trans (List.single_le_sum (fun _ _ => Multiset.zero_le _) _ (List.mem_map_of_mem member'))
        exact ⟨ih n'' (fun free => owned (free.mono inside)) fit_n, fun only =>
          (storeAt_fields p v d n'').1.trans (level_n only)⟩
    · refine (node.count only level).trans ?_
      rw [show Node.items (itemsAt d) (storeAt p v (d + 1) n) = itemsAt (d + 1) (storeAt p v (d + 1) n) from rfl, items,
        usedOf_store busy owned]
      rfl

/-! ## Destruction -/

section Destroy
variable {pageSize : Nat}

/-- Pages that were held are given back. -/
structure GaveBack (w w' : World pageSize) (M : Multiset Item) : Prop where
  freed : (w'.freed : Multiset Group) = M.map (Item.group pageSize) + w.freed
  held : (w'.held : Multiset Group) = w.held - M.map (Item.group pageSize)
  calls : w'.calls = w.calls

theorem GaveBack.refl (w : World pageSize) : GaveBack w w 0 where
  freed := by simp
  held := by simp
  calls := rfl

theorem GaveBack.trans {w w₁ w₂ : World pageSize} {M N : Multiset Item} (first : GaveBack w w₁ M)
    (second : GaveBack w₁ w₂ N) : GaveBack w w₂ (M + N) where
  freed := by
    rw [second.freed, first.freed, Multiset.map_add]
    abel
  held := by rw [second.held, first.held, Multiset.map_add, tsub_tsub]
  calls := second.calls.trans first.calls

theorem GaveBack.free (w : World pageSize) (i : Item) :
    GaveBack w (w.memFree (i.group pageSize).1 (i.group pageSize).2) {i} where
  freed := by
    rw [Multiset.map_singleton]
    rfl
  held := by
    rw [Multiset.map_singleton, Multiset.sub_singleton, Multiset.coe_erase]
    simp only [World.memFree, List.erase_eq_eraseP']
    congr 2
    funext g
    simp
  calls := rfl

/-- Where no level wrapped, `_destroy_slab` gives back exactly the pages of the tree. -/
theorem slabDestroyAt_spec {m : Pushes} (known : m ≠ .any) (d : Nat) (n : Node (Kind d)) (w : World pageSize)
    (fit : FitsAt m pageSize d n) : GaveBack w (slabDestroyAt d n w) (itemsAt d n) := by
  induction d generalizing w with
  | zero => exact fit.elim
  | succ d ih =>
    have nodes_spec : ∀ (nodes : List (Node (Kind d))) (w : World pageSize), (∀ n ∈ nodes, FitsAt m pageSize d n) →
        GaveBack w (nodes.foldl (fun w ps => slabDestroyAt d ps w) w) (nodes.map (itemsAt d)).sum := by
      intro nodes w fit
      induction nodes generalizing w with
      | nil => exact GaveBack.refl w
      | cons n nodes ih_nodes =>
        obtain ⟨fit_n, fit_nodes⟩ := List.forall_mem_cons.mp fit
        exact (ih n w fit_n).trans (ih_nodes (slabDestroyAt d n w) fit_nodes)
    have chunk_spec : ∀ (c : Chunk (Kind d)) (w : World pageSize),
        FitsChunk m pageSize (FitsAt m pageSize d) n.osz n.level c →
        GaveBack w (destroyChunk (slabDestroyAt d) n.osz n.level c w) (c.items (itemsAt d) n.osz) := by
      intro c w fit
      cases c with
      | null => exact GaveBack.refl w
      | index a nodes =>
        have deep := fit.1.resolve_left known
        rw [destroyChunk, if_pos deep]
        have := (nodes_spec nodes w fun n member => (fit.2 n member).1).trans (GaveBack.free _ (.index a))
        rwa [Multiset.add_comm, Multiset.singleton_add] at this
      | data a words =>
        rw [destroyChunk, if_neg (not_not.mpr fit.1)]
        exact GaveBack.free w (.data n.osz a words)
    have chunks_spec : ∀ (cs : List (Chunk (Kind d))) (w : World pageSize),
        (∀ c ∈ cs, FitsChunk m pageSize (FitsAt m pageSize d) n.osz n.level c) →
        GaveBack w (cs.foldl (fun w c => destroyChunk (slabDestroyAt d) n.osz n.level c w) w)
          (cs.map (Chunk.items (itemsAt d) n.osz)).sum := by
      intro cs w fit
      induction cs generalizing w with
      | nil => exact GaveBack.refl w
      | cons c rest ih_rest =>
        obtain ⟨fit_c, fit_rest⟩ := List.forall_mem_cons.mp fit
        exact (chunk_spec c w fit_c).trans (ih_rest _ fit_rest)
    exact chunks_spec n.ptr w (FitsNode.chunks fit)

end Destroy

/-! ## Status -/

/-- The data pages and the index pages in a group. -/
def Item.ndpg (pageSize : Nat) : Item → Nat
  | .index _ => 0
  | .data osz _ _ => dataPages osz pageSize

def Item.nspg : Item → Nat
  | .index _ => 1
  | .data _ _ _ => 0

/-- What there is to report of some pages. -/
def statusOf (pageSize : Nat) (M : Multiset Item) : Status :=
  { naobj := (usedOf M).card
    nrobj := (slotsOf M).card
    ndpg := (M.map (Item.ndpg pageSize)).sum
    nspg := (M.map Item.nspg).sum }

section Status
variable {pageSize : Nat} (s t : Status)

@[simp] theorem Status.add_naobj : (s + t).naobj = s.naobj + t.naobj := rfl
@[simp] theorem Status.add_nrobj : (s + t).nrobj = s.nrobj + t.nrobj := rfl
@[simp] theorem Status.add_ndpg : (s + t).ndpg = s.ndpg + t.ndpg := rfl
@[simp] theorem Status.add_nspg : (s + t).nspg = s.nspg + t.nspg := rfl

variable {s t}

theorem Status.eq_of_fields (naobj : s.naobj = t.naobj) (nrobj : s.nrobj = t.nrobj) (ndpg : s.ndpg = t.ndpg)
    (nspg : s.nspg = t.nspg) : s = t := by
  obtain ⟨_, _, _, _⟩ := s
  obtain ⟨_, _, _, _⟩ := t
  simp only at naobj nrobj ndpg nspg
  rw [naobj, nrobj, ndpg, nspg]

theorem Status.zero_add (s : Status) : 0 + s = s :=
  Status.eq_of_fields (Nat.zero_add _) (Nat.zero_add _) (Nat.zero_add _) (Nat.zero_add _)

theorem statusOf_zero : statusOf pageSize 0 = 0 := rfl

theorem statusOf_add (M N : Multiset Item) : statusOf pageSize (M + N) = statusOf pageSize M + statusOf pageSize N := by
  apply Status.eq_of_fields <;> simp [statusOf]

theorem card_used_words (osz a : Nat) (words : List Nat) :
    (usedOf {.data osz a words}).card = words.countP fun word => ¬ IsFree word := by
  rw [usedOf, Multiset.card_map, slotsOf, Multiset.singleton_bind, Item.slots, Multiset.filter_coe, Multiset.coe_card,
    ← List.countP_eq_length_filter, List.mapIdx_eq_zipIdx_map, List.countP_map]
  conv_rhs => rw [← List.zipIdx_map_fst 0 words, List.countP_map]
  rfl

theorem slotStatus_eq {osz a : Nat} {words : List Nat} (length : words.length = nobjs osz pageSize) :
    slotStatus osz pageSize words = statusOf pageSize {.data osz a words} := by
  apply Status.eq_of_fields
  · have words_eq : (List.range words.length).map (fun j => words.getD j 0) = words := by
      refine List.ext_getElem (by simp) fun j less less' => ?_
      simp [less']
    rw [statusOf, card_used_words]
    conv_rhs => rw [← words_eq, List.countP_map]
    rw [slotStatus, length]
    rfl
  · simp [slotStatus, statusOf, slotsOf, Item.slots, length]
  · simp [slotStatus, statusOf, Item.ndpg]
  · simp [slotStatus, statusOf, Item.nspg]

/-- A pointer that is not null. -/
def Chunk.isPages {K : Type} : Chunk K → Bool
  | .null => false
  | .index _ _ => true
  | .data _ _ => true

/-- The pages that `_slab_status` comes to: it stops at the first null pointer of a node. -/
def shownAt : (d : Nat) → Node (Kind d) → Multiset Item
  | 0 => fun _ => 0
  | d + 1 => fun n => ((n.ptr.takeWhile Chunk.isPages).map (Chunk.items (shownAt d) n.osz)).sum

/-- No pointer of the tree that is not null comes behind one that is null. -/
def Gapless : (d : Nat) → Node (Kind d) → Prop
  | 0 => fun _ => True
  | d + 1 => fun n => (∀ c ∈ n.ptr.dropWhile Chunk.isPages, c = .null) ∧
      ∀ a nodes, .index a nodes ∈ n.ptr.takeWhile Chunk.isPages → ∀ n' ∈ nodes, Gapless d n'

/-- Parts of which some are shown in part. -/
theorem shown_parts {α : Type} {shown items : α → Multiset Item} {gapless : α → Prop} (less : ∀ x, shown x ≤ items x)
    (whole : ∀ x, shown x = items x ↔ gapless x) (parts : List α) :
    (parts.map shown).sum ≤ (parts.map items).sum ∧
      ((parts.map shown).sum = (parts.map items).sum ↔ ∀ x ∈ parts, gapless x) := by
  induction parts with
  | nil => simp
  | cons x rest ih =>
    simp only [List.map_cons, List.sum_cons, List.forall_mem_cons]
    refine ⟨add_le_add (less x) ih.1, ?_⟩
    rw [add_eq_add_iff_eq_and_eq (less x) ih.1, whole, ih.2]

section Shown
variable {K : Type} {shown items : Node K → Multiset Item} {gapless : Node K → Prop}

theorem shown_chunk (less : ∀ n, shown n ≤ items n) (whole : ∀ n, shown n = items n ↔ gapless n) (osz : Nat) (c : Chunk K) :
    c.items shown osz ≤ c.items items osz ∧
      (c.items shown osz = c.items items osz ↔ ∀ a nodes, c = .index a nodes → ∀ n ∈ nodes, gapless n) := by
  cases c with
  | null => exact ⟨le_refl _, iff_of_true rfl fun a nodes same => by cases same⟩
  | data a words => exact ⟨le_refl _, iff_of_true rfl fun a nodes same => by cases same⟩
  | index a nodes =>
    obtain ⟨less', whole'⟩ := shown_parts less whole nodes
    refine ⟨Multiset.cons_le_cons _ less', ?_⟩
    rw [Chunk.items, Chunk.items, Multiset.cons_inj_right, whole']
    constructor
    · rintro all a' nodes' same
      cases same
      exact all
    · exact fun all => all a nodes rfl

theorem shown_chunks (less : ∀ n, shown n ≤ items n) (whole : ∀ n, shown n = items n ↔ gapless n) (osz : Nat)
    (cs : List (Chunk K)) :
    ((cs.takeWhile Chunk.isPages).map (Chunk.items shown osz)).sum ≤ (cs.map (Chunk.items items osz)).sum ∧
      (((cs.takeWhile Chunk.isPages).map (Chunk.items shown osz)).sum = (cs.map (Chunk.items items osz)).sum ↔
        (∀ c ∈ cs.dropWhile Chunk.isPages, c = .null) ∧
          ∀ a nodes, .index a nodes ∈ cs.takeWhile Chunk.isPages → ∀ n ∈ nodes, gapless n) := by
  induction cs with
  | nil => simp
  | cons c rest ih =>
    cases pages : c.isPages with
    | false =>
      obtain rfl : c = .null := by
        cases c with
        | null => rfl
        | index a nodes => cases pages
        | data a words => cases pages
      rw [List.takeWhile_cons_of_neg (by simp [pages]), List.dropWhile_cons_of_neg (by simp [pages])]
      refine ⟨Multiset.zero_le _, ?_⟩
      simp only [List.map_nil, List.sum_nil, List.not_mem_nil, false_implies, implies_true, and_true, List.map_cons,
        List.sum_cons, Chunk.items, zero_add, List.forall_mem_cons, true_and]
      constructor
      · intro none c member
        have empty : c.items items osz = 0 := Multiset.le_zero.mp (none ▸ List.le_sum_of_mem (List.mem_map_of_mem member))
        cases c with
        | null => rfl
        | index a nodes => exact absurd empty (Multiset.cons_ne_zero)
        | data a words => exact absurd empty (Multiset.singleton_ne_zero _)
      · intro null
        refine (List.sum_eq_zero fun M member => ?_).symm
        obtain ⟨c, c_mem, rfl⟩ := List.mem_map.mp member
        rw [null c c_mem]
        rfl
    | true =>
      obtain ⟨less_c, whole_c⟩ := shown_chunk less whole osz c
      rw [List.takeWhile_cons_of_pos pages, List.dropWhile_cons_of_pos pages]
      simp only [List.map_cons, List.sum_cons, List.mem_cons]
      refine ⟨add_le_add less_c ih.1, ?_⟩
      rw [add_eq_add_iff_eq_and_eq less_c ih.1, whole_c, ih.2]
      constructor
      · rintro ⟨here, null, there⟩
        refine ⟨null, fun a nodes member => ?_⟩
        rcases member with same | member
        · exact here a nodes same.symm
        · exact there a nodes member
      · rintro ⟨null, all⟩
        exact ⟨fun a nodes same => all a nodes (.inl same.symm), null, fun a nodes member => all a nodes (.inr member)⟩

end Shown

theorem shownAt_spec (d : Nat) (n : Node (Kind d)) :
    shownAt d n ≤ itemsAt d n ∧ (shownAt d n = itemsAt d n ↔ Gapless d n) := by
  induction d with
  | zero => exact ⟨le_refl _, iff_of_true rfl trivial⟩
  | succ d ih => exact shown_chunks (fun n => (ih n).1) (fun n => (ih n).2) n.osz n.ptr

theorem statusNodes_eq {K : Type} {m : Pushes} {sub : Node K → Status × List Nat} {shown : Node K → Multiset Item}
    {fits : Node K → Prop} (report : ∀ n, fits n → (sub n).1 = statusOf pageSize (shown n))
    (unused : ∀ n, fits n → n.osz = 0 → shown n = 0) (nodes : List (Node K)) (fit : FitsNodes m fits nodes) :
    (statusNodes sub nodes).1 = statusOf pageSize (nodes.map shown).sum := by
  induction nodes with
  | nil => rfl
  | cons n rest ih =>
    obtain ⟨fit_n, fit_rest⟩ := fitsNodes_cons.mp fit
    rw [statusNodes, List.map_cons, List.sum_cons, statusOf_add]
    by_cases zero : n.osz = 0
    · rw [if_neg (not_not.mpr zero), ih fit_rest, unused n fit_n.1 zero, statusOf_zero]
      exact (Status.zero_add _).symm
    · rw [if_pos zero, ← report n fit_n.1, ← ih fit_rest]

theorem slabStatusAt_spec {m : Pushes} (known : m ≠ .any) (d : Nat) (n : Node (Kind d)) (fit : FitsAt m pageSize d n) :
    (slabStatusAt pageSize d n).1 = statusOf pageSize (shownAt d n) := by
  induction d with
  | zero => exact fit.elim
  | succ d ih =>
    have unused : ∀ n, FitsAt m pageSize d n → n.osz = 0 → shownAt d n = 0 := by
      intro n fit zero
      have none : itemsAt d n = 0 := by
        cases d with
        | zero => exact fit.elim
        | succ d => exact Node.items_null (FitsNode.unused fit zero)
      exact Multiset.le_zero.mp (none ▸ (shownAt_spec d n).1)
    have chunks : ∀ cs : List (Chunk (Kind d)), (∀ c ∈ cs, FitsChunk m pageSize (FitsAt m pageSize d) n.osz n.level c) →
        (statusChunks pageSize (slabStatusAt pageSize d) n.osz n.level cs).1 =
          statusOf pageSize ((cs.takeWhile Chunk.isPages).map (Chunk.items (shownAt d) n.osz)).sum := by
      intro cs fit
      induction cs with
      | nil => rfl
      | cons c rest ih_rest =>
        obtain ⟨fit_c, fit_rest⟩ := List.forall_mem_cons.mp fit
        have later := ih_rest fit_rest
        cases c with
        | null => rfl
        | index a nodes =>
          have deep := fit_c.1.resolve_left known
          have below := statusNodes_eq ih unused nodes fit_c.2
          rw [statusChunks, List.takeWhile_cons_of_pos rfl, List.map_cons, List.sum_cons, statusOf_add, if_pos deep]
          rw [Chunk.items, ← Multiset.singleton_add, statusOf_add, ← below, ← later]
          rfl
        | data a words =>
          rw [statusChunks, List.takeWhile_cons_of_pos rfl, List.map_cons, List.sum_cons, statusOf_add,
            if_neg (not_not.mpr fit_c.1), slotStatus_eq (a := a) fit_c.2, later]
          rfl
    exact chunks n.ptr (FitsNode.chunks fit)

theorem mem_statusNodes {K : Type} {sub : Node K → Status × List Nat} {nodes : List (Node K)} {osz : Nat}
    (member : osz ∈ (statusNodes sub nodes).2) : ∃ n ∈ nodes, osz ∈ (sub n).2 := by
  induction nodes with
  | nil => exact absurd member List.not_mem_nil
  | cons n rest ih =>
    rw [statusNodes] at member
    split_ifs at member with some
    · rcases List.mem_append.mp member with here | later
      · exact ⟨n, List.mem_cons_self, here⟩
      · obtain ⟨n', in_rest, found⟩ := ih later
        exact ⟨n', List.mem_cons_of_mem _ in_rest, found⟩
    · obtain ⟨n', in_rest, found⟩ := ih member
      exact ⟨n', List.mem_cons_of_mem _ in_rest, found⟩

/-- `_slab_status` divides by the sizes of nodes that have pages. -/
theorem slabStatusAt_divisors {m : Pushes} (d : Nat) (n : Node (Kind d)) (fit : FitsAt m pageSize d n) :
    ∀ osz ∈ (slabStatusAt pageSize d n).2, osz ≠ 0 := by
  induction d with
  | zero => exact fit.elim
  | succ d ih =>
    have chunks : ∀ cs : List (Chunk (Kind d)),
        (∀ c ∈ cs, FitsChunk m pageSize (FitsAt m pageSize d) n.osz n.level c ∧ (n.osz = 0 → c = .null)) →
        ∀ osz ∈ (statusChunks pageSize (slabStatusAt pageSize d) n.osz n.level cs).2, osz ≠ 0 := by
      intro cs fit
      induction cs with
      | nil => exact List.forall_mem_nil _
      | cons c rest ih_rest =>
        obtain ⟨⟨fit_c, some⟩, fit_rest⟩ := List.forall_mem_cons.mp fit
        have later := ih_rest fit_rest
        cases c with
        | null => exact List.forall_mem_nil _
        | index a nodes =>
          have nonzero : n.osz ≠ 0 := fun zero => by cases some zero
          rw [statusChunks]
          split_ifs
          · intro osz member
            rcases List.mem_append.mp member with below | member
            · obtain ⟨n', in_nodes, found⟩ := mem_statusNodes below
              exact ih n' (fit_c.2 n' in_nodes).1 osz found
            · exact later osz member
          · exact List.forall_mem_cons.mpr ⟨nonzero, later⟩
        | data a words =>
          have nonzero : n.osz ≠ 0 := fun zero => by cases some zero
          rw [statusChunks]
          split_ifs
          · exact later
          · exact List.forall_mem_cons.mpr ⟨nonzero, later⟩
    exact chunks n.ptr fun c member => ⟨FitsNode.chunks fit c member, fun zero => FitsNode.unused fit zero c member⟩

theorem dataPages_pos (osz : Nat) (pages : 0 < pageSize) : 0 < dataPages osz pageSize := by
  unfold dataPages
  split_ifs with big
  · exact Nat.div_pos big.le pages
  · exact Nat.one_pos

/-- There is more to report of more pages, but for the index pages and the data pages. -/
theorem statusOf_eq_iff {M N : Multiset Item} (pages : 0 < pageSize) (less : M ≤ N) :
    (statusOf pageSize M).naobj = (statusOf pageSize N).naobj ∧ (statusOf pageSize M).ndpg = (statusOf pageSize N).ndpg ∧
      (statusOf pageSize M).nspg = (statusOf pageSize N).nspg ↔ M = N := by
  constructor
  · rintro ⟨-, data, index⟩
    obtain ⟨R, rfl⟩ := Multiset.le_iff_exists_add.mp less
    rw [statusOf_add, Status.add_ndpg] at data
    rw [statusOf_add, Status.add_nspg] at index
    have none : R = 0 := by
      refine Multiset.eq_zero_of_forall_notMem fun i member => ?_
      obtain ⟨R', rfl⟩ := Multiset.exists_cons_of_mem member
      simp only [statusOf, Multiset.map_cons, Multiset.sum_cons] at data index
      cases i with
      | index a =>
        simp only [Item.nspg] at index
        omega
      | data osz a words =>
        have positive := dataPages_pos osz pages
        simp only [Item.ndpg] at data
        omega
    rw [none, add_zero]
  · rintro rfl
    exact ⟨rfl, rfl, rfl⟩

end Status

end PreTeO.Mem.Slab
