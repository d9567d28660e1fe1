import PreTeO.Mem.SlabTree

/-!
# Search, stores and the end of a slab tree

`_slab_verify` finds the object at an address, unless a count keeps it from looking, and `slab_free` changes the tree there.
-/

namespace PreTeO.Mem.Slab
set_option autoImplicit false

/-! ## `_slab_verify` -/

section Objects
variable {pageSize osz : Nat}

/-- Data pages of big objects have one. -/
theorem nobjs_big (size : IsSize pageSize osz) (big : pageSize ≤ osz) : nobjs osz pageSize = 1 := by
  have whole := Nat.div_mul_cancel (size.2 big)
  have nonzero := size.ne_zero
  unfold nobjs dataPages
  split_ifs with more
  · rw [whole, Nat.div_self (Nat.pos_of_ne_zero nonzero)]
  · obtain rfl : osz = pageSize := Nat.le_antisymm (Nat.le_of_not_lt more) big
    rw [Nat.one_mul, Nat.div_self (Nat.pos_of_ne_zero nonzero)]

/-- `slab_free` counts the pages of a big object as they were counted. -/
theorem pages_big (size : IsSize pageSize osz) (big : pageSize ≤ osz) :
    osz / pageSize + (if osz % pageSize ≠ 0 then 1 else 0) = dataPages osz pageSize := by
  have whole := Nat.mod_eq_zero_of_dvd (size.2 big)
  have nonzero := size.ne_zero
  unfold dataPages
  rw [if_neg (not_not.mpr whole)]
  split_ifs with more
  · rfl
  · obtain rfl : osz = pageSize := Nat.le_antisymm (Nat.le_of_not_lt more) big
    exact Nat.div_self (Nat.pos_of_ne_zero nonzero)

theorem nobjs_le (size : IsSize pageSize osz) : nobjs osz pageSize ≤ 1 + pageSize / slabMinAlloc := by
  unfold nobjs dataPages
  split_ifs with big
  · exact (Nat.div_le_of_le_mul (by rw [Nat.mul_one]; exact Nat.div_mul_le_self osz pageSize)).trans (Nat.le_add_right 1 _)
  · rw [Nat.one_mul]
    exact (Nat.div_le_div_left size.1 (by decide)).trans (Nat.le_add_left _ 1)

theorem card_used_data (a : Nat) (words : List Nat) : (usedOf {.data osz a words}).card ≤ words.length := by
  have all : (Item.data osz a words).slots.card = words.length := by simp [Item.slots]
  rw [← all, usedOf, Multiset.card_map, slotsOf, Multiset.singleton_bind]
  exact Multiset.card_le_card (Multiset.filter_le _ _)

theorem slotAt_spec {n a ptr j : Nat} (slot : slotAt osz n a ptr = some j) : j < n ∧ a + j * osz = ptr := by
  have here : a + j * osz = ptr := by simpa using List.find?_some slot
  exact ⟨List.mem_range.mp (List.mem_of_find?_eq_some slot), here⟩

theorem slotAt_none {n a ptr j : Nat} (none : slotAt osz n a ptr = none) (less : j < n) : a + j * osz ≠ ptr := by
  have := List.find?_eq_none.mp none j (List.mem_range.mpr less)
  simpa using this

end Objects

/-- A count of objects fits in its field: the pages are too small for more, or there are too few objects. -/
def Countable (pageSize : Nat) (M : Multiset Item) : Prop := pageSize ≤ 2 ^ 29 ∨ (usedOf M).card < 2 ^ 28

theorem Countable.mono {pageSize : Nat} {M N : Multiset Item} (countable : Countable pageSize N) (less : M ≤ N) :
    Countable pageSize M :=
  countable.imp_right fun few => (Multiset.card_le_card (usedOf_mono less)).trans_lt few

section Visit
variable {pageSize : Nat}

/-- What an action leaves of data pages. -/
def Action.leaves (act : Action pageSize) (osz a : Nat) (words : List Nat) (j : Nat) (w : World pageSize) : Multiset Item :=
  match (act.slot osz a words j w).1 with
  | none => 0
  | some words => {.data osz a words}

/-- An action takes `k` objects, and counts them. -/
structure Action.Takes (act : Action pageSize) (k : Nat) : Prop where
  count : ∀ n, act.count n = n - k
  length : ∀ osz a words j w words', (act.slot osz a words j w).1 = some words' → words'.length = words.length
  used : ∀ osz a words j w, IsSize pageSize osz → words.length = nobjs osz pageSize → j < words.length →
    ¬ IsFree (words.getD j 0) →
    (usedOf (act.leaves osz a words j w)).card + k = (usedOf {.data osz a words}).card

theorem keep_takes : (Action.keep : Action pageSize).Takes 0 where
  count _ := rfl
  length _ _ _ _ _ _ same := congrArg List.length (Option.some.inj same).symm
  used _ _ _ _ _ _ _ _ _ := rfl

theorem usedOf_single {pageSize osz a : Nat} {words : List Nat} (size : IsSize pageSize osz) (big : pageSize ≤ osz)
    (length : words.length = nobjs osz pageSize) (busy : ¬ IsFree (words.getD 0 0)) :
    usedOf {.data osz a words} = {⟨a, osz⟩} := by
  rw [nobjs_big size big] at length
  obtain ⟨word, rfl⟩ := List.length_eq_one_iff.mp length
  have busy' : ¬ IsFree word := busy
  simp [usedOf, slotsOf, Item.slots, Multiset.filter_singleton, busy']

theorem release_takes : (Action.release : Action pageSize).Takes 1 where
  count _ := rfl
  length osz a words j w words' same := by
    simp only [Action.release] at same
    split_ifs at same
    simp only [Option.some.injEq] at same
    rw [← same, List.length_set]
  used osz a words j w size length less busy := by
    by_cases big : osz ≥ pageSize ∧ j = 0
    · obtain ⟨big, rfl⟩ := big
      simp only [Action.leaves, Action.release, if_pos (And.intro big trivial), usedOf_single size big length busy]
      rfl
    · simp only [Action.leaves, Action.release, if_neg big]
      rw [usedOf_release less busy isFree_pattern2, Multiset.card_cons]

/-- What a search does: nothing, if there is no object at the address, else what the action does to the object there. -/
def Visit (act : Action pageSize) (m : Pushes) (ptr : Nat) (found : Bool) (M M' : Multiset Item) (w w' : World pageSize) :
    Prop :=
  match found with
  | false => M' = M ∧ Grown 0 w w' 0 ∧ (m = .first → ¬ FreeAt ptr M → ¬ UsedAt ptr M)
  | true => ∃ w₁, Grown 0 w w₁ 0 ∧ (m = .any ∧ M' = M ∧ w' = w₁ ∨
      ∃ osz a words j rest, M = .data osz a words ::ₘ rest ∧ IsSize pageSize osz ∧ words.length = nobjs osz pageSize ∧
        j < words.length ∧ a + j * osz = ptr ∧ ¬ IsFree (words.getD j 0) ∧
        M' = act.leaves osz a words j w₁ + rest ∧ w' = (act.slot osz a words j w₁).2)

section Combine
variable {act : Action pageSize} {m : Pushes} {ptr : Nat} {found : Bool} {A A' B B' : Multiset Item}
  {w w₁ w' : World pageSize}

theorem Visit.skip (grown : Grown 0 w w' 0) (missed : m = .first → ¬ FreeAt ptr A → ¬ UsedAt ptr A) :
    Visit act m ptr false A A w w' := ⟨rfl, grown, missed⟩

/-- The object is in one part of a tree. -/
theorem Visit.frame (visit : Visit act m ptr true A A' w w') (R : Multiset Item) :
    Visit act m ptr true (A + R) (A' + R) w w' := by
  obtain ⟨w₁, grown, ⟨any, rfl, rfl⟩ | ⟨osz, a, words, j, rest, rfl, size, length, less, here, busy, rfl, rfl⟩⟩ := visit
  · exact ⟨w', grown, .inl ⟨any, rfl, rfl⟩⟩
  · refine ⟨w₁, grown, .inr ⟨osz, a, words, j, rest + R, ?_, size, length, less, here, busy, ?_, rfl⟩⟩
    · rw [Multiset.cons_add]
    · rw [add_assoc]

/-- One part of a tree after another in which the object is not. -/
theorem Visit.seq (first : Visit act m ptr false A A' w w₁) (second : Visit act m ptr found B B' w₁ w') :
    Visit act m ptr found (A + B) (A' + B') w w' := by
  obtain ⟨rfl, grown, missed⟩ := first
  cases found with
  | false =>
    obtain ⟨rfl, grown', missed'⟩ := second
    refine ⟨rfl, grown.trans grown', fun only free used => ?_⟩
    rcases usedAt_add.mp used with used | used
    · exact missed only (fun here => free (here.mono (Multiset.le_add_right _ _))) used
    · exact missed' only (fun here => free (here.mono (Multiset.le_add_left _ _))) used
  | true =>
    have := second.frame A'
    rw [add_comm B, add_comm B'] at this
    obtain ⟨w₂, grown', result⟩ := this
    exact ⟨w₂, grown.trans grown', result⟩

theorem Visit.of_grown (grown : Grown 0 w w₁ 0) (visit : Visit act m ptr found A A' w₁ w') :
    Visit act m ptr found A A' w w' := by
  cases found with
  | false =>
    obtain ⟨same, grown', missed⟩ := visit
    exact ⟨same, grown.trans grown', missed⟩
  | true =>
    obtain ⟨w₂, grown', result⟩ := visit
    exact ⟨w₂, grown.trans grown', result⟩

/-- The objects in use afterwards. -/
theorem Visit.card {k : Nat} (takes : act.Takes k) (known : m ≠ .any) (visit : Visit act m ptr found A A' w w') :
    (usedOf A').card + (if found then k else 0) = (usedOf A).card := by
  cases found with
  | false =>
    obtain ⟨rfl, -, -⟩ := visit
    rfl
  | true =>
    obtain ⟨w₁, -, ⟨any, -, -⟩ | ⟨osz, a, words, j, rest, rfl, size, length, less, -, busy, rfl, -⟩⟩ := visit
    · exact absurd any known
    · have := takes.used osz a words j w₁ size length less busy
      rw [usedOf_cons, usedOf_add, Multiset.card_add, Multiset.card_add, if_pos rfl, ← this]
      omega

end Combine

section Trees
variable {K : Type} {act : Action pageSize} {m : Pushes} {ptr k : Nat} {items : Node K → Multiset Item} {fits : Node K → Prop}
  {sub : Node K → World pageSize → Bool × Node K × World pageSize}

/-- What the search in a node relies on: the search in the nodes below, and the counts there. -/
structure Searches (act : Action pageSize) (m : Pushes) (ptr : Nat) (items : Node K → Multiset Item) (fits : Node K → Prop)
    (sub : Node K → World pageSize → Bool × Node K × World pageSize) : Prop where
  visit : ∀ n w, fits n → (m = .first → Countable pageSize (items n)) →
    Visit act m ptr (sub n w).1 (items n) (items (sub n w).2.1) w (sub n w).2.2 ∧ fits (sub n w).2.1 ∧
      (sub n w).2.1.level = n.level
  pruned : ∀ n, fits n → m = .first → n.level = 0 → Countable pageSize (items n) → ¬ (n.count ≠ 0 ∧ n.osz ≠ 0) →
    usedOf (items n) = 0

theorem visitNodes_spec (searches : Searches act m ptr items fits sub) (nodes : List (Node K)) (w : World pageSize)
    (fit : FitsNodes m fits nodes) (countable : m = .first → Countable pageSize (nodes.map items).sum) :
    let t := visitNodes sub nodes w
    Visit act m ptr t.1 (nodes.map items).sum (t.2.1.map items).sum w t.2.2 ∧ FitsNodes m fits t.2.1 := by
  induction nodes generalizing w with
  | nil => exact ⟨Visit.skip (Grown.refl 0 w) fun _ _ => not_usedAt_zero, fit⟩
  | cons n rest ih =>
    obtain ⟨fit_n, fit_rest⟩ := fitsNodes_cons.mp fit
    rw [List.map_cons, List.sum_cons] at countable ⊢
    have countable_n := fun only => (countable only).mono (Multiset.le_add_right (items n) _)
    have countable_rest := fun only => (countable only).mono (Multiset.le_add_left (rest.map items).sum (items n))
    rw [visitNodes]
    split_ifs with looks
    · obtain ⟨visit, fit', level⟩ := searches.visit n w fit_n.1 countable_n
      dsimp only
      generalize sub n w = t at visit fit' level
      obtain ⟨_ | _, n', w'⟩ := t
      · obtain ⟨after, fit_after⟩ := ih w' fit_rest countable_rest
        exact ⟨visit.seq after, fitsNodes_cons.mpr ⟨⟨fit', fun only => level.trans (fit_n.2 only)⟩, fit_after⟩⟩
      · exact ⟨visit.frame _, fitsNodes_cons.mpr ⟨⟨fit', fun only => level.trans (fit_n.2 only)⟩, fit_rest⟩⟩
    · obtain ⟨after, fit_after⟩ := ih w fit_rest countable_rest
      refine ⟨Visit.seq (Visit.skip (Grown.refl 0 w) fun only _ => ?_) after, fitsNodes_cons.mpr ⟨fit_n, fit_after⟩⟩
      rintro ⟨o, member, -⟩
      rw [searches.pruned n fit_n.1 only (fit_n.2 only) (countable_n only) looks] at member
      exact Multiset.notMem_zero o member

/-- What the search at one pointer does. A free object at the address ends it, too. -/
def VisitChunk (act : Action pageSize) (m : Pushes) (ptr : Nat) (M M' : Multiset Item) (w w' : World pageSize) :
    Option Bool → Prop
  | none => Visit act m ptr false M M' w w'
  | some false => M' = M ∧ Grown 0 w w' 0 ∧ FreeAt ptr M
  | some true => Visit act m ptr true M M' w w'

theorem visitChunk_spec {osz level : Nat} (takes : act.Takes k) (searches : Searches act m ptr items fits sub)
    (size : osz ≠ 0 → IsSize pageSize osz) (c : Chunk K) (w : World pageSize) (unused : osz = 0 → c = .null)
    (fit : FitsChunk m pageSize fits osz level c) (countable : m = .first → Countable pageSize (c.items items osz)) :
    let t := visitChunk act sub osz level ptr c w
    VisitChunk act m ptr (c.items items osz) (t.2.1.items items osz) w t.2.2 t.1 ∧
      FitsChunk m pageSize fits osz level t.2.1 := by
  cases c with
  | null =>
    have skip : Visit act m ptr false 0 0 w w := Visit.skip (Grown.refl 0 w) fun _ _ => not_usedAt_zero
    exact ⟨skip, trivial⟩
  | index a nodes =>
    have nonzero : osz ≠ 0 := fun zero => by cases unused zero
    rw [visitChunk]
    by_cases level_eq : level = 0
    · -- A level that wrapped: the index page is searched for an object.
      have any := fit.1.resolve_right (not_not.mpr level_eq)
      rw [if_neg (not_not.mpr level_eq)]
      refine ⟨?_, fit⟩
      have grown : Grown 0 w (w.divided osz) 0 := Grown.divided w nonzero
      have skip : ∀ M, Visit act m ptr false M M w (w.divided osz) := fun M =>
        Visit.skip grown fun only => absurd (any.symm.trans only) (by decide)
      dsimp only
      cases slotAt osz (nobjs osz pageSize) a ptr with
      | none => exact skip _
      | some j => exact ⟨w.divided osz, grown, .inl ⟨any, rfl, rfl⟩⟩
    · rw [if_pos level_eq]
      obtain ⟨visit, fit'⟩ := visitNodes_spec searches nodes w fit.2 fun only =>
        (countable only).mono (Multiset.le_cons_self _ _)
      dsimp only
      generalize visitNodes sub nodes w = t at visit fit'
      obtain ⟨found, nodes', w'⟩ := t
      refine ⟨?_, fit.1, fit'⟩
      have own : Visit act m ptr false {.index a} {.index a} w w :=
        Visit.skip (Grown.refl 0 w) fun _ _ used => by simp [UsedAt, usedOf, slotsOf, Item.slots] at used
      have := own.seq visit
      simp only [Multiset.singleton_add] at this
      cases found with
      | false => exact this
      | true => exact this
  | data a words =>
    have nonzero : osz ≠ 0 := fun zero => by cases unused zero
    have grown : Grown 0 w (w.divided osz) 0 := Grown.divided w nonzero
    obtain ⟨level_eq, length⟩ := fit
    rw [visitChunk, if_neg (not_not.mpr level_eq)]
    split
    · next none =>
      have missed : ¬ UsedAt ptr {Item.data osz a words} := by
        rintro ⟨o, member, rfl⟩
        obtain ⟨word, slot, -⟩ := mem_usedOf.mp member
        rw [slotsOf, Multiset.singleton_bind] at slot
        obtain ⟨j, less, rfl, -⟩ := mem_slots.mp slot
        exact slotAt_none none (length ▸ less) rfl
      have skip : Visit act m ptr false {.data osz a words} {.data osz a words} w (w.divided osz) :=
        Visit.skip grown fun _ _ => missed
      exact ⟨skip, level_eq, length⟩
    · next j slot =>
      obtain ⟨less, here⟩ := slotAt_spec slot
      rw [← length] at less
      split_ifs with free
      · rw [List.getD_eq_getElem _ _ less] at free
        refine ⟨⟨rfl, grown, ⟨a + j * osz, osz⟩, words[j], ?_, here, free⟩, level_eq, length⟩
        rw [slotsOf, Chunk.items, Multiset.singleton_bind]
        exact mem_slots.mpr ⟨j, less, rfl, rfl⟩
      · have kept := takes.length osz a words j (w.divided osz)
        refine ⟨⟨w.divided osz, grown, .inr ⟨osz, a, words, j, 0, rfl, size nonzero, length, less, here, free, ?_, rfl⟩⟩, ?_⟩
        · unfold Action.leaves
          dsimp only
          cases (act.slot osz a words j (w.divided osz)).1 with
          | none => rfl
          | some words' => rfl
        · dsimp only
          cases result : (act.slot osz a words j (w.divided osz)).1 with
          | none => trivial
          | some words' => exact ⟨level_eq, (kept words' result).trans length⟩

theorem visitChunk_null (act : Action pageSize) (sub : Node K → World pageSize → Bool × Node K × World pageSize)
    (osz level ptr : Nat) (c : Chunk K) (w : World pageSize) (null : c = .null) :
    (visitChunk act sub osz level ptr c w).2.1 = .null := by
  rw [null]
  rfl

theorem visitChunks_spec {osz level : Nat} (takes : act.Takes k) (searches : Searches act m ptr items fits sub)
    (size : osz ≠ 0 → IsSize pageSize osz) (cs : List (Chunk K)) (w : World pageSize) (unused : osz = 0 → ∀ c ∈ cs, c = .null)
    (fit : ∀ c ∈ cs, FitsChunk m pageSize fits osz level c)
    (countable : m = .first → Countable pageSize (cs.map (Chunk.items items osz)).sum) :
    let t := visitChunks act sub osz level ptr cs w
    Visit act m ptr t.1 (cs.map (Chunk.items items osz)).sum (t.2.1.map (Chunk.items items osz)).sum w t.2.2 ∧
      (∀ c ∈ t.2.1, FitsChunk m pageSize fits osz level c) ∧ t.2.1.length = cs.length ∧
      (osz = 0 → ∀ c ∈ t.2.1, c = .null) := by
  induction cs generalizing w with
  | nil => exact ⟨Visit.skip (Grown.refl 0 w) fun _ _ => not_usedAt_zero, fit, rfl, unused⟩
  | cons c rest ih =>
    obtain ⟨fit_c, fit_rest⟩ := List.forall_mem_cons.mp fit
    have unused_c := fun zero => (List.forall_mem_cons.mp (unused zero)).1
    have unused_rest := fun zero => (List.forall_mem_cons.mp (unused zero)).2
    rw [List.map_cons, List.sum_cons] at countable ⊢
    have countable_c := fun only => (countable only).mono (Multiset.le_add_right (c.items items osz) _)
    have countable_rest := fun only =>
      (countable only).mono (Multiset.le_add_left (rest.map (Chunk.items items osz)).sum (c.items items osz))
    obtain ⟨visit, fit_c'⟩ := visitChunk_spec takes searches size c w unused_c fit_c countable_c
    have null := visitChunk_null act sub osz level ptr c w
    rw [visitChunks]
    dsimp only
    generalize visitChunk act sub osz level ptr c w = t at visit fit_c' null
    obtain ⟨_ | found, c', w'⟩ := t
    · obtain ⟨after, fit_after, length, unused'⟩ := ih w' unused_rest fit_rest countable_rest
      refine ⟨Visit.seq visit after, List.forall_mem_cons.mpr ⟨fit_c', fit_after⟩, congrArg Nat.succ length, fun zero => ?_⟩
      exact List.forall_mem_cons.mpr ⟨null (unused_c zero), unused' zero⟩
    · refine ⟨?_, List.forall_mem_cons.mpr ⟨fit_c', fit_rest⟩, rfl, fun zero => ?_⟩
      · cases found with
        | false =>
          obtain ⟨same, grown, free⟩ := visit
          simp only [List.map_cons, List.sum_cons] at same ⊢
          rw [same]
          exact Visit.skip grown fun _ not_free => absurd (free.mono (Multiset.le_add_right _ _)) not_free
        | true => exact Visit.frame visit _
      · exact List.forall_mem_cons.mpr ⟨null (unused_c zero), unused_rest zero⟩

/-- A node at level 0 has no more objects than its pages. -/
theorem card_used_le {n : Node (Chunk K)} {d : Nat} (only : m = .first) (level : n.level = 0)
    (fit : FitsNode m pageSize d items fits n) : (usedOf (n.items items)).card ≤ slabNodes * nobjs n.osz pageSize := by
  have bound : ∀ cs : List (Chunk K), (∀ c ∈ cs, FitsChunk m pageSize fits n.osz 0 c) →
      (usedOf (cs.map (Chunk.items items n.osz)).sum).card ≤ cs.length * nobjs n.osz pageSize := by
    intro cs fit
    induction cs with
    | nil => exact Nat.zero_le _
    | cons c rest ih =>
      obtain ⟨fit_c, fit_rest⟩ := List.forall_mem_cons.mp fit
      have most := ih fit_rest
      rw [List.map_cons, List.sum_cons, usedOf_add, Multiset.card_add, List.length_cons, Nat.succ_mul]
      have here : (usedOf (c.items items n.osz)).card ≤ nobjs n.osz pageSize := by
        cases c with
        | null => exact Nat.zero_le _
        | index a nodes =>
          rcases fit_c.1 with any | high
          · rw [only] at any
            cases any
          · exact absurd rfl high
        | data a words => exact fit_c.2 ▸ card_used_data a words
      omega
  rw [← fit.length]
  exact bound n.ptr (level ▸ fit.chunks)

theorem card_used_lt {n : Node (Chunk K)} {d : Nat} (only : m = .first) (level : n.level = 0)
    (fit : FitsNode m pageSize d items fits n) (countable : Countable pageSize (n.items items)) :
    (usedOf (n.items items)).card < 2 ^ 28 := by
  rcases countable with small | few
  · by_cases zero : n.osz = 0
    · rw [Node.items_null (fit.unused zero)]
      decide
    · have most := card_used_le only level fit
      have objects := nobjs_le (fit.size zero)
      have : pageSize / slabMinAlloc ≤ 2 ^ 29 / slabMinAlloc := Nat.div_le_div_right small
      unfold slabNodes at most
      unfold slabMinAlloc at *
      omega
  · exact few

theorem visitNode_spec {d : Nat} (takes : act.Takes k) (searches : Searches act m ptr items fits sub) (n : Node (Chunk K))
    (w : World pageSize) (fit : FitsNode m pageSize d items fits n)
    (countable : m = .first → Countable pageSize (n.items items)) :
    let t := visitNode act sub ptr n w
    Visit act m ptr t.1 (n.items items) (t.2.1.items items) w t.2.2 ∧ FitsNode m pageSize d items fits t.2.1 ∧
      t.2.1.level = n.level ∧ t.2.1.osz = n.osz := by
  obtain ⟨visit, chunks, length, unused⟩ :=
    visitChunks_spec takes searches fit.size n.ptr w fit.unused fit.chunks countable
  rw [visitNode]
  generalize visitChunks act sub n.osz n.level ptr n.ptr w = t at visit chunks length unused
  obtain ⟨found, ptr', w'⟩ := t
  refine ⟨visit, ⟨fit.level, length.trans fit.length, unused, fit.size, chunks, fun only level => ?_⟩, rfl, rfl⟩
  have level' : n.level = 0 := level
  have before := fit.count only level'
  have few := card_used_lt only level' fit (countable only)
  have known : m ≠ .any := by
    rw [only]
    decide
  have taken := visit.card takes known
  rw [show n.items items = (n.ptr.map (Chunk.items items n.osz)).sum from rfl] at before few
  show (if n.level = 0 ∧ found then act.count n.count else n.count) =
    (usedOf (ptr'.map (Chunk.items items n.osz)).sum).card % 2 ^ 28
  dsimp only at taken
  cases found with
  | false =>
    rw [if_neg (by simp), before, ← taken]
    rfl
  | true =>
    rw [if_pos ⟨level', rfl⟩, takes.count, before]
    rw [if_pos rfl] at taken
    rw [Nat.mod_eq_of_lt few, Nat.mod_eq_of_lt (by omega)]
    omega

end Trees

/-- `_slab_verify` finds the object at the address, or there is none that it can find. -/
theorem slabVisitAt_spec {act : Action pageSize} {m : Pushes} {k : Nat} (takes : act.Takes k) (ptr d : Nat)
    (n : Node (Kind d)) (w : World pageSize) (fit : FitsAt m pageSize d n)
    (countable : m = .first → Countable pageSize (itemsAt d n)) :
    let t := slabVisitAt act ptr d n w
    Visit act m ptr t.1 (itemsAt d n) (itemsAt d t.2.1) w t.2.2 ∧ FitsAt m pageSize d t.2.1 ∧ t.2.1.level = n.level ∧
      t.2.1.osz = n.osz := by
  induction d generalizing w with
  | zero => exact fit.elim
  | succ d ih =>
    refine visitNode_spec takes ⟨fun n w fit countable => ?_, fun n fit only level countable pruned => ?_⟩ n w fit countable
    · obtain ⟨visit, fit', level, -⟩ := ih n w fit countable
      exact ⟨visit, fit', level⟩
    · cases d with
      | zero => exact fit.elim
      | succ d =>
        have few := card_used_lt only level fit countable
        have counted := FitsNode.count fit only level
        by_cases zero : n.osz = 0
        · have null := FitsNode.unused fit zero
          rw [itemsAt, Node.items_null null, usedOf_zero]
        · have none : n.count = 0 := not_not.mp fun some => pruned ⟨some, zero⟩
          rw [none, Nat.mod_eq_of_lt few] at counted
          exact Multiset.card_eq_zero.mp counted.symm

end Visit

end PreTeO.Mem.Slab
