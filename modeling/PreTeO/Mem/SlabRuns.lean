import PreTeO.Mem.SlabInv

/-!
# Runs of the slab allocator

Every call that is allowed keeps the invariant, and so does every run.
-/

namespace PreTeO.Mem.Slab
set_option autoImplicit false

variable {pageSize : Nat} {m : Pushes} {long : Prop}

/-! ## The search in the classes -/

section Visit
variable {act : Action pageSize} {ptr k : Nat}

/-- What a search does to the tree of a class. -/
def Visited (act : Action pageSize) (m : Pushes) (ptr : Nat) (r r' : Root) : Prop :=
  RootFits m pageSize r' ∧ r'.node.osz = r.node.osz ∧ ∃ found w w', Visit act m ptr found r.items r'.items w w'

theorem visitRoot_spec (takes : act.Takes k) (ptr : Nat) {root : Root} (w : World pageSize) (fits : RootFits m pageSize root)
    (countable : m = .first → Countable pageSize root.items) :
    let t := Context.visitRoot act ptr root w
    Visit act m ptr t.1 root.items t.2.1.items w t.2.2 ∧ Visited act m ptr root t.2.1 := by
  obtain ⟨visit, tree, level, osz⟩ := slabVisitAt_spec takes ptr root.depth root.node w fits.tree countable
  exact ⟨visit, ⟨tree, fun known => (congrArg Nat.succ level).trans (fits.level known)⟩, osz, _, _, _, visit⟩

/-- The loop over the classes. -/
theorem visitRoots_spec (takes : act.Takes k) (ptr : Nat) (roots : List Root) (w : World pageSize)
    (fits : ∀ r ∈ roots, RootFits m pageSize r) (countable : m = .first → Countable pageSize (itemsOf roots)) :
    let t := Context.visitRoots act ptr roots w
    Visit act m ptr t.1 (itemsOf roots) (itemsOf t.2.1) w t.2.2 ∧ t.2.1.length = roots.length ∧
      ∀ (p : Nat) (r r' : Root), roots[p]? = some r → t.2.1[p]? = some r' → r' = r ∨ Visited act m ptr r r' := by
  induction roots generalizing w with
  | nil =>
    have skip : Visit act m ptr false 0 0 w w := Visit.skip (Grown.refl 0 w) fun _ _ => not_usedAt_zero
    exact ⟨skip, rfl, fun p r r' get => by cases get⟩
  | cons r rest ih =>
    obtain ⟨fits_r, fits_rest⟩ := List.forall_mem_cons.mp fits
    rw [show itemsOf (r :: rest) = r.items + itemsOf rest from rfl] at countable ⊢
    have countable_r := fun only => (countable only).mono (Multiset.le_add_right r.items _)
    have countable_rest := fun only => (countable only).mono (Multiset.le_add_left (itemsOf rest) r.items)
    obtain ⟨visit, visited⟩ := visitRoot_spec takes ptr w fits_r countable_r
    rw [Context.visitRoots]
    generalize Context.visitRoot act ptr r w = t at visit visited
    obtain ⟨_ | _, r', w'⟩ := t
    · obtain ⟨after, length, later⟩ := ih w' fits_rest countable_rest
      refine ⟨visit.seq after, congrArg Nat.succ length, fun p q q' get get' => ?_⟩
      cases p with
      | zero =>
        cases get
        cases get'
        exact .inr visited
      | succ p => exact later p q q' get get'
    · refine ⟨visit.frame _, rfl, fun p q q' get get' => ?_⟩
      cases p with
      | zero =>
        cases get
        cases get'
        exact .inr visited
      | succ p => exact .inl (Option.some.inj (get'.symm.trans get))

/-- A search keeps what every run keeps of the classes. -/
theorem RootsFit.visited {roots roots' : List Root} (fit : RootsFit m pageSize roots) (length : roots'.length = roots.length)
    (visited : ∀ (p : Nat) (r r' : Root), roots[p]? = some r → roots'[p]? = some r' → r' = r ∨ Visited act m ptr r r') :
    RootsFit m pageSize roots' where
  length := length.trans fit.length
  fits r' member := by
    obtain ⟨p, less, rfl⟩ := List.mem_iff_getElem.mp member
    have get := List.getElem?_eq_getElem (length ▸ less)
    rcases visited p _ _ get (List.getElem?_eq_getElem less) with same | visited
    · exact same ▸ fit.fits _ (List.getElem_mem _)
    · exact visited.1
  classes p osz get := by
    rw [List.getElem?_map, Option.map_eq_some_iff] at get
    obtain ⟨r', get', rfl⟩ := get
    have less := (List.getElem?_eq_some_iff.mp get').1
    have get := List.getElem?_eq_getElem (length ▸ less)
    refine fit.classes p _ ?_
    rw [List.getElem?_map, get, Option.map_some]
    rcases visited p _ _ get get' with same | visited
    · rw [same]
    · rw [visited.2.1]

/-- Objects at other addresses stay in use. -/
theorem Visit.keeps {found : Bool} {M M' : Multiset Item} {w w' : World pageSize}
    (visit : Visit .release m ptr found M M' w w') {u : Obj} (member : u ∈ usedOf M) (other : u.addr ≠ ptr) : u ∈ usedOf M' := by
  cases found with
  | false => exact visit.1 ▸ member
  | true =>
    rcases visit.released with ⟨-, same, -⟩ | released
    · exact same ▸ member
    · obtain ⟨osz, used⟩ := released.used
      rw [used] at member
      exact (Multiset.mem_cons.mp member).resolve_left fun same => other (congrArg Obj.addr same)

end Visit

/-! ## Calls that change no object -/

/-- The same objects in the same pages. -/
theorem Inv.same {s : State pageSize} (inv : Inv m long s) {slab : List Root} {w : World pageSize}
    (fit : RootsFit m pageSize slab)
    (groups : (itemsOf slab).map (Item.group pageSize) = (itemsOf s.ctx.slab).map (Item.group pageSize))
    (used : usedOf (itemsOf slab) = usedOf (itemsOf s.ctx.slab))
    (keeps : ∀ (p : Nat) (r : Root), s.ctx.slab[p]? = some r →
      ∃ r' : Root, slab[p]? = some r' ∧ usedOf r.items = usedOf r'.items)
    (grown : Grown 0 s.ctx.world w 0) : Inv m long ⟨⟨s.ctx.pSlab, slab, w⟩, s.live⟩ where
  roots := fit
  held := by
    rw [grown.held, Multiset.map_zero, zero_add, inv.held, groups]
  ledger := by
    rw [grown.held, grown.obtained, grown.freed, Multiset.map_zero, zero_add, zero_add, inv.ledger]
  sound := grown.sound inv.sound
  divisible := grown.divisible inv.divisible
  owned o member := (inv.owned o member).mono fun p r get => by
    obtain ⟨r', get', same⟩ := keeps p r get
    exact ⟨r', get', fun u in_use _ => same ▸ in_use⟩
  distinct := inv.distinct
  whole only := by rw [used, inv.whole only]

/-- The world changes without its pages. -/
theorem Inv.world {s : State pageSize} (inv : Inv m long s) {w : World pageSize} (grown : Grown 0 s.ctx.world w 0) :
    Inv m long ⟨⟨s.ctx.pSlab, s.ctx.slab, w⟩, s.live⟩ :=
  inv.same inv.roots rfl rfl (fun _ r get => ⟨r, get, rfl⟩) grown

/-- The objects that are in use are few enough to count. -/
theorem Inv.countable {s : State pageSize} (inv : Inv m long s) (only : m = .first) (few : s.Few) :
    Countable pageSize (itemsOf s.ctx.slab) := by
  refine few.imp_right fun less => ?_
  have count := congrArg Multiset.card (inv.whole only)
  rw [Multiset.card_map, Multiset.coe_card, List.length_map] at count
  omega

theorem Inv.visit_spec {s : State pageSize} {act : Action pageSize} {k : Nat} (inv : Inv m long s)
    (few : m = .first → s.Few) (takes : act.Takes k) (ptr : Nat) :
    let t := s.ctx.visit act ptr
    Visit act m ptr t.1 (itemsOf s.ctx.slab) (itemsOf t.2.slab) s.ctx.world t.2.world ∧ RootsFit m pageSize t.2.slab ∧
      t.2.pSlab = s.ctx.pSlab ∧ ∀ (p : Nat) (r : Root), s.ctx.slab[p]? = some r →
        ∃ r' : Root, t.2.slab[p]? = some r' ∧ (r' = r ∨ Visited act m ptr r r') := by
  obtain ⟨visit, length, visited⟩ := visitRoots_spec takes ptr s.ctx.slab s.ctx.world inv.roots.fits fun only =>
    inv.countable only (few only)
  refine ⟨visit, inv.roots.visited length visited, rfl, fun p r get => ?_⟩
  have less : p < (Context.visitRoots act ptr s.ctx.slab s.ctx.world).2.1.length :=
    length.symm ▸ (List.getElem?_eq_some_iff.mp get).1
  exact ⟨_, List.getElem?_eq_getElem less, visited p r _ get (List.getElem?_eq_getElem less)⟩

/-- With a size, the search is in one class. -/
theorem Inv.visitSized_spec {s : State pageSize} {act : Action pageSize} {k size : Nat} (page : PageSize pageSize)
    (inv : Inv m long s) (few : m = .first → s.Few) (takes : act.Takes k) (ptr : Nat) (request : size ≤ 2 ^ 32 - pageSize) :
    let t := s.ctx.visitSized act ptr size
    ∃ p r r', slabClass size pageSize = some p ∧ s.ctx.slab[p]? = some r ∧ t.2.slab = s.ctx.slab.set p r' ∧
      t.2.pSlab = s.ctx.pSlab ∧ RootsFit m pageSize t.2.slab ∧ Visit act m ptr t.1 r.items r'.items s.ctx.world t.2.world := by
  obtain ⟨p, r, root, w, found, get, entry, items, fits, in_class, -, grown⟩ := entry_spec page inv.roots request
  have countable : m = .first → Countable pageSize root.items := fun only =>
    (inv.countable only (few only)).mono (items ▸ items_le (List.mem_of_getElem? get))
  obtain ⟨visit, visited⟩ := visitRoot_spec takes ptr w fits countable
  rw [items] at visit
  rw [Context.visitSized, entry]
  exact ⟨p, r, _, found, get, rfl, rfl, inv.roots.set visited.1 (visited.2.1 ▸ in_class), visit.of_grown (grown 0)⟩

theorem Inv.verify {s : State pageSize} (inv : Inv m long s) {ptr : Nat} (allowed : (Op.verify ptr).Allowed m long s) :
    Inv m long (s.step (.verify ptr)) := by
  obtain ⟨visit, fit, pSlab, visited⟩ := inv.visit_spec allowed.1 keep_takes ptr
  rw [State.step]
  generalize s.ctx.visit .keep ptr = t at *
  obtain ⟨found, ⟨_, slab, w⟩⟩ := t
  obtain rfl : _ = s.ctx.pSlab := pSlab
  obtain ⟨same, grown, -⟩ := visit.kept
  refine inv.same fit (congrArg _ same) (congrArg _ same) (fun p r get => ?_) grown
  obtain ⟨r', get', rfl | ⟨-, -, found, w₁, w₂, visit_r⟩⟩ := visited p r get
  · exact ⟨r', get', rfl⟩
  · exact ⟨r', get', congrArg usedOf visit_r.kept.1.symm⟩

theorem set_keeps {roots : List Root} {p : Nat} {r r' : Root} (get : roots[p]? = some r) {P : Root → Root → Prop}
    (same : ∀ q, P q q) (changed : P r r') (q : Nat) (r₁ : Root) (get₁ : roots[q]? = some r₁) :
    ∃ r₂, (roots.set p r')[q]? = some r₂ ∧ P r₁ r₂ := by
  by_cases here : p = q
  · subst here
    obtain rfl : r = r₁ := Option.some.inj (get.symm.trans get₁)
    exact ⟨r', List.getElem?_set_self (List.getElem?_eq_some_iff.mp get).1, changed⟩
  · exact ⟨r₁, (List.getElem?_set_ne here).trans get₁, same r₁⟩

theorem Inv.verifySized {s : State pageSize} (page : PageSize pageSize) (inv : Inv m long s) {ptr size : Nat}
    (allowed : (Op.verifySized ptr size).Allowed m long s) : Inv m long (s.step (.verifySized ptr size)) := by
  obtain ⟨p, r, r', -, get, slab, pSlab, fit, visit⟩ := inv.visitSized_spec page allowed.1 keep_takes ptr allowed.2
  obtain ⟨R, items, items_set⟩ := itemsOf_set get
  rw [State.step]
  generalize s.ctx.visitSized .keep ptr size = t at *
  obtain ⟨found, ⟨_, _, w⟩⟩ := t
  obtain rfl : _ = s.ctx.pSlab := pSlab
  obtain rfl : _ = s.ctx.slab.set p r' := slab
  obtain ⟨same, grown, -⟩ := visit.kept
  have whole : itemsOf (s.ctx.slab.set p r') = itemsOf s.ctx.slab := by rw [items_set, items, same]
  exact inv.same fit (congrArg _ whole) (congrArg _ whole)
    (set_keeps get (fun _ => rfl) (congrArg usedOf same.symm)) grown

theorem Inv.status {s : State pageSize} (inv : Inv m long s) : Inv m long (s.step .status) := by
  have divisors : ∀ roots : List Root, (∀ r ∈ roots, RootFits m pageSize r) → ∀ osz ∈ (roots.foldr (fun root sum =>
      ((slabStatusAt pageSize root.depth root.node).1 + sum.1, (slabStatusAt pageSize root.depth root.node).2 ++ sum.2))
        ((0, []) : Status × List Nat)).2, osz ≠ 0 := by
    intro roots fits
    induction roots with
    | nil => exact List.forall_mem_nil _
    | cons r rest ih =>
      obtain ⟨fits_r, fits_rest⟩ := List.forall_mem_cons.mp fits
      intro osz member
      rcases List.mem_append.mp member with here | later
      · exact slabStatusAt_divisors r.depth r.node fits_r.tree osz here
      · exact ih fits_rest osz later
  refine inv.world ⟨rfl, by rw [Multiset.map_zero, zero_add], ?_, rfl, id, fun ok => ⟨ok.1, fun osz member => ?_⟩,
    fun i member => absurd member (Multiset.notMem_zero i)⟩
  · rw [Multiset.map_zero, zero_add]
    rfl
  · rcases List.mem_append.mp member with here | before
    · exact divisors s.ctx.slab inv.roots.fits osz here
    · exact ok.2 osz before

/-- What an owner stores in its object. -/
theorem Inv.store {s : State pageSize} (inv : Inv m long s) {p v : Nat} (owner : ∃ o ∈ s.live, o.addr = p)
    (busy : ¬ IsFree v) : Inv m long (s.step (.store p v)) := by
  obtain ⟨o, live, rfl⟩ := owner
  have owned : ¬ FreeAt o.addr (itemsOf s.ctx.slab) := inv.separate.not_free (inv.owned o live).usedAt
  let stored : Root → Root := fun root => ⟨root.depth, storeAt o.addr v root.depth root.node⟩
  have items : ∀ r, (stored r).items = r.items.map (Item.store o.addr v) := fun r => itemsAt_store o.addr v r.depth r.node
  have whole : ∀ roots : List Root, itemsOf (roots.map stored) = (itemsOf roots).map (Item.store o.addr v) := by
    intro roots
    induction roots with
    | nil => rfl
    | cons r rest ih =>
      rw [List.map_cons, show ∀ r rest, itemsOf (r :: rest) = r.items + itemsOf rest from fun _ _ => rfl, ih, items,
        ← Multiset.map_add]
      rfl
  have groups : ∀ M : Multiset Item, (M.map (Item.store o.addr v)).map (Item.group pageSize) = M.map (Item.group pageSize) := by
    intro M
    rw [Multiset.map_map]
    exact Multiset.map_congr rfl fun i _ => Item.group_store pageSize o.addr v i
  have fits : RootsFit m pageSize (s.ctx.slab.map stored) := by
    refine ⟨(List.length_map _).trans inv.roots.length, fun r' member => ?_, fun p osz get => inv.roots.classes p osz ?_⟩
    · obtain ⟨r, r_mem, rfl⟩ := List.mem_map.mp member
      obtain ⟨level, -, -⟩ := storeAt_fields o.addr v r.depth r.node
      have fits_r := inv.roots.fits r r_mem
      refine ⟨fitsAt_store busy r.depth r.node (fun free => owned (free.mono (items_le r_mem))) fits_r.tree, fun known => ?_⟩
      exact (congrArg Nat.succ level).trans (fits_r.level known)
    · rw [← get, List.map_map]
      refine congrArg (fun l => l[p]?) (List.map_congr_left fun r _ => ?_)
      exact (storeAt_fields o.addr v r.depth r.node).2.1.symm
  refine inv.same fits ((congrArg _ (whole _)).trans (groups _)) ((congrArg _ (whole _)).trans (usedOf_store busy owned))
    (fun p r get => ⟨stored r, by rw [List.getElem?_map, get, Option.map_some], ?_⟩) (Grown.refl 0 _)
  rw [items, usedOf_store busy fun free => owned (free.mono (items_le (List.mem_of_getElem? get)))]

/-! ## `slab_free` -/

/-- The pages that a search gives back, which are those of at most one object. -/
structure Gone (M M' : Multiset Item) (w w' : World pageSize) (gone : List Group) : Prop where
  single : gone.length ≤ 1
  source : w'.source = w.source
  groups : M.map (Item.group pageSize) = (gone : Multiset Group) + M'.map (Item.group pageSize)
  freed : w'.freed = gone ++ w.freed
  held : (gone : Multiset Group) ≤ w.held → (w.held : Multiset Group) = (gone : Multiset Group) + w'.held
  obtained : (w'.obtained : Multiset Group) = w.obtained
  sound : w.Sound → w'.Sound
  divisible : w.Divisible → w'.Divisible

theorem Gone.none {M M' : Multiset Item} {w w' : World pageSize} (grown : Grown 0 w w' 0)
    (groups : M'.map (Item.group pageSize) = M.map (Item.group pageSize)) : Gone M M' w w' [] where
  single := Nat.zero_le 1
  source := grown.source
  groups := by rw [groups, Multiset.coe_nil, zero_add]
  freed := grown.freed
  held _ := by rw [grown.held, Multiset.map_zero, zero_add, Multiset.coe_nil, zero_add]
  obtained := by rw [grown.obtained, Multiset.map_zero, zero_add]
  sound := grown.sound
  divisible := grown.divisible

theorem Visit.gone {ptr : Nat} {found : Bool} {M M' : Multiset Item} {w w' : World pageSize}
    (visit : Visit .release m ptr found M M' w w') : ∃ gone, Gone M M' w w' gone := by
  cases found with
  | false => exact ⟨[], Gone.none visit.2.1 (congrArg _ visit.1)⟩
  | true =>
    rcases visit.released with ⟨-, same, grown⟩ | released
    · exact ⟨[], Gone.none grown (congrArg _ same)⟩
    obtain ⟨w₁, grown, ⟨groups, rfl⟩ | ⟨osz, words, rfl, rfl⟩⟩ := released.pages
    · exact ⟨[], Gone.none grown groups⟩
    have held : (w₁.held : Multiset Group) = w.held := by rw [grown.held, Multiset.map_zero, zero_add]
    refine ⟨[(ptr, dataPages osz pageSize)], Nat.le_refl 1, grown.source, ?_, congrArg (_ :: ·) grown.freed, fun less => ?_, ?_,
      fun sound => ?_, grown.divisible⟩
    · rw [Multiset.map_cons, Multiset.coe_singleton, Multiset.singleton_add]
      rfl
    · have after : ((w₁.memFree ptr (dataPages osz pageSize)).held : Multiset Group) =
          w₁.held - Multiset.map (Item.group pageSize) {.data osz ptr words} := (GaveBack.free w₁ (.data osz ptr words)).held
      rw [after, Multiset.map_singleton, held]
      exact (add_tsub_cancel_of_le less).symm
    · exact grown.obtained.trans (by rw [Multiset.map_zero, zero_add])
    · obtain ⟨apart, some⟩ := grown.sound sound
      exact ⟨apart.sublist List.erase_sublist, fun g member => some g (List.mem_of_mem_erase member)⟩

/-- The pages that are given back were held. -/
theorem Inv.gone_held {s : State pageSize} (inv : Inv m long s) {slab : List Root} {w : World pageSize} {gone : List Group}
    (pages : Gone (itemsOf s.ctx.slab) (itemsOf slab) s.ctx.world w gone) :
    (s.ctx.world.held : Multiset Group) = (gone : Multiset Group) + w.held := by
  refine pages.held ?_
  rw [inv.held, pages.groups]
  exact (Multiset.le_add_right _ _).trans (Multiset.le_cons_self _ _)

/-- What `slab_free` of a live object does, with a size or without. -/
structure Releases (m : Pushes) (s : State pageSize) (ptr : Nat) (t : Bool × Context pageSize) : Prop where
  fit : RootsFit m pageSize t.2.slab
  pSlab : t.2.pSlab = s.ctx.pSlab
  visit : Visit .release m ptr t.1 (itemsOf s.ctx.slab) (itemsOf t.2.slab) s.ctx.world t.2.world
  keeps : ∀ (p : Nat) (r : Root), s.ctx.slab[p]? = some r →
    ∃ r' : Root, t.2.slab[p]? = some r' ∧ ∀ u ∈ usedOf r.items, u.addr ≠ ptr → u ∈ usedOf r'.items
  sees : m = .first → t.1 = true

theorem Inv.releases {s : State pageSize} (inv : Inv m long s) {ptr : Nat} (allowed : (Op.free ptr).Allowed m long s) :
    Releases m s ptr (s.ctx.visit .release ptr) := by
  obtain ⟨few, live⟩ := allowed
  obtain ⟨visit, fit, pSlab, visited⟩ := inv.visit_spec few release_takes ptr
  generalize s.ctx.visit .release ptr = t at *
  refine ⟨fit, pSlab, visit, fun p r get => ?_, fun only => ?_⟩
  · obtain ⟨r', get', rfl | ⟨-, -, found', w₁, w₂, visit_r⟩⟩ := visited p r get
    · exact ⟨r', get', fun u in_use _ => in_use⟩
    · exact ⟨r', get', fun u in_use other => visit_r.keeps in_use other⟩
  · by_contra missed
    rw [Bool.not_eq_true] at missed
    obtain ⟨o, member, rfl⟩ := live
    have used := (inv.owned o member).usedAt
    rw [missed] at visit
    exact visit.2.2 only (inv.separate.not_free used) used

theorem Inv.releasesSized {s : State pageSize} (page : PageSize pageSize) (inv : Inv m long s) {ptr size : Nat}
    (allowed : (Op.freeSized ptr size).Allowed m long s) : Releases m s ptr (s.ctx.visitSized .release ptr size) := by
  obtain ⟨few, live⟩ := allowed
  obtain ⟨request, q, r_q, found_q, get_q, u, u_mem, here, -⟩ := inv.owned _ live
  obtain ⟨p, r, r', found, get, slab, pSlab, fit, visit⟩ := inv.visitSized_spec page few release_takes ptr request
  obtain rfl : p = q := Option.some.inj (found.symm.trans found_q)
  obtain rfl : r = r_q := Option.some.inj (get.symm.trans get_q)
  obtain ⟨R, items, items_set⟩ := itemsOf_set get
  generalize s.ctx.visitSized .release ptr size = t at *
  have sees : m = .first → t.1 = true := by
    intro only
    by_contra missed
    rw [Bool.not_eq_true] at missed
    rw [missed] at visit
    have used : UsedAt ptr r.items := ⟨u, u_mem, here⟩
    exact visit.2.2 only (fun free => inv.separate.not_free (used.mono (items_le (List.mem_of_getElem? get)))
      (free.mono (items_le (List.mem_of_getElem? get)))) used
  refine ⟨fit, pSlab, ?_, fun q r_q get_q => ?_, sees⟩
  · rw [slab, items, items_set]
    cases found' : t.1 with
    | true =>
      rw [found'] at visit
      exact visit.frame R
    | false =>
      rw [found'] at visit sees
      exact visit.seq (Visit.skip (Grown.refl 0 _) fun only => absurd (sees only) Bool.false_ne_true)
  · rw [slab]
    exact set_keeps get (P := fun r₁ r₂ => ∀ u ∈ usedOf r₁.items, u.addr ≠ ptr → u ∈ usedOf r₂.items)
      (fun _ _ in_use _ => in_use) (fun u in_use other => visit.keeps in_use other) q r_q get_q

/-- The object at an address is given back. -/
theorem Inv.release {s : State pageSize} (inv : Inv m long s) {ptr : Nat} {t : Bool × Context pageSize}
    (live : ∃ o ∈ s.live, o.addr = ptr) (releases : Releases m s ptr t) :
    Inv m long ⟨t.2, s.live.filter fun o => o.addr ≠ ptr⟩ := by
  have owned : ∀ o ∈ s.live.filter fun o => o.addr ≠ ptr, Owned pageSize long t.2.slab o := by
    intro o member
    obtain ⟨o_mem, other⟩ := List.mem_filter.mp member
    refine (inv.owned o o_mem).mono fun p r get => ?_
    obtain ⟨r', get', kept⟩ := releases.keeps p r get
    exact ⟨r', get', fun u in_use here => kept u in_use (here ▸ of_decide_eq_true other)⟩
  have distinct : ((s.live.filter fun o => o.addr ≠ ptr).map Obj.addr).Nodup :=
    inv.distinct.sublist (List.filter_sublist.map _)
  obtain ⟨gone, pages⟩ := releases.visit.gone
  have held := inv.gone_held pages
  refine ⟨releases.fit, ?_, ?_, pages.sound inv.sound, pages.divisible inv.divisible, owned, distinct, fun only => ?_⟩
  · refine add_left_cancel (a := (gone : Multiset Group)) ?_
    rw [← held, inv.held, pages.groups, releases.pSlab, Multiset.add_cons]
  · rw [pages.obtained, ← inv.ledger, held, pages.freed, ← Multiset.coe_add, add_left_comm, add_assoc]
  · have known : m ≠ .any := by
      rw [only]
      decide
    obtain ⟨o, member, rfl⟩ := live
    have visit := releases.visit
    rw [releases.sees only] at visit
    obtain ⟨any, -, -⟩ | released := visit.released
    · exact absurd any known
    obtain ⟨osz, used⟩ := released.used
    have whole := inv.whole only
    rw [used, Multiset.map_cons] at whole
    have once : (o.addr ::ₘ (usedOf (itemsOf t.2.slab)).map Obj.addr).Nodup := whole ▸ inv.distinct
    have others : ((s.live.filter fun o' => o'.addr ≠ o.addr).map Obj.addr : Multiset Nat) =
        (s.live.map Obj.addr : Multiset Nat).filter fun a => a ≠ o.addr := by
      rw [Multiset.filter_coe, List.filter_map]
      rfl
    have dropped : (o.addr ::ₘ (usedOf (itemsOf t.2.slab)).map Obj.addr).filter (fun a => a ≠ o.addr) =
        ((usedOf (itemsOf t.2.slab)).map Obj.addr).filter fun a => a ≠ o.addr :=
      Multiset.filter_cons_of_neg _ fun other => other rfl
    rw [others, ← whole, dropped]
    refine (Multiset.filter_eq_self.mpr fun a in_use same => ?_).symm
    rw [same] at in_use
    exact (Multiset.nodup_cons.mp once).1 in_use

theorem Inv.free {s : State pageSize} (inv : Inv m long s) {ptr : Nat} (allowed : (Op.free ptr).Allowed m long s) :
    Inv m long (s.step (.free ptr)) :=
  inv.release allowed.2 (inv.releases allowed)

theorem Inv.freeSized {s : State pageSize} (page : PageSize pageSize) (inv : Inv m long s) {ptr size : Nat}
    (allowed : (Op.freeSized ptr size).Allowed m long s) : Inv m long (s.step (.freeSized ptr size)) :=
  inv.release ⟨_, allowed.2, rfl⟩ (inv.releasesSized page allowed)

/-! ## Runs -/

theorem Inv.step {s : State pageSize} {op : Op} (page : PageSize pageSize) (inv : Inv m long s)
    (allowed : op.Allowed m long s) : Inv m long (s.step op) := by
  cases op with
  | alloc size limit => exact inv.alloc page allowed
  | free ptr => exact inv.free allowed
  | freeSized ptr size => exact inv.freeSized page allowed
  | verify ptr => exact inv.verify allowed
  | verifySized ptr size => exact inv.verifySized page allowed
  | status => exact inv.status
  | store ptr v => exact inv.store allowed.2.1 allowed.2.2

/-- The pages of a page allocator that has given none. -/
def World.start (source : PageSource pageSize) : World pageSize :=
  { source := source, calls := [], held := [], freed := [], sizes := [], divisors := [] }

/-- `slab_init`, before any call. -/
def State.start (source : PageSource pageSize) : Option (State pageSize) :=
  (Context.init (World.start source)).map fun ctx => ⟨ctx, []⟩

/-- The states of the runs of a slab allocator. -/
def Runs (m : Pushes) (long : Prop) (source : PageSource pageSize) (s : State pageSize) : Prop :=
  ∃ s₀, State.start source = some s₀ ∧ Lib.Reach (fun s op => some (State.step s op)) (fun s op => op.Allowed m long s) s₀ s

theorem Inv.start {source : PageSource pageSize} {s : State pageSize} (start : State.start source = some s) :
    Inv m long s := by
  rw [State.start, Context.init] at start
  dsimp only at start
  split_ifs at start with page given
  · obtain rfl := Option.some.inj start
    have grown := Grown.given 0 (World.start source) (.index _) given rfl trivial
    have empty : itemsOf (List.replicate (pageSize / slabSz) Root.zero) = 0 := by
      rw [itemsOf, List.map_replicate, Root.items, Root.zero, itemsAt_zero, List.sum_replicate, nsmul_zero]
    refine ⟨⟨List.length_replicate, fun r member => ?_, fun p osz get => ?_⟩, ?_, ?_, grown.sound ?_, grown.divisible ?_,
      List.forall_mem_nil _, List.nodup_nil, fun _ => ?_⟩
    · rw [List.eq_of_mem_replicate member]
      exact ⟨fitsAt_zero m pageSize 0, fun _ => rfl⟩
    · rw [List.map_replicate] at get
      obtain rfl := List.eq_of_mem_replicate (List.mem_of_getElem? get)
      exact fun some => absurd rfl some
    · rw [grown.held, empty]
      rfl
    · rw [grown.held, grown.obtained, grown.freed]
      rfl
    · exact ⟨List.Pairwise.nil, List.forall_mem_nil _⟩
    · exact ⟨List.forall_mem_nil _, List.forall_mem_nil _⟩
    · rw [empty]
      rfl
  · cases start
  · cases start

/-- Every run keeps the invariant. -/
theorem Runs.inv {source : PageSource pageSize} {s : State pageSize} (page : PageSize pageSize) (run : Runs m long source s) :
    Inv m long s := by
  obtain ⟨s₀, start, reach⟩ := run
  refine reach.invariant (Inv.start start) fun s op t inv allowed next => ?_
  cases next
  exact inv.step page allowed

/-- The page allocator stays the same. -/
theorem Inv.source {s : State pageSize} {op : Op} (page : PageSize pageSize) (inv : Inv m long s)
    (allowed : op.Allowed m long s) : (s.step op).ctx.world.source = s.ctx.world.source := by
  have released : ∀ {ptr t}, Releases m s ptr t → t.2.world.source = s.ctx.world.source := by
    intro ptr t releases
    obtain ⟨gone, pages⟩ := releases.visit.gone
    exact pages.source
  cases op with
  | alloc size limit =>
    obtain ⟨p, r, r', osz, -, -, -, -, -, outcome, -⟩ := alloc_spec page inv.roots allowed.2.1 allowed.2.2.1
    obtain ⟨new, grown, -⟩ := outcome.pages
    exact grown.source
  | free ptr => exact released (inv.releases allowed)
  | freeSized ptr size => exact released (inv.releasesSized page allowed)
  | verify ptr => exact (inv.visit_spec allowed.1 keep_takes ptr).1.kept.2.1.source
  | verifySized ptr size =>
    obtain ⟨p, r, r', -, -, -, -, -, visit⟩ := inv.visitSized_spec page allowed.1 keep_takes ptr allowed.2
    exact visit.kept.2.1.source
  | status => rfl
  | store ptr v => rfl

theorem Runs.source_eq {source : PageSource pageSize} {s : State pageSize} (page : PageSize pageSize)
    (run : Runs m long source s) : s.ctx.world.source = source := by
  obtain ⟨s₀, start, reach⟩ := run
  have first : s₀.ctx.world.source = source := by
    rw [State.start, Context.init] at start
    dsimp only at start
    split_ifs at start
    · obtain rfl := Option.some.inj start
      rfl
    · cases start
    · cases start
  have both : Inv m long s ∧ s.ctx.world.source = source := by
    apply reach.invariant
    · exact ⟨Inv.start start, first⟩
    · intro s op t both allowed next
      cases next
      exact ⟨both.1.step page allowed, (both.1.source page allowed).trans both.2⟩
  exact both.2

end PreTeO.Mem.Slab
