import PreTeO.Mem.SlabRuns
import Mathlib.Data.Multiset.Pairwise

/-!
# Owners, pages and reports of the slab allocator

What every run means for the owners of the objects and for the page allocator, and what `slab_verify` and `slab_status`
say in it.
-/

namespace PreTeO.Mem.Slab
set_option autoImplicit false

open Lib.Mem (Apart)

variable {pageSize : Nat} {m : Pushes} {long : Prop} {source : PageSource pageSize} {s : State pageSize}

/-! ## A page allocator to run with -/

/-- The least page above all that are held. -/
def topPage (pageSize : Nat) (held : List Group) : Nat := held.foldr (fun g top => max top (g.1 / pageSize + g.2 + 1)) 1

theorem lt_topPage {held : List Group} {g : Group} (member : g ∈ held) : g.1 / pageSize + g.2 < topPage pageSize held := by
  induction held with
  | nil => exact absurd member List.not_mem_nil
  | cons h rest ih =>
    rw [topPage, List.foldr_cons]
    rcases List.mem_cons.mp member with rfl | later
    · exact Nat.lt_of_lt_of_le (Nat.lt_succ_self _) (Nat.le_max_right _ _)
    · exact Nat.lt_of_lt_of_le (ih later) (Nat.le_max_left _ _)

/-- Pages above all that are held, if they end below the limit and the end of the memory. -/
def pagesAbove (pageSize memory : Nat) (held : List Group) (npages limit : Nat) : Nat :=
  if pageSize * topPage pageSize held + npages * pageSize ≤ min limit (min memory (2 ^ 64)) then
    pageSize * topPage pageSize held
  else 0

theorem dvd_pagesAbove (pageSize memory : Nat) (held : List Group) (npages limit : Nat) :
    pageSize ∣ pagesAbove pageSize memory held npages limit := by
  unfold pagesAbove
  split_ifs
  · exact Nat.dvd_mul_right _ _
  · exact Nat.dvd_zero _

theorem pagesAbove_apart {memory : Nat} {held : List Group} {npages limit : Nat}
    (some : pagesAbove pageSize memory held npages limit ≠ 0) (g : Group) (member : g ∈ held) :
    Apart (pagesAbove pageSize memory held npages limit) (npages * pageSize) g.1 (g.2 * pageSize) := by
  unfold pagesAbove at some ⊢
  split_ifs at some ⊢
  · have positive : 0 < pageSize := Nat.pos_of_ne_zero fun zero => some (by rw [zero, Nat.zero_mul])
    have less := Nat.lt_div_mul_add positive (a := g.1)
    have above : g.1 / pageSize + g.2 < topPage pageSize held := lt_topPage member
    have top := Nat.mul_le_mul_left pageSize (Nat.succ_le_of_lt above)
    refine .inr ?_
    rw [Nat.mul_succ, Nat.mul_add, Nat.mul_comm pageSize (g.1 / pageSize), Nat.mul_comm pageSize g.2] at top
    omega
  · exact absurd rfl some

theorem pagesAbove_le {memory : Nat} {held : List Group} {npages limit : Nat}
    (some : pagesAbove pageSize memory held npages limit ≠ 0) :
    pagesAbove pageSize memory held npages limit + npages * pageSize ≤ min limit (min memory (2 ^ 64)) := by
  unfold pagesAbove at some ⊢
  split_ifs at some ⊢ with fits
  · exact fits
  · exact absurd rfl some

/-- A page allocator that gives the pages above all that are held. -/
def bump (pageSize memory : Nat) : PageSource pageSize where
  give _ held npages limit := pagesAbove pageSize memory held npages limit
  aligned _ held npages limit := dvd_pagesAbove pageSize memory held npages limit
  apart _ _ _ _ some g member := pagesAbove_apart some g member
  inside _ _ _ _ some := (pagesAbove_le some).trans ((Nat.min_le_right _ _).trans (Nat.min_le_right _ _))

instance (s : State pageSize) : Decidable s.Few := inferInstanceAs (Decidable (_ ∨ _))

instance (m : Pushes) (level : Nat) : Decidable (m.Allows level) := inferInstanceAs (Decidable (_ ∧ _))

instance (size limit : Nat) (root : Root) (w : World pageSize) : Decidable (Covers size limit root w) :=
  inferInstanceAs (Decidable (_ ∨ _ ∧ _))

instance (s : Context pageSize) (size limit : Nat) : Decidable (s.Long size limit) :=
  inferInstanceAs (Decidable (∀ e ∈ s.entry size, Covers size limit e.2.1 e.2.2))

instance (m : Pushes) (long : Prop) [Decidable long] (s : State pageSize) (op : Op) : Decidable (op.Allowed m long s) :=
  match op with
  | .alloc size limit => inferInstanceAs (Decidable ((m = .first → s.Few) ∧ size ≤ 2 ^ 32 - pageSize ∧
      (∀ level ∈ s.ctx.levels size limit, m.Allows level) ∧ (long → s.ctx.Long size limit)))
  | .free ptr => inferInstanceAs (Decidable ((m = .first → s.Few) ∧ ∃ o ∈ s.live, o.addr = ptr))
  | .freeSized ptr size => inferInstanceAs (Decidable ((m = .first → s.Few) ∧ (⟨ptr, size⟩ : Obj) ∈ s.live))
  | .verify _ => inferInstanceAs (Decidable ((m = .first → s.Few) ∧ True))
  | .verifySized _ size => inferInstanceAs (Decidable ((m = .first → s.Few) ∧ size ≤ 2 ^ 32 - pageSize))
  | .status => inferInstanceAs (Decidable ((m = .first → s.Few) ∧ True))
  | .store ptr v => inferInstanceAs (Decidable ((m = .first → s.Few) ∧ (∃ o ∈ s.live, o.addr = ptr) ∧ ¬ IsFree v))

theorem Op.Allowed.weaken {op : Op} (allowed : op.Allowed .first True s) : op.Allowed m long s := by
  refine ⟨fun _ => allowed.1 rfl, ?_⟩
  have rest := allowed.2
  cases op with
  | alloc size limit =>
    obtain ⟨fits, levels, long⟩ := rest
    refine ⟨fits, fun level member => ?_, fun _ => long trivial⟩
    exact ⟨fun _ => (levels level member).1 rfl, fun _ => (levels level member).2 (by decide)⟩
  | _ => exact rest

theorem Runs.weaken (run : Runs .first True source s) : Runs m long source s := by
  obtain ⟨s₀, start, reach⟩ := run
  exact ⟨s₀, start, reach.weaken fun _ _ allowed => allowed.weaken⟩

/-- A checked list of calls is a run. -/
theorem exists_run (source : PageSource pageSize) (ops : List Op) (P : State pageSize → Bool)
    (ends : ((State.start source).bind fun s => Lib.runAll (fun s op => some (State.step s op))
      (fun s op => op.Allowed .first True s) s ops).any P = true) : ∃ s, Runs .first True source s ∧ P s = true := by
  rw [Option.any_eq_true] at ends
  obtain ⟨s, ran, holds⟩ := ends
  obtain ⟨s₀, start, reach⟩ := Option.bind_eq_some_iff.mp ran
  exact ⟨s, ⟨s₀, start, Lib.Reach.of_runAll ops reach⟩, holds⟩

theorem pageSize_4096 : PageSize 4096 := ⟨12, by decide, by decide, rfl⟩

/-- Two sizes of one class, and pages that are given back. -/
def twoSizes : List Op :=
  [.alloc 5000 (2 ^ 32), .alloc 9000 (2 ^ 32), .store 12288 7, .free 12288, .alloc 5000 (2 ^ 32)]

theorem exists_twoSizes : ∃ s, Runs .first True (bump 4096 (2 ^ 32)) s ∧ s.live.length = 2 ∧
    s.ctx.world.obtained.length = 5 ∧ (Op.free 49152).Allowed .first True s ∧ (s.ctx.world.held.map Prod.snd).sum < 2 ^ 32 := by
  obtain ⟨s, run, ends⟩ := exists_run (bump 4096 (2 ^ 32)) twoSizes
    (fun s => decide (s.live.length = 2 ∧ s.ctx.world.obtained.length = 5 ∧ (Op.free 49152).Allowed .first True s ∧
      (s.ctx.world.held.map Prod.snd).sum < 2 ^ 32)) (by decide +kernel)
  exact ⟨s, run, of_decide_eq_true ends⟩

/-! ## The objects -/

/-- The pages of a live object. -/
theorem Inv.place (inv : Inv m long s) {o : Obj} (member : o ∈ s.live) :
    ∃ osz a words j, .data osz a words ∈ itemsOf s.ctx.slab ∧ j < nobjs osz pageSize ∧ o.addr = a + j * osz ∧
      (long → o.size ≤ osz) := by
  obtain ⟨-, p, r, -, get, u, in_use, here, covers⟩ := inv.owned o member
  obtain ⟨word, slot, -⟩ := mem_usedOf.mp in_use
  obtain ⟨osz, a, words, item, j, less, rfl, -⟩ := mem_slotsOf.mp slot
  have in_items : .data osz a words ∈ itemsOf s.ctx.slab := Multiset.mem_of_le (items_le (List.mem_of_getElem? get)) item
  exact ⟨osz, a, words, j, in_items, (inv.roots.paged _ _ _ in_items).2 ▸ less, here.symm, covers⟩

theorem Inv.group_held (inv : Inv m long s) {i : Item} (member : i ∈ itemsOf s.ctx.slab) :
    i.group pageSize ∈ s.ctx.world.held := by
  rw [← Multiset.mem_coe, inv.held]
  exact Multiset.mem_cons_of_mem (Multiset.mem_map_of_mem _ member)

theorem Inv.apart (inv : Inv m True s) {o o' : Obj} (member : o ∈ s.live) (member' : o' ∈ s.live)
    (other : o.addr ≠ o'.addr) : Apart o.addr o.size o'.addr o'.size := by
  obtain ⟨osz, a, words, j, item, less, here, covers⟩ := inv.place member
  obtain ⟨osz', a', words', j', item', less', here', covers'⟩ := inv.place member'
  have long := covers trivial
  have long' := covers' trivial
  by_cases same : Item.data osz a words = Item.data osz' a' words'
  · obtain ⟨rfl, rfl, rfl⟩ := Item.data.inj same
    have slots : j ≠ j' := by
      rintro rfl
      exact other (here.trans here'.symm)
    have : Apart (a + j * osz) osz (a + j' * osz) osz := slots_apart slots a
    simp only [Apart] at this ⊢
    omega
  · have pages := Multiset.Pairwise.forall inv.separate.apart item item' same
    have inside := slot_inside less
    have inside' := slot_inside less'
    simp only [ItemsApart, GroupsApart, Item.group, Apart] at pages ⊢
    omega

theorem Inv.inside (inv : Inv m True s) {o : Obj} (member : o ∈ s.live) :
    ∃ g ∈ s.ctx.world.held, g.1 ≤ o.addr ∧ o.addr + o.size ≤ g.1 + g.2 * pageSize := by
  obtain ⟨osz, a, words, j, item, less, here, covers⟩ := inv.place member
  have inside := slot_inside less
  have long := covers trivial
  refine ⟨_, inv.group_held item, ?_⟩
  simp only [Item.group]
  omega

/-- The objects that owners have share no byte and lie in pages that are held, each as long as was asked for. -/
theorem live_disjoint (page : PageSize pageSize) (run : Runs .any True source s) :
    (s.live.Pairwise fun o o' => Apart o.addr o.size o'.addr o'.size) ∧
      ∀ o ∈ s.live, ∃ g ∈ s.ctx.world.held, g.1 ≤ o.addr ∧ o.addr + o.size ≤ g.1 + g.2 * pageSize := by
  have inv := run.inv page
  refine ⟨?_, fun o member => inv.inside member⟩
  exact (List.pairwise_map.mp inv.distinct).imp_of_mem fun member member' other => inv.apart member member' other

theorem live_disjoint_two : ∃ s, Runs .any True (bump 4096 (2 ^ 32)) s ∧ s.live.length = 2 ∧
    s.live.Pairwise fun o o' => Apart o.addr o.size o'.addr o'.size := by
  obtain ⟨s, run, two, -⟩ := exists_twoSizes
  exact ⟨s, run.weaken, two, (live_disjoint pageSize_4096 run.weaken).1⟩

/-! ## The pages -/

theorem destroyRoots_spec (known : m ≠ .any) (roots : List Root) (w : World pageSize)
    (fits : ∀ r ∈ roots, RootFits m pageSize r) :
    GaveBack w (roots.foldl (fun w root => slabDestroyAt root.depth root.node w) w) (itemsOf roots) := by
  induction roots generalizing w with
  | nil => exact GaveBack.refl w
  | cons r rest ih =>
    obtain ⟨fits_r, fits_rest⟩ := List.forall_mem_cons.mp fits
    exact (slabDestroyAt_spec known r.depth r.node w fits_r.tree).trans (ih _ fits_rest)

/-- When no level wrapped, `slab_destroy` leaves no pages, and all that were obtained were given back, each group once. -/
theorem destroy_gives_back (page : PageSize pageSize) (run : Runs .unwrapped long source s) :
    s.ctx.destroy.held = [] ∧ s.ctx.destroy.freed.Perm s.ctx.world.obtained := by
  have inv := run.inv page
  have gave := (destroyRoots_spec (by decide) s.ctx.slab s.ctx.world inv.roots.fits).trans
    (GaveBack.free _ (.index s.ctx.pSlab))
  have groups : (itemsOf s.ctx.slab + {.index s.ctx.pSlab}).map (Item.group pageSize) = s.ctx.world.held := by
    rw [inv.held, Multiset.map_add, Multiset.map_singleton, add_comm, Multiset.singleton_add]
    rfl
  constructor
  · have none : (s.ctx.destroy.held : Multiset Group) = 0 := by
      refine gave.held.trans ?_
      rw [groups, tsub_self]
    exact Multiset.coe_eq_zero _ |>.mp none
  · refine Multiset.coe_eq_coe.mp (gave.freed.trans ?_)
    rw [groups, add_comm]
    exact inv.ledger

theorem destroy_gives_back_two : ∃ s, Runs .unwrapped False (bump 4096 (2 ^ 32)) s ∧ s.ctx.world.obtained.length = 5 ∧
    s.ctx.destroy.freed.Perm s.ctx.world.obtained := by
  obtain ⟨s, run, -, five, -⟩ := exists_twoSizes
  have run : Runs .unwrapped False (bump 4096 (2 ^ 32)) s := run.weaken
  exact ⟨s, run, five, (destroy_gives_back pageSize_4096 run).2⟩

/-- A call gives back the pages of at most one object, which were held. -/
theorem Inv.given_back (page : PageSize pageSize) (inv : Inv m long s) {op : Op} (allowed : op.Allowed m long s) :
    ∃ gone : List Group, gone.length ≤ 1 ∧ (s.step op).ctx.world.freed = gone ++ s.ctx.world.freed ∧
      (gone ≠ [] → (s.ctx.world.held : Multiset Group) = (gone : Multiset Group) + (s.step op).ctx.world.held) := by
  have none : ∀ w : World pageSize, w.freed = s.ctx.world.freed → ∃ gone : List Group, gone.length ≤ 1 ∧
      w.freed = gone ++ s.ctx.world.freed ∧
      (gone ≠ [] → (s.ctx.world.held : Multiset Group) = (gone : Multiset Group) + w.held) :=
    fun w same => ⟨[], Nat.zero_le 1, same, fun some => absurd rfl some⟩
  have released : ∀ {ptr t}, Releases m s ptr t → ∃ gone : List Group, gone.length ≤ 1 ∧
      t.2.world.freed = gone ++ s.ctx.world.freed ∧
      (gone ≠ [] → (s.ctx.world.held : Multiset Group) = (gone : Multiset Group) + t.2.world.held) := by
    intro ptr t releases
    obtain ⟨gone, pages⟩ := releases.visit.gone
    exact ⟨gone, pages.single, pages.freed, fun _ => inv.gone_held pages⟩
  cases op with
  | alloc size limit =>
    obtain ⟨p, r, r', osz, -, -, -, -, -, outcome, -⟩ := alloc_spec page inv.roots allowed.2.1 allowed.2.2.1
    obtain ⟨new, grown, -⟩ := outcome.pages
    exact none _ grown.freed
  | free ptr => exact released (inv.releases allowed)
  | freeSized ptr size => exact released (inv.releasesSized page allowed)
  | verify ptr => exact none _ (inv.visit_spec allowed.1 keep_takes ptr).1.kept.2.1.freed
  | verifySized ptr size =>
    obtain ⟨p, r, r', -, -, -, -, -, visit⟩ := inv.visitSized_spec page allowed.1 keep_takes ptr allowed.2
    exact none _ visit.kept.2.1.freed
  | status => exact none _ rfl
  | store ptr v => exact none _ rfl

/-- No call gives back pages in which an owner still has an object. -/
theorem freed_unused (page : PageSize pageSize) (run : Runs .any True source s) {op : Op} (allowed : op.Allowed .any True s) :
    ∃ gone : List Group, gone.length ≤ 1 ∧ (s.step op).ctx.world.freed = gone ++ s.ctx.world.freed ∧
      ∀ g ∈ gone, g ∈ s.ctx.world.held ∧ (∀ h ∈ (s.step op).ctx.world.held, GroupsApart pageSize g h) ∧
        ∀ o ∈ (s.step op).live, Apart g.1 (g.2 * pageSize) o.addr o.size := by
  have inv := run.inv page
  have inv' := inv.step page allowed
  obtain ⟨gone, single, freed, split⟩ := inv.given_back page allowed
  refine ⟨gone, single, freed, fun g member => ?_⟩
  obtain rfl : gone = [g] := by
    obtain ⟨h, rfl⟩ := List.length_eq_one_iff.mp (Nat.le_antisymm single (List.length_pos_of_mem member))
    rw [List.mem_singleton.mp member]
  have held := split (List.cons_ne_nil _ _)
  rw [Multiset.coe_singleton, Multiset.singleton_add] at held
  have apart : (s.ctx.world.held : Multiset Group).Pairwise (GroupsApart pageSize) :=
    Multiset.pairwise_coe_iff_pairwise.mpr inv.sound.1
  rw [held, Multiset.cons_coe, Multiset.pairwise_coe_iff_pairwise, List.pairwise_cons] at apart
  refine ⟨?_, apart.1, fun o live => ?_⟩
  · rw [← Multiset.mem_coe, held]
    exact Multiset.mem_cons_self _ _
  · obtain ⟨h, in_held, low, high⟩ := inv'.inside live
    have := apart.1 h in_held
    simp only [GroupsApart, Apart] at this ⊢
    omega

theorem freed_unused_big : ∃ s, Runs .any True (bump 4096 (2 ^ 32)) s ∧
    ∃ gone : List Group, (s.step (.free 49152)).ctx.world.freed = gone ++ s.ctx.world.freed ∧
      ∀ g ∈ gone, ∀ o ∈ (s.step (.free 49152)).live, Apart g.1 (g.2 * 4096) o.addr o.size := by
  obtain ⟨s, run, -, -, last, -⟩ := exists_twoSizes
  obtain ⟨gone, -, freed, unused⟩ := freed_unused pageSize_4096 run.weaken last.weaken
  exact ⟨s, run.weaken, gone, freed, fun g member => (unused g member).2.2⟩

/-- The word at the top of the tree says what its pointers are to: at level 0 data pages, above it index pages. -/
def LevelsTell : (d : Nat) → Node (Kind d) → Prop
  | 0 => fun _ => True
  | d + 1 => fun n => ∀ c ∈ n.ptr,
      match c with
      | .null => True
      | .index _ nodes => n.level ≠ 0 ∧ ∀ n' ∈ nodes, LevelsTell d n'
      | .data _ _ => n.level = 0

theorem fitsAt_levels (known : m ≠ .any) (d : Nat) (n : Node (Kind d)) (fit : FitsAt m pageSize d n) : LevelsTell d n := by
  induction d with
  | zero => trivial
  | succ d ih =>
    intro c member
    have fit_c := FitsNode.chunks fit c member
    cases c with
    | null => trivial
    | index a nodes => exact ⟨fit_c.1.resolve_left known, fun n' below => ih n' (fit_c.2 n' below).1⟩
    | data a words => exact fit_c.1

/-! ## `slab_verify` -/

/-- The addresses of the objects in use are those of the live objects. -/
theorem Inv.usedAt_iff (inv : Inv .first long s) (ptr : Nat) :
    UsedAt ptr (itemsOf s.ctx.slab) ↔ ∃ o ∈ s.live, o.addr = ptr := by
  have whole := inv.whole rfl
  constructor
  · rintro ⟨u, member, rfl⟩
    have := Multiset.mem_map_of_mem Obj.addr member
    rw [whole] at this
    exact List.mem_map.mp this
  · rintro ⟨o, member, rfl⟩
    exact (inv.owned o member).usedAt

/-- An object in use is one of one class. -/
theorem Inv.one_class (inv : Inv m long s) {p q : Nat} {r r' : Root} {ptr : Nat} (get : s.ctx.slab[p]? = some r)
    (get' : s.ctx.slab[q]? = some r') (used : UsedAt ptr r.items) (used' : UsedAt ptr r'.items) : p = q := by
  by_contra other
  obtain ⟨R, items, items_set⟩ := itemsOf_set get
  have rest := items_set Root.zero
  have here : r'.items ≤ itemsOf (s.ctx.slab.set p Root.zero) :=
    items_le (List.mem_of_getElem? ((List.getElem?_set_ne other).trans get'))
  have zero : Root.zero.items = 0 := itemsAt_zero 1
  rw [rest, zero, zero_add] at here
  have once := inv.separate.nodup_used
  rw [items, usedOf_add, Multiset.map_add] at once
  obtain ⟨u, member, rfl⟩ := used
  obtain ⟨u', member', same⟩ := used'
  exact Multiset.disjoint_left.mp (Multiset.nodup_add.mp once).2.2 (Multiset.mem_map_of_mem Obj.addr member)
    (same ▸ Multiset.mem_map_of_mem Obj.addr (Multiset.mem_of_le (usedOf_mono here) member'))

theorem Inv.verify_iff (inv : Inv .first long s) (few : s.Few) (ptr : Nat) :
    (s.ctx.visit .keep ptr).1 = true ↔ ∃ o ∈ s.live, o.addr = ptr := by
  obtain ⟨visit, -⟩ := inv.visit_spec (fun _ => few) keep_takes ptr
  obtain ⟨-, -, sees, misses⟩ := visit.kept
  rw [← inv.usedAt_iff]
  refine ⟨sees (by decide), fun used => ?_⟩
  by_contra missed
  exact misses rfl (Bool.not_eq_true _ ▸ missed) (inv.separate.not_free used) used

/-- An allocation that is allowed, and has no object. -/
def Fails (m : Pushes) (long : Prop) (s : State pageSize) (op : Op) : Prop :=
  op.Allowed m long s ∧ ∃ size limit, op = .alloc size limit ∧ (s.ctx.alloc size limit).1 = none

theorem Inv.fails (page : PageSize pageSize) (inv : Inv m long s) {op : Op} (fails : Fails m long s op) :
    (s.step op).live = s.live ∧ usedOf (itemsOf (s.step op).ctx.slab) = usedOf (itemsOf s.ctx.slab) ∧
      (s.step op).ctx.world.freed = s.ctx.world.freed := by
  obtain ⟨allowed, size, limit, rfl, none⟩ := fails
  obtain ⟨p, r, r', osz, -, get, slab, -, -, outcome, -⟩ := alloc_spec page inv.roots allowed.2.1 allowed.2.2.1
  obtain ⟨R, items, items_set⟩ := itemsOf_set get
  obtain ⟨new, grown, -⟩ := outcome.pages
  refine ⟨?_, ?_, grown.freed⟩
  · rw [State.step]
    dsimp only
    rw [none]
    rfl
  · have used := outcome.used
    rw [none, Option.map_none, Option.getD_none, zero_add] at used
    rw [State.step, slab, items, items_set, usedOf_add, usedOf_add, used]

/-- The pages that `slab_status` comes to. -/
def shownOf (roots : List Root) : Multiset Item := (roots.map fun r => shownAt r.depth r.node).sum

theorem status_eq (known : m ≠ .any) (fits : ∀ r ∈ s.ctx.slab, RootFits m pageSize r) :
    let st := statusOf pageSize (shownOf s.ctx.slab)
    s.ctx.status.1 = ⟨st.naobj % 2 ^ 32, st.nrobj % 2 ^ 32, st.ndpg % 2 ^ 32, (1 + st.nspg) % 2 ^ 32⟩ := by
  have sum : ∀ roots : List Root, (∀ r ∈ roots, RootFits m pageSize r) → (roots.foldr (fun root sum =>
      ((slabStatusAt pageSize root.depth root.node).1 + sum.1, (slabStatusAt pageSize root.depth root.node).2 ++ sum.2))
        ((0, []) : Status × List Nat)).1 = statusOf pageSize (shownOf roots) := by
    intro roots fits
    induction roots with
    | nil => rfl
    | cons r rest ih =>
      obtain ⟨fits_r, fits_rest⟩ := List.forall_mem_cons.mp fits
      rw [shownOf, List.map_cons, List.sum_cons, statusOf_add, ← slabStatusAt_spec known r.depth r.node fits_r.tree]
      exact congrArg (_ + ·) (ih fits_rest)
  simp only [Context.status, ← sum s.ctx.slab fits]

/-- The pages of a group are data pages or an index page. -/
theorem statusOf_pages (M : Multiset Item) :
    (statusOf pageSize M).ndpg + (statusOf pageSize M).nspg = ((M.map (Item.group pageSize)).map Prod.snd).sum := by
  rw [Multiset.map_map]
  show (M.map (Item.ndpg pageSize)).sum + (M.map Item.nspg).sum = _
  rw [← Multiset.sum_map_add]
  refine congrArg Multiset.sum (Multiset.map_congr rfl fun i _ => ?_)
  cases i <;> rfl

/-- If no pages that are held reach over the limit, the object lies below it. -/
theorem below_limit (page : PageSize pageSize) (run : Runs .any True source s)
    (honours : ∀ calls held npages l, source.give calls held npages l ≠ 0 →
      source.give calls held npages l + npages * pageSize ≤ l)
    {size limit x : Nat} (allowed : (Op.alloc size limit).Allowed .any True s) (result : (s.ctx.alloc size limit).1 = some x)
    (sides : ∀ g ∈ s.ctx.world.held, g.1 + g.2 * pageSize ≤ limit ∨ limit ≤ g.1 ∧ g.1 + g.2 * pageSize < 2 ^ 64) :
    x + size ≤ limit := by
  have inv := run.inv page
  obtain ⟨p, r, r', osz, -, get, -, -, -, outcome, covers⟩ := alloc_spec page inv.roots allowed.2.1 allowed.2.2.1
  have long := covers (allowed.2.2.2 trivial)
  have fits := (le_allign page size).1
  obtain ⟨new, grown, took⟩ := outcome
  rw [result] at took
  obtain ⟨a, words, j, rest, before, -, slot, rfl, begins⟩ := took
  have inside := slot_inside (freeSlot_spec slot).1
  have item : .data osz a words ∈ r.items + new := before ▸ Multiset.mem_cons_self _ _
  rcases Multiset.mem_add.mp item with old | fresh
  · have held := inv.group_held (Multiset.mem_of_le (items_le (List.mem_of_getElem? get)) old)
    rcases sides _ held with below | ⟨above, top⟩
    · simp only [Item.group] at below
      omega
    · simp only [Item.group] at above top
      rw [Nat.mod_eq_of_lt (by omega)] at begins
      omega
  · obtain ⟨-, calls, held, given, some⟩ := grown.fresh _ fresh
    rw [run.source_eq page] at given
    have below := honours calls held (dataPages osz pageSize) limit (given ▸ some)
    rw [given] at below
    omega

theorem below_limit_low : ∃ s x, Runs .any True (bump 4096 (2 ^ 32)) s ∧ (s.ctx.alloc 5000 57344).1 = some x ∧
    x + 5000 ≤ 57344 := by
  obtain ⟨s, run, low⟩ := exists_run (bump 4096 (2 ^ 32)) [.alloc 9000 (2 ^ 32)]
    (fun s => decide ((Op.alloc 5000 57344).Allowed .first True s ∧
    (s.ctx.alloc 5000 57344).1.isSome ∧ ∀ g ∈ s.ctx.world.held, g.1 + g.2 * 4096 ≤ 57344 ∨
      57344 ≤ g.1 ∧ g.1 + g.2 * 4096 < 2 ^ 64)) (by decide +kernel)
  obtain ⟨allowed, some, sides⟩ := of_decide_eq_true low
  obtain ⟨x, result⟩ := Option.isSome_iff_exists.mp some
  refine ⟨s, x, run.weaken, result,
    below_limit pageSize_4096 run.weaken (fun calls held npages l given => ?_) allowed.weaken result sides⟩
  exact (pagesAbove_le given).trans (Nat.min_le_left _ _)

/-! ## Sizes -/

end PreTeO.Mem.Slab
