import PreTeO.Mem.SlabRoots
import PreTeO.Lib.Run

/-!
# The invariant of the slab allocator

The groups of pages that are held are those of the trees and that of the classes, what was obtained is held or was given
back, no two objects have a byte in common, and every live object is one that is in use. While no class was pushed from a
level above 0, the objects in use are exactly the live ones.
-/

namespace PreTeO.Mem.Slab
set_option autoImplicit false

variable {pageSize : Nat} {m : Pushes} {long : Prop}

/-! ## What is allowed -/

/-- The levels at which `slab_alloc` pushes a node, or tries to. -/
def Context.levels (s : Context pageSize) (size limit : Nat) : List Nat :=
  match s.entry size with
  | none => []
  | some (_, root, w) => pushLevels size limit root w

/-- The objects that `slab_alloc` hands out are as long as the request. -/
def Context.Long (s : Context pageSize) (size limit : Nat) : Prop :=
  ∀ e ∈ s.entry size, Covers size limit e.2.1 e.2.2

/-- Counts of objects fit in their fields. -/
def State.Few (s : State pageSize) : Prop := pageSize ≤ 2 ^ 29 ∨ s.live.length < 2 ^ 28

/-- A call, or a store of an owner, of a run in which this is known of the pushes. -/
def Op.Allowed (m : Pushes) (long : Prop) (s : State pageSize) (op : Op) : Prop :=
  (m = .first → s.Few) ∧
    match op with
    | .alloc size limit => size ≤ 2 ^ 32 - pageSize ∧ (∀ level ∈ s.ctx.levels size limit, m.Allows level) ∧
        (long → s.ctx.Long size limit)
    | .free ptr => ∃ o ∈ s.live, o.addr = ptr
    | .freeSized ptr size => ⟨ptr, size⟩ ∈ s.live
    | .verify _ => True
    | .verifySized _ size => size ≤ 2 ^ 32 - pageSize
    | .status => True
    | .store ptr v => (∃ o ∈ s.live, o.addr = ptr) ∧ ¬ IsFree v

/-! ## The invariant -/

/-- The object is one of the tree of its class that is in use. -/
def Owned (pageSize : Nat) (long : Prop) (roots : List Root) (o : Obj) : Prop :=
  o.size ≤ 2 ^ 32 - pageSize ∧ ∃ p r, slabClass o.size pageSize = some p ∧ roots[p]? = some r ∧
    ∃ u ∈ usedOf r.items, u.addr = o.addr ∧ (long → o.size ≤ u.size)

structure Inv (m : Pushes) (long : Prop) (s : State pageSize) : Prop where
  roots : RootsFit m pageSize s.ctx.slab
  held : (s.ctx.world.held : Multiset Group) = (s.ctx.pSlab, 1) ::ₘ (itemsOf s.ctx.slab).map (Item.group pageSize)
  ledger : (s.ctx.world.freed : Multiset Group) + s.ctx.world.held = s.ctx.world.obtained
  sound : s.ctx.world.Sound
  divisible : s.ctx.world.Divisible
  owned : ∀ o ∈ s.live, Owned pageSize long s.ctx.slab o
  distinct : (s.live.map Obj.addr).Nodup
  whole : m = .first → (usedOf (itemsOf s.ctx.slab)).map Obj.addr = s.live.map Obj.addr

theorem RootsFit.paged {roots : List Root} (fit : RootsFit m pageSize roots) : Paged pageSize (itemsOf roots) := by
  intro osz a words member
  obtain ⟨r, r_mem, in_r⟩ := mem_itemsOf.mp member
  exact fitsAt_paged (fit.fits r r_mem).tree osz a words in_r

/-- Pages that are held are separate. -/
theorem separate_of_held {w : World pageSize} {M : Multiset Item} {g : Group} (paged : Paged pageSize M) (sound : w.Sound)
    (held : (w.held : Multiset Group) = g ::ₘ M.map (Item.group pageSize)) : Separate pageSize M := by
  refine ⟨paged, itemsApart_of_groups ?_⟩
  have apart : (w.held : Multiset Group).Pairwise (GroupsApart pageSize) := Multiset.pairwise_coe_iff_pairwise.mpr sound.1
  rw [held] at apart
  obtain ⟨L, L_eq⟩ : ∃ L : List Group, (L : Multiset Group) = M.map (Item.group pageSize) := Quot.exists_rep _
  rw [← L_eq] at apart ⊢
  rw [Multiset.cons_coe, Multiset.pairwise_coe_iff_pairwise] at apart
  exact Multiset.pairwise_coe_iff_pairwise.mpr (List.pairwise_cons.mp apart).2

theorem Inv.separate {s : State pageSize} (inv : Inv m long s) : Separate pageSize (itemsOf s.ctx.slab) :=
  separate_of_held inv.roots.paged inv.sound inv.held

theorem items_le {roots : List Root} {r : Root} (member : r ∈ roots) : r.items ≤ itemsOf roots :=
  List.le_sum_of_mem (List.mem_map_of_mem member)

/-- What a class keeps of its objects in use at one address. -/
theorem Owned.mono {roots roots' : List Root} {o : Obj} (owned : Owned pageSize long roots o)
    (keeps : ∀ (p : Nat) (r : Root), roots[p]? = some r →
      ∃ r' : Root, roots'[p]? = some r' ∧ ∀ u ∈ usedOf r.items, u.addr = o.addr → u ∈ usedOf r'.items) :
    Owned pageSize long roots' o := by
  obtain ⟨request, p, r, found, get, u, member, here, covers⟩ := owned
  obtain ⟨r', get', kept⟩ := keeps p r get
  exact ⟨request, p, r', found, get', u, kept u member here, here, covers⟩

theorem Owned.usedAt {roots : List Root} {o : Obj} (owned : Owned pageSize long roots o) :
    UsedAt o.addr (itemsOf roots) := by
  obtain ⟨-, p, r, -, get, u, member, here, -⟩ := owned
  exact UsedAt.mono ⟨u, member, here⟩ (items_le (List.mem_of_getElem? get))

/-! ## `slab_alloc` -/

/-- The pages are those that there were and new ones. -/
theorem Outcome.pages {osz size limit : Nat} {r : Option Nat} {M M' : Multiset Item} {w w' : World pageSize}
    (outcome : Outcome osz size limit r M M' w w') :
    ∃ new, Grown limit w w' new ∧
      M'.map (Item.group pageSize) = new.map (Item.group pageSize) + M.map (Item.group pageSize) := by
  obtain ⟨new, grown, result⟩ := outcome
  refine ⟨new, grown, ?_⟩
  rw [add_comm, ← Multiset.map_add]
  cases r with
  | none => rw [result]
  | some x =>
    obtain ⟨a, words, j, rest, before, rfl, -⟩ := result
    rw [before, Multiset.map_cons, Multiset.map_cons]
    rfl

/-- `slab_alloc` changes one class. -/
theorem alloc_spec {s : Context pageSize} {size limit : Nat} (page : PageSize pageSize) (fit : RootsFit m pageSize s.slab)
    (request : size ≤ 2 ^ 32 - pageSize) (allows : ∀ level ∈ s.levels size limit, m.Allows level) :
    let t := s.alloc size limit
    ∃ p r r' osz, slabClass size pageSize = some p ∧ s.slab[p]? = some r ∧ t.2.slab = s.slab.set p r' ∧
      t.2.pSlab = s.pSlab ∧ RootsFit m pageSize t.2.slab ∧
      Outcome osz (allign size pageSize) limit t.1 r.items r'.items s.world t.2.world ∧
      (s.Long size limit → allign size pageSize ≤ osz) := by
  obtain ⟨p, r, root, w, found, get, entry, items, fits, in_class, some, grown⟩ := entry_spec page fit request
  rw [Context.levels, entry] at allows
  obtain ⟨osz, outcome, fits', same, covers⟩ := allocRoot_spec limit page request w fits some allows
  rw [items] at outcome
  rw [Context.alloc, entry]
  refine ⟨p, r, (Context.allocRoot size limit root w).2.1, osz, found, get, rfl, rfl,
    fit.set fits' (same ▸ in_class), ?_, fun long => covers (long _ entry)⟩
  obtain ⟨new, grown', result⟩ := outcome
  exact ⟨0 + new, (grown limit).trans grown', by rw [zero_add]; exact result⟩

theorem Inv.alloc {s : State pageSize} {size limit : Nat} (page : PageSize pageSize) (inv : Inv m long s)
    (allowed : (Op.alloc size limit).Allowed m long s) : Inv m long (s.step (.alloc size limit)) := by
  obtain ⟨-, request, allows, lasting⟩ := allowed
  obtain ⟨p, r, r', osz, found, get, slab, pSlab, fit, outcome, covers⟩ := alloc_spec page inv.roots request allows
  obtain ⟨R, items, items_set⟩ := itemsOf_set get
  have framed := outcome.frame R
  rw [← items, ← items_set, ← slab] at framed
  rw [State.step]
  generalize s.ctx.alloc size limit = t at *
  obtain ⟨result, ctx⟩ := t
  obtain ⟨new, grown, groups⟩ := framed.pages
  have held : (ctx.world.held : Multiset Group) = (ctx.pSlab, 1) ::ₘ (itemsOf ctx.slab).map (Item.group pageSize) := by
    rw [grown.held, inv.held, groups, pSlab, Multiset.add_cons]
  have sound := grown.sound inv.sound
  have separate : Separate pageSize (itemsOf ctx.slab) := separate_of_held fit.paged sound held
  have used := framed.used
  have fresh : ∀ x, result = some x → ∀ o ∈ s.live, x ≠ o.addr := by
    rintro x rfl o member rfl
    have once := separate.nodup_used
    rw [used, Option.map_some, Option.getD_some, Multiset.map_add, Multiset.map_singleton, Multiset.singleton_add,
      Multiset.nodup_cons] at once
    obtain ⟨u, in_use, same⟩ := (inv.owned o member).usedAt
    exact once.1 (Multiset.mem_map.mpr ⟨u, in_use, same⟩)
  have keeps : ∀ u ∈ usedOf r.items, u ∈ usedOf r'.items := by
    intro u member
    rw [outcome.used]
    exact Multiset.mem_add.mpr (.inr member)
  have old : ∀ o ∈ s.live, Owned pageSize long ctx.slab o := by
    intro o member
    refine (inv.owned o member).mono fun q r_q get_q => ?_
    rw [slab]
    by_cases same : p = q
    · subst same
      obtain rfl : r = r_q := Option.some.inj (get.symm.trans get_q)
      exact ⟨r', List.getElem?_set_self (List.getElem?_eq_some_iff.mp get).1, fun u in_use _ => keeps u in_use⟩
    · exact ⟨r_q, (List.getElem?_set_ne same).trans get_q, fun u in_use _ => in_use⟩
  refine ⟨fit, held, ?_, sound, grown.divisible inv.divisible, ?_, ?_, fun only => ?_⟩
  · rw [grown.freed, grown.held, grown.obtained, ← inv.ledger, add_left_comm]
  · cases result with
    | none => exact old
    | some x =>
      refine List.forall_mem_cons.mpr ⟨⟨request, p, r', found, ?_, ⟨x, osz⟩, ?_, rfl, fun yes => ?_⟩, old⟩
      · rw [slab]
        exact List.getElem?_set_self (List.getElem?_eq_some_iff.mp get).1
      · rw [outcome.used]
        exact Multiset.mem_add.mpr (.inl (Multiset.mem_singleton_self _))
      · exact (le_allign page size).1.trans (covers (lasting yes))
  · cases result with
    | none => exact inv.distinct
    | some x =>
      refine List.nodup_cons.mpr ⟨fun member => ?_, inv.distinct⟩
      obtain ⟨o, o_mem, same⟩ := List.mem_map.mp member
      exact fresh x rfl o o_mem same.symm
  · rw [used, Multiset.map_add, inv.whole only]
    cases result <;> rfl

end PreTeO.Mem.Slab
