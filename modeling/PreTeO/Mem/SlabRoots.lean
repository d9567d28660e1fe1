import PreTeO.Mem.SlabStatus

/-!
# The classes of the slab allocator

`slab_entry` finds the class of a size, and `slab_alloc` may push its tree to a higher level before or after it looks for an
object there.
-/

namespace PreTeO.Mem.Slab
set_option autoImplicit false

variable {pageSize : Nat}

/-! ## Release -/

/-- What `slab_free` does to the pages of a tree in which it finds the object. -/
structure Released (ptr : Nat) (M M' : Multiset Item) (w w' : World pageSize) : Prop where
  used : ∃ osz, usedOf M = ⟨ptr, osz⟩ ::ₘ usedOf M'
  pages : ∃ w₁, Grown 0 w w₁ 0 ∧ (M'.map (Item.group pageSize) = M.map (Item.group pageSize) ∧ w' = w₁ ∨
    ∃ osz words, M = .data osz ptr words ::ₘ M' ∧ w' = w₁.memFree ptr (dataPages osz pageSize))

theorem Visit.released {m : Pushes} {ptr : Nat} {M M' : Multiset Item} {w w' : World pageSize}
    (visit : Visit .release m ptr true M M' w w') : m = .any ∧ M' = M ∧ Grown 0 w w' 0 ∨ Released ptr M M' w w' := by
  obtain ⟨w₁, grown, ⟨any, same, rfl⟩ | ⟨osz, a, words, j, rest, rfl, size, length, less, rfl, busy, rfl, rfl⟩⟩ := visit
  · exact .inl ⟨any, same, grown⟩
  refine .inr ?_
  by_cases big : osz ≥ pageSize ∧ j = 0
  · obtain ⟨big, rfl⟩ := big
    have whole := pages_big size big
    have leaves : (Action.release : Action pageSize).leaves osz a words 0 w₁ = 0 := by
      simp only [Action.leaves, Action.release, if_pos (And.intro big trivial)]
    rw [leaves, zero_add]
    refine ⟨⟨osz, ?_⟩, w₁, grown, .inr ⟨osz, words, ?_, ?_⟩⟩
    · rw [usedOf_cons, usedOf_single size big length busy, Nat.zero_mul, Nat.add_zero, Multiset.singleton_add]
    · rw [Nat.zero_mul, Nat.add_zero]
    · rw [Nat.zero_mul, Nat.add_zero, ← whole]
      simp only [Action.release, if_pos (And.intro big trivial)]
  · have leaves : (Action.release : Action pageSize).leaves osz a words j w₁ = {.data osz a (words.set j slabPattern2)} := by
      simp only [Action.leaves, Action.release, if_neg big]
    rw [leaves]
    refine ⟨⟨osz, ?_⟩, w₁, grown, .inl ⟨?_, ?_⟩⟩
    · rw [usedOf_cons, usedOf_release less busy isFree_pattern2, usedOf_add, Multiset.cons_add]
    · rw [Multiset.singleton_add, Multiset.map_cons, Multiset.map_cons]
      rfl
    · simp only [Action.release, if_neg big]

theorem Visit.kept {m : Pushes} {ptr : Nat} {found : Bool} {M M' : Multiset Item} {w w' : World pageSize}
    (visit : Visit .keep m ptr found M M' w w') :
    M' = M ∧ Grown 0 w w' 0 ∧ (m ≠ .any → found = true → UsedAt ptr M) ∧
      (m = .first → found = false → ¬ FreeAt ptr M → ¬ UsedAt ptr M) := by
  cases found with
  | false =>
    obtain ⟨same, grown, missed⟩ := visit
    exact ⟨same, grown, fun _ no => absurd no Bool.false_ne_true, fun only _ => missed only⟩
  | true =>
    obtain ⟨w₁, grown, ⟨any, same, rfl⟩ | ⟨osz, a, words, j, rest, rfl, size, length, less, rfl, busy, rfl, rfl⟩⟩ := visit
    · exact ⟨same, grown, fun known => absurd any known, fun _ no => absurd no.symm Bool.false_ne_true⟩
    · refine ⟨by rw [← Multiset.singleton_add]; rfl, grown, fun _ _ => ?_, fun _ no => absurd no.symm Bool.false_ne_true⟩
      refine ⟨⟨a + j * osz, osz⟩, ?_, rfl⟩
      rw [usedOf_cons, usedOf_release less busy isFree_pattern2, Multiset.cons_add]
      exact Multiset.mem_cons_self _ _

/-! ## The classes -/

def Root.items (r : Root) : Multiset Item := itemsAt r.depth r.node

def itemsOf (roots : List Root) : Multiset Item := (roots.map Root.items).sum

/-- The tree of a class. -/
structure RootFits (m : Pushes) (pageSize : Nat) (r : Root) : Prop where
  tree : FitsAt m pageSize r.depth r.node
  level : m ≠ .any → r.node.level + 1 = r.depth

/-- The object size of a class is one that `slab_entry` finds the class for. -/
def InClass (p osz : Nat) : Prop := osz ≠ 0 → 16 * 2 ^ p ≤ osz ∧ osz < 16 * 2 ^ (p + 1) ∧ osz < 2 ^ 32

theorem fitsAt_paged {m : Pushes} {d : Nat} {n : Node (Kind d)} (fit : FitsAt m pageSize d n) :
    Paged pageSize (itemsAt d n) := by
  induction d with
  | zero => exact fit.elim
  | succ d ih =>
    intro osz a words member
    have node : FitsNode m pageSize d (itemsAt d) (FitsAt m pageSize d) n := fit
    obtain ⟨M, M_mem, in_M⟩ := mem_list_sum.mp member
    obtain ⟨c, c_mem, rfl⟩ := List.mem_map.mp M_mem
    have fit_c := node.chunks c c_mem
    cases c with
    | null => exact absurd in_M (Multiset.notMem_zero _)
    | data a' words' =>
      obtain ⟨rfl, rfl, rfl⟩ := Item.data.inj (Multiset.mem_singleton.mp in_M)
      refine ⟨node.size fun zero => ?_, fit_c.2⟩
      cases node.unused zero _ c_mem
    | index a' nodes =>
      rcases Multiset.mem_cons.mp in_M with same | below
      · cases same
      · obtain ⟨N, N_mem, in_N⟩ := mem_list_sum.mp below
        obtain ⟨n', n'_mem, rfl⟩ := List.mem_map.mp N_mem
        exact ih (fit_c.2 n' n'_mem).1 osz a words in_N

theorem mem_itemsOf {roots : List Root} {i : Item} : i ∈ itemsOf roots ↔ ∃ r ∈ roots, i ∈ r.items := by
  simp [itemsOf, mem_list_sum]

/-- The pages of one class, and the others. -/
theorem itemsOf_set {roots : List Root} {p : Nat} {r : Root} (get : roots[p]? = some r) :
    ∃ R, itemsOf roots = r.items + R ∧ ∀ r', itemsOf (roots.set p r') = r'.items + R := by
  obtain ⟨less, rfl⟩ := List.getElem?_eq_some_iff.mp get
  refine ⟨itemsOf (roots.eraseIdx p), ?_, fun r' => ?_⟩
  · have perm := (List.getElem_cons_eraseIdx_perm less).map Root.items
    exact perm.sum_eq.symm
  · have perm := (List.set_perm_cons_eraseIdx less r').map Root.items
    exact perm.sum_eq

/-- A node that is not in use has no pages. -/
theorem RootFits.unused {m : Pushes} {r : Root} (fits : RootFits m pageSize r) (unused : r.node.osz = 0) : r.items = 0 := by
  obtain ⟨d, n⟩ := r
  have tree := fits.tree
  cases d with
  | zero => exact tree.elim
  | succ d => exact Node.items_null (FitsNode.unused tree unused)

section Sizes
variable {size : Nat} (page : PageSize pageSize)
include page

theorem allign_isSize (fits : size ≤ 2 ^ 32 - pageSize) :
    allign size pageSize % 2 ^ 32 = allign size pageSize ∧ IsSize pageSize (allign size pageSize) := by
  obtain ⟨least, most, -⟩ := page.bounds
  have request : size < 2 ^ 32 := by omega
  have some := (allign_low_iff page request).mpr fits
  have less : allign size pageSize < 2 ^ 32 := by
    rcases Nat.lt_or_eq_of_le (allign_le page request) with less | full
    · exact less
    · rw [full] at some
      exact absurd (Nat.mod_self _) some
  refine ⟨Nat.mod_eq_of_lt less, (le_allign page size).2, fun big => ?_⟩
  rcases Nat.lt_or_ge size pageSize with small | large
  · obtain ⟨k, -, power, below, -⟩ := allign_small page small
    rw [power] at big ⊢
    rw [Nat.le_antisymm below big]
  · exact (allign_large page large).1

end Sizes

/-- What every run keeps of the classes. -/
structure RootsFit (m : Pushes) (pageSize : Nat) (roots : List Root) : Prop where
  length : roots.length = pageSize / slabSz
  fits : ∀ r ∈ roots, RootFits m pageSize r
  classes : ∀ p osz, (roots.map fun r => r.node.osz)[p]? = some osz → InClass p osz

theorem RootsFit.set {m : Pushes} {roots : List Root} (fit : RootsFit m pageSize roots) {p : Nat} {r : Root}
    (fits : RootFits m pageSize r) (class_p : InClass p r.node.osz) : RootsFit m pageSize (roots.set p r) where
  length := List.length_set.trans fit.length
  fits r' member := (List.mem_or_eq_of_mem_set member).elim (fit.fits r') fun same => same ▸ fits
  classes q osz get := by
    rw [List.map_set] at get
    by_cases same : p = q
    · obtain rfl := same
      obtain ⟨less, eq⟩ := List.getElem?_eq_some_iff.mp get
      rw [List.getElem_set_self] at eq
      exact eq ▸ class_p
    · rw [List.getElem?_set_ne same] at get
      exact fit.classes q osz get

/-- `slab_entry` finds a class, whose node may be in use from now on. -/
theorem entry_spec {m : Pushes} {s : Context pageSize} {size : Nat} (page : PageSize pageSize)
    (fit : RootsFit m pageSize s.slab) (fits : size ≤ 2 ^ 32 - pageSize) :
    ∃ p r root w, slabClass size pageSize = some p ∧ s.slab[p]? = some r ∧ s.entry size = some (p, root, w) ∧
      root.items = r.items ∧ RootFits m pageSize root ∧ InClass p root.node.osz ∧ root.node.osz ≠ 0 ∧
      ∀ limit, Grown limit s.world w 0 := by
  obtain ⟨least, most, -⟩ := page.bounds
  have request : size < 2 ^ 32 := by omega
  obtain ⟨whole, is_size⟩ := allign_isSize page fits
  obtain ⟨p, found, less, low, high⟩ := slabClass_found page request
  have bound : p < s.slab.length := fit.length ▸ less
  have get : s.slab[p]? = some s.slab[p] := List.getElem?_eq_getElem bound
  have member := List.getElem_mem bound
  have small : allign size pageSize < 2 ^ 32 := whole ▸ Nat.mod_lt _ (by decide)
  refine ⟨p, s.slab[p], ?_⟩
  rw [Context.entry, found, Option.bind_some, get, Option.map_some, whole]
  by_cases unused : s.slab[p].node.osz = 0
  · rw [if_pos unused]
    obtain ⟨tree, items⟩ := fitsAt_resized (fitsAt_zero m pageSize 0) rfl is_size
    refine ⟨_, _, rfl, rfl, rfl, ?_, ⟨tree, fun _ => rfl⟩, fun _ => ⟨low, high, small⟩, is_size.ne_zero,
      fun limit => Grown.recorded _ is_size.ne_zero⟩
    rw [(fit.fits _ member).unused unused]
    exact items.trans (itemsAt_zero 1)
  · rw [if_neg unused]
    refine ⟨_, _, rfl, rfl, rfl, rfl, fit.fits _ member, ?_, unused, fun limit => Grown.refl limit _⟩
    exact fit.classes p _ (by rw [List.getElem?_map, get, Option.map_some])

/-! ## `slab_alloc` -/

/-- The levels at which `slab_alloc` pushes the node of a class, or tries to. -/
def pushLevels (size limit : Nat) (root : Root) (w : World pageSize) : List Nat :=
  let sz := allign size pageSize
  let first := Context.deepen size root w
  (if root.node.level = 0 ∧ sz > pageSize ∧ sz ≠ root.node.osz then [0] else []) ++
    if (Context.allocIn size limit first.1 first.2).1.isSome then [] else [first.1.node.level]

/-- What is known of the pushes allows one more at this level. -/
def Pushes.Allows (m : Pushes) (level : Nat) : Prop := (m = .first → level = 0) ∧ (m ≠ .any → level < 15)

theorem incRecLevel_spec {m : Pushes} (limit : Nat) {root : Root} (w : World pageSize) (fits : RootFits m pageSize root)
    (some : root.node.osz ≠ 0) (allows : m.Allows root.node.level) :
    let t := Context.incRecLevel root w
    (∃ new, Grown limit w t.2.2 new ∧ t.2.1.items = root.items + new) ∧ RootFits m pageSize t.2.1 ∧
      t.2.1.node.osz = root.node.osz ∧
      t.2.1.node.level = if t.1 then (root.node.level + 1) % 2 ^ 4 else root.node.level := by
  obtain ⟨d, n⟩ := root
  cases d with
  | zero => exact fits.tree.elim
  | succ d =>
    have node : FitsNode m pageSize d (itemsAt d) (FitsAt m pageSize d) n := fits.tree
    rw [Context.incRecLevel]
    dsimp only
    by_cases given : (w.memAlloc 1 defaultSlabLimit).1 = 0
    · rw [if_neg (not_not.mpr given)]
      exact ⟨⟨0, Grown.refused w given, (add_zero _).symm⟩, fits, rfl, rfl⟩
    · rw [if_pos given]
      have grown := Grown.given limit w (.index _) given rfl trivial
      have empty : ((List.replicate (pageSize / slabSz - 1) (Node.zero (d + 1))).map (itemsAt (d + 1))).sum = 0 := by
        rw [List.map_replicate, itemsAt_zero, List.sum_replicate, nsmul_zero]
      have nulls : ((List.replicate (slabNodes - 1) Chunk.null).map (Chunk.items (itemsAt (d + 1)) n.osz)).sum = 0 := by
        rw [List.map_replicate, Chunk.items, List.sum_replicate, nsmul_zero]
      have level : (n.level + 1) % 2 ^ 4 ≤ d + 1 := (Nat.mod_le _ _).trans (Nat.succ_le_succ node.level)
      have pushed : m ≠ .any → (n.level + 1) % 2 ^ 4 = n.level + 1 := fun known =>
        Nat.mod_eq_of_lt (Nat.succ_lt_succ (allows.2 known))
      refine ⟨⟨_, grown, ?_⟩, ⟨⟨level, by simp [slabNodes], fun zero => absurd zero some, fun _ => node.size some, ?_, ?_⟩,
        fun known => ?_⟩, rfl, rfl⟩
      · show ((Chunk.index _ (n :: List.replicate (pageSize / slabSz - 1) (Node.zero (d + 1))) ::
          List.replicate (slabNodes - 1) Chunk.null).map (Chunk.items (itemsAt (d + 1)) n.osz)).sum =
          itemsAt (d + 1) n + {Item.index (w.memAlloc 1 defaultSlabLimit).1}
        rw [List.map_cons, List.sum_cons, nulls, add_zero, Chunk.items, List.map_cons, List.sum_cons,
          empty, add_zero, ← Multiset.singleton_add, add_comm]
      · rw [List.forall_mem_cons]
        constructor
        · refine ⟨?_, fun n' member => ?_⟩
          · by_cases any : m = .any
            · exact .inl any
            · exact .inr (by rw [pushed any]; exact Nat.succ_ne_zero _)
          · rcases List.mem_cons.mp member with rfl | zero
            · exact ⟨node, allows.1⟩
            · rw [List.eq_of_mem_replicate zero]
              exact ⟨fitsAt_zero m pageSize d, fun _ => rfl⟩
        · intro c member
          rw [List.eq_of_mem_replicate member]
          trivial
      · intro only level_zero
        have known : m ≠ .any := by
          rw [only]
          decide
        have := pushed known
        dsimp only at level_zero
        omega
      · dsimp only
        rw [pushed known]
        exact congrArg Nat.succ (fits.level known)

theorem allocIn_spec {m : Pushes} {size : Nat} (limit : Nat) {root : Root} (page : PageSize pageSize)
    (request : size ≤ 2 ^ 32 - pageSize) (w : World pageSize) (fits : RootFits m pageSize root) (some : root.node.osz ≠ 0) :
    let t := Context.allocIn size limit root w
    Outcome (taken root.node.osz root.node.level (allign size pageSize)) (allign size pageSize) limit t.1 root.items
        t.2.1.items w t.2.2 ∧
      RootFits m pageSize t.2.1 ∧ t.2.1.node.osz = root.node.osz ∧ t.2.1.node.level = root.node.level := by
  obtain ⟨whole, is_size⟩ := allign_isSize page request
  obtain ⟨outcome, tree, level, osz⟩ := slabAllocAt_spec limit is_size root.depth root.node w fits.tree some
  rw [Context.allocIn, whole]
  exact ⟨outcome, ⟨tree, fun known => level ▸ fits.level known⟩, osz, level⟩

/-- The objects of the class are as long as the request: those at level 0 are, or the class is above level 0 and stays there. -/
def Covers (size limit : Nat) (root : Root) (w : World pageSize) : Prop :=
  allign size pageSize ≤ root.node.osz ∨
    ((Context.deepen size root w).1.node.level ≠ 0 ∧ ∀ level ∈ pushLevels size limit root w, level < 15)

/-- The first push. -/
theorem deepen_spec {m : Pushes} {size : Nat} (limit : Nat) {root : Root} (w : World pageSize) (fits : RootFits m pageSize root)
    (some : root.node.osz ≠ 0) (allows : ∀ level ∈ pushLevels size limit root w, m.Allows level) :
    let t := Context.deepen size root w
    (∃ new, Grown limit w t.2 new ∧ t.1.items = root.items + new) ∧ RootFits m pageSize t.1 ∧
      t.1.node.osz = root.node.osz := by
  rw [Context.deepen]
  by_cases second : root.node.level = 0 ∧ allign size pageSize > pageSize ∧ allign size pageSize ≠ root.node.osz
  · rw [if_pos second]
    have zero : 0 ∈ pushLevels size limit root w := by
      rw [pushLevels, if_pos second]
      exact List.mem_append_left _ (List.mem_singleton.mpr rfl)
    obtain ⟨grown, fits', osz, -⟩ := incRecLevel_spec limit w fits some (second.1 ▸ allows 0 zero)
    exact ⟨grown, fits', osz⟩
  · rw [if_neg second]
    exact ⟨⟨0, Grown.refl limit w, (add_zero _).symm⟩, fits, rfl⟩

theorem allocRoot_spec {m : Pushes} {size : Nat} (limit : Nat) {root : Root} (page : PageSize pageSize)
    (request : size ≤ 2 ^ 32 - pageSize) (w : World pageSize) (fits : RootFits m pageSize root) (some : root.node.osz ≠ 0)
    (allows : ∀ level ∈ pushLevels size limit root w, m.Allows level) :
    let t := Context.allocRoot size limit root w
    ∃ osz, Outcome osz (allign size pageSize) limit t.1 root.items t.2.1.items w t.2.2 ∧ RootFits m pageSize t.2.1 ∧
      t.2.1.node.osz = root.node.osz ∧ (Covers size limit root w → allign size pageSize ≤ osz) := by
  obtain ⟨⟨new, grown, items₁⟩, fits₁, osz₁⟩ := deepen_spec limit w fits some allows
  have last : (Context.allocIn size limit (Context.deepen size root w).1 (Context.deepen size root w).2).1 = none →
      (Context.deepen size root w).1.node.level ∈ pushLevels size limit root w := by
    intro none
    rw [pushLevels]
    refine List.mem_append_right _ ?_
    simp only [none, Option.isSome_none, Bool.false_eq_true, if_false, List.mem_singleton]
  have covers : Covers size limit root w → allign size pageSize ≤ root.node.osz ∨
      ((Context.deepen size root w).1.node.level ≠ 0 ∧ ∀ level ∈ pushLevels size limit root w, level < 15) := id
  rw [Context.allocRoot]
  dsimp only
  generalize Context.deepen size root w = deepened at *
  obtain ⟨root₁, w₁⟩ := deepened
  have first : ∀ osz, Outcome osz (allign size pageSize) limit none root.items root₁.items w w₁ := fun osz =>
    ⟨new, grown, items₁⟩
  have some₁ : root₁.node.osz ≠ 0 := osz₁ ▸ some
  obtain ⟨outcome, fits₂, osz₂, level₂⟩ := allocIn_spec limit page request w₁ fits₁ some₁
  dsimp only at *
  generalize Context.allocIn size limit root₁ w₁ = t at *
  obtain ⟨_ | x, root₂, w₂⟩ := t
  · -- The second push.
    have allows₂ := allows _ (last rfl)
    simp only [Option.isSome_none, Bool.false_eq_true, if_false] at *
    obtain ⟨⟨new', grown', items₃⟩, fits₃, osz₃, level₃⟩ :=
      incRecLevel_spec limit w₂ fits₂ (osz₂ ▸ some₁) (level₂ ▸ allows₂)
    generalize Context.incRecLevel root₂ w₂ = inc at *
    obtain ⟨pushed, root₃, w₃⟩ := inc
    dsimp only at *
    have second : Outcome (allign size pageSize) (allign size pageSize) limit none root₂.items root₃.items w₂ w₃ :=
      ⟨new', grown', items₃⟩
    have before := ((first _).trans outcome).resize (allign size pageSize) |>.trans second
    have osz : root₃.node.osz = root.node.osz := osz₃.trans (osz₂.trans osz₁)
    cases pushed with
    | false =>
      rw [if_neg Bool.false_ne_true]
      exact ⟨allign size pageSize, before, fits₃, osz, fun _ => le_refl _⟩
    | true =>
      rw [if_pos rfl]
      obtain ⟨outcome', fits₄, osz₄, -⟩ := allocIn_spec limit page request w₃ fits₃ (osz ▸ some)
      refine ⟨_, (before.resize _).trans outcome', fits₄, osz₄.trans osz, fun long => ?_⟩
      by_cases level : root₃.node.level = 0
      · rw [taken, if_pos level, osz]
        refine (covers long).resolve_right fun high => ?_
        have unwrapped := high.2 _ (last trivial)
        rw [if_pos rfl, level₂] at level₃
        omega
      · rw [taken, if_neg level]
  · simp only [Option.isSome_some, if_true]
    refine ⟨_, (first _).trans outcome, fits₂, osz₂.trans osz₁, fun long => ?_⟩
    by_cases level : root₁.node.level = 0
    · rw [taken, if_pos level, osz₁]
      exact (covers long).resolve_right fun high => high.1 level
    · rw [taken, if_neg level]

end PreTeO.Mem.Slab
