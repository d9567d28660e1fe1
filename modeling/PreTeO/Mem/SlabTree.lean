import PreTeO.Mem.SlabItems

/-!
# Slab trees

A tree at level 0 has data pages of one size; above it there are index pages with trees. `_slab_alloc` adds pages and takes
one free object.
-/

namespace PreTeO.Mem.Slab
set_option autoImplicit false

/-- What is known of the pushes in a run: nothing, that no level wrapped, or that the nodes had level 0. -/
inductive Pushes where
  | any
  | unwrapped
  | first
deriving DecidableEq

section Fits
variable {K : Type}

/-- The pages of a pointer. -/
def Chunk.items (sub : Node K → Multiset Item) (osz : Nat) : Chunk K → Multiset Item
  | .null => 0
  | .index a nodes => .index a ::ₘ (nodes.map sub).sum
  | .data a words => {.data osz a words}

/-- The pages of a node. -/
def Node.items (sub : Node K → Multiset Item) (n : Node (Chunk K)) : Multiset Item := (n.ptr.map (Chunk.items sub n.osz)).sum

/-- What a pointer can be to, in a node with an object size and a level. -/
def FitsChunk (m : Pushes) (pageSize : Nat) (fits : Node K → Prop) (osz level : Nat) : Chunk K → Prop
  | .null => True
  | .index _ nodes => (m = .any ∨ level ≠ 0) ∧ ∀ n ∈ nodes, fits n ∧ (m = .first → n.level = 0)
  | .data _ words => level = 0 ∧ words.length = nobjs osz pageSize

/-- A node at the top of a tree of depth `d + 1`. -/
structure FitsNode (m : Pushes) (pageSize d : Nat) (sub : Node K → Multiset Item) (fits : Node K → Prop)
    (n : Node (Chunk K)) : Prop where
  level : n.level ≤ d
  length : n.ptr.length = slabNodes
  unused : n.osz = 0 → ∀ c ∈ n.ptr, c = .null
  size : n.osz ≠ 0 → IsSize pageSize n.osz
  chunks : ∀ c ∈ n.ptr, FitsChunk m pageSize fits n.osz n.level c
  count : m = .first → n.level = 0 → n.count = (usedOf (n.items sub)).card % 2 ^ 28

end Fits

def itemsAt : (d : Nat) → Node (Kind d) → Multiset Item
  | 0 => fun _ => 0
  | d + 1 => Node.items (itemsAt d)

/-- The tree is one that `slab_alloc` can make. -/
def FitsAt (m : Pushes) (pageSize : Nat) : (d : Nat) → Node (Kind d) → Prop
  | 0 => fun _ => False
  | d + 1 => FitsNode m pageSize d (itemsAt d) (FitsAt m pageSize d)

theorem Node.items_null {K : Type} {sub : Node K → Multiset Item} {n : Node (Chunk K)} (null : ∀ c ∈ n.ptr, c = .null) :
    n.items sub = 0 := by
  refine List.sum_eq_zero fun M member => ?_
  obtain ⟨c, c_mem, rfl⟩ := List.mem_map.mp member
  rw [null c c_mem]
  rfl

@[simp] theorem itemsAt_zero (d : Nat) : itemsAt d (Node.zero d) = 0 := by
  cases d with
  | zero => rfl
  | succ d => exact Node.items_null fun c member => (List.mem_replicate.mp member).2

theorem fitsAt_zero (m : Pushes) (pageSize d : Nat) : FitsAt m pageSize (d + 1) (Node.zero (d + 1)) where
  level := Nat.zero_le d
  length := List.length_replicate
  unused _ c member := (List.mem_replicate.mp member).2
  size some := absurd rfl some
  chunks c member := by
    rw [(List.mem_replicate.mp member).2]
    trivial
  count _ _ := by
    have zero := itemsAt_zero (d + 1)
    rw [itemsAt] at zero
    rw [zero]
    rfl

/-- A node that is not in use gets an object size. -/
theorem FitsNode.resized {K : Type} {m : Pushes} {pageSize d size : Nat} {sub : Node K → Multiset Item} {fits : Node K → Prop}
    {n : Node (Chunk K)} (node : FitsNode m pageSize d sub fits n) (unused : n.osz = 0) (is_size : IsSize pageSize size) :
    FitsNode m pageSize d sub fits { n with osz := size } ∧ Node.items sub { n with osz := size } = n.items sub := by
  have null := node.unused unused
  have same : Node.items sub { n with osz := size } = n.items sub :=
    (Node.items_null (n := { n with osz := size }) null).trans (Node.items_null null).symm
  refine ⟨⟨node.level, node.length, fun zero => absurd zero is_size.ne_zero, fun _ => is_size, fun c member => ?_,
    fun first level => ?_⟩, same⟩
  · rw [null c member]
    trivial
  · rw [same]
    exact node.count first level

theorem fitsAt_resized {m : Pushes} {pageSize d size : Nat} {n : Node (Kind d)} (fits : FitsAt m pageSize d n)
    (unused : n.osz = 0) (is_size : IsSize pageSize size) :
    FitsAt m pageSize d { n with osz := size } ∧ itemsAt d { n with osz := size } = itemsAt d n := by
  cases d with
  | zero => exact fits.elim
  | succ d => exact FitsNode.resized fits unused is_size

/-! ## `_slab_alloc` -/

section Alloc
variable {K : Type} {pageSize size limit : Nat} {m : Pushes} {items : Node K → Multiset Item} {fits : Node K → Prop}
  {zero : Node K} {sub : Node K → World pageSize → Option Nat × Node K × World pageSize}

/-- What is expected of `_slab_alloc` for the nodes below. -/
def Allocates (size limit : Nat) (items : Node K → Multiset Item) (fits : Node K → Prop)
    (sub : Node K → World pageSize → Option Nat × Node K × World pageSize) : Prop :=
  ∀ n w, fits n → n.osz = size → Outcome size size limit (sub n w).1 (items n) (items (sub n w).2.1) w (sub n w).2.2 ∧
    fits (sub n w).2.1 ∧ (sub n w).2.1.level = n.level

/-- What the allocation from a node relies on: the function for the nodes below, and a new node there. -/
structure Below (pageSize size limit : Nat) (items : Node K → Multiset Item) (fits : Node K → Prop) (zero : Node K)
    (sub : Node K → World pageSize → Option Nat × Node K × World pageSize) : Prop where
  alloc : Allocates size limit items fits sub
  resized : ∀ n, fits n → n.osz = 0 → fits { n with osz := size } ∧ items { n with osz := size } = items n
  empty : items zero = 0
  level : zero.level = 0

/-- Nodes of an index page. -/
def FitsNodes (m : Pushes) (fits : Node K → Prop) (nodes : List (Node K)) : Prop :=
  ∀ n ∈ nodes, fits n ∧ (m = .first → n.level = 0)

theorem fitsNodes_cons {n : Node K} {nodes : List (Node K)} :
    FitsNodes m fits (n :: nodes) ↔ (fits n ∧ (m = .first → n.level = 0)) ∧ FitsNodes m fits nodes := List.forall_mem_cons

/-- A node gets the object size, if it is not in use. -/
theorem sized_spec (is_size : IsSize pageSize size) (below : Below pageSize size limit items fits zero sub)
    (n : Node K) (w : World pageSize) (fit : fits n ∧ (m = .first → n.level = 0)) :
    Grown limit w (if n.osz = 0 then w.recorded size else w) 0 ∧
      (fits (if n.osz = 0 then { n with osz := size } else n) ∧
        (m = .first → (if n.osz = 0 then { n with osz := size } else n).level = 0)) ∧
      items (if n.osz = 0 then { n with osz := size } else n) = items n := by
  by_cases unused : n.osz = 0
  · simp only [if_pos unused]
    obtain ⟨fit', same⟩ := below.resized n fit.1 unused
    exact ⟨Grown.recorded w is_size.ne_zero, ⟨fit', fit.2⟩, same⟩
  · simp only [if_neg unused]
    exact ⟨Grown.refl limit w, fit, trivial⟩

theorem allocNodes_spec (is_size : IsSize pageSize size) (below : Below pageSize size limit items fits zero sub)
    (nodes : List (Node K)) (w : World pageSize) (fit : FitsNodes m fits nodes) :
    let t := allocNodes sub size nodes w
    Outcome size size limit t.1 (nodes.map items).sum (t.2.1.map items).sum w t.2.2 ∧ FitsNodes m fits t.2.1 := by
  induction nodes generalizing w with
  | nil => exact ⟨Outcome.refl _ w, fit⟩
  | cons n rest ih =>
    obtain ⟨fit_n, fit_rest⟩ := fitsNodes_cons.mp fit
    obtain ⟨grown, fit', same⟩ := sized_spec is_size below n w fit_n
    rw [allocNodes]
    generalize (if n.osz = 0 then w.recorded size else w) = w₁ at grown
    generalize (if n.osz = 0 then { n with osz := size } else n) = n₁ at fit' same
    dsimp only
    have sized : Outcome size size limit none (items n) (items n₁) w w₁ := ⟨0, grown, by rw [same, add_zero]⟩
    by_cases here : n₁.osz = size
    · rw [if_pos here]
      obtain ⟨outcome, fit₂, level⟩ := below.alloc n₁ w₁ fit'.1 here
      generalize sub n₁ w₁ = t at outcome fit₂ level
      obtain ⟨r, n₂, w₂⟩ := t
      have fit_n₂ : fits n₂ ∧ (m = .first → n₂.level = 0) := ⟨fit₂, fun first => level.trans (fit'.2 first)⟩
      cases r with
      | some x =>
        refine ⟨?_, fitsNodes_cons.mpr ⟨fit_n₂, fit_rest⟩⟩
        simp only [List.map_cons, List.sum_cons]
        exact (sized.trans outcome).frame _
      | none =>
        obtain ⟨after, fit_after⟩ := ih w₂ fit_rest
        refine ⟨?_, fitsNodes_cons.mpr ⟨fit_n₂, fit_after⟩⟩
        simp only [List.map_cons, List.sum_cons]
        exact (sized.trans outcome).seq after
    · rw [if_neg here]
      obtain ⟨after, fit_after⟩ := ih w₁ fit_rest
      refine ⟨?_, fitsNodes_cons.mpr ⟨fit', fit_after⟩⟩
      simp only [List.map_cons, List.sum_cons]
      exact sized.seq after

/-- The size of the objects that a node takes: its own at level 0, else that of the request. -/
def taken (osz level size : Nat) : Nat := if level = 0 then osz else size

theorem enterChunk_spec {osz level : Nat} (is_size : IsSize pageSize size) (nonzero : osz ≠ 0)
    (below : Below pageSize size limit items fits zero sub)
    (c : Chunk K) (w : World pageSize) (fit : FitsChunk m pageSize fits osz level c) :
    let t := enterChunk sub osz level size limit c w
    Outcome (taken osz level size) size limit t.1 (c.items items osz) (t.2.1.items items osz) w t.2.2 ∧
      FitsChunk m pageSize fits osz level t.2.1 := by
  cases c with
  | null => exact ⟨Outcome.refl _ w, trivial⟩
  | index a nodes =>
    rw [enterChunk]
    by_cases level_eq : level = 0
    · rw [if_neg (not_not.mpr level_eq)]
      refine ⟨⟨0, ?_, (add_zero _).symm⟩, fit⟩
      dsimp only
      split_ifs
      · exact Grown.divided w nonzero
      · exact Grown.refl limit w
    · rw [if_pos level_eq]
      obtain ⟨outcome, fit'⟩ := allocNodes_spec is_size below nodes w fit.2
      rw [taken, if_neg level_eq]
      have := outcome.frame {.index a}
      simp only [Multiset.add_comm _ ({.index a} : Multiset Item), Multiset.singleton_add] at this
      exact ⟨this, fit.1, fit'⟩
  | data a words =>
    rw [enterChunk, if_neg (not_not.mpr fit.1)]
    split_ifs with begins
    · split
      · next j slot =>
        refine ⟨⟨0, Grown.divided w nonzero, ?_⟩, fit.1, by rw [List.length_set]; exact fit.2⟩
        rw [taken, if_pos fit.1]
        exact ⟨a, words, j, 0, rfl, rfl, slot, rfl, begins⟩
      · exact ⟨⟨0, Grown.divided w nonzero, (add_zero _).symm⟩, fit⟩
    · exact ⟨Outcome.refl _ w, fit⟩

/-- What is done for a pointer before it is entered. -/
theorem openChunk_spec {osz level : Nat} (nonzero : osz ≠ 0) (below : Below pageSize size limit items fits zero sub)
    (fit_zero : level ≠ 0 → fits zero) (c : Chunk K) (w : World pageSize) (fit : FitsChunk m pageSize fits osz level c) :
    match openChunk (newChunk zero osz level limit) c w with
    | (none, w') => Grown limit w w' 0
    | (some c', w') => Outcome (taken osz level size) size limit none (c.items items osz) (c'.items items osz) w w' ∧
        FitsChunk m pageSize fits osz level c' := by
  cases c with
  | index a nodes => exact ⟨Outcome.refl _ w, fit⟩
  | data a words => exact ⟨Outcome.refl _ w, fit⟩
  | null =>
    rw [openChunk, newChunk]
    split_ifs with level_eq <;> dsimp only <;> split_ifs with given
    · have grown := Grown.given limit w (.data osz _ (List.replicate (nobjs osz pageSize) slabPattern)) given rfl
        ⟨rfl, w.calls, w.held, rfl, given⟩
      exact ⟨⟨_, grown.trans (Grown.divided _ nonzero), (zero_add _).symm⟩, level_eq, List.length_replicate⟩
    · exact Grown.refused w (not_not.mp given)
    · have grown := Grown.given limit w (.index _) given rfl trivial
      have empty : ((List.replicate (pageSize / slabSz) zero).map items).sum = 0 := by
        rw [List.map_replicate, below.empty, List.sum_replicate, nsmul_zero]
      refine ⟨⟨_, grown, ?_⟩, .inr level_eq, fun n member => ?_⟩
      · simp only [Chunk.items, empty, zero_add]
        rfl
      · rw [List.eq_of_mem_replicate member]
        exact ⟨fit_zero level_eq, fun _ => below.level⟩
    · exact Grown.refused w (not_not.mp given)

/-- The loop over the pointers. -/
theorem allocChunks_spec {osz level : Nat} (is_size : IsSize pageSize size) (nonzero : osz ≠ 0)
    (below : Below pageSize size limit items fits zero sub) (fit_zero : level ≠ 0 → fits zero) (cs : List (Chunk K))
    (w : World pageSize) (fit : ∀ c ∈ cs, FitsChunk m pageSize fits osz level c) :
    let t := allocChunks (enterChunk sub osz level size limit) (newChunk zero osz level limit) cs w
    Outcome (taken osz level size) size limit t.1 (cs.map (Chunk.items items osz)).sum
        (t.2.1.map (Chunk.items items osz)).sum w t.2.2 ∧
      (∀ c ∈ t.2.1, FitsChunk m pageSize fits osz level c) ∧ t.2.1.length = cs.length := by
  induction cs generalizing w with
  | nil => exact ⟨Outcome.refl _ w, fit, rfl⟩
  | cons c rest ih =>
    obtain ⟨fit_c, fit_rest⟩ := List.forall_mem_cons.mp fit
    have opened_spec := openChunk_spec nonzero below fit_zero c w fit_c
    rw [allocChunks]
    dsimp only
    generalize openChunk (newChunk zero osz level limit) c w = opened at opened_spec
    obtain ⟨_ | c', w'⟩ := opened
    · exact ⟨⟨0, opened_spec, (add_zero _).symm⟩, fit, rfl⟩
    obtain ⟨open_outcome, fit_c'⟩ := opened_spec
    obtain ⟨outcome, fit_c''⟩ := enterChunk_spec is_size nonzero below c' w' fit_c'
    dsimp only
    generalize enterChunk sub osz level size limit c' w' = t at outcome fit_c''
    obtain ⟨_ | x, c'', w''⟩ := t
    · obtain ⟨after, fit_after, length⟩ := ih w'' fit_rest
      refine ⟨?_, List.forall_mem_cons.mpr ⟨fit_c'', fit_after⟩, congrArg Nat.succ length⟩
      simp only [List.map_cons, List.sum_cons]
      exact (open_outcome.trans outcome).seq after
    · refine ⟨?_, List.forall_mem_cons.mpr ⟨fit_c'', fit_rest⟩, rfl⟩
      simp only [List.map_cons, List.sum_cons]
      exact (open_outcome.trans outcome).frame _

theorem allocNode_spec {d : Nat} (is_size : IsSize pageSize size)
    (below : Below pageSize size limit items fits zero sub) (n : Node (Chunk K)) (w : World pageSize)
    (fit_zero : n.level ≠ 0 → fits zero) (nonzero : n.osz ≠ 0) (fit : FitsNode m pageSize d items fits n) :
    let t := allocNode zero sub size limit n w
    Outcome (taken n.osz n.level size) size limit t.1 (n.items items) (t.2.1.items items) w t.2.2 ∧
      FitsNode m pageSize d items fits t.2.1 ∧ t.2.1.level = n.level ∧ t.2.1.osz = n.osz := by
  obtain ⟨outcome, chunks, length⟩ := allocChunks_spec is_size nonzero below fit_zero n.ptr w fit.chunks
  rw [allocNode]
  generalize allocChunks _ _ n.ptr w = t at outcome chunks length
  obtain ⟨r, ptr, w'⟩ := t
  refine ⟨outcome, ⟨fit.level, length.trans fit.length, fun zero => absurd zero nonzero, fit.size, chunks, ?_⟩, rfl, rfl⟩
  intro first level
  have used := outcome.used
  have before := fit.count first level
  show (if n.level = 0 ∧ r.isSome then (n.count + 1) % 2 ^ 28 else n.count) =
    (usedOf (ptr.map (Chunk.items items n.osz)).sum).card % 2 ^ 28
  rw [used]
  cases r with
  | none =>
    rw [if_neg (by simp), before, Option.map_none, Option.getD_none, zero_add]
    rfl
  | some x =>
    have level' : n.level = 0 := level
    rw [if_pos ⟨level', rfl⟩, before, Nat.mod_add_mod, Option.map_some, Option.getD_some, Multiset.card_add,
      Multiset.card_singleton, Nat.add_comm]
    rfl

end Alloc

/-- `_slab_alloc` takes one object or none, from old pages or from new pages. -/
theorem slabAllocAt_spec {m : Pushes} {pageSize size : Nat} (limit : Nat) (is_size : IsSize pageSize size)
    (d : Nat) (n : Node (Kind d)) (w : World pageSize) (fit : FitsAt m pageSize d n)
    (nonzero : n.osz ≠ 0) :
    let t := slabAllocAt size limit d n w
    Outcome (taken n.osz n.level size) size limit t.1 (itemsAt d n) (itemsAt d t.2.1) w t.2.2 ∧
      FitsAt m pageSize d t.2.1 ∧ t.2.1.level = n.level ∧ t.2.1.osz = n.osz := by
  induction d generalizing w with
  | zero => exact fit.elim
  | succ d ih =>
    have alloc : Allocates size limit (itemsAt d) (FitsAt m pageSize d)
        (slabAllocAt size limit d : Node (Kind d) → World pageSize → Option Nat × Node (Kind d) × World pageSize) := by
      intro n w fit same
      obtain ⟨outcome, fit', level, -⟩ := ih n w fit (same ▸ is_size.ne_zero)
      have own : taken n.osz n.level size = size := by
        unfold taken
        split_ifs
        · exact same
        · rfl
      rw [own] at outcome
      exact ⟨outcome, fit', level⟩
    have below : Below pageSize size limit (itemsAt d) (FitsAt m pageSize d) (Node.zero d) (slabAllocAt size limit d) :=
      ⟨alloc, fun n fit unused => fitsAt_resized fit unused is_size, itemsAt_zero d, rfl⟩
    refine allocNode_spec is_size below n w (fun level => ?_) nonzero fit
    have deep := FitsNode.level fit
    cases d with
    | zero => omega
    | succ d => exact fitsAt_zero m pageSize d

end PreTeO.Mem.Slab
