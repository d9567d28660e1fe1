import PreTeO.Mem.Slab
import Mathlib.Data.Multiset.Bind
import Mathlib.Algebra.BigOperators.Group.Multiset.Basic
import Mathlib.Tactic.Abel

/-!
# The pages of the slab allocator

For its owners and for the page allocator, a tree is the pages it has: index pages, and data pages with the words of their
objects. How deep the pages are in the tree does not matter to either, but only to the counts that prune the search.
-/

namespace PreTeO.Mem.Slab
set_option autoImplicit false

open Lib.Mem (Apart)

/-- Pages that were obtained together. Data pages have the size of their objects. -/
inductive Item where
  | index (addr : Nat)
  | data (osz addr : Nat) (words : List Nat)

namespace Item

def group (pageSize : Nat) : Item → Group
  | .index a => (a, 1)
  | .data osz a _ => (a, dataPages osz pageSize)

/-- The objects of some pages, each with its first word. -/
def slots : Item → Multiset (Obj × Nat)
  | .index _ => 0
  | .data osz a words => words.mapIdx fun j word => (({ addr := a + j * osz, size := osz } : Obj), word)

end Item

def slotsOf (M : Multiset Item) : Multiset (Obj × Nat) := M.bind Item.slots

/-- The objects that are in use. -/
def usedOf (M : Multiset Item) : Multiset Obj := ((slotsOf M).filter fun slot => ¬ IsFree slot.2).map Prod.fst

/-- There is an object in use at the address. -/
def UsedAt (ptr : Nat) (M : Multiset Item) : Prop := ∃ o ∈ usedOf M, o.addr = ptr

/-- There is a free object at the address. -/
def FreeAt (ptr : Nat) (M : Multiset Item) : Prop := ∃ o word, (o, word) ∈ slotsOf M ∧ o.addr = ptr ∧ IsFree word

section Slots
variable {M N : Multiset Item} {i : Item} {ptr : Nat} {o : Obj}

@[simp] theorem slotsOf_zero : slotsOf 0 = 0 := rfl
@[simp] theorem slotsOf_cons : slotsOf (i ::ₘ M) = i.slots + slotsOf M := Multiset.cons_bind ..
@[simp] theorem slotsOf_add : slotsOf (M + N) = slotsOf M + slotsOf N := Multiset.add_bind ..
@[simp] theorem usedOf_zero : usedOf 0 = 0 := rfl
@[simp] theorem usedOf_add : usedOf (M + N) = usedOf M + usedOf N := by simp [usedOf]

theorem usedOf_cons : usedOf (i ::ₘ M) = usedOf {i} + usedOf M := by rw [← Multiset.singleton_add, usedOf_add]

theorem mem_usedOf : o ∈ usedOf M ↔ ∃ word, (o, word) ∈ slotsOf M ∧ ¬ IsFree word := by
  simp [usedOf]

theorem mem_slots {osz a word : Nat} {words : List Nat} : (o, word) ∈ (Item.data osz a words).slots ↔
    ∃ j, ∃ less : j < words.length, o = ⟨a + j * osz, osz⟩ ∧ words[j] = word := by
  simp [Item.slots, eq_comm]

theorem mem_slotsOf {word : Nat} : (o, word) ∈ slotsOf M ↔
    ∃ osz a words, .data osz a words ∈ M ∧ ∃ j, ∃ less : j < words.length, o = ⟨a + j * osz, osz⟩ ∧ words[j] = word := by
  simp only [slotsOf, Multiset.mem_bind]
  constructor
  · rintro ⟨_ | ⟨osz, a, words⟩, member, slot⟩
    · simp [Item.slots] at slot
    · exact ⟨osz, a, words, member, mem_slots.mp slot⟩
  · rintro ⟨osz, a, words, member, slot⟩
    exact ⟨_, member, mem_slots.mpr slot⟩

theorem usedOf_mono (less : M ≤ N) : usedOf M ≤ usedOf N := by
  obtain ⟨R, rfl⟩ := Multiset.le_iff_exists_add.mp less
  rw [usedOf_add]
  exact Multiset.le_add_right _ _

theorem UsedAt.mono (used : UsedAt ptr M) (less : M ≤ N) : UsedAt ptr N := by
  obtain ⟨o, member, rfl⟩ := used
  exact ⟨o, Multiset.mem_of_le (usedOf_mono less) member, rfl⟩

theorem FreeAt.mono (free : FreeAt ptr M) (less : M ≤ N) : FreeAt ptr N := by
  obtain ⟨o, word, slot, rest⟩ := free
  obtain ⟨R, rfl⟩ := Multiset.le_iff_exists_add.mp less
  exact ⟨o, word, by simp [slot], rest⟩

theorem not_usedAt_zero : ¬ UsedAt ptr 0 := by
  rintro ⟨o, member, -⟩
  exact Multiset.notMem_zero o member

theorem usedAt_add : UsedAt ptr (M + N) ↔ UsedAt ptr M ∨ UsedAt ptr N := by
  simp only [UsedAt, usedOf_add, Multiset.mem_add, or_and_right, exists_or]

theorem mem_list_sum {α : Type} {x : α} {L : List (Multiset α)} : x ∈ L.sum ↔ ∃ A ∈ L, x ∈ A := by
  induction L with
  | nil => simp
  | cons A L ih => simp [ih]

/-- One word of some pages, and the others. -/
theorem slots_set (osz a : Nat) {words : List Nat} {j : Nat} (less : j < words.length) :
    ∃ S, (Item.data osz a words).slots = (⟨a + j * osz, osz⟩, words[j]) ::ₘ S ∧
      ∀ v, (Item.data osz a (words.set j v)).slots = (⟨a + j * osz, osz⟩, v) ::ₘ S := by
  let L := words.mapIdx fun j word => ((⟨a + j * osz, osz⟩, word) : Obj × Nat)
  have bound : j < L.length := by simpa [L] using less
  refine ⟨(L.eraseIdx j : List (Obj × Nat)), ?_, fun v => ?_⟩
  · have here : L[j] = (⟨a + j * osz, osz⟩, words[j]) := by simp [L]
    rw [Item.slots, Multiset.cons_coe, Multiset.coe_eq_coe, ← here]
    exact (List.getElem_cons_eraseIdx_perm bound).symm
  · rw [Item.slots, Multiset.cons_coe, Multiset.coe_eq_coe, List.mapIdx_set]
    exact List.set_perm_cons_eraseIdx bound _

end Slots

/-! ## No object twice -/

section Apart
variable {pageSize : Nat}

/-- Groups of pages have no byte in common. -/
def GroupsApart (pageSize : Nat) (g h : Group) : Prop := Apart g.1 (g.2 * pageSize) h.1 (h.2 * pageSize)

instance : Std.Symm (GroupsApart pageSize) := ⟨fun _ _ => Or.symm⟩

/-- The size of objects: not below the smallest, and whole pages from a page on. -/
def IsSize (pageSize osz : Nat) : Prop := slabMinAlloc ≤ osz ∧ (pageSize ≤ osz → pageSize ∣ osz)

theorem IsSize.ne_zero {osz : Nat} (size : IsSize pageSize osz) : osz ≠ 0 := by
  have := size.1
  unfold slabMinAlloc at this
  omega

/-- The data pages are as `_slab_alloc` makes them. -/
def Paged (pageSize : Nat) (M : Multiset Item) : Prop :=
  ∀ osz a words, .data osz a words ∈ M → IsSize pageSize osz ∧ words.length = nobjs osz pageSize

/-- Pages without a byte in common. -/
def ItemsApart (pageSize : Nat) (i i' : Item) : Prop := GroupsApart pageSize (i.group pageSize) (i'.group pageSize)

instance : Std.Symm (ItemsApart pageSize) := ⟨fun _ _ => Or.symm⟩

/-- Pages as `_slab_alloc` makes them, without a byte in common. -/
structure Separate (pageSize : Nat) (M : Multiset Item) : Prop where
  paged : Paged pageSize M
  apart : M.Pairwise (ItemsApart pageSize)

/-- An object lies in its pages. -/
theorem slot_inside {osz j : Nat} (less : j < nobjs osz pageSize) :
    j * osz + osz ≤ dataPages osz pageSize * pageSize := by
  have most : nobjs osz pageSize * osz ≤ dataPages osz pageSize * pageSize := Nat.div_mul_le_self _ _
  have : (j + 1) * osz ≤ nobjs osz pageSize * osz := Nat.mul_le_mul_right osz less
  rw [Nat.succ_mul] at this
  omega

/-- Two objects of the same pages. -/
theorem slots_apart {osz j k : Nat} (other : j ≠ k) (a : Nat) : Apart (a + j * osz) osz (a + k * osz) osz := by
  rcases Nat.lt_or_gt_of_ne other with less | more
  · have : (j + 1) * osz ≤ k * osz := Nat.mul_le_mul_right osz less
    rw [Nat.succ_mul] at this
    exact .inl (by omega)
  · have : (k + 1) * osz ≤ j * osz := Nat.mul_le_mul_right osz more
    rw [Nat.succ_mul] at this
    exact .inr (by omega)

/-- Pages that are held have no byte in common. -/
theorem itemsApart_of_groups {M : Multiset Item} (apart : (M.map (Item.group pageSize)).Pairwise (GroupsApart pageSize)) :
    M.Pairwise (ItemsApart pageSize) := by
  obtain ⟨L, rfl⟩ : ∃ L : List Item, (L : Multiset Item) = M := Quot.exists_rep M
  rw [Multiset.map_coe, Multiset.pairwise_coe_iff_pairwise, List.pairwise_map] at apart
  exact Multiset.pairwise_coe_iff_pairwise.mpr apart

/-- No address is that of two objects. -/
theorem Separate.nodup {M : Multiset Item} (separate : Separate pageSize M) :
    ((slotsOf M).map fun slot => slot.1.addr).Nodup := by
  rw [slotsOf, Multiset.map_bind, Multiset.nodup_bind]
  constructor
  · intro i member
    cases i with
    | index a => exact Multiset.nodup_zero
    | data osz a words =>
      have nonzero := (separate.paged osz a words member).1.ne_zero
      rw [Item.slots, Multiset.map_coe, Multiset.coe_nodup]
      refine List.nodup_iff_injective_getElem.mpr fun j k same => ?_
      simp only [List.getElem_map, List.getElem_mapIdx] at same
      exact Fin.ext (Nat.eq_of_mul_eq_mul_right (Nat.pos_of_ne_zero nonzero) (Nat.add_left_cancel same))
  · obtain ⟨L, rfl⟩ : ∃ L : List Item, (L : Multiset Item) = M := Quot.exists_rep M
    have apart := Multiset.pairwise_coe_iff_pairwise.mp separate.apart
    refine ⟨L, rfl, apart.imp_of_mem fun {i i'} member member' apart => ?_⟩
    rw [Function.onFun_apply, Multiset.disjoint_left]
    intro p first second
    obtain ⟨⟨_, word⟩, slot, rfl⟩ := Multiset.mem_map.mp first
    obtain ⟨⟨_, word'⟩, slot', same⟩ := Multiset.mem_map.mp second
    cases i with
    | index a => exact absurd slot (Multiset.notMem_zero _)
    | data osz a words =>
      cases i' with
      | index a' => exact absurd slot' (Multiset.notMem_zero _)
      | data osz' a' words' =>
        obtain ⟨size, length⟩ := separate.paged osz a words member
        obtain ⟨size', length'⟩ := separate.paged osz' a' words' member'
        obtain ⟨j, less, rfl, -⟩ := mem_slots.mp slot
        obtain ⟨k, less', rfl, -⟩ := mem_slots.mp slot'
        have inside := slot_inside (length ▸ less)
        have inside' := slot_inside (length' ▸ less')
        have some := size.ne_zero
        have some' := size'.ne_zero
        simp only [ItemsApart, GroupsApart, Apart, Item.group] at apart
        simp only at same
        omega

theorem Separate.slot_unique {M : Multiset Item} (separate : Separate pageSize M) {s t : Obj × Nat} (first : s ∈ slotsOf M)
    (second : t ∈ slotsOf M) (same : s.1.addr = t.1.addr) : s = t :=
  Multiset.inj_on_of_nodup_map separate.nodup _ first _ second same

/-- No object is free and in use. -/
theorem Separate.not_free {M : Multiset Item} (separate : Separate pageSize M) {ptr : Nat} (used : UsedAt ptr M) :
    ¬ FreeAt ptr M := by
  rintro ⟨o, word, slot, rfl, free⟩
  obtain ⟨o', member, same⟩ := used
  obtain ⟨word', slot', busy⟩ := mem_usedOf.mp member
  obtain rfl : word = word' := congrArg Prod.snd (separate.slot_unique slot slot' same.symm)
  exact busy free

theorem Separate.nodup_used {M : Multiset Item} (separate : Separate pageSize M) : ((usedOf M).map Obj.addr).Nodup := by
  rw [usedOf, Multiset.map_map]
  exact Multiset.nodup_of_le (Multiset.map_le_map (Multiset.filter_le _ _)) separate.nodup

end Apart

/-! ## The world -/

section World
variable {pageSize : Nat}

/-- Groups of pages are not 0, and have no byte in common. -/
def World.Sound (w : World pageSize) : Prop := w.held.Pairwise (GroupsApart pageSize) ∧ ∀ g ∈ w.held, g.1 ≠ 0

/-- No size of 0 was recorded or divided by. -/
def World.Divisible (w : World pageSize) : Prop := (∀ osz ∈ w.sizes, osz ≠ 0) ∧ ∀ osz ∈ w.divisors, osz ≠ 0

/-- Nobody has used the pages, which were given for this limit. -/
def Item.Fresh (source : PageSource pageSize) (limit : Nat) : Item → Prop
  | .index _ => True
  | .data osz a words => words = List.replicate (nobjs osz pageSize) slabPattern ∧
      ∃ calls held, source.give calls held (dataPages osz pageSize) limit = a ∧ a ≠ 0

/-- All that happened is that pages were obtained. -/
structure Grown (limit : Nat) (w w' : World pageSize) (new : Multiset Item) : Prop where
  source : w'.source = w.source
  held : (w'.held : Multiset Group) = new.map (Item.group pageSize) + w.held
  obtained : (w'.obtained : Multiset Group) = new.map (Item.group pageSize) + w.obtained
  freed : w'.freed = w.freed
  sound : w.Sound → w'.Sound
  divisible : w.Divisible → w'.Divisible
  fresh : ∀ i ∈ new, i.Fresh w.source limit

theorem Grown.refl (limit : Nat) (w : World pageSize) : Grown limit w w 0 where
  source := rfl
  held := by simp
  obtained := by simp
  freed := rfl
  sound := id
  divisible := id
  fresh := by simp

theorem Grown.trans {limit : Nat} {w w₁ w₂ : World pageSize} {M N : Multiset Item} (first : Grown limit w w₁ M)
    (second : Grown limit w₁ w₂ N) : Grown limit w w₂ (M + N) where
  source := second.source.trans first.source
  held := by
    rw [second.held, first.held, Multiset.map_add]
    abel
  obtained := by
    rw [second.obtained, first.obtained, Multiset.map_add]
    abel
  freed := second.freed.trans first.freed
  sound := second.sound ∘ first.sound
  divisible := second.divisible ∘ first.divisible
  fresh i member := by
    rcases Multiset.mem_add.mp member with left | right
    · exact first.fresh i left
    · exact first.source ▸ second.fresh i right

theorem Grown.recorded {limit osz : Nat} (w : World pageSize) (some : osz ≠ 0) : Grown limit w (w.recorded osz) 0 where
  source := rfl
  held := by simp [World.recorded]
  obtained := by simp [World.recorded, World.obtained]
  freed := rfl
  sound := id
  divisible h := ⟨List.forall_mem_cons.mpr ⟨some, h.1⟩, h.2⟩
  fresh := by simp

theorem Grown.divided {limit osz : Nat} (w : World pageSize) (some : osz ≠ 0) : Grown limit w (w.divided osz) 0 where
  source := rfl
  held := by simp [World.divided]
  obtained := by simp [World.divided, World.obtained]
  freed := rfl
  sound := id
  divisible h := ⟨h.1, List.forall_mem_cons.mpr ⟨some, h.2⟩⟩
  fresh := by simp

/-- The page allocator has no pages. -/
theorem Grown.refused {limit npages l : Nat} (w : World pageSize) (null : (w.memAlloc npages l).1 = 0) :
    Grown limit w (w.memAlloc npages l).2 0 where
  source := rfl
  held := by
    simp only [World.memAlloc] at null
    simp [World.memAlloc, null]
  obtained := by
    simp only [World.memAlloc] at null
    simp [World.memAlloc, World.obtained, null]
  freed := rfl
  sound h := by
    simp only [World.memAlloc] at null
    simpa [World.Sound, World.memAlloc, null] using h
  divisible := id
  fresh := by simp

/-- The page allocator gives pages. -/
theorem Grown.given {npages l : Nat} (limit : Nat) (w : World pageSize) (i : Item) (some : (w.memAlloc npages l).1 ≠ 0)
    (group : i.group pageSize = ((w.memAlloc npages l).1, npages)) (fresh : i.Fresh w.source limit) :
    Grown limit w (w.memAlloc npages l).2 {i} where
  source := rfl
  held := by
    simp only [World.memAlloc] at some group ⊢
    rw [Multiset.map_singleton, group, if_pos some]
    rfl
  obtained := by
    simp only [World.memAlloc] at some group ⊢
    simp only [World.obtained, Multiset.map_singleton, group, List.filterMap_cons, if_pos some]
    rfl
  freed := rfl
  sound h := by
    have apart := w.source.apart w.calls w.held npages l
    simp only [World.memAlloc] at some ⊢
    simp only [World.Sound, if_pos some, List.pairwise_cons, List.forall_mem_cons]
    exact ⟨⟨apart some, h.1⟩, some, h.2⟩
  divisible := id
  fresh := by simpa using fresh

end World

/-! ## What an allocation does -/

theorem not_isFree_zero : ¬ IsFree 0 := by decide

theorem isFree_pattern : IsFree slabPattern := .inl rfl

theorem isFree_pattern2 : IsFree slabPattern2 := .inr rfl

/-- The word of an object is one of its pages, if it is that of a free object. -/
theorem lt_of_isFree {words : List Nat} {j : Nat} (free : IsFree (words.getD j 0)) : j < words.length := by
  by_contra beyond
  rw [List.getD_eq_default _ _ (Nat.le_of_not_lt beyond)] at free
  exact not_isFree_zero free

theorem freeSlot_spec {n j : Nat} {words : List Nat} (slot : freeSlot n words = some j) :
    j < n ∧ IsFree (words.getD j 0) := by
  rw [freeSlot] at slot
  split at slot
  · next i found =>
    cases slot
    have never : words.getD j 0 = slabPattern := by simpa using List.find?_some found
    exact ⟨List.mem_range.mp (List.mem_of_find?_eq_some found), .inl never⟩
  · have freed : words.getD j 0 = slabPattern2 := by simpa using List.find?_some slot
    exact ⟨List.mem_range.mp (List.mem_of_find?_eq_some slot), .inr freed⟩

/-- The objects in use, when a word that is one of a free object becomes one that is not. -/
theorem usedOf_take {osz a j v : Nat} {words : List Nat} (free : IsFree (words.getD j 0)) (busy : ¬ IsFree v) :
    usedOf {.data osz a (words.set j v)} = ⟨a + j * osz, osz⟩ ::ₘ usedOf {.data osz a words} := by
  have less := lt_of_isFree free
  rw [List.getD_eq_getElem _ _ less] at free
  obtain ⟨S, before, after⟩ := slots_set osz a less
  simp [usedOf, slotsOf, before, after, free, busy]

/-- The objects in use, when a word that is not one of a free object becomes one. -/
theorem usedOf_release {osz a j v : Nat} {words : List Nat} (less : j < words.length) (busy : ¬ IsFree (words.getD j 0))
    (free : IsFree v) : usedOf {.data osz a words} = ⟨a + j * osz, osz⟩ ::ₘ usedOf {.data osz a (words.set j v)} := by
  rw [List.getD_eq_getElem _ _ less] at busy
  obtain ⟨S, before, after⟩ := slots_set osz a less
  simp [usedOf, slotsOf, before, after, free, busy]

theorem Item.Fresh.unused {pageSize limit : Nat} {source : PageSource pageSize} {i : Item} (fresh : i.Fresh source limit) :
    usedOf {i} = 0 := by
  refine Multiset.eq_zero_of_forall_notMem fun p used => ?_
  obtain ⟨word, slot, busy⟩ := mem_usedOf.mp used
  cases i with
  | index a => simp [slotsOf, Item.slots] at slot
  | data osz a words =>
    rw [slotsOf, Multiset.singleton_bind, mem_slots, fresh.1] at slot
    obtain ⟨j, less, -, rfl⟩ := slot
    rw [List.getElem_replicate] at busy
    exact busy isFree_pattern

theorem usedOf_fresh {pageSize limit : Nat} {source : PageSource pageSize} {M : Multiset Item}
    (fresh : ∀ i ∈ M, i.Fresh source limit) : usedOf M = 0 := by
  induction M using Multiset.induction with
  | empty => rfl
  | cons i M ih =>
    rw [usedOf_cons, (fresh i (Multiset.mem_cons_self i M)).unused,
      ih fun i' member => fresh i' (Multiset.mem_cons_of_mem member), zero_add]

section Outcome
variable {pageSize : Nat}

/-- A free object is taken from pages that begin below the limit. -/
def Took (pageSize osz size limit x : Nat) (M M' : Multiset Item) : Prop :=
  ∃ a words j rest, M = .data osz a words ::ₘ rest ∧ M' = .data osz a (words.set j 0) ::ₘ rest ∧
    freeSlot (nobjs osz pageSize) words = some j ∧ x = a + j * osz ∧ (a + size) % 2 ^ 64 < limit

theorem Took.frame {osz size limit x : Nat} {M M' : Multiset Item} (took : Took pageSize osz size limit x M M')
    (R : Multiset Item) : Took pageSize osz size limit x (M + R) (M' + R) := by
  obtain ⟨a, words, j, rest, rfl, rfl, slot⟩ := took
  exact ⟨a, words, j, rest + R, by simp, by simp, slot⟩

theorem Took.used {osz size limit x : Nat} {M M' : Multiset Item} (took : Took pageSize osz size limit x M M') :
    usedOf M' = ⟨x, osz⟩ ::ₘ usedOf M ∧ FreeAt x M := by
  obtain ⟨a, words, j, rest, rfl, rfl, slot, rfl, -⟩ := took
  have free := (freeSlot_spec slot).2
  have less := lt_of_isFree free
  refine ⟨?_, ⟨a + j * osz, osz⟩, words[j], ?_, rfl, ?_⟩
  · rw [usedOf_cons, usedOf_take free not_isFree_zero, Multiset.cons_add, ← usedOf_cons]
  · exact mem_slotsOf.mpr ⟨osz, a, words, Multiset.mem_cons_self _ _, j, less, rfl, rfl⟩
  · rwa [List.getD_eq_getElem _ _ less] at free

/-- Pages are obtained, and an object of size `osz` is taken if there is a result. -/
def Outcome (osz size limit : Nat) (r : Option Nat) (M M' : Multiset Item) (w w' : World pageSize) : Prop :=
  ∃ new, Grown limit w w' new ∧
    match r with
    | none => M' = M + new
    | some x => Took pageSize osz size limit x (M + new) M'

variable {osz size limit : Nat} {r : Option Nat} {A A' B B' M M' : Multiset Item} {w w₁ w' : World pageSize}

theorem Outcome.refl (M : Multiset Item) (w : World pageSize) : Outcome osz size limit none M M w w :=
  ⟨0, Grown.refl limit w, (add_zero M).symm⟩

/-- If no object is taken, its size does not matter. -/
theorem Outcome.resize (outcome : Outcome osz size limit none M M' w w') (osz' : Nat) :
    Outcome osz' size limit none M M' w w' := outcome

theorem Outcome.frame (outcome : Outcome osz size limit r M M' w w') (R : Multiset Item) :
    Outcome osz size limit r (M + R) (M' + R) w w' := by
  obtain ⟨new, grown, result⟩ := outcome
  refine ⟨new, grown, ?_⟩
  cases r with
  | none => rw [result, add_right_comm]
  | some x =>
    rw [add_right_comm]
    exact result.frame R

/-- Pages that were obtained before. -/
theorem Outcome.after {new : Multiset Item} (grown : Grown limit w w₁ new)
    (outcome : Outcome osz size limit r (M + new) M' w₁ w') : Outcome osz size limit r M M' w w' := by
  obtain ⟨new', grown', result⟩ := outcome
  refine ⟨new + new', grown.trans grown', ?_⟩
  rw [← add_assoc]
  exact result

theorem Outcome.trans (first : Outcome osz size limit none A A' w w₁) (second : Outcome osz size limit r A' M' w₁ w') :
    Outcome osz size limit r A M' w w' := by
  obtain ⟨new, grown, rfl⟩ := first
  exact second.after grown

/-- One part of a tree after another in which there was no object. -/
theorem Outcome.seq (first : Outcome osz size limit none A A' w w₁) (second : Outcome osz size limit r B B' w₁ w') :
    Outcome osz size limit r (A + B) (A' + B') w w' := by
  obtain ⟨new, grown, rfl⟩ := first
  refine Outcome.after grown ?_
  have := second.frame (A + new)
  rwa [show A + B + new = B + (A + new) by abel, add_comm (A + new)]

/-- An allocation uses one object more, if it has a result. -/
theorem Outcome.used (outcome : Outcome osz size limit r M M' w w') :
    usedOf M' = (r.map fun x => ({⟨x, osz⟩} : Multiset Obj)).getD 0 + usedOf M := by
  obtain ⟨new, grown, result⟩ := outcome
  have fresh := usedOf_fresh grown.fresh
  cases r with
  | none => simp [result, fresh]
  | some x =>
    rw [result.used.1, usedOf_add, fresh, add_zero]
    rfl

end Outcome

end PreTeO.Mem.Slab
