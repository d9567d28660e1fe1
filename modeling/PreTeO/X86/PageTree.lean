import PreTeO.Lib.Radix
import PreTeO.X86.Vmm

/-!
# Page tables as radix tables

The tables of the manager are radix tables with 512 entries, levels 0 to 3 for PT, PD, PDP and PML4, and the numbers of
pages as numbers. The manager asks of an entry whether it is zero and the processor whether it is present; of tables whose
entries are sound they see the same pages.
-/

namespace PreTeO.X86
set_option autoImplicit false

open Lib (Cell digit trail missing Below Graded)

/-- What the manager takes an entry for. The `ps` bit says so in a PD and a PDP. -/
def view (l : Nat) (e : Entry) : Cell Nat :=
  if e = Entry.empty then .empty
  else if l = 0 ∨ (l = 1 ∨ l = 2) ∧ e.ps = true then .leaf
  else .node e.table

/-- The number of the page of an address, without the sign. -/
def pageNumber (va : Nat) : Nat := va / 2 ^ 12 % 512 ^ 4

theorem pageNumber_lt (va : Nat) : pageNumber va < 512 ^ 4 := Nat.mod_lt _ (by decide)

theorem ptIndex_eq (va : Nat) : ptIndex va = digit 512 0 (pageNumber va) := by
  unfold ptIndex digit pageNumber
  omega

theorem pdIndex_eq (va : Nat) : pdIndex va = digit 512 1 (pageNumber va) := by
  unfold pdIndex digit pageNumber
  omega

theorem pdpIndex_eq (va : Nat) : pdpIndex va = digit 512 2 (pageNumber va) := by
  unfold pdpIndex digit pageNumber
  omega

theorem pml4Index_eq (va : Nat) : pml4Index va = digit 512 3 (pageNumber va) := by
  unfold pml4Index digit pageNumber
  omega

section View
variable {l : Nat} {e : Entry}

theorem view_empty : view l Entry.empty = .empty := if_pos rfl

theorem view_eq_empty : view l e = .empty ↔ e = Entry.empty := by
  unfold view
  split_ifs <;> simp_all

theorem view_zero (some : e ≠ Entry.empty) : view 0 e = .leaf := by
  unfold view
  rw [if_neg some, if_pos (Or.inl rfl)]

theorem view_leaf (inner : l ≠ 0) (leaf : view l e = .leaf) : e.ps = true := by
  unfold view at leaf
  split_ifs at leaf with _ large
  exact (large.resolve_left inner).2

theorem view_four (leaf : view 3 e = .leaf) : False := by
  unfold view at leaf
  split_ifs at leaf with _ large
  simp at large

theorem view_small (inner : l = 1 ∨ l = 2) {page : Nat} (node : view l e = .node page) : e.ps = false := by
  unfold view at node
  split_ifs at node with _ large
  rw [not_or, not_and] at large
  exact Bool.eq_false_iff.mpr (large.2 inner)

theorem view_zero_node {page : Nat} (node : view 0 e = .node page) : False := by
  unfold view at node
  split_ifs at node with _ leaf
  exact leaf (Or.inl rfl)

theorem view_node {page : Nat} (node : view l e = .node page) : e ≠ Entry.empty ∧ page = e.table := by
  unfold view at node
  split_ifs at node with empty
  exact ⟨empty, (Cell.node.inj node).symm⟩

end View

/-- The page tables are in order: entries are sound, and one that names a table lets writes through. -/
structure Tabled (mem : Tables) (lvl : Nat → Option Nat) : Prop where
  graded : Graded view 512 mem lvl
  sound : ∀ page l i, lvl page = some l → i < 512 → (mem page i).Sound
  node : ∀ page l i m, lvl page = some l → i < 512 → view l (mem page i) = .node m →
    (mem page i).Near ∧ (mem page i).rw = true

/-- What the processor makes of the entries that lead to a page. -/
def translate (va : Nat) : List Entry → Option Translation
  | [pml4e, pdpe] => some (translation (pdpe.frame / 2 ^ 18 * 2 ^ 30 + pt1gOffset va) pdpe [pml4e])
  | [pml4e, pdpe, pde] => some (translation (pde.frame / 2 ^ 9 * 2 ^ 21 + pt2mOffset va) pde [pdpe, pml4e])
  | [pml4e, pdpe, pde, pte] => some (translation (pte.frame * 2 ^ 12 + pt4kOffset va) pte [pde, pdpe, pml4e])
  | _ => none

section Tabled
variable {mem : Tables} {lvl : Nat → Option Nat} {root v l l' page page' : Nat} {path : List Entry}

theorem Tabled.present (tabled : Tabled mem lvl) {i : Nat} (level : lvl page = some l) (inside : i < 512) :
    (mem page i).p = true ↔ view l (mem page i) ≠ .empty := by
  rw [(tabled.sound page l i level inside).present, ne_eq, ne_eq, view_eq_empty]

theorem Tabled.frame (tabled : Tabled mem lvl) {i m : Nat} (level : lvl page = some l) (inside : i < 512)
    (node : view l (mem page i) = .node m) : (mem page i).frame = m := by
  rw [(tabled.sound page l i level inside).frame, (view_node node).2]
  exact (Nat.mod_eq_of_lt (tabled.node page l i m level inside node).1).symm

/-- The entries on a path let writes through, and there is one for each level. -/
theorem Tabled.links (tabled : Tabled mem lvl) (below : Below view 512 mem v l page path l' page')
    (level : lvl page = some l) : path.length + l' = l ∧ ∀ e ∈ path, e.rw = true := by
  induction below with
  | refl => exact ⟨Nat.zero_add _, fun _ h => absurd h List.not_mem_nil⟩
  | @step l l' n m n' path node rest ih =>
    have inside := Lib.digit_lt (d := 512) (by decide) (l + 1) v
    obtain ⟨length, writes⟩ := ih (tabled.graded.down _ _ _ _ level inside node)
    refine ⟨by rw [List.length_cons]; omega, fun e member => ?_⟩
    rcases List.mem_cons.mp member with rfl | member
    · exact (tabled.node _ _ _ _ level inside node).2
    · exact writes e member

/-- The processor finds the page at the end of the trail. -/
theorem Tabled.walk_eq (tabled : Tabled mem lvl) (level : lvl root = some 3) (va : Nat) :
    walk mem root va = (trail view 512 mem 3 root (pageNumber va)).bind (translate va) := by
  have bound (l : Nat) : digit 512 l (pageNumber va) < 512 := Lib.digit_lt (by decide) _ _
  unfold walk
  rw [pml4Index_eq, pdpIndex_eq, pdIndex_eq, ptIndex_eq]
  dsimp only
  cases first : view 3 (mem root (digit 512 3 (pageNumber va))) with
  | empty =>
    have absent := (tabled.present level (bound 3)).not.mpr (not_not.mpr first)
    rw [if_neg absent, trail, first]
    rfl
  | leaf => exact (view_four first).elim
  | node pdp =>
    have present := (tabled.present level (bound 3)).mpr (by rw [first]; exact fun same => by cases same)
    have level2 := tabled.graded.down _ _ _ _ level (bound 3) first
    rw [if_pos present, tabled.frame level (bound 3) first, trail, first]
    dsimp only
    cases second : view 2 (mem pdp (digit 512 2 (pageNumber va))) with
    | empty =>
      have absent := (tabled.present level2 (bound 2)).not.mpr (not_not.mpr second)
      rw [if_neg absent, trail, second]
      rfl
    | leaf =>
      have present := (tabled.present level2 (bound 2)).mpr (by rw [second]; exact fun same => by cases same)
      rw [if_pos present, if_pos (view_leaf (by decide) second), trail, second]
      rfl
    | node pd =>
      have present := (tabled.present level2 (bound 2)).mpr (by rw [second]; exact fun same => by cases same)
      have level1 := tabled.graded.down _ _ _ _ level2 (bound 2) second
      rw [if_pos present, view_small (Or.inr rfl) second, if_neg Bool.false_ne_true, tabled.frame level2 (bound 2) second,
        trail, second]
      dsimp only
      cases third : view 1 (mem pd (digit 512 1 (pageNumber va))) with
      | empty =>
        have absent := (tabled.present level1 (bound 1)).not.mpr (not_not.mpr third)
        rw [if_neg absent, trail, third]
        rfl
      | leaf =>
        have present := (tabled.present level1 (bound 1)).mpr (by rw [third]; exact fun same => by cases same)
        rw [if_pos present, if_pos (view_leaf (by decide) third), trail, third]
        rfl
      | node pt =>
        have present := (tabled.present level1 (bound 1)).mpr (by rw [third]; exact fun same => by cases same)
        have level0 := tabled.graded.down _ _ _ _ level1 (bound 1) third
        rw [if_pos present, view_small (Or.inl rfl) third, if_neg Bool.false_ne_true,
          tabled.frame level1 (bound 1) third, trail, third]
        dsimp only
        cases last : view 0 (mem pt (digit 512 0 (pageNumber va))) with
        | empty =>
          have absent := (tabled.present level0 (bound 0)).not.mpr (not_not.mpr last)
          rw [if_neg absent, trail, last]
          rfl
        | leaf =>
          have present := (tabled.present level0 (bound 0)).mpr (by rw [last]; exact fun same => by cases same)
          rw [if_pos present, trail, last]
          rfl
        | node m => exact (view_zero_node last).elim

end Tabled

end PreTeO.X86
