import PreTeO.X86.VmmMapped
import PreTeO.X86.VmmUnmapRun

/-!
# What `_unmap` removes

The pages that `_unmap` comes to are removed up to the first one without a PDP or with a large page. A page is passed over
only if `ipt` was not 0 at first and the first address has no PD: then the first PD that there is, is entered in the middle.
-/

namespace PreTeO.X86
set_option autoImplicit false

open Lib (Cell digit nextBlock trail missing Below Graded Unshared Grows Rooted Leads ledLevel)

section Loops
variable {before : Tables} {lvl₀ : Nat → Option Nat} {root v vaddrEnd : Nat}

theorem unmapPml4_removes : RemovesAll before lvl₀ root v vaddrEnd 3 (unmapPml4 vaddrEnd) := by
  have pt : RemovesAll before lvl₀ root v vaddrEnd 0 (unmapPt vaddrEnd) := fun page u s lvl ready =>
    unmapLoop_removes unmapPage_steps (by decide) (Nat.le_add_right _ _) ready
  have pd : RemovesAll before lvl₀ root v vaddrEnd 1 (unmapPd vaddrEnd) := fun page u s lvl ready =>
    unmapLoop_removes (unmapEntry_steps (by decide) (by decide) (fun e some => view_leaf_iff (.inl rfl) some) pt) (by decide)
      (Nat.le_add_right _ _) ready
  have pdp : RemovesAll before lvl₀ root v vaddrEnd 2 (unmapPdp vaddrEnd) := fun page u s lvl ready =>
    unmapLoop_removes (unmapEntry_steps (by decide) (by decide) (fun e some => view_leaf_iff (.inr rfl) some) pd) (by decide)
      (Nat.le_add_right _ _) ready
  refine fun page u s lvl ready => unmapLoop_removes (unmapEntry_steps le_rfl (by decide) (fun e _ => ?_) pdp) le_rfl
    (Nat.le_add_right _ _) ready
  exact ⟨fun large => absurd large.1 Bool.false_ne_true, fun leaf => (view_four leaf).elim⟩

end Loops

/-- The tables that numbers lead to are in order. -/
theorem Tabled.led {mem : Tables} {lvl : Nat → Option Nat} {root : Nat} (tabled : Tabled mem lvl) (top : lvl root = some 3) :
    Tabled mem (ledLevel view 512 mem lvl 3 root) := by
  have old (n l : Nat) (level : ledLevel view 512 mem lvl 3 root n = some l) : lvl n = some l :=
    (Lib.ledLevel_eq_some.mp level).2
  exact ⟨(Rooted.of_graded tabled.graded (by decide) top).graded, fun n l i level => tabled.sound n l i (old n l level),
    fun n l i m level => tabled.node n l i m (old n l level)⟩

namespace Vmm

variable {s : Vmm} {lvl : Nat → Option Nat} {vaddrStart vaddrEnd : Nat}

/-- The page is one that `_unmap` removes: it comes to it and nothing ended it before. -/
def Unmaps (s : Vmm) (vaddrStart vaddrEnd w : Nat) : Prop :=
  Visited s.mem s.mmap (pageNumber vaddrStart) vaddrEnd w ∧
    ∀ u ≤ w, Visited s.mem s.mmap (pageNumber vaddrStart) vaddrEnd u → ¬ Blocked s.mem s.mmap u

/-- No page of the range has a second address. -/
def RangeUnshared (s : Vmm) (vaddrStart vaddrEnd : Nat) : Prop :=
  ∀ w < 512 ^ 4, InRange (pageNumber vaddrStart) vaddrEnd w → Unshared view 512 s.mem 3 s.mmap w

theorem unmap_result (tabled : Tabled s.mem lvl) (rooted : Rooted view 512 s.mem lvl 3 s.mmap) (near : s.mmap < 2 ^ 27)
    (alone : s.RangeUnshared vaddrStart vaddrEnd) :
    ∃ lvl' stop, Unmapping s.mem lvl s.mmap (pageNumber vaddrStart) vaddrEnd lvl' (s.unmap vaddrStart vaddrEnd).mem
        (s.unmap vaddrStart vaddrEnd).freed stop ∧
      (512 ^ 4 ≤ stop ∨ Visited s.mem s.mmap (pageNumber vaddrStart) vaddrEnd stop ∧ Blocked s.mem s.mmap stop) ∧
      (Filled s.mmap lvl s.mem s.mmap → Filled s.mmap lvl' (s.unmap vaddrStart vaddrEnd).mem s.mmap) := by
  set v := pageNumber vaddrStart
  have ready : Removing s.mem lvl s.mmap v vaddrEnd 3 s.mmap v (.start s.mem vaddrStart) lvl :=
    { unmapping := .start tabled rooted
      running := rfl
      small := pageNumber_lt vaddrStart
      visited := ⟨⟨le_rfl, .inl rfl⟩, not_spared_self⟩
      idx := fun j le => UnmapRun.start_idx s.mem vaddrStart le
      kept := fun _ => .inl ⟨noPd_self, rfl⟩
      below := ⟨[], .refl _ _⟩
      alone := alone
      filled := fun filled => filled }
  unfold Vmm.unmap
  rw [show pnToKva s.mmap = s.mmap from Nat.mod_eq_of_lt near]
  obtain ⟨lvl', removes⟩ := unmapPml4_removes s.mmap v (.start s.mem vaddrStart) lvl ready
  cases done : (unmapPml4 vaddrEnd s.mmap (.start s.mem vaddrStart)).done with
  | true =>
    obtain ⟨stop, -, visited, blocked, unmapping, filled⟩ := removes.stop done
    exact ⟨lvl', stop, unmapping, .inr ⟨visited, blocked⟩, filled⟩
  | false =>
    obtain ⟨unmapping, -, filled⟩ := removes.go done
    refine ⟨lvl', _, unmapping, .inl ?_, filled⟩
    rw [nextBlock, Nat.div_eq_of_lt (pageNumber_lt vaddrStart), Nat.zero_add, Nat.one_mul]

/-- What the tables have for a page after `_unmap`. -/
theorem trail_unmap (tabled : Tabled s.mem lvl) (rooted : Rooted view 512 s.mem lvl 3 s.mmap) (near : s.mmap < 2 ^ 27)
    (alone : s.RangeUnshared vaddrStart vaddrEnd) {w : Nat} (small : w < 512 ^ 4) :
    (s.Unmaps vaddrStart vaddrEnd w → trail view 512 (s.unmap vaddrStart vaddrEnd).mem 3 s.mmap w = none) ∧
      (¬ s.Unmaps vaddrStart vaddrEnd w →
        trail view 512 (s.unmap vaddrStart vaddrEnd).mem 3 s.mmap w = trail view 512 s.mem 3 s.mmap w) := by
  obtain ⟨lvl', stop, unmapping, ends, -⟩ := unmap_result tabled rooted near alone
  constructor
  · rintro ⟨visited, free⟩
    refine (unmapping.removed w small ?_ visited).1
    rcases ends with all | ⟨visited', blocked⟩
    · exact small.trans_le all
    · by_contra past
      exact free stop (Nat.le_of_not_lt past) visited' blocked
  · intro stays
    refine unmapping.same w small fun ⟨less, visited⟩ => stays ⟨visited, fun u le visited' => ?_⟩
    exact (unmapping.removed u (le.trans_lt small) (le.trans_lt less) visited').2

/-! ## Two pages to remove from -/

/-- A PML4 without entries, in page 1. -/
def noPages : Vmm := ⟨true, 1, fun _ _ => Entry.empty⟩

theorem noPages_below {v l l' n n' : Nat} {path : List Entry} (below : Below view 512 noPages.mem v l n path l' n') :
    l' = l ∧ n' = n := by
  cases below with
  | refl => exact ⟨rfl, rfl⟩
  | step node _ =>
    rw [show noPages.mem n _ = Entry.empty from rfl, view_empty] at node
    cases node

theorem noPages_leads {n : Nat} (leads : Leads view 512 noPages.mem 3 noPages.mmap n) : n = noPages.mmap := by
  obtain ⟨v, -, path, l, below⟩ := leads
  exact (noPages_below below).2

theorem noPages_walk (va : Nat) : walk noPages.mem noPages.mmap va = none := rfl

theorem noPages_unshared {v : Nat} (small : v < 512 ^ 4) : Unshared view 512 noPages.mem 3 noPages.mmap v := by
  intro w small' path path' l n below _
  obtain ⟨rfl, -⟩ := noPages_below below
  exact (Nat.div_eq_of_lt small).trans (Nat.div_eq_of_lt small').symm

/-- Two pages are mapped at address 0, in tables that are made for them. -/
def twoPages : Vmm := { noPages with mem := (noPages.map [2, 3, 4] ⟨fun k => 0x5000 + k * 2 ^ 12, 2, 0⟩ 0).mem }

theorem twoPages_mem : twoPages.mem = (noPages.map [2, 3, 4] ⟨fun k => 0x5000 + k * 2 ^ 12, 2, 0⟩ 0).mem := by
  unfold twoPages
  dsimp only

theorem twoPages_mmap : twoPages.mmap = noPages.mmap := rfl

theorem twoPages_mapped : ∃ lvl, Tabled twoPages.mem lvl ∧ lvl twoPages.mmap = some 3 ∧
    (∀ w < 512 ^ 4, Unshared view 512 twoPages.mem 3 twoPages.mmap w) ∧
    ∀ k < 2, missing view 512 twoPages.mem 3 twoPages.mmap k = 0 ∧
      ∃ leaves, trail view 512 twoPages.mem 3 twoPages.mmap k = some leaves ∧ leaves.length = 4 := by
  have inside : pageNumber 0 + (⟨fun k => 0x5000 + k * 2 ^ 12, 2, 0⟩ : MapRequest).npages ≤ 512 ^ 4 := by decide
  obtain ⟨⟨lvl, mapping⟩, -⟩ := map_result (s := noPages) empty_tabled rfl (by decide) empty_fresh inside
  have two : (noPages.map [2, 3, 4] ⟨fun k => 0x5000 + k * 2 ^ 12, 2, 0⟩ 0).r = 2 := by decide +kernel
  have first : pageNumber 0 = 0 := rfl
  rw [first] at mapping
  rw [twoPages_mem, twoPages_mmap]
  refine ⟨lvl, mapping.tabled, mapping.top, fun w small => mapping.unshared w (noPages_unshared small), fun k small => ?_⟩
  have full := mapping.full k (two ▸ small)
  obtain ⟨links, three, -, found⟩ := mapping.mapped k (two ▸ small)
  rw [Nat.zero_add] at full found
  refine ⟨full, _, found, ?_⟩
  rw [List.length_append, List.length_singleton, three]

/-! ## Exactly -/

/-- `_unmap` removes the pages that it comes to before anything ends it, and changes no other address. -/
theorem unmap_exact (tabled : Tabled s.mem lvl) (top : lvl s.mmap = some 3) (near : s.mmap < 2 ^ 27)
    (alone : s.RangeUnshared vaddrStart vaddrEnd) (va : Nat) :
    (s.Unmaps vaddrStart vaddrEnd (pageNumber va) → walk (s.unmap vaddrStart vaddrEnd).mem s.mmap va = none) ∧
      (¬ s.Unmaps vaddrStart vaddrEnd (pageNumber va) →
        walk (s.unmap vaddrStart vaddrEnd).mem s.mmap va = walk s.mem s.mmap va) := by
  have rooted := Rooted.of_graded tabled.graded (by decide) top
  obtain ⟨lvl', stop, unmapping, -, -⟩ := unmap_result (tabled.led top) rooted near alone
  obtain ⟨gone, stays⟩ := trail_unmap (tabled.led top) rooted near alone (pageNumber_lt va)
  rw [unmapping.tabled.walk_eq unmapping.rooted.start, tabled.walk_eq top]
  constructor
  · intro unmaps
    rw [gone unmaps]
    rfl
  · intro kept
    rw [stays kept]

/-- Of two pages the first one is removed. -/
theorem unmap_exact_first : ∃ s : Vmm, (walk s.mem s.mmap 0).isSome = true ∧ (walk s.mem s.mmap 4096).isSome = true ∧
    walk (s.unmap 0 4096).mem s.mmap 0 = none ∧ walk (s.unmap 0 4096).mem s.mmap 4096 = walk s.mem s.mmap 4096 := by
  obtain ⟨lvl, tabled, top, alone, pages⟩ := twoPages_mapped
  have unshared : twoPages.RangeUnshared 0 4096 := fun w small _ => alone w small
  have exact_at (va : Nat) := unmap_exact tabled top (by decide) unshared va
  refine ⟨twoPages, ?_, ?_, (exact_at 0).1 ⟨⟨⟨le_rfl, .inl rfl⟩, not_spared_self⟩, fun u le _ blocked => ?_⟩,
    (exact_at 4096).2 fun unmaps => absurd unmaps.1.1 (by decide)⟩
  · rw [tabled.walk_isSome top]
    obtain ⟨-, leaves, found, -⟩ := pages 0 (by decide)
    exact congrArg Option.isSome found
  · rw [tabled.walk_isSome top]
    obtain ⟨-, leaves, found, -⟩ := pages 1 (by decide)
    exact congrArg Option.isSome found
  · obtain rfl : u = 0 := Nat.le_zero.mp le
    obtain ⟨full, leaves, found, four⟩ := pages 0 (by decide)
    rcases blocked with lacks | ⟨leaves', found', short⟩
    · exact absurd (full.symm.trans lacks) (by decide)
    · rw [found] at found'
      cases found'
      omega

/-- `_unmap` gives back the tables that no address leads to any more and the pages that it removes, each once for each of
them. If every table had an entry, every table has one. -/
theorem unmap_gives_back (tabled : Tabled s.mem lvl) (top : lvl s.mmap = some 3) (near : s.mmap < 2 ^ 27)
    (alone : s.RangeUnshared vaddrStart vaddrEnd) :
    let t := s.unmap vaddrStart vaddrEnd
    (∃ tables gone : Finset Nat,
      (∀ n, n ∈ tables ↔ Leads view 512 s.mem 3 s.mmap n ∧ ¬ Leads view 512 t.mem 3 s.mmap n) ∧
      (∀ w, w ∈ gone ↔ w < 512 ^ 4 ∧ s.Unmaps vaddrStart vaddrEnd w ∧ trail view 512 s.mem 3 s.mmap w ≠ none) ∧
      (t.freed : Multiset Nat) = tables.val + gone.val.map fun w => leafTable (trail view 512 s.mem 3 s.mmap w)) ∧
      ((∀ n, Leads view 512 s.mem 3 s.mmap n → n ≠ s.mmap → ∃ i < 512, s.mem n i ≠ Entry.empty) →
        ∀ n, Leads view 512 t.mem 3 s.mmap n → n ≠ s.mmap → ∃ i < 512, t.mem n i ≠ Entry.empty) := by
  intro t
  have rooted := Rooted.of_graded tabled.graded (by decide) top
  obtain ⟨lvl', stop, unmapping, -, filled⟩ := unmap_result (tabled.led top) rooted near alone
  obtain ⟨tables, gone, left, lost, freed⟩ := unmapping.accounted
  refine ⟨⟨tables, gone, fun n => ?_, fun w => ?_, freed⟩, fun before n leads other => ?_⟩
  · rw [left n, rooted.leads_iff, unmapping.rooted.leads_iff, not_not]
  · rw [lost w]
    refine and_congr_right fun small => ?_
    obtain ⟨removed, stays⟩ := trail_unmap (tabled.led top) rooted near alone small
    constructor
    · intro changed
      have unmaps := not_not.mp fun h => changed (stays h)
      exact ⟨unmaps, fun none => changed ((removed unmaps).trans none.symm)⟩
    · rintro ⟨unmaps, some⟩ same
      exact some (same.symm.trans (removed unmaps))
  · obtain ⟨l, level⟩ := Option.ne_none_iff_exists'.mp (unmapping.rooted.leads_iff.mp leads)
    refine filled (fun n' l' level' other' _ => ?_) n l level other other
    refine before n' (rooted.leads_iff.mpr ?_) other'
    rw [level']
    exact Option.some_ne_none l'

theorem unmap_gives_back_first : ∃ s : Vmm, ∃ tables gone : Finset Nat,
    (∀ n, n ∈ tables ↔ Leads view 512 s.mem 3 s.mmap n ∧ ¬ Leads view 512 (s.unmap 0 4096).mem 3 s.mmap n) ∧
      ((s.unmap 0 4096).freed : Multiset Nat) =
        tables.val + gone.val.map fun w => leafTable (trail view 512 s.mem 3 s.mmap w) := by
  obtain ⟨lvl, tabled, top, alone, -⟩ := twoPages_mapped
  have unshared : twoPages.RangeUnshared 0 4096 := fun w small _ => alone w small
  obtain ⟨⟨tables, gone, left, -, freed⟩, -⟩ := unmap_gives_back tabled top (by decide) unshared
  exact ⟨twoPages, tables, gone, left, freed⟩

end Vmm

end PreTeO.X86
