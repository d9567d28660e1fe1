import PreTeO.X86.VmmMap

/-!
# What `_map` maps

Two things go wrong. `us` is a field of one bit, and `map_page` stores the value of `VMMF_USER` in it, so no page is for
the user. And a table that two entries name, as the two entries of the boot PML4 do, has two addresses for each of its
entries: mapping one maps the other.
-/

namespace PreTeO.X86
set_option autoImplicit false

open Lib (Cell digit nextBlock trail missing needed Below Graded Unshared Grows)

namespace Vmm

/-- `_map` maps the pages that it counts, with what the flags ask for, changes no other address, and stops early only
before a page that is there or without a page for a table. -/
structure MapOk (s : Vmm) (pool : List Nat) (request : MapRequest) (vaddr : Nat) : Prop where
  count : (s.map pool request vaddr).r ≤ request.npages
  mapped : ∀ k < (s.map pool request vaddr).r, ∀ va, va / 2 ^ 12 = vaddr / 2 ^ 12 + k →
    walk s.mem s.mmap va = none ∧ walk (s.map pool request vaddr).mem s.mmap va = some
      { addr := kToP (request.pageArray k) / 2 ^ 12 * 2 ^ 12 + pt4kOffset va
        write := request.flags &&& VMMF_READONLY = 0
        user := request.flags &&& VMMF_USER ≠ 0
        uncached := request.flags &&& VMMF_NON_CACHEABLE ≠ 0 }
  others : ∀ va, Canonical va → (∀ k < (s.map pool request vaddr).r, va / 2 ^ 12 ≠ vaddr / 2 ^ 12 + k) →
    walk (s.map pool request vaddr).mem s.mmap va = walk s.mem s.mmap va
  stop : (s.map pool request vaddr).r < request.npages →
    (walk s.mem s.mmap (vaddr + 2 ^ 12 * (s.map pool request vaddr).r)).isSome = true ∨
      (s.map pool request vaddr).pool = [] ∧ 0 < missing view 512 (s.map pool request vaddr).mem 3 s.mmap
        (pageNumber (vaddr + 2 ^ 12 * (s.map pool request vaddr).r))

/-- `_map` comes to the page `k`: it and the ones before it have no page, and there are enough pages for their tables. -/
def Reached (s : Vmm) (pool : List Nat) (request : MapRequest) (vaddr k : Nat) : Prop :=
  k < request.npages ∧ (∀ i ≤ k, trail view 512 s.mem 3 s.mmap (pageNumber vaddr + i) = none) ∧
    needed view 512 s.mem 3 s.mmap (pageNumber vaddr) k ≤ pool.length

end Vmm

/-! ## The four loops -/

section Loops
variable {before : Tables} {lvl₀ : Nat → Option Nat} {pages : List Nat} {root v : Nat} {request : MapRequest}

theorem view_leaf_iff {l : Nat} (inner : l = 1 ∨ l = 2) {e : Entry} (some : e ≠ Entry.empty) :
    true = true ∧ e.ps = true ↔ view l e = .leaf := by
  constructor
  · rintro ⟨-, large⟩
    unfold view
    rw [if_neg some, if_pos (Or.inr ⟨inner, large⟩)]
  · intro leaf
    refine ⟨rfl, view_leaf ?_ leaf⟩
    rintro rfl
    omega

theorem mapPml4_explores (graded₀ : Graded view 512 before lvl₀) (top₀ : lvl₀ root = some 3)
    (inside : v + request.npages ≤ 512 ^ 4) : Explores before lvl₀ pages root v request 3 (mapPml4 request) := by
  have pt : Explores before lvl₀ pages root v request 0 fun page => mapPt request page 512 :=
    fun page s lvl ready => mapPt_explored graded₀ top₀ inside (Nat.le_add_right _ _) ready
  have pd : Explores before lvl₀ pages root v request 1 (mapPd request) := fun page s lvl ready =>
    mapEntries_explored inside (fun e some => view_leaf_iff (Or.inl rfl) some) pt (Nat.le_add_right _ _) ready
  have pdp : Explores before lvl₀ pages root v request 2 (mapPdp request) := fun page s lvl ready =>
    mapEntries_explored inside (fun e some => view_leaf_iff (Or.inr rfl) some) pd (Nat.le_add_right _ _) ready
  refine fun page s lvl ready => mapEntries_explored inside (fun e _ => ?_) pdp (Nat.le_add_right _ _) ready
  exact ⟨fun large => absurd large.1 Bool.false_ne_true, fun leaf => (view_four leaf).elim⟩

end Loops

/-! ## Pages and addresses -/

/-- The addresses of a range are all in one half. -/
theorem canonical_range {vaddr n : Nat} (canonical : ∀ k < n, Canonical (vaddr + 2 ^ 12 * k)) {k : Nat} (small : k < n) :
    vaddr + 2 ^ 12 * k < 2 ^ 47 ∨ 2 ^ 64 - 2 ^ 47 ≤ vaddr ∧ vaddr + 2 ^ 12 * k < 2 ^ 64 := by
  induction k with
  | zero => exact canonical 0 small
  | succ k ih =>
    have here := canonical (k + 1) small
    have previous := ih (by omega)
    unfold Canonical at here
    omega

theorem pageNumber_range {vaddr n : Nat} (canonical : ∀ k < n, Canonical (vaddr + 2 ^ 12 * k)) {k : Nat} (small : k < n) :
    pageNumber (vaddr + 2 ^ 12 * k) = pageNumber vaddr + k ∧ pageNumber vaddr + k < 512 ^ 4 := by
  have half := canonical_range canonical small
  unfold pageNumber
  omega

theorem pageNumber_canonical {va va' : Nat} (canonical : Canonical va) (canonical' : Canonical va')
    (same : pageNumber va = pageNumber va') : va / 2 ^ 12 = va' / 2 ^ 12 := by
  unfold pageNumber at same
  unfold Canonical at canonical canonical'
  omega

/-- Every number is the number of a page that has an address. -/
theorem exists_address {w : Nat} (small : w < 512 ^ 4) : ∃ va, Canonical va ∧ pageNumber va = w := by
  rcases Nat.lt_or_ge w (2 ^ 35) with low | high
  · refine ⟨w * 2 ^ 12, Or.inl (by omega), ?_⟩
    unfold pageNumber
    omega
  · refine ⟨2 ^ 64 - 2 ^ 48 + w * 2 ^ 12, Or.inr ⟨by omega, by omega⟩, ?_⟩
    unfold pageNumber
    omega

/-- A leaf is a page for the processor. -/
theorem translate_isSome {mem : Tables} {root v va : Nat} {path : List Entry}
    (found : trail view 512 mem 3 root v = some path) : (translate va path).isSome = true := by
  cases first : view 3 (mem root (digit 512 3 v)) with
  | empty => simp [trail, first] at found
  | leaf => exact (view_four first).elim
  | node pdp =>
    rw [trail, first] at found
    dsimp only at found
    cases second : view 2 (mem pdp (digit 512 2 v)) with
    | empty => simp [trail, second] at found
    | leaf =>
      rw [trail, second] at found
      obtain rfl := Option.some.inj found
      rfl
    | node pd =>
      rw [trail, second] at found
      dsimp only at found
      cases third : view 1 (mem pd (digit 512 1 v)) with
      | empty => simp [trail, third] at found
      | leaf =>
        rw [trail, third] at found
        obtain rfl := Option.some.inj found
        rfl
      | node pt =>
        rw [trail, third] at found
        dsimp only at found
        cases last : view 0 (mem pt (digit 512 0 v)) with
        | empty => simp [trail, last] at found
        | leaf =>
          rw [trail, last] at found
          obtain rfl := Option.some.inj found
          rfl
        | node m => exact (view_zero_node last).elim

theorem Tabled.walk_isSome {mem : Tables} {lvl : Nat → Option Nat} {root va : Nat} (tabled : Tabled mem lvl)
    (top : lvl root = some 3) : (walk mem root va).isSome = (trail view 512 mem 3 root (pageNumber va)).isSome := by
  rw [tabled.walk_eq top]
  cases found : trail view 512 mem 3 root (pageNumber va) with
  | none => rfl
  | some path => exact translate_isSome found

/-- The bit of `VMMF_NON_CACHEABLE` is the lowest one. -/
theorem pcd_eq (flags : BitVec 8) :
    (flags &&& VMMF_NON_CACHEABLE).getLsbD 0 = decide (flags &&& VMMF_NON_CACHEABLE ≠ 0) := by
  revert flags
  decide

/-- The bit of `VMMF_USER` is not. -/
theorem us_eq (flags : BitVec 8) : (flags &&& VMMF_USER).getLsbD 0 = false := by
  rw [BitVec.getLsbD_and]
  exact Bool.and_false _

theorem mappedEntry_frame (pageKva : Nat) (flags : BitVec 8) :
    (mappedEntry pageKva flags).frame = kToP pageKva / 2 ^ 12 := by
  have small : kToP pageKva / 2 ^ 12 < 2 ^ 28 := by
    unfold kToP
    omega
  have base : (mappedEntry pageKva flags).base.toNat = kToP pageKva / 2 ^ 12 :=
    (BitVec.toNat_ofNat _ _).trans (Nat.mod_eq_of_lt small)
  have mbz : (mappedEntry pageKva flags).mbz.toNat = 0 := rfl
  rw [Entry.frame, base, mbz, Nat.zero_mul, Nat.zero_add]

/-- What the processor makes of a page that `_map` mapped. -/
theorem translate_page {links : List Entry} (three : links.length = 3) (writable : ∀ e ∈ links, e.rw = true)
    (pageKva : Nat) (flags : BitVec 8) (va : Nat) :
    translate va (links ++ [mappedEntry pageKva flags]) = some
      { addr := kToP pageKva / 2 ^ 12 * 2 ^ 12 + pt4kOffset va, write := flags &&& VMMF_READONLY = 0, user := false
        uncached := flags &&& VMMF_NON_CACHEABLE ≠ 0 } := by
  obtain ⟨pml4e, pdpe, pde, rfl⟩ := List.length_eq_three.mp three
  have writes := List.forall_mem_cons.mp writable
  have writes' := List.forall_mem_cons.mp writes.2
  have writes'' := List.forall_mem_cons.mp writes'.2
  rw [List.cons_append, List.cons_append, List.cons_append, List.nil_append, translate, translation, mappedEntry_frame]
  simp only [List.all_cons, List.all_nil, writes.1, writes'.1, writes''.1, Bool.and_true]
  simp only [mappedEntry, us_eq, pcd_eq, Bool.false_and]

namespace Vmm

variable {s : Vmm} {lvl : Nat → Option Nat} {pool : List Nat} {request : MapRequest} {vaddr : Nat}

theorem map_result (tabled : Tabled s.mem lvl) (top : lvl s.mmap = some 3) (near : s.mmap < 2 ^ 27) (fresh : Fresh lvl pool)
    (inside : pageNumber vaddr + request.npages ≤ 512 ^ 4) :
    (∃ lvl', Mapping s.mem lvl pool s.mmap (pageNumber vaddr) request lvl' (s.map pool request vaddr).mem
        (s.map pool request vaddr).pool (s.map pool request vaddr).r) ∧
      ((s.map pool request vaddr).r = request.npages ∨ Stopped s.mem s.mmap (pageNumber vaddr) request
        (s.map pool request vaddr).mem (s.map pool request vaddr).pool (s.map pool request vaddr).r) := by
  have mapping : Mapping s.mem lvl pool s.mmap (pageNumber vaddr) request lvl s.mem pool 0 :=
    { tabled := tabled
      top := top
      fresh := fresh
      grows := .refl
      unshared := fun _ alone => alone
      count := Nat.zero_le _
      unmapped := fun k small => absurd small (Nat.not_lt_zero k)
      mapped := fun k small => absurd small (Nat.not_lt_zero k)
      same := fun _ _ _ _ => rfl
      account := fun _ _ _ _ => rfl
      enough := fun k small => absurd small (Nat.not_lt_zero k)
      apart := fun i small => absurd small (Nat.not_lt_zero i) }
  unfold Vmm.map
  rw [show pnToKva s.mmap = s.mmap from Nat.mod_eq_of_lt near]
  set start := MapRun.start s.mem pool vaddr
  rcases Nat.eq_zero_or_pos request.npages with none | some
  · have idle : mapPml4 request s.mmap start = start :=
      mapEntries_idle fun h => absurd h.2 (by rw [none]; exact Nat.not_lt_zero _)
    rw [idle]
    exact ⟨⟨lvl, mapping⟩, Or.inl none.symm⟩
  · have ready : Entering s.mem lvl pool s.mmap (pageNumber vaddr) request 3 s.mmap start lvl := by
      refine ⟨mapping, rfl, some, fun j low => ?_, [], .refl _ _⟩
      match j, low with
      | 0, _ => exact ptIndex_eq vaddr
      | 1, _ => exact pdIndex_eq vaddr
      | 2, _ => exact pdpIndex_eq vaddr
      | 3, _ => exact pml4Index_eq vaddr
    have explored := mapPml4_explores tabled.graded top inside s.mmap start lvl ready
    obtain ⟨lvl', after, -⟩ := explored.mapping
    refine ⟨⟨lvl', after⟩, ?_⟩
    cases done : (mapPml4 request s.mmap start).done with
    | true => exact Or.inr (explored.stop done)
    | false =>
      refine Or.inl ?_
      rcases explored.go done with last | ⟨reached, -⟩
      · exact last
      · have whole : pageNumber vaddr / 512 ^ 4 = 0 := Nat.div_eq_of_lt (pageNumber_lt vaddr)
        have first : pageNumber vaddr + start.r = pageNumber vaddr := Nat.add_zero _
        rw [first, nextBlock, whole] at reached
        have := after.count
        omega

/-! ## How far it comes -/

section Reach
variable {lvl' : Nat → Option Nat} {mem : Tables} {pool' : List Nat} {r k : Nat}

theorem Reached.mono (reached : s.Reached pool request vaddr k) {j : Nat} (le : j ≤ k) : s.Reached pool request vaddr j :=
  ⟨le.trans_lt reached.1, fun i low => reached.2.1 i (low.trans le), (Lib.needed_mono le).trans reached.2.2⟩

/-- It comes to the pages that it maps. -/
theorem Reached.of_mapped (mapping : Mapping s.mem lvl pool s.mmap (pageNumber vaddr) request lvl' mem pool' r)
    (small : k < r) (alone : ∀ i < k, Unshared view 512 s.mem 3 s.mmap (pageNumber vaddr + i)) :
    s.Reached pool request vaddr k :=
  ⟨small.trans_le mapping.count, fun i low => mapping.unmapped i (by omega), mapping.enough k small alone⟩

/-- And it maps the pages that it comes to. -/
theorem Reached.mapped (mapping : Mapping s.mem lvl pool s.mmap (pageNumber vaddr) request lvl' mem pool' r)
    (ends : r = request.npages ∨ Stopped s.mem s.mmap (pageNumber vaddr) request mem pool' r)
    (alone : ∀ i < k, Unshared view 512 s.mem 3 s.mmap (pageNumber vaddr + i))
    (reached : s.Reached pool request vaddr k) : k < r := by
  by_contra short
  have le : r ≤ k := Nat.le_of_not_lt short
  obtain ⟨small, absent, enough⟩ := reached
  rcases ends with rfl | ⟨more, reason⟩
  · omega
  rcases reason fun i low => alone i (by omega) with found | ⟨empty, lacks⟩
  · rw [absent r le] at found
    cases found
  · have account := mapping.account r le_rfl more fun i _ low => alone i (by omega)
    have least : needed view 512 s.mem 3 s.mmap (pageNumber vaddr) r ≤ needed view 512 s.mem 3 s.mmap (pageNumber vaddr) k :=
      Lib.needed_mono le
    rw [Lib.needed_last mapping.full, empty, List.length_nil] at account
    omega

/-- A second address of a page that is mapped is mapped with it. -/
theorem exists_alias (mapping : Mapping s.mem lvl pool s.mmap (pageNumber vaddr) request lvl' mem pool' r)
    (tabled : Tabled s.mem lvl) (top : lvl s.mmap = some 3) (small : k < r) (inside : pageNumber vaddr + k < 512 ^ 4)
    (alone : ∀ i < k, Unshared view 512 s.mem 3 s.mmap (pageNumber vaddr + i))
    (shared : ¬ Unshared view 512 s.mem 3 s.mmap (pageNumber vaddr + k)) :
    ∃ w < 512 ^ 4, (∀ i < r, w ≠ pageNumber vaddr + i) ∧ trail view 512 s.mem 3 s.mmap w = none ∧
      (trail view 512 mem 3 s.mmap w).isSome = true := by
  have positive : 0 < 512 := by decide
  unfold Unshared at shared
  push Not at shared
  obtain ⟨w, small_w, path, path', l, n, below, below_w, apart⟩ := shared
  set v := pageNumber vaddr + k with v_eq
  -- the upper digits of `w` with the lower ones of `v`
  set w' := w / 512 ^ (l + 1) * 512 ^ (l + 1) + v % 512 ^ (l + 1) with w'_eq
  have block : 0 < 512 ^ (l + 1) := pow_pos positive _
  have rest := Nat.mod_lt v block
  have upper : w' / 512 ^ (l + 1) = w / 512 ^ (l + 1) := by
    rw [w'_eq, Nat.mul_comm, Nat.mul_add_div block, Nat.div_eq_of_lt rest, Nat.add_zero]
  have lower : v % 512 ^ (l + 1) = w' % 512 ^ (l + 1) := by
    rw [w'_eq, Nat.mul_comm, Nat.mul_add_mod, Nat.mod_mod]
  have below' := below_w.prefix_eq upper.symm
  have small' : w' < 512 ^ 4 := by
    have level : l + 1 ≤ 4 := Nat.succ_le_succ below.le
    have whole : 512 ^ (3 + 1) = 512 ^ (l + 1) * 512 ^ (4 - (l + 1)) := by
      rw [← pow_add]
      congr 1
      omega
    rw [whole] at small_w
    have quotient := Nat.div_lt_of_lt_mul small_w
    rw [← upper] at quotient
    exact (Nat.lt_mul_of_div_lt quotient block).trans_eq (Nat.mul_comm _ _ |>.trans whole.symm)
  have absent : trail view 512 s.mem 3 s.mmap w' = none := by
    have together := below.alias below' lower
    rw [mapping.unmapped k small] at together
    exact Option.not_isSome_iff_eq_none.mp fun some => by
      rw [← together] at some
      cases some
  have grown := (below.grows mapping.grows tabled.graded positive top).alias
    (below'.grows mapping.grows tabled.graded positive top) lower
  obtain ⟨links, -, -, found⟩ := mapping.mapped k small
  rw [found] at grown
  refine ⟨w', small', fun i low same => ?_, absent, grown.symm⟩
  rcases Nat.lt_trichotomy i k with before | rfl | after
  · rw [same] at below' upper
    exact apart ((alone i before v inside _ _ _ _ below' below).symm.trans upper)
  · exact apart (by rw [← upper, same])
  · rw [same] at below' lower
    exact mapping.apart i low k after _ _ l n below below' lower

end Reach

/-- Mapping does what it promises unless a page it comes to is for the user or has a second address. -/
theorem map_ok_iff (tabled : Tabled s.mem lvl) (top : lvl s.mmap = some 3) (near : s.mmap < 2 ^ 27) (fresh : Fresh lvl pool)
    (canonical : ∀ k < request.npages, Canonical (vaddr + 2 ^ 12 * k)) :
    s.MapOk pool request vaddr ↔ ∀ k, s.Reached pool request vaddr k →
      request.flags &&& VMMF_USER = 0 ∧ Unshared view 512 s.mem 3 s.mmap (pageNumber vaddr + k) := by
  have inside : pageNumber vaddr + request.npages ≤ 512 ^ 4 := by
    rcases Nat.eq_zero_or_pos request.npages with none | some
    · rw [none]
      exact (pageNumber_lt vaddr).le
    · have := (pageNumber_range canonical (Nat.sub_lt some Nat.one_pos)).2
      omega
  obtain ⟨⟨lvl', mapping⟩, ends⟩ := map_result tabled top near fresh inside
  have number {k : Nat} (small : k < (s.map pool request vaddr).r) {va : Nat} (page : va / 2 ^ 12 = vaddr / 2 ^ 12 + k) :
      pageNumber va = pageNumber vaddr + k := by
    rw [← (pageNumber_range canonical (small.trans_le mapping.count)).1]
    unfold pageNumber
    omega
  constructor
  · intro ok k reached
    refine ⟨?_, ?_⟩
    · have first := Reached.mapped mapping ends (fun i low => absurd low (Nat.not_lt_zero i)) (reached.mono (Nat.zero_le k))
      obtain ⟨links, three, writable, found⟩ := mapping.mapped 0 first
      have walked := (ok.mapped 0 first vaddr rfl).2
      rw [mapping.tabled.walk_eq mapping.top, number first rfl, found, Option.bind_some,
        translate_page three writable] at walked
      have user : false = decide (request.flags &&& VMMF_USER ≠ 0) := congrArg Translation.user (Option.some.inj walked)
      exact not_not.mp (of_decide_eq_false user.symm)
    · induction k using Nat.strong_induction_on with
      | _ k ih =>
        have alone : ∀ i < k, Unshared view 512 s.mem 3 s.mmap (pageNumber vaddr + i) :=
          fun i low => ih i low (reached.mono low.le)
        have small := Reached.mapped mapping ends alone reached
        by_contra shared
        obtain ⟨w, small_w, other, absent, found⟩ :=
          exists_alias mapping tabled top small (pageNumber_range canonical reached.1).2 alone shared
        obtain ⟨va, canonical_va, rfl⟩ := exists_address small_w
        have same := ok.others va canonical_va fun i low page => other i low (number low page)
        have walked : (walk (s.map pool request vaddr).mem s.mmap va).isSome = _ := mapping.tabled.walk_isSome mapping.top
        rw [same, tabled.walk_isSome top, absent, found] at walked
        cases walked
  · intro condition
    have alone (k : Nat) (small : k < (s.map pool request vaddr).r) :
        Unshared view 512 s.mem 3 s.mmap (pageNumber vaddr + k) := by
      induction k using Nat.strong_induction_on with
      | _ k ih => exact (condition k (Reached.of_mapped mapping small fun i low => ih i low (low.trans small))).2
    have user (k : Nat) (small : k < (s.map pool request vaddr).r) : request.flags &&& VMMF_USER = 0 :=
      (condition k (Reached.of_mapped mapping small fun i low => alone i (low.trans small))).1
    refine ⟨mapping.count, fun k small va page => ⟨?_, ?_⟩, fun va canonical_va others => ?_, fun more => ?_⟩
    · rw [tabled.walk_eq top, number small page, mapping.unmapped k small]
      rfl
    · obtain ⟨links, three, writable, found⟩ := mapping.mapped k small
      rw [mapping.tabled.walk_eq mapping.top, number small page, found, Option.bind_some, translate_page three writable,
        decide_eq_false (not_not.mpr (user k small))]
    · have same := mapping.same alone (pageNumber va) (pageNumber_lt va) fun k small page => others k small ?_
      · rw [mapping.tabled.walk_eq mapping.top, tabled.walk_eq top, same]
      · have small' := small.trans_le mapping.count
        rw [pageNumber_canonical canonical_va (canonical k small') (page.trans (pageNumber_range canonical small').1.symm)]
        omega
    · obtain ⟨-, reason⟩ := ends.resolve_left more.ne
      rw [tabled.walk_isSome top, (pageNumber_range canonical more).1]
      exact reason alone

/-- A PML4 without entries, in page 1. -/
theorem empty_tabled : Tabled (fun _ _ => Entry.empty) fun page => if page = 1 then some 3 else none := by
  refine ⟨⟨fun _ _ _ _ _ _ node => ?_⟩, fun _ _ _ _ _ => Or.inl rfl, fun _ _ _ _ _ _ node => ?_⟩
  · rw [view_empty] at node
    cases node
  · rw [view_empty] at node
    cases node

theorem empty_fresh : Fresh (fun page => if page = 1 then some 3 else none) [2, 3, 4] :=
  ⟨by decide, by decide, by decide⟩

/-- A page is mapped at address 0, in tables that are made for it. -/
theorem map_ok_first : MapOk ⟨true, 1, fun _ _ => Entry.empty⟩ [2, 3, 4] ⟨fun _ => 0x5000, 1, 0⟩ 0 := by
  refine (map_ok_iff empty_tabled rfl (by decide) empty_fresh fun k small => ?_).mpr fun k reached => ⟨by decide, ?_⟩
  · obtain rfl : k = 0 := Nat.lt_one_iff.mp small
    exact Or.inl (by decide)
  · obtain rfl : k = 0 := Nat.lt_one_iff.mp reached.1
    intro w small path path' l n below _
    cases below with
    | refl => exact (Nat.div_eq_of_lt (by decide)).trans (Nat.div_eq_of_lt small).symm
    | step node _ =>
      rw [view_empty] at node
      cases node

/-- The same page for the user: it is mapped, and only the kernel may read it. -/
theorem map_forgets_user :
    ∃ (s : Vmm) (lvl : Nat → Option Nat) (pool : List Nat) (request : MapRequest), Tabled s.mem lvl ∧ lvl s.mmap = some 3 ∧
      Fresh lvl pool ∧ request.flags = VMMF_USER ∧ (s.map pool request 0).r = 1 ∧
      walk (s.map pool request 0).mem s.mmap 0 = some { addr := 0x5000, write := true, user := false, uncached := false } ∧
      ¬ s.MapOk pool request 0 := by
  refine ⟨⟨true, 1, fun _ _ => Entry.empty⟩, _, [2, 3, 4], ⟨fun _ => 0x5000, 1, VMMF_USER⟩, empty_tabled, rfl, empty_fresh,
    rfl, by decide +kernel, by decide +kernel, fun ok => ?_⟩
  have walked := (ok.mapped 0 (by decide +kernel) 0 rfl).2
  revert walked
  decide +kernel

end Vmm

end PreTeO.X86
