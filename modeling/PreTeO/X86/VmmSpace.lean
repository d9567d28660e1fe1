import PreTeO.X86.VmmUnmapped
import PreTeO.Lib.Run

/-!
# The address space

To the owner of some pages that have no second address, `_map` and `_unmap` keep a function from pages to what they are
mapped to. Others may store into all of memory but the tables.
-/

namespace PreTeO.X86
set_option autoImplicit false

open Lib (trail missing Unshared Grows Rooted Leads ledLevel)

/-- A call of the owner, with the pages that the page allocator has for tables, or a store of anyone. -/
inductive SpaceCall where
  | map (pool : List Nat) (request : MapRequest) (vaddr : Nat)
  | unmap (vaddrStart vaddrEnd : Nat)
  | store (page i : Nat) (e : Entry)

/-! ## The function -/

/-- What pages are mapped to: the address that the owner gave, and the flags. -/
abbrev Space : Type := Nat → Option (Nat × BitVec 8)

namespace Space

/-- The pages from `v` on that are not mapped, up to one that is. -/
def count (A : Space) (v : Nat) : Nat → Nat
  | 0 => 0
  | n + 1 => if (A v).isNone then count A (v + 1) n + 1 else 0

/-- A call, and the pages that it maps. -/
def call (A : Space) : SpaceCall → Nat × Space
  | .map _ request vaddr =>
    let v := pageNumber vaddr
    let r := A.count v request.npages
    (r, fun w => if v ≤ w ∧ w < v + r then some (request.pageArray (w - v), request.flags) else A w)
  | .unmap vaddrStart vaddrEnd => (0, fun w => if InRange (pageNumber vaddrStart) vaddrEnd w then none else A w)
  | .store _ _ _ => (0, A)

/-- What an address is mapped to, with the access that the flags ask for. -/
def look (A : Space) (va : Nat) : Option Translation :=
  (A (pageNumber va)).map fun page =>
    { addr := kToP page.1 / 2 ^ 12 * 2 ^ 12 + pt4kOffset va, write := page.2 &&& VMMF_READONLY = 0
      user := page.2 &&& VMMF_USER ≠ 0, uncached := page.2 &&& VMMF_NON_CACHEABLE ≠ 0 }

theorem count_eq {A : Space} {v n r : Nat} (le : r ≤ n) (free : ∀ k < r, A (v + k) = none) (ends : r = n ∨ A (v + r) ≠ none) :
    A.count v n = r := by
  induction n generalizing v r with
  | zero => exact (Nat.le_zero.mp le).symm
  | succ n ih =>
    rw [count]
    cases r with
    | zero =>
      have some := ends.resolve_left (Nat.succ_ne_zero n).symm
      rw [Nat.add_zero] at some
      rw [if_neg (by rw [Option.isNone_iff_eq_none]; exact some)]
    | succ r =>
      have shift (k : Nat) : v + 1 + k = v + (k + 1) := by omega
      have rest := ih (v := v + 1) (r := r) (Nat.le_of_succ_le_succ le)
        (fun k low => by rw [shift]; exact free (k + 1) (Nat.succ_lt_succ low))
        (by rw [shift]; exact ends.imp_left Nat.succ_inj.mp)
      have first : A v = none := free 0 (Nat.succ_pos r)
      rw [first, Option.isNone_none, if_pos rfl, rest]

end Space

/-! ## The manager -/

namespace Vmm

/-- The same call. The count of `_unmap` is not that of the pages it removes, and is left out. -/
def call (s : Vmm) : SpaceCall → Option (Nat × Vmm)
  | .map pool request vaddr => some ((s.map pool request vaddr).r, { s with mem := (s.map pool request vaddr).mem })
  | .unmap vaddrStart vaddrEnd => some (0, { s with mem := (s.unmap vaddrStart vaddrEnd).mem })
  | .store page i e => some (0, { s with mem := s.mem.set page i e })

/-- What the owner takes care of: it maps and unmaps its own pages, with pages for all tables, and none of them for the user;
it unmaps from a page that is mapped or is the first of a PT, and not over the end of 512G. What is not a table may be stored
to. -/
def CallOk (own : Nat → Prop) (s : Vmm) : SpaceCall → Prop
  | .map pool request vaddr =>
    pool.Nodup ∧ (∀ page ∈ pool, page < 2 ^ 27 ∧ ¬ Leads view 512 s.mem 3 s.mmap page) ∧ 3 * request.npages ≤ pool.length ∧
      pageNumber vaddr + request.npages ≤ 512 ^ 4 ∧ request.flags &&& VMMF_USER = 0 ∧
      ∀ k < request.npages, own (pageNumber vaddr + k)
  | .unmap vaddrStart vaddrEnd =>
    (ptIndex vaddrStart = 0 ∨ (walk s.mem s.mmap vaddrStart).isSome = true) ∧
      ∀ w < 512 ^ 4, InRange (pageNumber vaddrStart) vaddrEnd w → own w ∧ w / 512 ^ 3 = pageNumber vaddrStart / 512 ^ 3
  | .store page _ _ => ¬ Leads view 512 s.mem 3 s.mmap page

/-- The tables show the owner's pages, and for the others what they showed at first. -/
structure Shows (own : Nat → Prop) (s₀ s : Vmm) (A : Space) : Prop where
  mmap : s.mmap = s₀.mmap
  tabled : ∃ lvl, Tabled s.mem lvl ∧ lvl s.mmap = some 3
  alone : ∀ w < 512 ^ 4, own w → Unshared view 512 s.mem 3 s.mmap w
  absent : ∀ w < 512 ^ 4, own w → A w = none → trail view 512 s.mem 3 s.mmap w = none
  present : ∀ w < 512 ^ 4, own w → ∀ kva flags, A w = some (kva, flags) → flags &&& VMMF_USER = 0 ∧
    ∃ links : List Entry, links.length = 3 ∧ (∀ e ∈ links, e.rw = true) ∧
      trail view 512 s.mem 3 s.mmap w = some (links ++ [mappedEntry kva flags])
  others : ∀ w < 512 ^ 4, ¬ own w → trail view 512 s.mem 3 s.mmap w = trail view 512 s₀.mem 3 s₀.mmap w

section Shows
variable {own : Nat → Prop} {s₀ s : Vmm} {A : Space}

/-- Tables that only some pages of the owner see change. -/
theorem Shows.of_trail {mem : Tables} {A' : Space} (shows' : Shows own s₀ s A)
    (tabled : ∃ lvl, Tabled mem lvl ∧ lvl s.mmap = some 3)
    (alone : ∀ w < 512 ^ 4, own w → Unshared view 512 mem 3 s.mmap w)
    (pages : ∀ w < 512 ^ 4, trail view 512 mem 3 s.mmap w = trail view 512 s.mem 3 s.mmap w ∧ (own w → A' w = A w) ∨
      own w ∧ (trail view 512 mem 3 s.mmap w = none ∧ A' w = none ∨ ∃ links kva flags, links.length = 3 ∧
        (∀ e ∈ links, e.rw = true) ∧ trail view 512 mem 3 s.mmap w = some (links ++ [mappedEntry kva flags]) ∧
        A' w = some (kva, flags) ∧ flags &&& VMMF_USER = 0)) : Shows own s₀ { s with mem := mem } A' := by
  refine ⟨shows'.mmap, tabled, alone, fun w small mine none => ?_, fun w small mine kva flags some => ?_,
    fun w small other => ?_⟩
  · rcases pages w small with ⟨same, old⟩ | ⟨-, ⟨gone, -⟩ | ⟨_, _, _, -, -, -, new, -⟩⟩
    · exact same.trans (shows'.absent w small mine ((old mine).symm.trans none))
    · exact gone
    · rw [none] at new
      cases new
  · rcases pages w small with ⟨same, old⟩ | ⟨-, ⟨-, new⟩ | ⟨links, _, _, three, writes, found, new, kernel⟩⟩
    · obtain ⟨kernel, links, three, writes, found⟩ := shows'.present w small mine kva flags ((old mine).symm.trans some)
      exact ⟨kernel, links, three, writes, same.trans found⟩
    · rw [some] at new
      cases new
    · rw [some] at new
      cases new
      exact ⟨kernel, links, three, writes, found⟩
  · rcases pages w small with ⟨same, -⟩ | ⟨mine, -⟩
    · exact same.trans (shows'.others w small other)
    · exact absurd mine other

theorem Shows.map {pool : List Nat} {request : MapRequest} {vaddr : Nat} (near : s₀.mmap < 2 ^ 27)
    (shows' : Shows own s₀ s A) (ok : s.CallOk own (.map pool request vaddr)) :
    (s.map pool request vaddr).r = (A.call (.map pool request vaddr)).1 ∧
      Shows own s₀ { s with mem := (s.map pool request vaddr).mem } (A.call (.map pool request vaddr)).2 := by
  obtain ⟨nodup, unused, enough, inside, kernel, mine⟩ := ok
  obtain ⟨lvl, tabled, top⟩ := shows'.tabled
  have rooted := Rooted.of_graded tabled.graded (by decide) top
  have fresh : Fresh (ledLevel view 512 s.mem lvl 3 s.mmap) pool := by
    refine ⟨nodup, fun page member => ?_, fun page member => (unused page member).1⟩
    exact not_not.mp (rooted.leads_iff.not.mp (unused page member).2)
  obtain ⟨⟨lvl', mapping⟩, ends⟩ := map_result (tabled.led top) rooted.start (shows'.mmap ▸ near) fresh inside
  set t := s.map pool request vaddr
  set v := pageNumber vaddr
  have alone (k : Nat) (small : k < request.npages) : Unshared view 512 s.mem 3 s.mmap (v + k) :=
    shows'.alone _ (by omega) (mine k small)
  have count : A.count v request.npages = t.r := by
    refine Space.count_eq mapping.count (fun k small => ?_) (ends.imp_right fun ⟨more, reason⟩ none => ?_)
    · have small' := small.trans_le mapping.count
      by_contra some
      obtain ⟨⟨kva, flags⟩, some⟩ := Option.ne_none_iff_exists'.mp some
      obtain ⟨-, links, -, -, found⟩ := shows'.present (v + k) (by omega) (mine k small') kva flags some
      rw [mapping.unmapped k small] at found
      cases found
    · rcases reason fun k small => alone k (small.trans more) with found | ⟨empty, lacks⟩
      · rw [shows'.absent _ (by omega) (mine _ more) none] at found
        cases found
      · have account := mapping.account t.r le_rfl more fun k _ small => alone k (small.trans more)
        have few : Lib.needed view 512 s.mem 3 s.mmap v t.r ≤ 3 * (t.r + 1) := Lib.needed_le _ _ _ _ _
        rw [Lib.needed_last mapping.full, empty, List.length_nil] at account
        omega
  have calls : A.call (.map pool request vaddr) = (t.r, fun w => if v ≤ w ∧ w < v + t.r then
      some (request.pageArray (w - v), request.flags) else A w) := by rw [Space.call, count]
  rw [calls]
  refine ⟨rfl, shows'.of_trail ⟨lvl', mapping.tabled, mapping.top⟩
    (fun w small mine' => mapping.unshared w (shows'.alone w small mine')) fun w small => ?_⟩
  by_cases new : v ≤ w ∧ w < v + t.r
  · obtain ⟨k, rfl⟩ := Nat.exists_eq_add_of_le new.1
    have low : k < t.r := by omega
    obtain ⟨links, three, writes, found⟩ := mapping.mapped k low
    refine .inr ⟨mine k (low.trans_le mapping.count), .inr ⟨links, _, _, three, writes, found, ?_, kernel⟩⟩
    refine (if_pos new).trans ?_
    rw [Nat.add_sub_cancel_left]
  · refine .inl ⟨mapping.same (fun k low => alone k (low.trans_le mapping.count)) w small fun k low => ?_, fun _ => if_neg new⟩
    omega

theorem Shows.unmap {vaddrStart vaddrEnd : Nat} (near : s₀.mmap < 2 ^ 27) (shows' : Shows own s₀ s A)
    (ok : s.CallOk own (.unmap vaddrStart vaddrEnd)) :
    Shows own s₀ { s with mem := (s.unmap vaddrStart vaddrEnd).mem } (A.call (.unmap vaddrStart vaddrEnd)).2 := by
  obtain ⟨first, mine⟩ := ok
  obtain ⟨lvl, tabled, top⟩ := shows'.tabled
  have rooted := Rooted.of_graded tabled.graded (by decide) top
  have alone : s.RangeUnshared vaddrStart vaddrEnd := fun w small range => shows'.alone w small (mine w small range).1
  obtain ⟨lvl', stop, unmapping, -, -⟩ := unmap_result (tabled.led top) rooted (shows'.mmap ▸ near) alone
  refine shows'.of_trail ⟨lvl', unmapping.tabled, unmapping.rooted.start⟩ (fun w small mine' =>
    (shows'.alone w small mine').of_grows unmapping.shrinks unmapping.rooted.graded (by decide) unmapping.rooted.start)
    fun w small => ?_
  obtain ⟨gone, stays⟩ := trail_unmap (tabled.led top) rooted (shows'.mmap ▸ near) alone small
  set v := pageNumber vaddrStart
  by_cases range : InRange v vaddrEnd w
  · refine .inr ⟨(mine w small range).1, .inl ⟨?_, if_pos range⟩⟩
    by_cases unmaps : s.Unmaps vaddrStart vaddrEnd w
    · exact gone unmaps
    rw [stays unmaps]
    -- the first page has a PD, or there is nothing to pass over
    have visited (u : Nat) (range_u : InRange v vaddrEnd u) : Visited s.mem s.mmap v vaddrEnd u := by
      refine ⟨range_u, fun ⟨later, offset, noPd⟩ => ?_⟩
      rcases first with zero | some
      · have aligned : v % 512 = 0 := by rw [← zero, ptIndex_eq, Lib.digit, pow_zero, Nat.div_one]
        rw [aligned] at offset
        exact Nat.not_lt_zero _ offset
      · rw [tabled.walk_isSome top] at some
        have full := Lib.missing_trail some
        exact absurd (full.symm.trans (noPd v le_rfl later)) (by decide)
    unfold Unmaps at unmaps
    push Not at unmaps
    obtain ⟨u, le, ⟨range_u, -⟩, blocked⟩ := unmaps (visited w range)
    have small_u := le.trans_lt small
    obtain ⟨mine_u, block_u⟩ := mine u small_u range_u
    rcases blocked with lacks | ⟨leaves, found, short⟩
    · -- without a PDP there is no page in all of 512G
      have block := block_u.trans (mine w small range).2.symm
      by_contra some
      have full := Lib.missing_trail (Option.isSome_iff_ne_none.mpr some)
      have := Lib.missing_block (j := 2) block (full.le.trans (Nat.zero_le 2))
      omega
    · cases page : A u with
      | none =>
        rw [shows'.absent u small_u mine_u page] at found
        cases found
      | some page' =>
        obtain ⟨-, links, three, -, found'⟩ := shows'.present u small_u mine_u page'.1 page'.2 page
        rw [found] at found'
        have := congrArg List.length (Option.some.inj found')
        rw [List.length_append, List.length_singleton] at this
        omega
  · exact .inl ⟨stays fun unmaps => range unmaps.1.1, fun _ => if_neg range⟩

theorem Shows.store {page i : Nat} {e : Entry} (shows' : Shows own s₀ s A) (ok : s.CallOk own (.store page i e)) :
    Shows own s₀ { s with mem := s.mem.set page i e } A := by
  obtain ⟨lvl, tabled, top⟩ := shows'.tabled
  have rooted := Rooted.of_graded tabled.graded (by decide) top
  have same : ∀ n l, ledLevel view 512 s.mem lvl 3 s.mmap n = some l → ∀ j, s.mem.set page i e n j = s.mem n j := by
    intro n l level j
    refine if_neg fun h => ok ?_
    rw [← h.1, rooted.leads_iff, level]
    exact Option.some_ne_none l
  have graded := rooted.graded.of_same same
  refine shows'.of_trail ⟨_, ⟨graded, fun n l j level inside => ?_, fun n l j m level inside node => ?_⟩, rooted.start⟩
    (fun w small mine => (shows'.alone w small mine).of_grows (Grows.of_same fun n l level j => (same n l level j).symm) graded
      (by decide) rooted.start)
    fun w _ => .inl ⟨Lib.trail_of_same same rooted.graded (by decide) rooted.start, fun _ => rfl⟩
  · rw [same n l level]
    exact (tabled.led top).sound n l j level inside
  · rw [same n l level] at node ⊢
    exact (tabled.led top).node n l j m level inside node

/-- What the processor makes of the tables. -/
theorem Shows.walk_eq (shows' : Shows own s₀ s A) (before : ∃ lvl, Tabled s₀.mem lvl ∧ lvl s₀.mmap = some 3) (va : Nat) :
    (own (pageNumber va) → walk s.mem s.mmap va = A.look va) ∧
      (¬ own (pageNumber va) → walk s.mem s.mmap va = walk s₀.mem s₀.mmap va) := by
  obtain ⟨lvl, tabled, top⟩ := shows'.tabled
  obtain ⟨lvl₀, tabled₀, top₀⟩ := before
  have small := pageNumber_lt va
  rw [tabled.walk_eq top, tabled₀.walk_eq top₀]
  refine ⟨fun mine => ?_, fun other => by rw [shows'.others _ small other]⟩
  unfold Space.look
  cases page : A (pageNumber va) with
  | none => rw [shows'.absent _ small mine page, Option.bind_none, Option.map_none]
  | some page' =>
    obtain ⟨kernel, links, three, writes, found⟩ := shows'.present _ small mine page'.1 page'.2 page
    rw [found, Option.bind_some, translate_page three writes, Option.map_some, decide_eq_false (not_not.mpr kernel)]

end Shows

/-- Over any calls the processor sees the pages of the owner as it mapped them, and all others as at first. -/
theorem space_refines {own : Nat → Prop} {s₀ : Vmm} {lvl : Nat → Option Nat} (tabled : Tabled s₀.mem lvl)
    (top : lvl s₀.mmap = some 3) (near : s₀.mmap < 2 ^ 27)
    (alone : ∀ w < 512 ^ 4, own w → Unshared view 512 s₀.mem 3 s₀.mmap w)
    (unmapped : ∀ va, own (pageNumber va) → walk s₀.mem s₀.mmap va = none) (calls : List SpaceCall)
    (allowed : Lib.Allowed Vmm.call (CallOk own) s₀ calls) :
    ∃ s, Lib.outcome Vmm.call s₀ calls = some ((Lib.results Space.call (fun _ => none) calls).1, s) ∧
      ∀ va, (own (pageNumber va) → walk s.mem s.mmap va = (Lib.results Space.call (fun _ => none) calls).2.look va) ∧
        (¬ own (pageNumber va) → walk s.mem s.mmap va = walk s₀.mem s₀.mmap va) := by
  have start : Shows own s₀ s₀ fun _ => none := by
    refine ⟨rfl, ⟨lvl, tabled, top⟩, alone, fun w small mine _ => ?_, fun _ _ _ _ _ some =>
      absurd some (Option.some_ne_none _).symm, fun _ _ _ => rfl⟩
    obtain ⟨va, -, rfl⟩ := exists_address small
    have absent := congrArg Option.isSome (unmapped va mine)
    rw [tabled.walk_isSome top] at absent
    exact Option.not_isSome_iff_eq_none.mp (Bool.eq_false_iff.mp absent)
  have sim : ∀ s A call, Shows own s₀ s A → s.CallOk own call →
      ∃ t, s.call call = some ((A.call call).1, t) ∧ Shows own s₀ t (A.call call).2 := by
    intro s A call shows' ok
    cases call with
    | map pool request vaddr =>
      obtain ⟨count, shows''⟩ := shows'.map near ok
      exact ⟨_, congrArg some (Prod.ext count rfl), shows''⟩
    | unmap vaddrStart vaddrEnd => exact ⟨_, rfl, shows'.unmap near ok⟩
    | store page i e => exact ⟨_, rfl, shows'.store ok⟩
  obtain ⟨s, outcome, shows'⟩ := Lib.simulation sim start calls allowed
  exact ⟨s, outcome, shows'.walk_eq ⟨lvl, tabled, top⟩⟩

/-- Two pages are mapped, and the first one is unmapped. -/
theorem space_refines_two : ∃ s, Lib.outcome Vmm.call noPages
      [.map [2, 3, 4, 5, 6, 7] ⟨fun k => 0x5000 + k * 2 ^ 12, 2, 0⟩ 0, .unmap 0 4096] = some ([2, 0], s) ∧
    walk s.mem s.mmap 0 = none ∧
    walk s.mem s.mmap 4096 = some { addr := 0x6000, write := true, user := false, uncached := false } := by
  have start : ptIndex 0 = 0 := rfl
  have inside (w : Nat) (range : InRange (pageNumber 0) 4096 w) : w = 0 := by
    rcases range.2 with rfl | low
    · rfl
    · unfold pageAddr at low
      split_ifs at low <;> omega
  have allowed : Lib.Allowed Vmm.call (CallOk fun w => w < 1024) noPages
      [.map [2, 3, 4, 5, 6, 7] ⟨fun k => 0x5000 + k * 2 ^ 12, 2, 0⟩ 0, .unmap 0 4096] := by
    refine ⟨⟨by decide, fun page member => ⟨?_, fun leads => ?_⟩, by decide, by decide, by decide, by decide⟩,
      fun r t _ => ⟨⟨.inl start, fun w _ range => ?_⟩, fun _ _ _ => trivial⟩⟩
    · revert page
      decide
    · rw [noPages_leads leads] at member
      revert member
      decide
    · rw [inside w range]
      exact ⟨by decide, rfl⟩
  obtain ⟨s, outcome, pages⟩ := space_refines empty_tabled rfl (by decide) (fun w small _ => noPages_unshared small)
    (fun va _ => noPages_walk va) _ allowed
  exact ⟨s, outcome, (pages 0).1 (by decide), (pages 4096).1 (by decide)⟩

end Vmm

end PreTeO.X86
