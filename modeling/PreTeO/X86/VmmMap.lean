import PreTeO.X86.PageTree

/-!
# Mapping (`arch/x86/cpu/vmmX64.cpp`)

`_map` is four loops inside one another, one for each level, over four indices that they share. A loop ends at the end of
its table or with the last page; its index goes up and the one below starts again. An empty entry gets a new table before
the loop goes into it. `goto _vmm_map_done_` ends all four.
-/

namespace PreTeO.X86
set_option autoImplicit false

open Lib (Cell digit nextBlock trail missing needed Below Graded Unshared Grows Links Alters)

def VMMF_NON_CACHEABLE : BitVec 8 := 1
def VMMF_USER : BitVec 8 := 1 <<< 1
def VMMF_READONLY : BitVec 8 := 1 <<< 2

/-- `k_to_p`. -/
def kToP (va : Nat) : Nat := va % 2 ^ 39

/-- The entries with one of them changed. -/
def Tables.set (mem : Tables) (page i : Nat) (e : Entry) : Tables := fun n j => if n = page ∧ j = i then e else mem n j

/-- A page with zeros. -/
def Tables.clear (mem : Tables) (page : Nat) : Tables := fun n j => if n = page then Entry.empty else mem n j

/-- The state of `_map`: the entries of memory, the pages that the page allocator has left, the pages mapped, the indices
`ipt`, `ipd`, `ipdp` and `ipml4` under 0, 1, 2 and 3, and whether the jump to `_vmm_map_done_` is taken. -/
structure MapRun where
  mem : Tables
  pool : List Nat
  r : Nat
  idx : Nat → Nat
  done : Bool

/-- What the caller asks for. -/
structure MapRequest where
  pageArray : Nat → Nat
  npages : Nat
  flags : BitVec 8

/-- `map_page`. A field of one bit takes the lowest bit of the value. -/
def mapPage (e : Entry) (pageKva : Nat) (flags : BitVec 8) : Option Entry :=
  if e = Entry.empty then
    some { e with
      p := true
      rw := flags &&& VMMF_READONLY = 0
      us := (flags &&& VMMF_USER).getLsbD 0
      pcd := (flags &&& VMMF_NON_CACHEABLE).getLsbD 0
      base := BitVec.ofNat 28 (kToP pageKva / 2 ^ 12) }
  else none

/-- A table for an empty entry: a page of zeros, linked as present and writable. -/
def allocTable (s : MapRun) (page i : Nat) : Option MapRun :=
  if s.mem page i = Entry.empty then
    match s.pool with
    | [] => none
    | new :: pool =>
      let mem := s.mem.clear (pnToKva new)
      some { s with
        mem := mem.set page i { mem page i with p := true, rw := true, base := BitVec.ofNat 28 (pnToKva new) }
        pool := pool }
  else none

def allocPdpTable : MapRun → Nat → Nat → Option MapRun := allocTable
def allocPdTable : MapRun → Nat → Nat → Option MapRun := allocTable
def allocPtTable : MapRun → Nat → Nat → Option MapRun := allocTable

/-- The index of a level goes up, and the one below it starts again. -/
def MapRun.next (s : MapRun) (l : Nat) : MapRun :=
  { s with idx := fun j => if j = l then s.idx l + 1 else if j + 1 = l then 0 else s.idx j }

@[simp] theorem MapRun.next_idx (s : MapRun) (l : Nat) : (s.next l).idx l = s.idx l + 1 := if_pos rfl

theorem MapRun.next_upper (s : MapRun) {l j : Nat} (high : l < j) : (s.next l).idx j = s.idx j :=
  (if_neg (by omega)).trans (if_neg (by omega))

theorem MapRun.next_lower (s : MapRun) {l j : Nat} (low : j ≤ l) (zero : j < l → s.idx j = 0) :
    (s.next (l + 1)).idx j = 0 := by
  refine (if_neg (by omega)).trans ?_
  split_ifs
  · rfl
  · exact zero (by omega)

/-- The loop over the entries of a PT. -/
def mapPt (request : MapRequest) (page : Nat) : Nat → MapRun → MapRun
  | 0, s => s
  | fuel + 1, s =>
    if s.idx 0 ≤ maxPtIndex ∧ s.r < request.npages then
      match mapPage (s.mem page (s.idx 0)) (request.pageArray s.r) request.flags with
      | some e => mapPt request page fuel ({ s with mem := s.mem.set page (s.idx 0) e, r := s.r + 1 }.next 0)
      | none => { s with done := true }
    else s

/-- The loop over the entries of a table of tables; `sub` goes into the next one. After a table is allocated, `continue`
comes back to the same entry. -/
def mapEntries (request : MapRequest) (l : Nat) (large : Bool) (alloc : MapRun → Nat → Nat → Option MapRun)
    (sub : Nat → MapRun → MapRun) (page : Nat) : Nat → MapRun → MapRun
  | 0, s => s
  | fuel + 1, s =>
    if s.idx l ≤ maxPtIndex ∧ s.r < request.npages then
      match (if s.mem page (s.idx l) ≠ Entry.empty then some s else alloc s page (s.idx l)) with
      | none => { s with done := true }
      | some s =>
        let e := s.mem page (s.idx l)
        if large = true ∧ e.ps = true then { s with done := true }
        else
          let s := sub e.table s
          if s.done = true then s else mapEntries request l large alloc sub page fuel (s.next l)
    else s

def mapPd (request : MapRequest) (page : Nat) : MapRun → MapRun :=
  mapEntries request 1 true allocPtTable (fun page => mapPt request page 512) page 512

def mapPdp (request : MapRequest) (page : Nat) : MapRun → MapRun :=
  mapEntries request 2 true allocPdTable (mapPd request) page 512

def mapPml4 (request : MapRequest) (page : Nat) : MapRun → MapRun :=
  mapEntries request 3 false allocPdpTable (mapPdp request) page 512

/-- The state before the loops. -/
def MapRun.start (mem : Tables) (pool : List Nat) (vaddr : Nat) : MapRun :=
  { mem := mem, pool := pool, r := 0, done := false
    idx := fun l =>
      match l with
      | 0 => ptIndex vaddr
      | 1 => pdIndex vaddr
      | 2 => pdpIndex vaddr
      | _ => pml4Index vaddr }

/-- `_map`. The pointer to the PML4 is never null. -/
def Vmm.map (s : Vmm) (pool : List Nat) (request : MapRequest) (vaddr : Nat) : MapRun :=
  mapPml4 request (pnToKva s.mmap) (.start s.mem pool vaddr)

/-! ## What one step does -/

/-- The entry of a page that is mapped. -/
def mappedEntry (pageKva : Nat) (flags : BitVec 8) : Entry :=
  { Entry.empty with
    p := true
    rw := flags &&& VMMF_READONLY = 0
    us := (flags &&& VMMF_USER).getLsbD 0
    pcd := (flags &&& VMMF_NON_CACHEABLE).getLsbD 0
    base := BitVec.ofNat 28 (kToP pageKva / 2 ^ 12) }

theorem mapPage_empty (pageKva : Nat) (flags : BitVec 8) :
    mapPage Entry.empty pageKva flags = some (mappedEntry pageKva flags) := rfl

theorem mapPage_some {e : Entry} (some : e ≠ Entry.empty) (pageKva : Nat) (flags : BitVec 8) :
    mapPage e pageKva flags = none :=
  if_neg some

theorem mappedEntry_some (pageKva : Nat) (flags : BitVec 8) : mappedEntry pageKva flags ≠ Entry.empty := by
  intro h
  exact Bool.noConfusion (congrArg Entry.p h)

/-- The entry of a new table. -/
def newTableEntry (page : Nat) : Entry := { Entry.empty with p := true, rw := true, base := BitVec.ofNat 28 page }

theorem newTableEntry_view {page : Nat} (near : page < 2 ^ 27) (l : Nat) :
    view (l + 1) (newTableEntry page) = .node page ∧ (newTableEntry page).Near := by
  have base : (newTableEntry page).base.toNat = page := by
    unfold newTableEntry
    rw [BitVec.toNat_ofNat, Nat.mod_eq_of_lt (by omega)]
  have some : newTableEntry page ≠ Entry.empty := fun h => Bool.noConfusion (congrArg Entry.p h)
  constructor
  · unfold view
    rw [if_neg some, if_neg (by simp [newTableEntry])]
    unfold Entry.table
    rw [base, pnToKva, Nat.mod_eq_of_lt near]
  · unfold Entry.Near
    rw [base]
    exact near

/-- The pages that the page allocator gives are not in use, and the kernel reaches them. -/
structure Fresh (lvl : Nat → Option Nat) (pool : List Nat) : Prop where
  nodup : pool.Nodup
  unused : ∀ page ∈ pool, lvl page = none
  near : ∀ page ∈ pool, page < 2 ^ 27

/-- After `r` pages from the number `v` on are mapped. What other numbers lead to is known as long as the tables of the
mapped ones have only one address. -/
structure Mapping (before : Tables) (lvl₀ : Nat → Option Nat) (pages : List Nat) (root v : Nat) (request : MapRequest)
    (lvl : Nat → Option Nat) (mem : Tables) (pool : List Nat) (r : Nat) : Prop where
  tabled : Tabled mem lvl
  top : lvl root = some 3
  fresh : Fresh lvl pool
  grows : Grows view 512 before lvl₀ mem lvl
  unshared : ∀ w, Unshared view 512 before 3 root w → Unshared view 512 mem 3 root w
  count : r ≤ request.npages
  unmapped : ∀ k < r, trail view 512 before 3 root (v + k) = none
  mapped : ∀ k < r, ∃ links : List Entry, links.length = 3 ∧ (∀ e ∈ links, e.rw = true) ∧
    trail view 512 mem 3 root (v + k) = some (links ++ [mappedEntry (request.pageArray k) request.flags])
  same : (∀ k < r, Unshared view 512 before 3 root (v + k)) → ∀ w < 512 ^ 4, (∀ k < r, w ≠ v + k) →
    trail view 512 mem 3 root w = trail view 512 before 3 root w
  account : ∀ k, r ≤ k → k < request.npages → (∀ i ≤ r, i < k → Unshared view 512 before 3 root (v + i)) →
    pages.length + needed view 512 mem 3 root v k = pool.length + needed view 512 before 3 root v k
  enough : ∀ k < r, (∀ i < k, Unshared view 512 before 3 root (v + i)) → needed view 512 before 3 root v k ≤ pages.length
  apart : ∀ i < r, ∀ k < i, ∀ path path' l n, Below view 512 before (v + k) 3 root path l n →
    Below view 512 before (v + i) 3 root path' l n → (v + k) % 512 ^ (l + 1) ≠ (v + i) % 512 ^ (l + 1)

section Mapping
variable {before mem : Tables} {lvl₀ lvl : Nat → Option Nat} {pages pool : List Nat} {root v r page i : Nat}
  {request : MapRequest} {path : List Entry}

/-- The next page is not yet mapped by `_map`. -/
theorem Mapping.next (mapping : Mapping before lvl₀ pages root v request lvl mem pool r) (more : r < request.npages)
    (inside : v + request.npages ≤ 512 ^ 4) (alone : ∀ k < r, Unshared view 512 before 3 root (v + k)) :
    trail view 512 mem 3 root (v + r) = trail view 512 before 3 root (v + r) :=
  mapping.same alone (v + r) (by omega) fun k small => by omega

/-- The pages that are mapped have all their tables. -/
theorem Mapping.full (mapping : Mapping before lvl₀ pages root v request lvl mem pool r) (k : Nat) (small : k < r) :
    missing view 512 mem 3 root (v + k) = 0 := by
  obtain ⟨links, -, -, found⟩ := mapping.mapped k small
  exact Lib.missing_trail (by rw [found]; rfl)

/-- A page is mapped at an empty entry of a PT. -/
theorem Mapping.store (graded₀ : Graded view 512 before lvl₀) (top₀ : lvl₀ root = some 3)
    (mapping : Mapping before lvl₀ pages root v request lvl mem pool r) (more : r < request.npages)
    (below : Below view 512 mem (v + r) 3 root path 0 page) (index : digit 512 0 (v + r) = i)
    (empty : mem page i = Entry.empty) :
    let mem' := mem.set page i (mappedEntry (request.pageArray r) request.flags)
    Mapping before lvl₀ pages root v request lvl mem' pool (r + 1) ∧ Grows view 512 mem lvl mem' lvl := by
  intro mem'
  have positive : 0 < 512 := by decide
  have graded := mapping.tabled.graded
  have level := below.level graded positive mapping.top
  have alters : Alters mem lvl mem' page i := ⟨level, fun n j other => if_neg other⟩
  have stored : mem' page i = mappedEntry (request.pageArray r) request.flags := if_pos ⟨rfl, rfl⟩
  have leaf : view 0 (mem' page i) = .leaf := by
    rw [stored]
    exact view_zero (mappedEntry_some _ _)
  have grows : Grows view 512 mem lvl mem' lvl := alters.grows (by rw [empty]; exact view_empty)
  have none_missing : missing view 512 mem 3 root (v + r) = 0 := by
    rw [below.missing]
    rfl
  have unmapped : trail view 512 mem 3 root (v + r) = none := by
    rw [below.trail, trail, index, empty, view_empty]
    rfl
  have tabled : Tabled mem' lvl := by
    refine ⟨alters.graded graded, fun n l j level_n inside_j => ?_, fun n l j m level_n inside_j node => ?_⟩
    · by_cases here : n = page ∧ j = i
      · obtain ⟨rfl, rfl⟩ := here
        rw [stored]
        exact Or.inr ⟨rfl, rfl⟩
      · rw [alters.same n j here]
        exact mapping.tabled.sound n l j level_n inside_j
    · cases l with
      | zero => exact (view_zero_node node).elim
      | succ l =>
        rw [alters.inner level_n] at node ⊢
        exact mapping.tabled.node n (l + 1) j m level_n inside_j node
  obtain ⟨length, writes⟩ := mapping.tabled.links below mapping.top
  have unmapped₀ : trail view 512 before 3 root (v + r) = none := by
    by_contra some
    obtain ⟨leaves, found⟩ := Option.ne_none_iff_exists'.mp some
    rw [mapping.grows.trail graded₀ positive top₀ found] at unmapped
    cases unmapped
  refine ⟨{
    tabled := tabled
    top := mapping.top
    fresh := mapping.fresh
    grows := mapping.grows.trans grows
    unshared := fun w alone => alters.unshared graded positive mapping.top (mapping.unshared w alone)
    count := more
    unmapped := fun k small => ?_
    mapped := fun k small => ?_
    same := fun alone w small others => ?_
    account := fun k le small alone => ?_
    enough := fun k small alone => ?_
    apart := fun i' small k lower p p' l n below_k below_i same_low => ?_ }, grows⟩
  · rcases Nat.lt_or_eq_of_le (Nat.le_of_lt_succ small) with old | rfl
    · exact mapping.unmapped k old
    · exact unmapped₀
  · rcases Nat.lt_or_eq_of_le (Nat.le_of_lt_succ small) with old | rfl
    · obtain ⟨links, three, writable, found⟩ := mapping.mapped k old
      exact ⟨links, three, writable, grows.trail graded positive mapping.top found⟩
    · refine ⟨path, by omega, writes, ?_⟩
      rw [alters.trail_self graded positive mapping.top below index leaf, stored]
  · rw [← mapping.same (fun k below_r => alone k (by omega)) w small fun k below_r => others k (by omega)]
    exact alters.trail_ne graded positive mapping.top (mapping.unshared _ (alone r (Nat.lt_succ_self r))) below index small
      (others r (Nat.lt_succ_self r))
  · rw [alters.needed graded positive mapping.top]
    exact mapping.account k (by omega) small fun i' le' => alone i' (by omega)
  · rcases Nat.lt_or_eq_of_le (Nat.le_of_lt_succ small) with old | rfl
    · exact mapping.enough k old alone
    · have account := mapping.account k le_rfl more fun i' _ => alone i'
      rw [Lib.needed_last mapping.full, none_missing] at account
      omega
  · rcases Nat.lt_or_eq_of_le (Nat.le_of_lt_succ small) with old | rfl
    · exact mapping.apart i' old k lower p p' l n below_k below_i same_low
    · -- the entry of an earlier page would be the one that is empty here
      have together := (below_k.grows mapping.grows graded₀ positive top₀).alias
        (below_i.grows mapping.grows graded₀ positive top₀) same_low
      obtain ⟨links, -, -, found⟩ := mapping.mapped k lower
      rw [found, unmapped] at together
      cases together

/-- A table is linked at an empty entry of another one. -/
theorem Mapping.link {l new : Nat} (mapping : Mapping before lvl₀ pages root v request lvl mem (new :: pool) r)
    (inside : v + request.npages ≤ 512 ^ 4) (in_table : i < 512)
    (below : Below view 512 mem (v + r) 3 root path (l + 1) page)
    (index : digit 512 (l + 1) (v + r) = i) (empty : mem page i = Entry.empty) :
    let mem' := (mem.clear new).set page i (newTableEntry new)
    let lvl' := fun n => if n = new then some l else lvl n
    Mapping before lvl₀ pages root v request lvl' mem' pool r ∧ Grows view 512 mem lvl mem' lvl' := by
  intro mem' lvl'
  have positive : 0 < 512 := by decide
  have graded := mapping.tabled.graded
  have level := below.level graded positive mapping.top
  have unused := mapping.fresh.unused new List.mem_cons_self
  have near := mapping.fresh.near new List.mem_cons_self
  have other : page ≠ new := by
    rintro rfl
    rw [unused] at level
    cases level
  have linked : mem' page i = newTableEntry new := if_pos ⟨rfl, rfl⟩
  have blank (j : Nat) : mem' new j = Entry.empty := (if_neg fun h => other h.1.symm).trans (if_pos rfl)
  have links : Links view 512 mem lvl mem' lvl' l page i new :=
    { level := level
      inside := in_table
      before := by rw [empty]; exact view_empty
      after := by rw [linked]; exact (newTableEntry_view near l).1
      fresh := unused
      blank := fun j => by rw [blank]; exact view_empty
      same := fun n j old elsewhere => (if_neg elsewhere).trans (if_neg old)
      levels := fun n old => if_neg old
      new := if_pos rfl }
  have grows := links.grows
  have tabled : Tabled mem' lvl' := by
    refine ⟨links.graded graded, fun n k j level_n inside_j => ?_, fun n k j m level_n inside_j node => ?_⟩
    · by_cases here : n = page ∧ j = i
      · obtain ⟨rfl, rfl⟩ := here
        rw [linked]
        exact Or.inr ⟨rfl, rfl⟩
      by_cases old : n = new
      · subst old
        rw [blank]
        exact Or.inl rfl
      · rw [links.same n j old here]
        rw [links.levels n old] at level_n
        exact mapping.tabled.sound n k j level_n inside_j
    · by_cases here : n = page ∧ j = i
      · obtain ⟨rfl, rfl⟩ := here
        rw [linked]
        exact ⟨(newTableEntry_view near l).2, rfl⟩
      by_cases old : n = new
      · subst old
        rw [blank, view_empty] at node
        cases node
      · rw [links.same n j old here] at node ⊢
        rw [links.levels n old] at level_n
        exact mapping.tabled.node n k j m level_n inside_j node
  have trails (w : Nat) : trail view 512 mem' 3 root w = trail view 512 mem 3 root w :=
    links.trail graded positive mapping.top
  have nodup := List.nodup_cons.mp mapping.fresh.nodup
  have fresh : Fresh lvl' pool := by
    refine ⟨nodup.2, fun f member => ?_, fun f member => mapping.fresh.near f (List.mem_cons_of_mem _ member)⟩
    have different : f ≠ new := by
      rintro rfl
      exact nodup.1 member
    exact (if_neg different).trans (mapping.fresh.unused f (List.mem_cons_of_mem _ member))
  have mapped (k : Nat) (small : k < r) : ∃ links : List Entry, links.length = 3 ∧ (∀ e ∈ links, e.rw = true) ∧
      trail view 512 mem' 3 root (v + k) = some (links ++ [mappedEntry (request.pageArray k) request.flags]) := by
    rw [trails]
    exact mapping.mapped k small
  have full (k : Nat) (small : k < r) : missing view 512 mem' 3 root (v + k) = 0 := by
    obtain ⟨links, -, -, found⟩ := mapped k small
    exact Lib.missing_trail (by rw [found]; rfl)
  refine ⟨{
    tabled := tabled
    top := grows.level _ _ mapping.top
    fresh := fresh
    grows := mapping.grows.trans grows
    unshared := fun w alone => links.unshared graded positive mapping.top (mapping.unshared w alone)
    count := mapping.count
    unmapped := mapping.unmapped
    mapped := mapped
    same := fun alone w small others => (trails w).trans (mapping.same alone w small others)
    account := fun k le small alone => ?_
    enough := mapping.enough
    apart := mapping.apart }, grows⟩
  have account := mapping.account k le small alone
  have fewer := links.needed graded positive mapping.top below index mapping.full full le
    (fun lower => mapping.unshared _ (alone r le_rfl lower)) (by omega)
  rw [List.length_cons] at account
  omega

end Mapping

/-! ## The loops -/

section Loops
variable (before : Tables) (lvl₀ : Nat → Option Nat) (pages : List Nat) (root v : Nat) (request : MapRequest)

/-- The next page had a page before, or it lacks a table and there is no page for it. -/
def Stopped (mem : Tables) (pool : List Nat) (r : Nat) : Prop :=
  r < request.npages ∧ ((∀ k < r, Unshared view 512 before 3 root (v + k)) →
    (trail view 512 before 3 root (v + r)).isSome = true ∨ pool = [] ∧ 0 < missing view 512 mem 3 root (v + r))

/-- What a loop of a level does, up to the end of its table. -/
structure Explored (l : Nat) (s : MapRun) (lvl : Nat → Option Nat) (s' : MapRun) : Prop where
  mapping : ∃ lvl', Mapping before lvl₀ pages root v request lvl' s'.mem s'.pool s'.r ∧ Grows view 512 s.mem lvl s'.mem lvl'
  upper : ∀ j, l < j → s'.idx j = s.idx j
  stop : s'.done = true → Stopped before root v request s'.mem s'.pool s'.r
  go : s'.done = false →
    s'.r = request.npages ∨ v + s'.r = nextBlock 512 (l + 1) (v + s.r) ∧ ∀ j < l, s'.idx j = 0

/-- The state before a loop of a level: pages are left, and the indices are those of the next one. -/
structure Entering (l page : Nat) (s : MapRun) (lvl : Nat → Option Nat) : Prop where
  mapping : Mapping before lvl₀ pages root v request lvl s.mem s.pool s.r
  running : s.done = false
  more : s.r < request.npages
  idx : ∀ j ≤ l, s.idx j = digit 512 j (v + s.r)
  below : ∃ path, Below view 512 s.mem (v + s.r) 3 root path l page

/-- The loop of a level does so from wherever it starts. -/
def Explores (l : Nat) (f : Nat → MapRun → MapRun) : Prop :=
  ∀ page s lvl, Entering before lvl₀ pages root v request l page s lvl →
    Explored before lvl₀ pages root v request l s lvl (f page s)

variable {before lvl₀ pages root v request} {l page fuel : Nat} {s s₁ s' : MapRun} {lvl lvl₁ : Nat → Option Nat}

/-- A loop goes on from a later page of the same table. -/
theorem Explored.of_step (grows : Grows view 512 s.mem lvl s₁.mem lvl₁) (upper : ∀ j, l < j → s₁.idx j = s.idx j)
    (same : (v + s₁.r) / 512 ^ (l + 1) = (v + s.r) / 512 ^ (l + 1))
    (rest : Explored before lvl₀ pages root v request l s₁ lvl₁ s') :
    Explored before lvl₀ pages root v request l s lvl s' := by
  obtain ⟨lvl', mapping, later⟩ := rest.mapping
  refine ⟨⟨lvl', mapping, grows.trans later⟩, fun j high => (rest.upper j high).trans (upper j high), rest.stop, ?_⟩
  intro running
  refine (rest.go running).imp_right fun ⟨reached, zero⟩ => ⟨?_, zero⟩
  rw [reached]
  unfold nextBlock
  rw [same]

theorem mapPt_idle (stop : ¬ (s.idx 0 ≤ maxPtIndex ∧ s.r < request.npages)) : mapPt request page fuel s = s := by
  cases fuel with
  | zero => rfl
  | succ fuel => exact if_neg stop

theorem mapPt_explored (graded₀ : Graded view 512 before lvl₀) (top₀ : lvl₀ root = some 3)
    (inside : v + request.npages ≤ 512 ^ 4) (enough : 512 ≤ fuel + s.idx 0)
    (ready : Entering before lvl₀ pages root v request 0 page s lvl) :
    Explored before lvl₀ pages root v request 0 s lvl (mapPt request page fuel s) := by
  have positive : 0 < 512 := by decide
  induction fuel generalizing s lvl with
  | zero =>
    have := ready.idx 0 le_rfl
    have := Lib.digit_lt positive 0 (v + s.r)
    omega
  | succ fuel ih =>
    obtain ⟨path, below⟩ := ready.below
    have index := ready.idx 0 le_rfl
    have small := Lib.digit_lt positive 0 (v + s.r)
    rw [mapPt, if_pos ⟨by rw [maxPtIndex]; omega, ready.more⟩]
    by_cases empty : s.mem page (s.idx 0) = Entry.empty
    · rw [empty, mapPage_empty]
      dsimp only
      obtain ⟨mapping, grows⟩ := ready.mapping.store graded₀ top₀ ready.more below index.symm empty
      set s₁ : MapRun := MapRun.next { s with
        mem := s.mem.set page (s.idx 0) (mappedEntry (request.pageArray s.r) request.flags), r := s.r + 1 } 0 with next
      have upper (j : Nat) (high : 0 < j) : s₁.idx j = s.idx j := MapRun.next_upper _ high
      have idx : s₁.idx 0 = s.idx 0 + 1 := MapRun.next_idx _ 0
      by_cases last : s.r + 1 = request.npages
      · rw [mapPt_idle fun h => absurd h.2 (by rw [next]; exact Nat.not_lt.mpr last.ge)]
        exact ⟨⟨lvl, mapping, grows⟩, upper, fun stop => absurd (ready.running.symm.trans stop) Bool.false_ne_true,
          fun _ => Or.inl last⟩
      have block : v + (s.r + 1) = nextBlock 512 0 (v + s.r) := (Lib.nextBlock_zero 512 (v + s.r)).symm
      by_cases full : digit 512 0 (v + s.r) + 1 = 512
      · rw [mapPt_idle fun h => absurd h.1 (by rw [idx, index, full]; decide)]
        exact ⟨⟨lvl, mapping, grows⟩, upper, fun stop => absurd (ready.running.symm.trans stop) Bool.false_ne_true,
          fun _ => Or.inr ⟨block.trans (Lib.nextBlock_full full), fun _ low => absurd low (Nat.not_lt_zero _)⟩⟩
      · obtain ⟨up, same⟩ := Lib.nextBlock_inner (Nat.lt_of_le_of_ne small full)
        rw [← block] at up same
        refine Explored.of_step grows upper same (ih (by rw [idx]; omega) ⟨mapping, ready.running, by
          have := ready.more
          show s.r + 1 < request.npages
          omega, ?_, path, ?_⟩)
        · intro j low
          rw [Nat.le_zero.mp low, idx, index]
          exact up.symm
        · exact (below.grows grows ready.mapping.tabled.graded positive ready.mapping.top).prefix_eq same.symm
    · rw [mapPage_some empty]
      have found (alone : ∀ k < s.r, Unshared view 512 before 3 root (v + k)) :
          (trail view 512 before 3 root (v + s.r)).isSome = true := by
        rw [← ready.mapping.next ready.more inside alone, below.trail, trail, ← index, view_zero empty]
        rfl
      exact ⟨⟨lvl, ready.mapping, .refl⟩, fun _ _ => rfl, fun _ => ⟨ready.more, fun alone => Or.inl (found alone)⟩,
        fun running => Bool.noConfusion running⟩

section Entries
variable {large : Bool} {sub : Nat → MapRun → MapRun}

theorem mapEntries_idle {alloc : MapRun → Nat → Nat → Option MapRun}
    (stop : ¬ (s.idx l ≤ maxPtIndex ∧ s.r < request.npages)) : mapEntries request l large alloc sub page fuel s = s := by
  cases fuel with
  | zero => rfl
  | succ fuel => exact if_neg stop

/-- The entry of the next page, with a table if it was empty. -/
theorem Entering.table (inside : v + request.npages ≤ 512 ^ 4)
    (ready : Entering before lvl₀ pages root v request (l + 1) page s lvl) :
    let s₁ := if s.mem page (s.idx (l + 1)) ≠ Entry.empty then some s else allocTable s page (s.idx (l + 1))
    (s₁ = none ∧ Stopped before root v request s.mem s.pool s.r) ∨
      ∃ s' lvl', s₁ = some s' ∧ Entering before lvl₀ pages root v request (l + 1) page s' lvl' ∧
        Grows view 512 s.mem lvl s'.mem lvl' ∧ s'.r = s.r ∧ s'.idx = s.idx ∧ s'.mem page (s.idx (l + 1)) ≠ Entry.empty := by
  intro s₁
  have positive : 0 < 512 := by decide
  obtain ⟨path, below⟩ := ready.below
  have index := ready.idx (l + 1) le_rfl
  by_cases empty : s.mem page (s.idx (l + 1)) = Entry.empty
  · have alloc : s₁ = allocTable s page (s.idx (l + 1)) := if_neg (not_not.mpr empty)
    rw [allocTable, if_pos empty] at alloc
    cases pool : s.pool with
    | nil =>
      rw [pool] at alloc
      refine Or.inl ⟨alloc, ready.more, fun _ => Or.inr ⟨rfl, ?_⟩⟩
      rw [below.missing, missing, ← index, empty, view_empty]
      exact Nat.succ_pos l
    | cons new rest =>
      rw [pool] at alloc
      have mapping := ready.mapping
      rw [pool] at mapping
      have near : pnToKva new = new := Nat.mod_eq_of_lt (mapping.fresh.near new List.mem_cons_self)
      have other : page ≠ new := by
        rintro rfl
        have level := below.level mapping.tabled.graded positive mapping.top
        rw [mapping.fresh.unused page List.mem_cons_self] at level
        cases level
      obtain ⟨linked, grows⟩ := mapping.link inside (index ▸ Lib.digit_lt positive _ _) below index.symm empty
      have here : (s.mem.clear new) page (s.idx (l + 1)) = Entry.empty := (if_neg other).trans empty
      dsimp only at alloc
      rw [near, here] at alloc
      refine Or.inr ⟨_, _, alloc, ⟨linked, ready.running, ready.more, ready.idx, path,
        below.grows grows ready.mapping.tabled.graded positive ready.mapping.top⟩, grows, rfl, rfl, ?_⟩
      have stored :
          (s.mem.clear new).set page (s.idx (l + 1)) (newTableEntry new) page (s.idx (l + 1)) = newTableEntry new :=
        if_pos ⟨rfl, rfl⟩
      intro absurd
      exact Bool.noConfusion (congrArg Entry.p (stored.symm.trans absurd))
  · exact Or.inr ⟨s, lvl, if_pos empty, ready, .refl, rfl, rfl, empty⟩

theorem mapEntries_explored (inside : v + request.npages ≤ 512 ^ 4)
    (leaf : ∀ e, e ≠ Entry.empty → (large = true ∧ e.ps = true ↔ view (l + 1) e = .leaf))
    (explores : Explores before lvl₀ pages root v request l sub) (enough : 512 ≤ fuel + s.idx (l + 1))
    (ready : Entering before lvl₀ pages root v request (l + 1) page s lvl) :
    Explored before lvl₀ pages root v request (l + 1) s lvl
      (mapEntries request (l + 1) large allocTable sub page fuel s) := by
  have positive : 0 < 512 := by decide
  induction fuel generalizing s lvl with
  | zero =>
    have := ready.idx (l + 1) le_rfl
    have := Lib.digit_lt positive (l + 1) (v + s.r)
    omega
  | succ fuel ih =>
    have index := ready.idx (l + 1) le_rfl
    have small := Lib.digit_lt positive (l + 1) (v + s.r)
    rw [mapEntries, if_pos ⟨by rw [maxPtIndex]; omega, ready.more⟩]
    rcases ready.table inside with ⟨none, stopped⟩ | ⟨s₁, lvl₁, some, ready₁, grows₁, same_r, same_idx, full⟩
    · rw [none]
      exact ⟨⟨lvl, ready.mapping, .refl⟩, fun _ _ => rfl, fun _ => stopped, fun running => Bool.noConfusion running⟩
    rw [some]
    dsimp only
    obtain ⟨path, below⟩ := ready₁.below
    have at_entry : digit 512 (l + 1) (v + s₁.r) = s.idx (l + 1) := by rw [same_r, index]
    by_cases page_here : large = true ∧ (s₁.mem page (s.idx (l + 1))).ps = true
    · rw [if_pos (by rw [same_idx]; exact page_here)]
      have found (alone : ∀ k < s₁.r, Unshared view 512 before 3 root (v + k)) :
          (trail view 512 before 3 root (v + s₁.r)).isSome = true := by
        rw [← ready₁.mapping.next ready₁.more inside alone, below.trail, trail, at_entry, (leaf _ full).mp page_here]
        rfl
      exact ⟨⟨lvl₁, ready₁.mapping, grows₁⟩, fun j _ => congrFun same_idx j,
        fun _ => ⟨ready₁.more, fun alone => Or.inl (found alone)⟩,
        fun running => Bool.noConfusion running⟩
    rw [if_neg (by rw [same_idx]; exact page_here), same_idx]
    have node : view (l + 1) (s₁.mem page (s.idx (l + 1))) = .node (s₁.mem page (s.idx (l + 1))).table := by
      have no_leaf := (leaf _ full).not.mp page_here
      cases cell : view (l + 1) (s₁.mem page (s.idx (l + 1))) with
      | empty => exact absurd (view_eq_empty.mp cell) full
      | leaf => exact absurd cell no_leaf
      | node m => rw [(view_node cell).2]
    have deeper := below.snoc (by rw [at_entry]; exact node)
    have inner := explores (s₁.mem page (s.idx (l + 1))).table s₁ lvl₁
      ⟨ready₁.mapping, ready₁.running, ready₁.more, fun j low => ready₁.idx j (by omega), _, deeper⟩
    set s₂ := sub (s₁.mem page (s.idx (l + 1))).table s₁
    obtain ⟨lvl₂, mapping₂, grows₂⟩ := inner.mapping
    have grows := grows₁.trans grows₂
    have upper₂ (j : Nat) (high : l < j) : s₂.idx j = s.idx j := (inner.upper j high).trans (congrFun same_idx j)
    by_cases stop : s₂.done = true
    · rw [if_pos stop]
      exact ⟨⟨lvl₂, mapping₂, grows⟩, fun j high => upper₂ j (by omega), inner.stop, fun running =>
        absurd (stop.symm.trans running) Bool.noConfusion⟩
    rw [if_neg stop]
    have running : s₂.done = false := Bool.eq_false_iff.mpr stop
    have upper (j : Nat) (high : l + 1 < j) : (s₂.next (l + 1)).idx j = s.idx j :=
      (s₂.next_upper high).trans (upper₂ j (by omega))
    have idx : (s₂.next (l + 1)).idx (l + 1) = s.idx (l + 1) + 1 := by rw [s₂.next_idx, upper₂ (l + 1) (by omega)]
    by_cases last : s₂.r = request.npages
    · rw [mapEntries_idle (s := s₂.next (l + 1)) fun h => absurd h.2 (Nat.not_lt.mpr last.ge)]
      exact ⟨⟨lvl₂, mapping₂, grows⟩, upper, fun stop' => absurd stop' stop, fun _ => Or.inl last⟩
    obtain ⟨reached, zero⟩ := (inner.go running).resolve_left last
    rw [same_r] at reached
    have zeros (j : Nat) (low : j < l + 1) : (s₂.next (l + 1)).idx j = 0 :=
      s₂.next_lower (Nat.le_of_lt_succ low) (zero j)
    by_cases full_table : digit 512 (l + 1) (v + s.r) + 1 = 512
    · rw [mapEntries_idle (s := s₂.next (l + 1)) fun h => absurd h.1 (by rw [idx, index, full_table]; decide)]
      exact ⟨⟨lvl₂, mapping₂, grows⟩, upper, fun stop' => absurd stop' stop, fun _ =>
        Or.inr ⟨reached.trans (Lib.nextBlock_full full_table), zeros⟩⟩
    · obtain ⟨up, same⟩ := Lib.nextBlock_inner (Nat.lt_of_le_of_ne small full_table)
      rw [← reached] at up same
      have ready₂ : Entering before lvl₀ pages root v request (l + 1) page (s₂.next (l + 1)) lvl₂ := by
        refine ⟨mapping₂, running, Nat.lt_of_le_of_ne mapping₂.count last, fun j low => ?_, path, ?_⟩
        · rcases Nat.lt_or_ge j (l + 1) with lower | top
          · rw [zeros j lower]
            have := Lib.nextBlock_digit (d := 512) positive lower (v + s.r)
            rw [← reached] at this
            exact this.symm
          · obtain rfl : j = l + 1 := by omega
            rw [idx, index]
            exact up.symm
        · rw [same_r] at below
          exact (below.grows grows₂ ready₁.mapping.tabled.graded positive ready₁.mapping.top).prefix_eq same.symm
      exact Explored.of_step (by exact grows) (by exact upper) (by exact same) (ih (by rw [idx]; omega) ready₂)

end Entries

end Loops

end PreTeO.X86
