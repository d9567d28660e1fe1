import PreTeO.Sys.Repository

/-!
# The reference counters of the repository

In every run the counter of a registered object is the number of its references that are out, as long as two things do
not happen: a clone whose initialisation fails is released and lowers a counter that was not raised for it, and an object
is released whose name and interface belong to an object registered before it.
-/

namespace PreTeO.Sys
set_option autoImplicit false
open PreTeO.Lib

namespace Repository

variable {s : Repository} {loc loc' : Loc} {f : Nat → Nat} {p : Nat}

/-! ## One counter -/

theorem storages_setCnt : (s.setCnt loc f).storages = s.storages.map fun st =>
    if st.so = loc.1 then { st with objects := st.objects.modify loc.2 fun po => { po with refCnt := f po.refCnt } }
    else st := rfl

/-- Only the counter at the place changes. -/
theorem objectAt_setCnt : (s.setCnt loc f).objectAt loc' =
    (s.objectAt loc').map fun po => if loc' = loc then { po with refCnt := f po.refCnt } else po := by
  obtain ⟨so, i⟩ := loc
  obtain ⟨so', i'⟩ := loc'
  rw [objectAt, objectAt, storages_setCnt, List.find?_map]
  have same : ((fun st : SoStorage => decide (st.so = so')) ∘ fun st =>
      if st.so = so then { st with objects := st.objects.modify i fun po => { po with refCnt := f po.refCnt } } else st) =
      fun st => decide (st.so = so') := by
    funext st
    simp only [Function.comp_apply]
    split <;> rfl
  rw [same]
  cases found : s.storages.find? fun st => decide (st.so = so') with
  | none => rfl
  | some st =>
    have here : st.so = so' := by simpa using List.find?_some found
    simp only [Option.map_some, Option.bind_some, here, Prod.mk.injEq]
    by_cases first : so' = so
    · subst first
      simp only [if_true, List.getElem?_modify, true_and]
      cases st.objects[i']? with
      | none => rfl
      | some po =>
        simp only [Option.map_some, Option.map_eq_map]
        by_cases second : i = i'
        · subst second
          simp only [if_true]
        · simp only [if_neg second, if_neg (Ne.symm second)]
    · simp only [first, false_and, if_false, Option.map_id']

theorem findIdx?_congr {α : Type} {p q : α → Bool} {xs : List α} (same : ∀ x ∈ xs, p x = q x) :
    xs.findIdx? p = xs.findIdx? q := by
  induction xs with
  | nil => rfl
  | cons x xs ih =>
    rw [List.findIdx?_cons, List.findIdx?_cons, same x List.mem_cons_self,
      ih fun y hy => same y (List.mem_cons_of_mem x hy)]

theorem findSome?_congr {α β : Type} {f g : α → Option β} {xs : List α} (same : ∀ x ∈ xs, f x = g x) :
    xs.findSome? f = xs.findSome? g := by
  induction xs with
  | nil => rfl
  | cons x xs ih =>
    rw [List.findSome?_cons, List.findSome?_cons, same x List.mem_cons_self,
      ih fun y hy => same y (List.mem_cons_of_mem x hy)]

/-- No registered object is at the address. -/
def Unused (s : Repository) (p : Nat) : Prop := ∀ st ∈ s.storages, ∀ po ∈ st.objects, po.obj ≠ some p

/-- A new clone does not change what a request finds. -/
theorem objectRequest_clone {c : ObjectClass} {l : List Nat} (unused : s.Unused p) (r : ObjectRequest) :
    ({ s with cls := Function.update s.cls p c, onHeap := l } : Repository).objectRequest r = s.objectRequest r := by
  apply findSome?_congr
  intro st hst
  congr 1
  apply findIdx?_congr
  intro po hpo
  rw [objectCompare, objectCompare]
  cases obj : po.obj with
  | none => rfl
  | some q =>
    have ne : q ≠ p := by
      rintro rfl
      exact unused st hst po hpo obj
    simp only [Function.update_of_ne ne]

/-- The counter of the object that a request finds. -/
def cntOf (s : Repository) (r : ObjectRequest) : Nat := ((s.objectRequest r).bind s.objectAt).elim 0 RegObject.refCnt

/-- A release that finds a counter of zero changes none. -/
theorem objectAt_release_zero (zero : s.cntOf (s.nameRequest p) = 0) :
    (s.releaseObject p).objectAt loc' = s.objectAt loc' := by
  rw [releaseObject]
  rw [cntOf] at zero
  cases found : s.objectRequest (s.nameRequest p) with
  | none => rfl
  | some loc =>
    rw [found, Option.bind_some] at zero
    change (s.setCnt loc decr).objectAt loc' = _
    rw [objectAt_setCnt]
    cases here : s.objectAt loc' with
    | none => rfl
    | some po =>
      simp only [Option.map_some]
      split
      · next same =>
        rw [← same, here] at zero
        have zero : po.refCnt = 0 := zero
        cases po
        cases zero
        rfl
      · rfl

end Repository

/-! ## Runs -/

/-- The number of references to a registered object that are out. -/
def Repository.refs (s : Repository) (loc : Loc) : Nat := s.out.countP fun r => r.1 = loc

/-- Every counter is the number of references, and every reference is to a registered object. -/
structure Repository.Counted (s : Repository) : Prop where
  counts : ∀ loc po, s.objectAt loc = some po → po.refCnt = s.refs loc
  placed : ∀ r ∈ s.out, ∃ po, s.objectAt r.1 = some po

/-- The request makes a clone. -/
def RegObject.Clones (po : RegObject) (clone : Bool) (mem : Option Nat) : Prop := (clone && po.clone) ∧ mem.isSome

/-- The request returns a reference. -/
def RegObject.Grants (po : RegObject) (clone standalone : Bool) (mem : Option Nat) (init : Bool) : Prop :=
  if clone && po.clone then mem.isSome ∧ init else standalone && po.standalone

/-- A request does not bring a counter to `2 ^ 16`, and if the initialisation of a clone fails, the counter for its name
and interface is zero. A reference is released to the first object with its name and interface. -/
def RepositoryCall.Ok (s : Repository) : RepositoryCall → Prop
  | .get r clone standalone mem init =>
    (∀ p, mem = some p → s.Unused p) ∧
      ∀ loc po obj, s.objectRequest r = some loc → s.objectAt loc = some po → po.obj = some obj →
        (po.Grants clone standalone mem init → po.refCnt + 1 < 2 ^ 16) ∧
        (po.Clones clone mem → init = false → s.cntOf (s.nameRequest obj) = 0)
  | .release loc p => (loc, p) ∈ s.out ∧ s.objectRequest (s.nameRequest p) = some loc
  | .remove _ => True

namespace Repository.Counted

variable {s s' : Repository} {loc : Loc} {p : Nat}

/-- A state with the same registered objects and the same references. -/
theorem congr (counted : s.Counted) (objects : ∀ loc, s'.objectAt loc = s.objectAt loc) (out : s'.out = s.out) :
    s'.Counted := by
  constructor
  · intro loc po here
    rw [objects] at here
    rw [counted.counts loc po here, refs, refs, out]
  · intro r mem
    rw [out] at mem
    rw [objects]
    exact counted.placed r mem

/-- A reference that is handed out. -/
theorem grant (counted : s.Counted) {po : RegObject} (here : s.objectAt loc = some po) (room : po.refCnt + 1 < 2 ^ 16) :
    ({ s.setCnt loc incr with out := (loc, p) :: s.out } : Repository).Counted := by
  have objects : ∀ l, ({ s.setCnt loc incr with out := (loc, p) :: s.out } : Repository).objectAt l =
      (s.setCnt loc incr).objectAt l := fun _ => rfl
  constructor
  · intro loc' po' here'
    rw [objects, objectAt_setCnt, Option.map_eq_some_iff] at here'
    obtain ⟨po₀, here₀, rfl⟩ := here'
    have count := counted.counts loc' po₀ here₀
    simp only [refs, List.countP_cons]
    by_cases same : loc' = loc
    · subst same
      cases here.symm.trans here₀
      rw [refs] at count
      rw [count] at room
      simp only [if_true, decide_true, incr, count]
      exact Nat.mod_eq_of_lt room
    · have apart : ¬ loc = loc' := Ne.symm same
      simp only [if_neg same, apart, decide_false, Bool.false_eq_true, if_false, count, refs, Nat.add_zero]
  · intro r mem
    rw [objects, objectAt_setCnt]
    have place : ∃ po, s.objectAt r.1 = some po := by
      rcases List.mem_cons.mp mem with rfl | old
      · exact ⟨po, here⟩
      · exact counted.placed r old
    obtain ⟨po', here'⟩ := place
    rw [here']
    exact ⟨_, rfl⟩

/-- A reference that is released. -/
theorem release (counted : s.Counted) (mem : (loc, p) ∈ s.out) (found : s.objectRequest (s.nameRequest p) = some loc) :
    (releaseObject { s with out := s.out.erase (loc, p) } p).Counted := by
  have found : ({ s with out := s.out.erase (loc, p) } : Repository).objectRequest
      (({ s with out := s.out.erase (loc, p) } : Repository).nameRequest p) = some loc := found
  have objects : ∀ l, (releaseObject { s with out := s.out.erase (loc, p) } p).objectAt l =
      (s.setCnt loc decr).objectAt l := by
    intro l
    rw [releaseObject, found]
    rfl
  have out : (releaseObject { s with out := s.out.erase (loc, p) } p).out = s.out.erase (loc, p) := by
    rw [releaseObject, found]
    rfl
  have counts : ∀ l, s.refs l = (s.out.erase (loc, p)).countP (fun r => r.1 = l) + if loc = l then 1 else 0 := by
    intro l
    rw [refs, (List.perm_cons_erase mem).countP_eq, List.countP_cons]
    simp only [decide_eq_true_eq]
  constructor
  · intro loc' po' here'
    rw [objects, objectAt_setCnt, Option.map_eq_some_iff] at here'
    obtain ⟨po₀, here₀, rfl⟩ := here'
    have count := counted.counts loc' po₀ here₀
    have split := counts loc'
    rw [refs, out]
    by_cases same : loc' = loc
    · subst same
      rw [if_pos rfl] at split
      have positive : po₀.refCnt ≠ 0 := by omega
      simp only [if_true, decr, if_pos positive]
      omega
    · rw [if_neg (Ne.symm same)] at split
      simp only [if_neg same]
      omega
  · intro r hr
    rw [out] at hr
    obtain ⟨po, here⟩ := counted.placed r (List.mem_of_mem_erase hr)
    rw [objects, objectAt_setCnt, here]
    exact ⟨_, rfl⟩

/-- A request. -/
theorem get (counted : s.Counted) {r : ObjectRequest} {clone standalone init : Bool} {mem : Option Nat}
    (ok : RepositoryCall.Ok s (.get r clone standalone mem init)) :
    (s.getObject r clone standalone mem init).2.Counted := by
  obtain ⟨fresh, ok⟩ := ok
  rw [getObject]
  cases found : s.objectRequest r with
  | none => exact counted
  | some loc =>
    simp only
    cases here : s.objectAt loc with
    | none => exact counted
    | some po =>
      simp only
      cases object : po.obj with
      | none => exact counted
      | some obj =>
        obtain ⟨room, zero⟩ := ok loc po obj found here object
        simp only [RegObject.Grants] at room
        by_cases both : clone && po.clone
        · simp only [if_pos both] at room ⊢
          cases mem with
          | none => exact counted
          | some p =>
            let u : Repository := { s with cls := Function.update s.cls p (s.cls obj), onHeap := p :: s.onHeap }
            have same : u.Counted := counted.congr (fun _ => rfl) rfl
            cases init with
            | true => exact same.grant (s := u) here (room ⟨rfl, rfl⟩)
            | false =>
              have unused := fresh p rfl
              have zero := zero ⟨both, rfl⟩ rfl
              have name : u.nameRequest p = s.nameRequest obj := by
                simp only [u, nameRequest, Function.update_self]
              have zero : u.cntOf (u.nameRequest p) = 0 := by
                rw [name, cntOf, objectRequest_clone unused]
                exact zero
              refine same.congr (fun l => objectAt_release_zero zero) ?_
              change (u.releaseObject p).out = u.out
              unfold releaseObject
              split <;> rfl
        · simp only [if_neg both] at room ⊢
          by_cases single : standalone && po.standalone
          · simp only [if_pos single]
            exact counted.grant here (room single)
          · simp only [if_neg single]
            exact counted

/-- A storage is removed only when there are no references to its objects. -/
theorem unreferenced (counted : s.Counted) {so : Nat} (removed : (s.removeSoStorage so).1 = true) :
    ∀ r ∈ s.out, r.1.1 ≠ so := by
  rintro ⟨⟨so', i⟩, p⟩ mem same
  have same : so' = so := same
  subst same
  obtain ⟨po, here⟩ := counted.placed _ mem
  have count : po.refCnt = s.refs (so', i) := counted.counts _ po here
  have positive : 0 < s.refs (so', i) := List.countP_pos_iff.mpr ⟨_, mem, by simp⟩
  rw [removeSoStorage] at removed
  rw [objectAt] at here
  cases found : s.storages.find? fun st => decide (st.so = so') with
  | none =>
    rw [found] at here
    cases here
  | some st =>
    rw [found, Option.bind_some] at here
    have inside : po ∈ st.objects := List.mem_of_getElem? here
    have used : ¬ (st.objects.all fun po => decide (po.refCnt = 0)) := by
      intro all
      have zero : po.refCnt = 0 := by simpa using List.all_eq_true.mp all po inside
      omega
    simp only [found, if_neg used] at removed
    cases removed

theorem remove (counted : s.Counted) (so : Nat) : (s.removeSoStorage so).2.Counted := by
  by_cases removed : (s.removeSoStorage so).1 = true
  · have free := counted.unreferenced removed
    rw [removeSoStorage] at removed ⊢
    cases found : s.storages.find? fun st => decide (st.so = so) with
    | none => exact counted
    | some st =>
      simp only
      split
      · split
        · exact counted
        · next other =>
          -- the storages that stay are found as before
          have objects : ∀ loc, loc.1 ≠ so →
              ({ s with vso := s.vso.filter fun st => st.so ≠ so } : Repository).objectAt loc = s.objectAt loc := by
            intro loc ne
            have main : ¬ s.main.so = so := fun same => other same.symm
            have kept : ({ s with vso := s.vso.filter fun st => st.so ≠ so } : Repository).storages =
                s.storages.filter fun st => st.so ≠ so := by
              simp only [storages, List.filter_cons, main, ne_eq, not_false_eq_true, decide_true, if_true]
            rw [objectAt, objectAt, kept, List.find?_filter]
            congr 2
            funext st
            by_cases same : st.so = loc.1
            · simp [same, ne]
            · simp [same]
          have gone : ∀ loc, loc.1 = so →
              ({ s with vso := s.vso.filter fun st => st.so ≠ so } : Repository).objectAt loc = none := by
            intro loc same
            have main : ¬ s.main.so = so := fun same => other same.symm
            have missing : ({ s with vso := s.vso.filter fun st => st.so ≠ so } : Repository).storages.find?
                (fun st => st.so = loc.1) = none := by
              apply List.find?_eq_none.mpr
              intro st hst
              rcases List.mem_cons.mp hst with rfl | hst
              · simpa [same] using main
              · have := (List.mem_filter.mp hst).2
                simpa [same] using this
            rw [objectAt, missing]
            rfl
          constructor
          · intro loc po here
            by_cases same : loc.1 = so
            · rw [gone loc same] at here
              cases here
            · rw [objects loc same] at here
              exact counted.counts loc po here
          · intro r mem
            rw [objects r.1 (free r mem)]
            exact counted.placed r mem
      · exact counted
  · rw [removeSoStorage] at removed ⊢
    cases found : s.storages.find? fun st => decide (st.so = so) with
    | none => exact counted
    | some st =>
      simp only [found] at removed ⊢
      split
      · next all =>
        rw [if_pos all] at removed
        split at removed <;> exact absurd rfl removed
      · exact counted

theorem step (counted : s.Counted) {call : RepositoryCall} (ok : call.Ok s) (returns : s.step call = some s') :
    s'.Counted := by
  cases call with
  | get r clone standalone mem init =>
    cases returns
    exact counted.get ok
  | release loc p =>
    cases returns
    exact counted.release ok.1 ok.2
  | remove so =>
    cases returns
    exact counted.remove so

end Repository.Counted

/-- A repository that has handed out nothing. -/
structure Repository.Fresh (s : Repository) : Prop where
  zero : ∀ st ∈ s.storages, ∀ po ∈ st.objects, po.refCnt = 0
  unissued : s.out = []

theorem Repository.Fresh.counted {s : Repository} (fresh : s.Fresh) : s.Counted := by
  constructor
  · intro loc po here
    rw [refs, fresh.unissued, List.countP_nil]
    rw [objectAt, Option.bind_eq_some_iff] at here
    obtain ⟨st, found, here⟩ := here
    exact fresh.zero st (List.mem_of_find?_eq_some found) po (List.mem_of_getElem? here)
  · intro r mem
    rw [fresh.unissued] at mem
    cases mem

/-- A repository with one object that can be cloned, the object 7 of class `iVector`. -/
def oneObject : Repository where
  main := ⟨1, []⟩
  vso := [⟨2, [⟨true, false, false, 0, some 7, 0⟩]⟩]
  cls := fun _ => ⟨"cVector", "iVector", "iBase"⟩
  onHeap := []
  out := []

/-- The request for a clone by the interface. -/
def vectorRequest : ObjectRequest := ⟨false, none, some "iVector", none, none⟩

theorem oneObject_fresh : oneObject.Fresh := by
  constructor
  · intro st hst po hpo
    simp only [Repository.storages, oneObject, List.mem_cons, List.not_mem_nil, or_false] at hst
    rcases hst with rfl | rfl
    · cases hpo
    · cases List.mem_singleton.mp hpo
      rfl
  · rfl

/-- The repository after one clone was requested. -/
def oneClone : Repository := (oneObject.getObject vectorRequest true false (some 100) true).2

theorem oneClone_reached : Reach Repository.step (fun s call => call.Ok s) oneObject oneClone := by
  have ok : RepositoryCall.Ok oneObject (.get vectorRequest true false (some 100) true) := by
    constructor
    · rintro p new st hst po hpo
      cases new
      simp only [Repository.storages, oneObject, List.mem_cons, List.not_mem_nil, or_false] at hst
      rcases hst with rfl | rfl
      · cases hpo
      · cases List.mem_singleton.mp hpo
        simp
    · intro loc po obj found here object
      have place : oneObject.objectRequest vectorRequest = some (2, 0) := by decide
      cases place.symm.trans found
      cases here
      exact ⟨fun _ => by decide, fun _ failed => nomatch failed⟩
  exact (Reach.refl _).snoc ok rfl

/-- The repository after the clone was released. -/
def cloneReleased : Repository := Repository.releaseObject { oneClone with out := oneClone.out.erase ((2, 0), 100) } 100

/-- Only references that are out are released. -/
def RepositoryCall.Obtained (s : Repository) : RepositoryCall → Prop
  | .release loc p => (loc, p) ∈ s.out
  | _ => True

instance RepositoryCall.instDecidableObtained (s : Repository) : (call : RepositoryCall) → Decidable (call.Obtained s)
  | .release loc p => inferInstanceAs (Decidable ((loc, p) ∈ s.out))
  | .get _ _ _ _ _ | .remove _ => inferInstanceAs (Decidable True)

end PreTeO.Sys
