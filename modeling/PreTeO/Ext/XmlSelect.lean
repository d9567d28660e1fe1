import Mathlib.Data.List.TakeWhile
import PreTeO.Lib.Bytes

/-!
# Selecting tags (`ext/init/lib/xml.cpp`)

`select` follows a path of tag names into the first tag that has the next name, and counts the tags of the last name there.
The tags of the path that are below other tags of the same name are not counted, so an index that goes on into them finds
nothing. A name of the path is copied into 512 bytes; where it fills them, a comparison with a tag's name may go on behind them.
-/

namespace PreTeO.Ext.Xml
set_option autoImplicit false

open Lib (Byte)

/-- The characters of a string. -/
structure Chars where
  bytes : List Byte
  noZero : 0 ∉ bytes

/-- A parsed tag: what it is known by, its name unless it is a comment, and the tags in it. -/
inductive Tag (α : Type) where
  | mk (label : α) (name : Option Chars) (child : List (Tag α))

namespace Tag
variable {α : Type}

def label : Tag α → α
  | mk label _ _ => label

def name : Tag α → Option Chars
  | mk _ name _ => name

def child : Tag α → List (Tag α)
  | mk _ _ child => child

/-- The tag has the name `n`. -/
def Named (t : Tag α) (n : List Byte) : Prop := t.name.map Chars.bytes = some n

instance (t : Tag α) (n : List Byte) : Decidable (t.Named n) := inferInstanceAs (Decidable (_ = _))

end Tag

/-- `sizeof(_lb)`. -/
def szLb : Nat := 512

def slash : Byte := 0x2f

/-- What is copied into `_lb`. -/
def lbOf (xpath : List Byte) : List Byte := xpath.takeWhile (· ≠ slash)

/-- What is left of the path behind a slash. -/
def restOf (xpath : List Byte) : Option (List Byte) :=
  match xpath.dropWhile (· ≠ slash) with
  | [] => none
  | _ :: rest => some rest

/-- `_lb`, cleared before the name was copied. -/
def lbBytes (lb : List Byte) : List Byte := lb ++ List.replicate (szLb - lb.length) 0

/-- `mem_cmp(m_p_name, _lb, m_sz_name) == 0`. It gets stuck at the end of `_lb`. -/
def memCmp : List Byte → List Byte → Option Bool
  | [], _ => some true
  | _ :: _, [] => none
  | a :: as, b :: bs => if a = b then memCmp as bs else some false

/-- `str_len(_lb)`. It gets stuck at the end of `_lb`. -/
def strLen : List Byte → Option Nat
  | [] => none
  | b :: bs => if b = 0 then some 0 else (strLen bs).map (· + 1)

/-- The test of `_select` on a name. -/
def isName (name lb : List Byte) : Option Bool :=
  match memCmp name (lbBytes lb) with
  | some true => (strLen (lbBytes lb)).map fun len => decide (name.length = len)
  | r => r

section Select
variable {α : Type}

def Tag.isNamed (t : Tag α) (lb : List Byte) : Option Bool :=
  match t.name with
  | none => some false
  | some name => isName name.bytes lb

/-- The loop of `_select` over the tags. -/
def selectTags (lb : List Byte) (below : Option (List (Tag α) → Option (Option (Tag α)))) (index : Nat) :
    Nat → List (Tag α) → Option (Option (Tag α))
  | _, [] => some none
  | ix, t :: ts =>
    match t.isNamed lb with
    | none => none
    | some false => selectTags lb below index ix ts
    | some true =>
      match below with
      | some select => select t.child
      | none => if ix = index then some (some t) else selectTags lb below index (ix + 1) ts

/-- `_select`, for paths of fewer than `fuel` names. It gets stuck if a name does not fit in `_lb`. -/
def selectPath : Nat → List Byte → List (Tag α) → Nat → Option (Option (Tag α))
  | 0, _, _, _ => none
  | fuel + 1, xpath, v, index =>
    if (lbOf xpath).length > szLb then none
    else selectTags (lbOf xpath) ((restOf xpath).map fun rest child => selectPath fuel rest child index) index 0 v

/-- `select` from a start tag, or from the root. -/
def select (xpath : Chars) (v : List (Tag α)) (index : Nat) : Option (Option (Tag α)) :=
  selectPath (xpath.bytes.length + 1) xpath.bytes v index

/-! ## Paths -/

/-- The names of a path. -/
def segments : List Byte → List (List Byte)
  | [] => [[]]
  | c :: cs =>
    if c = slash then [] :: segments cs
    else
      match segments cs with
      | [] => [[c]]
      | s :: ss => (c :: s) :: ss

/-- The tags that a path leads to. -/
def matching : List (List Byte) → List (Tag α) → List (Tag α)
  | [], _ => []
  | [n], v => v.filter fun t => t.Named n
  | n :: m :: rest, v => (v.filter fun t => t.Named n).flatMap fun t => matching (m :: rest) t.child

/-- The tags that a path leads to in the first tag of each name before the last. -/
def firstBranch : List (List Byte) → List (Tag α) → List (Tag α)
  | [], _ => []
  | [n], v => v.filter fun t => t.Named n
  | n :: m :: rest, v =>
    match v.find? fun t => t.Named n with
    | none => []
    | some t => firstBranch (m :: rest) t.child

/-- Of a name and a tag's name one is the beginning of the other. -/
def Tag.Begins (t : Tag α) (n : List Byte) : Prop := ∃ name, t.name = some name ∧ (name.bytes <+: n ∨ n <+: name.bytes)

/-- The names that are looked for fit in `_lb`, and where one fills it, each tag's name differs from it before either ends. -/
def Fits : List (List Byte) → List (Tag α) → Prop
  | [], _ => True
  | n :: rest, v => n.length ≤ szLb ∧ (n.length = szLb → ∀ t ∈ v, ¬ t.Begins n) ∧
      match v.find? fun t => t.Named n with
      | none => True
      | some t => Fits rest t.child

/-- A tag of the path is found by index in the first branch if it is there, and elsewhere not. -/
def InFirstBranch (path : List (List Byte)) (v : List (Tag α)) (index : Nat) : Prop :=
  index < (firstBranch path v).length ∨ (matching path v).length ≤ index

theorem segments_ne_nil (xpath : List Byte) : segments xpath ≠ [] := by
  cases xpath with
  | nil => simp [segments]
  | cons c cs =>
    rw [segments]
    split_ifs
    · simp
    · split <;> simp

theorem segments_eq (xpath : List Byte) :
    segments xpath = lbOf xpath :: ((restOf xpath).map segments).getD [] := by
  induction xpath with
  | nil => rfl
  | cons c cs ih =>
    rw [segments]
    by_cases separator : c = slash
    · rw [if_pos separator, separator]
      simp [lbOf, restOf]
    · have first : lbOf (c :: cs) = c :: lbOf cs := by simp [lbOf, separator]
      have rest : restOf (c :: cs) = restOf cs := by simp [restOf, separator]
      rw [if_neg separator, first, rest, ih]

theorem restOf_length {xpath rest : List Byte} (more : restOf xpath = some rest) : rest.length < xpath.length := by
  rw [restOf] at more
  split at more
  · cases more
  · next c tail split =>
    cases more
    have := (List.dropWhile_suffix (l := xpath) (· ≠ slash)).length_le
    rw [split, List.length_cons] at this
    omega

theorem lbOf_noZero {xpath : List Byte} (noZero : 0 ∉ xpath) : 0 ∉ lbOf xpath :=
  fun zero => noZero ((List.takeWhile_prefix _).mem zero)

theorem restOf_noZero {xpath rest : List Byte} (noZero : 0 ∉ xpath) (more : restOf xpath = some rest) : 0 ∉ rest := by
  rw [restOf] at more
  split at more
  · cases more
  · next c tail split =>
    cases more
    intro zero
    refine noZero ((List.dropWhile_suffix (· ≠ slash)).mem ?_)
    rw [split]
    exact List.mem_cons_of_mem _ zero

/-! ## The test of a name -/

section Test
variable {name lb : List Byte} {t : Tag α}

/-- The zero behind a shorter `_lb` ends the comparison. -/
theorem memCmp_zeros (noZero : 0 ∉ name) (k : Nat) :
    memCmp name (lb ++ List.replicate (k + 1) 0) = some (decide (name <+: lb)) := by
  induction name generalizing lb with
  | nil => simp [memCmp]
  | cons a as ih =>
    have head : a ≠ 0 := fun zero => noZero (zero ▸ List.mem_cons_self)
    cases lb with
    | nil =>
      rw [List.nil_append, List.replicate_succ, memCmp, if_neg head]
      simp
    | cons b bs =>
      rw [List.cons_append, memCmp, ih fun zero => noZero (List.mem_cons_of_mem _ zero)]
      by_cases same : a = b
      · simp [same]
      · simp [same]

theorem strLen_zeros (noZero : 0 ∉ lb) (k : Nat) : strLen (lb ++ List.replicate (k + 1) 0) = some lb.length := by
  induction lb with
  | nil => rfl
  | cons b bs ih =>
    have head : b ≠ 0 := fun zero => noZero (zero ▸ List.mem_cons_self)
    rw [List.cons_append, strLen, if_neg head, ih fun zero => noZero (List.mem_cons_of_mem _ zero)]
    rfl

/-- Without a zero the comparison ends at a difference, or with the name. -/
theorem memCmp_eq (name lb : List Byte) :
    memCmp name lb = if name <+: lb then some true else if lb <+: name then none else some false := by
  induction name generalizing lb with
  | nil => simp [memCmp]
  | cons a as ih =>
    cases lb with
    | nil => simp [memCmp]
    | cons b bs =>
      rw [memCmp, ih]
      by_cases same : a = b
      · simp [same]
      · simp [same, Ne.symm same]

theorem strLen_none (noZero : 0 ∉ lb) : strLen lb = none := by
  induction lb with
  | nil => rfl
  | cons b bs ih =>
    have head : b ≠ 0 := fun zero => noZero (zero ▸ List.mem_cons_self)
    rw [strLen, if_neg head, ih fun zero => noZero (List.mem_cons_of_mem _ zero)]
    rfl

/-- A name that leaves room for its zero is compared as it should be. -/
theorem isNamed_short (noZero : 0 ∉ lb) (short : lb.length < szLb) : t.isNamed lb = some (decide (t.Named lb)) := by
  obtain ⟨k, room⟩ : ∃ k, szLb - lb.length = k + 1 := ⟨szLb - lb.length - 1, by omega⟩
  obtain ⟨label, name, child⟩ := t
  cases name with
  | none => rfl
  | some name =>
    change isName name.bytes lb = some (decide (some name.bytes = some lb))
    rw [isName, lbBytes, room, memCmp_zeros name.noZero, strLen_zeros noZero]
    by_cases begins : name.bytes <+: lb
    · have equal : name.bytes.length = lb.length ↔ name.bytes = lb :=
        ⟨begins.eq_of_length, congrArg List.length⟩
      simp [begins, equal]
    · have differ : name.bytes ≠ lb := fun same => begins (same ▸ List.prefix_refl _)
      simp [begins, differ]

/-- A full `_lb` is left behind unless the name differs from it before either ends. -/
theorem isNamed_full (noZero : 0 ∉ lb) (full : lb.length = szLb) :
    (t.Begins lb → t.isNamed lb = none) ∧ (¬ t.Begins lb → t.isNamed lb = some false) := by
  have alone : lbBytes lb = lb := by rw [lbBytes, full, Nat.sub_self]; exact List.append_nil lb
  unfold Tag.isNamed Tag.Begins
  cases t.name with
  | none => exact ⟨fun ⟨_, same, _⟩ => (nomatch same), fun _ => rfl⟩
  | some name =>
    dsimp only
    rw [isName, alone, memCmp_eq, strLen_none noZero]
    by_cases begins : name.bytes <+: lb
    · simp [begins]
    · by_cases longer : lb <+: name.bytes
      · simp [begins, longer]
      · simp [begins, longer]

end Test

/-! ## What is selected -/

section Loop
variable {lb : List Byte}

theorem selectTags_last (noZero : 0 ∉ lb) (short : lb.length < szLb) (index ix : Nat) (le : ix ≤ index) (v : List (Tag α)) :
    selectTags lb none index ix v = some (v.filter fun t => t.Named lb)[index - ix]? := by
  induction v generalizing ix with
  | nil => simp [selectTags]
  | cons t ts ih =>
    rw [selectTags, isNamed_short noZero short]
    by_cases same : t.Named lb
    · rw [decide_eq_true same, List.filter_cons_of_pos (by simpa using same)]
      dsimp only
      by_cases here : ix = index
      · rw [here, if_pos rfl, Nat.sub_self]
        rfl
      · have next : index - ix = index - (ix + 1) + 1 := by omega
        rw [if_neg here, ih (ix + 1) (by omega), next, List.getElem?_cons_succ]
    · rw [decide_eq_false same, List.filter_cons_of_neg (by simpa using same)]
      exact ih ix le

theorem selectTags_below (noZero : 0 ∉ lb) (short : lb.length < szLb) (below : List (Tag α) → Option (Option (Tag α)))
    (index ix : Nat) (v : List (Tag α)) :
    selectTags lb (some below) index ix v =
      match v.find? fun t => t.Named lb with
      | none => some none
      | some t => below t.child := by
  induction v with
  | nil => rfl
  | cons t ts ih =>
    rw [selectTags, isNamed_short noZero short]
    by_cases same : t.Named lb
    · rw [decide_eq_true same, List.find?_cons_of_pos (by simpa using same)]
    · rw [decide_eq_false same, List.find?_cons_of_neg (by simpa using same)]
      exact ih

/-- Nothing has a name that fills `_lb`, and a name that begins like it is a trap. -/
theorem selectTags_full (noZero : 0 ∉ lb) (full : lb.length = szLb) (below : Option (List (Tag α) → Option (Option (Tag α))))
    (index ix : Nat) (v : List (Tag α)) :
    ((∀ t ∈ v, ¬ t.Begins lb) → selectTags lb below index ix v = some none) ∧
      (¬ (∀ t ∈ v, ¬ t.Begins lb) → selectTags lb below index ix v = none) := by
  induction v with
  | nil => exact ⟨fun _ => rfl, fun some => absurd (fun _ member => absurd member List.not_mem_nil) some⟩
  | cons t ts ih =>
    obtain ⟨trap, other⟩ := isNamed_full (t := t) noZero full
    rw [List.forall_mem_cons, selectTags.eq_def]
    dsimp only
    by_cases begins : t.Begins lb
    · rw [trap begins]
      exact ⟨fun none => absurd begins none.1, fun _ => rfl⟩
    · rw [other begins]
      exact ⟨fun none => ih.1 none.2, fun some => ih.2 fun none => some ⟨begins, none⟩⟩

end Loop

theorem Tag.Named.begins {t : Tag α} {n : List Byte} (named : t.Named n) : t.Begins n := by
  obtain ⟨name, same, bytes⟩ := Option.map_eq_some_iff.mp named
  exact ⟨name, same, .inl (bytes ▸ List.prefix_refl _)⟩

/-- Where no tag has the first name of a path, the path leads nowhere. -/
theorem firstBranch_none {n : List Byte} {v : List (Tag α)} (path : List (List Byte))
    (none_found : (v.find? fun t => t.Named n) = none) : firstBranch (n :: path) v = [] := by
  cases path with
  | nil =>
    rw [firstBranch, List.filter_eq_nil_iff]
    exact List.find?_eq_none.mp none_found
  | cons m rest => rw [firstBranch, none_found]

/-- `_select` finds by index what is in the first branch, and gets stuck if a name does not fit. -/
theorem selectPath_eq {fuel : Nat} {xpath : List Byte} (noZero : 0 ∉ xpath) (enough : xpath.length < fuel)
    (v : List (Tag α)) (index : Nat) :
    (Fits (segments xpath) v → selectPath fuel xpath v index = some (firstBranch (segments xpath) v)[index]?) ∧
      (¬ Fits (segments xpath) v → selectPath fuel xpath v index = none) := by
  induction fuel generalizing xpath v with
  | zero => omega
  | succ fuel ih =>
    rw [segments_eq, selectPath]
    have noZeroLb := lbOf_noZero noZero
    generalize lbOf xpath = lb at noZeroLb
    by_cases long : lb.length > szLb
    · rw [if_pos long]
      exact ⟨fun fits => absurd fits.1 (by omega), fun _ => rfl⟩
    rw [if_neg long, Fits]
    by_cases full : lb.length = szLb
    · obtain ⟨passes, trapped⟩ := selectTags_full noZeroLb full
        ((restOf xpath).map fun rest child => selectPath fuel rest child index) index 0 v
      by_cases free : ∀ t ∈ v, ¬ t.Begins lb
      · have nothing : (v.find? fun t => t.Named lb) = none :=
          List.find?_eq_none.mpr fun t member named => free t member (Tag.Named.begins (by simpa using named))
        rw [passes free, firstBranch_none _ nothing, nothing]
        exact ⟨fun _ => rfl, fun unfit => absurd ⟨by omega, fun _ => free, trivial⟩ unfit⟩
      · exact ⟨fun fits => absurd (fits.2.1 full) free, fun _ => trapped free⟩
    · have short : lb.length < szLb := by omega
      cases more : restOf xpath with
      | none =>
        simp only [Option.map_none, Option.getD_none]
        rw [selectTags_last noZeroLb short index 0 (Nat.zero_le _), Nat.sub_zero]
        refine ⟨fun _ => rfl, fun unfit => absurd ⟨by omega, fun none => absurd none full, ?_⟩ unfit⟩
        split
        · trivial
        · trivial
      | some rest =>
        simp only [Option.map_some, Option.getD_some]
        rw [selectTags_below noZeroLb short]
        have less := restOf_length more
        obtain ⟨m, ms, names⟩ := List.exists_cons_of_ne_nil (segments_ne_nil rest)
        cases found : v.find? fun t => t.Named lb with
        | none =>
          rw [names, firstBranch, found]
          exact ⟨fun _ => rfl, fun unfit => absurd ⟨by omega, fun none => absurd none full, trivial⟩ unfit⟩
        | some t =>
          obtain ⟨fit, unfit⟩ := ih (restOf_noZero noZero more) (by omega) t.child
          rw [names] at fit unfit ⊢
          rw [firstBranch, found]
          exact ⟨fun fits => fit fits.2.2,
            fun not_fits => unfit fun fits => not_fits ⟨by omega, fun none => absurd none full, fits⟩⟩

/-- The first branch is the beginning of what the path leads to. -/
theorem firstBranch_prefix (path : List (List Byte)) (v : List (Tag α)) : firstBranch path v <+: matching path v := by
  induction path generalizing v with
  | nil => exact List.prefix_refl _
  | cons n rest ih =>
    cases rest with
    | nil => exact List.prefix_refl _
    | cons m rest =>
      rw [firstBranch, matching]
      cases found : v.find? fun t => t.Named n with
      | none => exact List.nil_prefix
      | some t =>
        -- the tag that is found is the first of those that are kept
        have kept : ∃ ts, v.filter (fun t => t.Named n) = t :: ts := by
          rw [← List.head?_filter] at found
          obtain ⟨ts, split⟩ := List.head?_eq_some_iff.mp found
          exact ⟨ts, split⟩
        obtain ⟨ts, split⟩ := kept
        rw [split, List.flatMap_cons]
        exact (ih t.child).trans (List.prefix_append _ _)

/-- `select` finds a tag of the path by its index among all of them exactly if the names fit, and the first branch has the
tag or the path has none with the index. -/
theorem select_iff (xpath : Chars) (v : List (Tag α)) (index : Nat) :
    select xpath v index = some (matching (segments xpath.bytes) v)[index]? ↔
      Fits (segments xpath.bytes) v ∧ InFirstBranch (segments xpath.bytes) v index := by
  obtain ⟨fit, unfit⟩ := selectPath_eq xpath.noZero (Nat.lt_succ_self xpath.bytes.length) v index
  obtain ⟨others, split⟩ := firstBranch_prefix (segments xpath.bytes) v
  rw [select, InFirstBranch]
  by_cases fits : Fits (segments xpath.bytes) v
  · rw [fit fits, ← split]
    simp only [fits, true_and, Option.some.injEq]
    by_cases branch : index < (firstBranch (segments xpath.bytes) v).length
    · rw [List.getElem?_append_left branch]
      exact ⟨fun _ => .inl branch, fun _ => rfl⟩
    · rw [List.getElem?_eq_none (Nat.le_of_not_lt branch), eq_comm, List.getElem?_eq_none_iff]
      exact ⟨.inr, fun h => h.resolve_left branch⟩
  · rw [unfit fits]
    constructor
    · intro found
      cases found
    · rintro ⟨h, _⟩
      exact absurd h fits

/-- Two tags `a`, of which the second has a tag `b`: the path "a/b" finds nothing. -/
theorem second_branch_not_found :
    let a : Chars := ⟨[0x61], by decide⟩
    let b : Chars := ⟨[0x62], by decide⟩
    let path : Chars := ⟨[0x61, slash, 0x62], by decide⟩
    let v : List (Tag Nat) := [.mk 0 (some a) [], .mk 1 (some a) [.mk 2 (some b) []]]
    select path v 0 ≠ some (matching (segments path.bytes) v)[0]? := by
  intro a b path v found
  have labels := congrArg (Option.map (Option.map Tag.label)) found
  revert labels
  decide +kernel

end Select

end PreTeO.Ext.Xml
