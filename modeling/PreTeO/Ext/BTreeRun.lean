import Mathlib.Algebra.GroupWithZero.Nat
import PreTeO.Ext.BTreeLinks
import PreTeO.Lib.Run

/-!
# The binary tree is a map

Every call does to the search tree of the records what it does to a table from keys to data. Only the deletion of the
last record goes wrong: it follows the left child of that record, which is null.
-/

namespace PreTeO.Ext
set_option autoImplicit false
open PreTeO.Lib BinaryTree

namespace BTree

variable {t : BTree} {T : BinaryTree Nat} {k p : Nat}

/-! ## The calls -/

/-- Deleting a key that is not there changes nothing. -/
theorem Holds.del_missing (holds : Holds t T) (missing : ∀ x ∈ T.inorder, t.keyOf x ≠ k) : t.del k = some t := by
  by_cases empty : T = .nil
  · subst empty
    simp only [del, holds.find_empty k, Option.bind_eq_bind, Option.bind_some]
  · obtain ⟨z, side, -, search, -⟩ := holds.find_missing empty missing
    simp only [del, search, Option.bind_eq_bind, Option.bind_some]

/-- Deleting the last record follows its left child, which is null. -/
theorem Holds.del_only (holds : Holds t T) (only : T.inorder = [p]) : t.del (t.keyOf p) = none := by
  have memP : p ∈ T.inorder := by simp [only]
  have search := holds.find_found memP
  have leaf : T = node p .nil .nil := by
    cases T with
    | nil => cases only
    | node a l r =>
      have length := congrArg List.length only
      simp only [inorder, List.length_append, List.length_cons, List.length_nil] at length
      cases l with
      | node => simp only [inorder, List.length_append, List.length_cons] at length; omega
      | nil =>
        cases r with
        | node => simp only [inorder, List.length_append, List.length_cons] at length; omega
        | nil =>
          cases only
          rfl
  subst leaf
  obtain ⟨left, right, up, -, -⟩ := holds.linked
  have pl : (t.cell p).pl = none := left
  have pr : (t.cell p).pr = none := right
  have pp : (t.cell p).pp = none := up
  have first : t.first = some p := holds.root.symm
  simp only [del, search, deref_live (holds.nodes p memP), BTree.cut, pp, pr, pl, if_pos first, Option.bind_eq_bind,
    Option.bind_some, Option.bind_none]

/-- Deleting any other record takes it out of the tree. -/
theorem Holds.del_found (holds : Holds t T) (mem : p ∈ T.inorder) (more : T.inorder ≠ [p]) :
    ∃ t' T', t.del (t.keyOf p) = some t' ∧ Holds t' T' ∧ t'.live = t.live.erase p ∧ t'.keyOf = t.keyOf ∧
      (∀ a, (t'.cell a).data = (t.cell a).data) ∧ ∀ x, x ∈ T'.inorder ↔ x ∈ T.inorder ∧ x ≠ p := by
  obtain ⟨t₁, U, L, R, cut⟩ := holds.cut mem more
  obtain ⟨awayU, awayL, awayR⟩ := cut.away
  obtain ⟨t₂, T₂, attachedL, relinked₂, holds₂, inhabited₂, mem₂, same₂⟩ := cut.holds.attachIf cut.inhabited cut.left
  have right : Loose t₂ T₂ R (some p) := by
    have keys := relinked₂.key
    have less : ∀ x ∈ L.inorder, ∀ y ∈ R.inorder, t₁.keyOf x < t₁.keyOf y := by
      rw [cut.relinked.key]
      exact cut.less
    constructor
    · refine cut.right.linked.congr fun x hx => same₂ x (fun inside => ?_) fun inside => ?_
      · exact cut.right.apart x inside x hx rfl
      · exact (less x inside x hx).ne rfl
    · rw [keys]
      exact cut.right.ordered
    · rw [relinked₂.live]
      exact cut.right.nodes
    · intro x hx y hy
      rw [keys]
      rcases (mem₂ x).mp hx with inside | inside
      · exact cut.right.apart x inside y hy
      · exact (less x inside y hy).ne
    · intro x hx y hy z hz
      rw [keys]
      rcases (mem₂ x).mp hx with inside | inside
      · exact cut.right.gap x inside y hy z hz
      · exact fun _ => less x inside z hz
  obtain ⟨t₃, T₃, attachedR, relinked₃, holds₃, -, mem₃, -⟩ := holds₂.attachIf inhabited₂ right
  have relinked := (cut.relinked.trans relinked₂).trans relinked₃
  have away : p ∉ T₃.inorder := by
    rw [mem₃, mem₂]
    tauto
  refine ⟨{ t₃ with live := t₃.live.erase p }, T₃, ?_, ⟨holds₃.linked, holds₃.root, holds₃.ordered, ?_⟩, ?_,
    relinked.key, relinked.data, ?_⟩
  · simp only [del, holds.find_found mem, deref_live (holds.nodes p mem), cut.returns, attachedL, attachedR,
      Option.bind_eq_bind, Option.bind_some]
  · intro x hx
    have ne : x ≠ p := fun same => away (same ▸ hx)
    exact (List.mem_erase_of_ne ne).mpr (holds₃.nodes x hx)
  · simp only [relinked.live]
  · intro x
    rw [mem₃, mem₂, cut.mem]
    constructor
    · intro inside
      exact ⟨by tauto, fun same => away ((mem₃ p).mpr (by rw [mem₂, ← same]; exact inside))⟩
    · rintro ⟨inside, ne⟩
      tauto

/-- What `get` returns. -/
theorem Holds.get_found (holds : Holds t T) (mem : p ∈ T.inorder) : t.get (t.keyOf p) = some (some (t.cell p).data) := by
  simp only [get, holds.find_found mem, deref_live (holds.nodes p mem), Option.bind_eq_bind, Option.bind_some]

theorem Holds.get_missing (holds : Holds t T) (missing : ∀ x ∈ T.inorder, t.keyOf x ≠ k) : t.get k = some none := by
  by_cases empty : T = .nil
  · subst empty
    simp only [get, holds.find_empty k, Option.bind_eq_bind, Option.bind_some]
  · obtain ⟨z, side, -, search, -⟩ := holds.find_missing empty missing
    simp only [get, search, Option.bind_eq_bind, Option.bind_some]

variable {makeKey : List Nat → Nat} {data : List Nat}

theorem Holds.add_found (holds : Holds t T) (mem : p ∈ T.inorder) (same : t.keyOf p = makeKey data) (m : Option Nat) :
    t.add makeKey data m = some (makeKey data, t) := by
  have search := holds.find_found mem
  rw [same] at search
  have key : (t.cell p).key = makeKey data := same
  simp only [add, search, deref_live (holds.nodes p mem), Option.bind_eq_bind, Option.bind_some, key]

/-- A new record in memory, not linked. -/
def alloc (t : BTree) (new key : Nat) (data : List Nat) : BTree :=
  { t with live := new :: t.live, cell := Function.update t.cell new ⟨none, none, none, key, data⟩ }

/-- A new record becomes a leaf of the tree. -/
theorem Holds.add_missing (holds : Holds t T) (missing : ∀ x ∈ T.inorder, t.keyOf x ≠ makeKey data) {new : Nat}
    (fresh : new ∉ t.live) :
    ∃ t' T', t.add makeKey data (some new) = some (makeKey data, t') ∧ Holds t' T' ∧ t'.live = new :: t.live ∧
      t'.keyOf = (t.alloc new (makeKey data) data).keyOf ∧
      (∀ a, (t'.cell a).data = ((t.alloc new (makeKey data) data).cell a).data) ∧
      ∀ x, x ∈ T'.inorder ↔ x = new ∨ x ∈ T.inorder := by
  let u := t.alloc new (makeKey data) data
  have outside : ∀ x ∈ T.inorder, x ≠ new := fun x hx same => fresh (same ▸ holds.nodes x hx)
  have cells : ∀ x, x ≠ new → u.cell x = t.cell x := fun x ne => Function.update_of_ne ne _ _
  have keys : ∀ x ∈ T.inorder, u.keyOf x = t.keyOf x := fun x hx => congrArg Bth.key (cells x (outside x hx))
  have leaf : (node new .nil .nil).Linked u.links none := by
    refine ⟨?_, ?_, ?_, trivial, trivial⟩ <;> simp [u, alloc, links, root?]
  have keyNew : u.keyOf new = makeKey data := by simp [u, alloc, keyOf]
  by_cases empty : T = .nil
  · subst empty
    refine ⟨{ u with first := some new }, node new .nil .nil, ?_, ⟨leaf, rfl, ?_, ?_⟩, rfl, rfl, fun _ => rfl, ?_⟩
    · simp only [add, holds.find_empty, Option.bind_eq_bind, Option.bind_some]
      rfl
    · simp [Ordered, inorder]
    · simp [inorder, u, alloc]
    · simp [inorder]
  · obtain ⟨z, side, place, search, free, sided⟩ := holds.find_missing empty missing
    have memZ := seat_mem place
    have keyZ := keys z memZ
    have linked : T.Linked u.links none := by
      apply holds.linked.congr
      intro x hx
      have cell := cells x (outside x hx)
      refine ⟨fun sd => ?_, ?_⟩
      · cases sd <;> simp only [links, cell]
      · simp only [links, cell]
    have nodes : ∀ x ∈ T.inorder ++ (node new .nil .nil).inorder, x ∈ u.live := by
      intro x hx
      rcases List.mem_append.mp hx with inside | here
      · exact List.mem_cons_of_mem _ (holds.nodes x inside)
      · simp only [inorder, List.nil_append, List.mem_singleton] at here
        rw [here]
        exact List.mem_cons_self
    have nodup : (T.inorder ++ (node new .nil .nil).inorder).Nodup := by
      refine List.nodup_append.mpr ⟨holds.ordered.nodup, by simp [inorder], ?_⟩
      intro x hx y hy
      simp only [inorder, List.nil_append, List.mem_singleton] at hy
      rw [hy]
      exact outside x hx
    have place : T.seat u.keyOf (u.keyOf new) = some (z, side) := by
      rw [keyNew, ← place]
      exact seat_congr keys
    have sided : u.keyOf new < u.keyOf z ↔ side = .left := by
      rw [keyNew, keyZ]
      exact sided
    -- the second search begins where the first one ended
    have again : u.find (u.keyOf new) (some z) = some (false, some z) := by
      have liveZ := deref_live (nodes z (List.mem_append_left _ memZ))
      have cellZ := cells z (outside z memZ)
      have differs : u.keyOf new ≠ (u.cell z).key := by
        rw [keyNew]
        exact fun same => missing z memZ (keyZ.symm.trans same.symm)
      have loop : u.findLoop (u.keyOf new) (t.live.length + 1) z = some (false, z) := by
        simp only [findLoop, liveZ, Option.bind_eq_bind, Option.bind_some, if_neg differs]
        cases side with
        | left =>
          have less : u.keyOf new < (u.cell z).key := sided.mpr rfl
          have none : (u.cell z).pl = none := by rw [cellZ]; exact free
          rw [if_pos less, none]
        | right =>
          have more : ¬ u.keyOf new < (u.cell z).key := fun less => by cases sided.mp less
          have none : (u.cell z).pr = none := by rw [cellZ]; exact free
          rw [if_neg more, none]
      have rounds : u.live.length = t.live.length + 1 := rfl
      simp only [find, Option.some_or, rounds, loop, Option.map_some]
    obtain ⟨t', attached, relinked, first, grafted, -⟩ :=
      attach_graft linked leaf nodes nodup rfl place sided again
    refine ⟨t', T.graft u.keyOf (u.keyOf new) (node new .nil .nil), ?_, ⟨grafted, ?_, ?_, ?_⟩, relinked.live,
      relinked.key, relinked.data, ?_⟩
    · have attached : (t.alloc new (makeKey data) data).attach new (some z) = some t' := attached
      simp only [alloc] at attached
      simp only [add, search, Option.bind_eq_bind, Option.bind_some, attached, Option.map_some]
    · rw [root?_graft empty, holds.root, first]
      rfl
    · rw [relinked.key]
      apply (holds.ordered.congr keys).graft_node
      intro x hx
      rw [keyNew, keys x hx]
      exact missing x hx
    · intro x hx
      rw [relinked.live]
      exact nodes x (List.mem_append.mpr (mem_graft.mp hx))
    · intro x
      rw [mem_graft]
      simp only [inorder, List.nil_append, List.mem_singleton]
      simp only [or_comm]

end BTree

/-! ## Runs -/

/-- A table from keys to data. -/
abbrev Table : Type := Nat → Option (List Nat)

/-- The calls on a table: `add` keeps the data that are there. -/
def Table.step (makeKey : List Nat → Nat) (m : Table) : BTreeCall → BTreeRet × Table
  | .add data _ =>
    (.key (makeKey data), if m (makeKey data) = none then Function.update m (makeKey data) (some data) else m)
  | .get key => (.data (m key), m)
  | .del key => (.void, Function.update m key none)

/-- The heap returns memory that is not in use. -/
def BTreeCall.Served (t : BTree) : BTreeCall → Prop
  | .add _ mem => ∃ new, mem = some new ∧ new ∉ t.live
  | _ => True

/-- The call deletes the only record. -/
def BTreeCall.RemovesLast (t : BTree) : BTreeCall → Prop
  | .del key => ∃ p, t.live = [p] ∧ t.keyOf p = key
  | _ => False

/-- The records are the nodes of a linked search tree and hold the table. -/
structure BTree.Represents (t : BTree) (m : Table) (T : BinaryTree Nat) : Prop where
  holds : t.Holds T
  all : ∀ x ∈ t.live, x ∈ T.inorder
  nodup : t.live.Nodup
  table : ∀ k d, m k = some d ↔ ∃ x ∈ t.live, t.keyOf x = k ∧ (t.cell x).data = d

namespace BTree.Represents

variable {t : BTree} {m : Table} {T : BinaryTree Nat} {makeKey : List Nat → Nat} {k : Nat}

theorem missing (rep : t.Represents m T) (absent : m k = none) : ∀ x ∈ T.inorder, t.keyOf x ≠ k := by
  intro x hx same
  have entry := (rep.table k _).mpr ⟨x, rep.holds.nodes x hx, same, rfl⟩
  rw [absent] at entry
  cases entry

theorem found (rep : t.Represents m T) {d : List Nat} (present : m k = some d) :
    ∃ x ∈ T.inorder, t.keyOf x = k ∧ (t.cell x).data = d := by
  obtain ⟨x, live, same, data⟩ := (rep.table k d).mp present
  exact ⟨x, rep.all x live, same, data⟩

theorem add (rep : t.Represents m T) {data : List Nat} {new : Nat} (fresh : new ∉ t.live) :
    ∃ t' T', t.step makeKey (.add data (some new)) = some ((Table.step makeKey m (.add data (some new))).1, t') ∧
      t'.Represents (Table.step makeKey m (.add data (some new))).2 T' := by
  cases entry : m (makeKey data) with
  | some d =>
    obtain ⟨x, mem, same, -⟩ := rep.found entry
    refine ⟨t, T, ?_, ?_⟩
    · simp only [step, rep.holds.add_found mem same, Option.map_some, Table.step]
    · simpa only [Table.step, entry, reduceCtorEq, if_false] using rep
  | none =>
    obtain ⟨t', T', returns, holds, live, keys, datas, nodes⟩ := rep.holds.add_missing (rep.missing entry) fresh
    have keyNew : t'.keyOf new = makeKey data := by
      rw [keys]
      simp only [alloc, keyOf, Function.update_self]
    have dataNew : (t'.cell new).data = data := by simp [datas, alloc]
    have keyOld : ∀ x ∈ t.live, t'.keyOf x = t.keyOf x := fun x hx => by
      have ne : x ≠ new := fun same => fresh (same ▸ hx)
      rw [keys]
      simp only [alloc, keyOf, Function.update_of_ne ne]
    have dataOld : ∀ x ∈ t.live, (t'.cell x).data = (t.cell x).data := fun x hx => by
      have ne : x ≠ new := fun same => fresh (same ▸ hx)
      rw [datas]
      simp only [alloc, Function.update_of_ne ne]
    refine ⟨t', T', ?_, holds, ?_, ?_, ?_⟩
    · simp only [step, returns, Option.map_some, Table.step]
    · intro x hx
      rw [live, List.mem_cons] at hx
      rw [nodes]
      exact hx.imp_right (rep.all x)
    · rw [live]
      exact List.nodup_cons.mpr ⟨fresh, rep.nodup⟩
    · intro k d
      simp only [Table.step, entry, if_true, live, List.mem_cons, exists_eq_or_imp, keyNew, dataNew]
      by_cases here : k = makeKey data
      · subst here
        rw [Function.update_self, Option.some.injEq]
        constructor
        · exact fun same => Or.inl ⟨rfl, same⟩
        · rintro (⟨-, same⟩ | ⟨x, hx, same, -⟩)
          · exact same
          · exact absurd ((keyOld x hx).symm.trans same) (rep.missing entry x (rep.all x hx))
      · rw [Function.update_of_ne here, rep.table k d]
        constructor
        · rintro ⟨x, hx, same, content⟩
          exact Or.inr ⟨x, hx, (keyOld x hx).trans same, (dataOld x hx).trans content⟩
        · rintro (⟨same, -⟩ | ⟨x, hx, same, content⟩)
          · exact absurd same.symm here
          · exact ⟨x, hx, (keyOld x hx).symm.trans same, (dataOld x hx).symm.trans content⟩

theorem get (rep : t.Represents m T) : t.step makeKey (.get k) = some (.data (m k), t) := by
  cases entry : m k with
  | some d =>
    obtain ⟨x, mem, rfl, rfl⟩ := rep.found entry
    simp only [step, rep.holds.get_found mem, Option.map_some]
  | none => simp only [step, rep.holds.get_missing (rep.missing entry), Option.map_some]

theorem only (rep : t.Represents m T) {p : Nat} (one : T.inorder = [p]) : t.live = [p] := by
  have same : ∀ x, x ∈ t.live ↔ x ∈ [p] := by
    intro x
    rw [← one]
    exact ⟨rep.all x, rep.holds.nodes x⟩
  exact List.perm_singleton.mp ((List.perm_ext_iff_of_nodup rep.nodup (List.nodup_singleton p)).mpr same)

theorem del (rep : t.Represents m T) (more : ¬ BTreeCall.RemovesLast t (.del k)) :
    ∃ t' T', t.step makeKey (.del k) = some (.void, t') ∧ t'.Represents (Function.update m k none) T' := by
  cases entry : m k with
  | none =>
    refine ⟨t, T, ?_, ?_⟩
    · simp only [step, rep.holds.del_missing (rep.missing entry), Option.map_some]
    · rw [← entry, Function.update_eq_self]
      exact rep
  | some d =>
    obtain ⟨p, mem, rfl, -⟩ := rep.found entry
    have rest : T.inorder ≠ [p] := fun one => more ⟨p, rep.only one, rfl⟩
    obtain ⟨t', T', returns, holds, live, keys, datas, nodes⟩ := rep.holds.del_found mem rest
    refine ⟨t', T', ?_, holds, ?_, ?_, ?_⟩
    · simp only [step, returns, Option.map_some]
    · intro x hx
      rw [live, rep.nodup.mem_erase_iff] at hx
      exact (nodes x).mpr ⟨rep.all x hx.2, hx.1⟩
    · rw [live]
      exact rep.nodup.erase p
    · intro k d
      simp only [live, rep.nodup.mem_erase_iff, keys, datas]
      by_cases here : k = t.keyOf p
      · subst here
        rw [Function.update_self]
        constructor
        · exact nofun
        · rintro ⟨x, ⟨ne, hx⟩, same, -⟩
          exact absurd (rep.holds.ordered.key_inj (rep.all x hx) mem same) ne
      · rw [Function.update_of_ne here, rep.table k d]
        constructor
        · rintro ⟨x, hx, same, content⟩
          exact ⟨x, ⟨fun equal => here (by rw [← same, equal]), hx⟩, same, content⟩
        · rintro ⟨x, ⟨-, hx⟩, same, content⟩
          exact ⟨x, hx, same, content⟩

/-- One call does to the tree what it does to the table, unless it deletes the last record. -/
theorem step (rep : t.Represents m T) {call : BTreeCall} (served : call.Served t) (more : ¬ call.RemovesLast t) :
    ∃ t' T', t.step makeKey call = some ((Table.step makeKey m call).1, t') ∧
      t'.Represents (Table.step makeKey m call).2 T' := by
  cases call with
  | add data mem =>
    obtain ⟨new, rfl, fresh⟩ := served
    exact rep.add fresh
  | get key => exact ⟨t, T, rep.get, rep⟩
  | del key => exact rep.del more

/-- A call follows a null pointer exactly if it deletes the last record. -/
theorem fails_iff (rep : t.Represents m T) {call : BTreeCall} (served : call.Served t) :
    t.step makeKey call = none ↔ call.RemovesLast t := by
  constructor
  · intro fails
    by_contra more
    obtain ⟨t', -, (returns : t.step makeKey call = _), -⟩ := rep.step served more
    rw [fails] at returns
    cases returns
  · intro last
    cases call with
    | add | get => exact last.elim
    | del key =>
      obtain ⟨p, live, rfl⟩ := last
      have one : T.inorder = [p] := by
        have same : ∀ x, x ∈ T.inorder ↔ x ∈ [p] := by
          intro x
          rw [← live]
          exact ⟨rep.holds.nodes x, rep.all x⟩
        exact List.perm_singleton.mp
          ((List.perm_ext_iff_of_nodup rep.holds.ordered.nodup (List.nodup_singleton p)).mpr same)
      simp only [BTree.step, rep.holds.del_only one, Option.map_none]

end BTree.Represents

/-- A tree after its construction. -/
def emptyTree : BTree := ⟨none, [], fun _ => ⟨none, none, none, 0, []⟩⟩

theorem emptyTree_represents : emptyTree.Represents (fun _ => none) .nil :=
  ⟨⟨trivial, rfl, List.Pairwise.nil, nofun⟩, nofun, List.nodup_nil, by simp [emptyTree]⟩

/-- In every run that does not delete the last record of a tree, the tree is a map; and a call in such a run follows a
null pointer exactly if it does delete the last record. -/
theorem tree_is_map (makeKey : List Nat → Nat) (calls : List BTreeCall)
    (allowed : Allowed (BTree.step makeKey) (fun t call => call.Served t ∧ ¬ call.RemovesLast t) emptyTree calls) :
    ∃ t T, outcome (BTree.step makeKey) emptyTree calls =
        some ((results (Table.step makeKey) (fun _ => none) calls).1, t) ∧
      t.Represents (results (Table.step makeKey) (fun _ => none) calls).2 T ∧
      ∀ call : BTreeCall, call.Served t → (t.step makeKey call = none ↔ call.RemovesLast t) := by
  have sim : ∀ t m (call : BTreeCall), (∃ T, BTree.Represents t m T) → call.Served t ∧ ¬ call.RemovesLast t →
      ∃ t', t.step makeKey call = some ((Table.step makeKey m call).1, t') ∧
        ∃ T, t'.Represents (Table.step makeKey m call).2 T := by
    rintro t m call ⟨T, rep⟩ ⟨served, more⟩
    obtain ⟨t', T', (returns : t.step makeKey call = _), rep'⟩ := rep.step served more
    exact ⟨t', returns, T', rep'⟩
  obtain ⟨t, returns, T, rep⟩ := simulation sim ⟨.nil, emptyTree_represents⟩ calls allowed
  exact ⟨t, T, returns, rep, fun call served => rep.fails_iff served⟩

theorem tree_is_map_two_keys :
    ∃ t T, outcome (BTree.step List.sum) emptyTree [.add [3] (some 8), .add [2, 3] (some 9), .del 3, .get 5] =
        some ([.key 3, .key 5, .void, .data (some [2, 3])], t) ∧
      t.Represents (results (Table.step List.sum) (fun _ => none)
        [.add [3] (some 8), .add [2, 3] (some 9), .del 3, .get 5]).2 T ∧
      ∀ call : BTreeCall, call.Served t → (t.step List.sum call = none ↔ call.RemovesLast t) := by
  apply tree_is_map List.sum [.add [3] (some 8), .add [2, 3] (some 9), .del 3, .get 5]
  refine ⟨⟨⟨8, rfl, by decide⟩, id⟩, fun r t returns => ?_⟩
  cases returns
  refine ⟨⟨⟨9, rfl, by decide⟩, id⟩, fun r t returns => ?_⟩
  cases returns
  refine ⟨⟨trivial, ?_⟩, fun r t returns => ?_⟩
  · rintro ⟨p, live, -⟩
    cases live
  cases returns
  exact ⟨⟨trivial, id⟩, fun _ _ _ => trivial⟩

/-- Deleting the only record of a tree does not return. -/
theorem last_record_not_deleted :
    ¬ ∀ (makeKey : List Nat → Nat) (calls : List BTreeCall),
      Allowed (BTree.step makeKey) (fun t call => call.Served t) emptyTree calls →
      ∃ t, outcome (BTree.step makeKey) emptyTree calls =
        some ((results (Table.step makeKey) (fun _ => none) calls).1, t) := by
  intro all
  have allowed : Allowed (BTree.step List.sum) (fun t call => call.Served t) emptyTree [.add [3] (some 8), .del 3] :=
    ⟨⟨8, rfl, by decide⟩, fun r t _ => ⟨trivial, fun _ _ _ => trivial⟩⟩
  obtain ⟨t, returns⟩ := all List.sum [.add [3] (some 8), .del 3] allowed
  cases returns

end PreTeO.Ext
