import Mathlib.Data.Nat.Basic
import Mathlib.Data.List.Perm.Subperm
import PreTeO.Ext.BTree

/-!
# The search tree of the records

The records form a search tree whose links are those of the records. `attach` hangs a subtree in where the search for its
root ends, and the tree stays ordered since the subtree lies in one gap between the keys there. The first part of `del`
cuts a record off and leaves a tree and two such subtrees.
-/

namespace PreTeO.Ext
set_option autoImplicit false
open BinaryTree

namespace BTree

/-- The links of the records, for the tree library. -/
def links (t : BTree) : Links Nat where
  child
    | .left, a => (t.cell a).pl
    | .right, a => (t.cell a).pr
  parent a := (t.cell a).pp

def keyOf (t : BTree) (a : Nat) : Nat := (t.cell a).key

/-- The write of a child link. -/
def withChild (side : Side) (v : Option Nat) (c : Bth) : Bth :=
  match side with
  | .left => { c with pl := v }
  | .right => { c with pr := v }

variable {t : BTree} {T S : BinaryTree Nat} {q q' : Option Nat} {k p : Nat}

theorem deref_live {a : Nat} (live : a ∈ t.live) : t.deref a = some (t.cell a) := if_pos live

theorem write_live {a : Nat} {f : Bth → Bth} (live : a ∈ t.live) :
    t.write a f = some { t with cell := Function.update t.cell a (f (t.cell a)) } := if_pos live

/-! ## The search -/

/-- The search for a key that is there ends at its record. -/
theorem findLoop_found (linked : T.Linked t.links q) (ordered : T.Ordered t.keyOf) (nodes : ∀ x ∈ T.inorder, x ∈ t.live)
    {x start : Nat} (mem : x ∈ T.inorder) (root : T.root? = some start) {n : Nat} (enough : T.inorder.length ≤ n) :
    t.findLoop (t.keyOf x) n start = some (true, x) := by
  induction T generalizing q start n with
  | nil => cases root
  | node a l r ihl ihr =>
    obtain ⟨left, right, -, linkedL, linkedR⟩ := linked
    obtain ⟨orderedL, orderedR, below, above⟩ := ordered_node.mp ordered
    cases root
    rw [inorder, List.length_append, List.length_cons] at enough
    obtain ⟨n, rfl⟩ : ∃ m, n = m + 1 := ⟨n - 1, by omega⟩
    have liveA := deref_live (nodes a (mem_inorder_node.mpr (Or.inr (Or.inl rfl))))
    simp only [findLoop, liveA, Option.bind_eq_bind, Option.bind_some]
    rcases mem_inorder_node.mp mem with here | rfl | here
    · have less : t.keyOf x < (t.cell a).key := below x here
      have go : l.root? = (t.cell a).pl := left.symm
      cases next : l.root? with
      | none =>
        cases l with
        | nil => cases here
        | node => cases next
      | some b =>
        rw [if_neg less.ne, if_pos less, ← go, next]
        exact ihl linkedL orderedL (fun y hy => nodes y (mem_inorder_node.mpr (Or.inl hy))) here next (by omega)
    · rw [if_pos (by rfl)]
    · have more : (t.cell a).key < t.keyOf x := above x here
      have go : r.root? = (t.cell a).pr := right.symm
      cases next : r.root? with
      | none =>
        cases r with
        | nil => cases here
        | node => cases next
      | some b =>
        rw [if_neg more.ne', if_neg more.not_gt, ← go, next]
        exact ihr linkedR orderedR (fun y hy => nodes y (mem_inorder_node.mpr (Or.inr (Or.inr hy)))) here next (by omega)

/-- The search for a key that is missing ends at the free link where it belongs. -/
theorem findLoop_seat (linked : T.Linked t.links q) (nodes : ∀ x ∈ T.inorder, x ∈ t.live)
    (missing : ∀ x ∈ T.inorder, t.keyOf x ≠ k) {start : Nat} (root : T.root? = some start) {n : Nat}
    (enough : T.inorder.length ≤ n) :
    ∃ z side, T.seat t.keyOf k = some (z, side) ∧ t.findLoop k n start = some (false, z) ∧
      t.links.child side z = none ∧ (k < t.keyOf z ↔ side = .left) := by
  induction T generalizing q start n with
  | nil => cases root
  | node a l r ihl ihr =>
    obtain ⟨left, right, -, linkedL, linkedR⟩ := linked
    cases root
    have memA : a ∈ (node a l r).inorder := mem_inorder_node.mpr (Or.inr (Or.inl rfl))
    have differs : k ≠ (t.cell a).key := fun same => missing a memA same.symm
    rw [inorder, List.length_append, List.length_cons] at enough
    obtain ⟨n, rfl⟩ : ∃ m, n = m + 1 := ⟨n - 1, by omega⟩
    simp only [findLoop, deref_live (nodes a memA), Option.bind_eq_bind, Option.bind_some, if_neg differs, seat]
    by_cases less : k < t.keyOf a
    · have go : (t.cell a).pl = l.root? := left
      have below : k < (t.cell a).key := less
      rw [if_pos less, if_pos below, go]
      cases next : l.root? with
      | none =>
        cases l with
        | node => cases next
        | nil => exact ⟨a, .left, rfl, rfl, left, by simp [less]⟩
      | some b =>
        obtain ⟨z, side, place, loop, free, sided⟩ := ihl linkedL
          (fun x hx => nodes x (mem_inorder_node.mpr (Or.inl hx)))
          (fun x hx => missing x (mem_inorder_node.mpr (Or.inl hx))) next (show l.inorder.length ≤ n by omega)
        exact ⟨z, side, by rw [place]; rfl, loop, free, sided⟩
    · have go : (t.cell a).pr = r.root? := right
      have above : ¬ k < (t.cell a).key := less
      rw [if_neg less, if_neg above, go]
      cases next : r.root? with
      | none =>
        cases r with
        | node => cases next
        | nil => exact ⟨a, .right, rfl, rfl, right, by simp [less]⟩
      | some b =>
        obtain ⟨z, side, place, loop, free, sided⟩ := ihr linkedR
          (fun x hx => nodes x (mem_inorder_node.mpr (Or.inr (Or.inr hx))))
          (fun x hx => missing x (mem_inorder_node.mpr (Or.inr (Or.inr hx)))) next (show r.inorder.length ≤ n by omega)
        exact ⟨z, side, by rw [place]; rfl, loop, free, sided⟩

/-! ## Hanging in a subtree -/

/-- Only links differ. -/
structure Relinked (t t' : BTree) : Prop where
  live : t'.live = t.live
  key : t'.keyOf = t.keyOf
  data : ∀ a, (t'.cell a).data = (t.cell a).data

/-- The two writes of `attach`. -/
def hang (t : BTree) (p z : Nat) (side : Side) : BTree :=
  let t : BTree := { t with cell := Function.update t.cell z (withChild side (some p) (t.cell z)) }
  { t with cell := Function.update t.cell p { t.cell p with pp := some z } }

theorem relinked_hang (p z : Nat) (side : Side) : Relinked t (t.hang p z side) := by
  refine ⟨rfl, ?_, ?_⟩
  · funext a
    cases side <;> simp only [hang, keyOf, withChild, Function.update_apply] <;> split <;> split <;> simp_all
  · intro a
    cases side <;> simp only [hang, withChild, Function.update_apply] <;> split <;> split <;> simp_all

theorem child_hang (p z : Nat) (side : Side) : (t.hang p z side).links.child side z = some p := by
  cases side <;> simp only [hang, links, withChild, Function.update_apply] <;> split <;> simp_all

theorem child_hang_of_ne {p z a : Nat} {side sd : Side} (ne : (a, sd) ≠ (z, side)) :
    (t.hang p z side).links.child sd a = t.links.child sd a := by
  cases side <;> cases sd <;> simp only [hang, links, withChild, Function.update_apply] <;> split <;> split <;> simp_all

theorem parent_hang (p z : Nat) (side : Side) : (t.hang p z side).links.parent p = some z := by
  simp [hang, links]

theorem parent_hang_of_ne {p z a : Nat} {side : Side} (ne : a ≠ p) :
    (t.hang p z side).links.parent a = t.links.parent a := by
  cases side <;> simp only [hang, links, withChild, Function.update_apply, if_neg ne] <;> split <;> simp_all

/-- What `attach` does when the search for the key ends at the free link of `z`. -/
theorem attach_hang {parent : Option Nat} {z : Nat} {side : Side} (liveP : p ∈ t.live) (liveZ : z ∈ t.live)
    (search : t.find (t.keyOf p) parent = some (false, some z)) (sided : t.keyOf p < t.keyOf z ↔ side = .left) :
    t.attach p parent = some (t.hang p z side) := by
  have search : t.find (t.cell p).key parent = some (false, some z) := search
  have sided : (t.cell p).key < (t.cell z).key ↔ side = .left := sided
  simp only [attach, deref_live liveP, deref_live liveZ, Option.bind_eq_bind, Option.bind_some, search]
  cases side with
  | left =>
    rw [if_pos (sided.mpr rfl), write_live liveZ, Option.bind_some]
    exact write_live liveP
  | right =>
    rw [if_neg (fun less => nomatch sided.mp less), write_live liveZ, Option.bind_some]
    exact write_live liveP

/-- `attach` hangs a subtree in where the key of its root belongs. -/
theorem attach_graft {parent : Option Nat} {z : Nat} {side : Side} (linked : T.Linked t.links q)
    (sub : S.Linked t.links q') (nodes : ∀ x ∈ T.inorder ++ S.inorder, x ∈ t.live)
    (nodup : (T.inorder ++ S.inorder).Nodup) (rootS : S.root? = some p)
    (place : T.seat t.keyOf (t.keyOf p) = some (z, side)) (sided : t.keyOf p < t.keyOf z ↔ side = .left)
    (search : t.find (t.keyOf p) parent = some (false, some z)) :
    ∃ t', t.attach p parent = some t' ∧ Relinked t t' ∧ t'.first = t.first ∧ (T.graft t.keyOf (t.keyOf p) S).Linked t'.links q ∧
      ∀ x, x ∉ T.inorder → x ≠ p → t.links.Same t'.links x := by
  obtain ⟨nodupT, nodupS, disjoint⟩ := List.nodup_append.mp nodup
  have memP := root?_mem rootS
  have memZ := seat_mem place
  have liveP := nodes p (List.mem_append_right _ memP)
  have liveZ := nodes z (List.mem_append_left _ memZ)
  refine ⟨t.hang p z side, attach_hang liveP liveZ search sided, relinked_hang p z side, rfl, ?_, ?_⟩
  · have awayZ : ∀ x ∈ S.inorder, ∀ sd, (x, sd) ≠ (z, side) := fun x hx sd same =>
      disjoint z memZ x hx (congrArg Prod.fst same).symm
    have moved : S.Linked (t.hang p z side).links (some z) := by
      cases S with
      | nil => cases rootS
      | node a l r =>
        cases rootS
        refine sub.move nodupS (fun x hx sd => child_hang_of_ne (awayZ x hx sd)) ?_ (parent_hang p z side)
        exact fun x hx ne => parent_hang_of_ne ne
    refine linked.graft nodupT place ?_ ?_ ?_ moved
    · rw [child_hang, rootS]
    · exact fun x hx sd ne => child_hang_of_ne ne
    · exact fun x hx => parent_hang_of_ne (disjoint x hx p memP)
  · intro x outside ne
    refine ⟨fun sd => child_hang_of_ne fun same => ?_, parent_hang_of_ne ne⟩
    cases congrArg Prod.fst same
    exact outside memZ

/-! ## The tree of the records -/

/-- The records that the tree links form the search tree `T`. -/
structure Holds (t : BTree) (T : BinaryTree Nat) : Prop where
  linked : T.Linked t.links none
  root : T.root? = t.first
  ordered : T.Ordered t.keyOf
  nodes : ∀ x ∈ T.inorder, x ∈ t.live

theorem Relinked.refl (t : BTree) : Relinked t t := ⟨rfl, rfl, fun _ => rfl⟩

theorem Relinked.trans {t₁ t₂ t₃ : BTree} (h : Relinked t₁ t₂) (h' : Relinked t₂ t₃) : Relinked t₁ t₃ :=
  ⟨h'.live.trans h.live, h'.key.trans h.key, fun a => (h'.data a).trans (h.data a)⟩

theorem Holds.length_le (holds : Holds t T) : T.inorder.length ≤ t.live.length :=
  (List.subperm_of_subset holds.ordered.nodup holds.nodes).length_le

theorem Holds.find_found (holds : Holds t T) {x : Nat} (mem : x ∈ T.inorder) :
    t.find (t.keyOf x) none = some (true, some x) := by
  cases root : T.root? with
  | none =>
    cases T with
    | nil => cases mem
    | node => cases root
  | some a =>
    have first : t.first = some a := holds.root.symm.trans root
    have loop := findLoop_found holds.linked holds.ordered holds.nodes mem root holds.length_le
    simp only [find, first, Option.none_or, loop, Option.map_some]

theorem Holds.find_empty (holds : Holds t .nil) (k : Nat) : t.find k none = some (false, none) := by
  have first : t.first = none := holds.root.symm
  simp only [find, first, Option.none_or]

theorem Holds.find_missing (holds : Holds t T) (inhabited : T ≠ .nil) (missing : ∀ x ∈ T.inorder, t.keyOf x ≠ k) :
    ∃ z side, T.seat t.keyOf k = some (z, side) ∧ t.find k none = some (false, some z) ∧
      t.links.child side z = none ∧ (k < t.keyOf z ↔ side = .left) := by
  cases root : T.root? with
  | none =>
    cases T with
    | nil => exact absurd rfl inhabited
    | node => cases root
  | some a =>
    have first : t.first = some a := holds.root.symm.trans root
    obtain ⟨z, side, place, loop, free, sided⟩ :=
      findLoop_seat holds.linked holds.nodes missing root holds.length_le
    refine ⟨z, side, place, ?_, free, sided⟩
    simp only [find, first, Option.none_or, loop, Option.map_some]

/-- A subtree that is not linked from the tree lies in one gap between its keys. -/
structure Loose (t : BTree) (T S : BinaryTree Nat) (q : Option Nat) : Prop where
  linked : S.Linked t.links q
  ordered : S.Ordered t.keyOf
  nodes : ∀ x ∈ S.inorder, x ∈ t.live
  apart : ∀ x ∈ T.inorder, ∀ y ∈ S.inorder, t.keyOf x ≠ t.keyOf y
  gap : ∀ x ∈ T.inorder, ∀ y ∈ S.inorder, ∀ z ∈ S.inorder, t.keyOf x < t.keyOf y → t.keyOf x < t.keyOf z

theorem Holds.attachIf (holds : Holds t T) (inhabited : T ≠ .nil) (loose : Loose t T S q) :
    ∃ t' T', t.attachIf S.root? = some t' ∧ Relinked t t' ∧ Holds t' T' ∧ T' ≠ .nil ∧
      (∀ x, x ∈ T'.inorder ↔ x ∈ T.inorder ∨ x ∈ S.inorder) ∧
      ∀ x, x ∉ T.inorder → x ∉ S.inorder → t.links.Same t'.links x := by
  cases root : S.root? with
  | none =>
    cases S with
    | node => cases root
    | nil =>
      refine ⟨t, T, rfl, Relinked.refl t, holds, inhabited, ?_, fun x _ _ => ⟨fun _ => rfl, rfl⟩⟩
      simp [inorder]
  | some p =>
    have memP := root?_mem root
    obtain ⟨z, side, place, search, -, sided⟩ := holds.find_missing inhabited fun x hx => loose.apart x hx p memP
    have nodup : (T.inorder ++ S.inorder).Nodup := by
      refine List.nodup_append.mpr ⟨holds.ordered.nodup, loose.ordered.nodup, ?_⟩
      exact fun x hx y hy same => loose.apart x hx y hy (congrArg t.keyOf same)
    have nodes : ∀ x ∈ T.inorder ++ S.inorder, x ∈ t.live := by
      intro x hx
      rcases List.mem_append.mp hx with inside | below
      · exact holds.nodes x inside
      · exact loose.nodes x below
    obtain ⟨t', attached, relinked, first, grafted, same⟩ :=
      attach_graft holds.linked loose.linked nodes nodup root place sided search
    refine ⟨t', T.graft t.keyOf (t.keyOf p) S, attached, relinked, ⟨grafted, ?_, ?_, ?_⟩, ?_, fun x => mem_graft, ?_⟩
    · rw [root?_graft inhabited, holds.root, first]
    · rw [relinked.key]
      exact holds.ordered.graft loose.ordered root loose.gap loose.apart
    · intro x hx
      rw [relinked.live]
      exact nodes x (List.mem_append.mpr (mem_graft.mp hx))
    · intro empty
      have inside : p ∈ (T.graft t.keyOf (t.keyOf p) S).inorder := mem_graft.mpr (Or.inr memP)
      rw [empty] at inside
      cases inside
    · exact fun x outside below => same x outside fun equal => below (equal ▸ memP)

/-! ## Cutting a record off -/

/-- What is left when the record at `p` is cut off: a tree and the two subtrees that are to be hung in. -/
structure Cut (t t' : BTree) (T U L R : BinaryTree Nat) (p : Nat) : Prop where
  returns : t.cut p (t.cell p) = some (L.root?, R.root?, t')
  relinked : Relinked t t'
  holds : Holds t' U
  inhabited : U ≠ .nil
  mem : ∀ x, x ∈ T.inorder ↔ x ∈ U.inorder ∨ x ∈ L.inorder ∨ x = p ∨ x ∈ R.inorder
  left : Loose t' U L (some p)
  right : Loose t' U R (some p)
  less : ∀ x ∈ L.inorder, ∀ y ∈ R.inorder, t.keyOf x < t.keyOf y
  away : p ∉ U.inorder ∧ p ∉ L.inorder ∧ p ∉ R.inorder

theorem Loose.nil (t : BTree) (T : BinaryTree Nat) (q : Option Nat) : Loose t T .nil q :=
  ⟨trivial, List.Pairwise.nil, nofun, nofun, nofun⟩

/-- A part of an ordered tree to the left and the right of a subtree. -/
theorem loose_of_split {t' : BTree} (pre post : List Nat) {U : BinaryTree Nat} (relinked : Relinked t t')
    (ordered : (pre ++ S.inorder ++ post).Pairwise fun a b => t.keyOf a < t.keyOf b)
    (part : ∀ x ∈ U.inorder, x ∈ pre ++ post) (live : ∀ x ∈ S.inorder, x ∈ t.live) (linked : S.Linked t'.links q) :
    Loose t' U S q := by
  rw [List.append_assoc, List.pairwise_append, List.pairwise_append] at ordered
  obtain ⟨-, ⟨inner, -, after⟩, before⟩ := ordered
  have sides : ∀ x ∈ U.inorder, (∀ y ∈ S.inorder, t.keyOf x < t.keyOf y) ∨ ∀ y ∈ S.inorder, t.keyOf y < t.keyOf x := by
    intro x hx
    rcases List.mem_append.mp (part x hx) with below | above
    · exact Or.inl fun y hy => before x below y (List.mem_append_left _ hy)
    · exact Or.inr fun y hy => after y hy x above
  constructor
  · exact linked
  · rw [relinked.key]
    exact inner
  · intro x hx
    rw [relinked.live]
    exact live x hx
  · intro x hx y hy
    rw [relinked.key]
    rcases sides x hx with below | above
    · exact (below y hy).ne
    · exact (above y hy).ne'
  · intro x hx y hy z hz less
    rw [relinked.key] at less ⊢
    rcases sides x hx with below | above
    · exact below z hz
    · exact absurd less (above y hy).not_gt

/-- A record below another one: the link to it is cleared. -/
theorem Holds.cut_inner (holds : Holds t T) (mem : p ∈ T.inorder) (inner : T.root? ≠ some p) :
    ∃ t' U L R, Cut t t' T U L R p := by
  obtain ⟨c, side, q, l, r, s, rfl⟩ := exists_parent mem inner
  obtain ⟨pre, post, memQ, parts⟩ := inorder_fill_bud c side q s
  obtain ⟨-, linkedB⟩ := linked_fill.mp holds.linked
  obtain ⟨down, across, upQ, linkedP, linkedS⟩ := linked_bud.mp linkedB
  obtain ⟨apartP, apartS, apartC⟩ := nodup_fill_bud holds.ordered.nodup
  have memP : p ∈ (node p l r).inorder := root?_mem rfl
  have ordered : (pre ++ (node p l r).inorder ++ post).Pairwise fun a b => t.keyOf a < t.keyOf b := by
    rw [← parts]
    exact holds.ordered
  have nodes := holds.nodes
  rw [parts] at nodes
  have liveQ : q ∈ t.live := by
    apply nodes
    rcases List.mem_append.mp memQ with before | after
    · simp [before]
    · simp [after]
  let t' : BTree := { t with cell := Function.update t.cell q (withChild side none (t.cell q)) }
  have relinked : Relinked t t' := by
    refine ⟨rfl, ?_, ?_⟩
    · funext a
      cases side <;> simp only [t', keyOf, withChild, Function.update_apply] <;> split <;> simp_all
    · intro a
      cases side <;> simp only [t', withChild, Function.update_apply] <;> split <;> simp_all
  have keep : ∀ x, x ≠ q → t.links.Same t'.links x := by
    intro x ne
    refine ⟨fun sd => ?_, ?_⟩
    · cases sd <;> simp only [t', links, Function.update_of_ne ne]
    · simp only [t', links, Function.update_of_ne ne]
  have moved : (node p l r).Linked t'.links (some q) := linkedP.congr fun z hz => keep z (apartP z hz).1
  obtain ⟨leftP, rightP, upP, linkedL, linkedR⟩ := moved
  have returns : t.cut p (t.cell p) = some (l.root?, r.root?, t') := by
    have up : (t.cell p).pp = some q := linkedP.2.2.1
    have ql : (t.cell p).pl = l.root? := linkedP.1
    have qr : (t.cell p).pr = r.root? := linkedP.2.1
    have once : t.links.child side.other q ≠ some p := by
      rw [across]
      exact fun root => (apartP p memP).2 (root?_mem root)
    simp only [BTree.cut, up, deref_live liveQ, Option.bind_eq_bind, Option.bind_some, ql, qr]
    cases side with
    | left =>
      have down : (t.cell q).pl = some p := down
      rw [if_pos down, write_live liveQ, Option.bind_some]
      rfl
    | right =>
      have down : (t.cell q).pr = some p := down
      have once : (t.cell q).pl ≠ some p := once
      rw [if_neg once, if_pos down, write_live liveQ, Option.bind_some]
      rfl
  have rest : (c.fill (bud side q .nil s)).Linked t'.links none := by
    refine holds.linked.refill (by rw [root?_bud, root?_bud]) (fun z hz => keep z (apartC z hz)) ?_
    refine linked_bud.mpr ⟨?_, ?_, ?_, trivial, linkedS.congr fun z hz => keep z (apartS z hz)⟩
    · cases side <;> simp [t', links, withChild, root?]
    · rw [← across]
      cases side <;> simp [t', links, withChild, Side.other]
    · rw [← upQ]
      cases side <;> simp [t', links, withChild]
  have whole : (c.fill (bud side q .nil s)).inorder = pre ++ post := by simp [parts, inorder]
  have inside : ∀ x, x ∈ pre ++ post → x ∈ pre ++ (node p l r).inorder ++ post := by
    intro x hx
    rcases List.mem_append.mp hx with before | after
    · simp [before]
    · simp [after]
  have once := List.nodup_iff_count_le_one.mp (parts (node p l r) ▸ holds.ordered.nodup) p
  simp only [inorder, List.count_append, List.count_cons_self] at once
  refine ⟨t', c.fill (bud side q .nil s), l, r, returns, relinked, ⟨rest, ?_, ?_, ?_⟩, ?_, ?_, ?_, ?_, ?_, ?_⟩
  · change _ = t.first
    rw [← holds.root, Hole.root?_fill, Hole.root?_fill, root?_bud, root?_bud]
  · rw [relinked.key]
    apply holds.ordered.sublist
    rw [whole, parts, List.append_assoc]
    simp
  · intro x hx
    rw [whole] at hx
    exact nodes x (inside x hx)
  · intro empty
    rw [empty] at whole
    simp [inorder] at whole
    simp [whole] at memQ
  · intro x
    rw [parts, whole, inorder]
    simp only [List.mem_append, List.mem_cons]
    simp only [or_assoc, or_comm, or_left_comm]
  · apply loose_of_split pre (p :: r.inorder ++ post) relinked
    · simpa [inorder] using ordered
    · intro x hx
      rw [whole] at hx
      rcases List.mem_append.mp hx with before | after
      · simp [before]
      · simp [after]
    · exact fun x hx => nodes x (by simp [inorder, hx])
    · exact linkedL
  · apply loose_of_split (pre ++ l.inorder ++ [p]) post relinked
    · simpa [inorder] using ordered
    · intro x hx
      rw [whole] at hx
      rcases List.mem_append.mp hx with before | after
      · simp [before]
      · simp [after]
    · exact fun x hx => nodes x (by simp [inorder, hx])
    · exact linkedR
  · intro x hx y hy
    have orderedP : (node p l r).Ordered t.keyOf := by
      refine List.Pairwise.sublist ?_ ordered
      rw [List.append_assoc]
      simp
    obtain ⟨-, -, below, above⟩ := ordered_node.mp orderedP
    exact (below x hx).trans (above y hy)
  · rw [whole]
    simp only [← List.count_pos_iff, List.count_append]
    omega

/-- The record at `b` becomes the first one. -/
def promote (t : BTree) (b : Nat) : BTree :=
  { t with cell := Function.update t.cell b { t.cell b with pp := none }, first := some b }

theorem relinked_promote (b : Nat) : Relinked t (t.promote b) := by
  refine ⟨rfl, ?_, ?_⟩
  · funext a
    simp only [promote, keyOf, Function.update_apply]
    split <;> simp_all
  · intro a
    simp only [promote, Function.update_apply]
    split <;> simp_all

theorem promote_same {a b : Nat} (ne : a ≠ b) : t.links.Same (t.promote b).links a := by
  refine ⟨fun sd => ?_, ?_⟩
  · cases sd <;> simp only [promote, links, Function.update_of_ne ne]
  · simp only [promote, links, Function.update_of_ne ne]

theorem holds_promote {b : Nat} {x y : BinaryTree Nat} (linked : (node b x y).Linked t.links q)
    (ordered : (node b x y).Ordered t.keyOf) (nodes : ∀ a ∈ (node b x y).inorder, a ∈ t.live) :
    Holds (t.promote b) (node b x y) := by
  refine ⟨?_, rfl, ?_, nodes⟩
  · refine linked.move ordered.nodup (fun a _ sd => ?_) (fun a _ ne => (promote_same ne).2) ?_
    · cases sd <;> simp only [promote, links, Function.update_apply] <;> split <;> simp_all
    · simp [promote, links]
  · rw [(relinked_promote b).key]
    exact ordered

/-- The first record, if it is not the only one: one of its children becomes the first. -/
theorem Holds.cut_root (holds : Holds t T) (top : T.root? = some p) (more : T.inorder ≠ [p]) :
    ∃ t' U L R, Cut t t' T U L R p := by
  cases T with
  | nil => cases top
  | node a l r =>
    cases top
    obtain ⟨left, right, up, linkedL, linkedR⟩ := holds.linked
    obtain ⟨orderedL, orderedR, below, above⟩ := ordered_node.mp holds.ordered
    have pl : (t.cell p).pl = l.root? := left
    have pr : (t.cell p).pr = r.root? := right
    have pp : (t.cell p).pp = none := up
    have first : t.first = some p := holds.root.symm
    have nodesL : ∀ x ∈ l.inorder, x ∈ t.live := fun x hx => holds.nodes x (mem_inorder_node.mpr (Or.inl hx))
    have nodesR : ∀ x ∈ r.inorder, x ∈ t.live := fun x hx =>
      holds.nodes x (mem_inorder_node.mpr (Or.inr (Or.inr hx)))
    have awayL : p ∉ l.inorder := fun inside => (below p inside).ne rfl
    have awayR : p ∉ r.inorder := fun inside => (above p inside).ne rfl
    cases r with
    | node b x y =>
      have memB : b ∈ (node b x y).inorder := root?_mem rfl
      have pr : (t.cell p).pr = some b := right
      have relinked := relinked_promote (t := t) b
      refine ⟨t.promote b, node b x y, l, .nil, ?_, relinked, ?_, by simp, ?_, ?_, Loose.nil _ _ _,
        fun _ _ _ inside => absurd inside List.not_mem_nil, ?_⟩
      · simp only [BTree.cut, pp, if_pos first, pr, pl, write_live (nodesR b memB), Option.bind_eq_bind,
          Option.bind_some]
        rfl
      · exact holds_promote linkedR orderedR nodesR
      · intro z
        rw [mem_inorder_node]
        simp only [inorder, List.not_mem_nil, or_false]
        simp only [or_assoc, or_comm, or_left_comm]
      · apply loose_of_split [] (p :: (node b x y).inorder) relinked
        · simpa [inorder, Ordered] using holds.ordered
        · exact fun z hz => List.mem_append_right _ (List.mem_cons_of_mem _ hz)
        · exact nodesL
        · apply linkedL.congr
          rintro z hz
          apply promote_same
          rintro rfl
          exact absurd ((below z hz).trans (above z memB)) (lt_irrefl _)
      · exact ⟨awayR, awayL, List.not_mem_nil⟩
    | nil =>
      cases l with
      | nil => exact absurd rfl more
      | node b x y =>
        have memB : b ∈ (node b x y).inorder := root?_mem rfl
        have pl : (t.cell p).pl = some b := left
        have pr : (t.cell p).pr = none := right
        refine ⟨t.promote b, node b x y, .nil, .nil, ?_, relinked_promote b, ?_, by simp, ?_, Loose.nil _ _ _,
          Loose.nil _ _ _, fun _ inside => absurd inside List.not_mem_nil, ?_⟩
        · simp only [BTree.cut, pp, if_pos first, pr, pl, write_live (nodesL b memB), Option.bind_eq_bind,
            Option.bind_some]
          rfl
        · exact holds_promote linkedL orderedL nodesL
        · intro z
          rw [mem_inorder_node]
          simp only [inorder, List.not_mem_nil, or_false, false_or]
        · exact ⟨awayL, List.not_mem_nil, List.not_mem_nil⟩

theorem Holds.cut (holds : Holds t T) (mem : p ∈ T.inorder) (more : T.inorder ≠ [p]) :
    ∃ t' U L R, Cut t t' T U L R p := by
  by_cases top : T.root? = some p
  · exact holds.cut_root top more
  · exact holds.cut_inner mem top

end BTree
end PreTeO.Ext
