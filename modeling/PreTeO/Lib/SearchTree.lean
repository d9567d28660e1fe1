import Mathlib.Data.Tree.Basic
import Mathlib.Data.List.Nodup
import Mathlib.Data.List.Pairwise
import Mathlib.Order.Lattice
import Mathlib.Logic.Function.Basic
import Mathlib.Tactic.Tauto

/-!
# Search trees

Binary trees ordered by a key, their search paths, and the one way a subtree is hung into a tree here:
at the free place the search for a key ends at. A hole is a tree with one subtree missing, so that
every change below a node is a change of what fills a hole.
-/

set_option autoImplicit false

namespace BinaryTree

variable {α κ : Type*}

/-- The nodes from left to right. -/
def inorder : BinaryTree α → List α
  | .nil => []
  | .node a l r => l.inorder ++ a :: r.inorder

def root? : BinaryTree α → Option α
  | .nil => none
  | .node a _ _ => some a

theorem root?_mem {t : BinaryTree α} {a : α} (h : t.root? = some a) : a ∈ t.inorder := by
  cases t with
  | nil => cases h
  | node b l r =>
    cases h
    simp [inorder]

theorem mem_inorder_node {x a : α} {l r : BinaryTree α} :
    x ∈ (node a l r).inorder ↔ x ∈ l.inorder ∨ x = a ∨ x ∈ r.inorder := by
  simp [inorder]

/-! ## Holes -/

/-- A tree with one subtree missing. -/
inductive Hole (α : Type*) where
  | here
  | left (a : α) (hole : Hole α) (r : BinaryTree α)
  | right (a : α) (l : BinaryTree α) (hole : Hole α)

namespace Hole

def fill : Hole α → BinaryTree α → BinaryTree α
  | .here, t => t
  | .left a hole r, t => .node a (hole.fill t) r
  | .right a l hole, t => .node a l (hole.fill t)

/-- The nodes to the left of the hole. -/
def before : Hole α → List α
  | .here => []
  | .left _ hole _ => hole.before
  | .right a l hole => l.inorder ++ a :: hole.before

/-- The nodes to the right of the hole. -/
def after : Hole α → List α
  | .here => []
  | .left a hole r => hole.after ++ a :: r.inorder
  | .right _ _ hole => hole.after

/-- The root of the filled tree, if `root` is the root of what fills the hole. -/
def root? (root : Option α) : Hole α → Option α
  | .here => root
  | .left a _ _ => some a
  | .right a _ _ => some a

theorem inorder_fill (c : Hole α) (t : BinaryTree α) : (c.fill t).inorder = c.before ++ t.inorder ++ c.after := by
  induction c with
  | here => simp [fill, before, after]
  | left a hole r ih => simp [fill, before, after, inorder, ih]
  | right a l hole ih => simp [fill, before, after, inorder, ih]

theorem root?_fill (c : Hole α) (t : BinaryTree α) : (c.fill t).root? = c.root? t.root? := by
  cases c <;> rfl

theorem mem_fill {c : Hole α} {t : BinaryTree α} {x : α} :
    x ∈ (c.fill t).inorder ↔ x ∈ c.before ∨ x ∈ t.inorder ∨ x ∈ c.after := by
  simp [inorder_fill]

end Hole

/-- Every node is the root of the subtree at some place. -/
theorem exists_fill {t : BinaryTree α} {p : α} (h : p ∈ t.inorder) : ∃ (c : Hole α) (l r : BinaryTree α), t = c.fill (node p l r) := by
  induction t with
  | nil => cases h
  | node a l r ihl ihr =>
    rcases mem_inorder_node.mp h with left | rfl | right
    · obtain ⟨c, x, y, rfl⟩ := ihl left
      exact ⟨.left a c r, x, y, rfl⟩
    · exact ⟨.here, l, r, rfl⟩
    · obtain ⟨c, x, y, rfl⟩ := ihr right
      exact ⟨.right a l c, x, y, rfl⟩

/-- The two children of a node. -/
inductive Side where
  | left
  | right
deriving DecidableEq, Repr

def Side.other : Side → Side
  | .left => .right
  | .right => .left

/-- A node with `x` on the given side and `s` on the other. -/
def bud (side : Side) (q : α) (x s : BinaryTree α) : BinaryTree α :=
  match side with
  | .left => .node q x s
  | .right => .node q s x

theorem root?_bud (side : Side) (q : α) (x s : BinaryTree α) : (bud side q x s).root? = some q := by
  cases side <;> rfl

/-- What is on the given side of a node is one stretch of the whole. -/
theorem inorder_fill_bud (c : Hole α) (side : Side) (q : α) (s : BinaryTree α) : ∃ pre post, q ∈ pre ++ post ∧
    ∀ x : BinaryTree α, (c.fill (bud side q x s)).inorder = pre ++ x.inorder ++ post := by
  cases side with
  | left =>
    exact ⟨c.before, q :: s.inorder ++ c.after, by simp, fun x => by simp [Hole.inorder_fill, bud, inorder]⟩
  | right =>
    exact ⟨c.before ++ s.inorder ++ [q], c.after, by simp, fun x => by simp [Hole.inorder_fill, bud, inorder]⟩

theorem nodup_fill_bud {c : Hole α} {side : Side} {q : α} {x s : BinaryTree α}
    (h : (c.fill (bud side q x s)).inorder.Nodup) : (∀ z ∈ x.inorder, z ≠ q ∧ z ∉ s.inorder) ∧
      (∀ z ∈ s.inorder, z ≠ q) ∧ ∀ z ∈ c.before ++ c.after, z ≠ q := by
  classical
  have once := List.nodup_iff_count_le_one.mp h
  have parts : ∀ z, (c.before ++ c.after).count z + x.inorder.count z + s.inorder.count z + [q].count z ≤ 1 := by
    intro z
    have := once z
    rw [Hole.inorder_fill] at this
    cases side <;> simp only [bud, inorder, List.count_append, List.count_cons, List.count_nil] at this ⊢ <;> omega
  refine ⟨fun z hz => ⟨?_, fun hs => ?_⟩, fun z hz => ?_, fun z hz => ?_⟩
  · rintro rfl
    have := parts z
    rw [← List.count_pos_iff] at hz
    simp only [List.count_singleton_self] at this
    omega
  · have := parts z
    rw [← List.count_pos_iff] at hz hs
    omega
  · rintro rfl
    have := parts z
    rw [← List.count_pos_iff] at hz
    simp only [List.count_singleton_self] at this
    omega
  · rintro rfl
    have := parts z
    rw [← List.count_pos_iff] at hz
    simp only [List.count_singleton_self] at this
    omega

/-- Every node but the root is a child of a node. -/
theorem exists_parent {t : BinaryTree α} {p : α} (h : p ∈ t.inorder) (inner : t.root? ≠ some p) :
    ∃ (c : Hole α) (side : Side) (q : α) (l r s : BinaryTree α), t = c.fill (bud side q (node p l r) s) := by
  induction t with
  | nil => cases h
  | node a l r ihl ihr =>
    rcases mem_inorder_node.mp h with left | rfl | right
    · by_cases top : l.root? = some p
      · cases l with
        | nil => cases top
        | node b x y =>
          cases top
          exact ⟨.here, .left, a, x, y, r, rfl⟩
      · obtain ⟨c, side, q, x, y, s, rfl⟩ := ihl left top
        exact ⟨.left a c r, side, q, x, y, s, rfl⟩
    · exact absurd rfl inner
    · by_cases top : r.root? = some p
      · cases r with
        | nil => cases top
        | node b x y =>
          cases top
          exact ⟨.here, .right, a, x, y, l, rfl⟩
      · obtain ⟨c, side, q, x, y, s, rfl⟩ := ihr right top
        exact ⟨.right a l c, side, q, x, y, s, rfl⟩

/-! ## Order -/

section Order

variable [LinearOrder κ] (key : α → κ)

/-- The keys grow from left to right. -/
def Ordered (t : BinaryTree α) : Prop := t.inorder.Pairwise fun a b => key a < key b

variable {key}

theorem ordered_node {a : α} {l r : BinaryTree α} : (node a l r).Ordered key ↔
    l.Ordered key ∧ r.Ordered key ∧ (∀ x ∈ l.inorder, key x < key a) ∧ ∀ x ∈ r.inorder, key a < key x := by
  simp only [Ordered, inorder, List.pairwise_append, List.pairwise_cons, List.mem_cons, forall_eq_or_imp]
  constructor
  · rintro ⟨left, ⟨above, right⟩, cross⟩
    exact ⟨left, right, fun x hx => (cross x hx).1, above⟩
  · rintro ⟨left, right, below, above⟩
    exact ⟨left, ⟨above, right⟩, fun x hx => ⟨below x hx, fun y hy => (below x hx).trans (above y hy)⟩⟩

theorem Ordered.sublist {t t' : BinaryTree α} (h : t.Ordered key) (sub : t'.inorder.Sublist t.inorder) :
    t'.Ordered key := List.Pairwise.sublist sub h

theorem Ordered.nodup {t : BinaryTree α} (h : t.Ordered key) : t.inorder.Nodup :=
  List.Pairwise.imp (fun less same => less.ne (congrArg key same)) h

theorem Ordered.congr {key' : α → κ} {t : BinaryTree α} (h : t.Ordered key)
    (same : ∀ x ∈ t.inorder, key' x = key x) : t.Ordered key' :=
  List.Pairwise.imp_of_mem (fun ha hb less => by rwa [same _ ha, same _ hb]) h

/-- Which side of a node the keys on one of its sides belong to. -/
theorem Ordered.side {side : Side} {q : α} {x s : BinaryTree α} (h : (bud side q x s).Ordered key) {y : α}
    (hy : y ∈ x.inorder) : key y < key q ↔ side = .left := by
  cases side with
  | left => simpa using (ordered_node.mp h).2.2.1 y hy
  | right => simpa using ((ordered_node.mp h).2.2.2 y hy).le

/-- The nodes a search for `k` visits, from the root on. -/
def path (key : α → κ) (k : κ) : BinaryTree α → List α
  | .nil => []
  | .node a l r => a :: if k = key a then [] else if k < key a then l.path key k else r.path key k

theorem path_subset {k : κ} {t : BinaryTree α} {x : α} (h : x ∈ t.path key k) : x ∈ t.inorder := by
  induction t with
  | nil => cases h
  | node a l r ihl ihr =>
    rw [mem_inorder_node]
    rw [path, List.mem_cons] at h
    rcases h with rfl | h
    · exact Or.inr (Or.inl rfl)
    · split at h
      · cases h
      · split at h
        · exact Or.inl (ihl h)
        · exact Or.inr (Or.inr (ihr h))

/-- The last node visited is the one with the key, if there is one. -/
theorem Ordered.path_key {k : κ} {t : BinaryTree α} {x : α} (h : t.Ordered key) (hx : x ∈ t.inorder)
    (same : key x = k) : (t.path key k).getLast? = some x := by
  induction t with
  | nil => cases hx
  | node a l r ihl ihr =>
    obtain ⟨left, right, below, above⟩ := ordered_node.mp h
    rw [path]
    rcases mem_inorder_node.mp hx with here | rfl | here
    · have less := below x here
      rw [same] at less
      rw [if_neg less.ne, if_pos less, List.getLast?_cons, ihl left here, Option.getD_some]
    · rw [if_pos same.symm, List.getLast?_singleton]
    · have more := above x here
      rw [same] at more
      rw [if_neg more.ne', if_neg more.not_gt, List.getLast?_cons, ihr right here, Option.getD_some]

/-- Nodes with the same key are the same. -/
theorem Ordered.key_inj {t : BinaryTree α} (h : t.Ordered key) {x y : α} (hx : x ∈ t.inorder)
    (hy : y ∈ t.inorder) (same : key x = key y) : x = y :=
  Option.some.inj ((h.path_key hx same).symm.trans (h.path_key hy rfl))

/-- The last node a fruitless search visits is a neighbour of the key: every other node is on the same
side of both. -/
theorem Ordered.path_neighbour {k : κ} {t : BinaryTree α} {z : α} (h : t.Ordered key)
    (missing : ∀ x ∈ t.inorder, key x ≠ k) (last : (t.path key k).getLast? = some z) :
    ∀ x ∈ t.inorder, x ≠ z → (k < key x ↔ key z < key x) := by
  induction t with
  | nil => cases last
  | node a l r ihl ihr =>
    obtain ⟨left, right, below, above⟩ := ordered_node.mp h
    have differs := missing a (mem_inorder_node.mpr (Or.inr (Or.inl rfl)))
    rw [path, if_neg differs.symm, List.getLast?_cons] at last
    intro x hx ne
    by_cases less : k < key a
    · rw [if_pos less] at last
      cases tail : (l.path key k).getLast? with
      | none =>
        -- the search ends at `a`, whose left side is empty
        rw [tail, Option.getD_none] at last
        cases last
        have empty : l = .nil := by
          cases l with
          | nil => rfl
          | node b x y =>
            rw [path, List.getLast?_cons] at tail
            cases tail
        subst empty
        rcases mem_inorder_node.mp hx with here | same | here
        · cases here
        · exact absurd same ne
        · exact ⟨fun _ => above x here, fun _ => less.trans (above x here)⟩
      | some y =>
        rw [tail, Option.getD_some] at last
        cases last
        have inside := path_subset (List.mem_of_getLast? tail)
        rcases mem_inorder_node.mp hx with here | rfl | here
        · exact ihl left (fun w hw => missing w (mem_inorder_node.mpr (Or.inl hw))) tail x here ne
        · exact ⟨fun _ => below z inside, fun _ => less⟩
        · exact ⟨fun _ => (below z inside).trans (above x here), fun _ => less.trans (above x here)⟩
    · have more : key a < k := lt_of_le_of_ne (not_lt.mp less) differs
      rw [if_neg less] at last
      cases tail : (r.path key k).getLast? with
      | none =>
        rw [tail, Option.getD_none] at last
        cases last
        have empty : r = .nil := by
          cases r with
          | nil => rfl
          | node b x y =>
            rw [path, List.getLast?_cons] at tail
            cases tail
        subst empty
        rcases mem_inorder_node.mp hx with here | same | here
        · exact ⟨fun f => absurd (f.trans (below x here)) less, fun f => absurd (f.trans (below x here)) (lt_irrefl _)⟩
        · exact absurd same ne
        · cases here
      | some y =>
        rw [tail, Option.getD_some] at last
        cases last
        have inside := path_subset (List.mem_of_getLast? tail)
        rcases mem_inorder_node.mp hx with here | rfl | here
        · exact ⟨fun f => absurd (f.trans (below x here)) less,
            fun f => absurd ((above z inside).trans f) (below x here).not_gt⟩
        · exact ⟨fun f => absurd f less, fun f => absurd (above z inside) f.not_gt⟩
        · exact ihr right (fun w hw => missing w (mem_inorder_node.mpr (Or.inr (Or.inr hw)))) tail x here ne

/-! ## Hanging in a subtree -/

/-- Hang `s` into the tree at the free place the search for `k` ends at. -/
def graft (key : α → κ) (k : κ) : BinaryTree α → BinaryTree α → BinaryTree α
  | .nil, s => s
  | .node a l r, s => if k < key a then .node a (l.graft key k s) r else .node a l (r.graft key k s)

/-- Keys to the left of the hole are below `k`, keys to the right above it. -/
def Hole.Leads (key : α → κ) (k : κ) : Hole α → Prop
  | .here => True
  | .left a hole _ => k < key a ∧ hole.Leads key k
  | .right a _ hole => ¬ k < key a ∧ hole.Leads key k

theorem graft_fill {k : κ} {c : Hole α} (leads : c.Leads key k) (s t : BinaryTree α) :
    (c.fill t).graft key k s = c.fill (t.graft key k s) := by
  induction c with
  | here => rfl
  | left a hole r ih => simp only [Hole.fill, graft, if_pos leads.1, ih leads.2]
  | right a l hole ih => simp only [Hole.fill, graft, if_neg leads.1, ih leads.2]

/-- The hole leads to every key on the same side of its surroundings as a node in it. -/
theorem Ordered.leads {k : κ} {c : Hole α} {t : BinaryTree α} {z : α} (h : (c.fill t).Ordered key)
    (hz : z ∈ t.inorder) (side : ∀ x ∈ c.before ++ c.after, (k < key x ↔ key z < key x)) : c.Leads key k := by
  induction c with
  | here => trivial
  | left a hole r ih =>
    obtain ⟨left, _, below, _⟩ := ordered_node.mp h
    refine ⟨(side a ?_).mpr (below z ?_), ih left fun x hx => side x ?_⟩
    · simp [Hole.before, Hole.after]
    · simp [Hole.mem_fill, hz]
    · simp only [Hole.before, Hole.after, List.mem_append, List.mem_cons] at hx ⊢
      tauto
  | right a l hole ih =>
    obtain ⟨_, right, _, above⟩ := ordered_node.mp h
    refine ⟨fun less => ?_, ih right fun x hx => side x ?_⟩
    · have := above z (by simp [Hole.mem_fill, hz])
      exact absurd ((side a (by simp [Hole.before, Hole.after])).mp less) this.not_gt
    · simp only [Hole.before, Hole.after, List.mem_append, List.mem_cons] at hx ⊢
      tauto

/-- Where the new nodes are: between the smaller and the larger keys. -/
theorem Ordered.graft_split {k : κ} {t : BinaryTree α} (h : t.Ordered key)
    (missing : ∀ x ∈ t.inorder, key x ≠ k) (s : BinaryTree α) :
    ∃ below above, t.inorder = below ++ above ∧ (t.graft key k s).inorder = below ++ s.inorder ++ above ∧
      (∀ x ∈ below, key x < k) ∧ ∀ x ∈ above, k < key x := by
  induction t with
  | nil => exact ⟨[], [], rfl, by simp [graft], by simp, by simp⟩
  | node a l r ihl ihr =>
    obtain ⟨left, right, under, beyond⟩ := ordered_node.mp h
    have differs := missing a (mem_inorder_node.mpr (Or.inr (Or.inl rfl)))
    by_cases less : k < key a
    · obtain ⟨below, above, split, grafted, small, large⟩ :=
        ihl left fun x hx => missing x (mem_inorder_node.mpr (Or.inl hx))
      refine ⟨below, above ++ a :: r.inorder, by simp [inorder, split], ?_, small, ?_⟩
      · simp [graft, if_pos less, inorder, grafted]
      · intro x hx
        rcases List.mem_append.mp hx with here | here
        · exact large x here
        · rcases List.mem_cons.mp here with rfl | here
          · exact less
          · exact less.trans (beyond x here)
    · have more : key a < k := lt_of_le_of_ne (not_lt.mp less) differs
      obtain ⟨below, above, split, grafted, small, large⟩ :=
        ihr right fun x hx => missing x (mem_inorder_node.mpr (Or.inr (Or.inr hx)))
      refine ⟨l.inorder ++ a :: below, above, by simp [inorder, split], ?_, ?_, large⟩
      · simp [graft, if_neg less, inorder, grafted]
      · intro x hx
        rcases List.mem_append.mp hx with here | here
        · exact (under x here).trans more
        · rcases List.mem_cons.mp here with rfl | here
          · exact more
          · exact small x here

/-- A subtree that lies in one gap between the keys of the tree leaves it ordered. -/
theorem Ordered.graft {s t : BinaryTree α} {p : α} (h : t.Ordered key) (sub : s.Ordered key) (root : s.root? = some p)
    (gap : ∀ x ∈ t.inorder, ∀ y ∈ s.inorder, ∀ z ∈ s.inorder, key x < key y → key x < key z)
    (apart : ∀ x ∈ t.inorder, ∀ y ∈ s.inorder, key x ≠ key y) : (t.graft key (key p) s).Ordered key := by
  have memP := root?_mem root
  obtain ⟨below, above, split, grafted, small, large⟩ := h.graft_split (fun x hx => apart x hx p memP) s
  have memB : ∀ x ∈ below, x ∈ t.inorder := fun x hx => by simp [split, hx]
  have memA : ∀ x ∈ above, x ∈ t.inorder := fun x hx => by simp [split, hx]
  have less : ∀ x ∈ below, ∀ y ∈ s.inorder, key x < key y := fun x hx y hy =>
    gap x (memB x hx) p memP y hy (small x hx)
  have more : ∀ x ∈ above, ∀ y ∈ s.inorder, key y < key x := by
    intro x hx y hy
    rcases lt_trichotomy (key x) (key y) with below | same | above
    · exact absurd (gap x (memA x hx) y hy p memP below) (large x hx).not_gt
    · exact absurd same (apart x (memA x hx) y hy)
    · exact above
  rw [Ordered, split, List.pairwise_append] at h
  rw [Ordered, grafted, List.append_assoc, List.pairwise_append, List.pairwise_append]
  refine ⟨h.1, ⟨sub, h.2.1, fun y hy x hx => more x hx y hy⟩, ?_⟩
  intro x hx y hy
  rcases List.mem_append.mp hy with inside | right
  · exact less x hx y inside
  · exact h.2.2 x hx y right

/-- A new key leaves the tree ordered. -/
theorem Ordered.graft_node {t : BinaryTree α} {p : α} (h : t.Ordered key)
    (missing : ∀ x ∈ t.inorder, key x ≠ key p) : (t.graft key (key p) (.node p .nil .nil)).Ordered key := by
  obtain ⟨below, above, split, grafted, small, large⟩ := h.graft_split missing (.node p .nil .nil)
  rw [Ordered, split, List.pairwise_append] at h
  rw [Ordered, grafted]
  simp only [inorder, List.nil_append, List.pairwise_append, List.pairwise_cons, List.append_assoc,
    List.cons_append, List.mem_cons, forall_eq_or_imp]
  exact ⟨h.1, ⟨large, h.2.1⟩, fun x hx => ⟨small x hx, h.2.2 x hx⟩⟩

theorem mem_graft {k : κ} {s t : BinaryTree α} {x : α} :
    x ∈ (t.graft key k s).inorder ↔ x ∈ t.inorder ∨ x ∈ s.inorder := by
  induction t with
  | nil => simp [graft, inorder]
  | node a l r ihl ihr =>
    rw [graft]
    split
    · rw [mem_inorder_node, mem_inorder_node, ihl]
      simp only [or_assoc, or_comm, or_left_comm]
    · rw [mem_inorder_node, mem_inorder_node, ihr]
      simp only [or_assoc]

/-- A subtree with larger keys goes to the end. -/
theorem inorder_graft_end {k : κ} {t : BinaryTree α} (small : ∀ x ∈ t.inorder, key x < k) (s : BinaryTree α) :
    (t.graft key k s).inorder = t.inorder ++ s.inorder := by
  induction t with
  | nil => simp [graft, inorder]
  | node a l r _ ihr =>
    have less := small a (mem_inorder_node.mpr (Or.inr (Or.inl rfl)))
    rw [graft, if_neg less.not_gt, inorder, ihr fun x hx => small x (mem_inorder_node.mpr (Or.inr (Or.inr hx)))]
    simp [inorder]

end Order

/-! ## Trees of linked cells -/

/-- The links of all cells. -/
structure Links (α : Type*) where
  child : Side → α → Option α
  parent : α → Option α

/-- The cells of the tree are linked as the tree says, and the parent of the root is `q`. -/
def Linked (links : Links α) : Option α → BinaryTree α → Prop
  | _, .nil => True
  | q, .node a l r => links.child .left a = l.root? ∧ links.child .right a = r.root? ∧ links.parent a = q ∧
      l.Linked links (some a) ∧ r.Linked links (some a)

/-- The two kinds of links agree on the cell. -/
def Links.Same (links links' : Links α) (a : α) : Prop :=
  (∀ side, links'.child side a = links.child side a) ∧ links'.parent a = links.parent a

/-- A tree depends on the links of its own cells only. -/
theorem Linked.congr {links links' : Links α} {q : Option α} {t : BinaryTree α} (h : t.Linked links q)
    (same : ∀ a ∈ t.inorder, links.Same links' a) : t.Linked links' q := by
  induction t generalizing q with
  | nil => trivial
  | node a l r ihl ihr =>
    obtain ⟨left, right, parent, linkedL, linkedR⟩ := h
    obtain ⟨child, up⟩ := same a (mem_inorder_node.mpr (Or.inr (Or.inl rfl)))
    refine ⟨(child .left).trans left, (child .right).trans right, up.trans parent, ihl linkedL ?_, ihr linkedR ?_⟩
    · exact fun x hx => same x (mem_inorder_node.mpr (Or.inl hx))
    · exact fun x hx => same x (mem_inorder_node.mpr (Or.inr (Or.inr hx)))

/-- The cells around a hole are linked; `root` is the root of what fills it. -/
def Hole.Linked (links : Links α) (root : Option α) : Option α → Hole α → Prop
  | _, .here => True
  | q, .left a hole r => links.child .left a = hole.root? root ∧ links.child .right a = r.root? ∧
      links.parent a = q ∧ hole.Linked links root (some a) ∧ r.Linked links (some a)
  | q, .right a l hole => links.child .left a = l.root? ∧ links.child .right a = hole.root? root ∧
      links.parent a = q ∧ l.Linked links (some a) ∧ hole.Linked links root (some a)

/-- The cell above the hole. -/
def Hole.parent : Option α → Hole α → Option α
  | q, .here => q
  | _, .left a hole _ => hole.parent (some a)
  | _, .right a _ hole => hole.parent (some a)

theorem linked_fill {links : Links α} {q : Option α} {c : Hole α} {t : BinaryTree α} :
    (c.fill t).Linked links q ↔ c.Linked links t.root? q ∧ t.Linked links (c.parent q) := by
  induction c generalizing q with
  | here => simp [Hole.fill, Hole.Linked, Hole.parent]
  | left a hole r ih =>
    simp only [Hole.fill, Linked, Hole.Linked, Hole.parent, ih, Hole.root?_fill]
    tauto
  | right a l hole ih =>
    simp only [Hole.fill, Linked, Hole.Linked, Hole.parent, ih, Hole.root?_fill]
    tauto

theorem Hole.Linked.congr {links links' : Links α} {root q : Option α} {c : Hole α}
    (h : c.Linked links root q) (same : ∀ a ∈ c.before ++ c.after, links.Same links' a) :
    c.Linked links' root q := by
  induction c generalizing q with
  | here => trivial
  | left a hole r ih =>
    obtain ⟨left, right, parent, linkedC, linkedR⟩ := h
    obtain ⟨child, up⟩ := same a (by simp [before, after])
    refine ⟨(child .left).trans left, (child .right).trans right, up.trans parent, ih linkedC ?_,
      BinaryTree.Linked.congr linkedR ?_⟩
    · intro x hx
      apply same
      simp only [before, after, List.mem_append, List.mem_cons] at hx ⊢
      tauto
    · intro x hx
      apply same
      simp [before, after, hx]
  | right a l hole ih =>
    obtain ⟨left, right, parent, linkedL, linkedC⟩ := h
    obtain ⟨child, up⟩ := same a (by simp [before, after])
    refine ⟨(child .left).trans left, (child .right).trans right, up.trans parent,
      BinaryTree.Linked.congr linkedL ?_, ih linkedC ?_⟩
    · intro x hx
      apply same
      simp [before, after, hx]
    · intro x hx
      apply same
      simp only [before, after, List.mem_append, List.mem_cons] at hx ⊢
      tauto

/-- A change inside the hole that keeps its root. -/
theorem Linked.refill {links links' : Links α} {q : Option α} {c : Hole α} {t t' : BinaryTree α}
    (h : (c.fill t).Linked links q) (root : t'.root? = t.root?)
    (same : ∀ a ∈ c.before ++ c.after, links.Same links' a) (inner : t'.Linked links' (c.parent q)) :
    (c.fill t').Linked links' q := by
  rw [linked_fill] at h ⊢
  rw [root]
  exact ⟨h.1.congr same, inner⟩

theorem linked_bud {links : Links α} {o : Option α} {side : Side} {q : α} {x s : BinaryTree α} :
    (bud side q x s).Linked links o ↔ links.child side q = x.root? ∧ links.child side.other q = s.root? ∧
      links.parent q = o ∧ x.Linked links (some q) ∧ s.Linked links (some q) := by
  cases side <;> simp only [bud, Linked, Side.other]
  tauto

/-- Child links do not leave the tree. -/
theorem Linked.child_mem {links : Links α} {t : BinaryTree α} {o : Option α} {p q : α} {side : Side}
    (linked : t.Linked links o) (hp : p ∈ t.inorder) (link : links.child side p = some q) :
    q ∈ t.inorder := by
  induction t generalizing o with
  | nil => cases hp
  | node a l r ihl ihr =>
    obtain ⟨left, right, _, linkedL, linkedR⟩ := linked
    rcases mem_inorder_node.mp hp with here | rfl | here
    · exact mem_inorder_node.mpr (Or.inl (ihl linkedL here))
    · cases side with
      | left => exact mem_inorder_node.mpr (Or.inl (root?_mem (left.symm.trans link)))
      | right => exact mem_inorder_node.mpr (Or.inr (Or.inr (root?_mem (right.symm.trans link))))
    · exact mem_inorder_node.mpr (Or.inr (Or.inr (ihr linkedR here)))

/-- A subtree put below another cell: only the parent link of its root changes. -/
theorem Linked.move {links links' : Links α} {q q' : Option α} {p : α} {l r : BinaryTree α}
    (h : (node p l r).Linked links q) (nodup : (node p l r).inorder.Nodup)
    (child : ∀ a ∈ (node p l r).inorder, ∀ side, links'.child side a = links.child side a)
    (parent : ∀ a ∈ (node p l r).inorder, a ≠ p → links'.parent a = links.parent a)
    (new : links'.parent p = q') : (node p l r).Linked links' q' := by
  obtain ⟨left, right, _, linkedL, linkedR⟩ := h
  obtain ⟨_, nodupR, disjoint⟩ := List.nodup_append.mp nodup
  have memP : p ∈ (node p l r).inorder := mem_inorder_node.mpr (Or.inr (Or.inl rfl))
  refine ⟨(child p memP .left).trans left, (child p memP .right).trans right, new, linkedL.congr ?_, linkedR.congr ?_⟩
  · intro a ha
    have inside : a ∈ (node p l r).inorder := mem_inorder_node.mpr (Or.inl ha)
    exact ⟨child a inside, parent a inside (disjoint a ha p List.mem_cons_self)⟩
  · intro a ha
    have inside : a ∈ (node p l r).inorder := mem_inorder_node.mpr (Or.inr (Or.inr ha))
    exact ⟨child a inside, parent a inside fun same => (List.nodup_cons.mp nodupR).1 (same ▸ ha)⟩

section Seat

variable [LinearOrder κ] {key : α → κ}

/-- Hang in below the side of the root the key belongs to. -/
theorem graft_bud {k : κ} {side : Side} {q : α} {x s y : BinaryTree α}
    (place : k < key q ↔ side = .left) :
    (bud side q x s).graft key k y = bud side q (x.graft key k y) s := by
  cases side with
  | left => rw [bud, bud, graft, if_pos (place.mpr rfl)]
  | right => rw [bud, bud, graft, if_neg (fun less => nomatch place.mp less)]

/-- The free link the search for `k` ends at. -/
def seat (key : α → κ) (k : κ) : BinaryTree α → Option (α × Side)
  | .nil => none
  | .node a l r =>
    if k < key a then some ((l.seat key k).getD (a, .left)) else some ((r.seat key k).getD (a, .right))

theorem seat_eq_none {k : κ} {t : BinaryTree α} (h : t.seat key k = none) : t = .nil := by
  cases t with
  | nil => rfl
  | node a l r =>
    rw [seat] at h
    split at h <;> cases h

theorem seat_mem {k : κ} {t : BinaryTree α} {z : α} {side : Side} (h : t.seat key k = some (z, side)) :
    z ∈ t.inorder := by
  induction t with
  | nil => cases h
  | node a l r ihl ihr =>
    rw [mem_inorder_node]
    rw [seat] at h
    split at h
    · cases deeper : l.seat key k with
      | none =>
        rw [deeper] at h
        cases h
        exact Or.inr (Or.inl rfl)
      | some x =>
        rw [deeper] at h
        cases h
        exact Or.inl (ihl deeper)
    · cases deeper : r.seat key k with
      | none =>
        rw [deeper] at h
        cases h
        exact Or.inr (Or.inl rfl)
      | some x =>
        rw [deeper] at h
        cases h
        exact Or.inr (Or.inr (ihr deeper))

/-- The place depends on the keys in the tree only. -/
theorem seat_congr {key' : α → κ} {k : κ} {t : BinaryTree α} (same : ∀ x ∈ t.inorder, key' x = key x) :
    t.seat key' k = t.seat key k := by
  induction t with
  | nil => rfl
  | node a l r ihl ihr =>
    rw [seat, seat, same a (mem_inorder_node.mpr (Or.inr (Or.inl rfl))),
      ihl fun x hx => same x (mem_inorder_node.mpr (Or.inl hx)),
      ihr fun x hx => same x (mem_inorder_node.mpr (Or.inr (Or.inr hx)))]

theorem root?_graft {k : κ} {s t : BinaryTree α} (inhabited : t ≠ .nil) : (t.graft key k s).root? = t.root? := by
  cases t with
  | nil => exact absurd rfl inhabited
  | node a l r =>
    rw [graft]
    split <;> rfl

/-- The root below a link after hanging in a subtree there. -/
theorem root?_graft_seat {k : κ} {s t : BinaryTree α} :
    (t.graft key k s).root? = if t.seat key k = none then s.root? else t.root? := by
  cases t with
  | nil => simp [graft, seat]
  | node a l r =>
    have some : (node a l r).seat key k ≠ none := fun none => nomatch seat_eq_none none
    rw [if_neg some, root?_graft (by simp)]

/-- Setting the free link and the parent of the new subtree's root hangs the subtree in. -/
theorem Linked.graft {links links' : Links α} {q : Option α} {k : κ} {s t : BinaryTree α} {z : α} {side : Side}
    (h : t.Linked links q) (nodup : t.inorder.Nodup) (place : t.seat key k = some (z, side))
    (new : links'.child side z = s.root?)
    (other : ∀ a ∈ t.inorder, ∀ sd, (a, sd) ≠ (z, side) → links'.child sd a = links.child sd a)
    (parent : ∀ a ∈ t.inorder, links'.parent a = links.parent a) (sub : s.Linked links' (some z)) :
    (t.graft key k s).Linked links' q := by
  induction t generalizing q with
  | nil => cases place
  | node a l r ihl ihr =>
    obtain ⟨left, right, up, linkedL, linkedR⟩ := h
    obtain ⟨nodupL, nodupR, disjoint⟩ := List.nodup_append.mp nodup
    have apart : ∀ x, x ∈ l.inorder → x ∉ a :: r.inorder := fun x hx hy => disjoint x hx x hy rfl
    obtain ⟨freshR, nodupR⟩ := List.nodup_cons.mp nodupR
    have freshL : a ∉ l.inorder := fun inside => apart a inside List.mem_cons_self
    have memA : a ∈ (node a l r).inorder := mem_inorder_node.mpr (Or.inr (Or.inl rfl))
    have memL : ∀ x ∈ l.inorder, x ∈ (node a l r).inorder := fun x hx => mem_inorder_node.mpr (Or.inl hx)
    have memR : ∀ x ∈ r.inorder, x ∈ (node a l r).inorder := fun x hx => mem_inorder_node.mpr (Or.inr (Or.inr hx))
    have keep : ∀ x, x ∈ (node a l r).inorder → x ≠ z → links.Same links' x := fun x hx ne =>
      ⟨fun sd => other x hx sd fun same => ne (congrArg Prod.fst same), parent x hx⟩
    rw [seat] at place
    rw [BinaryTree.graft]
    split at place
    · next less =>
      rw [if_pos less]
      have untouched : ∀ x ∈ r.inorder, x ≠ z := by
        rintro x hx rfl
        cases deeper : l.seat key k with
        | none =>
          rw [deeper] at place
          cases place
          exact freshR hx
        | some y =>
          rw [deeper] at place
          cases place
          exact apart x (seat_mem deeper) (List.mem_cons_of_mem a hx)
      have same := linkedR.congr fun x hx => keep x (memR x hx) (untouched x hx)
      cases deeper : l.seat key k with
      | none =>
        rw [deeper] at place
        cases place
        cases seat_eq_none deeper
        refine ⟨new, ?_, (parent z memA).trans up, sub, same⟩
        rw [other z memA .right (by simp), right]
      | some y =>
        rw [deeper] at place
        cases place
        have ne : a ≠ z := fun equal => freshL (equal ▸ seat_mem deeper)
        have same_a := keep a memA ne
        refine ⟨?_, (same_a.1 .right).trans right, same_a.2.trans up, ?_, same⟩
        · rw [same_a.1, left, root?_graft_seat, if_neg (by simp [deeper])]
        · exact ihl linkedL nodupL deeper (fun x hx => other x (memL x hx)) fun x hx => parent x (memL x hx)
    · next less =>
      rw [if_neg less]
      have untouched : ∀ x ∈ l.inorder, x ≠ z := by
        rintro x hx rfl
        cases deeper : r.seat key k with
        | none =>
          rw [deeper] at place
          cases place
          exact freshL hx
        | some y =>
          rw [deeper] at place
          cases place
          exact apart x hx (List.mem_cons_of_mem a (seat_mem deeper))
      have same := linkedL.congr fun x hx => keep x (memL x hx) (untouched x hx)
      cases deeper : r.seat key k with
      | none =>
        rw [deeper] at place
        cases place
        cases seat_eq_none deeper
        refine ⟨?_, new, (parent z memA).trans up, same, sub⟩
        rw [other z memA .left (by simp), left]
      | some y =>
        rw [deeper] at place
        cases place
        have ne : a ≠ z := fun equal => freshR (equal ▸ seat_mem deeper)
        have same_a := keep a memA ne
        refine ⟨(same_a.1 .left).trans left, ?_, same_a.2.trans up, same, ?_⟩
        · rw [same_a.1, right, root?_graft_seat, if_neg (by simp [deeper])]
        · exact ihr linkedR nodupR deeper (fun x hx => other x (memR x hx)) fun x hx => parent x (memR x hx)

end Seat

end BinaryTree
