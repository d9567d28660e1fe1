import PreTeO.Mgfs3.DirRun

/-!
# Deleting a record inside a block

`dentry_record_delete` compares the offsets in a block with the low 16 bits of the unit size. It takes a record out if and
only if the record starts below that.
-/

namespace PreTeO.Mgfs3
set_option autoImplicit false
open PreTeO.Lib BinaryTree

/-- The record at `p` is deleted: it is taken out of the tree and of its block, and of the names in order just its name is
missing afterwards. -/
def Directory.DeletesInner (d : Directory) (L : Layout) (t : BinaryTree Position) (p : Position) : Prop :=
  ∃ (d' : Directory) (L' : Layout) (t' : BinaryTree Position) (l1 l2 : List Nat) (before : Nat),
    d.recordDelete p = some (true, d') ∧ L p.block = l1 ++ before :: p.offset :: l2 ∧ TakenOut d d' L L' t t' p before ∧
    t'.inorder.map d'.key = (t.inorder.map d.key).erase (d.key p)

section Inner
variable {d : Directory} {L : Layout} {t : BinaryTree Position} {p : Position}

/-- The loop stops below the unit size it knows of, or the call fails. -/
theorem Directory.recordDelete_low {d' : Directory} (inner : p.offset ≠ 0) (deleted : d.recordDelete p = some (true, d')) :
    p.offset < d.unitSize % 2 ^ 16 := by
  unfold recordDelete at deleted
  split at deleted
  · split at deleted
    · cases deleted
    · next cur prev _ =>
      split at deleted
      · next found => exact found.2 ▸ found.1
      · cases deleted
  · cases deleted

/-- The names of the records in order are those there were without the one taken out. -/
theorem TakenOut.names {d' : Directory} {L' : Layout} {t' : BinaryTree Position} {before : Nat} (tree : Treed d L t)
    (out : TakenOut d d' L L' t t' p before) : t'.inorder.map d'.key = (t.inorder.map d.key).erase (d.key p) := by
  obtain ⟨pre, post, whole, rest⟩ := out.inorder
  have same : ∀ x ∈ t'.inorder, d'.key x = d.key x := fun x hx =>
    tree.laid.key ((out.has x).mp (out.nodes x hx)).1 (out.entry x (out.nodes x hx))
  have before : ∀ x ∈ pre, d.key x < d.key p := by
    have ordered := tree.ordered
    unfold Ordered at ordered
    rw [whole, List.pairwise_append] at ordered
    exact fun x hx => ordered.2.2 x hx p List.mem_cons_self
  have absent : d.key p ∉ pre.map d.key := by
    intro there
    obtain ⟨x, hx, equal⟩ := List.mem_map.mp there
    exact (before x hx).ne equal
  rw [List.map_congr_left same, rest, whole, List.map_append, List.map_append, List.map_cons,
    List.erase_append_right _ absent, List.erase_cons_head]

/-- A record that is not the first of its block is deleted if and only if it starts below the low 16 bits of the unit
size. -/
theorem delete_inner_iff (tree : Treed d L t) (hp : p ∈ t.inorder) (inner : p.offset ≠ 0) :
    d.DeletesInner L t p ↔ p.offset < d.unitSize % 2 ^ 16 := by
  constructor
  · rintro ⟨d', _, _, _, _, _, deleted, _⟩
    exact Directory.recordDelete_low inner deleted
  · intro low
    obtain ⟨d', L', t', l1, l2, before, list, deleted, out⟩ := tree.recordDelete hp inner low
    exact ⟨d', L', t', l1, l2, before, deleted, list, out, out.names tree⟩

end Inner

/-! ## A block of two records -/

/-- A block of two records of the same size, the second one to the right of the first. -/
def pair (half : Nat) : Directory :=
  let d : Directory := { Directory.empty (2 * half) with dunits := 1, sz := 2 * half }
  let d := (d.setRecordSize ⟨0, 0⟩ half).setRecordSize ⟨0, half⟩ half
  let d := (d.fill ⟨0, 0⟩ (Creation.file [97] 7).entry).fill ⟨0, half⟩ (Creation.file [98] 8).entry
  d.hang ⟨0, half⟩ ⟨0, 0⟩ .right

def pairLayout (half : Nat) : Layout := fun b => if b = 0 then [0, half] else []

def pairTree (half : Nat) : BinaryTree Position := .node ⟨0, 0⟩ .nil (.node ⟨0, half⟩ .nil .nil)

/-- What the bytes of the two records say. -/
def PairBytes (half : Nat) : Prop :=
  (∀ o ∈ [0, half], (pair half).recordSize ⟨0, o⟩ = half ∧ (pair half).nameSize ⟨0, o⟩ = 2 ∧
    Ends ((pair half).name ⟨0, o⟩) 2) ∧
  (pair half).top ≤ 2 * half ∧ (pairTree half).inorder.map (pair half).key = [[97, 0], [98, 0]] ∧
  (pair half).links.child .left ⟨0, 0⟩ = none ∧ (pair half).links.child .right ⟨0, 0⟩ = some ⟨0, half⟩ ∧
  (pair half).links.parent ⟨0, 0⟩ = none ∧ (pair half).links.child .left ⟨0, half⟩ = none ∧
  (pair half).links.child .right ⟨0, half⟩ = none ∧ (pair half).links.parent ⟨0, half⟩ = some ⟨0, 0⟩

instance (half : Nat) : Decidable (PairBytes half) := inferInstanceAs (Decidable (_ ∧ _))

theorem pair_treed {half : Nat} (bytes : PairBytes half) (room : 34 ≤ half) (low : half < invalidBlockOffset) :
    Treed (pair half) (pairLayout half) (pairTree half) := by
  obtain ⟨records, top, keys, leftA, rightA, upA, leftB, rightB, upB⟩ := bytes
  have has : ∀ p, (pairLayout half).Has p → p = ⟨0, p.offset⟩ ∧ p.offset ∈ [0, half] := by
    rintro ⟨b, o⟩ there
    unfold Layout.Has pairLayout at there
    dsimp only at there
    split at there
    · next zero => exact ⟨by rw [zero], there⟩
    · cases there
  have laid : Laid (pair half) (pairLayout half) := by
    refine ⟨⟨fun p there => ?_, (by decide : 1 ≤ invalidBlockNumber), fun b past => ?_, fun b inside => ?_, top⟩,
      fun p there => ?_, fun p there => ?_⟩
    · have offset := (has p there).2
      simp only [List.mem_cons, List.not_mem_nil, or_false] at offset
      unfold invalidBlockOffset at *
      omega
    · exact if_neg (Nat.pos_iff_ne_zero.1 past)
    · obtain rfl : b = 0 := Nat.lt_one_iff.1 inside
      have first := (records 0 (by simp)).1
      have second := (records half (by simp)).1
      refine ⟨rfl, by dsimp only; omega, by dsimp only; omega, by dsimp only; omega, ?_⟩
      change 0 + (pair half).recordSize ⟨0, 0⟩ + (pair half).recordSize ⟨0, half⟩ = 2 * half
      omega
    · obtain ⟨same, offset⟩ := has p there
      obtain ⟨size, name, _⟩ := records p.offset offset
      rw [same, size, name]
      exact room
    · obtain ⟨same, offset⟩ := has p there
      obtain ⟨_, name, ends⟩ := records p.offset offset
      rw [same, name]
      exact ends
  refine ⟨laid, fun x there => ?_, ⟨leftA, rightA, upA, trivial, leftB, rightB, upB, trivial, trivial⟩, ?_, rfl⟩
  · have member : x = ⟨0, 0⟩ ∨ x = ⟨0, half⟩ := by simpa [pairTree, inorder] using there
    rcases member with rfl | rfl <;> simp [Layout.Has, pairLayout]
  · unfold Ordered
    rw [← List.pairwise_map, keys]
    decide

theorem delete_inner_pair : (pair 256).DeletesInner (pairLayout 256) (pairTree 256) ⟨0, 256⟩ ↔ 256 < 512 % 2 ^ 16 :=
  delete_inner_iff (d := pair 256) (pair_treed (by decide +kernel) (by decide) (by decide)) (by decide) (by decide)

/-- In a block of 64 KiB the second of two records is not deleted. -/
theorem wide_inner_not_deleted : ∃ (d : Directory) (L : Layout) (t : BinaryTree Position) (p : Position), Treed d L t ∧
    p ∈ t.inorder ∧ p.offset ≠ 0 ∧ d.unitSize = 2 ^ 16 ∧ ¬ d.DeletesInner L t p := by
  refine ⟨pair 32768, pairLayout 32768, pairTree 32768, ⟨0, 32768⟩,
    pair_treed (by decide +kernel) (by decide) (by decide), by decide, by decide, rfl, ?_⟩
  rintro ⟨d', _, _, _, _, _, deleted, _⟩
  exact absurd (Directory.recordDelete_low (by decide) deleted) (by decide)

end PreTeO.Mgfs3
