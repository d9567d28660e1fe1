import PreTeO.Mgfs3.DirCreate

/-!
# Deleting an entry

The first record of a block is only marked as deleted. Any other record is taken out of the tree and its
space goes to the record before it.
-/

namespace PreTeO.Mgfs3
set_option autoImplicit false
open PreTeO.Lib BinaryTree

/-! ## The first record of a block -/

section Mark

variable {d : Directory} {L : Layout} {t : BinaryTree Position} {p q : Position}

/-- Mark the record at `p`. -/
def Directory.mark (d : Directory) (p : Position) : Directory := d.setFlags p (d.flags p ||| dentryDeleted)

theorem Directory.sameBytes_mark (laid : Laid d L) (hp : L.Has p) (hq : L.Has q) {lo hi : Nat}
    (clear : hi ≤ 4 ∨ 5 ≤ lo ∨ q ≠ p) (inside : hi ≤ d.recordSize q) : SameBytes d (d.mark p) q lo hi := by
  intro i low high
  unfold mark setFlags
  apply byte_write_out
  have header := laid.header hp
  unfold szDirRecord at header
  by_cases here : q = p
  · subst here
    exact Off.parts q (by
      rcases clear with h | h | h
      · omega
      · omega
      · exact absurd rfl h)
  · exact laid.off hp hq here (by omega) (by omega)

theorem Directory.deleted_mark : (d.mark p).Deleted p := by
  have flags : (d.mark p).flags p = d.flags p ||| dentryDeleted := byte_write_in (by decide) (by decide)
  unfold Deleted
  rw [flags]
  intro zero
  have bit := congrArg (fun b : Byte => b.getLsbD 0) zero
  simp [dentryDeleted] at bit

/-- The other records say what they said, and the name of the marked one can still be read. -/
theorem Indexed.entry_mark (h : Indexed d L t) (hp : p ∈ t.inorder) (hq : L.Has q) (ne : q ≠ p) :
    SameEntry d (d.mark p) q := by
  have room := h.laid.room q hq
  have header := h.laid.header hq
  unfold szDirRecord at header
  have same : ∀ lo hi, hi ≤ d.recordSize q → SameBytes d (d.mark p) q lo hi := fun _ _ =>
    Directory.sameBytes_mark h.laid (h.nodes p hp) hq (Or.inr (Or.inr ne))
  exact SameEntry.of_bytes (same 0 2 (by omega)) (same 4 9 (by omega)) (same _ _ room)

theorem Indexed.key_mark (h : Indexed d L t) (hp : p ∈ t.inorder) (hq : L.Has q) : (d.mark p).key q = d.key q := by
  have room := h.laid.room q hq
  have small := Nat.le_of_lt (d.nameSize_lt q)
  refine charsN_congr (h.laid.ends q hq) (fun i hi => ?_) small small
  have same : SameBytes d (d.mark p) q szDirRecord (szDirRecord + d.nameSize q) :=
    Directory.sameBytes_mark h.laid (h.nodes p hp) hq (Or.inr (Or.inl (by decide))) room
  exact same _ (by omega) (by omega)

/-- The marked record keeps its place. -/
theorem Indexed.mark (h : Indexed d L t) (hp : p ∈ t.inorder) (first : p.offset = 0) : Indexed (d.mark p) L t := by
  have hasP := h.nodes p hp
  have same : ∀ q, L.Has q → ∀ lo hi, hi ≤ 4 ∨ 5 ≤ lo ∨ q ≠ p → hi ≤ d.recordSize q →
      SameBytes d (d.mark p) q lo hi := fun q hq _ _ => Directory.sameBytes_mark h.laid hasP hq
  have size : ∀ q, L.Has q → (d.mark p).recordSize q = d.recordSize q := by
    intro q hq
    have header := h.laid.header hq
    unfold szDirRecord at header
    exact (same q hq 2 4 (by omega) (by omega)).read (Nat.le_refl 2) (Nat.le_refl 4)
  have nameSize : ∀ q, L.Has q → (d.mark p).nameSize q = d.nameSize q := by
    intro q hq
    have header := h.laid.header hq
    unfold szDirRecord at header
    exact (same q hq 0 2 (by omega) (by omega)).read (Nat.le_refl 0) (Nat.le_refl 2)
  have name : ∀ q, L.Has q → ∀ i, i < d.nameSize q → (d.mark p).name q i = d.name q i := by
    intro q hq i hi
    have room := h.laid.room q hq
    exact same q hq szDirRecord (szDirRecord + d.nameSize q) (by unfold szDirRecord; omega) room _ (by omega) (by omega)
  have ends : ∀ q, L.Has q → Ends ((d.mark p).name q) ((d.mark p).nameSize q) := by
    intro q hq
    obtain ⟨k, hk, zero⟩ := h.laid.ends q hq
    exact ⟨k, nameSize q hq ▸ hk, (name q hq k hk).trans zero⟩
  have key : ∀ q, L.Has q → (d.mark p).key q = d.key q := fun q hq =>
    charsN_congr (h.laid.ends q hq) (name q hq) (Nat.le_of_lt (d.nameSize_lt q)) (Nat.le_of_lt (d.nameSize_lt q))
  have headerP := h.laid.header hasP
  have insideP := h.laid.inside hasP
  unfold szDirRecord at headerP
  exact {
    small := h.small
    laid := {
      starts := h.laid.starts
      few := h.laid.few
      outside := h.laid.outside
      tiles := fun b hb => (h.laid.tiles b hb).congr fun o ho => size ⟨b, o⟩ ho
      top := Directory.write_top h.laid.top (show p.offset + 4 + 1 ≤ d.unitSize by omega)
      room := fun q hq => by
        rw [nameSize q hq, size q hq]
        exact h.laid.room q hq
      ends := ends }
    nodes := h.nodes
    linked := h.linked.congr fun x hx => by
      have header := h.laid.header (h.nodes x hx)
      unfold szDirRecord at header
      have link := (same x (h.nodes x hx) 9 27 (by omega) (by omega)).link
      exact Directory.same_links link
    ordered := h.ordered.congr fun x hx => key x (h.nodes x hx)
    root := h.root
    sized := h.sized
    tombs := by
      intro x hx dead
      by_cases here : x = p
      · rw [here, first]
      · have header := h.laid.header (h.nodes x hx)
        unfold szDirRecord at header
        have flags : (d.mark p).flags x = d.flags x :=
          same x (h.nodes x hx) 4 5 (Or.inr (Or.inr here)) (by omega) 4 (by omega) (by omega)
        unfold Directory.Deleted at dead
        rw [flags] at dead
        exact h.tombs x hx dead }

end Mark

/-! ## Any other record -/

section Merge

variable {d : Directory} {L : Layout} {t : BinaryTree Position} {p q : Position}

/-- The loop of `dentry_record_delete` walks the records of the block up to the one at `p`, if the unit size it knows of
reaches as far. -/
theorem Directory.previousLoop_spec {o prev fuel : Nat} {l : List Nat}
    (tiles : Tiles (fun x => d.recordSize ⟨p.block, x⟩) o d.unitSize (o :: l)) (mem : p.offset ∈ l)
    (low : p.offset < d.unitSize % 2 ^ 16) (enough : l.length + 1 ≤ fuel) :
    ∃ l1 before l2, o :: l = l1 ++ before :: p.offset :: l2 ∧ d.previousLoop p fuel o prev = some (p.offset, before) := by
  induction l generalizing o prev fuel with
  | nil => cases mem
  | cons x l ih =>
    have ne : o ≠ p.offset := fun equal => (List.nodup_cons.mp tiles.nodup).1 (equal ▸ mem)
    obtain ⟨_, positive, next, positiveX, rest⟩ := tiles
    have startX : x = o + d.recordSize ⟨p.block, o⟩ := next
    have reached : x ≤ p.offset := by
      have later : Tiles (fun x => d.recordSize ⟨p.block, x⟩) x d.unitSize (x :: l) := ⟨rfl, positiveX, startX ▸ rest⟩
      exact (later.bounds mem).1
    have small : d.unitSize % 2 ^ 16 < 2 ^ 16 := Nat.mod_lt _ (by decide)
    rw [List.length_cons] at enough
    obtain ⟨fuel, rfl⟩ : ∃ n, fuel = n + 1 + 1 := ⟨fuel - 2, by omega⟩
    have move : (o + d.recordSize ⟨p.block, o⟩) % 2 ^ 16 = x := by
      rw [← startX]
      exact Nat.mod_eq_of_lt (by omega)
    rw [previousLoop, if_pos ⟨ne, by omega⟩, move]
    by_cases here : x = p.offset
    · refine ⟨[], o, l, by rw [here]; rfl, ?_⟩
      rw [previousLoop, if_neg (fun h => h.1 here), here]
    · have inside : p.offset ∈ l := (List.mem_cons.mp mem).resolve_left fun equal => here equal.symm
      obtain ⟨l1, before, l2, list, loop⟩ : ∃ l1 before l2, x :: l = l1 ++ before :: p.offset :: l2 ∧
          d.previousLoop p (fuel + 1) x o = some (p.offset, before) :=
        ih ⟨rfl, positiveX, startX ▸ rest⟩ inside (by omega)
      exact ⟨o :: l1, before, l2, by rw [list]; rfl, loop⟩

variable {b : Nat}

theorem Directory.sameBytes_merge (laid : Laid d L) (hp : L.Has p) (hb : L.Has ⟨p.block, b⟩) (hq : L.Has q)
    (ne : q ≠ p) {lo hi : Nat} (clear : hi ≤ 2 ∨ 4 ≤ lo ∨ q ≠ ⟨p.block, b⟩) (inside : hi ≤ d.recordSize q) :
    SameBytes d (d.merge p b) q lo hi := by
  intro i low high
  unfold merge setRecordSize store
  have header := laid.header hb
  unfold szDirRecord at header
  have slot : Off p 0 (d.recordSize p) q i 1 := laid.off hp hq ne (by omega) (by omega)
  have size : Off ⟨p.block, b⟩ 2 2 q i 1 := by
    by_cases here : q = ⟨p.block, b⟩
    · rw [here]
      apply Off.parts
      rcases clear with h | h | h
      · omega
      · omega
      · exact absurd here h
    · exact laid.off hb hq here (by omega) (by omega)
  rw [byte_write_out slot, byte_write_out size]

theorem Directory.recordSize_merge (laid : Laid d L) (hp : L.Has p) (hb : L.Has ⟨p.block, b⟩) (ne : ⟨p.block, b⟩ ≠ p)
    (small : d.recordSize ⟨p.block, b⟩ + d.recordSize p < 2 ^ 16) :
    (d.merge p b).recordSize ⟨p.block, b⟩ = d.recordSize ⟨p.block, b⟩ + d.recordSize p := by
  have header := laid.header hb
  unfold szDirRecord at header
  have slot : Off p 0 (d.recordSize p) ⟨p.block, b⟩ 2 2 := laid.off hp hb ne (by omega) (by omega)
  unfold merge setRecordSize
  rw [recordSize_eq]
  simp only []
  rw [read_write_out slot, Nat.mod_eq_of_lt small, read_store]
  omega

/-- The record at `p` is no record any more and its space belongs to the record before it. -/
structure Merged (d : Directory) (L : Layout) (p : Position) (b : Nat) (L' : Layout) : Prop where
  laid : Laid (d.merge p b) L'
  has : ∀ q, L'.Has q ↔ L.Has q ∧ q ≠ p
  entry : ∀ q, L'.Has q → SameEntry d (d.merge p b) q
  link : ∀ q, L'.Has q → ∀ l, (d.merge p b).link l q = d.link l q
  size : ∀ q, L'.Has q →
    (d.merge p b).recordSize q = if q = ⟨p.block, b⟩ then d.recordSize q + d.recordSize p else d.recordSize q

/-- Joining the space of a record with the record before it, where 16 bits hold the sum. -/
theorem Laid.merge (laid : Laid d L) (hp : L.Has p) {l1 l2 : List Nat} (list : L p.block = l1 ++ b :: p.offset :: l2)
    (small : d.recordSize ⟨p.block, b⟩ + d.recordSize p < 2 ^ 16) : ∃ L' : Layout, Merged d L p b L' := by
  have block := laid.hasBlock hp
  have tiles := laid.tiles p.block block
  rw [list] at tiles
  have hb : L.Has ⟨p.block, b⟩ := by
    unfold Layout.Has
    rw [list]
    simp
  have once := tiles.nodup
  have differ : b ≠ p.offset := by
    intro equal
    have := (List.nodup_cons.mp (List.nodup_middle.mp once)).1
    simp [equal] at this
  have ne : (⟨p.block, b⟩ : Position) ≠ p := fun equal => differ (congrArg Position.offset equal)
  let L' : Layout := Function.update L p.block (l1 ++ b :: l2)
  have has : ∀ q, L'.Has q ↔ L.Has q ∧ q ≠ p := by
    intro q
    unfold Layout.Has
    by_cases same : q.block = p.block
    · have here : q ≠ p ↔ q.offset ≠ p.offset := by
        cases p
        cases q
        simp_all
      have gone : p.offset ∉ l1 ++ b :: l2 := by
        rw [← List.singleton_append, ← List.append_assoc, List.nodup_middle, List.append_assoc] at once
        exact (List.nodup_cons.mp once).1
      rw [here, same, list]
      simp only [L', Function.update_self, List.mem_append, List.mem_cons] at gone ⊢
      constructor
      · intro hq
        exact ⟨hq.imp_right fun r => r.imp_right Or.inr, fun equal => gone (equal ▸ hq)⟩
      · rintro ⟨hq, other⟩
        exact hq.imp_right fun r => r.imp_right fun s => s.resolve_left other
    · have here : q ≠ p := fun equal => same (by rw [equal])
      simp only [L', Function.update_of_ne same, ne_eq, here, not_false_eq_true, and_true]
  have bytes : ∀ q, L'.Has q → ∀ lo hi, hi ≤ 2 ∨ 4 ≤ lo ∨ q ≠ ⟨p.block, b⟩ → hi ≤ d.recordSize q →
      SameBytes d (d.merge p b) q lo hi := fun q hq _ _ =>
    Directory.sameBytes_merge laid hp hb ((has q).mp hq).1 ((has q).mp hq).2
  have size : ∀ q, L'.Has q → (d.merge p b).recordSize q =
      if q = ⟨p.block, b⟩ then d.recordSize q + d.recordSize p else d.recordSize q := by
    intro q hq
    split
    · next here =>
      rw [here]
      exact Directory.recordSize_merge laid hp hb ne small
    · next here =>
      have header := laid.header ((has q).mp hq).1
      unfold szDirRecord at header
      exact (bytes q hq 2 4 (Or.inr (Or.inr here)) (by omega)).read (Nat.le_refl 2) (Nat.le_refl 4)
  have entry : ∀ q, L'.Has q → SameEntry d (d.merge p b) q := by
    intro q hq
    have room := laid.room q ((has q).mp hq).1
    unfold szDirRecord at room
    exact SameEntry.of_bytes (bytes q hq 0 2 (by omega) (by omega)) (bytes q hq 4 9 (by omega) (by omega))
      (bytes q hq _ _ (by unfold szDirRecord; omega) (by unfold szDirRecord; omega))
  refine ⟨L', ?_, has, entry, fun q hq => ?_, size⟩
  · exact {
      starts := fun q hq => laid.starts q ((has q).mp hq).1
      few := laid.few
      outside := by
        intro c hc
        have : c ≠ p.block := fun equal => Nat.not_lt.mpr hc (equal ▸ block)
        simp only [L', Function.update_of_ne this]
        exact laid.outside c hc
      tiles := by
        intro c hc
        by_cases same : c = p.block
        · subst same
          have parts : ∀ y ∈ l1 ++ l2, (d.merge p b).recordSize ⟨p.block, y⟩ = d.recordSize ⟨p.block, y⟩ := by
            intro y hy
            have hq : L'.Has ⟨p.block, y⟩ := by
              unfold Layout.Has
              simp only [L', Function.update_self, List.mem_append, List.mem_cons] at hy ⊢
              exact hy.imp_right Or.inr
            rw [size _ hq, if_neg]
            intro equal
            have equal : y = b := congrArg Position.offset equal
            have := (List.nodup_cons.mp (List.nodup_middle.mp once)).1
            simp only [equal, List.mem_append, List.mem_cons] at hy this
            exact this (hy.imp_right Or.inr)
          have hb' : L'.Has ⟨p.block, b⟩ := (has _).mpr ⟨hb, ne⟩
          have whole := size _ hb'
          rw [if_pos rfl] at whole
          simp only [L', Function.update_self]
          exact tiles.merge whole parts
        · simp only [L', Function.update_of_ne same]
          refine (laid.tiles c hc).congr fun o ho => ?_
          have hq : L.Has ⟨c, o⟩ := ho
          have away : (⟨c, o⟩ : Position) ≠ p := fun equal => same (by rw [← equal])
          rw [size _ ((has _).mpr ⟨hq, away⟩), if_neg fun equal => same (congrArg Position.block equal)]
      top := by
        have insideB : b + d.recordSize ⟨p.block, b⟩ ≤ d.unitSize := laid.inside hb
        have insideP := laid.inside hp
        have header := laid.header hb
        unfold szDirRecord at header
        exact Directory.write_top (Directory.write_top laid.top (show b + 2 + 2 ≤ d.unitSize by omega))
          (show p.offset + 0 + d.recordSize p ≤ d.unitSize by omega)
      room := by
        intro q hq
        have room := laid.room q ((has q).mp hq).1
        rw [(entry q hq).nameSize, size q hq]
        split <;> omega
      ends := fun q hq => (entry q hq).ends (laid.ends q ((has q).mp hq).1) }
  · have header := laid.header ((has q).mp hq).1
    unfold szDirRecord at header
    exact (bytes q hq 9 27 (by omega) (by omega)).link

end Merge

/-! ## Taking a record out -/

/-- The records linked into the tree make a search tree whose root is the first record of the first block. -/
structure Treed (d : Directory) (L : Layout) (t : BinaryTree Position) : Prop where
  laid : Laid d L
  nodes : ∀ x ∈ t.inorder, L.Has x
  linked : t.Linked d.links none
  ordered : t.Ordered d.key
  root : t.root? = some ⟨0, 0⟩

/-- The record at `p` is in the tree and the layout no more, the record before it in its block has its space, and the other
records say what they said. -/
structure TakenOut (d d' : Directory) (L L' : Layout) (t t' : BinaryTree Position) (p : Position) (before : Nat) : Prop
    extends Treed d' L' t' where
  unitSize : d'.unitSize = d.unitSize
  dunits : d'.dunits = d.dunits
  sz : d'.sz = d.sz
  has : ∀ q, L'.Has q ↔ L.Has q ∧ q ≠ p
  inorder : ∃ pre post, t.inorder = pre ++ p :: post ∧ t'.inorder = pre ++ post
  entry : ∀ q, L'.Has q → SameEntry d d' q
  size : ∀ q, L'.Has q →
    d'.recordSize q = if q = ⟨p.block, before⟩ then d.recordSize q + d.recordSize p else d.recordSize q

section TakeOut

variable {d : Directory} {L : Layout} {t : BinaryTree Position} {p : Position}

/-- The block of a record that is not its first: the loop finds the record before it. -/
theorem Laid.previous (laid : Laid d L) (hp : L.Has p) (inner : p.offset ≠ 0) (low : p.offset < d.unitSize % 2 ^ 16) :
    ∃ l1 before l2, L p.block = l1 ++ before :: p.offset :: l2 ∧
      d.previousLoop p (d.unitSize + 2) 0 0 = some (p.offset, before) := by
  have tiles := laid.tiles p.block (laid.hasBlock hp)
  have there := hp
  unfold Layout.Has at there
  cases list : L p.block with
  | nil =>
    rw [list] at there
    cases there
  | cons o rest =>
    rw [list] at tiles there
    have start : o = 0 := tiles.1
    subst start
    have enough := tiles.length_le
    rw [List.length_cons] at enough
    exact Directory.previousLoop_spec tiles ((List.mem_cons.mp there).resolve_left inner) low (by omega)

/-- The sizes of neighbours add up within 16 bits, as the unit size the code knows of reaches as far as the second. -/
theorem Laid.sum_lt (laid : Laid d L) (hp : L.Has p) (low : p.offset < d.unitSize % 2 ^ 16) {l1 l2 : List Nat} {b : Nat}
    (list : L p.block = l1 ++ b :: p.offset :: l2) : d.recordSize ⟨p.block, b⟩ + d.recordSize p < 2 ^ 16 := by
  have tiles := laid.tiles p.block (laid.hasBlock hp)
  have inside := laid.inside hp
  have size := d.recordSize_lt p
  have adjacent : p.offset = b + d.recordSize ⟨p.block, b⟩ := by
    rw [list] at tiles
    obtain ⟨_, _, rfl, _, next, _⟩ := Tiles.append.mp tiles
    exact next
  by_cases small : d.unitSize < 2 ^ 16
  · omega
  · -- a record that starts so low is not the last of a block as large as this
    have whole := Nat.div_add_mod d.unitSize (2 ^ 16)
    have above : 2 ^ 16 ≤ 2 ^ 16 * (d.unitSize / 2 ^ 16) := Nat.le_mul_of_pos_right _ (Nat.div_pos (by omega) (by decide))
    have next : L.Has ⟨p.block, p.offset + d.recordSize p⟩ := tiles.next hp (show p.offset + d.recordSize p < _ by omega)
    have start : p.offset + d.recordSize p < 0xffff := laid.starts _ next
    omega

/-- `dentry_record_delete` takes a record out that is not the first of its block. -/
theorem Treed.recordDelete (tree : Treed d L t) (hp : p ∈ t.inorder) (inner : p.offset ≠ 0)
    (low : p.offset < d.unitSize % 2 ^ 16) :
    ∃ (d' : Directory) (L' : Layout) (t' : BinaryTree Position) (l1 l2 : List Nat) (before : Nat),
      L p.block = l1 ++ before :: p.offset :: l2 ∧ d.recordDelete p = some (true, d') ∧
      TakenOut d d' L L' t t' p before := by
  have hasP := tree.nodes p hp
  have other : t.root? ≠ some p := by
    rw [tree.root]
    intro equal
    exact inner (congrArg Position.offset (Option.some.inj equal)).symm
  obtain ⟨l1, before, l2, list, loop⟩ := tree.laid.previous hasP inner low
  obtain ⟨d1, d2, t', detached, attached, relinked, linked, root, pre, post, whole, rest⟩ :=
    Directory.remove_spec tree.laid tree.linked tree.nodes tree.ordered hp other
  have sum := tree.laid.sum_lt hasP low list
  have hasB : L.Has ⟨p.block, before⟩ := by
    unfold Layout.Has
    rw [list]
    simp
  rw [← relinked.recordSize p hasP, ← relinked.recordSize _ hasB] at sum
  obtain ⟨L', merged⟩ := (relinked.laid tree.laid).merge hasP list sum
  have once := tree.ordered.nodup
  rw [whole] at once
  have fresh : p ∉ t'.inorder := by
    rw [rest]
    exact (List.nodup_cons.mp (List.nodup_middle.mp once)).1
  have old : ∀ x ∈ t'.inorder, x ∈ t.inorder := by
    intro x hx
    rw [rest] at hx
    rw [whole]
    simp only [List.mem_append, List.mem_cons] at hx ⊢
    exact hx.imp_right Or.inr
  have nodes : ∀ x ∈ t'.inorder, L'.Has x := fun x hx =>
    (merged.has x).mpr ⟨tree.nodes x (old x hx), fun equal => fresh (equal ▸ hx)⟩
  have entry : ∀ q, L'.Has q → SameEntry d (d2.merge p before) q := fun q hq =>
    (relinked.entry q ((merged.has q).mp hq).1).trans (merged.entry q hq)
  refine ⟨d2.merge p before, L', t', l1, l2, before, list, ?_, ?_⟩
  · rw [Directory.recordDelete, if_pos (tree.laid.hasBlock hasP), if_neg inner, loop]
    simp only [detached, attached, Option.map_some]
    rw [if_pos ⟨low, trivial⟩]
  · exact {
      laid := merged.laid
      nodes := nodes
      linked := linked.congr fun x hx => Directory.same_links (merged.link x (nodes x hx))
      ordered := (tree.ordered.sublist (by rw [whole, rest]; simp)).congr fun x hx =>
        tree.laid.key (tree.nodes x (old x hx)) (entry x (nodes x hx))
      root := root.trans tree.root
      unitSize := relinked.unitSize
      dunits := relinked.dunits
      sz := relinked.sz
      has := merged.has
      inorder := ⟨pre, post, whole, rest⟩
      entry := entry
      size := fun q hq => by
        rw [merged.size q hq, relinked.recordSize q ((merged.has q).mp hq).1, relinked.recordSize p hasP] }

end TakeOut

/-! ## The whole call -/

/-- The record at `p` is live no more, and the others say what they said. -/
structure Withdrawn (d d' : Directory) (t t' : BinaryTree Position) (p : Position) : Prop where
  unitSize : d'.unitSize = d.unitSize
  dunits : d'.dunits = d.dunits
  old : ∀ x ∈ t'.inorder, x ∈ t.inorder ∧ d'.key x = d.key x
  kept : ∀ x ∈ t.inorder, x ≠ p → x ∈ t'.inorder
  entry : ∀ x ∈ t'.inorder, x ≠ p → SameEntry d d' x
  dead : p ∈ t'.inorder → d'.Deleted p

namespace Indexed

variable {d : Directory} {L : Layout} {t : BinaryTree Position} {p : Position} {name : Nat → Byte}

/-- The tree of a directory with records. -/
theorem treed (h : Indexed d L t) (hp : p ∈ t.inorder) : Treed d L t := by
  refine ⟨h.laid, h.nodes, h.linked, h.ordered, ?_⟩
  have block := h.laid.hasBlock (h.nodes p hp)
  have root := h.root
  unfold Directory.HasBlock at block
  rwa [if_neg (by omega)] at root

/-- A record that is not the first of its block leaves the directory. -/
theorem recordDelete (h : Indexed d L t) (hp : p ∈ t.inorder) (inner : p.offset ≠ 0) :
    ∃ (d' : Directory) (L' : Layout) (t' : BinaryTree Position), d.recordDelete p = some (true, d') ∧
      Indexed d' L' t' ∧ (∀ x, x ∈ t.inorder ↔ x ∈ t'.inorder ∨ x = p) ∧ p ∉ t'.inorder ∧
      (∀ x ∈ t'.inorder, SameEntry d d' x) ∧ d'.unitSize = d.unitSize ∧ d'.dunits = d.dunits := by
  have inside := h.laid.inside (h.nodes p hp)
  have header := h.laid.header (h.nodes p hp)
  have small := h.small
  unfold szDirRecord at header
  obtain ⟨d', L', t', _, _, _, _, deleted, out⟩ :=
    (h.treed hp).recordDelete hp inner (by rw [Nat.mod_eq_of_lt small]; omega)
  obtain ⟨pre, post, whole, rest⟩ := out.inorder
  have subset : ∀ x, x ∈ t.inorder ↔ x ∈ t'.inorder ∨ x = p := by
    intro x
    rw [whole, rest]
    simp only [List.mem_append, List.mem_cons]
    simp only [or_comm, or_left_comm]
  have fresh : p ∉ t'.inorder := fun there => ((out.has p).mp (out.nodes p there)).2 rfl
  have used : d'.dunits ≠ 0 := by
    have block := h.laid.hasBlock (h.nodes p hp)
    unfold Directory.HasBlock at block
    rw [out.dunits]
    omega
  refine ⟨d', L', t', deleted, ?_, subset, fresh, fun x hx => out.entry x (out.nodes x hx), out.unitSize, out.dunits⟩
  exact {
    small := out.unitSize ▸ small
    laid := out.laid
    nodes := out.nodes
    linked := out.linked
    ordered := out.ordered
    root := by
      rw [if_neg used]
      exact out.root
    sized := by
      rw [out.sz, out.dunits, out.unitSize]
      exact h.sized
    tombs := fun x hx dead =>
      h.tombs x ((subset x).mpr (Or.inl hx)) ((out.entry x (out.nodes x hx)).deleted.mp dead) }

/-- The first record of a block is marked. -/
theorem recordDelete_first (h : Indexed d L t) (hp : p ∈ t.inorder) (first : p.offset = 0) :
    d.recordDelete p = some (true, d.mark p) := by
  rw [Directory.recordDelete, if_pos (h.laid.hasBlock (h.nodes p hp)), if_pos first]
  rfl

/-- Either way the record is live no more, and the others say what they said. -/
theorem recordDelete_gone (h : Indexed d L t) (hp : p ∈ t.inorder) :
    ∃ (d' : Directory) (L' : Layout) (t' : BinaryTree Position), d.recordDelete p = some (true, d') ∧
      Indexed d' L' t' ∧ Withdrawn d d' t t' p ∧ (p.offset = 0 → t' = t ∧ L' = L) ∧ (p.offset ≠ 0 → p ∉ t'.inorder) := by
  by_cases first : p.offset = 0
  · have has := h.nodes p hp
    refine ⟨_, L, t, h.recordDelete_first hp first, h.mark hp first,
      ⟨rfl, rfl, fun x hx => ⟨hx, ?_⟩, fun x hx _ => hx, ?_, ?_⟩, fun _ => ⟨rfl, rfl⟩, fun inner => absurd first inner⟩
    · exact h.key_mark hp (h.nodes x hx)
    · exact fun x hx ne => h.entry_mark hp (h.nodes x hx) ne
    · exact fun _ => Directory.deleted_mark
  · obtain ⟨d', L', t', deleted, indexed, subset, fresh, same, unitSize, dunits⟩ := h.recordDelete hp first
    have inside : ∀ x ∈ t'.inorder, x ∈ t.inorder := fun x hx => (subset x).mpr (Or.inl hx)
    refine ⟨d', L', t', deleted, indexed,
      ⟨unitSize, dunits, fun x hx => ⟨inside x hx, ?_⟩, fun x hx ne => ?_, fun x hx _ => same x hx,
      fun there => absurd there fresh⟩, fun zero => absurd zero first, fun _ => fresh⟩
    · exact h.laid.key (h.nodes x (inside x hx)) (same x hx)
    · exact ((subset x).mp hx).resolve_right ne

/-- Deleting a live name is deleting its record. -/
theorem delete_live (h : Indexed d L t) (hp : p ∈ t.inorder) (same : d.key p = chars name) (live : ¬ d.Deleted p) :
    d.delete name = d.recordDelete p := by
  obtain ⟨out, find, found, last⟩ := h.find_live (strLen name) hp same live
  rw [Directory.delete, find]
  simp only [found, if_true, last]

theorem delete_missing (h : Indexed d L t) (missing : ∀ x ∈ t.inorder, d.key x ≠ chars name) :
    d.delete name = some (false, d) := by
  obtain ⟨out, find, found, _⟩ := h.find_missing (strLen name) missing
  rw [Directory.delete, find]
  simp only [found, Bool.false_eq_true, if_false]

/-- A returning call keeps the directory a search tree of tiled records. -/
theorem delete_indexed (h : Indexed d L t) {r : Bool} {d' : Directory} (call : d.delete name = some (r, d')) :
    ∃ (L' : Layout) (t' : BinaryTree Position), Indexed d' L' t' := by
  by_cases there : ∃ x ∈ t.inorder, d.key x = chars name
  · obtain ⟨x, hx, same⟩ := there
    by_cases dead : d.Deleted x
    · rw [Directory.delete, h.find_dead _ hx same dead] at call
      cases call
    · rw [h.delete_live hx same dead] at call
      by_cases first : x.offset = 0
      · rw [h.recordDelete_first hx first] at call
        cases call
        exact ⟨L, t, h.mark hx first⟩
      · obtain ⟨d'', L', t', result, indexed, _⟩ := h.recordDelete hx first
        rw [result] at call
        cases call
        exact ⟨L', t', indexed⟩
  · rw [h.delete_missing fun x hx same => there ⟨x, hx, same⟩] at call
    cases call
    exact ⟨L, t, h⟩

end Indexed

end PreTeO.Mgfs3
