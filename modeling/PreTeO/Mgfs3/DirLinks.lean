import PreTeO.Lib.SearchTree
import PreTeO.Mgfs3.DirLayout

/-!
# The links of a directory

The links in the records make a search tree of linked cells. `dentry_record_attach` hangs a subtree in
at the place its name belongs to, and a record is taken out by detaching it and attaching its two
children again below its parent.
-/

namespace PreTeO.Mgfs3
set_option autoImplicit false
open PreTeO.Lib BinaryTree

/-- The record a link leads to. -/
def Position.target (p : Position) : Option Position := if p.block = invalidBlockNumber then none else some p

/-- The link to the child on a side. -/
def Link.child : Side → Link
  | .left => .left
  | .right => .right

def Directory.links (d : Directory) : Links Position where
  child side p := (d.link (.child side) p).target
  parent p := (d.link .parent p).target

theorem Directory.links_child (d : Directory) (side : Side) (p : Position) :
    d.links.child side p = (d.link (.child side) p).target := by
  simp only [Directory.links]

theorem Directory.links_parent (d : Directory) (p : Position) : d.links.parent p = (d.link .parent p).target := by
  simp only [Directory.links]

/-- A record that keeps its links. -/
theorem Directory.same_links {d d' : Directory} {p : Position} (same : ∀ l, d'.link l p = d.link l p) :
    d.links.Same d'.links p := by
  refine ⟨fun side => ?_, ?_⟩
  · rw [links_child, links_child, same]
  · rw [links_parent, links_parent, same]

@[simp] theorem Position.target_invalid : Position.invalid.target = none := rfl

/-- A record without links. -/
theorem Directory.linked_single {d : Directory} {p : Position} (single : ∀ l, d.link l p = .invalid) :
    (BinaryTree.node p .nil .nil).Linked d.links none := by
  refine ⟨?_, ?_, ?_, trivial, trivial⟩
  · rw [Directory.links_child, single, Position.target_invalid, root?]
  · rw [Directory.links_child, single, Position.target_invalid, root?]
  · rw [Directory.links_parent, single, Position.target_invalid]

theorem Position.target_eq_some {p q : Position} (h : p.target = some q) :
    p = q ∧ p.block ≠ invalidBlockNumber := by
  unfold target at h
  split at h
  · cases h
  · next valid => exact ⟨Option.some.inj h, valid⟩

theorem Position.target_eq_none {p : Position} (h : p.target = none) : p.block = invalidBlockNumber := by
  unfold target at h
  split at h
  · assumption
  · cases h

theorem Directory.child_eq_some (d : Directory) {side : Side} {p q : Position} (h : d.links.child side p = some q) :
    d.link (.child side) p = q ∧ q.block ≠ invalidBlockNumber := by
  rw [links_child] at h
  obtain ⟨rfl, valid⟩ := Position.target_eq_some h
  exact ⟨rfl, valid⟩

theorem Directory.parent_eq_some (d : Directory) {p q : Position} (h : d.links.parent p = some q) :
    d.link .parent p = q ∧ q.block ≠ invalidBlockNumber := by
  rw [links_parent] at h
  obtain ⟨rfl, valid⟩ := Position.target_eq_some h
  exact ⟨rfl, valid⟩

theorem Laid.target {d : Directory} {L : Layout} {p : Position} (laid : Laid d L) (hp : L.Has p) :
    p.target = some p := if_neg (Nat.ne_of_lt (laid.block_lt hp))

/-! ## Setting a link -/

/-- The position fits into a link. -/
def Position.Small (p : Position) : Prop := p.block < 2 ^ 32 ∧ p.offset < 2 ^ 16

theorem Position.small_invalid : Position.invalid.Small := ⟨by decide, by decide⟩

theorem Laid.small_of {d : Directory} {L : Layout} {p : Position} (laid : Laid d L) (hp : L.Has p) : p.Small := by
  have block := laid.block_lt hp
  have offset := laid.offset_lt hp
  unfold invalidBlockNumber at block
  unfold invalidBlockOffset at offset
  exact ⟨by omega, by omega⟩

theorem Link.place_le (l : Link) : 9 ≤ l.place ∧ l.place + 6 ≤ 27 := by
  cases l <;> decide

theorem SameBytes.link {d d' : Directory} {p : Position} (same : SameBytes d d' p 9 27) (l : Link) :
    d'.link l p = d.link l p := by
  have place := l.place_le
  rw [Directory.link_eq, Directory.link_eq, same.read (by omega) (by omega), same.read (by omega) (by omega)]

theorem Link.place_apart {l l' : Link} (ne : l' ≠ l) : Mem.Apart l'.place 6 l.place 6 := by
  cases l <;> cases l' <;> simp_all [Mem.Apart, place]

section SetLink

variable {d : Directory} {L : Layout} {l l' : Link} {p q x : Position}

theorem Directory.link_setLink (small : q.Small) : (d.setLink l p q).link l p = q := by
  have first : (d.setLink l p q).read p l.place 4 = q.block := by
    unfold setLink
    rw [read_store_out (Off.self (Or.inl (Nat.le_refl _))), read_store small.1]
  have second : (d.setLink l p q).read p (l.place + 4) 2 = q.offset := read_store small.2
  rw [link_eq, first, second]

theorem Directory.read_setLink_out {j k : Nat} (off : Off p l.place 6 x j k) :
    (d.setLink l p q).read x j k = d.read x j k := by
  unfold setLink
  rw [read_store_out (off.sub (by omega) (by omega) (by omega) (by omega)),
    read_store_out (off.sub (by omega) (by omega) (by omega) (by omega))]

theorem Directory.byte_setLink_out {j : Nat} (off : Off p l.place 6 x j 1) :
    (d.setLink l p q).byte x j = d.byte x j := by
  unfold setLink store
  rw [byte_write_out (off.sub (by omega) (by omega) (by omega) (by omega)),
    byte_write_out (off.sub (by omega) (by omega) (by omega) (by omega))]

/-- The other links of all records stay as they are. -/
theorem Directory.link_setLink_of_ne (laid : Laid d L) (hp : L.Has p) (hx : L.Has x) (ne : (x, l') ≠ (p, l)) :
    (d.setLink l p q).link l' x = d.link l' x := by
  have off : Off p l.place 6 x l'.place 6 := by
    by_cases same : x = p
    · subst same
      exact Off.self (Link.place_apart fun h => ne (by rw [h]))
    · have := laid.header hp
      have := laid.header hx
      have := l.place_le
      have := l'.place_le
      unfold szDirRecord at *
      exact laid.off hp hx same (by omega) (by omega)
  rw [link_eq, link_eq, read_setLink_out (off.sub (by omega) (by omega) (by omega) (by omega)),
    read_setLink_out (off.sub (by omega) (by omega) (by omega) (by omega))]

/-- Bytes outside the links stay as they are. -/
theorem Directory.sameBytes_setLink (laid : Laid d L) (hp : L.Has p) (hx : L.Has x) {lo hi : Nat}
    (body : hi ≤ 9 ∨ 27 ≤ lo) (inside : hi ≤ d.recordSize x) : SameBytes d (d.setLink l p q) x lo hi := by
  intro i low high
  apply byte_setLink_out
  have place := l.place_le
  have header := laid.header hp
  unfold szDirRecord at header
  by_cases same : x = p
  · subst same
    apply Off.self
    rcases body with h | h
    · exact Or.inl (by omega)
    · exact Or.inr (by omega)
  · exact laid.off hp hx same (by omega) (by omega)

theorem Directory.relinked_setLink (laid : Laid d L) (hp : L.Has p) : Relinked L d (d.setLink l p q) where
  unitSize := rfl
  dunits := rfl
  sz := rfl
  top le := by
    have place := l.place_le
    have header := laid.header hp
    have inside := laid.inside hp
    unfold szDirRecord at header
    exact write_top (write_top le (by omega)) (by omega)
  recordSize x hx := by
    have header := laid.header hx
    unfold szDirRecord at header
    have same : SameBytes d (d.setLink l p q) x 2 4 := sameBytes_setLink laid hp hx (by omega) (by omega)
    exact same.read (Nat.le_refl 2) (Nat.le_refl 4)
  entry x hx := by
    have room := laid.room x hx
    unfold szDirRecord at room
    apply SameEntry.of_bytes
    · exact sameBytes_setLink laid hp hx (by omega) (by omega)
    · exact sameBytes_setLink laid hp hx (by omega) (by omega)
    · exact sameBytes_setLink laid hp hx (by unfold szDirRecord; omega) (by unfold szDirRecord; omega)

end SetLink

/-! ## Attaching -/

section Attach

variable {d : Directory} {L : Layout} {p : Position}

theorem Link.child_inj {side side' : Side} (h : Link.child side = Link.child side') : side = side' := by
  cases side <;> cases side' <;> first | rfl | cases h

theorem Link.child_ne_parent (side : Side) : Link.child side ≠ .parent := by
  cases side <;> nofun

/-- The links after hanging the record at `p` below the record at `z`. -/
def Directory.hang (d : Directory) (p z : Position) (side : Side) : Directory :=
  (d.setLink .parent p z).setLink (.child side) z p

variable {z x : Position} {side : Side}

theorem Directory.relinked_hang (laid : Laid d L) (hp : L.Has p) (hz : L.Has z) : Relinked L d (d.hang p z side) :=
  have first := relinked_setLink laid hp
  first.trans (relinked_setLink (first.laid laid) hz)

theorem Directory.child_hang (laid : Laid d L) (hp : L.Has p) :
    (d.hang p z side).links.child side z = some p := by
  rw [links_child, hang, link_setLink (laid.small_of hp), laid.target hp]

theorem Directory.child_hang_of_ne (laid : Laid d L) (hp : L.Has p) (hz : L.Has z) (hx : L.Has x) {sd : Side}
    (ne : (x, sd) ≠ (z, side)) : (d.hang p z side).links.child sd x = d.links.child sd x := by
  have differ : (x, Link.child sd) ≠ (z, Link.child side) := by
    intro same
    cases congrArg Prod.fst same
    exact ne (by rw [Link.child_inj (congrArg Prod.snd same)])
  have inner : (x, Link.child sd) ≠ (p, Link.parent) := fun same => Link.child_ne_parent sd (congrArg Prod.snd same)
  rw [links_child, links_child, hang, link_setLink_of_ne ((relinked_setLink laid hp).laid laid) hz hx differ,
    link_setLink_of_ne laid hp hx inner]

theorem Directory.link_parent_hang (laid : Laid d L) (hp : L.Has p) (hz : L.Has z) (hx : L.Has x) :
    (d.hang p z side).link .parent x = (d.setLink .parent p z).link .parent x := by
  rw [hang, link_setLink_of_ne ((relinked_setLink laid hp).laid laid) hz hx]
  exact fun same => Link.child_ne_parent side (congrArg Prod.snd same).symm

theorem Directory.parent_hang (laid : Laid d L) (hp : L.Has p) (hz : L.Has z) :
    (d.hang p z side).links.parent p = some z := by
  rw [links_parent, link_parent_hang laid hp hz hp, link_setLink (laid.small_of hz), laid.target hz]

theorem Directory.parent_hang_of_ne (laid : Laid d L) (hp : L.Has p) (hz : L.Has z) (hx : L.Has x) (ne : x ≠ p) :
    (d.hang p z side).links.parent x = d.links.parent x := by
  rw [links_parent, links_parent, link_parent_hang laid hp hz hx, link_setLink_of_ne laid hp hx fun same => ne (congrArg Prod.fst same)]

/-- The loop of `dentry_record_attach` ends at the free place for the name. -/
theorem Directory.attachLoop_seat (laid : Laid d L) {t : BinaryTree Position} {q : Option Position}
    (linked : t.Linked d.links q) (nodes : ∀ x ∈ t.inorder, L.Has x)
    (missing : ∀ x ∈ t.inorder, d.key x ≠ d.key p) {start : Position} (root : t.root? = some start)
    {fuel : Nat} (enough : t.inorder.length ≤ fuel) :
    ∃ z side cmp, t.seat d.key (d.key p) = some (z, side) ∧ d.attachLoop p fuel start = some (some (z, cmp)) ∧
      (cmp < 0 ↔ side = .left) := by
  induction t generalizing q start fuel with
  | nil => cases root
  | node a l r ihl ihr =>
    obtain ⟨left, right, _, linkedL, linkedR⟩ := linked
    rw [links_child] at left right
    cases root
    have ha : L.Has a := nodes a (mem_inorder_node.mpr (Or.inr (Or.inl rfl)))
    have differs : strCmp (d.name p) (d.name a) ≠ 0 := fun zero =>
      missing a (mem_inorder_node.mpr (Or.inr (Or.inl rfl))) ((laid.cmp_eq_zero ha _).mp zero).symm
    have sign := laid.cmp_lt_zero ha (d.name p)
    rw [inorder, List.length_append, List.length_cons] at enough
    obtain ⟨fuel, rfl⟩ : ∃ n, fuel = n + 1 := ⟨fuel - 1, by omega⟩
    rw [attachLoop, if_neg (Nat.ne_of_lt (laid.block_lt ha)), if_pos (laid.hasBlock ha)]
    simp only [if_neg differs, seat]
    by_cases less : strCmp (d.name p) (d.name a) < 0
    · have smaller : d.key p < d.key a := sign.mp less
      simp only [if_pos less, if_pos smaller]
      cases next : l.root? with
      | none =>
        -- the left link is free
        rw [next] at left
        have empty : l = .nil := by
          cases l with
          | nil => rfl
          | node => cases next
        subst empty
        have free := Position.target_eq_none left
        rw [if_neg (fun h => h free)]
        exact ⟨a, .left, _, rfl, rfl, by simp [less]⟩
      | some b =>
        rw [next] at left
        obtain ⟨go, valid⟩ := Position.target_eq_some left
        obtain ⟨z, side, cmp, place, loop, sided⟩ := ihl linkedL
          (fun x hx => nodes x (mem_inorder_node.mpr (Or.inl hx)))
          (fun x hx => missing x (mem_inorder_node.mpr (Or.inl hx))) next (show l.inorder.length ≤ fuel by omega)
        have step : d.link .left a = b := go
        refine ⟨z, side, cmp, by rw [place]; rfl, ?_, sided⟩
        rw [step, if_pos (by rwa [← step]), loop]
    · have larger : ¬ d.key p < d.key a := fun h => less (sign.mpr h)
      simp only [if_neg less, if_neg larger]
      cases next : r.root? with
      | none =>
        rw [next] at right
        have empty : r = .nil := by
          cases r with
          | nil => rfl
          | node => cases next
        subst empty
        have free := Position.target_eq_none right
        rw [if_neg (fun h => h free)]
        exact ⟨a, .right, _, rfl, rfl, by simp [less]⟩
      | some b =>
        rw [next] at right
        obtain ⟨go, valid⟩ := Position.target_eq_some right
        obtain ⟨z, side, cmp, place, loop, sided⟩ := ihr linkedR
          (fun x hx => nodes x (mem_inorder_node.mpr (Or.inr (Or.inr hx))))
          (fun x hx => missing x (mem_inorder_node.mpr (Or.inr (Or.inr hx)))) next
          (show r.inorder.length ≤ fuel by omega)
        have step : d.link .right a = b := go
        refine ⟨z, side, cmp, by rw [place]; rfl, ?_, sided⟩
        rw [step, if_pos (by rwa [← step]), loop]

/-- There are enough rounds to visit every record. -/
theorem Laid.length_le (laid : Laid d L) {nodes : List Position} (has : ∀ x ∈ nodes, L.Has x) (nodup : nodes.Nodup) :
    nodes.length + 2 ≤ d.rounds := by
  have bound : ∀ x ∈ nodes, x.offset < d.unitSize ∧ x.block < d.dunits := by
    intro x hx
    have inside := laid.inside (has x hx)
    have header := laid.header (has x hx)
    unfold szDirRecord at header
    exact ⟨by omega, laid.hasBlock (has x hx)⟩
  -- number the places of a directory block by block
  have injective : ∀ x ∈ nodes, ∀ y ∈ nodes,
      x.block * d.unitSize + x.offset = y.block * d.unitSize + y.offset → x = y := by
    intro x hx y hy same
    have offX := (bound x hx).1
    have offY := (bound y hy).1
    have positive : 0 < d.unitSize := by omega
    have blocks := congrArg (· / d.unitSize) same
    simp only [Nat.mul_comm _ d.unitSize, Nat.mul_add_div positive, Nat.div_eq_of_lt offX,
      Nat.div_eq_of_lt offY, Nat.add_zero] at blocks
    rw [blocks] at same
    have offsets := Nat.add_left_cancel same
    cases x
    cases y
    simp_all
  have places : (nodes.map fun x => x.block * d.unitSize + x.offset) ⊆ List.range (d.dunits * d.unitSize) := by
    intro n hn
    obtain ⟨x, hx, rfl⟩ := List.mem_map.mp hn
    obtain ⟨offset, block⟩ := bound x hx
    have := Nat.mul_le_mul_right d.unitSize block
    rw [Nat.succ_mul] at this
    rw [List.mem_range]
    omega
  have count := ((nodup.map_on injective).subperm places).length_le
  rw [List.length_map, List.length_range] at count
  unfold Directory.rounds
  omega

/-- `dentry_record_attach` hangs a subtree in where the name of its root belongs. -/
theorem Directory.attach_graft (laid : Laid d L) {t s : BinaryTree Position} {q q' : Option Position}
    {start : Position} (linked : t.Linked d.links q) (sub : s.Linked d.links q')
    (nodes : ∀ x ∈ t.inorder ++ s.inorder, L.Has x) (nodup : (t.inorder ++ s.inorder).Nodup)
    (rootT : t.root? = some start) (rootS : s.root? = some p) (missing : ∀ x ∈ t.inorder, d.key x ≠ d.key p) :
    ∃ d', d.attach p start = some (true, d') ∧ Relinked L d d' ∧
      (t.graft d.key (d.key p) s).Linked d'.links q ∧
      ∀ x, L.Has x → x ∉ t.inorder → x ≠ p → d.links.Same d'.links x := by
  have nodesT : ∀ x ∈ t.inorder, L.Has x := fun x hx => nodes x (List.mem_append_left _ hx)
  have nodesS : ∀ x ∈ s.inorder, L.Has x := fun x hx => nodes x (List.mem_append_right _ hx)
  obtain ⟨nodupT, nodupS, disjoint⟩ := List.nodup_append.mp nodup
  have enough := laid.length_le nodesT nodupT
  obtain ⟨z, side, cmp, place, loop, sided⟩ :=
    attachLoop_seat laid linked nodesT missing rootT (show t.inorder.length ≤ d.rounds by omega)
  have memP := root?_mem rootS
  have memZ := seat_mem place
  have hp := nodesS p memP
  have hz := nodesT z memZ
  have chosen : (if cmp < 0 then Link.left else Link.right) = Link.child side := by
    cases side
    · rw [if_pos (sided.mpr rfl)]
      rfl
    · rw [if_neg (fun less => nomatch sided.mp less)]
      rfl
  refine ⟨d.hang p z side, ?_, relinked_hang laid hp hz, ?_, ?_⟩
  · rw [attach, if_pos (laid.hasBlock hp), loop]
    simp only [chosen]
    rfl
  · have awayZ : ∀ x ∈ s.inorder, ∀ sd, (x, sd) ≠ (z, side) := fun x hx sd same =>
      disjoint z memZ x hx (congrArg Prod.fst same).symm
    have moved : s.Linked (d.hang p z side).links (some z) := by
      cases s with
      | nil => cases rootS
      | node a l r =>
        cases rootS
        refine sub.move nodupS (fun x hx sd => child_hang_of_ne laid hp hz (nodesS x hx) (awayZ x hx sd)) ?_
          (parent_hang laid hp hz)
        exact fun x hx ne => parent_hang_of_ne laid hp hz (nodesS x hx) ne
    refine linked.graft nodupT place ?_ ?_ ?_ moved
    · rw [child_hang laid hp, rootS]
    · exact fun x hx sd ne => child_hang_of_ne laid hp hz (nodesT x hx) ne
    · exact fun x hx => parent_hang_of_ne laid hp hz (nodesT x hx) (disjoint x hx p memP)
  · intro x hx outside ne
    refine ⟨fun sd => child_hang_of_ne laid hp hz hx fun same => ?_, parent_hang_of_ne laid hp hz hx ne⟩
    cases congrArg Prod.fst same
    exact outside memZ

end Attach

/-! ## Taking a record out -/

section Remove

variable {d : Directory} {L : Layout} {p : Position}

/-- Attaching a child of the detached record at `p` below its former parent `q`. -/
theorem Directory.attachChild_spec (laid : Laid d L) {c : Hole Position} {side sd : Side} {q : Position}
    {x y s : BinaryTree Position} {o : Option Position} (linked : (c.fill (bud side q x s)).Linked d.links o)
    (sub : y.Linked d.links (some p)) (down : d.links.child sd p = y.root?) (up : d.link .parent p = q)
    (nodes : ∀ z ∈ (c.fill (bud side q x s)).inorder ++ y.inorder, L.Has z)
    (distinct : (((c.fill (bud side q x s)).inorder ++ y.inorder).map d.key).Nodup)
    (sided : ∀ z ∈ y.inorder, d.key z < d.key q ↔ side = .left)
    (above : ∀ a ∈ x.inorder, ∀ z ∈ y.inorder, d.key a < d.key z) :
    ∃ (d' : Directory) (x' : BinaryTree Position), d.attachChild (.child sd) p = some d' ∧ Relinked L d d' ∧
      x'.inorder = x.inorder ++ y.inorder ∧ (c.fill (bud side q x' s)).Linked d'.links o ∧
      ∀ z, L.Has z → z ∉ (c.fill (bud side q x s)).inorder ++ y.inorder → d.links.Same d'.links z := by
  rw [links_child] at down
  cases y with
  | nil =>
    have free := Position.target_eq_none down
    refine ⟨d, x, ?_, Relinked.refl L d, by simp [inorder], linked, fun z _ _ => ⟨fun _ => rfl, rfl⟩⟩
    rw [attachChild]
    exact if_neg fun h => h.1 free
  | node b l r =>
    obtain ⟨go, valid⟩ := Position.target_eq_some down
    have memB : b ∈ (node b l r).inorder := root?_mem rfl
    have hb := nodes b (List.mem_append_right _ memB)
    rw [Hole.inorder_fill] at nodes distinct
    have part : ((bud side q x s).inorder ++ (node b l r).inorder).Sublist
        (c.before ++ (bud side q x s).inorder ++ c.after ++ (node b l r).inorder) :=
      List.Sublist.append (by rw [List.append_assoc]; simp) (List.Sublist.refl _)
    have missing : ∀ a ∈ (bud side q x s).inorder, d.key a ≠ d.key b := by
      have keys := distinct.sublist (part.map d.key)
      rw [List.map_append, List.nodup_append] at keys
      exact fun a ha => keys.2.2 _ (List.mem_map_of_mem ha) _ (List.mem_map_of_mem memB)
    obtain ⟨d', attached, relinked, grafted, same⟩ := attach_graft laid (linked_fill.mp linked).2 sub
      (fun z hz => nodes z (part.subset hz)) ((List.Nodup.of_map _ distinct).sublist part) (root?_bud side q x s) rfl missing
    rw [graft_bud (sided b memB)] at grafted
    refine ⟨d', x.graft d.key (d.key b) (node b l r), ?_, relinked, ?_, ?_, ?_⟩
    · rw [attachChild]
      have valid := And.intro (Nat.ne_of_lt (laid.block_lt hb)) (Nat.ne_of_lt (laid.offset_lt hb))
      simp only [go, up, attached, if_pos valid, Option.map_some]
    · exact inorder_graft_end (fun a ha => above a ha b memB) _
    · refine linked.refill (by rw [root?_bud, root?_bud]) (fun z hz => ?_) grafted
      have once := List.nodup_iff_count_le_one.mp (List.Nodup.of_map _ distinct) z
      simp only [← List.count_pos_iff, List.count_append] at hz memB once
      refine same z (nodes z ?_) ?_ ?_
      · simp only [← List.count_pos_iff, List.count_append]
        omega
      · simp only [← List.count_pos_iff]
        omega
      · rintro rfl
        omega
    · intro z hz outside
      rw [List.mem_append, not_or, Hole.mem_fill, not_or, not_or] at outside
      exact same z hz outside.1.2.1 fun equal => outside.2 (equal ▸ memB)

/-- `dentry_record_detach` clears the link that leads to the record. -/
theorem Directory.detach_spec (laid : Laid d L) {q : Position} {side : Side} (hp : L.Has p) (hq : L.Has q)
    (up : d.link .parent p = q) (down : d.link (.child side) q = p) (once : d.link (.child side.other) q ≠ p) :
    d.detach p = (true, d.setLink (.child side) q .invalid) := by
  rw [detach]
  simp only [up, if_pos (And.intro (laid.hasBlock hp) (laid.hasBlock hq))]
  cases side with
  | left =>
    have down : d.link .left q = p := down
    have other : (d.setLink .left q .invalid).link .right q ≠ p := by
      rw [link_setLink_of_ne laid hq hq (by simp)]
      exact once
    simp only [if_pos down, if_neg other]
    rfl
  | right =>
    have down : d.link .right q = p := down
    have once : d.link .left q ≠ p := once
    simp only [if_neg once, if_pos down]
    rfl

/-- The two children of a detached record take its place. -/
theorem Directory.attachChildren_spec (laid : Laid d L) {c : Hole Position} {side : Side} {q : Position}
    {l r s : BinaryTree Position} (ordered : (c.fill (bud side q (node p l r) s)).Ordered d.key)
    (nodes : ∀ x ∈ (c.fill (bud side q (node p l r) s)).inorder, L.Has x)
    (linked : (c.fill (bud side q .nil s)).Linked d.links none) (sub : (node p l r).Linked d.links (some q)) :
    ∃ (d' : Directory) (x : BinaryTree Position), d.attachChildren p = some d' ∧ Relinked L d d' ∧
      x.inorder = l.inorder ++ r.inorder ∧ (c.fill (bud side q x s)).Linked d'.links none := by
  obtain ⟨leftP, rightP, upP, linkedL, linkedR⟩ := sub
  have orderedB : (bud side q (node p l r) s).Ordered d.key :=
    ordered.sublist (by rw [Hole.inorder_fill, List.append_assoc]; simp)
  have sided : ∀ z ∈ (node p l r).inorder, d.key z < d.key q ↔ side = .left := fun z hz => orderedB.side hz
  obtain ⟨pre, post, memQ, parts⟩ := inorder_fill_bud c side q s
  have between : ∀ a ∈ l.inorder, ∀ b ∈ r.inorder, d.key a < d.key b := by
    have orderedP : (node p l r).Ordered d.key := ordered.sublist (by rw [parts, List.append_assoc]; simp)
    obtain ⟨_, _, below, above⟩ := ordered_node.mp orderedP
    exact fun a ha b hb => (below a ha).trans (above b hb)
  have distinct : ((c.fill (bud side q (node p l r) s)).inorder.map d.key).Nodup := by
    refine List.Nodup.map_on ?_ ordered.nodup
    exact fun a ha b hb same => ordered.key_inj ha hb same
  -- no record and no key occurs twice in the whole tree
  have keys := List.nodup_iff_count_le_one.mp distinct
  have once := List.nodup_iff_count_le_one.mp ordered.nodup
  simp only [parts, inorder, List.map_append, List.map_cons, List.count_append, List.count_cons] at keys once
  have has : ∀ z, (z ∈ pre ++ post ∨ z ∈ (node p l r).inorder) → L.Has z := by
    intro z hz
    apply nodes
    rw [parts, List.append_assoc, List.mem_append, List.mem_append]
    rcases hz with hz | hz
    · exact (List.mem_append.mp hz).imp_right Or.inr
    · exact Or.inr (Or.inl hz)
  have memL : ∀ z ∈ l.inorder, z ∈ (node p l r).inorder := fun z hz => mem_inorder_node.mpr (Or.inl hz)
  have memR : ∀ z ∈ r.inorder, z ∈ (node p l r).inorder := fun z hz => mem_inorder_node.mpr (Or.inr (Or.inr hz))
  obtain ⟨d1, x1, attachedL, relinked1, inorder1, linked1, same1⟩ :=
    attachChild_spec laid linked linkedL leftP (d.parent_eq_some upP).1
      (by
        intro z hz
        rw [parts, inorder, List.append_nil] at hz
        exact has z ((List.mem_append.mp hz).imp_right (memL z)))
      (by
        refine List.nodup_iff_count_le_one.mpr fun k => ?_
        have := keys k
        simp only [parts, inorder, List.map_append, List.map_nil, List.count_append, List.count_nil]
        omega)
      (fun z hz => sided z (memL z hz)) (fun a ha => by cases ha)
  rw [inorder, List.nil_append] at inorder1
  have keep : ∀ z, z = p ∨ z ∈ r.inorder → d.links.Same d1.links z := by
    intro z hz
    apply same1 z (has z (Or.inr (mem_inorder_node.mpr (Or.inr hz))))
    have := once z
    simp only [parts, inorder, List.append_nil, ← List.count_pos_iff, List.count_append]
    rcases hz with rfl | hz
    · simp only [beq_self_eq_true, if_true] at this
      omega
    · rw [← List.count_pos_iff] at hz
      omega
  have laid1 := relinked1.laid laid
  have key1 : ∀ z, L.Has z → d1.key z = d.key z := fun z hz => laid.key hz (relinked1.entry z hz)
  have keepP := keep p (Or.inl rfl)
  have above1 : ∀ a ∈ x1.inorder, ∀ z ∈ r.inorder, d1.key a < d1.key z := by
    intro a ha z hz
    rw [inorder1] at ha
    rw [key1 a (has a (Or.inr (memL a ha))), key1 z (has z (Or.inr (memR z hz)))]
    exact between a ha z hz
  have has1 : ∀ z ∈ (c.fill (bud side q x1 s)).inorder ++ r.inorder, L.Has z := by
    intro z hz
    rw [parts, inorder1] at hz
    simp only [List.mem_append] at hz
    rcases hz with ((hz | hz) | hz) | hz
    · exact has z (Or.inl (List.mem_append_left _ hz))
    · exact has z (Or.inr (memL z hz))
    · exact has z (Or.inl (List.mem_append_right _ hz))
    · exact has z (Or.inr (memR z hz))
  obtain ⟨d2, x2, attachedR, relinked2, inorder2, linked2, _⟩ :=
    attachChild_spec laid1 linked1 (linkedR.congr fun z hz => keep z (Or.inr hz)) ((keepP.1 .right).trans rightP)
      (d1.parent_eq_some (keepP.2.trans upP)).1 has1
      (by
        rw [List.map_congr_left fun z hz => key1 z (has1 z hz)]
        refine List.nodup_iff_count_le_one.mpr fun k => ?_
        have := keys k
        simp only [parts, inorder1, List.map_append, List.count_append]
        omega)
      (by
        intro z hz
        rw [key1 z (has z (Or.inr (memR z hz))), key1 q (has q (Or.inl memQ))]
        exact sided z (memR z hz))
      above1
  refine ⟨d2, x2, ?_, relinked1.trans relinked2, by rw [inorder2, inorder1], linked2⟩
  rw [attachChildren]
  have attachedL : d.attachChild .left p = some d1 := attachedL
  rw [attachedL]
  exact attachedR

/-- Detaching a record and attaching its children takes the record out of the tree. -/
theorem Directory.remove_spec (laid : Laid d L) {t : BinaryTree Position} (linked : t.Linked d.links none)
    (nodes : ∀ x ∈ t.inorder, L.Has x) (ordered : t.Ordered d.key) (hp : p ∈ t.inorder)
    (inner : t.root? ≠ some p) :
    ∃ (d1 d2 : Directory) (t' : BinaryTree Position), d.detach p = (true, d1) ∧ d1.attachChildren p = some d2 ∧
      Relinked L d d2 ∧ t'.Linked d2.links none ∧ t'.root? = t.root? ∧
      ∃ pre post, t.inorder = pre ++ p :: post ∧ t'.inorder = pre ++ post := by
  obtain ⟨c, side, q, l, r, s, rfl⟩ := exists_parent hp inner
  obtain ⟨pre, post, memQ, parts⟩ := inorder_fill_bud c side q s
  obtain ⟨_, linkedB⟩ := linked_fill.mp linked
  obtain ⟨down, across, upQ, linkedP, linkedS⟩ := linked_bud.mp linkedB
  obtain ⟨apartP, apartS, apartC⟩ := nodup_fill_bud ordered.nodup
  have memP : p ∈ (node p l r).inorder := root?_mem rfl
  have hasP := nodes p hp
  have hasQ : L.Has q := by
    apply nodes
    rw [parts, List.append_assoc, List.mem_append, List.mem_append]
    exact (List.mem_append.mp memQ).imp_right Or.inr
  have hasB : ∀ z ∈ (bud side q (node p l r) s).inorder, L.Has z := fun z hz =>
    nodes z (Hole.mem_fill.mpr (Or.inr (Or.inl hz)))
  have hasC : ∀ z ∈ c.before ++ c.after, L.Has z := by
    intro z hz
    refine nodes z (Hole.mem_fill.mpr ?_)
    exact (List.mem_append.mp hz).imp_right Or.inr
  have detached : Relinked L d (d.setLink (.child side) q .invalid) := relinked_setLink laid hasQ
  have keep : ∀ x, L.Has x → x ≠ q → d.links.Same (d.setLink (.child side) q .invalid).links x := by
    intro x hx ne
    have same : ∀ l', (d.setLink (.child side) q .invalid).link l' x = d.link l' x := fun l' =>
      link_setLink_of_ne laid hasQ hx fun equal => ne (congrArg Prod.fst equal)
    exact Directory.same_links same
  have memX : ∀ z ∈ (node p l r).inorder, z ∈ (bud side q (node p l r) s).inorder := by
    intro z hz
    cases side
    · exact mem_inorder_node.mpr (Or.inl hz)
    · exact mem_inorder_node.mpr (Or.inr (Or.inr hz))
  have memS : ∀ z ∈ s.inorder, z ∈ (bud side q (node p l r) s).inorder := by
    intro z hz
    cases side
    · exact mem_inorder_node.mpr (Or.inr (Or.inr hz))
    · exact mem_inorder_node.mpr (Or.inl hz)
  have sub : (node p l r).Linked (d.setLink (.child side) q .invalid).links (some q) :=
    linkedP.congr fun z hz => keep z (hasB z (memX z hz)) (apartP z hz).1
  have rest : (c.fill (bud side q .nil s)).Linked (d.setLink (.child side) q .invalid).links none := by
    refine linked.refill (by rw [root?_bud, root?_bud]) (fun z hz => keep z (hasC z hz) (apartC z hz)) ?_
    refine linked_bud.mpr ⟨?_, ?_, ?_, trivial, linkedS.congr fun z hz => keep z (hasB z (memS z hz)) (apartS z hz)⟩
    · rw [links_child, link_setLink Position.small_invalid, Position.target_invalid, root?]
    · rw [← across, links_child, links_child]
      rw [link_setLink_of_ne laid hasQ hasQ (by cases side <;> simp [Link.child, Side.other])]
    · rw [← upQ, links_parent, links_parent]
      rw [link_setLink_of_ne laid hasQ hasQ (by cases side <;> simp [Link.child])]
  obtain ⟨d2, x, attached, relinked, inorderX, linkedX⟩ := attachChildren_spec (detached.laid laid)
    (ordered.congr fun z hz => laid.key (nodes z hz) (detached.entry z (nodes z hz))) nodes rest sub
  have once : d.link (.child side.other) q ≠ p := by
    intro equal
    have : d.links.child side.other q = some p := by
      rw [links_child, equal, laid.target hasP]
    rw [across] at this
    exact (apartP p memP).2 (root?_mem this)
  refine ⟨_, d2, c.fill (bud side q x s), ?_, attached, detached.trans relinked, linkedX, ?_, ?_⟩
  · exact detach_spec laid hasP hasQ (d.parent_eq_some linkedP.2.2.1).1 (d.child_eq_some down).1 once
  · rw [Hole.root?_fill, Hole.root?_fill, root?_bud, root?_bud]
  · exact ⟨pre ++ l.inorder, r.inorder ++ post, by simp [parts, inorder], by simp [parts, inorderX]⟩

end Remove

end PreTeO.Mgfs3
