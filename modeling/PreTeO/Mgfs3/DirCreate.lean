import PreTeO.Mgfs3.DirFill

/-!
# Creating an entry

`mgfs_dentry_create` makes a blank record in one of three ways and fills it in; each of them keeps the
directory a search tree of tiled records.
-/

namespace PreTeO.Mgfs3
set_option autoImplicit false
open PreTeO.Lib BinaryTree

/-- A search tree of records and, outside it, a blank record at `p`. -/
structure Opened (d : Directory) (L : Layout) (t : BinaryTree Position) (p : Position) (n : Nat) : Prop
    extends Blank d L p n where
  nodes : ∀ x ∈ t.inorder, L.Has x
  linked : t.Linked d.links none
  ordered : t.Ordered d.key
  root : t.root? = some ⟨0, 0⟩
  sized : d.sz = d.dunits * d.unitSize
  tombs : ∀ x ∈ t.inorder, d.Deleted x → x.offset = 0
  fresh : p ∉ t.inorder

/-- A new entry was put into the record at `p`. -/
structure Added (d d' : Directory) (t t' : BinaryTree Position) (p : Position) (e : NewEntry) : Prop
    extends Carries d' p e where
  mem : ∀ x, x ∈ t'.inorder ↔ x ∈ t.inorder ∨ x = p
  old : ∀ x ∈ t.inorder, x ≠ p → SameEntry d d' x
  reused : p ∈ t.inorder → d.Deleted p

/-- No entry was made: the records that are left are old ones, and none of them is lost that was not deleted before. -/
structure Stays (d d' : Directory) (t t' : BinaryTree Position) : Prop where
  old : ∀ x ∈ t'.inorder, x ∈ t.inorder ∧ SameEntry d d' x
  live : ∀ x ∈ t.inorder, ¬ d.Deleted x → x ∈ t'.inorder

theorem Stays.refl (d : Directory) (t : BinaryTree Position) : Stays d d t t :=
  ⟨fun x hx => ⟨hx, SameEntry.refl d x⟩, fun _ hx _ => hx⟩

namespace Opened

variable {d : Directory} {L : Layout} {t : BinaryTree Position} {p z : Position} {e : NewEntry}

theorem ne {n : Nat} (opened : Opened d L t p n) {x : Position} (hx : x ∈ t.inorder) : x ≠ p :=
  fun equal => opened.fresh (equal ▸ hx)

theorem key_fill (opened : Opened d L t p e.szName) {x : Position} (hx : x ∈ t.inorder) :
    (d.fill p e).key x = d.key x :=
  (opened.other (opened.nodes x hx) (opened.ne hx)).1.key (opened.ends x (opened.nodes x hx) (opened.ne hx))

theorem dunits_ne {n : Nat} (opened : Opened d L t p n) : d.dunits ≠ 0 := by
  have := opened.hasBlock (opened.nodes _ (root?_mem opened.root))
  unfold Directory.HasBlock at this
  omega

/-- Filling in the blank record leaves the tree as it is. -/
theorem linked_fill (opened : Opened d L t p e.szName) : t.Linked (d.fill p e).links none := by
  refine opened.linked.congr fun x hx => ?_
  exact Directory.same_links (opened.other (e := e) (opened.nodes x hx) (opened.ne hx)).2.2

/-- Without a place in the tree the filled record stays outside. -/
theorem indexed_fill (opened : Opened d L t p e.szName) (ends : Ends e.name e.szName) :
    Indexed (d.fill p e) L t where
  small := by
    rw [Directory.fill_unitSize]
    exact opened.small
  laid := opened.laid_fill ends
  nodes := opened.nodes
  linked := opened.linked_fill
  ordered := opened.ordered.congr fun _ hx => opened.key_fill hx
  root := by
    rw [Directory.fill_dunits, if_neg opened.dunits_ne]
    exact opened.root
  sized := by
    rw [Directory.fill_sz, Directory.fill_dunits, Directory.fill_unitSize]
    exact opened.sized
  tombs x hx deleted := by
    have same := (opened.other (e := e) (opened.nodes x hx) (opened.ne hx)).1
    exact opened.tombs x hx (same.deleted.mp deleted)

/-- The filled record is hung into the tree. -/
theorem insert (opened : Opened d L t p e.szName) (ends : Ends e.name e.szName) (inode : e.inodeNumber < 2 ^ 32)
    (live : e.flags &&& dentryDeleted = 0#8) (missing : ∀ x ∈ t.inorder, d.key x ≠ chars e.name) (hz : z ∈ t.inorder)
    (near : ∀ x ∈ t.inorder, x ≠ z → (chars e.name < d.key x ↔ d.key z < d.key x)) :
    ∃ (d' : Directory) (t' : BinaryTree Position), (d.fill p e).attach p z = some (true, d') ∧ Indexed d' L t' ∧
      (∀ x, x ∈ t'.inorder ↔ x ∈ t.inorder ∨ x = p) ∧ (∀ x ∈ t.inorder, SameEntry d d' x) ∧ Carries d' p e := by
  have laid := opened.laid_fill ends
  have filled := opened.filled ends inode
  have before := opened.indexed_fill ends
  have absent : ∀ x ∈ t.inorder, (d.fill p e).key x ≠ (d.fill p e).key p := by
    intro x hx
    rw [filled.key, opened.key_fill hx]
    exact missing x hx
  obtain ⟨d', attached, relinked, grafted⟩ := Directory.attach_new laid opened.linked_fill opened.nodes before.ordered
    opened.has opened.fresh filled.link absent hz (by
      intro x hx ne
      rw [filled.key, opened.key_fill hx, opened.key_fill hz]
      exact near x hx ne)
  have member : ∀ x, x ∈ (t.graft (d.fill p e).key ((d.fill p e).key p) (.node p .nil .nil)).inorder ↔
      x ∈ t.inorder ∨ x = p := by
    intro x
    rw [mem_graft]
    simp [inorder]
  have hasAll : ∀ x, x ∈ t.inorder ∨ x = p → L.Has x := by
    rintro x (hx | rfl)
    · exact opened.nodes x hx
    · exact opened.has
  have same : ∀ x ∈ t.inorder, SameEntry d d' x := fun x hx =>
    (opened.other (opened.nodes x hx) (opened.ne hx)).1.trans (relinked.entry x (opened.nodes x hx))
  have entry := relinked.entry p opened.has
  refine ⟨d', _, attached, ?_, member, same, filled.same entry (laid.ends p opened.has)⟩
  · exact {
      small := by
        rw [relinked.unitSize]
        exact before.small
      laid := relinked.laid laid
      nodes := fun x hx => hasAll x ((member x).mp hx)
      linked := grafted
      ordered := (before.ordered.graft_node absent).congr fun x hx =>
        laid.key (hasAll x ((member x).mp hx)) (relinked.entry x (hasAll x ((member x).mp hx)))
      root := by
        rw [root?_graft (fun empty => by rw [empty] at hz; cases hz), relinked.dunits]
        exact before.root
      sized := by
        rw [relinked.sz, relinked.dunits, relinked.unitSize]
        exact before.sized
      tombs := by
        intro x hx deleted
        rcases (member x).mp hx with inside | rfl
        · exact opened.tombs x inside ((same x inside).deleted.mp deleted)
        · unfold Directory.Deleted at deleted
          rw [entry.flags, filled.flags] at deleted
          exact absurd live deleted }

/-- A record is not hung in below itself. -/
theorem attach_self (opened : Opened d L t p e.szName) (ends : Ends e.name e.szName) :
    (d.fill p e).attach p p = some (false, d.fill p e) := by
  have laid := opened.laid_fill ends
  have same : strCmp ((d.fill p e).name p) ((d.fill p e).name p) = 0 := (laid.cmp_eq_zero opened.has _).mpr rfl
  unfold Directory.attach Directory.rounds
  rw [if_pos (laid.hasBlock opened.has), Directory.attachLoop, if_neg (Nat.ne_of_lt (laid.block_lt opened.has)),
    if_pos (laid.hasBlock opened.has)]
  simp only [if_pos same]

end Opened

/-! ## The three ways -/

section Ways

variable {d : Directory} {L : Layout} {t : BinaryTree Position} {p z : Position} {e : NewEntry}

/-- The last record a fruitless search visits. -/
theorem Indexed.last (h : Indexed d L t) {k : List Int} (missing : ∀ x ∈ t.inorder, d.key x ≠ k) {x : Position}
    (hx : x ∈ t.inorder) : ∃ z ∈ t.inorder, (t.path d.key k).getLast? = some z ∧
      ∀ y ∈ t.inorder, y ≠ z → (k < d.key y ↔ d.key z < d.key y) := by
  cases t with
  | nil => cases hx
  | node a l r =>
    have some : ((node a l r).path d.key k).getLast? ≠ none := by
      rw [path, List.getLast?_cons]
      exact Option.some_ne_none _
    obtain ⟨z, last⟩ := Option.ne_none_iff_exists'.mp some
    exact ⟨z, path_subset (List.mem_of_getLast? last), last, h.ordered.path_neighbour missing last⟩

/-- The record of the root cannot be detached. -/
theorem Indexed.detach_root (h : Indexed d L t) (root : t.root? = some p) : d.detach p = (false, d) := by
  cases t with
  | nil => cases root
  | node a l r =>
    cases root
    have none := Position.target_eq_none h.linked.2.2.1
    have without : ¬ d.HasBlock (d.link .parent p) := by
      unfold Directory.HasBlock
      rw [none]
      exact Nat.not_lt.mpr h.laid.few
    unfold Directory.detach
    exact if_neg fun both => without both.2

/-- A record other than the root is taken out of the tree. -/
theorem Indexed.remove (h : Indexed d L t) (hp : p ∈ t.inorder) (inner : t.root? ≠ some p) :
    ∃ (d1 d2 : Directory) (t' : BinaryTree Position), d.detach p = (true, d1) ∧ d1.attachChildren p = some d2 ∧
      Relinked L d d2 ∧ Indexed d2 L t' ∧ p ∉ t'.inorder ∧ ∀ x, x ∈ t.inorder ↔ x ∈ t'.inorder ∨ x = p := by
  obtain ⟨d1, d2, t', detached, attached, relinked, linked, root', pre, post, whole, rest⟩ :=
    Directory.remove_spec h.laid h.linked h.nodes h.ordered hp inner
  have once := h.ordered.nodup
  rw [whole] at once
  have subset : ∀ x, x ∈ t.inorder ↔ x ∈ t'.inorder ∨ x = p := by
    intro x
    rw [whole, rest]
    simp only [List.mem_append, List.mem_cons]
    simp only [or_comm, or_left_comm]
  have has : ∀ x ∈ t'.inorder, L.Has x := fun x hx => h.nodes x ((subset x).mpr (Or.inl hx))
  refine ⟨d1, d2, t', detached, attached, relinked, ?_, ?_, subset⟩
  · exact {
      small := by
        rw [relinked.unitSize]
        exact h.small
      laid := relinked.laid h.laid
      nodes := has
      linked := linked
      ordered := (h.ordered.sublist (by rw [whole, rest]; simp)).congr fun x hx =>
        h.laid.key (has x hx) (relinked.entry x (has x hx))
      root := by
        rw [root', relinked.dunits]
        exact h.root
      sized := by
        rw [relinked.sz, relinked.dunits, relinked.unitSize]
        exact h.sized
      tombs := fun x hx dead =>
        h.tombs x ((subset x).mpr (Or.inl hx)) ((relinked.entry x (has x hx)).deleted.mp dead) }
  · rw [rest]
    exact (List.nodup_cons.mp (List.nodup_middle.mp once)).1

/-- A record outside the tree with enough room is a blank place. -/
theorem Indexed.opened {n : Nat} (h : Indexed d L t) (hp : L.Has p) (fresh : p ∉ t.inorder)
    (fits : szDirRecord + n ≤ d.recordSize p) : Opened d L t p n where
  toBlank := h.laid.blank h.small hp fits
  nodes := h.nodes
  linked := h.linked
  ordered := h.ordered
  root := by
    have root := h.root
    have block := h.laid.hasBlock hp
    unfold Directory.HasBlock at block
    rwa [if_neg (by omega)] at root
  sized := h.sized
  tombs := h.tombs
  fresh := fresh

/-- A deleted record is replaced. It fails for the root, and for the last record visited. -/
theorem Indexed.createReplace (h : Indexed d L t) (fits : e.Fits d.unitSize)
    (missing : ∀ x ∈ t.inorder, d.key x ≠ chars e.name) (hp : p ∈ t.inorder) (deleted : d.Deleted p)
    (room : szDirRecord + e.szName ≤ d.recordSize p) (hz : z ∈ t.inorder)
    (near : ∀ x ∈ t.inorder, x ≠ z → (chars e.name < d.key x ↔ d.key z < d.key x)) :
    ∃ (r : Bool) (d' : Directory) (t' : BinaryTree Position), d.createReplace e p z = some (r, d') ∧
      Indexed d' L t' ∧ (r = true → Added d d' t t' p e) ∧ (r = false → Stays d d' t t') ∧
      (r = true ↔ t.root? ≠ some p ∧ z ≠ p) := by
  by_cases root : t.root? = some p
  · refine ⟨false, d, t, ?_, h, nofun, fun _ => Stays.refl d t, nofun, fun found => absurd root found.1⟩
    rw [Directory.createReplace, h.detach_root root]
  · obtain ⟨d1, d2, t', detached, attached, relinked, indexed, fresh, subset⟩ := h.remove hp root
    have inside : ∀ x ∈ t'.inorder, x ∈ t.inorder := fun x hx => (subset x).mpr (Or.inl hx)
    have keys : ∀ x ∈ t.inorder, d2.key x = d.key x := fun x hx =>
      h.laid.key (h.nodes x hx) (relinked.entry x (h.nodes x hx))
    have opened : Opened d2 L t' p e.szName :=
      indexed.opened (h.nodes p hp) fresh (by rw [relinked.recordSize p (h.nodes p hp)]; exact room)
    have result : d.createReplace e p z = (d2.fill p e).attach p z := by
      rw [Directory.createReplace, detached]
      simp only [attached]
    rw [result]
    by_cases self : z = p
    · subst self
      refine ⟨false, _, t', opened.attach_self fits.ends, opened.indexed_fill fits.ends, nofun, fun _ => ⟨?_, ?_⟩, nofun,
        fun found => absurd rfl found.2⟩
      · intro x hx
        have entry := relinked.entry x (h.nodes x (inside x hx))
        exact ⟨inside x hx, entry.trans (opened.other (opened.nodes x hx) (opened.ne hx)).1⟩
      · intro x hx live
        exact ((subset x).mp hx).resolve_right fun here => live (here ▸ deleted)
    · have hz' : z ∈ t'.inorder := ((subset z).mp hz).resolve_right self
      obtain ⟨d', t'', hung, indexed, member, same, carries⟩ := opened.insert fits.ends fits.inode fits.live
        (fun x hx => by rw [keys x (inside x hx)]; exact missing x (inside x hx)) hz' (by
          intro x hx ne
          rw [keys x (inside x hx), keys z hz]
          exact near x (inside x hx) ne)
      refine ⟨true, d', t'', hung, indexed, fun _ => ⟨carries, ?_, ?_, fun _ => deleted⟩, nofun,
        fun _ => ⟨root, self⟩, fun _ => rfl⟩
      · intro x
        rw [member, subset, or_assoc, or_self]
      · intro x hx ne
        exact (relinked.entry x (h.nodes x hx)).trans (same x (((subset x).mp hx).resolve_right ne))

/-- Give the last `n` bytes of the record at `p` to a record of their own. -/
def Directory.cut (d : Directory) (p : Position) (n : Nat) : Directory :=
  (d.setRecordSize p (d.recordSize p - n)).setRecordSize ⟨p.block, p.offset + (d.recordSize p - n)⟩ n

section Cut

variable {n : Nat} {q : Position}

theorem Directory.sameBytes_cut (laid : Laid d L) (hp : L.Has p) (hq : L.Has q) (header : szDirRecord ≤ n)
    (room : szDirRecord + d.nameSize p + n ≤ d.recordSize p) {lo hi : Nat} (clear : hi ≤ 2 ∨ 4 ≤ lo)
    (inside : hi ≤ if q = p then d.recordSize p - n else d.recordSize q) : SameBytes d (d.cut p n) q lo hi := by
  unfold szDirRecord at header room
  intro j low high
  have offs : Off p 2 2 q j 1 ∧ Off p (d.recordSize p - n + 2) 2 q j 1 := by
    by_cases here : q = p
    · subst here
      rw [if_pos rfl] at inside
      exact ⟨Off.parts q (by omega), Off.parts q (by omega)⟩
    · rw [if_neg here] at inside
      exact ⟨laid.off hp hq here (by omega) (by omega), laid.off hp hq here (by omega) (by omega)⟩
  unfold cut setRecordSize store
  rw [byte_write_out offs.2.shift, byte_write_out offs.1]

/-- What is left of the record and the other records say the same as before. -/
theorem Directory.sameEntry_cut (laid : Laid d L) (hp : L.Has p) (hq : L.Has q) (header : szDirRecord ≤ n)
    (room : szDirRecord + d.nameSize p + n ≤ d.recordSize p) :
    SameEntry d (d.cut p n) q ∧ ∀ l, (d.cut p n).link l q = d.link l q := by
  have bound : szDirRecord + d.nameSize q ≤ if q = p then d.recordSize p - n else d.recordSize q := by
    split
    · next here =>
      rw [here]
      omega
    · exact laid.room q hq
  have same : ∀ lo hi, hi ≤ 2 ∨ 4 ≤ lo → hi ≤ (if q = p then d.recordSize p - n else d.recordSize q) →
      SameBytes d (d.cut p n) q lo hi := fun _ _ => sameBytes_cut laid hp hq header room
  unfold szDirRecord at bound
  refine ⟨SameEntry.of_bytes (same 0 2 (by omega) (by omega)) (same 4 9 (by omega) (by omega))
    (same _ _ (by unfold szDirRecord; omega) (by unfold szDirRecord; omega)), fun l => ?_⟩
  exact (same 9 27 (by omega) (by omega)).link l

theorem Directory.recordSize_cut_of_ne (laid : Laid d L) (hp : L.Has p) (hq : L.Has q) (ne : q ≠ p)
    (header : szDirRecord ≤ n) (room : szDirRecord + d.nameSize p + n ≤ d.recordSize p) :
    (d.cut p n).recordSize q = d.recordSize q := by
  unfold szDirRecord at header room
  have headerQ := laid.header hq
  unfold szDirRecord at headerQ
  rw [recordSize_eq, cut, setRecordSize, setRecordSize,
    read_store_out (Off.shift (laid.off hp hq ne (by omega) (by omega))),
    read_store_out (laid.off hp hq ne (by omega) (by omega)), recordSize_eq]

theorem Directory.recordSize_cut (header : szDirRecord ≤ n)
    (room : szDirRecord + d.nameSize p + n ≤ d.recordSize p) : (d.cut p n).recordSize p = d.recordSize p - n := by
  have small := d.recordSize_lt p
  unfold szDirRecord at header room
  rw [recordSize_eq, cut, setRecordSize, setRecordSize, read_store_out (Off.shift (Off.parts p (by omega))), read_store]
  omega

theorem Directory.recordSize_cut_new (room : n ≤ d.recordSize p) :
    (d.cut p n).recordSize ⟨p.block, p.offset + (d.recordSize p - n)⟩ = n := by
  have small := d.recordSize_lt p
  rw [recordSize_eq, cut, setRecordSize, read_store]
  omega

/-- Cutting a record with enough room behind its name makes a blank record. -/
theorem Indexed.cut (h : Indexed d L t) (hp : p ∈ t.inorder) (header : szDirRecord ≤ n)
    (room : szDirRecord + d.nameSize p + n ≤ d.recordSize p) :
    ∃ L' : Layout, (∀ q, L'.Has q ↔ L.Has q ∨ q = ⟨p.block, p.offset + (d.recordSize p - n)⟩) ∧
      Opened (d.cut p n) L' t ⟨p.block, p.offset + (d.recordSize p - n)⟩ (n - szDirRecord) := by
  have hasP := h.nodes p hp
  have block := h.laid.hasBlock hasP
  have inside := h.laid.inside hasP
  have tiles := h.laid.tiles p.block block
  obtain ⟨pre, post, list⟩ := List.append_of_mem hasP
  have positive : 0 < d.recordSize p - n ∧ 0 < n ∧ n ≤ d.recordSize p := by
    unfold szDirRecord at header room
    omega
  let new : Position := ⟨p.block, p.offset + (d.recordSize p - n)⟩
  have absent : ¬ L.Has new := by
    intro there
    have apart := tiles.apart hasP there (show p.offset ≠ p.offset + (d.recordSize p - n) by omega)
    rcases apart with far | far
    · have far : p.offset + d.recordSize p ≤ p.offset + (d.recordSize p - n) := far
      omega
    · have far : p.offset + (d.recordSize p - n) + d.recordSize new ≤ p.offset := far
      omega
  let L' : Layout := Function.update L p.block (pre ++ p.offset :: (p.offset + (d.recordSize p - n)) :: post)
  have has : ∀ q, L'.Has q ↔ L.Has q ∨ q = new := by
    intro q
    unfold Layout.Has
    by_cases same : q.block = p.block
    · have differ : q = new ↔ q.offset = p.offset + (d.recordSize p - n) := by
        constructor
        · intro equal
          rw [equal]
        · intro equal
          cases q
          simp_all [new]
      rw [differ, same, list]
      simp only [L', Function.update_self, List.mem_append, List.mem_cons]
      simp only [or_assoc, or_comm, or_left_comm]
    · have differ : q ≠ new := fun equal => same (by rw [equal])
      simp only [L', Function.update_of_ne same, differ, or_false]
  have old : ∀ q, L'.Has q → q ≠ new → L.Has q := fun q hq ne => ((has q).mp hq).resolve_right ne
  have entry : ∀ q, L.Has q → SameEntry d (d.cut p n) q ∧ ∀ l, (d.cut p n).link l q = d.link l q := fun q hq =>
    Directory.sameEntry_cut h.laid hasP hq header room
  have size : ∀ q, L.Has q → q ≠ p → (d.cut p n).recordSize q = d.recordSize q := fun q hq ne =>
    Directory.recordSize_cut_of_ne h.laid hasP hq ne header room
  refine ⟨L', has, ?_⟩
  exact {
    starts := by
      intro q hq
      rcases (has q).mp hq with old | rfl
      · exact h.laid.starts q old
      · have small := h.small
        unfold szDirRecord at header
        unfold invalidBlockOffset
        change p.offset + (d.recordSize p - n) < 0xffff
        omega
    small := h.small
    few := h.laid.few
    outside := by
      intro b hb
      have : b ≠ p.block := fun equal => Nat.not_lt.mpr hb (equal ▸ block)
      simp only [L', Function.update_of_ne this]
      exact h.laid.outside b hb
    tiles := by
      intro b hb
      by_cases same : b = p.block
      · subst same
        rw [list] at tiles
        have left : (d.cut p n).recordSize ⟨p.block, p.offset⟩ = d.recordSize p - n := Directory.recordSize_cut header room
        have right := Directory.recordSize_cut_new (d := d) positive.2.2
        have split : Tiles (fun o => (d.cut p n).recordSize ⟨p.block, o⟩) 0 d.unitSize
            (pre ++ p.offset :: (p.offset + (d.cut p n).recordSize ⟨p.block, p.offset⟩) :: post) := by
          refine tiles.split ?_ ?_ ?_ fun x hx => ?_
          · exact left ▸ positive.1
          · rw [left, right]
            exact positive.2.1
          · rw [left, right]
            exact Nat.sub_add_cancel positive.2.2
          · have hq : L.Has ⟨p.block, x⟩ := by
              unfold Layout.Has
              rw [list]
              simp only [List.mem_append, List.mem_cons] at hx ⊢
              exact hx.imp_right Or.inr
            refine size ⟨p.block, x⟩ hq fun equal => ?_
            have offset : x = p.offset := congrArg Position.offset equal
            rw [offset] at hx
            exact (List.nodup_cons.mp (List.nodup_middle.mp tiles.nodup)).1 hx
        rw [left] at split
        simp only [L', Function.update_self]
        exact split
      · simp only [L', Function.update_of_ne same]
        refine (h.laid.tiles b hb).congr fun o ho => ?_
        have hq : L.Has ⟨b, o⟩ := ho
        exact size ⟨b, o⟩ hq fun equal => same (by rw [← equal])
    top := by
      unfold szDirRecord at header room
      have top := h.laid.top
      change (d.cut p n).top ≤ d.unitSize
      exact Directory.write_top (Directory.write_top top (by omega)) (by simp only; omega)
    has := (has new).mpr (Or.inr rfl)
    fits := by
      rw [Directory.recordSize_cut_new positive.2.2]
      omega
    room := by
      intro q hq ne
      have hq := old q hq ne
      rw [(entry q hq).1.nameSize]
      by_cases here : q = p
      · rw [here, Directory.recordSize_cut header room]
        omega
      · rw [size q hq here]
        exact h.laid.room q hq
    ends := fun q hq ne => (entry q (old q hq ne)).1.ends (h.laid.ends q (old q hq ne))
    nodes := fun x hx => (has x).mpr (Or.inl (h.nodes x hx))
    linked := h.linked.congr fun x hx => Directory.same_links (entry x (h.nodes x hx)).2
    ordered := h.ordered.congr fun x hx => h.laid.key (h.nodes x hx) (entry x (h.nodes x hx)).1
    root := by
      have top := h.root
      unfold Directory.HasBlock at block
      rwa [if_neg (by omega)] at top
    sized := h.sized
    tombs := fun x hx dead => h.tombs x hx ((entry x (h.nodes x hx)).1.deleted.mp dead)
    fresh := fun there => absent (h.nodes _ there) }

end Cut

theorem Laid.slack (laid : Laid d L) (hp : L.Has p) : d.slack p = d.recordSize p - szDirRecord - d.nameSize p := by
  have room := laid.room p hp
  have small := d.recordSize_lt p
  unfold Directory.slack
  unfold szDirRecord at *
  omega

/-- The new record takes the end of the record at `p`. -/
theorem Indexed.createInplace (h : Indexed d L t) (fits : e.Fits d.unitSize)
    (missing : ∀ x ∈ t.inorder, d.key x ≠ chars e.name) (hp : p ∈ t.inorder)
    (room : szDirRecord + e.szName ≤ d.slack p) (hz : z ∈ t.inorder)
    (near : ∀ x ∈ t.inorder, x ≠ z → (chars e.name < d.key x ↔ d.key z < d.key x)) :
    ∃ (d' : Directory) (L' : Layout) (t' : BinaryTree Position) (q : Position),
      d.createInplace e p z = some (true, d') ∧ Indexed d' L' t' ∧ Added d d' t t' q e ∧ q ∉ t.inorder := by
  have hasP := h.nodes p hp
  have enough : szDirRecord + d.nameSize p + (szDirRecord + e.szName) ≤ d.recordSize p := by
    have space := h.laid.room p hasP
    rw [h.laid.slack hasP] at room
    unfold szDirRecord at *
    omega
  have inside := h.laid.inside hasP
  have small := h.small
  obtain ⟨L', has, opened⟩ := h.cut hp (Nat.le_add_right szDirRecord e.szName) enough
  rw [Nat.add_sub_cancel_left] at opened
  have entry : ∀ q, L.Has q → SameEntry d (d.cut p (szDirRecord + e.szName)) q := fun q hq =>
    (Directory.sameEntry_cut h.laid hasP hq (Nat.le_add_right ..) enough).1
  have keys : ∀ x ∈ t.inorder, (d.cut p (szDirRecord + e.szName)).key x = d.key x := fun x hx =>
    h.laid.key (h.nodes x hx) (entry x (h.nodes x hx))
  have nrec : (szDirRecord + e.szName) % 2 ^ 16 = szDirRecord + e.szName := Nat.mod_eq_of_lt (by omega)
  have left : (d.recordSize p + 2 ^ 16 - (szDirRecord + e.szName)) % 2 ^ 16 =
      d.recordSize p - (szDirRecord + e.szName) := by omega
  have shrunk : (d.setRecordSize p (d.recordSize p - (szDirRecord + e.szName))).recordSize p =
      d.recordSize p - (szDirRecord + e.szName) := by
    rw [Directory.recordSize_eq, Directory.setRecordSize, Directory.read_store]
    omega
  have offset : (p.offset + (d.recordSize p - (szDirRecord + e.szName))) % 2 ^ 16 =
      p.offset + (d.recordSize p - (szDirRecord + e.szName)) := Nat.mod_eq_of_lt (by omega)
  obtain ⟨d', t', hung, indexed, member, same, carries⟩ := opened.insert fits.ends fits.inode fits.live
    (fun x hx => by rw [keys x hx]; exact missing x hx) hz (by
      intro x hx ne
      rw [keys x hx, keys z hz]
      exact near x hx ne)
  refine ⟨d', L', t', _, ?_, indexed, ⟨carries, member, fun x hx _ => ?_, fun there => absurd there opened.fresh⟩,
    opened.fresh⟩
  · rw [Directory.createInplace]
    simp only [nrec, left, shrunk, offset]
    exact hung
  · exact (entry x (h.nodes x hx)).trans (same x hx)

/-- A new block, with one record for all of it. -/
def Directory.appended (d : Directory) : Directory := d.append.setRecordSize ⟨d.dunits, 0⟩ d.unitSize

theorem Directory.blocks_appended {b : Nat} (old : b < d.dunits) : d.appended.blocks b = d.blocks b := by
  unfold appended setRecordSize store
  rw [blocks_write_of_ne (Nat.ne_of_lt old)]
  exact Function.update_of_ne (Nat.ne_of_lt old) _ _

theorem Directory.sameBytes_appended {q : Position} (old : q.block < d.dunits) (lo hi : Nat) :
    SameBytes d d.appended q lo hi := by
  intro i _ _
  unfold byte
  rw [blocks_appended old]

/-- The layout with one more block of one record. -/
def Layout.appended (L : Layout) (b : Nat) : Layout := Function.update L b [0]

theorem Laid.has_appended (laid : Laid d L) {q : Position} :
    (L.appended d.dunits).Has q ↔ L.Has q ∨ q = ⟨d.dunits, 0⟩ := by
  unfold Layout.Has Layout.appended
  by_cases new : q.block = d.dunits
  · have none : L q.block = [] := laid.outside q.block (by omega)
    rw [none, new, Function.update_self, List.mem_singleton]
    constructor
    · intro zero
      right
      cases q
      simp_all
    · rintro (there | rfl)
      · cases there
      · rfl
  · rw [Function.update_of_ne new]
    have differ : q ≠ ⟨d.dunits, 0⟩ := fun equal => new (by rw [equal])
    simp only [differ, or_false]

theorem Laid.blank_appended {n : Nat} (laid : Laid d L) (small : d.unitSize < 2 ^ 16)
    (left : d.dunits < invalidBlockNumber) (room : szDirRecord + n ≤ d.unitSize) : Blank d.appended (L.appended d.dunits) ⟨d.dunits, 0⟩ n := by
  have whole : d.appended.recordSize ⟨d.dunits, 0⟩ = d.unitSize := Directory.read_store small
  have old : ∀ q, (L.appended d.dunits).Has q → q ≠ ⟨d.dunits, 0⟩ → L.Has q := fun q hq ne =>
    (laid.has_appended.mp hq).resolve_right ne
  have same : ∀ q, L.Has q → SameBytes d d.appended q 0 (d.recordSize q) := fun q hq =>
    Directory.sameBytes_appended (laid.hasBlock hq) _ _
  have size : ∀ q, L.Has q → d.appended.recordSize q = d.recordSize q := by
    intro q hq
    have header := laid.header hq
    unfold szDirRecord at header
    exact (same q hq).read (by omega) (by omega)
  have entry : ∀ q, L.Has q → SameEntry d d.appended q := by
    intro q hq
    have space := laid.room q hq
    have header := laid.header hq
    unfold szDirRecord at header
    exact SameEntry.of_bytes ((same q hq).mono (by omega) (by omega)) ((same q hq).mono (by omega) (by omega))
      ((same q hq).mono (by omega) space)
  exact {
    starts := by
      intro q hq
      rcases laid.has_appended.mp hq with old | rfl
      · exact laid.starts q old
      · show 0 < invalidBlockOffset
        decide
    small := small
    few := left
    outside := by
      intro b hb
      have hb : d.dunits + 1 ≤ b := hb
      unfold Layout.appended
      rw [Function.update_of_ne (by omega)]
      exact laid.outside b (by omega)
    tiles := by
      intro b hb
      have hb : b < d.dunits + 1 := hb
      unfold Layout.appended
      by_cases new : b = d.dunits
      · subst new
        rw [Function.update_self]
        refine ⟨rfl, ?_, ?_⟩
        · change 0 < d.appended.recordSize ⟨d.dunits, 0⟩
          unfold szDirRecord at room
          omega
        · change 0 + d.appended.recordSize ⟨d.dunits, 0⟩ = d.unitSize
          rw [whole, Nat.zero_add]
      · rw [Function.update_of_ne new]
        refine (laid.tiles b (by omega)).congr fun o ho => ?_
        have hq : L.Has ⟨b, o⟩ := ho
        exact size ⟨b, o⟩ hq
    top := by
      have top := laid.top
      unfold szDirRecord at room
      refine Directory.write_top (Nat.max_le.mpr ⟨top, Nat.le_refl _⟩) ?_
      change 0 + 2 + 2 ≤ d.unitSize
      omega
    has := laid.has_appended.mpr (Or.inr rfl)
    fits := by
      rw [whole]
      exact room
    room := by
      intro q hq ne
      have hq := old q hq ne
      rw [(entry q hq).nameSize, size q hq]
      exact laid.room q hq
    ends := fun q hq ne => (entry q (old q hq ne)).ends (laid.ends q (old q hq ne)) }

theorem Indexed.entry_appended (h : Indexed d L t) {x : Position} (hx : x ∈ t.inorder) :
    SameEntry d d.appended x ∧ ∀ l, d.appended.link l x = d.link l x := by
  have same := Directory.sameBytes_appended (h.laid.hasBlock (h.nodes x hx))
  exact ⟨SameEntry.of_bytes (same _ _) (same _ _) (same _ _), fun l => (same _ _).link l⟩

/-- A new block for an entry in a directory that has records already. -/
theorem Indexed.opened_appended {n : Nat} (h : Indexed d L t) (left : d.dunits < invalidBlockNumber)
    (room : szDirRecord + n ≤ d.unitSize) (used : d.dunits ≠ 0) :
    Opened d.appended (L.appended d.dunits) t ⟨d.dunits, 0⟩ n where
  toBlank := h.laid.blank_appended h.small left room
  nodes x hx := h.laid.has_appended.mpr (Or.inl (h.nodes x hx))
  linked := h.linked.congr fun x hx => Directory.same_links (h.entry_appended hx).2
  ordered := h.ordered.congr fun x hx => h.laid.key (h.nodes x hx) (h.entry_appended hx).1
  root := by
    have root := h.root
    rwa [if_neg used] at root
  sized := by
    have sized := h.sized
    change d.sz + d.unitSize = (d.dunits + 1) * d.unitSize
    rw [sized, Nat.succ_mul]
  tombs x hx dead := h.tombs x hx ((h.entry_appended hx).1.deleted.mp dead)
  fresh there := Nat.lt_irrefl _ (h.laid.hasBlock (h.nodes _ there))

theorem Directory.createAppend_eq (d : Directory) (e : NewEntry) (z : Position) :
    d.createAppend e z = if d.sz = 0 then some (true, d.appended.fill ⟨d.dunits, 0⟩ e)
      else (d.appended.fill ⟨d.dunits, 0⟩ e).attach ⟨d.dunits, 0⟩ z := rfl

/-- The very first record is the root of the tree. -/
theorem Indexed.first (h : Indexed d L t) (fits : e.Fits d.unitSize) (empty : d.dunits = 0) :
    Indexed (d.appended.fill ⟨d.dunits, 0⟩ e) (L.appended d.dunits) (.node ⟨d.dunits, 0⟩ .nil .nil) := by
  have blank := h.laid.blank_appended (n := e.szName) h.small (by rw [empty]; decide) fits.room
  have filled := blank.filled fits.ends fits.inode
  exact {
    small := by
      rw [Directory.fill_unitSize]
      exact blank.small
    laid := blank.laid_fill fits.ends
    nodes := by
      intro x hx
      simp only [inorder, List.nil_append, List.mem_singleton] at hx
      exact hx ▸ blank.has
    linked := Directory.linked_single filled.link
    ordered := by simp [Ordered, inorder]
    root := by
      rw [Directory.fill_dunits]
      change some (⟨d.dunits, 0⟩ : Position) = if d.dunits + 1 = 0 then none else some ⟨0, 0⟩
      rw [if_neg (by omega), empty]
    sized := by
      have sized := h.sized
      rw [Directory.fill_sz, Directory.fill_dunits, Directory.fill_unitSize]
      change d.sz + d.unitSize = (d.dunits + 1) * d.unitSize
      rw [sized, Nat.succ_mul]
    tombs := by
      intro x hx _
      simp only [inorder, List.nil_append, List.mem_singleton] at hx
      rw [hx] }

/-- The new record starts a block. -/
theorem Indexed.createAppend (h : Indexed d L t) (left : d.dunits < invalidBlockNumber) (fits : e.Fits d.unitSize)
    (missing : ∀ x ∈ t.inorder, d.key x ≠ chars e.name)
    (near : d.dunits ≠ 0 → z ∈ t.inorder ∧ ∀ x ∈ t.inorder, x ≠ z → (chars e.name < d.key x ↔ d.key z < d.key x)) :
    ∃ (d' : Directory) (L' : Layout) (t' : BinaryTree Position) (q : Position),
      d.createAppend e z = some (true, d') ∧ Indexed d' L' t' ∧ Added d d' t t' q e ∧ q ∉ t.inorder := by
  have positive : 0 < d.unitSize := by
    have := fits.room
    unfold szDirRecord at this
    omega
  rw [Directory.createAppend_eq]
  by_cases empty : d.dunits = 0
  · have blank := h.laid.blank_appended (n := e.szName) h.small left fits.room
    have filled := blank.filled fits.ends fits.inode
    have none : t = .nil := by
      have root := h.root
      rw [if_pos empty] at root
      cases t with
      | nil => rfl
      | node => cases root
    subst none
    rw [if_pos (by rw [h.sized, empty, Nat.zero_mul])]
    refine ⟨_, _, _, ⟨d.dunits, 0⟩, rfl, h.first fits empty, ⟨filled.toCarries, ?_, nofun, nofun⟩, nofun⟩
    intro x
    simp [inorder]
  · have opened := h.opened_appended (n := e.szName) left fits.room empty
    have keys : ∀ x ∈ t.inorder, d.appended.key x = d.key x := fun x hx =>
      h.laid.key (h.nodes x hx) (h.entry_appended hx).1
    obtain ⟨hz, near⟩ := near empty
    obtain ⟨d', t', hung, indexed, member, same, carries⟩ := opened.insert fits.ends fits.inode fits.live
      (fun x hx => by rw [keys x hx]; exact missing x hx) hz (by
        intro x hx ne
        rw [keys x hx, keys z hz]
        exact near x hx ne)
    have used : d.sz ≠ 0 := by
      rw [h.sized]
      exact Nat.mul_ne_zero empty (by omega)
    rw [if_neg used]
    refine ⟨d', _, t', _, hung, indexed, ⟨carries, member, fun x hx _ => ?_, fun there => absurd there opened.fresh⟩,
      opened.fresh⟩
    exact (h.entry_appended hx).1.trans (same x hx)

end Ways

/-! ## The whole call -/

/-- A new entry gets a place: a deleted record that is neither the root nor the last one visited, or else the end of a record
with room behind its name, or else a block of its own. -/
def Found.Admits (out : Found) (space : Bool) : Prop :=
  if out.deleted.block ≠ invalidBlockNumber then out.deleted ≠ ⟨0, 0⟩ ∧ out.last ≠ out.deleted
  else out.inplace.block ≠ invalidBlockNumber ∨ space = true

namespace Indexed

variable {d : Directory} {L : Layout} {t : BinaryTree Position} {e : NewEntry} {x : Position}

/-- A live name is not created again. -/
theorem create_live (h : Indexed d L t) (hx : x ∈ t.inorder) (same : d.key x = chars e.name) (live : ¬ d.Deleted x) :
    d.create e = some (false, d) := by
  obtain ⟨out, find, found, _⟩ := h.find_live e.szName hx same live
  rw [Directory.create, find]
  simp only [found, if_true]

/-- A name that a record has is refused, and the search for that of a deleted one does not return. -/
theorem createIn_taken (h : Indexed d L t) (hx : x ∈ t.inorder) (same : d.key x = chars e.name) {space r : Bool}
    {d' : Directory} (call : d.createIn space e = some (r, d')) : ¬ d.Deleted x ∧ r = false ∧ d' = d := by
  by_cases dead : d.Deleted x
  · rw [Directory.createIn, h.find_dead e.szName hx same dead] at call
    cases call
  · obtain ⟨out, find, found, _⟩ := h.find_live e.szName hx same dead
    rw [Directory.createIn, find] at call
    simp only [found, if_true, Option.some.injEq, Prod.mk.injEq] at call
    exact ⟨dead, call.1.symm, call.2.symm⟩

/-- A name no record has is created where there is a place for it; otherwise no live record is touched. -/
theorem createIn_missing (h : Indexed d L t) {space : Bool} (left : space = true → d.dunits < invalidBlockNumber)
    (fits : e.Fits d.unitSize) (missing : ∀ x ∈ t.inorder, d.key x ≠ chars e.name) :
    ∃ (out : Found) (r : Bool) (d' : Directory) (L' : Layout) (t' : BinaryTree Position),
      d.find e.name e.szName = some out ∧ d.createIn space e = some (r, d') ∧ Indexed d' L' t' ∧
      (r = true → ∃ q, Added d d' t t' q e ∧
        if out.deleted.block ≠ invalidBlockNumber then q = out.deleted else q ∉ t.inorder) ∧
      (r = false → Stays d d' t t') ∧ (r = true ↔ out.Admits space) ∧ Noted d e.szName t out := by
  obtain ⟨out, find, found, last, noted⟩ := h.find_missing e.szName missing
  have neighbour : ∀ x ∈ t.inorder, out.last ∈ t.inorder ∧
      ∀ y ∈ t.inorder, y ≠ out.last → (chars e.name < d.key y ↔ d.key out.last < d.key y) := by
    intro x hx
    obtain ⟨z, hz, visited, near⟩ := h.last missing hx
    rw [visited, Option.getD_some] at last
    exact last ▸ ⟨hz, near⟩
  have create : d.createIn space e =
      if out.deleted.block ≠ invalidBlockNumber then d.createReplace e out.deleted out.last
      else if out.inplace.block ≠ invalidBlockNumber then d.createInplace e out.inplace out.last
      else if space then d.createAppend e out.last
      else some (false, d) := by
    rw [Directory.createIn, find]
    simp only [found, Bool.false_eq_true, if_false]
  rw [create]
  by_cases reuse : out.deleted.block ≠ invalidBlockNumber
  · obtain ⟨hp, deleted, room⟩ := noted.deleted reuse
    obtain ⟨hz, near⟩ := neighbour _ hp
    obtain ⟨r, d', t', result, indexed, added, stays, success⟩ := h.createReplace fits missing hp deleted room hz near
    rw [if_pos reuse]
    refine ⟨out, r, d', L, t', find, result, indexed, fun yes => ⟨_, added yes, by rw [if_pos reuse]⟩, stays,
      success.trans ?_, noted⟩
    unfold Found.Admits
    rw [if_pos reuse]
    have used : d.dunits ≠ 0 := by
      have block := h.laid.hasBlock (h.nodes _ hp)
      unfold Directory.HasBlock at block
      omega
    rw [h.root, if_neg used]
    exact and_congr_left' (not_congr ⟨fun same => (Option.some.inj same).symm, fun same => congrArg some same.symm⟩)
  · rw [if_neg reuse]
    have admits : out.Admits space ↔ out.inplace.block ≠ invalidBlockNumber ∨ space = true := by
      unfold Found.Admits
      rw [if_neg reuse]
    by_cases inplace : out.inplace.block ≠ invalidBlockNumber
    · obtain ⟨hp, room⟩ := noted.inplace inplace
      obtain ⟨hz, near⟩ := neighbour _ hp
      obtain ⟨d', L', t', q, result, indexed, added, fresh⟩ := h.createInplace fits missing hp room hz near
      rw [if_pos inplace]
      exact ⟨out, true, d', L', t', find, result, indexed, fun _ => ⟨q, added, by rwa [if_neg reuse]⟩, nofun,
        iff_of_true rfl (admits.mpr (Or.inl inplace)), noted⟩
    · rw [if_neg inplace]
      cases space with
      | false =>
        refine ⟨out, false, d, L, t, find, rfl, h, nofun, fun _ => Stays.refl d t, iff_of_false nofun fun place => ?_, noted⟩
        rcases admits.mp place with room | room
        · exact inplace room
        · cases room
      | true =>
        have near : d.dunits ≠ 0 → out.last ∈ t.inorder ∧
            ∀ y ∈ t.inorder, y ≠ out.last → (chars e.name < d.key y ↔ d.key out.last < d.key y) := by
          intro used
          have root := h.root
          rw [if_neg used] at root
          exact neighbour _ (root?_mem root)
        obtain ⟨d', L', t', q, result, indexed, added, fresh⟩ := h.createAppend (left rfl) fits missing near
        exact ⟨out, true, d', L', t', find, result, indexed, fun _ => ⟨q, added, by rwa [if_neg reuse]⟩, nofun,
          iff_of_true rfl (admits.mpr (Or.inr rfl)), noted⟩

/-- On a volume with room, only a deleted record can be in the way. -/
theorem create_missing (h : Indexed d L t) (left : d.dunits < invalidBlockNumber) (fits : e.Fits d.unitSize)
    (missing : ∀ x ∈ t.inorder, d.key x ≠ chars e.name) :
    ∃ (r : Bool) (d' : Directory) (L' : Layout) (t' : BinaryTree Position), d.create e = some (r, d') ∧
      Indexed d' L' t' ∧ (r = true → ∃ q, Added d d' t t' q e) ∧ (r = false → Stays d d' t t') ∧
      ((∀ x ∈ t.inorder, ¬ d.Deleted x) → r = true) := by
  obtain ⟨out, r, d', L', t', _, create, indexed, added, stays, success, noted⟩ :=
    h.createIn_missing (fun _ : true = true => left) fits missing
  refine ⟨r, d', L', t', create, indexed, fun yes => ?_, stays, fun none => success.mpr ?_⟩
  · obtain ⟨q, added, _⟩ := added yes
    exact ⟨q, added⟩
  · unfold Found.Admits
    split
    · next reuse => exact absurd (noted.deleted reuse).2.1 (none _ (noted.deleted reuse).1)
    · exact Or.inr rfl

/-- A returning call keeps the directory a search tree of tiled records. -/
theorem create_indexed (h : Indexed d L t) (left : d.dunits < invalidBlockNumber) (fits : e.Fits d.unitSize)
    {r : Bool} {d' : Directory} (call : d.create e = some (r, d')) :
    ∃ (L' : Layout) (t' : BinaryTree Position), Indexed d' L' t' := by
  by_cases there : ∃ x ∈ t.inorder, d.key x = chars e.name
  · obtain ⟨x, hx, same⟩ := there
    obtain ⟨_, _, rfl⟩ := h.createIn_taken hx same (d.createIn_true e ▸ call)
    exact ⟨L, t, h⟩
  · obtain ⟨r', d'', L', t', result, indexed, _⟩ := h.create_missing left fits fun x hx same => there ⟨x, hx, same⟩
    rw [result] at call
    cases call
    exact ⟨L', t', indexed⟩

end Indexed

end PreTeO.Mgfs3
