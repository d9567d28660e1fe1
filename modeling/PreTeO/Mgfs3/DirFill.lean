import PreTeO.Mgfs3.DirFind

/-!
# Filling in a record

A record is filled in at a place of its own: inside a deleted record, at the end of a record with
enough room, or at the start of a new block. The other records do not notice.
-/

namespace PreTeO.Mgfs3
set_option autoImplicit false
open PreTeO.Lib BinaryTree

/-- An entry the callers of `mgfs_dentry_create` pass, small enough for a unit. -/
structure NewEntry.Fits (e : NewEntry) (unitSize : Nat) : Prop where
  room : szDirRecord + e.szName ≤ unitSize
  ends : Ends e.name e.szName
  inode : e.inodeNumber < 2 ^ 32
  live : e.flags &&& dentryDeleted = 0#8

section Fill

variable {d : Directory} {p q : Position} {e : NewEntry} {j k : Nat}

/-- Everything outside the new record is left alone. -/
theorem Directory.read_fill_out (off : Off p 0 (szDirRecord + e.szName) q j k) :
    (d.fill p e).read q j k = d.read q j k := by
  have part : ∀ i n, i + n ≤ szDirRecord + e.szName → Off p i n q j k := fun i n inside =>
    off.sub (Nat.zero_le i) (by omega) (Nat.le_refl j) (Nat.le_refl _)
  unfold szDirRecord at part
  unfold fill setNameSize setFlags setInodeNumber szDirRecord
  rw [read_write_out (part _ _ (by omega)), read_setLink_out (part _ _ (by simp [Link.place]; omega)),
    read_setLink_out (part _ _ (by simp [Link.place]; omega)), read_setLink_out (part _ _ (by simp [Link.place]; omega)),
    read_store_out (part _ _ (by omega)), read_write_out (part _ _ (by omega)), read_store_out (part _ _ (by omega))]

theorem Directory.byte_fill_out (off : Off p 0 (szDirRecord + e.szName) q j 1) :
    (d.fill p e).byte q j = d.byte q j := by
  have part : ∀ i n, i + n ≤ szDirRecord + e.szName → Off p i n q j 1 := fun i n inside =>
    off.sub (Nat.zero_le i) (by omega) (Nat.le_refl j) (Nat.le_refl _)
  unfold szDirRecord at part
  unfold fill setNameSize setFlags setInodeNumber szDirRecord store
  rw [byte_write_out (part _ _ (by omega)), byte_setLink_out (part _ _ (by simp [Link.place]; omega)),
    byte_setLink_out (part _ _ (by simp [Link.place]; omega)), byte_setLink_out (part _ _ (by simp [Link.place]; omega)),
    byte_write_out (part _ _ (by omega)), byte_write_out (part _ _ (by omega)), byte_write_out (part _ _ (by omega))]

@[simp] theorem Directory.fill_unitSize : (d.fill p e).unitSize = d.unitSize := by
  simp only [fill, setNameSize, setFlags, setInodeNumber, setLink, write_unitSize, store_unitSize]

@[simp] theorem Directory.fill_dunits : (d.fill p e).dunits = d.dunits := by
  simp only [fill, setNameSize, setFlags, setInodeNumber, setLink, write_dunits, store_dunits]

@[simp] theorem Directory.fill_sz : (d.fill p e).sz = d.sz := by
  simp only [fill, setNameSize, setFlags, setInodeNumber, setLink, write_sz, store_sz]

/-- Two parts of one record. -/
theorem Off.parts (p : Position) {i n j k : Nat} (h : j + k ≤ i ∨ i + n ≤ j) : Off p i n p j k := Off.self h

theorem Directory.recordSize_fill : (d.fill p e).recordSize p = d.recordSize p := by
  simp only [recordSize_eq, fill, setNameSize, setFlags, setInodeNumber]
  rw [read_write_out (Off.parts p (Or.inl (by decide))), read_setLink_out (Off.parts p (by decide)),
    read_setLink_out (Off.parts p (by decide)), read_setLink_out (Off.parts p (by decide)),
    read_store_out (Off.parts p (by decide)), read_write_out (Off.parts p (by decide)),
    read_store_out (Off.parts p (by decide))]

theorem Directory.nameSize_fill (small : e.szName < 2 ^ 16) : (d.fill p e).nameSize p = e.szName := by
  simp only [nameSize_eq, fill, setNameSize, setFlags, setInodeNumber]
  rw [read_write_out (Off.parts p (Or.inl (by decide))), read_setLink_out (Off.parts p (by decide)),
    read_setLink_out (Off.parts p (by decide)), read_setLink_out (Off.parts p (by decide)),
    read_store_out (Off.parts p (by decide)), read_write_out (Off.parts p (by decide)), read_store small]

theorem Directory.inodeNumber_fill (small : e.inodeNumber < 2 ^ 32) :
    (d.fill p e).inodeNumber p = e.inodeNumber := by
  simp only [inodeNumber_eq, fill, setNameSize, setFlags, setInodeNumber]
  rw [read_write_out (Off.parts p (Or.inl (by decide))), read_setLink_out (Off.parts p (by decide)),
    read_setLink_out (Off.parts p (by decide)), read_setLink_out (Off.parts p (by decide)), read_store small]

theorem Directory.flags_fill : (d.fill p e).flags p = e.flags := by
  simp only [flags, fill, setNameSize, setFlags, setInodeNumber, store]
  rw [byte_write_out (Off.parts p (Or.inl (by decide))), byte_setLink_out (Off.parts p (by decide)),
    byte_setLink_out (Off.parts p (by decide)), byte_setLink_out (Off.parts p (by decide)),
    byte_write_out (Off.parts p (by decide)), byte_write_in (by decide) (by decide)]

theorem Directory.name_fill {i : Nat} (hi : i < e.szName) : (d.fill p e).name p i = e.name i := by
  simp only [name, fill]
  rw [byte_write_in (by omega) (by omega)]
  exact congrArg e.name (by omega)

theorem Directory.link_fill (l : Link) : (d.fill p e).link l p = .invalid := by
  have outer : ∀ d' : Directory, (d'.write p szDirRecord e.szName e.name).link l p = d'.link l p := by
    intro d'
    have place := l.place_le
    rw [link_eq, link_eq, read_write_out (Off.parts p (Or.inl (by unfold szDirRecord; omega))),
      read_write_out (Off.parts p (Or.inl (by unfold szDirRecord; omega)))]
  have other : ∀ (d' : Directory) (l' : Link), l ≠ l' → (d'.setLink l' p .invalid).link l p = d'.link l p := by
    intro d' l' ne
    rw [link_eq, link_eq, read_setLink_out (Off.parts p (by cases l <;> cases l' <;> first | exact absurd rfl ne | decide)),
      read_setLink_out (Off.parts p (by cases l <;> cases l' <;> first | exact absurd rfl ne | decide))]
  rw [fill, outer]
  cases l with
  | left => rw [other _ _ (by simp), other _ _ (by simp), link_setLink Position.small_invalid]
  | parent => rw [other _ _ (by simp), link_setLink Position.small_invalid]
  | right => rw [link_setLink Position.small_invalid]

theorem Directory.setLink_top {m : Nat} {l : Link} (top : d.top ≤ m) (inside : p.offset + 27 ≤ m) :
    (d.setLink l p q).top ≤ m := by
  have place := l.place_le
  exact write_top (write_top top (by omega)) (by omega)

theorem Directory.top_fill {m : Nat} (top : d.top ≤ m) (inside : p.offset + (szDirRecord + e.szName) ≤ m) :
    (d.fill p e).top ≤ m := by
  unfold szDirRecord at inside
  have head : ((((d.setNameSize p e.szName).setFlags p e.flags).setInodeNumber p e.inodeNumber)).top ≤ m :=
    write_top (write_top (write_top top (by omega)) (by omega)) (by omega)
  have links : (((((d.setNameSize p e.szName).setFlags p e.flags).setInodeNumber p e.inodeNumber).setLink .left p
      .invalid).setLink .parent p .invalid |>.setLink .right p .invalid).top ≤ m :=
    setLink_top (setLink_top (setLink_top head (by omega)) (by omega)) (by omega)
  exact write_top links (by unfold szDirRecord; omega)

end Fill

/-- The record at `p` has room for a name of `n` bytes; nothing else is known about it. -/
structure Blank (d : Directory) (L : Layout) (p : Position) (n : Nat) : Prop extends Tiled d L where
  small : d.unitSize < 2 ^ 16
  has : L.Has p
  fits : szDirRecord + n ≤ d.recordSize p
  room : ∀ q, L.Has q → q ≠ p → szDirRecord + d.nameSize q ≤ d.recordSize q
  ends : ∀ q, L.Has q → q ≠ p → Ends (d.name q) (d.nameSize q)

/-- The record at `p` says what the new entry says. -/
structure Carries (d : Directory) (p : Position) (e : NewEntry) : Prop where
  key : d.key p = chars e.name
  nameSize : d.nameSize p = e.szName
  name : ∀ i, i < e.szName → d.name p i = e.name i
  inodeNumber : d.inodeNumber p = e.inodeNumber
  flags : d.flags p = e.flags

/-- It also has no links. -/
structure Filled (d : Directory) (p : Position) (e : NewEntry) : Prop extends Carries d p e where
  link : ∀ l, d.link l p = .invalid

/-- What a record says stays as long as the record does not change. -/
theorem Carries.same {d d' : Directory} {p : Position} {e : NewEntry} (carries : Carries d p e) (same : SameEntry d d' p)
    (ends : Ends (d.name p) (d.nameSize p)) : Carries d' p e where
  key := (same.key ends).trans carries.key
  nameSize := same.nameSize.trans carries.nameSize
  name i hi := (same.name i (carries.nameSize.symm ▸ hi)).trans (carries.name i hi)
  inodeNumber := same.inodeNumber.trans carries.inodeNumber
  flags := same.flags.trans carries.flags

section Blank

variable {d : Directory} {L : Layout} {p q : Position} {e : NewEntry}

theorem Blank.small_name {n : Nat} (blank : Blank d L p n) : n < 2 ^ 16 := by
  have inside := blank.inside blank.has
  have fits := blank.fits
  have small := blank.small
  omega

/-- The other records, seen before and after. -/
theorem Blank.other (blank : Blank d L p e.szName) (hq : L.Has q) (ne : q ≠ p) :
    SameEntry d (d.fill p e) q ∧ (d.fill p e).recordSize q = d.recordSize q ∧
      ∀ l, (d.fill p e).link l q = d.link l q := by
  have room := blank.room q hq ne
  have off : ∀ {j k}, j + k ≤ d.recordSize q → Off p 0 (szDirRecord + e.szName) q j k := fun inside =>
    blank.off blank.has hq ne (by rw [Nat.zero_add]; exact blank.fits) inside
  unfold szDirRecord at room
  have bytes : SameBytes d (d.fill p e) q 0 (d.recordSize q) := fun i _ high =>
    Directory.byte_fill_out (off (by omega))
  refine ⟨SameEntry.of_bytes (bytes.mono (Nat.zero_le _) (by omega)) (bytes.mono (Nat.zero_le _) (by omega))
    (bytes.mono (Nat.zero_le _) (by unfold szDirRecord; omega)), Directory.read_fill_out (off (by omega)), fun l => ?_⟩
  exact (bytes.mono (Nat.zero_le _) (by omega)).link l

theorem Blank.laid_fill (blank : Blank d L p e.szName) (ends : Ends e.name e.szName) : Laid (d.fill p e) L where
  starts := blank.starts
  few := by
    rw [Directory.fill_dunits]
    exact blank.few
  outside := by
    rw [Directory.fill_dunits]
    exact blank.outside
  tiles b hb := by
    rw [Directory.fill_dunits] at hb
    rw [Directory.fill_unitSize]
    refine (blank.tiles b hb).congr fun o ho => ?_
    by_cases here : (⟨b, o⟩ : Position) = p
    · rw [here, Directory.recordSize_fill]
    · have hq : L.Has ⟨b, o⟩ := ho
      exact (blank.other hq here).2.1
  top := by
    have inside := blank.inside blank.has
    have fits := blank.fits
    rw [Directory.fill_unitSize]
    exact Directory.top_fill blank.top (show p.offset + (szDirRecord + e.szName) ≤ d.unitSize by omega)
  room q hq := by
    by_cases here : q = p
    · rw [here, Directory.recordSize_fill, Directory.nameSize_fill blank.small_name]
      exact blank.fits
    · obtain ⟨same, size, _⟩ := blank.other (e := e) hq here
      rw [same.nameSize, size]
      exact blank.room q hq here
  ends q hq := by
    by_cases here : q = p
    · obtain ⟨k, hk, zero⟩ := ends
      rw [here, Directory.nameSize_fill blank.small_name]
      exact ⟨k, hk, by rw [Directory.name_fill hk, zero]⟩
    · exact (blank.other hq here).1.ends (blank.ends q hq here)

theorem Blank.filled (blank : Blank d L p e.szName) (ends : Ends e.name e.szName) (inode : e.inodeNumber < 2 ^ 32) :
    Filled (d.fill p e) p e where
  key := charsN_congr ends (fun _ hi => Directory.name_fill hi) (Nat.le_of_lt blank.small_name)
    (Nat.le_of_lt blank.small_name)
  nameSize := Directory.nameSize_fill blank.small_name
  name _ hi := Directory.name_fill hi
  inodeNumber := Directory.inodeNumber_fill inode
  flags := Directory.flags_fill
  link := Directory.link_fill

/-- A record in use is a blank place as well. -/
theorem Laid.blank {n : Nat} (laid : Laid d L) (small : d.unitSize < 2 ^ 16) (hp : L.Has p)
    (fits : szDirRecord + n ≤ d.recordSize p) : Blank d L p n where
  toTiled := laid.toTiled
  small := small
  has := hp
  fits := fits
  room q hq _ := laid.room q hq
  ends q hq _ := laid.ends q hq

end Blank

/-! ## Attaching the new record -/

/-- The last record visited in a search is next to the new name, so hanging the new record in below it
is hanging it into the tree. -/
theorem Directory.attach_new {d : Directory} {L : Layout} {p z : Position} {t : BinaryTree Position} (laid : Laid d L)
    (linked : t.Linked d.links none) (nodes : ∀ x ∈ t.inorder, L.Has x) (ordered : t.Ordered d.key)
    (hp : L.Has p) (fresh : p ∉ t.inorder) (single : ∀ l, d.link l p = .invalid)
    (missing : ∀ x ∈ t.inorder, d.key x ≠ d.key p) (hz : z ∈ t.inorder)
    (near : ∀ x ∈ t.inorder, x ≠ z → (d.key p < d.key x ↔ d.key z < d.key x)) :
    ∃ d', d.attach p z = some (true, d') ∧ Relinked L d d' ∧
      (t.graft d.key (d.key p) (.node p .nil .nil)).Linked d'.links none := by
  obtain ⟨c, l, r, rfl⟩ := exists_fill hz
  have memT : ∀ x ∈ (node z l r).inorder, x ∈ (c.fill (node z l r)).inorder := fun x hx =>
    Hole.mem_fill.mpr (Or.inr (Or.inl hx))
  have sub : (node p .nil .nil).Linked d.links none := Directory.linked_single single
  have once := ordered.nodup
  have nodupT : (node z l r).inorder.Nodup :=
    once.sublist (by rw [Hole.inorder_fill, List.append_assoc]; simp)
  have apart : ∀ x ∈ c.before ++ c.after, x ∉ (node z l r).inorder := by
    intro x hx inside
    have count := List.nodup_iff_count_le_one.mp once x
    simp only [Hole.inorder_fill, ← List.count_pos_iff, List.count_append] at hx inside count
    omega
  have outer : ∀ x ∈ c.before ++ c.after, x ∈ (c.fill (node z l r)).inorder := fun x hx =>
    Hole.mem_fill.mpr ((List.mem_append.mp hx).imp_right Or.inr)
  obtain ⟨d', attached, relinked, grafted, same⟩ := attach_graft laid (linked_fill.mp linked).2 sub
    (by
      intro x hx
      rcases List.mem_append.mp hx with inside | inside
      · exact nodes x (memT x inside)
      · simp only [inorder, List.nil_append, List.mem_singleton] at inside
        exact inside ▸ hp)
    (by
      refine List.nodup_append.mpr ⟨nodupT, by simp [inorder], fun a ha b hb equal => ?_⟩
      simp only [inorder, List.nil_append, List.mem_singleton] at hb
      exact fresh (hb ▸ equal ▸ memT a ha))
    (show (node z l r).root? = some z from rfl) (show (node p .nil .nil).root? = some p from rfl)
    (fun x hx => missing x (memT x hx))
  refine ⟨d', attached, relinked, ?_⟩
  have leads : c.Leads d.key (d.key p) := ordered.leads (root?_mem rfl) fun x hx =>
    near x (outer x hx) fun equal => apart x hx (equal ▸ root?_mem rfl)
  rw [graft_fill leads]
  refine linked.refill (root?_graft (by simp)) (fun x hx => ?_) grafted
  exact same x (nodes x (outer x hx)) (apart x hx) fun equal => fresh (equal ▸ outer x hx)

end PreTeO.Mgfs3
