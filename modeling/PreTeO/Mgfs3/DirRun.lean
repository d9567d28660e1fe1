import PreTeO.Lib.Run
import PreTeO.Mgfs3.DirDelete

/-!
# Runs of a directory

Every directory reached from an empty one is a search tree of tiled records, as long as the entries
created fit into a unit. From it follow the tiling of the blocks and when a lookup ends.
-/

namespace PreTeO.Mgfs3
set_option autoImplicit false
open PreTeO.Lib BinaryTree

theorem Indexed.empty {unitSize : Nat} (small : unitSize < 2 ^ 16) :
    Indexed (Directory.empty unitSize) (fun _ => []) .nil where
  small := small
  laid := {
    starts := fun _ hp => nomatch hp
    few := Nat.zero_le _
    outside := fun _ _ => rfl
    tiles := fun _ hb => absurd hb (Nat.not_lt_zero _)
    top := Nat.zero_le _
    room := fun _ hp => nomatch hp
    ends := fun _ hp => nomatch hp }
  nodes _ hx := nomatch hx
  linked := trivial
  ordered := List.Pairwise.nil
  root := rfl
  sized := (Nat.zero_mul unitSize).symm
  tombs _ hx := nomatch hx

/-- The directory is a search tree of tiled records. -/
def Directory.IsIndexed (d : Directory) : Prop := ∃ (L : Layout) (t : BinaryTree Position), Indexed d L t

/-- Entries that fit, as long as there are block numbers left; anything may be deleted. -/
def DirCall.Fits (d : Directory) : DirCall → Prop
  | .create e => d.dunits < invalidBlockNumber ∧ e.Fits d.unitSize
  | .delete _ => True

instance (e : NewEntry) (unitSize : Nat) : Decidable (e.Fits unitSize) :=
  decidable_of_iff (szDirRecord + e.szName ≤ unitSize ∧ Ends e.name e.szName ∧ e.inodeNumber < 2 ^ 32 ∧
    e.flags &&& dentryDeleted = 0#8) ⟨fun h => ⟨h.1, h.2.1, h.2.2.1, h.2.2.2⟩, fun h => ⟨h.room, h.ends, h.inode, h.live⟩⟩

instance (d : Directory) : (c : DirCall) → Decidable (c.Fits d)
  | .create _ => inferInstanceAs (Decidable (_ ∧ _))
  | .delete _ => inferInstanceAs (Decidable True)

theorem reach_indexed {unitSize : Nat} {d : Directory} (small : unitSize < 2 ^ 16)
    (run : Reach Directory.step (fun d c => c.Fits d) (Directory.empty unitSize) d) : d.IsIndexed := by
  have start : (Directory.empty unitSize).IsIndexed := ⟨_, _, Indexed.empty small⟩
  refine run.invariant start ?_
  rintro s c d' ⟨L, t, indexed⟩ meets step
  cases c with
  | create e =>
    obtain ⟨⟨r, d''⟩, call, rfl⟩ := Option.map_eq_some_iff.mp step
    exact indexed.create_indexed meets.1 meets.2 call
  | delete name =>
    obtain ⟨⟨r, d''⟩, call, rfl⟩ := Option.map_eq_some_iff.mp step
    exact indexed.delete_indexed call

/-! ## Lookups end -/

/-- The records that child links lead to from the first record of the first block. -/
inductive Directory.InTree (d : Directory) : Position → Prop
  | root (used : d.dunits ≠ 0) : d.InTree ⟨0, 0⟩
  | child {p q : Position} (side : Side) (above : d.InTree p) (link : d.links.child side p = some q) : d.InTree q

theorem Directory.inTree_of_mem {d : Directory} {t : BinaryTree Position} {o : Option Position}
    (linked : t.Linked d.links o) (root : ∀ p, t.root? = some p → d.InTree p) : ∀ x ∈ t.inorder, d.InTree x := by
  induction t generalizing o with
  | nil => exact nofun
  | node a l r ihl ihr =>
    obtain ⟨left, right, _, linkedL, linkedR⟩ := linked
    have top := root a rfl
    intro x hx
    rcases mem_inorder_node.mp hx with here | rfl | here
    · exact ihl linkedL (fun p hp => .child .left top (left.trans hp)) x here
    · exact top
    · exact ihr linkedR (fun p hp => .child .right top (right.trans hp)) x here

theorem Indexed.inTree_iff {d : Directory} {L : Layout} {t : BinaryTree Position} (h : Indexed d L t) {x : Position} :
    d.InTree x ↔ x ∈ t.inorder := by
  constructor
  · intro tree
    induction tree with
    | root used =>
      have root := h.root
      rw [if_neg used] at root
      exact root?_mem root
    | child side _ link ih => exact h.linked.child_mem ih link
  · refine Directory.inTree_of_mem h.linked (fun p hp => ?_) x
    have root := h.root
    rw [hp] at root
    split at root
    · cases root
    · next used =>
      cases root
      exact .root used

/-- In every directory reached, the search for a name ends exactly if no deleted record in the tree has
that name. -/
theorem find_returns_iff {unitSize : Nat} {d : Directory} (small : unitSize < 2 ^ 16)
    (run : Reach Directory.step (fun d c => c.Fits d) (Directory.empty unitSize) d) (name : Nat → Byte)
    (szName : Nat) : d.Returns name szName ↔ ∀ x, d.InTree x → d.Deleted x → d.key x ≠ chars name := by
  obtain ⟨L, t, h⟩ := reach_indexed small run
  rw [h.returns_iff]
  constructor
  · exact fun live x tree dead same => live x (h.inTree_iff.mp tree) same dead
  · exact fun none x hx same dead => none x (h.inTree_iff.mpr hx) dead same

/-- A string in memory. -/
def cString (s : List Nat) : Nat → Byte := fun i => BitVec.ofNat 8 (s.getD i 0)

/-- The run `mgfs_file_create` starts a directory with, and the deletion of one of its entries. -/
def dotCalls : List DirCall :=
  [.create ⟨cString [46], 2, 1, 0#8⟩, .create ⟨cString [46, 46], 3, 1, 0#8⟩, .delete (cString [46])]

/-- The search for a name in a directory with two entries ends. -/
theorem find_returns_two : ∃ d, Reach Directory.step (fun d c => c.Fits d) (Directory.empty 512) d ∧
    d.Returns (cString [46]) 2 ∧ ∀ x, d.InTree x → d.Deleted x → d.key x ≠ chars (cString [46]) := by
  have run : (runAll Directory.step (fun d c => c.Fits d) (Directory.empty 512) (dotCalls.take 2)).map
      (fun d => (d.find (cString [46]) 2).isSome) = some true := by decide +kernel
  obtain ⟨d, reached, found⟩ := Option.map_eq_some_iff.mp run
  have reach := Reach.of_runAll _ reached
  obtain ⟨out, find⟩ := Option.isSome_iff_exists.mp found
  have returns : d.Returns (cString [46]) 2 := ⟨_, out, find⟩
  exact ⟨d, reach, returns, (find_returns_iff (by decide) reach _ _).mp returns⟩

/-- The search for the deleted first entry never ends. -/
theorem find_deleted_first_hangs : ∃ d, Reach Directory.step (fun d c => c.Fits d) (Directory.empty 512) d ∧
    ¬ d.Returns (cString [46]) 2 := by
  have run : (runAll Directory.step (fun d c => c.Fits d) (Directory.empty 512) dotCalls).map
      (fun d => decide (d.dunits ≠ 0 ∧ d.key ⟨0, 0⟩ = chars (cString [46]) ∧ d.Deleted ⟨0, 0⟩)) = some true := by
    decide +kernel
  obtain ⟨d, reached, marked⟩ := Option.map_eq_some_iff.mp run
  obtain ⟨used, same, deleted⟩ := of_decide_eq_true marked
  have reach := Reach.of_runAll _ reached
  obtain ⟨L, t, h⟩ := reach_indexed (by decide) reach
  exact ⟨d, reach, h.not_returns (h.inTree_iff.mp (.root used)) same deleted⟩

/-! ## Blocks stay tiled -/

def fsMaxPath : Nat := 256

/-- The entries that `file.cpp` creates. -/
inductive Creation where
  /-- `mgfs_file_create` and `mgfs_file_create_hard_link`. -/
  | file (name : List Nat) (inodeNumber : Nat)
  /-- `mgfs_file_create_soft_link`: the path follows the name. -/
  | softLink (linkName pathName : List Nat)

/-- What is passed to `mgfs_dentry_create`. -/
def Creation.entry : Creation → NewEntry
  | .file name inodeNumber => ⟨cString name, name.length + 1, inodeNumber, 0#8⟩
  | .softLink linkName pathName =>
    ⟨cString (linkName ++ 0 :: pathName), (linkName.length + pathName.length + 2) % 2 ^ 16, invalidInodeNumber, dentryLink⟩

/-- Characters of a string other than its final zero. -/
def IsPath (s : List Nat) : Prop := s.length ≤ fsMaxPath ∧ ∀ c ∈ s, 0 < c ∧ c < 256

instance (s : List Nat) : Decidable (IsPath s) := inferInstanceAs (Decidable (_ ∧ ∀ c ∈ s, _))

/-- Names and paths up to the limit of the file system. -/
def Creation.Allowed : Creation → Prop
  | .file name inodeNumber => IsPath name ∧ inodeNumber < 2 ^ 32
  | .softLink linkName pathName => IsPath linkName ∧ IsPath pathName

instance : (c : Creation) → Decidable c.Allowed
  | .file _ _ => inferInstanceAs (Decidable (_ ∧ _))
  | .softLink _ _ => inferInstanceAs (Decidable (_ ∧ _))

/-- A call on the files of one directory. -/
inductive FileCall where
  | create (creation : Creation)
  | delete (name : Nat → Byte)

def FileCall.dirCall : FileCall → DirCall
  | .create c => .create c.entry
  | .delete name => .delete name

def Directory.fileStep (d : Directory) (c : FileCall) : Option Directory := d.step c.dirCall

/-- Names up to the limit, as long as there are block numbers left. -/
def FileCall.Allowed (d : Directory) : FileCall → Prop
  | .create c => d.dunits < invalidBlockNumber ∧ c.Allowed
  | .delete _ => True

instance (d : Directory) : (c : FileCall) → Decidable (c.Allowed d)
  | .create _ => inferInstanceAs (Decidable (_ ∧ _))
  | .delete _ => inferInstanceAs (Decidable True)

/-- The new record is not larger than a unit. -/
def FileCall.InUnit (d : Directory) : FileCall → Prop
  | .create c => szDirRecord + c.entry.szName ≤ d.unitSize
  | .delete _ => True

instance (d : Directory) : (c : FileCall) → Decidable (c.InUnit d)
  | .create _ => inferInstanceAs (Decidable (_ ≤ _))
  | .delete _ => inferInstanceAs (Decidable True)

theorem Creation.fits {c : Creation} {unitSize : Nat} (allowed : c.Allowed)
    (room : szDirRecord + c.entry.szName ≤ unitSize) : c.entry.Fits unitSize := by
  cases c with
  | file name inodeNumber =>
    exact ⟨room, ⟨name.length, Nat.lt_succ_self _, by simp [entry, cString]⟩, allowed.2, show 0#8 &&& dentryDeleted = 0#8 by decide⟩
  | softLink linkName pathName =>
    have link := allowed.1.1
    have path := allowed.2.1
    unfold fsMaxPath at link path
    refine ⟨room, ⟨linkName.length, ?_, by simp [entry, cString]⟩, show invalidInodeNumber < 2 ^ 32 by decide,
      show dentryLink &&& dentryDeleted = 0#8 by decide⟩
    simp only [entry]
    rw [Nat.mod_eq_of_lt (by omega)]
    omega

/-- The records of every block lie end to end and fill it, each has room for its header and its name,
and no byte was written past the end of a block buffer. -/
def Directory.ExactlyTiled (d : Directory) : Prop :=
  (∀ b, b < d.dunits → ∃ offsets : List Nat, Tiles (fun o => d.recordSize ⟨b, o⟩) 0 d.unitSize offsets ∧
    (offsets.map fun o => d.recordSize ⟨b, o⟩).sum = d.unitSize ∧
    ∀ o ∈ offsets, szDirRecord + d.nameSize ⟨b, o⟩ ≤ d.recordSize ⟨b, o⟩) ∧
  d.top ≤ d.unitSize

/-- Blocks stay tiled in every run whose new records fit into a unit of less than 64 KiB. -/
theorem blocks_stay_tiled {unitSize : Nat} {d : Directory} (small : unitSize < 2 ^ 16)
    (run : Reach Directory.fileStep (fun d c => c.Allowed d ∧ c.InUnit d) (Directory.empty unitSize) d) :
    d.ExactlyTiled := by
  have start : (Directory.empty unitSize).IsIndexed := ⟨_, _, Indexed.empty small⟩
  have indexed : d.IsIndexed := by
    refine run.invariant start ?_
    rintro s c d' ⟨L, t, indexed⟩ ⟨allowed, room⟩ step
    cases c with
    | create c =>
      obtain ⟨⟨r, d''⟩, call, rfl⟩ := Option.map_eq_some_iff.mp step
      exact indexed.create_indexed allowed.1 (c.fits allowed.2 room) call
    | delete name =>
      obtain ⟨⟨r, d''⟩, call, rfl⟩ := Option.map_eq_some_iff.mp step
      exact indexed.delete_indexed call
  obtain ⟨L, t, h⟩ := indexed
  refine ⟨fun b hb => ⟨L b, h.laid.tiles b hb, ?_, fun o ho => h.laid.room ⟨b, o⟩ ho⟩, h.laid.top⟩
  have sum := (h.laid.tiles b hb).sum
  rwa [Nat.zero_add] at sum

/-- Two files, one of them deleted again. -/
theorem blocks_stay_tiled_two : ∃ d,
    Reach Directory.fileStep (fun d c => c.Allowed d ∧ c.InUnit d) (Directory.empty 512) d ∧ d.dunits = 1 ∧
      d.ExactlyTiled := by
  have run : (runAll Directory.fileStep (fun d c => c.Allowed d ∧ c.InUnit d) (Directory.empty 512)
      [.create (.file [97] 7), .create (.file [98] 8), .delete (cString [98])]).map
      (fun d => decide (d.dunits = 1)) = some true := by decide +kernel
  obtain ⟨d, reached, one⟩ := Option.map_eq_some_iff.mp run
  have reach := Reach.of_runAll _ reached
  exact ⟨d, reach, of_decide_eq_true one, blocks_stay_tiled (by decide) reach⟩

/-- A soft link with a long name and a long path is written past the end of a unit of 512 bytes. -/
theorem long_soft_link_overflows : ∃ d,
    Reach Directory.fileStep (fun d c => c.Allowed d) (Directory.empty 512) d ∧ ¬ d.ExactlyTiled := by
  have run : (runAll Directory.fileStep (fun d c => c.Allowed d) (Directory.empty 512)
      [.create (.softLink (List.replicate 240 97) (List.replicate 240 98))]).map
      (fun d => decide (d.unitSize < d.top)) = some true := by decide +kernel
  obtain ⟨d, reached, past⟩ := Option.map_eq_some_iff.mp run
  refine ⟨d, Reach.of_runAll _ reached, fun tiled => ?_⟩
  exact Nat.not_lt.mpr tiled.2 (of_decide_eq_true past)

end PreTeO.Mgfs3
