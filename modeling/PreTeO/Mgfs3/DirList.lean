import PreTeO.Mgfs3.ContextIoctl
import PreTeO.Mgfs3.DirRun
import PreTeO.Mgfs3.InodeFile

/-!
# Listing a directory

`mgfs_dentry_list` walks the search tree in order and looks at the inode of every record, but not at the mark of a deleted
one. `live` is a history variable: the entries that were created and neither deleted nor moved away since.
-/

namespace PreTeO.Mgfs3
set_option autoImplicit false
open PreTeO.Lib BinaryTree

def mgfsHidden : Nat := 0x400

/-- What the callback is called with; a string is its characters. -/
structure Listed where
  inodeFlags : Nat
  dentryFlags : Byte
  name : List Int
  linkPath : Option (List Int)
  ct : Nat
  mt : Nat
  owner : Nat
  size : Nat
deriving DecidableEq

/-- What `mgfs_inode_open` finds under the number, and zeros where it finds nothing. -/
def inodeView (inodes : Nat → Option Cxt.InodeView) (number : Nat) : Cxt.InodeView :=
  if number ≠ invalidInodeNumber then (inodes number).getD ⟨0, 0, 0, 0, 0⟩ else ⟨0, 0, 0, 0, 0⟩

/-- The callback is called for entries of this inode. -/
def Shown (inodes : Nat → Option Cxt.InodeView) (number : Nat) : Prop :=
  (inodeView inodes number).flags &&& (mgfsDeleted ||| mgfsHidden) = 0

instance (inodes : Nat → Option Cxt.InodeView) (number : Nat) : Decidable (Shown inodes number) :=
  inferInstanceAs (Decidable (_ = _))

/-- The inode is not hidden. -/
def Visible (inodes : Nat → Option Cxt.InodeView) (number : Nat) : Prop := (inodeView inodes number).flags &&& mgfsHidden = 0

instance (inodes : Nat → Option Cxt.InodeView) (number : Nat) : Decidable (Visible inodes number) :=
  inferInstanceAs (Decidable (_ = _))

/-- The code takes what is flagged deleted for hidden. -/
theorem shown_iff {inodes : Nat → Option Cxt.InodeView} {number : Nat} :
    Shown inodes number ↔ (inodeView inodes number).flags &&& mgfsDeleted = 0 ∧ Visible inodes number := by
  unfold Shown Visible
  rw [Nat.and_or_distrib_left, Nat.or_eq_zero_iff]

/-- A call of the callback. -/
def listed (inodes : Nat → Option Cxt.InodeView) (number : Nat) (flags : Byte) (name path : Nat → Byte) : Listed :=
  let inode := inodeView inodes number
  ⟨inode.flags, flags, chars name, if flags &&& dentryLink ≠ 0#8 then some (chars path) else none, inode.cr, inode.mo,
    inode.owner, inode.sz⟩

/-- The call for the record at `p`. -/
def Directory.listed (d : Directory) (inodes : Nat → Option Cxt.InodeView) (p : Position) : Listed :=
  PreTeO.Mgfs3.listed inodes (d.inodeNumber p) (d.flags p) (d.name p) (d.linkName p)

/-- A child is walked through if there is one. -/
def listBelow (walk : Position → Option (List Listed)) (child : Position) : Option (List Listed) :=
  if child.block ≠ invalidBlockNumber ∧ child.offset ≠ invalidBlockOffset then walk child else some []

/-- `dentry_list`: the calls of the callback from the record at `p` on. -/
def Directory.listLoop (d : Directory) (inodes : Nat → Option Cxt.InodeView) : Nat → Position → Option (List Listed)
  | 0, _ => none
  | fuel + 1, p =>
    if d.HasBlock p then
      match listBelow (Directory.listLoop d inodes fuel) (d.link .left p),
        listBelow (Directory.listLoop d inodes fuel) (d.link .right p) with
      | some before, some after =>
        some (before ++ (if Shown inodes (d.inodeNumber p) then [d.listed inodes p] else []) ++ after)
      | _, _ => none
    else some []

/-- `mgfs_dentry_list` of an open inode that is a directory. -/
def Directory.list (d : Directory) (inodes : Nat → Option Cxt.InodeView) : Option (List Listed) :=
  d.listLoop inodes d.rounds ⟨0, 0⟩

/-! ## The walk -/

section Walk
variable {d : Directory} {L : Layout} {inodes : Nat → Option Cxt.InodeView} {p : Position}

/-- The records the callback is called for. -/
def Directory.shown (d : Directory) (inodes : Nat → Option Cxt.InodeView) (nodes : List Position) : List Position :=
  nodes.filter fun x => decide (Shown inodes (d.inodeNumber x))

/-- The calls are made in the order of the tree. -/
theorem Directory.listLoop_tree (laid : Laid d L) {t : BinaryTree Position} {q : Option Position}
    (linked : t.Linked d.links q) (nodes : ∀ x ∈ t.inorder, L.Has x) (root : t.root? = some p) {fuel : Nat}
    (enough : t.inorder.length ≤ fuel) :
    d.listLoop inodes fuel p = some ((d.shown inodes t.inorder).map (d.listed inodes)) := by
  induction t generalizing q p fuel with
  | nil => cases root
  | node a l r ihl ihr =>
    obtain rfl : a = p := Option.some.inj root
    obtain ⟨left, right, _, linkedL, linkedR⟩ := linked
    simp only [inorder, List.length_append, List.length_cons] at enough
    obtain ⟨fuel, rfl⟩ : ∃ n, fuel = n + 1 := ⟨fuel - 1, by omega⟩
    -- a subtree is walked through from its root, and a missing one is skipped
    have below : ∀ (side : Side) (s : BinaryTree Position), d.links.child side a = s.root? →
        (∀ x ∈ s.inorder, L.Has x) →
        (∀ b, s.root? = some b → d.listLoop inodes fuel b = some ((d.shown inodes s.inorder).map (d.listed inodes))) →
        listBelow (d.listLoop inodes fuel) (d.link (Link.child side) a) =
          some ((d.shown inodes s.inorder).map (d.listed inodes)) := by
      intro side s next has walk
      unfold listBelow
      cases s with
      | nil =>
        have none := Position.target_eq_none next
        rw [if_neg fun both => both.1 none]
        rfl
      | node b x y =>
        obtain ⟨go, valid⟩ := Position.target_eq_some next
        have there := laid.offset_lt (has b (root?_mem rfl))
        rw [go] at valid ⊢
        rw [if_pos ⟨valid, Nat.ne_of_lt there⟩]
        exact walk b rfl
    have first := below .left l left (fun x hx => nodes x (mem_inorder_node.mpr (Or.inl hx)))
      fun b hb => ihl linkedL (fun x hx => nodes x (mem_inorder_node.mpr (Or.inl hx))) hb (by omega)
    have second := below .right r right (fun x hx => nodes x (mem_inorder_node.mpr (Or.inr (Or.inr hx))))
      fun b hb => ihr linkedR (fun x hx => nodes x (mem_inorder_node.mpr (Or.inr (Or.inr hx)))) hb (by omega)
    dsimp only [Link.child] at first second
    rw [Directory.listLoop, if_pos (laid.hasBlock (nodes a (root?_mem rfl))), first, second]
    dsimp only [shown]
    rw [inorder, List.filter_append, List.filter_cons, List.map_append]
    by_cases shown : Shown inodes (d.inodeNumber a)
    · simp only [shown, if_true, decide_true, List.map_cons, List.append_assoc, List.cons_append, List.nil_append]
    · simp only [shown, if_false, decide_false, Bool.false_eq_true, List.append_nil]

/-- The whole listing. -/
theorem Indexed.list {t : BinaryTree Position} (h : Indexed d L t) :
    d.list inodes = some ((d.shown inodes t.inorder).map (d.listed inodes)) := by
  have rounds := h.laid.length_le h.nodes h.ordered.nodup
  have root := h.root
  unfold Directory.list
  by_cases empty : d.dunits = 0
  · rw [if_pos empty] at root
    have without : ¬ d.HasBlock ⟨0, 0⟩ := by
      unfold Directory.HasBlock
      omega
    cases t with
    | nil =>
      unfold Directory.rounds
      rw [Directory.listLoop, if_neg without]
      rfl
    | node => cases root
  · rw [if_neg empty] at root
    exact Directory.listLoop_tree h.laid h.linked h.nodes root (by omega)

end Walk

/-! ## Runs and their live entries -/

/-- The path behind the name of a link. -/
def NewEntry.linkName (e : NewEntry) : Nat → Byte := fun i => e.name (strLen e.name + 1 + i)

/-- A link brings its path along. -/
def NewEntry.HasPath (e : NewEntry) : Prop :=
  e.flags &&& dentryLink ≠ 0#8 → Ends e.linkName (e.szName - (strLen e.name + 1))

instance (e : NewEntry) : Decidable e.HasPath := inferInstanceAs (Decidable (_ → _))

/-- The call for an entry as it was created. -/
def NewEntry.listed (e : NewEntry) (inodes : Nat → Option Cxt.InodeView) : Listed :=
  PreTeO.Mgfs3.listed inodes e.inodeNumber e.flags e.name e.linkName

/-- A directory with the entries that are live in it. -/
structure ListRun where
  dir : Directory
  live : List Int → Option NewEntry

def ListRun.start (unitSize : Nat) : ListRun := ⟨Directory.empty unitSize, fun _ => none⟩

/-- One returning call. An entry comes with the creation that succeeds, and goes with the deletion that does; a move is a
creation in one directory and a deletion in another. -/
def ListRun.step (h : ListRun) : DirCall → Option ListRun
  | .create e => (h.dir.create e).map fun (r, d) =>
      ⟨d, if r then Function.update h.live (chars e.name) (some e) else h.live⟩
  | .delete name => (h.dir.delete name).map fun (r, d) =>
      ⟨d, if r then Function.update h.live (chars name) none else h.live⟩

/-- New entries fit into a unit, and a link has its path. -/
def DirCall.Proper (d : Directory) (c : DirCall) : Prop :=
  c.Fits d ∧ match c with
    | .create e => e.HasPath
    | .delete _ => True

instance (d : Directory) : (c : DirCall) → Decidable (c.Proper d)
  | .create _ => inferInstanceAs (Decidable (_ ∧ _))
  | .delete _ => inferInstanceAs (Decidable (_ ∧ True))

/-- The callback is called once for each live entry whose inode is not hidden, in the order of the names, with what the entry
and its inode say, and for nothing else. -/
def ListRun.ListsLive (h : ListRun) (inodes : Nat → Option Cxt.InodeView) : Prop :=
  ∃ names : List (List Int), names.Pairwise (· < ·) ∧ (∀ k, k ∈ names ↔ h.live k ≠ none) ∧
    h.dir.list inodes =
      some (((names.filterMap h.live).filter fun e => decide (Visible inodes e.inodeNumber)).map fun e => e.listed inodes)

/-- The records of the tree that are not deleted are the live entries. -/
structure Tracks (h : ListRun) (L : Layout) (t : BinaryTree Position) : Prop extends Indexed h.dir L t where
  live : ∀ k e, h.live k = some e →
    ∃ x ∈ t.inorder, ¬ h.dir.Deleted x ∧ h.dir.key x = k ∧ Carries h.dir x e ∧ e.HasPath
  alive : ∀ x ∈ t.inorder, ¬ h.dir.Deleted x → h.live (h.dir.key x) ≠ none

section Entry
variable {d : Directory} {x : Position} {e : NewEntry} {inodes : Nat → Option Cxt.InodeView}

/-- A record is listed as the entry it carries. -/
theorem Carries.listed (carries : Carries d x e) (path : e.HasPath) : d.listed inodes x = e.listed inodes := by
  have len : strLen (d.name x) = strLen e.name := congrArg (fun s => s.length - 1) carries.key
  unfold Directory.listed NewEntry.listed PreTeO.Mgfs3.listed
  dsimp only
  rw [carries.inodeNumber, carries.flags, show chars (d.name x) = chars e.name from carries.key]
  by_cases link : e.flags &&& dentryLink ≠ 0#8
  · have small : e.szName < 2 ^ 16 := carries.nameSize ▸ d.nameSize_lt x
    have same : chars (d.linkName x) = chars e.linkName := by
      refine charsN_congr (path link) (fun i hi => ?_) (by unfold maxStr; omega) (by unfold maxStr; omega)
      unfold Directory.linkName NewEntry.linkName
      rw [len]
      exact carries.name _ (by omega)
    rw [same]
  · rw [if_neg link, if_neg link]

end Entry

namespace Tracks
variable {h : ListRun} {L : Layout} {t : BinaryTree Position} {name : Nat → Byte} {e : NewEntry}

/-- A record that stays as it was and is live is found again. -/
theorem live_of (tracks : Tracks h L t) {d : Directory} {L' : Layout} {t' : BinaryTree Position} (indexed : Indexed d L' t')
    (old : ∀ x ∈ t'.inorder, x ∈ t.inorder ∧ SameEntry h.dir d x)
    (kept : ∀ x ∈ t.inorder, ¬ h.dir.Deleted x → x ∈ t'.inorder) : Tracks ⟨d, h.live⟩ L' t' where
  toIndexed := indexed
  live k e entry := by
    obtain ⟨x, hx, live, key, carries, path⟩ := tracks.live k e entry
    have same := (old x (kept x hx live)).2
    have ends := tracks.laid.ends x (tracks.nodes x hx)
    exact ⟨x, kept x hx live, fun dead => live (same.deleted.mp dead), (same.key ends).trans key, carries.same same ends, path⟩
  alive x hx live := by
    obtain ⟨there, same⟩ := old x hx
    have key := same.key (tracks.laid.ends x (tracks.nodes x there))
    have alive := tracks.alive x there fun dead => live (same.deleted.mpr dead)
    dsimp only
    rwa [key]

/-- A creation. -/
theorem create (tracks : Tracks h L t) (left : h.dir.dunits < invalidBlockNumber) (fits : e.Fits h.dir.unitSize)
    (path : e.HasPath) {r : Bool} {d : Directory} (call : h.dir.create e = some (r, d)) :
    ∃ (L' : Layout) (t' : BinaryTree Position),
      Tracks ⟨d, if r then Function.update h.live (chars e.name) (some e) else h.live⟩ L' t' := by
  by_cases there : ∃ x ∈ t.inorder, h.dir.key x = chars e.name
  · obtain ⟨x, hx, same⟩ := there
    obtain ⟨_, rfl, rfl⟩ := tracks.createIn_taken hx same (h.dir.createIn_true e ▸ call)
    exact ⟨L, t, tracks⟩
  have missing : ∀ x ∈ t.inorder, h.dir.key x ≠ chars e.name := fun x hx same => there ⟨x, hx, same⟩
  obtain ⟨r', d', L', t', result, indexed, success, failure, _⟩ := tracks.create_missing left fits missing
  cases result.symm.trans call
  refine ⟨L', t', ?_⟩
  cases r with
  | false =>
    have stays := failure rfl
    exact tracks.live_of indexed stays.old stays.live
  | true =>
    obtain ⟨q, added⟩ := success rfl
    have key : ∀ x ∈ t.inorder, x ≠ q → d.key x = h.dir.key x := fun x hx ne =>
      tracks.laid.key (tracks.nodes x hx) (added.old x hx ne)
    have live : d.Deleted q → False := by
      unfold Directory.Deleted
      rw [added.flags]
      exact fun dead => dead fits.live
    rw [if_pos rfl]
    refine ⟨indexed, fun k f entry => ?_, fun x hx alive => ?_⟩
    · dsimp only at entry
      by_cases here : k = chars e.name
      · subst here
        rw [Function.update_self] at entry
        obtain rfl := Option.some.inj entry
        exact ⟨q, (added.mem q).mpr (Or.inr rfl), live, added.key, added.toCarries, path⟩
      · rw [Function.update_of_ne here] at entry
        obtain ⟨x, hx, alive, name, carries, path⟩ := tracks.live k f entry
        have ne : x ≠ q := fun same => alive (same ▸ added.reused (same ▸ hx))
        have same := added.old x hx ne
        exact ⟨x, (added.mem x).mpr (Or.inl hx), fun dead => alive (same.deleted.mp dead), (key x hx ne).trans name,
          carries.same same (tracks.laid.ends x (tracks.nodes x hx)), path⟩
    · dsimp only
      by_cases here : x = q
      · rw [here, added.key, Function.update_self]
        exact nofun
      · have old := ((added.mem x).mp hx).resolve_right here
        have same := added.old x old here
        rw [key x old here, Function.update_of_ne (missing x old)]
        exact tracks.alive x old fun dead => alive (same.deleted.mpr dead)

/-- A deletion. -/
theorem delete (tracks : Tracks h L t) {r : Bool} {d : Directory} (call : h.dir.delete name = some (r, d)) :
    ∃ (L' : Layout) (t' : BinaryTree Position),
      Tracks ⟨d, if r then Function.update h.live (chars name) none else h.live⟩ L' t' := by
  by_cases there : ∃ x ∈ t.inorder, h.dir.key x = chars name
  · obtain ⟨p, hp, named⟩ := there
    by_cases dead : h.dir.Deleted p
    · rw [Directory.delete, tracks.find_dead _ hp named dead] at call
      cases call
    · obtain ⟨d', L', t', result, indexed, gone, _⟩ := tracks.recordDelete_gone hp
      rw [tracks.delete_live hp named dead] at call
      cases result.symm.trans call
      refine ⟨L', t', ?_⟩
      rw [if_pos rfl]
      refine ⟨indexed, fun k e entry => ?_, fun x hx alive => ?_⟩
      · dsimp only at entry
        by_cases here : k = chars name
        · rw [here, Function.update_self] at entry
          cases entry
        · rw [Function.update_of_ne here] at entry
          obtain ⟨x, hx, alive, key, carries, path⟩ := tracks.live k e entry
          have ne : x ≠ p := fun same => here (key.symm.trans (same ▸ named))
          have kept := gone.kept x hx ne
          have same := gone.entry x kept ne
          exact ⟨x, kept, fun dead => alive (same.deleted.mp dead), (gone.old x kept).2.trans key,
            carries.same same (tracks.laid.ends x (tracks.nodes x hx)), path⟩
      · dsimp only
        have ne : x ≠ p := fun same => alive (same ▸ gone.dead (same ▸ hx))
        obtain ⟨old, key⟩ := gone.old x hx
        have other : h.dir.key x ≠ chars name := fun same =>
          ne (tracks.ordered.key_inj old hp (same.trans named.symm))
        rw [key, Function.update_of_ne other]
        exact tracks.alive x old fun dead => alive ((gone.entry x hx ne).deleted.mpr dead)
  · rw [tracks.delete_missing fun x hx same => there ⟨x, hx, same⟩] at call
    cases call
    exact ⟨L, t, tracks⟩

/-- Every record that is not deleted is listed as the entry it carries. -/
theorem entries (tracks : Tracks h L t) (inodes : Nat → Option Cxt.InodeView) {nodes : List Position}
    (inside : ∀ x ∈ nodes, x ∈ t.inorder ∧ ¬ h.dir.Deleted x) :
    ((((nodes.map h.dir.key).filterMap h.live).filter fun e => decide (Shown inodes e.inodeNumber)).map fun e =>
      e.listed inodes) = (h.dir.shown inodes nodes).map (h.dir.listed inodes) := by
  induction nodes with
  | nil => rfl
  | cons x rest ih =>
    obtain ⟨hx, alive⟩ := inside x List.mem_cons_self
    obtain ⟨e, entry⟩ := Option.ne_none_iff_exists'.mp (tracks.alive x hx alive)
    obtain ⟨y, hy, _, key, carries, path⟩ := tracks.live _ e entry
    obtain rfl := tracks.ordered.key_inj hy hx key
    have later := ih fun z hz => inside z (List.mem_cons_of_mem _ hz)
    unfold Directory.shown at later ⊢
    rw [List.map_cons, List.filterMap_cons_some entry, List.filter_cons, List.filter_cons, carries.inodeNumber]
    by_cases shown : Shown inodes e.inodeNumber
    · simp only [shown, decide_true, if_true, List.map_cons, later, carries.listed path]
    · simp only [shown, decide_false, Bool.false_eq_true, if_false, later]

/-- The names of the live records. -/
theorem names (tracks : Tracks h L t) : ∃ nodes : List Position, nodes = t.inorder.filter (fun x => decide ¬ h.dir.Deleted x) ∧
    (nodes.map h.dir.key).Pairwise (· < ·) ∧ ∀ k, k ∈ nodes.map h.dir.key ↔ h.live k ≠ none := by
  refine ⟨_, rfl, ?_, fun k => ?_⟩
  · exact List.pairwise_map.mpr (tracks.ordered.filter _)
  · constructor
    · intro inside
      obtain ⟨x, hx, rfl⟩ := List.mem_map.mp inside
      obtain ⟨there, live⟩ := List.mem_filter.mp hx
      exact tracks.alive x there (of_decide_eq_true live)
    · intro live
      obtain ⟨e, entry⟩ := Option.ne_none_iff_exists'.mp live
      obtain ⟨x, hx, alive, key, _⟩ := tracks.live k e entry
      exact List.mem_map.mpr ⟨x, List.mem_filter.mpr ⟨hx, decide_eq_true alive⟩, key⟩

end Tracks

def ListRun.Tracked (h : ListRun) : Prop := ∃ (L : Layout) (t : BinaryTree Position), Tracks h L t

theorem ListRun.start_tracked {unitSize : Nat} (small : unitSize < 2 ^ 16) : (ListRun.start unitSize).Tracked :=
  ⟨_, _, Indexed.empty small, nofun, nofun⟩

/-- The records of the tree are the live entries throughout a run. -/
theorem ListRun.tracked {unitSize : Nat} {h : ListRun} (small : unitSize < 2 ^ 16)
    (run : Reach ListRun.step (fun h c => c.Proper h.dir) (ListRun.start unitSize) h) : h.Tracked := by
  refine run.invariant (ListRun.start_tracked small) ?_
  rintro s c s' ⟨L, t, tracks⟩ proper step
  cases c with
  | create e =>
    obtain ⟨⟨r, d⟩, call, rfl⟩ := Option.map_eq_some_iff.mp step
    exact tracks.create proper.1.1 proper.1.2 proper.2 call
  | delete name =>
    obtain ⟨⟨r, d⟩, call, rfl⟩ := Option.map_eq_some_iff.mp step
    exact tracks.delete call

/-- A deleted record whose inode is shown is listed, and no live entry is listed like that. -/
theorem Tracks.lists_deleted {h : ListRun} {L : Layout} {t : BinaryTree Position} (tracks : Tracks h L t)
    {inodes : Nat → Option Cxt.InodeView} {x : Position} (hx : x ∈ t.inorder) (dead : h.dir.Deleted x)
    (shown : Shown inodes (h.dir.inodeNumber x)) : ¬ h.ListsLive inodes := by
  rintro ⟨names, _, _, list⟩
  rw [tracks.list, Option.some.injEq] at list
  have inside : h.dir.listed inodes x ∈ (h.dir.shown inodes t.inorder).map (h.dir.listed inodes) :=
    List.mem_map_of_mem (List.mem_filter.mpr ⟨hx, decide_eq_true shown⟩)
  rw [list] at inside
  obtain ⟨e, he, same⟩ := List.mem_map.mp inside
  obtain ⟨k, _, entry⟩ := List.mem_filterMap.mp (List.mem_filter.mp he).1
  obtain ⟨y, _, alive, _, carries, _⟩ := tracks.live k e entry
  have flags : e.flags = h.dir.flags x := congrArg Listed.dentryFlags same
  unfold Directory.Deleted at dead alive
  rw [carries.flags, flags] at alive
  exact alive dead

/-- A live entry whose inode is flagged deleted, but not hidden, is not listed. -/
theorem Tracks.misses_deleted {h : ListRun} {L : Layout} {t : BinaryTree Position} (tracks : Tracks h L t)
    {inodes : Nat → Option Cxt.InodeView} {k : List Int} {e : NewEntry} (entry : h.live k = some e)
    (visible : Visible inodes e.inodeNumber) (lists : h.ListsLive inodes) : Shown inodes e.inodeNumber := by
  obtain ⟨names, _, members, list⟩ := lists
  rw [tracks.list, Option.some.injEq] at list
  have named : k ∈ names := (members k).mpr (by rw [entry]; exact Option.some_ne_none e)
  have inside : e.listed inodes ∈ ((names.filterMap h.live).filter fun e => decide (Visible inodes e.inodeNumber)).map
      fun e => e.listed inodes :=
    List.mem_map_of_mem (List.mem_filter.mpr ⟨List.mem_filterMap.mpr ⟨k, named, entry⟩, decide_eq_true visible⟩)
  rw [← list] at inside
  obtain ⟨x, hx, same⟩ := List.mem_map.mp inside
  have shown : Shown inodes (h.dir.inodeNumber x) := of_decide_eq_true (List.mem_filter.mp hx).2
  have flags : (inodeView inodes (h.dir.inodeNumber x)).flags = (inodeView inodes e.inodeNumber).flags :=
    congrArg Listed.inodeFlags same
  unfold Shown at shown ⊢
  rwa [← flags]

/-- In every run, the listing is that of the live entries if and only if the inode of every deleted record left in the tree is
itself flagged deleted or hidden, and that of a live entry is flagged deleted only if it is hidden. -/
theorem list_exact_iff {unitSize : Nat} {h : ListRun} (small : unitSize < 2 ^ 16)
    (run : Reach ListRun.step (fun h c => c.Proper h.dir) (ListRun.start unitSize) h)
    (inodes : Nat → Option Cxt.InodeView) :
    h.ListsLive inodes ↔ (∀ x, h.dir.InTree x → h.dir.Deleted x → ¬ Shown inodes (h.dir.inodeNumber x)) ∧
      ∀ k e, h.live k = some e → Visible inodes e.inodeNumber → Shown inodes e.inodeNumber := by
  obtain ⟨L, t, tracks⟩ := ListRun.tracked small run
  constructor
  · intro lists
    refine ⟨fun x inTree dead shown => ?_, fun k e entry visible => tracks.misses_deleted entry visible lists⟩
    exact tracks.lists_deleted (tracks.inTree_iff.mp inTree) dead shown lists
  · rintro ⟨covered, used⟩
    obtain ⟨nodes, rfl, ascending, members⟩ := tracks.names
    refine ⟨_, ascending, members, ?_⟩
    have same : ∀ e ∈ List.filterMap h.live ((t.inorder.filter fun x => decide ¬ h.dir.Deleted x).map h.dir.key),
        decide (Visible inodes e.inodeNumber) = decide (Shown inodes e.inodeNumber) := by
      intro e inside
      obtain ⟨k, _, entry⟩ := List.mem_filterMap.mp inside
      exact decide_eq_decide.mpr ⟨used k e entry, fun shown => (shown_iff.mp shown).2⟩
    rw [tracks.list, List.filter_congr same, tracks.entries inodes]
    · unfold Directory.shown
      rw [List.filter_filter]
      refine congrArg (fun l => some (List.map _ l)) (List.filter_congr fun x hx => ?_)
      by_cases dead : h.dir.Deleted x
      · have hidden := covered x (tracks.inTree_iff.mpr hx) dead
        simp [dead, hidden]
      · simp [dead]
    · intro x hx
      obtain ⟨there, alive⟩ := List.mem_filter.mp hx
      exact ⟨there, of_decide_eq_true alive⟩

/-- Two entries. -/
def listedCalls : List DirCall := [.create ⟨cString [97], 2, 5, 0#8⟩, .create ⟨cString [98], 2, 6, 0#8⟩]

/-- Every inode is a plain one. -/
def plainInodes : Nat → Option Cxt.InodeView := fun n => some ⟨0, n, 0, 0, 0⟩

theorem plain_shown (number : Nat) : Shown plainInodes number := by
  unfold Shown inodeView
  split <;> exact Nat.zero_and _

/-- With a deletion behind the first record, the entry left is listed. -/
theorem list_exact_one : ∃ h, Reach ListRun.step (fun h c => c.Proper h.dir) (ListRun.start 512) h ∧
    h.live (chars (cString [98])) = none ∧ h.ListsLive plainInodes := by
  have run : (runAll ListRun.step (fun h c => c.Proper h.dir) (ListRun.start 512)
      (listedCalls ++ [.delete (cString [98])])).map
      (fun h => decide ((h.live (chars (cString [98]))).isNone ∧ h.dir.dunits = 1 ∧ ¬ h.dir.Deleted ⟨0, 0⟩)) =
      some true := by decide +kernel
  obtain ⟨h, reached, facts⟩ := Option.map_eq_some_iff.mp run
  obtain ⟨gone, single, alive⟩ := of_decide_eq_true facts
  have reach := Reach.of_runAll _ reached
  refine ⟨h, reach, Option.isNone_iff_eq_none.mp gone, (list_exact_iff (by decide) reach _).mpr
    ⟨fun x inTree dead => ?_, fun k e _ _ => plain_shown e.inodeNumber⟩⟩
  obtain ⟨L, t, tracks⟩ := ListRun.tracked (by decide) reach
  have hx := tracks.inTree_iff.mp inTree
  have offset := tracks.tombs x hx dead
  have block := tracks.laid.hasBlock (tracks.nodes x hx)
  unfold Directory.HasBlock at block
  obtain rfl : x = ⟨0, 0⟩ := by
    cases x
    simp_all
  exact absurd dead alive

/-- After the first entry is moved away, it is still listed. -/
theorem moved_entry_listed : ∃ h, Reach ListRun.step (fun h c => c.Proper h.dir) (ListRun.start 512) h ∧
    h.live (chars (cString [97])) = none ∧ ¬ h.ListsLive plainInodes := by
  have run : (runAll ListRun.step (fun h c => c.Proper h.dir) (ListRun.start 512)
      (listedCalls ++ [.delete (cString [97])])).map
      (fun h => decide ((h.live (chars (cString [97]))).isNone ∧ h.dir.dunits ≠ 0 ∧ h.dir.Deleted ⟨0, 0⟩ ∧
        Shown plainInodes (h.dir.inodeNumber ⟨0, 0⟩))) = some true := by decide +kernel
  obtain ⟨h, reached, facts⟩ := Option.map_eq_some_iff.mp run
  obtain ⟨gone, used, dead, shown⟩ := of_decide_eq_true facts
  have reach := Reach.of_runAll _ reached
  obtain ⟨L, t, tracks⟩ := ListRun.tracked (by decide) reach
  exact ⟨h, reach, Option.isNone_iff_eq_none.mp gone, tracks.lists_deleted (tracks.inTree_iff.mp (.root used)) dead shown⟩

end PreTeO.Mgfs3
