import PreTeO.Mgfs3.DirRun

/-!
# A directory as a finite map

`live` is a history variable: the inode number of every name that was created and not deleted since.
As long as no deletion hits the first record of a block, the directory answers every call as the map
does.
-/

namespace PreTeO.Mgfs3
set_option autoImplicit false
open PreTeO.Lib BinaryTree

/-- A directory with the names that are live in it. -/
structure MapRun where
  dir : Directory
  live : List Int → Option Nat

def MapRun.start (unitSize : Nat) : MapRun := ⟨Directory.empty unitSize, fun _ => none⟩

/-- One returning call; a name comes and goes with the calls that succeed. -/
def MapRun.step (h : MapRun) : DirCall → Option MapRun
  | .create e => (h.dir.create e).map fun (r, d) =>
      ⟨d, if r then Function.update h.live (chars e.name) (some e.inodeNumber) else h.live⟩
  | .delete name => (h.dir.delete name).map fun (r, d) =>
      ⟨d, if r then Function.update h.live (chars name) none else h.live⟩

/-- The name is not the name of the first record of a block. -/
def Directory.NotFirst (d : Directory) (name : Nat → Byte) : Prop :=
  ∀ b, b < d.dunits → d.key ⟨b, 0⟩ ≠ chars name

instance (d : Directory) (name : Nat → Byte) : Decidable (d.NotFirst name) :=
  inferInstanceAs (Decidable (∀ b, b < d.dunits → _))

/-- Entries that fit are created, and no first record of a block is deleted. -/
def DirCall.Safe (d : Directory) : DirCall → Prop
  | .create e => d.dunits < invalidBlockNumber ∧ e.Fits d.unitSize
  | .delete name => d.NotFirst name

instance (d : Directory) : (c : DirCall) → Decidable (c.Safe d)
  | .create _ => inferInstanceAs (Decidable (_ ∧ _))
  | .delete _ => inferInstanceAs (Decidable (Directory.NotFirst _ _))

/-- Opening finds exactly the live names, with their inode numbers, and exactly the names that are not
live are created. -/
def MapRun.IsMap (h : MapRun) : Prop :=
  (∀ name, (h.dir.open name).map (Option.map h.dir.inodeNumber) = some (h.live (chars name))) ∧
  ∀ e : NewEntry, h.dir.dunits < invalidBlockNumber → e.Fits h.dir.unitSize →
    ∃ d, h.dir.create e = some (decide (h.live (chars e.name) = none), d)

/-- The records in the tree are the live names. -/
structure Keeps (h : MapRun) (L : Layout) (t : BinaryTree Position) : Prop extends Indexed h.dir L t where
  alive : ∀ x ∈ t.inorder, ¬ h.dir.Deleted x
  live : ∀ k ino, h.live k = some ino ↔ ∃ x ∈ t.inorder, h.dir.key x = k ∧ h.dir.inodeNumber x = ino

def MapRun.Holds (h : MapRun) : Prop := ∃ (L : Layout) (t : BinaryTree Position), Keeps h L t

namespace Keeps

variable {h : MapRun} {L : Layout} {t : BinaryTree Position} {name : Nat → Byte} {x : Position}

theorem live_of_mem (keeps : Keeps h L t) (hx : x ∈ t.inorder) :
    h.live (h.dir.key x) = some (h.dir.inodeNumber x) := (keeps.live _ _).mpr ⟨x, hx, rfl, rfl⟩

theorem live_eq_none (keeps : Keeps h L t) {k : List Int} :
    h.live k = none ↔ ∀ x ∈ t.inorder, h.dir.key x ≠ k := by
  constructor
  · rintro none x hx rfl
    rw [keeps.live_of_mem hx] at none
    cases none
  · intro missing
    cases entry : h.live k with
    | none => rfl
    | some ino =>
      obtain ⟨x, hx, same, _⟩ := (keeps.live k ino).mp entry
      exact absurd same (missing x hx)

theorem open_eq (keeps : Keeps h L t) (name : Nat → Byte) :
    (h.dir.open name).map (Option.map h.dir.inodeNumber) = some (h.live (chars name)) := by
  cases entry : h.live (chars name) with
  | none =>
    obtain ⟨out, find, found, _⟩ := keeps.find_missing (strLen name + 1) (keeps.live_eq_none.mp entry)
    rw [Directory.open, find]
    simp [found]
  | some ino =>
    obtain ⟨x, hx, same, inode⟩ := (keeps.live _ _).mp entry
    obtain ⟨out, find, found, last⟩ := keeps.find_live (strLen name + 1) hx same (keeps.alive x hx)
    rw [Directory.open, find]
    simp [found, last, inode]

/-- A new name joins the map. -/
theorem create_new (keeps : Keeps h L t) {e : NewEntry} (left : h.dir.dunits < invalidBlockNumber)
    (fits : e.Fits h.dir.unitSize) (none : h.live (chars e.name) = none) : ∃ d, h.dir.create e = some (true, d) ∧
      MapRun.Holds ⟨d, Function.update h.live (chars e.name) (some e.inodeNumber)⟩ := by
  have missing := keeps.live_eq_none.mp none
  obtain ⟨r, d, L', t', call, indexed, success, _, always⟩ := keeps.create_missing left fits missing
  cases always keeps.alive
  obtain ⟨q, added⟩ := success rfl
  have fresh : q ∉ t.inorder := fun there => keeps.alive q there (added.reused there)
  have old : ∀ x ∈ t.inorder, SameEntry h.dir d x := fun x hx =>
    added.old x hx fun equal => fresh (equal ▸ hx)
  have key : ∀ x ∈ t.inorder, d.key x = h.dir.key x := fun x hx => keeps.laid.key (keeps.nodes x hx) (old x hx)
  refine ⟨d, call, L', t', indexed, ?_, ?_⟩
  · intro x hx
    rcases (added.mem x).mp hx with there | rfl
    · exact fun dead => keeps.alive x there ((old x there).deleted.mp dead)
    · unfold Directory.Deleted
      rw [added.flags]
      exact fun dead => dead fits.live
  · intro k ino
    dsimp only
    by_cases here : k = chars e.name
    · subst here
      rw [Function.update_self]
      constructor
      · rintro ⟨⟩
        exact ⟨q, (added.mem q).mpr (Or.inr rfl), added.key, added.inodeNumber⟩
      · rintro ⟨x, hx, same, inode⟩
        rcases (added.mem x).mp hx with there | rfl
        · exact absurd ((key x there).symm.trans same) (missing x there)
        · rw [← inode, added.inodeNumber]
    · rw [Function.update_of_ne here, keeps.live]
      constructor
      · rintro ⟨x, hx, same, inode⟩
        exact ⟨x, (added.mem x).mpr (Or.inl hx), (key x hx).trans same, (old x hx).inodeNumber.trans inode⟩
      · rintro ⟨x, hx, same, inode⟩
        rcases (added.mem x).mp hx with there | rfl
        · exact ⟨x, there, (key x there).symm.trans same, (old x there).inodeNumber.symm.trans inode⟩
        · exact absurd (same.symm.trans added.key) here

/-- A live name is refused. -/
theorem create_again (keeps : Keeps h L t) {e : NewEntry} (live : h.live (chars e.name) ≠ none) :
    h.dir.create e = some (false, h.dir) := by
  obtain ⟨ino, entry⟩ := Option.ne_none_iff_exists'.mp live
  obtain ⟨x, hx, same, _⟩ := (keeps.live _ _).mp entry
  exact keeps.create_live hx same (keeps.alive x hx)

/-- Deleting a live name takes it out of the map. -/
theorem delete_entry (keeps : Keeps h L t) (inner : h.dir.NotFirst name) (live : h.live (chars name) ≠ none) :
    ∃ d, h.dir.delete name = some (true, d) ∧ MapRun.Holds ⟨d, Function.update h.live (chars name) none⟩ := by
  obtain ⟨ino, entry⟩ := Option.ne_none_iff_exists'.mp live
  obtain ⟨p, hp, same, _⟩ := (keeps.live _ _).mp entry
  have offset : p.offset ≠ 0 := by
    intro first
    have there : p = ⟨p.block, 0⟩ := by rw [← first]
    exact inner p.block (keeps.laid.hasBlock (keeps.nodes p hp)) (there ▸ same)
  obtain ⟨d, L', t', call, indexed, member, gone, old, _⟩ := keeps.recordDelete hp offset
  have inside : ∀ x ∈ t'.inorder, x ∈ t.inorder := fun x hx => (member x).mpr (Or.inl hx)
  have key : ∀ x ∈ t'.inorder, d.key x = h.dir.key x := fun x hx =>
    keeps.laid.key (keeps.nodes x (inside x hx)) (old x hx)
  refine ⟨d, (keeps.delete_live hp same (keeps.alive p hp)).trans call, L', t', indexed, ?_, ?_⟩
  · exact fun x hx dead => keeps.alive x (inside x hx) ((old x hx).deleted.mp dead)
  · intro k ino
    dsimp only
    by_cases here : k = chars name
    · subst here
      rw [Function.update_self]
      constructor
      · exact nofun
      · rintro ⟨x, hx, equal, _⟩
        -- another record with the name would be the deleted one
        have := keeps.ordered.key_inj (inside x hx) hp ((key x hx).symm.trans (equal.trans same.symm))
        exact absurd (this ▸ hx) gone
    · rw [Function.update_of_ne here, keeps.live]
      constructor
      · rintro ⟨x, hx, equal, inode⟩
        have kept : x ∈ t'.inorder := ((member x).mp hx).resolve_right fun this => here (equal ▸ this ▸ same)
        exact ⟨x, kept, (key x kept).trans equal, (old x kept).inodeNumber.trans inode⟩
      · rintro ⟨x, hx, equal, inode⟩
        exact ⟨x, inside x hx, (key x hx).symm.trans equal, (old x hx).inodeNumber.symm.trans inode⟩

theorem isMap (keeps : Keeps h L t) : h.IsMap := by
  refine ⟨keeps.open_eq, fun e left fits => ?_⟩
  by_cases none : h.live (chars e.name) = none
  · obtain ⟨d, call, _⟩ := keeps.create_new left fits none
    exact ⟨d, by rw [decide_eq_true none, call]⟩
  · exact ⟨h.dir, by rw [decide_eq_false none, keeps.create_again none]⟩

end Keeps

theorem MapRun.start_holds {unitSize : Nat} (small : unitSize < 2 ^ 16) : (MapRun.start unitSize).Holds := by
  refine ⟨_, _, Indexed.empty small, nofun, fun k ino => ⟨nofun, ?_⟩⟩
  rintro ⟨x, hx, _⟩
  cases hx

/-- In every run that deletes no first record of a block, the directory is a finite map. -/
theorem directory_is_map {unitSize : Nat} {h : MapRun} (small : unitSize < 2 ^ 16)
    (run : Reach MapRun.step (fun h c => c.Safe h.dir) (MapRun.start unitSize) h) : h.IsMap := by
  have holds : h.Holds := by
    refine run.invariant (MapRun.start_holds small) ?_
    rintro s c s' ⟨L, t, keeps⟩ safe step
    cases c with
    | create e =>
      obtain ⟨⟨r, d⟩, call, rfl⟩ := Option.map_eq_some_iff.mp step
      by_cases none : s.live (chars e.name) = none
      · obtain ⟨d', result, holds⟩ := keeps.create_new safe.1 safe.2 none
        cases result.symm.trans call
        exact holds
      · cases (keeps.create_again none).symm.trans call
        exact ⟨L, t, keeps⟩
    | delete name =>
      obtain ⟨⟨r, d⟩, call, rfl⟩ := Option.map_eq_some_iff.mp step
      by_cases none : s.live (chars name) = none
      · cases (keeps.delete_missing (keeps.live_eq_none.mp none)).symm.trans call
        exact ⟨L, t, keeps⟩
      · obtain ⟨d', result, holds⟩ := keeps.delete_entry safe none
        cases result.symm.trans call
        exact holds
  obtain ⟨L, t, keeps⟩ := holds
  exact keeps.isMap

/-- Two entries, the second of which is deleted again. -/
theorem directory_is_map_two : ∃ h, Reach MapRun.step (fun h c => c.Safe h.dir) (MapRun.start 512) h ∧
    h.live (chars (cString [46])) = some 1 ∧ h.live (chars (cString [46, 46])) = none ∧ h.IsMap := by
  have run : (runAll MapRun.step (fun h c => c.Safe h.dir) (MapRun.start 512)
      [.create ⟨cString [46], 2, 1, 0#8⟩, .create ⟨cString [46, 46], 3, 1, 0#8⟩, .delete (cString [46, 46])]).map
      (fun h => decide (h.live (chars (cString [46])) = some 1 ∧ h.live (chars (cString [46, 46])) = none)) =
      some true := by decide +kernel
  obtain ⟨h, reached, names⟩ := Option.map_eq_some_iff.mp run
  obtain ⟨first, second⟩ := of_decide_eq_true names
  have reach := Reach.of_runAll _ reached
  exact ⟨h, reach, first, second, directory_is_map (by decide) reach⟩

/-- After the first record of the directory is deleted, opening its name does not return. -/
theorem deleted_first_entry_not_map : ∃ h, Reach MapRun.step (fun h c => c.Fits h.dir) (MapRun.start 512) h ∧
    ¬ h.IsMap := by
  have run : (runAll MapRun.step (fun h c => c.Fits h.dir) (MapRun.start 512) dotCalls).map
      (fun h => decide (h.dir.open (cString [46]) = none)) = some true := by decide +kernel
  obtain ⟨h, reached, hangs⟩ := Option.map_eq_some_iff.mp run
  refine ⟨h, Reach.of_runAll _ reached, fun isMap => ?_⟩
  have answer := isMap.1 (cString [46])
  rw [of_decide_eq_true hangs] at answer
  cases answer

end PreTeO.Mgfs3
