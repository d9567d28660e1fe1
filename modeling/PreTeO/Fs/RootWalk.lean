import Mathlib.Data.List.Find
import PreTeO.Fs.RootPath

/-!
# Walking along a path

With the address of a variable for a handle, `get_link_name` finds no name, so `open_file` never follows a link and never calls
`trace_path`: one component is one step, and the loop of `trace_path` is a walk along the components of the path.
-/

namespace PreTeO.Fs.Root
set_option autoImplicit false
open PreTeO.Sys

/-- What holds of the handles and the mount table at any time: a handle of a file belongs to a context, and the mount points
and targets are open files, the targets directories. -/
structure System.Sound (sys : System) (s : State) : Prop where
  null : s.handles 0 = none
  frame : s.handles sys.frame = none
  files : ∀ h r, s.handles h = some r → r.type = htypeFile → r.driver ≠ 0 ∧ sys.isFsc r.driver = true
  points : ∀ mp ∈ sys.mounts, ∃ r, s.handles mp.hmpDir = some r ∧ r.type = htypeFile ∧ r.isOpen = true
  targets : ∀ mp ∈ sys.mounts, ∃ r, s.handles mp.htpDir = some r ∧ r.type = htypeFile ∧ r.isOpen = true ∧
    sys.pmask r.driver r.node &&& fspDir ≠ 0

/-- A record of an open file. -/
def Record.File (r : Record) : Prop := r.type = htypeFile ∧ r.isOpen = true

instance (r : Record) : Decidable r.File := inferInstanceAs (Decidable (_ ∧ _))

/-- A record of an open directory. -/
def System.Dir (sys : System) (r : Record) : Prop := r.File ∧ sys.pmask r.driver r.node &&& fspDir ≠ 0

instance (sys : System) (r : Record) : Decidable (sys.Dir r) := inferInstanceAs (Decidable (_ ∧ _))

/-- The target of the first mount point that a record compares equal to. -/
def System.mountOf (sys : System) (s : State) (r : Record) : Option Nat :=
  (sys.mounts.find? fun mp => match s.handles mp.hmpDir with | some a => a.same r | none => false).map MountPoint.htpDir

/-- A record compares equal to a mount point or a target. -/
def System.guarded (sys : System) (s : State) (r : Record) : Bool :=
  sys.mounts.any fun mp =>
    (match s.handles mp.hmpDir with | some a => r.same a | none => false) ||
      match s.handles mp.htpDir with | some b => r.same b | none => false

/-- The record that `fclose` leaves of a handle. -/
def Record.gone (r : Record) : Record := ⟨0, 0, r.node, false⟩

/-- `fclose` of an open directory. -/
def closeDir (sys : System) (s : State) (h : Nat) (r : Record) : State :=
  if sys.guarded s r then s else s.put h r.gone (.closed h)

/-- The record of a file that is opened in a directory. -/
def Record.child (r : Record) (node : Nat) : Record := ⟨htypeFile, r.driver, node, true⟩

/-- The state after a file is opened in a directory. -/
def openChild (sys : System) (s : State) (r : Record) (node : Nat) : State :=
  s.put (sys.fresh s) (r.child node) (.opened (sys.fresh s))

/-- The characters of a name that `open_file` keeps are blanks only. -/
def Blank (fn : List Char) : Prop := fileName fn = none

instance (fn : List Char) : Decidable (Blank fn) := inferInstanceAs (Decidable (_ = none))

/-- A name cut and trimmed. -/
def shortName (fn : List Char) : List Char := (fileName fn).getD []

/-- One component: `open_file` of a name that is not blank, without links to follow. -/
def openStep (sys : System) (hdir : Nat) (fn : List Char) (hfile : Nat) (s : State) : Nat × Nat × State :=
  match s.handles hdir with
  | none => if hdir ≠ 0 ∧ fn = [] then (fsResultOk, getMountPoint sys s hdir, s) else (fsResultErr, hfile, s)
  | some r =>
    if fn = [] then (fsResultOk, getMountPoint sys s hdir, s)
    else if sys.Dir r then
      match sys.lookup r.driver r.node (shortName fn) with
      | none => (fsResultErr, hfile, closeDir sys s hdir r)
      | some node =>
        if sys.room s.openings then
          let s₁ := openChild sys s r node
          if sys.pmask r.driver node &&& fspSlink ≠ 0 then (fsResultInvalidPath, hfile, closeDir sys s₁ hdir r)
          else (fsResultOk, getMountPoint sys s₁ (sys.fresh s), closeDir sys s₁ hdir r)
        else (fsResultErr, hfile, closeDir sys s hdir r)
    else (fsResultErr, hfile, s)

/-- `open_file` without links to follow; it does not return from a blank name. -/
def openNamed (sys : System) (hdir : Nat) (fn : List Char) (hfile : Nat) (s : State) : Option (Nat × Nat × State) :=
  if hdir ≠ 0 ∧ Blank fn then none else some (openStep sys hdir fn hfile s)

theorem nil_not_blank : ¬ Blank [] := by decide

theorem openNamed_nil (sys : System) (hdir hfile : Nat) (s : State) :
    openNamed sys hdir [] hfile s = some (openStep sys hdir [] hfile s) := if_neg fun blank => nil_not_blank blank.2

theorem openNamed_eq_some {sys : System} {hdir hfile : Nat} {fn : List Char} {s : State} {out : Nat × Nat × State} :
    openNamed sys hdir fn hfile s = some out ↔ ¬ (hdir ≠ 0 ∧ Blank fn) ∧ openStep sys hdir fn hfile s = out := by
  unfold openNamed
  by_cases blank : hdir ≠ 0 ∧ Blank fn
  · rw [if_pos blank]
    exact iff_of_false (by simp) fun named => named.1 blank
  · rw [if_neg blank, Option.some.injEq]
    exact ⟨fun step => ⟨blank, step⟩, fun named => named.2⟩

theorem any_same {α : Type} {l : List α} {p q : α → Bool} (same : ∀ a ∈ l, p a = q a) : l.any p = l.any q := by
  induction l with
  | nil => rfl
  | cons a l ih =>
    simp only [List.any_cons, same a (List.mem_cons_self ..)]
    rw [ih fun b member => same b (List.mem_cons_of_mem _ member)]

section Steps
variable {sys : System} {s s' : State} {h : Nat} {r : Record}

theorem type_eq (found : s.handles h = some r) : s.type h = r.type := by simp [State.type, found]

theorem driver_eq (found : s.handles h = some r) : s.driver h = r.driver := by simp [State.driver, found]

theorem same_self (file : r.type = htypeFile) : r.same r = true := by
  simp [Record.same, file, htypeFile, htypeDevice, htypeVolume, htypeFscontext]

/-- The mount point of a handle, by its record. -/
theorem getMountPoint_eq (sound : sys.Sound s) (found : s.handles h = some r) :
    getMountPoint sys s h = (sys.mountOf s r).getD h := by
  have real : h ≠ 0 := by
    rintro rfl
    exact absurd found (by simp [sound.null])
  have each : ∀ mp ∈ sys.mounts, (if h ≠ 0 then compareHandle s mp.hmpDir h else true) =
      match s.handles mp.hmpDir with | some a => a.same r | none => false := by
    intro mp member
    obtain ⟨a, point, file, -⟩ := sound.points mp member
    rw [if_pos real, compareHandle]
    by_cases same : mp.hmpDir ≠ h
    · simp [same, point, found]
    · rw [not_not.1 same, found] at point
      obtain rfl := Option.some.inj point
      rw [if_neg same, not_not.1 same, found]
      exact (same_self file).symm
  rw [getMountPoint, System.mountOf, List.find?_congr each]
  cases sys.mounts.find? _ <;> rfl

/-- The mount record of the handle of a file, by its record. -/
theorem getMountRecord_eq (sound : sys.Sound s) (found : s.handles h = some r) (file : r.type = htypeFile) :
    getMountRecord sys s h = sys.guarded s r := by
  have real : r.driver ≠ 0 := (sound.files h r found file).1
  have each : ∀ (q : Nat) (a : Record), s.handles q = some a → compareHandle s h q = r.same a := by
    intro q a there
    by_cases same : h ≠ q
    · simp [compareHandle, same, found, there]
    · rw [← not_not.1 same, found] at there
      obtain rfl := Option.some.inj there
      rw [compareHandle, if_neg same, same_self file]
  rw [getMountRecord, type_eq found, driver_eq found, if_pos ⟨file, real⟩, System.guarded]
  refine any_same fun mp member => ?_
  obtain ⟨a, point, -⟩ := sound.points mp member
  obtain ⟨b, target, -⟩ := sound.targets mp member
  rw [each _ a point, each _ b target, point, target]

theorem getPmask_file (sound : sys.Sound s) (found : s.handles h = some r) (file : r.type = htypeFile) :
    getPmask sys s h = if r.isOpen then sys.pmask r.driver r.node else 0 := by
  obtain ⟨real, fsc⟩ := sound.files h r found file
  simp [getPmask, found, real, fsc]

/-- A directory, as `open_file` tests for it. -/
theorem dir_iff (sound : sys.Sound s) (found : s.handles h = some r) :
    s.type h = htypeFile ∧ getPmask sys s h &&& fspDir ≠ 0 ∧ s.driver h ≠ 0 ↔ sys.Dir r := by
  rw [type_eq found, driver_eq found]
  constructor
  · rintro ⟨file, mask, -⟩
    rw [getPmask_file sound found file] at mask
    by_cases isOpen : r.isOpen = true
    · rw [if_pos isOpen] at mask
      exact ⟨⟨file, isOpen⟩, mask⟩
    · rw [if_neg isOpen] at mask
      exact absurd (Nat.zero_and _) mask
  · rintro ⟨⟨file, isOpen⟩, mask⟩
    refine ⟨file, ?_, (sound.files h r found file).1⟩
    rwa [getPmask_file sound found file, if_pos isOpen]

/-- `fclose` of a file that is open. -/
theorem fclose_file (sound : sys.Sound s) (found : s.handles h = some r) (file : r.File) :
    (fclose sys s h).2 = closeDir sys s h r := by
  obtain ⟨real, fsc⟩ := sound.files h r found file.1
  rw [fclose, type_eq found, if_pos file.1, getMountRecord_eq sound found file.1, closeDir]
  by_cases guarded : sys.guarded s r = true
  · simp [guarded]
  · have context : getFsContext sys s h ≠ 0 := by
      rw [getFsContext, driver_eq found, if_pos fsc]
      exact real
    rw [if_neg guarded, if_neg guarded, if_pos context]
    simp [cxtFclose, found, file.2, Record.gone]

/-- `fclose` of anything but a file does nothing. -/
theorem fclose_other (other : s.type h ≠ htypeFile) : fclose sys s h = (fsResultErr, s) := by
  rw [fclose, if_neg other]

/-- The variable that is taken for a handle. -/
theorem frame_type (sound : sys.Sound s) : s.type sys.frame ≠ htypeFile := by
  rw [State.type, sound.frame]
  decide

theorem frame_differs (sound : sys.Sound s) (found : s.handles h = some r) : compareHandle s h sys.frame = false := by
  have differ : h ≠ sys.frame := by
    rintro rfl
    exact absurd found (by simp [sound.frame])
  simp [compareHandle, differ, sound.frame]

/-- The handles of the mount table are as they were. -/
def System.Kept (sys : System) (s s' : State) : Prop :=
  ∀ mp ∈ sys.mounts, s'.handles mp.hmpDir = s.handles mp.hmpDir ∧ s'.handles mp.htpDir = s.handles mp.htpDir

theorem System.Kept.mountOf (kept : sys.Kept s s') (r : Record) : sys.mountOf s' r = sys.mountOf s r := by
  rw [System.mountOf, System.mountOf]
  refine congrArg _ (List.find?_congr fun mp member => ?_)
  rw [(kept mp member).1]

theorem System.Kept.guarded (kept : sys.Kept s s') (r : Record) : sys.guarded s' r = sys.guarded s r := by
  rw [System.guarded, System.guarded]
  refine any_same fun mp member => ?_
  rw [(kept mp member).1, (kept mp member).2]

/-- A record is written that the mount table does not use. -/
theorem System.Sound.put (sound : sys.Sound s) {r' : Record} {e : Event} (real : h ≠ 0) (noframe : h ≠ sys.frame)
    (file : r'.type = htypeFile → r'.driver ≠ 0 ∧ sys.isFsc r'.driver = true)
    (free : ∀ mp ∈ sys.mounts, mp.hmpDir ≠ h ∧ mp.htpDir ≠ h) : sys.Sound (s.put h r' e) ∧ sys.Kept s (s.put h r' e) := by
  have others : ∀ q, q ≠ h → (s.put h r' e).handles q = s.handles q := by
    intro q other
    simp [State.put, other]
  refine ⟨⟨?_, ?_, ?_, ?_, ?_⟩, ?_⟩
  · rw [others 0 real.symm, sound.null]
  · rw [others _ noframe.symm, sound.frame]
  · intro q u there
    by_cases same : q = h
    · obtain rfl : r' = u := by simpa [State.put, same] using there
      exact file
    · exact sound.files q u (by rwa [others q same] at there)
  · intro mp member
    rw [others _ (free mp member).1]
    exact sound.points mp member
  · intro mp member
    rw [others _ (free mp member).2]
    exact sound.targets mp member
  · exact fun mp member => ⟨others _ (free mp member).1, others _ (free mp member).2⟩

/-- A handle that is created is none of the mount table's. -/
theorem fresh_unmounted (sound : sys.Sound s) (mp : MountPoint) (member : mp ∈ sys.mounts) :
    mp.hmpDir ≠ sys.fresh s ∧ mp.htpDir ≠ sys.fresh s := by
  constructor
  · intro same
    obtain ⟨r, there, -, isOpen⟩ := sound.points mp member
    rw [same] at there
    exact absurd isOpen (by simp [(sys.fresh_unused s r there).2])
  · intro same
    obtain ⟨r, there, -, isOpen, -⟩ := sound.targets mp member
    rw [same] at there
    exact absurd isOpen (by simp [(sys.fresh_unused s r there).2])

theorem openChild_sound (sound : sys.Sound s) (found : s.handles h = some r) (file : r.type = htypeFile) (node : Nat) :
    sys.Sound (openChild sys s r node) ∧ sys.Kept s (openChild sys s r node) :=
  sound.put (sys.fresh_real s) (sys.fresh_frame s) (fun _ => sound.files h r found file) (fresh_unmounted sound)

/-- An open handle is not the one that is created. -/
theorem fresh_ne (found : s.handles h = some r) (isOpen : r.isOpen = true) : h ≠ sys.fresh s := by
  rintro rfl
  exact absurd isOpen (by simp [(sys.fresh_unused s r found).2])

theorem openChild_old (found : s.handles h = some r) (isOpen : r.isOpen = true) (dir : Record) (node : Nat) :
    (openChild sys s dir node).handles h = some r := by
  simp [openChild, State.put, @fresh_ne sys _ _ _ found isOpen, found]

theorem openChild_new (dir : Record) (node : Nat) :
    (openChild sys s dir node).handles (sys.fresh s) = some (dir.child node) := by
  simp [openChild, State.put]

/-- A mount point or target is guarded. -/
theorem guarded_mounted (sound : sys.Sound s) (found : s.handles h = some r) (free : sys.guarded s r = false)
    (mp : MountPoint) (member : mp ∈ sys.mounts) : mp.hmpDir ≠ h ∧ mp.htpDir ≠ h := by
  rw [System.guarded, List.any_eq_false] at free
  have unlike := free mp member
  constructor
  · rintro rfl
    obtain ⟨a, there, file, -⟩ := sound.points mp member
    obtain rfl := Option.some.inj (there.symm.trans found)
    simp [there, same_self file] at unlike
  · rintro rfl
    obtain ⟨a, there, file, -⟩ := sound.targets mp member
    obtain rfl := Option.some.inj (there.symm.trans found)
    simp [there, same_self file] at unlike

theorem closeDir_sound (sound : sys.Sound s) (found : s.handles h = some r) :
    sys.Sound (closeDir sys s h r) ∧ sys.Kept s (closeDir sys s h r) := by
  unfold closeDir
  by_cases guarded : sys.guarded s r = true
  · rw [if_pos guarded]
    exact ⟨sound, fun _ _ => ⟨rfl, rfl⟩⟩
  · have real : h ≠ 0 := by
      rintro rfl
      exact absurd found (by simp [sound.null])
    have noframe : h ≠ sys.frame := by
      rintro rfl
      exact absurd found (by simp [sound.frame])
    rw [if_neg guarded]
    exact sound.put real noframe (fun file => absurd file (by simp [Record.gone, htypeFile]))
      (guarded_mounted sound found (by simpa using guarded))

/-- `open_file` is one component: the name of a link is never found. -/
theorem openFile_eq (sound : sys.Sound s) (trace : List Char → Nat → Nat → State → Option (Nat × Nat × State)) (hdir : Nat)
    (fn : List Char) (hfile : Nat) :
    openFile sys trace hdir fn hfile s = openNamed sys hdir fn hfile s := by
  by_cases blank : hdir ≠ 0 ∧ Blank fn
  · have named : fn ≠ [] := fun empty => nil_not_blank (empty ▸ blank.2)
    have lost : fileName fn = none := blank.2
    rw [openNamed, if_pos blank, openFile, if_neg blank.1, if_neg named, lost]
    rfl
  rw [openNamed, if_neg blank]
  have kept : hdir ≠ 0 → fileName fn = some (shortName fn) := by
    intro real
    obtain ⟨fname, name⟩ := Option.ne_none_iff_exists'.1 fun lost : fileName fn = none => blank ⟨real, lost⟩
    simp [shortName, name]
  unfold openFile openStep
  cases found : s.handles hdir with
  | none =>
    have nodir : ¬ (s.type hdir = htypeFile ∧ getPmask sys s hdir &&& fspDir ≠ 0 ∧ s.driver hdir ≠ 0) := by
      rintro ⟨-, -, driver⟩
      exact driver (by simp [State.driver, found])
    by_cases null : hdir = 0
    · simp [null]
    · by_cases empty : fn = []
      · simp [null, empty]
      · simp [null, empty, nodir, kept null]
  | some r =>
    have real : hdir ≠ 0 := by
      rintro rfl
      exact absurd found (by simp [sound.null])
    simp only [if_neg real, dir_iff sound found]
    by_cases empty : fn = []
    · rw [if_pos empty, if_pos empty]
    · rw [if_neg empty, if_neg empty]
      simp only [kept real, Option.bind_eq_bind, Option.bind_some]
      by_cases dir : sys.Dir r
      · have noopen : (fsResultErr : Nat) ≠ fsResultOk := by decide
        simp only [if_pos dir, cxtFopen, openNode, found, dir.1.2, if_true]
        cases looked : sys.lookup r.driver r.node (shortName fn) with
        | none =>
          simp only [noopen, false_and, if_false, frame_differs sound found, Bool.false_eq_true,
            fclose_file sound found dir.1]
        | some node =>
          simp only
          by_cases roomy : sys.room s.openings = true
          · obtain ⟨sound₁, -⟩ := openChild_sound sound found dir.1.1 node
            have found₁ := @openChild_old sys _ _ _ found dir.1.2 r node
            have new₁ := @openChild_new sys s r node
            have mask : getPmask sys (openChild sys s r node) (sys.fresh s) = sys.pmask r.driver node := by
              rw [getPmask_file sound₁ new₁ rfl]
              rfl
            have fold : s.put (sys.fresh s) ⟨htypeFile, r.driver, node, true⟩ (.opened (sys.fresh s)) =
              openChild sys s r node := rfl
            simp only [if_pos roomy, fold, mask, true_and]
            by_cases link : sys.pmask r.driver node &&& fspSlink ≠ 0
            · have noname : getLinkName sys (openChild sys s r node) sys.frame = none := by
                simp [getLinkName, sound₁.frame]
              have invalid : (fsResultInvalidPath : Nat) ≠ fsResultOk := by decide
              simp only [if_pos link, noname, fclose_other (frame_type sound₁), invalid, if_false,
                frame_differs sound₁ found₁, Bool.false_eq_true, fclose_file sound₁ found₁ dir.1]
            · simp only [if_neg link, if_true, frame_differs sound₁ found₁,
                Bool.false_eq_true, if_false, fclose_file sound₁ found₁ dir.1]
          · simp only [if_neg roomy, noopen, false_and, if_false, frame_differs sound found, Bool.false_eq_true,
              fclose_file sound found dir.1]
      · simp only [if_neg dir]

/-- A component leaves the mount table as it was. -/
theorem openStep_sound (sound : sys.Sound s) (hdir : Nat) (fn : List Char) (hfile : Nat) :
    sys.Sound (openStep sys hdir fn hfile s).2.2 ∧ sys.Kept s (openStep sys hdir fn hfile s).2.2 := by
  have unchanged : sys.Sound s ∧ sys.Kept s s := ⟨sound, fun _ _ => ⟨rfl, rfl⟩⟩
  unfold openStep
  cases found : s.handles hdir with
  | none =>
    simp only
    split <;> exact unchanged
  | some r =>
    simp only
    by_cases empty : fn = []
    · rw [if_pos empty]
      exact unchanged
    · rw [if_neg empty]
      by_cases dir : sys.Dir r
      · rw [if_pos dir]
        cases sys.lookup r.driver r.node (shortName fn) with
        | none => exact closeDir_sound sound found
        | some node =>
          simp only
          by_cases roomy : sys.room s.openings = true
          · obtain ⟨sound₁, kept₁⟩ := openChild_sound sound found dir.1.1 node
            obtain ⟨sound₂, kept₂⟩ := closeDir_sound sound₁ (@openChild_old sys _ _ _ found dir.1.2 r node)
            have both : sys.Sound (closeDir sys (openChild sys s r node) hdir r) ∧
                sys.Kept s (closeDir sys (openChild sys s r node) hdir r) :=
              ⟨sound₂, fun mp member => ⟨(kept₂ mp member).1.trans (kept₁ mp member).1,
                (kept₂ mp member).2.trans (kept₁ mp member).2⟩⟩
            rw [if_pos roomy]
            split <;> exact both
          · rw [if_neg roomy]
            exact closeDir_sound sound found
      · rw [if_neg dir]
        exact unchanged

/-- A mount target is a directory. -/
theorem target_dir (sound : sys.Sound s) {mp : MountPoint} (member : mp ∈ sys.mounts) :
    getPmask sys s mp.htpDir &&& fspDir ≠ 0 := by
  obtain ⟨r, there, file, isOpen, dir⟩ := sound.targets mp member
  rwa [getPmask_file sound there file, if_pos isOpen]

/-- A mount point leads to a directory, and every other handle to itself. -/
theorem getMountPoint_cases (sys : System) (s : State) (h : Nat) :
    (∃ mp ∈ sys.mounts, getMountPoint sys s h = mp.htpDir) ∨ getMountPoint sys s h = h := by
  unfold getMountPoint
  cases found : sys.mounts.find? _ with
  | none => exact .inr rfl
  | some mp => exact .inl ⟨mp, List.mem_of_find?_eq_some found, rfl⟩

theorem handle_real (sound : sys.Sound s) (found : s.handles h = some r) : h ≠ 0 := by
  rintro rfl
  exact absurd found (by simp [sound.null])

theorem closeDir_other {q : Nat} {a : Record} (differ : h ≠ q) (found : s.handles h = some r) :
    (closeDir sys s q a).handles h = some r := by
  unfold closeDir
  split
  · exact found
  · simp [State.put, differ, found]

/-- What a component leads to: a handle that is no directory leads to itself. -/
theorem openStep_handle (sound : sys.Sound s) {hdir hfile hcd : Nat} {fn : List Char}
    (run : openStep sys hdir fn hfile s = (fsResultOk, hcd, s')) :
    hcd ≠ 0 ∧ (getPmask sys s' hcd &&& fspDir = 0 → getMountPoint sys s' hcd = hcd) := by
  -- A handle that was not replaced by a mount target is not replaced later either.
  have stays : ∀ {q : Nat}, q ≠ 0 → hcd = getMountPoint sys s q → s' = s →
      hcd ≠ 0 ∧ (getPmask sys s' hcd &&& fspDir = 0 → getMountPoint sys s' hcd = hcd) := by
    rintro q real rfl rfl
    obtain ⟨mp, member, target⟩ | same := getMountPoint_cases sys _ _
    · rw [target]
      obtain ⟨r, there, -⟩ := sound.targets mp member
      exact ⟨handle_real sound there, fun zero => absurd zero (target_dir sound member)⟩
    · rw [same]
      exact ⟨real, fun _ => same⟩
  have err : (fsResultErr : Nat) ≠ fsResultOk := by decide
  have invalid : (fsResultInvalidPath : Nat) ≠ fsResultOk := by decide
  unfold openStep at run
  cases found : s.handles hdir with
  | none =>
    simp only [found] at run
    by_cases empty : hdir ≠ 0 ∧ fn = []
    · simp only [if_pos empty, Prod.mk.injEq, true_and] at run
      exact stays empty.1 run.1.symm run.2.symm
    · simp only [if_neg empty, Prod.mk.injEq] at run
      exact absurd run.1 err
  | some r =>
    simp only [found] at run
    by_cases empty : fn = []
    · simp only [if_pos empty, Prod.mk.injEq, true_and] at run
      exact stays (handle_real sound found) run.1.symm run.2.symm
    · rw [if_neg empty] at run
      by_cases dir : sys.Dir r
      · rw [if_pos dir] at run
        cases looked : sys.lookup r.driver r.node (shortName fn) with
        | none =>
          simp only [looked, Prod.mk.injEq] at run
          exact absurd run.1 err
        | some node =>
          simp only [looked] at run
          by_cases roomy : sys.room s.openings = true
          · rw [if_pos roomy] at run
            by_cases link : sys.pmask r.driver node &&& fspSlink ≠ 0
            · simp only [if_pos link, Prod.mk.injEq] at run
              exact absurd run.1 invalid
            · simp only [if_neg link, Prod.mk.injEq, true_and] at run
              obtain ⟨rfl, rfl⟩ := run
              obtain ⟨sound₁, -⟩ := openChild_sound sound found dir.1.1 node
              obtain ⟨sound₂, kept₂⟩ := closeDir_sound sound₁ (@openChild_old sys _ _ _ found dir.1.2 r node)
              have new₁ := @openChild_new sys s r node
              have new₂ : (closeDir sys (openChild sys s r node) hdir r).handles (sys.fresh s) = some (r.child node) :=
                closeDir_other (@fresh_ne sys _ _ _ found dir.1.2).symm new₁
              rw [getMountPoint_eq sound₁ new₁]
              cases mounted : sys.mountOf (openChild sys s r node) (r.child node) with
              | none =>
                refine ⟨sys.fresh_real s, fun _ => ?_⟩
                rw [Option.getD_none, getMountPoint_eq sound₂ new₂, kept₂.mountOf, mounted]
                rfl
              | some target =>
                obtain ⟨mp, hit, rfl⟩ := Option.map_eq_some_iff.1 mounted
                have member := List.mem_of_find?_eq_some hit
                obtain ⟨b, there, -⟩ := sound₂.targets mp member
                exact ⟨handle_real sound₂ there, fun zero => absurd zero (target_dir sound₂ member)⟩
          · simp only [if_neg roomy, Prod.mk.injEq] at run
            exact absurd run.1 err
      · simp only [if_neg dir, Prod.mk.injEq] at run
        exact absurd run.1 err

end Steps

end PreTeO.Fs.Root
