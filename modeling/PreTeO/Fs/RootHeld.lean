import PreTeO.Fs.RootTrace

/-!
# The handle that a path holds

Along a path one handle is held: first the start, which the caller or the mount table opened, and then the handles that are
opened on the way. A directory is closed after a file was looked up in it, unless `fclose` takes it for a mount point. So
nothing is lost and nothing of the caller's is closed as long as the directories that were opened on the way are the ones that
`fclose` closes, and every file that is opened is held.
-/

namespace PreTeO.Fs.Root
set_option autoImplicit false
open PreTeO.Sys

instance (s : State) (h : Nat) : Decidable (s.IsOpen h) :=
  match found : s.handles h with
  | none => isFalse fun ⟨_, there, _⟩ => absurd there (by simp [found])
  | some r =>
    if isOpen : r.isOpen = true then isTrue ⟨r, found, isOpen⟩
    else isFalse fun ⟨_, there, on⟩ => isOpen (by rwa [Option.some.inj (found.symm.trans there)])

/-- How often a handle was closed. -/
def State.closings (s : State) (h : Nat) : Nat := s.events.count (.closed h)

/-- Of the handles, only `held` was opened, and nothing was closed that was open before. -/
structure Clean (s₀ s : State) (held : Option Nat) : Prop where
  isOpen : ∀ h, s.IsOpen h ↔ s₀.IsOpen h ∨ held = some h
  unclosed : ∀ h, s₀.IsOpen h → s.closings h = s₀.closings h

/-- A handle was closed that was open before, or one was opened that is no longer held. -/
def Spoiled (s₀ s : State) (held : Option Nat) : Prop :=
  (∃ h, s₀.IsOpen h ∧ s₀.closings h < s.closings h) ∨ ∃ h, ¬ s₀.IsOpen h ∧ s.IsOpen h ∧ held ≠ some h

theorem Spoiled.not_clean {s₀ s : State} {held : Option Nat} (spoiled : Spoiled s₀ s held) : ¬ Clean s₀ s held := by
  rintro ⟨isOpen, unclosed⟩
  obtain ⟨h, before, more⟩ | ⟨h, before, now, other⟩ := spoiled
  · exact absurd (unclosed h before) (by omega)
  · exact ((isOpen h).1 now).elim before other

/-- What is spoiled stays spoiled: a step that closes only the held handle does not come back to a handle that was lost. -/
theorem Spoiled.move {s₀ s s' : State} {h : Nat} {held : Option Nat} (spoiled : Spoiled s₀ s (some h))
    (stays : ∀ q, q ≠ h → s.IsOpen q → s'.IsOpen q) (grows : ∀ q, s.closings q ≤ s'.closings q)
    (next : ∀ q, held = some q → q = h ∨ s₀.IsOpen q ∨ ¬ s.IsOpen q) : Spoiled s₀ s' held := by
  obtain ⟨q, before, more⟩ | ⟨q, before, now, other⟩ := spoiled
  · exact .inl ⟨q, before, Nat.lt_of_lt_of_le more (grows q)⟩
  · have differ : q ≠ h := fun same => other (congrArg some same.symm)
    refine .inr ⟨q, before, stays q differ now, fun same => ?_⟩
    obtain same | opened | closed := next q same
    · exact differ same
    · exact before opened
    · exact closed now

section Effects
variable {sys : System} {s₀ s : State} {h q node : Nat} {r : Record} {e : Event}

theorem isOpen_put : (s.put h r e).IsOpen q ↔ if q = h then r.isOpen = true else s.IsOpen q := by
  unfold State.IsOpen
  by_cases same : q = h
  · simp [State.put, same]
  · simp [State.put, same]

theorem fresh_closed (sys : System) (s : State) : ¬ s.IsOpen (sys.fresh s) := by
  rintro ⟨r, found, isOpen⟩
  exact absurd isOpen (by simp [(sys.fresh_unused s r found).2])

theorem openChild_isOpen : (openChild sys s r node).IsOpen q ↔ s.IsOpen q ∨ q = sys.fresh s := by
  rw [openChild, isOpen_put]
  by_cases same : q = sys.fresh s
  · simp [same, Record.child]
  · simp [same]

@[simp] theorem openChild_closings : (openChild sys s r node).closings q = s.closings q := by
  simp [openChild, State.closings, State.put, List.count_append]

@[simp] theorem openChild_openings : (openChild sys s r node).openings = s.openings + 1 := by
  simp [openChild, State.openings, State.put]

/-- A directory that `fclose` takes for a mount point stays open. -/
theorem closeDir_isOpen : (closeDir sys s h r).IsOpen q ↔ s.IsOpen q ∧ (q = h → sys.guarded s r = true) := by
  unfold closeDir
  by_cases guarded : sys.guarded s r = true
  · simp [guarded]
  · rw [if_neg guarded, isOpen_put]
    by_cases same : q = h
    · simp [same, guarded, Record.gone]
    · simp [same]

theorem closeDir_closings :
    (closeDir sys s h r).closings q = s.closings q + if q = h ∧ sys.guarded s r = false then 1 else 0 := by
  unfold closeDir
  by_cases guarded : sys.guarded s r = true
  · simp [guarded]
  · by_cases same : q = h
    · simp [guarded, same, State.closings, State.put, List.count_append]
    · simp [guarded, same, State.closings, State.put, List.count_append, Ne.symm same]

@[simp] theorem closeDir_openings : (closeDir sys s h r).openings = s.openings := by
  unfold closeDir
  by_cases guarded : sys.guarded s r = true
  · simp [guarded]
  · simp [guarded, State.openings, State.put]

/-- A file that is opened before a directory is closed does not change what is closed. -/
theorem openChild_stays (kept : sys.Kept s (openChild sys s r node)) (now : (closeDir sys s h r).IsOpen q) :
    (closeDir sys (openChild sys s r node) h r).IsOpen q := by
  rw [closeDir_isOpen] at now
  rw [closeDir_isOpen, kept.guarded, openChild_isOpen]
  exact ⟨.inl now.1, now.2⟩

theorem openChild_grows (kept : sys.Kept s (openChild sys s r node)) :
    (closeDir sys s h r).closings q ≤ (closeDir sys (openChild sys s r node) h r).closings q := by
  refine Nat.le_of_eq ?_
  rw [closeDir_closings, closeDir_closings, openChild_closings, kept.guarded]

/-- `fclose`, by the record of the handle. -/
theorem fclose_state (sound : sys.Sound s) (h : Nat) : (fclose sys s h).2 =
    match s.handles h with | some r => if r.File then closeDir sys s h r else s | none => s := by
  cases found : s.handles h with
  | none => rw [fclose_other (by simp [State.type, found, htypeFile])]
  | some r =>
    by_cases type : r.type = htypeFile
    · by_cases isOpen : r.isOpen = true
      · rw [fclose_file sound found ⟨type, isOpen⟩]
        exact (if_pos ⟨type, isOpen⟩).symm
      · have shut : ¬ r.File := fun file => isOpen file.2
        simp only [if_neg shut, fclose, type_eq found, if_pos type]
        split
        · rfl
        split
        · simp [cxtFclose, found, isOpen]
        · rfl
    · have other : ¬ r.File := fun file => type file.1
      rw [fclose_other (by rwa [type_eq found])]
      exact (if_neg other).symm

/-- The handles of the mount table were open at the start. -/
theorem target_open (sound : sys.Sound s) (kept : sys.Kept s₀ s) {mp : MountPoint} (member : mp ∈ sys.mounts) :
    s₀.IsOpen mp.htpDir := by
  obtain ⟨r, there, -, isOpen, -⟩ := sound.targets mp member
  exact ⟨r, by rw [← (kept mp member).2, there], isOpen⟩

theorem getMountPoint_none (sound : sys.Sound s) (real : h ≠ 0) (absent : s.handles h = none) :
    getMountPoint sys s h = h := by
  obtain ⟨mp, member, -⟩ | same := getMountPoint_cases sys s h
  · have each : ∀ mp ∈ sys.mounts, (if h ≠ 0 then compareHandle s mp.hmpDir h else true) = false := by
      intro mp member
      obtain ⟨a, point, -⟩ := sound.points mp member
      have differ : mp.hmpDir ≠ h := by
        rintro rfl
        exact absurd point (by simp [absent])
      simp [real, compareHandle, differ, point, absent]
    rw [getMountPoint, List.find?_eq_none.2 fun mp member => by simp [each mp member]]
  · exact same

end Effects

/-- The mask that a context answers for a record. -/
def pmaskOf (sys : System) (r : Option Record) : Nat :=
  match r with
  | some r => if r.driver ≠ 0 ∧ sys.isFsc r.driver ∧ r.isOpen then sys.pmask r.driver r.node else 0
  | none => 0

theorem getPmask_record (sys : System) (s : State) (h : Nat) : getPmask sys s h = pmaskOf sys (s.handles h) := rfl

/-- The handle that is held: whether it was opened on the way, its record, and how many were opened until then. -/
structure Held where
  owned : Bool
  record : Option Record
  count : Nat
deriving DecidableEq, Repr

/-- Where a path comes to, as to the handles: a handle is held, none is held any more, or one was lost or closed that should
not, or there is no end. -/
inductive Stop where
  | held (c : Held)
  | lost
  | spoiled
deriving DecidableEq, Repr

section Ownership
variable (sys : System) (s : State)

/-- The record of what is mounted on a handle. -/
def mountedRecord (r : Option Record) : Option Record :=
  match r.bind (sys.mountOf s) with
  | some target => s.handles target
  | none => r

def Held.mounted (c : Held) : Held := { c with record := mountedRecord sys s c.record }

/-- A file whose handle can be held: it is no link, and nothing is mounted on it. -/
def Plain (r : Record) : Prop := sys.pmask r.driver r.node &&& fspSlink = 0 ∧ sys.mountOf s r = none

instance (r : Record) : Decidable (Plain sys s r) := inferInstanceAs (Decidable (_ ∧ _))

/-- A file is looked up in the directory that is held, and the directory closed. -/
def Held.search (c : Held) (r : Record) (fn : List Char) : Stop :=
  if c.owned = sys.guarded s r then .spoiled
  else
    match sys.lookup r.driver r.node (shortName fn) with
    | none => .lost
    | some node =>
      if sys.room (s.openings + c.count) then
        if Plain sys s (r.child node) then .held ⟨true, some (r.child node), c.count + 1⟩ else .spoiled
      else .lost

/-- One component. -/
def Held.step (c : Held) (fn : List Char) : Stop :=
  if fn = [] then .held (c.mounted sys s)
  else if Blank fn then .spoiled
  else
    match c.record with
    | some r => if sys.Dir r then c.search sys s r fn else if c.owned then .spoiled else .lost
    | none => .lost

/-- The components of a path. -/
def Held.walk (path : List Char) : List (List Char) → Held → Stop
  | [], c => .held (c.mounted sys s)
  | seg :: rest, c =>
    match c.step sys s seg with
    | .held c =>
      if rest = [] then .held c
      else if pmaskOf sys c.record &&& fspDir ≠ 0 then Held.walk path rest c
      else if Wraps path then if path[0]? = some '/' ∨ c.owned then .spoiled else .lost
      else .held (c.mounted sys s)
    | .lost => .lost
    | .spoiled => .spoiled

end Ownership

/-- A handle is held, as the record says: nothing was done before the first is opened, and then only the handle that is held
was opened. -/
inductive Holds (sys : System) (s₀ s : State) (h : Nat) : Held → Prop where
  | foreign (same : s = s₀) : Holds sys s₀ s h ⟨false, s.handles h, 0⟩
  | owned (r : Record) (count : Nat) (found : s.handles h = some r) (file : r.File) (plain : sys.mountOf s₀ r = none)
      (opened : ¬ s₀.IsOpen h) (clean : Clean s₀ s (some h)) (openings : s.openings = s₀.openings + count) :
      Holds sys s₀ s h ⟨true, some r, count⟩

/-- The handle that a call gives out. -/
def handed (out : Nat × Nat × State) : Option Nat := if out.1 = fsResultOk then some out.2.1 else none

section Steps
variable {sys : System} {s₀ s : State} {h : Nat} {c : Held}

theorem mountedRecord_eq (sound : sys.Sound s) (real : h ≠ 0) :
    s.handles (getMountPoint sys s h) = mountedRecord sys s (s.handles h) := by
  cases found : s.handles h with
  | none => rw [getMountPoint_none sound real found, found]; rfl
  | some r =>
    rw [getMountPoint_eq sound found, mountedRecord, Option.bind_some]
    cases sys.mountOf s r with
    | none => exact found
    | some target => rfl

theorem Holds.record (holds : Holds sys s₀ s h c) : s.handles h = c.record := by
  cases holds with
  | foreign same => rfl
  | owned r count found => exact found

/-- What is mounted on the held handle is held next. -/
theorem Holds.mounted (sound : sys.Sound s) (kept : sys.Kept s₀ s) (real : h ≠ 0) (holds : Holds sys s₀ s h c) :
    Holds sys s₀ s (getMountPoint sys s h) (c.mounted sys s₀) := by
  cases holds with
  | foreign same =>
    subst same
    rw [Held.mounted, ← mountedRecord_eq sound real]
    exact .foreign rfl
  | owned r count found file plain opened clean openings =>
    have stays : (⟨true, some r, count⟩ : Held).mounted sys s₀ = ⟨true, some r, count⟩ := by
      simp [Held.mounted, mountedRecord, plain]
    rw [stays, getMountPoint_eq sound found, kept.mountOf, plain]
    exact .owned r count found file plain opened clean openings

/-- A directory that was closed rightly leaves nothing. -/
theorem Holds.closed (kept : sys.Kept s₀ s) (holds : Holds sys s₀ s h c) {r : Record} (record : c.record = some r)
    (right : c.owned ≠ sys.guarded s₀ r) : Clean s₀ (closeDir sys s h r) none := by
  cases holds with
  | foreign same =>
    subst same
    have guarded : sys.guarded s r = true := by simpa using right
    rw [closeDir, if_pos guarded]
    exact ⟨fun q => by simp, fun q _ => rfl⟩
  | owned r' count found file plain opened clean openings =>
    obtain rfl : r' = r := Option.some.inj record
    have free : sys.guarded s r' = false := by
      rw [kept.guarded]
      simpa using right
    refine ⟨fun q => ?_, fun q before => ?_⟩
    · rw [closeDir_isOpen, clean.isOpen, free]
      constructor
      · rintro ⟨before | held, other⟩
        · exact .inl before
        · exact absurd (other (Option.some.inj held).symm) (by decide)
      · rintro (before | held)
        · refine ⟨.inl before, ?_⟩
          rintro rfl
          exact absurd before opened
        · cases held
    · have differ : q ≠ h := by
        rintro rfl
        exact opened before
      rw [closeDir_closings, clean.unclosed q before]
      simp [differ]

/-- A directory that is closed wrongly, or not closed, spoils the rest. -/
theorem Holds.misclosed (kept : sys.Kept s₀ s) (holds : Holds sys s₀ s h c) {r : Record} (record : c.record = some r)
    (isOpen : r.isOpen = true) (wrong : c.owned = sys.guarded s₀ r) {s' : State} {held : Option Nat}
    (stays : ∀ q, (closeDir sys s h r).IsOpen q → s'.IsOpen q)
    (grows : ∀ q, (closeDir sys s h r).closings q ≤ s'.closings q)
    (next : held ≠ some h) : Spoiled s₀ s' held := by
  have found : s.handles h = some r := holds.record.trans record
  cases holds with
  | foreign same =>
    subst same
    have free : sys.guarded s r = false := wrong.symm
    refine .inl ⟨h, ⟨r, found, isOpen⟩, Nat.lt_of_lt_of_le ?_ (grows h)⟩
    rw [closeDir_closings]
    simp [free]
  | owned r' count found' file plain opened clean openings =>
    obtain rfl : r' = r := Option.some.inj record
    have guarded : sys.guarded s r' = true := by
      rw [kept.guarded]
      exact wrong.symm
    refine .inr ⟨h, opened, stays h ?_, next⟩
    exact closeDir_isOpen.2 ⟨⟨r', found, isOpen⟩, fun _ => guarded⟩

/-- A file is opened and its directory closed rightly: only the file is open then. -/
theorem Holds.opened (kept : sys.Kept s₀ s) (holds : Holds sys s₀ s h c) (sound : sys.Sound s) {r : Record}
    (record : c.record = some r) (file : r.File) (right : c.owned ≠ sys.guarded s₀ r) (node : Nat) :
    Clean s₀ (closeDir sys (openChild sys s r node) h r) (some (sys.fresh s)) := by
  have found : s.handles h = some r := holds.record.trans record
  obtain ⟨-, kept₁⟩ := openChild_sound sound found file.1 node
  have guard : sys.guarded (openChild sys s r node) r = sys.guarded s r := kept₁.guarded r
  have closed := holds.closed kept record right
  refine ⟨fun q => ?_, fun q before => ?_⟩
  · rw [closeDir_isOpen, openChild_isOpen, guard]
    have same := closed.isOpen q
    rw [closeDir_isOpen] at same
    constructor
    · rintro ⟨now | rfl, shut⟩
      · exact .inl (by simpa using same.1 ⟨now, shut⟩)
      · exact .inr rfl
    · rintro (before | held)
      · obtain ⟨now, shut⟩ := same.2 (.inl before)
        exact ⟨.inl now, shut⟩
      · obtain rfl := Option.some.inj held
        exact ⟨.inr rfl, fun back => absurd back.symm (fresh_ne found file.2)⟩
  · have same := closed.unclosed q before
    rw [closeDir_closings] at same
    rw [closeDir_closings, openChild_closings, guard, same]

/-- What is created was not open at the start. -/
theorem Holds.fresh_closed (holds : Holds sys s₀ s h c) : ¬ s₀.IsOpen (sys.fresh s) := by
  intro before
  refine Root.fresh_closed sys s ?_
  cases holds with
  | foreign same => subst same; exact before
  | owned r count found file plain opened clean openings => exact (clean.isOpen _).2 (.inl before)

/-- The opened file is held, if its directory is closed rightly. -/
theorem Holds.child (sound : sys.Sound s) (kept : sys.Kept s₀ s) (holds : Holds sys s₀ s h c) {r : Record}
    (record : c.record = some r) (file : r.File) (right : c.owned ≠ sys.guarded s₀ r) {node : Nat}
    (plain : sys.mountOf s₀ (r.child node) = none) :
    Holds sys s₀ (closeDir sys (openChild sys s r node) h r) (sys.fresh s) ⟨true, some (r.child node), c.count + 1⟩ := by
  have found : s.handles h = some r := holds.record.trans record
  refine .owned _ _ ?_ ⟨rfl, rfl⟩ plain holds.fresh_closed (holds.opened kept sound record file right node) ?_
  · exact closeDir_other (fresh_ne found file.2).symm (openChild_new r node)
  · rw [closeDir_openings, openChild_openings]
    cases holds with
    | foreign same => subst same; rfl
    | owned r' count found' file' plain' opened clean openings => rw [openings, Nat.add_assoc]

/-- The opened file is lost: it is a link, or something is mounted on it. -/
theorem Holds.unplain (holds : Holds sys s₀ s h c) {r : Record}
    (record : c.record = some r) (isOpen : r.isOpen = true) {node : Nat} {held : Option Nat} {s' : State}
    (stays : ∀ q, q ≠ h → (openChild sys s r node).IsOpen q → s'.IsOpen q)
    (other : held ≠ some (sys.fresh s)) : Spoiled s₀ s' held := by
  have found : s.handles h = some r := holds.record.trans record
  refine .inr ⟨sys.fresh s, holds.fresh_closed, ?_, other⟩
  exact stays _ (fresh_ne found isOpen).symm (openChild_isOpen.2 (.inr rfl))

/-- A mount target is not closed wrongly. -/
theorem Holds.target_ne (sound : sys.Sound s) (kept : sys.Kept s₀ s) (holds : Holds sys s₀ s h c) {r : Record}
    (record : c.record = some r) (wrong : c.owned = sys.guarded s₀ r) {mp : MountPoint} (member : mp ∈ sys.mounts) :
    mp.htpDir ≠ h := by
  have found : s.handles h = some r := holds.record.trans record
  cases holds with
  | foreign same =>
    subst same
    exact (guarded_mounted sound found wrong.symm mp member).2
  | owned r' count found' file plain opened clean openings =>
    rintro rfl
    exact opened (target_open sound kept member)

/-- A component that is not blank does to the handles what `Held.step` says. -/
theorem openStep_holds (sound : sys.Sound s) (kept : sys.Kept s₀ s) (real : h ≠ 0) (holds : Holds sys s₀ s h c)
    {fn : List Char} (named : ¬ Blank fn) (hres : Nat) :
    match c.step sys s₀ fn with
    | .held c' => ∃ h' s', openStep sys h fn hres s = (fsResultOk, h', s') ∧ Holds sys s₀ s' h' c'
    | .lost => ∃ r h' s', openStep sys h fn hres s = (r, h', s') ∧ r ≠ fsResultOk ∧ Clean s₀ s' none
    | .spoiled => Spoiled s₀ (openStep sys h fn hres s).2.2 (handed (openStep sys h fn hres s)) := by
  have err : (fsResultErr : Nat) ≠ fsResultOk := by decide
  have invalid : (fsResultInvalidPath : Nat) ≠ fsResultOk := by decide
  have record := holds.record
  unfold Held.step openStep
  by_cases empty : fn = []
  · rw [if_pos empty]
    refine ⟨getMountPoint sys s h, s, ?_, holds.mounted sound kept real⟩
    cases s.handles h <;> simp [empty, real]
  rw [if_neg empty, if_neg named, record]
  cases there : c.record with
  | none =>
    have same : Clean s₀ s none := by
      cases holds with
      | foreign same => exact same ▸ ⟨fun q => by simp, fun q _ => rfl⟩
      | owned r count => cases there
    exact ⟨fsResultErr, hres, s, by simp [empty], err, same⟩
  | some r =>
    have found : s.handles h = some r := record.trans there
    simp only [if_neg empty]
    by_cases dir : sys.Dir r
    · simp only [if_pos dir]
      unfold Held.search
      have openings : s.openings = s₀.openings + c.count := by
        cases holds with
        | foreign same => rw [same, Nat.add_zero]
        | owned r' count found' file plain opened clean openings => exact openings
      cases looked : sys.lookup r.driver r.node (shortName fn) with
      | none =>
        by_cases wrong : c.owned = sys.guarded s₀ r
        · simp only [if_pos wrong, handed, if_neg err]
          exact holds.misclosed kept there dir.1.2 wrong (fun _ now => now) (fun _ => Nat.le_refl _) (by simp)
        · simp only [if_neg wrong]
          exact ⟨_, _, _, rfl, err, holds.closed kept there wrong⟩
      | some node =>
        simp only
        by_cases roomy : sys.room s.openings = true
        · obtain ⟨sound₁, kept₁⟩ := openChild_sound sound found dir.1.1 node
          have stays := fun q => openChild_stays (h := h) (q := q) kept₁
          have grows := fun q => openChild_grows (h := h) (q := q) kept₁
          have others : ∀ q, q ≠ h → (openChild sys s r node).IsOpen q →
              (closeDir sys (openChild sys s r node) h r).IsOpen q :=
            fun q differ now => closeDir_isOpen.2 ⟨now, fun same => absurd same differ⟩
          have new₁ := @openChild_new sys s r node
          have target := getMountPoint_eq sound₁ new₁
          rw [kept₁.mountOf, kept.mountOf] at target
          rw [if_pos roomy, ← openings, if_pos roomy]
          by_cases wrong : c.owned = sys.guarded s₀ r
          · rw [if_pos wrong]
            by_cases link : sys.pmask r.driver node &&& fspSlink ≠ 0
            · simp only [if_pos link, handed, if_neg invalid]
              exact holds.misclosed kept there dir.1.2 wrong stays grows (by simp)
            · simp only [if_neg link, handed, if_true]
              refine holds.misclosed kept there dir.1.2 wrong stays grows fun same => ?_
              obtain ⟨mp, member, hit⟩ | self := getMountPoint_cases sys (openChild sys s r node) (sys.fresh s)
              · exact holds.target_ne sound kept there wrong member (hit.symm.trans (Option.some.inj same))
              · exact fresh_ne found dir.1.2 (Option.some.inj same ▸ self)
          · rw [if_neg wrong]
            by_cases link : sys.pmask r.driver node &&& fspSlink ≠ 0
            · have unplain : ¬ Plain sys s₀ (r.child node) := fun plain => link plain.1
              simp only [if_neg unplain, if_pos link, handed, if_neg invalid]
              exact holds.unplain there dir.1.2 others (by simp)
            · simp only [if_neg link]
              cases mounted : sys.mountOf s₀ (r.child node) with
              | none =>
                have plain : Plain sys s₀ (r.child node) := ⟨not_not.1 link, mounted⟩
                rw [mounted, Option.getD_none] at target
                simp only [if_pos plain, target]
                exact ⟨_, _, rfl, holds.child sound kept there dir.1 wrong mounted⟩
              | some tp =>
                have unplain : ¬ Plain sys s₀ (r.child node) := fun plain => absurd plain.2 (by simp [mounted])
                obtain ⟨mp, hit, rfl⟩ := Option.map_eq_some_iff.1 mounted
                rw [mounted, Option.getD_some] at target
                simp only [if_neg unplain, target, handed, if_true]
                refine holds.unplain there dir.1.2 others fun same => ?_
                exact (fresh_unmounted sound mp (List.mem_of_find?_eq_some hit)).2 (Option.some.inj same)
        · have crowded : ¬ sys.room (s₀.openings + c.count) = true := by rwa [← openings]
          simp only [if_neg roomy, if_neg crowded]
          by_cases wrong : c.owned = sys.guarded s₀ r
          · simp only [if_pos wrong, handed, if_neg err]
            exact holds.misclosed kept there dir.1.2 wrong (fun _ now => now) (fun _ => Nat.le_refl _) (by simp)
          · simp only [if_neg wrong]
            exact ⟨_, _, _, rfl, err, holds.closed kept there wrong⟩
    · simp only [if_neg dir]
      cases holds with
      | foreign same =>
        subst same
        exact ⟨_, _, _, rfl, err, fun q => by simp, fun q _ => rfl⟩
      | owned r' count found' file plain opened clean openings =>
        simp only [if_true, handed, if_neg err]
        exact .inr ⟨h, opened, ⟨r', found', file.2⟩, by simp⟩

/-- One component does to the handles what `Held.step` says. -/
theorem openNamed_holds (sound : sys.Sound s) (kept : sys.Kept s₀ s) (real : h ≠ 0) (holds : Holds sys s₀ s h c)
    (fn : List Char) (hres : Nat) :
    match c.step sys s₀ fn with
    | .held c' => ∃ h' s', openNamed sys h fn hres s = some (fsResultOk, h', s') ∧ h' ≠ 0 ∧ Holds sys s₀ s' h' c'
    | .lost => ∃ r h' s', openNamed sys h fn hres s = some (r, h', s') ∧ r ≠ fsResultOk ∧ Clean s₀ s' none
    | .spoiled => ∀ out, openNamed sys h fn hres s = some out → Spoiled s₀ out.2.2 (handed out) := by
  by_cases blank : Blank fn
  · have lost : openNamed sys h fn hres s = none := if_pos ⟨real, blank⟩
    have named : fn ≠ [] := fun empty => nil_not_blank (empty ▸ blank)
    have spoiled : c.step sys s₀ fn = .spoiled := by rw [Held.step, if_neg named, if_pos blank]
    rw [spoiled]
    exact fun out run => absurd run (by simp [lost])
  · have step := openStep_holds sound kept real holds blank hres
    have run : openNamed sys h fn hres s = some (openStep sys h fn hres s) := if_neg fun both => blank both.2
    rw [run]
    cases stop : c.step sys s₀ fn with
    | held c' =>
      rw [stop] at step
      obtain ⟨h', s', step, holds'⟩ := step
      exact ⟨h', s', congrArg some step, (openStep_handle sound step).1, holds'⟩
    | lost =>
      rw [stop] at step
      obtain ⟨r, h', s', step, fail, clean⟩ := step
      exact ⟨r, h', s', congrArg some step, fail, clean⟩
    | spoiled =>
      rw [stop] at step
      exact fun out same => Option.some.inj same ▸ step

end Steps

end PreTeO.Fs.Root
