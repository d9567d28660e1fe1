import PreTeO.Fs.RootOwned

/-!
# The handles of `fopen`

`fopen` walks along the path and then opens or creates the file in the directory that it came to, which it closes. It leaves
open what it should exactly if the path and the file are `Tidy`: the directories on the way are closed by `fclose` if they
were opened on the way and only then, and no link and no mount point is opened.
-/

namespace PreTeO.Fs.Root
set_option autoImplicit false
open PreTeO.Sys

/-- The end of `fopen`, in the directory that the path led to. -/
def openEnd (sys : System) (fname : List Char) (flags hdir : Nat) (s : State) : Option (Nat × Option Nat × State) :=
  if fname.length % 0x100 ≠ 0 ∨ flags &&& fspCreateNew ≠ 0 then
    if getPmask sys s hdir ≠ 0 then
      if fname.length % 0x100 ≠ 0 then
        (if flags &&& fspCreateNew ≠ 0 then some (cxtFcreate sys s fname flags hdir)
          else openNamed sys hdir (fname.take (fname.length % 0x100)) 0 s).map fun (r, hfile, s) =>
            (r, some hfile, (fclose sys s hdir).2)
      else some (fsResultOk, none, s)
    else some (fsResultInvalidPath, none, s)
  else some (fsResultOk, some (getMountPoint sys s hdir), s)

section Equation
variable {sys : System} {s : State} {path : List Char}

theorem traced_sound {hstart hres : Nat} {out : Nat × Nat × State} (sound : sys.Sound s)
    (run : traced sys path hstart hres s = some out) : sys.Sound out.2.2 ∧ sys.Kept s out.2.2 ∧ Balanced s out.2.2 := by
  unfold traced at run
  by_cases null : startOf sys s path hstart = 0
  · rw [if_pos null] at run
    obtain rfl := Option.some.inj run
    exact ⟨sound, fun _ _ => ⟨rfl, rfl⟩, .refl s⟩
  · rw [if_neg null] at run
    exact walk_sound path hres sound run

/-- A handle that has a mask belongs to a context. -/
theorem context_of_mask {h : Nat} (mask : getPmask sys s h ≠ 0) : getFsContext sys s h ≠ 0 := by
  unfold getPmask at mask
  cases found : s.handles h with
  | none => simp [found] at mask
  | some r =>
    simp only [found] at mask
    split at mask
    · rename_i there
      rw [getFsContext, driver_eq found, if_pos there.2.1]
      exact there.1
    · exact absurd rfl mask

/-- `fopen` is the walk along the path and its end. -/
theorem fopen_eq (sound : sys.Sound s) (rounds : Nat) (enough : 2 * 0x10000 ≤ rounds) (fname : List Char) (flags hcd : Nat) :
    fopen sys rounds path fname flags hcd s = (traced sys path hcd 0 s).bind fun out =>
      if out.1 = fsResultOk then openEnd sys fname flags out.2.1 out.2.2 else some (out.1, none, out.2.2) := by
  unfold fopen
  rw [show maxItrc = 7 + 1 from rfl, tracePath_eq sound rounds 7 hcd 0 enough]
  cases run : traced sys path hcd 0 s with
  | none => rfl
  | some out =>
    obtain ⟨sound', -⟩ := traced_sound sound run
    obtain ⟨r, hdir, s'⟩ := out
    simp only [Option.bind_eq_bind, Option.bind_some]
    by_cases ok : r = fsResultOk
    · subst ok
      simp only [if_true, openEnd]
      by_cases name : fname.length % 0x100 ≠ 0 ∨ flags &&& fspCreateNew ≠ 0
      · simp only [if_pos name]
        by_cases mask : getPmask sys s' hdir ≠ 0
        · simp only [if_pos mask, if_pos (context_of_mask mask)]
          by_cases named : fname.length % 0x100 ≠ 0
          · simp only [if_pos named]
            by_cases create : flags &&& fspCreateNew ≠ 0
            · simp only [if_pos create, Option.map_some]
            · simp only [if_neg create, openFile_eq sound']
              cases openNamed sys hdir (fname.take (fname.length % 0x100)) 0 s' <;> rfl
          · simp only [if_neg named]
        · simp only [if_neg mask]
      · simp only [if_neg name]
    · simp only [if_neg ok]

end Equation

/-- A handle is closed by `fclose` exactly if it was opened on the way; only the handles of files are closed at all. -/
def Held.Returnable (sys : System) (s : State) (c : Held) (r : Record) : Prop := r.File → c.owned ≠ sys.guarded s r

instance (sys : System) (s : State) (c : Held) (r : Record) : Decidable (c.Returnable sys s r) :=
  inferInstanceAs (Decidable (_ → _))

/-- The end of `fopen` leaves open what it should: a handle that is returned is open, one that is not returned was not opened
on the way, and the directory in which a file is opened or created is closed rightly. The name of a file that is opened is not
blank. -/
def Held.Settled (sys : System) (s : State) (fname : List Char) (flags : Nat) (c : Held) : Prop :=
  if fname.length % 0x100 ≠ 0 ∨ flags &&& fspCreateNew ≠ 0 then
    if pmaskOf sys c.record ≠ 0 ∧ fname.length % 0x100 ≠ 0 then
      match c.record with
      | some r =>
        if flags &&& fspCreateNew = 0 then
          ¬ Blank (fname.take (fname.length % 0x100)) ∧
            if sys.Dir r then c.search sys s r (fname.take (fname.length % 0x100)) ≠ .spoiled else c.Returnable sys s r
        else c.Returnable sys s r
      | none => True
    else c.owned = false
  else c.owned = true ∨ (mountedRecord sys s c.record).any Record.isOpen = true

/-- The condition for a call of `fopen`: from the start of the path on, nothing is spoiled. -/
def Tidy (sys : System) (s : State) (path fname : List Char) (flags hcd : Nat) : Prop :=
  startOf sys s path hcd ≠ 0 →
    match Held.walk sys s path (segments [] (seen path)) ⟨false, s.handles (startOf sys s path hcd), 0⟩ with
    | .held c => c.Settled sys s fname flags
    | .lost => True
    | .spoiled => False

section End
variable {sys : System} {s₀ s : State} {h node : Nat} {c : Held} {r : Record} {fname : List Char} {flags : Nat}

theorem fclose_moved (sound : sys.Sound s) (h : Nat) : Moved sys s h (fclose sys s h).2 := by
  rw [fclose_state sound]
  cases found : s.handles h with
  | none => exact .none
  | some r =>
    by_cases file : r.File
    · simp only [if_pos file]
      exact .closed r found file.2
    · simp only [if_neg file]
      exact .none

/-- A directory that was closed is not closed again. -/
theorem fclose_again (sound : sys.Sound s) (found : s.handles h = some r) :
    (fclose sys (closeDir sys s h r) h).2 = closeDir sys s h r := by
  obtain ⟨sound', kept'⟩ := closeDir_sound sound found
  rw [fclose_state sound']
  by_cases guarded : sys.guarded s r = true
  · have same : closeDir sys s h r = s := if_pos guarded
    rw [same, found]
    simp [same]
  · have shut : (closeDir sys s h r).handles h = some r.gone := by
      rw [closeDir, if_neg guarded]
      simp [State.put]
    have gone : ¬ r.gone.File := fun file => absurd file.1 (by simp [Record.gone, htypeFile])
    simp only [shut, if_neg gone]

/-- Creating a file in a directory: nothing is found, or a file is opened. -/
theorem cxtFcreate_cases (found : s.handles h = some r) (isOpen : r.isOpen = true) (name : List Char) (pmask : Nat) :
    (∃ q, cxtFcreate sys s name pmask h = (fsResultErr, q, s)) ∨
      ∃ node, cxtFcreate sys s name pmask h = (fsResultOk, sys.fresh s, openChild sys s r node) := by
  simp only [cxtFcreate, openNode, found, isOpen, if_true]
  cases sys.make r.driver r.node name (pmask &&& fspToMgfsMask) with
  | none => exact .inl ⟨_, rfl⟩
  | some node =>
    by_cases roomy : sys.room s.openings = true
    · simp only [if_pos roomy]
      exact .inr ⟨node, rfl⟩
    · simp only [if_neg roomy]
      exact .inl ⟨_, rfl⟩

theorem openChild_context (sound : sys.Sound s) (context : r.driver ≠ 0 ∧ sys.isFsc r.driver = true) (node : Nat) :
    sys.Sound (openChild sys s r node) ∧ sys.Kept s (openChild sys s r node) :=
  sound.put (sys.fresh_real s) (sys.fresh_frame s) (fun _ => context) (fresh_unmounted sound)

/-- A record that has a mask is open, and belongs to a context. -/
theorem record_of_mask (mask : pmaskOf sys (some r) ≠ 0) :
    (r.driver ≠ 0 ∧ sys.isFsc r.driver = true) ∧ r.isOpen = true := by
  by_cases all : r.driver ≠ 0 ∧ sys.isFsc r.driver = true ∧ r.isOpen = true
  · exact ⟨⟨all.1, all.2.1⟩, all.2.2⟩
  · exact absurd (if_neg all) mask

/-- A file is created, or not, and the handle it was created in closed: that is right exactly if it is closed rightly. -/
theorem created_iff (sound : sys.Sound s) (kept : sys.Kept s₀ s) (holds : Holds sys s₀ s h c) (record : c.record = some r)
    (isOpen : r.isOpen = true) (context : r.driver ≠ 0 ∧ sys.isFsc r.driver = true) {s₁ : State} {held : Option Nat}
    (made : s₁ = s ∧ held = none ∨ ∃ node, s₁ = openChild sys s r node ∧ held = some (sys.fresh s)) :
    Clean s₀ (fclose sys s₁ h).2 held ↔ c.Returnable sys s₀ r := by
  have found : s.handles h = some r := holds.record.trans record
  have child := openChild_context sound context
  have there : s₁.handles h = some r ∧ sys.Sound s₁ := by
    obtain ⟨rfl, -⟩ | ⟨node, rfl, -⟩ := made
    · exact ⟨found, sound⟩
    · exact ⟨openChild_old found isOpen r node, (child node).1⟩
  rw [fclose_state there.2, there.1]
  by_cases file : r.File
  · simp only [Held.Returnable, file, if_true, true_implies]
    by_cases wrong : c.owned = sys.guarded s₀ r
    · refine iff_of_false (Spoiled.not_clean ?_) (not_not.2 wrong)
      obtain ⟨rfl, rfl⟩ | ⟨node, rfl, rfl⟩ := made
      · exact holds.misclosed kept record isOpen wrong (fun _ now => now) (fun _ => Nat.le_refl _) (by simp)
      · refine holds.misclosed kept record isOpen wrong (fun _ => openChild_stays (child node).2)
          (fun _ => openChild_grows (child node).2) fun same => ?_
        exact fresh_ne found isOpen (Option.some.inj same).symm
    · refine iff_of_true ?_ wrong
      obtain ⟨rfl, rfl⟩ | ⟨node, rfl, rfl⟩ := made
      · exact holds.closed kept record wrong
      · exact holds.opened kept sound record file wrong node
  · simp only [Held.Returnable, file, if_false, false_implies, iff_true]
    -- Only the handles of files are opened on the way.
    cases holds with
    | owned r' count found' file' plain opened clean openings =>
      exact absurd (Option.some.inj record ▸ file') file
    | foreign same =>
      subst same
      obtain ⟨rfl, rfl⟩ | ⟨node, rfl, rfl⟩ := made
      · exact ⟨fun q => by simp, fun q _ => rfl⟩
      · refine ⟨fun q => ?_, fun q _ => openChild_closings⟩
        rw [openChild_isOpen, Option.some.injEq, eq_comm]

/-- A file is looked up in the directory that is held, which `fopen` tries to close again. -/
theorem opened_iff (sound : sys.Sound s) (kept : sys.Kept s₀ s) (real : h ≠ 0) (holds : Holds sys s₀ s h c)
    (record : c.record = some r) (dir : sys.Dir r) {fn : List Char} (named : fn ≠ []) (kind : ¬ Blank fn) :
    Clean s₀ (fclose sys (openStep sys h fn 0 s).2.2 h).2 (handed (openStep sys h fn 0 s)) ↔
      c.search sys s₀ r fn ≠ .spoiled := by
  have found : s.handles h = some r := holds.record.trans record
  have again : (fclose sys (openStep sys h fn 0 s).2.2 h).2 = (openStep sys h fn 0 s).2.2 := by
    unfold openStep
    simp only [found, if_neg named, if_pos dir]
    cases sys.lookup r.driver r.node (shortName fn) with
    | none => exact fclose_again sound found
    | some node =>
      have again := fclose_again (openChild_sound sound found dir.1.1 node).1 (openChild_old found dir.1.2 r node)
      simp only
      by_cases roomy : sys.room s.openings = true
      · rw [if_pos roomy]
        split <;> exact again
      · rw [if_neg roomy]
        exact fclose_again sound found
  have step := openStep_holds sound kept real holds kind 0
  have search : c.step sys s₀ fn = c.search sys s₀ r fn := by simp [Held.step, named, kind, record, dir]
  rw [again]
  rw [search] at step
  cases result : c.search sys s₀ r fn with
  | spoiled =>
    rw [result] at step
    exact iff_of_false step.not_clean (fun differ => differ rfl)
  | lost =>
    rw [result] at step
    obtain ⟨r', h', s', run, fail, clean⟩ := step
    refine iff_of_true ?_ (by simp)
    rw [run]
    simpa [handed, fail] using clean
  | held c' =>
    rw [result] at step
    obtain ⟨h', s', run, holds'⟩ := step
    refine iff_of_true ?_ (by simp)
    have owned : c'.owned = true := by
      unfold Held.search at result
      split at result
      · cases result
      split at result
      · cases result
      split at result
      · split at result
        · cases result; rfl
        · cases result
      · cases result
    rw [run]
    cases holds' with
    | foreign same => cases owned
    | owned r' count found' file plain opened clean openings => simpa [handed] using clean

/-- The end of `fopen` is clean exactly if the held handle is `Settled`. -/
theorem openEnd_iff (sound : sys.Sound s) (kept : sys.Kept s₀ s) (real : h ≠ 0) (holds : Holds sys s₀ s h c) :
    (∃ out, openEnd sys fname flags h s = some out ∧ Clean s₀ out.2.2 (returned out)) ↔
      c.Settled sys s₀ fname flags := by
  have once : ∀ x : Nat × Option Nat × State,
      (∃ out, some x = some out ∧ Clean s₀ out.2.2 (returned out)) ↔ Clean s₀ x.2.2 (returned x) := by
    intro x
    simp
  have invalid : (fsResultInvalidPath : Nat) ≠ fsResultOk := by decide
  have err : (fsResultErr : Nat) ≠ fsResultOk := by decide
  -- A handle that is neither closed nor returned must not have been opened on the way.
  have left : ∀ out : Nat × Option Nat × State, out.2.2 = s → returned out = none →
      (Clean s₀ out.2.2 (returned out) ↔ c.owned = false) := by
    rintro out same nothing
    rw [same, nothing]
    cases holds with
    | foreign same => exact iff_of_true ⟨fun q => by simp [same], fun q _ => by rw [same]⟩ rfl
    | owned r count found file plain opened clean openings =>
      refine iff_of_false (Spoiled.not_clean ?_) (by simp)
      exact .inr ⟨h, opened, ⟨r, found, file.2⟩, by simp⟩
  unfold openEnd Held.Settled
  rw [getPmask_record, holds.record]
  by_cases name : fname.length % 0x100 ≠ 0 ∨ flags &&& fspCreateNew ≠ 0
  · rw [if_pos name, if_pos name]
    by_cases mask : pmaskOf sys c.record ≠ 0
    · by_cases named : fname.length % 0x100 ≠ 0
      · rw [if_pos mask, if_pos named, if_pos (And.intro mask named)]
        cases record : c.record with
        | none => exact absurd (by rw [record]; rfl) mask
        | some r =>
          obtain ⟨context, isOpen⟩ := record_of_mask (record ▸ mask)
          have found : s.handles h = some r := holds.record.trans record
          have text : fname.take (fname.length % 0x100) ≠ [] := by
            rw [ne_eq, List.take_eq_nil_iff]
            rintro (zero | rfl)
            · exact named zero
            · exact named rfl
          simp only
          by_cases create : flags &&& fspCreateNew = 0
          · simp only [if_neg (not_not.2 create), if_pos create]
            by_cases blank : Blank (fname.take (fname.length % 0x100))
            · have lost : openNamed sys h (fname.take (fname.length % 0x100)) 0 s = none := if_pos ⟨real, blank⟩
              rw [lost]
              exact iff_of_false (by simp) fun settled => settled.1 blank
            have run : openNamed sys h (fname.take (fname.length % 0x100)) 0 s =
                some (openStep sys h (fname.take (fname.length % 0x100)) 0 s) := if_neg fun both => blank both.2
            rw [run, and_iff_right blank]
            simp only [Option.map_some, once]
            by_cases dir : sys.Dir r
            · rw [if_pos dir]
              exact opened_iff sound kept real holds record dir text blank
            · have nothing : openStep sys h (fname.take (fname.length % 0x100)) 0 s = (fsResultErr, 0, s) := by
                simp [openStep, found, text, dir]
              rw [if_neg dir, nothing]
              exact created_iff sound kept holds record isOpen context (.inl ⟨rfl, by simp [returned, err]⟩)
          · simp only [if_pos create, if_neg create, Option.map_some, once]
            obtain ⟨q, made⟩ | ⟨node, made⟩ := @cxtFcreate_cases sys _ _ _ found isOpen fname flags
            · rw [made]
              exact created_iff sound kept holds record isOpen context (.inl ⟨rfl, by simp [returned, err]⟩)
            · rw [made]
              exact created_iff sound kept holds record isOpen context (.inr ⟨node, rfl, by simp [returned]⟩)
      · rw [if_pos mask, if_neg named, if_neg fun both => named both.2, once]
        exact left _ rfl (by simp [returned])
    · rw [if_neg mask, if_neg fun both => mask both.1, once]
      exact left _ rfl (by simp [returned, invalid])
  · rw [if_neg name, if_neg name, once]
    simp only [returned, if_true]
    cases holds with
    | foreign same =>
      subst same
      rw [← mountedRecord_eq sound real]
      constructor
      · rintro ⟨isOpen, -⟩
        obtain ⟨r, found, there⟩ := (isOpen _).2 (.inr rfl)
        exact .inr (by simp [found, there])
      · rintro (owned | there)
        · cases owned
        · cases found : s.handles (getMountPoint sys s h) with
          | none => simp [found] at there
          | some r =>
            refine ⟨fun q => ⟨.inl, fun given => given.elim id fun same => ?_⟩, fun q _ => rfl⟩
            obtain rfl := Option.some.inj same
            exact ⟨r, found, by simpa [found] using there⟩
    | owned r count found file plain opened clean openings =>
      refine iff_of_true ?_ (.inl rfl)
      rwa [getMountPoint_eq sound found, kept.mountOf, plain]

/-- What the end of `fopen` does to the handles: at most the held one is closed, and no handle is returned that was opened
before and lost. -/
theorem openEnd_effect (sound : sys.Sound s) (kept : sys.Kept s₀ s) {out : Nat × Option Nat × State}
    (run : openEnd sys fname flags h s = some out) :
    (∀ q, q ≠ h → s.IsOpen q → out.2.2.IsOpen q) ∧ (∀ q, s.closings q ≤ out.2.2.closings q) ∧
      (∀ q, returned out = some q → q = h ∨ s₀.IsOpen q ∨ ¬ s.IsOpen q) ∧ Balanced s out.2.2 := by
  have invalid : (fsResultInvalidPath : Nat) ≠ fsResultOk := by decide
  have err : (fsResultErr : Nat) ≠ fsResultOk := by decide
  have same : ∀ {r : Nat} {held : Option Nat}, (∀ q, returned (r, held, s) = some q → q = h ∨ s₀.IsOpen q) →
      (∀ q, q ≠ h → s.IsOpen q → s.IsOpen q) ∧ (∀ q, s.closings q ≤ s.closings q) ∧
        (∀ q, returned (r, held, s) = some q → q = h ∨ s₀.IsOpen q ∨ ¬ s.IsOpen q) ∧ Balanced s s :=
    fun next => ⟨fun _ _ now => now, fun _ => Nat.le_refl _, fun q given => (next q given).imp id .inl, .refl s⟩
  unfold openEnd at run
  by_cases name : fname.length % 0x100 ≠ 0 ∨ flags &&& fspCreateNew ≠ 0
  · rw [if_pos name] at run
    by_cases mask : getPmask sys s h ≠ 0
    · rw [if_pos mask] at run
      by_cases named : fname.length % 0x100 ≠ 0
      · rw [if_pos named] at run
        -- Closing the handle after a first step.
        have ends : ∀ {r q : Nat} {s₁ : State}, sys.Sound s₁ → (∀ q, q ≠ h → s.IsOpen q → s₁.IsOpen q) →
            (∀ q, s.closings q ≤ s₁.closings q) →
            (∀ p, returned (r, some q, s₁) = some p → p = h ∨ s₀.IsOpen p ∨ ¬ s.IsOpen p) → Balanced s s₁ →
            (∀ q, q ≠ h → s.IsOpen q → (fclose sys s₁ h).2.IsOpen q) ∧
              (∀ q, s.closings q ≤ (fclose sys s₁ h).2.closings q) ∧
              (∀ p, returned (r, some q, (fclose sys s₁ h).2) = some p → p = h ∨ s₀.IsOpen p ∨ ¬ s.IsOpen p) ∧
              Balanced s (fclose sys s₁ h).2 := by
          intro r q s₁ sound₁ stays grows next balanced
          have moved := fclose_moved sound₁ h
          exact ⟨fun q differ now => moved.stays differ (stays q differ now),
            fun q => Nat.le_trans (grows q) (moved.grows q), next, balanced.trans moved.balanced⟩
        obtain ⟨⟨r, hfile, s₁⟩, first, rfl⟩ := Option.map_eq_some_iff.1 run
        by_cases create : flags &&& fspCreateNew ≠ 0
        · rw [if_pos create, Option.some.injEq] at first
          cases found : s.handles h with
          | none => exact absurd (by rw [getPmask_record, found]; rfl) mask
          | some r =>
            rw [getPmask_record, found] at mask
            obtain ⟨context, isOpen⟩ := record_of_mask mask
            obtain ⟨q, made⟩ | ⟨node, made⟩ := @cxtFcreate_cases sys _ _ _ found isOpen fname flags
            · obtain ⟨rfl, rfl, rfl⟩ : fsResultErr = _ ∧ q = _ ∧ s = _ := by simpa using made.symm.trans first
              exact ends sound (fun _ _ now => now) (fun _ => Nat.le_refl _) (by simp [returned, err]) (.refl s)
            · obtain ⟨rfl, rfl, rfl⟩ : fsResultOk = _ ∧ sys.fresh s = _ ∧ openChild sys s r node = _ := by
                simpa using made.symm.trans first
              refine ends (openChild_context sound context node).1 (fun _ _ now => openChild_isOpen.2 (.inl now))
                (fun _ => Nat.le_of_eq openChild_closings.symm) (fun p given => .inr (.inr ?_)) (openChild_balanced s r node)
              obtain rfl := Option.some.inj given
              exact fresh_closed sys s
        · rw [if_neg create] at first
          obtain ⟨-, step⟩ := openNamed_eq_some.1 first
          have moved := @openStep_moved sys s h (fname.take (fname.length % 0x100)) 0
          have given := @openStep_handed sys s₀ s h sound kept (fname.take (fname.length % 0x100)) 0
          obtain ⟨sound₁, -⟩ := openNamed_sound sound first
          rw [step] at moved given
          exact ends sound₁ (fun q => moved.stays) moved.grows (fun p => given) moved.balanced
      · rw [if_neg named] at run
        obtain rfl := Option.some.inj run
        exact same (by simp [returned])
    · rw [if_neg mask] at run
      obtain rfl := Option.some.inj run
      exact same (by simp [returned, invalid])
  · rw [if_neg name] at run
    obtain rfl := Option.some.inj run
    refine same fun q given => ?_
    obtain rfl := Option.some.inj given
    exact getMountPoint_before sound kept h

end End

/-- A run that is balanced is exact in its handles exactly if it is clean. -/
theorem owned_iff {s : State} {out : Nat × Option Nat × State} (balanced : Balanced s out.2.2) :
    Owned s out ↔ Clean s out.2.2 (returned out) := by
  obtain ⟨new, events, counts⟩ := balanced
  have recent : during s out.2.2 = new := by rw [during, events, List.drop_left]
  have closings : ∀ h, out.2.2.closings h = s.closings h + new.count (.closed h) := by
    intro h
    rw [State.closings, State.closings, events, List.count_append]
  constructor
  · rintro ⟨isOpen, unclosed, -⟩
    refine ⟨isOpen, fun h before => ?_⟩
    have zero := List.count_eq_zero.2 (unclosed h before)
    rw [recent] at zero
    rw [closings, zero, Nat.add_zero]
  · rintro ⟨isOpen, unclosed⟩
    refine ⟨isOpen, fun h before => ?_, fun h before => ?_⟩
    · have same := unclosed h before
      rw [closings] at same
      rw [recent]
      exact List.count_eq_zero.1 (by omega)
    · have count := counts h
      simp only [isOpen h, before, if_false, false_or] at count
      rw [recent]
      exact count

/-- `fopen` returns, and is exact in its handles. -/
def Exact (sys : System) (s : State) (path fname : List Char) (flags hcd : Nat) : Prop :=
  ∃ enough, ∀ rounds, enough ≤ rounds → ∃ out, fopen sys rounds path fname flags hcd s = some out ∧ Owned s out

section Fopen
variable {sys : System} {s : State} {path fname : List Char} {flags hcd : Nat}

/-- With rounds enough, what `fopen` comes to decides. -/
theorem exact_iff (sound : sys.Sound s) {r hdir : Nat} {s' : State}
    (run : traced sys path hcd 0 s = some (r, hdir, s')) :
    Exact sys s path fname flags hcd ↔
      if r = fsResultOk then ∃ out, openEnd sys fname flags hdir s' = some out ∧ Clean s out.2.2 (returned out)
      else Clean s s' none := by
  obtain ⟨sound', kept', balanced⟩ := traced_sound sound run
  have out : ∀ rounds, 2 * 0x10000 ≤ rounds → fopen sys rounds path fname flags hcd s =
      if r = fsResultOk then openEnd sys fname flags hdir s' else some (r, none, s') := by
    intro rounds enough
    rw [fopen_eq sound rounds enough, run, Option.bind_some]
  have decided : Exact sys s path fname flags hcd ↔
      ∃ out, (if r = fsResultOk then openEnd sys fname flags hdir s' else some (r, none, s')) = some out ∧ Owned s out := by
    constructor
    · rintro ⟨enough, all⟩
      obtain ⟨result, ran, owned⟩ := all (max enough (2 * 0x10000)) (Nat.le_max_left _ _)
      rw [out _ (Nat.le_max_right _ _)] at ran
      exact ⟨result, ran, owned⟩
    · rintro ⟨result, ran, owned⟩
      exact ⟨2 * 0x10000, fun rounds enough => ⟨result, (out rounds enough).trans ran, owned⟩⟩
  rw [decided]
  by_cases ok : r = fsResultOk
  · simp only [if_pos ok]
    refine exists_congr fun result => and_congr_right fun ran => ?_
    exact owned_iff (balanced.trans (openEnd_effect sound' kept' ran).2.2.2)
  · simp only [if_neg ok, Option.some.injEq, exists_eq_left', @owned_iff s (r, none, s') balanced, returned]

/-- `fopen` that does not return is not exact. -/
theorem exact_none (sound : sys.Sound s) (run : traced sys path hcd 0 s = none) :
    ¬ Exact sys s path fname flags hcd := by
  rintro ⟨enough, all⟩
  obtain ⟨_, ran, -⟩ := all (max enough (2 * 0x10000)) (Nat.le_max_left _ _)
  rw [fopen_eq sound _ (Nat.le_max_right _ _), run] at ran
  cases ran

/-- From a start, `fopen` is exact exactly if the walk and its end spoil nothing. -/
theorem exact_walk (sound : sys.Sound s) (real : startOf sys s path hcd ≠ 0) :
    Exact sys s path fname flags hcd ↔
      match Held.walk sys s path (segments [] (seen path)) ⟨false, s.handles (startOf sys s path hcd), 0⟩ with
      | .held c => c.Settled sys s fname flags
      | .lost => True
      | .spoiled => False := by
  have kept : sys.Kept s s := fun _ _ => ⟨rfl, rfl⟩
  have walks : traced sys path hcd 0 s = walk sys path (segments [] (seen path)) (startOf sys s path hcd) 0 s := if_neg real
  have walked := walk_holds path 0 (segments [] (seen path)) sound kept real (.foreign rfl)
  cases stop : Held.walk sys s path (segments [] (seen path)) ⟨false, s.handles (startOf sys s path hcd), 0⟩ with
  | held c =>
    rw [stop] at walked
    obtain ⟨h, s', run, real', holds⟩ := walked
    obtain ⟨sound', kept', -⟩ := walk_sound path 0 sound run
    rw [exact_iff sound (walks.trans run), if_pos rfl]
    exact openEnd_iff sound' kept' real' holds
  | lost =>
    rw [stop] at walked
    obtain ⟨r, h, s', run, fail, clean⟩ := walked
    rw [exact_iff sound (walks.trans run), if_neg fail]
    exact iff_of_true clean trivial
  | spoiled =>
    rw [stop] at walked
    refine iff_of_false ?_ id
    cases run : walk sys path (segments [] (seen path)) (startOf sys s path hcd) 0 s with
    | none => exact exact_none sound (walks.trans run)
    | some out =>
      have spoiled := walked out run
      obtain ⟨sound', kept', -⟩ := walk_sound path 0 sound run
      obtain ⟨r, h, s'⟩ := out
      rw [exact_iff sound (walks.trans run)]
      by_cases ok : r = fsResultOk
      · rw [if_pos ok]
        have held : Spoiled s s' (some h) := by simpa [handed, ok] using spoiled
        rintro ⟨out, ran, clean⟩
        obtain ⟨stays, grows, next, -⟩ := openEnd_effect sound' kept' ran
        exact (held.move stays grows next).not_clean clean
      · rw [if_neg ok]
        have lost : Spoiled s s' none := by simpa [handed, ok] using spoiled
        exact lost.not_clean

/-- `fopen` is exact in its handles exactly on what is tidy. -/
theorem fopen_exact_iff (sound : sys.Sound s) (path fname : List Char) (flags hcd : Nat) :
    Exact sys s path fname flags hcd ↔ Tidy sys s path fname flags hcd := by
  by_cases null : startOf sys s path hcd = 0
  · have run : traced sys path hcd 0 s = some (fsResultErr, 0, s) := if_pos null
    have err : (fsResultErr : Nat) ≠ fsResultOk := by decide
    rw [exact_iff sound run, if_neg err]
    exact iff_of_true ⟨fun q => by simp, fun q _ => rfl⟩ fun real => absurd null real
  · rw [exact_walk sound null, Tidy]
    exact ⟨fun stop _ => stop, fun tidy => tidy null⟩

end Fopen

/-- A root with the directory `d`, and the file `f` in it. -/
def homeSystem : System where
  mounts := [⟨1, 1⟩]
  frame := 9
  isFsc driver := driver == 1
  pmask _ node := if node ≤ 1 then fspDir else 4
  lookup _ node name := if node = 0 ∧ name = ['d'] then some 1 else if node = 1 ∧ name = ['f'] then some 2 else none
  make _ _ _ _ := none
  lname _ _ := []
  room _ := true
  fresh s := s.bound + 10
  fresh_real := State.beyond_real
  fresh_frame := State.beyond_frame
  fresh_unused := State.beyond_unused

/-- The root is open, and the caller has opened `d`. -/
def homeState : State where
  handles h := if h = 1 then some ⟨htypeFile, 1, 0, true⟩ else if h = 2 then some ⟨htypeFile, 1, 1, true⟩ else none
  bound := 3
  above h far := by
    rw [if_neg (by omega), if_neg (by omega)]
  events := []

theorem homeState_sound : homeSystem.Sound homeState where
  null := rfl
  frame := rfl
  files h r found _ := by
    obtain ⟨-, rfl⟩ | ⟨-, -, rfl⟩ : h = 1 ∧ (⟨htypeFile, 1, 0, true⟩ : Record) = r ∨
        h ≠ 1 ∧ h = 2 ∧ (⟨htypeFile, 1, 1, true⟩ : Record) = r := by
      simp only [homeState] at found
      split at found
      · exact .inl ⟨‹_›, Option.some.inj found⟩
      · split at found
        · exact .inr ⟨‹_›, ‹_›, Option.some.inj found⟩
        · cases found
    · decide
    · decide
  points mp member := by
    obtain rfl : mp = ⟨1, 1⟩ := by simpa [homeSystem] using member
    exact ⟨_, rfl, rfl, rfl⟩
  targets mp member := by
    obtain rfl : mp = ⟨1, 1⟩ := by simpa [homeSystem] using member
    exact ⟨_, rfl, rfl, rfl, by decide⟩

/-- `fopen` closes the directory of the caller. -/
theorem current_directory_closed :
    homeSystem.Sound homeState ∧ homeState.IsOpen 2 ∧ ¬ Exact homeSystem homeState [] ['f'] 0 2 ∧
      ∃ out, fopen homeSystem 0 [] ['f'] 0 2 homeState = some out ∧ out.1 = fsResultOk ∧ ¬ out.2.2.IsOpen 2 := by
  have real : startOf homeSystem homeState [] 2 ≠ 0 := by decide
  refine ⟨homeState_sound, by decide, ?_, _, rfl, by decide, by decide⟩
  rw [exact_walk homeState_sound real]
  intro settled
  have right : ¬ Blank ['f'] ∧ Held.search homeSystem homeState ⟨false, some ⟨htypeFile, 1, 1, true⟩, 0⟩
    ⟨htypeFile, 1, 1, true⟩ ['f'] ≠ .spoiled := settled
  exact right.2 rfl

/-- From the root on, the same file is opened and nothing else is left open. -/
theorem fopen_exact_file :
    homeSystem.Sound homeState ∧ Exact homeSystem homeState ['/', 'd'] ['f'] 0 0 := by
  refine ⟨homeState_sound, (fopen_exact_iff homeState_sound ['/', 'd'] ['f'] 0 0).2 fun _ => ?_⟩
  change ¬ Blank ['f'] ∧ Held.search homeSystem homeState ⟨true, some ⟨htypeFile, 1, 1, true⟩, 1⟩ _ _ ≠ .spoiled
  decide

end PreTeO.Fs.Root
