import PreTeO.Fs.RootHeld

/-!
# Handles that `fopen` leaves open

`fopen` opens a handle for every component of a path. It is exact in its handles if the one that it returns is the only one
that is open when it was not before, every other one that it opened was closed once, and none that was open before was closed.
-/

namespace PreTeO.Fs.Root
set_option autoImplicit false
open PreTeO.Sys

/-- What the contexts did between two states. -/
def during (s s' : State) : List Event := s'.events.drop s.events.length

/-- The handle that `fopen` returns, if it opened a file. -/
def returned (out : Nat × Option Nat × State) : Option Nat := if out.1 = fsResultOk then out.2.1 else none

/-- After a call that began in `s`, the returned handle is added to the open ones, nothing was closed that was open before, and
everything else that was opened was closed as often. -/
structure Owned (s : State) (out : Nat × Option Nat × State) : Prop where
  isOpen : ∀ h, out.2.2.IsOpen h ↔ s.IsOpen h ∨ returned out = some h
  unclosed : ∀ h, s.IsOpen h → Event.closed h ∉ during s out.2.2
  once : ∀ h, ¬ s.IsOpen h → (during s out.2.2).count (.opened h) =
    (during s out.2.2).count (.closed h) + if returned out = some h then 1 else 0

/-- Handles are opened when they are closed, and closed when they are open. -/
def Balanced (s s' : State) : Prop :=
  ∃ new, s'.events = s.events ++ new ∧ ∀ h, new.count (.opened h) + (if s.IsOpen h then 1 else 0) =
    new.count (.closed h) + if s'.IsOpen h then 1 else 0

section Balance
variable {sys : System} {s s' s'' : State} {h node : Nat} {r : Record}

theorem Balanced.refl (s : State) : Balanced s s := ⟨[], by simp, fun _ => by simp⟩

theorem Balanced.trans (first : Balanced s s') (second : Balanced s' s'') : Balanced s s'' := by
  obtain ⟨new, events, counts⟩ := first
  obtain ⟨new', events', counts'⟩ := second
  refine ⟨new ++ new', by rw [events', events, List.append_assoc], fun h => ?_⟩
  have one := counts h
  have two := counts' h
  rw [List.count_append, List.count_append]
  omega

theorem openChild_balanced (s : State) (r : Record) (node : Nat) : Balanced s (openChild sys s r node) := by
  refine ⟨[.opened (sys.fresh s)], rfl, fun q => ?_⟩
  by_cases same : q = sys.fresh s
  · subst same
    simp [openChild_isOpen, fresh_closed]
  · simp [openChild_isOpen, same, Ne.symm same]

theorem closeDir_balanced (found : s.handles h = some r) (isOpen : r.isOpen = true) : Balanced s (closeDir sys s h r) := by
  by_cases guarded : sys.guarded s r = true
  · rw [closeDir, if_pos guarded]
    exact .refl s
  · refine ⟨[.closed h], by rw [closeDir, if_neg guarded]; rfl, fun q => ?_⟩
    have now : s.IsOpen h := ⟨r, found, isOpen⟩
    by_cases same : q = h
    · subst same
      simp [closeDir_isOpen, guarded, now]
    · simp [closeDir_isOpen, same, Ne.symm same]

/-- What opens and closes the handles along a path: nothing, the held directory is closed, or a file is opened in it too. -/
inductive Moved (sys : System) (s : State) (h : Nat) : State → Prop where
  | none : Moved sys s h s
  | closed (r : Record) (found : s.handles h = some r) (isOpen : r.isOpen = true) : Moved sys s h (closeDir sys s h r)
  | child (r : Record) (node : Nat) (found : s.handles h = some r) (isOpen : r.isOpen = true) :
      Moved sys s h (closeDir sys (openChild sys s r node) h r)

theorem Moved.balanced (moved : Moved sys s h s') : Balanced s s' := by
  cases moved with
  | none => exact .refl s
  | closed r found isOpen => exact closeDir_balanced found isOpen
  | child r node found isOpen =>
    exact (openChild_balanced s r node).trans (closeDir_balanced (openChild_old found isOpen r node) isOpen)

theorem Moved.stays (moved : Moved sys s h s') {q : Nat} (differ : q ≠ h) (now : s.IsOpen q) : s'.IsOpen q := by
  cases moved with
  | none => exact now
  | closed r found isOpen => exact closeDir_isOpen.2 ⟨now, fun same => absurd same differ⟩
  | child r node found isOpen =>
    exact closeDir_isOpen.2 ⟨openChild_isOpen.2 (.inl now), fun same => absurd same differ⟩

theorem Moved.grows (moved : Moved sys s h s') (q : Nat) : s.closings q ≤ s'.closings q := by
  cases moved with
  | none => exact Nat.le_refl _
  | closed r found isOpen =>
    rw [closeDir_closings]
    exact Nat.le_add_right _ _
  | child r node found isOpen =>
    rw [closeDir_closings, openChild_closings]
    exact Nat.le_add_right _ _

theorem openStep_moved (hdir : Nat) (fn : List Char) (hfile : Nat) :
    Moved sys s hdir (openStep sys hdir fn hfile s).2.2 := by
  unfold openStep
  cases found : s.handles hdir with
  | none =>
    simp only
    split <;> exact .none
  | some r =>
    simp only
    by_cases empty : fn = []
    · rw [if_pos empty]
      exact .none
    rw [if_neg empty]
    by_cases dir : sys.Dir r
    · rw [if_pos dir]
      cases sys.lookup r.driver r.node (shortName fn) with
      | none => exact .closed r found dir.1.2
      | some node =>
        simp only
        by_cases roomy : sys.room s.openings = true
        · rw [if_pos roomy]
          split <;> exact .child r node found dir.1.2
        · rw [if_neg roomy]
          exact .closed r found dir.1.2
    · rw [if_neg dir]
      exact .none

end Balance

section Walk
variable {sys : System} {s₀ s s' : State} {h hdir : Nat} {c : Held} {path : List Char}

/-- The handle that `get_mount_point` gives was there before, or is the same. -/
theorem getMountPoint_before (sound : sys.Sound s) (kept : sys.Kept s₀ s) (h : Nat) :
    getMountPoint sys s h = h ∨ s₀.IsOpen (getMountPoint sys s h) := by
  obtain ⟨mp, member, target⟩ | same := getMountPoint_cases sys s h
  · rw [target]
    exact .inr (target_open sound kept member)
  · exact .inl same

/-- A component gives out the handle it has, one that was open before, or one that was not open. -/
theorem openStep_handed (sound : sys.Sound s) (kept : sys.Kept s₀ s) (fn : List Char) (hfile : Nat) {q : Nat}
    (given : handed (openStep sys h fn hfile s) = some q) : q = h ∨ s₀.IsOpen q ∨ ¬ s.IsOpen q := by
  have mounted : ∀ {p}, p = h → getMountPoint sys s p = q → q = h ∨ s₀.IsOpen q ∨ ¬ s.IsOpen q := by
    rintro p rfl rfl
    obtain same | before := getMountPoint_before sound kept p
    · exact .inl same
    · exact .inr (.inl before)
  have err : (fsResultErr : Nat) ≠ fsResultOk := by decide
  have invalid : (fsResultInvalidPath : Nat) ≠ fsResultOk := by decide
  unfold handed openStep at given
  cases found : s.handles h with
  | none =>
    simp only [found] at given
    by_cases empty : h ≠ 0 ∧ fn = []
    · simp only [if_pos empty, if_true, Option.some.injEq] at given
      exact mounted rfl given
    · simp [if_neg empty, err] at given
  | some r =>
    simp only [found] at given
    by_cases empty : fn = []
    · simp only [if_pos empty, if_true, Option.some.injEq] at given
      exact mounted rfl given
    rw [if_neg empty] at given
    by_cases dir : sys.Dir r
    · rw [if_pos dir] at given
      cases looked : sys.lookup r.driver r.node (shortName fn) with
      | none => simp [looked, err] at given
      | some node =>
        simp only [looked] at given
        by_cases roomy : sys.room s.openings = true
        · rw [if_pos roomy] at given
          by_cases link : sys.pmask r.driver node &&& fspSlink ≠ 0
          · simp [if_pos link, invalid] at given
          · simp only [if_neg link, if_true, Option.some.injEq] at given
            subst given
            obtain ⟨sound₁, kept₁⟩ := openChild_sound sound found dir.1.1 node
            have both : sys.Kept s₀ (openChild sys s r node) := fun mp member =>
              ⟨(kept₁ mp member).1.trans (kept mp member).1, (kept₁ mp member).2.trans (kept mp member).2⟩
            obtain same | before := getMountPoint_before sound₁ both (sys.fresh s)
            · rw [same]
              exact .inr (.inr (fresh_closed sys s))
            · exact .inr (.inl before)
        · simp [if_neg roomy, err] at given
    · simp [if_neg dir, err] at given

/-- What is spoiled stays spoiled in a component. -/
theorem openStep_spoiled (sound : sys.Sound s) (kept : sys.Kept s₀ s) (spoiled : Spoiled s₀ s (some h)) (fn : List Char)
    (hfile : Nat) : Spoiled s₀ (openStep sys h fn hfile s).2.2 (handed (openStep sys h fn hfile s)) :=
  spoiled.move (fun _ differ now => (openStep_moved h fn hfile).stays differ now) (openStep_moved h fn hfile).grows
    fun _ given => openStep_handed sound kept fn hfile given

/-- What a component that returns does. -/
theorem openNamed_sound {fn : List Char} {hfile : Nat} {out : Nat × Nat × State} (sound : sys.Sound s)
    (run : openNamed sys h fn hfile s = some out) : sys.Sound out.2.2 ∧ sys.Kept s out.2.2 ∧ Balanced s out.2.2 := by
  obtain ⟨-, rfl⟩ := openNamed_eq_some.1 run
  obtain ⟨sound', kept'⟩ := openStep_sound sound h fn hfile
  exact ⟨sound', kept', (openStep_moved h fn hfile).balanced⟩

theorem openNamed_spoiled {fn : List Char} {hfile : Nat} {out : Nat × Nat × State} (sound : sys.Sound s)
    (kept : sys.Kept s₀ s) (spoiled : Spoiled s₀ s (some h)) (run : openNamed sys h fn hfile s = some out) :
    Spoiled s₀ out.2.2 (handed out) := by
  obtain ⟨-, rfl⟩ := openNamed_eq_some.1 run
  exact openStep_spoiled sound kept spoiled fn hfile

/-- A walk keeps the mount table, and opens and closes by turns. -/
theorem walk_sound (path : List Char) (hres : Nat) {segs : List (List Char)} {out : Nat × Nat × State}
    (sound : sys.Sound s) (run : walk sys path segs h hres s = some out) :
    sys.Sound out.2.2 ∧ sys.Kept s out.2.2 ∧ Balanced s out.2.2 := by
  induction segs generalizing h s with
  | nil => exact openNamed_sound sound run
  | cons seg rest ih =>
    unfold walk at run
    by_cases last : rest = []
    · rw [if_pos last] at run
      exact openNamed_sound sound run
    rw [if_neg last] at run
    obtain ⟨⟨r, hcd, s'⟩, component, run⟩ := Option.bind_eq_some_iff.1 run
    obtain ⟨sound', kept', balanced⟩ := openNamed_sound sound component
    simp only at run sound' kept' balanced
    by_cases ok : r = fsResultOk
    · rw [if_pos ok] at run
      by_cases dir : getPmask sys s' hcd &&& fspDir ≠ 0
      · rw [if_pos dir] at run
        obtain ⟨sound'', kept'', balanced'⟩ := ih sound' run
        exact ⟨sound'', fun mp member => ⟨(kept'' mp member).1.trans (kept' mp member).1,
          (kept'' mp member).2.trans (kept' mp member).2⟩, balanced.trans balanced'⟩
      rw [if_neg dir] at run
      by_cases wraps : Wraps path
      · rw [if_pos wraps] at run
        by_cases slash : path[0]? = some '/'
        · rw [if_pos slash] at run
          cases run
        · rw [if_neg slash] at run
          obtain rfl := Option.some.inj run
          exact ⟨sound', kept', balanced⟩
      · rw [if_neg wraps] at run
        obtain ⟨sound'', kept'', balanced'⟩ := openNamed_sound sound' run
        exact ⟨sound'', fun mp member => ⟨(kept'' mp member).1.trans (kept' mp member).1,
          (kept'' mp member).2.trans (kept' mp member).2⟩, balanced.trans balanced'⟩
    · rw [if_neg ok] at run
      obtain rfl := Option.some.inj run
      exact ⟨sound', kept', balanced⟩

/-- A component that spoils spoils the walk, if the rest of the walk keeps it so. -/
theorem walk_cons_spoiled (path : List Char) (hres : Nat) {seg : List Char} {rest : List (List Char)}
    {out : Nat × Nat × State} (sound : sys.Sound s) (kept : sys.Kept s₀ s) (last : rest ≠ [])
    (spoils : ∀ out, openNamed sys h seg h s = some out → Spoiled s₀ out.2.2 (handed out))
    (on : ∀ {h s}, sys.Sound s → sys.Kept s₀ s → Spoiled s₀ s (some h) → walk sys path rest h hres s = some out →
      Spoiled s₀ out.2.2 (handed out))
    (run : walk sys path (seg :: rest) h hres s = some out) : Spoiled s₀ out.2.2 (handed out) := by
  unfold walk at run
  rw [if_neg last] at run
  obtain ⟨⟨r, hcd, s'⟩, component, run⟩ := Option.bind_eq_some_iff.1 run
  obtain ⟨sound', kept', -⟩ := openNamed_sound sound component
  have spoiled := spoils _ component
  simp only at run spoiled sound' kept'
  have both : sys.Kept s₀ s' := fun mp member =>
    ⟨(kept' mp member).1.trans (kept mp member).1, (kept' mp member).2.trans (kept mp member).2⟩
  by_cases ok : r = fsResultOk
  · rw [if_pos ok] at run
    have held : Spoiled s₀ s' (some hcd) := by simpa [handed, ok] using spoiled
    by_cases dir : getPmask sys s' hcd &&& fspDir ≠ 0
    · rw [if_pos dir] at run
      exact on sound' both held run
    rw [if_neg dir] at run
    by_cases wraps : Wraps path
    · rw [if_pos wraps] at run
      by_cases slash : path[0]? = some '/'
      · rw [if_pos slash] at run
        cases run
      · rw [if_neg slash] at run
        obtain rfl := Option.some.inj run
        have err : (fsResultErr : Nat) ≠ fsResultOk := by decide
        exact held.move (fun _ _ now => now) (fun _ => Nat.le_refl _) fun q given => by simp [handed, err] at given
    · rw [if_neg wraps] at run
      exact openNamed_spoiled sound' both held run
  · rw [if_neg ok] at run
    obtain rfl := Option.some.inj run
    simpa [handed, ok] using spoiled

/-- What is spoiled stays spoiled along a path. -/
theorem walk_spoiled (path : List Char) (hres : Nat) {segs : List (List Char)} {out : Nat × Nat × State}
    (sound : sys.Sound s) (kept : sys.Kept s₀ s) (spoiled : Spoiled s₀ s (some h))
    (run : walk sys path segs h hres s = some out) : Spoiled s₀ out.2.2 (handed out) := by
  induction segs generalizing h s with
  | nil => exact openNamed_spoiled sound kept spoiled run
  | cons seg rest ih =>
    by_cases last : rest = []
    · unfold walk at run
      rw [if_pos last] at run
      exact openNamed_spoiled sound kept spoiled run
    · exact walk_cons_spoiled path hres sound kept last (fun _ => openNamed_spoiled sound kept spoiled) ih run

/-- A path does to the handles what `Held.walk` says. -/
theorem walk_holds (path : List Char) (hres : Nat) (segs : List (List Char)) (sound : sys.Sound s) (kept : sys.Kept s₀ s)
    (real : h ≠ 0) (holds : Holds sys s₀ s h c) :
    match c.walk sys s₀ path segs with
    | .held c' => ∃ h' s', walk sys path segs h hres s = some (fsResultOk, h', s') ∧ h' ≠ 0 ∧ Holds sys s₀ s' h' c'
    | .lost => ∃ r h' s', walk sys path segs h hres s = some (r, h', s') ∧ r ≠ fsResultOk ∧ Clean s₀ s' none
    | .spoiled => ∀ out, walk sys path segs h hres s = some out → Spoiled s₀ out.2.2 (handed out) := by
  induction segs generalizing h s c with
  | nil => exact openNamed_holds sound kept real holds [] hres
  | cons seg rest ih =>
    unfold Held.walk
    by_cases last : rest = []
    · have step := openNamed_holds sound kept real holds seg hres
      have whole : walk sys path (seg :: rest) h hres s = openNamed sys h seg hres s := if_pos last
      rw [whole]
      cases comp : c.step sys s₀ seg with
      | held c' =>
        rw [comp] at step
        simpa only [if_pos last] using step
      | lost => rwa [comp] at step
      | spoiled => rwa [comp] at step
    · have step := openNamed_holds sound kept real holds seg h
      cases comp : c.step sys s₀ seg with
      | held c' =>
        rw [comp] at step
        obtain ⟨h', s', step, real', holds'⟩ := step
        obtain ⟨sound', kept', -⟩ := openNamed_sound sound step
        have both : sys.Kept s₀ s' := fun mp member =>
          ⟨(kept' mp member).1.trans (kept mp member).1, (kept' mp member).2.trans (kept mp member).2⟩
        simp only [walk, if_neg last, step, Option.bind_eq_bind, Option.bind_some, if_true, getPmask_record, holds'.record]
        by_cases dir : pmaskOf sys c'.record &&& fspDir ≠ 0
        · simp only [if_pos dir]
          exact ih sound' both real' holds'
        simp only [if_neg dir]
        by_cases wraps : Wraps path
        · simp only [if_pos wraps]
          by_cases slash : path[0]? = some '/'
          · simp [slash]
          · simp only [slash, false_or]
            have err : (fsResultErr : Nat) ≠ fsResultOk := by decide
            cases holds' with
            | foreign same => exact ⟨_, _, _, rfl, err, fun q => by simp [same], fun q _ => by rw [same]⟩
            | owned r count found file plain opened clean openings =>
              simp only [if_true]
              rintro out run
              obtain rfl := Option.some.inj run
              exact .inr ⟨h', opened, ⟨r, found, file.2⟩, by simp [handed, err]⟩
        · simp only [if_neg wraps]
          exact openNamed_holds sound' both real' holds' [] hres
      | lost =>
        rw [comp] at step
        obtain ⟨r, h', s', step, fail, clean⟩ := step
        exact ⟨r, hres, s', by simp [walk, last, step, fail], fail, clean⟩
      | spoiled =>
        rw [comp] at step
        exact fun out => walk_cons_spoiled path hres sound kept last step (walk_spoiled path hres)

end Walk

end PreTeO.Fs.Root
