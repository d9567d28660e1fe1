import Mathlib.Data.List.TakeWhile
import PreTeO.Fs.RootTrace

/-!
# Soft links in a path

What a path means: each component is looked up in the directory that was reached, a soft link stands for its target, and a
mount point for the root of what is mounted there. `resolve n` follows links up to `n` of them inside each other. `trace_path`
comes to what a path means without links, with the names cut and trimmed, and ends at a file that the path goes on behind.
-/

namespace PreTeO.Fs.Root
set_option autoImplicit false
open PreTeO.Sys

/-- A file of a context. -/
structure Place where
  driver : Nat
  node : Nat
deriving DecidableEq, Repr

/-- The place of a handle. -/
def Record.place (r : Record) : Place := ⟨r.driver, r.node⟩

/-- The record of an open file. -/
def Place.record (p : Place) : Record := ⟨htypeFile, p.driver, p.node, true⟩

/-- A handle is open for a file. -/
def At (s : State) (h : Nat) (p : Place) : Prop := s.handles h = some p.record

/-- What a path leads to: a file, nothing, or more links than are followed. -/
inductive Reached where
  | found (p : Place)
  | missing
  | tooDeep
deriving DecidableEq, Repr

/-- How far the components of a path lead without links, each looked up by its short name: to a file, behind a file that is no
directory, to a name of blanks only, or nowhere. -/
inductive Trail where
  | found (p : Place)
  | behind (p : Place)
  | blank
  | nowhere
deriving DecidableEq, Repr

section Meaning
variable (sys : System) (s : State)

def isDir (p : Place) : Prop := sys.pmask p.driver p.node &&& fspDir ≠ 0

instance (p : Place) : Decidable (isDir sys p) := inferInstanceAs (Decidable (_ ≠ _))

def isLink (p : Place) : Prop := sys.pmask p.driver p.node &&& fspSlink ≠ 0

instance (p : Place) : Decidable (isLink sys p) := inferInstanceAs (Decidable (_ ≠ _))

/-- What is mounted on a file, or the file itself. -/
def mountedOn (p : Place) : Place :=
  match (sys.mountOf s p.record).bind s.handles with
  | some r => r.place
  | none => p

/-- The root of the tree; there is none if nothing is mounted. -/
def root : Option Place := (s.handles (getMountPoint sys s 0)).map Record.place

/-- One component of a path, with the meaning `follow` of the links in a directory. -/
def component (follow : Place → List Char → Reached) (p : Place) (seg : List Char) : Reached :=
  if seg = [] then .found (mountedOn sys s p)
  else if isDir sys p then
    match sys.lookup p.driver p.node seg with
    | none => .missing
    | some node =>
      if isLink sys ⟨p.driver, node⟩ then follow p (sys.lname p.driver node)
      else .found (mountedOn sys s ⟨p.driver, node⟩)
  else .missing

/-- The components of a path from a place on. -/
def resolveFrom (follow : Place → List Char → Reached) : Place → List (List Char) → Reached
  | p, [] => .found p
  | p, seg :: rest =>
    match component sys s follow p seg with
    | .found q => if rest = [] ∨ isDir sys q then resolveFrom follow q rest else .missing
    | other => other

/-- The target of a link in a directory, with `n` more links to follow. -/
def target : Nat → Place → List Char → Reached
  | 0, _, _ => .tooDeep
  | n + 1, p, path =>
    if path = [] then .missing
    else if path[0]? = some '/' then
      match root sys s with
      | some top => resolveFrom sys s (target n) top (segments [] path)
      | none => .missing
    else resolveFrom sys s (target n) p (segments [] path)

/-- The meaning of a path that starts at a place, with up to `n` links inside each other. -/
def resolve (n : Nat) (p : Place) (path : List Char) : Reached := resolveFrom sys s (target sys s n) p (segments [] path)

/-- How far the components of a path lead. -/
def trail : Place → List (List Char) → Trail
  | p, [] => .found p
  | p, seg :: rest =>
    if Blank seg then .blank
    else
      match component sys s (fun _ _ => .tooDeep) p (shortName seg) with
      | .found q => if rest = [] then .found q else if isDir sys q then trail q rest else .behind q
      | _ => .nowhere

/-- A path that starts at a place leads to one file, however many links are followed. -/
def MeansOnly (p : Place) (path : List Char) (q : Place) : Prop :=
  (∃ n, resolve sys s n p path = .found q) ∧ ∀ q', resolve sys s (maxItrc - 1) p path = .found q' → q' = q

/-- A path leads to no file through as many links as are followed. -/
def MeansNothing (p : Place) (path : List Char) : Prop := ∀ q, resolve sys s (maxItrc - 1) p path ≠ .found q

/-- The part of a path that the loop sees leads, without links and by short names, to what the path means; where it goes on
behind a file, to that file, and to nothing if the index of the loop wraps there. -/
def Straight (p : Place) (path : List Char) : Prop :=
  match trail sys s p (segments [] (seen path)) with
  | .found q => MeansOnly sys s p path q
  | .behind q =>
    if Wraps path then path[0]? ≠ some '/' ∧ MeansNothing sys s p path else MeansOnly sys s p path q
  | .blank => False
  | .nowhere => MeansNothing sys s p path

end Meaning

/-- `trace_path` returns, it finds the file that the path leads to if no more than seven links are inside each other, and it
finds nothing else. -/
def Finds (sys : System) (s : State) (path : List Char) (hstart hres : Nat) (p : Place) : Prop :=
  ∃ enough, ∀ rounds, enough ≤ rounds → ∃ r h s', tracePath sys rounds maxItrc path hstart hres s = some (r, h, s') ∧
    (∀ q, resolve sys s (maxItrc - 1) p path = .found q → r = fsResultOk ∧ At s' h q) ∧
    (r = fsResultOk → ∃ n q, resolve sys s n p path = .found q ∧ At s' h q)

section Walk
variable {sys : System} {s₀ s : State} {p : Place} {h : Nat}

/-- A directory, by its place. -/
theorem dir_place : sys.Dir p.record ↔ isDir sys p := by
  constructor
  · exact fun dir => dir.2
  · exact fun dir => ⟨⟨rfl, rfl⟩, dir⟩

/-- `get_mount_point` comes to what is mounted on a file. -/
theorem getMountPoint_at (sound : sys.Sound s) (kept : sys.Kept s₀ s) (there : At s h p) :
    At s (getMountPoint sys s h) (mountedOn sys s₀ p) := by
  rw [getMountPoint_eq sound there, kept.mountOf, mountedOn]
  cases mounted : sys.mountOf s₀ p.record with
  | none => exact there
  | some target =>
    obtain ⟨mp, hit, rfl⟩ := Option.map_eq_some_iff.1 mounted
    have member := List.mem_of_find?_eq_some hit
    obtain ⟨b, before, file, isOpen, -⟩ := sound.targets mp member
    rw [Option.getD_some, Option.bind_some, ← (kept mp member).2, before]
    obtain ⟨type, driver, node, state⟩ := b
    obtain rfl : type = htypeFile := file
    obtain rfl : state = true := isOpen
    exact before

theorem shortName_eq_nil {seg : List Char} (named : ¬ Blank seg) : shortName seg = [] ↔ seg = [] := by
  constructor
  · intro short
    by_contra some'
    have cut : seg.take (fsMaxPath - 1) ≠ [] := by simpa [fsMaxPath] using some'
    have mixed : ¬ (seg.take (fsMaxPath - 1)).all isSpace = true := by
      intro all
      refine named ?_
      rw [Blank, fileName, clrspc, trimRight, if_pos ⟨cut, all⟩]
      rfl
    have kept : ((seg.take (fsMaxPath - 1)).reverse.dropWhile isSpace).reverse.dropWhile isSpace = [] := by
      simpa [shortName, fileName, clrspc, trimRight, trimLeft, mixed] using short
    have blanks := List.dropWhile_eq_nil_iff.1 kept
    cases left : (seg.take (fsMaxPath - 1)).reverse.dropWhile isSpace with
    | nil =>
      refine mixed (List.all_eq_true.2 fun c member => ?_)
      exact List.dropWhile_eq_nil_iff.1 left c (List.mem_reverse.2 member)
    | cons c rest =>
      have first := List.head_dropWhile_not isSpace (l := (seg.take (fsMaxPath - 1)).reverse) (by simp [left])
      have head := blanks c (by simp [left])
      simp [left, head] at first
  · rintro rfl
    decide

/-- One component finds what its short name means, if it is no link. -/
theorem openNamed_at (sound : sys.Sound s) (kept : sys.Kept s₀ s) (there : At s h p) (roomy : ∀ k, sys.room k = true)
    {seg : List Char} (named : ¬ Blank seg) (hres : Nat) :
    match component sys s₀ (fun _ _ => .tooDeep) p (shortName seg) with
    | .found q => ∃ h' s', openNamed sys h seg hres s = some (fsResultOk, h', s') ∧ At s' h' q
    | _ => ∃ r h' s', openNamed sys h seg hres s = some (r, h', s') ∧ r ≠ fsResultOk := by
  have err : (fsResultErr : Nat) ≠ fsResultOk := by decide
  have invalid : (fsResultInvalidPath : Nat) ≠ fsResultOk := by decide
  have found : s.handles h = some p.record := there
  have run : openNamed sys h seg hres s = some (openStep sys h seg hres s) := if_neg fun both => named both.2
  rw [run]
  unfold openStep component
  rw [found]
  simp only [shortName_eq_nil named]
  by_cases empty : seg = []
  · simp only [if_pos empty]
    exact ⟨_, _, rfl, getMountPoint_at sound kept there⟩
  · simp only [if_neg empty, dir_place]
    by_cases dir : isDir sys p
    · simp only [if_pos dir]
      have looked : sys.lookup p.record.driver p.record.node (shortName seg) = sys.lookup p.driver p.node (shortName seg) :=
        rfl
      rw [looked]
      cases sys.lookup p.driver p.node (shortName seg) with
      | none => exact ⟨_, _, _, rfl, err⟩
      | some node =>
        simp only [roomy, if_true]
        by_cases link : isLink sys ⟨p.driver, node⟩
        · rw [if_pos link, if_pos (show sys.pmask p.record.driver node &&& fspSlink ≠ 0 from link)]
          exact ⟨_, _, _, rfl, invalid⟩
        · rw [if_neg link, if_neg (show ¬ sys.pmask p.record.driver node &&& fspSlink ≠ 0 from link)]
          refine ⟨_, _, rfl, ?_⟩
          obtain ⟨sound₁, kept₁⟩ := openChild_sound sound found rfl node
          have new₁ : At (openChild sys s p.record node) (sys.fresh s) ⟨p.driver, node⟩ := openChild_new p.record node
          have old₁ := @openChild_old sys _ _ _ found rfl p.record node
          have both : sys.Kept s₀ (openChild sys s p.record node) := fun mp member =>
            ⟨(kept₁ mp member).1.trans (kept mp member).1, (kept₁ mp member).2.trans (kept mp member).2⟩
          have mounted := getMountPoint_at sound₁ both new₁
          -- The directory that is closed is none of the mount table's, and not the file.
          obtain ⟨mp, member, target⟩ | same := getMountPoint_cases sys (openChild sys s p.record node) (sys.fresh s)
          · rw [target] at mounted ⊢
            obtain ⟨-, kept₂⟩ := closeDir_sound sound₁ old₁
            exact (kept₂ mp member).2.trans mounted
          · rw [same] at mounted ⊢
            exact closeDir_other (@fresh_ne sys _ _ _ found rfl).symm mounted
    · simp only [if_neg dir]
      exact ⟨_, _, _, rfl, err⟩

theorem dir_at (sound : sys.Sound s) (there : At s h p) : getPmask sys s h &&& fspDir ≠ 0 ↔ isDir sys p := by
  rw [getPmask_file sound there rfl]
  exact Iff.rfl

/-- The walk along the components of a path leads where `trail` says; behind a file it ends at the file, and where the index
of the loop wraps, with an error or not at all. -/
theorem walk_trail (path : List Char) (roomy : ∀ k, sys.room k = true) (hres : Nat) {segs : List (List Char)}
    (some' : segs ≠ []) (sound : sys.Sound s) (kept : sys.Kept s₀ s) (there : At s h p) :
    match trail sys s₀ p segs with
    | .found q => ∃ h' s', walk sys path segs h hres s = some (fsResultOk, h', s') ∧ At s' h' q
    | .behind q =>
      if Wraps path then
        if path[0]? = some '/' then walk sys path segs h hres s = none
        else ∃ h' s', walk sys path segs h hres s = some (fsResultErr, h', s')
      else ∃ h' s', walk sys path segs h hres s = some (fsResultOk, h', s') ∧ At s' h' q
    | .blank => walk sys path segs h hres s = none
    | .nowhere => ∃ r h' s', walk sys path segs h hres s = some (r, h', s') ∧ r ≠ fsResultOk := by
  induction segs generalizing p h s with
  | nil => exact absurd rfl some'
  | cons seg rest ih =>
    unfold trail
    by_cases blank : Blank seg
    · rw [if_pos blank]
      have lost : ∀ hfile, openNamed sys h seg hfile s = none := fun _ => if_pos ⟨handle_real sound there, blank⟩
      simp [walk, lost]
    rw [if_neg blank]
    by_cases last : rest = []
    · have step := openNamed_at sound kept there roomy blank hres
      have whole : walk sys path (seg :: rest) h hres s = openNamed sys h seg hres s := if_pos last
      rw [whole]
      cases comp : component sys s₀ (fun _ _ => .tooDeep) p (shortName seg) with
      | found q =>
        rw [comp] at step
        simpa only [if_pos last] using step
      | missing => rwa [comp] at step
      | tooDeep => rwa [comp] at step
    · have step := openNamed_at sound kept there roomy blank h
      have fails : (∃ r h' s', openNamed sys h seg h s = some (r, h', s') ∧ r ≠ fsResultOk) →
          ∃ r h' s', walk sys path (seg :: rest) h hres s = some (r, h', s') ∧ r ≠ fsResultOk := by
        rintro ⟨r, h', s', run, fail⟩
        exact ⟨r, hres, s', by simp [walk, last, run, fail], fail⟩
      cases comp : component sys s₀ (fun _ _ => .tooDeep) p (shortName seg) with
      | missing =>
        rw [comp] at step
        exact fails step
      | tooDeep =>
        rw [comp] at step
        exact fails step
      | found q =>
        rw [comp] at step
        obtain ⟨h', s', run, reached⟩ := step
        obtain ⟨-, moved⟩ := openNamed_eq_some.1 run
        obtain ⟨sound', kept'⟩ := openStep_sound sound h seg h
        obtain ⟨real, self⟩ := openStep_handle sound moved
        rw [moved] at sound' kept'
        have both : sys.Kept s₀ s' := fun mp member =>
          ⟨(kept' mp member).1.trans (kept mp member).1, (kept' mp member).2.trans (kept mp member).2⟩
        simp only [walk, if_neg last, run, Option.bind_eq_bind, Option.bind_some, if_true]
        by_cases dir : isDir sys q
        · simp only [if_pos dir, if_pos ((dir_at sound' reached).2 dir)]
          exact ih last sound' both reached
        · have nondir : ¬ getPmask sys s' h' &&& fspDir ≠ 0 := fun mask => dir ((dir_at sound' reached).1 mask)
          simp only [if_neg dir, if_neg nondir]
          by_cases wraps : Wraps path
          · by_cases front : path[0]? = some '/'
            · simp [wraps, front]
            · simp [wraps, front]
          · simp only [if_neg wraps, openNamed_nil, openStep_self real (self (not_not.1 nondir))]
            exact ⟨_, _, rfl, reached⟩

end Walk

/-- A handle is open for one file. -/
theorem At.unique {s : State} {h : Nat} {p q : Place} (one : At s h p) (other : At s h q) : p = q := by
  have same : p.record = q.record := Option.some.inj (one.symm.trans other)
  cases p
  cases q
  simpa [Place.record] using same

section Runs
variable {sys : System} {s : State} {path : List Char} {hstart hres : Nat} {p : Place}

/-- With rounds enough `trace_path` is the walk, and what it finds does not depend on the rounds. -/
theorem tracePath_runs (sound : sys.Sound s) (start : At s (startOf sys s path hstart) p) (rounds : Nat)
    (enough : 2 * 0x10000 ≤ rounds) : tracePath sys rounds maxItrc path hstart hres s =
      walk sys path (segments [] (seen path)) (startOf sys s path hstart) hres s := by
  rw [show maxItrc = 7 + 1 from rfl, tracePath_eq sound rounds 7 hstart hres enough, traced,
    if_neg (handle_real sound start)]

theorem finds_iff (sound : sys.Sound s) (start : At s (startOf sys s path hstart) p) {r h : Nat} {s' : State}
    (run : walk sys path (segments [] (seen path)) (startOf sys s path hstart) hres s = some (r, h, s')) :
    Finds sys s path hstart hres p ↔
      (∀ q, resolve sys s (maxItrc - 1) p path = .found q → r = fsResultOk ∧ At s' h q) ∧
        (r = fsResultOk → ∃ n q, resolve sys s n p path = .found q ∧ At s' h q) := by
  constructor
  · rintro ⟨enough, finds⟩
    obtain ⟨r', h', s'', traced, all⟩ := finds (max enough (2 * 0x10000)) (Nat.le_max_left _ _)
    rw [tracePath_runs sound start _ (Nat.le_max_right _ _), run] at traced
    simp only [Option.some.injEq, Prod.mk.injEq] at traced
    obtain ⟨rfl, rfl, rfl⟩ := traced
    exact all
  · intro all
    refine ⟨2 * 0x10000, fun rounds enough => ⟨r, h, s', ?_, all⟩⟩
    rw [tracePath_runs sound start rounds enough, run]

theorem finds_none (sound : sys.Sound s) (start : At s (startOf sys s path hstart) p)
    (run : walk sys path (segments [] (seen path)) (startOf sys s path hstart) hres s = none) :
    ¬ Finds sys s path hstart hres p := by
  rintro ⟨enough, finds⟩
  obtain ⟨r, h, s', traced, -⟩ := finds (max enough (2 * 0x10000)) (Nat.le_max_left _ _)
  rw [tracePath_runs sound start _ (Nat.le_max_right _ _), run] at traced
  exact absurd traced (by simp)

/-- A file is found that the path means. -/
theorem finds_found (sound : sys.Sound s) (start : At s (startOf sys s path hstart) p) {q : Place}
    (walked : ∃ h s', walk sys path (segments [] (seen path)) (startOf sys s path hstart) hres s = some (fsResultOk, h, s') ∧
      At s' h q) : Finds sys s path hstart hres p ↔ MeansOnly sys s p path q := by
  obtain ⟨h, s', run, reached⟩ := walked
  rw [finds_iff sound start run]
  constructor
  · rintro ⟨all, only⟩
    obtain ⟨n, q', means, there⟩ := only rfl
    obtain rfl := reached.unique there
    exact ⟨⟨n, means⟩, fun q' means' => (all q' means').2.unique reached⟩
  · rintro ⟨⟨n, means⟩, all⟩
    exact ⟨fun q' means' => ⟨rfl, all q' means' ▸ reached⟩, fun _ => ⟨n, q, means, reached⟩⟩

/-- Nothing is found. -/
theorem finds_fails (sound : sys.Sound s) (start : At s (startOf sys s path hstart) p)
    (walked : ∃ r h s', walk sys path (segments [] (seen path)) (startOf sys s path hstart) hres s = some (r, h, s') ∧
      r ≠ fsResultOk) : Finds sys s path hstart hres p ↔ MeansNothing sys s p path := by
  obtain ⟨r, h, s', run, fail⟩ := walked
  rw [finds_iff sound start run]
  simp [fail, MeansNothing]

/-- `trace_path` finds what a path means exactly if the part of the path that its loop sees leads to it without links, by the
names as `open_file` cuts and trims them, comes to no name of blanks only, and does not go on behind another file. -/
theorem tracePath_links_iff (sound : sys.Sound s) (roomy : ∀ k, sys.room k = true) (path : List Char) (hstart hres : Nat)
    (p : Place) (start : At s (startOf sys s path hstart) p) :
    Finds sys s path hstart hres p ↔ Straight sys s p path := by
  have walked := @walk_trail sys s s p _ path roomy hres _ (segments_ne_nil [] (seen path)) sound (fun _ _ => ⟨rfl, rfl⟩)
    start
  unfold Straight
  cases ends : trail sys s p (segments [] (seen path)) with
  | found q =>
    rw [ends] at walked
    exact finds_found sound start walked
  | nowhere =>
    rw [ends] at walked
    exact finds_fails sound start walked
  | blank =>
    rw [ends] at walked
    exact iff_of_false (finds_none sound start walked) id
  | behind q =>
    rw [ends] at walked
    simp only at walked ⊢
    by_cases wraps : Wraps path
    · rw [if_pos wraps] at walked ⊢
      by_cases front : path[0]? = some '/'
      · rw [if_pos front] at walked
        exact iff_of_false (finds_none sound start walked) fun both => both.1 front
      · rw [if_neg front] at walked
        obtain ⟨h, s', run⟩ := walked
        rw [finds_fails sound start ⟨_, h, s', run, by decide⟩]
        exact (and_iff_right front).symm
    · rw [if_neg wraps] at walked ⊢
      exact finds_found sound start walked

end Runs

/-- A directory with the file `f` and the link `l` to it, mounted as the root. -/
def linkSystem : System where
  mounts := [⟨1, 1⟩]
  frame := 9
  isFsc driver := driver == 1
  pmask _ node := if node = 0 then fspDir else if node = 2 then fspSlink else 4
  lookup _ node name := if node ≠ 0 then none else if name = ['f'] then some 1 else if name = ['l'] then some 2 else none
  make _ _ _ _ := none
  lname _ node := if node = 2 then ['f'] else []
  room _ := true
  fresh s := s.bound + 10
  fresh_real := State.beyond_real
  fresh_frame := State.beyond_frame
  fresh_unused := State.beyond_unused

/-- Only the root is open. -/
def linkState : State where
  handles h := if h = 1 then some ⟨htypeFile, 1, 0, true⟩ else none
  bound := 2
  above h far := if_neg (by omega)
  events := []

theorem linkState_sound : linkSystem.Sound linkState where
  null := rfl
  frame := rfl
  files h r found _ := by
    obtain rfl := Option.some.inj (Option.ite_none_right_eq_some.1 found).2
    decide
  points mp member := by
    obtain rfl : mp = ⟨1, 1⟩ := by simpa [linkSystem] using member
    exact ⟨_, rfl, rfl, rfl⟩
  targets mp member := by
    obtain rfl : mp = ⟨1, 1⟩ := by simpa [linkSystem] using member
    exact ⟨_, rfl, rfl, rfl, by decide⟩

/-- The link leads to the file, but `trace_path` does not find it. -/
theorem link_not_followed :
    linkSystem.Sound linkState ∧ At linkState (startOf linkSystem linkState ['/', 'l'] 0) ⟨1, 0⟩ ∧
      resolve linkSystem linkState 1 ⟨1, 0⟩ ['/', 'l'] = .found ⟨1, 1⟩ ∧
      ¬ Finds linkSystem linkState ['/', 'l'] 0 0 ⟨1, 0⟩ := by
  have start : At linkState (startOf linkSystem linkState ['/', 'l'] 0) ⟨1, 0⟩ := rfl
  have sound := linkState_sound
  have walked := @walk_trail linkSystem linkState linkState ⟨1, 0⟩ _ ['/', 'l'] (fun _ => rfl) 0 _
    (segments_ne_nil [] (seen ['/', 'l'])) sound (fun _ _ => ⟨rfl, rfl⟩) start
  have nowhere : trail linkSystem linkState ⟨1, 0⟩ (segments [] (seen ['/', 'l'])) = .nowhere := by decide
  rw [nowhere] at walked
  refine ⟨sound, start, by decide, fun finds => ?_⟩
  exact (finds_fails sound start walked).1 finds ⟨1, 1⟩ (by decide)

/-- The file is found. -/
theorem tracePath_links_file :
    (linkSystem.Sound linkState ∧ (∀ k, linkSystem.room k = true) ∧
        At linkState (startOf linkSystem linkState ['/', 'f'] 0) ⟨1, 0⟩) ∧
      Finds linkSystem linkState ['/', 'f'] 0 0 ⟨1, 0⟩ := by
  refine ⟨⟨linkState_sound, fun _ => rfl, rfl⟩, ?_⟩
  refine (tracePath_links_iff linkState_sound (fun _ => rfl) ['/', 'f'] 0 0 ⟨1, 0⟩ rfl).2 ?_
  have straight : trail linkSystem linkState ⟨1, 0⟩ (segments [] (seen ['/', 'f'])) = .found ⟨1, 1⟩ := by decide
  have means : resolve linkSystem linkState (maxItrc - 1) ⟨1, 0⟩ ['/', 'f'] = .found ⟨1, 1⟩ := by decide
  rw [Straight, straight]
  exact ⟨⟨_, means⟩, fun q means' => Reached.found.inj (means'.symm.trans means)⟩

end PreTeO.Fs.Root
