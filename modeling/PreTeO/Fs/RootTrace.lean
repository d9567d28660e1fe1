import PreTeO.Fs.RootWalk

/-!
# The loop of `trace_path`

The loop has a 16-bit index. A path is cut to its length modulo 2^16, and the walk along its components ends at the first
one that is no directory; but at the length 2^16 - 1 the index that should end the loop there is 0 again.
-/

namespace PreTeO.Fs.Root
set_option autoImplicit false
open PreTeO.Sys

/-- The components of a path, after the characters `comp` of the first one: a path that ends with a slash ends with an empty
component. -/
def segments : List Char → List Char → List (List Char)
  | comp, [] => [comp]
  | comp, c :: rest => if c = '/' then comp :: segments [] rest else segments (comp ++ [c]) rest

theorem segments_ne_nil (comp rest : List Char) : segments comp rest ≠ [] := by
  induction rest generalizing comp with
  | nil => exact List.cons_ne_nil _ _
  | cons c rest ih =>
    unfold segments
    split
    · exact List.cons_ne_nil _ _
    · exact ih _

/-- The part of a path that the loop sees. -/
def seen (path : List Char) : List Char := path.take (path.length % 0x10000)

theorem seen_length (path : List Char) : (seen path).length = path.length % 0x10000 := by
  rw [seen, List.length_take]
  exact Nat.min_eq_left (Nat.mod_le _ _)

/-- The index of the loop is 0 after the length of the path. -/
def Wraps (path : List Char) : Prop := path.length % 0x10000 = 0x10000 - 1

instance (path : List Char) : Decidable (Wraps path) := inferInstanceAs (Decidable (_ = _))

/-- The walk along the components of `path`. A component that is no directory ends it; if the index wraps there, the loop
starts again, and comes to no end on a path that begins with a slash. A blank component ends nowhere. -/
def walk (sys : System) (path : List Char) : List (List Char) → Nat → Nat → State → Option (Nat × Nat × State)
  | [], hcd, hres, s => openNamed sys hcd [] hres s
  | seg :: rest, hcd, hres, s =>
    if rest = [] then openNamed sys hcd seg hres s
    else do
      let (r, hcd, s) ← openNamed sys hcd seg hcd s
      if r = fsResultOk then
        if getPmask sys s hcd &&& fspDir ≠ 0 then walk sys path rest hcd hres s
        else if Wraps path then if path[0]? = some '/' then none else some (fsResultErr, hres, s)
        else openNamed sys hcd [] hres s
      else some (r, hres, s)

/-- The end of `trace_path` after its loop. -/
def finish (sys : System) (path : List Char) (hres : Nat) : Traced → Option (Nat × Nat × State)
  | .failed r s => some (r, hres, s)
  | .ended i j hcd s => openNamed sys hcd ((path.drop j).take (i - j)) hres s

section Loop
variable {sys : System} {open_ : Nat → List Char → Nat → State → Option (Nat × Nat × State)} {path : List Char}

/-- The characters that the loop reads. -/
theorem seen_get {i : Nat} (bound : i < path.length % 0x10000) : (seen path)[i]? = path[i]? := by
  rw [seen, List.getElem?_take_of_lt bound]

theorem seen_drop {i : Nat} (bound : i < path.length % 0x10000) :
    ∃ c, path[i]? = some c ∧ (seen path).drop i = c :: (seen path).drop (i + 1) := by
  have inside : i < (seen path).length := by rwa [seen_length]
  refine ⟨(seen path)[i], ?_, List.drop_eq_getElem_cons inside⟩
  rw [← seen_get bound, List.getElem?_eq_getElem inside]

/-- A component that is read grows by the next character. -/
theorem take_succ {i j : Nat} {c : Char} (order : j ≤ i) (read : path[i]? = some c) :
    (path.drop j).take (i + 1 - j) = (path.drop j).take (i - j) ++ [c] := by
  have there : (path.drop j)[i - j]? = some c := by
    rw [List.getElem?_drop, Nat.add_sub_cancel' order, read]
  rw [Nat.sub_add_comm order, List.take_add_one, there]
  rfl

/-- The first component ends at the first slash. -/
theorem take_eq_takeWhile {i : Nat} (slash : path[i]? = some '/') (before : ∀ k < i, path[k]? ≠ some '/') :
    path.take i = path.takeWhile (· ≠ '/') := by
  induction path generalizing i with
  | nil => simp at slash
  | cons c path ih =>
    cases i with
    | zero =>
      obtain rfl : c = '/' := by simpa using slash
      simp
    | succ i =>
      have other : c ≠ '/' := fun same => before 0 (Nat.succ_pos i) (by simp [same])
      have rest := ih (i := i) (by simpa using slash) fun k below => by simpa using before (k + 1) (by omega)
      simp [other, rest]

theorem traceLoop_end {len rounds i j hcd : Nat} {s : State} (past : ¬ i < len) :
    traceLoop sys open_ path len rounds i j hcd s = some (.ended i j hcd s) := by
  cases rounds <;> simp [traceLoop, past]

/-- A handle that is no directory: nothing is found in it. -/
theorem openStep_nondir {hcd hres : Nat} {fn : List Char} {s : State} (sound : sys.Sound s) (some' : fn ≠ [])
    (nondir : getPmask sys s hcd &&& fspDir = 0) : openStep sys hcd fn hres s = (fsResultErr, hres, s) := by
  unfold openStep
  cases found : s.handles hcd with
  | none => simp [some']
  | some r =>
    have nodir : ¬ sys.Dir r := by
      rw [← dir_iff sound found]
      exact fun dir => dir.2.1 nondir
    simp [some', nodir]

/-- Nothing is found without a handle. -/
theorem openStep_real {hcd hres h : Nat} {fn : List Char} {s s' : State} (sound : sys.Sound s)
    (run : openStep sys hcd fn hres s = (fsResultOk, h, s')) : hcd ≠ 0 := by
  rintro rfl
  have err : (fsResultErr : Nat) ≠ fsResultOk := by decide
  simp only [openStep, sound.null, ne_eq, not_true_eq_false, false_and, if_false, Prod.mk.injEq] at run
  exact err run.1

/-- A handle that leads to itself. -/
theorem openStep_self {hcd hres : Nat} {s : State} (real : hcd ≠ 0) (self : getMountPoint sys s hcd = hcd) :
    openStep sys hcd [] hres s = (fsResultOk, hcd, s) := by
  unfold openStep
  cases s.handles hcd <;> simp [real, self]

section Restart
variable {hcd : Nat} {s : State} (sound : sys.Sound s)
  (opens : ∀ hcd fn hres s, sys.Sound s → open_ hcd fn hres s = openNamed sys hcd fn hres s)
  (real : hcd ≠ 0) (nondir : getPmask sys s hcd &&& fspDir = 0) (self : getMountPoint sys s hcd = hcd)
include sound opens nondir

/-- The loop that starts again on a path with a slash in front never ends. -/
theorem traceLoop_slash (wraps : Wraps path) (slash : path[0]? = some '/') (real : hcd ≠ 0)
    (self : getMountPoint sys s hcd = hcd) (rounds : Nat) :
    traceLoop sys open_ path (path.length % 0x10000) rounds 0 0 hcd s = none := by
  have inside : 0 < path.length % 0x10000 := by
    rw [wraps]
    decide
  have wrapped : (path.length % 0x10000 + 1) % 0x10000 = 0 := by
    rw [wraps]
  induction rounds with
  | zero => simp [traceLoop, inside]
  | succ rounds ih =>
    have step : open_ hcd ((path.drop 0).take (0 - 0)) hcd s = some (fsResultOk, hcd, s) := by
      rw [opens _ _ _ _ sound, Nat.sub_zero, List.take_zero, openNamed_nil, openStep_self real self]
    simp only [traceLoop, if_pos inside, if_pos slash, step, Option.bind_eq_bind, Option.bind_some, if_true, if_pos nondir,
      wrapped, ih]

/-- The loop that starts again on another path fails at its first slash. -/
theorem traceLoop_again {k : Nat} (noslash : path[0]? ≠ some '/') (slash : path[k]? = some '/')
    (bound : k < path.length % 0x10000) (named : ¬ Blank (path.takeWhile (· ≠ '/'))) (rounds i : Nat) (before : i ≤ k)
    (clear : ∀ m < i, path[m]? ≠ some '/') :
    (∀ t, traceLoop sys open_ path (path.length % 0x10000) rounds i 0 hcd s = some t → t = .failed fsResultErr s) ∧
      (k < rounds + i → ∃ t, traceLoop sys open_ path (path.length % 0x10000) rounds i 0 hcd s = some t) := by
  have inside : i < path.length % 0x10000 := by omega
  induction rounds generalizing i with
  | zero => exact ⟨fun t run => absurd run (by simp [traceLoop, inside]), fun enough => absurd enough (by omega)⟩
  | succ rounds ih =>
    by_cases here : path[i]? = some '/'
    · have later : i ≠ 0 := by
        rintro rfl
        exact noslash here
      have comp : (path.drop 0).take (i - 0) ≠ [] := by
        rw [List.drop_zero, Nat.sub_zero, ne_eq, List.take_eq_nil_iff]
        rintro (zero | rfl)
        · exact later zero
        · exact absurd here (by simp)
      have kept : ¬ (hcd ≠ 0 ∧ Blank ((path.drop 0).take (i - 0))) := by
        rw [List.drop_zero, Nat.sub_zero, take_eq_takeWhile here clear]
        exact fun blank => named blank.2
      have step : open_ hcd ((path.drop 0).take (i - 0)) hcd s = some (fsResultErr, hcd, s) := by
        rw [opens _ _ _ _ sound, openNamed, if_neg kept, openStep_nondir sound comp nondir]
      have err : (fsResultErr : Nat) ≠ fsResultOk := by decide
      simp only [traceLoop, if_pos inside, if_pos here, step, Option.bind_eq_bind, Option.bind_some, if_neg err]
      exact ⟨fun t run => (Option.some.inj run).symm, fun _ => ⟨_, rfl⟩⟩
    · have next : i ≠ k := by
        rintro rfl
        exact here slash
      have small : (i + 1) % 0x10000 = i + 1 := by omega
      simp only [traceLoop, if_pos inside, if_neg here, small]
      have clear' : ∀ m < i + 1, path[m]? ≠ some '/' := by
        intro m below
        obtain earlier | rfl := Nat.lt_succ_iff_lt_or_eq.1 below
        · exact clear m earlier
        · exact here
      obtain ⟨fails, ends⟩ := ih (i + 1) (by omega) clear' (by omega)
      exact ⟨fails, fun enough => ends (by omega)⟩

end Restart

/-- The loop from index `i` on walks along the rest of the path, and rounds for twice the path are enough. -/
theorem traceLoop_walk (opens : ∀ hcd fn hres s, sys.Sound s → open_ hcd fn hres s = openNamed sys hcd fn hres s)
    (hres rounds : Nat) {i j hcd : Nat} {s : State} (sound : sys.Sound s) (order : j ≤ i)
    (bound : i ≤ path.length % 0x10000) (clear : j = 0 → ∀ m < i, path[m]? ≠ some '/')
    (named : j ≠ 0 → ¬ Blank (path.takeWhile (· ≠ '/'))) :
    (∀ t, traceLoop sys open_ path (path.length % 0x10000) rounds i j hcd s = some t →
        walk sys path (segments ((path.drop j).take (i - j)) ((seen path).drop i)) hcd hres s = finish sys path hres t) ∧
      (2 * (path.length % 0x10000) + 2 ≤ rounds + i →
        walk sys path (segments ((path.drop j).take (i - j)) ((seen path).drop i)) hcd hres s = none ∨
          ∃ t, traceLoop sys open_ path (path.length % 0x10000) rounds i j hcd s = some t) := by
  have ended : ∀ {i j hcd : Nat} {s : State}, ¬ i < path.length % 0x10000 → i ≤ path.length % 0x10000 →
      walk sys path (segments ((path.drop j).take (i - j)) ((seen path).drop i)) hcd hres s =
        finish sys path hres (.ended i j hcd s) := by
    intro i j hcd s past bound
    have nothing : (seen path).drop i = [] := List.drop_eq_nil_of_le (by rw [seen_length]; omega)
    rw [nothing]
    simp [segments, walk, finish]
  induction rounds generalizing i j hcd s with
  | zero =>
    by_cases inside : i < path.length % 0x10000
    · exact ⟨fun t run => absurd run (by simp [traceLoop, inside]), fun enough => absurd enough (by omega)⟩
    · rw [traceLoop_end inside]
      exact ⟨fun t run => Option.some.inj run ▸ ended inside bound, fun _ => .inr ⟨_, rfl⟩⟩
  | succ rounds ih =>
    by_cases inside : i < path.length % 0x10000
    · obtain ⟨c, read, dropped⟩ := seen_drop inside
      have small : (i + 1) % 0x10000 = i + 1 := by omega
      rw [dropped, segments]
      by_cases slash : c = '/'
      · rw [if_pos slash]
        subst slash
        obtain ⟨next, kept⟩ := openStep_sound sound hcd ((path.drop j).take (i - j)) hcd
        simp only [traceLoop, if_pos inside, if_pos read, opens _ _ _ _ sound, walk, if_neg (segments_ne_nil _ _)]
        cases component : openNamed sys hcd ((path.drop j).take (i - j)) hcd s with
        | none => exact ⟨fun t run => absurd run (by simp), fun _ => .inl rfl⟩
        | some out =>
        obtain ⟨kept, step⟩ := openNamed_eq_some.1 component
        obtain ⟨r, hcd', s'⟩ := out
        rw [step] at next
        simp only [Option.bind_eq_bind, Option.bind_some]
        by_cases ok : r = fsResultOk
        · subst ok
          obtain ⟨real, self⟩ := openStep_handle sound step
          -- The first component is not blank, as the loop got past it.
          have first : ¬ Blank (path.takeWhile (· ≠ '/')) := by
            by_cases begin : j = 0
            · rw [← take_eq_takeWhile read (clear begin)]
              subst begin
              exact fun blank => kept ⟨openStep_real sound step, blank⟩
            · exact named begin
          simp only [if_true]
          by_cases nondir : getPmask sys s' hcd' &&& fspDir = 0
          · simp only [if_pos nondir, if_neg (not_not.2 nondir)]
            by_cases wraps : Wraps path
            · have wrapped : (path.length % 0x10000 + 1) % 0x10000 = 0 := by rw [wraps]
              rw [if_pos wraps, wrapped]
              by_cases front : path[0]? = some '/'
              · rw [if_pos front, traceLoop_slash next opens nondir wraps front real (self nondir)]
                exact ⟨fun t run => absurd run (by simp), fun _ => .inl rfl⟩
              · obtain ⟨fails, ends⟩ := traceLoop_again next opens nondir front read inside first rounds 0 (Nat.zero_le _)
                  (fun _ below => absurd below (Nat.not_lt_zero _))
                rw [if_neg front]
                exact ⟨fun t run => fails t run ▸ rfl, fun enough => .inr (ends (by omega))⟩
            · have last : (path.length % 0x10000 + 1) % 0x10000 = path.length % 0x10000 + 1 := by
                have : path.length % 0x10000 ≠ 0x10000 - 1 := wraps
                omega
              rw [if_neg wraps, last, traceLoop_end (by omega)]
              refine ⟨fun t run => ?_, fun _ => .inr ⟨_, rfl⟩⟩
              obtain rfl := Option.some.inj run
              rw [finish, Nat.sub_self, List.take_zero]
          · simp only [if_neg nondir, if_pos nondir, small]
            have more := @ih (i + 1) (i + 1) hcd' s' next (Nat.le_refl (i + 1)) inside
              (fun zero => absurd zero (Nat.succ_ne_zero i)) fun _ => first
            rw [Nat.sub_self, List.take_zero] at more
            exact ⟨more.1, fun enough => more.2 (by omega)⟩
        · simp only [if_neg ok]
          exact ⟨fun t run => Option.some.inj run ▸ rfl, fun _ => .inr ⟨_, rfl⟩⟩
      · have other : path[i]? ≠ some '/' := by
          rw [read]
          exact fun same => slash (Option.some.inj same)
        rw [if_neg slash, ← take_succ order read]
        simp only [traceLoop, if_pos inside, if_neg other, small]
        have clear' : j = 0 → ∀ m < i + 1, path[m]? ≠ some '/' := by
          intro begin m below
          obtain earlier | rfl := Nat.lt_succ_iff_lt_or_eq.1 below
          · exact clear begin m earlier
          · exact other
        obtain ⟨same, ends⟩ := ih sound (Nat.le_succ_of_le order) inside clear' named
        exact ⟨same, fun enough => ends (by omega)⟩
    · rw [traceLoop_end inside]
      exact ⟨fun t run => Option.some.inj run ▸ ended inside bound, fun _ => .inr ⟨_, rfl⟩⟩

theorem traceLoop_sound (opens : ∀ hcd fn hres s, sys.Sound s → open_ hcd fn hres s = openNamed sys hcd fn hres s)
    {len rounds i j hcd i' j' hcd' : Nat} {s s' : State} (sound : sys.Sound s)
    (run : traceLoop sys open_ path len rounds i j hcd s = some (.ended i' j' hcd' s')) : sys.Sound s' := by
  induction rounds generalizing i j hcd s with
  | zero =>
    simp only [traceLoop] at run
    split at run
    · exact absurd run (by simp)
    · simp only [Option.some.injEq, Traced.ended.injEq] at run
      exact run.2.2.2 ▸ sound
  | succ rounds ih =>
    simp only [traceLoop, opens _ _ _ _ sound] at run
    split at run
    · split at run
      · obtain ⟨⟨r, hcd', s''⟩, component, run⟩ := Option.bind_eq_some_iff.1 run
        have next := (openStep_sound sound hcd ((path.drop j).take (i - j)) hcd).1
        rw [(openNamed_eq_some.1 component).2] at next
        simp only at run
        split at run
        · exact ih next run
        · exact absurd run (by simp)
      · exact ih sound run
    · simp only [Option.some.injEq, Traced.ended.injEq] at run
      exact run.2.2.2 ▸ sound

end Loop

section Trace
variable {sys : System} {path : List Char} {s : State}

/-- Where a path starts. -/
def startOf (sys : System) (s : State) (path : List Char) (hstart : Nat) : Nat :=
  if path[0]? = some '/' then getMountPoint sys s 0 else getMountPoint sys s hstart

/-- What `trace_path` finds, if its loop comes to an end. -/
def traced (sys : System) (path : List Char) (hstart hres : Nat) (s : State) : Option (Nat × Nat × State) :=
  if startOf sys s path hstart = 0 then some (fsResultErr, hres, s)
  else walk sys path (segments [] (seen path)) (startOf sys s path hstart) hres s

/-- With rounds enough `trace_path` is the walk along the path from its start. -/
theorem tracePath_eq (sound : sys.Sound s) (rounds left hstart hres : Nat) (enough : 2 * 0x10000 ≤ rounds) :
    tracePath sys rounds (left + 1) path hstart hres s = traced sys path hstart hres s := by
  have opens : ∀ hcd fn hres s, sys.Sound s →
      openFile sys (tracePath sys rounds left) hcd fn hres s = openNamed sys hcd fn hres s :=
    fun hcd fn hres s sound => openFile_eq sound _ hcd fn hres
  simp only [tracePath, traced]
  change (if startOf sys s path hstart = 0 then _ else _) = _
  by_cases null : startOf sys s path hstart = 0
  · simp only [if_pos null]
  simp only [if_neg null]
  have walked := @traceLoop_walk sys _ path opens hres rounds 0 0 (startOf sys s path hstart) s sound (Nat.le_refl 0)
    (Nat.zero_le _) (fun _ _ below => absurd below (Nat.not_lt_zero _)) (fun other => absurd rfl other)
  rw [Nat.sub_self, List.take_zero, List.drop_zero] at walked
  have closing : ∀ t, traceLoop sys (openFile sys (tracePath sys rounds left)) path (path.length % 0x10000) rounds 0 0
        (startOf sys s path hstart) s = some t →
      (match t with
        | .failed r s => some (r, hres, s)
        | .ended i j hcd s => openFile sys (tracePath sys rounds left) hcd ((path.drop j).take (i - j)) hres s) =
      finish sys path hres t := by
    intro t run
    cases t with
    | failed r s => rfl
    | ended i j hcd s => exact opens _ _ _ _ (traceLoop_sound opens sound run)
  change (traceLoop sys _ _ _ _ _ _ (startOf sys s path hstart) s).bind _ = _
  cases looped : traceLoop sys (openFile sys (tracePath sys rounds left)) path (path.length % 0x10000) rounds 0 0
    (startOf sys s path hstart) s with
  | none =>
    obtain diverges | ⟨t, ends⟩ := walked.2 (by omega)
    · rw [diverges]
      rfl
    · exact absurd ends (by simp [looped])
  | some t =>
    rw [walked.1 t looped, ← closing t looped]
    rfl

end Trace

end PreTeO.Fs.Root
