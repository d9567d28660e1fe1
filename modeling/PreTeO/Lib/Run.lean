import Mathlib.Logic.Relation

/-!
# Runs of a system of calls

A system is a step function on a state that may also not return (`none`): a call that never
returns has no successor state. `Reach` is the set of states reached by returning calls that all
meet a side condition, and `Reach.invariant` is the only induction on runs the development makes.
-/

namespace PreTeO.Lib
set_option autoImplicit false

variable {S A : Type*}

/-- One returning call that meets the side condition. -/
def Moves (step : S → A → Option S) (ok : S → A → Prop) (s t : S) : Prop :=
  ∃ a, ok s a ∧ step s a = some t

/-- The states reached from `s` by returning calls that meet the side condition. -/
def Reach (step : S → A → Option S) (ok : S → A → Prop) : S → S → Prop :=
  Relation.ReflTransGen (Moves step ok)

variable {step : S → A → Option S} {ok : S → A → Prop}

theorem Reach.refl (s : S) : Reach step ok s s := Relation.ReflTransGen.refl

theorem Reach.snoc {s t u : S} {a : A} (h : Reach step ok s t) (meets : ok t a)
    (returns : step t a = some u) : Reach step ok s u :=
  Relation.ReflTransGen.tail h ⟨a, meets, returns⟩

/-- An invariant of every returning call that meets the condition holds in every state reached. -/
theorem Reach.invariant {Inv : S → Prop} {s t : S} (h : Reach step ok s t) (start : Inv s)
    (keep : ∀ s a t, Inv s → ok s a → step s a = some t → Inv t) : Inv t := by
  induction h with
  | refl => exact start
  | tail _ move ih =>
    obtain ⟨a, meets, returns⟩ := move
    exact keep _ a _ ih meets returns

/-- A weaker side condition reaches at least as much. -/
theorem Reach.weaken {ok' : S → A → Prop} {s t : S} (h : Reach step ok s t)
    (weaker : ∀ s a, ok s a → ok' s a) : Reach step ok' s t := by
  induction h with
  | refl => exact Reach.refl s
  | tail _ move ih =>
    obtain ⟨a, meets, returns⟩ := move
    exact ih.snoc (weaker _ a meets) returns

/-- Run a list of calls, each checked by `ok`; `none` if one is refused or does not return. -/
def runAll (step : S → A → Option S) (ok : S → A → Prop) [∀ s a, Decidable (ok s a)] :
    S → List A → Option S
  | s, [] => some s
  | s, a :: rest => if ok s a then (step s a).bind fun t => runAll step ok t rest else none

/-- A checked list of calls is a run. -/
theorem Reach.of_runAll [∀ s a, Decidable (ok s a)] {s t : S} (calls : List A)
    (h : runAll step ok s calls = some t) : Reach step ok s t := by
  induction calls generalizing s with
  | nil =>
    cases h
    exact Reach.refl _
  | cons a rest ih =>
    simp only [runAll] at h
    split at h
    · next meets =>
      obtain ⟨u, returns, tail⟩ := Option.bind_eq_some_iff.mp h
      exact Relation.ReflTransGen.head ⟨a, meets, returns⟩ (ih tail)
    · cases h

/-! ## Calls with results -/

section Results
variable {R T : Type*}

/-- The results of a list of calls and the state after them; `none` if a call does not return. -/
def outcome (call : S → A → Option (R × S)) : S → List A → Option (List R × S)
  | s, [] => some ([], s)
  | s, a :: rest => (call s a).bind fun (r, t) => (outcome call t rest).map fun (rs, u) => (r :: rs, u)

/-- Every call of the list meets the condition in the state it is made in. -/
def Allowed (call : S → A → Option (R × S)) (ok : S → A → Prop) : S → List A → Prop
  | _, [] => True
  | s, a :: rest => ok s a ∧ ∀ r t, call s a = some (r, t) → Allowed call ok t rest

/-- The results of a list of calls that always return. -/
def results (call : T → A → R × T) : T → List A → List R × T
  | d, [] => ([], d)
  | d, a :: rest =>
    let (r, e) := call d a
    let (rs, f) := results call e rest
    (r :: rs, f)

variable {call : S → A → Option (R × S)} {ok : S → A → Prop}

/-- A list of calls that is made in two parts. -/
theorem outcome_append (s : S) (as bs : List A) :
    outcome call s (as ++ bs) = (outcome call s as).bind fun (rs, t) => (outcome call t bs).map fun (rs', u) =>
      (rs ++ rs', u) := by
  induction as generalizing s with
  | nil => simp [outcome]
  | cons a as ih =>
    simp only [List.cons_append, outcome]
    cases call s a with
    | none => rfl
    | some x =>
      simp only [Option.bind_some, ih]
      cases outcome call x.2 as with
      | none => rfl
      | some y =>
        simp only [Option.bind_some, Option.map_some, Option.map_map]
        rfl

theorem Allowed.append {s : S} {as bs : List A} (first : Allowed call ok s as)
    (second : ∀ rs t, outcome call s as = some (rs, t) → Allowed call ok t bs) : Allowed call ok s (as ++ bs) := by
  induction as generalizing s with
  | nil => exact second [] s rfl
  | cons a as ih =>
    refine ⟨first.1, fun r t returns => ih (first.2 r t returns) fun rs u rest => ?_⟩
    apply second (r :: rs) u
    simp only [outcome, returns, Option.bind_some, rest, Option.map_some]

/-- A condition on the calls alone. -/
theorem Allowed.of_forall {P : A → Prop} (as : List A) (all : ∀ a ∈ as, P a) (s : S) : Allowed call (fun _ a => P a) s as := by
  induction as generalizing s with
  | nil => trivial
  | cons a as ih => exact ⟨all a List.mem_cons_self, fun _ t _ => ih (fun b rest => all b (List.mem_cons_of_mem a rest)) t⟩

/-- Two conditions that agree where an invariant holds allow the same lists, if the second keeps the invariant. -/
theorem Allowed.congr_of_invariant {Inv : S → Prop} {ok' : S → A → Prop} (same : ∀ s a, Inv s → (ok s a ↔ ok' s a))
    (next : ∀ s a r t, Inv s → ok' s a → call s a = some (r, t) → Inv t) {s : S} (start : Inv s) (as : List A) :
    Allowed call ok s as ↔ Allowed call ok' s as := by
  induction as generalizing s with
  | nil => exact Iff.rfl
  | cons a as ih =>
    simp only [Allowed]
    rw [same s a start]
    refine and_congr_right fun allowed => forall_congr' fun r => forall_congr' fun t => ?_
    exact imp_congr_right fun returns => ih (next s a r t start allowed returns)

/-- If every allowed call returns what the abstract call returns and keeps the states related, then so does a list of
them. -/
theorem simulation {spec : T → A → R × T} {Rel : S → T → Prop}
    (sim : ∀ s d a, Rel s d → ok s a → ∃ t, call s a = some ((spec d a).1, t) ∧ Rel t (spec d a).2) {s : S} {d : T}
    (start : Rel s d) (calls : List A) (allowed : Allowed call ok s calls) :
    ∃ t, outcome call s calls = some ((results spec d calls).1, t) ∧ Rel t (results spec d calls).2 := by
  induction calls generalizing s d with
  | nil => exact ⟨s, rfl, start⟩
  | cons a rest ih =>
    obtain ⟨t, returns, related⟩ := sim s d a start allowed.1
    obtain ⟨u, tail, after⟩ := ih related (allowed.2 _ t returns)
    refine ⟨u, ?_, after⟩
    simp only [outcome, returns, Option.bind_some, tail, Option.map_some, results]

end Results

end PreTeO.Lib
