import PreTeO.Lib.Run

/-!
# Two runs side by side

Two runs of a system that start in related states, and make calls that are related too, return the same: neither has a
result where the other has none. What relates the states may depend on what the calls have returned.
-/

namespace PreTeO.Lib
set_option autoImplicit false

section Rel
variable {A B C D : Type*} {r : A → B → Prop} {q : C → D → Prop}

theorem Rel.bind {x : Option A} {y : Option B} {f : A → Option C} {g : B → Option D} (first : Option.Rel r x y)
    (rest : ∀ a b, r a b → Option.Rel q (f a) (g b)) : Option.Rel q (x.bind f) (y.bind g) := by
  cases first with
  | none => exact Option.Rel.none
  | some related => exact rest _ _ related

theorem Rel.map {x : Option A} {y : Option B} {f : A → C} {g : B → D} (first : Option.Rel r x y)
    (rest : ∀ a b, r a b → q (f a) (g b)) : Option.Rel q (x.map f) (y.map g) := by
  cases first with
  | none => exact Option.Rel.none
  | some related => exact Option.Rel.some (rest _ _ related)

/-- What related results have in common. -/
theorem Rel.map_eq {x : Option A} {y : Option B} {f : A → C} {g : B → C} (related : Option.Rel r x y)
    (same : ∀ a b, r a b → g b = f a) : y.map g = x.map f := by
  cases related with
  | none => rfl
  | some related => exact congrArg Option.some (same _ _ related)

end Rel

variable {S A R G : Type*}

/-- Two lists of calls, each pair of which meets the condition in the states that they are made in. The condition may look
at a record of what the calls before have returned. -/
def SideBySide (call : S → A → Option (R × S)) (note : G → R → G) (ok : G → S → S → A → A → Prop) :
    G → S → S → List A → List A → Prop
  | _, _, _, [], [] => True
  | g, s, t, a :: as, b :: bs =>
    ok g s t a b ∧ ∀ r s' t', call s a = some (r, s') → call t b = some (r, t') →
      SideBySide call note ok (note g r) s' t' as bs
  | _, _, _, _, _ => False

variable {call : S → A → Option (R × S)} {note : G → R → G} {ok : G → S → S → A → A → Prop}

/-- If every pair of calls returns the same and keeps the states related, then so do two lists of them. -/
theorem two_runs {Alike : G → S → S → Prop}
    (sim : ∀ g s t a b, Alike g s t → ok g s t a b →
      Option.Rel (fun x y => y.1 = x.1 ∧ Alike (note g x.1) x.2 y.2) (call s a) (call t b))
    {g : G} {s t : S} (start : Alike g s t) (as bs : List A) (side : SideBySide call note ok g s t as bs) :
    Option.Rel (fun x y => y.1 = x.1 ∧ ∃ g, Alike g x.2 y.2) (outcome call s as) (outcome call t bs) := by
  induction as generalizing g s t bs with
  | nil =>
    cases bs with
    | nil => exact Option.Rel.some ⟨rfl, g, start⟩
    | cons b bs => exact absurd side id
  | cons a as ih =>
    cases bs with
    | nil => exact absurd side id
    | cons b bs =>
      have pair := sim g s t a b start side.1
      unfold outcome
      generalize returns : call s a = x at pair
      generalize returns' : call t b = y at pair
      cases pair with
      | none => exact Option.Rel.none
      | @some x y related =>
        obtain ⟨r, s'⟩ := x
        obtain ⟨r', t'⟩ := y
        obtain ⟨rfl, alike⟩ := related
        have tail := ih alike bs (side.2 r' s' t' returns returns')
        refine Rel.map tail ?_
        rintro ⟨rs, u⟩ ⟨rs', u'⟩ ⟨rfl, after⟩
        exact ⟨rfl, after⟩

end PreTeO.Lib
