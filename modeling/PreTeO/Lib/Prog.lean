import Mathlib.Logic.Basic

/-!
# Programs that may get stuck

A program takes a state and either returns a value and a new state or gets stuck. `Along` says what a program that returns
did to the state, `Avoids` which fault it never stops with; both follow the program part by part.
-/

namespace PreTeO.Lib
set_option autoImplicit false

/-- A program on states `S` that may get stuck with an `E`. -/
structure Prog (E S A : Type) where
  run : S → Except E (A × S)

namespace Prog

variable {E S A B : Type}

instance : Monad (Prog E S) where
  pure a := ⟨fun s => .ok (a, s)⟩
  bind m f := ⟨fun s =>
    match m.run s with
    | .ok (a, t) => (f a).run t
    | .error e => .error e⟩

/-- The state. -/
def get : Prog E S S := ⟨fun s => .ok (s, s)⟩

/-- A change of the state. -/
def modify (f : S → S) : Prog E S Unit := ⟨fun s => .ok ((), f s)⟩

/-- Nothing more happens. -/
def stuck (e : E) : Prog E S A := ⟨fun _ => .error e⟩

variable {m : Prog E S A} {f : A → Prog E S B} {s t : S} {a : A}

@[simp] theorem run_pure (a : A) (s : S) : (pure a : Prog E S A).run s = .ok (a, s) := rfl

@[simp] theorem run_get (s : S) : (get : Prog E S S).run s = .ok (s, s) := rfl

@[simp] theorem run_modify (f : S → S) (s : S) : (modify f : Prog E S Unit).run s = .ok ((), f s) := rfl

@[simp] theorem run_stuck (e : E) (s : S) : (stuck e : Prog E S A).run s = .error e := rfl

theorem run_bind (m : Prog E S A) (f : A → Prog E S B) (s : S) :
    (m >>= f).run s = match m.run s with | .ok (a, t) => (f a).run t | .error e => .error e := rfl

theorem bind_ok (returns : m.run s = .ok (a, t)) : (m >>= f).run s = (f a).run t := by
  rw [run_bind, returns]

theorem bind_error {e : E} (stops : m.run s = .error e) : (m >>= f).run s = .error e := by
  rw [run_bind, stops]

/-- What a sequence returned was returned by its parts. -/
theorem bind_eq_ok {b : B} {u : S} (returns : (m >>= f).run s = .ok (b, u)) :
    ∃ a t, m.run s = .ok (a, t) ∧ (f a).run t = .ok (b, u) := by
  rw [run_bind] at returns
  split at returns
  · next a t first => exact ⟨a, t, first, returns⟩
  · cases returns

theorem bind_assoc {C : Type} (m : Prog E S A) (f : A → Prog E S B) (g : B → Prog E S C) :
    m >>= f >>= g = m >>= fun a => f a >>= g := by
  apply congrArg Prog.mk
  funext s
  simp only [run_bind]
  cases m.run s <;> rfl

theorem pure_bind (a : A) (f : A → Prog E S B) : (pure a : Prog E S A) >>= f = f a := rfl

end Prog

/-! ## Runs that return

`Along` says nothing of a program that gets stuck, and asks nothing of the state it starts in.
-/

/-- Wherever the program returns, the state before and the state after are related. -/
def Along {E S A : Type} (R : S → S → Prop) (m : Prog E S A) : Prop := ∀ s a t, m.run s = .ok (a, t) → R s t

namespace Along

variable {E S A B : Type} {R : S → S → Prop} {m m' : Prog E S A} {f : A → Prog E S B}

theorem pure (refl : ∀ s, R s s) (a : A) : Along R (pure a : Prog E S A) := by
  intro s b t returns
  cases returns
  exact refl s

theorem get (refl : ∀ s, R s s) : Along R (Prog.get : Prog E S S) := by
  intro s b t returns
  cases returns
  exact refl s

theorem stuck (e : E) : Along R (Prog.stuck e : Prog E S A) := by
  intro s b t returns
  cases returns

theorem modify {g : S → S} (moved : ∀ s, R s (g s)) : Along R (Prog.modify g : Prog E S Unit) := by
  intro s b t returns
  cases returns
  exact moved s

theorem bind (trans : ∀ s t u, R s t → R t u → R s u) (first : Along R m) (next : ∀ a, Along R (f a)) :
    Along R (m >>= f) := by
  intro s b u returns
  obtain ⟨a, t, run, rest⟩ := Prog.bind_eq_ok returns
  exact trans s t u (first s a t run) (next a t b u rest)

theorem ite {c : Prop} [Decidable c] (yes : c → Along R m) (no : ¬ c → Along R m') :
    Along R (if c then m else m') := by
  split
  · next holds => exact yes holds
  · next fails => exact no fails

end Along

/-! ## Faults that do not happen -/

/-- From no state the program gets stuck with `e`. -/
def Avoids {E S A : Type} (e : E) (m : Prog E S A) : Prop := ∀ s, m.run s ≠ .error e

namespace Avoids

variable {E S A B : Type} {e : E} {m m' : Prog E S A} {f : A → Prog E S B}

theorem pure (a : A) : Avoids e (pure a : Prog E S A) := fun _ => nofun

theorem get : Avoids e (Prog.get : Prog E S S) := fun _ => nofun

theorem modify (g : S → S) : Avoids e (Prog.modify g : Prog E S Unit) := fun _ => nofun

theorem stuck {d : E} (other : d ≠ e) : Avoids e (Prog.stuck d : Prog E S A) :=
  fun _ stops => other (Except.error.inj stops)

theorem bind (first : Avoids e m) (next : ∀ a, Avoids e (f a)) : Avoids e (m >>= f) := by
  intro s stops
  rw [Prog.run_bind] at stops
  split at stops
  · next a t _ => exact next a t stops
  · next d run =>
    cases stops
    exact first s run

theorem ite {c : Prop} [Decidable c] (yes : c → Avoids e m) (no : ¬ c → Avoids e m') :
    Avoids e (if c then m else m') := by
  split
  · next holds => exact yes holds
  · next fails => exact no fails

end Avoids

end PreTeO.Lib
