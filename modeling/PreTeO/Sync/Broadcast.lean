import Mathlib.Data.List.Nodup
import PreTeO.Lib.Run

/-!
# The broadcast registry (`core/sync/broadcast.cpp`)

A handler is registered as a pair of a callback and an object, and a message goes to the handlers by their index, up to
the number there was at the start. The callbacks may register and remove handlers meanwhile. An object that removes a
callback removes it for every object, and a removal at or before the current index moves the next handler to an index
that is over.

The vector is the list of its items.
-/

namespace PreTeO.Sync
set_option autoImplicit false
open PreTeO.Lib

/-- `_handler_t`. -/
structure Handler where
  hcb : Nat
  data : Nat
deriving DecidableEq, Repr

/-- `m_p_vector`. -/
abbrev Registry : Type := List Handler

/-- `add_handler`. -/
def Registry.addHandler (v : Registry) (hcb data : Nat) : Registry := v ++ [⟨hcb, data⟩]

/-- The loop of `remove_handler`: it starts again after every deletion. -/
def Registry.removeLoop (hcb : Nat) : Nat → Registry → Registry
  | 0, v => v
  | n + 1, v =>
    match v.findIdx? fun h => h.hcb = hcb with
    | none => v
    | some i => removeLoop hcb n (v.eraseIdx i)

/-- `remove_handler`. -/
def Registry.removeHandler (v : Registry) (hcb : Nat) : Registry := v.removeLoop hcb v.length

/-- What an object asks the registry for. -/
inductive Act where
  | add (obj hcb : Nat)
  | remove (obj hcb : Nat)
deriving DecidableEq, Repr

def Act.apply (v : Registry) : Act → Registry
  | .add obj hcb => v.addHandler hcb obj
  | .remove _ hcb => v.removeHandler hcb

/-- What a message leads to: the handlers it was delivered to, what they asked for, and the registry afterwards. -/
structure Sent where
  delivered : List Handler
  acts : List Act
  after : Registry
deriving DecidableEq, Repr

/-- The loop of `send_msg`; the script has the acts of each handler that is called, in their order. -/
def Registry.sendLoop : Nat → Nat → List (List Act) → Registry → Sent
  | 0, _, _, v => ⟨[], [], v⟩
  | n + 1, i, script, v =>
    match v[i]? with
    | none => sendLoop n (i + 1) script v
    | some h =>
      let rest := sendLoop n (i + 1) script.tail ((script.headD []).foldl Act.apply v)
      ⟨h :: rest.delivered, script.headD [] ++ rest.acts, rest.after⟩

/-- `send_msg`. -/
def Registry.sendMsg (v : Registry) (script : List (List Act)) : Sent := v.sendLoop v.length 0 script

/-! ## What the objects want -/

/-- The registrations that are wanted: an object takes back its own. -/
def Act.want (w : List Handler) : Act → List Handler
  | .add obj hcb => w ++ [⟨hcb, obj⟩]
  | .remove obj hcb => w.filter fun h => h ≠ ⟨hcb, obj⟩

/-- The registry beside what the objects want. -/
structure Broadcast where
  registry : Registry
  wanted : List Handler
deriving DecidableEq, Repr

inductive BroadcastCall where
  | act (a : Act)
  | send (script : List (List Act))

/-- One call from outside. -/
def Broadcast.step (b : Broadcast) : BroadcastCall → Option Broadcast
  | .act a => some ⟨a.apply b.registry, a.want b.wanted⟩
  | .send script =>
    let sent := b.registry.sendMsg script
    some ⟨sent.after, sent.acts.foldl Act.want b.wanted⟩

/-! ## When it works -/

/-- The object is not registered yet with this callback, or it is the only one with the callback it removes. -/
def Act.Proper (v : Registry) : Act → Prop
  | .add obj hcb => ⟨hcb, obj⟩ ∉ v
  | .remove obj hcb => ∀ h ∈ v, h.hcb = hcb → h.data = obj

/-- No handler up to index `i` is removed while there are handlers behind it. -/
def Act.Behind (i : Nat) (v : Registry) : Act → Prop
  | .add _ _ => True
  | .remove _ hcb => i + 1 < v.length → ∀ h ∈ v.take (i + 1), h.hcb ≠ hcb

/-- Every act in its turn. -/
def ActsOk (i : Nat) : List Act → Registry → Prop
  | [], _ => True
  | a :: as, v => a.Proper v ∧ a.Behind i v ∧ ActsOk i as (a.apply v)

/-- The acts of all handlers that are called. -/
def SendOk : Nat → Nat → List (List Act) → Registry → Prop
  | 0, _, _, _ => True
  | n + 1, i, script, v =>
    match v[i]? with
    | none => SendOk n (i + 1) script v
    | some _ => ActsOk i (script.headD []) v ∧ SendOk n (i + 1) script.tail ((script.headD []).foldl Act.apply v)

def BroadcastCall.Ok (b : Broadcast) : BroadcastCall → Prop
  | .act a => a.Proper b.registry
  | .send script => SendOk b.registry.length 0 script b.registry

instance Act.instDecidableProper (v : Registry) : (a : Act) → Decidable (a.Proper v)
  | .add obj hcb => inferInstanceAs (Decidable (⟨hcb, obj⟩ ∉ v))
  | .remove obj hcb => inferInstanceAs (Decidable (∀ h ∈ v, h.hcb = hcb → h.data = obj))

instance Act.instDecidableBehind (i : Nat) (v : Registry) : (a : Act) → Decidable (a.Behind i v)
  | .add _ _ => inferInstanceAs (Decidable True)
  | .remove _ hcb => inferInstanceAs (Decidable (i + 1 < v.length → ∀ h ∈ v.take (i + 1), h.hcb ≠ hcb))

instance ActsOk.instDecidable (i : Nat) : (as : List Act) → (v : Registry) → Decidable (ActsOk i as v)
  | [], _ => inferInstanceAs (Decidable True)
  | a :: as, v =>
    have := ActsOk.instDecidable i as (a.apply v)
    inferInstanceAs (Decidable (a.Proper v ∧ a.Behind i v ∧ ActsOk i as (a.apply v)))

/-! ## One act -/

theorem findIdx?_split {v : Registry} {hcb i : Nat} (found : v.findIdx? (fun h => h.hcb = hcb) = some i) :
    ∃ l h r, v = l ++ h :: r ∧ h.hcb = hcb ∧ v.eraseIdx i = l ++ r := by
  obtain ⟨bound, here, -⟩ := List.findIdx?_eq_some_iff_getElem.mp found
  refine ⟨v.take i, v[i], v.drop (i + 1), ?_, by simpa using here, List.eraseIdx_eq_take_drop_succ v i⟩
  rw [List.getElem_cons_drop, List.take_append_drop]

theorem removeLoop_eq (hcb n : Nat) (v : Registry) (enough : v.length ≤ n) :
    v.removeLoop hcb n = v.filter fun h => h.hcb ≠ hcb := by
  induction n generalizing v with
  | zero =>
    have empty : v = [] := List.length_eq_zero_iff.mp (by omega)
    subst empty
    rfl
  | succ n ih =>
    rw [Registry.removeLoop]
    cases found : v.findIdx? fun h => h.hcb = hcb with
    | none =>
      have other := List.findIdx?_eq_none_iff.mp found
      symm
      apply List.filter_eq_self.mpr
      intro h mem
      simpa using other h mem
    | some i =>
      obtain ⟨l, h, r, rfl, here, erased⟩ := findIdx?_split found
      simp only [erased]
      rw [List.length_append, List.length_cons] at enough
      rw [ih (l ++ r) (by rw [List.length_append]; omega)]
      simp [here]

theorem removeHandler_eq (v : Registry) (hcb : Nat) : v.removeHandler hcb = v.filter fun h => h.hcb ≠ hcb :=
  removeLoop_eq hcb v.length v (Nat.le_refl _)

variable {v : Registry} {a : Act} {h : Handler} {l r : List Handler} {i : Nat}

theorem Act.Proper.nodup (proper : a.Proper v) (nodup : v.Nodup) : (a.apply v).Nodup := by
  cases a with
  | add obj hcb =>
    refine List.nodup_append.mpr ⟨nodup, List.nodup_singleton _, ?_⟩
    rintro x hx y hy rfl
    rw [List.mem_singleton] at hy
    exact proper (hy ▸ hx)
  | remove obj hcb =>
    rw [Act.apply, removeHandler_eq]
    exact nodup.filter _

/-- The objects get what they want. -/
theorem Act.Proper.want (proper : a.Proper v) : a.apply v = a.want v := by
  cases a with
  | add obj hcb => rfl
  | remove obj hcb =>
    rw [Act.apply, removeHandler_eq, Act.want]
    apply List.filter_congr
    intro h mem
    have mine := proper h mem
    obtain ⟨cb, data⟩ := h
    simp only [ne_eq, Handler.mk.injEq, decide_eq_decide]
    constructor
    · exact fun other same => other same.1
    · exact fun other same => other ⟨same, mine same⟩

/-- A handler that does not remove itself stays, and moves towards the front only. -/
theorem Act.Proper.keep (proper : a.Proper v) (split : v = l ++ h :: r) (stays : a ≠ .remove h.data h.hcb) :
    ∃ l' r', a.apply v = l' ++ h :: r' ∧ l'.length ≤ l.length ∧ (a.Behind i v → i < l.length → i < l'.length) := by
  subst split
  cases a with
  | add obj hcb => exact ⟨l, r ++ [⟨hcb, obj⟩], by simp [Act.apply, Registry.addHandler], Nat.le_refl _, fun _ => id⟩
  | remove obj hcb =>
    have other : h.hcb ≠ hcb := by
      intro same
      have mine := proper h (by simp) same
      exact stays (by rw [same, mine])
    refine ⟨l.filter fun h => h.hcb ≠ hcb, r.filter fun h => h.hcb ≠ hcb, ?_, List.length_filter_le _ _, ?_⟩
    · rw [Act.apply, removeHandler_eq]
      simp [other]
    · intro behind small
      have first : ∀ x ∈ l.take (i + 1), x.hcb ≠ hcb := by
        intro x hx
        apply behind
        · rw [List.length_append, List.length_cons]
          omega
        · rw [List.take_append_of_le_length (by omega)]
          exact hx
      have kept : (l.take (i + 1)).filter (fun h => h.hcb ≠ hcb) = l.take (i + 1) := by
        apply List.filter_eq_self.mpr
        intro x hx
        simpa using first x hx
      rw [← List.take_append_drop (i + 1) l, List.filter_append, kept, List.length_append, List.length_take]
      omega

/-! ## The acts of one handler -/

variable {as : List Act}

theorem ActsOk.nodup (ok : ActsOk i as v) (nodup : v.Nodup) : (as.foldl Act.apply v).Nodup := by
  induction as generalizing v with
  | nil => exact nodup
  | cons a as ih => exact ih ok.2.2 (ok.1.nodup nodup)

theorem ActsOk.want (ok : ActsOk i as v) : as.foldl Act.apply v = as.foldl Act.want v := by
  induction as generalizing v with
  | nil => rfl
  | cons a as ih =>
    rw [List.foldl_cons, List.foldl_cons, ← ok.1.want]
    exact ih ok.2.2

theorem ActsOk.keep (ok : ActsOk i as v) (split : v = l ++ h :: r) (stays : .remove h.data h.hcb ∉ as) :
    ∃ l' r', as.foldl Act.apply v = l' ++ h :: r' ∧ l'.length ≤ l.length ∧ (i < l.length → i < l'.length) := by
  induction as generalizing v l r with
  | nil => exact ⟨l, r, split, Nat.le_refl _, id⟩
  | cons a as ih =>
    obtain ⟨proper, behind, rest⟩ := ok
    rw [List.mem_cons, not_or] at stays
    obtain ⟨l₁, r₁, split₁, short₁, far₁⟩ := proper.keep split (Ne.symm stays.1)
    obtain ⟨l₂, r₂, split₂, short₂, far₂⟩ := ih rest split₁ stays.2
    exact ⟨l₂, r₂, split₂, Nat.le_trans short₂ short₁, fun small => far₂ (far₁ behind small)⟩

/-! ## One message -/

variable {n : Nat} {script : List (List Act)}

theorem SendOk.nodup (ok : SendOk n i script v) (nodup : v.Nodup) : (v.sendLoop n i script).after.Nodup := by
  induction n generalizing i script v with
  | zero => exact nodup
  | succ n ih =>
    rw [SendOk] at ok
    rw [Registry.sendLoop]
    cases here : v[i]? with
    | none =>
      rw [here] at ok
      exact ih ok nodup
    | some x =>
      rw [here] at ok
      exact ih ok.2 (ok.1.nodup nodup)

theorem SendOk.want (ok : SendOk n i script v) :
    (v.sendLoop n i script).after = (v.sendLoop n i script).acts.foldl Act.want v := by
  induction n generalizing i script v with
  | zero => rfl
  | succ n ih =>
    rw [SendOk] at ok
    rw [Registry.sendLoop]
    cases here : v[i]? with
    | none =>
      rw [here] at ok
      exact ih ok
    | some x =>
      rw [here] at ok
      simp only [List.foldl_append, ← ok.1.want]
      exact ih ok.2

/-- A handler before the current index is not called again. -/
theorem SendOk.passed (ok : SendOk n i script v) (nodup : v.Nodup) (split : v = l ++ h :: r) (before : l.length < i)
    (stays : .remove h.data h.hcb ∉ (v.sendLoop n i script).acts) :
    (v.sendLoop n i script).delivered.count h = 0 := by
  induction n generalizing i script v l r with
  | zero => rfl
  | succ n ih =>
    rw [SendOk] at ok
    rw [Registry.sendLoop] at stays ⊢
    cases here : v[i]? with
    | none =>
      rw [here] at ok stays
      exact ih ok nodup split (by omega) stays
    | some x =>
      rw [here] at ok stays
      rw [List.mem_append, not_or] at stays
      obtain ⟨l', r', split', short, -⟩ := ok.1.keep split stays.1
      have other : x ≠ h := by
        rintro rfl
        have place : v[l.length]? = some x := by simp [split]
        have bound := (List.getElem?_eq_some_iff.mp here).1
        have same := (List.getElem?_inj bound nodup).mp (here.trans place.symm)
        omega
      simp only [List.count_cons_of_ne other]
      exact ih ok.2 (ok.1.nodup nodup) split' (by omega) stays.2

/-- A handler at the current index or behind it is called once. -/
theorem SendOk.ahead (ok : SendOk n i script v) (nodup : v.Nodup) (split : v = l ++ h :: r) (ahead : i ≤ l.length)
    (reached : l.length < i + n) (stays : .remove h.data h.hcb ∉ (v.sendLoop n i script).acts) :
    (v.sendLoop n i script).delivered.count h = 1 := by
  induction n generalizing i script v l r with
  | zero => omega
  | succ n ih =>
    rw [SendOk] at ok
    rw [Registry.sendLoop] at stays ⊢
    cases here : v[i]? with
    | none =>
      rw [List.getElem?_eq_none_iff, split, List.length_append, List.length_cons] at here
      omega
    | some x =>
      rw [here] at ok stays
      rw [List.mem_append, not_or] at stays
      obtain ⟨l', r', split', short, far⟩ := ok.1.keep split stays.1
      have nodup' := ok.1.nodup nodup
      by_cases turn : i = l.length
      · have same : x = h := by
          rw [split, turn] at here
          simpa using here.symm
        subst same
        simp only [List.count_cons_self]
        rw [ok.2.passed nodup' split' (by omega) stays.2]
      · have other : x ≠ h := by
          rintro rfl
          have place : v[l.length]? = some x := by simp [split]
          have bound := (List.getElem?_eq_some_iff.mp here).1
          exact turn ((List.getElem?_inj bound nodup).mp (here.trans place.symm))
        have small := far (by omega)
        simp only [List.count_cons_of_ne other]
        exact ih ok.2 nodup' split' (by omega) (by omega) stays.2

/-! ## Runs -/

/-- The registry holds what the objects want. -/
structure Broadcast.Inv (b : Broadcast) : Prop where
  same : b.registry = b.wanted
  nodup : b.registry.Nodup

theorem Broadcast.Inv.step {b b' : Broadcast} {call : BroadcastCall} (inv : b.Inv) (ok : call.Ok b)
    (returns : b.step call = some b') : b'.Inv := by
  cases call with
  | act a =>
    cases returns
    have ok : a.Proper b.registry := ok
    refine ⟨?_, ok.nodup inv.nodup⟩
    rw [ok.want, inv.same]
  | send script =>
    cases returns
    have ok : SendOk b.registry.length 0 script b.registry := ok
    refine ⟨?_, ok.nodup inv.nodup⟩
    simp only [Registry.sendMsg]
    rw [ok.want, inv.same]

/-- In every run in which an object removes only a callback that no other object has registered, and handlers are not
removed before the index of a message, every registered object that does not remove itself gets the message once. -/
theorem message_delivered_once {b : Broadcast} (reach : Reach Broadcast.step (fun b call => call.Ok b) ⟨[], []⟩ b)
    (script : List (List Act)) (ok : BroadcastCall.Ok b (.send script)) (h : Handler) (registered : h ∈ b.wanted)
    (stays : .remove h.data h.hcb ∉ (b.registry.sendMsg script).acts) :
    (b.registry.sendMsg script).delivered.count h = 1 := by
  have inv : b.Inv := reach.invariant ⟨rfl, List.nodup_nil⟩ fun _ _ _ inv ok returns => inv.step ok returns
  rw [← inv.same] at registered
  obtain ⟨l, r, split⟩ := List.append_of_mem registered
  have ok : SendOk b.registry.length 0 script b.registry := ok
  have reached : l.length < 0 + b.registry.length := by
    rw [split, List.length_append, List.length_cons]
    omega
  exact ok.ahead inv.nodup split (Nat.zero_le _) reached stays

theorem message_delivered_once_second :
    (Registry.sendMsg [⟨1, 10⟩, ⟨2, 20⟩, ⟨3, 30⟩] [[.remove 30 3]]).delivered.count ⟨2, 20⟩ = 1 := by
  have first : BroadcastCall.Ok ⟨[], []⟩ (.act (.add 10 1)) := show Act.Proper [] (.add 10 1) by decide
  have second : BroadcastCall.Ok ⟨[⟨1, 10⟩], [⟨1, 10⟩]⟩ (.act (.add 20 2)) :=
    show Act.Proper [⟨1, 10⟩] (.add 20 2) by decide
  have third : BroadcastCall.Ok ⟨[⟨1, 10⟩, ⟨2, 20⟩], [⟨1, 10⟩, ⟨2, 20⟩]⟩ (.act (.add 30 3)) :=
    show Act.Proper [⟨1, 10⟩, ⟨2, 20⟩] (.add 30 3) by decide
  have reach : Reach Broadcast.step (fun b call => call.Ok b) ⟨[], []⟩
      ⟨[⟨1, 10⟩, ⟨2, 20⟩, ⟨3, 30⟩], [⟨1, 10⟩, ⟨2, 20⟩, ⟨3, 30⟩]⟩ :=
    (((Reach.refl _).snoc first rfl).snoc second rfl).snoc third rfl
  apply message_delivered_once reach [[.remove 30 3]]
  · exact ⟨show ActsOk 0 _ _ by decide, trivial, trivial⟩
  · decide
  · decide

/-- A handler that removes itself keeps the message from the next one. -/
example : (Registry.sendMsg [⟨1, 10⟩, ⟨2, 20⟩] [[.remove 10 1]]).delivered = [⟨1, 10⟩] := by
  decide

/-- Object 10 removes its callback, and object 20 with the same callback gets no messages any more. -/
theorem shared_callback_removed :
    ¬ ∀ (acts : List Act) (script : List (List Act)) (h : Handler), h ∈ acts.foldl Act.want [] →
      .remove h.data h.hcb ∉ (Registry.sendMsg (acts.foldl Act.apply []) script).acts →
      (Registry.sendMsg (acts.foldl Act.apply []) script).delivered.count h = 1 := by
  intro all
  have once := all [.add 10 1, .add 20 1, .remove 10 1] [] ⟨1, 20⟩ (by decide) (by decide)
  exact absurd once (by decide)

end PreTeO.Sync
