import Mathlib.Data.List.Basic
import Mathlib.Data.List.Nodup

/-!
# Doubly linked lists

A doubly linked list is two functions, `prev` and `next`, on the addresses of items, and a null address. `Linked` says
which row of items they link, and the two rules are for the two ways to change a row: an item comes in between two parts
of it, or it goes out. The new functions are given point by point, so that a program may write its links in any order.
-/

namespace PreTeO.Lib
set_option autoImplicit false

variable {A : Type*}

/-- The items follow each other, with `b` before the first of them and `a` after the last. -/
def Chain (prev next : A → A) : A → List A → A → Prop
  | _, [], _ => True
  | b, x :: l, a => prev x = b ∧ next x = l.headD a ∧ Chain prev next x l a

section Chain
variable {prev next prev' next' : A → A} {a b : A}

theorem chain_append (l r : List A) :
    Chain prev next b (l ++ r) a ↔ Chain prev next b l (r.headD a) ∧ Chain prev next (l.getLastD b) r a := by
  induction l generalizing b with
  | nil => simp [Chain]
  | cons x l ih =>
    have head : (l ++ r).headD a = l.headD (r.headD a) := by cases l <;> rfl
    have last : (x :: l).getLastD b = l.getLastD x := by cases l <;> rfl
    rw [List.cons_append, Chain, Chain, ih, head, last]
    constructor
    · rintro ⟨before, after, front, back⟩
      exact ⟨⟨before, after, front⟩, back⟩
    · rintro ⟨⟨before, after, front⟩, back⟩
      exact ⟨before, after, front, back⟩

/-- A chain depends on the links of its items only. -/
theorem Chain.congr {l : List A} (chain : Chain prev next b l a) (prevs : ∀ x ∈ l, prev' x = prev x)
    (nexts : ∀ x ∈ l, next' x = next x) : Chain prev' next' b l a := by
  induction l generalizing b with
  | nil => trivial
  | cons x l ih =>
    obtain ⟨before, after, rest⟩ := chain
    refine ⟨?_, ?_, ?_⟩
    · rw [prevs x List.mem_cons_self, before]
    · rw [nexts x List.mem_cons_self, after]
    · exact ih rest (fun y member => prevs y (List.mem_cons_of_mem _ member))
        (fun y member => nexts y (List.mem_cons_of_mem _ member))

theorem headD_mem {l : List A} (some : l ≠ []) (a : A) : l.headD a ∈ l := by
  cases l with
  | nil => exact absurd rfl some
  | cons x l => exact List.mem_cons_self

theorem getLastD_mem {l : List A} (some : l ≠ []) (b : A) : l.getLastD b ∈ l := by
  rw [List.getLastD_eq_getLast?, List.getLast?_eq_some_getLast some]
  exact List.getLast_mem some

theorem getLastD_append_cons (l r : List A) (x b : A) : (l ++ x :: r).getLastD b = (x :: r).getLastD b := by
  simp [List.getLastD_eq_getLast?, List.getLast?_append, List.getLast?_cons]

/-- The link of the last item goes elsewhere. -/
theorem Chain.retarget [DecidableEq A] {l : List A} {a' : A} (chain : Chain prev next b l a) (nodup : l.Nodup)
    (prevs : ∀ x ∈ l, prev' x = prev x) (nexts : ∀ x ∈ l, next' x = if x = l.getLastD b then a' else next x) :
    Chain prev' next' b l a' := by
  induction l generalizing b with
  | nil => trivial
  | cons x l ih =>
    obtain ⟨before, after, rest⟩ := chain
    obtain ⟨fresh, nodup⟩ := List.nodup_cons.mp nodup
    simp only [List.getLastD_cons] at nexts
    refine ⟨?_, ?_, ?_⟩
    · rw [prevs x List.mem_cons_self, before]
    · rw [nexts x List.mem_cons_self]
      cases l with
      | nil => exact if_pos rfl
      | cons y l =>
        rw [if_neg, after]
        · rfl
        · intro same
          rw [same] at fresh
          exact fresh (getLastD_mem (List.cons_ne_nil y l) x)
    · exact ih rest nodup (fun y member => prevs y (List.mem_cons_of_mem _ member))
        (fun y member => nexts y (List.mem_cons_of_mem _ member))

/-- The link of the first item goes elsewhere. -/
theorem Chain.rebase [DecidableEq A] {l : List A} {b' : A} (chain : Chain prev next b l a) (nodup : l.Nodup)
    (prevs : ∀ x ∈ l, prev' x = if x = l.headD a then b' else prev x) (nexts : ∀ x ∈ l, next' x = next x) :
    Chain prev' next' b' l a := by
  cases l with
  | nil => trivial
  | cons x l =>
    obtain ⟨-, after, rest⟩ := chain
    obtain ⟨fresh, nodup⟩ := List.nodup_cons.mp nodup
    refine ⟨?_, ?_, ?_⟩
    · rw [prevs x List.mem_cons_self]
      exact if_pos rfl
    · rw [nexts x List.mem_cons_self, after]
    · apply rest.congr
      · intro y member
        rw [prevs y (List.mem_cons_of_mem _ member), if_neg]
        rintro rfl
        exact fresh member
      · exact fun y member => nexts y (List.mem_cons_of_mem _ member)

/-- The item after the one at an index. -/
theorem Chain.next_get {items : List A} (chain : Chain prev next b items a) {i : Nat} (inside : i < items.length) :
    next items[i] = items.getD (i + 1) a := by
  have split : items.take i ++ items[i] :: items.drop (i + 1) = items := by simp
  rw [← split] at chain
  obtain ⟨-, -, after, -⟩ := (chain_append _ _).mp chain
  rw [after]
  simp [List.headD_eq_head?_getD, List.getD_eq_getElem?_getD]

/-- The item before the one at an index. -/
theorem Chain.prev_get {items : List A} (chain : Chain prev next b items a) {i : Nat} (inside : i < items.length) :
    prev items[i] = if i = 0 then b else items.getD (i - 1) b := by
  have split : items.take i ++ items[i] :: items.drop (i + 1) = items := by simp
  rw [← split] at chain
  obtain ⟨-, before, -⟩ := (chain_append _ _).mp chain
  rw [before]
  cases i with
  | zero => rfl
  | succ i =>
    have here : items[i]? = some items[i] := List.getElem?_eq_getElem (by omega)
    simp [List.getLastD_eq_getLast?, List.getLast?_take, List.getD_eq_getElem?_getD, here]

/-- An item comes in between two parts. -/
theorem Chain.insert [DecidableEq A] {l r : List A} {x : A} (chain : Chain prev next b (l ++ r) a) (nodup : (l ++ r).Nodup)
    (prevs : ∀ y ∈ l, prev' y = prev y) (nexts : ∀ y ∈ l, next' y = if y = l.getLastD b then x else next y)
    (before : prev' x = l.getLastD b) (after : next' x = r.headD a)
    (prevs' : ∀ y ∈ r, prev' y = if y = r.headD a then x else prev y) (nexts' : ∀ y ∈ r, next' y = next y) :
    Chain prev' next' b (l ++ x :: r) a := by
  obtain ⟨front, back⟩ := (chain_append _ _).mp chain
  obtain ⟨nodup_l, nodup_r, -⟩ := List.nodup_append.mp nodup
  exact (chain_append _ _).mpr ⟨front.retarget nodup_l prevs nexts, before, after, back.rebase nodup_r prevs' nexts'⟩

/-- An item goes out. -/
theorem Chain.erase [DecidableEq A] {l r : List A} {x : A} (chain : Chain prev next b (l ++ x :: r) a)
    (nodup : (l ++ r).Nodup)
    (prevs : ∀ y ∈ l, prev' y = prev y) (nexts : ∀ y ∈ l, next' y = if y = l.getLastD b then r.headD a else next y)
    (prevs' : ∀ y ∈ r, prev' y = if y = r.headD a then l.getLastD b else prev y) (nexts' : ∀ y ∈ r, next' y = next y) :
    Chain prev' next' b (l ++ r) a := by
  obtain ⟨front, -, -, back⟩ := (chain_append _ _).mp chain
  obtain ⟨nodup_l, nodup_r, -⟩ := List.nodup_append.mp nodup
  exact (chain_append _ _).mpr ⟨front.retarget nodup_l prevs nexts, back.rebase nodup_r prevs' nexts'⟩

/-- The first item goes to the end. -/
theorem Chain.rotate [DecidableEq A] {l : List A} {x : A} {a' b' : A} (chain : Chain prev next b (x :: l) a)
    (nodup : (x :: l).Nodup) (prevs : ∀ y ∈ l, prev' y = if y = l.headD a then b' else prev y)
    (nexts : ∀ y ∈ l, next' y = if y = l.getLastD x then x else next y)
    (before : prev' x = l.getLastD b') (after : next' x = a') : Chain prev' next' b' (l ++ [x]) a' := by
  obtain ⟨-, -, rest⟩ := chain
  obtain ⟨-, nodup_l⟩ := List.nodup_cons.mp nodup
  have first : Chain prev' next b' l a := rest.rebase nodup_l prevs fun _ _ => rfl
  refine (chain_append _ _).mpr ⟨first.retarget nodup_l (fun _ _ => rfl) fun y member => ?_, before, after, trivial⟩
  rw [nexts y member]
  cases l with
  | nil => cases member
  | cons z l => rfl
end Chain

/-- The functions link the items in a row from null to null. -/
structure Linked (null : A) (prev next : A → A) (items : List A) : Prop where
  nodup : items.Nodup
  nonnull : null ∉ items
  chain : Chain prev next null items null

section Linked
variable {null : A} {prev next prev' next' : A → A} {l r : List A} {x : A}

theorem Linked.nil : Linked null prev next [] := ⟨List.nodup_nil, List.not_mem_nil, trivial⟩

theorem Linked.congr {items : List A} (linked : Linked null prev next items) (prevs : ∀ x ∈ items, prev' x = prev x)
    (nexts : ∀ x ∈ items, next' x = next x) : Linked null prev' next' items :=
  ⟨linked.nodup, linked.nonnull, linked.chain.congr prevs nexts⟩

/-- The links of an item. -/
theorem Linked.split (linked : Linked null prev next (l ++ x :: r)) :
    prev x = l.getLastD null ∧ next x = r.headD null := by
  obtain ⟨-, before, after, -⟩ := (chain_append _ _).mp linked.chain
  exact ⟨before, after⟩

/-- The items of one part are not next to the other part. -/
theorem Linked.apart (nodup : (l ++ r).Nodup) (nonnull : null ∉ l ++ r) :
    (∀ y ∈ l, y ≠ r.headD null) ∧ ∀ y ∈ r, y ≠ l.getLastD null := by
  obtain ⟨-, -, apart⟩ := List.nodup_append.mp nodup
  constructor
  · rintro y member rfl
    cases r with
    | nil => exact nonnull (List.mem_append_left _ member)
    | cons z r => exact apart _ member z List.mem_cons_self rfl
  · rintro y member rfl
    cases l with
    | nil => exact nonnull (List.mem_append_right _ member)
    | cons z l => exact apart _ (getLastD_mem (List.cons_ne_nil z l) null) _ member rfl

/-- An item comes in between two parts. -/
theorem Linked.insert [DecidableEq A] (linked : Linked null prev next (l ++ r)) (fresh : x ∉ l ++ r) (some : x ≠ null)
    (prevs : ∀ y ∈ x :: (l ++ r), prev' y = if y = x then l.getLastD null else if y = r.headD null then x else prev y)
    (nexts : ∀ y ∈ x :: (l ++ r), next' y = if y = x then r.headD null else if y = l.getLastD null then x else next y) :
    Linked null prev' next' (l ++ x :: r) := by
  obtain ⟨apart_l, apart_r⟩ := Linked.apart linked.nodup linked.nonnull
  have other : ∀ y ∈ l ++ r, y ≠ x := by
    rintro y member rfl
    exact fresh member
  refine ⟨?_, ?_, ?_⟩
  · rw [List.nodup_middle]
    exact List.nodup_cons.mpr ⟨fresh, linked.nodup⟩
  · rw [List.perm_middle.mem_iff, List.mem_cons, not_or]
    exact ⟨some.symm, linked.nonnull⟩
  · have prevs' : ∀ y ∈ l ++ r, prev' y = if y = r.headD null then x else prev y := by
      intro y inside
      rw [prevs y (List.mem_cons_of_mem x inside), if_neg (other y inside)]
    have nexts' : ∀ y ∈ l ++ r, next' y = if y = l.getLastD null then x else next y := by
      intro y inside
      rw [nexts y (List.mem_cons_of_mem x inside), if_neg (other y inside)]
    apply linked.chain.insert linked.nodup
    · intro y member
      rw [prevs' y (List.mem_append_left r member), if_neg (apart_l y member)]
    · exact fun y member => nexts' y (List.mem_append_left r member)
    · rw [prevs x List.mem_cons_self, if_pos rfl]
    · rw [nexts x List.mem_cons_self, if_pos rfl]
    · exact fun y member => prevs' y (List.mem_append_right l member)
    · intro y member
      rw [nexts' y (List.mem_append_right l member), if_neg (apart_r y member)]

/-- An item goes out. -/
theorem Linked.erase [DecidableEq A] (linked : Linked null prev next (l ++ x :: r))
    (prevs : ∀ y ∈ l ++ r, prev' y = if y = r.headD null then l.getLastD null else prev y)
    (nexts : ∀ y ∈ l ++ r, next' y = if y = l.getLastD null then r.headD null else next y) :
    Linked null prev' next' (l ++ r) := by
  have nodup := (List.nodup_cons.mp (List.nodup_middle.mp linked.nodup)).2
  have nonnull : null ∉ l ++ r := by
    intro member
    exact linked.nonnull (List.perm_middle.mem_iff.mpr (List.mem_cons_of_mem _ member))
  obtain ⟨apart_l, apart_r⟩ := Linked.apart nodup nonnull
  refine ⟨nodup, nonnull, linked.chain.erase nodup ?_ ?_ ?_ ?_⟩
  · intro y member
    rw [prevs y (List.mem_append_left r member), if_neg (apart_l y member)]
  · exact fun y member => nexts y (List.mem_append_left r member)
  · exact fun y member => prevs y (List.mem_append_right l member)
  · intro y member
    rw [nexts y (List.mem_append_right l member), if_neg (apart_r y member)]

end Linked

end PreTeO.Lib
