import PreTeO.Lib.Linked
import PreTeO.Common.LlAlg

/-!
# What a column holds

A column of a list in vector mode holds a row of items. The memory is looked at through three functions, the two links of
an address and what else is there, and each primitive write is described once by what it does to them. `Turn` says what a
call on one column may do, to this column and to the memory of the others.
-/

namespace PreTeO.Common
set_option autoImplicit false
open PreTeO.Lib

variable {α : Type}

/-! ## Memory as links and contents -/

section Memory
variable (h : Nat → Option (Item α)) (p q : Nat) (it : Item α)

def prevAt : Nat := ((h p).map fun it => it.prev).getD 0

def nextAt : Nat := ((h p).map fun it => it.next).getD 0

/-- The context, the column and the user data of the item at an address. -/
def tagAt : Option (Nat × Nat × α) := (h p).map fun it => (it.cxt, it.col, it.data)

@[simp] theorem prevAt_update : prevAt (Function.update h p (some it)) q = if q = p then it.prev else prevAt h q := by
  unfold prevAt
  rw [Function.update_apply]
  split <;> rfl

@[simp] theorem nextAt_update : nextAt (Function.update h p (some it)) q = if q = p then it.next else nextAt h q := by
  unfold nextAt
  rw [Function.update_apply]
  split <;> rfl

@[simp] theorem tagAt_update :
    tagAt (Function.update h p (some it)) q = if q = p then some (it.cxt, it.col, it.data) else tagAt h q := by
  unfold tagAt
  rw [Function.update_apply]
  split <;> rfl

@[simp] theorem prevAt_free : prevAt (Function.update h p none) q = if q = p then 0 else prevAt h q := by
  unfold prevAt
  rw [Function.update_apply]
  split <;> rfl

@[simp] theorem nextAt_free : nextAt (Function.update h p none) q = if q = p then 0 else nextAt h q := by
  unfold nextAt
  rw [Function.update_apply]
  split <;> rfl

@[simp] theorem tagAt_free : tagAt (Function.update h p none) q = if q = p then none else tagAt h q := by
  unfold tagAt
  rw [Function.update_apply]
  split <;> rfl

end Memory

/-- The context with another memory. -/
def Context.withHeap (s : Context α) (h : Nat → Option (Item α)) : Context α := { s with heap := h }

/-- The state of a column is replaced. -/
def Context.setCol (s : Context α) (c : Nat) (d : Col) : Context α := { s with state := s.state.set c d }

theorem modCol_eq {s : Context α} {c : Nat} {d : Col} (get : s.state[c]? = some d) (f : Col → Col) :
    s.modCol c f = s.setCol c (f d) := by
  have bound := (List.getElem?_eq_some_iff.mp get).1
  unfold Context.modCol Context.setCol
  rw [List.modify_eq_set_getElem?, get]
  rfl

theorem setCol_get {s : Context α} {c : Nat} {d : Col} (get : s.state[c]? = some d) (d' : Col) :
    (s.setCol c d').state[c]? = some d' :=
  List.getElem?_set_self (List.getElem?_eq_some_iff.mp get).1

theorem setCol_same {s : Context α} {c : Nat} {d : Col} (get : s.state[c]? = some d) : s.setCol c d = s := by
  have same : s.state.set c d = s.state := by
    obtain ⟨bound, rfl⟩ := List.getElem?_eq_some_iff.mp get
    exact List.set_getElem_self bound
  unfold Context.setCol
  rw [same]

@[simp] theorem setCol_setCol (s : Context α) (c : Nat) (d d' : Col) : (s.setCol c d).setCol c d' = s.setCol c d' := by
  simp [Context.setCol]

section Fields
variable (s : Context α) (h : Nat → Option (Item α)) (c p : Nat) (d : Col) (it : Item α)

@[simp] theorem withHeap_heap : (s.withHeap h).heap = h := rfl
@[simp] theorem withHeap_state : (s.withHeap h).state = s.state := rfl
@[simp] theorem withHeap_ccol : (s.withHeap h).ccol = s.ccol := rfl
@[simp] theorem withHeap_mode : (s.withHeap h).mode = s.mode := rfl
@[simp] theorem withHeap_self : (s.withHeap h).self = s.self := rfl
@[simp] theorem withHeap_ncol : (s.withHeap h).ncol = s.ncol := rfl
@[simp] theorem setCol_heap : (s.setCol c d).heap = s.heap := rfl
@[simp] theorem setCol_state : (s.setCol c d).state = s.state.set c d := rfl
@[simp] theorem setCol_ccol : (s.setCol c d).ccol = s.ccol := rfl
@[simp] theorem setCol_mode : (s.setCol c d).mode = s.mode := rfl
@[simp] theorem setCol_self : (s.setCol c d).self = s.self := rfl
@[simp] theorem setCol_ncol : (s.setCol c d).ncol = s.ncol := rfl
@[simp] theorem put_eq : s.put p it = s.withHeap (Function.update s.heap p (some it)) := rfl
@[simp] theorem free_eq : s.free p = s.withHeap (Function.update s.heap p none) := rfl
@[simp] theorem withHeap_withHeap (h' : Nat → Option (Item α)) : (s.withHeap h).withHeap h' = s.withHeap h' := rfl
@[simp] theorem setCol_withHeap : (s.setCol c d).withHeap h = (s.withHeap h).setCol c d := rfl

end Fields

/-- The item at an address with known contents. -/
theorem item_of_tag {s : Context α} {p cxt col : Nat} {x : α} (nonnull : p ≠ 0) (tag : tagAt s.heap p = some (cxt, col, x)) :
    s.item p = some ⟨cxt, col, prevAt s.heap p, nextAt s.heap p, x⟩ := by
  obtain ⟨it, get, same⟩ := Option.map_eq_some_iff.mp tag
  obtain ⟨rfl, rfl, rfl⟩ : it.cxt = cxt ∧ it.col = col ∧ it.data = x := by simpa using same
  simp [Context.item, nonnull, get, prevAt, nextAt]

/-- The memory `h'` has the links `prev` and `next`, and else holds what `h` holds. -/
structure Relinked (h h' : Nat → Option (Item α)) (prev next : Nat → Nat) : Prop where
  prev : ∀ q, prevAt h' q = prev q
  next : ∀ q, nextAt h' q = next q
  tag : ∀ q, tagAt h' q = tagAt h q

section Writes
variable {s : Context α} {p : Nat}

/-- A pointer to an item, or null. -/
def Valid (h : Nat → Option (Item α)) (p : Nat) : Prop := p ≠ 0 → (tagAt h p).isSome

theorem setNext_spec (nonnull : p ≠ 0) (valid : (tagAt s.heap p).isSome) (v : Nat) :
    ∃ h', s.setNext p v = some (s.withHeap h') ∧
      Relinked s.heap h' (prevAt s.heap) (fun q => if q = p then v else nextAt s.heap q) := by
  obtain ⟨⟨cxt, col, x⟩, tag⟩ := Option.isSome_iff_exists.mp valid
  have write : s.setNext p v = some (s.put p ⟨cxt, col, prevAt s.heap p, v, x⟩) := by
    rw [Context.setNext, item_of_tag nonnull tag]
    rfl
  refine ⟨_, write, ?_, ?_, ?_⟩
  · intro q
    rw [prevAt_update]
    split
    · next same => rw [same]
    · rfl
  · intro q
    rw [nextAt_update]
  · intro q
    rw [tagAt_update]
    split
    · next same => rw [same, tag]
    · rfl

theorem setPrev_spec (nonnull : p ≠ 0) (valid : (tagAt s.heap p).isSome) (v : Nat) :
    ∃ h', s.setPrev p v = some (s.withHeap h') ∧
      Relinked s.heap h' (fun q => if q = p then v else prevAt s.heap q) (nextAt s.heap) := by
  obtain ⟨⟨cxt, col, x⟩, tag⟩ := Option.isSome_iff_exists.mp valid
  have write : s.setPrev p v = some (s.put p ⟨cxt, col, v, nextAt s.heap p, x⟩) := by
    rw [Context.setPrev, item_of_tag nonnull tag]
    rfl
  refine ⟨_, write, ?_, ?_, ?_⟩
  · intro q
    rw [prevAt_update]
  · intro q
    rw [nextAt_update]
    split
    · next same => rw [same]
    · rfl
  · intro q
    rw [tagAt_update]
    split
    · next same => rw [same, tag]
    · rfl

theorem setNextIf_spec (valid : Valid s.heap p) (v : Nat) :
    ∃ h', s.setNextIf p v = some (s.withHeap h') ∧
      Relinked s.heap h' (prevAt s.heap) (fun q => if q = p ∧ p ≠ 0 then v else nextAt s.heap q) := by
  unfold Context.setNextIf
  by_cases null : p = 0
  · rw [if_pos null]
    refine ⟨s.heap, rfl, fun q => rfl, fun q => ?_, fun q => rfl⟩
    rw [if_neg fun both => both.2 null]
  · obtain ⟨h', write, prevs, nexts, tags⟩ := setNext_spec null (valid null) v
    rw [if_neg null]
    refine ⟨h', write, prevs, fun q => ?_, tags⟩
    rw [nexts]
    simp only [null, ne_eq, not_false_eq_true, and_true]

theorem setPrevIf_spec (valid : Valid s.heap p) (v : Nat) :
    ∃ h', s.setPrevIf p v = some (s.withHeap h') ∧
      Relinked s.heap h' (fun q => if q = p ∧ p ≠ 0 then v else prevAt s.heap q) (nextAt s.heap) := by
  unfold Context.setPrevIf
  by_cases null : p = 0
  · rw [if_pos null]
    refine ⟨s.heap, rfl, fun q => ?_, fun q => rfl, fun q => rfl⟩
    rw [if_neg fun both => both.2 null]
  · obtain ⟨h', write, prevs, nexts, tags⟩ := setPrev_spec null (valid null) v
    rw [if_neg null]
    refine ⟨h', write, fun q => ?_, nexts, tags⟩
    rw [prevs]
    simp only [null, ne_eq, not_false_eq_true, and_true]

/-- The test for null of `setNextIf` and `setPrevIf` makes no difference at an item. -/
theorem ite_nonnull {y z : Nat} (nonnull : y ≠ 0) (a b : Nat) :
    (if y = z ∧ z ≠ 0 then a else b) = if y = z then a else b := by
  by_cases same : y = z
  · rw [if_pos same, if_pos ⟨same, same ▸ nonnull⟩]
  · rw [if_neg same, if_neg fun both => same both.1]

end Writes

/-! ## A column and its cursor -/

/-- The addresses of a row of items. -/
def addrs (items : List (Nat × α)) : List Nat := items.map fun e => e.1

@[simp] theorem addrs_nil : addrs ([] : List (Nat × α)) = [] := rfl

@[simp] theorem addrs_cons (e : Nat × α) (l : List (Nat × α)) : addrs (e :: l) = e.1 :: addrs l := rfl

@[simp] theorem addrs_append (l r : List (Nat × α)) : addrs (l ++ r) = addrs l ++ addrs r := List.map_append

@[simp] theorem length_addrs (items : List (Nat × α)) : (addrs items).length = items.length := List.length_map _

theorem mem_addrs {items : List (Nat × α)} {p : Nat} : p ∈ addrs items ↔ ∃ e ∈ items, e.1 = p := List.mem_map

/-- The items are in memory with their user data, and linked in a row; where the links at its ends go is open. -/
structure Row (s : Context α) (c : Nat) (items : List (Nat × α)) : Prop where
  live : ∀ e ∈ items, tagAt s.heap e.1 = some (s.self, c, e.2)
  nodup : (addrs items).Nodup
  nonnull : 0 ∉ addrs items
  chain : ∃ b a, Chain (prevAt s.heap) (nextAt s.heap) b (addrs items) a

/-- Column `c` with the state `d` holds the items: they are in memory with their user data, linked in a row, and `d` knows
the ends and the number of them. -/
structure Holds (s : Context α) (c : Nat) (d : Col) (items : List (Nat × α)) : Prop where
  live : ∀ e ∈ items, tagAt s.heap e.1 = some (s.self, c, e.2)
  linked : Linked 0 (prevAt s.heap) (nextAt s.heap) (addrs items)
  first : d.pFirst = (addrs items).headD 0
  last : d.pLast = (addrs items).getLastD 0
  count : d.count = items.length % 2 ^ 32

/-- The cursor of the column is at item `pos`; the index it keeps is right, unless there are fewer than `k` items. -/
structure Aim (k : Nat) (d : Col) (items : List (Nat × α)) (pos : Nat) : Prop where
  pointer : d.pCurrent = (addrs items).getD pos 0
  inside : items ≠ [] → pos < items.length
  index : items ≠ [] → k ≤ items.length → d.current = pos

section Holds
variable {s : Context α} {c : Nat} {d : Col} {items : List (Nat × α)}

theorem Holds.row (holds : Holds s c d items) : Row s c items :=
  ⟨holds.live, holds.linked.nodup, holds.linked.nonnull, 0, 0, holds.linked.chain⟩

theorem Holds.nonnull (holds : Holds s c d items) {p : Nat} (member : p ∈ addrs items) : p ≠ 0 := by
  rintro rfl
  exact holds.linked.nonnull member

theorem Holds.isSome (holds : Holds s c d items) {p : Nat} (member : p ∈ addrs items) : (tagAt s.heap p).isSome := by
  obtain ⟨e, inside, rfl⟩ := mem_addrs.mp member
  rw [holds.live e inside]
  rfl

theorem Holds.item (holds : Holds s c d items) {e : Nat × α} (member : e ∈ items) :
    s.item e.1 = some ⟨s.self, c, prevAt s.heap e.1, nextAt s.heap e.1, e.2⟩ :=
  item_of_tag (holds.nonnull (mem_addrs.mpr ⟨e, member, rfl⟩)) (holds.live e member)

theorem headD_mem_addrs {r : List (Nat × α)} (some : (addrs r).headD 0 ≠ 0) : (addrs r).headD 0 ∈ addrs r := by
  apply headD_mem
  intro none
  rw [none] at some
  exact some rfl

theorem getLastD_mem_addrs {l : List (Nat × α)} (some : (addrs l).getLastD 0 ≠ 0) : (addrs l).getLastD 0 ∈ addrs l := by
  apply getLastD_mem
  intro none
  rw [none] at some
  exact some rfl

theorem mem_addrs_of_subset {l r : List (Nat × α)} (part : l ⊆ r) {p : Nat} (member : p ∈ addrs l) : p ∈ addrs r := by
  obtain ⟨e, inside, same⟩ := mem_addrs.mp member
  exact mem_addrs.mpr ⟨e, part inside, same⟩

/-- The ends of a part of the row are items, or null. -/
theorem Holds.valid_head (holds : Holds s c d items) {r : List (Nat × α)} (part : r ⊆ items) :
    Valid s.heap ((addrs r).headD 0) := by
  intro some
  exact holds.isSome (mem_addrs_of_subset part (headD_mem_addrs some))

theorem Holds.valid_last (holds : Holds s c d items) {l : List (Nat × α)} (part : l ⊆ items) :
    Valid s.heap ((addrs l).getLastD 0) := by
  intro some
  exact holds.isSome (mem_addrs_of_subset part (getLastD_mem_addrs some))

/-- A column with the same ends and number holds the same, in a memory that looks the same there. -/
theorem Holds.congr (holds : Holds s c d items) {s' : Context α} {d' : Col} (self : s'.self = s.self)
    (tags : ∀ p ∈ addrs items, tagAt s'.heap p = tagAt s.heap p)
    (prevs : ∀ p ∈ addrs items, prevAt s'.heap p = prevAt s.heap p)
    (nexts : ∀ p ∈ addrs items, nextAt s'.heap p = nextAt s.heap p)
    (first : d'.pFirst = d.pFirst) (last : d'.pLast = d.pLast) (count : d'.count = d.count) : Holds s' c d' items := by
  refine ⟨?_, holds.linked.congr prevs nexts, first.trans holds.first, last.trans holds.last, count.trans holds.count⟩
  intro e member
  rw [tags e.1 (mem_addrs.mpr ⟨e, member, rfl⟩), self]
  exact holds.live e member

section Split
variable {l r : List (Nat × α)} {e : Nat × α}

theorem Holds.split (holds : Holds s c d (l ++ e :: r)) :
    prevAt s.heap e.1 = (addrs l).getLastD 0 ∧ nextAt s.heap e.1 = (addrs r).headD 0 := by
  have linked := holds.linked
  rw [addrs_append, addrs_cons] at linked
  exact linked.split

theorem Holds.outside (holds : Holds s c d (l ++ e :: r)) : e.1 ∉ addrs l ∧ e.1 ∉ addrs r := by
  have nodup := holds.linked.nodup
  rw [addrs_append, addrs_cons, List.nodup_middle, List.nodup_cons, List.mem_append, not_or] at nodup
  exact nodup.1

/-- An item is the first if none is before it. -/
theorem Holds.first_iff (holds : Holds s c d (l ++ e :: r)) : e.1 = d.pFirst ↔ l = [] := by
  have out := holds.outside.1
  rw [holds.first]
  cases l with
  | nil => simp
  | cons a l =>
    simp only [List.cons_append, addrs_cons, List.headD_cons, reduceCtorEq, iff_false]
    rintro same
    exact out (by simp [same])

/-- An item is the last if none is after it. -/
theorem Holds.last_iff (holds : Holds s c d (l ++ e :: r)) : e.1 = d.pLast ↔ r = [] := by
  have out := holds.outside.2
  rw [holds.last]
  cases r with
  | nil => simp
  | cons a r =>
    have last : (addrs (l ++ e :: a :: r)).getLastD 0 = (addrs (a :: r)).getLastD 0 := by
      rw [addrs_append, addrs_cons, addrs_cons, getLastD_append_cons]
      rfl
    simp only [last, reduceCtorEq, iff_false]
    intro same
    rw [same] at out
    exact out (getLastD_mem (by simp) 0)

/-- The pointer to the item after it is null if there is none. -/
theorem Holds.head_iff (holds : Holds s c d (l ++ r)) : (addrs r).headD 0 = 0 ↔ r = [] := by
  cases r with
  | nil => simp
  | cons a r =>
    have some : a.1 ≠ 0 := holds.nonnull (by simp)
    simpa using some

end Split

theorem Aim.ptr {k pos : Nat} (aim : Aim k d items pos) (inside : pos < items.length) : d.pCurrent = items[pos].1 := by
  rw [aim.pointer]
  simp [addrs, inside]

theorem Holds.next_get (holds : Holds s c d items) {i : Nat} (inside : i < items.length) :
    nextAt s.heap items[i].1 = (addrs items).getD (i + 1) 0 := by
  have step := holds.linked.chain.next_get (i := i) (by simpa using inside)
  simpa [addrs] using step

theorem Holds.prev_get (holds : Holds s c d items) {i : Nat} (inside : i < items.length) :
    prevAt s.heap items[i].1 = if i = 0 then 0 else (addrs items).getD (i - 1) 0 := by
  have step := holds.linked.chain.prev_get (i := i) (by simpa using inside)
  simpa [addrs] using step

theorem addrs_getD {i : Nat} (inside : i < items.length) : (addrs items).getD i 0 = items[i].1 := by
  simp [addrs, inside]

theorem headD_addrs (inside : 0 < items.length) : (addrs items).headD 0 = items[0].1 := by
  rw [← addrs_getD inside, List.headD_eq_head?_getD, List.head?_eq_getElem?, List.getD_eq_getElem?_getD]

theorem getLastD_addrs_get (inside : items.length - 1 < items.length) :
    (addrs items).getLastD 0 = items[items.length - 1].1 := by
  rw [← addrs_getD inside, List.getLastD_eq_getLast?, List.getLast?_eq_getElem?, List.getD_eq_getElem?_getD, length_addrs]

/-- The last item of the first part of a row. -/
theorem getLastD_addrs {items l r : List (Nat × α)} (split : items = l ++ r) (some : l ≠ [])
    (inside : l.length - 1 < items.length) : items[l.length - 1].1 = (addrs l).getLastD 0 := by
  have positive := List.length_pos_of_ne_nil some
  have here : items[l.length - 1]? = l[l.length - 1]? := by
    rw [split, List.getElem?_append_left (by omega)]
  rw [List.getElem?_eq_getElem inside, List.getElem?_eq_getElem (by omega)] at here
  rw [Option.some.inj here, List.getLastD_eq_getLast?, List.getLast?_eq_getElem?, length_addrs, addrs, List.getElem?_map,
    List.getElem?_eq_getElem (by omega)]
  rfl

end Holds

section Row
variable {s : Context α} {c : Nat} {d : Col} {items : List (Nat × α)}

theorem Row.real (row : Row s c items) {e : Nat × α} (member : e ∈ items) : e.1 ≠ 0 := by
  intro null
  exact row.nonnull (null ▸ mem_addrs.mpr ⟨e, member, rfl⟩)

theorem Row.isSome (row : Row s c items) {e : Nat × α} (member : e ∈ items) : (tagAt s.heap e.1).isSome := by
  rw [row.live e member]
  rfl

theorem Row.isSome_addr (row : Row s c items) {p : Nat} (member : p ∈ addrs items) :
    (tagAt s.heap p).isSome := by
  obtain ⟨e, inside, rfl⟩ := mem_addrs.mp member
  exact row.isSome inside

theorem Row.item (row : Row s c items) {e : Nat × α} (member : e ∈ items) :
    s.item e.1 = some ⟨s.self, c, prevAt s.heap e.1, nextAt s.heap e.1, e.2⟩ :=
  item_of_tag (row.real member) (row.live e member)

theorem Row.next_get (row : Row s c items) {i : Nat} (more : i + 1 < items.length) :
    nextAt s.heap items[i].1 = items[i + 1].1 := by
  obtain ⟨b, a, chain⟩ := row.chain
  have step := chain.next_get (i := i) (by simp; omega)
  simpa [addrs, more] using step

theorem Row.prev_get (row : Row s c items) {i : Nat} (inside : i < items.length) (some : i ≠ 0) :
    prevAt s.heap items[i].1 = items[i - 1].1 := by
  obtain ⟨b, a, chain⟩ := row.chain
  have step := chain.prev_get (i := i) (by simpa using inside)
  have before : i - 1 < items.length := by omega
  simpa [addrs, some, before] using step

/-- The loop of `_get` comes from any item to any other. -/
theorem Row.seek (row : Row s c items) {index : Nat} (target : index < items.length) (n i : Nat)
    (inside : i < items.length) (far : n = i - index + (index - i)) :
    s.seek index items.length n items[i].1 i = some (items[index].1, index) := by
  induction n generalizing i with
  | zero =>
    obtain rfl : i = index := by omega
    rfl
  | succ n ih =>
    rw [Context.seek, if_pos ⟨by omega, inside⟩, row.item (List.getElem_mem inside)]
    dsimp only
    by_cases behind : index < i
    · rw [if_pos behind, row.prev_get inside (by omega)]
      by_cases start : i - 1 = 0
      · obtain rfl : index = 0 := by omega
        rw [if_pos start]
        simp only [start]
      · rw [if_neg start]
        exact ih (i - 1) (by omega) (by omega)
    · rw [if_neg behind, row.next_get (by omega)]
      exact ih (i + 1) (by omega) (by omega)

/-- `_get` finds the item, if the cursor knows its index, and moves the cursor there. -/
theorem Row.getHdr (row : Row s s.ccol items) (get : s.state[s.ccol]? = some d) (count : d.count = items.length) {pos index : Nat}
    (inside : pos < items.length) (pointer : d.pCurrent = items[pos].1) (number : d.current = pos)
    (target : index < items.length) :
    s.getHdr index = some (items[index].1, s.setCol s.ccol { d with current := index, pCurrent := items[index].1 }) := by
  have seek := row.seek target _ pos inside rfl
  have some : items[pos].1 ≠ 0 := row.real (List.getElem_mem inside)
  simp only [Context.getHdr, get, Option.bind_eq_bind, Option.bind_some, count, target, pointer, some, ne_eq,
    not_false_eq_true, and_self, if_true, number, seek, modCol_eq get]

/-- A row whose items look the same. -/
theorem Row.congr (row : Row s c items) {s' : Context α} (self : s'.self = s.self)
    (tags : ∀ p ∈ addrs items, tagAt s'.heap p = tagAt s.heap p)
    (prevs : ∀ p ∈ addrs items, prevAt s'.heap p = prevAt s.heap p)
    (nexts : ∀ p ∈ addrs items, nextAt s'.heap p = nextAt s.heap p) : Row s' c items := by
  obtain ⟨b, a, chain⟩ := row.chain
  refine ⟨fun e member => ?_, row.nodup, row.nonnull, b, a, chain.congr prevs nexts⟩
  rw [tags e.1 (mem_addrs.mpr ⟨e, member, rfl⟩), self]
  exact row.live e member

theorem Row.inj (row : Row s c items) {i j : Nat} (hi : i < items.length)
    (hj : j < items.length) (same : items[i].1 = items[j].1) : i = j := by
  have bound : (addrs items).length = items.length := List.length_map _
  have insideI : i < (addrs items).length := bound ▸ hi
  have insideJ : j < (addrs items).length := bound ▸ hj
  have equal : (addrs items)[i] = (addrs items)[j] := by
    simpa only [addrs, List.getElem_map] using same
  exact row.nodup.getElem_inj_iff.mp equal

end Row

/-! ## A call on a column -/

/-- The same ends and number of items. -/
structure SameRow (d d' : Col) : Prop where
  first : d'.pFirst = d.pFirst
  last : d'.pLast = d.pLast
  count : d'.count = d.count

section Get
variable {s : Context α} {d : Col} {items : List (Nat × α)} {k pos index : Nat}

theorem getHdr_outside (get : s.state[s.ccol]? = some d) (outside : d.count ≤ index) : s.getHdr index = some (0, s) := by
  simp [Context.getHdr, get, Nat.not_lt.mpr outside]

/-- `_get` finds the item, and moves the cursor there. Of a single item it only looks at the pointer. -/
theorem getHdr_spec (get : s.state[s.ccol]? = some d) (holds : Holds s s.ccol d items) (aim : Aim k d items pos)
    (few : k ≤ 2) (short : items.length < 2 ^ 32) (target : index < items.length) :
    ∃ d', s.getHdr index = some (items[index].1, s.setCol s.ccol d') ∧ SameRow d d' ∧ Aim k d' items index := by
  have count : d.count = items.length := by rw [holds.count, Nat.mod_eq_of_lt short]
  have some : items ≠ [] := List.ne_nil_of_length_pos (by omega)
  have inside := aim.inside some
  have pointer := aim.ptr inside
  have nonnull : items[pos].1 ≠ 0 := holds.nonnull (mem_addrs.mpr ⟨_, List.getElem_mem inside, rfl⟩)
  by_cases exact_index : d.current = pos
  · refine ⟨{ d with current := index, pCurrent := items[index].1 }, ?_, ⟨rfl, rfl, rfl⟩, ?_⟩
    · exact holds.row.getHdr get count inside pointer exact_index target
    · exact ⟨(addrs_getD target).symm, fun _ => target, fun _ _ => rfl⟩
  · -- there is one item, and the index of the cursor is not its index
    have single : items.length < k := by
      by_contra large
      exact exact_index (aim.index some (by omega))
    obtain rfl : index = 0 := by omega
    obtain rfl : pos = 0 := by omega
    refine ⟨d, ?_, ⟨rfl, rfl, rfl⟩, aim⟩
    obtain ⟨n, far⟩ : ∃ n, d.current - 0 + (0 - d.current) = n + 1 := ⟨d.current - 1, by omega⟩
    have late : ¬ (d.current ≠ 0 ∧ d.current < items.length) := by omega
    have seek : s.seek 0 items.length (n + 1) items[0].1 d.current = Option.some (items[0].1, d.current) := by
      rw [Context.seek, if_neg late]
    simp only [Context.getHdr, get, Option.bind_eq_bind, Option.bind_some, count, target, pointer, nonnull, ne_eq,
      not_false_eq_true, and_self, if_true, far, seek, exact_index, if_false, setCol_same get]

end Get

end PreTeO.Common
