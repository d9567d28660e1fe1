import PreTeO.Lib.Run
import PreTeO.Common.LlColumn

/-!
# A column in vector mode is a sequence with a cursor

`Deck` is the sequence with its cursor. Every call on a column returns what the call on the deck returns, and leaves the
column with the items, the links and the cursor of the new deck.
-/

namespace PreTeO.Common
set_option autoImplicit false
open PreTeO.Lib

/-- A sequence of items, each with its address and its user data, and the position of the cursor. -/
structure Deck (α : Type) where
  items : List (Nat × α)
  pos : Nat
deriving DecidableEq, Repr

variable {α : Type}

namespace Deck

/-- The pointer to the user data of the item at an index, null if there is none. -/
def ptr (t : Deck α) (i : Nat) : Nat :=
  match t.items[i]? with
  | none => 0
  | some e => e.1 + hdrSize

/-- The cursor goes to an index that is there. -/
def moveTo (t : Deck α) (i : Nat) : Nat × Deck α := if i < t.items.length then (t.ptr i, { t with pos := i }) else (0, t)

def add (t : Deck α) (x : α) (mem : Nat) : Nat × Deck α :=
  if mem = 0 then (0, t) else (mem + hdrSize, ⟨t.items ++ [(mem, x)], t.items.length⟩)

def ins (t : Deck α) (index : Nat) (x : α) (mem : Nat) : Nat × Deck α :=
  if index < t.items.length then
    if mem = 0 then (0, { t with pos := index }) else (mem + hdrSize, ⟨t.items.insertIdx index (mem, x), index⟩)
  else (0, t)

/-- The cursor goes to the item after the one that is removed; the last item is removed with the cursor going back. -/
def delAt (t : Deck α) (index : Nat) : Deck α :=
  if index < t.items.length then
    ⟨t.items.eraseIdx index, if index + 1 = t.items.length then index - 1 else index⟩
  else t

/-- A call on the sequence. Calls that are not about one column do nothing. -/
def step (t : Deck α) : Call α → Ret × Deck α
  | .cnt => (.num t.items.length, t)
  | .get index => let (p, t) := t.moveTo index; (.ptr p, t)
  | .add x mem => let (p, t) := t.add x mem; (.ptr p, t)
  | .ins index x mem => let (p, t) := t.ins index x mem; (.ptr p, t)
  | .delAt index => (.void, t.delAt index)
  | .del => (.void, t.delAt t.pos)
  | .clr => (.void, ⟨[], 0⟩)
  | .next => let (p, t) := t.moveTo (t.pos + 1); (.ptr p, t)
  | .prev => let (p, t) := if t.pos = 0 then (0, t) else t.moveTo (t.pos - 1); (.ptr p, t)
  | .current => (.ptr (t.ptr t.pos), t)
  | .first => let (p, t) := t.moveTo 0; (.ptr p, t)
  | .last => let (p, t) := t.moveTo (t.items.length - 1); (.ptr p, t)
  | _ => (.void, t)

end Deck

/-- The selected column of a context in vector mode holds the deck. -/
structure Ready (k : Nat) (s : Context α) (d : Col) (t : Deck α) : Prop where
  vector : s.mode = .vector
  get : s.state[s.ccol]? = some d
  holds : Holds s s.ccol d t.items
  aim : Aim k d t.items t.pos

/-- What a call on the selected column may do: the column holds the deck `t` after it, items that left are not in memory
any more, new ones were not in it before, and the memory looks the same everywhere else. -/
structure Turn (k : Nat) (s s' : Context α) (items : List (Nat × α)) (t : Deck α) : Prop where
  self : s'.self = s.self
  mode : s'.mode = s.mode
  ccol : s'.ccol = s.ccol
  ncol : s'.ncol = s.ncol
  state : ∃ d', s'.state = s.state.set s.ccol d' ∧ Holds s' s.ccol d' t.items ∧ Aim k d' t.items t.pos
  same : ∀ p, p ∉ addrs items → p ∉ addrs t.items →
    tagAt s'.heap p = tagAt s.heap p ∧ prevAt s'.heap p = prevAt s.heap p ∧ nextAt s'.heap p = nextAt s.heap p
  gone : ∀ p ∈ addrs items, p ∉ addrs t.items → tagAt s'.heap p = none
  fresh : ∀ p ∈ addrs t.items, p ∉ addrs items → tagAt s.heap p = none

section Calls
variable {k : Nat} {s : Context α} {d : Col} {t : Deck α}

/-- A call that only moves the cursor. -/
theorem Ready.cursor (ready : Ready k s d t) {d' : Col} (row : SameRow d d') {pos : Nat} (aim : Aim k d' t.items pos) :
    Turn k s (s.setCol s.ccol d') t.items { t with pos := pos } := by
  refine ⟨rfl, rfl, rfl, rfl, ⟨d', rfl, ?_, aim⟩, fun p _ _ => ⟨rfl, rfl, rfl⟩, ?_, ?_⟩
  · exact ready.holds.congr rfl (fun _ _ => rfl) (fun _ _ => rfl) (fun _ _ => rfl) row.first row.last row.count
  · exact fun p member out => absurd member out
  · exact fun p member out => absurd member out

/-- A call that changes nothing. -/
theorem Ready.still (ready : Ready k s d t) : Turn k s s t.items t := by
  have turn := ready.cursor ⟨rfl, rfl, rfl⟩ ready.aim
  rw [setCol_same ready.get] at turn
  exact turn

theorem Ready.setCol (ready : Ready k s d t) {d' : Col} (row : SameRow d d') {pos : Nat} (aim : Aim k d' t.items pos) :
    Ready k (s.setCol s.ccol d') d' { t with pos := pos } := by
  refine ⟨ready.vector, setCol_get ready.get d', ?_, aim⟩
  exact ready.holds.congr rfl (fun _ _ => rfl) (fun _ _ => rfl) (fun _ _ => rfl) row.first row.last row.count

/-- A call after the cursor was moved. -/
theorem Turn.of_setCol {s' : Context α} {d' : Col} {items : List (Nat × α)} {t : Deck α}
    (turn : Turn k (s.setCol s.ccol d') s' items t) : Turn k s s' items t := by
  obtain ⟨self, mode, ccol, ncol, ⟨d'', state, holds, aim⟩, same, gone, fresh⟩ := turn
  refine ⟨self, mode, ccol, ncol, ⟨d'', ?_, holds, aim⟩, same, gone, fresh⟩
  rw [state]
  simp [Context.setCol]

/-! ## `ll_add` -/

theorem Ready.fresh_outside (ready : Ready k s d t) {mem : Nat} (fresh : tagAt s.heap mem = none) :
    mem ∉ addrs t.items := by
  intro member
  have live := ready.holds.isSome member
  rw [fresh] at live
  cases live

/-- The memory `h` is that of `s` with a new item between two parts of a row. -/
structure Inserted (s : Context α) (h : Nat → Option (Item α)) (l r : List (Nat × α)) (mem : Nat) (x : α) : Prop where
  prevs : ∀ q, prevAt h q = if q = mem then (addrs l).getLastD 0 else
    if q = (addrs r).headD 0 ∧ (addrs r).headD 0 ≠ 0 then mem else prevAt s.heap q
  nexts : ∀ q, nextAt h q = if q = mem then (addrs r).headD 0 else
    if q = (addrs l).getLastD 0 ∧ (addrs l).getLastD 0 ≠ 0 then mem else nextAt s.heap q
  tags : ∀ q, tagAt h q = if q = mem then some (s.self, s.ccol, x) else tagAt s.heap q

theorem Inserted.turn {h : Nat → Option (Item α)} {l r : List (Nat × α)} {mem : Nat} {x : α}
    (inserted : Inserted s h l r mem x) (ready : Ready k s d t) (split : t.items = l ++ r) (nonnull : mem ≠ 0)
    (fresh : tagAt s.heap mem = none) {d' : Col} {pos : Nat} (first : d'.pFirst = (addrs (l ++ (mem, x) :: r)).headD 0)
    (last : d'.pLast = (addrs (l ++ (mem, x) :: r)).getLastD 0) (count : d'.count = incr d.count)
    (aim : Aim k d' (l ++ (mem, x) :: r) pos) :
    Turn k s ((s.withHeap h).setCol s.ccol d') t.items ⟨l ++ (mem, x) :: r, pos⟩ := by
  have holds := ready.holds
  have out := ready.fresh_outside fresh
  rw [split] at holds out ⊢
  have linked := holds.linked
  rw [addrs_append] at linked out
  refine ⟨rfl, rfl, rfl, rfl, ⟨d', rfl, ⟨?_, ?_, first, last, ?_⟩, aim⟩, ?_, ?_, ?_⟩
  · intro a member
    refine (inserted.tags a.1).trans ?_
    rcases List.mem_cons.mp (List.perm_middle.mem_iff.mp member) with rfl | old
    · exact if_pos rfl
    · have other : a.1 ≠ mem := by
        rintro rfl
        exact out (addrs_append l r ▸ mem_addrs.mpr ⟨a, old, rfl⟩)
      exact (if_neg other).trans (holds.live a old)
  · rw [addrs_append, addrs_cons]
    have some : ∀ y ∈ mem :: (addrs l ++ addrs r), y ≠ 0 := by
      intro y member
      rcases List.mem_cons.mp member with rfl | old
      · exact nonnull
      · rintro rfl
        exact linked.nonnull old
    apply linked.insert out nonnull
    · intro y member
      refine (inserted.prevs y).trans ?_
      rw [ite_nonnull (some y member)]
    · intro y member
      refine (inserted.nexts y).trans ?_
      rw [ite_nonnull (some y member)]
  · rw [count, holds.count]
    simp [incr, Nat.add_assoc]
  · intro p old new
    rw [addrs_append, addrs_cons, List.perm_middle.mem_iff, List.mem_cons, not_or] at new
    rw [addrs_append, List.mem_append, not_or] at old
    have before : ¬ (p = (addrs r).headD 0 ∧ (addrs r).headD 0 ≠ 0) := by
      rintro ⟨rfl, some⟩
      exact old.2 (headD_mem_addrs some)
    have after : ¬ (p = (addrs l).getLastD 0 ∧ (addrs l).getLastD 0 ≠ 0) := by
      rintro ⟨rfl, some⟩
      exact old.1 (getLastD_mem_addrs some)
    refine ⟨(inserted.tags p).trans (if_neg new.1), ?_, ?_⟩
    · exact (inserted.prevs p).trans ((if_neg new.1).trans (if_neg before))
    · exact (inserted.nexts p).trans ((if_neg new.1).trans (if_neg after))
  · intro p member gone
    rw [addrs_append, addrs_cons, List.perm_middle.mem_iff, ← addrs_append] at gone
    exact absurd (List.mem_cons_of_mem _ member) gone
  · intro p member new
    rw [addrs_append, addrs_cons, List.perm_middle.mem_iff, List.mem_cons, ← addrs_append] at member
    rcases member with rfl | old
    · exact fresh
    · exact absurd old new

/-- What `ll_add` does to the memory: the new item comes after the last one, and the last one is linked to it. -/
theorem add_memory (get : s.state[s.ccol]? = some d) {mem : Nat} (nonnull : mem ≠ 0)
    (valid : Valid s.heap d.pLast) (x : α) :
    ∃ h, s.add x mem = some (mem + hdrSize, (s.withHeap h).setCol s.ccol
        { pLast := mem, pCurrent := mem, pFirst := if d.pFirst = 0 then mem else d.pFirst, current := d.count,
          count := incr d.count }) ∧
      (∀ q, prevAt h q = if q = mem then d.pLast else prevAt s.heap q) ∧
      (∀ q, nextAt h q = if q = mem then s.mode.ring d.pFirst else
        if q = d.pLast ∧ d.pLast ≠ 0 then mem else nextAt s.heap q) ∧
      ∀ q, tagAt h q = if q = mem then some (s.self, s.ccol, x) else tagAt s.heap q := by
  let blank : Context α := s.withHeap (Function.update s.heap mem (some ⟨s.self, s.ccol, 0, 0, x⟩))
  have valid' : Valid blank.heap d.pLast := by
    intro some
    simp only [blank, withHeap_heap, tagAt_update]
    split
    · rfl
    · exact valid some
  obtain ⟨h, write, prevs, nexts, tags⟩ := setNextIf_spec valid' mem
  let it : Item α := ⟨s.self, s.ccol, d.pLast, s.mode.ring d.pFirst, x⟩
  refine ⟨Function.update h mem (some it), ?_, ?_, ?_, ?_⟩
  · have get' : (s.withHeap (Function.update h mem (some it))).state[s.ccol]? = some d := get
    simp only [blank] at write
    simp only [Context.add, nonnull, if_false, get, Option.bind_eq_bind, Option.bind_some, write, put_eq,
      withHeap_withHeap, withHeap_heap, withHeap_mode, withHeap_self, withHeap_ccol]
    exact congrArg (fun u => some (mem + hdrSize, u)) (modCol_eq get' _)
  · intro q
    simp only [prevAt_update, prevs, blank, withHeap_heap, it]
    split <;> rfl
  · intro q
    simp only [nextAt_update, nexts, blank, withHeap_heap, it]
    split <;> rfl
  · intro q
    simp only [tagAt_update, tags, blank, withHeap_heap, it]
    split <;> rfl

theorem add_spec (ready : Ready k s d t) {mem : Nat} (nonnull : mem ≠ 0) (fresh : tagAt s.heap mem = none)
    (index : k ≤ t.items.length + 1 → t.items.length < 2 ^ 32) (x : α) :
    ∃ s', s.add x mem = some (mem + hdrSize, s') ∧ Turn k s s' t.items ⟨t.items ++ [(mem, x)], t.items.length⟩ := by
  have holds := ready.holds
  have valid : Valid s.heap d.pLast := by
    rw [holds.last]
    exact holds.valid_last (List.Subset.refl _)
  obtain ⟨h, call, prevs, nexts, tags⟩ := add_memory ready.get nonnull valid x
  have inserted : Inserted s h t.items [] mem x := by
    rw [holds.last] at prevs nexts
    refine ⟨fun q => ?_, fun q => ?_, tags⟩
    · rw [prevs]
      simp
    · rw [nexts, ready.vector]
      rfl
  refine ⟨_, call, inserted.turn ready (List.append_nil _).symm nonnull fresh ?_ ?_ rfl ⟨?_, ?_, ?_⟩⟩
  · have first := holds.first
    cases row : t.items with
    | nil => simp_all
    | cons e l =>
      rw [row] at first
      have some : e.1 ≠ 0 := holds.nonnull (mem_addrs.mpr ⟨e, by simp [row], rfl⟩)
      simp only [first]
      exact if_neg some
  · simp
  · simp [addrs]
  · simp
  · intro _ large
    rw [List.length_append] at large
    exact holds.count.trans (Nat.mod_eq_of_lt (index large))

/-! ## `ll_del` -/

/-- The column after `ll_del` of item `p`, in vector mode. -/
def Col.delete (d : Col) (p prev next : Nat) : Col :=
  let d := if next = 0 then d else { d with pCurrent := next }
  let d := if p = d.pFirst then { d with pCurrent := next, pFirst := next } else d
  let d := if p = d.pLast then { d with pCurrent := prev, pLast := prev, current := decr d.current } else d
  { d with count := decr d.count }

/-- What is left depends on whether the item is the first or the last one. -/
theorem Col.delete_eq {d : Col} {p prev next : Nat} {P Q : Prop} [Decidable P] [Decidable Q] (first : p = d.pFirst ↔ P)
    (last : p = d.pLast ↔ Q) (null : next = 0 ↔ Q) :
    d.delete p prev next =
      { pCurrent := if Q then prev else next, pFirst := if P then next else d.pFirst,
        pLast := if Q then prev else d.pLast, count := decr d.count,
        current := if Q then decr d.current else d.current } := by
  unfold Col.delete
  by_cases isFirst : P <;> by_cases isLast : Q <;> simp [first, last, null, isFirst, isLast]

theorem dropFirst_vector (vector : s.mode = .vector) (get : s.state[s.ccol]? = some d) (d₁ : Col) (p next : Nat) :
    (s.setCol s.ccol d₁).dropFirst p next =
      some (s.setCol s.ccol (if p = d₁.pFirst then { d₁ with pCurrent := next, pFirst := next } else d₁)) := by
  have get₁ := setCol_get get d₁
  simp only [Context.dropFirst, setCol_ccol, get₁, Option.bind_eq_bind, Option.bind_some, modCol_eq get₁, setCol_mode,
    vector]
  split
  · rw [setCol_setCol]
  · rfl

theorem dropLast_vector (vector : s.mode = .vector) (get : s.state[s.ccol]? = some d) (d₁ : Col) (p prev : Nat) :
    (s.setCol s.ccol d₁).dropLast p prev = some (s.setCol s.ccol
      (if p = d₁.pLast then { d₁ with pCurrent := prev, pLast := prev, current := decr d₁.current } else d₁)) := by
  have get₁ := setCol_get get d₁
  simp only [Context.dropLast, setCol_ccol, get₁, Option.bind_eq_bind, Option.bind_some, modCol_eq get₁, setCol_mode,
    vector]
  split
  · rw [setCol_setCol]
  · rfl

theorem passCursor_eq (get : s.state[s.ccol]? = some d) (next : Nat) :
    s.passCursor next = s.setCol s.ccol (if next = 0 then d else { d with pCurrent := next }) := by
  unfold Context.passCursor
  split
  · rw [setCol_same get]
  · exact modCol_eq get _

theorem delItem_vector (vector : s.mode = .vector) (get : s.state[s.ccol]? = some d) {p : Nat} {it : Item α}
    (item : s.item p = some it) (prev : Valid s.heap it.prev) (next : Valid s.heap it.next) :
    ∃ h, s.delItem p = some ((s.withHeap (Function.update h p none)).setCol s.ccol (d.delete p it.prev it.next)) ∧
      Relinked s.heap h (fun q => if q = it.next ∧ it.next ≠ 0 then it.prev else prevAt s.heap q)
        (fun q => if q = it.prev ∧ it.prev ≠ 0 then it.next else nextAt s.heap q) := by
  obtain ⟨h₁, write₁, prevs₁, nexts₁, tags₁⟩ := setNextIf_spec prev it.next
  have get₁ : (s.withHeap h₁).state[(s.withHeap h₁).ccol]? = some d := get
  have pass := passCursor_eq get₁ it.next
  have valid : Valid ((s.withHeap h₁).passCursor it.next).heap it.next := by
    rw [pass]
    intro nonnull
    exact (tags₁ it.next).symm ▸ next nonnull
  obtain ⟨h, write, prevs, nexts, tags⟩ := setPrevIf_spec valid it.prev
  rw [pass] at write prevs nexts tags
  refine ⟨h, ?_, ?_, ?_, ?_⟩
  · simp only [Context.delItem, item, Option.bind_eq_bind, Option.bind_some, write₁, pass, write]
    simp only [setCol_withHeap, withHeap_withHeap, withHeap_ccol]
    have get₂ : (s.withHeap h).state[(s.withHeap h).ccol]? = some d := get
    have change := fun d₁ => modCol_eq (setCol_get get₂ d₁) fun c => { c with count := decr c.count }
    have first := dropFirst_vector (s := s.withHeap h) vector get₂
    have last := dropLast_vector (s := s.withHeap h) vector get₂
    simp only [withHeap_ccol] at first last change
    simp only [first, last, Option.bind_some, setCol_ccol, withHeap_ccol, change, setCol_setCol, free_eq,
      setCol_withHeap, withHeap_withHeap, setCol_heap, withHeap_heap]
    rfl
  · intro q
    rw [prevs q]
    exact congrArg (fun v => if q = it.next ∧ it.next ≠ 0 then it.prev else v) (prevs₁ q)
  · intro q
    rw [nexts q]
    exact nexts₁ q
  · intro q
    rw [tags q]
    exact tags₁ q

theorem decr_eq {n : Nat} (positive : 0 < n) (small : n ≤ 2 ^ 32) : decr n = n - 1 := by
  unfold decr
  omega

theorem decr_succ (n : Nat) : decr ((n + 1) % 2 ^ 32) = n % 2 ^ 32 := by
  unfold decr
  omega

/-- An item leaves the row; the cursor was on it. -/
theorem delItem_spec (ready : Ready k s d t) {l r : List (Nat × α)} {e : Nat × α} (split : t.items = l ++ e :: r)
    (here : t.pos = l.length) (index : k ≤ t.items.length → t.items.length < 2 ^ 32) :
    ∃ s', s.delItem e.1 = some s' ∧ Turn k s s' t.items ⟨l ++ r, if r = [] then l.length - 1 else l.length⟩ := by
  have holds := ready.holds
  rw [split] at holds
  obtain ⟨prev, next⟩ := holds.split
  have item := holds.item (e := e) (by simp)
  rw [prev, next] at item
  have valid_prev := holds.valid_last (l := l) (by simp)
  have valid_next := holds.valid_head (r := r) (by simp)
  obtain ⟨h, call, prevs, nexts, tags⟩ := delItem_vector ready.vector ready.get item valid_prev valid_next
  dsimp only at call prevs nexts
  obtain ⟨out_l, out_r⟩ := holds.outside
  have linked := holds.linked
  rw [addrs_append, addrs_cons] at linked
  have tags' : ∀ q, q ≠ e.1 → tagAt (Function.update h e.1 none) q = tagAt s.heap q := by
    intro q other
    rw [tagAt_free, if_neg other, tags]
  have null : (addrs r).headD 0 = 0 ↔ r = [] := by
    have holds := holds
    rw [List.append_cons] at holds
    exact holds.head_iff
  rw [Col.delete_eq holds.first_iff holds.last_iff null] at call
  have aim := ready.aim
  rw [split, here] at aim
  have number : (l ++ e :: r).length = (l ++ r).length + 1 := by simp [Nat.add_assoc]
  have ends : (l ++ r).length = l.length + r.length := List.length_append
  have count := holds.count
  rw [number] at count
  rw [split] at index
  rw [split]
  refine ⟨_, call, rfl, rfl, rfl, rfl, ⟨_, rfl, ⟨?_, ?_, ?_, ?_, ?_⟩, ⟨?_, ?_, ?_⟩⟩, ?_, ?_, ?_⟩
  · intro a member
    have other : a.1 ≠ e.1 := by
      intro same
      rcases List.mem_append.mp member with front | back
      · exact out_l (mem_addrs.mpr ⟨a, front, same⟩)
      · exact out_r (mem_addrs.mpr ⟨a, back, same⟩)
    refine (tags' a.1 other).trans (holds.live a ?_)
    exact List.perm_middle.mem_iff.mpr (List.mem_cons_of_mem _ member)
  · rw [addrs_append]
    have some : ∀ y ∈ addrs l ++ addrs r, y ≠ 0 ∧ y ≠ e.1 := by
      intro y member
      constructor
      · rintro rfl
        exact linked.nonnull (List.perm_middle.mem_iff.mpr (List.mem_cons_of_mem _ member))
      · rintro rfl
        rcases List.mem_append.mp member with front | back
        · exact out_l front
        · exact out_r back
    apply linked.erase
    · intro y member
      refine (prevAt_free _ _ _).trans ?_
      rw [if_neg (some y member).2, prevs, ite_nonnull (some y member).1]
    · intro y member
      refine (nextAt_free _ _ _).trans ?_
      rw [if_neg (some y member).2, nexts, ite_nonnull (some y member).1]
  · rw [holds.first]
    cases l <;> simp
  · rw [holds.last]
    cases r with
    | nil => simp
    | cons a r => simp
  · exact (congrArg decr count).trans (decr_succ _)
  · cases r with
    | nil =>
      dsimp only
      rw [if_pos rfl, if_pos rfl, List.append_nil, List.getLastD_eq_getLast?, List.getLast?_eq_getElem?,
        List.getD_eq_getElem?_getD, length_addrs]
    | cons a r => simp
  · intro some
    have positive := List.length_pos_of_ne_nil some
    dsimp only at positive ⊢
    split
    · omega
    · next more =>
      have := List.length_pos_of_ne_nil more
      omega
  · intro some large
    have positive := List.length_pos_of_ne_nil some
    dsimp only at positive large ⊢
    rw [aim.index (by simp) (by omega)]
    split
    · next none =>
      have empty : r.length = 0 := List.length_eq_zero_iff.mpr none
      exact decr_eq (by omega) (by omega)
    · rfl
  · intro p old new
    rw [addrs_append, addrs_cons, List.perm_middle.mem_iff, List.mem_cons, not_or] at old
    obtain ⟨other, out⟩ := old
    rw [List.mem_append, not_or] at out
    have before : ¬ (p = (addrs r).headD 0 ∧ (addrs r).headD 0 ≠ 0) := by
      rintro ⟨rfl, some⟩
      exact out.2 (headD_mem_addrs some)
    have after : ¬ (p = (addrs l).getLastD 0 ∧ (addrs l).getLastD 0 ≠ 0) := by
      rintro ⟨rfl, some⟩
      exact out.1 (getLastD_mem_addrs some)
    refine ⟨tags' p other, ?_, ?_⟩
    · exact (prevAt_free _ _ _).trans ((if_neg other).trans ((prevs p).trans (if_neg before)))
    · exact (nextAt_free _ _ _).trans ((if_neg other).trans ((nexts p).trans (if_neg after)))
  · intro p member out
    rw [addrs_append, addrs_cons, List.perm_middle.mem_iff, List.mem_cons, ← addrs_append] at member
    rcases member with rfl | inside
    · exact (tagAt_free _ _ _).trans (if_pos rfl)
    · exact absurd inside out
  · intro p member out
    rw [addrs_append] at member
    rw [addrs_append, addrs_cons, List.perm_middle.mem_iff] at out
    exact absurd (List.mem_cons_of_mem _ member) out

theorem split_at {A : Type} {items : List A} {i : Nat} (inside : i < items.length) :
    ∃ l r, items = l ++ items[i] :: r ∧ l.length = i :=
  ⟨items.take i, items.drop (i + 1), by simp, by simp; omega⟩

theorem Deck.delAt_split {l r : List (Nat × α)} {e : Nat × α} (split : t.items = l ++ e :: r) :
    t.delAt l.length = ⟨l ++ r, if r = [] then l.length - 1 else l.length⟩ := by
  have number : t.items.length = l.length + (r.length + 1) := by rw [split, List.length_append, List.length_cons]
  have last : l.length + 1 = t.items.length ↔ r = [] := by
    rw [← List.length_eq_zero_iff]
    omega
  have erase : t.items.eraseIdx l.length = l ++ r := by
    rw [split, List.eraseIdx_append_of_length_le (Nat.le_refl _), Nat.sub_self, List.eraseIdx_cons_zero]
  unfold Deck.delAt
  rw [if_pos (by omega), erase]
  simp only [last]

/-- `ll_del` of the current item. -/
theorem del_spec (ready : Ready k s d t) (index : k ≤ t.items.length → t.items.length < 2 ^ 32) :
    ∃ s', s.del = some s' ∧ Turn k s s' t.items (t.delAt t.pos) := by
  simp only [Context.del, ready.get, Option.bind_eq_bind, Option.bind_some]
  by_cases none : t.items = []
  · have null : d.pCurrent = 0 := by rw [ready.aim.pointer, none]; rfl
    refine ⟨s, if_pos null, ?_⟩
    rw [Deck.delAt, if_neg (by simp [none])]
    exact ready.still
  · have inside := ready.aim.inside none
    have pointer := ready.aim.ptr inside
    have nonnull := ready.holds.nonnull (mem_addrs.mpr ⟨_, List.getElem_mem inside, rfl⟩)
    obtain ⟨l, r, split, length⟩ := split_at inside
    have deck := Deck.delAt_split split
    rw [length] at deck
    obtain ⟨s', call, turn⟩ := delItem_spec ready split length.symm index
    rw [length] at turn
    rw [if_neg (pointer ▸ nonnull), pointer, deck]
    exact ⟨s', call, turn⟩

/-- `ll_del` of an index. -/
theorem delAt_spec (ready : Ready k s d t) (few : k ≤ 2) (short : t.items.length < 2 ^ 32) (index : Nat) :
    ∃ s', s.delAt index = some s' ∧ Turn k s s' t.items (t.delAt index) := by
  unfold Context.delAt
  by_cases inside : index < t.items.length
  · obtain ⟨d', get, row, aim⟩ := getHdr_spec ready.get ready.holds ready.aim few short inside
    have nonnull := ready.holds.nonnull (mem_addrs.mpr ⟨_, List.getElem_mem inside, rfl⟩)
    obtain ⟨l, r, split, length⟩ := split_at inside
    obtain ⟨s', call, turn⟩ := delItem_spec (ready.setCol row aim) split length.symm fun _ => short
    refine ⟨s', ?_, ?_⟩
    · simp only [get, Option.bind_eq_bind, Option.bind_some, if_neg nonnull]
      exact call
    · rw [← length, Deck.delAt_split split]
      exact turn.of_setCol
  · have count : d.count ≤ index := by
      rw [ready.holds.count, Nat.mod_eq_of_lt short]
      omega
    refine ⟨s, ?_, ?_⟩
    · simp [getHdr_outside ready.get count]
    · rw [Deck.delAt, if_neg inside]
      exact ready.still

/-! ## The cursor -/

theorem Deck.ptr_eq {i : Nat} (inside : i < t.items.length) : t.ptr i = t.items[i].1 + hdrSize := by
  simp [Deck.ptr, inside]

theorem Ready.count (ready : Ready k s d t) (short : t.items.length < 2 ^ 32) : d.count = t.items.length := by
  rw [ready.holds.count, Nat.mod_eq_of_lt short]

theorem get_spec (ready : Ready k s d t) (few : k ≤ 2) (short : t.items.length < 2 ^ 32) (index : Nat) :
    ∃ s', s.get index = some ((t.moveTo index).1, s') ∧ Turn k s s' t.items (t.moveTo index).2 := by
  unfold Context.get Deck.moveTo
  by_cases inside : index < t.items.length
  · obtain ⟨d', get, row, aim⟩ := getHdr_spec ready.get ready.holds ready.aim few short inside
    have nonnull := ready.holds.nonnull (mem_addrs.mpr ⟨_, List.getElem_mem inside, rfl⟩)
    rw [if_pos inside, get]
    refine ⟨_, ?_, ready.cursor row aim⟩
    simp only [Option.map_some, Context.dataOf, if_neg nonnull, Deck.ptr_eq inside]
  · rw [if_neg inside, getHdr_outside ready.get (by rw [ready.count short]; omega)]
    exact ⟨s, rfl, ready.still⟩

/-- The cursor is set to an item that is there, with its index. -/
theorem Ready.moved (ready : Ready k s d t) {i p cur : Nat} (inside : i < t.items.length) (pointer : p = t.items[i].1)
    (right : k ≤ t.items.length → cur = i) :
    ∃ s', some (p + hdrSize, s.setCol s.ccol { d with pCurrent := p, current := cur }) = some ((t.moveTo i).1, s') ∧
      Turn k s s' t.items (t.moveTo i).2 := by
  have aim : Aim k { d with pCurrent := p, current := cur } t.items i :=
    ⟨pointer.trans (addrs_getD inside).symm, fun _ => inside, fun _ => right⟩
  have row : SameRow d { d with pCurrent := p, current := cur } := ⟨rfl, rfl, rfl⟩
  have turn := ready.cursor row aim
  rw [Deck.moveTo, if_pos inside, Deck.ptr_eq inside, ← pointer]
  exact ⟨_, rfl, turn⟩

/-- There is no item to go to. -/
theorem Ready.unmoved (ready : Ready k s d t) {i : Nat} (outside : t.items.length ≤ i) :
    ∃ s', some (0, s) = some ((t.moveTo i).1, s') ∧ Turn k s s' t.items (t.moveTo i).2 := by
  rw [Deck.moveTo, if_neg (by omega)]
  exact ⟨s, rfl, ready.still⟩

theorem Ready.item_nonnull (ready : Ready k s d t) {i : Nat} (inside : i < t.items.length) : t.items[i].1 ≠ 0 :=
  ready.holds.nonnull (mem_addrs.mpr ⟨_, List.getElem_mem inside, rfl⟩)

theorem Ready.empty (ready : Ready k s d t) (none : t.items = []) : d.pCurrent = 0 ∧ d.pFirst = 0 ∧ d.pLast = 0 := by
  rw [ready.aim.pointer, ready.holds.first, ready.holds.last, none]
  exact ⟨rfl, rfl, rfl⟩

theorem next_spec (ready : Ready k s d t) (index : k ≤ t.items.length → t.items.length < 2 ^ 32) :
    ∃ s', s.next = some ((t.moveTo (t.pos + 1)).1, s') ∧ Turn k s s' t.items (t.moveTo (t.pos + 1)).2 := by
  simp only [Context.next, ready.get, Option.bind_eq_bind, Option.bind_some]
  by_cases none : t.items = []
  · rw [if_pos (ready.empty none).1]
    exact ready.unmoved (by simp [none])
  · have inside := ready.aim.inside none
    have pointer := ready.aim.ptr inside
    have item := ready.holds.item (List.getElem_mem inside)
    rw [pointer, if_neg (ready.item_nonnull inside), item]
    simp only [Option.bind_some, ready.holds.next_get inside, modCol_eq ready.get]
    by_cases more : t.pos + 1 < t.items.length
    · rw [addrs_getD more, if_neg (ready.item_nonnull more)]
      apply ready.moved more rfl
      intro large
      have small := index large
      rw [ready.aim.index none large, incr, Nat.mod_eq_of_lt (by omega)]
    · rw [if_pos (by simp [List.getD_eq_getElem?_getD, more])]
      exact ready.unmoved (by omega)

theorem prev_spec (ready : Ready k s d t) (index : k ≤ t.items.length → t.items.length < 2 ^ 32) :
    ∃ s', s.prev = some ((if t.pos = 0 then (0, t) else t.moveTo (t.pos - 1)).1, s') ∧
      Turn k s s' t.items (if t.pos = 0 then (0, t) else t.moveTo (t.pos - 1)).2 := by
  simp only [Context.prev, ready.get, Option.bind_eq_bind, Option.bind_some]
  by_cases none : t.items = []
  · rw [if_pos (ready.empty none).1]
    split
    · exact ⟨s, rfl, ready.still⟩
    · exact ready.unmoved (by simp [none])
  · have inside := ready.aim.inside none
    have pointer := ready.aim.ptr inside
    have item := ready.holds.item (List.getElem_mem inside)
    rw [pointer, if_neg (ready.item_nonnull inside), item]
    simp only [Option.bind_some, ready.holds.prev_get inside, modCol_eq ready.get]
    by_cases start : t.pos = 0
    · simp only [if_pos start, if_true]
      exact ⟨s, rfl, ready.still⟩
    · have before : t.pos - 1 < t.items.length := by omega
      simp only [if_neg start]
      rw [addrs_getD before, if_neg (ready.item_nonnull before)]
      apply ready.moved before rfl
      intro large
      have small := index large
      rw [ready.aim.index none large, decr_eq (by omega) (by omega)]

theorem first_spec (ready : Ready k s d t) :
    ∃ s', s.first = some ((t.moveTo 0).1, s') ∧ Turn k s s' t.items (t.moveTo 0).2 := by
  simp only [Context.first, ready.get, Option.bind_eq_bind, Option.bind_some, modCol_eq ready.get]
  by_cases none : t.items = []
  · rw [if_pos (ready.empty none).2.1]
    exact ready.unmoved (by simp [none])
  · have inside := List.length_pos_of_ne_nil none
    have first : d.pFirst = t.items[0].1 := by rw [ready.holds.first, headD_addrs inside]
    rw [if_neg (first ▸ ready.item_nonnull inside)]
    exact ready.moved inside first fun _ => rfl

theorem last_spec (ready : Ready k s d t) (index : k ≤ t.items.length → t.items.length < 2 ^ 32) :
    ∃ s', s.last = some ((t.moveTo (t.items.length - 1)).1, s') ∧
      Turn k s s' t.items (t.moveTo (t.items.length - 1)).2 := by
  simp only [Context.last, ready.get, Option.bind_eq_bind, Option.bind_some, modCol_eq ready.get]
  by_cases none : t.items = []
  · rw [if_pos (ready.empty none).2.2]
    exact ready.unmoved (by simp [none])
  · have positive := List.length_pos_of_ne_nil none
    have inside : t.items.length - 1 < t.items.length := by omega
    have last : d.pLast = t.items[t.items.length - 1].1 := by rw [ready.holds.last, getLastD_addrs_get inside]
    rw [if_neg (last ▸ ready.item_nonnull inside)]
    apply ready.moved inside last
    intro large
    have small := index large
    rw [ready.count small, decr_eq positive (by omega)]

theorem current_spec (ready : Ready k s d t) : s.current = some (t.ptr t.pos) := by
  simp only [Context.current, ready.get, Option.map_some]
  by_cases none : t.items = []
  · rw [(ready.empty none).1]
    simp [Deck.ptr, none, Context.dataOf]
  · have inside := ready.aim.inside none
    rw [ready.aim.ptr inside, Deck.ptr_eq inside, Context.dataOf, if_neg (ready.item_nonnull inside)]

/-! ## `ll_ins` -/

/-- The item before the place is linked to the new one, or the new one becomes the first. -/
theorem linkBefore_spec (ready : Ready k s d t) {l r : List (Nat × α)} (split : t.items = l ++ r)
    (few : k ≤ 2) (short : t.items.length < 2 ^ 32) (mem : Nat) :
    ∃ h d', s.linkBefore l.length mem = Option.some ((addrs l).getLastD 0, (s.withHeap h).setCol s.ccol d') ∧
      d'.pFirst = (if l = [] then mem else d.pFirst) ∧ d'.pLast = d.pLast ∧ d'.count = d.count ∧
      Relinked s.heap h (prevAt s.heap)
        (fun q => if q = (addrs l).getLastD 0 ∧ (addrs l).getLastD 0 ≠ 0 then mem else nextAt s.heap q) := by
  unfold Context.linkBefore
  by_cases front : l = []
  · subst front
    rw [if_neg (by simp), modCol_eq ready.get]
    refine ⟨s.heap, _, rfl, rfl, rfl, rfl, fun q => rfl, fun q => ?_, fun q => rfl⟩
    simp
  · have positive := List.length_pos_of_ne_nil front
    have number : t.items.length = l.length + r.length := by rw [split, List.length_append]
    obtain ⟨d', get, row, aim⟩ := getHdr_spec ready.get ready.holds ready.aim few short
      (show l.length - 1 < t.items.length by omega)
    have last := getLastD_addrs split front (by omega)
    have valid : Valid (s.setCol s.ccol d').heap ((addrs l).getLastD 0) :=
      ready.holds.valid_last (by rw [split]; simp)
    obtain ⟨h, write, relinked⟩ := setNextIf_spec valid mem
    refine ⟨h, d', ?_, ?_, row.last, row.count, relinked⟩
    · simp only [if_pos positive, get, Option.bind_eq_bind, Option.bind_some, last, write, setCol_withHeap]
    · rw [if_neg front, row.first]

theorem insertIdx_split {A : Type} (l r : List A) (a : A) : (l ++ r).insertIdx l.length a = l ++ a :: r := by
  induction l with
  | nil => simp
  | cons b l ih => simp [ih]

/-- The new item is written, with null links. -/
theorem Ready.put (ready : Ready k s d t) {mem : Nat} (fresh : tagAt s.heap mem = none) (it : Item α) :
    Ready k (s.put mem it) d t := by
  have out := ready.fresh_outside fresh
  have other : ∀ p ∈ addrs t.items, p ≠ mem := by
    rintro p member rfl
    exact out member
  refine ⟨ready.vector, ready.get, ?_, ready.aim⟩
  exact ready.holds.congr rfl (fun p member => (tagAt_update _ _ _ _).trans (if_neg (other p member)))
    (fun p member => (prevAt_update _ _ _ _).trans (if_neg (other p member)))
    (fun p member => (nextAt_update _ _ _ _).trans (if_neg (other p member))) rfl rfl rfl

/-- The links of the new item and of the one after it are written. -/
theorem linkNew_spec {mem prev next : Nat} (nonnull : mem ≠ 0) (new : (tagAt s.heap mem).isSome) (some : next ≠ 0)
    (live : (tagAt s.heap next).isSome) (differ : next ≠ mem) :
    ∃ h, (∀ g : Context α → Option (Nat × Context α), ((s.setPrev mem prev).bind fun s => (s.setNext mem next).bind fun s =>
        (s.setPrev next mem).bind g) = g (s.withHeap h)) ∧
      Relinked s.heap h (fun q => if q = mem then prev else if q = next then mem else prevAt s.heap q)
        (fun q => if q = mem then next else nextAt s.heap q) := by
  obtain ⟨h₁, write₁, prevs₁, nexts₁, tags₁⟩ := setPrev_spec nonnull new prev
  have new₁ : (tagAt (s.withHeap h₁).heap mem).isSome := by
    rw [withHeap_heap, tags₁]
    exact new
  obtain ⟨h₂, write₂, prevs₂, nexts₂, tags₂⟩ := setNext_spec nonnull new₁ next
  have live₂ : (tagAt ((s.withHeap h₁).withHeap h₂).heap next).isSome := by
    rw [withHeap_heap, tags₂, withHeap_heap, tags₁]
    exact live
  obtain ⟨h₃, write₃, prevs₃, nexts₃, tags₃⟩ := setPrev_spec some live₂ mem
  refine ⟨h₃, ?_, ?_, ?_, ?_⟩
  · intro g
    simp only [withHeap_withHeap] at write₂ write₃
    simp only [write₁, write₂, write₃, Option.bind_some]
  · intro q
    simp only [prevs₃, withHeap_heap, prevs₂, prevs₁]
    by_cases here : q = mem
    · rw [if_neg (by rw [here]; exact differ.symm), if_pos here, if_pos here]
    · simp only [if_neg here]
  · intro q
    simp only [nexts₃, withHeap_heap, nexts₂, nexts₁]
  · intro q
    simp only [tags₃, withHeap_heap, tags₂, tags₁]

/-- An item comes into the row, and the cursor is on it. -/
theorem ins_spec (ready : Ready k s d t) (few : k ≤ 2) (short : t.items.length < 2 ^ 32) {index mem : Nat}
    (inside : index < t.items.length) (nonnull : mem ≠ 0) (fresh : tagAt s.heap mem = none) (x : α) :
    ∃ s', s.ins index x mem = some (mem + hdrSize, s') ∧
      Turn k s s' t.items ⟨t.items.insertIdx index (mem, x), index⟩ := by
  obtain ⟨d₁, get, row, aim⟩ := getHdr_spec ready.get ready.holds ready.aim few short inside
  have some := ready.item_nonnull inside
  obtain ⟨l, r, split, rfl⟩ := split_at inside
  generalize t.items[l.length] = e at *
  have out := ready.fresh_outside fresh
  let it : Item α := ⟨s.self, s.ccol, 0, 0, x⟩
  have ready₂ := (ready.setCol row aim).put fresh it
  obtain ⟨h₁, d₂, before, first, last, count, prevs₁, nexts₁, tags₁⟩ :=
    linkBefore_spec ready₂ split few short mem
  simp only [put_eq, setCol_heap, setCol_withHeap, withHeap_withHeap, withHeap_heap, withHeap_ccol, setCol_ccol,
    setCol_setCol] at before prevs₁ nexts₁ tags₁
  have live : (tagAt s.heap e.1).isSome := ready.holds.isSome (mem_addrs.mpr ⟨e, by simp [split], rfl⟩)
  have differ : e.1 ≠ mem := by
    rintro same
    exact out (mem_addrs.mpr ⟨e, by simp [split], same⟩)
  have new : (tagAt ((s.withHeap h₁).setCol s.ccol d₂).heap mem).isSome := by
    simp [tags₁]
  have live₁ : (tagAt ((s.withHeap h₁).setCol s.ccol d₂).heap e.1).isSome := by
    simp [tags₁, differ, live]
  obtain ⟨h, write, prevs, nexts, tags⟩ := linkNew_spec nonnull new some live₁ differ
  simp only [setCol_heap, withHeap_heap] at prevs nexts tags
  let d₃ : Col := { d₂ with pCurrent := mem, current := l.length, count := incr d₂.count }
  have call : s.ins l.length x mem = Option.some (mem + hdrSize, (s.withHeap h).setCol s.ccol d₃) := by
    have get₂ : (s.withHeap h).state[(s.withHeap h).ccol]? = Option.some d := ready.get
    have change := modCol_eq (setCol_get get₂ d₂) fun c =>
      { c with pCurrent := mem, current := l.length, count := incr c.count }
    have other : ¬ (e.1 = 0 ∨ mem = 0) := by
      rintro (null | null)
      · exact some null
      · exact nonnull null
    simp only [Context.ins, ready.get, Option.bind_eq_bind, Option.bind_some, ready.count short, if_pos inside, get,
      if_neg other, put_eq, setCol_heap, setCol_withHeap, setCol_self, setCol_ccol]
    rw [before]
    simp only [Option.bind_some]
    rw [write]
    exact congrArg (fun u => Option.some (mem + hdrSize, u)) (change.trans (setCol_setCol _ _ _ _))
  have inserted : Inserted s h l (e :: r) mem x := by
    refine ⟨?_, ?_, ?_⟩
    · intro q
      rw [prevs, prevs₁, prevAt_update]
      simp only [addrs_cons, List.headD_cons, some, ne_eq, not_false_eq_true, and_true]
      split <;> simp_all
    · intro q
      rw [nexts, nexts₁, nextAt_update]
      simp only [addrs_cons, List.headD_cons]
      split <;> simp_all
    · intro q
      rw [tags, tags₁, tagAt_update]
  have holds := ready.holds
  rw [split] at holds
  refine ⟨_, call, ?_⟩
  rw [split, insertIdx_split, ← split]
  apply inserted.turn ready split nonnull fresh
  · rw [show d₃.pFirst = d₂.pFirst from rfl, first, row.first, holds.first]
    cases l with
    | nil => rfl
    | cons a l => simp
  · rw [show d₃.pLast = d₂.pLast from rfl, last, row.last, holds.last, addrs_append, addrs_append, addrs_cons, addrs_cons,
      addrs_cons, List.append_cons (addrs l) mem, getLastD_append_cons, getLastD_append_cons]
  · rw [show d₃.count = incr d₂.count from rfl, count, row.count]
  · refine ⟨?_, ?_, ?_⟩
    · simp [d₃]
    · intro _
      simp
    · exact fun _ _ => rfl

/-! ## `ll_clr` -/

/-- The loop of `ll_clr` gives the memory of every item in the chain back. -/
theorem clrLoop_spec (get : s.state[s.ccol]? = some d) {r : List (Nat × α)} {b : Nat}
    (chain : Chain (prevAt s.heap) (nextAt s.heap) b (addrs r) 0) (nodup : (addrs r).Nodup) (nonnull : 0 ∉ addrs r)
    (live : ∀ p ∈ addrs r, (tagAt s.heap p).isSome) :
    ∃ h d', Context.clrLoop r.length ((addrs r).headD 0) s = some ((s.withHeap h).setCol s.ccol d') ∧
      ∀ q, h q = if q ∈ addrs r then none else s.heap q := by
  induction r generalizing s d b with
  | nil =>
    refine ⟨s.heap, d, ?_, fun q => rfl⟩
    have same : (s.withHeap s.heap).setCol s.ccol d = s := setCol_same get
    rw [same]
    rfl
  | cons e r ih =>
    rw [addrs_cons] at chain
    obtain ⟨-, next, rest⟩ := chain
    rw [addrs_cons, List.nodup_cons] at nodup
    rw [addrs_cons, List.mem_cons, not_or] at nonnull
    have some : e.1 ≠ 0 := Ne.symm nonnull.1
    obtain ⟨⟨cxt, col, x⟩, tag⟩ := Option.isSome_iff_exists.mp (live e.1 (by simp))
    have item := item_of_tag some tag
    -- the context when the item was given back
    let d₁ : Col := { d with pFirst := (addrs r).headD 0 }
    let s₁ : Context α := (s.withHeap (Function.update s.heap e.1 none)).setCol s.ccol d₁
    have get₁ : s₁.state[s₁.ccol]? = Option.some d₁ := setCol_get (s := s.withHeap _) get d₁
    have change : ((s.free e.1).modCol s.ccol fun c => { c with pFirst := (addrs r).headD 0 }) = s₁ :=
      modCol_eq (s := s.withHeap (Function.update s.heap e.1 none)) get _
    have others : ∀ p ∈ addrs r, p ≠ e.1 := by
      rintro p member rfl
      exact nodup.1 member
    have live₁ : ∀ p ∈ addrs r, (tagAt s₁.heap p).isSome := by
      intro p member
      have tag₁ : tagAt s₁.heap p = tagAt s.heap p := (tagAt_free _ _ _).trans (if_neg (others p member))
      rw [tag₁]
      exact live p (by simp [member])
    have chain₁ : Chain (prevAt s₁.heap) (nextAt s₁.heap) e.1 (addrs r) 0 :=
      rest.congr (fun p member => (prevAt_free _ _ _).trans (if_neg (others p member)))
        (fun p member => (nextAt_free _ _ _).trans (if_neg (others p member)))
    obtain ⟨h, d', loop, left⟩ := ih get₁ chain₁ nodup.2 nonnull.2 live₁
    refine ⟨h, d', ?_, ?_⟩
    · simp only [List.length_cons, addrs_cons, List.headD_cons, Context.clrLoop, if_neg some, item, next, change]
      refine loop.trans ?_
      simp [s₁]
    · intro q
      rw [left q]
      simp only [s₁, setCol_heap, withHeap_heap, Function.update_apply, addrs_cons, List.mem_cons]
      by_cases here : q = e.1
      · simp [here]
      · simp [here]

theorem clr_spec (ready : Ready k s d t) (short : t.items.length < 2 ^ 32) :
    ∃ s', s.clr = some s' ∧ Turn k s s' t.items ⟨[], 0⟩ := by
  have holds := ready.holds
  obtain ⟨h, d', loop, left⟩ := clrLoop_spec ready.get holds.linked.chain holds.linked.nodup holds.linked.nonnull
    fun p member => holds.isSome member
  have get' := setCol_get (s := s.withHeap h) ready.get d'
  refine ⟨(s.withHeap h).setCol s.ccol Col.zero, ?_, rfl, rfl, rfl, rfl, ⟨Col.zero, rfl, ?_, ?_⟩, ?_, ?_, ?_⟩
  · simp only [Context.clr, ready.get, Option.bind_eq_bind, Option.bind_some, ready.count short, holds.first, loop]
    refine congrArg some ((modCol_eq get' _).trans ?_)
    rw [setCol_setCol]
  · exact ⟨fun _ inside => absurd inside List.not_mem_nil, Linked.nil, rfl, rfl, rfl⟩
  · exact ⟨rfl, fun some => absurd rfl some, fun some => absurd rfl some⟩
  · intro p out _
    have same : h p = s.heap p := by rw [left, if_neg out]
    simp only [setCol_heap, withHeap_heap, tagAt, prevAt, nextAt, same, and_self]
  · intro p member _
    have gone : h p = none := by rw [left, if_pos member]
    simp only [setCol_heap, withHeap_heap, tagAt, gone, Option.map_none]
  · intro p inside
    exact absurd inside List.not_mem_nil

/-! ## All calls on a column -/

/-- The memory a call gets from the allocator is not in use. -/
def Call.Fresh (s : Context α) : Call α → Prop
  | .add _ mem => mem ≠ 0 → s.heap mem = none
  | .ins _ _ mem => mem ≠ 0 → s.heap mem = none
  | _ => True

/-- The call is one on the selected column. -/
def Call.OnColumn : Call α → Prop
  | .init _ _ _ | .uninit | .col _ | .sel _ | .mov _ _ | .roll => False
  | _ => True

theorem tagAt_none {h : Nat → Option (Item α)} {p : Nat} : tagAt h p = none ↔ h p = none := Option.map_eq_none_iff

/-- A call on a column returns what the call on the deck returns. -/
theorem step_spec (ready : Ready k s d t) (few : k ≤ 2) (short : t.items.length < 2 ^ 32) {call : Call α}
    (on : call.OnColumn) (fresh : call.Fresh s) :
    ∃ s', s.step call = some ((t.step call).1, s') ∧ Turn k s s' t.items (t.step call).2 := by
  cases call with
  | init | uninit | col | sel | mov | roll => exact absurd on id
  | cnt =>
    refine ⟨s, ?_, ready.still⟩
    simp only [Context.step, Context.cnt, ready.get, Option.map_some, ready.count short, Deck.step]
  | get index =>
    obtain ⟨s', call, turn⟩ := get_spec ready few short index
    exact ⟨s', by simp only [Context.step, call, Option.map_some, Deck.step], turn⟩
  | add x mem =>
    by_cases null : mem = 0
    · refine ⟨s, ?_, ?_⟩
      · simp only [Context.step, Context.add, null, if_true, Option.map_some, Deck.step, Deck.add]
      · simp only [Deck.step, Deck.add, null, if_true]
        exact ready.still
    · obtain ⟨s', call, turn⟩ := add_spec ready null (tagAt_none.mpr (fresh null)) (fun _ => short) x
      refine ⟨s', ?_, ?_⟩
      · simp only [Context.step, call, Option.map_some, Deck.step, Deck.add, if_neg null]
      · simp only [Deck.step, Deck.add, if_neg null]
        exact turn
  | ins index x mem =>
    by_cases inside : index < t.items.length
    · by_cases null : mem = 0
      · obtain ⟨d', get, row, aim⟩ := getHdr_spec ready.get ready.holds ready.aim few short inside
        refine ⟨s.setCol s.ccol d', ?_, ?_⟩
        · simp only [Context.step, Context.ins, ready.get, Option.bind_eq_bind, Option.bind_some, ready.count short,
            if_pos inside, get, null, or_true, if_true, Option.map_some, Deck.step, Deck.ins]
        · simp only [Deck.step, Deck.ins, if_pos inside, null, if_true]
          exact ready.cursor row aim
      · obtain ⟨s', call, turn⟩ := ins_spec ready few short inside null (tagAt_none.mpr (fresh null)) x
        refine ⟨s', ?_, ?_⟩
        · simp only [Context.step, call, Option.map_some, Deck.step, Deck.ins, if_pos inside, if_neg null]
        · simp only [Deck.step, Deck.ins, if_pos inside, if_neg null]
          exact turn
    · refine ⟨s, ?_, ?_⟩
      · simp only [Context.step, Context.ins, ready.get, Option.bind_eq_bind, Option.bind_some, ready.count short,
          if_neg inside, Option.map_some, Deck.step, Deck.ins]
      · simp only [Deck.step, Deck.ins, if_neg inside]
        exact ready.still
  | delAt index =>
    obtain ⟨s', call, turn⟩ := delAt_spec ready few short index
    exact ⟨s', by simp only [Context.step, call, Option.map_some, Deck.step], turn⟩
  | del =>
    obtain ⟨s', call, turn⟩ := del_spec ready fun _ => short
    exact ⟨s', by simp only [Context.step, call, Option.map_some, Deck.step], turn⟩
  | clr =>
    obtain ⟨s', call, turn⟩ := clr_spec ready short
    exact ⟨s', by simp only [Context.step, call, Option.map_some, Deck.step], turn⟩
  | next =>
    obtain ⟨s', call, turn⟩ := next_spec ready fun _ => short
    exact ⟨s', by simp only [Context.step, call, Option.map_some, Deck.step], turn⟩
  | prev =>
    obtain ⟨s', call, turn⟩ := prev_spec ready fun _ => short
    exact ⟨s', by simp only [Context.step, call, Option.map_some, Deck.step], turn⟩
  | current =>
    refine ⟨s, ?_, ready.still⟩
    simp only [Context.step, current_spec ready, Option.map_some, Deck.step]
  | first =>
    obtain ⟨s', call, turn⟩ := first_spec ready
    exact ⟨s', by simp only [Context.step, call, Option.map_some, Deck.step], turn⟩
  | last =>
    obtain ⟨s', call, turn⟩ := last_spec ready fun _ => short
    exact ⟨s', by simp only [Context.step, call, Option.map_some, Deck.step], turn⟩

/-- After its turn the column is ready for the next call. -/
theorem Turn.ready {s' : Context α} {t' : Deck α} (turn : Turn k s s' t.items t') (ready : Ready k s d t) :
    ∃ d', Ready k s' d' t' := by
  obtain ⟨d', state, holds, aim⟩ := turn.state
  refine ⟨d', turn.mode.trans ready.vector, ?_, turn.ccol ▸ holds, aim⟩
  rw [state, turn.ccol]
  exact List.getElem?_set_self (List.getElem?_eq_some_iff.mp ready.get).1

end Calls

end PreTeO.Common
