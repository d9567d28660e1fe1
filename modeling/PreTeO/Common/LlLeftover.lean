import PreTeO.Lib.TwoRuns
import PreTeO.Common.LlColumn

/-!
# Lists in memory with leftovers

Two runs with the same calls in memory with different contents. `ll_init` takes the columns as it finds them in the memory
it gets, so that they have to be the same there, without pointers; everything else the list reads it wrote before. The
pointers that calls returned say which items the list knows, and the two memories are the same at these.
-/

namespace PreTeO.Common
set_option autoImplicit false
open PreTeO.Lib

variable {α : Type}

/-- A pointer to an item whose user data some call returned a pointer to, or null. -/
def Known (g : List Nat) (p : Nat) : Prop := p = 0 ∨ p + hdrSize ∈ g

/-- A column all of whose pointers are known. -/
structure Col.Knows (g : List Nat) (d : Col) : Prop where
  current : Known g d.pCurrent
  first : Known g d.pFirst
  last : Known g d.pLast

/-- The same list in two memories that agree on the known items, without links to others. -/
structure Alike (g : List Nat) (s t : Context α) : Prop where
  same : t = s.withHeap t.heap
  heap : ∀ p, p + hdrSize ∈ g → t.heap p = s.heap p
  columns : ∀ d ∈ s.state, d.Knows g
  items : ∀ p it, p + hdrSize ∈ g → s.heap p = some it → Known g it.prev ∧ Known g it.next

/-- A pointer and a list, or any other result and a list, that two calls return. -/
abbrev Alike.Item (g : List Nat) (x y : Nat × Context α) : Prop := y.1 = x.1 ∧ Known g x.1 ∧ Alike g x.2 y.2
abbrev Alike.Flag (g : List Nat) (x y : Bool × Context α) : Prop := y.1 = x.1 ∧ Alike g x.2 y.2
/-- A pointer to user data, which the caller knows then. -/
abbrev Alike.Given (g : List Nat) (x y : Nat × Context α) : Prop := y.1 = x.1 ∧ Alike (x.1 :: g) x.2 y.2

section Known
variable {g g' : List Nat} {p : Nat}

theorem Known.mono (known : Known g p) (more : g ⊆ g') : Known g' p := known.imp_right fun member => more member

theorem Known.zero : Known g 0 := Or.inl rfl

theorem Known.of_data (member : p ∈ g) : Known g (p - hdrSize) := by
  by_cases low : p ≤ hdrSize
  · exact Or.inl (by omega)
  · exact Or.inr (by rwa [Nat.sub_add_cancel (by omega)])

theorem Col.Knows.mono {d : Col} (knows : d.Knows g) (more : g ⊆ g') : d.Knows g' :=
  ⟨knows.current.mono more, knows.first.mono more, knows.last.mono more⟩

end Known

section Alike
variable {g : List Nat} {s t : Context α} {p v : Nat}

namespace Alike

theorem self (alike : Alike g s t) : t.self = s.self := by rw [alike.same]; rfl
theorem mode (alike : Alike g s t) : t.mode = s.mode := by rw [alike.same]; rfl
theorem ccol (alike : Alike g s t) : t.ccol = s.ccol := by rw [alike.same]; rfl
theorem ncol (alike : Alike g s t) : t.ncol = s.ncol := by rw [alike.same]; rfl
theorem pState (alike : Alike g s t) : t.pState = s.pState := by rw [alike.same]; rfl
theorem state (alike : Alike g s t) : t.state = s.state := by rw [alike.same]; rfl

/-- The state of a column. -/
theorem col (alike : Alike g s t) (c : Nat) : Option.Rel (fun d e => e = d ∧ d.Knows g) s.state[c]? t.state[c]? := by
  rw [alike.state]
  cases get : s.state[c]? with
  | none => exact Option.Rel.none
  | some d => exact Option.Rel.some ⟨rfl, alike.columns d (List.mem_of_getElem? get)⟩

theorem selected (alike : Alike g s t) :
    Option.Rel (fun d e => e = d ∧ d.Knows g) s.state[s.ccol]? t.state[t.ccol]? := by
  rw [alike.ccol]
  exact alike.col _

/-- The item at a known pointer. -/
theorem item (alike : Alike g s t) (known : Known g p) :
    Option.Rel (fun it jt => jt = it ∧ Known g it.prev ∧ Known g it.next) (s.item p) (t.item p) := by
  unfold Context.item
  rcases known with null | member
  · rw [if_pos null, if_pos null]
    exact Option.Rel.none
  · by_cases null : p = 0
    · rw [if_pos null, if_pos null]
      exact Option.Rel.none
    · rw [if_neg null, if_neg null, alike.heap p member]
      cases get : s.heap p with
      | none => exact Option.Rel.none
      | some it => exact Option.Rel.some ⟨rfl, alike.items p it member get⟩

/-- More pointers to known items. -/
theorem note (alike : Alike g s t) (known : Known g p) : Alike (Context.dataOf p :: g) s t := by
  have same : ∀ q, q + hdrSize ∈ Context.dataOf p :: g → q + hdrSize ∈ g := by
    intro q member
    rcases List.mem_cons.mp member with new | old
    · unfold Context.dataOf at new
      split at new
      · cases new
      · next some =>
        rw [new]
        exact known.resolve_left some
    · exact old
  have more : g ⊆ Context.dataOf p :: g := List.subset_cons_self _ _
  refine ⟨alike.same, ?_, ?_, ?_⟩
  · exact fun q member => alike.heap q (same q member)
  · exact fun d member => (alike.columns d member).mono more
  · intro q it member get
    obtain ⟨prev, next⟩ := alike.items q it (same q member) get
    exact ⟨prev.mono more, next.mono more⟩

/-! ## Writes -/

/-- A known item is written. -/
theorem put (alike : Alike g s t) (p : Nat) (it : Common.Item α) (prev : Known g it.prev) (next : Known g it.next) :
    Alike g (s.put p it) (t.put p it) := by
  refine ⟨?_, ?_, alike.columns, ?_⟩
  · rw [alike.same]
    rfl
  · intro q member
    simp only [put_eq, withHeap_heap, Function.update_apply, alike.heap q member]
  · intro q jt member get
    simp only [put_eq, withHeap_heap, Function.update_apply] at get
    split at get
    · cases get
      exact ⟨prev, next⟩
    · exact alike.items q jt member get

/-- A new item is written, and gets known. -/
theorem put_new (alike : Alike g s t) (p : Nat) (it : Common.Item α) (prev : Known g it.prev) (next : Known g it.next) :
    Alike ((p + hdrSize) :: g) (s.put p it) (t.put p it) := by
  have more : g ⊆ (p + hdrSize) :: g := List.subset_cons_self _ _
  have same : ∀ q, q ≠ p → q + hdrSize ∈ (p + hdrSize) :: g → q + hdrSize ∈ g := by
    intro q other member
    rcases List.mem_cons.mp member with new | old
    · exact absurd (Nat.add_right_cancel new) other
    · exact old
  refine ⟨?_, ?_, ?_, ?_⟩
  · rw [alike.same]
    rfl
  · intro q member
    simp only [put_eq, withHeap_heap, Function.update_apply]
    split
    · rfl
    · next other => exact alike.heap q (same q other member)
  · exact fun d member => (alike.columns d member).mono more
  · intro q jt member get
    simp only [put_eq, withHeap_heap, Function.update_apply] at get
    split at get
    · cases get
      exact ⟨prev.mono more, next.mono more⟩
    · next other =>
      obtain ⟨prev', next'⟩ := alike.items q jt (same q other member) get
      exact ⟨prev'.mono more, next'.mono more⟩

theorem free (alike : Alike g s t) (p : Nat) : Alike g (s.free p) (t.free p) := by
  refine ⟨?_, ?_, alike.columns, ?_⟩
  · rw [alike.same]
    rfl
  · intro q member
    simp only [free_eq, withHeap_heap, Function.update_apply, alike.heap q member]
  · intro q jt member get
    simp only [free_eq, withHeap_heap, Function.update_apply] at get
    split at get
    · cases get
    · exact alike.items q jt member get

theorem setNext (alike : Alike g s t) (known : Known g p) (value : Known g v) :
    Option.Rel (Alike g) (s.setNext p v) (t.setNext p v) := by
  refine Rel.map (alike.item known) ?_
  rintro _ it ⟨rfl, prev, -⟩
  apply alike.put
  · exact prev
  · exact value

theorem setPrev (alike : Alike g s t) (known : Known g p) (value : Known g v) :
    Option.Rel (Alike g) (s.setPrev p v) (t.setPrev p v) := by
  refine Rel.map (alike.item known) ?_
  rintro _ it ⟨rfl, -, next⟩
  apply alike.put
  · exact value
  · exact next

theorem setNextIf (alike : Alike g s t) (known : Known g p) (value : Known g v) :
    Option.Rel (Alike g) (s.setNextIf p v) (t.setNextIf p v) := by
  unfold Context.setNextIf
  split
  · exact Option.Rel.some alike
  · exact alike.setNext known value

theorem setPrevIf (alike : Alike g s t) (known : Known g p) (value : Known g v) :
    Option.Rel (Alike g) (s.setPrevIf p v) (t.setPrevIf p v) := by
  unfold Context.setPrevIf
  split
  · exact Option.Rel.some alike
  · exact alike.setPrev known value

theorem modCol (alike : Alike g s t) (c : Nat) {f : Col → Col} (keep : ∀ d, d.Knows g → (f d).Knows g) :
    Alike g (s.modCol c f) (t.modCol c f) := by
  refine ⟨?_, alike.heap, ?_, alike.items⟩
  · rw [alike.same]
    rfl
  · intro d member
    obtain ⟨i, get⟩ := List.mem_iff_getElem?.mp member
    simp only [Context.modCol, List.getElem?_modify] at get
    obtain ⟨e, old, new⟩ := Option.map_eq_some_iff.mp get
    have knows := alike.columns e (List.mem_of_getElem? old)
    split at new
    · rw [← new]
      exact keep e knows
    · rw [← new]
      exact knows

/-- A change of the selected column. -/
theorem modSel (alike : Alike g s t) {f : Col → Col} (keep : ∀ d, d.Knows g → (f d).Knows g) :
    Alike g (s.modCol s.ccol f) (t.modCol t.ccol f) := by
  rw [alike.ccol]
  exact alike.modCol _ keep

/-! ## Access -/

theorem seek (alike : Alike g s t) (index count n : Nat) {i : Nat} (known : Known g p) :
    Option.Rel (fun x y => y = x ∧ Known g x.1) (s.seek index count n p i) (t.seek index count n p i) := by
  induction n generalizing p i with
  | zero => exact Option.Rel.some ⟨rfl, known⟩
  | succ n ih =>
    unfold Context.seek
    split
    · have item := alike.item known
      generalize s.item p = x at item
      generalize t.item p = y at item
      cases item with
      | none => exact Option.Rel.none
      | @some it jt related =>
        obtain ⟨rfl, prev, next⟩ := related
        dsimp only
        split
        · split
          · exact Option.Rel.some ⟨rfl, prev⟩
          · exact ih prev
        · exact ih next
    · exact Option.Rel.some ⟨rfl, known⟩

theorem getHdr (alike : Alike g s t) (index : Nat) : Option.Rel (Alike.Item g) (s.getHdr index) (t.getHdr index) := by
  unfold Context.getHdr
  refine Rel.bind alike.selected ?_
  rintro _ d ⟨rfl, knows⟩
  split
  · refine Rel.bind (alike.seek _ _ _ knows.current) ?_
    rintro _ ⟨p, i⟩ ⟨rfl, known⟩
    dsimp only
    split
    · refine Option.Rel.some ⟨rfl, known, alike.modSel ?_⟩
      exact fun e knows => ⟨known, knows.first, knows.last⟩
    · exact Option.Rel.some ⟨rfl, known, alike⟩
  · exact Option.Rel.some ⟨rfl, Known.zero, alike⟩

theorem get (alike : Alike g s t) (index : Nat) : Option.Rel (Alike.Given g) (s.get index) (t.get index) := by
  refine Rel.map (alike.getHdr index) ?_
  rintro ⟨_, u⟩ ⟨p, v⟩ ⟨rfl, known, alike⟩
  exact ⟨rfl, alike.note known⟩

/-! ## Items come in and go out -/

theorem mode_ring (m : Mode) (known : Known g p) : Known g (m.ring p) := by
  cases m with
  | queue => exact known
  | vector => exact Known.zero

theorem add (alike : Alike g s t) (data : α) (mem : Nat) :
    Option.Rel (Alike.Given g) (s.add data mem) (t.add data mem) := by
  unfold Context.add
  split
  · exact Option.Rel.some ⟨rfl, alike.note Known.zero⟩
  rw [alike.self, alike.ccol]
  refine Rel.bind (alike.col _) ?_
  rintro _ d ⟨rfl, knows⟩
  have more : g ⊆ (mem + hdrSize) :: g := List.subset_cons_self _ _
  have new : Known ((mem + hdrSize) :: g) mem := Or.inr List.mem_cons_self
  have alike := alike.put_new mem ⟨s.self, s.ccol, 0, 0, data⟩ Known.zero Known.zero
  have knows := knows.mono more
  refine Rel.bind (alike.setNextIf knows.last new) ?_
  intro u v alike
  rw [alike.self, alike.ccol, alike.mode]
  have alike := alike.put mem ⟨u.self, u.ccol, d.pLast, u.mode.ring d.pFirst, data⟩ knows.last (mode_ring _ knows.first)
  refine Option.Rel.some ⟨rfl, alike.modSel ?_⟩
  intro e knows
  refine ⟨new, ?_, new⟩
  dsimp only
  split
  · exact new
  · exact knows.first

theorem linkBefore (alike : Alike g s t) (index : Nat) {mem : Nat} (new : Known g mem) :
    Option.Rel (Alike.Item g) (s.linkBefore index mem) (t.linkBefore index mem) := by
  unfold Context.linkBefore
  split
  · refine Rel.bind (alike.getHdr _) ?_
    rintro ⟨_, u⟩ ⟨p, v⟩ ⟨rfl, known, alike⟩
    refine Rel.bind (alike.setNextIf known new) ?_
    intro u v alike
    exact Option.Rel.some ⟨rfl, known, alike⟩
  · refine Option.Rel.some ⟨rfl, Known.zero, alike.modSel ?_⟩
    exact fun e knows => ⟨knows.current, new, knows.last⟩

theorem ins (alike : Alike g s t) (index : Nat) (data : α) (mem : Nat) :
    Option.Rel (Alike.Given g) (s.ins index data mem) (t.ins index data mem) := by
  unfold Context.ins
  refine Rel.bind alike.selected ?_
  rintro _ d ⟨rfl, -⟩
  split
  · refine Rel.bind (alike.getHdr index) ?_
    rintro ⟨_, u⟩ ⟨pCur, v⟩ ⟨rfl, known, alike⟩
    dsimp only
    split
    · exact Option.Rel.some ⟨rfl, alike.note Known.zero⟩
    · have more : g ⊆ (mem + hdrSize) :: g := List.subset_cons_self _ _
      have new : Known ((mem + hdrSize) :: g) mem := Or.inr List.mem_cons_self
      have known := known.mono more
      rw [alike.self, alike.ccol]
      have alike := alike.put_new mem ⟨u.self, u.ccol, 0, 0, data⟩ Known.zero Known.zero
      refine Rel.bind (alike.linkBefore index new) ?_
      rintro ⟨_, u⟩ ⟨pPrev, v⟩ ⟨rfl, before, alike⟩
      refine Rel.bind (alike.setPrev new before) ?_
      intro u v alike
      refine Rel.bind (alike.setNext new known) ?_
      intro u v alike
      refine Rel.bind (alike.setPrev known new) ?_
      intro u v alike
      refine Option.Rel.some ⟨rfl, alike.modSel ?_⟩
      exact fun e knows => ⟨new, knows.first, knows.last⟩
  · exact Option.Rel.some ⟨rfl, alike.note Known.zero⟩

theorem dropFirst (alike : Alike g s t) (pCur : Nat) {next : Nat} (known : Known g next) :
    Option.Rel (Alike g) (s.dropFirst pCur next) (t.dropFirst pCur next) := by
  unfold Context.dropFirst
  refine Rel.bind alike.selected ?_
  rintro _ d ⟨rfl, knows⟩
  split
  · have alike := alike.modSel (f := fun c => { c with pCurrent := next, pFirst := next }) fun e knows =>
      ⟨known, known, knows.last⟩
    dsimp only
    rw [alike.mode]
    split
    · exact Option.Rel.some alike
    · exact alike.setNext knows.last known
  · exact Option.Rel.some alike

theorem dropLast (alike : Alike g s t) (pCur : Nat) {prev : Nat} (known : Known g prev) :
    Option.Rel (Alike g) (s.dropLast pCur prev) (t.dropLast pCur prev) := by
  unfold Context.dropLast
  refine Rel.bind alike.selected ?_
  rintro _ d ⟨rfl, knows⟩
  split
  · have alike := alike.modSel (f := fun c => { c with pCurrent := prev, pLast := prev, current := decr c.current })
      fun e knows => ⟨known, knows.first, known⟩
    dsimp only
    rw [alike.mode]
    split
    · exact Option.Rel.some alike
    · exact alike.setNext known knows.first
  · exact Option.Rel.some alike

theorem passCursor (alike : Alike g s t) {next : Nat} (known : Known g next) :
    Alike g (s.passCursor next) (t.passCursor next) := by
  unfold Context.passCursor
  split
  · exact alike
  · exact alike.modSel fun e knows => ⟨known, knows.first, knows.last⟩

theorem delItem (alike : Alike g s t) {pCur : Nat} (known : Known g pCur) :
    Option.Rel (Alike g) (s.delItem pCur) (t.delItem pCur) := by
  unfold Context.delItem
  refine Rel.bind (alike.item known) ?_
  rintro _ it ⟨rfl, prev, next⟩
  refine Rel.bind (alike.setNextIf prev next) ?_
  intro u v alike
  refine Rel.bind ((alike.passCursor next).setPrevIf next prev) ?_
  intro u v alike
  refine Rel.bind (alike.dropFirst pCur next) ?_
  intro u v alike
  refine Rel.bind (alike.dropLast pCur prev) ?_
  intro u v alike
  have alike := alike.modSel (f := fun c => { c with count := decr c.count }) fun e knows =>
    ⟨knows.current, knows.first, knows.last⟩
  exact Option.Rel.some (alike.free pCur)

theorem delAt (alike : Alike g s t) (index : Nat) : Option.Rel (Alike g) (s.delAt index) (t.delAt index) := by
  unfold Context.delAt
  refine Rel.bind (alike.getHdr index) ?_
  rintro ⟨_, u⟩ ⟨p, v⟩ ⟨rfl, known, alike⟩
  dsimp only
  split
  · exact Option.Rel.some alike
  · exact alike.delItem known

theorem del (alike : Alike g s t) : Option.Rel (Alike g) s.del t.del := by
  unfold Context.del
  refine Rel.bind alike.selected ?_
  rintro _ d ⟨rfl, knows⟩
  split
  · exact Option.Rel.some alike
  · exact alike.delItem knows.current

theorem clrLoop (alike : Alike g s t) (n : Nat) (known : Known g p) :
    Option.Rel (Alike g) (Context.clrLoop n p s) (Context.clrLoop n p t) := by
  induction n generalizing p s t with
  | zero => exact Option.Rel.some alike
  | succ n ih =>
    unfold Context.clrLoop
    split
    · exact Option.Rel.some alike
    · have item := alike.item known
      generalize s.item p = x at item
      generalize t.item p = y at item
      cases item with
      | none => exact Option.Rel.none
      | @some it jt related =>
        obtain ⟨rfl, -, next⟩ := related
        refine ih ?_ next
        apply (alike.free p).modSel
        exact fun e knows => ⟨knows.current, next, knows.last⟩

theorem clr (alike : Alike g s t) : Option.Rel (Alike g) s.clr t.clr := by
  unfold Context.clr
  refine Rel.bind alike.selected ?_
  rintro _ d ⟨rfl, knows⟩
  refine Rel.bind (alike.clrLoop _ knows.first) ?_
  intro u v alike
  refine Option.Rel.some (alike.modSel ?_)
  exact fun e _ => ⟨Known.zero, Known.zero, Known.zero⟩

/-! ## Columns -/

theorem sel (alike : Alike g s t) {pData : Nat} (known : Known g (pData - hdrSize)) :
    Option.Rel (Alike.Flag g) (s.sel pData) (t.sel pData) := by
  unfold Context.sel
  refine Rel.bind (alike.item known) ?_
  rintro _ it ⟨rfl, -⟩
  rw [alike.self]
  split
  · refine Rel.bind (alike.col _) ?_
    rintro _ d ⟨rfl, -⟩
    refine Option.Rel.some ⟨rfl, alike.modCol _ ?_⟩
    exact fun e knows => ⟨known, knows.first, knows.last⟩
  · exact Option.Rel.some ⟨rfl, alike⟩

theorem link (alike : Alike g s t) (known : Known g p) (c : Nat) {d : Col} (knows : d.Knows g) :
    Option.Rel (Alike.Flag g) (s.link p c d) (t.link p c d) := by
  unfold Context.link
  split
  · split
    · refine Rel.bind (alike.setNext knows.last known) ?_
      intro u v alike
      refine Rel.bind (alike.setPrev known knows.last) ?_
      intro u v alike
      rw [alike.mode]
      refine Rel.bind (alike.setNext known (mode_ring _ knows.first)) ?_
      intro u v alike
      refine Option.Rel.some ⟨rfl, alike.modCol _ ?_⟩
      exact fun e knows => ⟨knows.current, knows.first, known⟩
    · split
      · refine Rel.bind (alike.setPrev knows.first known) ?_
        intro u v alike
        refine Rel.bind (alike.setNext known knows.first) ?_
        intro u v alike
        rw [alike.mode]
        refine Rel.bind (alike.setPrev known (mode_ring _ knows.last)) ?_
        intro u v alike
        refine Option.Rel.some ⟨rfl, alike.modCol _ ?_⟩
        exact fun e knows => ⟨knows.current, known, knows.last⟩
      · exact Option.Rel.some ⟨rfl, alike⟩
  · have alike := alike.modCol c (f := fun d => { d with pFirst := p, pLast := p, pCurrent := p }) fun e _ =>
      ⟨known, known, known⟩
    dsimp only
    rw [alike.mode]
    split
    · refine Rel.bind (alike.setNext known known) ?_
      intro u v alike
      exact Option.Rel.some ⟨rfl, alike⟩
    · refine Rel.bind (alike.setNext known Known.zero) ?_
      intro u v alike
      refine Rel.bind (alike.setPrev known Known.zero) ?_
      intro u v alike
      exact Option.Rel.some ⟨rfl, alike⟩

theorem unlink {d : Col} (knows : d.Knows g) {prev next : Nat} (before : Known g prev) (after : Known g next) :
    (d.unlink p prev next).Knows g := by
  have first : Known g (if d.pFirst = p then next else d.pFirst) := by
    split
    · exact after
    · exact knows.first
  have last : Known g (if d.pLast = p then prev else d.pLast) := by
    split
    · exact before
    · exact knows.last
  refine ⟨?_, first, last⟩
  unfold Col.unlink
  dsimp only
  split
  · split
    · exact after
    · split
      · exact before
      · exact first
  · exact knows.current

theorem mov (alike : Alike g s t) {pData : Nat} (known : Known g (pData - hdrSize)) (c : Nat) :
    Option.Rel (Alike.Flag g) (s.mov pData c) (t.mov pData c) := by
  unfold Context.mov
  refine Rel.bind (alike.item known) ?_
  rintro _ it ⟨rfl, prev, next⟩
  rw [alike.self, alike.ncol]
  split
  · refine Rel.bind (alike.setNextIf prev next) ?_
    intro u v alike
    refine Rel.bind (alike.setPrevIf next prev) ?_
    intro u v alike
    refine Rel.bind (alike.col _) ?_
    rintro _ _ ⟨rfl, -⟩
    have alike := alike.modCol it.col (f := fun e => e.unlink (pData - hdrSize) it.prev it.next) fun e knows =>
      unlink knows prev next
    refine Rel.bind (alike.col _) ?_
    rintro _ d ⟨rfl, knows⟩
    refine Rel.bind (alike.link known c knows) ?_
    rintro ⟨_, u⟩ ⟨linked, v⟩ ⟨rfl, alike⟩
    dsimp only
    split
    · refine Rel.bind (alike.item known) ?_
      rintro _ moved ⟨rfl, prev, next⟩
      have alike := alike.put (pData - hdrSize) { moved with col := c } prev next
      refine Option.Rel.some ⟨rfl, alike.modCol _ ?_⟩
      exact fun e knows => ⟨knows.current, knows.first, knows.last⟩
    · exact Option.Rel.some ⟨rfl, alike⟩
  · exact Option.Rel.some ⟨rfl, alike⟩

/-! ## The cursor -/

theorem roll (alike : Alike g s t) : Option.Rel (Alike g) s.roll t.roll := by
  unfold Context.roll
  rw [alike.mode]
  split
  · exact Option.Rel.some alike
  · refine Rel.bind alike.selected ?_
    rintro _ d ⟨rfl, knows⟩
    refine Rel.bind (alike.item knows.first) ?_
    rintro _ it ⟨rfl, -, next⟩
    split
    · exact Option.Rel.some alike
    · have alike := alike.modSel (f := fun c => { c with pCurrent := it.next, pFirst := it.next }) fun e knows =>
        ⟨next, next, knows.last⟩
      refine Rel.bind (alike.setNext knows.last knows.first) ?_
      intro u v alike
      refine Rel.bind (alike.setPrev knows.first knows.last) ?_
      intro u v alike
      refine Rel.bind (alike.setNext knows.first next) ?_
      intro u v alike
      refine Rel.bind (alike.setPrev next knows.last) ?_
      intro u v alike
      refine Option.Rel.some (alike.modSel ?_)
      exact fun e last => ⟨last.current, last.first, knows.first⟩

theorem next (alike : Alike g s t) : Option.Rel (Alike.Given g) s.next t.next := by
  unfold Context.next
  refine Rel.bind alike.selected ?_
  rintro _ d ⟨rfl, knows⟩
  split
  · exact Option.Rel.some ⟨rfl, alike.note Known.zero⟩
  · refine Rel.bind (alike.item knows.current) ?_
    rintro _ it ⟨rfl, -, next⟩
    split
    · exact Option.Rel.some ⟨rfl, alike.note Known.zero⟩
    · next some =>
      have alike := alike.modSel (f := fun c => { c with pCurrent := it.next, current := incr c.current }) fun e knows =>
        ⟨next, knows.first, knows.last⟩
      have alike := alike.note next
      rw [Context.dataOf, if_neg some] at alike
      exact Option.Rel.some ⟨rfl, alike⟩

theorem prev (alike : Alike g s t) : Option.Rel (Alike.Given g) s.prev t.prev := by
  unfold Context.prev
  refine Rel.bind alike.selected ?_
  rintro _ d ⟨rfl, knows⟩
  split
  · exact Option.Rel.some ⟨rfl, alike.note Known.zero⟩
  · refine Rel.bind (alike.item knows.current) ?_
    rintro _ it ⟨rfl, prev, -⟩
    split
    · exact Option.Rel.some ⟨rfl, alike.note Known.zero⟩
    · next some =>
      have alike := alike.modSel (f := fun c => { c with pCurrent := it.prev, current := decr c.current }) fun e knows =>
        ⟨prev, knows.first, knows.last⟩
      have alike := alike.note prev
      rw [Context.dataOf, if_neg some] at alike
      exact Option.Rel.some ⟨rfl, alike⟩

theorem first (alike : Alike g s t) : Option.Rel (Alike.Given g) s.first t.first := by
  unfold Context.first
  refine Rel.bind alike.selected ?_
  rintro _ d ⟨rfl, knows⟩
  split
  · exact Option.Rel.some ⟨rfl, alike.note Known.zero⟩
  · next some =>
    have alike := alike.modSel (f := fun c => { c with pCurrent := c.pFirst, current := 0 }) fun e knows =>
      ⟨knows.first, knows.first, knows.last⟩
    have alike := alike.note knows.first
    rw [Context.dataOf, if_neg some] at alike
    exact Option.Rel.some ⟨rfl, alike⟩

theorem last (alike : Alike g s t) : Option.Rel (Alike.Given g) s.last t.last := by
  unfold Context.last
  refine Rel.bind alike.selected ?_
  rintro _ d ⟨rfl, knows⟩
  split
  · exact Option.Rel.some ⟨rfl, alike.note Known.zero⟩
  · next some =>
    have alike := alike.modSel (f := fun c => { c with pCurrent := c.pLast, current := decr c.count }) fun e knows =>
      ⟨knows.last, knows.first, knows.last⟩
    have alike := alike.note knows.last
    rw [Context.dataOf, if_neg some] at alike
    exact Option.Rel.some ⟨rfl, alike⟩

end Alike
end Alike

/-! ## Runs -/

/-- The pointers to user data that calls have returned. -/
def noteRet (g : List Nat) : Ret → List Nat
  | .ptr p => p :: g
  | _ => g

/-- The same calls, with an allocator that returns the same addresses; what the memory for the columns holds may differ. -/
def Call.Same : Call α → Call α → Prop
  | .init ncol mem _, .init ncol' mem' _ => ncol' = ncol ∧ mem' = mem
  | a, b => b = a

/-- The caller has the pointer that he passes from the list. -/
def Call.Given (g : List Nat) : Call α → Prop
  | .sel pData | .mov pData _ => pData ∈ g
  | _ => True

/-- The memory that `ll_init` gets holds the same columns without pointers in both runs. -/
def Call.Clear (s : Context α) : Call α → Call α → Prop
  | .init ncol mem junk, .init _ _ junk' => s.pState = 0 → mem ≠ 0 →
      junk'.take ncol = junk.take ncol ∧ ∀ d ∈ junk.take ncol, d.pCurrent = 0 ∧ d.pFirst = 0 ∧ d.pLast = 0
  | _, _ => True

namespace Alike
variable {g : List Nat} {s t : Context α}

theorem init (alike : Alike g s t) (ncol mem : Nat) {junk junk' : List Col}
    (clear : s.pState = 0 → mem ≠ 0 →
      junk'.take ncol = junk.take ncol ∧ ∀ d ∈ junk.take ncol, d.pCurrent = 0 ∧ d.pFirst = 0 ∧ d.pLast = 0) :
    Alike g (s.init ncol mem junk) (t.init ncol mem junk') := by
  unfold Context.init
  rw [alike.pState]
  split
  · next fresh =>
    by_cases null : mem = 0
    · rw [if_pos null, if_pos null]
      refine ⟨?_, alike.heap, ?_, alike.items⟩
      · rw [alike.same]
        rfl
      · exact fun d member => absurd member List.not_mem_nil
    · rw [if_neg null, if_neg null]
      obtain ⟨same, nulls⟩ := clear fresh null
      refine ⟨?_, alike.heap, ?_, alike.items⟩
      · rw [alike.same, same]
        rfl
      · intro d member
        obtain ⟨current, first, last⟩ := nulls d member
        exact ⟨Or.inl current, Or.inl first, Or.inl last⟩
  · exact alike

theorem uninit (alike : Alike g s t) : Alike g s.uninit t.uninit := by
  unfold Context.uninit
  rw [alike.pState]
  split
  · exact alike
  · refine ⟨?_, alike.heap, ?_, alike.items⟩
    · rw [alike.same]
      rfl
    · exact fun d member => absurd member List.not_mem_nil

theorem choose (alike : Alike g s t) (c : Nat) : Alike g (s.col c) (t.col c) := by
  unfold Context.col
  rw [alike.ncol]
  split
  · refine ⟨?_, alike.heap, alike.columns, alike.items⟩
    rw [alike.same]
    rfl
  · exact alike

/-- A call that returns a pointer. -/
theorem of_given {x y : Option (Nat × Context α)} (given : Option.Rel (Alike.Given g) x y) :
    Option.Rel (fun x y : Ret × Context α => y.1 = x.1 ∧ Alike (noteRet g x.1) x.2 y.2)
      (x.map fun (p, s) => (.ptr p, s)) (y.map fun (p, s) => (.ptr p, s)) := by
  refine Rel.map given ?_
  rintro ⟨_, u⟩ ⟨p, v⟩ ⟨rfl, alike⟩
  exact ⟨rfl, alike⟩

theorem of_flag {x y : Option (Bool × Context α)} (flag : Option.Rel (Alike.Flag g) x y) :
    Option.Rel (fun x y : Ret × Context α => y.1 = x.1 ∧ Alike (noteRet g x.1) x.2 y.2)
      (x.map fun (b, s) => (.flag b, s)) (y.map fun (b, s) => (.flag b, s)) := by
  refine Rel.map flag ?_
  rintro ⟨_, u⟩ ⟨b, v⟩ ⟨rfl, alike⟩
  exact ⟨rfl, alike⟩

theorem of_void {x y : Option (Context α)} (void : Option.Rel (Alike g) x y) :
    Option.Rel (fun x y : Ret × Context α => y.1 = x.1 ∧ Alike (noteRet g x.1) x.2 y.2)
      (x.map fun s => (.void, s)) (y.map fun s => (.void, s)) := by
  refine Rel.map void ?_
  exact fun u v alike => ⟨rfl, alike⟩

/-- Every call returns the same and keeps the lists the same. -/
theorem step (alike : Alike g s t) {a b : Call α} (same : a.Same b) (given : a.Given g) (clear : a.Clear s b) :
    Option.Rel (fun x y => y.1 = x.1 ∧ Alike (noteRet g x.1) x.2 y.2) (s.step a) (t.step b) := by
  cases a with
  | init ncol mem junk =>
    cases b with
    | init _ _ junk' =>
      obtain ⟨rfl, rfl⟩ := same
      exact Option.Rel.some ⟨rfl, alike.init _ _ clear⟩
    | _ => cases same
  | uninit =>
    cases same
    exact Option.Rel.some ⟨rfl, alike.uninit⟩
  | cnt =>
    cases same
    unfold Context.step Context.cnt
    rw [Option.map_map, Option.map_map]
    refine Rel.map alike.selected ?_
    rintro _ d ⟨rfl, -⟩
    exact ⟨rfl, alike⟩
  | get index =>
    cases same
    exact of_given (alike.get index)
  | add data mem =>
    cases same
    exact of_given (alike.add data mem)
  | ins index data mem =>
    cases same
    exact of_given (alike.ins index data mem)
  | delAt index =>
    cases same
    exact of_void (alike.delAt index)
  | del =>
    cases same
    exact of_void alike.del
  | clr =>
    cases same
    exact of_void alike.clr
  | col c =>
    cases same
    exact Option.Rel.some ⟨rfl, alike.choose c⟩
  | sel pData =>
    cases same
    exact of_flag (alike.sel (Known.of_data given))
  | mov pData c =>
    cases same
    exact of_flag (alike.mov (Known.of_data given) c)
  | roll =>
    cases same
    exact of_void alike.roll
  | next =>
    cases same
    exact of_given alike.next
  | prev =>
    cases same
    exact of_given alike.prev
  | current =>
    cases same
    unfold Context.step Context.current
    rw [Option.map_map, Option.map_map]
    refine Rel.map alike.selected ?_
    rintro _ d ⟨rfl, knows⟩
    exact ⟨rfl, alike.note knows.current⟩
  | first =>
    cases same
    exact of_given alike.first
  | last =>
    cases same
    exact of_given alike.last

end Alike

/-- A context before `ll_init`. -/
structure Context.Unused (s : Context α) : Prop where
  pState : s.pState = 0
  state : s.state = []

/-- Two runs of the same calls in memory with different contents return the same, if every `ll_init` gets the same columns
without pointers. -/
theorem leftovers_unseen {s : Context α} (unused : s.Unused) (h : Nat → Option (Item α)) (calls calls' : List (Call α))
    (side : SideBySide Context.step noteRet
      (fun g s _ a b => a.Same b ∧ a.Given g ∧ a.Clear s b) [] s (s.withHeap h) calls calls') :
    (outcome Context.step (s.withHeap h) calls').map Prod.fst = (outcome Context.step s calls).map Prod.fst := by
  have start : Alike [] s (s.withHeap h) := by
    refine ⟨rfl, ?_, ?_, ?_⟩
    · exact fun p member => absurd member List.not_mem_nil
    · intro d member
      rw [unused.state] at member
      exact absurd member List.not_mem_nil
    · exact fun p it member => absurd member List.not_mem_nil
  have runs := two_runs (fun g s t a b alike ok => alike.step ok.1 ok.2.1 ok.2.2) start calls calls' side
  exact Rel.map_eq runs fun _ _ related => related.1

/-- A context before `ll_init`, in an empty memory. -/
def unusedList : Context Nat := ⟨16, .vector, 0, 0, 0, [], fun _ => none⟩

/-- The memory behind the only column, and the memory that the items come from, hold different things. -/
theorem leftovers_unseen_two_calls :
    (outcome Context.step (unusedList.withHeap fun _ => some ⟨1, 2, 3, 4, 5⟩)
      [.init 1 8 [Col.zero, ⟨1, 2, 3, 4, 5⟩], .add 7 100]).map Prod.fst =
    (outcome Context.step unusedList [.init 1 8 [Col.zero], .add 7 100]).map Prod.fst := by
  apply leftovers_unseen ⟨rfl, rfl⟩
  refine ⟨⟨⟨rfl, rfl⟩, trivial, fun _ _ => ⟨rfl, ?_⟩⟩, fun r s t returns returns' => ?_⟩
  · intro d member
    obtain rfl := List.mem_singleton.mp member
    exact ⟨rfl, rfl, rfl⟩
  · cases returns
    cases returns'
    exact ⟨⟨rfl, trivial, trivial⟩, fun _ _ _ _ _ => trivial⟩

/-- With memory of which only the first word is 0, the first `ll_add` follows what the third word holds. -/
theorem leftovers_followed :
    SideBySide Context.step noteRet (fun g _ _ a b => a.Same b ∧ a.Given g) [] unusedList unusedList
      [.init 1 8 [Col.zero], .add 7 100] [.init 1 8 [⟨0, 0, 40, 0, 0⟩], .add 7 100] ∧
    (outcome Context.step unusedList [.init 1 8 [Col.zero], .add 7 100]).map Prod.fst = some [.void, .ptr 125] ∧
    (outcome Context.step unusedList [.init 1 8 [⟨0, 0, 40, 0, 0⟩], .add 7 100]).map Prod.fst = none := by
  refine ⟨?_, rfl, rfl⟩
  refine ⟨⟨⟨rfl, rfl⟩, trivial⟩, fun r s t returns returns' => ?_⟩
  cases returns
  cases returns'
  exact ⟨⟨rfl, trivial⟩, fun _ _ _ _ _ => trivial⟩

end PreTeO.Common
