import PreTeO.Common.LlSequence

/-!
# A list of several columns

A shelf is a row of decks, one of them selected. `ll_mov` takes an item out of its deck and puts it at the end of another
one, and `ll_sel` puts the cursor of its deck on an item. Neither of them keeps the index of the cursor, so that the list
only follows the shelf as long as these calls do not make it wrong.
-/

namespace PreTeO.Common
set_option autoImplicit false
open PreTeO.Lib

/-- The columns, and the number of the selected one. -/
structure Shelf (α : Type) where
  decks : List (Deck α)
  sel : Nat
deriving DecidableEq, Repr

variable {α : Type}

/-- The deck without an item; the cursor stays on its item, and goes from the removed item to the next one, or back if it
was the last. -/
def Deck.remove (t : Deck α) (i : Nat) : Deck α :=
  ⟨t.items.eraseIdx i, if i < t.pos ∨ (i = t.pos ∧ i + 1 = t.items.length) then t.pos - 1 else t.pos⟩

/-- The deck with an item at its end; the cursor goes there if the deck was empty. -/
def Deck.append (t : Deck α) (e : Nat × α) : Deck α := ⟨t.items ++ [e], if t.items = [] then 0 else t.pos⟩

namespace Shelf

/-- The column that has an item, and its index there. -/
def find (u : Shelf α) (p : Nat) : Option (Nat × Nat) :=
  (u.decks.findIdx? fun t => decide (p ∈ addrs t.items)).bind fun c =>
    u.decks[c]?.map fun t => (c, (addrs t.items).idxOf p)

def select (u : Shelf α) (p : Nat) : Bool × Shelf α :=
  match u.find p with
  | none => (false, u)
  | some (c, i) => (true, { u with decks := u.decks.modify c fun t => { t with pos := i } })

/-- The item at index `i` of column `c` goes to the end of column `col`. -/
def transfer (u : Shelf α) (c i col : Nat) : Shelf α :=
  match (u.decks[c]?.bind fun t => t.items[i]?) with
  | none => u
  | some e => { u with decks := (u.decks.modify c fun t => t.remove i).modify col fun t => t.append e }

def move (u : Shelf α) (p col : Nat) : Bool × Shelf α :=
  match u.find p with
  | none => (false, u)
  | some (c, i) => if col ≠ c ∧ col < u.decks.length then (true, u.transfer c i col) else (false, u)

/-- A call on the shelf. -/
def step (u : Shelf α) : Call α → Ret × Shelf α
  | .col c => (.void, if c < u.decks.length then { u with sel := c } else u)
  | .sel pData => let (b, u) := u.select (pData - hdrSize); (.flag b, u)
  | .mov pData col => let (b, u) := u.move (pData - hdrSize) col; (.flag b, u)
  | call =>
    match u.decks[u.sel]? with
    | none => (.void, u)
    | some t => let (r, t) := t.step call; (r, { u with decks := u.decks.set u.sel t })

end Shelf

/-- The list holds the shelf: every column its deck, and every item of the context is in the column it names. -/
structure Shelved (k : Nat) (s : Context α) (u : Shelf α) : Prop where
  vector : s.mode = .vector
  ncol : s.ncol = u.decks.length
  length : s.state.length = u.decks.length
  selected : s.ccol = u.sel
  inside : u.sel < u.decks.length
  column : ∀ (c : Nat) (d : Col) (t : Deck α), s.state[c]? = some d → u.decks[c]? = some t →
    Holds s c d t.items ∧ Aim k d t.items t.pos ∧ t.items.length < 2 ^ 32
  owned : ∀ (p : Nat) (it : Item α), s.heap p = some it → it.cxt = s.self →
    ∃ t, u.decks[it.col]? = some t ∧ p ∈ addrs t.items

section Shelved
variable {k : Nat} {s : Context α} {u : Shelf α}

/-- The state of a column that is there. -/
theorem Shelved.state (shelved : Shelved k s u) {c : Nat} {t : Deck α} (deck : u.decks[c]? = some t) :
    ∃ d, s.state[c]? = some d ∧ Holds s c d t.items ∧ Aim k d t.items t.pos ∧ t.items.length < 2 ^ 32 := by
  have bound := (List.getElem?_eq_some_iff.mp deck).1
  rw [← shelved.length] at bound
  have get := List.getElem?_eq_getElem bound
  exact ⟨_, get, shelved.column c _ t get deck⟩

theorem Shelved.ready (shelved : Shelved k s u) :
    ∃ t d, u.decks[u.sel]? = some t ∧ Ready k s d t ∧ t.items.length < 2 ^ 32 := by
  obtain ⟨t, deck⟩ : ∃ t, u.decks[u.sel]? = some t := ⟨_, List.getElem?_eq_getElem shelved.inside⟩
  obtain ⟨d, get, holds, aim, short⟩ := shelved.state deck
  rw [← shelved.selected] at get holds
  exact ⟨t, d, deck, ⟨shelved.vector, get, holds, aim⟩, short⟩

/-- An item is in one column only. -/
theorem Holds.disjoint {c c' : Nat} {d d' : Col} {items items' : List (Nat × α)} (holds : Holds s c d items)
    (other : Holds s c' d' items') (differ : c ≠ c') {p : Nat} (member : p ∈ addrs items) : p ∉ addrs items' := by
  intro member'
  obtain ⟨e, inside, rfl⟩ := mem_addrs.mp member
  obtain ⟨e', inside', same⟩ := mem_addrs.mp member'
  have tag := holds.live e inside
  have tag' := other.live e' inside'
  rw [same, tag, Option.some.injEq, Prod.mk.injEq, Prod.mk.injEq] at tag'
  exact differ tag'.2.1

theorem tagAt_some {h : Nat → Option (Item α)} {p : Nat} {it : Item α} (get : h p = some it) :
    tagAt h p = some (it.cxt, it.col, it.data) := by
  rw [tagAt, get, Option.map_some]

/-- A call on the selected column leaves the others as they are. -/
theorem Shelved.turn (shelved : Shelved k s u) {t t' : Deck α} {s' : Context α} (deck : u.decks[u.sel]? = some t)
    (turn : Turn k s s' t.items t') (short : t'.items.length < 2 ^ 32) :
    Shelved k s' { u with decks := u.decks.set u.sel t' } := by
  obtain ⟨d, get, holds, -, -⟩ := shelved.state deck
  obtain ⟨d', state, holds', aim'⟩ := turn.state
  rw [shelved.selected] at state holds'
  refine ⟨turn.mode.trans shelved.vector, ?_, ?_, turn.ccol.trans shelved.selected, ?_, ?_, ?_⟩
  · rw [turn.ncol, shelved.ncol, List.length_set]
  · rw [state, List.length_set, List.length_set, shelved.length]
  · rw [List.length_set]
    exact shelved.inside
  · intro c d₁ t₁ get₁ deck₁
    by_cases here : u.sel = c
    · subst here
      rw [state, List.getElem?_set_self (List.getElem?_eq_some_iff.mp get).1] at get₁
      rw [List.getElem?_set_self shelved.inside] at deck₁
      cases get₁
      cases deck₁
      exact ⟨holds', aim', short⟩
    · rw [state, List.getElem?_set_ne here] at get₁
      rw [List.getElem?_set_ne here] at deck₁
      obtain ⟨holds₁, aim₁, short₁⟩ := shelved.column c d₁ t₁ get₁ deck₁
      have same : ∀ p ∈ addrs t₁.items, p ∉ addrs t.items ∧ p ∉ addrs t'.items := by
        intro p member
        have out := holds₁.disjoint holds (Ne.symm here) member
        refine ⟨out, fun new => ?_⟩
        have live := holds₁.isSome member
        rw [turn.fresh p new out] at live
        cases live
      refine ⟨holds₁.congr turn.self ?_ ?_ ?_ rfl rfl rfl, aim₁, short₁⟩
      · exact fun p member => (turn.same p (same p member).1 (same p member).2).1
      · exact fun p member => (turn.same p (same p member).1 (same p member).2).2.1
      · exact fun p member => (turn.same p (same p member).1 (same p member).2).2.2
  · intro p it here mine
    have tag := tagAt_some here
    rw [mine, turn.self] at tag
    by_cases new : p ∈ addrs t'.items
    · obtain ⟨e, member, rfl⟩ := mem_addrs.mp new
      have live := holds'.live e member
      rw [tag, turn.self, Option.some.injEq, Prod.mk.injEq, Prod.mk.injEq] at live
      refine ⟨t', ?_, new⟩
      rw [live.2.1]
      exact List.getElem?_set_self shelved.inside
    · have old : p ∉ addrs t.items := by
        intro member
        rw [turn.gone p member new] at tag
        cases tag
      rw [(turn.same p old new).1] at tag
      obtain ⟨it', get', same'⟩ := Option.map_eq_some_iff.mp tag
      obtain ⟨mine', col', -⟩ : it'.cxt = s.self ∧ it'.col = it.col ∧ it'.data = it.data := by simpa using same'
      obtain ⟨t₁, deck₁, member⟩ := shelved.owned p it' get' mine'
      rw [col'] at deck₁
      refine ⟨t₁, ?_, member⟩
      rw [List.getElem?_set_ne]
      · exact deck₁
      · intro same
        rw [← same, deck] at deck₁
        cases deck₁
        exact old member

/-! ## Finding an item -/

theorem idxOf_split {A : Type} [DecidableEq A] {l r : List A} {a : A} (out : a ∉ l) : (l ++ a :: r).idxOf a = l.length := by
  rw [List.idxOf_append, if_neg out, List.idxOf_cons_self, Nat.zero_add]

theorem Shelved.find (shelved : Shelved k s u) {c : Nat} {t : Deck α} (deck : u.decks[c]? = some t)
    {l r : List (Nat × α)} {e : Nat × α} (split : t.items = l ++ e :: r) : u.find e.1 = some (c, l.length) := by
  obtain ⟨bound, same⟩ := List.getElem?_eq_some_iff.mp deck
  obtain ⟨d, -, holds, -, -⟩ := shelved.state deck
  have member : e.1 ∈ addrs t.items := mem_addrs.mpr ⟨e, by simp [split], rfl⟩
  have column : (u.decks.findIdx? fun t => decide (e.1 ∈ addrs t.items)) = some c := by
    rw [List.findIdx?_eq_some_iff_getElem]
    refine ⟨bound, by simpa [same] using member, ?_⟩
    intro j before
    obtain ⟨d', -, holds', -, -⟩ := shelved.state (List.getElem?_eq_getElem (show j < u.decks.length by omega))
    have out := holds.disjoint holds' (by omega) member
    simpa using out
  rw [split] at holds
  unfold Shelf.find
  rw [column, Option.bind_some, deck, Option.map_some, split, addrs_append, addrs_cons, idxOf_split holds.outside.1,
    length_addrs]

theorem Shelved.find_none (shelved : Shelved k s u) {p : Nat} {it : Item α} (item : s.heap p = some it)
    (other : it.cxt ≠ s.self) : u.find p = none := by
  have column : (u.decks.findIdx? fun t => decide (p ∈ addrs t.items)) = none := by
    rw [List.findIdx?_eq_none_iff]
    intro t member
    obtain ⟨c, deck⟩ := List.getElem?_of_mem member
    obtain ⟨d, -, holds, -, -⟩ := shelved.state deck
    rw [decide_eq_false_iff_not]
    intro inside
    obtain ⟨e, here, rfl⟩ := mem_addrs.mp inside
    have live := holds.live e here
    rw [tagAt_some item] at live
    simp only [Option.some.injEq, Prod.mk.injEq] at live
    exact other live.1
  unfold Shelf.find
  rw [column]
  rfl

/-- The place of an item of the context. -/
theorem Shelved.place (shelved : Shelved k s u) {p : Nat} {it : Item α} (item : s.heap p = some it)
    (mine : it.cxt = s.self) :
    ∃ t l e r, u.decks[it.col]? = some t ∧ t.items = l ++ e :: r ∧ e.1 = p := by
  obtain ⟨t, deck, member⟩ := shelved.owned p it item mine
  obtain ⟨e, inside, same⟩ := mem_addrs.mp member
  obtain ⟨l, r, split⟩ := List.append_of_mem inside
  exact ⟨t, l, e, r, deck, split, same⟩

/-! ## `ll_mov` -/

/-- The item becomes the last one of the destination column, or the only one. -/
theorem link_spec (vector : s.mode = .vector) {p col : Nat} {d : Col} (get : s.state[col]? = some d) (nonnull : p ≠ 0)
    (live : (tagAt s.heap p).isSome) {items : List (Nat × α)} (last : d.pLast = (addrs items).getLastD 0)
    (valid : Valid s.heap d.pLast) (count : d.count = 0 ↔ items = [])
    (full : items ≠ [] → d.pLast ≠ 0) :
    ∃ h, s.link p col d = some (true, (s.withHeap h).setCol col
        { d with pLast := p, pFirst := if items = [] then p else d.pFirst,
                 pCurrent := if items = [] then p else d.pCurrent }) ∧
      Relinked s.heap h (fun q => if q = p then (addrs items).getLastD 0 else prevAt s.heap q)
        (fun q => if q = p then 0 else if q = (addrs items).getLastD 0 ∧ (addrs items).getLastD 0 ≠ 0 then p
          else nextAt s.heap q) := by
  unfold Context.link
  by_cases empty : items = []
  · -- the destination is empty
    have null : (addrs items).getLastD 0 = 0 := by
      rw [empty]
      rfl
    rw [if_neg (not_not.mpr (count.mpr empty)), modCol_eq get]
    simp only [setCol_mode, vector, null]
    obtain ⟨h₁, write₁, prevs₁, nexts₁, tags₁⟩ :=
      setNext_spec (s := s.setCol col { d with pFirst := p, pLast := p, pCurrent := p }) nonnull live 0
    have live₁ : (tagAt ((s.withHeap h₁).setCol col { d with pFirst := p, pLast := p, pCurrent := p }).heap p).isSome := by
      simp only [setCol_heap, withHeap_heap, tags₁]
      exact live
    obtain ⟨h₂, write₂, prevs₂, nexts₂, tags₂⟩ := setPrev_spec nonnull live₁ 0
    simp only [setCol_withHeap] at write₁
    refine ⟨h₂, ?_, ?_, ?_, ?_⟩
    · simp only [Option.bind_eq_bind, write₁, Option.bind_some, write₂, setCol_withHeap, withHeap_withHeap, empty, if_true]
    · intro q
      simp only [prevs₂, setCol_heap, withHeap_heap, prevs₁]
    · intro q
      simp only [nexts₂, setCol_heap, withHeap_heap, nexts₁, ne_eq, not_true_eq_false, and_false, if_false]
    · intro q
      simp only [tags₂, setCol_heap, withHeap_heap, tags₁]
  · -- the last item of the destination is linked to the new one
    have some := full empty
    obtain ⟨h₁, write₁, prevs₁, nexts₁, tags₁⟩ := setNext_spec some (valid some) p
    have live₁ : (tagAt (s.withHeap h₁).heap p).isSome := by
      rw [withHeap_heap, tags₁]
      exact live
    obtain ⟨h₂, write₂, prevs₂, nexts₂, tags₂⟩ := setPrev_spec nonnull live₁ d.pLast
    have live₂ : (tagAt ((s.withHeap h₁).withHeap h₂).heap p).isSome := by
      rw [withHeap_heap, tags₂]
      exact live₁
    obtain ⟨h₃, write₃, prevs₃, nexts₃, tags₃⟩ := setNext_spec nonnull live₂ 0
    have ring : s.mode.ring d.pFirst = 0 := by
      rw [vector]
      rfl
    have get₃ : (s.withHeap h₃).state[col]? = Option.some d := get
    have change := modCol_eq get₃ fun d => { d with pLast := p }
    rw [if_pos fun null => empty (count.mp null), if_pos some]
    simp only [withHeap_withHeap] at write₂ write₃
    refine ⟨h₃, ?_, ?_, ?_, ?_⟩
    · simp only [Option.bind_eq_bind, write₁, Option.bind_some, write₂, withHeap_mode, ring, write₃, change, if_neg empty]
    · intro q
      simp only [prevs₃, withHeap_heap, prevs₂, prevs₁, last]
    · intro q
      rw [nexts₃, withHeap_heap, nexts₂, withHeap_heap, nexts₁, ← last]
      have both : (q = d.pLast ∧ d.pLast ≠ 0) ↔ q = d.pLast := ⟨And.left, fun same => ⟨same, some⟩⟩
      simp only [both]
    · intro q
      simp only [tags₃, withHeap_heap, tags₂, tags₁]

/-- What `ll_mov` writes into the memory: item `e` leaves its place between two parts of its column, and is the last one of
column `col` after the items there. -/
structure Moved (s : Context α) (h : Nat → Option (Item α)) (l r items : List (Nat × α)) (e : Nat × α) (col : Nat) :
    Prop where
  prevs : ∀ q, prevAt h q = if q = e.1 then (addrs items).getLastD 0 else
    if q = (addrs r).headD 0 ∧ (addrs r).headD 0 ≠ 0 then (addrs l).getLastD 0 else prevAt s.heap q
  nexts : ∀ q, nextAt h q = if q = e.1 then 0 else
    if q = (addrs items).getLastD 0 ∧ (addrs items).getLastD 0 ≠ 0 then e.1 else
      if q = (addrs l).getLastD 0 ∧ (addrs l).getLastD 0 ≠ 0 then (addrs r).headD 0 else nextAt s.heap q
  tags : ∀ q, tagAt h q = if q = e.1 then some (s.self, col, e.2) else tagAt s.heap q

/-- The calls of `ll_mov` that move an item. -/
theorem mov_eq (vector : s.mode = .vector) {c col : Nat} {d d₁ : Col} {l r items : List (Nat × α)} {e : Nat × α}
    (get : s.state[c]? = some d) (holds : Holds s c d (l ++ e :: r)) (get₁ : s.state[col]? = some d₁)
    (holds₁ : Holds s col d₁ items) (differ : col ≠ c) (inside : col < s.ncol) (short : items.length < 2 ^ 32)
    {pData : Nat} (here : pData - hdrSize = e.1) :
    ∃ h, s.mov pData col = some (true, ((s.withHeap h).setCol c
        (d.unlink e.1 ((addrs l).getLastD 0) ((addrs r).headD 0))).setCol col
          { d₁ with pLast := e.1, pFirst := if items = [] then e.1 else d₁.pFirst,
                    pCurrent := if items = [] then e.1 else d₁.pCurrent, count := incr d₁.count }) ∧
      Moved s h l r items e col := by
  obtain ⟨prev, next⟩ := holds.split
  have item := holds.item (e := e) (by simp)
  have nonnull : e.1 ≠ 0 := holds.nonnull (by simp)
  rw [prev, next] at item
  have valid_prev := holds.valid_last (l := l) (by simp)
  have valid_next := holds.valid_head (r := r) (by simp)
  obtain ⟨h₁, write₁, prevs₁, nexts₁, tags₁⟩ := setNextIf_spec valid_prev ((addrs r).headD 0)
  have valid₁ : Valid (s.withHeap h₁).heap ((addrs r).headD 0) := by
    intro some
    rw [withHeap_heap, tags₁]
    exact valid_next some
  obtain ⟨h₂, write₂, prevs₂, nexts₂, tags₂⟩ := setPrevIf_spec valid₁ ((addrs l).getLastD 0)
  rw [withHeap_withHeap] at write₂
  -- the context with the item out of its column
  let d' : Col := d.unlink e.1 ((addrs l).getLastD 0) ((addrs r).headD 0)
  let s₁ : Context α := (s.withHeap h₂).setCol c d'
  have get_s : (s.withHeap h₂).state[c]? = some d := get
  have change := modCol_eq get_s fun d => d.unlink e.1 ((addrs l).getLastD 0) ((addrs r).headD 0)
  have get_d : s₁.state[col]? = some d₁ := (List.getElem?_set_ne (Ne.symm differ)).trans get₁
  have tags : ∀ q, tagAt h₂ q = tagAt s.heap q := fun q => (tags₂ q).trans (tags₁ q)
  have live : (tagAt s₁.heap e.1).isSome := by
    simp only [s₁, setCol_heap, withHeap_heap, tags]
    exact holds.isSome (by simp)
  have last := holds₁.last
  have valid : Valid s₁.heap d₁.pLast := by
    intro some
    simp only [s₁, setCol_heap, withHeap_heap, tags]
    rw [last] at some ⊢
    exact holds₁.isSome (getLastD_mem_addrs some)
  have count : d₁.count = 0 ↔ items = [] := by
    rw [holds₁.count, Nat.mod_eq_of_lt short, List.length_eq_zero_iff]
  have full : items ≠ [] → d₁.pLast ≠ 0 := by
    intro some
    rw [last]
    exact holds₁.nonnull (getLastD_mem (by simpa [addrs] using some) 0)
  obtain ⟨h₃, write₃, prevs₃, nexts₃, tags₃⟩ := link_spec (s := s₁) vector get_d nonnull live last valid count full
  have tag₃ : tagAt h₃ e.1 = some (s.self, c, e.2) := by
    rw [tags₃]
    simp only [s₁, setCol_heap, withHeap_heap, tags]
    exact holds.live e (by simp)
  let d₂ : Col := { d₁ with pLast := e.1, pFirst := if items = [] then e.1 else d₁.pFirst,
                            pCurrent := if items = [] then e.1 else d₁.pCurrent }
  let s₃ : Context α := (s₁.withHeap h₃).setCol col d₂
  have item₃ : s₃.item e.1 = some ⟨s.self, c, prevAt h₃ e.1, nextAt h₃ e.1, e.2⟩ := item_of_tag nonnull tag₃
  let it : Item α := ⟨s.self, col, prevAt h₃ e.1, nextAt h₃ e.1, e.2⟩
  have get₃ : (s₁.withHeap (Function.update h₃ e.1 (some it))).state[col]? = some d₁ := get_d
  have finish := modCol_eq (setCol_get get₃ d₂) fun d => { d with count := incr d.count }
  refine ⟨Function.update h₃ e.1 (some it), ?_, ?_, ?_, ?_⟩
  · simp only [s₃, d₂] at item₃
    unfold Context.mov
    simp only [here, item, Option.bind_eq_bind, Option.bind_some, differ, inside, ne_eq, not_false_eq_true, and_self,
      if_true, write₁, write₂, withHeap_state, get, change]
    rw [get_d, Option.bind_some, write₃]
    simp only [Option.bind_some, if_true, item₃]
    refine congrArg (fun u => some (true, u)) (finish.trans ?_)
    rw [setCol_setCol]
    rfl
  · intro q
    rw [prevAt_update]
    by_cases own : q = e.1
    · simp only [it, if_pos own, prevs₃, if_true]
    · rw [if_neg own, if_neg own, prevs₃, if_neg own]
      simp only [s₁, setCol_heap, withHeap_heap, prevs₂, prevs₁]
  · intro q
    rw [nextAt_update]
    by_cases own : q = e.1
    · simp only [it, if_pos own, nexts₃, if_true]
    · rw [if_neg own, if_neg own, nexts₃, if_neg own]
      simp only [s₁, setCol_heap, withHeap_heap, nexts₂, nexts₁]
  · intro q
    rw [tagAt_update]
    by_cases own : q = e.1
    · simp only [it, if_pos own]
    · rw [if_neg own, if_neg own, tags₃]
      simp only [s₁, setCol_heap, withHeap_heap, tags]

section Moved
variable {s' : Context α} {h : Nat → Option (Item α)} {l r items : List (Nat × α)} {e : Nat × α} {c col : Nat} {d d₁ : Col}

theorem addrs_getElem {items : List (Nat × α)} {i : Nat} (inside : i < items.length) (inside' : i < (addrs items).length) :
    (addrs items)[i] = items[i].1 :=
  List.getElem_map _

/-- The cursor is where its pointer points. -/
theorem Holds.here_iff (holds : Holds s c d (l ++ e :: r)) {pos : Nat} (aim : Aim k d (l ++ e :: r) pos) :
    d.pCurrent = e.1 ↔ pos = l.length := by
  have bound := aim.inside (by simp)
  have inside : l.length < (l ++ e :: r).length := by simp
  have place : (l ++ e :: r)[l.length] = e := by simp
  rw [aim.ptr bound]
  constructor
  · intro same
    have bound' : pos < (addrs (l ++ e :: r)).length := by rwa [length_addrs]
    have inside' : l.length < (addrs (l ++ e :: r)).length := by rwa [length_addrs]
    have both : (addrs (l ++ e :: r))[pos] = (addrs (l ++ e :: r))[l.length] := by
      rw [addrs_getElem bound, addrs_getElem inside, place]
      exact same
    exact (List.Nodup.getElem_inj_iff holds.linked.nodup).mp both
  · rintro rfl
    rw [place]

/-- What is left of the source column, by the place of the item in it. -/
theorem Col.unlink_eq (holds : Holds s c d (l ++ e :: r)) {pos : Nat} (aim : Aim k d (l ++ e :: r) pos) :
    d.unlink e.1 ((addrs l).getLastD 0) ((addrs r).headD 0) =
      { pFirst := if l = [] then (addrs r).headD 0 else d.pFirst,
        pLast := if r = [] then (addrs l).getLastD 0 else d.pLast,
        pCurrent := if pos = l.length then if r = [] then (addrs l).getLastD 0 else (addrs r).headD 0 else d.pCurrent,
        count := decr d.count, current := d.current } := by
  have first : d.pFirst = e.1 ↔ l = [] := eq_comm.trans holds.first_iff
  have last : d.pLast = e.1 ↔ r = [] := eq_comm.trans holds.last_iff
  have null : (addrs r).headD 0 = 0 ↔ r = [] := by
    have holds := holds
    rw [List.append_cons] at holds
    exact holds.head_iff
  have here := holds.here_iff aim
  have front : (addrs l).getLastD 0 = 0 ↔ l = [] := by
    constructor
    · intro zero
      by_contra some
      have member : (addrs l).getLastD 0 ∈ addrs l := getLastD_mem (by simpa [addrs] using some) 0
      exact holds.nonnull (addrs_append l _ ▸ List.mem_append_left _ member) zero
    · rintro rfl
      rfl
  generalize (addrs l).getLastD 0 = before at *
  generalize (addrs r).headD 0 = after at *
  unfold Col.unlink
  by_cases isLast : r = []
  · have zero := null.mpr isLast
    by_cases isFirst : l = []
    · have zero' := front.mpr isFirst
      by_cases isHere : pos = l.length <;> simp [first, last, here, zero, zero', isFirst, isLast, isHere]
    · by_cases isHere : pos = l.length <;> simp [first, last, front, here, zero, isFirst, isLast, isHere]
  · by_cases isFirst : l = [] <;> by_cases isHere : pos = l.length <;>
      simp [first, last, null, here, isFirst, isLast, isHere]

/-- Outside of the two columns the memory looks the same. -/
theorem Moved.away (moved : Moved s h l r items e col) {q : Nat} (source : q ∉ addrs (l ++ e :: r)) (dest : q ∉ addrs items) :
    tagAt h q = tagAt s.heap q ∧ prevAt h q = prevAt s.heap q ∧ nextAt h q = nextAt s.heap q := by
  rw [addrs_append, addrs_cons, List.mem_append, List.mem_cons, not_or, not_or] at source
  obtain ⟨front, own, back⟩ := source
  have head : ¬ (q = (addrs r).headD 0 ∧ (addrs r).headD 0 ≠ 0) := by
    rintro ⟨rfl, some⟩
    exact back (headD_mem_addrs some)
  have last : ¬ (q = (addrs l).getLastD 0 ∧ (addrs l).getLastD 0 ≠ 0) := by
    rintro ⟨rfl, some⟩
    exact front (getLastD_mem_addrs some)
  have ends : ¬ (q = (addrs items).getLastD 0 ∧ (addrs items).getLastD 0 ≠ 0) := by
    rintro ⟨rfl, some⟩
    exact dest (getLastD_mem_addrs some)
  rw [moved.tags, moved.prevs, moved.nexts, if_neg own, if_neg own, if_neg own, if_neg head, if_neg ends, if_neg last]
  exact ⟨rfl, rfl, rfl⟩

theorem Moved.source (moved : Moved s h l r items e col) (holds : Holds s c d (l ++ e :: r))
    (holds₁ : Holds s col d₁ items) (differ : col ≠ c) (self : s'.self = s.self) (heap : s'.heap = h) {d' : Col}
    (first : d'.pFirst = if l = [] then (addrs r).headD 0 else d.pFirst)
    (last : d'.pLast = if r = [] then (addrs l).getLastD 0 else d.pLast) (count : d'.count = decr d.count) :
    Holds s' c d' (l ++ r) := by
  subst heap
  have linked := holds.linked
  rw [addrs_append, addrs_cons] at linked
  obtain ⟨out_l, out_r⟩ := holds.outside
  have member : ∀ y ∈ addrs l ++ addrs r, y ∈ addrs (l ++ e :: r) := by
    intro y member
    rw [addrs_append, addrs_cons]
    exact List.perm_middle.mem_iff.mpr (List.mem_cons_of_mem _ member)
  have own : ∀ y ∈ addrs l ++ addrs r, y ≠ e.1 := by
    rintro y member rfl
    rcases List.mem_append.mp member with front | back
    · exact out_l front
    · exact out_r back
  refine ⟨?_, ?_, ?_, ?_, ?_⟩
  · intro a inside
    have here : a.1 ∈ addrs l ++ addrs r := addrs_append l r ▸ mem_addrs.mpr ⟨a, inside, rfl⟩
    rw [moved.tags, if_neg (own a.1 here), self]
    exact holds.live a (List.perm_middle.mem_iff.mpr (List.mem_cons_of_mem _ inside))
  · rw [addrs_append]
    apply linked.erase
    · intro y inside
      rw [moved.prevs, if_neg (own y inside), ite_nonnull (holds.nonnull (member y inside))]
    · intro y inside
      have ends : ¬ (y = (addrs items).getLastD 0 ∧ (addrs items).getLastD 0 ≠ 0) := by
        rintro ⟨rfl, some⟩
        exact holds₁.disjoint holds differ (getLastD_mem_addrs some) (member _ inside)
      rw [moved.nexts, if_neg (own y inside), if_neg ends, ite_nonnull (holds.nonnull (member y inside))]
  · rw [first, holds.first]
    cases l <;> simp
  · rw [last, holds.last]
    cases r with
    | nil => simp
    | cons a r => simp
  · rw [count, holds.count]
    have number : (l ++ e :: r).length = (l ++ r).length + 1 := by simp [Nat.add_assoc]
    rw [number]
    exact decr_succ _

theorem Moved.destination (moved : Moved s h l r items e col) (holds : Holds s c d (l ++ e :: r))
    (holds₁ : Holds s col d₁ items) (differ : col ≠ c) (self : s'.self = s.self) (heap : s'.heap = h) {d' : Col}
    (first : d'.pFirst = if items = [] then e.1 else d₁.pFirst) (last : d'.pLast = e.1)
    (count : d'.count = incr d₁.count) : Holds s' col d' (items ++ [e]) := by
  subst heap
  have linked := holds₁.linked
  have nonnull : e.1 ≠ 0 := holds.nonnull (by simp)
  have out : ∀ y ∈ addrs items, y ∉ addrs (l ++ e :: r) := fun y => holds₁.disjoint holds differ
  have own : ∀ y ∈ addrs items, y ≠ e.1 := by
    rintro y member rfl
    exact out _ member (by simp)
  have new : e.1 ∉ addrs items := fun member => own _ member rfl
  refine ⟨?_, ?_, ?_, ?_, ?_⟩
  · intro a inside
    rw [moved.tags, self]
    rcases List.mem_append.mp inside with old | here
    · rw [if_neg (own a.1 (mem_addrs.mpr ⟨a, old, rfl⟩))]
      exact holds₁.live a old
    · obtain rfl := List.mem_singleton.mp here
      exact if_pos rfl
  · rw [addrs_append]
    rw [← List.append_nil (addrs items)] at linked new
    apply linked.insert new nonnull
    · intro y inside
      rw [List.append_nil] at inside
      rw [moved.prevs]
      rcases List.mem_cons.mp inside with rfl | old
      · rw [if_pos rfl, if_pos rfl]
      · have head : ¬ (y = (addrs r).headD 0 ∧ (addrs r).headD 0 ≠ 0) := by
          rintro ⟨rfl, some⟩
          have back := headD_mem_addrs some
          exact out _ old (by simp only [addrs_append, addrs_cons, List.mem_append, List.mem_cons, back, or_true])
        rw [if_neg (own y old), if_neg (own y old), if_neg head, List.headD_nil, if_neg (holds₁.nonnull old)]
    · intro y inside
      rw [List.append_nil] at inside
      rw [moved.nexts]
      rcases List.mem_cons.mp inside with rfl | old
      · rw [if_pos rfl, if_pos rfl, List.headD_nil]
      · have before : ¬ (y = (addrs l).getLastD 0 ∧ (addrs l).getLastD 0 ≠ 0) := by
          rintro ⟨rfl, some⟩
          have front := getLastD_mem_addrs some
          exact out _ old (by simp only [addrs_append, List.mem_append, front, true_or])
        rw [if_neg (own y old), if_neg (own y old), ite_nonnull (holds₁.nonnull old), if_neg before]
  · rw [first, holds₁.first]
    cases items <;> simp
  · rw [last]
    simp
  · rw [count, holds₁.count]
    simp [incr]

theorem Moved.other (moved : Moved s h l r items e col) (holds : Holds s c d (l ++ e :: r))
    (holds₁ : Holds s col d₁ items) (self : s'.self = s.self) (heap : s'.heap = h) {c' : Nat} {d' : Col}
    {items' : List (Nat × α)} (holds' : Holds s c' d' items') (notSource : c' ≠ c) (notDest : c' ≠ col) :
    Holds s' c' d' items' := by
  subst heap
  have away : ∀ p ∈ addrs items', _ := fun p member =>
    moved.away (holds'.disjoint holds notSource member) (holds'.disjoint holds₁ notDest member)
  refine holds'.congr self ?_ ?_ ?_ rfl rfl rfl
  · exact fun p member => (away p member).1
  · exact fun p member => (away p member).2.1
  · exact fun p member => (away p member).2.2

/-- The cursor of the source column. -/
theorem Aim.unlink {pos : Nat} (aim : Aim k d (l ++ e :: r) pos) (holds : Holds s c d (l ++ e :: r))
    (right : k ≤ (l ++ r).length → pos < l.length ∨ (pos = l.length ∧ r ≠ [])) :
    Aim k (d.unlink e.1 ((addrs l).getLastD 0) ((addrs r).headD 0)) (l ++ r)
      (if l.length < pos ∨ (l.length = pos ∧ r = []) then pos - 1 else pos) := by
  have bound : pos < l.length + (r.length + 1) := by
    have inside := aim.inside (by simp)
    simpa using inside
  have number : (l ++ r).length = l.length + r.length := List.length_append
  rw [Col.unlink_eq holds aim]
  refine ⟨?_, ?_, ?_⟩
  · dsimp only
    rw [aim.pointer]
    simp only [addrs_append, addrs_cons, List.getD_eq_getElem?_getD]
    rcases Nat.lt_trichotomy pos l.length with before | rfl | after
    · rw [if_neg (by omega), if_neg (by omega), List.getElem?_append_left (by simpa using before),
        List.getElem?_append_left (by simpa using before)]
    · rw [if_pos rfl]
      by_cases isLast : r = []
      · rw [if_pos isLast, if_pos (Or.inr ⟨rfl, isLast⟩), isLast]
        simp [List.getLastD_eq_getLast?, List.getLast?_eq_getElem?]
      · rw [if_neg isLast, if_neg (by simp [isLast]), List.getElem?_append_right (by simp), length_addrs, Nat.sub_self,
          List.headD_eq_head?_getD, List.head?_eq_getElem?]
    · obtain ⟨j, rfl⟩ := Nat.exists_eq_add_of_lt after
      have low : (addrs l).length ≤ l.length + j + 1 := by
        rw [length_addrs]
        omega
      have low' : (addrs l).length ≤ l.length + j + 1 - 1 := by
        rw [length_addrs]
        omega
      rw [if_neg (by omega), if_pos (by omega), List.getElem?_append_right low, List.getElem?_append_right low',
        length_addrs, show l.length + j + 1 - l.length = j + 1 by omega,
        show l.length + j + 1 - 1 - l.length = j by omega, List.getElem?_cons_succ]
  · intro some
    have positive := List.length_pos_of_ne_nil some
    split
    · omega
    · next still =>
      rw [not_or, not_and] at still
      by_cases same : l.length = pos
      · have more := List.length_pos_of_ne_nil (still.2 same)
        omega
      · omega
  · intro some large
    have index := aim.index (by simp) (by simp; omega)
    dsimp only
    rw [index, if_neg]
    rcases right large with before | ⟨same, more⟩
    · omega
    · rintro (after | ⟨-, none⟩)
      · omega
      · exact more none

end Moved

theorem Deck.remove_split {t : Deck α} {l r : List (Nat × α)} {e : Nat × α} (split : t.items = l ++ e :: r) :
    t.remove l.length =
      ⟨l ++ r, if l.length < t.pos ∨ (l.length = t.pos ∧ r = []) then t.pos - 1 else t.pos⟩ := by
  have number : t.items.length = l.length + (r.length + 1) := by rw [split, List.length_append, List.length_cons]
  have last : l.length + 1 = t.items.length ↔ r = [] := by
    rw [← List.length_eq_zero_iff]
    omega
  have erase : t.items.eraseIdx l.length = l ++ r := by
    rw [split, List.eraseIdx_append_of_length_le (Nat.le_refl _), Nat.sub_self, List.eraseIdx_cons_zero]
  unfold Deck.remove
  simp only [erase, last]

/-- The cursor of the destination column. -/
theorem Aim.append {d d' : Col} {t : Deck α} (aim : Aim k d t.items t.pos) {e : Nat × α}
    (pointer : d'.pCurrent = if t.items = [] then e.1 else d.pCurrent)
    (index : k ≤ t.items.length + 1 → d'.current = if t.items = [] then 0 else t.pos) :
    Aim k d' (t.append e).items (t.append e).pos := by
  unfold Deck.append
  refine ⟨?_, ?_, ?_⟩
  · rw [pointer, aim.pointer]
    by_cases empty : t.items = []
    · simp [empty]
    · have inside := aim.inside empty
      have low : t.pos < (addrs t.items).length := by rwa [length_addrs]
      simp only [if_neg empty, addrs_append, List.getD_eq_getElem?_getD, List.getElem?_append_left low]
  · intro _
    by_cases empty : t.items = []
    · simp [empty]
    · have inside := aim.inside empty
      simp only [if_neg empty, List.length_append, List.length_singleton]
      omega
  · intro _ large
    rw [List.length_append, List.length_singleton] at large
    exact index large

theorem Shelf.transfer_eq {c col : Nat} {t : Deck α} (deck : u.decks[c]? = some t) {l r : List (Nat × α)} {e : Nat × α}
    (split : t.items = l ++ e :: r) :
    u.transfer c l.length col =
      { u with decks := (u.decks.modify c fun t => t.remove l.length).modify col fun t => t.append e } := by
  have item : t.items[l.length]? = some e := by
    rw [split]
    simp
  unfold Shelf.transfer
  rw [deck, Option.bind_some, item]

/-- `ll_mov` moves the item to the end of another column, if it leaves a right index in both. -/
theorem mov_spec (shelved : Shelved k s u) {c col : Nat} {t t₁ : Deck α} {d₁ : Col} {l r : List (Nat × α)} {e : Nat × α}
    (deck : u.decks[c]? = some t) (split : t.items = l ++ e :: r) (deck₁ : u.decks[col]? = some t₁)
    (get₁ : s.state[col]? = some d₁) (differ : col ≠ c) (short : t₁.items.length + 1 < 2 ^ 32)
    (source : k ≤ (l ++ r).length → t.pos < l.length ∨ (t.pos = l.length ∧ r ≠ []))
    (dest : k ≤ t₁.items.length + 1 → d₁.current = if t₁.items = [] then 0 else t₁.pos) {pData : Nat}
    (here : pData - hdrSize = e.1) :
    ∃ s', s.mov pData col = some (true, s') ∧ Shelved k s' (u.transfer c l.length col) := by
  obtain ⟨d, get, holds, aim, few⟩ := shelved.state deck
  obtain ⟨holds₁, aim₁, few₁⟩ := shelved.column col d₁ t₁ get₁ deck₁
  rw [split] at holds aim few
  have inside : col < s.ncol := by
    rw [shelved.ncol]
    exact (List.getElem?_eq_some_iff.mp deck₁).1
  obtain ⟨h, call, moved⟩ := mov_eq shelved.vector get holds get₁ holds₁ differ inside few₁ here
  refine ⟨_, call, ?_⟩
  rw [Shelf.transfer_eq deck split]
  refine ⟨shelved.vector, ?_, ?_, shelved.selected, ?_, ?_, ?_⟩
  · simp [shelved.ncol]
  · simp [shelved.length]
  · simpa using shelved.inside
  · intro c' d' t' get' deck'
    simp only [setCol_state, withHeap_state] at get'
    have bound : c < s.state.length := (List.getElem?_eq_some_iff.mp get).1
    have bound₁ : col < s.state.length := (List.getElem?_eq_some_iff.mp get₁).1
    by_cases isDest : c' = col
    · subst isDest
      rw [List.getElem?_set_self (by simpa using bound₁)] at get'
      rw [List.getElem?_modify_eq, List.getElem?_modify_ne _ _ (Ne.symm differ), deck₁] at deck'
      cases get'
      cases deck'
      refine ⟨?_, aim₁.append rfl dest, ?_⟩
      · apply moved.destination holds holds₁ differ
        · rfl
        · rfl
        · rfl
        · rfl
        · rfl
      · simpa [Deck.append] using short
    · rw [List.getElem?_set_ne (Ne.symm isDest)] at get'
      rw [List.getElem?_modify_ne _ _ (Ne.symm isDest)] at deck'
      by_cases isSource : c' = c
      · subst isSource
        rw [List.getElem?_set_self bound] at get'
        rw [List.getElem?_modify_eq, deck] at deck'
        cases get'
        cases deck'
        dsimp only
        rw [Deck.remove_split split]
        refine ⟨?_, aim.unlink holds source, ?_⟩
        · apply moved.source holds holds₁ differ
          · rfl
          · rfl
          · rw [Col.unlink_eq holds aim]
          · rw [Col.unlink_eq holds aim]
          · rfl
        · simp only [List.length_append, List.length_cons] at few ⊢
          omega
      · rw [List.getElem?_set_ne (Ne.symm isSource)] at get'
        rw [List.getElem?_modify_ne _ _ (Ne.symm isSource)] at deck'
        obtain ⟨holds', aim', few'⟩ := shelved.column c' d' t' get' deck'
        refine ⟨?_, aim', few'⟩
        apply moved.other holds holds₁ _ _ holds' isSource isDest
        · rfl
        · rfl
  · intro p it heap mine
    have tag : tagAt h p = some (s.self, it.col, it.data) := (tagAt_some heap).trans (by rw [mine]; rfl)
    rw [moved.tags] at tag
    by_cases own : p = e.1
    · rw [if_pos own, Option.some.injEq, Prod.mk.injEq, Prod.mk.injEq] at tag
      refine ⟨t₁.append e, ?_, ?_⟩
      · rw [← tag.2.1, List.getElem?_modify_eq, List.getElem?_modify_ne _ _ (Ne.symm differ), deck₁]
        rfl
      · rw [own]
        simp [Deck.append]
    · rw [if_neg own] at tag
      obtain ⟨it', old, same⟩ := Option.map_eq_some_iff.mp tag
      obtain ⟨mine', col', -⟩ : it'.cxt = s.self ∧ it'.col = it.col ∧ it'.data = it.data := by simpa using same
      obtain ⟨t₂, deck₂, member⟩ := shelved.owned p it' old mine'
      rw [col'] at deck₂
      by_cases isDest : it.col = col
      · rw [isDest] at deck₂ ⊢
        obtain rfl := Option.some.inj (deck₁.symm.trans deck₂)
        refine ⟨t₁.append e, ?_, ?_⟩
        · rw [List.getElem?_modify_eq, List.getElem?_modify_ne _ _ (Ne.symm differ), deck₁]
          rfl
        · simp [Deck.append, member]
      · rw [List.getElem?_modify_ne _ _ (Ne.symm isDest)]
        by_cases isSource : it.col = c
        · rw [isSource] at deck₂ ⊢
          obtain rfl := Option.some.inj (deck.symm.trans deck₂)
          refine ⟨t.remove l.length, ?_, ?_⟩
          · rw [List.getElem?_modify_eq, deck]
            rfl
          · rw [Deck.remove_split split]
            rw [split, addrs_append, addrs_cons, List.perm_middle.mem_iff, List.mem_cons, ← addrs_append] at member
            exact member.resolve_left own
        · rw [List.getElem?_modify_ne _ _ (Ne.symm isSource)]
          exact ⟨t₂, deck₂, member⟩

/-! ## `ll_sel` -/

/-- The number of items before the one at `p`, counted back in at most `n` steps. -/
def Context.rank (s : Context α) : Nat → Nat → Nat
  | 0, _ => 0
  | n + 1, p => if prevAt s.heap p = 0 then 0 else s.rank n (prevAt s.heap p) + 1

theorem Holds.rank {c : Nat} {d : Col} {items : List (Nat × α)} (holds : Holds s c d items) (n i : Nat)
    (inside : i < items.length) (enough : i ≤ n) : s.rank n items[i].1 = i := by
  induction n generalizing i with
  | zero =>
    obtain rfl : i = 0 := by omega
    rfl
  | succ n ih =>
    rw [Context.rank, holds.prev_get inside]
    by_cases start : i = 0
    · rw [if_pos start, if_pos rfl, start]
    · have before : i - 1 < items.length := by omega
      have nonnull : items[i - 1].1 ≠ 0 := holds.nonnull (mem_addrs.mpr ⟨_, List.getElem_mem before, rfl⟩)
      rw [if_neg start, addrs_getD before, if_neg nonnull, ih (i - 1) before (by omega)]
      omega

/-- `ll_sel` of the current item of a column changes nothing. -/
theorem sel_spec (shelved : Shelved k s u) {c : Nat} {t : Deck α} {d : Col} {l r : List (Nat × α)} {e : Nat × α}
    (deck : u.decks[c]? = some t) (split : t.items = l ++ e :: r) (get : s.state[c]? = some d)
    (current : d.pCurrent = e.1) {pData : Nat} (here : pData - hdrSize = e.1) :
    s.sel pData = some (true, s) ∧ u.select e.1 = (true, u) := by
  obtain ⟨holds, aim, -⟩ := shelved.column c d t get deck
  have found := shelved.find deck split
  rw [split] at holds aim
  have item := holds.item (e := e) (by simp)
  have place := (holds.here_iff aim).mp current
  constructor
  · have still : { d with pCurrent := e.1 } = d := by rw [← current]
    unfold Context.sel
    simp only [here, item, Option.bind_eq_bind, Option.bind_some, if_true, get, modCol_eq get, still]
    rw [setCol_same get]
  · have same : (u.decks.modify c fun t => { t with pos := l.length }) = u.decks := by
      apply List.ext_getElem?
      intro j
      rw [List.getElem?_modify]
      by_cases isHere : c = j
      · subst isHere
        rw [deck, ← place]
        simp
      · simp [isHere]
    unfold Shelf.select
    rw [found]
    dsimp only
    rw [same]

/-! ## The owner writes to the user data -/

/-- The user data of an item are written; the item stays where it is. -/
theorem Shelved.write (shelved : Shelved k s u) {c : Nat} {t : Deck α} {l r : List (Nat × α)} {e : Nat × α}
    (deck : u.decks[c]? = some t) (split : t.items = l ++ e :: r) (x : α) :
    Shelved k (s.put e.1 ⟨s.self, c, prevAt s.heap e.1, nextAt s.heap e.1, x⟩)
      { u with decks := u.decks.set c ⟨l ++ (e.1, x) :: r, t.pos⟩ } := by
  obtain ⟨d, get, holds, aim, short⟩ := shelved.state deck
  rw [split] at holds aim short
  obtain ⟨front, back⟩ := holds.outside
  let s' := s.put e.1 ⟨s.self, c, prevAt s.heap e.1, nextAt s.heap e.1, x⟩
  have prevs : ∀ q, prevAt s'.heap q = prevAt s.heap q := by
    intro q
    simp only [s', put_eq, withHeap_heap, prevAt_update]
    split
    · next same => rw [same]
    · rfl
  have nexts : ∀ q, nextAt s'.heap q = nextAt s.heap q := by
    intro q
    simp only [s', put_eq, withHeap_heap, nextAt_update]
    split
    · next same => rw [same]
    · rfl
  have tags : ∀ q, tagAt s'.heap q = if q = e.1 then some (s.self, c, x) else tagAt s.heap q := by
    intro q
    simp only [s', put_eq, withHeap_heap, tagAt_update]
  have places : addrs (l ++ (e.1, x) :: r) = addrs (l ++ e :: r) := by simp
  refine ⟨shelved.vector, ?_, ?_, shelved.selected, ?_, ?_, ?_⟩
  · rw [List.length_set]
    exact shelved.ncol
  · rw [List.length_set]
    exact shelved.length
  · rw [List.length_set]
    exact shelved.inside
  · intro c' d' t' get' deck'
    by_cases here : c = c'
    · subst here
      rw [List.getElem?_set_self (List.getElem?_eq_some_iff.mp deck).1] at deck'
      obtain rfl : d = d' := Option.some.inj (get.symm.trans get')
      cases deck'
      refine ⟨⟨?_, ?_, ?_, ?_, ?_⟩, ⟨?_, ?_, ?_⟩, ?_⟩
      · intro e' member
        change tagAt s'.heap e'.1 = some (s.self, c, e'.2)
        rw [tags]
        rcases List.mem_append.mp member with left | right
        · rw [if_neg fun same => front (mem_addrs.mpr ⟨e', left, same⟩)]
          exact holds.live e' (List.mem_append_left _ left)
        · rcases List.mem_cons.mp right with rfl | right
          · rw [if_pos rfl]
          · rw [if_neg fun same => back (mem_addrs.mpr ⟨e', right, same⟩)]
            exact holds.live e' (List.mem_append_right _ (List.mem_cons_of_mem _ right))
      · change Linked 0 (prevAt s'.heap) (nextAt s'.heap) _
        rw [places]
        exact holds.linked.congr (fun q _ => prevs q) (fun q _ => nexts q)
      · rw [places]
        exact holds.first
      · rw [places]
        exact holds.last
      · rw [holds.count]
        simp
      · rw [places]
        exact aim.pointer
      · intro _
        simpa using aim.inside (by simp)
      · intro _ large
        exact aim.index (by simp) (by simpa using large)
      · simpa using short
    · rw [List.getElem?_set_ne here] at deck'
      obtain ⟨holds', aim', short'⟩ := shelved.column c' d' t' get' deck'
      refine ⟨?_, aim', short'⟩
      apply holds'.congr
      · rfl
      · intro q member
        change tagAt s'.heap q = _
        rw [tags, if_neg]
        rintro rfl
        exact holds.disjoint holds' here (by simp) member
      · exact fun q _ => prevs q
      · exact fun q _ => nexts q
      · rfl
      · rfl
      · rfl
  · intro q it new mine
    have tag := tagAt_some new
    change tagAt s'.heap q = some (it.cxt, it.col, it.data) at tag
    rw [tags] at tag
    by_cases own : q = e.1
    · rw [if_pos own, Option.some.injEq, Prod.mk.injEq, Prod.mk.injEq] at tag
      refine ⟨⟨l ++ (e.1, x) :: r, t.pos⟩, ?_, ?_⟩
      · rw [← tag.2.1, List.getElem?_set_self (List.getElem?_eq_some_iff.mp deck).1]
      · simp [own]
    · rw [if_neg own] at tag
      obtain ⟨it', old, same⟩ := Option.map_eq_some_iff.mp tag
      obtain ⟨cxt, col, -⟩ : it'.cxt = it.cxt ∧ it'.col = it.col ∧ it'.data = it.data := by simpa using same
      obtain ⟨t', deck', member⟩ := shelved.owned q it' old (cxt.trans mine)
      rw [col] at deck'
      by_cases here : c = it.col
      · rw [← here] at deck' ⊢
        obtain rfl := Option.some.inj (deck.symm.trans deck')
        refine ⟨_, List.getElem?_set_self (List.getElem?_eq_some_iff.mp deck).1, ?_⟩
        rw [places, ← split]
        exact member
      · exact ⟨t', by rw [List.getElem?_set_ne here]; exact deck', member⟩

/-! ## All calls -/

/-- What a caller sees to: new memory is not in use, and `ll_sel` and `ll_mov` get pointers to the data of an item. -/
def Call.Proper (s : Context α) : Call α → Prop
  | .init _ _ _ | .uninit | .roll => False
  | .add _ mem | .ins _ _ mem => mem ≠ 0 → s.heap mem = none
  | .sel pData | .mov pData _ => (s.item (pData - hdrSize)).isSome
  | _ => True

/-- The call leaves right indices and counters: `ll_sel` is for the current item of a column; `ll_mov` takes an item
behind the current one, or the current one if another follows, or leaves at most one item, and a destination with one item
has the index of this item; and no column comes to `2 ^ 32` items. -/
def Call.Steady (s : Context α) : Call α → Prop
  | .add _ mem => mem ≠ 0 → ∀ d, s.state[s.ccol]? = some d → d.count + 1 < 2 ^ 32
  | .ins index _ mem => mem ≠ 0 → ∀ d, s.state[s.ccol]? = some d → index < d.count → d.count + 1 < 2 ^ 32
  | .sel pData => ∀ it d, s.item (pData - hdrSize) = some it → it.cxt = s.self → s.state[it.col]? = some d →
      d.pCurrent = pData - hdrSize
  | .mov pData dest => ∀ it d d₁, s.item (pData - hdrSize) = some it → it.cxt = s.self → dest ≠ it.col →
      s.state[it.col]? = some d → s.state[dest]? = some d₁ →
      (d.count ≤ 2 ∨ d.current < s.rank d.count (pData - hdrSize) ∨ (d.pCurrent = pData - hdrSize ∧ it.next ≠ 0)) ∧
        (d₁.count = 1 → d₁.current = 0) ∧ d₁.count + 1 < 2 ^ 32
  | _ => True

theorem Call.Steady.short {call : Call α} (steady : call.Steady s) {d : Col} {t : Deck α} (get : s.state[s.ccol]? = some d)
    (count : d.count = t.items.length) (small : t.items.length < 2 ^ 32) : (t.step call).2.items.length < 2 ^ 32 := by
  have length := t.step_length call
  cases call with
  | add x mem =>
    by_cases null : mem = 0
    · simpa [Deck.step, Deck.add, null] using small
    · have room := steady null d get
      simp only [Call.growth] at length
      omega
  | ins index x mem =>
    by_cases grows : index < t.items.length ∧ mem ≠ 0
    · have room := steady grows.2 d get (by omega)
      simp only [Call.growth] at length
      omega
    · have same : (t.ins index x mem).2.items = t.items := by
        unfold Deck.ins
        split
        · next inside =>
          rw [if_pos (by_contra fun some => grows ⟨inside, some⟩)]
        · rfl
      simpa only [Deck.step, same] using small
  | _ =>
    simp only [Call.growth] at length
    omega

/-- A call on the selected column. -/
theorem Shelved.local_step (shelved : Shelved 2 s u) {call : Call α} (on : call.OnColumn) (proper : call.Proper s)
    (steady : call.Steady s) :
    ∃ s', s.step call = some ((u.step call).1, s') ∧ Shelved 2 s' (u.step call).2 := by
  obtain ⟨t, d, deck, ready, short⟩ := shelved.ready
  have fresh : call.Fresh s := by
    cases call with
    | add | ins => exact proper
    | _ => exact trivial
  have lift : u.step call = ((t.step call).1, { u with decks := u.decks.set u.sel (t.step call).2 }) := by
    cases call with
    | init | uninit | col | sel | mov | roll => exact absurd on id
    | _ => simp only [Shelf.step, deck]
  obtain ⟨s', returns, turn⟩ := step_spec ready (by decide) short on fresh
  rw [lift]
  exact ⟨s', returns, shelved.turn deck turn (steady.short ready.get (ready.count short) short)⟩

/-- The item that a pointer to user data belongs to. -/
theorem Shelved.pointer (shelved : Shelved k s u) {pData : Nat} (live : (s.item (pData - hdrSize)).isSome) :
    ∃ it, s.item (pData - hdrSize) = some it ∧ s.heap (pData - hdrSize) = some it ∧
      (it.cxt = s.self → ∃ t d l e r, u.decks[it.col]? = some t ∧ t.items = l ++ e :: r ∧ e.1 = pData - hdrSize ∧
        s.state[it.col]? = some d ∧ Holds s it.col d t.items ∧ Aim k d t.items t.pos ∧ t.items.length < 2 ^ 32) := by
  obtain ⟨it, item⟩ := Option.isSome_iff_exists.mp live
  have heap : s.heap (pData - hdrSize) = some it := by
    unfold Context.item at item
    split at item
    · cases item
    · exact item
  refine ⟨it, item, heap, fun mine => ?_⟩
  obtain ⟨t, l, e, r, deck, split, same⟩ := shelved.place heap mine
  obtain ⟨d, get, holds, aim, short⟩ := shelved.state deck
  exact ⟨t, d, l, e, r, deck, split, same, get, holds, aim, short⟩

theorem Shelved.sel_step (shelved : Shelved 2 s u) {pData : Nat} (proper : (Call.sel pData : Call α).Proper s)
    (steady : (Call.sel pData : Call α).Steady s) :
    ∃ s', s.step (.sel pData) = some ((u.step (.sel pData)).1, s') ∧ Shelved 2 s' (u.step (.sel pData)).2 := by
  obtain ⟨it, item, heap, place⟩ := shelved.pointer proper
  simp only [Context.step, Shelf.step]
  by_cases mine : it.cxt = s.self
  · obtain ⟨t, d, l, e, r, deck, split, same, get, -, -, -⟩ := place mine
    have current := steady it d item mine get
    obtain ⟨call, select⟩ := sel_spec shelved deck split get (current.trans same.symm) same.symm
    rw [call, ← same, select]
    exact ⟨s, rfl, shelved⟩
  · have call : s.sel pData = some (false, s) := by
      unfold Context.sel
      simp only [item, Option.bind_eq_bind, Option.bind_some, if_neg mine]
    have select : u.select (pData - hdrSize) = (false, u) := by
      unfold Shelf.select
      rw [shelved.find_none heap mine]
    rw [call, select]
    exact ⟨s, rfl, shelved⟩

theorem Shelved.mov_step (shelved : Shelved 2 s u) {pData col : Nat} (proper : (Call.mov pData col : Call α).Proper s)
    (steady : (Call.mov pData col : Call α).Steady s) :
    ∃ s', s.step (.mov pData col) = some ((u.step (.mov pData col)).1, s') ∧ Shelved 2 s' (u.step (.mov pData col)).2 := by
  obtain ⟨it, item, heap, place⟩ := shelved.pointer proper
  simp only [Context.step, Shelf.step]
  by_cases mine : it.cxt = s.self
  · obtain ⟨t, d, l, e, r, deck, split, same, get, holds, aim, short⟩ := place mine
    have found := shelved.find deck split
    by_cases moves : col ≠ it.col ∧ col < u.decks.length
    · obtain ⟨differ, inside⟩ := moves
      obtain ⟨t₁, deck₁⟩ : ∃ t₁, u.decks[col]? = some t₁ := ⟨_, List.getElem?_eq_getElem inside⟩
      obtain ⟨d₁, get₁, holds₁, aim₁, short₁⟩ := shelved.state deck₁
      obtain ⟨source, dest, room⟩ := steady it d d₁ item mine differ get get₁
      rw [split] at holds aim short
      have count : d.count = (l ++ e :: r).length := by rw [holds.count, Nat.mod_eq_of_lt short]
      have count₁ : d₁.count = t₁.items.length := by rw [holds₁.count, Nat.mod_eq_of_lt short₁]
      have number : (l ++ e :: r).length = (l ++ r).length + 1 := by simp [Nat.add_assoc]
      have source' : 2 ≤ (l ++ r).length → t.pos < l.length ∨ (t.pos = l.length ∧ r ≠ []) := by
        intro large
        have index := aim.index (by simp) (by omega)
        rcases source with few | behind | ⟨current, more⟩
        · omega
        · have rank := holds.rank d.count l.length (by simp) (by rw [count, List.length_append]; omega)
          rw [List.getElem_append_right (Nat.le_refl _)] at rank
          simp only [Nat.sub_self, List.getElem_cons_zero, same] at rank
          rw [rank, index] at behind
          exact Or.inl behind
        · refine Or.inr ⟨(holds.here_iff aim).mp (current.trans same.symm), ?_⟩
          have next : nextAt s.heap e.1 = it.next := by rw [nextAt, same, heap, Option.map_some, Option.getD_some]
          rw [← next, holds.split.2] at more
          rintro rfl
          exact more rfl
      have dest' : 2 ≤ t₁.items.length + 1 → d₁.current = if t₁.items = [] then 0 else t₁.pos := by
        intro large
        have some := List.ne_nil_of_length_pos (show 0 < t₁.items.length by omega)
        rw [if_neg some]
        by_cases single : t₁.items.length = 1
        · have inside₁ := aim₁.inside some
          rw [dest (by rw [count₁, single])]
          omega
        · exact aim₁.index some (by omega)
      obtain ⟨s', call, shelved'⟩ := mov_spec shelved deck split deck₁ get₁ differ (by omega) source' dest' same.symm
      have move : u.move (pData - hdrSize) col = (true, u.transfer it.col l.length col) := by
        unfold Shelf.move
        rw [← same, found]
        exact if_pos ⟨differ, inside⟩
      rw [call, move]
      exact ⟨s', rfl, shelved'⟩
    · have call : s.mov pData col = some (false, s) := by
        have stays : ¬ (it.cxt = s.self ∧ col ≠ it.col ∧ col < s.ncol) := by
          rw [shelved.ncol]
          exact fun all => moves all.2
        unfold Context.mov
        simp only [item, Option.bind_eq_bind, Option.bind_some, if_neg stays]
      have move : u.move (pData - hdrSize) col = (false, u) := by
        unfold Shelf.move
        rw [← same, found]
        exact if_neg moves
      rw [call, move]
      exact ⟨s, rfl, shelved⟩
  · have call : s.mov pData col = some (false, s) := by
      have stays : ¬ (it.cxt = s.self ∧ col ≠ it.col ∧ col < s.ncol) := fun all => mine all.1
      unfold Context.mov
      simp only [item, Option.bind_eq_bind, Option.bind_some, if_neg stays]
    have move : u.move (pData - hdrSize) col = (false, u) := by
      unfold Shelf.move
      rw [shelved.find_none heap mine]
    rw [call, move]
    exact ⟨s, rfl, shelved⟩

/-! ## Calls on the selected column, and `ll_col` -/

theorem Deck.moveTo_items (t : Deck α) (i : Nat) : (t.moveTo i).2.items = t.items := by
  unfold Deck.moveTo
  split <;> rfl

theorem Shelved.first (shelved : Shelved k s u) {t : Deck α} (deck : u.decks[u.sel]? = some t) :
    ∃ s', s.first = some ((t.moveTo 0).1, s') ∧ Shelved k s' { u with decks := u.decks.set u.sel (t.moveTo 0).2 } := by
  obtain ⟨t, d, deck', ready, short⟩ := shelved.ready
  cases deck.symm.trans deck'
  obtain ⟨s', call, turn⟩ := first_spec ready
  exact ⟨s', call, shelved.turn deck turn (by rwa [Deck.moveTo_items])⟩

theorem Shelved.next (shelved : Shelved k s u) {t : Deck α} (deck : u.decks[u.sel]? = some t) :
    ∃ s', s.next = some ((t.moveTo (t.pos + 1)).1, s') ∧
      Shelved k s' { u with decks := u.decks.set u.sel (t.moveTo (t.pos + 1)).2 } := by
  obtain ⟨t, d, deck', ready, short⟩ := shelved.ready
  cases deck.symm.trans deck'
  obtain ⟨s', call, turn⟩ := next_spec ready fun _ => short
  exact ⟨s', call, shelved.turn deck turn (by rwa [Deck.moveTo_items])⟩

theorem Shelved.current (shelved : Shelved k s u) {t : Deck α} (deck : u.decks[u.sel]? = some t) : s.current = some (t.ptr t.pos) := by
  obtain ⟨t, d, deck', ready, -⟩ := shelved.ready
  cases deck.symm.trans deck'
  exact current_spec ready

theorem Shelved.cnt (shelved : Shelved k s u) {t : Deck α} (deck : u.decks[u.sel]? = some t) : s.cnt = some t.items.length := by
  obtain ⟨t, d, deck', ready, short⟩ := shelved.ready
  cases deck.symm.trans deck'
  rw [Context.cnt, ready.get, Option.map_some, ready.count short]

theorem Shelved.add (shelved : Shelved k s u) {t : Deck α} (deck : u.decks[u.sel]? = some t) {mem : Nat} (nonnull : mem ≠ 0)
    (fresh : s.heap mem = none) (room : t.items.length + 1 < 2 ^ 32) (x : α) :
    ∃ s', s.add x mem = some (mem + hdrSize, s') ∧
      Shelved k s' { u with decks := u.decks.set u.sel ⟨t.items ++ [(mem, x)], t.items.length⟩ } := by
  obtain ⟨t, d, deck', ready, short⟩ := shelved.ready
  cases deck.symm.trans deck'
  obtain ⟨s', call, turn⟩ := add_spec ready nonnull (tagAt_none.mpr fresh) (fun _ => short) x
  exact ⟨s', call, shelved.turn deck turn (by simpa using room)⟩

theorem Shelved.col (shelved : Shelved k s u) {c : Nat} (inside : c < u.decks.length) :
    Shelved k (s.col c) { u with sel := c } := by
  have bound : c < s.ncol := by rwa [shelved.ncol]
  unfold Context.col
  rw [if_pos bound]
  refine ⟨shelved.vector, shelved.ncol, shelved.length, rfl, inside, ?_, shelved.owned⟩
  intro c' d t get deck
  obtain ⟨holds, aim, short⟩ := shelved.column c' d t get deck
  refine ⟨?_, aim, short⟩
  exact holds.congr rfl (fun _ _ => rfl) (fun _ _ => rfl) (fun _ _ => rfl) rfl rfl rfl

theorem Shelved.col_step (shelved : Shelved 2 s u) (c : Nat) :
    ∃ s', s.step (.col c) = some ((u.step (.col c)).1, s') ∧ Shelved 2 s' (u.step (.col c)).2 := by
  refine ⟨s.col c, rfl, ?_⟩
  simp only [Shelf.step]
  by_cases inside : c < u.decks.length
  · rw [if_pos inside]
    exact shelved.col inside
  · unfold Context.col
    rw [if_neg inside, if_neg (by rwa [shelved.ncol])]
    exact shelved

/-- Every call follows the shelf. -/
theorem Shelved.step (shelved : Shelved 2 s u) {call : Call α} (proper : call.Proper s) (steady : call.Steady s) :
    ∃ s', s.step call = some ((u.step call).1, s') ∧ Shelved 2 s' (u.step call).2 := by
  cases call with
  | init | uninit | roll => exact absurd proper id
  | col c => exact shelved.col_step c
  | sel pData => exact shelved.sel_step proper steady
  | mov pData col => exact shelved.mov_step proper steady
  | _ => exact shelved.local_step trivial proper steady

end Shelved

/-! ## Runs -/

/-- A list in vector mode whose columns were never used, and without items in memory. -/
structure Context.Blank (s : Context α) (n : Nat) : Prop where
  vector : s.mode = .vector
  ncol : s.ncol = n
  columns : s.state = List.replicate n Col.zero
  positive : 0 < n
  selected : s.ccol = 0
  unowned : ∀ p it, s.heap p = some it → it.cxt ≠ s.self

/-- Decks without items. -/
def Shelf.blank (n : Nat) : Shelf α := ⟨List.replicate n ⟨[], 0⟩, 0⟩

theorem Context.Blank.shelved {s : Context α} {n : Nat} (blank : s.Blank n) (k : Nat) : Shelved k s (Shelf.blank n) := by
  refine ⟨blank.vector, ?_, ?_, blank.selected, ?_, ?_, ?_⟩
  · simp [Shelf.blank, blank.ncol]
  · simp [Shelf.blank, blank.columns]
  · simpa [Shelf.blank] using blank.positive
  · intro c d t get deck
    rw [blank.columns] at get
    obtain rfl := List.eq_of_mem_replicate (List.mem_of_getElem? get)
    obtain rfl := List.eq_of_mem_replicate (List.mem_of_getElem? deck)
    refine ⟨⟨nofun, Linked.nil, rfl, rfl, rfl⟩, ⟨rfl, ?_, ?_⟩, Nat.two_pow_pos 32⟩
    · exact fun some => absurd rfl some
    · exact fun some => absurd rfl some
  · exact fun p it get mine => absurd mine (blank.unowned p it get)

/-- A run whose calls all leave right indices and counters returns what it returns on the shelf, and after it every column
holds its deck. -/
theorem columns_follow_shelf {s : Context α} {n : Nat} (blank : s.Blank n) (calls : List (Call α))
    (allowed : Allowed Context.step (fun s call => call.Proper s ∧ call.Steady s) s calls) :
    ∃ s', outcome Context.step s calls = some ((results Shelf.step (Shelf.blank n) calls).1, s') ∧
      Shelved 2 s' (results Shelf.step (Shelf.blank n) calls).2 :=
  simulation (fun _ _ _ shelved ok => Shelved.step shelved ok.1 ok.2) (blank.shelved 2) calls allowed

/-- A list of two columns, in an empty memory. -/
def twoColumns : Context Nat := ⟨16, .vector, 0, 2, 8, [Col.zero, Col.zero], fun _ => none⟩

theorem twoColumns_blank : twoColumns.Blank 2 := by
  refine ⟨rfl, rfl, rfl, by decide, rfl, ?_⟩
  intro p it get
  cases get

/-- One of two items moves to the other column. -/
theorem columns_follow_shelf_move :
    ∃ s', outcome Context.step twoColumns [.add 7 100, .add 8 200, .mov 125 1, .col 1, .sel 125, .get 0] =
        some ([.ptr 125, .ptr 225, .flag true, .void, .flag true, .ptr 125], s') ∧
      Shelved 2 s' ⟨[⟨[(200, 8)], 0⟩, ⟨[(100, 7)], 0⟩], 1⟩ := by
  apply columns_follow_shelf twoColumns_blank [.add 7 100, .add 8 200, .mov 125 1, .col 1, .sel 125, .get 0]
  refine ⟨⟨fun _ => rfl, ?_⟩, fun r s returns => ?_⟩
  · intro _ d get
    cases get
    decide
  cases returns
  refine ⟨⟨fun _ => rfl, ?_⟩, fun r s returns => ?_⟩
  · intro _ d get
    cases get
    decide
  cases returns
  refine ⟨⟨rfl, ?_⟩, fun r s returns => ?_⟩
  · intro it d d₁ item _ _ get get₁
    cases item
    cases get
    cases get₁
    decide
  cases returns
  refine ⟨⟨trivial, trivial⟩, fun r s returns => ?_⟩
  cases returns
  refine ⟨⟨rfl, ?_⟩, fun r s returns => ?_⟩
  · intro it d item _ get
    cases item
    cases get
    decide
  cases returns
  exact ⟨⟨trivial, trivial⟩, fun _ _ _ => trivial⟩

/-- After `ll_sel` of the first of two items `ll_get` of the second returns the first. -/
theorem get_after_sel :
    Allowed Context.step (fun s call => call.Proper s) twoColumns [.add 7 100, .add 8 200, .sel 125, .get 1] ∧
      ∀ s', outcome Context.step twoColumns [.add 7 100, .add 8 200, .sel 125, .get 1] ≠
        some ((results Shelf.step (Shelf.blank 2) [.add 7 100, .add 8 200, .sel 125, .get 1]).1, s') := by
  constructor
  · refine ⟨fun _ => rfl, fun r s returns => ?_⟩
    cases returns
    refine ⟨fun _ => rfl, fun r s returns => ?_⟩
    cases returns
    refine ⟨rfl, fun r s returns => ?_⟩
    cases returns
    exact ⟨trivial, fun _ _ _ => trivial⟩
  · intro s' same
    have returned : (outcome Context.step twoColumns [.add 7 100, .add 8 200, .sel 125, .get 1]).map Prod.fst =
        some (results Shelf.step (Shelf.blank 2) [.add 7 100, .add 8 200, .sel 125, .get 1]).1 :=
      congrArg (Option.map Prod.fst) same
    exact absurd returned (by decide)

end PreTeO.Common
