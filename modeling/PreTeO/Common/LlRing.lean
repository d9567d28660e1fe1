import Mathlib.Data.List.Rotate
import Mathlib.Logic.Function.Iterate
import PreTeO.Common.LlVector

/-!
# The ring of queue mode

In queue mode the last item is linked to the first one. The first `ll_add` does not do that, as it takes `p_first` for the link
before it sets it; from the second on every call keeps the ring closed. The link of the first item back is null or goes
somewhere: `ll_roll` leaves the one that the second item had.
-/

namespace PreTeO.Common
set_option autoImplicit false
open PreTeO.Lib

variable {α : Type}

/-! ## Memory -/

section Delete
variable {s : Context α} {d : Col}

/-- The first item goes, and the last one is linked to the item after it. -/
theorem dropFirst_queue (queue : s.mode = .queue) (get : s.state[s.ccol]? = some d) (d₁ : Col) (p : Nat)
    (real : p = d₁.pFirst → d₁.pLast ≠ 0 ∧ (tagAt s.heap d₁.pLast).isSome) (next : Nat) :
    ∃ h, (s.setCol s.ccol d₁).dropFirst p next = some ((s.withHeap h).setCol s.ccol
        (if p = d₁.pFirst then { d₁ with pCurrent := next, pFirst := next } else d₁)) ∧
      Relinked s.heap h (prevAt s.heap) (fun q => if p = d₁.pFirst ∧ q = d₁.pLast then next else nextAt s.heap q) := by
  have get₁ := setCol_get get d₁
  simp only [Context.dropFirst, setCol_ccol, get₁, Option.bind_eq_bind, Option.bind_some, modCol_eq get₁, setCol_mode,
    queue, setCol_setCol]
  by_cases first : p = d₁.pFirst
  · obtain ⟨nonnull, valid⟩ := real first
    obtain ⟨h, write, relinked⟩ := setNext_spec
      (s := s.setCol s.ccol { d₁ with pCurrent := next, pFirst := next }) nonnull valid next
    simp only [setCol_heap, setCol_withHeap] at write relinked
    simp only [first, true_and]
    exact ⟨h, write, relinked⟩
  · simp only [first, false_and, if_false]
    exact ⟨s.heap, rfl, fun _ => rfl, fun _ => rfl, fun _ => rfl⟩

/-- The last item goes, and the item before it is linked to the first one. -/
theorem dropLast_queue (queue : s.mode = .queue) (get : s.state[s.ccol]? = some d) (d₁ : Col) (p prev : Nat)
    (real : p = d₁.pLast → prev ≠ 0 ∧ (tagAt s.heap prev).isSome) :
    ∃ h, (s.setCol s.ccol d₁).dropLast p prev = some ((s.withHeap h).setCol s.ccol
        (if p = d₁.pLast then { d₁ with pCurrent := prev, pLast := prev, current := decr d₁.current } else d₁)) ∧
      Relinked s.heap h (prevAt s.heap) (fun q => if p = d₁.pLast ∧ q = prev then d₁.pFirst else nextAt s.heap q) := by
  have get₁ := setCol_get get d₁
  simp only [Context.dropLast, setCol_ccol, get₁, Option.bind_eq_bind, Option.bind_some, modCol_eq get₁, setCol_mode,
    queue, setCol_setCol]
  by_cases last : p = d₁.pLast
  · obtain ⟨nonnull, valid⟩ := real last
    obtain ⟨h, write, relinked⟩ := setNext_spec
      (s := s.setCol s.ccol { d₁ with pCurrent := prev, pLast := prev, current := decr d₁.current }) nonnull valid d₁.pFirst
    simp only [setCol_heap, setCol_withHeap] at write relinked
    simp only [last, true_and]
    exact ⟨h, write, relinked⟩
  · simp only [last, false_and, if_false]
    exact ⟨s.heap, rfl, fun _ => rfl, fun _ => rfl, fun _ => rfl⟩

/-- An item of several goes, of which it may be the first or the last. -/
theorem delItem_queue (queue : s.mode = .queue) (get : s.state[s.ccol]? = some d) {p : Nat} {it : Item α}
    (item : s.item p = some it) (prev : Valid s.heap it.prev) (next : Valid s.heap it.next) (several : d.pFirst ≠ d.pLast)
    (front : p = d.pFirst → d.pLast ≠ 0 ∧ (tagAt s.heap d.pLast).isSome) (back : p = d.pLast → it.prev ≠ 0) :
    ∃ h, s.delItem p = some ((s.withHeap (Function.update h p none)).setCol s.ccol (d.delete p it.prev it.next)) ∧
      Relinked s.heap h (fun q => if q = it.next ∧ it.next ≠ 0 then it.prev else prevAt s.heap q)
        (fun q => if p = d.pLast ∧ q = it.prev then d.pFirst else if p = d.pFirst ∧ q = d.pLast then it.next else
          if q = it.prev ∧ it.prev ≠ 0 then it.next else nextAt s.heap q) := by
  obtain ⟨h₁, write₁, prevs₁, nexts₁, tags₁⟩ := setNextIf_spec prev it.next
  have get₁ : (s.withHeap h₁).state[(s.withHeap h₁).ccol]? = some d := get
  have pass := passCursor_eq get₁ it.next
  have valid : Valid ((s.withHeap h₁).passCursor it.next).heap it.next := by
    rw [pass]
    intro nonnull
    exact (tags₁ it.next).symm ▸ next nonnull
  obtain ⟨h₂, write₂, prevs₂, nexts₂, tags₂⟩ := setPrevIf_spec valid it.prev
  rw [pass] at write₂ prevs₂ nexts₂ tags₂
  simp only [setCol_heap, withHeap_heap, setCol_withHeap, withHeap_withHeap, withHeap_ccol] at write₂ prevs₂ nexts₂ tags₂
  have get₂ : (s.withHeap h₂).state[(s.withHeap h₂).ccol]? = some d := get
  let d₁ : Col := if it.next = 0 then d else { d with pCurrent := it.next }
  have ends : d₁.pFirst = d.pFirst ∧ d₁.pLast = d.pLast := by
    by_cases null : it.next = 0
    · simp [d₁, null]
    · simp [d₁, null]
  obtain ⟨h₃, write₃, prevs₃, nexts₃, tags₃⟩ := dropFirst_queue (s := s.withHeap h₂) queue get₂ d₁ p
    (by
      rw [ends.1, ends.2]
      intro first
      obtain ⟨nonnull, live⟩ := front first
      exact ⟨nonnull, by rw [withHeap_heap, tags₂, tags₁]; exact live⟩) it.next
  simp only [withHeap_heap, withHeap_withHeap, withHeap_ccol] at write₃ prevs₃ nexts₃ tags₃
  have get₃ : (s.withHeap h₃).state[(s.withHeap h₃).ccol]? = some d := get
  let d₂ : Col := if p = d₁.pFirst then { d₁ with pCurrent := it.next, pFirst := it.next } else d₁
  have last₂ : d₂.pLast = d.pLast := by
    by_cases first : p = d₁.pFirst
    · simp [d₂, first, ends.2]
    · simp [d₂, first, ends.2]
  obtain ⟨h, write₄, prevs₄, nexts₄, tags₄⟩ := dropLast_queue (s := s.withHeap h₃) queue get₃ d₂ p it.prev (by
      rw [last₂]
      intro last
      exact ⟨back last, by rw [withHeap_heap, tags₃, tags₂, tags₁]; exact prev (back last)⟩)
  simp only [withHeap_heap, withHeap_withHeap, withHeap_ccol] at write₄ prevs₄ nexts₄ tags₄
  have get₄ : (s.withHeap h).state[(s.withHeap h).ccol]? = some d := get
  refine ⟨h, ?_, ?_, ?_, ?_⟩
  · have change := fun d₁ => modCol_eq (setCol_get get₄ d₁) fun c => { c with count := decr c.count }
    simp only [withHeap_ccol] at change
    simp only [Context.delItem, item, Option.bind_eq_bind, Option.bind_some, write₁, pass, withHeap_ccol, write₂]
    change (((s.withHeap h₂).setCol s.ccol d₁).dropFirst p it.next).bind _ = _
    rw [write₃]
    change (((s.withHeap h₃).setCol s.ccol d₂).dropLast p it.prev).bind _ = _
    rw [write₄]
    simp only [Option.bind_some, setCol_ccol, withHeap_ccol, change, setCol_setCol, free_eq, setCol_withHeap,
      withHeap_withHeap, setCol_heap, withHeap_heap]
    rfl
  · intro q
    rw [prevs₄, prevs₃, prevs₂, prevs₁]
  · intro q
    rw [nexts₄, nexts₃, nexts₂, nexts₁, last₂, ends.1, ends.2]
    by_cases last : p = d.pLast
    · have notFirst : p ≠ d.pFirst := fun first => several (first.symm.trans last)
      simp [d₂, notFirst, ends]
    · simp [last]
  · intro q
    rw [tags₄, tags₃, tags₂, tags₁]

end Delete

/-! ## The ring and its cursor -/

/-- The selected column of a context in queue mode holds the rotating list, to which `ll_add` was called `adds` times: after the
last item comes the first, but not if `ll_add` was called once only. -/
structure Spun (s : Context α) (d : Col) (t : Deck α) (adds : Nat) : Prop where
  queue : s.mode = .queue
  get : s.state[s.ccol]? = some d
  row : Row s s.ccol t.items
  first : d.pFirst = (addrs t.items).headD 0
  last : d.pLast = (addrs t.items).getLastD 0
  count : d.count = t.items.length
  small : t.items.length < 2 ^ 32
  pointer : d.pCurrent = (addrs t.items).getD t.pos 0
  inside : t.items ≠ [] → t.pos < t.items.length
  started : adds = 0 ↔ t.items = []
  single : adds = 1 → t.items.length = 1
  ring : t.items ≠ [] → nextAt s.heap d.pLast = if adds = 1 then 0 else d.pFirst

section Spun
variable {s : Context α} {d : Col} {t : Deck α} {adds : Nat}

theorem Spun.several (spun : Spun s d t adds) (two : 2 ≤ t.items.length) : adds ≠ 1 ∧ adds ≠ 0 := by
  refine ⟨fun one => ?_, fun none => ?_⟩
  · have := spun.single one
    omega
  · rw [spun.started.mp none] at two
    exact absurd two (by simp)

theorem Spun.ptr (spun : Spun s d t adds) (inside : t.pos < t.items.length) : d.pCurrent = t.items[t.pos].1 := by
  rw [spun.pointer, addrs_getD inside]

theorem Spun.empty (spun : Spun s d t adds) (none : t.items = []) : d.pCurrent = 0 ∧ d.pFirst = 0 ∧ d.pLast = 0 := by
  rw [spun.pointer, spun.first, spun.last, none]
  exact ⟨rfl, rfl, rfl⟩

/-- A call that only moves the cursor. -/
theorem Spun.cursor (spun : Spun s d t adds) {i p cur : Nat} (inside : t.items ≠ [] → i < t.items.length)
    (pointer : p = (addrs t.items).getD i 0) :
    Spun (s.setCol s.ccol { d with pCurrent := p, current := cur }) { d with pCurrent := p, current := cur }
      { t with pos := i } adds :=
  ⟨spun.queue, setCol_get spun.get _, spun.row.congr rfl (fun _ _ => rfl) (fun _ _ => rfl) (fun _ _ => rfl), spun.first,
    spun.last, spun.count, spun.small, pointer, inside, spun.started, spun.single, spun.ring⟩

/-! ## New items -/

theorem addrs_ne_nil {items : List (Nat × α)} (some : items ≠ []) : addrs items ≠ [] := by simpa [addrs] using some

/-- A new item is none of the row. -/
theorem Row.fresh {c mem : Nat} {items : List (Nat × α)} (row : Row s c items) (new : tagAt s.heap mem = none) :
    ∀ p ∈ addrs items, p ≠ mem := by
  rintro p member rfl
  have live := row.isSome_addr member
  rw [new] at live
  cases live

/-- All but the links of a row with a new item somewhere. -/
theorem Row.joined {items items' : List (Nat × α)} {h : Nat → Option (Item α)} {mem : Nat} {x : α}
    (row : Row s s.ccol items) (new : tagAt s.heap mem = none) (nonnull : mem ≠ 0) (perm : items'.Perm ((mem, x) :: items))
    (tags : ∀ q, tagAt h q = if q = mem then some (s.self, s.ccol, x) else tagAt s.heap q) :
    (∀ e ∈ items', tagAt h e.1 = some (s.self, s.ccol, e.2)) ∧ (addrs items').Nodup ∧ 0 ∉ addrs items' := by
  have out := row.fresh new
  have moved : (addrs items').Perm (mem :: addrs items) := perm.map _
  refine ⟨fun e member => ?_, ?_, ?_⟩
  · refine (tags e.1).trans ?_
    rcases List.mem_cons.mp (perm.mem_iff.mp member) with rfl | old
    · exact if_pos rfl
    · exact (if_neg (out e.1 (mem_addrs.mpr ⟨e, old, rfl⟩))).trans (row.live e old)
  · exact moved.nodup_iff.mpr (List.nodup_cons.mpr ⟨fun member => out mem member rfl, row.nodup⟩)
  · rw [moved.mem_iff, List.mem_cons, not_or]
    exact ⟨nonnull.symm, row.nonnull⟩

/-! ## `ll_add` -/

/-- The row with a new item behind the last one. -/
theorem Spun.added_row (spun : Spun s d t adds) {mem : Nat} {x : α} (nonnull : mem ≠ 0) (new : tagAt s.heap mem = none)
    {h : Nat → Option (Item α)} {d' : Col} (prevs : ∀ q, prevAt h q = if q = mem then d.pLast else prevAt s.heap q)
    (nexts : ∀ q, nextAt h q = if q = mem then s.mode.ring d.pFirst else
      if q = d.pLast ∧ d.pLast ≠ 0 then mem else nextAt s.heap q)
    (tags : ∀ q, tagAt h q = if q = mem then some (s.self, s.ccol, x) else tagAt s.heap q) :
    Row ((s.withHeap h).setCol s.ccol d') s.ccol (t.items ++ [(mem, x)]) := by
  have row := spun.row
  have out := row.fresh new
  obtain ⟨live, nodup, some⟩ := row.joined new nonnull (List.perm_append_singleton (mem, x) t.items) tags
  refine ⟨live, nodup, some, ?_⟩
  obtain ⟨b, a, chain, base⟩ : ∃ b a, Chain (prevAt s.heap) (nextAt s.heap) b (addrs t.items) a ∧
      (addrs t.items).getLastD b = (addrs t.items).getLastD 0 := by
    by_cases none : t.items = []
    · exact ⟨0, 0, by rw [none]; trivial, rfl⟩
    · obtain ⟨b, a, chain⟩ := row.chain
      refine ⟨b, a, chain, ?_⟩
      obtain ⟨e, r, items⟩ := List.exists_cons_of_ne_nil none
      rw [items]
      rfl
  rw [addrs_append, addrs_cons, addrs_nil]
  refine ⟨b, d.pFirst, (chain_append _ _).mpr ⟨?_, ?_, ?_, trivial⟩⟩
  · refine chain.retarget row.nodup (fun y member => (prevs y).trans (if_neg (out y member))) fun y member => ?_
    have real : y ≠ 0 := fun same => row.nonnull (same ▸ member)
    refine (nexts y).trans ?_
    rw [if_neg (out y member), ite_nonnull real, base, spun.last]
    rfl
  · refine (prevs mem).trans ?_
    rw [if_pos rfl, base, spun.last]
  · refine (nexts mem).trans ?_
    rw [if_pos rfl, spun.queue]
    rfl

theorem Spun.add (spun : Spun s d t adds) {mem : Nat} (nonnull : mem ≠ 0) (fresh : tagAt s.heap mem = none)
    (room : t.items.length + 1 < 2 ^ 32) (x : α) :
    ∃ s' d', s.add x mem = some (mem + hdrSize, s') ∧ Spun s' d' ⟨t.items ++ [(mem, x)], t.items.length⟩ (adds + 1) := by
  have row := spun.row
  have valid : Valid s.heap d.pLast := by
    intro some
    rw [spun.last] at some ⊢
    obtain ⟨e, member, same⟩ := mem_addrs.mp (getLastD_mem_addrs some)
    rw [← same]
    exact row.isSome member
  obtain ⟨h, call, prevs, nexts, tags⟩ := add_memory spun.get nonnull valid x
  have ends : d.pFirst = 0 ↔ t.items = [] := by
    rw [spun.first]
    cases items : t.items with
    | nil => simp
    | cons e r => simpa using row.real (e := e) (by simp [items])
  refine ⟨_, _, call, spun.queue, setCol_get (s := s.withHeap h) spun.get _, spun.added_row nonnull fresh prevs nexts tags, ?_,
    ?_, ?_, ?_, ?_, ?_, ?_, ?_, ?_⟩
  · dsimp only
    by_cases none : t.items = []
    · simp [none, ends.mpr none]
    · rw [if_neg (fun null => none (ends.mp null)), spun.first]
      cases items : t.items with
      | nil => exact absurd items none
      | cons e r => rfl
  · simp
  · dsimp only
    rw [List.length_append, List.length_singleton, incr, spun.count, Nat.mod_eq_of_lt room]
  · simpa using room
  · simp [addrs]
  · simp
  · simp
  · intro one
    have none := spun.started.mp (by omega)
    simp [none]
  · intro _
    refine (nexts mem).trans ?_
    rw [if_pos rfl, spun.queue]
    dsimp only [Mode.ring]
    by_cases none : t.items = []
    · rw [if_pos (by rw [spun.started.mpr none]), ends.mpr none]
    · have started : adds ≠ 0 := fun zero => none (spun.started.mp zero)
      rw [if_neg (by omega), if_neg (fun null => none (ends.mp null))]

/-! ## `ll_ins` -/

/-- The links from the first item on come by all items. -/
theorem Row.iterate {c : Nat} {items : List (Nat × α)} (row : Row s c items) {i : Nat} (inside : i < items.length) :
    (nextAt s.heap)^[i] ((addrs items).headD 0) = items[i].1 := by
  induction i with
  | zero =>
    cases items with
    | nil => exact absurd inside (Nat.not_lt_zero _)
    | cons e r => rfl
  | succ i ih => rw [Function.iterate_succ_apply', ih (by omega), row.next_get inside]

/-- The index that the column keeps is that of the current item. -/
def Context.Numbered (s : Context α) (d : Col) : Prop :=
  d.current < d.count ∧ (nextAt s.heap)^[d.current] d.pFirst = d.pCurrent

theorem Spun.number (spun : Spun s d t adds) (numbered : s.Numbered d) : d.current = t.pos := by
  obtain ⟨below, reached⟩ := numbered
  rw [spun.count] at below
  have inside := spun.inside (List.ne_nil_of_length_pos (by omega))
  rw [spun.first, spun.row.iterate below, spun.ptr inside] at reached
  exact spun.row.inj below inside reached

/-- The memory after an item was put between two others. -/
theorem ins_memory {items : List (Nat × α)} (row : Row s s.ccol items) (get : s.state[s.ccol]? = some d)
    (count : d.count = items.length) {pos index mem : Nat} (inside : pos < items.length)
    (pointer : d.pCurrent = items[pos].1) (number : d.current = pos) (target : index < items.length) (front : index ≠ 0)
    (nonnull : mem ≠ 0) (fresh : tagAt s.heap mem = none) (x : α) :
    ∃ h, s.ins index x mem = some (mem + hdrSize, (s.withHeap h).setCol s.ccol
        { d with pCurrent := mem, current := index, count := incr d.count }) ∧
      (∀ q, prevAt h q = if q = mem then items[index - 1].1 else if q = items[index].1 then mem else prevAt s.heap q) ∧
      (∀ q, nextAt h q = if q = mem then items[index].1 else if q = items[index - 1].1 then mem else nextAt s.heap q) ∧
      ∀ q, tagAt h q = if q = mem then some (s.self, s.ccol, x) else tagAt s.heap q := by
  have out := row.fresh fresh
  have atIndex : items[index].1 ∈ addrs items := mem_addrs.mpr ⟨_, List.getElem_mem target, rfl⟩
  have before : index - 1 < items.length := by omega
  have atBefore : items[index - 1].1 ∈ addrs items := mem_addrs.mpr ⟨_, List.getElem_mem before, rfl⟩
  have someIndex : items[index].1 ≠ 0 := row.real (List.getElem_mem target)
  have someBefore : items[index - 1].1 ≠ 0 := row.real (List.getElem_mem before)
  have found := row.getHdr get count inside pointer number target
  -- The context when the new item is there, without links.
  let d₁ : Col := { d with current := index, pCurrent := items[index].1 }
  let it : Item α := ⟨s.self, s.ccol, 0, 0, x⟩
  let s₁ : Context α := (s.withHeap (Function.update s.heap mem (some it))).setCol s.ccol d₁
  have get₁ : s₁.state[s₁.ccol]? = some d₁ := setCol_get (s := s.withHeap _) get d₁
  have row₁ : Row s₁ s₁.ccol items := row.congr rfl
    (fun p member => (tagAt_update _ _ _ _).trans (if_neg (out p member)))
    (fun p member => (prevAt_update _ _ _ _).trans (if_neg (out p member)))
    (fun p member => (nextAt_update _ _ _ _).trans (if_neg (out p member)))
  have found₁ := row₁.getHdr get₁ count target rfl rfl before
  let d₂ : Col := { d₁ with current := index - 1, pCurrent := items[index - 1].1 }
  have valid : Valid (s₁.setCol s₁.ccol d₂).heap items[index - 1].1 := fun _ => row₁.isSome (List.getElem_mem before)
  obtain ⟨h₁, write₁, prevs₁, nexts₁, tags₁⟩ := setNextIf_spec valid mem
  simp only [s₁, setCol_heap, withHeap_heap, setCol_withHeap, withHeap_withHeap, setCol_ccol, withHeap_ccol, setCol_setCol,
    someBefore, ne_eq, not_false_eq_true, and_true] at write₁ prevs₁ nexts₁ tags₁
  have new : (tagAt ((s.withHeap h₁).setCol s.ccol d₂).heap mem).isSome := by
    simp only [setCol_heap, withHeap_heap, tags₁, tagAt_update]
    simp
  have live : (tagAt ((s.withHeap h₁).setCol s.ccol d₂).heap items[index].1).isSome := by
    simp only [setCol_heap, withHeap_heap, tags₁, tagAt_update, if_neg (out _ atIndex)]
    exact row.isSome (List.getElem_mem target)
  obtain ⟨h, write, prevs, nexts, tags⟩ := @linkNew_spec α _ mem items[index - 1].1 items[index].1 nonnull new
    someIndex live (out _ atIndex)
  simp only [setCol_heap, withHeap_heap, setCol_withHeap, withHeap_withHeap] at write prevs nexts tags
  refine ⟨h, ?_, ?_, ?_, ?_⟩
  · have linked : s₁.linkBefore index mem = some (items[index - 1].1, (s.withHeap h₁).setCol s.ccol d₂) := by
      rw [Context.linkBefore, if_pos (Nat.pos_of_ne_zero front), found₁]
      simp only [Option.bind_eq_bind, Option.bind_some]
      change ((s₁.setCol s₁.ccol d₂).setNextIf items[index - 1].1 mem).bind _ = _
      simp only [s₁, setCol_ccol, withHeap_ccol, setCol_setCol]
      rw [write₁]
      rfl
    have get₂ : (s.withHeap h).state[(s.withHeap h).ccol]? = some d := get
    have change := modCol_eq (setCol_get get₂ d₂) fun c => { c with pCurrent := mem, current := index, count := incr c.count }
    have other : ¬ (items[index].1 = 0 ∨ mem = 0) := by
      rintro (null | null)
      · exact someIndex null
      · exact nonnull null
    have short : index < d.count := count ▸ target
    simp only [Context.ins, get, Option.bind_eq_bind, Option.bind_some, if_pos short, found, if_neg other, put_eq,
      setCol_heap, setCol_withHeap, setCol_self, setCol_ccol]
    change (s₁.linkBefore index mem).bind _ = _
    rw [linked]
    simp only [Option.bind_some]
    rw [write]
    refine congrArg (fun u => some (mem + hdrSize, u)) (change.trans ?_)
    exact setCol_setCol _ _ _ _
  · intro q
    rw [prevs, prevs₁, prevAt_update]
    split
    · rfl
    · rfl
  · intro q
    rw [nexts, nexts₁, nextAt_update]
    split
    · rfl
    · rfl
  · intro q
    rw [tags, tags₁, tagAt_update]

/-- The row with a new item before `e`. -/
theorem Row.inserted {l r : List (Nat × α)} {e : Nat × α} (row : Row s s.ccol (l ++ e :: r)) (behind : l ≠ []) {mem : Nat}
    {x : α} (nonnull : mem ≠ 0) (new : tagAt s.heap mem = none) {h : Nat → Option (Item α)} {d' : Col}
    (prevs : ∀ q, prevAt h q = if q = mem then (addrs l).getLastD 0 else if q = e.1 then mem else prevAt s.heap q)
    (nexts : ∀ q, nextAt h q = if q = mem then e.1 else if q = (addrs l).getLastD 0 then mem else nextAt s.heap q)
    (tags : ∀ q, tagAt h q = if q = mem then some (s.self, s.ccol, x) else tagAt s.heap q) :
    Row ((s.withHeap h).setCol s.ccol d') s.ccol (l ++ (mem, x) :: e :: r) := by
  obtain ⟨live, nodup', some⟩ := row.joined new nonnull List.perm_middle tags
  refine ⟨live, nodup', some, ?_⟩
  have out := row.fresh new
  obtain ⟨b, a, chain⟩ := row.chain
  have nodup := row.nodup
  rw [addrs_append] at chain nodup out
  obtain ⟨-, -, apart⟩ := List.nodup_append.mp nodup
  have lastD : (addrs l).getLastD b = (addrs l).getLastD 0 := by
    obtain ⟨a, l, rfl⟩ := List.exists_cons_of_ne_nil behind
    rfl
  have member_last : (addrs l).getLastD 0 ∈ addrs l := getLastD_mem (addrs_ne_nil behind) 0
  have out_l : ∀ y ∈ addrs l, y ≠ mem := fun y member => out y (List.mem_append_left _ member)
  have out_r : ∀ y ∈ addrs (e :: r), y ≠ mem := fun y member => out y (List.mem_append_right _ member)
  rw [addrs_append, addrs_cons]
  refine ⟨b, a, chain.insert nodup (fun y member => ?_) (fun y member => ?_) ?_ ?_ (fun y member => ?_) fun y member => ?_⟩
  · have other : y ≠ e.1 := fun same => apart y member e.1 (by simp) same
    exact (prevs y).trans ((if_neg (out_l y member)).trans (if_neg other))
  · rw [lastD]
    exact (nexts y).trans (if_neg (out_l y member))
  · rw [lastD]
    exact (prevs mem).trans (if_pos rfl)
  · exact (nexts mem).trans (if_pos rfl)
  · exact (prevs y).trans (if_neg (out_r y member))
  · have other : y ≠ (addrs l).getLastD 0 := fun same => apart _ member_last y member same.symm
    exact (nexts y).trans ((if_neg (out_r y member)).trans (if_neg other))

theorem Spun.ins (spun : Spun s d t adds) (numbered : s.Numbered d) {index mem : Nat} (target : index < t.items.length)
    (front : index ≠ 0) (nonnull : mem ≠ 0) (fresh : tagAt s.heap mem = none) (room : t.items.length + 1 < 2 ^ 32) (x : α) :
    ∃ s' d', s.ins index x mem = some (mem + hdrSize, s') ∧ Spun s' d' ⟨t.items.insertIdx index (mem, x), index⟩ adds := by
  have row := spun.row
  have inside := spun.inside (List.ne_nil_of_length_pos (by omega))
  obtain ⟨h, call, prevs, nexts, tags⟩ := ins_memory row spun.get spun.count inside (spun.ptr inside) (spun.number numbered)
    target front nonnull fresh x
  obtain ⟨one, -⟩ := spun.several (by omega)
  obtain ⟨l, r, split, rfl⟩ := split_at target
  have behind : l ≠ [] := fun none => front (by simp [none])
  rw [getLastD_addrs split behind] at prevs nexts
  generalize t.items[l.length] = e at *
  have first : d.pFirst = (addrs l).headD 0 := by
    rw [spun.first, split]
    obtain ⟨a, l, rfl⟩ := List.exists_cons_of_ne_nil behind
    rfl
  have last : d.pLast = (addrs (e :: r)).getLastD 0 := by
    rw [spun.last, split, addrs_append, addrs_cons, getLastD_append_cons]
  have ring := spun.ring (by simp [split])
  have count := spun.count
  have started := spun.started
  have out := row.fresh fresh
  rw [split] at row room count started out
  rw [split, insertIdx_split]
  refine ⟨_, _, call, spun.queue, setCol_get (s := s.withHeap h) spun.get _, row.inserted behind nonnull fresh prevs nexts tags,
    ?_, ?_, ?_, ?_, ?_, ?_, ?_, fun same => absurd same one, fun _ => ?_⟩
  · dsimp only
    rw [first]
    obtain ⟨a, l, rfl⟩ := List.exists_cons_of_ne_nil behind
    rfl
  · rw [addrs_append, addrs_cons, getLastD_append_cons]
    exact last
  · dsimp only
    rw [count, incr]
    simp only [List.length_append, List.length_cons] at room ⊢
    omega
  · simp only [List.length_append, List.length_cons] at room ⊢
    omega
  · simp [addrs]
  · intro _
    simp
  · rw [started]
    simp
  · -- the new item is not the last one
    have nodup := row.nodup
    rw [addrs_append] at nodup
    obtain ⟨-, -, apart⟩ := List.nodup_append.mp nodup
    have member : d.pLast ∈ addrs (e :: r) := last ▸ getLastD_mem (by simp) 0
    have member_last : (addrs l).getLastD 0 ∈ addrs l := getLastD_mem (addrs_ne_nil behind) 0
    have other : d.pLast ≠ (addrs l).getLastD 0 := fun same => apart _ member_last _ member same.symm
    have old : d.pLast ≠ mem := out _ (by rw [addrs_append]; exact List.mem_append_right _ member)
    exact (nexts d.pLast).trans ((if_neg old).trans ((if_neg other).trans ring))

/-! ## `ll_del` -/

/-- The column after an item of several was removed. -/
theorem Col.delete_ring {p prev next : Nat} (some : next ≠ 0) (several : d.pFirst ≠ d.pLast) :
    d.delete p prev next =
      { pCurrent := if p = d.pLast then prev else next, pFirst := if p = d.pFirst then next else d.pFirst,
        pLast := if p = d.pLast then prev else d.pLast, count := decr d.count,
        current := if p = d.pLast then decr d.current else d.current } := by
  unfold Col.delete
  by_cases first : p = d.pFirst
  · have notLast : p ≠ d.pLast := fun last => several (first.symm.trans last)
    simp [some, first, several]
  · by_cases last : p = d.pLast
    · simp [some, last, several.symm]
    · simp [some, first, last]

/-- The link of the first item to the one before it is null, or goes to the item itself or to the last one. -/
def Context.FrontSafe (s : Context α) (d : Col) : Prop :=
  prevAt s.heap d.pFirst = 0 ∨ prevAt s.heap d.pFirst = d.pFirst ∨ prevAt s.heap d.pFirst = d.pLast

/-- The links of what is left when an item of several leaves the ring: those of its neighbours, and those between the ends. -/
theorem removed_chain {prev next prev' next' : Nat → Nat} {b a first last : Nat} {l r : List Nat} {p : Nat}
    (chain : Chain prev next b (l ++ p :: r) a) (nodup : (l ++ p :: r).Nodup) (others : l ++ r ≠ [])
    (isFirst : first = (l ++ p :: r).headD 0) (isLast : last = (l ++ p :: r).getLastD 0) (ring : r = [] → next p = first)
    (safe : l = [] → prev p = 0 ∨ prev p = p ∨ prev p = last)
    (prevs : ∀ y ∈ l ++ r, prev' y = if y = next p then prev p else prev y)
    (nexts : ∀ y ∈ l ++ r, next' y = if p = last ∧ y = prev p then first else if p = first ∧ y = last then next p else
      if y = prev p then next p else next y) (some : 0 ∉ l ++ p :: r) :
    ∃ b' a', Chain prev' next' b' (l ++ r) a' := by
  have inner := nodup
  rw [List.nodup_middle, List.nodup_cons, List.mem_append, not_or] at inner
  obtain ⟨⟨out_l, out_r⟩, inner⟩ := inner
  obtain ⟨nodup_l, nodup_r, apart⟩ := List.nodup_append.mp inner
  obtain ⟨front, before, after, back⟩ := (chain_append _ _).mp chain
  cases l with
  | nil =>
    -- The first item goes: the second one takes its link back, and the last one is linked to the second.
    obtain ⟨f, r, rfl⟩ := List.exists_cons_of_ne_nil (List.nil_append r ▸ others)
    have head : next p = f := after
    have tail : last = (f :: r).getLastD 0 := isLast
    have member_last : last ∈ f :: r := tail ▸ getLastD_mem (List.cons_ne_nil f r) 0
    have notLast : p ≠ last := fun same => out_r (same ▸ member_last)
    have rebased : Chain prev' next (prev p) (f :: r) a := by
      refine back.rebase nodup_r (fun y member => ?_) fun _ _ => rfl
      rw [prevs y (by simpa using member), head]
      rfl
    refine ⟨prev p, f, rebased.retarget nodup_r (fun _ _ => rfl) fun y member => ?_⟩
    have end' : (f :: r).getLastD (prev p) = last := tail.symm
    rw [nexts y (by simpa using member), if_neg fun both => notLast both.1, end', head, isFirst]
    have self : y ≠ p := fun same => out_r (same ▸ member)
    have real : y ≠ 0 := by
      rintro rfl
      exact some (List.mem_cons_of_mem p member)
    by_cases here : y = last
    · simp [here]
    · have other : y ≠ prev p := by
        rcases safe rfl with null | loop | closed
        · exact null ▸ real
        · rwa [loop]
        · exact closed ▸ here
      simp [here, other]
  | cons c l =>
    have linked : prev p = (c :: l).getLastD 0 := before
    have notFirst : p ≠ first := by
      intro same
      exact out_l (by rw [same, isFirst]; exact List.mem_cons_self)
    cases r with
    | nil =>
      -- The last item goes: the one before it is linked to the first.
      have isLast : p = last := by rw [isLast, getLastD_append_cons, List.getLastD_cons, List.getLastD_nil]
      have head : next p = c := (ring rfl).trans (by simp [isFirst])
      rw [List.append_nil] at prevs nexts ⊢
      have rebased : Chain prev' next (prev p) (c :: l) p := by
        refine front.rebase nodup_l (fun y member => ?_) fun _ _ => rfl
        rw [prevs y member, head]
        rfl
      refine ⟨prev p, first, rebased.retarget nodup_l (fun _ _ => rfl) fun y member => ?_⟩
      have end' : (c :: l).getLastD (prev p) = prev p := linked.symm
      rw [nexts y member, end']
      by_cases here : y = prev p
      · simp [isLast.symm, here]
      · simp [here, notFirst]
    | cons f r =>
      have head : next p = f := after
      have member_last : last ∈ f :: r := by
        rw [isLast, getLastD_append_cons]
        exact getLastD_mem (List.cons_ne_nil f r) p
      have notLast : p ≠ last := fun same => out_r (same ▸ member_last)
      have member_prev : prev p ∈ c :: l := linked ▸ getLastD_mem (List.cons_ne_nil c l) 0
      have plain : ∀ y ∈ c :: l ++ f :: r, next' y = if y = prev p then f else next y := by
        intro y member
        rw [nexts y member, if_neg fun both => notLast both.1, if_neg fun both => notFirst both.1, head]
      refine ⟨b, a, chain.erase inner (fun y member => ?_) (fun y member => ?_) (fun y member => ?_) fun y member => ?_⟩
      · rw [prevs y (List.mem_append_left _ member), head, if_neg (apart y member f List.mem_cons_self)]
      · rw [plain y (List.mem_append_left _ member), before]
        rfl
      · rw [prevs y (List.mem_append_right _ member), head, before]
        rfl
      · have other : y ≠ prev p := fun same => apart _ member_prev y member same.symm
        rw [plain y (List.mem_append_right _ member), if_neg other]

/-- The first item of several is not the last one. -/
theorem Spun.ends_ne (spun : Spun s d t adds) (two : 2 ≤ t.items.length) : d.pFirst ≠ d.pLast := by
  rw [spun.first, spun.last, headD_addrs (by omega), getLastD_addrs_get (by omega)]
  intro same
  have := spun.row.inj (by omega) (by omega) same
  omega

/-- The item `e` of a closed ring of several, with `l` before it and `r` behind it. -/
structure Between (s : Context α) (d : Col) (l : List (Nat × α)) (e : Nat × α) (r : List (Nat × α)) : Prop where
  several : d.pFirst ≠ d.pLast
  ring : nextAt s.heap d.pLast = d.pFirst
  isFirst : e.1 = d.pFirst ↔ l = []
  isLast : e.1 = d.pLast ↔ r = []
  next : nextAt s.heap e.1 = if r = [] then d.pFirst else (addrs r).headD 0
  prev : l ≠ [] → prevAt s.heap e.1 = (addrs l).getLastD 0

/-- The links of the other items when the item at `p` is gone. -/
def prevsLeft (heap : Nat → Option (Item α)) (p q : Nat) : Nat :=
  if q = nextAt heap p ∧ nextAt heap p ≠ 0 then prevAt heap p else prevAt heap q

def nextsLeft (heap : Nat → Option (Item α)) (d : Col) (p q : Nat) : Nat :=
  if p = d.pLast ∧ q = prevAt heap p then d.pFirst else if p = d.pFirst ∧ q = d.pLast then nextAt heap p else
    if q = prevAt heap p ∧ prevAt heap p ≠ 0 then nextAt heap p else nextAt heap q

section Remove
variable {l r : List (Nat × α)} {e : Nat × α}

theorem length_split {items : List (Nat × α)} (split : items = l ++ e :: r) : items.length = l.length + (r.length + 1) := by
  rw [split, List.length_append, List.length_cons]

theorem two_of_others {items : List (Nat × α)} (split : items = l ++ e :: r) (others : l ++ r ≠ []) : 2 ≤ items.length := by
  have some := List.length_pos_of_ne_nil others
  rw [List.length_append] at some
  rw [length_split split]
  omega

/-- The item and the others have different addresses. -/
theorem Row.out {c : Nat} {items : List (Nat × α)} (row : Row s c items) (split : items = l ++ e :: r) :
    e.1 ∉ addrs l ∧ e.1 ∉ addrs r ∧ (addrs l ++ addrs r).Nodup := by
  have nodup := row.nodup
  rw [split, addrs_append, addrs_cons, List.nodup_middle, List.nodup_cons, List.mem_append, not_or] at nodup
  exact ⟨nodup.1.1, nodup.1.2, nodup.2⟩

theorem Spun.between (spun : Spun s d t adds) (split : t.items = l ++ e :: r) (others : l ++ r ≠ []) :
    Between s d l e r := by
  have row := spun.row
  have two := two_of_others split others
  have ring : nextAt s.heap d.pLast = d.pFirst := (spun.ring (by simp [split])).trans (if_neg (spun.several two).1)
  obtain ⟨out_l, out_r, -⟩ := row.out split
  have first := spun.first
  have last := spun.last
  obtain ⟨b, a, chain⟩ := row.chain
  rw [split, addrs_append, addrs_cons] at chain first last
  obtain ⟨-, before, after, -⟩ := (chain_append _ _).mp chain
  have isLast : e.1 = d.pLast ↔ r = [] := by
    rw [last, getLastD_append_cons]
    cases r with
    | nil => simp
    | cons c r =>
      refine iff_of_false (fun same => out_r ?_) (List.cons_ne_nil c r)
      rw [same]
      exact getLastD_mem (by simp) e.1
  refine ⟨spun.ends_ne two, ring, ?_, isLast, ?_, fun some => ?_⟩
  · rw [first]
    cases l with
    | nil => simp
    | cons c l =>
      refine iff_of_false (fun same => out_l ?_) (List.cons_ne_nil c l)
      rw [same]
      exact List.mem_cons_self
  · by_cases none : r = []
    · rw [if_pos none, isLast.mpr none, ring]
    · rw [if_neg none, after]
      cases r with
      | nil => exact absurd rfl none
      | cons c r => rfl
  · rw [before]
    cases l with
    | nil => exact absurd rfl some
    | cons c l => rfl

/-- The link back of the first item is null, or goes to an item that it may lead to. -/
theorem Between.loose (between : Between s d l e r) (safe : l = [] → s.FrontSafe d) (none : l = []) :
    prevAt s.heap e.1 = 0 ∨ prevAt s.heap e.1 = e.1 ∨ prevAt s.heap e.1 = d.pLast := by
  have front := safe none
  rwa [Context.FrontSafe, ← between.isFirst.mpr none] at front

/-- The item is freed, and its neighbours are linked. -/
theorem Spun.delItem_spec (spun : Spun s d t adds) (split : t.items = l ++ e :: r) (others : l ++ r ≠ [])
    (safe : l = [] → s.FrontSafe d) :
    ∃ h, s.delItem e.1 = some ((s.withHeap (Function.update h e.1 none)).setCol s.ccol
        { pCurrent := if e.1 = d.pLast then prevAt s.heap e.1 else nextAt s.heap e.1
          pFirst := if e.1 = d.pFirst then nextAt s.heap e.1 else d.pFirst
          pLast := if e.1 = d.pLast then prevAt s.heap e.1 else d.pLast
          count := decr d.count
          current := if e.1 = d.pLast then decr d.current else d.current }) ∧
      Relinked s.heap h (prevsLeft s.heap e.1) (nextsLeft s.heap d e.1) := by
  have row := spun.row
  have between := spun.between split others
  have items : addrs t.items = addrs l ++ e.1 :: addrs r := by rw [split, addrs_append, addrs_cons]
  have memberFirst : d.pFirst ∈ addrs t.items := spun.first ▸ headD_mem (by simp [split]) 0
  have memberLast : d.pLast ∈ addrs t.items := spun.last ▸ getLastD_mem (by simp [split]) 0
  have live : ∀ p ∈ addrs t.items, Valid s.heap p := fun p member _ => row.isSome_addr member
  have real : ∀ p ∈ addrs t.items, p ≠ 0 := fun p member same => row.nonnull (same ▸ member)
  have memberNext : nextAt s.heap e.1 ∈ addrs t.items := by
    rw [between.next]
    by_cases none : r = []
    · rwa [if_pos none]
    · rw [if_neg none, items]
      exact List.mem_append_right _ (List.mem_cons_of_mem _ (headD_mem (addrs_ne_nil none) 0))
  have inLeft : l ≠ [] → prevAt s.heap e.1 ∈ addrs t.items := by
    intro some
    rw [between.prev some, items]
    exact List.mem_append_left _ (getLastD_mem (addrs_ne_nil some) 0)
  have memberPrev : prevAt s.heap e.1 ≠ 0 → prevAt s.heap e.1 ∈ addrs t.items := by
    intro some
    by_cases none : l = []
    · rcases between.loose safe none with null | self | closed
      · exact absurd null some
      · rw [self, items]
        simp
      · rwa [closed]
    · exact inLeft none
  obtain ⟨h, call, relinked⟩ := delItem_queue spun.queue spun.get (row.item (e := e) (by simp [split]))
    (fun some => live _ (memberPrev some) some) (live _ memberNext) between.several
    (fun _ => ⟨real _ memberLast, row.isSome_addr memberLast⟩) fun here => real _ (inLeft fun none =>
      between.several ((between.isFirst.mpr none).symm.trans here))
  dsimp only at call relinked
  rw [Col.delete_ring (real _ memberNext) between.several] at call
  exact ⟨h, call, relinked⟩

/-- The others are a row. -/
theorem Spun.left_row (spun : Spun s d t adds) (split : t.items = l ++ e :: r) (others : l ++ r ≠ [])
    (safe : l = [] → s.FrontSafe d) {h : Nat → Option (Item α)} {d' : Col}
    (relinked : Relinked s.heap h (prevsLeft s.heap e.1) (nextsLeft s.heap d e.1)) :
    Row ((s.withHeap (Function.update h e.1 none)).setCol s.ccol d') s.ccol (l ++ r) := by
  have row := spun.row
  have between := spun.between split others
  have items : addrs t.items = addrs l ++ e.1 :: addrs r := by rw [split, addrs_append, addrs_cons]
  obtain ⟨prevs, nexts, tags⟩ := relinked
  obtain ⟨out_l, out_r, inner⟩ := row.out split
  have first := spun.first
  have last := spun.last
  have nodup := row.nodup
  obtain ⟨b, a, chain⟩ := row.chain
  rw [items] at chain first last nodup
  have other : ∀ y ∈ addrs l ++ addrs r, y ≠ e.1 ∧ y ≠ 0 := by
    intro y member
    refine ⟨?_, fun same => row.nonnull (same ▸ ?_)⟩
    · rintro rfl
      exact (List.mem_append.mp member).elim out_l out_r
    · rw [items]
      exact List.perm_middle.mem_iff.mpr (List.mem_cons_of_mem _ member)
  refine ⟨?_, ?_, ?_, ?_⟩
  · intro f member
    have out : f.1 ≠ e.1 := (other f.1 (by rw [← addrs_append]; exact mem_addrs.mpr ⟨f, member, rfl⟩)).1
    refine (tagAt_free _ _ _).trans ((if_neg out).trans ((tags f.1).trans (row.live f ?_)))
    rw [split]
    exact List.perm_middle.mem_iff.mpr (List.mem_cons_of_mem _ member)
  · rwa [addrs_append]
  · rw [addrs_append]
    exact fun member => (other 0 member).2 rfl
  · rw [addrs_append]
    refine removed_chain chain nodup (by simpa [addrs] using others) first last (fun none => ?_) (fun none => ?_)
      (fun y member => ?_) (fun y member => ?_) (items ▸ row.nonnull)
    · rw [between.next, if_pos (by simpa [addrs] using none)]
    · exact between.loose safe (by simpa [addrs] using none)
    · refine (prevAt_free _ _ _).trans ((if_neg (other y member).1).trans ((prevs y).trans ?_))
      rw [prevsLeft, ite_nonnull (other y member).2]
    · refine (nextAt_free _ _ _).trans ((if_neg (other y member).1).trans ((nexts y).trans ?_))
      rw [nextsLeft, ite_nonnull (other y member).2]

/-- The ring is closed without the item. -/
theorem Spun.left_ring (spun : Spun s d t adds) (split : t.items = l ++ e :: r) (others : l ++ r ≠ [])
    {h : Nat → Option (Item α)} (relinked : Relinked s.heap h (prevsLeft s.heap e.1) (nextsLeft s.heap d e.1)) :
    nextAt (Function.update h e.1 none) (if e.1 = d.pLast then prevAt s.heap e.1 else d.pLast) =
      if e.1 = d.pFirst then nextAt s.heap e.1 else d.pFirst := by
  have between := spun.between split others
  obtain ⟨out_l, out_r, inner⟩ := spun.row.out split
  obtain ⟨-, nexts, -⟩ := relinked
  by_cases none : r = []
  · have here := between.isLast.mpr none
    have behind : l ≠ [] := by simpa [none] using others
    have notFirst : e.1 ≠ d.pFirst := fun same => between.several (same.symm.trans here)
    have self : prevAt s.heap e.1 ≠ e.1 := by
      rw [between.prev behind]
      exact fun same => out_l (same ▸ getLastD_mem (addrs_ne_nil behind) 0)
    rw [if_pos here, if_neg notFirst]
    refine (nextAt_free _ _ _).trans ((if_neg self).trans ((nexts _).trans ?_))
    rw [nextsLeft, if_pos ⟨here, rfl⟩]
  · have notLast : e.1 ≠ d.pLast := fun same => none (between.isLast.mp same)
    rw [if_neg notLast]
    refine (nextAt_free _ _ _).trans ((if_neg notLast.symm).trans ((nexts _).trans ?_))
    rw [nextsLeft, if_neg fun both => notLast both.1]
    by_cases front : e.1 = d.pFirst
    · rw [if_pos ⟨front, rfl⟩, if_pos front]
    · have behind : l ≠ [] := fun none => front (between.isFirst.mpr none)
      have inRight : d.pLast ∈ addrs r := by
        rw [spun.last, split, addrs_append, addrs_cons, getLastD_append_cons]
        obtain ⟨c, r, rfl⟩ := List.exists_cons_of_ne_nil none
        exact getLastD_mem (by simp) e.1
      have apart : d.pLast ≠ prevAt s.heap e.1 := by
        rw [between.prev behind]
        intro same
        obtain ⟨-, -, disjoint⟩ := List.nodup_append.mp inner
        exact disjoint _ (getLastD_mem (addrs_ne_nil behind) 0) _ inRight same.symm
      rw [if_neg fun both => front both.1, if_neg fun both => apart both.1, if_neg front, between.ring]

/-- An item of several leaves the rotating list. -/
theorem Spun.remove (spun : Spun s d t adds) (split : t.items = l ++ e :: r)
    (others : l ++ r ≠ []) (safe : l = [] → s.FrontSafe d) :
    ∃ s' d', s.delItem e.1 = some s' ∧ Spun s' d' ⟨l ++ r, if r = [] then l.length - 1 else l.length⟩ adds := by
  have between := spun.between split others
  have two := two_of_others split others
  have length := length_split split
  have small := spun.small
  obtain ⟨one, started⟩ := spun.several two
  obtain ⟨out_l, -, -⟩ := spun.row.out split
  have first := spun.first
  have last := spun.last
  rw [split, addrs_append, addrs_cons] at first last
  obtain ⟨h, call, relinked⟩ := spun.delItem_spec split others safe
  refine ⟨_, _, call, spun.queue, setCol_get (s := s.withHeap (Function.update h e.1 none)) spun.get _,
    spun.left_row split others safe relinked, ?_, ?_, ?_, ?_, ?_, ?_, iff_of_false started others,
    fun same => absurd same one, fun _ => ?_⟩
  · dsimp only
    rw [first, addrs_append]
    cases l with
    | nil =>
      have none : r ≠ [] := by simpa using others
      simp [between.next, none]
    | cons c l =>
      have apart : e.1 ≠ c.1 := fun same => out_l (by simp [same])
      simp [apart]
  · dsimp only
    by_cases none : r = []
    · subst none
      rw [if_pos (between.isLast.mpr rfl), between.prev (by simpa using others), List.append_nil]
    · rw [if_neg (fun same => none (between.isLast.mp same)), last, getLastD_append_cons, addrs_append]
      obtain ⟨c, r, rfl⟩ := List.exists_cons_of_ne_nil none
      rw [addrs_cons, getLastD_append_cons]
      rfl
  · dsimp only
    rw [spun.count, decr_eq (by omega) (by omega), length, List.length_append]
    omega
  · rw [List.length_append]
    omega
  · dsimp only
    by_cases none : r = []
    · subst none
      rw [if_pos (between.isLast.mpr rfl), if_pos rfl, between.prev (by simpa using others), List.append_nil,
        List.getLastD_eq_getLast?, List.getLast?_eq_getElem?, List.getD_eq_getElem?_getD, length_addrs]
    · rw [if_neg (fun same => none (between.isLast.mp same)), if_neg none, between.next, if_neg none]
      obtain ⟨c, r, rfl⟩ := List.exists_cons_of_ne_nil none
      simp
  · intro some
    have positive := List.length_pos_of_ne_nil some
    dsimp only at positive ⊢
    rw [List.length_append] at positive ⊢
    by_cases none : r = []
    · simp only [none, if_true, List.length_nil] at positive ⊢
      omega
    · have more := List.length_pos_of_ne_nil none
      rw [if_neg none]
      omega
  · rw [if_neg one]
    exact spun.left_ring split others relinked

end Remove

/-! ## `ll_roll` -/

/-- The memory after `ll_roll` of several items. -/
theorem roll_memory (queue : s.mode = .queue) (get : s.state[s.ccol]? = some d) (several : d.pFirst ≠ d.pLast) {it : Item α}
    (item : s.item d.pFirst = some it) (first : d.pFirst ≠ 0) (last : d.pLast ≠ 0) (live : (tagAt s.heap d.pLast).isSome)
    (some' : it.next ≠ 0) (valid : (tagAt s.heap it.next).isSome) :
    ∃ h, s.roll = some ((s.withHeap h).setCol s.ccol
        { d with pCurrent := it.next, pFirst := it.next, pLast := d.pFirst }) ∧
      Relinked s.heap h (fun q => if q = it.next then d.pLast else if q = d.pFirst then d.pLast else prevAt s.heap q)
        (fun q => if q = d.pFirst then it.next else if q = d.pLast then d.pFirst else nextAt s.heap q) := by
  let d₁ : Col := { d with pCurrent := it.next, pFirst := it.next }
  have tag : (tagAt s.heap d.pFirst).isSome := by
    have there : s.heap d.pFirst = some it := by simpa [Context.item, first] using item
    simp [tagAt, there]
  obtain ⟨h₁, write₁, prevs₁, nexts₁, tags₁⟩ := setNext_spec (s := s.setCol s.ccol d₁) last live d.pFirst
  simp only [setCol_heap, setCol_withHeap] at write₁ prevs₁ nexts₁ tags₁
  obtain ⟨h₂, write₂, prevs₂, nexts₂, tags₂⟩ := setPrev_spec (s := (s.withHeap h₁).setCol s.ccol d₁) first
    (by rw [setCol_heap, withHeap_heap, tags₁]; exact tag) d.pLast
  simp only [setCol_heap, setCol_withHeap, withHeap_heap, withHeap_withHeap] at write₂ prevs₂ nexts₂ tags₂
  obtain ⟨h₃, write₃, prevs₃, nexts₃, tags₃⟩ := setNext_spec (s := (s.withHeap h₂).setCol s.ccol d₁) first
    (by rw [setCol_heap, withHeap_heap, tags₂, tags₁]; exact tag) it.next
  simp only [setCol_heap, setCol_withHeap, withHeap_heap, withHeap_withHeap] at write₃ prevs₃ nexts₃ tags₃
  obtain ⟨h, write₄, prevs₄, nexts₄, tags₄⟩ := setPrev_spec (s := (s.withHeap h₃).setCol s.ccol d₁) some'
    (by rw [setCol_heap, withHeap_heap, tags₃, tags₂, tags₁]; exact valid) d.pLast
  simp only [setCol_heap, setCol_withHeap, withHeap_heap, withHeap_withHeap] at write₄ prevs₄ nexts₄ tags₄
  have get₄ : (s.withHeap h).state[(s.withHeap h).ccol]? = some d := get
  refine ⟨h, ?_, ?_, ?_, ?_⟩
  · simp only [Context.roll, queue, get, Option.bind_eq_bind, Option.bind_some, item, if_neg several, modCol_eq get]
    change ((s.setCol s.ccol d₁).setNext d.pLast d.pFirst).bind _ = _
    rw [write₁]
    change (((s.withHeap h₁).setCol s.ccol d₁).setPrev d.pFirst d.pLast).bind _ = _
    rw [write₂]
    change (((s.withHeap h₂).setCol s.ccol d₁).setNext d.pFirst it.next).bind _ = _
    rw [write₃]
    change (((s.withHeap h₃).setCol s.ccol d₁).setPrev it.next d.pLast).bind _ = _
    rw [write₄, Option.bind_some]
    refine congrArg some ((modCol_eq (setCol_get get₄ d₁) _).trans ?_)
    exact setCol_setCol _ _ _ _
  · intro q
    rw [prevs₄, prevs₃, prevs₂, prevs₁]
  · intro q
    rw [nexts₄, nexts₃, nexts₂, nexts₁]
  · intro q
    rw [tags₄, tags₃, tags₂, tags₁]

/-- The only item stays. -/
theorem Spun.roll_single (spun : Spun s d t adds) {x : Nat × α} (items : t.items = [x]) : s.roll = some s ∧ t.pos = 0 := by
  have first : d.pFirst = x.1 := by rw [spun.first, items]; rfl
  have last : d.pLast = x.1 := by rw [spun.last, items]; rfl
  have item := spun.row.item (e := x) (by simp [items])
  have inside := spun.inside (by simp [items])
  rw [items] at inside
  refine ⟨?_, Nat.lt_one_iff.mp inside⟩
  simp only [Context.roll, spun.queue, spun.get, Option.bind_eq_bind, Option.bind_some, first, item, last, if_true]

/-- The row with the first item behind the others. -/
theorem Row.rotated {x c : Nat × α} {l : List (Nat × α)} {last : Nat} (row : Row s s.ccol (x :: c :: l))
    (isLast : last = (addrs (c :: l)).getLastD 0) {h : Nat → Option (Item α)} {d' : Col}
    (relinked : Relinked s.heap h (fun q => if q = c.1 then last else if q = x.1 then last else prevAt s.heap q)
      fun q => if q = x.1 then c.1 else if q = last then x.1 else nextAt s.heap q) :
    Row ((s.withHeap h).setCol s.ccol d') s.ccol (c :: l ++ [x]) := by
  obtain ⟨prevs, nexts, tags⟩ := relinked
  have nodup : (x.1 :: addrs (c :: l)).Nodup := row.nodup
  obtain ⟨fresh, -⟩ := List.nodup_cons.mp nodup
  have apart : x.1 ≠ c.1 := fun same => fresh (same ▸ List.mem_cons_self)
  have moved := List.perm_append_singleton x.1 (addrs (c :: l))
  obtain ⟨b, a, chain⟩ := row.chain
  refine ⟨?_, ?_, ?_, ?_⟩
  · intro e member
    refine (tags e.1).trans (row.live e ?_)
    exact (List.perm_append_singleton x (c :: l)).mem_iff.mp member
  · rw [addrs_append]
    exact moved.nodup_iff.mpr nodup
  · rw [addrs_append]
    exact fun member => row.nonnull (moved.mem_iff.mp member)
  · rw [addrs_append]
    refine ⟨last, c.1, chain.rotate nodup (fun y member => ?_) (fun y member => ?_) ?_ ?_⟩
    · have other : y ≠ x.1 := fun same => fresh (same ▸ member)
      refine (prevs y).trans ?_
      rw [if_neg other]
      rfl
    · have other : y ≠ x.1 := fun same => fresh (same ▸ member)
      refine (nexts y).trans ?_
      rw [if_neg other, isLast]
      rfl
    · refine (prevs x.1).trans ?_
      rw [if_neg apart, if_pos rfl, isLast]
      rfl
    · exact (nexts x.1).trans (if_pos rfl)

/-- The first item goes to the end. -/
theorem Spun.roll (spun : Spun s d t adds) (some' : t.items ≠ []) :
    ∃ s' d', s.roll = some s' ∧ Spun s' d' ⟨t.items.rotate 1, 0⟩ adds := by
  have row := spun.row
  obtain ⟨x, l, items⟩ := List.exists_cons_of_ne_nil some'
  cases l with
  | nil =>
    obtain ⟨stays, pos⟩ := spun.roll_single items
    refine ⟨s, d, stays, ?_⟩
    have same : t.items.rotate 1 = t.items := by rw [items, List.rotate_singleton]
    rw [same, ← pos]
    exact spun
  | cons c l =>
    have turned : t.items.rotate 1 = c :: l ++ [x] := by rw [items, List.rotate_cons_succ, List.rotate_zero]
    have two : 2 ≤ t.items.length := by
      rw [items, List.length_cons, List.length_cons]
      omega
    obtain ⟨one, -⟩ := spun.several two
    have first : d.pFirst = x.1 := by rw [spun.first, items]; rfl
    have last : d.pLast = (addrs (c :: l)).getLastD 0 := by rw [spun.last, items]; rfl
    have next : nextAt s.heap x.1 = c.1 := by
      obtain ⟨b, a, chain⟩ := row.chain
      rw [items] at chain
      exact chain.2.1
    have memberLast : d.pLast ∈ addrs t.items := spun.last ▸ getLastD_mem (by simp [items]) 0
    have memberNext : c.1 ∈ addrs t.items := by
      rw [items]
      exact List.mem_cons_of_mem _ List.mem_cons_self
    have real : ∀ p ∈ addrs t.items, p ≠ 0 := fun p member same => row.nonnull (same ▸ member)
    have there : s.item d.pFirst = some ⟨s.self, s.ccol, prevAt s.heap x.1, c.1, x.2⟩ := by
      rw [first, row.item (e := x) (by simp [items]), next]
    obtain ⟨h, call, relinked⟩ := roll_memory spun.queue spun.get (spun.ends_ne two) there
      (first ▸ row.real (by simp [items])) (real _ memberLast) (row.isSome_addr memberLast) (real _ memberNext)
      (row.isSome_addr memberNext)
    dsimp only at call relinked
    rw [first] at call relinked
    rw [turned]
    rw [items] at row
    refine ⟨_, _, call, spun.queue, setCol_get (s := s.withHeap h) spun.get _, row.rotated last relinked, rfl, ?_, ?_, ?_,
      rfl, ?_, ?_, ?_, ?_⟩
    · rw [addrs_append, addrs_cons x, getLastD_append_cons]
      rfl
    · rw [← turned, List.length_rotate]
      exact spun.count
    · rw [← turned, List.length_rotate]
      exact spun.small
    · intro _
      rw [← turned, List.length_rotate]
      exact List.length_pos_of_ne_nil some'
    · rw [spun.started, ← turned, List.rotate_eq_nil_iff]
    · rw [← turned, List.length_rotate]
      exact spun.single
    · intro _
      rw [if_neg one]
      exact (relinked.next x.1).trans (if_pos rfl)

/-! ## The cursor -/

theorem Spun.moved (spun : Spun s d t adds) {i p cur : Nat} (inside : i < t.items.length) (pointer : p = t.items[i].1) :
    ∃ s' d', some (p + hdrSize, s.setCol s.ccol { d with pCurrent := p, current := cur }) = some ((t.moveTo i).1, s') ∧
      Spun s' d' (t.moveTo i).2 adds := by
  have next := @Spun.cursor α s d t adds spun i p cur (fun _ => inside) (pointer.trans (addrs_getD inside).symm)
  rw [Deck.moveTo, if_pos inside, Deck.ptr_eq inside, ← pointer]
  exact ⟨_, _, rfl, next⟩

/-- Where the current item is linked to. -/
theorem Spun.link (spun : Spun s d t adds) (some : t.items ≠ []) : nextAt s.heap d.pCurrent =
    if t.pos + 1 < t.items.length then (addrs t.items).getD (t.pos + 1) 0
    else if adds = 1 then 0 else (addrs t.items).getD 0 0 := by
  have inside := spun.inside some
  have positive := List.length_pos_of_ne_nil some
  rw [spun.ptr inside]
  by_cases more : t.pos + 1 < t.items.length
  · rw [if_pos more, addrs_getD more, spun.row.next_get more]
  · have atLast : t.items[t.pos].1 = d.pLast := by
      rw [spun.last, getLastD_addrs_get (by omega)]
      congr 2
      omega
    rw [if_neg more, atLast, spun.ring some, spun.first, addrs_getD positive, headD_addrs positive]

theorem Spun.next (spun : Spun s d t adds) (linked : d.count ≠ 0 → nextAt s.heap d.pCurrent ≠ 0) :
    ∃ s' d', s.next = some ((t.moveTo (if t.pos + 1 < t.items.length then t.pos + 1 else 0)).1, s') ∧
      Spun s' d' (t.moveTo (if t.pos + 1 < t.items.length then t.pos + 1 else 0)).2 adds := by
  simp only [Context.next, spun.get, Option.bind_eq_bind, Option.bind_some]
  by_cases none : t.items = []
  · have still : t.moveTo (if t.pos + 1 < t.items.length then t.pos + 1 else 0) = (0, t) := by simp [Deck.moveTo, none]
    rw [if_pos (spun.empty none).1, still]
    exact ⟨s, d, rfl, spun⟩
  · have inside := spun.inside none
    have goes := linked (by rw [spun.count]; exact fun zero => none (List.length_eq_zero_iff.mp zero))
    have link := spun.link none
    have item := spun.row.item (List.getElem_mem inside)
    rw [← spun.ptr inside] at item
    have real : d.pCurrent ≠ 0 := by
      rw [spun.ptr inside]
      exact spun.row.real (List.getElem_mem inside)
    rw [if_neg real, item]
    simp only [Option.bind_some, if_neg goes, modCol_eq spun.get]
    by_cases more : t.pos + 1 < t.items.length
    · rw [if_pos more] at link ⊢
      exact spun.moved more (link.trans (addrs_getD more))
    · have one : adds ≠ 1 := by
        intro one
        rw [if_neg more, if_pos one] at link
        exact goes link
      have positive : 0 < t.items.length := by omega
      rw [if_neg more] at link ⊢
      rw [if_neg one] at link
      exact spun.moved positive (link.trans (addrs_getD positive))

theorem Spun.toFirst (spun : Spun s d t adds) :
    ∃ s' d', s.first = some ((t.moveTo 0).1, s') ∧ Spun s' d' (t.moveTo 0).2 adds := by
  simp only [Context.first, spun.get, Option.bind_eq_bind, Option.bind_some, modCol_eq spun.get]
  by_cases none : t.items = []
  · rw [if_pos (spun.empty none).2.1]
    have still : t.moveTo 0 = (0, t) := by simp [Deck.moveTo, none]
    rw [still]
    exact ⟨s, d, rfl, spun⟩
  · have positive := List.length_pos_of_ne_nil none
    have first : d.pFirst = t.items[0].1 := by rw [spun.first, headD_addrs positive]
    rw [if_neg (first ▸ spun.row.real (List.getElem_mem positive))]
    exact spun.moved positive first

end Spun

end PreTeO.Common
