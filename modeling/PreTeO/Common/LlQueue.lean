import PreTeO.Common.LlRing

/-!
# A list in queue mode

The rotating list that queue mode is there for. Calls that the ring is good for return what they return on the rotating list;
after them the list goes around, unless `ll_add` was called once only: it links the new item to `p_first` before it sets
`p_first`, so that the only item of a list is followed by null, and not by itself.
-/

namespace PreTeO.Common
set_option autoImplicit false
open PreTeO.Lib

variable {α : Type}

/-- A call on the rotating list, where the first item comes after the last one. -/
def Deck.spin (t : Deck α) : Call α → Ret × Deck α
  | .roll => (.void, ⟨t.items.rotate 1, 0⟩)
  | .next => let (p, t) := t.moveTo (if t.pos + 1 < t.items.length then t.pos + 1 else 0); (.ptr p, t)
  | call => t.step call

/-- The pointers that come up on the way around the rotating list, every item once, and then the first again. -/
def tour : List (Nat × α) → List Ret
  | [] => [.ptr 0]
  | e :: items => (e :: items ++ [e]).map fun e => .ptr (e.1 + hdrSize)

/-- `ll_first` and as many `ll_next` as there are items go around. -/
def Context.Rotates (s : Context α) (t : Deck α) : Prop :=
  ∃ s', outcome Context.step s (.first :: List.replicate t.items.length .next) = some (tour t.items, s')

/-- A call that queue mode is used with: the allocator succeeds and returns memory that is not in use, and a list that is
rolled has items. -/
def Call.OnQueue (s : Context α) : Call α → Prop
  | .add _ mem | .ins _ _ mem => mem ≠ 0 ∧ s.heap mem = none
  | .roll => ∃ d, s.state[s.ccol]? = some d ∧ d.count ≠ 0
  | .del | .delAt _ | .next | .first => True
  | _ => False

/-- A list of one column in queue mode that was never used. -/
structure Context.ZeroedQueue (s : Context α) : Prop where
  queue : s.mode = .queue
  column : s.state = [Col.zero]
  selected : s.ccol = 0

section Queue
variable {s : Context α}

theorem Context.ZeroedQueue.get (zeroed : s.ZeroedQueue) : s.state[s.ccol]? = some Col.zero := by
  rw [zeroed.column, zeroed.selected]
  rfl

end Queue

section Spun
variable {s : Context α} {d : Col} {t : Deck α} {adds : Nat}

/-- A call that the ring is good for, with the column in the state `d`: not on the only item, not before the first one, and by
an index only where the column knows the index of the current item. -/
def Call.Turns (s : Context α) (d : Col) : Call α → Prop
  | .add _ _ => d.count + 1 < 2 ^ 32
  | .ins index _ _ => index < d.count → index ≠ 0 ∧ d.count + 1 < 2 ^ 32 ∧ s.Numbered d
  | .delAt index => index < d.count → d.count ≠ 1 ∧ s.Numbered d ∧ (index = 0 → s.FrontSafe d)
  | .del => d.count ≠ 0 → d.count ≠ 1 ∧ (d.pCurrent = d.pFirst → s.FrontSafe d)
  | .next => d.count ≠ 0 → nextAt s.heap d.pCurrent ≠ 0
  | _ => True

/-- 1 for `ll_add`. -/
def Call.ofAdd : Call α → Nat
  | .add _ _ => 1
  | _ => 0

theorem Spun.removeAt (spun : Spun s d t adds) {index : Nat} (inside : index < t.items.length) (single : d.count ≠ 1)
    (safe : index = 0 → s.FrontSafe d) :
    ∃ s' d', s.delItem t.items[index].1 = some s' ∧ Spun s' d' (t.delAt index) adds := by
  obtain ⟨l, r, split, rfl⟩ := split_at inside
  have others : l ++ r ≠ [] := by
    intro none
    obtain ⟨rfl, rfl⟩ := List.append_eq_nil_iff.mp none
    rw [spun.count, split] at single
    exact single rfl
  rw [Deck.delAt_split split]
  exact spun.remove split others fun none => safe (by simp [none])

/-- A call that the ring is good for returns what it returns on the rotating list. -/
theorem Spun.step (spun : Spun s d t adds) {call : Call α} (on : call.OnQueue s) (turns : call.Turns s d) :
    ∃ s' d', s.step call = some ((t.spin call).1, s') ∧ Spun s' d' (t.spin call).2 (adds + call.ofAdd) := by
  have count := spun.count
  cases call with
  | init | uninit | cnt | get | clr | col | sel | mov | prev | current | last => exact absurd on id
  | add x mem =>
    obtain ⟨nonnull, fresh⟩ := on
    obtain ⟨s', d', call, next⟩ := spun.add nonnull (tagAt_none.mpr fresh) (count ▸ turns) x
    refine ⟨s', d', ?_, ?_⟩
    · simp only [Context.step, call, Option.map_some, Deck.spin, Deck.step, Deck.add, if_neg nonnull]
    · simpa only [Deck.spin, Deck.step, Deck.add, if_neg nonnull, Call.ofAdd] using next
  | ins index x mem =>
    obtain ⟨nonnull, fresh⟩ := on
    by_cases inside : index < t.items.length
    · obtain ⟨front, room, numbered⟩ := turns (count ▸ inside)
      obtain ⟨s', d', call, next⟩ := spun.ins numbered inside front nonnull (tagAt_none.mpr fresh) (count ▸ room) x
      refine ⟨s', d', ?_, ?_⟩
      · simp only [Context.step, call, Option.map_some, Deck.spin, Deck.step, Deck.ins, if_pos inside, if_neg nonnull]
      · simpa only [Deck.spin, Deck.step, Deck.ins, if_pos inside, if_neg nonnull, Call.ofAdd, Nat.add_zero] using next
    · refine ⟨s, d, ?_, ?_⟩
      · simp only [Context.step, Context.ins, spun.get, Option.bind_eq_bind, Option.bind_some, count, if_neg inside,
          Option.map_some, Deck.spin, Deck.step, Deck.ins]
      · simpa only [Deck.spin, Deck.step, Deck.ins, if_neg inside, Call.ofAdd, Nat.add_zero] using spun
  | delAt index =>
    by_cases inside : index < t.items.length
    · obtain ⟨single, numbered, safe⟩ := turns (count ▸ inside)
      have within := spun.inside (List.ne_nil_of_length_pos (by omega))
      have found := spun.row.getHdr spun.get count within (spun.ptr within) (spun.number numbered) inside
      have moved := @Spun.cursor α s d t adds spun index _ index (fun _ => inside) (addrs_getD inside).symm
      obtain ⟨s', d', call, next⟩ := moved.removeAt inside single safe
      have same : (⟨t.items, index⟩ : Deck α).delAt index = t.delAt index := by simp only [Deck.delAt, if_pos inside]
      rw [same] at next
      refine ⟨s', d', ?_, next⟩
      simp only [Context.step, Context.delAt, found, Option.bind_eq_bind, Option.bind_some,
        if_neg (spun.row.real (List.getElem_mem inside))]
      rw [call]
      rfl
    · refine ⟨s, d, ?_, ?_⟩
      · rw [Context.step, Context.delAt, getHdr_outside spun.get (by omega)]
        rfl
      · simpa only [Deck.spin, Deck.step, Deck.delAt, if_neg inside, Call.ofAdd, Nat.add_zero] using spun
  | del =>
    by_cases none : t.items = []
    · refine ⟨s, d, ?_, ?_⟩
      · simp only [Context.step, Context.del, spun.get, Option.bind_eq_bind, Option.bind_some, (spun.empty none).1, if_true,
          Option.map_some, Deck.spin, Deck.step]
      · have outside : ¬ t.pos < t.items.length := by simp [none]
        simpa only [Deck.spin, Deck.step, Deck.delAt, if_neg outside, Call.ofAdd, Nat.add_zero] using spun
    · have inside := spun.inside none
      have positive := List.length_pos_of_ne_nil none
      obtain ⟨single, safe⟩ := turns (by omega)
      obtain ⟨s', d', call, next⟩ := spun.removeAt inside single fun front => safe (by
        rw [spun.ptr inside, spun.first, headD_addrs positive]
        simp only [front])
      refine ⟨s', d', ?_, next⟩
      simp only [Context.step, Context.del, spun.get, Option.bind_eq_bind, Option.bind_some, spun.ptr inside,
        if_neg (spun.row.real (List.getElem_mem inside)), call, Option.map_some, Deck.spin, Deck.step]
  | roll =>
    obtain ⟨d', get, some'⟩ := on
    obtain rfl : d = d' := Option.some.inj (spun.get.symm.trans get)
    obtain ⟨s', d', call, next⟩ := spun.roll fun none => some' (by simp [count, none])
    exact ⟨s', d', by simp only [Context.step, call, Option.map_some, Deck.spin], next⟩
  | next =>
    obtain ⟨s', d', call, next⟩ := spun.next turns
    exact ⟨s', d', by simp only [Context.step, call, Option.map_some, Deck.spin], next⟩
  | first =>
    obtain ⟨s', d', call, next⟩ := spun.toFirst
    exact ⟨s', d', by simp only [Context.step, call, Option.map_some, Deck.spin, Deck.step], next⟩

/-- The calls of a run that are each good for the ring. -/
def Call.Fits (s : Context α) (call : Call α) : Prop :=
  call.OnQueue s ∧ ∀ d, s.state[s.ccol]? = some d → call.Turns s d

/-- How often a list of calls calls `ll_add`. -/
def addCalls : List (Call α) → Nat
  | [] => 0
  | call :: rest => call.ofAdd + addCalls rest

theorem Spun.run (spun : Spun s d t adds) (calls : List (Call α)) (allowed : Allowed Context.step Call.Fits s calls) :
    ∃ s' d', outcome Context.step s calls = some ((results Deck.spin t calls).1, s') ∧
      Spun s' d' (results Deck.spin t calls).2 (adds + addCalls calls) := by
  induction calls generalizing s d t adds with
  | nil => exact ⟨s, d, rfl, spun⟩
  | cons call rest ih =>
    obtain ⟨⟨on, turns⟩, later⟩ := allowed
    obtain ⟨s', d', returns, next⟩ := spun.step on (turns d spun.get)
    obtain ⟨s'', d'', tail, last⟩ := ih next (later _ s' returns)
    refine ⟨s'', d'', ?_, ?_⟩
    · simp only [outcome, returns, Option.bind_some, tail, Option.map_some, results]
    · simpa only [results, addCalls, Nat.add_assoc] using last

/-! ## Going around -/

/-- From an item on, the calls of `ll_next` come by the items behind it and then to the first. -/
theorem results_next {l r : List (Nat × α)} {e f : Nat × α} (first : (l ++ e :: r).head? = some f) :
    (results Deck.spin ⟨l ++ e :: r, l.length⟩ (List.replicate (r.length + 1) .next)).1 =
      (r ++ [f]).map fun e => .ptr (e.1 + hdrSize) := by
  induction r generalizing l e with
  | nil =>
    have start : (⟨l ++ [e], l.length⟩ : Deck α).ptr 0 = f.1 + hdrSize := by
      rw [List.head?_eq_getElem?] at first
      simp only [Deck.ptr, first]
    have last : ¬ l.length + 1 < (l ++ [e]).length := by simp
    simp [results, Deck.spin, Deck.moveTo, start]
  | cons g r ih =>
    have next : (⟨l ++ e :: g :: r, l.length⟩ : Deck α).ptr (l.length + 1) = g.1 + hdrSize := by
      simp [Deck.ptr]
    have more : l.length + 1 < (l ++ e :: g :: r).length := by simp
    have rest := @ih (l ++ [e]) g (by simpa using first)
    rw [List.append_assoc, List.singleton_append, List.length_append, List.length_singleton] at rest
    rw [List.length_cons, List.replicate_succ, results]
    simp only [Deck.spin, if_pos more, Deck.moveTo, next, List.cons_append, List.map_cons]
    rw [rest]

theorem results_tour (t : Deck α) :
    (results Deck.spin t (.first :: List.replicate t.items.length .next)).1 = tour t.items := by
  obtain ⟨items, pos⟩ := t
  cases items with
  | nil => simp [results, Deck.spin, Deck.step, Deck.moveTo, tour]
  | cons e r =>
    have around := @results_next α [] r e e rfl
    have start : (⟨e :: r, pos⟩ : Deck α).ptr 0 = e.1 + hdrSize := rfl
    simp only [List.nil_append, List.length_nil] at around
    simp only [results, Deck.spin, Deck.step, Deck.moveTo, List.length_cons, Nat.zero_lt_succ, if_true, start, around, tour,
      List.cons_append, List.map_cons]

/-- A ring lets `ll_next` go on. -/
theorem Spun.next_allowed (spun : Spun s d t adds) (one : adds ≠ 1) (n : Nat) :
    Allowed Context.step Call.Fits s (List.replicate n .next) := by
  induction n generalizing s d t with
  | zero => trivial
  | succ n ih =>
    have linked : d.count ≠ 0 → nextAt s.heap d.pCurrent ≠ 0 := by
      rw [spun.count]
      intro some
      have items : t.items ≠ [] := fun none => some (by simp [none])
      have positive := List.length_pos_of_ne_nil items
      rw [spun.link items]
      by_cases more : t.pos + 1 < t.items.length
      · rw [if_pos more, addrs_getD more]
        exact spun.row.real (List.getElem_mem more)
      · rw [if_neg more, if_neg one, addrs_getD positive]
        exact spun.row.real (List.getElem_mem positive)
    obtain ⟨s', d', returns, next⟩ := @Spun.step α s d t adds spun .next trivial linked
    refine ⟨⟨trivial, fun d' get => ?_⟩, fun r s'' returns' => ?_⟩
    · obtain rfl : d = d' := Option.some.inj (spun.get.symm.trans get)
      exact linked
    · rw [returns, Option.some.injEq, Prod.mk.injEq] at returns'
      exact returns'.2 ▸ ih next

/-- The way around is right unless `ll_add` was called once only. -/
theorem Spun.rotates_iff (spun : Spun s d t adds) : s.Rotates t ↔ adds ≠ 1 := by
  obtain ⟨s₁, d₁, starts, next⟩ := @Spun.step α s d t adds spun .first trivial trivial
  constructor
  · rintro ⟨s', around⟩ one
    -- The only item is followed by null.
    obtain ⟨e, items⟩ := List.length_eq_one_iff.mp (spun.single one)
    have stays : (t.spin .first).2 = ⟨[e], 0⟩ := by
      simp [Deck.spin, Deck.step, Deck.moveTo, items]
    rw [stays] at next
    have link := next.link (List.cons_ne_nil e [])
    have item := next.row.item (e := e) List.mem_cons_self
    have real := next.row.real (e := e) List.mem_cons_self
    have pointer : d₁.pCurrent = e.1 := next.pointer
    have null : nextAt s₁.heap e.1 = 0 := by
      rw [← pointer, link, if_neg (by simp)]
      exact if_pos one
    have stops : s₁.step .next = some (.ptr 0, s₁) := by
      simp only [Context.step, Context.next, next.get, Option.bind_eq_bind, Option.bind_some, pointer, if_neg real, item, null,
        if_true, Option.map_some]
    simp only [items, List.length_singleton, List.replicate_one, outcome, starts, stops, Option.bind_some, Option.map_some,
      Option.some.injEq, Prod.mk.injEq, tour, List.cons_append, List.nil_append, List.map_cons, List.map_nil,
      List.cons.injEq, Ret.ptr.injEq] at around
    have zero := around.1.2.1
    simp [hdrSize] at zero
  · intro one
    have allowed : Allowed Context.step Call.Fits s (.first :: List.replicate t.items.length .next) := by
      refine ⟨⟨trivial, fun _ _ => trivial⟩, fun r s' returns => ?_⟩
      rw [starts, Option.some.injEq, Prod.mk.injEq] at returns
      exact returns.2 ▸ next.next_allowed one t.items.length
    obtain ⟨s', d', run, -⟩ := spun.run _ allowed
    rw [results_tour] at run
    exact ⟨s', run⟩

theorem Context.ZeroedQueue.spun (zeroed : s.ZeroedQueue) : Spun s Col.zero ⟨[], 0⟩ 0 := by
  refine ⟨zeroed.queue, zeroed.get, ⟨nofun, List.nodup_nil, List.not_mem_nil, 0, 0, trivial⟩, rfl, rfl, rfl, by simp, rfl,
    fun some => absurd rfl some, by simp, by simp, fun some => absurd rfl some⟩

/-- A run whose calls are each good for the ring returns what the rotating list returns, and the list goes around after it unless
`ll_add` was called once only. -/
theorem queue_rotates_iff (zeroed : s.ZeroedQueue) (calls : List (Call α))
    (allowed : Allowed Context.step Call.Fits s calls) :
    ∃ s', outcome Context.step s calls = some ((results Deck.spin ⟨[], 0⟩ calls).1, s') ∧
      (s'.Rotates (results Deck.spin ⟨[], 0⟩ calls).2 ↔ addCalls calls ≠ 1) := by
  obtain ⟨s', d', run, spun⟩ := zeroed.spun.run calls allowed
  rw [Nat.zero_add] at spun
  exact ⟨s', run, spun.rotates_iff⟩

end Spun

/-- A list of one column in queue mode, in an empty memory. -/
def newQueue : Context Nat := ⟨16, .queue, 0, 1, 8, [Col.zero], fun _ => none⟩

theorem newQueue_zeroed : newQueue.ZeroedQueue := ⟨rfl, rfl, rfl⟩

/-- Three items, of which the first goes to the end and the one behind it is removed. -/
theorem queue_rotates_iff_roll :
    ∃ s', outcome Context.step newQueue [.add 7 100, .add 8 200, .add 9 300, .roll, .next, .del] =
        some ([.ptr 125, .ptr 225, .ptr 325, .void, .ptr 325, .void], s') ∧
      (s'.Rotates ⟨[(200, 8), (100, 7)], 1⟩ ↔ 3 ≠ 1) := by
  refine queue_rotates_iff newQueue_zeroed [.add 7 100, .add 8 200, .add 9 300, .roll, .next, .del] ?_
  have adds : ∀ n, n ≤ 2 → n + 1 < 2 ^ 32 := by omega
  refine ⟨⟨⟨by decide, rfl⟩, ?_⟩, fun r s returns => ?_⟩
  · rintro d get
    cases get
    exact adds 0 (by decide)
  cases returns
  refine ⟨⟨⟨by decide, rfl⟩, ?_⟩, fun r s returns => ?_⟩
  · rintro d get
    cases get
    exact adds 1 (by decide)
  cases returns
  refine ⟨⟨⟨by decide, rfl⟩, ?_⟩, fun r s returns => ?_⟩
  · rintro d get
    cases get
    exact adds 2 (by decide)
  cases returns
  refine ⟨⟨⟨_, rfl, by decide⟩, fun _ _ => trivial⟩, fun r s returns => ?_⟩
  cases returns
  refine ⟨⟨trivial, ?_⟩, fun r s returns => ?_⟩
  · rintro d get
    cases get
    exact fun _ => by decide
  cases returns
  refine ⟨⟨trivial, ?_⟩, fun _ _ _ => trivial⟩
  rintro d get
  cases get
  exact fun _ => ⟨by decide, fun same => absurd same (by decide)⟩

/-- After one `ll_add` the step that should come back to the only item comes to null. -/
theorem one_item_does_not_rotate :
    Allowed Context.step Call.OnQueue newQueue [.add 7 100] ∧
      (∃ s', outcome Context.step newQueue [.add 7 100] = some ([.ptr 125], s')) ∧
      (results Deck.spin ⟨[], 0⟩ [.add 7 100]).2 = ⟨[(100, 7)], 0⟩ ∧
      ∀ rs s', outcome Context.step newQueue [.add 7 100] = some (rs, s') → ¬ s'.Rotates ⟨[(100, 7)], 0⟩ := by
  refine ⟨⟨⟨by decide, rfl⟩, fun _ _ _ => trivial⟩, ⟨_, rfl⟩, rfl, ?_⟩
  intro rs s' run
  cases run
  rintro ⟨s'', around⟩
  cases around

end PreTeO.Common
