import PreTeO.Common.LlVector

/-!
# A list of one column

A run of calls on a list of one column returns what the calls on the sequence return, as long as the counter, a number of
32 bits, does not run over.
-/

namespace PreTeO.Common
set_option autoImplicit false
open PreTeO.Lib

variable {α : Type}

/-- A call on the only column, with an allocator that succeeds and returns memory that is not in use. -/
def Call.Served (s : Context α) (call : Call α) : Prop :=
  call.OnColumn ∧ call.Fresh s ∧
    match call with
    | .add _ mem | .ins _ _ mem => mem ≠ 0
    | _ => True

/-- The call does not bring the number of items to `2 ^ 32`. -/
def Call.Counted (s : Context α) : Call α → Prop
  | .add _ _ | .ins _ _ _ => ∀ d, s.state[s.ccol]? = some d → d.count + 1 < 2 ^ 32
  | _ => True

/-- A list of one column in vector mode that was never used. -/
structure Context.Zeroed (s : Context α) : Prop where
  vector : s.mode = .vector
  column : s.state = [Col.zero]
  selected : s.ccol = 0

theorem Context.Zeroed.ready {s : Context α} (zeroed : s.Zeroed) (k : Nat) : Ready k s Col.zero ⟨[], 0⟩ := by
  refine ⟨zeroed.vector, ?_, ⟨nofun, Linked.nil, rfl, rfl, rfl⟩, ⟨rfl, ?_, ?_⟩⟩
  · rw [zeroed.column, zeroed.selected]
    rfl
  · exact fun some => absurd rfl some
  · exact fun some => absurd rfl some

/-- The items a call may bring in. -/
def Call.growth : Call α → Nat
  | .add _ _ | .ins _ _ _ => 1
  | _ => 0

theorem Deck.step_length (t : Deck α) (call : Call α) : (t.step call).2.items.length ≤ t.items.length + call.growth := by
  cases call with
  | init | uninit | col | sel | mov | roll | cnt | current | clr => simp [Deck.step]
  | get | next | first | last =>
    simp only [Deck.step, Deck.moveTo]
    split <;> simp
  | prev =>
    simp only [Deck.step, Deck.moveTo]
    split
    · simp
    · split <;> simp
  | add x mem =>
    simp only [Deck.step, Deck.add]
    split <;> simp [Call.growth]
  | ins index x mem =>
    simp only [Deck.step, Deck.ins]
    split
    · split
      · simp
      · simp [List.length_insertIdx, Call.growth]
        split <;> omega
    · simp
  | delAt | del =>
    simp only [Deck.step, Deck.delAt]
    split
    · simp [List.length_eraseIdx]
      split <;> omega
    · simp

theorem Call.Counted.growth {s : Context α} {call : Call α} (counted : call.Counted s) {d : Col}
    (get : s.state[s.ccol]? = some d) (small : d.count < 2 ^ 32) : d.count + call.growth < 2 ^ 32 := by
  cases call with
  | add | ins => exact counted d get
  | _ => exact small

/-- Every run of calls returns what it returns on the sequence, as long as there are fewer than `2 ^ 32` items; and after
it the links and the cursor are those of the sequence. -/
theorem list_is_sequence {s : Context α} (zeroed : s.Zeroed) (calls : List (Call α))
    (allowed : Allowed Context.step (fun s call => call.Served s ∧ call.Counted s) s calls) :
    ∃ s' d, outcome Context.step s calls = some ((results Deck.step ⟨[], 0⟩ calls).1, s') ∧
      Ready 1 s' d (results Deck.step ⟨[], 0⟩ calls).2 := by
  let Rel : Context α → Deck α → Prop := fun s t => (∃ d, Ready 1 s d t) ∧ t.items.length < 2 ^ 32
  have sim : ∀ s t call, Rel s t → call.Served s ∧ call.Counted s →
      ∃ s', s.step call = some ((t.step call).1, s') ∧ Rel s' (t.step call).2 := by
    rintro s t call ⟨⟨d, ready⟩, short⟩ ⟨⟨on, fresh, -⟩, counted⟩
    obtain ⟨s', returns, turn⟩ := step_spec ready (by decide) short on fresh
    have count := ready.count short
    have small := counted.growth ready.get (by omega)
    have length := t.step_length call
    exact ⟨s', returns, turn.ready ready, by omega⟩
  have start : Rel s ⟨[], 0⟩ := ⟨⟨_, zeroed.ready 1⟩, Nat.two_pow_pos 32⟩
  obtain ⟨s', returns, ⟨d, ready⟩, -⟩ := simulation sim start calls allowed
  exact ⟨s', d, returns, ready⟩

/-- A list of one column, in an empty memory. -/
def newList (α : Type) : Context α := ⟨16, .vector, 0, 1, 8, [Col.zero], fun _ => none⟩

theorem newList_zeroed (α : Type) : (newList α).Zeroed := ⟨rfl, rfl, rfl⟩

theorem list_is_sequence_three_calls :
    ∃ s' d, outcome Context.step (newList Nat) [.add 7 100, .ins 0 8 200, .get 1] =
      some ([.ptr 125, .ptr 225, .ptr 125], s') ∧ Ready 1 s' d ⟨[(200, 8), (100, 7)], 1⟩ := by
  apply list_is_sequence (newList_zeroed Nat) [.add 7 100, .ins 0 8 200, .get 1]
  refine ⟨⟨⟨trivial, fun _ => rfl, by decide⟩, ?_⟩, fun r s returns => ?_⟩
  · intro d get
    cases get
    decide
  cases returns
  refine ⟨⟨⟨trivial, fun _ => ?_, by decide⟩, ?_⟩, fun r s returns => ?_⟩
  · rfl
  · intro d get
    cases get
    decide
  cases returns
  exact ⟨⟨⟨trivial, trivial, trivial⟩, trivial⟩, fun _ _ _ => trivial⟩

/-! ## The counter runs over -/

/-- `n` calls of `ll_add` that get the memory from address `m + 1` on, and `ll_cnt`. -/
def fill : Nat → Nat → List (Call Unit)
  | 0, _ => [.cnt]
  | n + 1, m => .add () (m + 1) :: fill n (m + 1)

/-- The memory above an address is not in use. -/
def Context.Above (s : Context α) (m : Nat) : Prop := ∀ q, m < q → s.heap q = none

theorem Turn.above {k : Nat} {s s' : Context α} {d : Col} {t t' : Deck α} {m : Nat} (turn : Turn k s s' t.items t')
    (ready : Ready k s d t) (above : s.Above m) (low : ∀ p ∈ addrs t'.items, p ∉ addrs t.items → p ≤ m + 1) :
    s'.Above (m + 1) := by
  intro q high
  have free := tagAt_none.mpr (above q (by omega))
  have out : q ∉ addrs t.items := ready.fresh_outside free
  have out' : q ∉ addrs t'.items := by
    intro member
    have := low q member out
    omega
  exact tagAt_none.mp ((turn.same q out out').1.trans free)

section Fill
variable {s : Context Unit} {d : Col} {t : Deck Unit} {m : Nat}

/-- One more item, with no bound on their number. -/
theorem add_above (ready : Ready (2 ^ 33) s d t) (above : s.Above m) (few : t.items.length < 2 ^ 32) :
    ∃ s' d', s.step (.add () (m + 1)) = some ((t.step (.add () (m + 1))).1, s') ∧
      Ready (2 ^ 33) s' d' (t.step (.add () (m + 1))).2 ∧ s'.Above (m + 1) ∧
      (t.step (.add () (m + 1))).2.items.length = t.items.length + 1 := by
  have free := tagAt_none.mpr (above (m + 1) (by omega))
  obtain ⟨s', call, turn⟩ := add_spec ready (by omega) free (fun large => by omega) ()
  have deck : t.step (.add () (m + 1)) = (.ptr (m + 1 + hdrSize), ⟨t.items ++ [(m + 1, ())], t.items.length⟩) := rfl
  rw [deck]
  obtain ⟨d', ready'⟩ := turn.ready ready
  refine ⟨s', d', ?_, ready', turn.above ready above ?_, by simp⟩
  · simp only [Context.step, call, Option.map_some]
  · intro p member out
    simp only [addrs_append, addrs_cons, addrs_nil, List.mem_append, List.mem_singleton, out, false_or] at member
    omega

theorem fill_served (ready : Ready (2 ^ 33) s d t) (above : s.Above m) (n : Nat) (few : t.items.length + n ≤ 2 ^ 32) :
    Allowed Context.step (fun s call => call.Served s) s (fill n m) := by
  induction n generalizing s d t m with
  | zero => exact ⟨⟨trivial, trivial, trivial⟩, fun _ _ _ => trivial⟩
  | succ n ih =>
    obtain ⟨s', d', call, ready', above', length⟩ := add_above ready above (by omega)
    refine ⟨⟨trivial, fun _ => above (m + 1) (by omega), Nat.succ_ne_zero m⟩, ?_⟩
    intro r u returns
    rw [call] at returns
    cases returns
    exact ih ready' above' (by omega)

/-- With `2 ^ 32` items `ll_cnt` returns 0. -/
theorem fill_differs (ready : Ready (2 ^ 33) s d t) (above : s.Above m) (n : Nat) (full : t.items.length + n = 2 ^ 32)
    (u : Context Unit) : outcome Context.step s (fill n m) ≠ some ((results Deck.step t (fill n m)).1, u) := by
  induction n generalizing s d t m with
  | zero =>
    have count : d.count = 0 := by
      have length : t.items.length = 2 ^ 32 := by omega
      simp [ready.holds.count, length]
    simp only [fill, outcome, Context.step, Context.cnt, ready.get, Option.map_some, Option.bind_some, results, Deck.step,
      count]
    intro same
    simp only [Option.some.injEq, Prod.mk.injEq, List.cons.injEq, Ret.num.injEq] at same
    omega
  | succ n ih =>
    obtain ⟨s', d', call, ready', above', length⟩ := add_above ready above (by omega)
    have rest := ih ready' above' (by omega)
    intro same
    simp only [fill, outcome, call, Option.bind_some, results, Option.map_eq_some_iff] at same
    obtain ⟨⟨rs, v⟩, tail, equal⟩ := same
    simp only [Prod.mk.injEq, List.cons.injEq, true_and] at equal
    obtain ⟨rfl, rfl⟩ := equal
    exact rest tail

end Fill

/-- After `2 ^ 32` calls of `ll_add` the next call of `ll_cnt` does not return the number of items. -/
theorem list_count_runs_over :
    Allowed Context.step (fun s call => call.Served s) (newList Unit) (fill (2 ^ 32) 0) ∧
      ∀ s', outcome Context.step (newList Unit) (fill (2 ^ 32) 0) ≠
        some ((results Deck.step ⟨[], 0⟩ (fill (2 ^ 32) 0)).1, s') := by
  have ready := (newList_zeroed Unit).ready (2 ^ 33)
  have above : (newList Unit).Above 0 := fun _ _ => rfl
  exact ⟨fill_served ready above _ (by simp), fill_differs ready above _ (by simp)⟩

end PreTeO.Common
