import PreTeO.Common.LlColumns
import PreTeO.Fs.Handle

/-!
# The handle table keeps its records

What the handle table is for: a row of active records and a row of inactive ones. Every call on the vector does what the
call on the two rows does, as long as there are fewer than `2 ^ 32` records. The index of the cursor that the vector keeps
plays no part in it.
-/

namespace PreTeO.Fs
set_option autoImplicit false
open PreTeO.Lib PreTeO.Common

/-- The active and the inactive records, each with its address. -/
structure Table where
  active : List (Nat × HandleInfo)
  inactive : List (Nat × HandleInfo)
deriving DecidableEq, Repr

namespace Table

/-- The chosen active records are cleared and get inactive. -/
def retire (T : Table) (chosen : Nat × HandleInfo → Bool) : Table :=
  ⟨T.active.filter fun e => !chosen e, T.inactive ++ (T.active.filter chosen).map fun e => (e.1, e.2.clear)⟩

/-- A handle takes the first inactive record, or a new one. -/
def create (T : Table) (drv : Driver) (user type : Nat) (data : Option (List Nat)) (mem : Nat) : Nat × Table :=
  if drv.self = 0 ∨ drv.refuses type then (0, T)
  else
    match T.inactive with
    | e :: rest => (e.1 + hdrSize, ⟨T.active ++ [(e.1, e.2.reuse drv user type data)], rest⟩)
    | [] => if mem = 0 then (0, T) else (mem + hdrSize, ⟨T.active ++ [(mem, HandleInfo.new drv user type data)], []⟩)

def step (T : Table) : HandleCall → Nat × Table
  | .create drv user type data mem => T.create drv user type data mem
  | .remove h => (0, T.retire fun e => e.1 + hdrSize = h)
  | .msgHandler msg data => (0, if msg = msgDriverUninit then T.retire fun e => e.2.driver = data else T)

/-- What a call keeps to: a new handle is of a record that was not active, and nothing else changes; `remove` takes out the
record of the handle and no other; and after the message no record of the driver is active, and all others are as before. -/
def Keeps (T : Table) : HandleCall → Prop
  | .create drv user type data mem =>
    let (r, U) := T.create drv user type data mem
    (r = 0 ∧ U = T) ∨ ∃ e, r = e.1 + hdrSize ∧ e.1 ∉ addrs T.active ∧ U.active = T.active ++ [e] ∧
      ∀ e' ∈ T.inactive, e'.1 ≠ e.1 → e' ∈ U.inactive
  | .remove h =>
    let U := (T.step (.remove h)).2
    (∀ e ∈ T.active, e.1 + hdrSize = h → e.1 ∉ addrs U.active ∧ (e.1, e.2.clear) ∈ U.inactive) ∧
      (∀ e ∈ T.active, e.1 + hdrSize ≠ h → e ∈ U.active) ∧ (∀ e ∈ U.active, e ∈ T.active) ∧ T.inactive ⊆ U.inactive
  | .msgHandler msg data =>
    let U := (T.step (.msgHandler msg data)).2
    msg = msgDriverUninit → (∀ e ∈ U.active, e.2.driver ≠ data) ∧ (∀ e ∈ T.active, e.2.driver ≠ data → e ∈ U.active) ∧
      (∀ e ∈ U.active, e ∈ T.active) ∧ T.inactive ⊆ U.inactive

end Table

/-! ## Records are written and moved -/

section Records
variable {s : HandleTable}

/-- The rows are in the two columns of the vector, with the cursors at `p` and `q`. -/
abbrev InRows (s : HandleTable) (A I : List (Nat × HandleInfo)) (p q sel : Nat) : Prop :=
  Shelved (2 ^ 32) s ⟨[⟨A, p⟩, ⟨I, q⟩], sel⟩

variable {A I l r : List (Nat × HandleInfo)} {e : Nat × HandleInfo} {p q sel c : Nat} {k : Nat} {u : Common.Shelf HandleInfo}
  {t : Deck HandleInfo}

theorem info_spec (shelved : Shelved k s u) (deck : u.decks[c]? = some t) (split : t.items = l ++ e :: r) :
    HandleTable.info s (e.1 + hdrSize) = some e.2 := by
  obtain ⟨d, -, holds, -, -⟩ := shelved.state deck
  have item := holds.item (e := e) (by simp [split])
  rw [HandleTable.info, Nat.add_sub_cancel, item]
  rfl

theorem write_spec (shelved : Shelved k s u) (deck : u.decks[c]? = some t) (split : t.items = l ++ e :: r)
    (f : HandleInfo → HandleInfo) :
    ∃ s', HandleTable.write s (e.1 + hdrSize) f = some s' ∧
      Shelved k s' { u with decks := u.decks.set c ⟨l ++ (e.1, f e.2) :: r, t.pos⟩ } := by
  obtain ⟨d, -, holds, -, -⟩ := shelved.state deck
  have item := holds.item (e := e) (by simp [split])
  refine ⟨_, ?_, shelved.write deck split (f e.2)⟩
  rw [HandleTable.write, Nat.add_sub_cancel, item]
  rfl

/-- The record is cleared and goes from the active row to the end of the inactive one. -/
theorem retire_spec (rows : InRows s (l ++ e :: r) I p q sel) (few : (l ++ e :: r).length + I.length < 2 ^ 32) :
    ∃ s₁ s₂, HandleTable.write s (e.1 + hdrSize) HandleInfo.clear = some s₁ ∧
      s₁.mov (e.1 + hdrSize) colInactive = some (true, s₂) ∧
      InRows s₂ (l ++ r) (I ++ [(e.1, e.2.clear)]) (if l.length < p ∨ (l.length = p ∧ r = []) then p - 1 else p)
        (if I = [] then 0 else q) sel := by
  rw [List.length_append, List.length_cons] at few
  obtain ⟨s₁, write, rows₁⟩ := write_spec (c := 0) rows rfl rfl HandleInfo.clear
  obtain ⟨d₁, get₁, -, -, -⟩ := rows₁.state (c := 1) rfl
  obtain ⟨s₂, mov, rows₂⟩ := mov_spec (c := 0) rows₁ rfl rfl rfl get₁ (show 1 ≠ 0 by decide) (by simp only; omega)
    (fun large => by rw [List.length_append] at large; omega) (fun large => by simp only at large; omega)
    (Nat.add_sub_cancel e.1 hdrSize)
  refine ⟨s₁, s₂, write, mov, ?_⟩
  rw [Common.Shelf.transfer_eq (t := ⟨l ++ (e.1, e.2.clear) :: r, p⟩) rfl rfl] at rows₂
  simpa [InRows, List.modify, Deck.remove_split (t := ⟨l ++ (e.1, e.2.clear) :: r, p⟩) rfl, Deck.append] using rows₂

/-! ## The message handler -/

/-- A round of the loop at the last record, which is of another driver, ends the loop. -/
theorem pass_last (rows : InRows s (l ++ [e]) I l.length q colActive) {drv : Nat} (other : e.2.driver ≠ drv) (n : Nat) :
    ∃ s', HandleTable.uninitLoop drv (n + 1) (e.1 + hdrSize) s = some s' ∧ InRows s' (l ++ [e]) I l.length q colActive := by
  have info := info_spec (c := 0) rows rfl rfl
  have move : (Deck.mk (l ++ [e]) l.length).moveTo (l.length + 1) = (0, ⟨l ++ [e], l.length⟩) := by simp [Deck.moveTo]
  obtain ⟨s', next, rows'⟩ := rows.next rfl
  rw [move] at next rows'
  refine ⟨s', ?_, rows'⟩
  simp only [HandleTable.uninitLoop, info, Option.bind_eq_bind, Option.bind_some, if_neg (Ne.symm other), next, ne_eq,
    not_true_eq_false, if_false]

/-- A round of the loop at another record of another driver goes on to the next one. -/
theorem pass_more {e' : Nat × HandleInfo} (rows : InRows s (l ++ e :: e' :: r) I l.length q colActive) {drv : Nat}
    (other : e.2.driver ≠ drv) (n : Nat) :
    ∃ s', HandleTable.uninitLoop drv (n + 1) (e.1 + hdrSize) s = HandleTable.uninitLoop drv n (e'.1 + hdrSize) s' ∧
      InRows s' (l ++ [e] ++ e' :: r) I (l ++ [e]).length q colActive := by
  have info := info_spec (c := 0) rows rfl rfl
  have move : (Deck.mk (l ++ e :: e' :: r) l.length).moveTo (l.length + 1) =
      (e'.1 + hdrSize, ⟨l ++ [e] ++ e' :: r, (l ++ [e]).length⟩) := by simp [Deck.moveTo, Deck.ptr]
  obtain ⟨s', next, rows'⟩ := rows.next rfl
  rw [move] at next rows'
  refine ⟨s', ?_, rows'⟩
  have some : e'.1 + hdrSize ≠ 0 := Nat.succ_ne_zero _
  simp only [HandleTable.uninitLoop, info, Option.bind_eq_bind, Option.bind_some, if_neg (Ne.symm other), next, if_pos some]

/-- A round of the loop at a record of the driver takes it out, and goes on with the current record. -/
theorem take_spec (rows : InRows s (l ++ e :: r) I l.length q colActive) (few : (l ++ e :: r).length + I.length < 2 ^ 32)
    {drv : Nat} (mine : e.2.driver = drv) (n : Nat) :
    ∃ s₂ q', InRows s₂ (l ++ r) (I ++ [(e.1, e.2.clear)]) (if r = [] then l.length - 1 else l.length) q' colActive ∧
      HandleTable.uninitLoop drv (n + 1) (e.1 + hdrSize) s =
        (match r, l.getLast? with
        | e' :: _, _ => HandleTable.uninitLoop drv n (e'.1 + hdrSize) s₂
        | [], some e' => HandleTable.uninitLoop drv n (e'.1 + hdrSize) s₂
        | [], none => some s₂) := by
  have info := info_spec (c := 0) rows rfl rfl
  obtain ⟨s₁, s₂, write, mov, rows₂⟩ := retire_spec rows few
  have place : (if l.length < l.length ∨ l.length = l.length ∧ r = [] then l.length - 1 else l.length) =
      if r = [] then l.length - 1 else l.length := by simp
  rw [place] at rows₂
  have current := rows₂.current rfl
  cases r with
  | cons e' r =>
    have ptr : (Deck.mk (l ++ e' :: r) l.length).ptr l.length = e'.1 + hdrSize := by simp [Deck.ptr]
    have some : e'.1 + hdrSize ≠ 0 := Nat.succ_ne_zero _
    rw [if_neg (by simp)] at current
    refine ⟨s₂, _, rows₂, ?_⟩
    simp only [HandleTable.uninitLoop, info, Option.bind_eq_bind, Option.bind_some, if_pos mine.symm, write, mov, current,
      ptr, if_pos some]
  | nil =>
    rcases List.eq_nil_or_concat l with rfl | ⟨l, e', rfl⟩
    · obtain ⟨s₃, next, rows₃⟩ := rows₂.next rfl
      refine ⟨s₃, _, rows₃, ?_⟩
      simp only [HandleTable.uninitLoop, info, Option.bind_eq_bind, Option.bind_some, if_pos mine.symm, write, mov, current,
        next]
      rfl
    · have ptr : (Deck.mk (l.concat e' ++ []) ((l.concat e').length - 1)).ptr ((l.concat e').length - 1) =
          e'.1 + hdrSize := by simp [Deck.ptr]
      have some : e'.1 + hdrSize ≠ 0 := Nat.succ_ne_zero _
      rw [if_pos rfl] at current
      refine ⟨s₂, _, rows₂, ?_⟩
      simp only [HandleTable.uninitLoop, info, Option.bind_eq_bind, Option.bind_some, if_pos mine.symm, write, mov, current,
        ptr, if_pos some]
      simp

/-- From any record on, with all records before it of other drivers, the loop takes out the records of the driver. -/
theorem uninitLoop_spec (drv n : Nat) (rows : InRows s (l ++ e :: r) I l.length q colActive)
    (others : ∀ e ∈ l, e.2.driver ≠ drv) (few : (l ++ e :: r).length + I.length < 2 ^ 32) (enough : r.length + 2 ≤ n) :
    ∃ s' p' q', HandleTable.uninitLoop drv n (e.1 + hdrSize) s = some s' ∧
      InRows s' (l ++ (e :: r).filter fun e => !decide (e.2.driver = drv))
        (I ++ ((e :: r).filter fun e => decide (e.2.driver = drv)).map fun e => (e.1, e.2.clear)) p' q' colActive := by
  induction r generalizing s l e I q n with
  | nil =>
    obtain ⟨n, rfl⟩ : ∃ m, n = m + 2 := ⟨n - 2, by simp only [List.length_nil] at enough; omega⟩
    by_cases mine : e.2.driver = drv
    · obtain ⟨s₂, q', rows₂, round⟩ := take_spec rows few mine (n + 1)
      rw [if_pos rfl, List.append_nil] at rows₂
      rcases List.eq_nil_or_concat l with rfl | ⟨l, e', rfl⟩
      · refine ⟨s₂, 0, q', round, ?_⟩
        simpa [mine] using rows₂
      · rw [List.concat_eq_append] at rows₂ others
        have last : (l ++ [e']).length - 1 = l.length := by simp
        rw [last] at rows₂
        obtain ⟨s₃, again, rows₃⟩ := pass_last rows₂ (others e' (by simp)) n
        refine ⟨s₃, l.length, q', ?_, ?_⟩
        · rw [round, List.concat_eq_append, List.getLast?_concat]
          exact again
        · simpa [mine] using rows₃
    · obtain ⟨s', round, rows'⟩ := pass_last rows mine (n + 1)
      refine ⟨s', l.length, q, round, ?_⟩
      simpa [mine] using rows'
  | cons e' r ih =>
    obtain ⟨n, rfl⟩ : ∃ m, n = m + 1 := ⟨n - 1, by omega⟩
    rw [List.length_cons] at enough
    by_cases mine : e.2.driver = drv
    · obtain ⟨s₂, q', rows₂, round⟩ := take_spec rows few mine n
      rw [if_neg (by simp)] at rows₂
      have few₂ : (l ++ e' :: r).length + (I ++ [(e.1, e.2.clear)]).length < 2 ^ 32 := by
        simp only [List.length_append, List.length_cons, List.length_nil] at few ⊢
        omega
      obtain ⟨s', p', q', loop, rows'⟩ := ih n rows₂ others few₂ (by omega)
      refine ⟨s', p', q', round.trans loop, ?_⟩
      simpa [List.filter_cons, mine] using rows'
    · obtain ⟨s₁, round, rows₁⟩ := pass_more rows mine n
      have others₁ : ∀ e' ∈ l ++ [e], e'.2.driver ≠ drv := by
        intro e' member
        rcases List.mem_append.mp member with old | new
        · exact others e' old
        · rw [List.mem_singleton.mp new]
          exact mine
      obtain ⟨s', p', q', loop, rows'⟩ := ih n rows₁ others₁ (by simpa using few) (by omega)
      refine ⟨s', p', q', round.trans loop, ?_⟩
      simpa [List.filter_cons, mine] using rows'

end Records

/-! ## Calls of the table -/

/-- The vector holds the table: fewer than `2 ^ 32` records, each marked as one, and the inactive ones cleared. -/
structure Tabled (s : HandleTable) (T : Table) : Prop where
  rows : ∃ p q sel, InRows s T.active T.inactive p q sel
  few : T.active.length + T.inactive.length < 2 ^ 32
  magic : ∀ e ∈ T.active ++ T.inactive, e.2.magic = handleMagic
  cleared : ∀ e ∈ T.inactive, e.2.type = 0 ∧ e.2.state = 0 ∧ e.2.driver = 0

/-- What a caller sees to: the allocator succeeds and returns memory that is not in use, and a handle that is removed is
null or was created. -/
def HandleCall.Proper (s : HandleTable) : HandleCall → Prop
  | .create _ _ _ _ mem => mem ≠ 0 ∧ s.heap mem = none
  | .remove h => h = 0 ∨ ∃ it, s.item (h - hdrSize) = some it ∧ it.cxt = s.self ∧ hdrSize ≤ h
  | .msgHandler _ _ => True

/-- A new record does not bring the number of records to `2 ^ 32`. -/
def HandleCall.Room (s : HandleTable) : HandleCall → Prop
  | .create _ _ _ _ _ => ∀ d₀ d₁, s.state[colActive]? = some d₀ → s.state[colInactive]? = some d₁ → d₁.count = 0 →
      d₀.count + 1 < 2 ^ 32
  | _ => True

section Calls
variable {s : HandleTable} {T : Table}

theorem HandleInfo.clear_eq {hi : HandleInfo} (type : hi.type = 0) (state : hi.state = 0) (driver : hi.driver = 0) :
    hi.clear = hi := by
  obtain ⟨_, _, _, _, _, _⟩ := hi
  cases type
  cases state
  cases driver
  rfl

theorem filter_split {l r : List (Nat × HandleInfo)} {e : Nat × HandleInfo} (front : e.1 ∉ addrs l) (back : e.1 ∉ addrs r) :
    (l ++ e :: r).filter (fun x => !decide (x.1 + hdrSize = e.1 + hdrSize)) = l ++ r ∧
      (l ++ e :: r).filter (fun x => decide (x.1 + hdrSize = e.1 + hdrSize)) = [e] := by
  have other : ∀ items : List (Nat × HandleInfo), e.1 ∉ addrs items → ∀ x ∈ items, x.1 ≠ e.1 :=
    fun items out x member same => out (mem_addrs.mpr ⟨x, member, same⟩)
  constructor
  · rw [List.filter_append, List.filter_cons, if_neg (by simp), List.filter_eq_self.mpr, List.filter_eq_self.mpr]
    · intro x member
      simpa using other r back x member
    · intro x member
      simpa using other l front x member
  · rw [List.filter_append, List.filter_cons, if_pos (by simp), List.filter_eq_nil_iff.mpr, List.filter_eq_nil_iff.mpr]
    · rfl
    · intro x member
      simpa using other r back x member
    · intro x member
      simpa using other l front x member

theorem Table.retire_none {chosen : Nat × HandleInfo → Bool} (none : ∀ e ∈ T.active, chosen e = false) :
    T.retire chosen = T := by
  have keep : T.active.filter (fun e => !chosen e) = T.active := List.filter_eq_self.mpr fun e member => by simp [none e member]
  have out : T.active.filter chosen = [] := List.filter_eq_nil_iff.mpr fun e member => by simp [none e member]
  rw [Table.retire, keep, out, List.map_nil, List.append_nil]

/-- Records that get inactive are still records, and cleared. -/
theorem Tabled.retired (tabled : Tabled s T) {s' : HandleTable} {chosen : Nat × HandleInfo → Bool}
    (rows : ∃ p q sel, InRows s' (T.retire chosen).active (T.retire chosen).inactive p q sel) :
    Tabled s' (T.retire chosen) := by
  refine ⟨rows, ?_, ?_, ?_⟩
  · have parts := T.active.length_eq_length_filter_add chosen
    have few := tabled.few
    simp only [Table.retire, List.length_append, List.length_map]
    omega
  · intro e member
    simp only [Table.retire, List.mem_append, List.mem_filter, List.mem_map] at member
    rcases member with ⟨active, -⟩ | inactive | ⟨e', ⟨active, -⟩, rfl⟩
    · exact tabled.magic e (List.mem_append_left _ active)
    · exact tabled.magic e (List.mem_append_right _ inactive)
    · exact tabled.magic e' (List.mem_append_left _ active)
  · intro e member
    rcases List.mem_append.mp member with inactive | new
    · exact tabled.cleared e inactive
    · obtain ⟨e', -, rfl⟩ := List.mem_map.mp new
      exact ⟨rfl, rfl, rfl⟩

/-- The record of a handle, and the row it is in. -/
theorem Tabled.place (tabled : Tabled s T) {h : Nat} {it : Item HandleInfo} (item : s.item (h - hdrSize) = some it)
    (mine : it.cxt = s.self) (high : hdrSize ≤ h) :
    ∃ l e r, h = e.1 + hdrSize ∧ (T.active = l ++ e :: r ∨ T.inactive = l ++ e :: r) := by
  obtain ⟨p, q, sel, rows⟩ := tabled.rows
  have heap : s.heap (h - hdrSize) = some it := by
    unfold Context.item at item
    split at item
    · cases item
    · exact item
  obtain ⟨t, l, e, r, deck, split, same⟩ := rows.place heap mine
  refine ⟨l, e, r, by omega, ?_⟩
  rcases col : it.col with _ | _ | c
  · rw [col] at deck
    cases deck
    exact Or.inl split
  · rw [col] at deck
    cases deck
    exact Or.inr split
  · rw [col] at deck
    cases deck

theorem validate_spec {k : Nat} {u : Common.Shelf HandleInfo} {t : Deck HandleInfo} {c : Nat} {l r : List (Nat × HandleInfo)}
    {e : Nat × HandleInfo} (shelved : Shelved k s u) (deck : u.decks[c]? = some t) (split : t.items = l ++ e :: r)
    (magic : e.2.magic = handleMagic) : HandleTable.validate s (e.1 + hdrSize) = some true := by
  have some : e.1 + hdrSize ≠ 0 := Nat.succ_ne_zero _
  rw [HandleTable.validate, if_neg some, info_spec shelved deck split, Option.map_some, magic, decide_eq_true rfl]

theorem remove_spec (tabled : Tabled s T) {h : Nat} (proper : (HandleCall.remove h).Proper s) :
    ∃ s', HandleTable.remove s h = some s' ∧ Tabled s' (T.retire fun e => decide (e.1 + hdrSize = h)) := by
  rcases proper with rfl | ⟨it, item, mine, high⟩
  · have none : ∀ e ∈ T.active, decide (e.1 + hdrSize = 0) = false := fun e _ => decide_eq_false (Nat.succ_ne_zero _)
    rw [Table.retire_none none]
    exact ⟨s, rfl, tabled⟩
  obtain ⟨l, e, r, rfl, split | split⟩ := tabled.place item mine high
  · obtain ⟨p, q, sel, rows⟩ := tabled.rows
    have few := tabled.few
    have valid := validate_spec (c := 0) rows rfl split (tabled.magic e (by simp [split]))
    rw [split] at rows few
    obtain ⟨d, -, holds, -, -⟩ := rows.state (c := 0) rfl
    obtain ⟨only, out⟩ := filter_split holds.outside.1 holds.outside.2
    obtain ⟨s₁, s₂, write, mov, rows₂⟩ := retire_spec rows few
    refine ⟨s₂, ?_, tabled.retired ?_⟩
    · simp only [HandleTable.remove, valid, Option.bind_eq_bind, Option.bind_some, if_true, write, mov]
    · simp only [Table.retire, split, only, out]
      exact ⟨_, _, _, rows₂⟩
  · obtain ⟨p, q, sel, rows⟩ := tabled.rows
    have valid := validate_spec (c := 1) rows rfl split (tabled.magic e (by simp [split]))
    obtain ⟨type, state, driver⟩ := tabled.cleared e (by simp [split])
    have same : (e.1, e.2.clear) = e := by rw [HandleInfo.clear_eq type state driver]
    obtain ⟨s₁, write, rows₁⟩ := write_spec (c := 1) rows rfl split HandleInfo.clear
    rw [same, ← split] at rows₁
    obtain ⟨d, -, holds, -, -⟩ := rows₁.state (c := 1) rfl
    have here := holds.item (e := e) (by simp [split])
    have stays : s₁.mov (e.1 + hdrSize) colInactive = some (false, s₁) := by
      rw [Context.mov, Nat.add_sub_cancel, here]
      simp [colInactive]
    have none : ∀ e' ∈ T.active, decide (e'.1 + hdrSize = e.1 + hdrSize) = false := by
      intro e' member
      obtain ⟨d₀, -, holds₀, -, -⟩ := rows₁.state (c := 0) rfl
      have out := holds.disjoint holds₀ (by decide) (p := e.1) (by simp [split])
      refine decide_eq_false fun equal => out ?_
      exact mem_addrs.mpr ⟨e', member, Nat.add_right_cancel equal⟩
    rw [Table.retire_none none]
    refine ⟨s₁, ?_, ⟨p, q, sel, rows₁⟩, tabled.few, tabled.magic, tabled.cleared⟩
    simp only [HandleTable.remove, valid, Option.bind_eq_bind, Option.bind_some, if_true, write, stays]

theorem msgHandler_spec (tabled : Tabled s T) (msg data : Nat) :
    ∃ s', HandleTable.msgHandler s msg data = some s' ∧ Tabled s' (T.step (.msgHandler msg data)).2 := by
  unfold HandleTable.msgHandler
  simp only [Table.step]
  by_cases uninit : msg = msgDriverUninit
  · rw [if_pos uninit, if_pos uninit]
    obtain ⟨p, q, sel, rows⟩ := tabled.rows
    have rows₁ := rows.col (c := colActive) (Nat.zero_lt_succ 1)
    obtain ⟨s₂, first, rows₂⟩ := rows₁.first rfl
    have few := tabled.few
    cases active : T.active with
    | nil =>
      simp only [active, Deck.moveTo, List.length_nil, Nat.lt_irrefl, if_false] at first rows₂
      refine ⟨s₂, ?_, tabled.retired ⟨p, q, colActive, ?_⟩⟩
      · simp only [first, Option.bind_eq_bind, Option.bind_some, ne_eq, not_true_eq_false, if_false]
      · simp only [Table.retire, active, List.filter_nil, List.map_nil, List.append_nil]
        exact rows₂
    | cons e r =>
      have move : (Deck.mk (e :: r) p).moveTo 0 = (e.1 + hdrSize, ⟨[] ++ e :: r, ([] : List (Nat × HandleInfo)).length⟩) := by
        simp [Deck.moveTo, Deck.ptr]
      rw [active] at first rows₂ few
      rw [move] at first rows₂
      have cnt := rows₂.cnt rfl
      obtain ⟨s₃, p', q', loop, rows₃⟩ := uninitLoop_spec data _ rows₂ (fun e member => absurd member List.not_mem_nil) few
        (Nat.le_refl _)
      refine ⟨s₃, ?_, tabled.retired ⟨p', q', colActive, ?_⟩⟩
      · have some : e.1 + hdrSize ≠ 0 := Nat.succ_ne_zero _
        simp only [first, Option.bind_eq_bind, Option.bind_some, if_pos some, cnt]
        exact loop
      · simp only [Table.retire, active]
        exact rows₃
  · rw [if_neg uninit, if_neg uninit]
    exact ⟨s, rfl, tabled⟩

theorem col_heap (s : HandleTable) (c : Nat) : (s.col c).heap = s.heap := by
  unfold Context.col
  split <;> rfl

theorem first_heap {s s' : HandleTable} {p : Nat} (first : s.first = some (p, s')) : s'.heap = s.heap := by
  obtain ⟨d, -, found⟩ := Option.bind_eq_some_iff.mp first
  split at found
  · cases found
    rfl
  · cases found
    rfl

/-- A record that is used again goes to the end of the active row. -/
theorem reuse_spec {A r : List (Nat × HandleInfo)} {e : Nat × HandleInfo} {p q sel : Nat} (rows : InRows s A (e :: r) p q sel)
    (few : A.length + (e :: r).length < 2 ^ 32) (f : HandleInfo → HandleInfo) :
    ∃ s₁ s₂ p' q', HandleTable.write s (e.1 + hdrSize) f = some s₁ ∧
      s₁.mov (e.1 + hdrSize) colActive = some (true, s₂) ∧ InRows s₂ (A ++ [(e.1, f e.2)]) r p' q' sel := by
  rw [List.length_cons] at few
  obtain ⟨s₁, write, rows₁⟩ := write_spec (c := 1) (l := []) rows rfl rfl f
  obtain ⟨d₁, get₁, -, -, -⟩ := rows₁.state (c := 0) rfl
  obtain ⟨s₂, mov, rows₂⟩ := mov_spec (c := 1) (l := []) rows₁ rfl rfl rfl get₁ (show 0 ≠ 1 by decide) (by simp only; omega)
    (fun large => by rw [List.nil_append] at large; omega) (fun large => by simp only at large; omega)
    (Nat.add_sub_cancel e.1 hdrSize)
  refine ⟨s₁, s₂, if A = [] then 0 else p, if 0 < q ∨ 0 = q ∧ r = [] then q - 1 else q, write, mov, ?_⟩
  rw [Common.Shelf.transfer_eq (t := ⟨(e.1, f e.2) :: r, q⟩) (l := []) rfl rfl] at rows₂
  have removed : (Deck.mk ((e.1, f e.2) :: r) q).remove 0 = ⟨r, if 0 < q ∨ 0 = q ∧ r = [] then q - 1 else q⟩ :=
    Deck.remove_split (l := []) rfl
  simpa [InRows, List.modify, removed, Deck.append] using rows₂

theorem create_spec (tabled : Tabled s T) (drv : Driver) (user type : Nat) (data : Option (List Nat)) {mem : Nat}
    (proper : (HandleCall.create drv user type data mem).Proper s) (room : (HandleCall.create drv user type data mem).Room s) :
    ∃ s', HandleTable.create s drv user type data mem = some ((T.create drv user type data mem).1, s') ∧
      Tabled s' (T.create drv user type data mem).2 := by
  unfold HandleTable.create Table.create
  by_cases null : drv.self = 0
  · rw [if_pos null, if_pos (Or.inl null)]
    exact ⟨s, rfl, tabled⟩
  by_cases refused : drv.refuses type = true
  · rw [if_neg null, if_pos refused, if_pos (Or.inr refused)]
    exact ⟨s, rfl, tabled⟩
  rw [if_neg null, if_neg refused, if_neg (not_or.mpr ⟨null, refused⟩)]
  obtain ⟨p, q, sel, rows⟩ := tabled.rows
  have few := tabled.few
  have rows₁ := rows.col (c := colInactive) (Nat.lt_succ_self 1)
  obtain ⟨s₂, first, rows₂⟩ := rows₁.first rfl
  cases inactive : T.inactive with
  | nil =>
    simp only [inactive, Deck.moveTo, List.length_nil, Nat.lt_irrefl, if_false] at first rows₂
    have rows₃ := rows₂.col (c := colActive) (Nat.zero_lt_succ 1)
    obtain ⟨nonnull, free⟩ := proper
    have unused : (s₂.col colActive).heap mem = none := by rw [col_heap, first_heap first, col_heap, free]
    have space : T.active.length + 1 < 2 ^ 32 := by
      obtain ⟨d₀, get₀, holds₀, -, short₀⟩ := rows.state (c := 0) rfl
      obtain ⟨d₁, get₁, holds₁, -, -⟩ := rows.state (c := 1) rfl
      have none : d₁.count = 0 := by rw [holds₁.count, inactive]; rfl
      have space := room d₀ d₁ get₀ get₁ none
      rwa [holds₀.count, Nat.mod_eq_of_lt short₀] at space
    obtain ⟨s₄, add, rows₄⟩ := rows₃.add rfl nonnull unused space (HandleInfo.new drv user type data)
    simp only [first, Option.bind_eq_bind, Option.bind_some, ne_eq, not_true_eq_false, if_false, if_neg nonnull]
    refine ⟨s₄, add, ⟨_, _, _, rows₄⟩, by simpa using space, ?_, ?_⟩
    · intro e member
      rw [List.append_nil] at member
      rcases List.mem_append.mp member with old | new
      · exact tabled.magic e (List.mem_append_left _ old)
      · rw [List.mem_singleton.mp new]
        rfl
    · exact fun e member => absurd member List.not_mem_nil
  | cons e r =>
    have move : (Deck.mk (e :: r) q).moveTo 0 = (e.1 + hdrSize, ⟨e :: r, 0⟩) := by simp [Deck.moveTo, Deck.ptr]
    rw [inactive] at first rows₂ few
    rw [move] at first rows₂
    obtain ⟨s₃, s₄, p', q', write, mov, rows₄⟩ := reuse_spec rows₂ few fun hi => hi.reuse drv user type data
    have rows₅ := rows₄.col (c := colActive) (Nat.zero_lt_succ 1)
    have some : e.1 + hdrSize ≠ 0 := Nat.succ_ne_zero _
    simp only [first, Option.bind_eq_bind, Option.bind_some, if_pos some, write, mov, if_true]
    refine ⟨_, rfl, ⟨_, _, _, rows₅⟩, ?_, ?_, ?_⟩
    · simp only [List.length_append, List.length_cons, List.length_nil] at few ⊢
      omega
    · intro e' member
      have old := tabled.magic
      rw [inactive] at old
      simp only [List.mem_append, List.mem_cons, List.not_mem_nil, or_false] at member old
      rcases member with (active | rfl) | rest
      · exact old e' (Or.inl active)
      · exact old e (Or.inr (Or.inl rfl))
      · exact old e' (Or.inr (Or.inr rest))
    · intro e' member
      exact tabled.cleared e' (by rw [inactive]; exact List.mem_cons_of_mem _ member)

/-- A record is in one row, and there once. -/
theorem Tabled.nodup (tabled : Tabled s T) : (addrs (T.active ++ T.inactive)).Nodup := by
  obtain ⟨p, q, sel, rows⟩ := tabled.rows
  obtain ⟨d₀, -, holds₀, -, -⟩ := rows.state (c := 0) rfl
  obtain ⟨d₁, -, holds₁, -, -⟩ := rows.state (c := 1) rfl
  rw [addrs_append, List.nodup_append]
  refine ⟨holds₀.linked.nodup, holds₁.linked.nodup, ?_⟩
  rintro a active b inactive rfl
  exact holds₀.disjoint holds₁ (by decide) active inactive

theorem Tabled.unused (tabled : Tabled s T) {mem : Nat} (free : s.heap mem = none) : mem ∉ addrs T.active := by
  obtain ⟨p, q, sel, rows⟩ := tabled.rows
  obtain ⟨d₀, -, holds₀, -, -⟩ := rows.state (c := 0) rfl
  intro member
  have live := holds₀.isSome member
  rw [tagAt_none.mpr free] at live
  cases live

theorem Tabled.keeps (tabled : Tabled s T) {call : HandleCall} (proper : call.Proper s) : T.Keeps call := by
  cases call with
  | create drv user type data mem =>
    simp only [Table.Keeps]
    unfold Table.create
    by_cases refused : drv.self = 0 ∨ drv.refuses type = true
    · rw [if_pos refused]
      exact Or.inl ⟨rfl, rfl⟩
    rw [if_neg refused]
    cases inactive : T.inactive with
    | nil =>
      simp only [if_neg proper.1]
      refine Or.inr ⟨(mem, HandleInfo.new drv user type data), rfl, tabled.unused proper.2, rfl, ?_⟩
      exact fun e member => absurd member List.not_mem_nil
    | cons e r =>
      refine Or.inr ⟨(e.1, e.2.reuse drv user type data), rfl, ?_, rfl, ?_⟩
      · have nodup := tabled.nodup
        rw [inactive, addrs_append, addrs_cons, List.nodup_middle, List.nodup_cons] at nodup
        exact fun member => nodup.1 (List.mem_append_left _ member)
      · intro e' member other
        rcases List.mem_cons.mp member with rfl | rest
        · exact absurd rfl other
        · exact rest
  | remove h =>
    simp only [Table.Keeps, Table.step, Table.retire]
    refine ⟨?_, ?_, ?_, List.subset_append_left _ _⟩
    · rintro e active rfl
      constructor
      · intro still
        obtain ⟨e', member, same⟩ := mem_addrs.mp still
        simp [same] at member
      · apply List.mem_append_right
        exact List.mem_map.mpr ⟨e, List.mem_filter.mpr ⟨active, decide_eq_true rfl⟩, rfl⟩
    · intro e active other
      exact List.mem_filter.mpr ⟨active, by simp [other]⟩
    · exact fun e member => (List.mem_filter.mp member).1
  | msgHandler msg data =>
    simp only [Table.Keeps, Table.step, Table.retire]
    intro uninit
    rw [if_pos uninit]
    refine ⟨?_, ?_, ?_, List.subset_append_left _ _⟩
    · intro e member
      simpa using (List.mem_filter.mp member).2
    · intro e active other
      exact List.mem_filter.mpr ⟨active, by simp [other]⟩
    · exact fun e member => (List.mem_filter.mp member).1

theorem Tabled.step (tabled : Tabled s T) {call : HandleCall} (proper : call.Proper s) (room : call.Room s) :
    ∃ s', HandleTable.step s call = some ((T.step call).1, s') ∧ Tabled s' (T.step call).2 := by
  cases call with
  | create drv user type data mem => exact create_spec tabled drv user type data proper room
  | remove h =>
    obtain ⟨s', call, tabled'⟩ := remove_spec tabled proper
    exact ⟨s', by rw [HandleTable.step, call]; rfl, tabled'⟩
  | msgHandler msg data =>
    obtain ⟨s', call, tabled'⟩ := msgHandler_spec tabled msg data
    exact ⟨s', by rw [HandleTable.step, call]; rfl, tabled'⟩

end Calls

theorem blank_tabled {s : HandleTable} (blank : Context.Blank s 2) : Tabled s ⟨[], []⟩ := by
  refine ⟨⟨0, 0, 0, blank.shelved (2 ^ 32)⟩, by decide, ?_, ?_⟩
  · exact fun e member => absurd member List.not_mem_nil
  · exact fun e member => absurd member List.not_mem_nil

/-- Every run of calls keeps the two rows of records, as long as there are fewer than `2 ^ 32` of them. -/
theorem handles_keep_rows {s : HandleTable} (blank : Context.Blank s 2) (calls : List HandleCall)
    (allowed : Allowed HandleTable.step (fun s call => call.Proper s ∧ call.Room s) s calls) :
    ∃ s', outcome HandleTable.step s calls = some ((results Table.step ⟨[], []⟩ calls).1, s') ∧
      Tabled s' (results Table.step ⟨[], []⟩ calls).2 ∧
      (addrs ((results Table.step ⟨[], []⟩ calls).2.active ++ (results Table.step ⟨[], []⟩ calls).2.inactive)).Nodup ∧
      ∀ call : HandleCall, call.Proper s' → (results Table.step ⟨[], []⟩ calls).2.Keeps call := by
  have sim : ∀ s T (call : HandleCall), Tabled s T → call.Proper s ∧ call.Room s →
      ∃ s', HandleTable.step s call = some ((T.step call).1, s') ∧ Tabled s' (T.step call).2 :=
    fun s T call tabled ok => tabled.step ok.1 ok.2
  obtain ⟨s', returns, tabled⟩ := simulation sim (blank_tabled blank) calls allowed
  exact ⟨s', returns, tabled, tabled.nodup, fun _ proper => tabled.keeps proper⟩

/-- A driver of no special type. -/
def someDriver : Driver := ⟨1, 0, 0⟩

def someInfo : HandleInfo := HandleInfo.new someDriver 0 0 none

/-- An empty table, in an empty memory. -/
def newTable : HandleTable := ⟨16, .vector, 0, 2, 8, [Col.zero, Col.zero], fun _ => none⟩

theorem newTable_blank : Context.Blank newTable 2 := by
  refine ⟨rfl, rfl, rfl, by decide, rfl, ?_⟩
  intro p it get
  cases get

/-- A handle is made, and its driver goes. -/
theorem handles_keep_rows_two_calls :
    ∃ s', outcome HandleTable.step newTable [.create someDriver 0 0 none 100, .msgHandler 104 1] = some ([125, 0], s') ∧
      Tabled s' ⟨[], [(100, someInfo.clear)]⟩ ∧ (addrs ([] ++ [(100, someInfo.clear)])).Nodup ∧
      ∀ call : HandleCall, call.Proper s' → Table.Keeps ⟨[], [(100, someInfo.clear)]⟩ call := by
  apply handles_keep_rows newTable_blank [.create someDriver 0 0 none 100, .msgHandler 104 1]
  refine ⟨⟨⟨by decide, rfl⟩, ?_⟩, fun _ _ _ => ⟨⟨trivial, trivial⟩, fun _ _ _ => trivial⟩⟩
  intro d₀ d₁ get₀ get₁ _
  cases get₀
  decide

/-! ## More than `2 ^ 32` records -/

/-- A record without one before it goes to a column whose counter is 0, whatever that column holds. -/
theorem mov_to_zero {s : HandleTable} {p n c c' : Nat} {x : HandleInfo} {d d' : Col} {h : Nat → Option (Item HandleInfo)}
    (vector : s.mode = .vector) (nonnull : p ≠ 0) (other : c' ≠ c) (inside : c' < s.ncol) (get : s.state[c]? = some d)
    (get' : s.state[c']? = some d') (empty : d'.count = 0) (item : s.heap p = some ⟨s.self, c, 0, n, x⟩)
    (after : s.setPrevIf n 0 = some (s.withHeap h)) (item' : h p = some ⟨s.self, c, 0, n, x⟩) :
    s.mov (p + hdrSize) c' = some (true, ((s.withHeap (Function.update h p (some ⟨s.self, c', 0, 0, x⟩))).setCol c
      (d.unlink p 0 n)).setCol c' ⟨p, p, p, 1, d'.current⟩) := by
  have here : s.item p = some ⟨s.self, c, 0, n, x⟩ := by rw [Context.item, if_neg nonnull, item]
  have before : s.setNextIf 0 n = some s := rfl
  have left : ((s.withHeap h).setCol c (d.unlink p 0 n)).state[c']? = some d' := by
    rw [setCol_state, List.getElem?_set_ne other.symm]
    exact get'
  have linked : ((s.withHeap h).setCol c (d.unlink p 0 n)).link p c' d' =
      some (true, ((s.withHeap (Function.update h p (some ⟨s.self, c, 0, 0, x⟩))).setCol c (d.unlink p 0 n)).setCol c'
        ⟨p, p, p, d'.count, d'.current⟩) := by
    rw [Context.link, if_neg (not_not.mpr empty), modCol_eq left]
    simp only [setCol_mode, withHeap_mode, vector, Context.setNext, Context.setPrev, Context.item, if_neg nonnull, setCol_heap,
      withHeap_heap, item', Option.map_some, put_eq, setCol_withHeap, withHeap_withHeap, Option.bind_eq_bind,
      Option.bind_some, Function.update_self, Function.update_idem]
  have last : ∀ h' col, ((((s.withHeap h').setCol c (d.unlink p 0 n)).setCol c' col)).state[c']? = some col :=
    fun h' col => setCol_get (s := (s.withHeap h').setCol c (d.unlink p 0 n)) left col
  unfold Context.mov
  simp only [Nat.add_sub_cancel, here, Option.bind_eq_bind, Option.bind_some]
  rw [if_pos ⟨trivial, other, inside⟩, before, Option.bind_some, after, Option.bind_some]
  simp only [withHeap_state, get, Option.bind_some]
  rw [modCol_eq (s := s.withHeap h) get, left, Option.bind_some, linked]
  simp only [Option.bind_some, if_true, Context.item, if_neg nonnull, setCol_heap, withHeap_heap, Function.update_self,
    put_eq, setCol_withHeap, withHeap_withHeap, Function.update_idem]
  rw [modCol_eq (last _ _), setCol_setCol, empty]
  rfl

/-- The first of `2 ^ 32 + 1` active records gets inactive; the counter of the others is 0. -/
theorem lost_remove {s : HandleTable} {L i c : Nat} {it : Item HandleInfo} (ncol : s.ncol = 2) (vector : s.mode = .vector)
    (state : s.state = [⟨c, 1, L, 1, i⟩, Col.zero]) (last : L ≠ 1) (first : s.heap 1 = some ⟨s.self, 0, 0, 2, someInfo⟩)
    (second : s.heap 2 = some it) :
    ∃ s', HandleTable.remove s 26 = some s' ∧ s'.self = s.self ∧ s'.mode = s.mode ∧ s'.ncol = 2 ∧
      (∃ c', s'.state = [⟨c', 2, L, 0, i⟩, ⟨1, 1, 1, 1, 0⟩]) ∧ s'.heap 1 = some ⟨s.self, 1, 0, 0, someInfo.clear⟩ ∧
      s'.heap 2 = some { it with prev := 0 } ∧ ∀ q, q ≠ 1 → q ≠ 2 → s'.heap q = s.heap q := by
  have magic : someInfo.magic = handleMagic := rfl
  have here : s.item 1 = some ⟨s.self, 0, 0, 2, someInfo⟩ := first
  have valid : HandleTable.validate s 26 = some true := by
    simp [HandleTable.validate, HandleTable.info, hdrSize, here, magic]
  -- The record is cleared before it moves, and the one behind it loses its link back.
  let t : HandleTable := s.put 1 ⟨s.self, 0, 0, 2, someInfo.clear⟩
  have write : HandleTable.write s 26 HandleInfo.clear = some t := by
    simp [HandleTable.write, hdrSize, here, t]
  let h := Function.update t.heap 2 (some { it with prev := 0 })
  have kept : t.heap 1 = some ⟨t.self, 0, 0, 2, someInfo.clear⟩ := by simp [t]
  have after : t.setPrevIf 2 0 = some (t.withHeap h) := by
    have next : t.heap 2 = some it := by simp [t, second]
    simp [Context.setPrevIf, Context.setPrev, Context.item, next, h]
  have source : t.state[0]? = some ⟨c, 1, L, 1, i⟩ := by simp [t, state]
  have dest : t.state[1]? = some Col.zero := by simp [t, state]
  have vector' : t.mode = .vector := vector
  have inside : 1 < t.ncol := (show 1 < s.ncol by omega)
  have kept' : h 1 = some ⟨t.self, 0, 0, 2, someInfo.clear⟩ := by simp [h, kept]
  have mov := mov_to_zero vector' Nat.one_ne_zero Nat.one_ne_zero inside source dest rfl kept after kept'
  have call : HandleTable.remove s 26 = (t.mov (1 + hdrSize) 1).bind fun r => some r.2 := by
    simp only [HandleTable.remove, valid, write, Option.bind_eq_bind, Option.bind_some, if_true]
    rfl
  have fewer : decr 1 = 0 := by decide
  have left : (⟨c, 1, L, 1, i⟩ : Col).unlink 1 0 2 = ⟨if c = 1 then 2 else c, 2, L, 0, i⟩ := by
    simp [Col.unlink, last, fewer]
  rw [call, mov, left]
  refine ⟨_, rfl, rfl, rfl, ncol, ⟨if c = 1 then 2 else c, ?_⟩, ?_, ?_, ?_⟩
  · simp [t, state, Col.zero]
  · simp [t]
  · simp [h]
  · intro q other other'
    simp [t, h, other, other']

/-- The record that gets active again is the only one of its column. -/
theorem lost_create {s : HandleTable} {L i c : Nat} {x : HandleInfo} {it : Item HandleInfo} (ncol : s.ncol = 2)
    (vector : s.mode = .vector) (state : s.state = [⟨c, 2, L, 0, i⟩, ⟨1, 1, 1, 1, 0⟩])
    (first : s.heap 1 = some ⟨s.self, 1, 0, 0, x⟩) (second : s.heap 2 = some it) (mem : Nat) :
    ∃ s', HandleTable.create s someDriver 0 0 none mem = some (26, s') ∧ s'.self = s.self ∧
      (∃ d₀ d₁, s'.state = [d₀, d₁] ∧ d₀.pFirst = 1 ∧ d₁.pFirst = 0) ∧ nextAt s'.heap 1 = 0 ∧ s'.heap 2 = some it := by
  have nonnull : someDriver.self ≠ 0 := by decide
  have accepted : someDriver.refuses 0 = false := by decide
  let u : HandleTable := s.col colInactive
  have inactive : u.first = some (26, u) := by
    simp [u, Context.first, Context.col, Context.modCol, colInactive, ncol, state, hdrSize]
  let t : HandleTable := u.put 1 ⟨s.self, 1, 0, 0, x.reuse someDriver 0 0 none⟩
  have write : HandleTable.write u 26 (fun hi => hi.reuse someDriver 0 0 none) = some t := by
    simp [HandleTable.write, hdrSize, Context.item, t, u, Context.col, colInactive, ncol, first]
  have kept : t.heap 1 = some ⟨t.self, 1, 0, 0, x.reuse someDriver 0 0 none⟩ := by
    simp [t, u, Context.col, colInactive, ncol]
  have source : t.state[1]? = some ⟨1, 1, 1, 1, 0⟩ := by simp [t, u, Context.col, colInactive, ncol, state]
  have dest : t.state[0]? = some ⟨c, 2, L, 0, i⟩ := by simp [t, u, Context.col, colInactive, ncol, state]
  have vector' : t.mode = .vector := by simp [t, u, Context.col, colInactive, ncol, vector]
  have inside : 0 < t.ncol := by simp [t, u, Context.col, colInactive, ncol]
  have mov := mov_to_zero vector' Nat.one_ne_zero Nat.zero_ne_one inside source dest rfl kept rfl kept
  have call : HandleTable.create s someDriver 0 0 none mem =
      (t.mov (1 + hdrSize) 0).bind fun r => some (if r.1 then 26 else 0, r.2.col colActive) := by
    simp only [HandleTable.create, if_neg nonnull, accepted, Option.bind_eq_bind, Bool.false_eq_true, if_false]
    rw [show s.col colInactive = u from rfl, inactive, Option.bind_some]
    simp only [write, Option.bind_some]
    rfl
  have left : (⟨1, 1, 1, 1, 0⟩ : Col).unlink 1 0 0 = ⟨0, 0, 0, 0, 0⟩ := by decide
  rw [call, mov, left]
  refine ⟨_, rfl, ?_, ⟨⟨1, 1, 1, 1, i⟩, ⟨0, 0, 0, 0, 0⟩, ?_, rfl, rfl⟩, ?_, ?_⟩ <;>
    simp [t, u, Context.col, colInactive, colActive, ncol, state, second]

/-- The records that `n` calls make, at the addresses from 1 on, and the calls. -/
def crowd (n : Nat) : List (Nat × HandleInfo) := (List.range' 1 n).map fun p => (p, someInfo)
def createMany (n : Nat) : List HandleCall := (List.range' 1 n).map fun p => .create someDriver 0 0 none p

/-- All `n` records are active, whatever the counter says. -/
structure Crowded (s : HandleTable) (n : Nat) : Prop where
  ready : ∃ d pos, Ready (2 ^ 33) s d ⟨crowd n, pos⟩ ∧ s.state = [d, Col.zero]
  ncol : s.ncol = 2
  selected : s.ccol = 0
  above : ∀ q, n < q → s.heap q = none

theorem Crowded.create {s : HandleTable} {n : Nat} (crowded : Crowded s n) (few : n ≤ 2 ^ 32) :
    ∃ s', HandleTable.create s someDriver 0 0 none (n + 1) = some (n + 1 + hdrSize, s') ∧ Crowded s' (n + 1) := by
  obtain ⟨⟨d, pos, ready, state⟩, ncol, selected, above⟩ := crowded
  have free := tagAt_none.mpr (above (n + 1) (by omega))
  have length : (crowd n).length = n := by simp [crowd]
  obtain ⟨s', add, turn⟩ := add_spec ready (Nat.succ_ne_zero n) free (fun large => by simp only [length] at large; omega)
    someInfo
  have first : (s.col colInactive).first = some (0, s.col colInactive) := by
    simp [Context.col, Context.first, ncol, colInactive, state, Col.zero]
  have back : (s.col colInactive).col colActive = s := by
    obtain ⟨self, mode, ccol, ncol', pState, state, heap⟩ := s
    cases ncol
    cases selected
    rfl
  have more : crowd (n + 1) = crowd n ++ [(n + 1, someInfo)] := by
    simp [crowd, List.range'_concat, Nat.add_comm]
  obtain ⟨d', state', holds', aim'⟩ := turn.state
  rw [state, selected] at state'
  refine ⟨s', ?_, ⟨d', (crowd n).length, ⟨turn.mode.trans ready.vector, ?_, ?_, ?_⟩, state'⟩, ?_, ?_, ?_⟩
  · have nonnull : someDriver.self ≠ 0 := by decide
    have accepted : ¬ someDriver.refuses 0 = true := by decide
    rw [HandleTable.create, if_neg nonnull, if_neg accepted]
    simp only [first, Option.bind_eq_bind, Option.bind_some, ne_eq, not_true_eq_false, if_false, back]
    exact add
  · rw [turn.ccol, selected, state']
    rfl
  · rw [turn.ccol, more]
    exact holds'
  · rw [more]
    exact aim'
  · exact turn.ncol.trans ncol
  · exact turn.ccol.trans selected
  · intro q high
    have free := tagAt_none.mpr (above q (by omega))
    have out := ready.fresh_outside free
    have out' : q ∉ addrs (crowd n ++ [(n + 1, someInfo)]) := by
      simp only [addrs_append, addrs_cons, addrs_nil, List.mem_append, List.mem_singleton, not_or]
      exact ⟨out, by omega⟩
    exact tagAt_none.mp ((turn.same q out out').1.trans free)

theorem createMany_crowded (n : Nat) (few : n ≤ 2 ^ 32 + 1) :
    Allowed HandleTable.step (fun s call => call.Proper s) newTable (createMany n) ∧
      ∃ rs s, outcome HandleTable.step newTable (createMany n) = some (rs, s) ∧ Crowded s n := by
  induction n with
  | zero =>
    refine ⟨trivial, [], newTable, rfl, ⟨Col.zero, 0, ⟨rfl, rfl, ?_, ?_⟩, rfl⟩, rfl, rfl, fun _ _ => rfl⟩
    · exact ⟨nofun, Linked.nil, rfl, rfl, rfl⟩
    · exact ⟨rfl, fun some => absurd rfl some, fun some => absurd rfl some⟩
  | succ n ih =>
    obtain ⟨allowed, rs, s, run, crowded⟩ := ih (by omega)
    obtain ⟨s', create, crowded'⟩ := crowded.create (by omega)
    have more : createMany (n + 1) = createMany n ++ [HandleCall.create someDriver 0 0 none (n + 1)] := by
      simp [createMany, List.range'_concat, Nat.add_comm]
    have last : outcome HandleTable.step s [.create someDriver 0 0 none (n + 1)] = some ([n + 1 + hdrSize], s') := by
      simp only [outcome, HandleTable.step, create, Option.bind_some, Option.map_some]
    rw [more, outcome_append, run]
    refine ⟨allowed.append ?_, rs ++ [n + 1 + hdrSize], s', ?_, crowded'⟩
    · intro rs' t again
      cases run.symm.trans again
      exact ⟨⟨Nat.succ_ne_zero n, crowded.above _ (Nat.lt_succ_self n)⟩, fun _ _ _ => trivial⟩
    · simp only [Option.bind_some, last, Option.map_some]

/-- What the table looks like with `2 ^ 32 + 1` active records: its counter says 1. -/
theorem Crowded.overflow {s : HandleTable} {n : Nat} (crowded : Crowded s n) (full : n = 2 ^ 32 + 1) :
    ∃ c L i it, s.state = [⟨c, 1, L, 1, i⟩, Col.zero] ∧ L ≠ 1 ∧ s.mode = .vector ∧
      s.heap 1 = some ⟨s.self, 0, 0, 2, someInfo⟩ ∧ s.heap 2 = some it ∧ it.cxt = s.self := by
  obtain ⟨d, pos, ready, state⟩ := crowded.ready
  obtain ⟨k, rfl⟩ : ∃ k, n = k + 2 := ⟨n - 2, by omega⟩
  let rest : List (Nat × HandleInfo) := (List.range' 3 k).map fun p => (p, someInfo)
  have rows : crowd (k + 2) = [] ++ (1, someInfo) :: ((2, someInfo) :: rest) := rfl
  have holds := ready.holds
  rw [crowded.selected] at holds
  have length : (crowd (k + 2)).length = k + 2 := by simp [crowd]
  have count := holds.count
  rw [length, full] at count
  rw [rows] at holds
  have first : d.pFirst = 1 := holds.first
  have item := holds.item (e := (1, someInfo)) (by simp)
  have item' := holds.item (e := (2, someInfo)) (by simp)
  obtain ⟨before, after⟩ := holds.split
  have last : 1 ≠ d.pLast := fun same => absurd (holds.last_iff.mp same) (by simp)
  obtain ⟨pCurrent, pFirst, pLast, number, current⟩ := d
  simp only [before, after] at item
  refine ⟨pCurrent, pLast, current, _, ?_, Ne.symm last, ready.vector, item, item', rfl⟩
  rw [state, show pFirst = 1 from first, show number = 1 from count]

/-- `2 ^ 32 + 1` handles are made, the first is removed and made again: the second is in no column then. -/
theorem handle_in_no_column :
    Allowed HandleTable.step (fun s call => call.Proper s) newTable
        (createMany (2 ^ 32 + 1) ++ [.remove 26, .create someDriver 0 0 none (2 ^ 32 + 2)]) ∧
      ∃ rs s d₀ d₁ it, outcome HandleTable.step newTable
          (createMany (2 ^ 32 + 1) ++ [.remove 26, .create someDriver 0 0 none (2 ^ 32 + 2)]) = some (rs, s) ∧
        s.state = [d₀, d₁] ∧ d₀.pFirst = 1 ∧ nextAt s.heap 1 = 0 ∧ d₁.pFirst = 0 ∧ s.heap 2 = some it ∧ it.cxt = s.self := by
  generalize full : 2 ^ 32 + 1 = n
  have fresh : 2 ^ 32 + 2 = n + 1 := by rw [← full]
  rw [fresh]
  obtain ⟨allowed, rs, s, run, crowded⟩ := createMany_crowded n (Nat.le_of_eq full.symm)
  obtain ⟨c, L, i, it, state, last, vector, first, second, mine⟩ := crowded.overflow full.symm
  obtain ⟨s₁, remove, self₁, mode₁, ncol₁, ⟨c', state₁⟩, first₁, second₁, same₁⟩ :=
    lost_remove crowded.ncol vector state last first second
  rw [← self₁] at first₁
  obtain ⟨s₂, create, self₂, ⟨d₀, d₁, state₂, first₂, none₂⟩, next₂, second₂⟩ :=
    lost_create ncol₁ (mode₁.trans vector) state₁ first₁ second₁ (n + 1)
  have tail : outcome HandleTable.step s [.remove 26, .create someDriver 0 0 none (n + 1)] = some ([0, 26], s₂) := by
    simp only [outcome, HandleTable.step, remove, create, Option.bind_some, Option.map_some]
  constructor
  · apply allowed.append
    intro rs' t again
    cases run.symm.trans again
    have here : s.item 1 = some ⟨s.self, 0, 0, 2, someInfo⟩ := first
    refine ⟨Or.inr ⟨_, here, rfl, by decide⟩, fun r t removed => ?_⟩
    rw [HandleTable.step, remove] at removed
    cases removed
    have unused : s₁.heap (n + 1) = none := by
      rw [same₁ (n + 1) (by omega) (by omega)]
      exact crowded.above _ (Nat.lt_succ_self n)
    exact ⟨⟨Nat.succ_ne_zero n, unused⟩, fun _ _ _ => trivial⟩
  · refine ⟨rs ++ [0, 26], s₂, d₀, d₁, _, ?_, state₂, first₂, next₂, none₂, second₂, ?_⟩
    · rw [outcome_append, run]
      simp only [Option.bind_some, tail, Option.map_some]
    · rw [self₂, self₁]
      exact mine

end PreTeO.Fs
