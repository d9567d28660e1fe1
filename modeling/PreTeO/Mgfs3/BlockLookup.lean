import Mathlib.Algebra.Order.Group.Nat
import Mathlib.Tactic.Ring
import PreTeO.Mgfs3.BlockMap
import PreTeO.Mgfs3.Inode

/-!
# What the block lists mean

A block is found by the digits of its number: the slot in `location`, and one entry in each address unit below it. The walk of
`mgfs_inode_list_dunit` computes each slot with products of 32 bits, and where a slot is not in use or its address unit
cannot be read, it goes on to the next level with the same table. The plain descent is `leafOf`; the walk agrees with it where
`Clear` holds.
-/

namespace PreTeO.Mgfs3
set_option autoImplicit false
open PreTeO.Lib

/-- An entry of a table of `c` slots, if it is in use. -/
def slotOf (t : Table) (c i : Nat) : Option Nat := if i < c ∧ t i ≠ invalidUnitNumber then some (t i) else none

/-- Where the digits of `f` lead: the table that has the block, and its slot there. -/
def leafOf (dev : Nat → Option Mem) (n : Nat) : Nat → Table → Nat → Nat → Option (Table × Nat × Nat)
  | 0, t, c, f => some (t, c, f)
  | l + 1, t, c, f =>
    ((slotOf t c (f / n ^ (l + 1))).bind dev).bind fun m => leafOf dev n l (entry m) n (f % n ^ (l + 1))

/-- The unit of a block. -/
def unitOf (dev : Nat → Option Mem) (unitSize : Nat) (inode : Inode) (block : Nat) : Option Nat :=
  (leafOf dev (unitSize / 4) inode.level inode.location maxLocationIndex block).bind fun (t, c, f) => slotOf t c f

/-- The units of blocks in a row, up to the first that has none. -/
def unitsFrom (unit : Nat → Option Nat) : Nat → Nat → List Nat
  | 0, _ => []
  | count + 1, block =>
    match unit block with
    | some u => u :: unitsFrom unit count (block + 1)
    | none => []

/-- What a walk finds in a table in place of a block whose slot has nothing to read: no lower level finds a slot that can be
read, and the index is no slot in use. -/
def Nothing (dev : Nat → Option Mem) (n l : Nat) (t : Table) (c f : Nat) : Prop :=
  (∀ m, 1 ≤ m → m ≤ l → ∀ i, findPointer c (pow32 n m) f = some i → t i = invalidUnitNumber ∨ dev (t i) = none) ∧
    slotOf t c f = none

/-- The walk for a block is clear: in every level its slot is found with 32 bits, or there is nothing to read in it, and
nothing is found in its place. -/
def ClearWalk (dev : Nat → Option Mem) (n : Nat) : Nat → Table → Nat → Nat → Prop
  | 0, _, _, _ => True
  | l + 1, t, c, f =>
    match (slotOf t c (f / n ^ (l + 1))).bind dev with
    | some m => f < (f / n ^ (l + 1) + 1) * n ^ (l + 1) % 2 ^ 32 ∧ ClearWalk dev n l (entry m) n (f % n ^ (l + 1))
    | none => Nothing dev n (l + 1) t c f

/-- The walks for all the blocks that a list comes to are clear. -/
def Clear (dev : Nat → Option Mem) (unitSize : Nat) (inode : Inode) (first count : Nat) : Prop :=
  ∀ k < count, (∀ j < k, (unitOf dev unitSize inode (first + j)).isSome) → first + k < 2 ^ 32 ∧
    ClearWalk dev (unitSize / 4) inode.level inode.location maxLocationIndex (first + k)

/-- The walks that a list makes are clear: at its first block, and at the first block of each leaf behind it. -/
def ClearRounds (dev : Nat → Option Mem) (unitSize : Nat) (inode : Inode) (first count : Nat) : Prop :=
  ∀ k < count, k = 0 ∨ (first + k) % (unitSize / 4) = 0 → (∀ j < k, (unitOf dev unitSize inode (first + j)).isSome) →
    first + k < 2 ^ 32 ∧ ClearWalk dev (unitSize / 4) inode.level inode.location maxLocationIndex (first + k)

section Walk
variable {dev : Nat → Option Mem} {n l c f : Nat} {t : Table}

theorem pow32_eq (n l : Nat) : pow32 n l = n ^ l % 2 ^ 32 := by
  induction l with
  | zero => rfl
  | succ l ih => rw [pow32, ih, Nat.pow_succ n l, Nat.mod_mul_mod]

/-- The slot of a digit is found if its product has 32 bits. -/
theorem findPointer_digit (small : f < 2 ^ 32) (inside : f / n ^ l < c)
    (product : f < (f / n ^ l + 1) * n ^ l % 2 ^ 32) : findPointer c (pow32 n l) f = some (f / n ^ l) := by
  have times : ∀ i, (i + 1) * pow32 n l % 2 ^ 32 = (i + 1) * n ^ l % 2 ^ 32 := by
    intro i
    rw [pow32_eq, Nat.mul_mod_mod]
  rw [findPointer, List.find?_range_eq_some]
  refine ⟨?_, List.mem_range.2 inside, fun i before => ?_⟩
  · rw [times]
    exact decide_eq_true product
  · rw [times]
    -- An earlier slot ends at or before the block.
    have le : (i + 1) * n ^ l ≤ f := Nat.le_trans (Nat.mul_le_mul_right _ before) (Nat.div_mul_le_self f _)
    rw [Nat.mod_eq_of_lt (Nat.lt_of_le_of_lt le small)]
    simpa using le

/-- The rest of the index. -/
theorem rest_digit (small : f < 2 ^ 32) : f - f / n ^ l * pow32 n l % 2 ^ 32 = f % n ^ l := by
  have le : f / n ^ l * n ^ l ≤ f := Nat.div_mul_le_self f _
  rw [pow32_eq, Nat.mul_mod_mod, Nat.mod_eq_of_lt (Nat.lt_of_le_of_lt le small), Nat.mod_eq_sub_div_mul]

/-- Where nothing can be read the walk stays with its table. -/
theorem bootDescend_nothing {clSz : Nat} {w : BootWalk} (l : Nat)
    (nothing : ∀ m, 1 ≤ m → m ≤ l → ∀ i, findPointer w.c (pow32 (clSz / 4) m) w.f = some i →
      w.table i = invalidUnitNumber ∨ dev (w.table i) = none) : bootDescend dev clSz l w = w := by
  induction l with
  | zero => rfl
  | succ l ih =>
    have stays : bootDescendLevel dev clSz (l + 1) w = w := by
      unfold bootDescendLevel
      simp only
      cases found : findPointer w.c (pow32 (clSz / 4) (l + 1)) w.f with
      | none => rfl
      | some i =>
        obtain invalid | fails := nothing (l + 1) (Nat.le_add_left 1 l) (Nat.le_refl _) i found
        · simp [invalid]
        · simp [fails]
    rw [bootDescend, stays]
    exact ih fun m pos le => nothing m pos (Nat.le_succ_of_le le)

/-- A clear walk ends where the digits lead, or where there is nothing. -/
theorem bootDescend_clear {clSz : Nat} (l : Nat) (small : f < 2 ^ 32) (clear : ClearWalk dev (clSz / 4) l t c f) :
    match leafOf dev (clSz / 4) l t c f with
    | some (t', c', f') => bootDescend dev clSz l ⟨t, c, f⟩ = ⟨t', c', f'⟩
    | none =>
      slotOf (bootDescend dev clSz l ⟨t, c, f⟩).table (bootDescend dev clSz l ⟨t, c, f⟩).c
        (bootDescend dev clSz l ⟨t, c, f⟩).f = none := by
  induction l generalizing t c f with
  | zero => rfl
  | succ l ih =>
    unfold ClearWalk at clear
    unfold leafOf
    cases read : (slotOf t c (f / (clSz / 4) ^ (l + 1))).bind dev with
    | none =>
      rw [read] at clear
      obtain ⟨nothing, empty⟩ := clear
      rw [bootDescend_nothing (l + 1) nothing]
      exact empty
    | some m =>
      rw [read] at clear
      obtain ⟨product, clear⟩ := clear
      obtain ⟨u, used, reads⟩ := Option.bind_eq_some_iff.1 read
      obtain ⟨⟨inside, valid⟩, same⟩ := Option.ite_none_right_eq_some.1 used
      obtain rfl := Option.some.inj same
      have step : bootDescendLevel dev clSz (l + 1) ⟨t, c, f⟩ = ⟨entry m, clSz / 4, f % (clSz / 4) ^ (l + 1)⟩ := by
        unfold bootDescendLevel
        simp only [findPointer_digit small inside product, ne_eq, valid, not_false_eq_true, if_true, reads,
          rest_digit small]
      rw [bootDescend, step, Option.bind_some]
      exact ih (Nat.lt_of_le_of_lt (Nat.mod_le _ _) small) clear

/-- A block that is not the last of its leaf has its successor behind it. -/
theorem leafOf_bound {g : Nat} {t' : Table} {c' f' : Nat} (leaf : leafOf dev n l t n g = some (t', c', f'))
    (low : g < n ^ (l + 1)) (inside : f' + 1 < c') : g + 1 < n ^ (l + 1) := by
  induction l generalizing t g with
  | zero =>
    obtain ⟨rfl, rfl, rfl⟩ : t = t' ∧ n = c' ∧ g = f' := by simpa [leafOf] using leaf
    simpa using inside
  | succ l ih =>
    obtain ⟨m, read, leaf⟩ := Option.bind_eq_some_iff.1 leaf
    have pos : 0 < n ^ (l + 1) := by
      apply Nat.pos_of_ne_zero
      intro zero
      rw [Nat.pow_succ n (l + 1), zero, Nat.zero_mul] at low
      exact absurd low (Nat.not_lt_zero _)
    have rest := ih leaf (Nat.mod_lt _ pos)
    have digit : g / n ^ (l + 1) < n := by
      rw [Nat.div_lt_iff_lt_mul pos, Nat.mul_comm, ← Nat.pow_succ]
      exact low
    calc g + 1 = n ^ (l + 1) * (g / n ^ (l + 1)) + (g % n ^ (l + 1) + 1) := by rw [← Nat.add_assoc, Nat.div_add_mod]
      _ < n ^ (l + 1) * (g / n ^ (l + 1)) + n ^ (l + 1) := by omega
      _ = n ^ (l + 1) * (g / n ^ (l + 1) + 1) := by ring
      _ ≤ n ^ (l + 1) * n := Nat.mul_le_mul_left _ digit
      _ = n ^ (l + 2) := rfl

/-- The table of an address unit has all the slots of one. -/
theorem leafOf_width {g : Nat} {t' : Table} {c' f' : Nat} (leaf : leafOf dev n l t n g = some (t', c', f')) : c' = n := by
  induction l generalizing t g with
  | zero => exact (Prod.mk.inj (Prod.mk.inj (Option.some.inj leaf)).2).1.symm
  | succ l ih =>
    obtain ⟨m, -, leaf⟩ := Option.bind_eq_some_iff.1 leaf
    exact ih leaf

/-- Below the record the index in a leaf is the last digit. -/
theorem leafOf_index {t' : Table} {c' f' : Nat} (leaf : leafOf dev n (l + 1) t c f = some (t', c', f')) :
    c' = n ∧ f' = f % n := by
  induction l generalizing t c f with
  | zero =>
    obtain ⟨m, -, leaf⟩ := Option.bind_eq_some_iff.1 leaf
    obtain ⟨-, rest⟩ := Prod.mk.inj (Option.some.inj leaf)
    obtain ⟨width, index⟩ := Prod.mk.inj rest
    refine ⟨width.symm, ?_⟩
    rw [← index, Nat.zero_add, Nat.pow_one]
  | succ l ih =>
    obtain ⟨m, -, leaf⟩ := Option.bind_eq_some_iff.1 leaf
    obtain ⟨width, index⟩ := ih leaf
    refine ⟨width, ?_⟩
    rw [index]
    exact Nat.mod_mod_of_dvd f (Dvd.intro_left (n ^ (l + 1)) rfl)

/-- The digits of the next number, if the last digit is not the largest. -/
theorem succ_digits {m : Nat} (inside : f % m + 1 < m) : (f + 1) / m = f / m ∧ (f + 1) % m = f % m + 1 := by
  have pos : 0 < m := by omega
  refine (Nat.div_mod_unique pos).2 ⟨?_, inside⟩
  have whole := Nat.mod_add_div f m
  omega

theorem leafOf_succ {t' : Table} {c' f' : Nat} (leaf : leafOf dev n l t c f = some (t', c', f')) (inside : f' + 1 < c') :
    leafOf dev n l t c (f + 1) = some (t', c', f' + 1) := by
  induction l generalizing t c f with
  | zero =>
    obtain ⟨rfl, rfl, rfl⟩ : t = t' ∧ c = c' ∧ f = f' := by simpa [leafOf] using leaf
    rfl
  | succ l ih =>
    obtain ⟨m, read, leaf⟩ := Option.bind_eq_some_iff.1 leaf
    have pos : 0 < n ^ (l + 1) := by
      have width := leafOf_width leaf
      exact Nat.pow_pos (by omega)
    have rest : f % n ^ (l + 1) + 1 < n ^ (l + 1) := leafOf_bound leaf (Nat.mod_lt _ pos) inside
    obtain ⟨digit, low⟩ := succ_digits rest
    rw [leafOf, digit, read, Option.bind_some, low]
    exact ih leaf

end Walk

section Lists
variable {dev : Nat → Option Mem} {unitSize first count : Nat} {inode : Inode}

/-- The units of a leaf are those of its blocks. -/
theorem takeEntries_units {t : Table} {c : Nat} (n : Nat) {f block : Nat} (out : List Nat)
    (leaf : leafOf dev (unitSize / 4) inode.level inode.location maxLocationIndex block = some (t, c, f))
    (width : f + n = c) (more : out.length < count) :
    let taken := takeEntries t count n f out
    (taken.2 = true → taken.1 = out ++ unitsFrom (unitOf dev unitSize inode) (count - out.length) block) ∧
      (taken.2 = false → ∃ k ≤ count - out.length, taken.1 = out ++ unitsFrom (unitOf dev unitSize inode) k block ∧
        (unitsFrom (unitOf dev unitSize inode) k block).length = k ∧ (0 < n → 0 < k) ∧
          (k = n ∨ out.length + k = count)) := by
  induction n generalizing f block out with
  | zero =>
    refine ⟨by simp [takeEntries], fun _ => ⟨0, Nat.zero_le _, ?_, rfl, by simp, .inl rfl⟩⟩
    simp [takeEntries, unitsFrom]
  | succ n ih =>
    obtain ⟨left, size⟩ : ∃ left, count - out.length = left + 1 := ⟨count - out.length - 1, by omega⟩
    have unit : unitOf dev unitSize inode block = slotOf t c f := by rw [unitOf, leaf, Option.bind_some]
    have inside : f < c := by omega
    unfold takeEntries
    by_cases valid : t f ≠ invalidUnitNumber
    · have used : unitOf dev unitSize inode block = some (t f) := by rw [unit, slotOf, if_pos ⟨inside, valid⟩]
      rw [if_pos valid]
      by_cases full : count ≤ out.length + 1
      · rw [if_pos full]
        refine ⟨by simp, fun _ => ⟨1, by omega, ?_, ?_, by simp, .inr (by omega)⟩⟩
        · simp [unitsFrom, used]
        · simp [unitsFrom, used]
      · rw [if_neg full]
        by_cases last : f + 1 < c
        · have next := ih (out ++ [t f]) (leafOf_succ leaf last) (by omega) (by simpa using full)
          have rest : count - (out ++ [t f]).length = left := by
            rw [List.length_append, List.length_singleton]
            omega
          obtain ⟨ended, goes⟩ := next
          rw [rest] at ended goes
          refine ⟨fun stop => ?_, fun on => ?_⟩
          · rw [ended stop, size]
            simp [unitsFrom, used]
          · obtain ⟨k, le, taken, length, -, ends⟩ := goes on
            rw [List.length_append, List.length_singleton] at ends
            refine ⟨k + 1, by omega, ?_, ?_, by simp, by omega⟩
            · rw [taken]
              simp [unitsFrom, used]
            · simp [unitsFrom, used, length]
        · obtain rfl : n = 0 := by omega
          refine ⟨by simp [takeEntries], fun _ => ⟨1, by omega, ?_, ?_, by simp, .inl rfl⟩⟩
          · simp [takeEntries, unitsFrom, used]
          · simp [unitsFrom, used]
    · have unused : unitOf dev unitSize inode block = none := by rw [unit, slotOf, if_neg fun both => valid both.2]
      rw [if_neg valid]
      refine ⟨fun _ => ?_, by simp⟩
      simp [size, unitsFrom, unused]

theorem unitsFrom_cons {unit : Nat → Option Nat} {block u : Nat} (here : unit block = some u) (count : Nat) :
    unitsFrom unit (count + 1) block = u :: unitsFrom unit count (block + 1) := by
  simp [unitsFrom, here]

theorem unitsFrom_none {unit : Nat → Option Nat} {block : Nat} (none : unit block = none) (count : Nat) :
    unitsFrom unit count block = [] := by
  cases count with
  | zero => rfl
  | succ count => simp [unitsFrom, none]

/-- Units in a row, and those behind them. -/
theorem unitsFrom_append {unit : Nat → Option Nat} {k block : Nat} (all : (unitsFrom unit k block).length = k) (m : Nat) :
    unitsFrom unit (k + m) block = unitsFrom unit k block ++ unitsFrom unit m (block + k) := by
  induction k generalizing block with
  | zero => simp [unitsFrom]
  | succ k ih =>
    cases here : unit block with
    | none => simp [unitsFrom_none here] at all
    | some u =>
      rw [unitsFrom_cons here, List.length_cons] at all
      rw [Nat.succ_add, unitsFrom_cons here, unitsFrom_cons here, ih (Nat.succ.inj all), List.cons_append, Nat.add_assoc,
        Nat.add_comm 1 k]

/-- A block whose unit is in the list has one. -/
theorem unitsFrom_get {unit : Nat → Option Nat} {count block k : Nat} {u : Nat}
    (get : (unitsFrom unit count block)[k]? = some u) : unit (block + k) = some u := by
  induction count generalizing block k with
  | zero => simp [unitsFrom] at get
  | succ count ih =>
    cases here : unit block with
    | none => simp [unitsFrom_none here] at get
    | some first =>
      rw [unitsFrom_cons here] at get
      cases k with
      | zero => exact here.trans get
      | succ k =>
        rw [Nat.add_succ, ← Nat.succ_add]
        exact ih get

theorem unitsFrom_some {unit : Nat → Option Nat} {k block : Nat} (all : (unitsFrom unit k block).length = k) {j : Nat}
    (before : j < k) : (unit (block + j)).isSome := by
  have inside : j < (unitsFrom unit k block).length := by rwa [all]
  rw [unitsFrom_get (List.getElem?_eq_getElem inside)]
  rfl

theorem Clear.rounds (clear : Clear dev unitSize inode first count) : ClearRounds dev unitSize inode first count :=
  fun k bound _ => clear k bound

/-- A round of the loop begins with the first block of the list or of a leaf. In the record there is only one. -/
def RoundStart (unitSize : Nat) (inode : Inode) (first k : Nat) : Prop :=
  k = 0 ∨ if inode.level = 0 then first + k ≤ maxLocationIndex else (first + k) % (unitSize / 4) = 0

theorem ClearRounds.start (clear : ClearRounds dev unitSize inode first count) {k : Nat} (more : k < count)
    (round : RoundStart unitSize inode first k) (before : ∀ j < k, (unitOf dev unitSize inode (first + j)).isSome) :
    first + k < 2 ^ 32 ∧ ClearWalk dev (unitSize / 4) inode.level inode.location maxLocationIndex (first + k) := by
  rcases round with zero | leaf
  · exact clear k more (.inl zero) before
  · split at leaf
    · next record =>
      rw [record]
      exact ⟨Nat.lt_of_le_of_lt leaf (by decide), trivial⟩
    · exact clear k more (.inr leaf) before

/-- The block behind the last one of a leaf. -/
theorem roundStart_next {k : Nat} {t : Table} {c f : Nat}
    (leaf : leafOf dev (unitSize / 4) inode.level inode.location maxLocationIndex (first + k) = some (t, c, f))
    (inside : f < c) : RoundStart unitSize inode first (k + (c - f)) := by
  refine .inr ?_
  split
  · next record =>
    rw [record] at leaf
    obtain ⟨-, rest⟩ := Prod.mk.inj (Option.some.inj leaf)
    obtain ⟨rfl, rfl⟩ := Prod.mk.inj rest
    omega
  · next below =>
    obtain ⟨l, level⟩ := Nat.exists_eq_succ_of_ne_zero below
    rw [level] at leaf
    obtain ⟨rfl, rfl⟩ := leafOf_index leaf
    generalize unitSize / 4 = n at inside ⊢
    have whole := Nat.div_add_mod (first + k) n
    have next : first + (k + (n - (first + k) % n)) = n * ((first + k) / n) + n := by omega
    rw [next, Nat.mul_add_mod, Nat.mod_self]

/-- Where the walks are clear the loop lists the units in the row. -/
theorem bootListLoop_units (clear : ClearRounds dev unitSize inode first count) (fuel : Nat) {k : Nat} (le : k ≤ count)
    (round : k < count → RoundStart unitSize inode first k)
    (all : (unitsFrom (unitOf dev unitSize inode) k first).length = k) (enough : count ≤ k + fuel) :
    bootListLoop dev unitSize inode first count fuel (unitsFrom (unitOf dev unitSize inode) k first) =
      unitsFrom (unitOf dev unitSize inode) count first := by
  induction fuel generalizing k with
  | zero =>
    obtain rfl : k = count := by omega
    rfl
  | succ fuel ih =>
    unfold bootListLoop
    rw [all]
    by_cases more : k < count
    · obtain ⟨small, walk⟩ := clear.start more (round more) fun j before => unitsFrom_some all before
      obtain ⟨left, size⟩ : ∃ left, count = k + left := ⟨count - k, by omega⟩
      have whole := unitsFrom_append all left
      rw [← size] at whole
      have ends := bootDescend_clear inode.level small walk
      rw [if_pos more, Nat.mod_eq_of_lt small]
      generalize bootDescend dev unitSize inode.level ⟨inode.location, maxLocationIndex, first + k⟩ = w at ends
      cases leaf : leafOf dev (unitSize / 4) inode.level inode.location maxLocationIndex (first + k) with
      | none =>
        rw [leaf] at ends
        have unmapped : unitOf dev unitSize inode (first + k) = none := by rw [unitOf, leaf, Option.bind_none]
        rw [unitsFrom_none unmapped left, List.append_nil] at whole
        rw [whole]
        dsimp only at ends ⊢
        by_cases beyond : w.c ≤ w.f
        · rw [if_pos beyond]
        · -- the slot the walk stopped at is not in use
          have unused : w.table w.f = invalidUnitNumber := by
            by_contra used
            have found : slotOf w.table w.c w.f = some (w.table w.f) := if_pos ⟨Nat.lt_of_not_le beyond, used⟩
            rw [found] at ends
            cases ends
          obtain ⟨n, slots⟩ : ∃ n, w.c - w.f = n + 1 := ⟨w.c - w.f - 1, by omega⟩
          rw [if_neg beyond, slots]
          simp [takeEntries, unused]
      | some found =>
        obtain ⟨t, c, f⟩ := found
        rw [leaf] at ends
        dsimp only at ends
        subst ends
        dsimp only
        by_cases beyond : c ≤ f
        · have unmapped : unitOf dev unitSize inode (first + k) = none := by
            rw [unitOf, leaf]
            exact if_neg fun both => Nat.not_lt_of_le beyond both.1
          rw [if_pos beyond, whole, unitsFrom_none unmapped left, List.append_nil]
        · have width : f + (c - f) = c := by omega
          obtain ⟨ended, goes⟩ := takeEntries_units (c - f) (unitsFrom (unitOf dev unitSize inode) k first) leaf width
            (by rw [all]; exact more)
          rw [all] at ended goes
          rw [if_neg beyond]
          cases stop : (takeEntries t count (c - f) f (unitsFrom (unitOf dev unitSize inode) k first)).2 with
          | true =>
            rw [if_pos rfl, ended stop, whole, size, Nat.add_sub_cancel_left]
          | false =>
            obtain ⟨j, le', taken, length, progress, ends⟩ := goes stop
            rw [if_neg Bool.false_ne_true, taken, ← unitsFrom_append all j]
            apply ih
            · omega
            · intro again
              have wholeLeaf : j = c - f := ends.resolve_right fun last => Nat.ne_of_lt again (all ▸ last)
              exact wholeLeaf ▸ roundStart_next leaf (Nat.lt_of_not_le beyond)
            · rw [unitsFrom_append all j, List.length_append, all, length]
            · have := progress (by omega)
              omega
    · obtain rfl : k = count := by omega
      rw [if_neg more]

theorem inodeListDunit_units (clear : ClearRounds dev unitSize inode first count) :
    inodeListDunit dev unitSize inode first count = unitsFrom (unitOf dev unitSize inode) count first :=
  bootListLoop_units clear count (Nat.zero_le _) (fun _ => .inl rfl) rfl (Nat.le_add_left _ _)

/-- A row of units depends only on the blocks up to the first that has none. -/
theorem unitsFrom_congr {unit unit' : Nat → Option Nat} {count block : Nat}
    (same : ∀ k < count, (∀ j < k, (unit (block + j)).isSome) → unit' (block + k) = unit (block + k)) :
    unitsFrom unit' count block = unitsFrom unit count block := by
  induction count generalizing block with
  | zero => rfl
  | succ count ih =>
    have here : unit' block = unit block := same 0 (Nat.succ_pos _) nofun
    cases mapped : unit block with
    | none => rw [unitsFrom_none mapped, unitsFrom_none (here.trans mapped)]
    | some u =>
      rw [unitsFrom_cons mapped, unitsFrom_cons (here.trans mapped)]
      congr 1
      apply ih
      intro k bound before
      rw [Nat.add_assoc, Nat.add_comm 1 k]
      apply same (k + 1) (Nat.succ_lt_succ bound)
      intro j le
      cases j with
      | zero => simp [mapped]
      | succ j =>
        rw [Nat.add_comm j 1, ← Nat.add_assoc]
        exact before j (Nat.lt_of_succ_lt_succ le)

/-- A single lookup in a clear row. -/
theorem Clear.single (clear : Clear dev unitSize inode first count) {k : Nat} (bound : k < count)
    (before : ∀ j < k, (unitOf dev unitSize inode (first + j)).isSome) : Clear dev unitSize inode (first + k) 1 := by
  intro j single _
  obtain rfl : j = 0 := by omega
  exact clear k bound before

/-- What is found with some units unread is found with all of them. -/
theorem leafOf_mono {dev' : Nat → Option Mem} (more : ∀ u m, dev u = some m → dev' u = some m) {n l c f : Nat} {t : Table}
    {leaf : Table × Nat × Nat} (found : leafOf dev n l t c f = some leaf) : leafOf dev' n l t c f = some leaf := by
  induction l generalizing t c f with
  | zero => exact found
  | succ l ih =>
    obtain ⟨m, read, rest⟩ := Option.bind_eq_some_iff.1 found
    obtain ⟨u, used, reads⟩ := Option.bind_eq_some_iff.1 read
    rw [leafOf, used, Option.bind_some, more u m reads, Option.bind_some]
    exact ih rest

end Lists

/-! ## The kernel's list -/

section Kernel
variable {v : Volume} {ref : Ref} {first count hlock : Nat}

/-- The units as they are, also those that cannot be read. -/
def Volume.whole (v : Volume) (unit : Nat) : Option Mem := some (v.mem unit)

/-- The lookup of a single block. -/
def lookup (v : Volume) (ref : Ref) (hlock block : Nat) : Option Nat :=
  match (mgfsInodeListDunit ref block 1 hlock).run v with
  | .ok ([unit], _) => some unit
  | _ => none

/-- The list is that of the plain descents, and that of the lookups one after the other. -/
def ListsBlocks (v : Volume) (ref : Ref) (first count hlock : Nat) : Prop :=
  let plain := unitsFrom (unitOf v.whole v.unitSize (v.inodes ref)) count first
  (∃ w, (mgfsInodeListDunit ref first count hlock).run v = .ok (plain, w)) ∧
    unitsFrom (lookup v ref hlock) count first = plain

/-- Each number in the list is the unit of its block. -/
def ListsOwnUnits (v : Volume) (ref : Ref) (first count hlock : Nat) : Prop :=
  ∃ units w, (mgfsInodeListDunit ref first count hlock).run v = .ok (units, w) ∧
    ∀ k u, units[k]? = some u → unitOf v.whole v.unitSize (v.inodes ref) (first + k) = some u

theorem dev_whole (reads : ∀ unit, v.reads unit = true) : v.dev = v.whole := by
  funext unit
  rw [Volume.dev, if_pos (reads unit), Volume.whole]

theorem lookup_clear (ready : Ready hlock v) {block : Nat} (clear : Clear v.dev v.unitSize (v.inodes ref) block 1) :
    lookup v ref hlock block = unitOf v.dev v.unitSize (v.inodes ref) block := by
  obtain ⟨w, run, -⟩ := mgfsInodeListDunit_spec ready ref block 1
  rw [lookup, run, inodeListDunit_units clear.rounds]
  cases mapped : unitOf v.dev v.unitSize (v.inodes ref) block with
  | none => rw [unitsFrom_none mapped]
  | some u => rw [unitsFrom_cons mapped, unitsFrom]

/-- The list where every walk is clear. -/
theorem lists_blocks (ready : Ready hlock v) (reads : ∀ unit, v.reads unit = true)
    (clear : Clear v.whole v.unitSize (v.inodes ref) first count) : ListsBlocks v ref first count hlock := by
  rw [← dev_whole reads] at clear
  obtain ⟨w, run, -⟩ := mgfsInodeListDunit_spec ready ref first count
  refine ⟨⟨w, ?_⟩, ?_⟩
  · rw [run, inodeListDunit_units clear.rounds, dev_whole reads]
  · rw [← dev_whole reads]
    apply unitsFrom_congr
    intro k bound before
    exact lookup_clear ready (clear.single bound before)

/-- An inode with a hole, and a leaf behind it. -/
def holed : Inode := ⟨0, 0, 1, 1, fun i => if i = 1 then 5 else invalidUnitNumber, 0, 0⟩

/-- An inode whose first address unit has all its blocks. -/
def oneFilled : Inode := ⟨0, 0, 128, 1, fun i => if i = 0 then 1 else invalidUnitNumber, 0, 0⟩

/-- An inode with two address units. -/
def twoFilled : Inode := ⟨0, 0, 256, 1, fun i => if i < 2 then i + 1 else invalidUnitNumber, 0, 0⟩

/-- A volume of zeros with one inode. -/
def volumeOf (inode : Inode) (reads : Nat → Bool) : Volume :=
  { zeroVolume 512 with inodes := fun _ => inode, reads := reads }

theorem volumeOf_ready (inode : Inode) (reads : Nat → Bool) : Ready 0 (volumeOf inode reads) := Or.inl rfl

/-- The walks in the two leaves are clear, if the second one can be read or not. -/
theorem twoFilled_clear {reads : Nat → Bool} (first : reads 1 = true) {block : Nat} (inside : block < 256) :
    block < 2 ^ 32 ∧ ClearWalk (volumeOf twoFilled reads).dev (512 / 4) 1 twoFilled.location maxLocationIndex block := by
  refine ⟨by omega, ?_⟩
  unfold ClearWalk
  have digit : block / (512 / 4) ^ (0 + 1) = 0 ∨ block / (512 / 4) ^ (0 + 1) = 1 := by omega
  have slot : ∀ i < 2, slotOf twoFilled.location maxLocationIndex i = some (i + 1) := by
    intro i low
    obtain rfl | rfl : i = 0 ∨ i = 1 := by omega
    all_goals rfl
  have unit : ∀ u, (volumeOf twoFilled reads).dev u = if reads u = true then some fun _ => 0#8 else none := fun _ => rfl
  rcases digit with zero | one
  · rw [zero, slot 0 (by decide), Option.bind_some, unit, if_pos first]
    have low : block < 128 := by omega
    exact ⟨low, trivial⟩
  · rw [one, slot 1 (by decide), Option.bind_some, unit]
    cases second : reads 2 with
    | true => exact ⟨inside, trivial⟩
    | false =>
      refine ⟨fun m pos le i found => .inr ?_, if_neg fun both => ?_⟩
      · -- the slot that is found is that of the second unit
        obtain rfl : m = 1 := Nat.le_antisymm le pos
        rw [findPointer_digit (by omega) (by rw [one]; decide) (by omega), one] at found
        obtain rfl := Option.some.inj found
        exact (unit 2).trans (if_neg (ne_true_of_eq_false second))
      · have outside := both.1
        unfold maxLocationIndex at outside
        omega

theorem lists_blocks_of_leaf : ListsBlocks (volumeOf twoFilled fun _ => true) (.file 0) 126 4 0 := by
  refine lists_blocks (volumeOf_ready _ _) (fun _ => rfl) ?_
  rw [← dev_whole fun _ => rfl]
  intro k bound _
  exact twoFilled_clear rfl (by omega)

/-- In place of a block in the hole the address unit of other blocks is returned. -/
theorem hole_lists_pointer :
    ∃ v : Volume, (∀ unit, v.reads unit = true) ∧ Ready 0 v ∧ (v.inodes (.file 0)).level ≤ maxInodeLevel + 1 ∧
      1 + 1 ≤ maxLocationIndex * (v.unitSize / 4) ^ (v.inodes (.file 0)).level ∧ ¬ ListsBlocks v (.file 0) 1 1 0 := by
  refine ⟨volumeOf holed fun _ => true, fun _ => rfl, volumeOf_ready _ _, by decide, by decide, ?_⟩
  rintro ⟨⟨w, run⟩, -⟩
  obtain ⟨w', run', -⟩ := mgfsInodeListDunit_spec (volumeOf_ready holed fun _ => true) (.file 0) 1 1
  rw [run'] at run
  have same : [5] = ([] : List Nat) := congrArg Prod.fst (Except.ok.inj run)
  cases same

/-- The list where every walk that it makes is clear, whatever cannot be read. -/
theorem lists_own_units (ready : Ready hlock v) (clear : ClearRounds v.dev v.unitSize (v.inodes ref) first count) :
    ListsOwnUnits v ref first count hlock := by
  obtain ⟨w, run, -⟩ := mgfsInodeListDunit_spec ready ref first count
  rw [inodeListDunit_units clear] at run
  refine ⟨_, w, run, fun k u get => ?_⟩
  have mapped := unitsFrom_get get
  obtain ⟨leaf, found, slot⟩ := Option.bind_eq_some_iff.1 mapped
  have more : ∀ u m, v.dev u = some m → v.whole u = some m := fun u m read => (Option.ite_none_right_eq_some.1 read).2
  rw [unitOf, leafOf_mono more found]
  exact slot

/-- The units that can be read but for one. -/
def allBut (u unit : Nat) : Bool := unit != u

theorem lists_own_units_unread : ListsOwnUnits (volumeOf twoFilled (allBut 2)) (.file 0) 126 4 0 := by
  refine lists_own_units (volumeOf_ready _ _) ?_
  intro k bound _ _
  exact twoFilled_clear rfl (by omega)

/-- The two blocks before the leaf that cannot be read are in that list. -/
example : inodeListDunit (volumeOf twoFilled (allBut 2)).dev 512 twoFilled 126 4 = [0, 0] := by decide

/-- In place of the first block the address unit that cannot be read is returned. -/
theorem unread_lists_pointer :
    ∃ v : Volume, Ready 0 v ∧ 1 ≤ (v.inodes (.file 0)).level ∧ ¬ ListsOwnUnits v (.file 0) 0 1 0 := by
  refine ⟨volumeOf oneFilled (allBut 1), volumeOf_ready _ _, Nat.le_refl _, ?_⟩
  rintro ⟨units, w, run, own⟩
  obtain ⟨w', run', -⟩ := mgfsInodeListDunit_spec (volumeOf_ready oneFilled (allBut 1)) (.file 0) 0 1
  rw [run'] at run
  have same : [1] = units := congrArg Prod.fst (Except.ok.inj run)
  subst same
  have zero : unitOf (volumeOf oneFilled (allBut 1)).whole 512 oneFilled 0 = some 0 := rfl
  have first := zero.symm.trans (own 0 1 rfl)
  cases first

end Kernel

end PreTeO.Mgfs3
