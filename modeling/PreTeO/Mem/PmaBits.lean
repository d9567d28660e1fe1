import Mathlib.Algebra.BigOperators.Group.List.Basic
import PreTeO.Lib.Bits
import PreTeO.Mem.Pma

/-!
# Bits and counters of a block

`set_bits` marks a run of pages across the records of a block and keeps three things together: the bits, the
`amount` of each record and the `nfree` of the block. The page `p` of a block is bit `p % 24` of record `p / 24`.
-/

namespace PreTeO.Mem
set_option autoImplicit false
open PreTeO.Lib

/-- `amount` is the number of set bits. -/
def Rec.Counted (r : Rec) : Prop := r.amount = ones r.bmp

instance (r : Rec) : Decidable r.Counted := inferInstanceAs (Decidable (_ = _))

/-- Pages of a record that are not taken, as `amount` has it. -/
def Rec.free (r : Rec) : Nat := maxRecAmount - r.amount

/-- The page is taken. -/
def takenIn (recs : List Rec) (p : Nat) : Bool :=
  match recs[p / maxRecAmount]? with
  | none => false
  | some r => r.bmp.getLsbD (23 - p % maxRecAmount)

/-- The page of the block is taken. -/
def Ram.taken (b : Ram) (p : Nat) : Bool := takenIn b.recs p

/-- The counters of a block are right. -/
structure Ram.Counted (b : Ram) : Prop where
  recs : ∀ r ∈ b.recs, r.Counted
  nfree : b.nfree = (b.recs.map Rec.free).sum

/-! ## One bit -/

theorem up_eq {w n : Nat} (small : n + 1 < 2 ^ w) : up w n = n + 1 := Nat.mod_eq_of_lt small

theorem down_eq {w n : Nat} (positive : 0 < n) (small : n < 2 ^ w) : down w n = n - 1 := by
  unfold down
  rw [show n + (2 ^ w - 1) = n - 1 + 2 ^ w by omega, Nat.add_mod_right, Nat.mod_eq_of_lt (by omega)]

/-- What `set_bits` does for one mask: nothing if the bit is as asked for, else one bit and both counters change. -/
theorem setPage_cases (set : Bool) (r : Rec) (nfree n : Nat) :
    (r.bmp.getLsbD n = set ∧ setPage set r nfree n = (r, nfree)) ∨
      (set = true ∧ r.bmp.getLsbD n = false ∧ setPage set r nfree n =
        ({ r with bmp := r.bmp ||| 1#24 <<< n, amount := up 5 r.amount }, down 64 nfree)) ∨
      (set = false ∧ r.bmp.getLsbD n = true ∧ setPage set r nfree n =
        ({ r with bmp := r.bmp &&& ~~~(1#24 <<< n), amount := down 5 r.amount }, up 64 nfree)) := by
  unfold setPage
  cases set <;> cases bit : r.bmp.getLsbD n <;> simp only [if_true, Bool.false_eq_true, if_false, true_and, and_self,
    true_or, or_true, false_and, reduceCtorEq, or_false, false_or]

/-- One bit is set to what was asked for and the others stay. -/
theorem setPage_bits (set : Bool) (r : Rec) (nfree : Nat) {n j : Nat} (small : n < 24) (bound : j < 24) :
    (setPage set r nfree n).1.bmp.getLsbD j = if j = n then set else r.bmp.getLsbD j := by
  have mask := getLsbD_mask (j := j) small
  rcases setPage_cases set r nfree n with ⟨bit, same⟩ | ⟨rfl, -, change⟩ | ⟨rfl, -, change⟩
  · rw [same]
    split
    · next here => rw [here, bit]
    · rfl
  · rw [change, BitVec.getLsbD_or, mask]
    by_cases here : j = n <;> simp [here]
  · rw [change, BitVec.getLsbD_and, BitVec.getLsbD_not, mask]
    by_cases here : j = n <;> simp [here, bound]

/-- The counters follow the bit. -/
theorem setPage_counted (set : Bool) {r : Rec} {nfree n g : Nat} (small : n < 24) (counted : r.Counted)
    (balance : nfree = g + r.free) (room : g + 24 < 2 ^ 64) :
    (setPage set r nfree n).1.Counted ∧ (setPage set r nfree n).2 = g + (setPage set r nfree n).1.free := by
  have bits := fun j bound => setPage_bits set r nfree (n := n) (j := j) small bound
  have others : SameBut n r.bmp (setPage set r nfree n).1.bmp := by
    intro j bound differ
    rw [bits j bound, if_neg differ]
  have here := bits n small
  rw [if_pos rfl] at here
  unfold Rec.Counted at counted ⊢
  unfold Rec.free maxRecAmount at balance ⊢
  have few := ones_le (setPage set r nfree n).1.bmp
  have few' := ones_le r.bmp
  rcases setPage_cases set r nfree n with ⟨-, same⟩ | ⟨rfl, bit, change⟩ | ⟨rfl, bit, change⟩
  · rw [same]
    exact ⟨counted, balance⟩
  · have more := ones_set small others bit here
    rw [more] at few
    rw [change] at more ⊢
    dsimp only at more ⊢
    rw [up_eq (by omega), down_eq (by omega) (by omega)]
    omega
  · have more := ones_set small (fun j bound differ => (others j bound differ).symm) here bit
    rw [change] at more ⊢
    dsimp only at more ⊢
    rw [down_eq (by omega) (by omega), up_eq (by omega)]
    omega

/-! ## The loops of `set_bits` -/

/-- The loop over the masks of a record: `k` pages are set, from the first mask on. -/
theorem setPages_spec (set : Bool) (count n cnt g : Nat) {r : Rec} {nfree : Nat} (small : n ≤ 24) (counted : r.Counted)
    (balance : nfree = g + r.free) (room : g + 24 < 2 ^ 64) :
    ∃ r' k, setPages set count n r nfree cnt = (r', g + r'.free, cnt + k) ∧ k = min n (count - cnt) ∧ r'.Counted ∧
      ∀ j, j < 24 → r'.bmp.getLsbD j = if n ≤ j + k ∧ j < n then set else r.bmp.getLsbD j := by
  induction n generalizing r nfree cnt with
  | zero =>
    refine ⟨r, 0, by simp [setPages, balance], by simp, counted, fun j bound => ?_⟩
    simp
  | succ n ih =>
    unfold setPages
    by_cases more : cnt < count
    · obtain ⟨next, left⟩ := setPage_counted set (n := n) (by omega) counted balance room
      obtain ⟨r', k, run, amount, done, bits⟩ := ih (cnt + 1) (by omega) next left
      refine ⟨r', k + 1, ?_, by omega, done, fun j bound => ?_⟩
      · rw [if_pos more]
        dsimp only
        rw [run, show cnt + (k + 1) = cnt + 1 + k by omega]
      · rw [bits j bound, setPage_bits set r nfree (by omega) bound]
        by_cases here : j = n
        · subst here
          simp
        · have : (n + 1 ≤ j + (k + 1) ∧ j < n + 1) ↔ (n ≤ j + k ∧ j < n) := by omega
          simp only [here, if_false, this]
    · refine ⟨r, 0, ?_, by omega, counted, fun j bound => ?_⟩
      · rw [if_neg more, balance, Nat.add_zero]
      · rw [if_neg (by omega)]

theorem takenIn_cons (r : Rec) (rest : List Rec) (p : Nat) :
    takenIn (r :: rest) p = if p < 24 then r.bmp.getLsbD (23 - p) else takenIn rest (p - 24) := by
  unfold takenIn maxRecAmount
  by_cases front : p < 24
  · rw [if_pos front, Nat.div_eq_of_lt front, Nat.mod_eq_of_lt front]
    rfl
  · rw [if_neg front, show p / 24 = (p - 24) / 24 + 1 by omega, show p % 24 = (p - 24) % 24 by omega,
      List.getElem?_cons_succ]

theorem takenIn_append (front back : List Rec) (p : Nat) :
    takenIn (front ++ back) p = if p < 24 * front.length then takenIn front p else takenIn back (p - 24 * front.length) := by
  induction front generalizing p with
  | nil => simp
  | cons r rest ih =>
    rw [List.cons_append, takenIn_cons, takenIn_cons, ih, List.length_cons]
    by_cases first : p < 24
    · rw [if_pos first, if_pos first, if_pos (by omega)]
    · rw [if_neg first, if_neg first]
      by_cases inside : p < 24 * (rest.length + 1)
      · rw [if_pos inside, if_pos (by omega)]
      · rw [if_neg inside, if_neg (by omega), show p - 24 - 24 * rest.length = p - 24 * (rest.length + 1) by omega]

theorem Rec.free_le (r : Rec) : r.free ≤ 24 := Nat.sub_le _ _

theorem sum_free_le (recs : List Rec) : (recs.map Rec.free).sum ≤ 24 * recs.length := by
  induction recs with
  | nil => simp
  | cons r rest ih =>
    have := r.free_le
    simp only [List.map_cons, List.sum_cons, List.length_cons]
    omega

/-- The loop over the records: `k` pages are set, from the first mask of the first record on. -/
theorem setRecords_spec (set : Bool) (type count : Nat) (recs : List Rec) (n cnt g : Nat) {nfree : Nat} (small : n ≤ 24)
    (counted : ∀ r ∈ recs, r.Counted) (balance : nfree = g + (recs.map Rec.free).sum)
    (room : g + 24 * recs.length < 2 ^ 64) :
    ∃ recs' k, setRecords set type count recs n nfree cnt = (recs', g + (recs'.map Rec.free).sum, cnt + k) ∧
      recs'.length = recs.length ∧ k = min (count - cnt) (24 * recs.length - (24 - n)) ∧ (∀ r ∈ recs', r.Counted) ∧
      ∀ p, takenIn recs' p = if 24 - n ≤ p ∧ p < 24 - n + k then set else takenIn recs p := by
  induction recs generalizing n nfree cnt g with
  | nil =>
    refine ⟨[], 0, ?_, rfl, by simp, by simp, fun p => ?_⟩
    · simp [setRecords, balance]
    · rw [if_neg (by omega)]
  | cons r rest ih =>
    simp only [List.map_cons, List.sum_cons] at balance
    simp only [List.length_cons] at room
    have few := sum_free_le rest
    unfold setRecords
    by_cases more : cnt < count
    · have left : nfree = g + (rest.map Rec.free).sum + Rec.free { r with type := type % 2 ^ 3 } := by
        simp only [Rec.free] at balance ⊢
        omega
      obtain ⟨r', k, run, amount, first, bits⟩ := setPages_spec set count n cnt (g + (rest.map Rec.free).sum)
        (r := { r with type := type % 2 ^ 3 }) small (counted r (by simp)) left (by omega)
      have few' := r'.free_le
      obtain ⟨rest', k', run', length, amount', later, bits'⟩ := ih 24 (cnt + k) (g + r'.free) (le_refl _)
        (fun r member => counted r (by simp [member]))
        (show g + (rest.map Rec.free).sum + r'.free = g + r'.free + (rest.map Rec.free).sum by omega) (by omega)
      refine ⟨r' :: rest', k + k', ?_, by simp [length], ?_, ?_, fun p => ?_⟩
      · rw [if_pos more, run]
        dsimp only [maxRecAmount]
        rw [run']
        simp [Nat.add_assoc]
      · simp only [List.length_cons]
        omega
      · intro r₁ member
        rcases List.mem_cons.mp member with rfl | member
        · exact first
        · exact later r₁ member
      · rw [takenIn_cons, takenIn_cons]
        by_cases front : p < 24
        · rw [if_pos front, if_pos front, bits (23 - p) (by omega)]
          have : (n ≤ 23 - p + k ∧ 23 - p < n) ↔ (24 - n ≤ p ∧ p < 24 - n + (k + k')) := by omega
          simp only [this]
        · rw [if_neg front, if_neg front, bits' (p - 24)]
          have : (24 - 24 ≤ p - 24 ∧ p - 24 < 24 - 24 + k') ↔ (24 - n ≤ p ∧ p < 24 - n + (k + k')) := by omega
          simp only [this]
    · refine ⟨r :: rest, 0, ?_, rfl, by omega, counted, fun p => ?_⟩
      · rw [if_neg more, balance]
        simp
      · rw [if_neg (by omega)]

/-- `set_bits` on a block sets the run of pages that starts at the position and ends with the block, and no other
page. -/
theorem Ram.setBits_spec {b : Ram} (counted : b.Counted) (room : b.npages < 2 ^ 64) {index bit : Nat}
    (inside : index < b.recs.length) (small : bit < 24) (count type : Nat) (set : Bool) :
    ∃ b' k, b.setBits index bit count type set = (b', k) ∧ b'.addr = b.addr ∧ b'.recs.length = b.recs.length ∧
      k = min count (b.npages - (24 * index + bit)) ∧ b'.Counted ∧
      ∀ p, b'.taken p = if 24 * index + bit ≤ p ∧ p < 24 * index + bit + k then set else b.taken p := by
  have length : (b.recs.take index).length = index := by
    rw [List.length_take]
    omega
  have rest : (b.recs.drop index).length = b.recs.length - index := List.length_drop
  have split : b.recs = b.recs.take index ++ b.recs.drop index := (List.take_append_drop index b.recs).symm
  unfold Ram.npages maxRecAmount at room ⊢
  have sum : b.nfree = ((b.recs.take index).map Rec.free).sum + ((b.recs.drop index).map Rec.free).sum := by
    rw [← List.sum_append, ← List.map_append, ← split]
    exact counted.nfree
  have few := sum_free_le (b.recs.take index)
  rw [length] at few
  obtain ⟨recs', k, run, same, amount, later, bits⟩ := setRecords_spec set type count (b.recs.drop index) (24 - bit) 0
    ((b.recs.take index).map Rec.free).sum (by omega)
    (fun r member => counted.recs r (List.mem_of_mem_drop member)) sum (by omega)
  refine ⟨⟨b.addr, b.recs.take index ++ recs', ((b.recs.take index).map Rec.free).sum + (recs'.map Rec.free).sum⟩, k,
    ?_, rfl, ?_, ?_, ⟨?_, ?_⟩, fun p => ?_⟩
  · simp only [Ram.setBits, maxRecAmount]
    rw [run]
    simp
  · simp only [List.length_append]
    omega
  · omega
  · intro r member
    rcases List.mem_append.mp member with front | back
    · exact counted.recs r (List.mem_of_mem_take front)
    · exact later r back
  · simp
  · have old := takenIn_append (b.recs.take index) (b.recs.drop index) p
    rw [← split, length] at old
    unfold Ram.taken
    dsimp only
    rw [takenIn_append, length, old]
    by_cases front : p < 24 * index
    · rw [if_pos front, if_pos front, if_neg (by omega)]
    · rw [if_neg front, if_neg front, bits]
      have : (24 - (24 - bit) ≤ p - 24 * index ∧ p - 24 * index < 24 - (24 - bit) + k) ↔
          (24 * index + bit ≤ p ∧ p < 24 * index + bit + k) := by omega
      simp only [this]

/-! ## Types

Every record that `set_bits` comes to gets the type, also where no bit of it changes. -/

/-- The run of `count` pages from `page` on has a page in record `i`. -/
def Touches (page count i : Nat) : Prop := 0 < count ∧ page < 24 * (i + 1) ∧ 24 * i < page + count

instance (page count i : Nat) : Decidable (Touches page count i) := inferInstanceAs (Decidable (_ ∧ _ ∧ _))

theorem setPage_type (set : Bool) (r : Rec) (nfree n : Nat) : (setPage set r nfree n).1.type = r.type := by
  rcases setPage_cases set r nfree n with ⟨-, same⟩ | ⟨-, -, change⟩ | ⟨-, -, change⟩
  · rw [same]
  · rw [change]
  · rw [change]

theorem setPages_type (set : Bool) (count n : Nat) (r : Rec) (nfree cnt : Nat) :
    (setPages set count n r nfree cnt).1.type = r.type := by
  induction n generalizing r nfree cnt with
  | zero => rfl
  | succ n ih =>
    unfold setPages
    split
    · exact (ih _ _ _).trans (setPage_type set r nfree n)
    · rfl

theorem setPages_cnt (set : Bool) (count n : Nat) (r : Rec) (nfree cnt : Nat) :
    (setPages set count n r nfree cnt).2.2 = cnt + min n (count - cnt) := by
  induction n generalizing r nfree cnt with
  | zero => simp [setPages]
  | succ n ih =>
    unfold setPages
    split
    · refine (ih _ _ _).trans ?_
      omega
    · dsimp only
      omega

/-- The record at index `j` is reached while pages are left. -/
theorem setRecords_type (set : Bool) (type count : Nat) (recs : List Rec) (n nfree cnt : Nat) (small : n ≤ 24)
    {j : Nat} {r : Rec} (get : (setRecords set type count recs n nfree cnt).1[j]? = some r) :
    ∃ old, recs[j]? = some old ∧
      r.type = if cnt < count ∧ cnt + 24 * j < count + (24 - n) then type % 2 ^ 3 else old.type := by
  induction recs generalizing n nfree cnt j with
  | nil => cases get
  | cons first rest ih =>
    unfold setRecords at get
    by_cases more : cnt < count
    · rw [if_pos more] at get
      have typed := setPages_type set count n { first with type := type % 2 ^ 3 } nfree cnt
      have done := setPages_cnt set count n { first with type := type % 2 ^ 3 } nfree cnt
      dsimp only at get typed
      cases j with
      | zero =>
        cases get
        refine ⟨first, rfl, ?_⟩
        rw [typed, if_pos (by omega)]
      | succ j =>
        obtain ⟨old, get', rule⟩ := ih maxRecAmount _ _ (le_refl 24) get
        refine ⟨old, get', ?_⟩
        rw [rule, done]
        unfold maxRecAmount
        congr 1
        exact propext (by omega)
    · rw [if_neg more] at get
      refine ⟨r, get, ?_⟩
      rw [if_neg (by omega)]

/-- `set_bits` gives its type to the records that the run touches, and to no other. -/
theorem Ram.setBits_type {b : Ram} {index bit : Nat} (inside : index < b.recs.length) (small : bit < 24)
    (count type : Nat) (set : Bool) {i : Nat} {r : Rec}
    (get : (b.setBits index bit count type set).1.recs[i]? = some r) :
    ∃ old, b.recs[i]? = some old ∧ r.type = if Touches (24 * index + bit) count i then type % 2 ^ 3 else old.type := by
  have length : (b.recs.take index).length = index := by
    rw [List.length_take]
    omega
  dsimp only [Ram.setBits] at get
  rcases Nat.lt_or_ge i index with front | back
  · rw [List.getElem?_append_left (by omega), List.getElem?_take_of_lt front] at get
    have outside : ¬ Touches (24 * index + bit) count i := fun touches => by
      have := touches.2.1
      omega
    refine ⟨r, get, ?_⟩
    rw [if_neg outside]
  · rw [List.getElem?_append_right (by omega), length] at get
    obtain ⟨old, get', rule⟩ := setRecords_type set type count _ _ _ _ (by unfold maxRecAmount; omega) get
    rw [List.getElem?_drop, Nat.add_sub_cancel' back] at get'
    have same : (0 < count ∧ 0 + 24 * (i - index) < count + (24 - (maxRecAmount - bit))) ↔
        Touches (24 * index + bit) count i := by
      unfold Touches maxRecAmount
      omega
    refine ⟨old, get', ?_⟩
    simp only [rule, same]

end PreTeO.Mem
