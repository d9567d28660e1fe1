import Mathlib.Data.List.GetD
import Mathlib.Data.List.TakeWhile
import Mathlib.Data.Nat.Digits.Lemmas
import PreTeO.Lib.Bytes

/-!
# Numerals (`core/common/lib/str.cpp`)

The digits of a number are written from the last to the first and turned round by `_strrev`. A string is the list of its
characters before the zero.
-/

namespace PreTeO.Common
set_option autoImplicit false

open Lib (Byte)

/-! ## Turning a string round -/

/-- The three assignments of `_strrev`. -/
def swapXor (s : List Byte) (p1 p2 : Nat) : List Byte :=
  let s := s.set p1 (s.getD p1 0 ^^^ s.getD p2 0)
  let s := s.set p2 (s.getD p2 0 ^^^ s.getD p1 0)
  s.set p1 (s.getD p1 0 ^^^ s.getD p2 0)

/-- The loop of `_strrev`, with as many rounds as there are characters at most. -/
def strrevLoop : Nat → List Byte → Nat → Nat → List Byte
  | 0, s, _, _ => s
  | left + 1, s, p1, p2 => if p1 < p2 then strrevLoop left (swapXor s p1 p2) (p1 + 1) (p2 - 1) else s

/-- `_strrev`. -/
def strrev (s : List Byte) : List Byte := if s = [] then s else strrevLoop s.length s 0 (s.length - 1)

section strrev
variable {s t : List Byte} {p1 p2 i : Nat}

theorem length_swapXor : (swapXor s p1 p2).length = s.length := by
  simp [swapXor]

theorem getD_set (v : Byte) (bound : p1 < s.length) : (s.set p1 v).getD i 0 = if i = p1 then v else s.getD i 0 := by
  by_cases same : i = p1
  · subst same
    simp [List.getD_eq_getElem?_getD, bound]
  · simp [List.getD_eq_getElem?_getD, same, List.getElem?_set_ne (Ne.symm same)]

theorem getD_swapXor (lower : p1 < p2) (upper : p2 < s.length) :
    (swapXor s p1 p2).getD i 0 = if i = p1 then s.getD p2 0 else if i = p2 then s.getD p1 0 else s.getD i 0 := by
  have apart : p2 ≠ p1 := Nat.ne_of_gt lower
  have first : p1 < s.length := lower.trans upper
  have cancel : ∀ a b : Byte, b ^^^ (a ^^^ b) = a := fun a b => by
    rw [BitVec.xor_comm a b, ← BitVec.xor_assoc, BitVec.xor_self, BitVec.zero_xor]
  have one : ∀ v : Byte, p1 < (s.set p1 v).length ∧ p2 < (s.set p1 v).length := fun v => by
    rw [List.length_set]
    exact ⟨first, upper⟩
  have two : ∀ v v' : Byte, p1 < ((s.set p1 v).set p2 v').length := fun v v' => by
    rw [List.length_set, List.length_set]
    exact first
  simp only [swapXor, getD_set _ (two _ _), getD_set _ (one _).2, getD_set _ first, if_neg apart, if_neg apart.symm,
    if_true, cancel]
  by_cases at_first : i = p1
  · rw [if_pos at_first, if_pos at_first, BitVec.xor_comm, ← BitVec.xor_assoc, BitVec.xor_self, BitVec.zero_xor]
  · rw [if_neg at_first, if_neg at_first, if_neg at_first]

/-- What is left to turn round lies between the two pointers. -/
theorem getD_strrevLoop {left n : Nat} (length : s.length = n) (ends : p1 + p2 + 1 = n) (enough : p2 ≤ p1 + left)
    (bound : i < n) :
    (strrevLoop left s p1 p2).getD i 0 =
      if p1 ≤ i ∧ i ≤ p2 then s.getD (n - 1 - i) 0 else s.getD i 0 := by
  induction left generalizing s p1 p2 with
  | zero =>
    rw [strrevLoop]
    split
    · rw [show n - 1 - i = i by omega]
    · rfl
  | succ left ih =>
    rw [strrevLoop]
    split
    · next lower =>
      have upper : p2 < s.length := by omega
      rw [ih (length_swapXor.trans length) (by omega) (by omega), getD_swapXor lower upper, getD_swapXor lower upper]
      by_cases at_first : i = p1
      · rw [if_neg (by omega), if_pos at_first, if_pos (by omega), show n - 1 - i = p2 by omega]
      · by_cases at_last : i = p2
        · rw [if_neg (by omega), if_neg at_first, if_pos at_last, if_pos (by omega), show n - 1 - i = p1 by omega]
        · rw [if_neg at_first, if_neg at_last, if_neg (show n - 1 - i ≠ p1 by omega), if_neg (show n - 1 - i ≠ p2 by omega)]
          by_cases between : p1 ≤ i ∧ i ≤ p2
          · rw [if_pos between, if_pos (by omega)]
          · rw [if_neg between, if_neg (by omega)]
    · split
      · rw [show n - 1 - i = i by omega]
      · rfl

theorem length_strrevLoop {left : Nat} : (strrevLoop left s p1 p2).length = s.length := by
  induction left generalizing s p1 p2 with
  | zero => rfl
  | succ left ih =>
    rw [strrevLoop]
    split
    · rw [ih, length_swapXor]
    · rfl

theorem strrev_eq (s : List Byte) : strrev s = s.reverse := by
  rw [strrev]
  split
  · next empty => rw [empty, List.reverse_nil]
  · next some_char =>
    have pos := List.length_pos_iff.mpr some_char
    refine List.ext_getElem (length_strrevLoop.trans List.length_reverse.symm) fun i inside inside' => ?_
    rw [length_strrevLoop] at inside
    have read : (strrevLoop s.length s 0 (s.length - 1)).getD i 0 = _ :=
      getD_strrevLoop rfl (by omega) (by omega) inside
    rw [if_pos (by omega), List.getD_eq_getElem _ _ (length_strrevLoop.symm ▸ inside),
      List.getD_eq_getElem _ _ (by omega)] at read
    rw [read, List.getElem_reverse]

end strrev

/-! ## Writing a number -/

/-- `digits`, with its final zero. -/
def digits : List Byte :=
  [0x30, 0x31, 0x32, 0x33, 0x34, 0x35, 0x36, 0x37, 0x38, 0x39,
    0x61, 0x62, 0x63, 0x64, 0x65, 0x66, 0x67, 0x68, 0x69, 0x6a, 0x6b, 0x6c, 0x6d,
    0x6e, 0x6f, 0x70, 0x71, 0x72, 0x73, 0x74, 0x75, 0x76, 0x77, 0x78, 0x79, 0x7a, 0]

/-- `digits[i]`; `outside` is what lies before and behind the table. -/
def digitAt (outside : Int → Byte) (i : Int) : Byte :=
  if 0 ≤ i ∧ i < 37 then digits.getD i.toNat 0 else outside i

/-- The loop over the digits; the test comes after a digit was written. -/
def digitLoop (outside : Int → Byte) (b : Nat) : Nat → Int → List Byte → Option (List Byte)
  | 0, _, _ => none
  | left + 1, n, s =>
    if 0 < n.tdiv b then digitLoop outside b left (n.tdiv b) (s ++ [digitAt outside (n.tmod b)])
    else some (s ++ [digitAt outside (n.tmod b)])

/-- What a function reads of characters that are followed by a zero. -/
def cString (s : List Byte) : List Byte := s.takeWhile (· ≠ 0)

/-- `_itoa`. The negation of the least number is that number. -/
def itoa (outside : Int → Byte) (n : BitVec 32) (b : Nat) : Option (List Byte) :=
  let m := if n.toInt < 0 then -n else n
  (digitLoop outside b 64 m.toInt []).map fun s => strrev (cString (if n.toInt < 0 then s ++ [0x2d] else s))

/-- `_uitoa`. -/
def uitoa (outside : Int → Byte) (n : BitVec 32) (b : Nat) : Option (List Byte) :=
  (digitLoop outside b 64 n.toNat []).map fun s => strrev (cString s)

/-- `_ulltoa`. -/
def ulltoa (outside : Int → Byte) (n : BitVec 64) (b : Nat) : Option (List Byte) :=
  (digitLoop outside b 64 n.toNat []).map fun s => strrev (cString s)

/-- The numeral of a number: its digits from the first to the last, without leading zeros. -/
def numeral (b n : Nat) : List Byte :=
  if n = 0 then [0x30] else ((Nat.digits b n).map fun d => digits.getD d 0).reverse

/-- A minus sign stands before the numeral of a negative number. -/
def intNumeral (b : Nat) (n : Int) : List Byte := if n < 0 then 0x2d :: numeral b n.natAbs else numeral b n.natAbs

section numeral
variable {outside : Int → Byte} {b n left : Nat} {s : List Byte}

theorem digitAt_natCast (small : n < 37) : digitAt outside n = digits.getD n 0 := by
  rw [digitAt, if_pos ⟨Int.natCast_nonneg n, by omega⟩, Int.toNat_natCast]

theorem digit_ne_zero (small : n < 36) : digits.getD n 0 ≠ 0 := by
  interval_cases n <;> decide

theorem numeral_small (small : n < b) : numeral b n = [digits.getD n 0] := by
  rw [numeral]
  split
  · next zero => rw [zero]; rfl
  · next pos => rw [Nat.digits_of_lt b n pos small, List.map_singleton, List.reverse_singleton]

theorem numeral_div (base : 2 ≤ b) (big : b ≤ n) :
    numeral b n = numeral b (n / b) ++ [digits.getD (n % b) 0] := by
  have pos : n ≠ 0 := by omega
  have pos' : n / b ≠ 0 := Nat.ne_of_gt (Nat.div_pos big (by omega))
  rw [numeral, numeral, if_neg pos, if_neg pos', Nat.digits_eq_cons_digits_div base pos, List.map_cons, List.reverse_cons]

/-- A round of the loop on a number that is not negative. -/
theorem digitLoop_round (base : 2 ≤ b) (table : b ≤ 36) :
    digitLoop outside b (left + 1) n s =
      if b ≤ n then digitLoop outside b left (n / b : Nat) (s ++ [digits.getD (n % b) 0])
      else some (s ++ [digits.getD (n % b) 0]) := by
  have small := Nat.mod_lt n (show b > 0 by omega)
  have digit : digitAt outside ((n : Int).tmod b) = digits.getD (n % b) 0 := by
    rw [← Int.ofNat_tmod, digitAt_natCast (by omega)]
  rw [digitLoop, digit, ← Int.ofNat_tdiv]
  refine if_congr ?_ rfl rfl
  rw [Int.natCast_pos, Nat.div_pos_iff]
  exact ⟨And.right, fun big => ⟨by omega, big⟩⟩

theorem digitLoop_eq (base : 2 ≤ b) (table : b ≤ 36) (fits : n < b ^ (left + 1)) :
    digitLoop outside b (left + 1) n s = some (s ++ (numeral b n).reverse) := by
  induction left generalizing n s with
  | zero =>
    have small : n < b := by rwa [Nat.zero_add, pow_one] at fits
    rw [digitLoop_round base table, if_neg (Nat.not_le_of_lt small), numeral_small small, Nat.mod_eq_of_lt small,
      List.reverse_singleton]
  | succ left ih =>
    rw [digitLoop_round base table]
    split
    · next big =>
      have fewer : n / b < b ^ (left + 1) := by
        rw [Nat.div_lt_iff_lt_mul (by omega), ← pow_succ]
        exact fits
      rw [ih fewer, numeral_div base big, List.reverse_append, List.reverse_singleton, List.append_assoc]
    · next short =>
      have small : n < b := Nat.lt_of_not_le short
      rw [numeral_small small, Nat.mod_eq_of_lt small, List.reverse_singleton]

/-- The digits of a numeral from the last one on. -/
theorem numeral_digits (base : 2 ≤ b) (n : Nat) :
    ∃ ds : List Nat, numeral b n = (ds.map fun d => digits.getD d 0).reverse ∧ (∀ d ∈ ds, d < b) ∧ Nat.ofDigits b ds = n ∧
      0 < ds.length ∧ ∀ k, 0 < k → n < b ^ k → ds.length ≤ k := by
  rw [numeral]
  split
  · next zero =>
    refine ⟨[0], rfl, fun d mem => ?_, by rw [zero]; rfl, Nat.one_pos, fun k pos _ => pos⟩
    rw [List.mem_singleton.mp mem]
    omega
  · next pos =>
    refine ⟨_, rfl, fun d => Nat.digits_lt_base base, Nat.ofDigits_digits b n, ?_, fun k _ fits => ?_⟩
    · exact List.length_pos_iff.mpr (Nat.digits_ne_nil_iff_ne_zero.mpr pos)
    · exact (Nat.digits_length_le_iff base n).mpr fits

theorem length_numeral_le (base : 2 ≤ b) {k : Nat} (pos : 0 < k) (fits : n < b ^ k) : (numeral b n).length ≤ k := by
  obtain ⟨ds, written, -, -, -, short⟩ := numeral_digits base n
  rw [written, List.length_reverse, List.length_map]
  exact short k pos fits

/-- Different numbers have different numerals. -/
theorem numeral_inj (base : 2 ≤ b) (table : b ≤ 36) {m : Nat} (same : numeral b n = numeral b m) : n = m := by
  have index : ∀ d, d < 36 → digits.idxOf (digits.getD d 0) = d := by
    intro d small
    interval_cases d <;> decide
  have back : ∀ ds : List Nat, (∀ d ∈ ds, d < b) →
      ((ds.map fun d => digits.getD d 0).map fun c => digits.idxOf c) = ds := by
    intro ds small
    rw [List.map_map]
    exact (List.map_congr_left fun d mem => index d (by have := small d mem; omega)).trans (List.map_id ds)
  obtain ⟨ds, written, small, value, -⟩ := numeral_digits base n
  obtain ⟨ds', written', small', value', -⟩ := numeral_digits base m
  rw [written, written'] at same
  have lists : ds = ds' := by
    rw [← back ds small, List.reverse_injective same, back ds' small']
  rw [← value, lists, value']

/-- A numeral is a string: none of its characters is the zero. -/
theorem zero_notMem_numeral (base : 2 ≤ b) (table : b ≤ 36) : 0 ∉ numeral b n := by
  obtain ⟨ds, written, small, -⟩ := numeral_digits base n
  rw [written, List.mem_reverse, List.mem_map]
  rintro ⟨d, mem, zero⟩
  have := small d mem
  exact digit_ne_zero (by omega) zero

theorem cString_eq (plain : 0 ∉ s) : cString s = s := by
  rw [cString, List.takeWhile_eq_self_iff]
  intro c mem
  exact decide_eq_true fun zero => plain (zero ▸ mem)

theorem zero_notMem_cString : 0 ∉ cString s := by
  intro mem
  have kept := List.mem_takeWhile_imp mem
  exact absurd kept (by decide)

theorem strrev_cString (plain : 0 ∉ s) : strrev (cString s.reverse) = s := by
  rw [cString_eq (fun mem => plain (List.mem_reverse.mp mem)), strrev_eq, List.reverse_reverse]

theorem fits_rounds (base : 2 ≤ b) (bound : n < 2 ^ 64) : n < b ^ (63 + 1) :=
  bound.trans_le (Nat.pow_le_pow_left base 64)

theorem uitoa_eq (base : 2 ≤ b) (table : b ≤ 36) (n : BitVec 32) : uitoa outside n b = some (numeral b n.toNat) := by
  rw [uitoa, digitLoop_eq base table (fits_rounds base (by omega)), List.nil_append, Option.map_some,
    strrev_cString (zero_notMem_numeral base table)]

theorem ulltoa_eq (base : 2 ≤ b) (table : b ≤ 36) (n : BitVec 64) : ulltoa outside n b = some (numeral b n.toNat) := by
  rw [ulltoa, digitLoop_eq base table (fits_rounds base n.isLt), List.nil_append, Option.map_some,
    strrev_cString (zero_notMem_numeral base table)]

/-- All numbers but the least one. -/
theorem itoa_eq (base : 2 ≤ b) (table : b ≤ 36) {n : BitVec 32} (negates : n ≠ BitVec.intMin 32) :
    itoa outside n b = some (intNumeral b n.toInt) := by
  have plain : 0 ∉ numeral b n.toInt.natAbs := zero_notMem_numeral base table
  have size : n.toInt.natAbs < 2 ^ 64 := by
    have := n.isLt
    rw [BitVec.toInt_eq_toNat_cond]
    split <;> omega
  rw [itoa, intNumeral]
  by_cases negative : n.toInt < 0
  · have size' : (-n).toInt = n.toInt.natAbs := by
      rw [BitVec.toInt_neg_of_ne_intMin negates]
      omega
    have plain' : 0 ∉ 0x2d :: numeral b n.toInt.natAbs := List.not_mem_cons_of_ne_of_not_mem (by decide) plain
    simp only [if_pos negative]
    rw [size', digitLoop_eq base table (fits_rounds base size), List.nil_append, Option.map_some, ← List.reverse_cons,
      strrev_cString plain']
  · have size' : n.toInt = n.toInt.natAbs := by omega
    simp only [if_neg negative]
    rw [size', digitLoop_eq base table (fits_rounds base size), List.nil_append, Option.map_some, Int.natAbs_natCast,
      strrev_cString plain]

/-- The least number stays negative, and the loop ends after one digit. -/
theorem itoa_intMin : ∃ s, itoa outside (BitVec.intMin 32) b = some s ∧ s.length ≤ 2 ∧ 0 ∉ s := by
  have least : (BitVec.intMin 32).toInt = -2 ^ 31 := by decide
  have stops : ¬ 0 < (-2 ^ 31 : Int).tdiv b := by
    have quotient : (-2 ^ 31 : Int).tdiv b = -((2 ^ 31 / b : Nat) : Int) := Int.neg_tdiv _ _
    rw [quotient]
    exact not_lt_of_ge (Int.neg_nonpos_of_nonneg (Int.natCast_nonneg _))
  rw [itoa, BitVec.neg_intMin]
  simp only [ite_self, least]
  rw [digitLoop, if_neg stops, List.nil_append, Option.map_some, if_pos (by decide)]
  rw [strrev_eq]
  refine ⟨_, rfl, ?_, fun mem => zero_notMem_cString (List.mem_reverse.mp mem)⟩
  rw [List.length_reverse]
  exact (List.takeWhile_prefix _).length_le

theorem length_intNumeral_intMin (base : 2 ≤ b) (table : b ≤ 36) :
    2 < (intNumeral b (BitVec.intMin 32).toInt).length := by
  have square : b * b ≤ 2 ^ 31 := (Nat.mul_le_mul table table).trans (by decide)
  have twice : b ≤ 2 ^ 31 / b := (Nat.le_div_iff_mul_le (by omega)).mpr square
  have once : b ≤ 2 ^ 31 := table.trans (by decide)
  have split : intNumeral b (BitVec.intMin 32).toInt = 0x2d :: numeral b (2 ^ 31) := rfl
  rw [split, numeral_div base once, numeral_div base twice]
  simp only [List.length_cons, List.length_append, List.length_nil]
  omega

theorem itoa_eq_iff (base : 2 ≤ b) (table : b ≤ 36) (n : BitVec 32) :
    itoa outside n b = some (intNumeral b n.toInt) ↔ n ≠ BitVec.intMin 32 := by
  refine ⟨?_, itoa_eq base table⟩
  rintro same rfl
  obtain ⟨s, written, short, -⟩ : ∃ s, itoa outside (BitVec.intMin 32) b = some s ∧ _ := itoa_intMin
  obtain rfl := Option.some.inj (written.symm.trans same)
  exact Nat.not_lt_of_le short (length_intNumeral_intMin base table)

end numeral

/-! ## Reading a number -/

/-- The loop of `str2i` over the characters before the `k`-th, from the last one on. -/
def str2iLoop (str : List Byte) : Nat → BitVec 32 → BitVec 32 → BitVec 32
  | 0, r, _ => r
  | k + 1, r, m =>
    let c := str.getD k 0
    if 0x30#8 ≤ c ∧ c ≤ 0x39#8 then str2iLoop str k (r + (c - 0x30#8).setWidth 32 * m) (m * 10#32) else str2iLoop str k r m

/-- `str2i`. Its counter has 8 bits. -/
def str2i (str : List Byte) (sz : Int) : BitVec 32 := str2iLoop str ((BitVec.ofInt 8 (sz - 1)).toInt + 1).toNat 0#32 1#32

theorem digit_value {d : Nat} (small : d < 10) :
    (0x30#8 ≤ digits.getD d 0 ∧ digits.getD d 0 ≤ 0x39#8) ∧ (digits.getD d 0 - 0x30#8).setWidth 32 = BitVec.ofNat 32 d := by
  interval_cases d <;> decide

/-- The digits of a number from the last one on. -/
theorem str2iLoop_digits {ds : List Nat} (small : ∀ d ∈ ds, d < 10) (rest : List Byte) (r m : BitVec 32) :
    str2iLoop ((ds.map fun d => digits.getD d 0).reverse ++ rest) ds.length r m =
      r + m * BitVec.ofNat 32 (Nat.ofDigits 10 ds) := by
  induction ds generalizing rest r m with
  | nil => simp [str2iLoop]
  | cons d ds ih =>
    obtain ⟨char, value⟩ := digit_value (small d (List.mem_cons.mpr (Or.inl rfl)))
    have last : ((ds.map fun d => digits.getD d 0).reverse ++ digits.getD d 0 :: rest).getD ds.length 0 =
        digits.getD d 0 := by
      simp [List.getD_eq_getElem?_getD]
    rw [List.map_cons, List.reverse_cons, List.append_assoc, List.singleton_append, List.length_cons, str2iLoop]
    simp only [last, if_pos char, value]
    rw [ih (fun d mem => small d (List.mem_cons_of_mem _ mem)), Nat.ofDigits_cons, BitVec.ofNat_add, BitVec.ofNat_mul]
    ring

theorem str2i_numeral (n : BitVec 32) : str2i (numeral 10 n.toNat) (numeral 10 n.toNat).length = n := by
  obtain ⟨ds, written, small, value, some_digit, bound⟩ := numeral_digits (b := 10) (by decide) n.toNat
  have short : ds.length ≤ 10 := bound 10 (by decide) (n.isLt.trans (by decide))
  have counter : ((BitVec.ofInt 8 ((numeral 10 n.toNat).length - 1)).toInt + 1).toNat = ds.length := by
    rw [written, List.length_reverse, List.length_map]
    generalize ds.length = k at short some_digit
    interval_cases k <;> rfl
  rw [str2i, counter, written, ← List.append_nil (List.reverse _), str2iLoop_digits small, value, BitVec.zero_add,
    BitVec.one_mul, BitVec.ofNat_toNat, BitVec.setWidth_eq]

end PreTeO.Common
