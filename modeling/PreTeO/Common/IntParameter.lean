import PreTeO.Common.Numeral
import PreTeO.Common.Parameter

/-!
# Integer parameters (`core/common/lib/karg_parser.cpp`)

`int_parameter` gathers the digits of a value in a buffer of 32 bytes on its stack, with a zero behind them, and converts
them when it meets a unit or the end of the value. Nothing bounds the number of the digits.
-/

namespace PreTeO.Common.Parameter
set_option autoImplicit false

open Lib (Byte)

/-- `lb` has 32 bytes. -/
def szLb : Nat := 32

/-- The local variables, and the indices of `lb` that were written. -/
structure Gather where
  lb : List Byte
  lbIdx : Nat
  r : BitVec 32
  writes : List Nat

def Gather.start : Gather := { lb := List.replicate szLb 0, lbIdx := 0, r := 0, writes := [] }

/-- `lb[i] = c`. -/
def Gather.put (g : Gather) (i : Nat) (c : Byte) : Gather := { g with lb := g.lb.set i c, writes := i :: g.writes }

/-- The case of a digit. -/
def Gather.digit (g : Gather) (c : Byte) : Gather :=
  let g := g.put g.lbIdx c
  let g := { g with lbIdx := g.lbIdx + 1 }
  g.put g.lbIdx 0

/-- The case of a unit. -/
def Gather.unit (g : Gather) (m : BitVec 32) : Gather :=
  let g := g.put g.lbIdx 0
  { g with r := str2i g.lb g.lbIdx * m }

def IsDigit (c : Byte) : Prop := 0x30#8 ≤ c ∧ c ≤ 0x39#8

instance (c : Byte) : Decidable (IsDigit c) := inferInstanceAs (Decidable (_ ∧ _))

/-- The loop over the characters of the value that are left. -/
def gather : List Byte → Gather → Gather
  | [], g => g
  | c :: rest, g =>
    if c = 0x6d ∨ c = 0x4d then g.unit (1024 * 1024)
    else if c = 0x6b ∨ c = 0x4b then g.unit 1024
    else if IsDigit c then gather rest (g.digit c)
    else gather rest g

/-- The number of a value. -/
def intOf (value : List Byte) : Gather :=
  let g := gather value Gather.start
  if g.lbIdx ≠ 0 ∧ g.r = 0 then { g with r := str2i g.lb g.lbIdx } else g

/-- `int_parameter`. -/
def intParameter (args name : List Byte) : Gather :=
  match parameter args name with
  | (some pv, sz) => intOf ((args.drop pv).take sz)
  | (none, _) => Gather.start

/-! ## Decimal values -/

/-- The number of the digits. -/
def decimal (ds : List Byte) : Nat := Nat.ofDigits 10 (ds.reverse.map fun c => (c - 0x30#8).toNat)

/-- The units of a number, with what they stand for. -/
inductive Scale : List Byte → Nat → Prop where
  | none : Scale [] 1
  | kilo {c : Byte} (unit : c = 0x6b ∨ c = 0x4b) : Scale [c] 1024
  | mega {c : Byte} (unit : c = 0x6d ∨ c = 0x4d) : Scale [c] (1024 * 1024)

/-- Only `lb` is written, and the number is the value wherever that has 32 bits. -/
structure Correct (g : Gather) (value : Nat) : Prop where
  inside : ∀ i ∈ g.writes, i < szLb
  number : value < 2 ^ 32 → g.r.toNat = value

theorem digit_getD {c : Byte} (isDigit : IsDigit c) : (c - 0x30#8).toNat < 10 ∧ digits.getD (c - 0x30#8).toNat 0 = c := by
  revert c
  decide +kernel

/-- `str2i` of digits. -/
theorem str2i_decimal {ds rest : List Byte} (all : ∀ c ∈ ds, IsDigit c) (few : ds.length < szLb) :
    str2i (ds ++ rest) ds.length = BitVec.ofNat 32 (decimal ds) := by
  have counter : ((BitVec.ofInt 8 ((ds.length : Int) - 1)).toInt + 1).toNat = ds.length := by
    generalize ds.length = k at few
    rw [szLb] at few
    interval_cases k <;> rfl
  have chars : ds = ((ds.reverse.map fun c => (c - 0x30#8).toNat).map fun d => digits.getD d 0).reverse := by
    rw [List.map_map, ← List.map_reverse, List.reverse_reverse]
    conv_lhs => rw [← List.map_id ds]
    exact List.map_congr_left fun c mem => ((digit_getD (all c mem)).2).symm
  have small : ∀ d ∈ ds.reverse.map fun c => (c - 0x30#8).toNat, d < 10 := by
    intro d mem
    obtain ⟨c, inside, rfl⟩ := List.mem_map.mp mem
    exact (digit_getD (all c (List.mem_reverse.mp inside))).1
  have loop := str2iLoop_digits small rest 0#32 1#32
  rw [← chars, List.length_map, List.length_reverse] at loop
  rw [str2i, counter, loop, BitVec.zero_add, BitVec.one_mul, decimal]

/-! ## Digits -/

/-- The digits were gathered. -/
structure Gathered (ds : List Byte) (g : Gather) : Prop where
  lbIdx : g.lbIdx = ds.length
  lb : ds.length ≤ szLb → g.lb = ds ++ List.replicate (szLb - ds.length) 0
  r : g.r = 0
  within : ∀ i ∈ g.writes, i ≤ ds.length
  last : ds ≠ [] → ds.length ∈ g.writes

theorem Gathered.start : Gathered [] Gather.start where
  lbIdx := rfl
  lb := fun _ => rfl
  r := rfl
  within := fun i mem => by cases mem
  last := fun some => absurd rfl some

theorem Gathered.digit {ds : List Byte} {g : Gather} (gathered : Gathered ds g) (c : Byte) :
    Gathered (ds ++ [c]) (g.digit c) where
  lbIdx := by
    rw [List.length_append]
    exact congrArg (· + 1) gathered.lbIdx
  lb := by
    intro room
    rw [List.length_append, List.length_singleton] at room ⊢
    have zeros : szLb - ds.length = szLb - (ds.length + 1) + 1 := by omega
    have first : (g.lb.set g.lbIdx c) = ds ++ [c] ++ List.replicate (szLb - (ds.length + 1)) 0 := by
      rw [gathered.lb (by omega), gathered.lbIdx, List.set_append_right _ _ le_rfl, Nat.sub_self, zeros,
        List.replicate_succ, List.set_cons_zero, List.append_assoc, List.singleton_append]
    have here : (ds ++ [c]).length = g.lbIdx + 1 := by rw [gathered.lbIdx, List.length_append, List.length_singleton]
    change (g.lb.set g.lbIdx c).set (g.lbIdx + 1) 0 = _
    rw [first, List.set_append_right _ _ here.le, here, Nat.sub_self]
    congr 1
    cases szLb - (ds.length + 1) with
    | zero => rfl
    | succ k => rfl
  r := gathered.r
  within := by
    intro i mem
    rw [List.length_append, List.length_singleton]
    have split : i = g.lbIdx + 1 ∨ i = g.lbIdx ∨ i ∈ g.writes := by
      simpa [Gather.digit, Gather.put] using mem
    rcases split with here | here | before
    · rw [here, gathered.lbIdx]
    · rw [here, gathered.lbIdx]
      omega
    · exact (gathered.within i before).trans (Nat.le_succ _)
  last := by
    intro _
    rw [List.length_append, List.length_singleton, ← gathered.lbIdx]
    exact List.mem_cons_self

/-- The loop over digits. -/
theorem gather_digits (rest : List Byte) {ds before : List Byte} {g : Gather} (all : ∀ c ∈ ds, IsDigit c)
    (gathered : Gathered before g) :
    ∃ g', gather (ds ++ rest) g = gather rest g' ∧ Gathered (before ++ ds) g' := by
  induction ds generalizing before g with
  | nil => exact ⟨g, rfl, by rwa [List.append_nil]⟩
  | cons c ds ih =>
    have isDigit := all c (.head _)
    have noUnit : ¬ (c = 0x6d ∨ c = 0x4d) ∧ ¬ (c = 0x6b ∨ c = 0x4b) := by
      constructor <;> rintro (rfl | rfl) <;> exact absurd isDigit (by decide)
    obtain ⟨g', run, done⟩ := ih (fun d mem => all d (.tail _ mem)) (gathered.digit c)
    refine ⟨g', ?_, by rwa [List.append_assoc] at done⟩
    rw [List.cons_append, gather, if_neg noUnit.1, if_neg noUnit.2, if_pos isDigit]
    exact run

/-! ## Results -/

/-- A digit that has no place in `lb` is written behind it, or the zero after it is. -/
theorem Gathered.inside_iff {ds : List Byte} {g : Gather} (gathered : Gathered ds g) (some : ds ≠ []) :
    (∀ i ∈ g.writes, i < szLb) ↔ ds.length < szLb :=
  ⟨fun all => all _ (gathered.last some), fun few i mem => (gathered.within i mem).trans_lt few⟩

theorem Gathered.str2i_lb {ds : List Byte} {g : Gather} (gathered : Gathered ds g) (all : ∀ c ∈ ds, IsDigit c)
    (few : ds.length < szLb) : str2i g.lb g.lbIdx = BitVec.ofNat 32 (decimal ds) := by
  rw [gathered.lb few.le, gathered.lbIdx]
  exact str2i_decimal all few

/-- A unit writes one more zero, behind the digits. -/
theorem Gathered.unit {ds : List Byte} {g : Gather} (gathered : Gathered ds g) (all : ∀ c ∈ ds, IsDigit c)
    (few : ds.length < szLb) (m : BitVec 32) :
    str2i (g.unit m).lb (g.unit m).lbIdx = BitVec.ofNat 32 (decimal ds) ∧
      (g.unit m).r = BitVec.ofNat 32 (decimal ds) * m := by
  have same : g.lb.set g.lbIdx 0 = ds ++ (List.replicate (szLb - ds.length) 0).set 0 0 := by
    rw [gathered.lb few.le, gathered.lbIdx, List.set_append_right _ _ le_rfl, Nat.sub_self]
  have value : str2i (g.lb.set g.lbIdx 0) g.lbIdx = BitVec.ofNat 32 (decimal ds) := by
    rw [same, gathered.lbIdx]
    exact str2i_decimal all few
  exact ⟨value, congrArg (· * m) value⟩

/-- The number of 32 bits, which is converted once more if it is 0. -/
theorem number_eq {n m : Nat} {r : BitVec 32} (value : r = BitVec.ofNat 32 n * BitVec.ofNat 32 m) (some : 0 < m)
    (fits : n * m < 2 ^ 32) : (if r = 0 then BitVec.ofNat 32 n else r).toNat = n * m := by
  have product : r.toNat = n * m := by
    rw [value, ← BitVec.ofNat_mul, BitVec.toNat_ofNat, Nat.mod_eq_of_lt fits]
  split_ifs with zero
  · rw [zero] at product
    have nothing : n = 0 := by
      rcases Nat.mul_eq_zero.mp product.symm with h | h
      · exact h
      · omega
    rw [nothing, Nat.zero_mul]
    rfl
  · exact product

/-- A value of digits and a unit. -/
theorem intOf_correct_iff {ds suffix : List Byte} {m : Nat} (all : ∀ c ∈ ds, IsDigit c) (some : ds ≠ [])
    (scale : Scale suffix m) :
    Correct (intOf (ds ++ suffix)) (decimal ds * m) ↔ ds.length < szLb := by
  obtain ⟨g, run, gathered⟩ := gather_digits suffix all Gathered.start
  rw [List.nil_append] at gathered
  have nonzero : g.lbIdx ≠ 0 := by
    rw [gathered.lbIdx]
    exact fun empty => some (List.length_eq_zero_iff.mp empty)
  -- what the loop leaves behind the digits: `r`, `lb`, and the writes
  have finish : ∃ g', gather suffix g = g' ∧ g'.lbIdx = g.lbIdx ∧ ((∀ i ∈ g'.writes, i < szLb) ↔ ds.length < szLb) ∧
      (ds.length < szLb → str2i g'.lb g'.lbIdx = BitVec.ofNat 32 (decimal ds) ∧
        (decimal ds * m < 2 ^ 32 → (if g'.r = 0 then BitVec.ofNat 32 (decimal ds) else g'.r).toNat = decimal ds * m)) := by
    have inside := gathered.inside_iff some
    have insideUnit (k : BitVec 32) : (∀ i ∈ (g.unit k).writes, i < szLb) ↔ ds.length < szLb := by
      rw [← inside]
      refine ⟨fun h i mem => h i (.tail _ mem), fun h i mem => ?_⟩
      rcases List.mem_cons.mp mem with here | before
      · rw [here, gathered.lbIdx]
        exact inside.mp h
      · exact h i before
    cases scale with
    | none =>
      refine ⟨g, rfl, rfl, inside, fun few => ⟨gathered.str2i_lb all few, fun fits => ?_⟩⟩
      rw [Nat.mul_one] at fits ⊢
      rw [if_pos gathered.r, BitVec.toNat_ofNat, Nat.mod_eq_of_lt fits]
    | @kilo c unit =>
      have noMega : ¬ (c = 0x6d ∨ c = 0x4d) := by
        rcases unit with rfl | rfl <;> decide
      refine ⟨g.unit 1024, by rw [gather, if_neg noMega, if_pos unit], rfl, insideUnit _, fun few => ?_⟩
      obtain ⟨value, product⟩ := gathered.unit all few 1024
      exact ⟨value, number_eq product (by decide)⟩
    | @mega c unit =>
      refine ⟨g.unit (1024 * 1024), by rw [gather, if_pos unit], rfl, insideUnit _, fun few => ?_⟩
      obtain ⟨value, product⟩ := gathered.unit all few (1024 * 1024)
      exact ⟨value, number_eq product (by decide)⟩
  obtain ⟨g', end', sameIdx, inside, number⟩ := finish
  have result : intOf (ds ++ suffix) = if g'.r = 0 then { g' with r := str2i g'.lb g'.lbIdx } else g' := by
    rw [intOf, run, end']
    simp only [sameIdx, nonzero, ne_eq, not_false_eq_true, true_and]
  have writes : (intOf (ds ++ suffix)).writes = g'.writes := by
    rw [result]
    split_ifs <;> rfl
  constructor
  · exact fun correct => inside.mp fun i mem => correct.inside i (writes ▸ mem)
  · intro few
    obtain ⟨value, product⟩ := number few
    refine ⟨fun i mem => inside.mpr few i (writes ▸ mem), fun fits => ?_⟩
    rw [result, ← product fits, ← value]
    split_ifs <;> rfl

/-- The value that the first pair with a name has is where `firstValue` says. -/
theorem firstValue_value (tail : List Byte) {name : List Byte} {pairs : List Pair} {q : Pair}
    (first : pairs.find? (fun q => q.name = name) = some q) :
    ∃ a, (∀ off, firstValue name off pairs = some (off + a, q.value.length)) ∧
      ((argsOf pairs tail).drop a).take q.value.length = q.value := by
  induction pairs with
  | nil => cases first
  | cons r rs ih =>
    have shape : argsOf (r :: rs) tail = r.text ++ argsOf rs tail := by
      rw [argsOf, argsOf, List.flatMap_cons, List.append_assoc]
    rw [List.find?_cons] at first
    by_cases same : r.name = name
    · rw [decide_eq_true same] at first
      cases first
      refine ⟨q.gap.length + q.name.length + 2, fun off => by rw [firstValue, if_pos same]; simp only [Nat.add_assoc], ?_⟩
      have split : argsOf (q :: rs) tail =
          (q.gap ++ (q.name ++ [equals, quote])) ++ (q.value ++ (quote :: argsOf rs tail)) := by
        rw [shape, Pair.text]
        simp only [List.append_assoc, List.cons_append, List.nil_append]
      have length : q.gap.length + q.name.length + 2 = (q.gap ++ (q.name ++ [equals, quote])).length := by
        simp only [List.length_append, List.length_cons, List.length_nil]
        omega
      rw [split, length, List.drop_left, List.take_left]
    · rw [decide_eq_false same] at first
      obtain ⟨a, at', value⟩ := ih first
      refine ⟨r.text.length + a, fun off => by rw [firstValue, if_neg same, at', Nat.add_assoc], ?_⟩
      rw [shape, List.drop_length_add_append]
      exact value

/-- A parameter that is found, with a value of digits and a unit, is gathered in `lb` and has its number exactly if there are
less than 32 digits. -/
theorem intParameter_iff {pairs : List Pair} {tail name ds suffix : List Byte} {m : Nat} {q : Pair}
    (formed : Formed pairs tail)
    (short : (argsOf pairs tail).length + 1 < 2 ^ 32) (step : InStep name false pairs) (decided : Decided name false pairs)
    (first : pairs.find? (fun q => q.name = name) = some q) (value : q.value = ds ++ suffix) (all : ∀ c ∈ ds, IsDigit c)
    (some : ds ≠ []) (scale : Scale suffix m) :
    Correct (intParameter (argsOf pairs tail) name) (decimal ds * m) ↔ ds.length < szLb := by
  have right := (parameter_right_iff formed short step).mpr decided
  obtain ⟨a, at', content⟩ := firstValue_value tail first
  rw [Right, at' 0, Nat.zero_add] at right
  have result : intParameter (argsOf pairs tail) name = intOf (ds ++ suffix) := by
    rw [intParameter]
    revert right
    rcases parameter (argsOf pairs tail) name with ⟨pv | pv, sz⟩ <;> intro right
    · cases right
    · cases right
      rw [← value]
      exact congrArg intOf content
  rw [result]
  exact intOf_correct_iff all some scale

/-- `rds="10m"`. -/
theorem intParameter_iff_megabytes :
    let pairs : List Pair := [⟨[], [0x72, 0x64, 0x73], [0x31, 0x30, 0x6d]⟩]
    Correct (intParameter (argsOf pairs []) [0x72, 0x64, 0x73]) (decimal [0x31, 0x30] * (1024 * 1024)) := by
  intro pairs
  have formed : Formed pairs [] := by
    refine ⟨fun q mem => ?_, fun c mem => (by cases mem), fun q mem => (by cases mem)⟩
    rw [List.mem_singleton.mp mem]
    refine ⟨?_, ?_, ?_, ?_⟩ <;> simp [NameChar, IsBlank, ValueChar] <;> decide
  exact (intParameter_iff formed (by decide +kernel) (by decide +kernel) (by decide +kernel)
    (q := ⟨[], [0x72, 0x64, 0x73], [0x31, 0x30, 0x6d]⟩) rfl (show _ = [0x31, 0x30] ++ [0x6d] from rfl) (by decide +kernel)
    (by decide) (.mega (.inl rfl))).mpr (by decide)

/-- The value of 32 zeros. -/
theorem zero_behind_lb :
    let pairs : List Pair := [⟨[], [0x61], List.replicate 32 0x30⟩]
    ¬ Correct (intParameter (argsOf pairs []) [0x61]) (decimal (List.replicate 32 0x30) * 1) := by
  intro pairs correct
  have inside := correct.inside 32
  revert inside
  decide +kernel

end PreTeO.Common.Parameter
