import Mathlib.Data.List.DropRight
import Mathlib.Tactic.IntervalCases
import PreTeO.Common.Str

/-!
# Splitting and trimming (`core/common/lib/str.cpp`)

`div_str` copies what is before the first separator to one buffer and what is behind it to another, which may be the string
itself. `clrspc` puts zeros over the blanks at the end of a string, from the last one on, and moves the rest down over those
at its beginning.
-/

namespace PreTeO.Common
set_option autoImplicit false

open Lib (Mem Byte)
open Lib.Mem (Apart)

/-! ## The source -/

/-- `for(j=0;j<l2;j++)`: one of the separators that are left is the character. -/
def isSeparator (m : Mem) (c : Byte) (str2 : Nat) : Nat → Nat → Bool
  | 0, _ => false
  | left + 1, j => if c = m (str2 + j) then true else isSeparator m c str2 left (j + 1)

/-- `for(i=0;i<l1;i++)`. -/
def checkStr1Loop (m : Mem) (str1 str2 l2 : Nat) : Nat → Nat → Option Nat
  | 0, _ => none
  | left + 1, i =>
    if isSeparator m (m (str1 + i)) str2 l2 0 then some i else checkStr1Loop m str1 str2 l2 left (i + 1)

/-- `check_str1`: `none` is `INVALID_STRING_POSITION`. -/
def checkStr1 (m : Mem) (str1 str2 : Nat) : Option Nat := checkStr1Loop m str1 str2 (strLenAt m str2) (strLenAt m str1) 0

/-- The buffer that is written. -/
inductive Part where
  | p1
  | p2
deriving DecidableEq, Repr

/-- The memory, the result, and which bytes of the buffers were written. -/
structure Divided where
  mem : Mem
  ret : Nat
  writes : List (Part × Nat)

/-- `div_str`. -/
def divStr (m : Mem) (str p1 szP1 p2 szP2 div : Nat) : Divided :=
  match checkStr1 m str div with
  | some i =>
    let k := if i < szP1 then i else szP1
    let m := memCpy m p1 str k
    let m := Function.update m (p1 + k) 0
    let copied := strCpy m p2 (textAt (str + i + 1)) szP2
    { mem := copied.2, ret := 1, writes := (List.range (k + 1)).map (.p1, ·) ++ (List.range (copied.1 + 1)).map (.p2, ·) }
  | none =>
    let copied := strCpy m p1 (textAt str) szP1
    { mem := Function.update copied.2 p2 0, ret := 0, writes := (List.range (copied.1 + 1)).map (.p1, ·) ++ [(.p2, 0)] }

/-- `SPACE_CHAR` or a tab. -/
def IsSpace (c : Byte) : Prop := c = 0x20 ∨ c = 0x09

instance (c : Byte) : Decidable (IsSpace c) := inferInstanceAs (Decidable (_ ∨ _))

/-- A string after it was trimmed, and which of its bytes were read or written. -/
structure Trimmed where
  mem : Mem
  accesses : List Nat

/-- The loop of `trim_right`. Its index has 32 bits, so that it has seen every byte after 2^32 rounds. -/
def trimRightLoop (str : Nat) : Nat → Nat → Mem → Trimmed
  | 0, _, m => { mem := m, accesses := [] }
  | left + 1, i, m =>
    if IsSpace (m (str + i)) then
      let rest := trimRightLoop str left ((i + 2 ^ 32 - 1) % 2 ^ 32) (Function.update m (str + i) 0)
      { rest with accesses := i :: rest.accesses }
    else { mem := m, accesses := [i] }

/-- `trim_right`. -/
def trimRight (m : Mem) (str : Nat) : Trimmed :=
  let l := strLenAt m str
  let rest := if l ≠ 0 then trimRightLoop str (2 ^ 32 + 1) (l - 1) m else { mem := m, accesses := [] }
  { rest with accesses := List.range (l + 1) ++ rest.accesses }

/-- The loop of `trim_left`: how many blanks the string begins with. -/
def leading (m : Mem) (str : Nat) : Nat → Nat → Nat
  | 0, i => i
  | left + 1, i => if IsSpace (m (str + i)) then leading m str left (i + 1) else i

/-- `trim_left`: the bytes that `str_len`, the loop, `str_len` again and `mem_cpy` access. -/
def trimLeft (m : Mem) (str : Nat) : Trimmed :=
  let l := strLenAt m str
  let i := leading m str l 0
  let seen := List.range (l + 1) ++ List.range (min (i + 1) l)
  if i = 0 then { mem := m, accesses := seen }
  else
    let n := strLenAt m (str + i) + 1
    { mem := memCpy m str (str + i) n, accesses := seen ++ (List.range n).map (i + ·) ++ List.range n }

/-- `clrspc`. -/
def clrspc (m : Mem) (str : Nat) : Trimmed :=
  let right := trimRight m str
  let left := trimLeft right.mem str
  { left with accesses := right.accesses ++ left.accesses }

/-! ## Separators -/

section Separators
variable {m : Mem} {str div : Nat} {s ds : List Byte}

theorem isSeparator_eq (string : StringAt m div ds) (c : Byte) {left j : Nat} (all : j + left = ds.length) :
    isSeparator m c div left j = decide (c ∈ ds.drop j) := by
  induction left generalizing j with
  | zero =>
    rw [isSeparator, List.drop_eq_nil_of_le (by omega)]
    simp
  | succ left ih =>
    have less : j < ds.length := by omega
    rw [isSeparator, ih (by omega), string.char less, List.drop_eq_getElem_cons less]
    by_cases same : c = ds[j]
    · rw [if_pos same, eq_comm, decide_eq_true_iff, same]
      exact List.mem_cons_self
    · rw [if_neg same]
      simp only [List.mem_cons, same, false_or]

/-- No separator, from `i` on. -/
theorem checkStr1Loop_none (string : StringAt m str s) (separators : StringAt m div ds) {left i : Nat}
    (all : i + left = s.length) (free : ∀ c ∈ s.drop i, c ∉ ds) : checkStr1Loop m str div ds.length left i = none := by
  induction left generalizing i with
  | zero => rfl
  | succ left ih =>
    have less : i < s.length := by omega
    rw [List.drop_eq_getElem_cons less, List.forall_mem_cons] at free
    rw [checkStr1Loop, string.char less, isSeparator_eq separators _ (Nat.zero_add _), List.drop_zero,
      decide_eq_false free.1,
      if_neg Bool.false_ne_true]
    exact ih (by omega) free.2

/-- The first separator, from `i` on. -/
theorem checkStr1Loop_some (string : StringAt m str s) (separators : StringAt m div ds) {left i : Nat}
    (all : i + left = s.length) {a b : List Byte} {c : Byte} (split : s.drop i = a ++ c :: b) (free : ∀ x ∈ a, x ∉ ds)
    (separator : c ∈ ds) : checkStr1Loop m str div ds.length left i = some (i + a.length) := by
  induction left generalizing i a with
  | zero =>
    rw [List.drop_eq_nil_of_le (by omega)] at split
    exact absurd split (by simp)
  | succ left ih =>
    have less : i < s.length := by omega
    rw [List.drop_eq_getElem_cons less] at split
    rw [checkStr1Loop, string.char less, isSeparator_eq separators _ (Nat.zero_add _), List.drop_zero]
    cases a with
    | nil =>
      rw [List.nil_append, List.cons.injEq] at split
      rw [split.1, decide_eq_true separator, if_pos rfl]
      rfl
    | cons x a =>
      rw [List.cons_append, List.cons.injEq] at split
      rw [List.forall_mem_cons] at free
      rw [split.1, decide_eq_false free.1, if_neg Bool.false_ne_true, ih (by omega) split.2 free.2, List.length_cons,
        Nat.add_assoc, Nat.add_comm 1]

theorem checkStr1_none (string : StringAt m str s) (separators : StringAt m div ds) (short : s.length < 2 ^ 32)
    (few : ds.length < 2 ^ 32) (free : ∀ c ∈ s, c ∉ ds) : checkStr1 m str div = none := by
  rw [checkStr1, string.strLenAt_eq short, separators.strLenAt_eq few]
  exact checkStr1Loop_none string separators (Nat.zero_add _) free

theorem checkStr1_some (string : StringAt m str s) (separators : StringAt m div ds) (short : s.length < 2 ^ 32)
    (few : ds.length < 2 ^ 32) {a b : List Byte} {c : Byte} (split : s = a ++ c :: b) (free : ∀ x ∈ a, x ∉ ds)
    (separator : c ∈ ds) : checkStr1 m str div = some a.length := by
  rw [checkStr1, string.strLenAt_eq short, separators.strLenAt_eq few,
    checkStr1Loop_some string separators (Nat.zero_add _) split free separator, Nat.zero_add]

end Separators

/-! ## Splitting -/

/-- The first buffer has nothing in common with the string and the second one, and the second one is the string itself or has
nothing in common with it. -/
structure Buffers (str length p1 szP1 p2 szP2 : Nat) : Prop where
  some1 : 1 ≤ szP1
  some2 : 1 ≤ szP2
  small1 : szP1 < 2 ^ 32
  small2 : szP2 < 2 ^ 32
  string1 : Apart p1 szP1 str (length + 1)
  parts : Apart p1 szP1 p2 szP2
  string2 : p2 = str ∨ Apart p2 szP2 str (length + 1)

/-- Only the buffers are written. If the parts fit, they are before and behind the first separator; without a separator the
first part is the string, and the second one is empty. -/
structure DivOk (s ds : List Byte) (p1 szP1 p2 szP2 : Nat) (out : Divided) : Prop where
  inside : ∀ w ∈ out.writes, w.2 < (match w.1 with | .p1 => szP1 | .p2 => szP2)
  parts : ∀ a c b, s = a ++ c :: b → (∀ x ∈ a, x ∉ ds) → c ∈ ds → a.length < szP1 → b.length < szP2 →
    out.ret = 1 ∧ StringAt out.mem p1 a ∧ StringAt out.mem p2 b
  whole : (∀ x ∈ s, x ∉ ds) → s.length < szP1 → out.ret = 0 ∧ StringAt out.mem p1 s ∧ StringAt out.mem p2 []

/-- What is before a separator fits, with its zero. -/
def FirstFits (s ds : List Byte) (szP1 : Nat) : Prop :=
  ∀ a c b, s = a ++ c :: b → (∀ x ∈ a, x ∉ ds) → c ∈ ds → a.length < szP1

theorem exists_first_separator {s ds : List Byte} (some : ¬ ∀ x ∈ s, x ∉ ds) :
    ∃ a c b, s = a ++ c :: b ∧ (∀ x ∈ a, x ∉ ds) ∧ c ∈ ds := by
  have found : ∃ c, s.find? (fun x => decide (x ∈ ds)) = Option.some c := by
    rw [← Option.isSome_iff_exists, List.find?_isSome]
    by_contra none
    exact some fun x mem inside => none ⟨x, mem, decide_eq_true inside⟩
  obtain ⟨c, first⟩ := found
  obtain ⟨separator, a, b, split, free⟩ := List.find?_eq_some_iff_append.mp first
  exact ⟨a, c, b, split, fun x mem => by simpa using free x mem, by simpa using separator⟩

section Parts
variable {m m' : Mem} {p dst : Nat} {s : List Byte}

theorem StringAt.congr (string : StringAt m p s) (same : ∀ i, p ≤ i → i ≤ p + s.length → m' i = m i) : StringAt m' p s :=
  ⟨fun i le => (same (p + i) (by omega) (by omega)).trans (string.chars i le), string.noZero⟩

theorem copyOf_stringAt (noZero : 0 ∉ s) : StringAt (copyOf s dst 0 s.length m) dst s := by
  refine ⟨fun i le => ?_, noZero⟩
  rw [copyOf_at (Nat.zero_le _), if_pos (by omega)]
  by_cases last : i = s.length
  · rw [if_neg (by omega), List.getD_eq_default _ _ (by omega)]
  · rw [if_pos (by omega), Nat.add_sub_cancel_left]

theorem copyOf_outside {k i : Nat} (outside : i < dst ∨ dst + k < i) : copyOf s dst 0 k m i = m i := by
  rw [copyOf_at (Nat.zero_le _), if_neg (by omega)]

end Parts

section Split
variable {m : Mem} {str p1 szP1 p2 szP2 div : Nat} {s ds : List Byte}

/-- The part before the separator, and a zero. -/
theorem first_part (p1 : Nat) (string : StringAt m str s) {a rest : List Byte} (split : s = a ++ rest) :
    StringAt (Function.update (memCpy m p1 str a.length) (p1 + a.length) 0) p1 a ∧
      ∀ i, i < p1 ∨ p1 + a.length < i → Function.update (memCpy m p1 str a.length) (p1 + a.length) 0 i = m i := by
  obtain ⟨moved, others⟩ := memCpy_moves m p1 str a.length
  refine ⟨⟨fun i le => ?_, fun zero => string.noZero (split ▸ List.mem_append_left _ zero)⟩, fun i outside => ?_⟩
  · by_cases last : i = a.length
    · rw [last, Function.update_self, List.getD_eq_default _ _ le_rfl]
    · have bound : i ≤ s.length := by rw [split, List.length_append]; omega
      rw [Function.update_of_ne (by omega), moved i (by omega), string.chars i bound, split,
        List.getD_append _ _ _ _ (by omega)]
  · rw [Function.update_of_ne (by omega)]
    exact others i (by omega)

/-- The part behind the separator, as it is read after the first part was written. -/
theorem second_reads (string : StringAt m str s) {a b : List Byte} {c : Byte} (split : s = a ++ c :: b) {m' : Mem}
    (same : ∀ i, str ≤ i → i ≤ str + s.length → m' i = m i) : Reads (textAt (str + a.length + 1)) b 0 m' := by
  intro j _ le
  have length : s.length = a.length + (b.length + 1) := by rw [split, List.length_append, List.length_cons]
  have index : str + a.length + 1 + j = str + (a.length + (j + 1)) := by omega
  rw [textAt, index, same _ (by omega) (by omega), string.chars _ (by omega), split,
    List.getD_append_right _ _ _ _ (Nat.le_add_right _ _), Nat.add_sub_cancel_left, List.getD_cons_succ]

theorem noZero_right {a b : List Byte} {c : Byte} (noZero : 0 ∉ s) (split : s = a ++ c :: b) : 0 ∉ b := fun zero =>
  noZero (split ▸ List.mem_append_right _ (.tail _ zero))

/-- A separator at an index inside the first buffer. -/
theorem divStr_split (buffers : Buffers str s.length p1 szP1 p2 szP2) (string : StringAt m str s)
    (separators : StringAt m div ds) (short : s.length < 2 ^ 32) (few : ds.length < 2 ^ 32) {a b : List Byte} {c : Byte}
    (split : s = a ++ c :: b) (free : ∀ x ∈ a, x ∉ ds) (separator : c ∈ ds) (fits : a.length < szP1) :
    let out := divStr m str p1 szP1 p2 szP2 div
    out.ret = 1 ∧ (∀ w ∈ out.writes, w.2 < (match w.1 with | .p1 => szP1 | .p2 => szP2)) ∧
      (b.length < szP2 → StringAt out.mem p1 a ∧ StringAt out.mem p2 b) := by
  intro out
  have length : s.length = a.length + (b.length + 1) := by rw [split, List.length_append, List.length_cons]
  obtain ⟨first, others⟩ := first_part p1 string split
  have apart1 := buffers.string1
  have apartParts := buffers.parts
  have apart2 := buffers.string2
  have some2 := buffers.some2
  rw [Apart] at apart1 apartParts
  rw [Apart] at apart2
  have steady : Steady (textAt (str + a.length + 1)) p2 b := steady_textAt (by omega)
  have reads : Reads (textAt (str + a.length + 1)) b 0 (Function.update (memCpy m p1 str a.length) (p1 + a.length) 0) :=
    second_reads string split fun i low high => others i (by omega)
  have copied := strCpy_spec (noZero_right string.noZero split) steady reads buffers.some2 buffers.small2
  have result : out = {
      mem := copyOf b p2 0 (min b.length (szP2 - 1)) (Function.update (memCpy m p1 str a.length) (p1 + a.length) 0)
      ret := 1
      writes := (List.range (a.length + 1)).map (.p1, ·) ++
        (List.range (min b.length (szP2 - 1) + 1)).map (.p2, ·) } := by
    change divStr m str p1 szP1 p2 szP2 div = _
    rw [divStr, checkStr1_some string separators short few split free separator]
    simp only [if_pos fits, copied]
  rw [result]
  refine ⟨rfl, fun w mem => ?_, fun fits2 => ⟨?_, ?_⟩⟩
  · rcases List.mem_append.mp mem with in1 | in2
    · obtain ⟨i, less, rfl⟩ := List.mem_map.mp in1
      exact (Nat.lt_succ_iff.mp (List.mem_range.mp less)).trans_lt fits
    · obtain ⟨i, less, rfl⟩ := List.mem_map.mp in2
      have bound := List.mem_range.mp less
      change i < szP2
      omega
  · refine first.congr fun i low high => copyOf_outside ?_
    omega
  · have count : min b.length (szP2 - 1) = b.length := by omega
    dsimp only
    rw [count]
    exact copyOf_stringAt (noZero_right string.noZero split)

/-- A separator behind the first buffer: the zero is written at its end. -/
theorem divStr_outside (string : StringAt m str s) (separators : StringAt m div ds) (short : s.length < 2 ^ 32)
    (few : ds.length < 2 ^ 32) {a b : List Byte} {c : Byte} (split : s = a ++ c :: b) (free : ∀ x ∈ a, x ∉ ds)
    (separator : c ∈ ds) (past : ¬ a.length < szP1) : (Part.p1, szP1) ∈ (divStr m str p1 szP1 p2 szP2 div).writes := by
  rw [divStr, checkStr1_some string separators short few split free separator]
  simp only [if_neg past]
  exact List.mem_append_left _ (List.mem_map.mpr ⟨szP1, List.mem_range.mpr (Nat.lt_succ_self _), rfl⟩)

/-- No separator. -/
theorem divStr_whole (buffers : Buffers str s.length p1 szP1 p2 szP2) (string : StringAt m str s)
    (separators : StringAt m div ds) (short : s.length < 2 ^ 32) (few : ds.length < 2 ^ 32) (free : ∀ x ∈ s, x ∉ ds) :
    let out := divStr m str p1 szP1 p2 szP2 div
    out.ret = 0 ∧ (∀ w ∈ out.writes, w.2 < (match w.1 with | .p1 => szP1 | .p2 => szP2)) ∧
      (s.length < szP1 → StringAt out.mem p1 s ∧ StringAt out.mem p2 []) := by
  intro out
  have apart1 := buffers.string1
  have apartParts := buffers.parts
  have some1 := buffers.some1
  have some2 := buffers.some2
  rw [Apart] at apart1 apartParts
  have reads : Reads (textAt str) s 0 m := fun j _ le => string.chars j le
  have steady : Steady (textAt str) p1 s := steady_textAt (by omega)
  have copied := strCpy_spec string.noZero steady reads buffers.some1 buffers.small1
  have result : out = {
      mem := Function.update (copyOf s p1 0 (min s.length (szP1 - 1)) m) p2 0
      ret := 0
      writes := (List.range (min s.length (szP1 - 1) + 1)).map (.p1, ·) ++ [(.p2, 0)] } := by
    change divStr m str p1 szP1 p2 szP2 div = _
    rw [divStr, checkStr1_none string separators short few free]
    simp only [copied]
  rw [result]
  refine ⟨rfl, fun w mem => ?_, fun fits => ⟨?_, ?_⟩⟩
  · rcases List.mem_append.mp mem with in1 | in2
    · obtain ⟨i, less, rfl⟩ := List.mem_map.mp in1
      have bound := List.mem_range.mp less
      change i < szP1
      omega
    · rw [List.mem_singleton.mp in2]
      exact some2
  · have count : min s.length (szP1 - 1) = s.length := by omega
    dsimp only
    rw [count]
    exact (copyOf_stringAt string.noZero).congr fun i low high => Function.update_of_ne (by omega) _ _
  · refine ⟨fun i le => ?_, List.not_mem_nil⟩
    have zero : i = 0 := Nat.le_zero.mp le
    rw [zero, Nat.add_zero]
    exact Function.update_self _ _ _

theorem divOk_iff (buffers : Buffers str s.length p1 szP1 p2 szP2) (string : StringAt m str s)
    (separators : StringAt m div ds) (short : s.length < 2 ^ 32) (few : ds.length < 2 ^ 32) :
    DivOk s ds p1 szP1 p2 szP2 (divStr m str p1 szP1 p2 szP2 div) ↔ FirstFits s ds szP1 := by
  constructor
  · intro ok a c b split free separator
    by_contra past
    have outside : szP1 < szP1 :=
      ok.inside (.p1, szP1) (divStr_outside string separators short few split free separator past)
    exact absurd outside (Nat.lt_irrefl _)
  · intro fits
    by_cases free : ∀ x ∈ s, x ∉ ds
    · obtain ⟨ret, inside, parts⟩ := divStr_whole buffers string separators short few free
      refine ⟨inside, fun a c b split _ separator => ?_, fun _ room => ⟨ret, parts room⟩⟩
      exact absurd separator (free c (split ▸ List.mem_append_right _ (.head _)))
    · obtain ⟨a, c, b, split, freeA, separator⟩ := exists_first_separator free
      refine ⟨?_, fun a' c' b' split' free' separator' room1 room2 => ?_, fun none => absurd none free⟩
      · exact (divStr_split buffers string separators short few split freeA separator (fits a c b split freeA separator)).2.1
      · obtain ⟨ret, -, parts⟩ := divStr_split buffers string separators short few split' free' separator' room1
        exact ⟨ret, parts room2⟩

end Split

/-! ## Trimming -/

/-- A string without the blanks and tabs at its ends. -/
def trimmed (s : List Byte) : List Byte :=
  (s.rdropWhile fun c => decide (IsSpace c)).dropWhile fun c => decide (IsSpace c)

/-- Only the bytes of the string and its zero are accessed, and it is trimmed. -/
structure ClrOk (s : List Byte) (str : Nat) (out : Trimmed) : Prop where
  own : ∀ i ∈ out.accesses, i ≤ s.length
  text : StringAt out.mem str (trimmed s)

section Trim
variable {m : Mem} {str : Nat} {s : List Byte}

/-- A zero over the last character. -/
theorem StringAt.cut {c : Byte} (string : StringAt m str (s ++ [c])) :
    StringAt (Function.update m (str + s.length) 0) str s := by
  refine ⟨fun i le => ?_, fun zero => string.noZero (List.mem_append_left _ zero)⟩
  by_cases last : i = s.length
  · rw [last, Function.update_self, List.getD_eq_default _ _ le_rfl]
  · rw [Function.update_of_ne (by omega), string.chars i (by rw [List.length_append]; omega),
      List.getD_append _ _ _ _ (by omega)]

theorem StringAt.last {c : Byte} (string : StringAt m str (s ++ [c])) : m (str + s.length) = c := by
  have less : s.length < (s ++ [c]).length := by rw [List.length_append]; exact Nat.lt_succ_self _
  rw [string.char less, List.getElem_concat_length rfl]

/-- The loop of `trim_right` stops at a character that is no blank. -/
theorem trimRightLoop_spec (left : Nat) {c : Byte} (string : StringAt m str (s ++ [c])) (enough : s.length < left)
    (small : s.length < 2 ^ 32) (some : ∃ x ∈ s ++ [c], ¬ IsSpace x) :
    StringAt (trimRightLoop str left s.length m).mem str ((s ++ [c]).rdropWhile fun c => decide (IsSpace c)) ∧
      ∀ i ∈ (trimRightLoop str left s.length m).accesses, i ≤ s.length := by
  induction s using List.reverseRecOn generalizing m left c with
  | nil =>
    obtain ⟨x, mem, notSpace⟩ := some
    have same : x = c := List.mem_singleton.mp mem
    obtain ⟨left, rfl⟩ : ∃ k, left = k + 1 := ⟨left - 1, by omega⟩
    rw [trimRightLoop, string.last, if_neg (same ▸ notSpace),
      List.rdropWhile_concat_neg _ _ _ (by simpa using same ▸ notSpace)]
    exact ⟨string, fun i mem => (List.mem_singleton.mp mem).le⟩
  | append_singleton t d ih =>
    obtain ⟨left, rfl⟩ : ∃ k, left = k + 1 := ⟨left - 1, by omega⟩
    rw [trimRightLoop, string.last]
    by_cases space : IsSpace c
    · rw [List.length_append, List.length_singleton] at enough small
      have next : ((t ++ [d]).length + 2 ^ 32 - 1) % 2 ^ 32 = t.length := by
        rw [List.length_append, List.length_singleton]
        omega
      have others : ∃ x ∈ t ++ [d], ¬ IsSpace x := by
        obtain ⟨x, mem, notSpace⟩ := some
        rcases List.mem_append.mp mem with before | last
        · exact ⟨x, before, notSpace⟩
        · rw [List.mem_singleton.mp last] at notSpace
          exact absurd space notSpace
      obtain ⟨text, own⟩ := @ih _ left _ string.cut (by omega) (by omega) others
      rw [if_pos space, next, List.rdropWhile_concat_pos _ _ _ (by simpa using space)]
      refine ⟨text, fun i mem => ?_⟩
      rcases List.mem_cons.mp mem with here | before
      · exact here.le
      · rw [List.length_append, List.length_singleton]
        exact (own i before).trans (Nat.le_succ _)
    · rw [if_neg space, List.rdropWhile_concat_neg _ _ _ (by simpa using space)]
      exact ⟨string, fun i mem => (List.mem_singleton.mp mem).le⟩

/-- Over blanks alone it runs below the string: the index before 0 is 2^32 - 1. -/
theorem trimRightLoop_below (left : Nat) {c : Byte} (string : StringAt m str (s ++ [c])) (enough : s.length + 1 < left)
    (small : s.length < 2 ^ 32) (blanks : ∀ x ∈ s ++ [c], IsSpace x) :
    2 ^ 32 - 1 ∈ (trimRightLoop str left s.length m).accesses := by
  induction s using List.reverseRecOn generalizing m left c with
  | nil =>
    obtain ⟨left, rfl⟩ : ∃ k, left = k + 1 + 1 := ⟨left - 2, by omega⟩
    rw [trimRightLoop, string.last, if_pos (blanks c (by simp))]
    refine List.mem_cons_of_mem _ ?_
    have index : (List.length ([] : List Byte) + 2 ^ 32 - 1) % 2 ^ 32 = 2 ^ 32 - 1 := by simp
    rw [index, trimRightLoop]
    split_ifs <;> exact List.mem_cons_self
  | append_singleton t d ih =>
    obtain ⟨left, rfl⟩ : ∃ k, left = k + 1 := ⟨left - 1, by omega⟩
    rw [List.length_append, List.length_singleton] at enough small
    have next : ((t ++ [d]).length + 2 ^ 32 - 1) % 2 ^ 32 = t.length := by
      rw [List.length_append, List.length_singleton]
      omega
    rw [trimRightLoop, string.last, if_pos (blanks c (List.mem_append_right _ (.head _))), next]
    exact List.mem_cons_of_mem _
      (ih left string.cut (by omega) (by omega) fun x mem => blanks x (List.mem_append_left _ mem))

theorem leading_eq (string : StringAt m str s) {left i : Nat} (all : i + left = s.length) :
    leading m str left i = i + ((s.drop i).takeWhile fun c => decide (IsSpace c)).length := by
  induction left generalizing i with
  | zero =>
    rw [leading, List.drop_eq_nil_of_le (by omega)]
    rfl
  | succ left ih =>
    have less : i < s.length := by omega
    rw [leading, string.char less, List.drop_eq_getElem_cons less]
    by_cases space : IsSpace s[i]
    · rw [if_pos space, ih (by omega), List.takeWhile_cons_of_pos (by simpa using space), List.length_cons]
      omega
    · rw [if_neg space, List.takeWhile_cons_of_neg (by simpa using space)]
      rfl

/-- `trim_left` of any string. -/
theorem trimLeft_spec (string : StringAt m str s) (short : s.length < 2 ^ 32) :
    StringAt (trimLeft m str).mem str (s.dropWhile fun c => decide (IsSpace c)) ∧
      ∀ i ∈ (trimLeft m str).accesses, i ≤ s.length := by
  set front := s.takeWhile fun c => decide (IsSpace c)
  set back := s.dropWhile fun c => decide (IsSpace c)
  have split : front ++ back = s := List.takeWhile_append_dropWhile
  have length : front.length + back.length = s.length := by rw [← split, List.length_append]
  have index : leading m str s.length 0 = front.length := by
    rw [leading_eq string (Nat.zero_add _), List.drop_zero, Nat.zero_add]
  have seen : ∀ i ∈ List.range (s.length + 1) ++ List.range (min (front.length + 1) s.length), i ≤ s.length := by
    intro i mem
    rcases List.mem_append.mp mem with h | h <;> have := List.mem_range.mp h <;> omega
  rw [trimLeft, string.strLenAt_eq short]
  simp only [index]
  by_cases none : front.length = 0
  · rw [if_pos none]
    refine ⟨?_, seen⟩
    rwa [← split, List.length_eq_zero_iff.mp none, List.nil_append] at string
  · have rest : StringAt m (str + front.length) back := by
      refine ⟨fun i le => ?_, fun zero => string.noZero (split ▸ List.mem_append_right _ zero)⟩
      rw [Nat.add_assoc, string.chars _ (by omega), ← split, List.getD_append_right _ _ _ _ (Nat.le_add_right _ _),
        Nat.add_sub_cancel_left]
    rw [if_neg none, rest.strLenAt_eq (by omega)]
    refine ⟨⟨fun i le => ?_, rest.noZero⟩, fun i mem => ?_⟩
    · dsimp only
      rw [(memCpy_moves m str (str + front.length) (back.length + 1)).1 i (by omega)]
      exact rest.chars i le
    · rcases List.mem_append.mp mem with earlier | low
      · rcases List.mem_append.mp earlier with before | high
        · exact seen i before
        · obtain ⟨j, less, rfl⟩ := List.mem_map.mp high
          have := List.mem_range.mp less
          omega
      · have := List.mem_range.mp low
        omega

theorem trimRight_some (string : StringAt m str s) (short : s.length < 2 ^ 32) (some : s = [] ∨ ∃ x ∈ s, ¬ IsSpace x) :
    StringAt (trimRight m str).mem str (s.rdropWhile fun c => decide (IsSpace c)) ∧
      ∀ i ∈ (trimRight m str).accesses, i ≤ s.length := by
  rw [trimRight, string.strLenAt_eq short]
  rcases List.eq_nil_or_concat' s with rfl | ⟨t, c, rfl⟩
  · exact ⟨string, fun i mem => by simpa using mem⟩
  · have others := some.resolve_left (by simp)
    have length : (t ++ [c]).length = t.length + 1 := by rw [List.length_append, List.length_singleton]
    rw [length] at short ⊢
    obtain ⟨text, own⟩ := trimRightLoop_spec (2 ^ 32 + 1) string (by omega) (by omega) others
    rw [if_pos (Nat.succ_ne_zero _), Nat.add_sub_cancel]
    refine ⟨text, fun i mem => ?_⟩
    rcases List.mem_append.mp mem with h | h
    · have := List.mem_range.mp h
      omega
    · exact (own i h).trans (Nat.le_succ _)

theorem clrOk_iff (string : StringAt m str s) (short : s.length + 1 < 2 ^ 32) :
    ClrOk s str (clrspc m str) ↔ s = [] ∨ ∃ c ∈ s, ¬ IsSpace c := by
  constructor
  · intro ok
    by_contra blanks
    obtain ⟨some, blanks⟩ := not_or.mp blanks
    have all : ∀ c ∈ s, IsSpace c := fun c mem => by_contra fun notSpace => blanks ⟨c, mem, notSpace⟩
    obtain ⟨t, c, rfl⟩ := (List.eq_nil_or_concat' s).resolve_left some
    have length : (t ++ [c]).length = t.length + 1 := by rw [List.length_append, List.length_singleton]
    have below := trimRightLoop_below (2 ^ 32 + 1) string (by omega) (by omega) all
    have accessed : 2 ^ 32 - 1 ∈ (clrspc m str).accesses := by
      refine List.mem_append_left _ (List.mem_append_right _ ?_)
      rw [string.strLenAt_eq (by omega), length, if_pos (Nat.succ_ne_zero _), Nat.add_sub_cancel]
      exact below
    have := ok.own _ accessed
    omega
  · intro some
    obtain ⟨text, own⟩ := trimRight_some string (by omega) some
    have shorter : (s.rdropWhile fun c => decide (IsSpace c)).length ≤ s.length := (List.rdropWhile_prefix _ _).length_le
    obtain ⟨text', own'⟩ := trimLeft_spec text (by omega)
    refine ⟨fun i mem => ?_, text'⟩
    rcases List.mem_append.mp mem with h | h
    · exact own i h
    · exact (own' i h).trans shorter

end Trim

/-- `div_str` meets its contract exactly if what is before the first separator fits in the first buffer with its zero, and
`clrspc` meets its own exactly if the string is empty or has a character that is no blank. -/
theorem divOk_and_clrOk_iff (m : Mem) (str : Nat) (s : List Byte) (string : StringAt m str s)
    (short : s.length + 1 < 2 ^ 32) :
    (∀ {p1 szP1 p2 szP2 div : Nat} {ds : List Byte}, Buffers str s.length p1 szP1 p2 szP2 → StringAt m div ds →
      ds.length < 2 ^ 32 → (DivOk s ds p1 szP1 p2 szP2 (divStr m str p1 szP1 p2 szP2 div) ↔ FirstFits s ds szP1)) ∧
    (ClrOk s str (clrspc m str) ↔ s = [] ∨ ∃ c ∈ s, ¬ IsSpace c) :=
  ⟨fun buffers separators few => divOk_iff buffers string separators (by omega) few, clrOk_iff string short⟩

/-- Texts at the addresses 0, 8 and 16, and zeros. -/
def texts (s ds : List Byte) : Mem := fun i => if i < 8 then 0 else if i < 16 then s.getD (i - 8) 0 else ds.getD (i - 16) 0

/-- " a,b " at 8, which is split into a buffer of 4 bytes at 0 and itself. -/
theorem divOk_and_clrOk_iff_comma :
    let s : List Byte := [0x20, 0x61, 0x2c, 0x62, 0x20]
    DivOk s [0x2c] 0 4 8 8 (divStr (texts s [0x2c]) 8 0 4 8 8 16) ∧ ClrOk s 8 (clrspc (texts s [0x2c]) 8) := by
  intro s
  have string : StringAt (texts s [0x2c]) 8 s := by
    refine ⟨fun i le => ?_, by decide⟩
    have bound : i ≤ 5 := le
    interval_cases i <;> rfl
  have separators : StringAt (texts s [0x2c]) 16 [0x2c] := by
    refine ⟨fun i le => ?_, by decide⟩
    have bound : i ≤ 1 := le
    interval_cases i <;> rfl
  have both := divOk_and_clrOk_iff (texts s [0x2c]) 8 s string (by decide)
  have buffers : Buffers 8 s.length 0 4 8 8 := by
    refine ⟨by decide, by decide, by decide, by decide, ?_, ?_, .inl rfl⟩ <;> exact .inl (by decide)
  refine ⟨(both.1 buffers separators (by decide)).mpr fun a c b split before _ => ?_,
    both.2.mpr (.inr ⟨0x61, by decide, by decide⟩)⟩
  -- the comma at position 2 is not before the first separator
  have few : a.length ≤ 2 := by
    by_contra more
    have inside : 2 < a.length := Nat.lt_of_not_le more
    have comma : s[2]? = some a[2] := by rw [split, List.getElem?_append_left inside, List.getElem?_eq_getElem inside]
    have same : (0x2c : Byte) = a[2] := Option.some.inj comma
    exact before a[2] (List.getElem_mem inside) (List.mem_singleton.mpr same.symm)
  omega

/-- "ab,c" and a first buffer of one byte: the zero is written behind it. Of a string of one blank, the byte that is 2^32 - 1
behind its first one is read. -/
theorem zero_behind_first_part :
    (¬ DivOk [0x61, 0x62, 0x2c, 0x63] [0x2c] 0 1 8 8 (divStr (texts [0x61, 0x62, 0x2c, 0x63] [0x2c]) 8 0 1 8 8 16)) ∧
      ¬ ClrOk [0x20] 8 (clrspc (texts [0x20] []) 8) := by
  constructor
  · intro ok
    have inside := ok.inside (.p1, 1)
    revert inside
    decide +kernel
  · intro ok
    have own := ok.own (2 ^ 32 - 1)
    revert own
    decide +kernel

end PreTeO.Common
