import PreTeO.Common.MemCpy
import Mathlib.Data.List.GetD

/-!
# Strings in memory (`core/common/lib/str.cpp`)

A string is the characters before the zero. `str_cpy` copies at most one character less than the size that it is given, and
puts a zero after them. Its source may be in the memory that it writes.
-/

namespace PreTeO.Common
set_option autoImplicit false

open Lib (Mem Byte)

/-- The string `s` is at `p`, with its zero. -/
structure StringAt (m : Mem) (p : Nat) (s : List Byte) : Prop where
  chars : ∀ i, i ≤ s.length → m (p + i) = s.getD i 0
  noZero : 0 ∉ s

/-- `while(*(str+i))`, with a counter of 32 bits. -/
def strLenAtLoop (m : Mem) (str : Nat) : Nat → Nat → Nat
  | 0, i => i
  | left + 1, i => if m (str + i) = 0 then i else strLenAtLoop m str left (i + 1)

/-- `str_len`, of a string with less than 2^32 characters. -/
def strLenAt (m : Mem) (str : Nat) : Nat := strLenAtLoop m str (2 ^ 32) 0

/-- `while(_sz)` of `mem_cmp`. -/
def memCmpLoop (p1 p2 : Nat → Byte) : Nat → Nat → Nat
  | 0, _ => 0
  | left + 1, i => if p1 i ≠ p2 i then left + 1 else memCmpLoop p1 p2 left (i + 1)

/-- `mem_cmp`: how many bytes are left at the first difference. -/
def memCmp (p1 p2 : Nat → Byte) (sz : Nat) : Nat := memCmpLoop p1 p2 sz 0

theorem memCmpLoop_eq_zero {p1 p2 : Nat → Byte} (left i : Nat) :
    memCmpLoop p1 p2 left i = 0 ↔ ∀ j, i ≤ j → j < i + left → p1 j = p2 j := by
  induction left generalizing i with
  | zero =>
    simp only [memCmpLoop, true_iff]
    intro j low high
    omega
  | succ left ih =>
    rw [memCmpLoop]
    by_cases same : p1 i = p2 i
    · rw [if_neg (not_not.mpr same), ih]
      constructor
      · intro rest j low high
        by_cases here : j = i
        · rw [here, same]
        · exact rest j (by omega) (by omega)
      · exact fun all j low high => all j (by omega) (by omega)
    · rw [if_pos same]
      exact ⟨fun zero => absurd zero (Nat.succ_ne_zero left), fun all => absurd (all i le_rfl (by omega)) same⟩

theorem memCmp_eq_zero {p1 p2 : Nat → Byte} {sz : Nat} : memCmp p1 p2 sz = 0 ↔ ∀ j, j < sz → p1 j = p2 j := by
  rw [memCmp, memCmpLoop_eq_zero]
  exact ⟨fun all j high => all j (Nat.zero_le j) (by omega), fun all j _ high => all j (by omega)⟩

/-- `mem_set`. -/
def memSet (m : Mem) (p : Nat) (pattern : Byte) (sz : Nat) : Mem := m.blit p sz fun _ => pattern

/-- `while(_sz)` of `str_cpy`, with the source as it is read from the memory. -/
def strCpyLoop (src : Mem → Nat → Byte) (dst : Nat) : Nat → Nat → Mem → Nat × Mem
  | 0, i, m => (i, Function.update m (dst + i) 0)
  | left + 1, i, m =>
    let m := Function.update m (dst + i) (src m i)
    if src m i = 0 then (i, Function.update m (dst + i) 0) else strCpyLoop src dst left (i + 1) m

/-- `str_cpy`: the number of characters, and the memory. -/
def strCpy (m : Mem) (dst : Nat) (src : Mem → Nat → Byte) (szMax : Nat) : Nat × Mem :=
  strCpyLoop src dst ((szMax + 2 ^ 32 - 1) % 2 ^ 32) 0 m

/-- A source that is not in memory. -/
def givenText (s : List Byte) : Mem → Nat → Byte := fun _ i => s.getD i 0

/-- A source in memory. -/
def textAt (p : Nat) : Mem → Nat → Byte := fun m i => m (p + i)

/-- The source has the characters of `s` from `i` on. -/
def Reads (src : Mem → Nat → Byte) (s : List Byte) (i : Nat) (m : Mem) : Prop :=
  ∀ j, i ≤ j → j ≤ s.length → src m j = s.getD j 0

/-- A character that is written does not change the source behind it. -/
def Steady (src : Mem → Nat → Byte) (dst : Nat) (s : List Byte) : Prop :=
  ∀ m i, i ≤ s.length → Reads src s i m → Reads src s i (Function.update m (dst + i) (s.getD i 0))

theorem steady_given (dst : Nat) (s : List Byte) : Steady (givenText s) dst s := fun _ _ _ reads => reads

/-- A source that is not below the destination, or has nothing in common with it. -/
theorem steady_textAt {p dst : Nat} {s : List Byte} (order : dst ≤ p ∨ p + s.length < dst) : Steady (textAt p) dst s := by
  intro m i bound reads j low high
  rw [textAt]
  by_cases same : p + j = dst + i
  · have equal : j = i := by omega
    rw [same, Function.update_self, equal]
  · rw [Function.update_of_ne same]
    exact reads j low high

section strCpy
variable {src : Mem → Nat → Byte} {dst : Nat} {s : List Byte} {m : Mem}

theorem getD_ne_zero (noZero : 0 ∉ s) {i : Nat} (less : i < s.length) : s.getD i 0 ≠ 0 := by
  rw [List.getD_eq_getElem _ _ less]
  exact fun zero => noZero (zero ▸ List.getElem_mem less)

theorem StringAt.char (string : StringAt m dst s) {i : Nat} (less : i < s.length) : m (dst + i) = s[i] :=
  (string.chars i less.le).trans (List.getD_eq_getElem _ _ less)

theorem StringAt.zero (string : StringAt m dst s) : m (dst + s.length) = 0 :=
  (string.chars _ le_rfl).trans (List.getD_eq_default _ _ le_rfl)

theorem StringAt.strLenAtLoop_eq (string : StringAt m dst s) {left i : Nat} (le : i ≤ s.length)
    (enough : s.length < i + left) :
    strLenAtLoop m dst left i = s.length := by
  induction left generalizing i with
  | zero => omega
  | succ left ih =>
    rw [strLenAtLoop]
    by_cases past : i = s.length
    · rw [past, if_pos string.zero]
    · rw [string.chars i le, if_neg (getD_ne_zero string.noZero (by omega))]
      exact ih (by omega) (by omega)

theorem StringAt.strLenAt_eq (string : StringAt m dst s) (short : s.length < 2 ^ 32) : strLenAt m dst = s.length :=
  string.strLenAtLoop_eq (Nat.zero_le _) (by omega)

/-- The characters from `i` up to `k`, and a zero, are copied. -/
def copyOf (s : List Byte) (dst i k : Nat) (m : Mem) : Mem :=
  m.blit (dst + i) (k - i + 1) fun t => if i + t < k then s.getD (i + t) 0 else 0

theorem copyOf_at {i k : Nat} (le : i ≤ k) (a : Nat) :
    copyOf s dst i k m a = if dst + i ≤ a ∧ a ≤ dst + k then (if a < dst + k then s.getD (a - dst) 0 else 0) else m a := by
  rw [copyOf, Mem.blit]
  by_cases inside : dst + i ≤ a ∧ a ≤ dst + k
  · rw [if_pos (by omega), if_pos inside]
    by_cases before : a < dst + k
    · rw [if_pos (by omega), if_pos before]
      congr 1
      omega
    · rw [if_neg (by omega), if_neg before]
  · rw [if_neg (by omega), if_neg inside]

theorem strCpyLoop_spec (noZero : 0 ∉ s) (steady : Steady src dst s) (left i : Nat) (m : Mem) (bound : i ≤ s.length)
    (reads : Reads src s i m) :
    strCpyLoop src dst left i m = (min s.length (i + left), copyOf s dst i (min s.length (i + left)) m) := by
  induction left generalizing i m with
  | zero =>
    rw [Nat.add_zero, Nat.min_eq_right bound, strCpyLoop]
    congr 1
    funext a
    rw [copyOf_at le_rfl]
    by_cases here : a = dst + i
    · rw [here, Function.update_self, if_pos (by omega), if_neg (by omega)]
    · rw [Function.update_of_ne here, if_neg (by omega)]
  | succ left ih =>
    have char := reads i le_rfl bound
    have kept := steady m i bound reads
    rw [strCpyLoop, char, kept i le_rfl bound]
    by_cases past : i = s.length
    · have zero : s.getD i 0 = 0 := List.getD_eq_default _ _ (by omega)
      rw [if_pos zero, Nat.min_eq_left (by omega), past]
      congr 1
      funext a
      rw [copyOf_at le_rfl]
      by_cases here : a = dst + s.length
      · rw [here, Function.update_self, if_pos (by omega), if_neg (by omega)]
      · rw [Function.update_of_ne here, Function.update_of_ne here, if_neg (by omega)]
    · have less : i < s.length := by omega
      rw [if_neg (getD_ne_zero noZero less), ih (i + 1) _ less fun j low high => kept j (by omega) high]
      have count : i + 1 + left = i + (left + 1) := by omega
      rw [count]
      congr 1
      funext a
      rw [copyOf_at (by omega), copyOf_at (by omega)]
      by_cases here : a = dst + i
      · rw [here, if_neg (by omega), Function.update_self, if_pos (by omega), if_pos (by omega), Nat.add_sub_cancel_left]
      · rw [Function.update_of_ne here]
        by_cases inside : dst + i ≤ a ∧ a ≤ dst + min s.length (i + (left + 1))
        · rw [if_pos inside, if_pos (by omega)]
        · rw [if_neg inside, if_neg (by omega)]

/-- `str_cpy` with a size that is not 0. -/
theorem strCpy_spec (noZero : 0 ∉ s) (steady : Steady src dst s) (reads : Reads src s 0 m) {szMax : Nat} (some : 1 ≤ szMax)
    (small : szMax < 2 ^ 32) :
    strCpy m dst src szMax = (min s.length (szMax - 1), copyOf s dst 0 (min s.length (szMax - 1)) m) := by
  have size : (szMax + 2 ^ 32 - 1) % 2 ^ 32 = szMax - 1 := by omega
  rw [strCpy, size, strCpyLoop_spec noZero steady _ 0 m (Nat.zero_le _) reads, Nat.zero_add]

end strCpy

end PreTeO.Common
