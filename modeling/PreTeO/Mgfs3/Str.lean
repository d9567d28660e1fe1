import Mathlib.Data.List.Lex
import PreTeO.Lib.Bytes

/-!
# C strings (`core/common/lib/str.cpp`)

A string is the bytes from its first character on. Characters are signed, and the zero that ends a
string takes part in a comparison like any other character, so `str_cmp` orders strings as lists of
characters that include the final zero.
-/

namespace PreTeO.Mgfs3
set_option autoImplicit false
open PreTeO.Lib

/-- Bound on the characters a string function reads. -/
def maxStr : Nat := 2 ^ 16

/-- `str_cmp`, with a bound on the characters read. -/
def strCmpN : Nat → (Nat → Byte) → (Nat → Byte) → Int
  | 0, _, _ => 0
  | n + 1, s, t =>
    if s 0 ≠ 0#8 ∧ t 0 ≠ 0#8 ∧ s 0 = t 0 then strCmpN n (fun i => s (i + 1)) fun i => t (i + 1)
    else (s 0).toInt - (t 0).toInt

def strCmp (s t : Nat → Byte) : Int := strCmpN maxStr s t

/-- The characters of a string with its final zero. -/
def charsN : Nat → (Nat → Byte) → List Int
  | 0, _ => []
  | n + 1, s => if s 0 = 0#8 then [0] else (s 0).toInt :: charsN n fun i => s (i + 1)

def chars (s : Nat → Byte) : List Int := charsN maxStr s

/-- The string ends within its first `n` bytes. -/
def Ends (s : Nat → Byte) (n : Nat) : Prop := ∃ k, k < n ∧ s k = 0#8

instance (s : Nat → Byte) (n : Nat) : Decidable (Ends s n) := inferInstanceAs (Decidable (∃ k, k < n ∧ _))

theorem toInt_eq_zero {b : Byte} (h : b.toInt = 0) : b = 0#8 := BitVec.eq_of_toInt_eq (by simpa using h)

theorem Ends.tail {s : Nat → Byte} {n : Nat} (ends : Ends s (n + 1)) (more : s 0 ≠ 0#8) :
    Ends (fun i => s (i + 1)) n := by
  obtain ⟨k, hk, zero⟩ := ends
  cases k with
  | zero => exact absurd zero more
  | succ k => exact ⟨k, by omega, zero⟩

theorem Ends.mono {s : Nat → Byte} {n m : Nat} (ends : Ends s n) (le : n ≤ m) : Ends s m := by
  obtain ⟨k, hk, zero⟩ := ends
  exact ⟨k, by omega, zero⟩

/-- The characters of a string are the bytes up to its end. -/
theorem charsN_congr {s t : Nat → Byte} {n m k : Nat} (ends : Ends s k) (same : ∀ i, i < k → t i = s i)
    (hn : k ≤ n) (hm : k ≤ m) : charsN m t = charsN n s := by
  induction k generalizing s t n m with
  | zero =>
    obtain ⟨i, hi, _⟩ := ends
    omega
  | succ k ih =>
    obtain ⟨n, rfl⟩ : ∃ j, n = j + 1 := ⟨n - 1, by omega⟩
    obtain ⟨m, rfl⟩ : ∃ j, m = j + 1 := ⟨m - 1, by omega⟩
    rw [charsN, charsN, same 0 (by omega)]
    split
    · rfl
    · next more =>
      rw [ih (ends.tail more) (fun i hi => same (i + 1) (by omega)) (show k ≤ n by omega) (by omega)]

/-- `str_cmp` is the lexicographic comparison of the characters, if one of the strings ends. -/
theorem strCmpN_spec {n : Nat} {s t : Nat → Byte} (ends : Ends s n ∨ Ends t n) :
    (strCmpN n s t = 0 ↔ charsN n s = charsN n t) ∧ (strCmpN n s t < 0 ↔ charsN n s < charsN n t) := by
  induction n generalizing s t with
  | zero =>
    rcases ends with ⟨i, hi, _⟩ | ⟨i, hi, _⟩ <;> omega
  | succ n ih =>
    have heads : ∀ l l' : List Int, s 0 ≠ t 0 → (((s 0).toInt - (t 0).toInt = 0 ↔
        (s 0).toInt :: l = (t 0).toInt :: l') ∧ ((s 0).toInt - (t 0).toInt < 0 ↔
        (s 0).toInt :: l < (t 0).toInt :: l')) := by
      intro l l' ne
      have different : (s 0).toInt ≠ (t 0).toInt := fun h => ne (BitVec.eq_of_toInt_eq h)
      rw [List.cons_lt_cons_iff, List.cons.injEq]
      omega
    rw [strCmpN, charsN, charsN]
    by_cases zeroS : s 0 = 0#8
    · rw [if_neg (fun h => h.1 zeroS), if_pos zeroS]
      by_cases zeroT : t 0 = 0#8
      · simp [zeroS, zeroT]
      · rw [if_neg zeroT]
        have first := heads [] (charsN n fun i => t (i + 1)) fun h => zeroT (h.symm.trans zeroS)
        rw [zeroS] at first ⊢
        exact first
    · by_cases zeroT : t 0 = 0#8
      · rw [if_neg (fun h => h.2.1 zeroT), if_neg zeroS, if_pos zeroT]
        have first := heads (charsN n fun i => s (i + 1)) [] fun h => zeroS (h.trans zeroT)
        rw [zeroT] at first ⊢
        exact first
      · rw [if_neg zeroS, if_neg zeroT]
        by_cases same : s 0 = t 0
        · rw [if_pos ⟨zeroS, zeroT, same⟩, same, List.cons_lt_cons_self, List.cons.injEq]
          obtain ⟨equal, less⟩ := ih (ends.imp (fun h => h.tail zeroS) fun h => h.tail zeroT)
          exact ⟨by rw [equal]; simp, less⟩
        · rw [if_neg (fun h => same h.2.2)]
          exact heads _ _ same

/-- The string has `n` characters. -/
structure IsString (s : Nat → Byte) (n : Nat) : Prop where
  body : ∀ i, i < n → s i ≠ 0#8
  zero : s n = 0#8

theorem charsN_length {s : Nat → Byte} {n m : Nat} (string : IsString s n) (short : n < m) :
    (charsN m s).length = n + 1 := by
  induction n generalizing s m with
  | zero =>
    obtain ⟨m, rfl⟩ : ∃ j, m = j + 1 := ⟨m - 1, by omega⟩
    rw [charsN, if_pos string.zero, List.length_singleton]
  | succ n ih =>
    obtain ⟨m, rfl⟩ : ∃ j, m = j + 1 := ⟨m - 1, by omega⟩
    have tail : IsString (fun i => s (i + 1)) n := ⟨fun i hi => string.body (i + 1) (by omega), string.zero⟩
    rw [charsN, if_neg (string.body 0 (by omega)), List.length_cons, ih tail (by omega)]

/-- Strings with the same characters have the same bytes. -/
theorem eq_of_charsN_eq {s t : Nat → Byte} {n m : Nat} (same : charsN m s = charsN m t)
    (body : ∀ i, i < n → t i ≠ 0#8) (short : n ≤ m) : ∀ i, i < n → s i = t i := by
  induction n generalizing s t m with
  | zero => exact fun i hi => absurd hi (Nat.not_lt_zero i)
  | succ n ih =>
    obtain ⟨m, rfl⟩ : ∃ j, m = j + 1 := ⟨m - 1, by omega⟩
    have more := body 0 (by omega)
    rw [charsN, charsN, if_neg more] at same
    split at same
    · exact absurd (toInt_eq_zero (List.cons.inj same).1.symm) more
    · obtain ⟨head, tail⟩ := List.cons.inj same
      intro i hi
      cases i with
      | zero => exact BitVec.eq_of_toInt_eq head
      | succ i => exact ih tail (fun i hi => body (i + 1) (by omega)) (by omega) i (by omega)

theorem strCmp_eq_zero {s t : Nat → Byte} (ends : Ends s maxStr ∨ Ends t maxStr) :
    strCmp s t = 0 ↔ chars s = chars t := (strCmpN_spec ends).1

theorem strCmp_lt_zero {s t : Nat → Byte} (ends : Ends s maxStr ∨ Ends t maxStr) :
    strCmp s t < 0 ↔ chars s < chars t := (strCmpN_spec ends).2

end PreTeO.Mgfs3
