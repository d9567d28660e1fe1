import Mathlib.Data.BitVec
import Mathlib.Tactic.Ring

/-!
# Byte memory

A memory is a total byte function. `blit` overwrites a range, `load` and `store` read and write
little-endian numbers. Every fact about a record laid out in memory is one of two observations: a
read inside what was written, or a read outside it.
-/

namespace PreTeO.Lib
set_option autoImplicit false

abbrev Byte := BitVec 8

abbrev Mem := Nat → Byte

namespace Mem

/-- Overwrite the `n` bytes from `a` on with `f 0, f 1, ...`. -/
def blit (m : Mem) (a n : Nat) (f : Nat → Byte) : Mem :=
  fun i => if a ≤ i ∧ i < a + n then f (i - a) else m i

/-- The little-endian number in the `n` bytes from `a` on. -/
def load (m : Mem) (a : Nat) : Nat → Nat
  | 0 => 0
  | n + 1 => (m a).toNat + 256 * load m (a + 1) n

/-- The `k`-th little-endian byte of a number. -/
def digit (v k : Nat) : Byte := BitVec.ofNat 8 (v / 256 ^ k)

/-- Write a number into the `n` bytes from `a` on. -/
def store (m : Mem) (a n v : Nat) : Mem := m.blit a n (digit v)

/-- Two ranges without a common byte. -/
def Apart (a n b k : Nat) : Prop := a + n ≤ b ∨ b + k ≤ a

variable {m m' : Mem} {a n v : Nat}

theorem blit_in {f : Nat → Byte} {i : Nat} (low : a ≤ i) (high : i < a + n) :
    m.blit a n f i = f (i - a) := by
  simp [blit, low, high]

theorem blit_out {f : Nat → Byte} {i : Nat} (out : i < a ∨ a + n ≤ i) : m.blit a n f i = m i := by
  have : ¬ (a ≤ i ∧ i < a + n) := by omega
  simp [blit, this]

theorem store_out {i : Nat} (out : i < a ∨ a + n ≤ i) : m.store a n v i = m i := blit_out out

/-- A number depends only on its own bytes. -/
theorem load_congr (same : ∀ i, a ≤ i → i < a + n → m i = m' i) : m.load a n = m'.load a n := by
  induction n generalizing a with
  | zero => rfl
  | succ n ih =>
    simp only [load]
    rw [same a (le_refl a) (by omega), ih (fun i low high => same i (by omega) (by omega))]

/-- A number is moved with its bytes. -/
theorem load_moved {b : Nat} (same : ∀ t, t < n → m (a + t) = m' (b + t)) :
    m.load a n = m'.load b n := by
  induction n generalizing a b with
  | zero => rfl
  | succ n ih =>
    have head := same 0 (Nat.succ_pos n)
    rw [Nat.add_zero, Nat.add_zero] at head
    simp only [load]
    rw [head, ih]
    intro t less
    have := same (t + 1) (by omega)
    rwa [← Nat.add_assoc, Nat.add_right_comm a, ← Nat.add_assoc, Nat.add_right_comm b] at this

theorem load_blit_out {b k : Nat} {f : Nat → Byte} (apart : Apart a n b k) :
    (m.blit b k f).load a n = m.load a n := by
  apply load_congr
  intro i low high
  apply blit_out
  rcases apart with h | h <;> omega

theorem load_store_out {b k : Nat} (apart : Apart a n b k) :
    (m.store b k v).load a n = m.load a n :=
  load_blit_out apart

theorem digit_succ (v k : Nat) : digit v (k + 1) = digit (v / 256) k := by
  rw [digit, digit, Nat.div_div_eq_div_mul, pow_succ, Nat.mul_comm]

theorem digit_zero_toNat (v : Nat) : (digit v 0).toNat = v % 256 := by
  simp [digit]

/-- What was stored is loaded back, up to the width. -/
theorem load_store (m : Mem) (a n v : Nat) : (m.store a n v).load a n = v % 256 ^ n := by
  induction n generalizing m a v with
  | zero => simp [load, Nat.mod_one]
  | succ n ih =>
    have rest : (m.store a (n + 1) v).load (a + 1) n = (m.store (a + 1) n (v / 256)).load (a + 1) n := by
      apply load_congr
      intro i low high
      rw [store, store, blit_in (by omega) (by omega), blit_in low high,
        show i - a = (i - (a + 1)) + 1 by omega, digit_succ]
    have head : m.store a (n + 1) v a = digit v 0 := by
      rw [store, blit_in (le_refl a) (by omega), Nat.sub_self]
    rw [load, head, rest, ih, digit_zero_toNat, pow_succ, Nat.mul_comm (256 ^ n), Nat.mod_mul]

theorem load_store_of_lt (small : v < 256 ^ n) : (m.store a n v).load a n = v := by
  rw [load_store, Nat.mod_eq_of_lt small]

theorem load_lt (m : Mem) (a n : Nat) : m.load a n < 256 ^ n := by
  induction n generalizing a with
  | zero => simp [load]
  | succ n ih =>
    have byte := (m a).isLt
    have rest := ih (a + 1)
    rw [load, pow_succ]
    omega

/-- Bytes that are all zero read as the number zero. -/
theorem load_zero (zero : ∀ i, a ≤ i → i < a + n → m i = 0#8) : m.load a n = 0 := by
  induction n generalizing a with
  | zero => rfl
  | succ n ih =>
    rw [load, zero a (le_refl a) (by omega), ih (fun i low high => zero i (by omega) (by omega))]
    rfl

/-- The bytes of a loaded number are the bytes it was loaded from. -/
theorem digit_load (m : Mem) (a n k : Nat) (hk : k < n) : digit (m.load a n) k = m (a + k) := by
  induction n generalizing a k with
  | zero => omega
  | succ n ih =>
    have byte := (m a).isLt
    cases k with
    | zero =>
      apply BitVec.eq_of_toNat_eq
      rw [digit_zero_toNat, load]
      simp only [Nat.add_zero]
      omega
    | succ k =>
      have rest : m.load a (n + 1) / 256 = m.load (a + 1) n := by
        rw [load]
        omega
      rw [digit_succ, rest, ih (a + 1) k (by omega), show a + 1 + k = a + (k + 1) by omega]

/-- Writing back what is there changes nothing. -/
theorem store_load (m : Mem) (a n : Nat) : m.store a n (m.load a n) = m := by
  funext i
  by_cases inside : a ≤ i ∧ i < a + n
  · rw [store, blit_in inside.1 inside.2, digit_load m a n (i - a) (by omega)]
    congr 1
    omega
  · exact store_out (by omega)

theorem blit_zero (m : Mem) (a : Nat) (f : Nat → Byte) : m.blit a 0 f = m := by
  funext i
  exact blit_out (by omega)

theorem blit_congr {f g : Nat → Byte} (same : ∀ i, i < n → f i = g i) : m.blit a n f = m.blit a n g := by
  funext i
  by_cases inside : a ≤ i ∧ i < a + n
  · rw [blit_in inside.1 inside.2, blit_in inside.1 inside.2, same _ (by omega)]
  · rw [blit_out (by omega), blit_out (by omega)]

/-- Two writes end to end are one write. -/
theorem blit_append (m : Mem) (a n k : Nat) (f : Nat → Byte) :
    (m.blit a n f).blit (a + n) k (fun i => f (n + i)) = m.blit a (n + k) f := by
  funext i
  by_cases second : a + n ≤ i ∧ i < a + n + k
  · rw [blit_in second.1 second.2, blit_in (by omega) (by omega)]
    congr 1
    omega
  · rw [blit_out (by omega)]
    by_cases first : a ≤ i ∧ i < a + n
    · rw [blit_in first.1 first.2, blit_in first.1 (by omega)]
    · rw [blit_out (by omega), blit_out (by omega)]

/-- A write seen from a base address. -/
theorem blit_base (m : Mem) (base a n i : Nat) (f : Nat → Byte) :
    m.blit (base + a) n f (base + i) = Mem.blit (fun i => m (base + i)) a n f i := by
  by_cases inside : a ≤ i ∧ i < a + n
  · rw [blit_in (by omega) (by omega), blit_in inside.1 inside.2]
    congr 1
    omega
  · rw [blit_out (by omega), blit_out (by omega)]

end Mem

end PreTeO.Lib
