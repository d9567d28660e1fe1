import PreTeO.Lib.Bytes

/-!
# Copying memory (`core/common/lib/str.cpp`)

`mem_cpy` copies words of 8 bytes and then the bytes that are left: upwards if the destination is below the source, and
downwards, from the end, if it is not. A word is read before it is written, and no piece is written before it is read.
-/

namespace PreTeO.Common
set_option autoImplicit false

open Lib (Mem Byte)

/-- `*(_u64 *)dst = *(_u64 *)src`. -/
def copyWord (m : Mem) (dst src : Nat) : Mem := m.store dst 8 (m.load src 8)

/-- `*dst = *src`. -/
def copyByte (m : Mem) (dst src : Nat) : Mem := m.store dst 1 (m.load src 1)

/-- `while(i < _sz)`, with the words that are left. -/
def copyWordsUp (dst src : Nat) : Nat → Nat → Mem → Mem
  | 0, _, m => m
  | left + 1, i, m => copyWordsUp dst src left (i + 1) (copyWord m (dst + 8 * i) (src + 8 * i))

/-- `while(j < sz)`, with the bytes that are left. -/
def copyBytesUp (dst src : Nat) : Nat → Nat → Mem → Mem
  | 0, _, m => m
  | left + 1, j, m => copyBytesUp dst src left (j + 1) (copyByte m (dst + j) (src + j))

/-- `while(i < _sz)` from the ends of the ranges. -/
def copyWordsDown (dstEnd srcEnd : Nat) : Nat → Nat → Mem → Mem
  | 0, _, m => m
  | left + 1, i, m =>
    copyWordsDown dstEnd srcEnd left (i + 1) (copyWord m (dstEnd - 8 * (i + 1)) (srcEnd - 8 * (i + 1)))

/-- `while(j)`. -/
def copyBytesDown (dst src : Nat) : Nat → Mem → Mem
  | 0, m => m
  | j + 1, m => copyBytesDown dst src j (copyByte m (dst + j) (src + j))

/-- `mem_cpy`. -/
def memCpy (m : Mem) (dst src sz : Nat) : Mem :=
  if dst < src then
    copyBytesUp dst src (sz - sz / 8 * 8) (sz / 8 * 8) (copyWordsUp dst src (sz / 8) 0 m)
  else copyBytesDown dst src (sz % 8) (copyWordsDown (dst + sz) (src + sz) (sz / 8) 0 m)

/-! ## Pieces -/

/-- The bytes `[k, l)` of the destination are copied from an earlier memory. -/
def Copied (m₀ : Mem) (dst src k l : Nat) (m : Mem) : Prop := m = m₀.blit (dst + k) (l - k) fun t => m₀ (src + k + t)

section Pieces
variable {m₀ m : Mem} {dst src k l n : Nat}

theorem Copied.at (copied : Copied m₀ dst src k l m) (i : Nat) :
    m i = if dst + k ≤ i ∧ i < dst + k + (l - k) then m₀ (src + (i - dst)) else m₀ i := by
  rw [copied]
  unfold Mem.blit
  split_ifs with inside
  · have offset : src + k + (i - (dst + k)) = src + (i - dst) := by omega
    exact congrArg m₀ offset
  · rfl

/-- A piece is copied with the bytes that it has. -/
theorem store_load_eq (m : Mem) (a b n : Nat) : m.store a n (m.load b n) = m.blit a n fun t => m (b + t) := by
  funext i
  by_cases inside : a ≤ i ∧ i < a + n
  · rw [Mem.store, Mem.blit_in inside.1 inside.2, Mem.blit_in inside.1 inside.2, Mem.digit_load m b n (i - a) (by omega)]
  · rw [Mem.store_out (by omega), Mem.blit_out (by omega)]

/-- Upwards, the next piece of the source is above what is written. -/
theorem Copied.up (copied : Copied m₀ dst src 0 k m) (below : dst ≤ src) :
    Copied m₀ dst src 0 (k + n) (m.store (dst + k) n (m.load (src + k) n)) := by
  funext i
  rw [store_load_eq, Mem.blit, Mem.blit]
  have source (t : Nat) : m (src + k + t) = m₀ (src + k + t) := by
    rw [copied.at, if_neg (by omega)]
  rw [source, copied.at]
  split_ifs <;> first | omega | (congr 1; omega) | rfl

/-- Downwards, it is below what is written. -/
theorem Copied.down (copied : Copied m₀ dst src (k + n) l m) (above : src ≤ dst) (le : k + n ≤ l) :
    Copied m₀ dst src k l (m.store (dst + k) n (m.load (src + k) n)) := by
  funext i
  rw [store_load_eq, Mem.blit, Mem.blit]
  by_cases here : dst + k ≤ i ∧ i < dst + k + n
  · rw [if_pos here, if_pos (by omega), copied.at, if_neg (by omega)]
  · rw [if_neg here, copied.at]
    split_ifs <;> first | omega | (congr 1; omega) | rfl

theorem Copied.none (m₀ : Mem) (dst src k : Nat) : Copied m₀ dst src k k m₀ := by
  funext i
  rw [Mem.blit_out (by omega)]

end Pieces

/-! ## The loops -/

section Loops
variable {m₀ m : Mem} {dst src l : Nat}

theorem copyWordsUp_copied (below : dst ≤ src) {left i : Nat} (copied : Copied m₀ dst src 0 (8 * i) m) :
    Copied m₀ dst src 0 (8 * (i + left)) (copyWordsUp dst src left i m) := by
  induction left generalizing i m with
  | zero => exact copied
  | succ left ih =>
    rw [copyWordsUp, ← Nat.add_assoc, Nat.add_right_comm]
    exact ih (copied.up below)

theorem copyBytesUp_copied (below : dst ≤ src) {left j : Nat} (copied : Copied m₀ dst src 0 j m) :
    Copied m₀ dst src 0 (j + left) (copyBytesUp dst src left j m) := by
  induction left generalizing j m with
  | zero => exact copied
  | succ left ih =>
    rw [copyBytesUp, ← Nat.add_assoc, Nat.add_right_comm]
    exact ih (copied.up below)

theorem copyWordsDown_copied (above : src ≤ dst) {left i : Nat} (fits : 8 * (i + left) ≤ l)
    (copied : Copied m₀ dst src (l - 8 * i) l m) :
    Copied m₀ dst src (l - 8 * (i + left)) l (copyWordsDown (dst + l) (src + l) left i m) := by
  induction left generalizing i m with
  | zero => exact copied
  | succ left ih =>
    rw [copyWordsDown, ← Nat.add_assoc, Nat.add_right_comm]
    refine ih (by omega) ?_
    have step : l - 8 * (i + 1) + 8 = l - 8 * i := by omega
    rw [← step] at copied
    have next := copied.down above (by omega)
    rwa [← Nat.add_sub_assoc (by omega), ← Nat.add_sub_assoc (by omega)] at next

theorem copyBytesDown_copied (above : src ≤ dst) {j : Nat} (fits : j ≤ l) (copied : Copied m₀ dst src j l m) :
    Copied m₀ dst src 0 l (copyBytesDown dst src j m) := by
  induction j generalizing m with
  | zero => exact copied
  | succ j ih => exact ih (by omega) (copied.down above fits)

end Loops

theorem memCpy_copied (m : Mem) (dst src sz : Nat) : Copied m dst src 0 sz (memCpy m dst src sz) := by
  unfold memCpy
  split_ifs with below
  · have words : Copied m dst src 0 (8 * (0 + sz / 8)) (copyWordsUp dst src (sz / 8) 0 m) :=
      copyWordsUp_copied below.le (Copied.none m dst src 0)
    rw [Nat.zero_add, Nat.mul_comm] at words
    have bytes : Copied m dst src 0 (sz / 8 * 8 + (sz - sz / 8 * 8)) _ := copyBytesUp_copied below.le words
    rwa [Nat.add_sub_cancel' (Nat.div_mul_le_self sz 8)] at bytes
  · have above : src ≤ dst := Nat.le_of_not_lt below
    have words : Copied m dst src (sz - 8 * (0 + sz / 8)) sz (copyWordsDown (dst + sz) (src + sz) (sz / 8) 0 m) :=
      copyWordsDown_copied above (by omega) (Copied.none m dst src sz)
    have rest : sz - 8 * (0 + sz / 8) = sz % 8 := by omega
    rw [rest] at words
    exact copyBytesDown_copied above (Nat.mod_le sz 8) words

/-- `mem_cpy` moves the bytes as they were, whatever the ranges have in common, and changes no other byte. -/
theorem memCpy_moves (m : Mem) (dst src sz : Nat) :
    (∀ k < sz, memCpy m dst src sz (dst + k) = m (src + k)) ∧
      ∀ i, i < dst ∨ dst + sz ≤ i → memCpy m dst src sz i = m i := by
  have copied := memCpy_copied m dst src sz
  constructor
  · intro k small
    rw [copied.at, if_pos (by omega)]
    congr 1
    omega
  · intro i outside
    rw [copied.at, if_neg (by omega)]

/-- Ranges that overlap in 7 of 10 bytes, upwards and downwards. -/
example : let m : Mem := fun i => BitVec.ofNat 8 i
    (List.range 10).map (memCpy m 20 23 10 <| 20 + ·) = (List.range 10).map (m <| 23 + ·) ∧
    (List.range 10).map (memCpy m 23 20 10 <| 23 + ·) = (List.range 10).map (m <| 20 + ·) := by decide +kernel

end PreTeO.Common
