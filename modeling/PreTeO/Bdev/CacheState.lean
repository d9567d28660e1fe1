import PreTeO.Bdev.Cache

/-!
# Chunk fields and packed block states

What the header setters and the packed-state functions do, seen through the fields: the head of a
header (`bstart`, `cstate`, `bcount`) is its first twelve bytes, and the state of the block at an
offset is one pair of bits. `set_bstate` writes the pairs it should. `get_bstate` reads the pair of
the first block of the byte, whichever block is asked for.
-/

namespace PreTeO.Bdev
set_option autoImplicit false
open PreTeO.Lib

/-! ## The head of a header -/

/-- The memories agree on the first twelve bytes of the header at `p`. -/
def HeadSame (s s' : Cache) (p : Nat) : Prop := ∀ i, p ≤ i → i < p + 12 → s'.mem i = s.mem i

section Head

variable {s s' : Cache} {p : Nat}

theorem HeadSame.bstart (h : HeadSame s s' p) : s'.bstart p = s.bstart p :=
  Mem.load_congr fun i low high => h i low (by omega)

theorem HeadSame.word (h : HeadSame s s' p) : s'.mem.load (p + 8) 4 = s.mem.load (p + 8) 4 :=
  Mem.load_congr fun i low high => h i (by omega) (by omega)

theorem HeadSame.cstate (h : HeadSame s s' p) : s'.cstate p = s.cstate p := by
  rw [Cache.cstate, h.word, Cache.cstate]

theorem HeadSame.bcount (h : HeadSame s s' p) : s'.bcount p = s.bcount p := by
  rw [Cache.bcount, h.word, Cache.bcount]

theorem bcount_lt (s : Cache) (p : Nat) : s.bcount p < 2 ^ 30 := by
  have := Mem.load_lt s.mem (p + 8) 4
  simp only [Cache.bcount]
  omega

theorem stamp_out (i : Nat) (out : i < p + 12 ∨ p + 20 ≤ i) : (s.stamp p).mem i = s.mem i :=
  Mem.store_out (by omega)

theorem setBstart_bstart {v : Nat} (small : v < 2 ^ 64) : (s.setBstart p v).bstart p = v :=
  Mem.load_store_of_lt (by simpa using small)

theorem setBstart_out {v : Nat} (i : Nat) (out : i < p ∨ p + 8 ≤ i) :
    (s.setBstart p v).mem i = s.mem i :=
  Mem.store_out out

theorem setBstart_word {v : Nat} :
    (s.setBstart p v).mem.load (p + 8) 4 = s.mem.load (p + 8) 4 :=
  Mem.load_store_out (Or.inr (le_refl _))

theorem setWord_out {state : BitVec 2} {count : Nat} (i : Nat) (out : i < p + 8 ∨ p + 12 ≤ i) :
    (s.setWord p state count).mem i = s.mem i :=
  Mem.store_out (by omega)

theorem setWord_bstart {state : BitVec 2} {count : Nat} :
    (s.setWord p state count).bstart p = s.bstart p :=
  Mem.load_store_out (Or.inl (le_refl _))

theorem setWord_load {state : BitVec 2} {count : Nat} :
    (s.setWord p state count).mem.load (p + 8) 4 = state.toNat + 4 * (count % 2 ^ 30) := by
  apply Mem.load_store_of_lt
  have := state.isLt
  have := Nat.mod_lt count (show 0 < 2 ^ 30 by decide)
  omega

theorem setWord_cstate {state : BitVec 2} {count : Nat} :
    (s.setWord p state count).cstate p = state := by
  rw [Cache.cstate, setWord_load]
  apply BitVec.eq_of_toNat_eq
  have := state.isLt
  simp only [BitVec.toNat_ofNat]
  omega

theorem setWord_bcount {state : BitVec 2} {count : Nat} (small : count < 2 ^ 30) :
    (s.setWord p state count).bcount p = count := by
  rw [Cache.bcount, setWord_load]
  have := state.isLt
  omega

/-- Writing back the bit fields that are there changes nothing. -/
theorem setWord_self (s : Cache) (p : Nat) : s.setWord p (s.cstate p) (s.bcount p) = s := by
  have low : (s.cstate p).toNat = s.mem.load (p + 8) 4 % 4 := by
    simp [Cache.cstate]
  have small := bcount_lt s p
  have word : (s.cstate p).toNat + 4 * (s.bcount p % 2 ^ 30) = s.mem.load (p + 8) 4 := by
    rw [low, Nat.mod_eq_of_lt small, Cache.bcount]
    omega
  rw [Cache.setWord, word, Mem.store_load]

end Head

/-! ## Packed block states -/

/-- The state pair of the block at offset `o`: dirty bit above present bit. -/
def pairOf (byte : Byte) (o : Nat) : BitVec 2 := (byte >>> (6 - 2 * (o % 4))).setWidth 2

/-- The state pair of the block at offset `o` of the chunk at `p`. -/
def Cache.pair (s : Cache) (p o : Nat) : BitVec 2 := pairOf (s.mem (getBstatePtr p + o / 4)) o

theorem mask_twoPow {r : Nat} (hr : r < 4) :
    0x80#8 >>> (r * 2) = BitVec.twoPow 8 (7 - 2 * r) ∧
      0x80#8 >>> (r * 2) >>> 1 = BitVec.twoPow 8 (6 - 2 * r) := by
  revert r
  decide

/-- One bit of a byte is set or cleared. -/
theorem setBit_getLsbD (byte : Byte) (c : Prop) [Decidable c] {k j : Nat} (hj : j < 8) :
    (if c then byte ||| BitVec.twoPow 8 k else byte &&& ~~~BitVec.twoPow 8 k).getLsbD j =
      if j = k then decide c else byte.getLsbD j := by
  by_cases same : j = k
  · rw [if_pos same, same]
    split <;> simp [same ▸ hj, *]
  · rw [if_neg same]
    split <;> simp [hj, same]

/-- The bits of the byte after one round of `set_bstate`. -/
theorem putState_getLsbD (byte : Byte) (o : Nat) (mask : BitVec 2) {j : Nat} (hj : j < 8) :
    (putState byte o mask).getLsbD j =
      if j = 7 - 2 * (o % 4) then mask.getLsbD 1 else if j = 6 - 2 * (o % 4) then mask.getLsbD 0
      else byte.getLsbD j := by
  obtain ⟨high, low⟩ := mask_twoPow (Nat.mod_lt o (show 0 < 4 by decide))
  have ho := Nat.mod_lt o (show 0 < 4 by decide)
  have dirty : ∀ m : BitVec 2, decide (m &&& cbstateDirty ≠ 0#2) = m.getLsbD 1 := by decide
  have present : ∀ m : BitVec 2, decide (m &&& cbstatePresent ≠ 0#2) = m.getLsbD 0 := by decide
  unfold putState
  dsimp only
  rw [low, high, setBit_getLsbD _ _ hj, setBit_getLsbD _ _ hj, dirty, present]
  by_cases h1 : j = 7 - 2 * (o % 4)
  · rw [if_pos h1, if_pos h1, if_neg (by omega)]
  · rw [if_neg h1, if_neg h1]

theorem pairOf_getLsbD (byte : Byte) (o : Nat) {i : Nat} (hi : i < 2) :
    (pairOf byte o).getLsbD i = byte.getLsbD (6 - 2 * (o % 4) + i) := by
  simp [pairOf, hi]

/-- Writing one pair leaves the other three pairs of the byte alone. -/
theorem pairOf_putState (byte : Byte) (o o' : Nat) (mask : BitVec 2) :
    pairOf (putState byte o mask) o' = if o % 4 = o' % 4 then mask else pairOf byte o' := by
  apply BitVec.eq_of_getLsbD_eq
  intro i hi
  have ho := Nat.mod_lt o (show 0 < 4 by decide)
  have ho' := Nat.mod_lt o' (show 0 < 4 by decide)
  rw [pairOf_getLsbD _ _ hi, putState_getLsbD _ _ _ (by omega)]
  by_cases same : o % 4 = o' % 4
  · rw [if_pos same, ← same]
    obtain rfl | rfl : i = 0 ∨ i = 1 := by omega
    · rw [if_neg (by omega), if_pos (by omega)]
    · rw [if_pos (by omega)]
  · rw [if_neg same, pairOf_getLsbD _ _ hi, if_neg (by omega), if_neg (by omega)]

/-- `get_bstate` returns the pair of the first of the four blocks that share a byte. -/
theorem getBstate_eq {s : Cache} {p o : Nat} (inside : o < s.bcount p) :
    s.getBstate p (s.bstart p + o) = s.pair p (4 * (o / 4)) := by
  have same : ∀ r < 4, (0xc0 >>> (r * 2)) <<< (r * 2) = 0xc0 := by decide
  have first : ∀ byte : Byte, BitVec.ofNat 2 ((byte.toNat &&& 0xc0) >>> 6) = pairOf byte 0 := by
    intro byte
    apply BitVec.eq_of_getLsbD_eq
    intro i hi
    have mask : Nat.testBit 0xc0 (6 + i) = true := by
      revert i
      decide
    rw [pairOf_getLsbD _ _ hi, BitVec.getLsbD_ofNat, Nat.testBit_shiftRight, Nat.testBit_and, mask,
      decide_eq_true hi, Bool.and_true, Bool.true_and]
    rfl
  have small := bcount_lt s p
  have offset : (s.bstart p + o - s.bstart p) % 2 ^ 32 = o := by
    rw [Nat.add_sub_cancel_left]
    exact Nat.mod_eq_of_lt (by omega)
  have bound : s.bstart p ≤ s.bstart p + o ∧ s.bstart p + o < s.bstart p + s.bcount p := by omega
  rw [Cache.getBstate, if_pos bound]
  simp only [offset]
  rw [same _ (Nat.mod_lt _ (by decide)), first, Cache.pair]
  simp [pairOf]

/-- What a range of state pairs set to `mask` leaves behind: the head, the device and everything
outside the touched state bytes are as before. -/
structure Marked (s s' : Cache) (p o count : Nat) (mask : BitVec 2) : Prop where
  geo : s'.geo = s.geo
  dev : s'.dev = s.dev
  pair : ∀ k, s'.pair p k = if o ≤ k ∧ k < o + count then mask else s.pair p k
  outside : ∀ i, i < getBstatePtr p + o / 4 ∨ getBstatePtr p + (o + count + 3) / 4 ≤ i →
    s'.mem i = s.mem i
  log : ∀ a ∈ s'.log, a ∈ s.log ∨
    (a.area = .state ∧ a.chunk = p ∧ getBstatePtr p ≤ a.lo ∧ a.hi ≤ getBstatePtr p + (o + count + 3) / 4)

theorem Marked.head {s s' : Cache} {p o count : Nat} {mask : BitVec 2} (h : Marked s s' p o count mask) :
    HeadSame s s' p := by
  intro i low high
  apply h.outside
  simp only [getBstatePtr, szChunkHdr]
  omega

/-- One round of `set_bstate`. -/
theorem mark_pair (s : Cache) (p o k : Nat) (mask : BitVec 2) :
    (s.mark p o mask).pair p k = if k = o then mask else s.pair p k := by
  simp only [Cache.mark, Cache.touch, Cache.pair]
  by_cases byte : k / 4 = o / 4
  · rw [byte, Function.update_self, pairOf_putState]
    by_cases same : k = o
    · simp [same]
    · rw [if_neg (by omega), if_neg same]
  · have other : getBstatePtr p + k / 4 ≠ getBstatePtr p + o / 4 := by omega
    rw [Function.update_of_ne other, if_neg (by rintro rfl; exact byte rfl)]

theorem mark_out (s : Cache) (p o : Nat) (mask : BitVec 2) {i : Nat}
    (other : i ≠ getBstatePtr p + o / 4) : (s.mark p o mask).mem i = s.mem i :=
  Function.update_of_ne other _ _

theorem setBstateLoop_marked (count : Nat) (s : Cache) (p o : Nat) (mask : BitVec 2)
    (small : o + count ≤ 2 ^ 32) :
    Marked s (s.setBstateLoop p mask (s.bstart p + o) count) p o count mask := by
  induction count generalizing s o with
  | zero =>
    refine ⟨rfl, rfl, fun k => ?_, fun i _ => rfl, fun a h => Or.inl h⟩
    rw [if_neg (by omega)]
    rfl
  | succ count ih =>
    have offset : (s.bstart p + o - s.bstart p) % 2 ^ 32 = o := by
      rw [Nat.add_sub_cancel_left]
      exact Nat.mod_eq_of_lt (by omega)
    simp only [Cache.setBstateLoop, offset]
    have start : (s.mark p o mask).bstart p = s.bstart p := by
      apply HeadSame.bstart
      intro i low high
      apply mark_out
      simp only [getBstatePtr, szChunkHdr]
      omega
    have rest := ih (s.mark p o mask) (o + 1) (by omega)
    rw [start, ← Nat.add_assoc] at rest
    constructor
    · exact rest.geo
    · exact rest.dev
    · intro k
      rw [rest.pair, mark_pair]
      by_cases first : k = o
      · rw [if_neg (by omega), if_pos first, if_pos (by omega)]
      · by_cases later : o + 1 ≤ k ∧ k < o + 1 + count
        · rw [if_pos later, if_pos (by omega)]
        · rw [if_neg later, if_neg first, if_neg (by omega)]
    · intro i outside
      rw [rest.outside i (by omega), mark_out s p o mask (by omega)]
    · intro a member
      rcases rest.log a member with old | ⟨area, chunk, lo, hi⟩
      · rcases List.mem_cons.mp old with rfl | old
        · exact Or.inr ⟨rfl, rfl, by simp, by simp only; omega⟩
        · exact Or.inl old
      · exact Or.inr ⟨area, chunk, lo, by omega⟩

/-- `set_bstate` on a range that starts inside the chunk. -/
theorem setBstate_marked {s : Cache} {p o count : Nat} {mask : BitVec 2} (inside : o < s.bcount p)
    (small : o + count ≤ 2 ^ 32) :
    Marked s (s.setBstate p (s.bstart p + o) count mask) p o count mask := by
  rw [Cache.setBstate, if_pos (by omega)]
  exact setBstateLoop_marked count s p o mask small

theorem setBstate_none (s : Cache) (p b : Nat) (mask : BitVec 2) : s.setBstate p b 0 mask = s := by
  rw [Cache.setBstate]
  split <;> rfl

end PreTeO.Bdev
