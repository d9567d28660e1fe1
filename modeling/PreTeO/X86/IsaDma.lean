import Mathlib.Data.BitVec
import PreTeO.Lib.Run
import PreTeO.X86.VmmMap

/-!
# The ISA DMA controller (`arch/x86/dma/isa_dma.cpp`)

`open` gives an 8 bit channel a buffer in low memory when the caller has none, and marks its blocks in a bitmap from
the top bit down. `close` computes the number of blocks again, from the count that the controller is programmed with, and
releases the buffers of callers as well.
-/

namespace PreTeO.X86
set_option autoImplicit false

namespace Dma

def laBase : Nat := 0x1000
def laBlocks : Nat := 54
def laBlockSize : Nat := 512
def maxChannels : Nat := 8

def errorChlock : Int := -1
def errorMemory : Int := -2
def errorChannel : Int := -3

/-! ## The bitmap -/

/-- `nblocks`. -/
def nblocks (bcount : BitVec 32) : Nat :=
  bcount.toNat / laBlockSize + if bcount.toNat % laBlockSize ≠ 0 then 1 else 0

def topBit : BitVec 64 := 0x8000000000000000#64

/-- The local variables of `alloc_labuffer`; all of the bytes stay below 55. -/
structure Scan where
  i : Nat
  mask : BitVec 64
  slice : BitVec 64
  fbit : Nat
  count : Nat

/-- One block in the loop of `alloc_labuffer`. -/
def Scan.next (labmp : BitVec 64) (s : Scan) : Scan :=
  if labmp &&& s.mask = 0#64 then
    ⟨s.i + 1, s.mask >>> 1, s.slice ||| s.mask, if s.fbit = 0xff then s.i else s.fbit, s.count + 1⟩
  else ⟨s.i + 1, s.mask >>> 1, 0#64, 0xff, 0⟩

def Scan.run (labmp : BitVec 64) (n : Nat) : Nat → Scan → Scan
  | 0, s => s
  | left + 1, s => if s.count < n then Scan.run labmp n left (s.next labmp) else s

/-- `alloc_labuffer`: the buffer and the bitmap afterwards. -/
def allocLabuffer (labmp : BitVec 64) (bcount : BitVec 32) : Option (BitVec 64 × BitVec 64) :=
  let s := Scan.run labmp (nblocks bcount) laBlocks ⟨0, topBit, 0#64, 0xff, 0⟩
  if s.fbit ≠ 0xff ∧ s.count = nblocks bcount then
    some (BitVec.ofNat 64 (laBase + s.fbit * laBlockSize), labmp ||| s.slice)
  else none

/-- The loop of `release_labuffer`. -/
def releaseRun : Nat → BitVec 64 → BitVec 64 → BitVec 64
  | 0, _, labmp => labmp
  | n + 1, mask, labmp => releaseRun n (mask >>> 1) (labmp &&& ~~~mask)

/-- The first block of a buffer, as the shift of the mask takes it: six bits of `fblock`. -/
def fblock (buffer : BitVec 64) : Nat := ((buffer - BitVec.ofNat 64 laBase).toNat / laBlockSize) % 256 % 64

/-- `release_labuffer`. Its counter is a byte, so it does not return with more blocks. -/
def releaseLabuffer (labmp buffer : BitVec 64) (bcount : BitVec 32) : Option (BitVec 64) :=
  if nblocks bcount < 256 then some (releaseRun (nblocks bcount) (topBit >>> fblock buffer) labmp) else none

/-! ## The channels -/

/-- `_dma_channel_t`, less the ports. `lent` is no field of the source: the number of bytes that were asked for, while the
channel is open with a buffer of the low memory. -/
structure Channel where
  bcount : BitVec 32
  addr : BitVec 64
  irq : BitVec 8
  isOpen : Bool
  lent : Option (BitVec 32)

/-- `cDMA`: `m_labmp`, `_g_dc_` and `ERROR_CODE`. -/
structure State where
  labmp : BitVec 64
  channels : Nat → Channel
  error : Int

/-- The channels 0 and 4 are open from the start. -/
def State.init : State := ⟨0#64, fun c => ⟨0#32, 0#64, 0xff#8, c = 0 ∨ c = 4, none⟩, 0⟩

def State.setChannel (s : State) (c : Nat) (d : Channel) : State := { s with channels := Function.update s.channels c d }

/-- `open`; `heap` is the physical address that the heap gives to a 16 bit channel, or zero. -/
def State.open (s : State) (c : Nat) (bcount : BitVec 32) (addr : BitVec 64) (irq : BitVec 8) (heap : BitVec 64) :
    Option Nat × State :=
  if c < maxChannels then
    if (s.channels c).isOpen = false then
      let d := { s.channels c with bcount := bcount - 1#32 }
      if addr ≠ 0#64 then
        let a := BitVec.ofNat 32 (kToP addr.toNat)
        if a + bcount < 0x1000000#32 then
          (some c, { s.setChannel c { d with addr := a.setWidth 64, irq, isOpen := true } with error := 0 })
        else (none, s.setChannel c d)
      else if c < 4 then
        match allocLabuffer s.labmp bcount with
        | some (buffer, labmp) =>
          (some c, { s.setChannel c { d with addr := buffer, irq, isOpen := true, lent := some bcount } with
            labmp, error := 0 })
        | none => (none, { s.setChannel c { d with addr := 0#64 } with error := errorMemory })
      else if heap ≠ 0#64 then
        (some c, { s.setChannel c { d with addr := heap, irq, isOpen := true } with error := 0 })
      else (none, { s.setChannel c { d with addr := 0#64 } with error := errorMemory })
    else (none, { s with error := errorChlock })
  else (none, { s with error := errorChannel })

/-- `close`. -/
def State.close (s : State) (c : Nat) : Option State :=
  if c < maxChannels then
    let d := s.channels c
    if d.addr ≠ 0#64 then
      if 4 < c then some (s.setChannel c { d with addr := 0#64, isOpen := false, lent := none })
      else
        (releaseLabuffer s.labmp d.addr d.bcount).map fun labmp =>
          { s.setChannel c { d with addr := 0#64, isOpen := false, lent := none } with labmp }
    else some (s.setChannel c { d with isOpen := false, lent := none })
  else some s

inductive Call where
  | open (c : Nat) (bcount : BitVec 32) (addr : BitVec 64) (irq : BitVec 8) (heap : BitVec 64)
  | close (c : Nat)

def State.step (s : State) : Call → Option (Option Nat × State)
  | .open c bcount addr irq heap => some (s.open c bcount addr irq heap)
  | .close c => (s.close c).map fun s => (none, s)

/-! ## What the loops do -/

theorem topBit_shift (i j : Nat) : (topBit >>> i).getMsbD j = true ↔ j = i ∧ j < 64 := by
  have top : topBit = BitVec.twoPow 64 63 := by decide
  rw [BitVec.getMsbD_ushiftRight, top, BitVec.getMsbD_twoPow]
  simp only [Bool.and_eq_true, decide_eq_true_eq, Bool.not_eq_true', decide_eq_false_iff_not]
  omega

theorem and_topBit {v : BitVec 64} {i : Nat} (small : i < 64) : v &&& topBit >>> i = 0#64 ↔ v.getMsbD i = false := by
  constructor
  · intro zero
    have bit := congrArg (fun w => w.getMsbD i) zero
    have set : (topBit >>> i).getMsbD i = true := (topBit_shift i i).mpr ⟨rfl, small⟩
    simpa [set] using bit
  · intro clear
    refine BitVec.eq_of_getMsbD_eq fun j _ => ?_
    rw [BitVec.getMsbD_and, BitVec.getMsbD_zero, Bool.and_eq_false_iff]
    by_cases here : j = i
    · exact Or.inl (here ▸ clear)
    · refine Or.inr (Bool.eq_false_iff.mpr fun set => here ((topBit_shift i j).mp set).1)

theorem releaseRun_bit {n f j : Nat} {labmp : BitVec 64} :
    (releaseRun n (topBit >>> f) labmp).getMsbD j = true ↔ labmp.getMsbD j = true ∧ ¬ (f ≤ j ∧ j < f + n) := by
  induction n generalizing f labmp with
  | zero =>
    rw [releaseRun]
    exact (and_iff_left (by omega)).symm
  | succ n ih =>
    rw [releaseRun, ← BitVec.shiftRight_add, ih, BitVec.getMsbD_and, BitVec.getMsbD_not, Bool.and_eq_true, and_assoc]
    refine and_congr_right fun set => ?_
    have small : j < 64 := by
      by_contra big
      rw [BitVec.getMsbD_of_ge _ _ (Nat.le_of_not_lt big)] at set
      cases set
    have shifted := topBit_shift f j
    cases bit : (topBit >>> f).getMsbD j with
    | true =>
      have here := shifted.mp bit
      simp
      omega
    | false =>
      have elsewhere : ¬ (j = f ∧ j < 64) := fun here => by rw [shifted.mpr here] at bit; cases bit
      simp [small]
      omega

namespace Scan

/-- The slice is the run of free blocks that ends at the current block. -/
structure Sound (labmp : BitVec 64) (s : Scan) : Prop where
  mask : s.mask = topBit >>> s.i
  inside : s.count ≤ s.i
  first : s.fbit = if s.count = 0 then 0xff else s.i - s.count
  slice : ∀ j, s.slice.getMsbD j = true ↔ s.i - s.count ≤ j ∧ j < s.i
  free : ∀ j, s.slice.getMsbD j = true → labmp.getMsbD j = false

variable {labmp : BitVec 64} {s : Scan}

theorem Sound.start : Sound labmp ⟨0, topBit, 0#64, 0xff, 0⟩ where
  mask := by rw [BitVec.ushiftRight_zero]
  inside := le_rfl
  first := rfl
  slice := fun j => by simp
  free := fun j bit => by simp at bit

theorem Sound.next (sound : Sound labmp s) (small : s.i < 54) : Sound labmp (s.next labmp) := by
  have mask : s.mask >>> 1 = topBit >>> (s.i + 1) := by rw [sound.mask, BitVec.shiftRight_add]
  have first := sound.first
  have inside := sound.inside
  rw [Scan.next, sound.mask]
  split
  · next clear =>
    rw [and_topBit (by omega)] at clear
    have slice : ∀ j, (s.slice ||| topBit >>> s.i).getMsbD j = true ↔ s.i + 1 - (s.count + 1) ≤ j ∧ j < s.i + 1 := by
      intro j
      rw [BitVec.getMsbD_or, Bool.or_eq_true, sound.slice, topBit_shift]
      omega
    refine ⟨sound.mask ▸ mask, Nat.succ_le_succ inside, ?_, slice, ?_⟩
    · show (if s.fbit = 0xff then s.i else s.fbit) = if s.count + 1 = 0 then 0xff else s.i + 1 - (s.count + 1)
      rw [if_neg (Nat.succ_ne_zero _)]
      split <;> split at first <;> omega
    · intro j bit
      rw [BitVec.getMsbD_or, Bool.or_eq_true, topBit_shift] at bit
      rcases bit with bit | ⟨rfl, -⟩
      · exact sound.free j bit
      · exact clear
  · refine ⟨sound.mask ▸ mask, Nat.zero_le _, rfl, fun j => ?_, fun j bit => by simp at bit⟩
    simp only [BitVec.getMsbD_zero, Bool.false_eq_true, false_iff]
    omega

theorem Sound.run (sound : Sound labmp s) {n left : Nat} (small : s.i + left ≤ 54) :
    Sound labmp (Scan.run labmp n left s) ∧ (Scan.run labmp n left s).i ≤ 54 := by
  induction left generalizing s with
  | zero => exact ⟨sound, small⟩
  | succ left ih =>
    rw [Scan.run]
    split
    · have step : (s.next labmp).i = s.i + 1 := by
        rw [Scan.next]
        split <;> rfl
      exact ih (sound.next (by omega)) (by omega)
    · exact ⟨sound, by omega⟩

end Scan

/-- The blocks `f` to `f + n` of the bitmap. -/
def Covers (f n j : Nat) : Prop := f ≤ j ∧ j < f + n

/-- What a buffer of the low memory takes was free. -/
theorem allocLabuffer_spec {labmp labmp' buffer : BitVec 64} {bcount : BitVec 32}
    (taken : allocLabuffer labmp bcount = some (buffer, labmp')) :
    ∃ f, buffer = BitVec.ofNat 64 (laBase + f * laBlockSize) ∧ f + nblocks bcount ≤ 54 ∧ 0 < nblocks bcount ∧
      (∀ j, labmp'.getMsbD j = true ↔ labmp.getMsbD j = true ∨ Covers f (nblocks bcount) j) ∧
      ∀ j, Covers f (nblocks bcount) j → labmp.getMsbD j = false := by
  have start : Scan.Sound labmp ⟨0, topBit, 0#64, 0xff, 0⟩ := Scan.Sound.start
  have bound : (⟨0, topBit, 0#64, 0xff, 0⟩ : Scan).i + laBlocks ≤ 54 := le_rfl
  rw [allocLabuffer] at taken
  obtain ⟨sound, small⟩ : Scan.Sound labmp (Scan.run labmp (nblocks bcount) laBlocks ⟨0, topBit, 0#64, 0xff, 0⟩) ∧ _ :=
    start.run bound
  generalize Scan.run labmp (nblocks bcount) laBlocks ⟨0, topBit, 0#64, 0xff, 0⟩ = s at taken sound small
  split at taken
  · next found =>
    obtain ⟨rfl, rfl⟩ := Prod.mk.inj (Option.some.inj taken)
    obtain ⟨some_block, all⟩ := found
    have first := sound.first
    have inside := sound.inside
    have covers : ∀ j, Covers s.fbit (nblocks bcount) j ↔ s.slice.getMsbD j = true := by
      intro j
      rw [sound.slice, Covers]
      split at first <;> omega
    refine ⟨s.fbit, rfl, ?_, ?_, fun j => ?_, fun j mem => sound.free j ((covers j).mp mem)⟩
    · split at first <;> omega
    · split at first <;> omega
    · rw [BitVec.getMsbD_or, Bool.or_eq_true, covers]
  · cases taken

/-- Releasing a buffer that begins at a block. -/
theorem releaseLabuffer_block {labmp : BitVec 64} {f : Nat} {bcount : BitVec 32} (small : f < 54)
    (short : nblocks bcount < 256) :
    releaseLabuffer labmp (BitVec.ofNat 64 (laBase + f * laBlockSize)) bcount =
      some (releaseRun (nblocks bcount) (topBit >>> f) labmp) := by
  have first : fblock (BitVec.ofNat 64 (laBase + f * laBlockSize)) = f := by
    have diff : (BitVec.ofNat 64 (laBase + f * laBlockSize) - BitVec.ofNat 64 laBase).toNat = f * 512 := by
      rw [BitVec.toNat_sub, BitVec.toNat_ofNat, BitVec.toNat_ofNat, laBase, laBlockSize]
      omega
    rw [fblock, diff, laBlockSize]
    omega
  rw [releaseLabuffer, if_pos short, first]

/-- One byte less takes as many blocks, except when that byte is alone in its block. -/
theorem nblocks_pred {n : BitVec 32} (asked : n ≠ 0#32) :
    nblocks (n - 1#32) = if n.toNat % 512 = 1 then nblocks n - 1 else nblocks n := by
  have pos : n.toNat ≠ 0 := fun zero => asked (BitVec.eq_of_toNat_eq zero)
  have pred : (n - 1#32).toNat = n.toNat - 1 := by
    bv_omega
  unfold nblocks laBlockSize
  rw [pred]
  split <;> split <;> split <;> omega

theorem nblocks_ne_zero {n : BitVec 32} (asked : n ≠ 0#32) : nblocks n ≠ 0 := by
  have pos : n.toNat ≠ 0 := fun zero => asked (BitVec.eq_of_toNat_eq zero)
  unfold nblocks laBlockSize
  split <;> omega

/-! ## What the bitmap says -/

/-- The bytes of a buffer of the low memory. -/
def Channel.Lends (d : Channel) (a : Nat) : Prop :=
  ∃ n, d.lent = some n ∧ d.isOpen = true ∧ d.addr.toNat ≤ a ∧ a < d.addr.toNat + n.toNat

/-- The blocks of such a buffer: those that hold a byte of it. -/
def Channel.Takes (d : Channel) (j : Nat) : Prop :=
  ∃ a, d.Lends a ∧ laBase + j * laBlockSize ≤ a ∧ a < laBase + (j + 1) * laBlockSize

/-- The bitmap has set the blocks of the buffers that open channels were given, which are disjoint and inside the low
memory. -/
structure Consistent (s : State) : Prop where
  bitmap : ∀ j, s.labmp.getMsbD j = true ↔ ∃ c, (s.channels c).Takes j
  disjoint : ∀ c c' a, (s.channels c).Lends a → (s.channels c').Lends a → c = c'
  inside : ∀ c a, (s.channels c).Lends a → laBase ≤ a ∧ a < laBase + laBlocks * laBlockSize

/-- A call returns, leaves the bitmap as it should be, and gives back the blocks of the channel that it closes and no
others. -/
def Balanced (s : State) (call : Call) : Prop :=
  ∃ r s', s.step call = some (r, s') ∧ Consistent s' ∧
    ∀ c, call = .close c → ∀ j, s'.labmp.getMsbD j = true ↔ s.labmp.getMsbD j = true ∧ ¬ (s.channels c).Takes j

/-- What makes the count of `close` the right one: a buffer of the low memory does not end with one byte in its last
block, and the blocks that the buffer of a caller would have there are fewer than 256 and free. -/
def Releasable (s : State) (call : Call) : Prop :=
  ∀ c, call = .close c → c ≤ 4 →
    match (s.channels c).lent with
    | some n => n.toNat % 512 ≠ 1
    | none => (s.channels c).addr ≠ 0#64 → nblocks (s.channels c).bcount < 256 ∧
        ∀ j, Covers (fblock (s.channels c).addr) (nblocks (s.channels c).bcount) j → s.labmp.getMsbD j = false

/-- A buffer of the low memory that was given to a channel. -/
structure Channel.Given (d : Channel) (n : BitVec 32) (f : Nat) : Prop where
  asked : n ≠ 0#32
  opened : d.isOpen = true
  bcount : d.bcount = n - 1#32
  addr : d.addr = BitVec.ofNat 64 (laBase + f * laBlockSize)
  inside : f + nblocks n ≤ 54

theorem Channel.Given.lends {d : Channel} {n : BitVec 32} {f : Nat} (given : d.Given n f)
    (lent : d.lent = some n) (a : Nat) :
    d.Lends a ↔ laBase + f * laBlockSize ≤ a ∧ a < laBase + f * laBlockSize + n.toNat := by
  have inside := given.inside
  have addr : d.addr.toNat = laBase + f * laBlockSize := by
    rw [given.addr, BitVec.toNat_ofNat]
    unfold laBase laBlockSize
    omega
  rw [← addr]
  constructor
  · rintro ⟨n', lent', -, lower, upper⟩
    obtain rfl := Option.some.inj (lent.symm.trans lent')
    exact ⟨lower, upper⟩
  · rintro ⟨lower, upper⟩
    exact ⟨n, lent, given.opened, lower, upper⟩

theorem Channel.Given.takes {d : Channel} {n : BitVec 32} {f : Nat} (given : d.Given n f)
    (lent : d.lent = some n) (j : Nat) :
    d.Takes j ↔ Covers f (nblocks n) j := by
  have pos : n.toNat ≠ 0 := fun zero => given.asked (BitVec.eq_of_toNat_eq zero)
  have blocks : nblocks n = n.toNat / 512 + if n.toNat % 512 ≠ 0 then 1 else 0 := rfl
  unfold Channel.Takes
  simp only [given.lends lent, Covers, laBase, laBlockSize]
  constructor
  · rintro ⟨a, ⟨lower, upper⟩, from_block, to_block⟩
    split at blocks <;> omega
  · rintro ⟨lower, upper⟩
    refine ⟨0x1000 + j * 512, ⟨by omega, ?_⟩, le_rfl, by omega⟩
    split at blocks <;> omega

theorem Channel.not_takes {d : Channel} (unlent : d.lent = none) (j : Nat) : ¬ d.Takes j := by
  rintro ⟨a, ⟨n, lent, -⟩, -⟩
  rw [unlent] at lent
  cases lent

/-- What holds in every state that calls reach, as long as each closed channel gives back what it was given. -/
structure Sound (s : State) : Prop where
  given : ∀ c n, (s.channels c).lent = some n → c < 4 ∧ ∃ f, (s.channels c).Given n f
  closed : ∀ c, (s.channels c).isOpen = false → (s.channels c).addr = 0#64 ∧ (s.channels c).lent = none
  bitmap : ∀ j, s.labmp.getMsbD j = true ↔ ∃ c, (s.channels c).Takes j
  apart : ∀ c c' j, (s.channels c).Takes j → (s.channels c').Takes j → c = c'

namespace Sound
variable {s : State} {c : Nat}

theorem init : Sound State.init where
  given := fun _ _ lent => by cases lent
  closed := fun _ _ => ⟨rfl, rfl⟩
  bitmap := fun j => by
    refine iff_of_false (by simp [State.init]) ?_
    rintro ⟨c, takes⟩
    exact Channel.not_takes rfl j takes
  apart := fun _ _ j takes _ => absurd takes (Channel.not_takes rfl j)

theorem consistent (sound : Sound s) : Consistent s where
  bitmap := sound.bitmap
  inside := by
    intro c a lends
    have ⟨n, lent, _⟩ := lends
    obtain ⟨-, f, given⟩ := sound.given c n lent
    obtain ⟨lower, upper⟩ := (given.lends lent a).mp lends
    have inside := given.inside
    have size : n.toNat ≤ nblocks n * 512 := by
      unfold nblocks laBlockSize
      split <;> omega
    unfold laBase laBlocks laBlockSize at *
    omega
  disjoint := by
    intro c c' a lends lends'
    have block : ∀ d : Channel, d.Lends a → laBase ≤ a → d.Takes ((a - laBase) / laBlockSize) := by
      intro d lends lower
      refine ⟨a, lends, ?_, ?_⟩ <;> unfold laBase laBlockSize at * <;> omega
    have lower : laBase ≤ a := by
      have ⟨n, lent, _⟩ := lends
      obtain ⟨-, f, given⟩ := sound.given c n lent
      have := ((given.lends lent a).mp lends).1
      omega
    exact sound.apart c c' _ (block _ lends lower) (block _ lends' lower)

/-- One channel changes, to one that has its blocks or none. -/
theorem update_given (sound : Sound s) {d : Channel} (new : ∀ n, d.lent = some n → c < 4 ∧ ∃ f, d.Given n f) :
    ∀ c' n, (Function.update s.channels c d c').lent = some n →
      c' < 4 ∧ ∃ f, (Function.update s.channels c d c').Given n f := by
  intro c' n lent
  by_cases same : c' = c
  · subst same
    simp only [Function.update_self] at lent ⊢
    exact new n lent
  · simp only [Function.update_of_ne same] at lent ⊢
    exact sound.given c' n lent

/-- One channel changes, to one that is open or has no buffer. -/
theorem update_closed (sound : Sound s) {d : Channel} (new : d.isOpen = false → d.addr = 0#64 ∧ d.lent = none) :
    ∀ c', (Function.update s.channels c d c').isOpen = false →
      (Function.update s.channels c d c').addr = 0#64 ∧ (Function.update s.channels c d c').lent = none := by
  intro c' notOpen
  by_cases same : c' = c
  · subst same
    simp only [Function.update_self] at notOpen ⊢
    exact new notOpen
  · simp only [Function.update_of_ne same] at notOpen ⊢
    exact sound.closed c' notOpen

/-- The bitmap and one channel without a buffer of the low memory change: the channel gives back its blocks. -/
theorem change (sound : Sound s) {d : Channel} {labmp : BitVec 64} {error : Int} (unlent : d.lent = none)
    (shut : d.isOpen = false → d.addr = 0#64)
    (bits : ∀ j, labmp.getMsbD j = true ↔ s.labmp.getMsbD j = true ∧ ¬ (s.channels c).Takes j) :
    Sound ⟨labmp, Function.update s.channels c d, error⟩ := by
  have takes : ∀ c' j, (Function.update s.channels c d c').Takes j ↔ c' ≠ c ∧ (s.channels c').Takes j := by
    intro c' j
    by_cases same : c' = c
    · subst same
      rw [Function.update_self]
      exact iff_of_false (Channel.not_takes unlent j) (fun both => both.1 rfl)
    · rw [Function.update_of_ne same, and_iff_right same]
  refine ⟨sound.update_given ?_, sound.update_closed fun notOpen => ⟨shut notOpen, unlent⟩, fun j => ?_, ?_⟩
  · intro n lent
    rw [unlent] at lent
    cases lent
  · simp only [bits, sound.bitmap, takes]
    constructor
    · rintro ⟨⟨c', taken⟩, other⟩
      refine ⟨c', ?_, taken⟩
      rintro rfl
      exact other taken
    · rintro ⟨c', other, taken⟩
      exact ⟨⟨c', taken⟩, fun mine => other (sound.apart c' c j taken mine)⟩
  · intro c₁ c₂ j taken taken'
    exact sound.apart c₁ c₂ j ((takes c₁ j).mp taken).2 ((takes c₂ j).mp taken').2

/-- A channel that is not open is given a buffer of the low memory. -/
theorem lend (sound : Sound s) {d : Channel} {labmp : BitVec 64} {error : Int} {n : BitVec 32} {f : Nat} (low : c < 4)
    (shut : (s.channels c).isOpen = false) (lent : d.lent = some n) (given : d.Given n f)
    (bits : ∀ j, labmp.getMsbD j = true ↔ s.labmp.getMsbD j = true ∨ Covers f (nblocks n) j)
    (free : ∀ j, Covers f (nblocks n) j → s.labmp.getMsbD j = false) :
    Sound ⟨labmp, Function.update s.channels c d, error⟩ := by
  have before : ∀ j, ¬ (s.channels c).Takes j := Channel.not_takes (sound.closed c shut).2
  have takes : ∀ c' j, (Function.update s.channels c d c').Takes j ↔
      c' = c ∧ Covers f (nblocks n) j ∨ (s.channels c').Takes j := by
    intro c' j
    by_cases same : c' = c
    · subst same
      rw [Function.update_self, given.takes lent]
      exact ⟨fun covers => Or.inl ⟨rfl, covers⟩, fun h => h.elim And.right fun taken => absurd taken (before j)⟩
    · rw [Function.update_of_ne same]
      exact ⟨Or.inr, fun h => h.elim (fun here => absurd here.1 same) id⟩
  have unused : ∀ c' j, Covers f (nblocks n) j → ¬ (s.channels c').Takes j := by
    intro c' j covers taken
    exact absurd (((sound.bitmap j).mpr ⟨c', taken⟩).symm.trans (free j covers)) (by decide)
  refine ⟨sound.update_given ?_, sound.update_closed ?_, fun j => ?_, ?_⟩
  · intro n' lent'
    obtain rfl := Option.some.inj (lent.symm.trans lent')
    exact ⟨low, f, given⟩
  · intro notOpen
    exact absurd (notOpen.symm.trans given.opened) (by decide)
  · simp only [bits, sound.bitmap, takes]
    constructor
    · rintro (⟨c', taken⟩ | covers)
      · exact ⟨c', Or.inr taken⟩
      · exact ⟨c, Or.inl ⟨rfl, covers⟩⟩
    · rintro ⟨c', ⟨-, covers⟩ | taken⟩
      · exact Or.inr covers
      · exact Or.inl ⟨c', taken⟩
  · intro c₁ c₂ j taken taken'
    rcases (takes c₁ j).mp taken with ⟨first, covers⟩ | taken <;>
      rcases (takes c₂ j).mp taken' with ⟨second, covers'⟩ | taken'
    · exact first.trans second.symm
    · exact absurd taken' (unused c₂ j covers)
    · exact absurd taken (unused c₁ j covers')
    · exact sound.apart c₁ c₂ j taken taken'

theorem failed (sound : Sound s) (error : Int) : Sound { s with error } :=
  ⟨sound.given, sound.closed, sound.bitmap, sound.apart⟩

theorem opened (sound : Sound s) (bcount : BitVec 32) (addr : BitVec 64) (irq : BitVec 8) (heap : BitVec 64) :
    Sound (s.open c bcount addr irq heap).2 := by
  rw [State.open]
  split
  · split
    · next shut =>
      obtain ⟨-, unlent⟩ := sound.closed c shut
      have same : ∀ j, s.labmp.getMsbD j = true ↔ s.labmp.getMsbD j = true ∧ ¬ (s.channels c).Takes j :=
        fun j => (and_iff_left (Channel.not_takes unlent j)).symm
      simp only
      split
      · split
        · exact sound.change unlent (fun notOpen => by cases notOpen) same
        · exact sound.change unlent (fun _ => (sound.closed c shut).1) same
      · split
        · next low =>
          split
          · next buffer labmp taken =>
            obtain ⟨f, rfl, inside, some_block, bits, free⟩ := allocLabuffer_spec taken
            have asked : bcount ≠ 0#32 := by
              rintro rfl
              exact absurd some_block (by decide)
            exact sound.lend low shut rfl ⟨asked, rfl, rfl, rfl, inside⟩ bits free
          · exact sound.change unlent (fun _ => rfl) same
        · split
          · exact sound.change unlent (fun notOpen => by cases notOpen) same
          · exact sound.change unlent (fun _ => rfl) same
    · exact sound.failed errorChlock
  · exact sound.failed errorChannel

/-- A channel that `close` releases no blocks of. -/
theorem unlent_of_idle (sound : Sound s) (idle : 4 < c ∨ (s.channels c).addr = 0#64) : (s.channels c).lent = none := by
  cases lent : (s.channels c).lent with
  | none => rfl
  | some n =>
    obtain ⟨low, f, given⟩ := sound.given c n lent
    have inside := given.inside
    rcases idle with high | zero
    · omega
    · have address := congrArg BitVec.toNat (given.addr.symm.trans zero)
      rw [BitVec.toNat_ofNat, laBase, laBlockSize, BitVec.toNat_ofNat] at address
      omega

theorem close_idle (sound : Sound s) (idle : 4 < c ∨ (s.channels c).addr = 0#64) :
    ∃ s', s.close c = some s' ∧ Sound s' ∧ s'.labmp = s.labmp := by
  have unlent := sound.unlent_of_idle idle
  have same : ∀ j, s.labmp.getMsbD j = true ↔ s.labmp.getMsbD j = true ∧ ¬ (s.channels c).Takes j :=
    fun j => (and_iff_left (Channel.not_takes unlent j)).symm
  rw [State.close]
  split
  · simp only
    split
    · next used =>
      rw [if_pos (idle.resolve_right used)]
      exact ⟨_, rfl, sound.change rfl (fun _ => rfl) same, rfl⟩
    · next zero => exact ⟨_, rfl, sound.change rfl (fun _ => not_not.mp zero) same, rfl⟩
  · exact ⟨s, rfl, sound, rfl⟩

theorem close_release (low : c ≤ 4) (used : (s.channels c).addr ≠ 0#64) :
    s.close c = (releaseLabuffer s.labmp (s.channels c).addr (s.channels c).bcount).map fun labmp =>
      { s.setChannel c { s.channels c with addr := 0#64, isOpen := false, lent := none } with labmp } := by
  have small : c < maxChannels := by
    unfold maxChannels
    omega
  rw [State.close, if_pos small]
  simp only
  rw [if_pos used, if_neg (Nat.not_lt_of_le low)]

/-- What the release of a buffer of the low memory clears. -/
theorem release_given (sound : Sound s) {n : BitVec 32} (lent : (s.channels c).lent = some n) :
    ∃ f labmp, (s.channels c).Given n f ∧
      releaseLabuffer s.labmp (s.channels c).addr (s.channels c).bcount = some labmp ∧
      ∀ j, labmp.getMsbD j = true ↔ s.labmp.getMsbD j = true ∧ ¬ Covers f (nblocks (n - 1#32)) j := by
  obtain ⟨low, f, given⟩ := sound.given c n lent
  have inside := given.inside
  have some_block : nblocks n ≠ 0 := nblocks_ne_zero given.asked
  have fewer : nblocks (n - 1#32) ≤ nblocks n := by
    rw [nblocks_pred given.asked]
    split <;> omega
  refine ⟨f, _, given, ?_, fun j => releaseRun_bit⟩
  rw [given.addr, given.bcount]
  exact releaseLabuffer_block (by omega) (by omega)

theorem close_good (sound : Sound s) (fits : Releasable s (.close c)) :
    ∃ s', s.close c = some s' ∧ Sound s' ∧
      ∀ j, s'.labmp.getMsbD j = true ↔ s.labmp.getMsbD j = true ∧ ¬ (s.channels c).Takes j := by
  by_cases idle : 4 < c ∨ (s.channels c).addr = 0#64
  · obtain ⟨s', closed, after, same⟩ := sound.close_idle idle
    refine ⟨s', closed, after, fun j => ?_⟩
    rw [same]
    exact (and_iff_left (Channel.not_takes (sound.unlent_of_idle idle) j)).symm
  · obtain ⟨low, used⟩ := not_or.mp idle
    have low : c ≤ 4 := Nat.le_of_not_lt low
    have here := fits c rfl low
    have released : ∃ labmp, releaseLabuffer s.labmp (s.channels c).addr (s.channels c).bcount = some labmp ∧
        ∀ j, labmp.getMsbD j = true ↔ s.labmp.getMsbD j = true ∧ ¬ (s.channels c).Takes j := by
      cases lent : (s.channels c).lent with
      | some n =>
        rw [lent] at here
        obtain ⟨f, labmp, given, released, bits⟩ := sound.release_given lent
        refine ⟨labmp, released, fun j => ?_⟩
        rw [bits, given.takes lent, nblocks_pred given.asked, if_neg here]
      | none =>
        rw [lent] at here
        obtain ⟨short, free⟩ := here used
        refine ⟨_, if_pos short, fun j => releaseRun_bit.trans (and_congr_right fun set => ?_)⟩
        refine iff_of_true (fun covers => ?_) (Channel.not_takes lent j)
        exact absurd (set.symm.trans (free j covers)) (by decide)
    obtain ⟨labmp, released, bits⟩ := released
    refine ⟨_, (close_release low used).trans (congrArg _ released), ?_, bits⟩
    exact sound.change rfl (fun _ => rfl) bits

theorem releasable_of_balanced (sound : Sound s) (balanced : Balanced s (.close c)) : Releasable s (.close c) := by
  obtain ⟨r, s', moved, -, back⟩ := balanced
  rintro _ ⟨⟩ low
  have back := back c rfl
  have labmp_eq : ∀ labmp, releaseLabuffer s.labmp (s.channels c).addr (s.channels c).bcount = some labmp →
      (s.channels c).addr ≠ 0#64 → s'.labmp = labmp := by
    intro labmp released used
    rw [State.step, close_release low used, released] at moved
    obtain ⟨-, rfl⟩ := Prod.mk.inj (Option.some.inj moved)
    rfl
  cases lent : (s.channels c).lent with
  | some n =>
    obtain ⟨f, labmp, given, released, bits⟩ := sound.release_given lent
    have used : (s.channels c).addr ≠ 0#64 := fun zero => by
      rw [sound.unlent_of_idle (Or.inr zero)] at lent
      cases lent
    -- the block that the count of `close` leaves out
    intro alone
    have blocks : nblocks (n - 1#32) = nblocks n - 1 := by rw [nblocks_pred given.asked, if_pos alone]
    have some_block : nblocks n ≠ 0 := nblocks_ne_zero given.asked
    have taken : (s.channels c).Takes (f + nblocks n - 1) := by
      rw [given.takes lent, Covers]
      omega
    have left : s'.labmp.getMsbD (f + nblocks n - 1) = true := by
      rw [labmp_eq labmp released used, bits, blocks, Covers]
      exact ⟨(sound.bitmap _).mpr ⟨c, taken⟩, by omega⟩
    exact ((back _).mp left).2 taken
  | none =>
    intro used
    by_cases short : nblocks (s.channels c).bcount < 256
    · refine ⟨short, fun j covers => ?_⟩
      by_contra set
      have set : s.labmp.getMsbD j = true := by simpa using set
      have kept : s'.labmp.getMsbD j = true := (back j).mpr ⟨set, Channel.not_takes lent j⟩
      rw [labmp_eq _ (if_pos short) used, releaseRun_bit] at kept
      exact kept.2 covers
    · rw [State.step, close_release low used, releaseLabuffer, if_neg short] at moved
      cases moved

theorem balanced_iff (sound : Sound s) (call : Call) : Balanced s call ↔ Releasable s call := by
  cases call with
  | «open» c bcount addr irq heap =>
    refine iff_of_true ⟨_, _, rfl, (sound.opened bcount addr irq heap).consistent, ?_⟩ ?_ <;> rintro _ ⟨⟩
  | close c =>
    refine ⟨sound.releasable_of_balanced, fun fits => ?_⟩
    obtain ⟨s', closed, after, bits⟩ := sound.close_good fits
    refine ⟨none, s', by rw [State.step, closed]; rfl, after.consistent, ?_⟩
    rintro _ ⟨⟩
    exact bits

theorem step {call : Call} {r : Option Nat} {s' : State} (sound : Sound s) (fits : Releasable s call)
    (moved : s.step call = some (r, s')) : Sound s' := by
  cases call with
  | «open» c bcount addr irq heap =>
    obtain rfl := congrArg Prod.snd (Option.some.inj moved)
    exact sound.opened bcount addr irq heap
  | close c =>
    obtain ⟨t, closed, after, -⟩ := sound.close_good fits
    rw [State.step, closed] at moved
    obtain ⟨-, rfl⟩ := Prod.mk.inj (Option.some.inj moved)
    exact after

theorem allowed_iff (sound : Sound s) (calls : List Call) :
    Lib.Allowed State.step Balanced s calls ↔ Lib.Allowed State.step Releasable s calls :=
  Lib.Allowed.congr_of_invariant (fun _ call sound => sound.balanced_iff call)
    (fun _ _ _ _ sound fits moved => sound.step fits moved) sound calls

end Sound

/-- In every sequence of calls: each call leaves the bitmap with the blocks of the buffers that open channels were given,
which are disjoint and inside the low memory, and each `close` returns and gives back the blocks of its channel and no
others, if and only if each `close` finds a channel whose count it gets right. -/
theorem low_memory_iff (calls : List Call) :
    Lib.Allowed State.step Balanced State.init calls ↔ Lib.Allowed State.step Releasable State.init calls :=
  Sound.init.allowed_iff calls

/-- A buffer of 513 bytes takes two blocks and gives one back. -/
theorem block_not_released :
    ¬ ∀ calls : List Call, (∀ c bcount addr irq heap, .open c bcount addr irq heap ∈ calls → c < 4 ∧ bcount ≠ 0#32) →
      (∀ c, .close c ∈ calls → c < 4) → Lib.Allowed State.step Balanced State.init calls := by
  intro all
  have channels : ∀ c bcount addr irq heap, Call.open c bcount addr irq heap ∈ [.open 1 513#32 0#64 0xff#8 0#64, .close 1] →
      c < 4 ∧ bcount ≠ 0#32 := by
    intro c bcount addr irq heap mem
    rcases List.mem_cons.mp mem with same | mem
    · obtain ⟨rfl, rfl, -⟩ := Call.open.inj same
      decide
    · cases List.mem_singleton.mp mem
  have run := all _ channels (by simp)
  have after := Sound.init.opened (c := 1) 513#32 0#64 0xff#8 0#64
  have counted : (513#32).toNat % 512 ≠ 1 := after.releasable_of_balanced (run.2 _ _ rfl).1 1 rfl (by decide)
  exact counted rfl

end Dma
end PreTeO.X86
