import Mathlib.Data.List.Range
import PreTeO.Bdev.IdeChannel

/-!
# The data of an IDE transfer

The data loops of `cIDEChannel::ata_rw_sector` and `cIDEChannel::atapi_read_sector`, with the rest of the latter. Both
count their sectors in a byte, and the sector count has 16 bits.
-/

namespace PreTeO.Bdev
set_option autoImplicit false

/-- The controller as a data loop sees it: what `polling` answers at each call, and the number of bytes that each access to
a block of some size returns. -/
structure DataPort where
  polling : Nat → Bool
  moved : Nat → Nat → Nat

/-- It always becomes ready, and an access transfers a whole block. -/
structure DataPort.Whole (port : DataPort) (size : Nat) : Prop where
  ready : ∀ call, port.polling call = true
  whole : ∀ access, port.moved access size = size

/-- `cGenericIDEController`: the data port has 32 bits. -/
def genericPort (polling : Nat → Bool) : DataPort := ⟨polling, fun _ size => size / 4 * 4⟩

/-! ## The loop -/

/-- The local variables of a data loop, and the addresses that it gave to the controller. -/
structure Pio where
  i : Nat
  r : Nat
  blocks : List Nat
deriving DecidableEq, Repr

namespace Pio

def start : Pio := ⟨0, 0, []⟩

/-- One round, from the test of the counter to its increment; `polls` counts the calls of `polling` before the loop.
Nothing when the loop is left. -/
def next (port : DataPort) (polls size count buffer : Nat) (s : Pio) : Option Pio :=
  if s.i < count then
    if port.polling (polls + s.blocks.length) then
      some ⟨(s.i + 1) % 256, (s.r + port.moved s.blocks.length size) % 2 ^ 32, s.blocks ++ [buffer + s.r]⟩
    else none
  else none

/-- The state in which the loop is left. -/
def run (port : DataPort) (polls size count buffer : Nat) : Nat → Pio → Option Pio
  | 0, _ => none
  | fuel + 1, s =>
    match s.next port polls size count buffer with
    | some s => run port polls size count buffer fuel s
    | none => some s

/-- The loop is left, after `count` accesses of a block each, one behind the other, and returns their size. -/
def Transfers (size count buffer : Nat) (loop : Nat → Option Pio) : Prop :=
  ∃ fuel s, loop fuel = some s ∧ s.blocks = (List.range count).map (fun k => buffer + k * size) ∧ s.r = count * size

end Pio

namespace IdeChannel

/-- The data loop of `ata_rw_sector`, for both operations. -/
def ataData (c : IdeChannel) (port : DataPort) (ataIdx count buffer fuel : Nat) : Option Pio :=
  Pio.start.run port 0 (c.dev ataIdx).blockSize count buffer fuel

def ataRegFeatures : Nat := 0x01

/-- `irq_on`. -/
def irqOn (c : IdeChannel) : IdeChannel × List PortWrite :=
  ({ c with chInt := c.chInt &&& 0xFD }, ctrlWrite c.chInt ataRegControl (c.chInt &&& 0xFD))

def atapiPacket (lba count : Nat) : List Nat :=
  [0xA8, 0x0, (lba >>> 24) &&& 0xFF, (lba >>> 16) &&& 0xFF, (lba >>> 8) &&& 0xFF, (lba >>> 0) &&& 0xFF, 0x0, 0x0, 0x0,
    count % 256, 0x0, 0x0]

/-- What a packet command does: the writes to registers, the packet when the device takes it, and the data loop, `none`
while it is running. -/
structure AtapiRead where
  channel : IdeChannel
  writes : List PortWrite
  packet : Option (List Nat)
  pio : Option Pio

/-- `atapi_read_sector`. -/
def atapiReadSector (c : IdeChannel) (port : DataPort) (ataIdx lba count buffer fuel : Nat) : AtapiRead :=
  let size := (c.dev ataIdx).blockSize
  let (c, chosen) := c.select .lba48 ataIdx 0
  let (c, on) := c.irqOn
  let out := ctrlWrite c.chInt
  let writes := chosen ++ on ++ out ataRegFeatures 0 ++ out ataRegLba1 (size &&& 0xFF) ++
    out ataRegLba2 (size >>> 8 % 256) ++ out ataRegCommand 0xA0
  if port.polling 0 then
    match Pio.start.run port 1 size count buffer fuel with
    | none => ⟨c, writes, some (atapiPacket lba count), none⟩
    | some s =>
      let (c, off) := c.irqOff
      ⟨c, writes ++ off, some (atapiPacket lba count), some s⟩
  else
    let (c, off) := c.irqOff
    ⟨c, writes ++ off, none, some Pio.start⟩

end IdeChannel

/-! ## How long it runs -/

namespace Pio
variable {port : DataPort} {polls size count buffer : Nat}

/-- The state after some rounds. -/
def after (size buffer k : Nat) : Pio :=
  ⟨k % 256, k * size % 2 ^ 32, (List.range k).map fun j => buffer + j * size % 2 ^ 32⟩

theorem after_zero : after size buffer 0 = start := by
  simp [after, start]

/-- A round on a controller that transfers the block. -/
theorem next_after (whole : port.Whole size) (k : Nat) :
    (after size buffer k).next port polls size count buffer =
      if k % 256 < count then some (after size buffer (k + 1)) else none := by
  rw [next, if_pos (whole.ready _), whole.whole]
  simp only [after, List.range_succ, List.map_append, List.map_cons, List.map_nil, Nat.mod_add_mod, Nat.succ_mul]

/-- A count that a byte reaches. -/
theorem run_after (whole : port.Whole size) (byte : count < 256) {k left : Nat} (split : k + left = count) :
    (after size buffer k).run port polls size count buffer (left + 1) = some (after size buffer count) := by
  induction left generalizing k with
  | zero =>
    obtain rfl : k = count := split
    rw [run, next_after whole, if_neg (by omega)]
  | succ left ih =>
    rw [run, next_after whole, if_pos (by omega)]
    exact ih (by omega)

/-- A byte stays below any other count. -/
theorem run_none (whole : port.Whole size) (long : 256 ≤ count) (k fuel : Nat) :
    (after size buffer k).run port polls size count buffer fuel = none := by
  induction fuel generalizing k with
  | zero => rfl
  | succ fuel ih =>
    rw [run, next_after whole, if_pos (by omega)]
    exact ih (k + 1)

theorem run_unique {fuel fuel' : Nat} {s a b : Pio} (left : s.run port polls size count buffer fuel = some a)
    (left' : s.run port polls size count buffer fuel' = some b) : a = b := by
  induction fuel generalizing fuel' s with
  | zero => cases left
  | succ fuel ih =>
    cases fuel' with
    | zero => cases left'
    | succ fuel' =>
      rw [run] at left left'
      cases round : s.next port polls size count buffer with
      | none =>
        rw [round] at left left'
        exact Option.some.inj (left.symm.trans left')
      | some t =>
        rw [round] at left left'
        exact ih left left'

/-- The loop of `pioLoop`, whose answers end with a failure. -/
theorem run_pioLoop {polling : Nat → Bool} (answers : List Bool) {s : Pio}
    (answered : ∀ k, polling (polls + s.blocks.length + k) = answers.getD k false) :
    ∃ t, s.run (genericPort polling) polls size count buffer (answers.length + 1) = some t ∧
      IdeChannel.pioLoop size count answers s.i s.r = t.r := by
  induction answers generalizing s with
  | nil =>
    have failed : polling (polls + s.blocks.length) = false := answered 0
    refine ⟨s, ?_, rfl⟩
    rw [run, next]
    simp only [genericPort, failed, Bool.false_eq_true, if_false, ite_self]
  | cons answer answers ih =>
    have first : polling (polls + s.blocks.length) = answer := answered 0
    rw [run, next, IdeChannel.pioLoop]
    simp only [genericPort, first]
    by_cases more : s.i < count
    · cases answer with
      | false => exact ⟨s, by simp, by simp⟩
      | true =>
        rw [if_pos more, if_pos rfl, if_pos ⟨more, rfl⟩]
        refine ih fun k => ?_
        rw [List.length_append, List.length_singleton]
        have later := answered (k + 1)
        rwa [show polls + (s.blocks.length + 1) + k = polls + s.blocks.length + (k + 1) by omega]
    · rw [if_neg more, if_neg (fun both => more both.1)]
      exact ⟨s, rfl, rfl⟩

/-- A loop over a count of sectors transfers all of them when a byte reaches the count and 32 bits hold the size. -/
theorem transfers_iff (whole : port.Whole size) :
    Transfers size count buffer (fun fuel => start.run port polls size count buffer fuel) ↔
      count < 256 ∧ count * size < 2 ^ 32 := by
  have first : start = after size buffer 0 := after_zero.symm
  rw [first]
  constructor
  · rintro ⟨fuel, s, left, -, returned⟩
    have byte : count < 256 := by
      by_contra long
      exact Option.some_ne_none s (left.symm.trans (run_none whole (Nat.le_of_not_lt long) 0 fuel))
    obtain rfl := run_unique left (run_after whole byte (Nat.zero_add count))
    exact ⟨byte, returned ▸ Nat.mod_lt _ (by decide)⟩
  · rintro ⟨byte, fits⟩
    refine ⟨count + 1, _, run_after whole byte (Nat.zero_add count), ?_, Nat.mod_eq_of_lt fits⟩
    refine List.map_congr_left fun j mem => ?_
    have inside : j * size ≤ count * size := Nat.mul_le_mul_right _ (List.mem_range.mp mem).le
    rw [Nat.mod_eq_of_lt (inside.trans_lt fits)]

end Pio

namespace IdeChannel
variable {c : IdeChannel} {port : DataPort} {ataIdx : Nat}

theorem atapiReadSector_pio (whole : port.Whole (c.dev ataIdx).blockSize) (lba count buffer fuel : Nat) :
    (c.atapiReadSector port ataIdx lba count buffer fuel).pio =
      Pio.start.run port 1 (c.dev ataIdx).blockSize count buffer fuel := by
  simp only [atapiReadSector, select, irqOn, if_pos (whole.ready 0)]
  split <;> rename_i outcome <;> exact outcome.symm

/-- On a controller that always becomes ready and transfers whole blocks, both data loops transfer all sectors of counts
that a byte reaches, as long as 32 bits hold the size, and of no other counts. -/
theorem data_loops_iff (whole : port.Whole (c.dev ataIdx).blockSize) (lba count buffer : Nat) :
    (Pio.Transfers (c.dev ataIdx).blockSize count buffer (c.ataData port ataIdx count buffer) ↔
        count < 256 ∧ count * (c.dev ataIdx).blockSize < 2 ^ 32) ∧
      (Pio.Transfers (c.dev ataIdx).blockSize count buffer
          (fun fuel => (c.atapiReadSector port ataIdx lba count buffer fuel).pio) ↔
        count < 256 ∧ count * (c.dev ataIdx).blockSize < 2 ^ 32) := by
  refine ⟨Pio.transfers_iff whole, ?_⟩
  simp only [atapiReadSector_pio whole]
  exact Pio.transfers_iff whole

/-- `ata_rw_sector` returns what its data loop leaves. -/
theorem ataRwSector_returns (op : AtaOp) (lba count buffer : Nat) (answers : List Bool) :
    ∃ s, c.ataData (genericPort fun k => answers.getD k false) ataIdx count buffer (answers.length + 1) = some s ∧
      (c.ataRwSector op ataIdx lba count answers).2.2 = s.r :=
  Pio.run_pioLoop answers fun k => by rw [Pio.start, List.length_nil, Nat.add_zero, Nat.zero_add]

end IdeChannel

/-- Eight sectors of 512 bytes. -/
theorem data_loops_iff_eight :
    let c : IdeChannel := ⟨0, 0, fun _ => ⟨0x200, 512⟩⟩
    (Pio.Transfers 512 8 0 (c.ataData (genericPort fun _ => true) 0 8 0) ↔ 8 < 256 ∧ 8 * 512 < 2 ^ 32) ∧
      (Pio.Transfers 512 8 0 (fun fuel => (c.atapiReadSector (genericPort fun _ => true) 0 0 8 0 fuel).pio) ↔
        8 < 256 ∧ 8 * 512 < 2 ^ 32) :=
  IdeChannel.data_loops_iff ⟨fun _ => rfl, fun _ => rfl⟩ 0 8 0

/-- The device announces operations of 256 sectors, and they do not end. -/
theorem data_loop_of_max_op_sectors :
    ¬ ∀ (c : IdeChannel) (port : DataPort) (ataIdx lba count buffer : Nat), count < 2 ^ 16 →
      port.Whole (c.dev ataIdx).blockSize →
      Pio.Transfers (c.dev ataIdx).blockSize count buffer (c.ataData port ataIdx count buffer) ∧
        Pio.Transfers (c.dev ataIdx).blockSize count buffer
          (fun fuel => (c.atapiReadSector port ataIdx lba count buffer fuel).pio) := by
  intro all
  have whole : (genericPort fun _ => true).Whole 512 := ⟨fun _ => rfl, fun _ => rfl⟩
  have ends := all ⟨0, 0, fun _ => ⟨0x200, 512⟩⟩ _ 0 0 maxOpSectors 0 (by decide) whole
  exact absurd ((Pio.transfers_iff whole).mp ends.1).1 (by decide)

end PreTeO.Bdev
