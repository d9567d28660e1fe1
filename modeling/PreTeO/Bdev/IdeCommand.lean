import Mathlib.Tactic.IntervalCases
import PreTeO.Bdev.IdeChannel
import PreTeO.Lib.Bits

/-!
# What the device decodes from a transfer command

The device decodes the port writes of `ata_rw_sector` with `Ata.TaskFile.transfers`. Each mode writes a part of the block
number only, and the sector count as one byte, so that the command says what was asked for exactly if the number and the
count fit these bytes. Two of the bounds are below what the modes admit: bits 24 to 27 of a number of 28 bits are not
written, and the upper byte of the sector count of the 48-bit commands is always 0.
-/

namespace PreTeO.Bdev
set_option autoImplicit false
open IdeChannel

/-! ## The numbers that reach the device -/

/-- The addressing mode that a request uses. -/
def IdeChannel.mode (c : IdeChannel) (idx lba : Nat) : Mode :=
  if 0x10000000 ≤ lba then .lba48 else if (c.dev idx).features &&& 0x200 ≠ 0 then .lba28 else .chs

/-- The part of a block number that reaches the device. -/
def lbaReceived : Mode → Nat → Nat
  | .chs, lba => lba % (2 ^ 16 * (16 * 63))
  | .lba28, lba => lba % 2 ^ 24
  | .lba48, lba => lba % 2 ^ 32

/-- The sector count that reaches the device. -/
def countReceived : Mode → Nat → Nat
  | .chs, count | .lba28, count => if count % 256 = 0 then 256 else count % 256
  | .lba48, count => if count % 256 = 0 then 65536 else count % 256

theorem lane0 (n : Nat) : (n &&& 0x000000FF) >>> 0 = n % 256 := by
  simpa using Lib.byte_lane n 0

theorem lane1 (n : Nat) : (n &&& 0x0000FF00) >>> 8 = n / 2 ^ 8 % 256 := Lib.byte_lane n 8
theorem lane2 (n : Nat) : (n &&& 0x00FF0000) >>> 16 = n / 2 ^ 16 % 256 := Lib.byte_lane n 16
theorem lane3 (n : Nat) : (n &&& 0xFF000000) >>> 24 = n / 2 ^ 24 % 256 := Lib.byte_lane n 24

/-- The device byte of the two address forms. -/
theorem device_lba {idx : Nat} (drive : idx < 2) : (0xe0 ||| idx <<< 4) % 256 = 0xe0 + 16 * idx := by
  interval_cases idx <;> rfl

theorem device_chs {idx head : Nat} (drive : idx < 2) (nibble : head < 16) :
    ((0xa0 ||| head) % 256 ||| idx <<< 4) % 256 = 0xa0 + 16 * idx + head := by
  interval_cases idx <;> interval_cases head <;> rfl

/-! ## The writes one by one -/

section Writes
variable {f : Ata.TaskFile} {chInt reg v : Nat} {ws : List PortWrite}

/-- A register of the command block takes the byte. -/
theorem transfers_low (low : reg < 7) : f.transfers (ctrlWrite chInt reg v ++ ws) = (f.latch reg v).transfers ws := by
  have below : ¬ (7 < reg ∧ reg < 12) := by omega
  have other : reg ≠ 7 := by omega
  have port : reg < 8 := by omega
  simp [ctrlWrite, outReg, below, port, Ata.TaskFile.transfers, Ata.TaskFile.receive, other]

/-- The device does not see the control writes around a high register. -/
theorem transfers_high (above : 7 < reg) (below : reg < 12) :
    f.transfers (ctrlWrite chInt reg v ++ ws) = (f.latch (reg - 6) v).transfers ws := by
  have port : ¬ reg < 8 := by omega
  have other : reg - 6 ≠ 7 := by omega
  simp [ctrlWrite, outReg, above, below, port, Ata.TaskFile.transfers, Ata.TaskFile.receive, ataRegControl, other]

theorem transfers_control : f.transfers (ctrlWrite chInt ataRegControl v ++ ws) = f.transfers ws := by
  simp [ctrlWrite, outReg, Ata.TaskFile.transfers, Ata.TaskFile.receive, ataRegControl]

theorem transfers_command :
    f.transfers (ctrlWrite chInt ataRegCommand v ++ ws) = (f.command v).toList ++ f.transfers ws := by
  simp [ctrlWrite, outReg, Ata.TaskFile.transfers, Ata.TaskFile.receive, ataRegCommand]

end Writes

variable {c : IdeChannel} {idx lba count : Nat} {op : AtaOp} {answers : List Bool} {f : Ata.TaskFile}

/-! ## The command -/

/-- A flush at the end starts no transfer. -/
theorem transfers_flush {chInt : Nat} {m : Mode} :
    f.transfers (if op = .write then ctrlWrite chInt ataRegCommand (flushCommand m) else []) = [] := by
  split
  · rw [← List.append_nil (ctrlWrite _ _ _), transfers_command]
    cases m <;> rfl
  · rfl

/-- The byte that selects the device. -/
def deviceByte (a : LbaIo) (idx : Nat) : Nat :=
  match a.mode with
  | .chs => 0xa0 + 16 * idx + a.head
  | _ => 0xe0 + 16 * idx

theorem select_writes {chInt : Nat} {a : LbaIo} (drive : idx < 2) (nibble : a.head < 16) :
    (select { c with chInt } a.mode idx a.head).2 = ctrlWrite chInt ataRegHddevsel (deviceByte a idx) := by
  obtain ⟨m, _, _, _, _, _, _, head⟩ := a
  cases m with
  | chs => simp only [select, deviceByte, device_chs drive nibble]
  | lba28 | lba48 => simp only [select, deviceByte, device_lba drive]

/-- In the two short modes the device decodes the command from the last byte of each register. -/
theorem transfers_short {a : LbaIo} (io : c.lbaIo idx lba = a) (short : a.mode ≠ .lba48) (drive : idx < 2)
    (nibble : a.head < 16) {dev : Nat} (device : deviceByte a idx = dev) :
    f.transfers (c.ataRwSector op idx lba count answers).2.1 =
      [⟨op = .write, dev / 16 % 2,
        if dev / 64 % 2 = 1 then dev % 16 * 2 ^ 24 + a.io2 * 2 ^ 16 + a.io1 * 2 ^ 8 + a.io0
          else ((a.io2 * 256 + a.io1) * 16 + dev % 16) * 63 + a.io0 - 1,
        if count % 256 = 0 then 256 else count % 256⟩] := by
  have io : ({ c with chInt := c.chInt ||| 2 } : IdeChannel).lbaIo idx lba = a := io
  simp only [ataRwSector, irqOff, io, select_writes drive nibble, device, if_neg short, List.append_assoc,
    transfers_control, List.nil_append]
  rw [transfers_low (by decide), transfers_low (by decide), transfers_low (by decide), transfers_low (by decide),
    transfers_low (by decide), transfers_command]
  simp only [select, transfers_flush, List.append_nil]
  cases mode : a.mode with
  | lba48 => exact absurd mode short
  | chs | lba28 =>
    cases op <;>
      simp [rwCommand, Ata.TaskFile.command, Ata.TaskFile.transfer28, Ata.TaskFile.latch, Ata.Latch.push,
        Ata.TaskFile.drive, Ata.TaskFile.isLba, Ata.TaskFile.lba28Address, Ata.TaskFile.chsAddress,
        Ata.TaskFile.nibble, ataRegHddevsel, ataRegSeccount0, ataRegLba0, ataRegLba1, ataRegLba2, Ata.heads, Ata.sectors]

/-- In the long mode it takes both bytes. -/
theorem transfers_long {a : LbaIo} (io : c.lbaIo idx lba = a) (long : a.mode = .lba48) (drive : idx < 2)
    (nibble : a.head < 16) :
    f.transfers (c.ataRwSector op idx lba count answers).2.1 =
      [⟨op = .write, idx, 
        a.io5 * 2 ^ 40 + a.io4 * 2 ^ 32 + a.io3 * 2 ^ 24 + a.io2 * 2 ^ 16 + a.io1 * 2 ^ 8 + a.io0,
        if count % 256 = 0 then 65536 else count % 256⟩] := by
  have io : ({ c with chInt := c.chInt ||| 2 } : IdeChannel).lbaIo idx lba = a := io
  have device : deviceByte a idx = 0xe0 + 16 * idx := by simp [deviceByte, long]
  have high : (count % 256) >>> 8 % 256 = 0 := by
    rw [Nat.shiftRight_eq_div_pow]
    omega
  have chosen : (0xe0 + 16 * idx) / 16 % 2 = idx := by omega
  simp only [ataRwSector, irqOff, io, select_writes drive nibble, device, if_pos long, List.append_assoc,
    transfers_control]
  rw [transfers_low (by decide), transfers_high (by decide) (by decide), transfers_high (by decide) (by decide),
    transfers_high (by decide) (by decide), transfers_high (by decide) (by decide), transfers_low (by decide),
    transfers_low (by decide), transfers_low (by decide), transfers_low (by decide), transfers_command]
  simp only [select, transfers_flush, List.append_nil, long, high]
  cases op <;>
    simp [rwCommand, Ata.TaskFile.command, Ata.TaskFile.transfer48, Ata.TaskFile.latch, Ata.Latch.push,
      Ata.TaskFile.drive, Ata.TaskFile.lba48Address, ataRegHddevsel, ataRegSeccount0, ataRegSeccount1, ataRegLba0,
      ataRegLba1, ataRegLba2, ataRegLba3, ataRegLba4, ataRegLba5, chosen]

theorem lbaIo_chs (m : c.mode idx lba = .chs) :
    c.lbaIo idx lba = ⟨.chs, lba % 63 + 1, lba / 1008 % 256, lba / 1008 / 256 % 256, 0, 0, 0, lba / 63 % 16⟩ := by
  unfold mode at m
  unfold lbaIo
  split at m
  · cases m
  · next small =>
    split at m
    · cases m
    · next plain =>
      have byte : ∀ n, n &&& 0xFF = n % 256 := fun n => Nat.and_two_pow_sub_one_eq_mod n 8
      simp only [if_neg small, if_neg plain, byte, Nat.shiftRight_eq_div_pow, LbaIo.mk.injEq, true_and]
      refine ⟨?_, ?_, ?_, ?_⟩ <;> omega

theorem lbaIo_lba28 (m : c.mode idx lba = .lba28) :
    c.lbaIo idx lba = ⟨.lba28, lba % 256, lba / 2 ^ 8 % 256, lba / 2 ^ 16 % 256, 0, 0, 0, 0⟩ := by
  unfold mode at m
  unfold lbaIo
  split at m
  · cases m
  · next small =>
    split at m
    · next able => rw [if_neg small, if_pos able, lane0, lane1, lane2]
    · cases m

theorem lbaIo_lba48 (m : c.mode idx lba = .lba48) :
    c.lbaIo idx lba = ⟨.lba48, lba % 256, lba / 2 ^ 8 % 256, lba / 2 ^ 16 % 256, lba / 2 ^ 24 % 256, 0, 0, 0⟩ := by
  unfold mode at m
  unfold lbaIo
  split at m
  · next large => rw [if_pos large, lane0, lane1, lane2, lane3]
  · split at m <;> cases m

/-- The device decodes one transfer, of a part of the number and of the count. -/
theorem transfers_ataRwSector (drive : idx < 2) :
    f.transfers (c.ataRwSector op idx lba count answers).2.1 =
      [⟨op = .write, idx, lbaReceived (c.mode idx lba) lba, countReceived (c.mode idx lba) count⟩] := by
  cases m : c.mode idx lba with
  | chs =>
    have nibble : lba / 63 % 16 < 16 := Nat.mod_lt _ (by decide)
    have cylinders : ¬ (0xa0 + 16 * idx + lba / 63 % 16) / 64 % 2 = 1 := by omega
    rw [transfers_short (lbaIo_chs m) (by simp) drive nibble (show _ = 0xa0 + 16 * idx + lba / 63 % 16 from rfl),
      if_neg cylinders]
    simp only [lbaReceived, countReceived]
    congr 2 <;> omega
  | lba28 =>
    have linear : (0xe0 + 16 * idx) / 64 % 2 = 1 := by omega
    have nibble : 0 < 16 := by decide
    rw [transfers_short (lbaIo_lba28 m) (by simp) drive nibble (show _ = 0xe0 + 16 * idx from rfl), if_pos linear]
    simp only [lbaReceived, countReceived]
    congr 2 <;> omega
  | lba48 =>
    have nibble : 0 < 16 := by decide
    rw [transfers_long (lbaIo_lba48 m) rfl drive nibble]
    simp only [lbaReceived, countReceived]
    congr 2
    omega

/-- The block numbers that a mode admits, with the driver's numbers of 32 bits. -/
def Mode.Admits (lba : Nat) : Mode → Prop
  | .chs => lba < 2 ^ 16 * (16 * 63)
  | .lba28 => lba < 2 ^ 28
  | .lba48 => lba < 2 ^ 32

/-- The number fits the bytes that are written for the mode, and so does the count. -/
def Mode.Fits (lba count : Nat) : Mode → Prop
  | .chs => lba < 2 ^ 16 * (16 * 63) ∧ 1 ≤ count ∧ count ≤ 256
  | .lba28 => lba < 2 ^ 24 ∧ 1 ≤ count ∧ count ≤ 256
  | .lba48 => lba < 2 ^ 32 ∧ 1 ≤ count ∧ count < 256

instance Mode.instDecidableAdmits (lba : Nat) : (m : Mode) → Decidable (m.Admits lba)
  | .chs | .lba28 | .lba48 => inferInstanceAs (Decidable (_ < _))

instance Mode.instDecidableFits (lba count : Nat) : (m : Mode) → Decidable (m.Fits lba count)
  | .chs | .lba28 | .lba48 => inferInstanceAs (Decidable (_ < _ ∧ _ ∧ _))

/-- The device decodes the request it was given exactly if the number is below `2 ^ 24` in the mode of 28 bits and the
count is below 256 in the mode of 48 bits. -/
theorem command_decodes_iff (c : IdeChannel) (f : Ata.TaskFile) (op : AtaOp) (idx lba count : Nat) (answers : List Bool)
    (drive : idx < 2) (word : count < 2 ^ 16) :
    f.transfers (c.ataRwSector op idx lba count answers).2.1 = [⟨op = .write, idx, lba, count⟩] ↔
      (c.mode idx lba).Fits lba count := by
  rw [transfers_ataRwSector drive]
  simp only [List.cons.injEq, Ata.Transfer.mk.injEq, true_and, and_true]
  cases c.mode idx lba with
  | chs | lba28 | lba48 =>
    simp only [lbaReceived, countReceived, Mode.Fits]
    constructor
    · rintro ⟨block, sectors⟩
      split at sectors <;> omega
    · rintro ⟨block, least, most⟩
      constructor
      · omega
      · split <;> omega

/-- A channel with two drives that support LBA. -/
def lbaChannel : IdeChannel := ⟨0, 0, fun _ => ⟨0x200, 512⟩⟩

/-- The task file after a reset. -/
def resetFile : Ata.TaskFile := ⟨⟨1, 0⟩, ⟨1, 0⟩, ⟨0, 0⟩, ⟨0, 0⟩, 0⟩

theorem command_decodes_iff_last_block :
    resetFile.transfers (lbaChannel.ataRwSector .read 1 (2 ^ 24 - 1) 256 []).2.1 = [⟨false, 1, 2 ^ 24 - 1, 256⟩] :=
  (command_decodes_iff lbaChannel resetFile .read 1 (2 ^ 24 - 1) 256 [] (by decide) (by decide)).mpr (by decide)

/-- With 256 sectors in the mode of 48 bits the device waits for 65536. -/
example : resetFile.transfers (lbaChannel.ataRwSector .write 0 (2 ^ 28) 256 []).2.1 = [⟨true, 0, 2 ^ 28, 65536⟩] :=
  transfers_ataRwSector (by decide)

/-- A write to block `2 ^ 24` goes to block 0. -/
theorem block_number_loses_bits :
    ¬ ∀ (c : IdeChannel) (f : Ata.TaskFile) (op : AtaOp) (idx lba count : Nat) (answers : List Bool), idx < 2 →
      (c.mode idx lba).Admits lba → 1 ≤ count → count ≤ maxOpSectors →
      f.transfers (c.ataRwSector op idx lba count answers).2.1 = [⟨op = .write, idx, lba, count⟩] := by
  intro faithful
  have same := faithful lbaChannel resetFile .write 0 (2 ^ 24) 1 [true] (by decide) (by decide) (by decide) (by decide)
  rw [transfers_ataRwSector (by decide)] at same
  exact absurd same (by decide)

end PreTeO.Bdev
