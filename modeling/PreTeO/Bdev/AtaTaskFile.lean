import Mathlib.Algebra.Group.Nat.Defs

/-!
# The task file of an ATA device

What a device makes of the writes to its ports, as the ATA standard has it. The sector count and the three address
registers keep two bytes: a write moves the byte that was there to the previous one. A transfer command takes its address
from the device register (28 bits, or cylinder, head and sector) or from both bytes of the address registers (48 bits).
The number 0 in the sector count stands for 256, in the 48-bit commands for 65536.
-/

namespace PreTeO.Bdev
set_option autoImplicit false

/-- The three ranges of ports of a channel. -/
inductive PortBlock where
  | base | ctrl | bmide
deriving DecidableEq, Repr

/-- One `outportb`: the port as an offset in its range, and the byte. -/
structure PortWrite where
  block : PortBlock
  offset : Nat
  data : Nat
deriving DecidableEq, Repr

namespace Ata

/-- A register of two bytes. -/
structure Latch where
  current : Nat
  previous : Nat
deriving DecidableEq, Repr

def Latch.push (l : Latch) (v : Nat) : Latch := ⟨v, l.current⟩

/-- The registers that say what a transfer is. -/
structure TaskFile where
  count : Latch
  lba0 : Latch
  lba1 : Latch
  lba2 : Latch
  device : Nat
deriving DecidableEq, Repr

/-- A transfer as the device understands it. -/
structure Transfer where
  write : Bool
  drive : Nat
  lba : Nat
  count : Nat
deriving DecidableEq, Repr

/-- The translation of cylinders into sectors. -/
def heads : Nat := 16
def sectors : Nat := 63

namespace TaskFile

/-- A write to a register of the command block. -/
def latch (f : TaskFile) (offset v : Nat) : TaskFile :=
  match offset with
  | 2 => { f with count := f.count.push v }
  | 3 => { f with lba0 := f.lba0.push v }
  | 4 => { f with lba1 := f.lba1.push v }
  | 5 => { f with lba2 := f.lba2.push v }
  | 6 => { f with device := v }
  | _ => f

def drive (f : TaskFile) : Nat := f.device / 16 % 2
def isLba (f : TaskFile) : Bool := f.device / 64 % 2 = 1
def nibble (f : TaskFile) : Nat := f.device % 16

def chsAddress (f : TaskFile) : Nat :=
  ((f.lba2.current * 256 + f.lba1.current) * heads + f.nibble) * sectors + f.lba0.current - 1

def lba28Address (f : TaskFile) : Nat :=
  f.nibble * 2 ^ 24 + f.lba2.current * 2 ^ 16 + f.lba1.current * 2 ^ 8 + f.lba0.current

def lba48Address (f : TaskFile) : Nat :=
  f.lba2.previous * 2 ^ 40 + f.lba1.previous * 2 ^ 32 + f.lba0.previous * 2 ^ 24 +
    f.lba2.current * 2 ^ 16 + f.lba1.current * 2 ^ 8 + f.lba0.current

/-- The transfer of a command with a one-byte count. -/
def transfer28 (f : TaskFile) (write : Bool) : Transfer where
  write
  drive := f.drive
  lba := if f.isLba then f.lba28Address else f.chsAddress
  count := if f.count.current = 0 then 256 else f.count.current

/-- The transfer of an `EXT` command. -/
def transfer48 (f : TaskFile) (write : Bool) : Transfer where
  write
  drive := f.drive
  lba := f.lba48Address
  count := if f.count.previous * 256 + f.count.current = 0 then 65536 else f.count.previous * 256 + f.count.current

/-- The transfer that a command code starts, if it starts one. -/
def command (f : TaskFile) (code : Nat) : Option Transfer :=
  match code with
  | 0x20 | 0xC8 => some (f.transfer28 false)
  | 0x30 | 0xCA => some (f.transfer28 true)
  | 0x24 | 0x25 => some (f.transfer48 false)
  | 0x34 | 0x35 => some (f.transfer48 true)
  | _ => none

/-- What one port write does: the registers afterwards and the transfer it starts. -/
def receive (f : TaskFile) (w : PortWrite) : TaskFile × Option Transfer :=
  match w.block with
  | .base => if w.offset = 7 then (f, f.command w.data) else (f.latch w.offset w.data, none)
  | _ => (f, none)

/-- The transfers that a sequence of port writes starts. -/
def transfers (f : TaskFile) : List PortWrite → List Transfer
  | [] => []
  | w :: ws => (f.receive w).2.toList ++ (f.receive w).1.transfers ws

end TaskFile
end Ata
end PreTeO.Bdev
