import PreTeO.Bdev.AtaTaskFile

/-!
# The transfer command of an IDE channel

`cIDEChannel::select` and `cIDEChannel::ata_rw_sector` with `cGenericIDEController::write` below them: from a block
number and a sector count to a sequence of port writes.

The channel that calls is the controller's `m_p_channel[channel]`, so the controller's test of that pointer is left out,
and so are the port reads of `wait`, which change no register, and the lock.
-/

namespace PreTeO.Bdev
set_option autoImplicit false

/-! ## The controller -/

def ataRegSeccount0 : Nat := 0x02
def ataRegLba0 : Nat := 0x03
def ataRegLba1 : Nat := 0x04
def ataRegLba2 : Nat := 0x05
def ataRegHddevsel : Nat := 0x06
def ataRegCommand : Nat := 0x07
def ataRegSeccount1 : Nat := 0x08
def ataRegLba3 : Nat := 0x09
def ataRegLba4 : Nat := 0x0A
def ataRegLba5 : Nat := 0x0B
def ataRegControl : Nat := 0x0C

/-- The port that a register number is mapped to. -/
def outReg (reg data : Nat) : List PortWrite :=
  if reg < 0x08 then [⟨.base, reg - 0x00, data⟩]
  else if reg < 0x0C then [⟨.base, reg - 0x06, data⟩]
  else if reg < 0x0E then [⟨.ctrl, reg - 0x0A, data⟩]
  else if reg < 0x16 then [⟨.bmide, reg - 0x0E, data⟩]
  else []

/-- `cGenericIDEController::write`: the registers `0x08` to `0x0B` are written between two writes of the control
register. -/
def ctrlWrite (chInt reg data : Nat) : List PortWrite :=
  if 0x07 < reg ∧ reg < 0x0C then
    outReg ataRegControl (0x80 ||| chInt) ++ outReg reg data ++ outReg ataRegControl chInt
  else outReg reg data

/-! ## The channel -/

inductive Mode where
  | chs | lba28 | lba48
deriving DecidableEq, Repr

inductive AtaOp where
  | read | write
deriving DecidableEq, Repr

/-- The fields of an `iIDEDevice` that the channel reads. -/
structure IdeDevice where
  features : Nat
  blockSize : Nat
deriving DecidableEq, Repr

/-- `cIDEChannel`: `_ch_int_`, `_ch_ata_index_` and `m_p_dev`. -/
structure IdeChannel where
  chInt : Nat
  ataIndex : Nat
  dev : Nat → IdeDevice

/-- `_max_op_sectors_` of an IDE device. -/
def maxOpSectors : Nat := 256

/-- The local variables `lba_mode`, `lba_io` and `head` of `ata_rw_sector`. -/
structure LbaIo where
  mode : Mode
  io0 : Nat
  io1 : Nat
  io2 : Nat
  io3 : Nat
  io4 : Nat
  io5 : Nat
  head : Nat
deriving DecidableEq, Repr

namespace IdeChannel

/-- The first part of `ata_rw_sector`: the addressing mode and the address bytes. -/
def lbaIo (c : IdeChannel) (ataIdx lba : Nat) : LbaIo :=
  if 0x10000000 ≤ lba then
    ⟨.lba48, (lba &&& 0x000000FF) >>> 0, (lba &&& 0x0000FF00) >>> 8, (lba &&& 0x00FF0000) >>> 16,
      (lba &&& 0xFF000000) >>> 24, 0, 0, 0⟩
  else if (c.dev ataIdx).features &&& 0x200 ≠ 0 then
    ⟨.lba28, (lba &&& 0x000000FF) >>> 0, (lba &&& 0x0000FF00) >>> 8, (lba &&& 0x00FF0000) >>> 16, 0, 0, 0, 0⟩
  else
    let sect := (lba % 63 + 1) % 256
    let cyl := (lba + 1 - sect) / (16 * 63) % 2 ^ 16
    ⟨.chs, sect, (cyl >>> 0) &&& 0xFF, (cyl >>> 8) &&& 0xFF, 0, 0, 0, (lba + 1 - sect) % (16 * 63) / 63 % 256⟩

/-- `select`. -/
def select (c : IdeChannel) (mode : Mode) (index head : Nat) : IdeChannel × List PortWrite :=
  let mask := match mode with
    | .chs => (0xa0 ||| head) % 256
    | _ => 0xe0
  let mask := (mask ||| index <<< 4) % 256
  ({ c with ataIndex := index }, ctrlWrite c.chInt ataRegHddevsel mask)

/-- `irq_off`. -/
def irqOff (c : IdeChannel) : IdeChannel × List PortWrite :=
  ({ c with chInt := c.chInt ||| 2 }, ctrlWrite c.chInt ataRegControl (c.chInt ||| 2))

/-- The command code; `dma` is always false. -/
def rwCommand : Mode → AtaOp → Nat
  | .chs, .read | .lba28, .read => 0x20
  | .lba48, .read => 0x24
  | .chs, .write | .lba28, .write => 0x30
  | .lba48, .write => 0x34

def flushCommand : Mode → Nat
  | .chs | .lba28 => 0xE7
  | .lba48 => 0xEA

/-- The loop over the sectors, a round for each answer of `polling`; there are no data after the last answer. The
counter is a byte. -/
def pioLoop (size count : Nat) : List Bool → Nat → Nat → Nat
  | [], _, r => r
  | answer :: answers, i, r =>
    if i < count ∧ answer then pioLoop size count answers ((i + 1) % 256) ((r + size / 4 * 4) % 2 ^ 32) else r

/-- `ata_rw_sector`: the channel afterwards, the port writes, and the number of bytes it returns. -/
def ataRwSector (c : IdeChannel) (op : AtaOp) (ataIdx lba count : Nat) (answers : List Bool) :
    IdeChannel × List PortWrite × Nat :=
  let (c, quiet) := c.irqOff
  let a := c.lbaIo ataIdx lba
  let (c, chosen) := c.select a.mode ataIdx a.head
  let out := ctrlWrite c.chInt
  let high := if a.mode = .lba48 then
      out ataRegSeccount1 ((count % 256) >>> 8 % 256) ++ out ataRegLba3 a.io3 ++ out ataRegLba4 a.io4 ++
        out ataRegLba5 a.io5
    else []
  let low := out ataRegSeccount0 (count % 256) ++ out ataRegLba0 a.io0 ++ out ataRegLba1 a.io1 ++ out ataRegLba2 a.io2
  let r := pioLoop (c.dev ataIdx).blockSize count answers 0 0
  let flush := if op = .write then out ataRegCommand (flushCommand a.mode) else []
  (c, quiet ++ chosen ++ high ++ low ++ out ataRegCommand (rwCommand a.mode op) ++ flush, r)

end IdeChannel
end PreTeO.Bdev
