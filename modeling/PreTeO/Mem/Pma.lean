import Mathlib.Data.Finset.Card
import Mathlib.Data.BitVec
import PreTeO.Lib.Run

/-!
# The physical page allocator (`core/mem/b24_pma.cpp`)

Each RAM block has an array of records, and each record says which of 24 consecutive pages are taken: the
mask `1 << 23` stands for the first page, `1` for the last. A loop of the source over the masks of a record
is a recursion on the number of masks that are left, with the mask `1 << n` when `n + 1` are left; the
direction is that of the pages in `set_bits` and against it in `find`.

`none` as a whole result is an access outside `m_ram`.
-/

namespace PreTeO.Mem
set_option autoImplicit false

def maxRecAmount : Nat := 24
def maxRamBlocks : Nat := 20

/-- `_rec_t`: `bmp` has 24 bits, `amount` 5 and `type` 3. -/
structure Rec where
  bmp : BitVec 24
  amount : Nat
  type : Nat
deriving DecidableEq, Repr

/-- `_ram_t`, with the records `p_rec` points to. -/
structure Ram where
  addr : Nat
  recs : List Rec
  nfree : Nat
deriving DecidableEq, Repr

/-- The allocator: `m_page_size` and the first `m_nram` members of `m_ram`. -/
structure Pma where
  pageSize : Nat
  ram : List Ram
deriving DecidableEq, Repr

/-- `_ram_part_t`. -/
structure RamPart where
  addr : Nat
  size : Nat
deriving DecidableEq, Repr

/-! ## `init` -/

/-- A division rounded up, as the source writes it. -/
def pagesFor (pageSize size : Nat) : Nat := size / pageSize + if size % pageSize ≠ 0 then 1 else 0

/-- `addr` aligned up to the next page; an aligned address moves by a whole page. -/
def RamPart.aligned (part : RamPart) (pageSize : Nat) : Nat := part.addr + (pageSize - part.addr % pageSize)

/-- `records`, computed twice: the second time without the pages that hold the records of the first. A record
takes four bytes. -/
def RamPart.records (part : RamPart) (pageSize : Nat) : Nat :=
  let size := part.size - (pageSize - part.addr % pageSize)
  let ramPages := size / pageSize
  let ramPages := ramPages - pagesFor pageSize (ramPages / maxRecAmount * 4)
  ramPages / maxRecAmount

/-- The block a part becomes. -/
def RamPart.block (part : RamPart) (pageSize : Nat) : Ram :=
  let records := part.records pageSize
  { addr := part.aligned pageSize + pagesFor pageSize (records * 4) * pageSize
    recs := List.replicate records ⟨0#24, 0, 0⟩
    nfree := records * maxRecAmount }

/-- `init_ram_block`. The index `m_nram` is not checked against the size of `m_ram`. -/
def Pma.initRamBlock (s : Pma) (part : RamPart) : Option Pma :=
  if (maxRecAmount + 1) * s.pageSize < part.size then
    if s.ram.length < maxRamBlocks then some { s with ram := s.ram ++ [part.block s.pageSize] } else none
  else some s

/-- `init`. -/
def Pma.init (parts : List RamPart) (pageSize : Nat) : Option Pma := parts.foldlM Pma.initRamBlock ⟨pageSize, []⟩

/-! ## Positions -/

/-- A block index, a record index and a bit. -/
structure Position where
  block : Nat
  index : Nat
  bit : Nat
deriving DecidableEq, Repr

/-- Pages in a block. -/
def Ram.npages (b : Ram) : Nat := b.recs.length * maxRecAmount

/-- `block_end`, a sum of 64 bits. -/
def Ram.blockEnd (b : Ram) (pageSize : Nat) : Nat := (b.addr + b.npages * pageSize) % 2 ^ 64

/-- `address_to_position`. -/
def Pma.addressToPosition (s : Pma) (addr : Nat) : Option Position :=
  let a := addr - addr % s.pageSize
  match s.ram.findIdx? fun b => b.addr ≤ a && a < b.blockEnd s.pageSize with
  | none => none
  | some i =>
    match s.ram[i]? with
    | none => none
    | some b =>
      let page := (a - b.addr) / s.pageSize
      some ⟨i, page / maxRecAmount, page % maxRecAmount⟩

/-- `position_to_address`. -/
def Pma.positionToAddress (s : Pma) (p : Position) : Nat :=
  match s.ram[p.block]? with
  | none => 0
  | some b =>
    if p.index < b.recs.length then b.addr + p.index * maxRecAmount * s.pageSize + p.bit * s.pageSize else 0

/-! ## `set_bits` -/

/-- `++` on a counter of `w` bits. -/
def up (w n : Nat) : Nat := (n + 1) % 2 ^ w

/-- `--` on a counter of `w` bits. -/
def down (w n : Nat) : Nat := (n + (2 ^ w - 1)) % 2 ^ w

/-- The change of one bit, and of the counters if it was another before. -/
def setPage (set : Bool) (r : Rec) (nfree n : Nat) : Rec × Nat :=
  if set then
    if r.bmp.getLsbD n then (r, nfree)
    else ({ r with bmp := r.bmp ||| 1#24 <<< n, amount := up 5 r.amount }, down 64 nfree)
  else
    if r.bmp.getLsbD n then
      ({ r with bmp := r.bmp &&& ~~~(1#24 <<< n), amount := down 5 r.amount }, up 64 nfree)
    else (r, nfree)

/-- The loop over the masks of a record. -/
def setPages (set : Bool) (count : Nat) : Nat → Rec → Nat → Nat → Rec × Nat × Nat
  | 0, r, nfree, cnt => (r, nfree, cnt)
  | n + 1, r, nfree, cnt =>
    if cnt < count then
      let (r, nfree) := setPage set r nfree n
      setPages set count n r nfree (cnt + 1)
    else (r, nfree, cnt)

/-- The loop over the records, with `n` masks left in the first of them. -/
def setRecords (set : Bool) (type count : Nat) : List Rec → Nat → Nat → Nat → List Rec × Nat × Nat
  | [], _, nfree, cnt => ([], nfree, cnt)
  | r :: rest, n, nfree, cnt =>
    if cnt < count then
      let (r, nfree, cnt) := setPages set count n { r with type := type % 2 ^ 3 } nfree cnt
      let (rest, nfree, cnt) := setRecords set type count rest maxRecAmount nfree cnt
      (r :: rest, nfree, cnt)
    else (r :: rest, nfree, cnt)

/-- `set_bits` on a block. -/
def Ram.setBits (b : Ram) (index bit count type : Nat) (set : Bool) : Ram × Nat :=
  let (recs, nfree, cnt) := setRecords set type count (b.recs.drop index) (maxRecAmount - bit) b.nfree 0
  ({ b with recs := b.recs.take index ++ recs, nfree := nfree }, cnt)

/-- `set_bits` at a position. -/
def Pma.setBits (s : Pma) (p : Position) (count type : Nat) (set : Bool) : Pma × Nat :=
  match s.ram[p.block]? with
  | none => (s, 0)
  | some b =>
    let (b, cnt) := b.setBits p.index p.bit count type set
    ({ s with ram := s.ram.set p.block b }, cnt)

/-! ## `find` -/

/-- How a loop of `find` ends: at a bit, or with `cnt` free pages counted and `n` masks of the record left. -/
inductive Scan (α : Type) where
  | found (place : α)
  | rest (cnt n : Nat)
deriving DecidableEq, Repr

/-- The loop over the masks of a record, from the last page down; `n` pages are left. -/
def scanBits (bmp : BitVec 24) (count : Nat) : Nat → Nat → Scan Nat
  | 0, cnt => .rest cnt 0
  | n + 1, cnt =>
    if bmp.getLsbD (23 - n) then scanBits bmp count n 0
    else if (cnt + 1) % 2 ^ 32 = count then .found n
    else scanBits bmp count n ((cnt + 1) % 2 ^ 32)

/-- The test of a record and the loop over its masks. -/
def scanRec (type count : Nat) (r : Rec) (n cnt : Nat) : Scan Nat :=
  if (r.type = 0 ∨ r.type = type) ∧ r.amount < maxRecAmount then scanBits r.bmp count n cnt else .rest 0 n

/-- The record at an index. -/
def scanAt (type count : Nat) (recs : List Rec) (i n cnt : Nat) : Scan (Nat × Nat) :=
  match recs[i]? with
  | none => .rest cnt n
  | some r =>
    match scanRec type count r n cnt with
    | .found bit => .found (i, bit)
    | .rest cnt n => .rest cnt n

/-- The loop over the records of a block, down from index `i`. -/
def scanRecs (type count : Nat) (recs : List Rec) : Nat → Nat → Nat → Scan (Nat × Nat)
  | 0, n, cnt => scanAt type count recs 0 n cnt
  | i + 1, n, cnt =>
    match scanAt type count recs (i + 1) n cnt with
    | .found place => .found place
    | .rest cnt _ => scanRecs type count recs i maxRecAmount cnt

/-- The index of the last record of a block. -/
def Pma.lastRec (s : Pma) (i : Nat) : Nat :=
  match s.ram[i]? with
  | none => 0
  | some b => b.recs.length - 1

/-- The records of a block from index `index` down. -/
def Pma.scanBlock (s : Pma) (type count i index n : Nat) : Scan (Nat × Nat) :=
  match s.ram[i]? with
  | none => .rest 0 n
  | some b => scanRecs type count b.recs index n 0

/-- The loop over the blocks, down from index `i`, and what follows it: a run that ends with the number of pages
asked for is also a hit. -/
def Pma.scanBlocks (s : Pma) (type count : Nat) : Nat → Nat → Nat → Option Position
  | 0, index, n =>
    match s.scanBlock type count 0 index n with
    | .found (index, bit) => some ⟨0, index, bit⟩
    | .rest cnt n => if cnt = count then some ⟨0, 0, n - 1⟩ else none
  | i + 1, index, n =>
    match s.scanBlock type count (i + 1) index n with
    | .found (index, bit) => some ⟨i + 1, index, bit⟩
    | .rest _ _ => s.scanBlocks type count i (s.lastRec i) maxRecAmount

/-- The search for the last block that starts below the limit. -/
def Pma.startBlock (s : Pma) (limit : Nat) : Nat → Option Ram
  | 0 =>
    match s.ram[0]? with
    | none => none
    | some b => if limit ≤ b.addr then none else some b
  | i + 1 =>
    match s.ram[i + 1]? with
    | none => none
    | some b => if limit ≤ b.addr then s.startBlock limit i else some b

/-- `find`. -/
def Pma.find (s : Pma) (limit type count : Nat) : Option (Option Position) :=
  if s.ram = [] then none
  else
    match s.startBlock limit (s.ram.length - 1) with
    | none => some none
    | some b =>
      let endAddr := (b.addr + b.npages * s.pageSize + 2 ^ 64 - 1) % 2 ^ 64
      let shift := if endAddr < limit then 1 else 0
      let limit := if endAddr < limit then endAddr else limit
      match s.addressToPosition limit with
      | none => some none
      | some p => some (s.scanBlocks type count p.block p.index (shift + p.bit))

/-! ## The five entry points -/

/-- `alloc` of consecutive pages; the null pointer is 0. -/
def Pma.alloc (s : Pma) (npages type limit : Nat) : Option (Nat × Pma) :=
  match s.find limit type npages with
  | none => none
  | some none => some (0, s)
  | some (some p) =>
    let (t, cnt) := s.setBits p npages type true
    if cnt = npages then some (t.positionToAddress p, t)
    else some (0, (t.setBits p cnt 0 false).1)

/-- The type of the record at a position. -/
def Pma.typeAt (s : Pma) (p : Position) : Nat :=
  match s.ram[p.block]? with
  | none => 0
  | some b =>
    match b.recs[p.index]? with
    | none => 0
    | some r => r.type

/-- `free` of consecutive pages. -/
def Pma.free (s : Pma) (addr npages : Nat) : Pma × Nat :=
  match s.addressToPosition addr with
  | none => (s, 0)
  | some p => s.setBits p npages (s.typeAt p) false

/-- The loop of the `alloc` that fills an array of pages: the pages stored, what it returns, the state. -/
def Pma.allocPages (type limit : Nat) : Nat → Nat → Nat → Pma → Option (List Nat × Nat × Pma)
  | 0, _, r, s => some ([], r, s)
  | n + 1, i, r, s =>
    match s.find limit type 1 with
    | none => none
    | some none => some ([], r, s)
    | some (some p) =>
      let (t, cnt) := s.setBits p 1 type true
      if cnt = 1 then
        let addr := t.positionToAddress p
        if addr = 0 then some ([], r, t)
        else (Pma.allocPages type limit n (i + 1) i t).map fun (pages, r, u) => (addr :: pages, r, u)
      else some ([], r, t)

/-- `alloc` of single pages into an array. -/
def Pma.allocArray (s : Pma) (npages type limit : Nat) : Option (List Nat × Nat × Pma) :=
  Pma.allocPages type limit npages 0 0 s

/-- `free` of the pages of an array. -/
def Pma.freeArray : List Nat → Pma → Pma
  | [], s => s
  | page :: rest, s =>
    match s.addressToPosition page with
    | none => s
    | some p =>
      match s.setBits p 1 (s.typeAt p) false with
      | (t, cnt) => if cnt = 1 then Pma.freeArray rest t else t

/-- `alloc` of given pages. -/
def Pma.allocAt (s : Pma) (addr npages type : Nat) : Pma × Nat :=
  match s.addressToPosition addr with
  | none => (s, 0)
  | some p => s.setBits p npages type true

end PreTeO.Mem
