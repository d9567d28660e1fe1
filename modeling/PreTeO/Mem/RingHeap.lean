import Mathlib.Data.List.Range
import PreTeO.Common.MemCpy
import PreTeO.Lib.Bytes
import PreTeO.Lib.Stack

/-!
# The ring heap (`core/mem/ring_heap.cpp`)

The chunk table lies at the base of the heap and grows upwards, an entry of 12 bytes for each chunk: the size of the chunk
(4 bytes) and a pointer to its first byte (8 bytes). The chunks lie end to end from the end of the heap downwards. There
is no free list: a chunk whose first four bytes read `FREE_PATTERN` is a free one, and the search of an allocation and the
joining of free neighbours go by these bytes alone. The addresses have 64 bits, the sizes 32.
-/

namespace PreTeO.Mem
set_option autoImplicit false
open PreTeO.Lib

/-- `FREE_PATTERN`. -/
def freePattern : Nat := 0xcacacaca

/-- `sizeof(_umax)`. -/
def umaxSize : Nat := 8

/-- `sizeof(_heap_chunk_t)`. -/
def entrySize : Nat := 12

/-- `mem_cpy`, by what it does to the memory. -/
def memCpy (m : Mem) (dst src n : Nat) : Mem := m.blit dst n fun k => m (src + k)

theorem memCpy_eq (m : Mem) (dst src n : Nat) : Common.memCpy m dst src n = memCpy m dst src n :=
  Common.memCpy_copied m dst src n

/-- The address `n` bytes below `p`. -/
def below (p n : Nat) : Nat := (p + 2 ^ 64 - n) % 2 ^ 64

/-- The size `_alloc` looks for. -/
def askedSize (sz : Nat) : Nat := if sz ≤ umaxSize then umaxSize * 2 else sz

/-- An entry of the chunk table (`_heap_chunk_t`). -/
structure Chunk where
  size : Nat
  ptr : Nat
deriving DecidableEq, Repr

/-- `cHeap` with the memory it manages. -/
structure RingHeap where
  mem : Mem
  base : Nat
  heapSz : Nat
  count : Nat
  checked : Nat

namespace RingHeap

/-- The address of entry `i`. -/
def entry (h : RingHeap) (i : Nat) : Nat := h.base + i * entrySize

/-- `(p_chunk + i)->sz`. -/
def size (h : RingHeap) (i : Nat) : Nat := h.mem.load (h.entry i) 4

/-- `(p_chunk + i)->ptr`. -/
def ptr (h : RingHeap) (i : Nat) : Nat := h.mem.load (h.entry i + 4) 8

def setSize (h : RingHeap) (i v : Nat) : RingHeap := { h with mem := h.mem.store (h.entry i) 4 v }

def setPtr (h : RingHeap) (i v : Nat) : RingHeap := { h with mem := h.mem.store (h.entry i + 4) 8 v }

/-- The first four bytes of the block at `p`. -/
def word (h : RingHeap) (p : Nat) : Nat := h.mem.load p 4

def setWord (h : RingHeap) (p v : Nat) : RingHeap := { h with mem := h.mem.store p 4 v }

/-- `init`. -/
def init (mem : Mem) (base heapSz : Nat) : RingHeap := { mem, base, heapSz, count := 0, checked := 0 }

/-- The loop of `check` from entry `i` on, with `left` entries to go, `p` the start of the chunk before. -/
def checkFrom (h : RingHeap) : Nat → Nat → Nat → Nat
  | _, 0, _ => 0
  | i, left + 1, p =>
    let p := below p (h.size i)
    if p ≠ h.ptr i ∨ h.size i < umaxSize then i else h.checkFrom (i + 1) left p

/-- `check`: the index of the first wrong entry, or zero. -/
def check (h : RingHeap) : Nat := h.checkFrom 0 h.count (h.base + h.heapSz)

/-- `m_check = check()`. -/
def checkAll (h : RingHeap) : RingHeap := { h with checked := h.check }

/-- What `pack` does to neighbours: entry `j` takes the chunk of entry `i`, and the entries behind `i` are moved down.
The source copies the entries `i + 1` to `m_count + 1`. -/
def mergeInto (h : RingHeap) (j i : Nat) : RingHeap :=
  let h := h.setSize j (h.size j + h.size i)
  let h := h.setPtr j (h.ptr i)
  { h with
    mem := memCpy h.mem (h.entry i) (h.entry (i + 1)) ((h.count - i + 1) * entrySize % 2 ^ 32)
    count := h.count - 1 }

/-- The loop of `pack` at entry `i`, with `left` entries to go; `j` is the entry before if it is free. -/
def packFrom : Nat → Nat → Option Nat → RingHeap → RingHeap
  | 0, _, _, h => h
  | left + 1, i, j, h =>
    if h.word (h.ptr i) = freePattern then
      match j with
      | some j => packFrom left i (some j) (h.mergeInto j i)
      | none => packFrom left (i + 1) (some i) h
    else packFrom left (i + 1) none h

/-- `pack`. -/
def pack (h : RingHeap) : RingHeap := (packFrom h.count 0 none h).checkAll

/-- `insert_in`: the upper `sz` bytes of the chunk of an entry become a chunk of their own. -/
def insertIn (h : RingHeap) (index sz : Nat) : Nat × RingHeap :=
  if index < h.count ∧ sz < h.size index then
    let h := { h with
      mem := memCpy h.mem (h.entry (index + 1)) (h.entry index) ((h.count - index) * entrySize % 2 ^ 32)
      count := h.count + 1 }
    let h := h.setSize (index + 1) (h.size index - sz)
    let h := h.setSize index sz
    let r := (h.ptr index + h.size (index + 1)) % 2 ^ 64
    (r, h.setPtr index r)
  else (0, h)

/-- The search loop of `_alloc` from entry `i` on, with `left` entries to go: the entry it stops at and the address. -/
def search (h : RingHeap) (sz : Nat) : Nat → Nat → Nat → Nat × Nat
  | i, 0, r => (i, r)
  | i, left + 1, _ =>
    let r := h.ptr i
    if h.word r = freePattern ∧ sz ≤ h.size i then (i, r) else h.search sz (i + 1) left (below r sz)

/-- What `_alloc` does where the search has stopped. -/
def place (h : RingHeap) (sz i r : Nat) : Nat × RingHeap :=
  if i = h.count then
    -- the room is checked without the entry that is about to be added
    if h.base + h.count * entrySize < r then (r, { (h.setSize i sz).setPtr i r with count := h.count + 1 }) else (0, h)
  else if h.size i - sz ≤ umaxSize then (h.ptr i, h)
  else h.insertIn i sz

/-- `_alloc`. -/
def alloc (h : RingHeap) (sz : Nat) : Nat × RingHeap :=
  if h.base = 0 then (0, h)
  else if h.checked ≠ 0 then (0, h)
  else
    let (i, r) := h.search (askedSize sz) 0 h.count (below (h.base + h.heapSz) (askedSize sz))
    let (r, h) := h.place (askedSize sz) i r
    (r, (if r ≠ 0 then h.setWord r 0 else h).checkAll)

/-- `_verify`. -/
def verify (h : RingHeap) (p : Nat) : Bool :=
  p ≠ 0 && h.word p ≠ freePattern && (List.range h.count).any fun i => h.ptr i = p

/-- `_free`. -/
def free (h : RingHeap) (p : Nat) : RingHeap := if h.verify p then (h.setWord p freePattern).pack else h

/-! ## The table as a list -/

def chunk (h : RingHeap) (i : Nat) : Chunk := ⟨h.size i, h.ptr i⟩

/-- The chunk table. -/
def chunks (h : RingHeap) : List Chunk := (List.range h.count).map h.chunk

/-- The end of the heap. -/
def top (h : RingHeap) : Nat := h.base + h.heapSz

/-- The start of the lowest chunk. -/
def low (h : RingHeap) : Nat := lowest Chunk.ptr h.top h.chunks

/-- The end of a table of `n` entries. -/
def tableEnd (h : RingHeap) (n : Nat) : Nat := h.base + n * entrySize

end RingHeap

end PreTeO.Mem
