import PreTeO.X86.Paging

/-!
# The virtual memory manager (`arch/x86/cpu/vmmX64.cpp`)

The manager reads the tables through the kernel window: `p_to_k` sets the bits from 39 on, so of the number of a page
the lower 27 bits are left. A pointer to an entry is the page of its table and the index in it, and the null pointer is
`none`. `get_pdpe`, `get_pde` and `get_pte` also say which entries they take the base field of.
-/

namespace PreTeO.X86
set_option autoImplicit false

/-- A pointer to an entry. -/
structure Slot where
  page : Nat
  index : Nat
deriving DecidableEq, Repr

/-- `cVMMx64`: `m_is_vmm_init`, the page number of `m_mmap` and the entries of all pages of memory. -/
structure Vmm where
  isInit : Bool
  mmap : Nat
  mem : Tables

/-- `PN_TO_KVA`. -/
def pnToKva (page : Nat) : Nat := page % 2 ^ 27

/-- The table an entry names, as the kernel reaches it. -/
def Entry.table (e : Entry) : Nat := pnToKva e.base.toNat

/-- `f.t._2m.base`. -/
def Entry.base2m (e : Entry) : Nat := e.base.toNat / 2 ^ 9

namespace Vmm

/-- What a pointer points to. -/
def read (s : Vmm) (slot : Slot) : Entry := s.mem slot.page slot.index

/-- `get_pml4e`. -/
def getPml4e (s : Vmm) (va : Nat) : Option Slot :=
  if s.isInit = true ∧ s.mmap ≠ 0 then some ⟨pnToKva s.mmap, pml4Index va⟩ else none

/-- `get_pdpe`. -/
def getPdpe (s : Vmm) (va : Nat) (pml4e : Option Slot) : Option Slot × List Entry :=
  match (match pml4e with | some slot => some slot | none => s.getPml4e va) with
  | none => (none, [])
  | some slot => (some ⟨(s.read slot).table, pdpIndex va⟩, [s.read slot])

/-- `get_pde`. -/
def getPde (s : Vmm) (va : Nat) (pdpe : Option Slot) : Option Slot × List Entry :=
  let (slot, path) := match pdpe with | some slot => (some slot, []) | none => s.getPdpe va none
  match slot with
  | none => (none, path)
  | some slot =>
    if (s.read slot).ps = false then (some ⟨(s.read slot).table, pdIndex va⟩, path ++ [s.read slot]) else (none, path)

/-- `get_pte`. -/
def getPte (s : Vmm) (va : Nat) (pde : Option Slot) : Option Slot × List Entry :=
  let (slot, path) := match pde with | some slot => (some slot, []) | none => s.getPde va none
  match slot with
  | none => (none, path)
  | some slot =>
    if (s.read slot).ps = false then (some ⟨(s.read slot).table, ptIndex va⟩, path ++ [s.read slot]) else (none, path)

/-- `physical`, and the entries whose base field it follows to a table. -/
def physical (s : Vmm) (va : Nat) : Nat × List Entry :=
  match s.getPde va none with
  | (none, path) => (0, path)
  | (some pde, path) =>
    if (s.read pde).ps = false then
      match s.getPte va (some pde) with
      | (none, rest) => (0, path ++ rest)
      | (some pte, rest) => ((s.read pte).base.toNat * 2 ^ 12 + pt4kOffset va, path ++ rest)
    else ((s.read pde).base2m * 2 ^ 21 + pt2mOffset va, path)

/-- `_test`. -/
def test (s : Vmm) (va : Nat) : Bool :=
  match s.getPml4e va with
  | none => false
  | some pml4e =>
    if s.read pml4e ≠ Entry.empty then
      match s.getPdpe va (some pml4e) with
      | (none, _) => false
      | (some pdpe, _) =>
        if s.read pdpe ≠ Entry.empty then
          if (s.read pdpe).ps = false then
            match s.getPde va (some pdpe) with
            | (none, _) => false
            | (some pde, _) =>
              if s.read pde ≠ Entry.empty then
                if (s.read pde).ps = false then
                  match s.getPte va (some pde) with
                  | (none, _) => false
                  | (some pte, _) => if s.read pte ≠ Entry.empty then true else false
                else true
              else false
          else true
        else false
    else false

/-! ## The entries of an address -/

/-- The entries that the tables have for an address, level by level. -/
def pml4e (s : Vmm) (va : Nat) : Entry := s.mem (pnToKva s.mmap) (pml4Index va)
def pdpe (s : Vmm) (va : Nat) : Entry := s.mem (s.pml4e va).table (pdpIndex va)
def pde (s : Vmm) (va : Nat) : Entry := s.mem (s.pdpe va).table (pdIndex va)
def pte (s : Vmm) (va : Nat) : Entry := s.mem (s.pde va).table (ptIndex va)

/-- The manager works on a table. -/
def Ready (s : Vmm) : Prop := s.isInit = true ∧ s.mmap ≠ 0

/-- Every entry that an address leads to is empty or present, and every table lies below 512G. -/
structure Sound (s : Vmm) : Prop where
  mmap : s.mmap < 2 ^ 27
  pml4e : ∀ va, (s.pml4e va).Sound ∧ (s.pml4e va).Near
  pdpe : ∀ va, s.pml4e va ≠ Entry.empty → (s.pdpe va).Sound ∧ ((s.pdpe va).ps = false → (s.pdpe va).Near)
  pde : ∀ va, s.pml4e va ≠ Entry.empty → s.pdpe va ≠ Entry.empty → (s.pdpe va).ps = false →
    (s.pde va).Sound ∧ ((s.pde va).ps = false → (s.pde va).Near)
  pte : ∀ va, s.pml4e va ≠ Entry.empty → s.pdpe va ≠ Entry.empty → (s.pdpe va).ps = false →
    s.pde va ≠ Entry.empty → (s.pde va).ps = false → (s.pte va).Sound

end Vmm

end PreTeO.X86
