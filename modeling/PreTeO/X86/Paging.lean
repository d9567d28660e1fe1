import Mathlib.Data.BitVec

/-!
# Long mode paging (`arch/x86/include/pgdef.h`)

An entry of a page table is 64 bits, which the source splits into fields in four ways that agree on where each field is.
The walk of the processor goes from the table that `cr3` names through up to four levels; an entry of the second level
may be a page of 1G, an entry of the third a page of 2M.
-/

namespace PreTeO.X86
set_option autoImplicit false

/-- The fields of `_lm_pml4e_t`, `_lm_pdpe_t`, `_lm_pde_t` and `_lm_pte_t`. `ps` is the `pat` bit of a PTE, and the base of
a page of 2M is the upper part of `base`. -/
structure Entry where
  p : Bool
  rw : Bool
  us : Bool
  pwt : Bool
  pcd : Bool
  a : Bool
  d : Bool
  ps : Bool
  g : Bool
  avl1 : BitVec 3
  base : BitVec 28
  mbz : BitVec 12
  avl2 : BitVec 12
deriving DecidableEq, Repr

/-- The entry with `e == 0`. -/
def Entry.empty : Entry :=
  { p := false, rw := false, us := false, pwt := false, pcd := false, a := false, d := false, ps := false, g := false
    avl1 := 0, base := 0, mbz := 0, avl2 := 0 }

@[simp] theorem Entry.empty_p : Entry.empty.p = false := rfl
@[simp] theorem Entry.empty_ps : Entry.empty.ps = false := rfl
@[simp] theorem Entry.empty_base : Entry.empty.base = 0 := rfl

/-- The entries of every page of memory, by the number of the page. -/
abbrev Tables : Type := Nat → Nat → Entry

/-! ## Addresses -/

def maxPtIndex : Nat := 0x1ff

def pml4Index (va : Nat) : Nat := va / 2 ^ 39 % 512
def pdpIndex (va : Nat) : Nat := va / 2 ^ 30 % 512
def pdIndex (va : Nat) : Nat := va / 2 ^ 21 % 512
def ptIndex (va : Nat) : Nat := va / 2 ^ 12 % 512

def pt1gOffset (va : Nat) : Nat := va % 2 ^ 30
def pt2mOffset (va : Nat) : Nat := va % 2 ^ 21
def pt4kOffset (va : Nat) : Nat := va % 2 ^ 12

/-! ## The walk of the processor -/

/-- The page an entry names, in the 40 bits that the processor reads. -/
def Entry.frame (e : Entry) : Nat := e.mbz.toNat * 2 ^ 28 + e.base.toNat

/-- What the processor makes of an address. -/
structure Translation where
  addr : Nat
  write : Bool
  user : Bool
  uncached : Bool
deriving DecidableEq, Repr

/-- The translation by a page at `addr` that `leaf` names, through the entries `path`. -/
def translation (addr : Nat) (leaf : Entry) (path : List Entry) : Translation :=
  { addr := addr, write := (leaf :: path).all (·.rw), user := (leaf :: path).all (·.us), uncached := leaf.pcd }

/-- The walk from the table `cr3`. -/
def walk (mem : Tables) (cr3 va : Nat) : Option Translation :=
  let pml4e := mem cr3 (pml4Index va)
  if pml4e.p then
    let pdpe := mem pml4e.frame (pdpIndex va)
    if pdpe.p then
      if pdpe.ps then some (translation (pdpe.frame / 2 ^ 18 * 2 ^ 30 + pt1gOffset va) pdpe [pml4e])
      else
        let pde := mem pdpe.frame (pdIndex va)
        if pde.p then
          if pde.ps then some (translation (pde.frame / 2 ^ 9 * 2 ^ 21 + pt2mOffset va) pde [pdpe, pml4e])
          else
            let pte := mem pde.frame (ptIndex va)
            if pte.p then some (translation (pte.frame * 2 ^ 12 + pt4kOffset va) pte [pde, pdpe, pml4e]) else none
        else none
    else none
  else none

/-- The pages of the tables that the walk reads. -/
def walkPages (mem : Tables) (cr3 va : Nat) : List Nat :=
  let pml4e := mem cr3 (pml4Index va)
  cr3 :: if pml4e.p then
    let pdpe := mem pml4e.frame (pdpIndex va)
    pml4e.frame :: if pdpe.p ∧ ¬ pdpe.ps then
      let pde := mem pdpe.frame (pdIndex va)
      pdpe.frame :: if pde.p ∧ ¬ pde.ps then [pde.frame] else []
    else []
  else []

/-- The bits from 47 on agree. -/
def Canonical (va : Nat) : Prop := va < 2 ^ 47 ∨ 2 ^ 64 - 2 ^ 47 ≤ va ∧ va < 2 ^ 64

/-! ## Sound entries -/

/-- The entry is empty, or it is present and sets no reserved bit. -/
def Entry.Sound (e : Entry) : Prop := e = Entry.empty ∨ e.p = true ∧ e.mbz = 0

/-- The entry can name a table for the kernel, which reaches the pages below 512G. -/
def Entry.Near (e : Entry) : Prop := e.base.toNat < 2 ^ 27

instance (e : Entry) : Decidable e.Near := inferInstanceAs (Decidable (_ < _))

section Entries
variable {e : Entry}

theorem Entry.Sound.present (sound : e.Sound) : e.p = true ↔ e ≠ Entry.empty := by
  constructor
  · rintro present rfl
    cases present
  · intro some
    rcases sound with rfl | ⟨present, -⟩
    · exact absurd rfl some
    · exact present

theorem Entry.Sound.frame (sound : e.Sound) : e.frame = e.base.toNat := by
  have mbz : e.mbz = 0 := by
    rcases sound with rfl | ⟨-, mbz⟩
    · rfl
    · exact mbz
  unfold Entry.frame
  rw [mbz]
  simp

end Entries

end PreTeO.X86
