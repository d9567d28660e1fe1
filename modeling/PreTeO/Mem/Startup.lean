import Mathlib.Algebra.Group.Nat.Defs

/-!
# The startup context (`include/startup_context.h`)

What the boot code hands to the core: the memory map, the ranges it has reserved and where the page table is.
-/

namespace PreTeO.Mem
set_option autoImplicit false

def memTypeFree : Nat := 0x01
def memTypePageMap : Nat := 0x21
def maxMemTags : Nat := 32

/-- `_mem_tag_t`. -/
structure MemTag where
  addrLo : Nat
  addrHi : Nat
  sizeLo : Nat
  sizeHi : Nat
  type : Nat
deriving DecidableEq, Repr

def MemTag.address (tag : MemTag) : Nat := tag.addrHi * 2 ^ 32 + tag.addrLo
def MemTag.size (tag : MemTag) : Nat := tag.sizeHi * 2 ^ 32 + tag.sizeLo

/-- `_startup_context_t`, without what only drivers read. -/
structure StartupContext where
  ptPageSize : Nat
  ptTableSize : Nat
  ptType : Nat
  ptRange : Nat
  vbase : Nat
  mmap : List MemTag
  mmCnt : Nat
  rmap : List MemTag
  rmCnt : Nat
deriving DecidableEq, Repr

end PreTeO.Mem
