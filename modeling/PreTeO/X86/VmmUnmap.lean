import PreTeO.Lib.RadixTree
import PreTeO.X86.VmmMap
import Mathlib.Data.Finset.Insert

/-!
# Unmapping (`arch/x86/cpu/vmmX64.cpp`)

`_unmap` is four loops inside one another, as `_map` is. A loop ends at the end of its table or when the address of the
next page is not below `vaddr_end`, and the first page is removed in any case. An empty entry of a PD or a PDP is passed by,
one of the PML4 ends all four loops, and so does a large page, by `goto _vmm_unmap_done_`. A table that has no entry left
is given back when its loop ends.
-/

namespace PreTeO.X86
set_option autoImplicit false

open Lib (Cell digit nextBlock trail missing Below Graded Unshared Grows Alters Rooted Prunes)

/-! ## Addresses -/

def pml4Addr (index : Nat) : Nat := index % 512 * 2 ^ 39
def pdpAddr (index : Nat) : Nat := index % 512 * 2 ^ 30
def pdAddr (index : Nat) : Nat := index % 512 * 2 ^ 21
def ptAddr (index : Nat) : Nat := index % 512 * 2 ^ 12

/-- `MK_VADDR_4K`. An address with the bit of `CANONICAL_SIGN` gets the bits of `CANONICAL_MASK`. -/
def mkVaddr4k (ipml4 ipdp ipd ipt offset : Nat) : Nat :=
  (if pml4Addr ipml4 / 2 ^ 47 % 2 = 1 then pml4Addr ipml4 + (2 ^ 64 - 2 ^ 48) else pml4Addr ipml4) +
    pdpAddr ipdp + pdAddr ipd + ptAddr ipt + pt4kOffset offset

/-- The address of the page of a number. -/
def pageAddr (u : Nat) : Nat := if u < 2 ^ 35 then u * 2 ^ 12 else u * 2 ^ 12 + (2 ^ 64 - 2 ^ 48)

theorem mkVaddr4k_digits {u : Nat} (small : u < 512 ^ 4) :
    mkVaddr4k (digit 512 3 u) (digit 512 2 u) (digit 512 1 u) (digit 512 0 u) 0 = pageAddr u := by
  unfold mkVaddr4k pageAddr pml4Addr pdpAddr pdAddr ptAddr pt4kOffset digit
  split_ifs <;> omega

theorem pageAddr_mono {u w : Nat} (le : u ≤ w) : pageAddr u ≤ pageAddr w := by
  unfold pageAddr
  split_ifs <;> omega

/-! ## The loops -/

/-- The state of `_unmap`: the entries of memory, the pages that were given back, the pages counted, the indices `ipt`,
`ipd`, `ipdp` and `ipml4` under 0, 1, 2 and 3, and whether `_vmm_unmap_done_` is reached from inside the loops. -/
structure UnmapRun where
  mem : Tables
  freed : List Nat
  r : Nat
  idx : Nat → Nat
  done : Bool

/-- The address of the next page. -/
def UnmapRun.vaddr (s : UnmapRun) : Nat := mkVaddr4k (s.idx 3) (s.idx 2) (s.idx 1) (s.idx 0) 0

/-- The index of a level goes up, and the one below it starts again. -/
def UnmapRun.next (s : UnmapRun) (l : Nat) : UnmapRun :=
  { s with idx := fun j => if j = l then s.idx l + 1 else if j + 1 = l then 0 else s.idx j }

/-- The page of an entry is given back and the entry cleared, if it is not empty. -/
def UnmapRun.giveBack (s : UnmapRun) (page i : Nat) : UnmapRun :=
  if s.mem page i ≠ Entry.empty then
    { s with freed := (s.mem page i).table :: s.freed, mem := s.mem.set page i Entry.empty }
  else s

/-- The entries at the start of a table that are empty: `npt`, `npd` and `npdp`. -/
def countEmpty (mem : Tables) (page : Nat) : Nat → Nat → Nat
  | 0, n => n
  | fuel + 1, n => if mem page n = Entry.empty ∧ n ≤ maxPtIndex then countEmpty mem page fuel (n + 1) else n

/-- A table without entries is given back. -/
def UnmapRun.release (s : UnmapRun) (page i table : Nat) : UnmapRun :=
  if maxPtIndex < countEmpty s.mem table 513 0 then s.giveBack page i else s

/-- The loop of a level; `entry` is what it does with an entry. -/
def unmapLoop (vaddrEnd l : Nat) (entry : UnmapRun → UnmapRun) : Nat → UnmapRun → UnmapRun
  | 0, s => s
  | fuel + 1, s =>
    if s.idx l ≤ maxPtIndex then
      let s := entry s
      if s.done = true then s
      else if vaddrEnd ≤ (s.next l).vaddr then s.next l
      else unmapLoop vaddrEnd l entry fuel (s.next l)
    else s

/-- An entry of a PT. -/
def unmapPage (page : Nat) (s : UnmapRun) : UnmapRun :=
  { s.giveBack page (s.idx 0) with r := (s.r + 1) % 2 ^ 32 }

/-- An entry of a table of tables; `skips` if an empty one is passed by. -/
def unmapEntry (l : Nat) (skips large : Bool) (sub : Nat → UnmapRun → UnmapRun) (page : Nat) (s : UnmapRun) : UnmapRun :=
  let e := s.mem page (s.idx l)
  if e = Entry.empty then if skips = true then s else { s with done := true }
  else if large = true ∧ e.ps = true then { s with done := true }
  else if (sub e.table s).done = true then sub e.table s
  else (sub e.table s).release page ((sub e.table s).idx l) e.table

def unmapPt (vaddrEnd page : Nat) : UnmapRun → UnmapRun := unmapLoop vaddrEnd 0 (unmapPage page) 512

def unmapPd (vaddrEnd page : Nat) : UnmapRun → UnmapRun :=
  unmapLoop vaddrEnd 1 (unmapEntry 1 true true (unmapPt vaddrEnd) page) 512

def unmapPdp (vaddrEnd page : Nat) : UnmapRun → UnmapRun :=
  unmapLoop vaddrEnd 2 (unmapEntry 2 true true (unmapPd vaddrEnd) page) 512

def unmapPml4 (vaddrEnd page : Nat) : UnmapRun → UnmapRun :=
  unmapLoop vaddrEnd 3 (unmapEntry 3 false false (unmapPdp vaddrEnd) page) 512

/-- The state before the loops. -/
def UnmapRun.start (mem : Tables) (vaddr : Nat) : UnmapRun :=
  { mem := mem, freed := [], r := 0, done := false
    idx := fun l =>
      match l with
      | 0 => ptIndex vaddr
      | 1 => pdIndex vaddr
      | 2 => pdpIndex vaddr
      | _ => pml4Index vaddr }

/-- `_unmap`. The pointer to the PML4 is never null. -/
def Vmm.unmap (s : Vmm) (vaddrStart vaddrEnd : Nat) : UnmapRun :=
  unmapPml4 vaddrEnd (pnToKva s.mmap) (.start s.mem vaddrStart)

/-! ## What the steps do -/

@[simp] theorem UnmapRun.next_mem (s : UnmapRun) (l : Nat) : (s.next l).mem = s.mem := rfl
@[simp] theorem UnmapRun.next_freed (s : UnmapRun) (l : Nat) : (s.next l).freed = s.freed := rfl
@[simp] theorem UnmapRun.next_done (s : UnmapRun) (l : Nat) : (s.next l).done = s.done := rfl
@[simp] theorem UnmapRun.next_idx (s : UnmapRun) (l : Nat) : (s.next l).idx l = s.idx l + 1 := if_pos rfl

theorem UnmapRun.next_upper (s : UnmapRun) {l j : Nat} (high : l < j) : (s.next l).idx j = s.idx j :=
  (if_neg (by omega)).trans (if_neg (by omega))

theorem UnmapRun.next_lower (s : UnmapRun) (l : Nat) : (s.next (l + 1)).idx l = 0 := (if_neg (by omega)).trans (if_pos rfl)

theorem UnmapRun.next_lowest (s : UnmapRun) {l j : Nat} (low : j + 1 < l) : (s.next l).idx j = s.idx j :=
  (if_neg (by omega)).trans (if_neg (by omega))

@[simp] theorem UnmapRun.giveBack_idx (s : UnmapRun) (page i : Nat) : (s.giveBack page i).idx = s.idx := by
  unfold UnmapRun.giveBack
  split_ifs <;> rfl

@[simp] theorem UnmapRun.giveBack_done (s : UnmapRun) (page i : Nat) : (s.giveBack page i).done = s.done := by
  unfold UnmapRun.giveBack
  split_ifs <;> rfl

@[simp] theorem UnmapRun.release_idx (s : UnmapRun) (page i table : Nat) : (s.release page i table).idx = s.idx := by
  unfold UnmapRun.release
  split_ifs
  · exact s.giveBack_idx page i
  · rfl

@[simp] theorem UnmapRun.release_done (s : UnmapRun) (page i table : Nat) : (s.release page i table).done = s.done := by
  unfold UnmapRun.release
  split_ifs
  · exact s.giveBack_done page i
  · rfl

theorem UnmapRun.start_idx (mem : Tables) (vaddr : Nat) {l : Nat} (level : l ≤ 3) :
    (UnmapRun.start mem vaddr).idx l = digit 512 l (pageNumber vaddr) := by
  obtain rfl | rfl | rfl | rfl : l = 0 ∨ l = 1 ∨ l = 2 ∨ l = 3 := by omega
  · exact ptIndex_eq vaddr
  · exact pdIndex_eq vaddr
  · exact pdpIndex_eq vaddr
  · exact pml4Index_eq vaddr

theorem lt_countEmpty {mem : Tables} {page fuel n : Nat} (enough : 513 ≤ fuel + n) (inside : n ≤ 512)
    (blank : ∀ j < n, mem page j = Entry.empty) :
    maxPtIndex < countEmpty mem page fuel n ↔ ∀ j < 512, mem page j = Entry.empty := by
  induction fuel generalizing n with
  | zero => omega
  | succ fuel ih =>
    rw [countEmpty]
    split_ifs with empty
    · have more := empty.2
      rw [maxPtIndex] at more
      refine ih (by omega) (by omega) fun j low => ?_
      rcases Nat.lt_or_eq_of_le (Nat.le_of_lt_succ low) with old | rfl
      · exact blank j old
      · exact empty.1
    · rw [maxPtIndex] at empty ⊢
      constructor
      · intro full j low
        exact blank j (by omega)
      · intro all
        by_contra less
        exact empty ⟨all n (by omega), by omega⟩

/-- A table is given back if none of its entries is left. -/
theorem UnmapRun.release_eq (s : UnmapRun) (page i table : Nat) :
    s.release page i table = s ∧ (∃ j < 512, s.mem table j ≠ Entry.empty) ∨
      s.release page i table = s.giveBack page i ∧ ∀ j < 512, s.mem table j = Entry.empty := by
  have counts : maxPtIndex < countEmpty s.mem table 513 0 ↔ ∀ j < 512, s.mem table j = Entry.empty :=
    lt_countEmpty le_rfl (by decide) fun j low => absurd low (Nat.not_lt_zero j)
  unfold UnmapRun.release
  split_ifs with all
  · exact .inr ⟨rfl, counts.mp all⟩
  · refine .inl ⟨rfl, ?_⟩
    have some := counts.not.mp all
    push Not at some
    exact some

end PreTeO.X86
