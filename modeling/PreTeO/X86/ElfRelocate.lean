import PreTeO.Lib.Bytes

/-!
# Relocating a loaded program (`arch/x86/elf/parser64.cpp`)

`adjust_rela` goes through the entries of `.rela.dyn`. An entry names a slot, a word of the program: a relative entry puts
base plus addend there, if the word is not zero and is the addend, and a jump slot gets the base added, if it is not zero.
The table itself is part of the program, and the addends in it get the base added too.
-/

namespace PreTeO.X86
set_option autoImplicit false

open Lib (Mem Byte)
open Lib.Mem (Apart digit)

/-- Addresses and words have 64 bits. -/
def word : Nat := 2 ^ 64

/-- The fields of an `Elf64_Shdr` that the loader uses. -/
structure Shdr where
  shName : Nat
  shAddr : Nat
  shOffset : Nat
  shSize : Nat
  shEntsize : Nat
  deriving DecidableEq, Repr

/-- The memory, and the ranges that were written to it, the last one first. -/
structure Image where
  mem : Mem
  written : List (Nat × Nat)

namespace Image

/-- Bytes are written to `[a, a + n)`. -/
def write (s : Image) (a n : Nat) (f : Nat → Byte) : Image := ⟨s.mem.blit a n f, (a, n) :: s.written⟩

/-- `*p = v`, for a word. -/
def put (s : Image) (a v : Nat) : Image := s.write a 8 (digit v)

/-- `*p = *p + m_base`. -/
def bump (s : Image) (base a : Nat) : Image := s.put a ((s.mem.load a 8 + base) % word)

@[simp] theorem put_mem (s : Image) (a v : Nat) : (s.put a v).mem = s.mem.store a 8 v := rfl

@[simp] theorem bump_mem (s : Image) (base a : Nat) :
    (s.bump base a).mem = s.mem.store a 8 ((s.mem.load a 8 + base) % word) := rfl

end Image

/-- `R_X86_64_JUMP_SLOT`. -/
def rJumpSlot : Nat := 7

/-- `R_X86_64_RELATIVE`. -/
def rRelative : Nat := 8

/-- `R_X86_64_IRELATIVE`. -/
def rIrelative : Nat := 37

theorem rRelative_ne_rJumpSlot : rJumpSlot ≠ rRelative := by decide

/-- `m_base + p_rel->r_offset`. -/
def slotOf (base : Nat) (m : Mem) (rel : Nat) : Nat := (base + m.load rel 8) % word

/-- `ELF64_R_TYPE(p_rel->r_info)`. -/
def typeOf (m : Mem) (rel : Nat) : Nat := m.load (rel + 8) 8 % 2 ^ 32

/-- `p_rel->r_addend`. -/
def addendOf (m : Mem) (rel : Nat) : Nat := m.load (rel + 16) 8

/-- `case R_X86_64_RELATIVE`. The addend is read again for each use of it: the slot may be the addend. -/
def relative (base : Nat) (s : Image) (rel addr : Nat) : Image :=
  let moved :=
    if s.mem.load addr 8 = addendOf s.mem rel then s.put addr ((addendOf s.mem rel + base) % word) else s
  moved.bump base (rel + 16)

/-- The body of the loop of `adjust_rela`. -/
def relaEntry (base : Nat) (s : Image) (rel : Nat) : Image :=
  let addr := slotOf base s.mem rel
  if s.mem.load addr 8 = 0 then s
  else if typeOf s.mem rel = rRelative then relative base s rel addr
  else if typeOf s.mem rel = rIrelative then s.bump base (rel + 16)
  else if typeOf s.mem rel = rJumpSlot then s.bump base addr
  else s

/-- `while(i < count)`, with the entries that are left. -/
def relaLoop (base : Nat) : Nat → Nat → Image → Image
  | 0, _, s => s
  | left + 1, rel, s => relaLoop base left ((rel + 24) % word) (relaEntry base s rel)

/-- `adjust_rela`, with the section that `section_by_name` found. There is no result if it divides by zero. -/
def adjustRela (base : Nat) (section? : Option Shdr) (s : Image) : Option (Bool × Image) :=
  match section? with
  | none => some (false, s)
  | some h =>
    if h.shEntsize = 0 then none
    else some (true, relaLoop base (h.shSize / h.shEntsize % 2 ^ 32) ((base + h.shAddr) % word) s)

/-! ## One entry -/

/-- The entry has a slot to relocate. -/
def Moves (m : Mem) (rel : Nat) : Prop := typeOf m rel = rRelative ∨ typeOf m rel = rJumpSlot

/-- The entry uses its addend, and adds the base to it. -/
def TakesAddend (m : Mem) (rel : Nat) : Prop := typeOf m rel = rRelative ∨ typeOf m rel = rIrelative

/-- What an entry makes of the word in its slot. -/
def moved (base type addend v : Nat) : Nat :=
  if type = rRelative then if v ≠ 0 ∧ v = addend then (addend + base) % word else v
  else if v ≠ 0 then (v + base) % word else v

/-- Relocating a relative slot twice is relocating it once. -/
theorem moved_moved (base addend v : Nat) :
    moved base rRelative addend (moved base rRelative addend v) = moved base rRelative addend v := by
  simp only [moved, if_true]
  by_cases first : v ≠ 0 ∧ v = addend
  · simp only [if_pos first]
    split_ifs with second
    · rfl
    · rfl
  · simp only [if_neg first]

section Entry
variable {base : Nat} {s : Image} {rel : Nat}

/-- An entry writes to its slot, if it has one, and to its addend, if it uses that. -/
theorem relaEntry_out {a : Nat} (slot : Moves s.mem rel → a < slotOf base s.mem rel ∨ slotOf base s.mem rel + 8 ≤ a)
    (addend : TakesAddend s.mem rel → a < rel + 16 ∨ rel + 24 ≤ a) : (relaEntry base s rel).mem a = s.mem a := by
  simp only [relaEntry]
  split_ifs with zero isRelative isIrelative isJump
  · rfl
  · have out := slot (.inl isRelative)
    have out' := addend (.inl isRelative)
    simp only [relative]
    split_ifs
    · rw [Image.bump_mem, Mem.store_out (by omega), Image.put_mem, Mem.store_out out]
    · rw [Image.bump_mem, Mem.store_out (by omega)]
  · have out := addend (.inr isIrelative)
    rw [Image.bump_mem, Mem.store_out (by omega)]
  · rw [Image.bump_mem, Mem.store_out (slot (.inr isJump))]
  · rfl

theorem word_eq : word = 256 ^ 8 := by decide

/-- A word that is stored is loaded again. -/
theorem load_put (m : Mem) (a v : Nat) : (m.store a 8 (v % word)).load a 8 = v % word := by
  rw [Mem.load_store, word_eq, Nat.mod_mod]

/-- A slot outside of the addend of its entry is relocated. -/
theorem relaEntry_slot (moves : Moves s.mem rel)
    (outside : TakesAddend s.mem rel → Apart (slotOf base s.mem rel) 8 (rel + 16) 8) :
    (relaEntry base s rel).mem.load (slotOf base s.mem rel) 8 =
      moved base (typeOf s.mem rel) (addendOf s.mem rel) (s.mem.load (slotOf base s.mem rel) 8) := by
  simp only [relaEntry, moved]
  by_cases zero : s.mem.load (slotOf base s.mem rel) 8 = 0
  · simp [zero]
  rw [if_neg zero]
  by_cases isRelative : typeOf s.mem rel = rRelative
  · have apart := outside (.inl isRelative)
    rw [if_pos isRelative, if_pos isRelative, relative]
    by_cases same : s.mem.load (slotOf base s.mem rel) 8 = addendOf s.mem rel
    · simp only [if_pos same, if_pos (And.intro zero same)]
      rw [Image.bump_mem, Mem.load_store_out apart, Image.put_mem, load_put]
    · simp only [if_neg same, if_neg (fun both => same (And.right both))]
      rw [Image.bump_mem, Mem.load_store_out apart]
  · have isJump : typeOf s.mem rel = rJumpSlot := moves.resolve_left isRelative
    have notIndirect : typeOf s.mem rel ≠ rIrelative := by rw [isJump]; decide
    rw [if_neg isRelative, if_neg notIndirect, if_pos isJump, if_neg isRelative, if_pos zero, Image.bump_mem, load_put]

end Entry

/-! ## The table -/

/-- Consecutive entries, as they are in memory before the loop. -/
structure RelaTable where
  base : Nat
  first : Nat
  count : Nat
  mem : Mem

namespace RelaTable

def entry (t : RelaTable) (k : Nat) : Nat := t.first + 24 * k

def slot (t : RelaTable) (k : Nat) : Nat := slotOf t.base t.mem (t.entry k)

def type (t : RelaTable) (k : Nat) : Nat := typeOf t.mem (t.entry k)

def addend (t : RelaTable) (k : Nat) : Nat := addendOf t.mem (t.entry k)

/-- Entry `k` has a slot to relocate. -/
def Slotted (t : RelaTable) (k : Nat) : Prop := Moves t.mem (t.entry k)

/-- The word in the slot of entry `k`, at first. -/
def linked (t : RelaTable) (k : Nat) : Nat := t.mem.load (t.slot k) 8

/-- What entry `k` makes of a word. -/
def value (t : RelaTable) (k v : Nat) : Nat := moved t.base (t.type k) (t.addend k) v

/-- The addend of entry `k` is used. -/
def Added (t : RelaTable) (k : Nat) : Prop := TakesAddend t.mem (t.entry k)

/-- Slots are outside of what is still to be read of the entries behind their own, and outside of the addends that are used.
Two entries for one slot are relative, with one addend. -/
structure Separate (t : RelaTable) : Prop where
  fields : ∀ j k, j < k → k < t.count → t.Slotted j → Apart (t.slot j) 8 (t.entry k) 16
  addends : ∀ j k, j < t.count → k < t.count → t.Slotted j → t.Added k → Apart (t.slot j) 8 (t.entry k + 16) 8
  slots : ∀ j k, j < t.count → k < t.count → j ≠ k → t.Slotted j → t.Slotted k →
    Apart (t.slot j) 8 (t.slot k) 8 ∨
      (t.slot j = t.slot k ∧ t.type j = rRelative ∧ t.type k = rRelative ∧ t.addend j = t.addend k)

/-- After `i` entries: what is read of the others is as it was, and so is each byte outside of table and slots. A slot is
relocated if one of the `i` entries names it. -/
structure Progress (t : RelaTable) (i : Nat) (m : Mem) : Prop where
  later : ∀ k, i ≤ k → k < t.count → ∀ a, t.entry k ≤ a → a < t.entry k + 16 → m a = t.mem a
  laterAddend : ∀ k, i ≤ k → k < t.count → t.Added k → ∀ a, t.entry k + 16 ≤ a → a < t.entry k + 24 → m a = t.mem a
  frame : ∀ a, (a < t.first ∨ t.entry t.count ≤ a) →
    (∀ k, k < t.count → t.Slotted k → a < t.slot k ∨ t.slot k + 8 ≤ a) → m a = t.mem a
  done : ∀ k, k < t.count → t.Slotted k → (∃ j, j < i ∧ t.Slotted j ∧ t.slot j = t.slot k) →
    m.load (t.slot k) 8 = t.value k (t.linked k)
  left : ∀ k, k < t.count → t.Slotted k → (∀ j, j < i → t.Slotted j → t.slot j ≠ t.slot k) →
    m.load (t.slot k) 8 = t.linked k

section Steps
variable {t : RelaTable} {i : Nat} {s : Image}

/-- An entry is inside of the table. -/
theorem entry_inside (less : i < t.count) : t.first ≤ t.entry i ∧ t.entry i + 24 ≤ t.first + 24 * t.count := by
  simp only [entry]
  omega

theorem entry_behind (t : RelaTable) {i k : Nat} (less : i < k) : t.entry i + 24 ≤ t.entry k := by
  simp only [entry]
  omega

/-- Entries for one slot make the same of it. -/
theorem Separate.same_value (separate : t.Separate) {j k : Nat} (hj : j < t.count) (hk : k < t.count)
    (slotted : t.Slotted j) (slotted' : t.Slotted k) (same : t.slot j = t.slot k) (v : Nat) :
    t.value j v = t.value k v := by
  by_cases eq : j = k
  · rw [eq]
  rcases separate.slots j k hj hk eq slotted slotted' with apart | ⟨-, hj', hk', addends⟩
  · rw [same] at apart
    rcases apart with apart | apart <;> omega
  · rw [value, value, hj', hk', addends]

/-- The offset and the type of an entry that was not reached are still what they were. -/
theorem Progress.field (progress : t.Progress i s.mem) (less : i < t.count) {k : Nat} (inside : k + 8 ≤ 16) :
    s.mem.load (t.entry i + k) 8 = t.mem.load (t.entry i + k) 8 := by
  apply Mem.load_congr
  intro a low high
  exact progress.later i (Nat.le_refl i) less a (by omega) (by omega)

theorem Progress.slot_eq (progress : t.Progress i s.mem) (less : i < t.count) :
    slotOf t.base s.mem (t.entry i) = t.slot i := by
  have field := progress.field (k := 0) less (by omega)
  rw [Nat.add_zero] at field
  rw [slot, slotOf, slotOf, field]

theorem Progress.type_eq (progress : t.Progress i s.mem) (less : i < t.count) :
    typeOf s.mem (t.entry i) = t.type i := by
  rw [type, typeOf, typeOf, progress.field less (by omega)]

theorem Progress.addend_eq (progress : t.Progress i s.mem) (less : i < t.count) (added : t.Added i) :
    addendOf s.mem (t.entry i) = t.addend i := by
  rw [addend, addendOf, addendOf]
  apply Mem.load_congr
  intro a low high
  exact progress.laterAddend i (Nat.le_refl i) less added a low (by omega)

theorem Progress.moves_iff (progress : t.Progress i s.mem) (less : i < t.count) :
    Moves s.mem (t.entry i) ↔ t.Slotted i := by
  rw [Slotted, Moves, Moves, progress.type_eq less, type]

theorem Progress.takes_iff (progress : t.Progress i s.mem) (less : i < t.count) :
    TakesAddend s.mem (t.entry i) ↔ t.Added i := by
  rw [Added, TakesAddend, TakesAddend, progress.type_eq less, type]

/-- The bytes that entry `i` leaves alone. -/
theorem Progress.out (progress : t.Progress i s.mem) (less : i < t.count) {a : Nat}
    (slot : t.Slotted i → a < t.slot i ∨ t.slot i + 8 ≤ a)
    (addend : t.Added i → a < t.entry i + 16 ∨ t.entry i + 24 ≤ a) :
    (relaEntry t.base s (t.entry i)).mem a = s.mem a := by
  apply relaEntry_out
  · intro moves
    rw [progress.slot_eq less]
    exact slot ((progress.moves_iff less).1 moves)
  · exact fun takes => addend ((progress.takes_iff less).1 takes)

/-- Entry `i` relocates its slot. -/
theorem Progress.slot_moved (progress : t.Progress i s.mem) (separate : t.Separate) (less : i < t.count)
    (slotted : t.Slotted i) :
    (relaEntry t.base s (t.entry i)).mem.load (t.slot i) 8 = t.value i (s.mem.load (t.slot i) 8) := by
  have outside : TakesAddend s.mem (t.entry i) → Apart (slotOf t.base s.mem (t.entry i)) 8 (t.entry i + 16) 8 := by
    intro takes
    rw [progress.slot_eq less]
    exact separate.addends i i less less slotted ((progress.takes_iff less).1 takes)
  have now := relaEntry_slot ((progress.moves_iff less).2 slotted) outside
  rw [progress.slot_eq less, progress.type_eq less] at now
  rw [now, value]
  rcases slotted with isRelative | isJump
  · rw [progress.addend_eq less (.inl isRelative)]
  · -- the addend of a jump slot is not looked at
    have isJump' : t.type i = rJumpSlot := isJump
    simp only [moved, isJump', if_neg rRelative_ne_rJumpSlot]

/-- Entry `i` leaves the other slots alone. -/
theorem Progress.slot_kept (progress : t.Progress i s.mem) (separate : t.Separate) (less : i < t.count) {k : Nat}
    (hk : k < t.count) (slotted : t.Slotted k) (other : t.Slotted i → t.slot i ≠ t.slot k) :
    (relaEntry t.base s (t.entry i)).mem.load (t.slot k) 8 = s.mem.load (t.slot k) 8 := by
  apply Mem.load_congr
  intro a low high
  apply progress.out less
  · intro slotted'
    have different : i ≠ k := fun eq => other slotted' (congrArg t.slot eq)
    rcases separate.slots i k less hk different slotted' slotted with apart | ⟨same, -⟩
    · rcases apart with h | h <;> omega
    · exact absurd same (other slotted')
  · intro added
    rcases separate.addends k i hk less slotted added with h | h <;> omega

/-- One entry. -/
theorem Progress.step (progress : t.Progress i s.mem) (separate : t.Separate) (less : i < t.count) :
    t.Progress (i + 1) (relaEntry t.base s (t.entry i)).mem where
  later k le hk a low high := by
    have behind := t.entry_behind le
    rw [progress.out less _ fun _ => .inr (by omega)]
    · exact progress.later k (Nat.le_of_succ_le le) hk a low high
    · intro slotted
      rcases separate.fields i k le hk slotted with h | h <;> omega
  laterAddend k le hk added a low high := by
    have behind := t.entry_behind le
    rw [progress.out less _ fun _ => .inr (by omega)]
    · exact progress.laterAddend k (Nat.le_of_succ_le le) hk added a low high
    · intro slotted
      rcases separate.addends i k less hk slotted added with h | h <;> omega
  frame a outside slots := by
    have last : t.entry t.count = t.first + 24 * t.count := rfl
    have inside := entry_inside less
    rw [progress.out less (slots i less) fun _ => by omega]
    exact progress.frame a outside slots
  done k hk slotted named := by
    by_cases mine : t.Slotted i ∧ t.slot i = t.slot k
    · obtain ⟨slotted', same⟩ := mine
      have now := progress.slot_moved separate less slotted'
      rw [same, separate.same_value less hk slotted' slotted same] at now
      rw [now]
      by_cases before : ∃ j, j < i ∧ t.Slotted j ∧ t.slot j = t.slot k
      · -- the slot was relocated before, by a relative entry
        rw [progress.done k hk slotted before]
        obtain ⟨j, hj, slotted'', same'⟩ := before
        rcases separate.slots j i (by omega) less (by omega) slotted'' slotted' with apart | ⟨-, -, hi, -⟩
        · rw [same', same] at apart
          rcases apart with h | h <;> omega
        · have type (v : Nat) : t.value k v = moved t.base rRelative (t.addend i) v := by
            rw [← separate.same_value less hk slotted' slotted same, value, hi]
          rw [type, type, moved_moved]
      · rw [progress.left k hk slotted]
        intro j hj slotted'' same'
        exact before ⟨j, hj, slotted'', same'⟩
    · rw [progress.slot_kept separate less hk slotted fun slotted' same => mine ⟨slotted', same⟩]
      apply progress.done k hk slotted
      obtain ⟨j, hj, slotted', same⟩ := named
      rcases Nat.lt_succ_iff_lt_or_eq.1 hj with earlier | eq
      · exact ⟨j, earlier, slotted', same⟩
      · rw [eq] at slotted' same
        exact absurd ⟨slotted', same⟩ mine
  left k hk slotted none := by
    rw [progress.slot_kept separate less hk slotted (none i (Nat.lt_succ_self i))]
    exact progress.left k hk slotted fun j hj => none j (by omega)

/-- The loop, from entry `i` on. -/
theorem Progress.run (separate : t.Separate) (room : t.entry t.count ≤ word) {left i rel : Nat} {s : Image}
    (progress : t.Progress i s.mem) (rest : i + left = t.count) (here : left ≠ 0 → rel = t.entry i) :
    t.Progress t.count (relaLoop t.base left rel s).mem := by
  induction left generalizing i rel s with
  | zero =>
    rw [Nat.add_zero] at rest
    rw [← rest, relaLoop]
    exact progress
  | succ left ih =>
    have eq := here (Nat.succ_ne_zero left)
    rw [relaLoop, eq]
    apply ih (progress.step separate (by omega)) (by omega)
    intro more
    have next : t.entry i + 24 = t.entry (i + 1) := rfl
    have below : t.entry (i + 1) < t.entry t.count := by
      simp only [entry]
      omega
    rw [next, Nat.mod_eq_of_lt (by omega)]

theorem Progress.start (s : Image) (same : t.mem = s.mem) : t.Progress 0 s.mem where
  later _ _ _ _ _ _ := by rw [same]
  laterAddend _ _ _ _ _ _ _ := by rw [same]
  frame _ _ _ := by rw [same]
  done k _ _ named := by
    obtain ⟨j, hj, -⟩ := named
    omega
  left k _ _ _ := by rw [linked, same]

end Steps

end RelaTable

/-! ## The program -/

/-- The program is at `[base, base + size)`, and `.rela.dyn` is in it. -/
structure Placed (base size : Nat) (h : Shdr) : Prop where
  image : base + size ≤ word
  table : h.shAddr + h.shSize ≤ size
  entries : 24 ≤ h.shEntsize

namespace Shdr

/-- The number of entries. -/
def count (h : Shdr) : Nat := h.shSize / h.shEntsize

/-- Where entry `k` is. -/
def entryAt (h : Shdr) (base k : Nat) : Nat := base + h.shAddr + h.shEntsize * k

/-- The loop finds the entries: they have the size that it steps by, and `count` has 32 bits. -/
def Readable (h : Shdr) : Prop := (h.shEntsize = 24 ∨ h.count ≤ 1) ∧ h.count < 2 ^ 32

/-- The table that the loop goes through. -/
def relaTable (h : Shdr) (base : Nat) (m : Mem) : RelaTable := ⟨base, base + h.shAddr, h.count, m⟩

end Shdr

/-- What relocation does to a program. -/
structure Relocated (base size : Nat) (h : Shdr) (m m' : Mem) : Prop where
  relative : ∀ k, k < h.count → typeOf m (h.entryAt base k) = rRelative →
    m'.load (slotOf base m (h.entryAt base k)) 8 = (base + addendOf m (h.entryAt base k)) % word
  jumpSlot : ∀ k, k < h.count → typeOf m (h.entryAt base k) = rJumpSlot →
    m'.load (slotOf base m (h.entryAt base k)) 8 = (m.load (slotOf base m (h.entryAt base k)) 8 + base) % word
  others : ∀ a, base ≤ a → a < base + size → (a < base + h.shAddr ∨ base + h.shAddr + h.shSize ≤ a) →
    (∀ k, k < h.count → Moves m (h.entryAt base k) →
      a < slotOf base m (h.entryAt base k) ∨ slotOf base m (h.entryAt base k) + 8 ≤ a) → m' a = m a

/-- The slots have what the loop expects in them: a relative slot its addend, which is not zero, or what it is to have, and
a jump slot a word that is not zero, unless nothing is to be added. -/
def Expected (base : Nat) (h : Shdr) (m : Mem) : Prop :=
  ∀ k, k < h.count →
    let slot := m.load (slotOf base m (h.entryAt base k)) 8
    let addend := addendOf m (h.entryAt base k)
    (typeOf m (h.entryAt base k) = rRelative → (slot = addend ∧ slot ≠ 0) ∨ slot = (base + addend) % word) ∧
      (typeOf m (h.entryAt base k) = rJumpSlot → slot ≠ 0 ∨ base % word = 0)

section Program
variable {base size : Nat} {h : Shdr} {s : Image}

theorem moved_relative_iff (base addend v : Nat) :
    moved base rRelative addend v = (base + addend) % word ↔ (v = addend ∧ v ≠ 0) ∨ v = (base + addend) % word := by
  simp only [moved, if_true]
  by_cases both : v ≠ 0 ∧ v = addend
  · rw [if_pos both, Nat.add_comm]
    exact ⟨fun _ => .inl ⟨both.2, both.1⟩, fun _ => rfl⟩
  · rw [if_neg both]
    exact ⟨.inr, fun cases => cases.resolve_left fun pair => both ⟨pair.2, pair.1⟩⟩

theorem moved_jumpSlot_iff (base addend v : Nat) :
    moved base rJumpSlot addend v = (v + base) % word ↔ v ≠ 0 ∨ base % word = 0 := by
  simp only [moved, if_neg rRelative_ne_rJumpSlot]
  by_cases zero : v = 0
  · rw [zero, if_neg (fun ne => ne rfl), Nat.zero_add]
    exact ⟨fun eq => .inr eq.symm, fun cases => (cases.resolve_left (fun ne => ne rfl)).symm⟩
  · rw [if_pos zero]
    exact ⟨fun _ => .inl zero, fun _ => rfl⟩

/-- An entry is where the loop looks for it. -/
theorem Shdr.Readable.entry_eq (readable : h.Readable) (m : Mem) {k : Nat} (less : k < h.count) :
    (h.relaTable base m).entry k = h.entryAt base k := by
  have same : 24 * k = h.shEntsize * k := by
    rcases readable.1 with size | few
    · rw [size]
    · have zero : k = 0 := by omega
      rw [zero, Nat.mul_zero, Nat.mul_zero]
  rw [RelaTable.entry, Shdr.relaTable, Shdr.entryAt, same]

/-- The entries are inside the section. -/
theorem Placed.entries_inside (placed : Placed base size h) : 24 * h.count ≤ h.shSize := by
  have entries := Nat.mul_le_mul_right h.count placed.entries
  have division := Nat.mul_div_le h.shSize h.shEntsize
  rw [Shdr.count] at *
  omega

/-- `adjust_rela` finishes, and its loop goes through the table. -/
theorem Placed.adjustRela_eq (placed : Placed base size h) (readable : h.Readable)
    (separate : (h.relaTable base s.mem).Separate) :
    ∃ s', adjustRela base (some h) s = some (true, s') ∧
      (h.relaTable base s.mem).Progress (h.relaTable base s.mem).count s'.mem := by
  have entries := placed.entries
  have inside := placed.entries_inside
  have table := placed.table
  have image := placed.image
  refine ⟨relaLoop base h.count ((base + h.shAddr) % word) s, ?_, ?_⟩
  · rw [adjustRela, if_neg (by omega), ← Shdr.count, Nat.mod_eq_of_lt readable.2]
  · apply RelaTable.Progress.run separate _ (RelaTable.Progress.start s rfl) (Nat.zero_add _)
    · intro more
      have positive : h.count ≠ 0 := more
      show (base + h.shAddr) % word = base + h.shAddr + 24 * 0
      rw [Nat.mod_eq_of_lt (by omega), Nat.mul_zero, Nat.add_zero]
    · show base + h.shAddr + 24 * h.count ≤ word
      omega

/-- A program whose entries are found and whose slots are separate is relocated if and only if the slots have what the loop
expects in them. -/
theorem relocated_iff (base size : Nat) (h : Shdr) (s : Image) (placed : Placed base size h) (readable : h.Readable)
    (separate : (h.relaTable base s.mem).Separate) :
    (∃ s', adjustRela base (some h) s = some (true, s') ∧ Relocated base size h s.mem s'.mem) ↔
      Expected base h s.mem := by
  obtain ⟨s', eq, progress⟩ := placed.adjustRela_eq readable separate
  have value {k : Nat} (less : k < h.count) (slotted : Moves s.mem (h.entryAt base k)) :
      s'.mem.load (slotOf base s.mem (h.entryAt base k)) 8 =
        moved base (typeOf s.mem (h.entryAt base k)) (addendOf s.mem (h.entryAt base k))
          (s.mem.load (slotOf base s.mem (h.entryAt base k)) 8) := by
    rw [← readable.entry_eq s.mem less] at slotted ⊢
    exact progress.done k less slotted ⟨k, less, slotted, rfl⟩
  have both : (∃ s', adjustRela base (some h) s = some (true, s') ∧ Relocated base size h s.mem s'.mem) ↔
      Relocated base size h s.mem s'.mem := by
    constructor
    · rintro ⟨s'', eq', relocated⟩
      rw [eq, Option.some.injEq, Prod.mk.injEq] at eq'
      rw [eq'.2]
      exact relocated
    · exact fun relocated => ⟨s', eq, relocated⟩
  rw [both]
  constructor
  · intro relocated k less
    constructor
    · intro isRelative
      have now := relocated.relative k less isRelative
      rw [value less (.inl isRelative), isRelative] at now
      exact (moved_relative_iff _ _ _).1 now
    · intro isJump
      have now := relocated.jumpSlot k less isJump
      rw [value less (.inr isJump), isJump] at now
      exact (moved_jumpSlot_iff _ _ _).1 now
  · intro expected
    refine ⟨?_, ?_, ?_⟩
    · intro k less isRelative
      rw [value less (.inl isRelative), isRelative]
      exact (moved_relative_iff _ _ _).2 ((expected k less).1 isRelative)
    · intro k less isJump
      rw [value less (.inr isJump), isJump]
      exact (moved_jumpSlot_iff _ _ _).2 ((expected k less).2 isJump)
    · intro a low high outside slots
      apply progress.frame a
      · have inside := placed.entries_inside
        have last : (h.relaTable base s.mem).entry (h.relaTable base s.mem).count = base + h.shAddr + 24 * h.count := rfl
        have first : (h.relaTable base s.mem).first = base + h.shAddr := rfl
        omega
      · intro k less slotted
        rw [RelaTable.slot]
        rw [RelaTable.Slotted] at slotted
        rw [readable.entry_eq s.mem less] at slotted ⊢
        exact slots k less slotted

end Program

/-- A program at 4096 with one relative entry: offset 64, addend 256, and `v` in the slot. -/
def oneRelative (v : Nat) : Image :=
  ⟨(((Mem.store (fun _ => 0) 4096 8 64).store 4104 8 8).store 4112 8 256).store 4160 8 v, []⟩

/-- The section of its table. -/
def oneEntry : Shdr := { shName := 0, shAddr := 0, shOffset := 0, shSize := 24, shEntsize := 24 }

theorem oneEntry_placed : Placed 4096 4096 oneEntry := by
  constructor <;> decide

theorem relocated_iff_linked :
    (∃ s', adjustRela 4096 (some oneEntry) (oneRelative 256) = some (true, s') ∧
        Relocated 4096 4096 oneEntry (oneRelative 256).mem s'.mem) ↔
      Expected 4096 oneEntry (oneRelative 256).mem := by
  apply relocated_iff 4096 4096 oneEntry (oneRelative 256) oneEntry_placed ⟨.inl rfl, by decide⟩
  have single : ∀ k, k < (oneEntry.relaTable 4096 (oneRelative 256).mem).count → k = 0 := fun k less =>
    Nat.lt_one_iff.1 less
  constructor
  · intro j k before less _
    exact absurd before (by rw [single k less]; exact Nat.not_lt_zero j)
  · intro j k hj hk _ _
    rw [single j hj, single k hk]
    right
    decide +kernel
  · intro j k hj hk different
    exact absurd ((single j hj).trans (single k hk).symm) different

/-- A slot that is zero is left as it is, whatever the addend. -/
theorem zero_slot_not_relocated :
    ¬ (∀ (base size : Nat) (h : Shdr) (s : Image), Placed base size h →
      ∃ s', adjustRela base (some h) s = some (true, s') ∧ Relocated base size h s.mem s'.mem) := by
  intro claim
  obtain ⟨s', eq, relocated⟩ := claim 4096 4096 oneEntry (oneRelative 0) oneEntry_placed
  have result : s' = relaEntry 4096 (oneRelative 0) 4096 := by
    have run : adjustRela 4096 (some oneEntry) (oneRelative 0) = some (true, relaEntry 4096 (oneRelative 0) 4096) := rfl
    rw [run, Option.some.injEq, Prod.mk.injEq] at eq
    exact eq.2.symm
  have slot := relocated.relative 0 (by decide) (by decide +kernel)
  rw [result] at slot
  revert slot
  decide +kernel

end PreTeO.X86
