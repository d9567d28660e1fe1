import PreTeO.Mgfs3.Str
import PreTeO.X86.ElfRelocate

/-!
# Loading a program (`arch/x86/elf/parser64.cpp`, `core/common/ext_ldr.cpp`)

The extension loader allocates the sum of the sizes of the loadable segments, in pages, and `load` puts each segment at its
virtual address behind the start of the allocation and relocates the program. Nothing compares the addresses with the size.
-/

namespace PreTeO.X86
set_option autoImplicit false

open Lib (Mem Byte)
open Mgfs3 (strCmp)

/-- A file, by what `fread` at an offset reads of it: at most the bytes that are asked for. -/
structure File where
  read : Nat → Nat → List Byte
  bounded : ∀ off n, (read off n).length ≤ n

/-- The file with these bytes. -/
def File.ofBytes (bytes : List Byte) : File where
  read off n := (bytes.drop off).take n
  bounded off n := by simp

/-- Bytes that were read, as a record in memory. -/
def record (bytes : List Byte) : Mem := fun i => bytes.getD i 0

/-- `fread` of a whole record. -/
def File.record? (f : File) (off size : Nat) : Option Mem :=
  let bytes := f.read off size
  if bytes.length = size then some (record bytes) else none

/-- The fields of `Elf64_Ehdr` that the parser uses; `ident` has the magic bytes and the class. -/
structure Ehdr where
  ident : List Nat
  ePhoff : Nat
  eShoff : Nat
  ePhentsize : Nat
  ePhnum : Nat
  eShnum : Nat
  eShstrndx : Nat
  deriving DecidableEq, Repr

def Ehdr.ofRecord (r : Mem) : Ehdr where
  ident := [r.load 0 1, r.load 1 1, r.load 2 1, r.load 3 1, r.load 4 1]
  ePhoff := r.load 32 8
  eShoff := r.load 40 8
  ePhentsize := r.load 54 2
  ePhnum := r.load 56 2
  eShnum := r.load 60 2
  eShstrndx := r.load 62 2

/-- The fields of `Elf64_Phdr` that the parser uses. -/
structure Phdr where
  pType : Nat
  pOffset : Nat
  pVaddr : Nat
  pFilesz : Nat
  pMemsz : Nat
  deriving DecidableEq, Repr

def Phdr.ofRecord (r : Mem) : Phdr where
  pType := r.load 0 4
  pOffset := r.load 8 8
  pVaddr := r.load 16 8
  pFilesz := r.load 32 8
  pMemsz := r.load 40 8

def Shdr.ofRecord (r : Mem) : Shdr where
  shName := r.load 0 4
  shAddr := r.load 16 8
  shOffset := r.load 24 8
  shSize := r.load 32 8
  shEntsize := r.load 56 8

/-- `PT_LOAD`. -/
def ptLoad : Nat := 1

/-- `identify`: the magic bytes, and `ELFCLASS64`. -/
def Ehdr.identify (hdr : Ehdr) : Bool := hdr.ident = [0x7f, 0x45, 0x4c, 0x46, 2]

/-- `sh_entry`. -/
def shEntry (f : File) (hdr : Ehdr) (index : Nat) : Option Shdr :=
  if index < hdr.eShnum then (f.record? ((hdr.eShoff + index * 64) % word) 64).map Shdr.ofRecord else none

/-- `ph_entry`; it compares the index with the size of an entry. -/
def phEntry (f : File) (hdr : Ehdr) (index : Nat) : Option Phdr :=
  if index < hdr.ePhentsize then (f.record? ((hdr.ePhoff + index * 56) % word) 56).map Phdr.ofRecord else none

/-- A parser that accepted its file: the header, and where the section names are in memory. -/
structure Parser where
  file : File
  hdr : Ehdr
  snames : Nat

/-- `load_snames`, with the addresses that the heap gives. The names are in memory if it succeeds. -/
def loadSnames (f : File) (hdr : Ehdr) (heap : Nat → Nat) (m : Mem) : Option (Nat × Mem) :=
  if hdr.eShstrndx = 0 then none
  else
    match shEntry f hdr hdr.eShstrndx with
    | none => none
    | some names =>
      let snames := heap ((names.shSize + 1) % 2 ^ 32)
      let bytes := f.read names.shOffset (names.shSize % 2 ^ 32)
      if snames ≠ 0 ∧ bytes.length = names.shSize then some (snames, m.blit snames bytes.length (record bytes))
      else none

/-- `init` of a clone, for a handle of a file. -/
def Parser.init (f : File) (heap : Nat → Nat) (m : Mem) : Option (Parser × Mem) :=
  match (f.record? 0 64).map Ehdr.ofRecord with
  | none => none
  | some hdr =>
    if hdr.identify then (loadSnames f hdr heap m).map fun names => (⟨f, hdr, names.1⟩, names.2) else none

namespace Parser

/-- `while(pidx < m_hdr.e_phnum)` of `program_size`, with the entries that are left. -/
def sizeLoop (p : Parser) : Nat → Nat → Nat → Nat
  | 0, _, r => r
  | left + 1, pidx, r =>
    match phEntry p.file p.hdr pidx with
    | none => p.sizeLoop left (pidx + 1) r
    | some phdr => p.sizeLoop left (pidx + 1) (if phdr.pType = ptLoad then (r + phdr.pMemsz) % 2 ^ 32 else r)

/-- `program_size`. -/
def programSize (p : Parser) : Nat := p.sizeLoop p.hdr.ePhnum 0 0

/-- The bytes that `load_segment` reads. -/
def segmentBytes (p : Parser) (phdr : Phdr) : List Byte := p.file.read phdr.pOffset (phdr.pFilesz % 2 ^ 32)

/-- `load_segment`. -/
def loadSegment (p : Parser) (phdr : Phdr) (dst : Nat) (s : Image) : Bool × Image :=
  let bytes := p.segmentBytes phdr
  (bytes.length = phdr.pFilesz, s.write dst bytes.length (record bytes))

/-- `while(pidx < m_hdr.e_phnum)` of `load`, with the entries that are left: whether it reached the last one. -/
def loadSegments (p : Parser) (dst : Nat) : Nat → Nat → Image → Bool × Image
  | 0, _, s => (true, s)
  | left + 1, pidx, s =>
    match phEntry p.file p.hdr pidx with
    | none => p.loadSegments dst left (pidx + 1) s
    | some phdr =>
      if phdr.pType = ptLoad then
        let segment := p.loadSegment phdr ((dst + phdr.pVaddr) % word) s
        if segment.1 then p.loadSegments dst left (pidx + 1) segment.2 else segment
      else p.loadSegments dst left (pidx + 1) s

/-- `while(sidx < m_hdr.e_shnum)` of `section_by_name`. -/
def sectionLoop (p : Parser) (name : Nat → Byte) (m : Mem) : Nat → Nat → Option Shdr
  | 0, _ => none
  | left + 1, sidx =>
    match shEntry p.file p.hdr sidx with
    | none => p.sectionLoop name m left (sidx + 1)
    | some shdr =>
      if strCmp name (fun i => m (p.snames + shdr.shName + i)) = 0 then some shdr
      else p.sectionLoop name m left (sidx + 1)

/-- `section_by_name`. -/
def sectionByName (p : Parser) (name : Nat → Byte) (m : Mem) : Option Shdr :=
  p.sectionLoop name m (p.hdr.eShnum - 1) 1

end Parser

/-- `RELA_DYN`: `.rela.dyn`. -/
def relaDyn : Nat → Byte := record [0x2e, 0x72, 0x65, 0x6c, 0x61, 0x2e, 0x64, 0x79, 0x6e]

/-- `load(dst)`. The result is missing if relocation divides by zero. -/
def Parser.load (p : Parser) (dst : Nat) (s : Image) : Option Bool × Image :=
  let segments := p.loadSegments dst p.hdr.ePhnum 0 s
  if segments.1 then
    match adjustRela dst (p.sectionByName relaDyn segments.2.mem) segments.2 with
    | none => (none, segments.2)
    | some (r, relocated) => (some r, relocated)
  else (some false, segments.2)

/-- The pages that the extension loader allocates. -/
def Parser.pages (p : Parser) (pageSize : Nat) : Nat :=
  (p.programSize / pageSize + if p.programSize % pageSize ≠ 0 then 1 else 0) % 2 ^ 32

/-- What the extension loader did: its allocation, the result of `load`, and the memory. -/
structure Loading where
  base : Nat
  allocated : Nat
  result : Option Bool
  image : Image

/-- `cExtLdr::load`, up to `load` of the parser, with the addresses that the heap and the page allocator give. -/
def extLoad (f : File) (heap pma : Nat → Nat) (pageSize : Nat) (m : Mem) : Option Loading :=
  match Parser.init f heap m with
  | none => none
  | some (p, m') =>
    let base := pma (p.pages pageSize)
    if base = 0 then none
    else
      let loaded := p.load base ⟨m', []⟩
      some ⟨base, p.pages pageSize * pageSize, loaded.1, loaded.2⟩

/-! ## Where a load writes -/

/-- The bytes `[a, a + n)`, if there are any, are inside of the allocation. -/
def Within (base size a n : Nat) : Prop := n = 0 ∨ (base ≤ a ∧ a + n ≤ base + size)

instance (base size a n : Nat) : Decidable (Within base size a n) := inferInstanceAs (Decidable (_ ∨ _))

/-- Everything that was written is inside of the allocation. -/
def Inside (base size : Nat) (s : Image) : Prop := ∀ w, w ∈ s.written → Within base size w.1 w.2

/-- The entry at `rel`, as it is when the loop comes to it: what it relocates is inside of the allocation, its slot or its
own addend. -/
def EntryFits (base size : Nat) (m : Mem) (rel : Nat) : Prop :=
  m.load (slotOf base m rel) 8 ≠ 0 →
    (typeOf m rel = rRelative → m.load (slotOf base m rel) 8 = addendOf m rel → Within base size (slotOf base m rel) 8) ∧
    (typeOf m rel = rRelative ∨ typeOf m rel = rIrelative → Within base size (rel + 16) 8) ∧
    (typeOf m rel = rJumpSlot → Within base size (slotOf base m rel) 8)

section Entries
variable {base size : Nat} {s : Image}

theorem inside_write {a n : Nat} {f : Nat → Byte} :
    Inside base size (s.write a n f) ↔ Inside base size s ∧ Within base size a n := by
  simp only [Inside, Image.write, List.mem_cons, forall_eq_or_imp]
  exact and_comm

theorem inside_put {a v : Nat} : Inside base size (s.put a v) ↔ Inside base size s ∧ Within base size a 8 := inside_write

theorem inside_bump {a : Nat} : Inside base size (s.bump base a) ↔ Inside base size s ∧ Within base size a 8 := inside_write

/-- What one entry writes. -/
theorem inside_relaEntry {rel : Nat} :
    Inside base size (relaEntry base s rel) ↔ Inside base size s ∧ EntryFits base size s.mem rel := by
  simp only [relaEntry, EntryFits]
  by_cases zero : s.mem.load (slotOf base s.mem rel) 8 = 0
  · rw [if_pos zero]
    exact ⟨fun inside => ⟨inside, fun different => absurd zero different⟩, And.left⟩
  rw [if_neg zero]
  have jump_ne : rRelative ≠ rJumpSlot ∧ rIrelative ≠ rJumpSlot ∧ rIrelative ≠ rRelative := by decide
  split_ifs with isRelative isIrelative isJump
  · simp only [relative, isRelative, jump_ne.1, true_implies, true_or, false_implies, and_true, ne_eq, zero,
      not_false_eq_true]
    split_ifs with same
    · simp only [inside_bump, inside_put, same, true_implies, and_assoc]
    · simp only [inside_bump, same, false_implies, true_and]
  · simp [inside_bump, isIrelative, jump_ne.2.1, jump_ne.2.2, zero]
  · simp [inside_bump, isJump, jump_ne.1.symm, jump_ne.2.1.symm, zero]
  · simp [isRelative, isIrelative, isJump]

/-- The loop ends with the last of its entries. -/
theorem relaLoop_succ (n rel : Nat) (s : Image) :
    relaLoop base (n + 1) (rel % word) s =
      relaEntry base (relaLoop base n (rel % word) s) ((rel + 24 * n) % word) := by
  induction n generalizing rel s with
  | zero => rfl
  | succ n ih =>
    have next : (rel % word + 24) % word = (rel + 24) % word := Nat.mod_add_mod rel word 24
    have last : rel + 24 + 24 * n = rel + 24 * (n + 1) := by omega
    rw [relaLoop, next, ih, last, ← next, ← relaLoop]

/-- What the loop writes. -/
theorem inside_relaLoop (n rel : Nat) :
    Inside base size (relaLoop base n (rel % word) s) ↔
      Inside base size s ∧
        ∀ i, i < n → EntryFits base size (relaLoop base i (rel % word) s).mem ((rel + 24 * i) % word) := by
  induction n with
  | zero => simp [relaLoop]
  | succ n ih =>
    rw [relaLoop_succ, inside_relaEntry, ih, and_assoc]
    apply and_congr_right
    intro _
    exact Nat.forall_lt_succ_right.symm

end Entries

/-! ## Segments -/

namespace Parser

/-- What is read of a segment is its size in the file. -/
def Complete (p : Parser) (pidx : Nat) : Prop :=
  ∀ phdr, phEntry p.file p.hdr pidx = some phdr → phdr.pType = ptLoad → (p.segmentBytes phdr).length = phdr.pFilesz

/-- What is read of a segment has room at its virtual address. -/
def SegmentFits (p : Parser) (size pidx : Nat) : Prop :=
  ∀ phdr, phEntry p.file p.hdr pidx = some phdr → phdr.pType = ptLoad →
    (p.segmentBytes phdr).length = 0 ∨ phdr.pVaddr + (p.segmentBytes phdr).length ≤ size

section Segments
variable {p : Parser} {base size : Nat}

/-- An address behind the start of the allocation is inside of it as far as the offset is. -/
theorem within_iff (room : base + size ≤ word) {vaddr n : Nat} (small : vaddr < word) :
    Within base size ((base + vaddr) % word) n ↔ n = 0 ∨ vaddr + n ≤ size := by
  apply or_congr_right'
  intro some_bytes
  by_cases wraps : base + vaddr < word
  · rw [Nat.mod_eq_of_lt wraps]
    omega
  · have wrapped : (base + vaddr) % word = base + vaddr - word := by
      rw [Nat.mod_eq_sub_mod (by omega), Nat.mod_eq_of_lt (by omega)]
    omega

theorem pVaddr_lt {pidx : Nat} {phdr : Phdr} (entry : phEntry p.file p.hdr pidx = some phdr) : phdr.pVaddr < word := by
  unfold phEntry at entry
  split_ifs at entry
  obtain ⟨r, -, rfl⟩ := Option.map_eq_some_iff.1 entry
  rw [word_eq]
  exact Mem.load_lt r 16 8

theorem forall_from (C : Nat → Prop) (left pidx : Nat) :
    (∀ k, k < left + 1 → C (pidx + k)) ↔ C pidx ∧ ∀ k, k < left → C (pidx + 1 + k) := by
  rw [Nat.forall_lt_succ_left]
  simp only [Nat.add_zero, Nat.add_comm, Nat.add_left_comm]

/-- What holds as far as `C` holds before it. -/
theorem forall_while (C F : Nat → Prop) (left pidx : Nat) :
    (∀ k, k < left + 1 → (∀ q, q < k → C (pidx + q)) → F (pidx + k)) ↔
      F pidx ∧ (C pidx → ∀ k, k < left → (∀ q, q < k → C (pidx + 1 + q)) → F (pidx + 1 + k)) := by
  rw [Nat.forall_lt_succ_left]
  apply and_congr
  · simp
  · constructor
    · intro all now k less before
      have shift : pidx + (k + 1) = pidx + 1 + k := by omega
      have fits := all k less ((forall_from C k pidx).2 ⟨now, before⟩)
      rwa [shift] at fits
    · intro all k less before
      have shift : pidx + (k + 1) = pidx + 1 + k := by omega
      obtain ⟨now, before⟩ := (forall_from C k pidx).1 before
      rw [shift]
      exact all now k less before

/-- The loop over the segments goes on behind a complete one. -/
theorem loadSegments_spec (room : base + size ≤ word) (left pidx : Nat) (s : Image) :
    ((p.loadSegments base left pidx s).1 = true ↔ ∀ k, k < left → p.Complete (pidx + k)) ∧
      (Inside base size (p.loadSegments base left pidx s).2 ↔
        Inside base size s ∧
          ∀ k, k < left → (∀ q, q < k → p.Complete (pidx + q)) → p.SegmentFits size (pidx + k)) := by
  induction left generalizing pidx s with
  | zero => simp [loadSegments]
  | succ left ih =>
    rw [forall_from, forall_while]
    -- an entry that is not loaded is complete, and has room
    have skipped (complete : p.Complete pidx) (fits : p.SegmentFits size pidx)
        (next : p.loadSegments base (left + 1) pidx s = p.loadSegments base left (pidx + 1) s) :
        ((p.loadSegments base (left + 1) pidx s).1 = true ↔
            p.Complete pidx ∧ ∀ k, k < left → p.Complete (pidx + 1 + k)) ∧
          (Inside base size (p.loadSegments base (left + 1) pidx s).2 ↔ Inside base size s ∧ p.SegmentFits size pidx ∧
            (p.Complete pidx → ∀ k, k < left → (∀ q, q < k → p.Complete (pidx + 1 + q)) →
              p.SegmentFits size (pidx + 1 + k))) := by
      simp only [next, ih, complete, fits, true_and, true_implies]
    cases entry : phEntry p.file p.hdr pidx with
    | none =>
      apply skipped
      · intro phdr found
        rw [entry] at found
        cases found
      · intro phdr found
        rw [entry] at found
        cases found
      · rw [loadSegments, entry]
    | some phdr =>
      by_cases loadable : phdr.pType = ptLoad
      · have complete_iff : p.Complete pidx ↔ (p.segmentBytes phdr).length = phdr.pFilesz := by
          simp only [Complete, entry, Option.some.injEq, forall_eq', loadable, true_implies]
        have fits_iff : p.SegmentFits size pidx ↔
            (p.segmentBytes phdr).length = 0 ∨ phdr.pVaddr + (p.segmentBytes phdr).length ≤ size := by
          simp only [SegmentFits, entry, Option.some.injEq, forall_eq', loadable, true_implies]
        simp only [loadSegments, entry, if_pos loadable, loadSegment]
        by_cases complete : (p.segmentBytes phdr).length = phdr.pFilesz
        · simp only [complete, decide_true, if_true, ih, inside_write, complete_iff, true_and, true_implies, fits_iff,
            within_iff room (pVaddr_lt entry), and_assoc]
        · simp only [complete, decide_false, Bool.false_eq_true, if_false, inside_write, complete_iff, false_and,
            false_implies, fits_iff, within_iff room (pVaddr_lt entry), and_true]
      · apply skipped
        · intro phdr' found isLoad
          rw [entry, Option.some.injEq] at found
          rw [← found] at isLoad
          exact absurd isLoad loadable
        · intro phdr' found isLoad
          rw [entry, Option.some.injEq] at found
          rw [← found] at isLoad
          exact absurd isLoad loadable
        · simp only [loadSegments, entry, if_neg loadable]

end Segments

/-! ## The load -/

/-- The entries of `.rela.dyn`, each as it is when the loop comes to it, relocate words of the allocation. -/
def RelocationFits (p : Parser) (base size : Nat) (s : Image) : Prop :=
  ∀ h, p.sectionByName relaDyn s.mem = some h → h.shEntsize ≠ 0 →
    ∀ i, i < h.shSize / h.shEntsize % 2 ^ 32 →
      EntryFits base size (relaLoop base i ((base + h.shAddr) % word) s).mem ((base + h.shAddr + 24 * i) % word)

/-- The segments up to the first that is not complete have room, and if all are complete, relocation fits. -/
structure LoadFits (p : Parser) (base size : Nat) (s : Image) : Prop where
  segments : ∀ k, k < p.hdr.ePhnum → (∀ q, q < k → p.Complete q) → p.SegmentFits size k
  relocation : (∀ k, k < p.hdr.ePhnum → p.Complete k) →
    p.RelocationFits base size (p.loadSegments base p.hdr.ePhnum 0 s).2

section Load
variable {p : Parser} {base size : Nat} {s : Image}

/-- What relocation writes. -/
theorem inside_adjustRela {section? : Option Shdr} {r : Bool × Image} (run : adjustRela base section? s = some r) :
    Inside base size r.2 ↔ Inside base size s ∧
      ∀ h, section? = some h → h.shEntsize ≠ 0 → ∀ i, i < h.shSize / h.shEntsize % 2 ^ 32 →
        EntryFits base size (relaLoop base i ((base + h.shAddr) % word) s).mem ((base + h.shAddr + 24 * i) % word) := by
  cases section? with
  | none =>
    rw [adjustRela, Option.some.injEq] at run
    rw [← run]
    simp
  | some h =>
    rw [adjustRela] at run
    split_ifs at run with zero
    rw [Option.some.injEq] at run
    rw [← run, inside_relaLoop]
    simp only [Option.some.injEq, forall_eq', ne_eq, zero, not_false_eq_true, true_implies]

/-- What `load` writes. -/
theorem inside_load (room : base + size ≤ word) (start : Inside base size s) :
    Inside base size (p.load base s).2 ↔ p.LoadFits base size s := by
  obtain ⟨all, inside⟩ := p.loadSegments_spec room p.hdr.ePhnum 0 s
  simp only [Nat.zero_add, start, true_and] at all inside
  simp only [load]
  split_ifs with complete
  · have reached := all.1 complete
    cases run : adjustRela base (p.sectionByName relaDyn (p.loadSegments base p.hdr.ePhnum 0 s).2.mem)
        (p.loadSegments base p.hdr.ePhnum 0 s).2 with
    | none =>
      constructor
      · intro written
        refine ⟨inside.1 written, fun _ h found positive => ?_⟩
        rw [found, adjustRela, if_neg positive] at run
        cases run
      · exact fun fits => inside.2 fits.segments
    | some r =>
      have relocated : Inside base size r.2 ↔ _ := inside_adjustRela run
      constructor
      · intro written
        obtain ⟨before, fits⟩ := relocated.1 written
        exact ⟨inside.1 before, fun _ => fits⟩
      · exact fun fits => relocated.2 ⟨inside.2 fits.segments, fits.relocation reached⟩
  · constructor
    · exact fun written => ⟨inside.1 written, fun reached => absurd (all.2 reached) complete⟩
    · exact fun fits => inside.2 fits.segments

end Load

end Parser

/-- The extension loader writes inside of its allocation if and only if segments and relocation fit. -/
theorem extLoad_inside_iff (f : File) (heap pma : Nat → Nat) (pageSize : Nat) (m m' : Mem) (p : Parser)
    (accepted : Parser.init f heap m = some (p, m')) (granted : pma (p.pages pageSize) ≠ 0)
    (room : pma (p.pages pageSize) + p.pages pageSize * pageSize ≤ word) :
    (∃ out, extLoad f heap pma pageSize m = some out ∧ Inside out.base out.allocated out.image) ↔
      p.LoadFits (pma (p.pages pageSize)) (p.pages pageSize * pageSize) ⟨m', []⟩ := by
  have nothing : Inside (pma (p.pages pageSize)) (p.pages pageSize * pageSize) ⟨m', []⟩ := fun w mem => by cases mem
  rw [← Parser.inside_load room nothing]
  simp only [extLoad, accepted, if_neg granted]
  constructor
  · rintro ⟨out, eq, inside⟩
    rw [Option.some.injEq] at eq
    rw [← eq] at inside
    exact inside
  · exact fun inside => ⟨_, rfl, inside⟩

/-- A file of 360 bytes: the header, one loadable segment of 32 bytes at 0, the sections of the names and of the relocation
table, and behind the names the segment: an entry for the slot behind it, and the slot with its addend 256. -/
def relocatable : File :=
  let header : Mem := ((((Mem.store (fun _ => 0) 0 8 0x02464c457f).store 32 8 64).store 40 8 120).store 54 2 56).store 56 2 1
  let sections := (header.store 60 2 3).store 62 2 1
  let segment := (((sections.store 64 4 1).store 72 8 328).store 96 8 32).store 104 8 32
  let names := (segment.store (120 + 64 + 24) 8 312).store (120 + 64 + 32) 8 11
  let table := (((names.store (120 + 128) 4 1).store (120 + 128 + 32) 8 24).store (120 + 128 + 56) 8 24).blit 313 9 relaDyn
  let entry := (((table.store 328 8 24).store 336 8 rRelative).store 344 8 256).store 352 8 256
  File.ofBytes ((List.range 360).map entry)

/-- The segment, the slot and the addend of its entry are written, all in the page at 65536. -/
theorem extLoad_inside_iff_relocatable :
    ∃ p m', Parser.init relocatable (fun _ => 8192) (fun _ => 0) = some (p, m') ∧
      (∃ out, extLoad relocatable (fun _ => 8192) (fun _ => 65536) 4096 (fun _ => 0) = some out ∧
        out.image.written = [(65552, 8), (65560, 8), (65536, 32)]) ∧ p.LoadFits 65536 (p.pages 4096 * 4096) ⟨m', []⟩ := by
  have accepted : (Parser.init relocatable (fun _ => 8192) (fun _ => 0)).isSome = true := by decide +kernel
  obtain ⟨⟨p, m'⟩, eq⟩ := Option.isSome_iff_exists.1 accepted
  have run : (extLoad relocatable (fun _ => 8192) (fun _ => 65536) 4096 (fun _ => 0)).map
      (fun out => (out.base, out.allocated, out.image.written)) =
        some (65536, 4096, [(65552, 8), (65560, 8), (65536, 32)]) := by decide +kernel
  obtain ⟨out, loaded, fields⟩ := Option.map_eq_some_iff.1 run
  simp only [Prod.mk.injEq] at fields
  obtain ⟨base, allocated, written⟩ := fields
  have inside : Inside out.base out.allocated out.image := by
    intro w mem
    rw [written] at mem
    rw [base, allocated]
    revert w
    decide
  have few : p.pages 4096 < 2 ^ 32 := Nat.mod_lt _ (by decide)
  have room : 65536 + p.pages 4096 * 4096 ≤ word := by
    rw [word]
    omega
  exact ⟨p, m', eq, ⟨out, loaded, written⟩,
    (extLoad_inside_iff relocatable _ (fun _ => 65536) 4096 _ m' p eq (by decide) room).1 ⟨out, loaded, inside⟩⟩

/-- A file of 248 bytes: the header, one loadable segment of 16 bytes at `vaddr`, and two empty sections. -/
def oneSegment (vaddr : Nat) : File :=
  let header : Mem := ((((Mem.store (fun _ => 0) 0 8 0x02464c457f).store 32 8 64).store 40 8 120).store 54 2 56).store 56 2 1
  let sections := (header.store 60 2 2).store 62 2 1
  let segment := (((sections.store 64 4 1).store 80 8 vaddr).store 96 8 16).store 104 8 16
  File.ofBytes ((List.range 248).map segment)

/-- A segment of 16 bytes at 4096 is one page, and it is written behind that page. -/
theorem segment_behind_allocation :
    ¬ (∀ (f : File) (heap pma : Nat → Nat) (pageSize : Nat) (m : Mem) (out : Loading),
      extLoad f heap pma pageSize m = some out → out.base + out.allocated ≤ word →
        Inside out.base out.allocated out.image) := by
  intro claim
  have run : (extLoad (oneSegment 4096) (fun _ => 8192) (fun _ => 65536) 4096 (fun _ => 0)).map
      (fun out => (out.base, out.allocated, out.image.written)) = some (65536, 4096, [(69632, 16)]) := by decide +kernel
  obtain ⟨out, loaded, eq⟩ := Option.map_eq_some_iff.1 run
  simp only [Prod.mk.injEq] at eq
  obtain ⟨base, allocated, written⟩ := eq
  have inside := claim _ _ _ _ _ out loaded (by rw [base, allocated]; decide) (69632, 16) (by rw [written]; decide)
  rw [base, allocated] at inside
  revert inside
  decide

end PreTeO.X86
