import PreTeO.X86.Vmm

/-!
# Translation and presence

`_test` looks at every entry before it goes on to the next table, and `physical` at none: it follows the base field of
an empty entry to page 0 and makes an address of an empty PTE. A page of 1G has no PDE, so `physical` gives 0 for it.
-/

namespace PreTeO.X86
set_option autoImplicit false

theorem pnToKva_near {page : Nat} (near : page < 2 ^ 27) : pnToKva page = page := Nat.mod_eq_of_lt near

/-- The kernel and the processor see the same table. -/
theorem Entry.table_eq {e : Entry} (sound : e.Sound) (near : e.Near) : e.table = e.frame := by
  rw [sound.frame]
  exact pnToKva_near near

namespace Vmm

variable {s : Vmm} {va : Nat}

/-- `physical` agrees with `_test` and with the processor, and it follows no empty entry. -/
def PhysicalOk (s : Vmm) (va : Nat) : Prop :=
  (s.test va = true → ∃ t, walk s.mem s.mmap va = some t ∧ (s.physical va).1 = t.addr) ∧
    (s.test va = false → (s.physical va).1 = 0) ∧ ∀ e ∈ (s.physical va).2, e ≠ Entry.empty

/-- If the manager works on a table at all, the tables of the address are there, down to a page of 4K or of 2M, to a page
of 1G that takes the address to 0 or to an empty PTE, of an address at the start of its page. -/
def Resolves (s : Vmm) (va : Nat) : Prop :=
  s.Ready → s.pml4e va ≠ Entry.empty ∧ s.pdpe va ≠ Entry.empty ∧
    if (s.pdpe va).ps = true then (s.pdpe va).frame / 2 ^ 18 * 2 ^ 30 + pt1gOffset va = 0
    else s.pde va ≠ Entry.empty ∧
      ((s.pde va).ps = false → s.pte va ≠ Entry.empty ∨ pt4kOffset va = 0)

/-! ## What the two functions compute -/

theorem getPml4e_ready (ready : s.Ready) : s.getPml4e va = some ⟨pnToKva s.mmap, pml4Index va⟩ := if_pos ready

theorem getPml4e_idle (idle : ¬ s.Ready) : s.getPml4e va = none := if_neg idle

/-- `physical` descends as far as the page size says, whatever the entries are. -/
theorem physical_eq (ready : s.Ready) :
    s.physical va =
      if (s.pdpe va).ps = true then (0, [s.pml4e va])
      else if (s.pde va).ps = true then ((s.pde va).base2m * 2 ^ 21 + pt2mOffset va, [s.pml4e va, s.pdpe va])
      else ((s.pte va).base.toNat * 2 ^ 12 + pt4kOffset va, [s.pml4e va, s.pdpe va, s.pde va]) := by
  have top : s.getPdpe va none = (some ⟨(s.pml4e va).table, pdpIndex va⟩, [s.pml4e va]) := by
    unfold getPdpe
    rw [getPml4e_ready ready]
    rfl
  have second : s.read ⟨(s.pml4e va).table, pdpIndex va⟩ = s.pdpe va := rfl
  unfold physical getPde
  rw [top]
  dsimp only
  rw [second]
  cases large : (s.pdpe va).ps with
  | true => rfl
  | false =>
    have third : s.read ⟨(s.pdpe va).table, pdIndex va⟩ = s.pde va := rfl
    simp only [if_true, if_false, Bool.false_eq_true, third]
    cases middle : (s.pde va).ps with
    | true => rfl
    | false =>
      unfold getPte
      simp only [third, middle, if_true, if_false, Bool.false_eq_true]
      rfl

/-- `_test` asks for an entry at every level down to the page. -/
theorem test_iff (ready : s.Ready) :
    s.test va = true ↔ s.pml4e va ≠ Entry.empty ∧ s.pdpe va ≠ Entry.empty ∧
      ((s.pdpe va).ps = false → s.pde va ≠ Entry.empty ∧ ((s.pde va).ps = false → s.pte va ≠ Entry.empty)) := by
  have first : s.read ⟨pnToKva s.mmap, pml4Index va⟩ = s.pml4e va := rfl
  have second : s.read ⟨(s.pml4e va).table, pdpIndex va⟩ = s.pdpe va := rfl
  have third : s.read ⟨(s.pdpe va).table, pdIndex va⟩ = s.pde va := rfl
  have last : s.read ⟨(s.pde va).table, ptIndex va⟩ = s.pte va := rfl
  unfold test getPdpe getPde getPte
  rw [getPml4e_ready ready]
  simp only [first, second]
  by_cases no_pml4e : s.pml4e va = Entry.empty
  · simp [no_pml4e]
  by_cases no_pdpe : s.pdpe va = Entry.empty
  · simp [no_pdpe]
  cases large : (s.pdpe va).ps with
  | true => simp [no_pml4e, no_pdpe]
  | false =>
    simp only [if_true, third]
    by_cases no_pde : s.pde va = Entry.empty
    · simp [no_pde]
    cases middle : (s.pde va).ps with
    | true => simp [no_pml4e, no_pdpe, no_pde]
    | false => simp [no_pml4e, no_pdpe, no_pde, last]

/-! ## The walk of sound tables -/

/-- The processor finds a page of sound tables exactly where `_test` does. -/
theorem walk_eq (sound : s.Sound) (va : Nat) :
    walk s.mem s.mmap va =
      if s.pml4e va = Entry.empty ∨ s.pdpe va = Entry.empty then none
      else if (s.pdpe va).ps = true then
        some (translation ((s.pdpe va).frame / 2 ^ 18 * 2 ^ 30 + pt1gOffset va) (s.pdpe va) [s.pml4e va])
      else if s.pde va = Entry.empty then none
      else if (s.pde va).ps = true then
        some (translation ((s.pde va).frame / 2 ^ 9 * 2 ^ 21 + pt2mOffset va) (s.pde va) [s.pdpe va, s.pml4e va])
      else if s.pte va = Entry.empty then none
      else some (translation ((s.pte va).frame * 2 ^ 12 + pt4kOffset va) (s.pte va) [s.pde va, s.pdpe va, s.pml4e va]) := by
  have first : s.mem s.mmap (pml4Index va) = s.pml4e va := by
    unfold pml4e
    rw [pnToKva_near sound.mmap]
  obtain ⟨sound4, near4⟩ := sound.pml4e va
  unfold walk
  rw [first]
  dsimp only
  by_cases no_pml4e : s.pml4e va = Entry.empty
  · simp [no_pml4e]
  obtain ⟨sound3, near3⟩ := sound.pdpe va no_pml4e
  have second : s.mem (s.pml4e va).frame (pdpIndex va) = s.pdpe va := by
    rw [← Entry.table_eq sound4 near4]
    rfl
  rw [if_pos (sound4.present.mpr no_pml4e), second]
  by_cases no_pdpe : s.pdpe va = Entry.empty
  · simp [no_pdpe]
  rw [if_pos (sound3.present.mpr no_pdpe), if_neg (not_or.mpr ⟨no_pml4e, no_pdpe⟩)]
  cases large : (s.pdpe va).ps with
  | true => rfl
  | false =>
    obtain ⟨sound2, near2⟩ := sound.pde va no_pml4e no_pdpe large
    have third : s.mem (s.pdpe va).frame (pdIndex va) = s.pde va := by
      rw [← Entry.table_eq sound3 (near3 large)]
      rfl
    simp only [Bool.false_eq_true, if_false, third]
    by_cases no_pde : s.pde va = Entry.empty
    · simp [no_pde]
    rw [if_pos (sound2.present.mpr no_pde), if_neg no_pde]
    cases middle : (s.pde va).ps with
    | true => rfl
    | false =>
      have sound1 := sound.pte va no_pml4e no_pdpe large no_pde middle
      have last : s.mem (s.pde va).frame (ptIndex va) = s.pte va := by
        rw [← Entry.table_eq sound2 (near2 middle)]
        rfl
      simp only [Bool.false_eq_true, if_false, last]
      by_cases no_pte : s.pte va = Entry.empty
      · simp [no_pte]
      · rw [if_pos (sound1.present.mpr no_pte), if_neg no_pte]

/-- `physical` does what is asked of it iff the address resolves. -/
theorem physical_ok_iff (sound : s.Sound) (va : Nat) : s.PhysicalOk va ↔ s.Resolves va := by
  unfold PhysicalOk Resolves
  by_cases ready : s.Ready
  swap
  · have absent : s.test va = false := by
      unfold test
      rw [getPml4e_idle ready]
    have zero : s.physical va = (0, []) := by
      unfold physical getPde getPdpe
      rw [getPml4e_idle ready]
    simp [ready, absent, zero]
  have missing : s.test va = false ↔ ¬ s.test va = true := Bool.eq_false_iff
  rw [imp_iff_right ready, walk_eq sound va, missing, test_iff ready, physical_eq ready]
  by_cases no_pml4e : s.pml4e va = Entry.empty
  · -- the table of an empty entry is read, whatever the size of the page that is found there
    constructor
    · rintro ⟨-, -, follows⟩
      exfalso
      refine follows Entry.empty ?_ rfl
      split
      · exact List.mem_singleton.mpr no_pml4e.symm
      · split <;> exact List.mem_cons.mpr (Or.inl no_pml4e.symm)
    · intro resolves
      exact absurd no_pml4e resolves.1
  by_cases no_pdpe : s.pdpe va = Entry.empty
  · constructor
    · rintro ⟨-, -, follows⟩
      exfalso
      refine follows Entry.empty ?_ rfl
      rw [no_pdpe]
      split
      · contradiction
      · split <;> simp
    · intro resolves
      exact absurd no_pdpe resolves.2.1
  rw [if_neg (not_or.mpr ⟨no_pml4e, no_pdpe⟩)]
  cases large : (s.pdpe va).ps with
  | true =>
    simp only [if_true, Bool.true_eq_false, false_implies, ne_eq, no_pml4e, no_pdpe, not_false_eq_true, and_true,
      true_and, not_true_eq_false, List.mem_singleton, forall_eq, true_implies, Option.some.injEq, exists_eq_left',
      translation]
    exact eq_comm
  | false =>
    obtain ⟨sound2, -⟩ := sound.pde va no_pml4e no_pdpe large
    by_cases no_pde : s.pde va = Entry.empty
    · constructor
      · rintro ⟨-, -, follows⟩
        exfalso
        refine follows Entry.empty ?_ rfl
        rw [no_pde]
        simp
      · intro resolves
        exact absurd no_pde resolves.2.2.1
    cases middle : (s.pde va).ps with
    | true =>
      have same : (s.pde va).base2m = (s.pde va).frame / 2 ^ 9 := by
        rw [sound2.frame]
        rfl
      simp [no_pml4e, no_pdpe, no_pde, same, translation]
    | false =>
      have sound1 := sound.pte va no_pml4e no_pdpe large no_pde middle
      by_cases no_pte : s.pte va = Entry.empty
      · simp [no_pml4e, no_pdpe, no_pde, no_pte]
      · simp [no_pml4e, no_pdpe, no_pde, no_pte, sound1.frame, translation]

/-- If all entries of memory are sound, so are the ones that the addresses lead to. -/
theorem Sound.of_all (near : s.mmap < 2 ^ 27) (all : ∀ page i, (s.mem page i).Sound ∧ (s.mem page i).Near) : s.Sound :=
  ⟨near, fun _ => all _ _, fun _ _ => ⟨(all _ _).1, fun _ => (all _ _).2⟩,
    fun _ _ _ _ => ⟨(all _ _).1, fun _ => (all _ _).2⟩,
    fun _ _ _ _ _ _ => (all _ _).1⟩

/-- An entry that leads to a page. -/
def link (page : BitVec 28) : Entry := { Entry.empty with p := true, rw := true, base := page }

/-- The first entries of pages 1, 2, 3 and 4 lead to the next page, and the others are empty. -/
def smallTables : Tables := fun page i =>
  if 1 ≤ page ∧ page ≤ 4 ∧ i = 0 then link (BitVec.ofNat 28 (page + 1)) else Entry.empty

theorem smallTables_sound (page i : Nat) : (smallTables page i).Sound ∧ (smallTables page i).Near := by
  unfold smallTables
  split
  · next inside =>
    refine ⟨Or.inr ⟨rfl, rfl⟩, ?_⟩
    have small : page ≤ 4 := inside.2.1
    unfold Entry.Near link
    rw [BitVec.toNat_ofNat, Nat.mod_eq_of_lt (by omega)]
    omega
  · exact ⟨Or.inl rfl, by decide⟩

/-- An address of a page of 4K. -/
theorem physical_ok_mapped : Vmm.PhysicalOk ⟨true, 1, smallTables⟩ 0x123 := by
  apply (physical_ok_iff (Sound.of_all (by decide) smallTables_sound) 0x123).mpr
  intro _
  decide

/-- A table without entries, and a page 0 whose first word looks like an entry: the address is not mapped, and `physical`
gives the address of a page. -/
theorem physical_invents_page :
    ∃ s : Vmm, s.Sound ∧ s.test 0 = false ∧ (s.physical 0).1 = 0x9000 ∧ ¬ s.PhysicalOk 0 := by
  let mem : Tables := fun page i => if page = 0 ∧ i = 0 then link 9 else Entry.empty
  refine ⟨⟨true, 1, mem⟩, Sound.of_all (by decide) ?_, by decide, by decide, ?_⟩
  · intro page i
    dsimp only [mem]
    split
    · exact ⟨Or.inr ⟨rfl, rfl⟩, by decide⟩
    · exact ⟨Or.inl rfl, by decide⟩
  · rintro ⟨-, zero, -⟩
    have := zero (by decide)
    revert this
    decide

end Vmm

end PreTeO.X86
