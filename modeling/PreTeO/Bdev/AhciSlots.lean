import Mathlib.Data.BitVec
import Mathlib.Data.Finset.Basic
import Mathlib.Logic.Function.Basic
import PreTeO.Lib.Run

/-!
# The command slots of an AHCI port

`cAHCIDevice::alloc_cmd_slot` and `cAHCIDevice::free_cmd_slot` between any number of threads. A thread reads the registers of
the port and `m_slots` before it takes the mutex, and picks a slot by what it read when it has the mutex. In between
others pick and free slots, and the device completes commands.
-/

namespace PreTeO.Bdev
set_option autoImplicit false

namespace Ahci

/-- The loop over the slots with the mask that follows it. -/
def scanSlots (slot : BitVec 32) : Nat → Nat → BitVec 32 → Option Nat
  | 0, _, _ => none
  | left + 1, i, mask => if mask &&& slot = 0#32 then some i else scanSlots slot left (i + 1) (mask <<< 1)

/-- `_sata_max_cmd_count_` of a device. -/
def maxCmdCount : Nat := 32

/-- The slot that a thread picks by what it read. -/
def findSlot (slot : BitVec 32) : Option Nat := scanSlots slot maxCmdCount 0 1#32

/-- Where a thread is in `alloc_cmd_slot`: outside, at the head of the loop, or before the mutex with what it read. -/
inductive Alloc where
  | outside
  | looking (tmo : Nat)
  | read (slot : BitVec 32) (tmo : Nat)
deriving DecidableEq, Repr

/-- The port registers, `m_slots`, the threads, and the slots that were given to each of them. -/
structure Device (T : Type*) where
  sact : BitVec 32
  ci : BitVec 32
  slots : BitVec 32
  alloc : T → Alloc
  held : T → Finset Nat

/-- The steps of the threads, and the completion of commands by the device. -/
inductive Step (T : Type*) where
  | call (t : T)
  | read (t : T)
  | pick (t : T)
  | free (t : T) (slot : Nat)
  | exec (t : T) (slot : Nat)
  | complete (done : BitVec 32)

section Device
variable {T : Type*} [DecidableEq T]

/-- The second half of a round: pick by what was read, and mark the slot. -/
def Device.pick (s : Device T) (t : T) (slot : BitVec 32) (tmo : Nat) : Option Nat × Device T :=
  match findSlot slot with
  | some i =>
    (some i, { s with
      slots := s.slots ||| BitVec.twoPow 32 i
      alloc := Function.update s.alloc t .outside
      held := Function.update s.held t (insert i (s.held t)) })
  | none => (none, { s with alloc := Function.update s.alloc t (if tmo - 1 = 0 then .outside else .looking (tmo - 1)) })

/-- One step, with the slot that it gives to its thread. A thread frees and uses only slots that were given to it. -/
def Device.step (s : Device T) : Step T → Option (Option Nat × Device T)
  | .call t =>
    match s.alloc t with
    | .outside => some (none, { s with alloc := Function.update s.alloc t (.looking 300) })
    | _ => none
  | .read t =>
    match s.alloc t with
    | .looking tmo => some (none, { s with alloc := Function.update s.alloc t (.read (s.sact ||| s.ci ||| s.slots) tmo) })
    | _ => none
  | .pick t =>
    match s.alloc t with
    | .read slot tmo => some (s.pick t slot tmo)
    | _ => none
  | .free t slot =>
    if slot ∈ s.held t then
      some (none, { s with
        slots := s.slots &&& ~~~(BitVec.twoPow 32 slot)
        held := Function.update s.held t ((s.held t).erase slot) })
    else none
  | .exec t slot => if slot ∈ s.held t then some (none, { s with ci := s.ci ||| BitVec.twoPow 32 slot }) else none
  | .complete done => some (none, { s with sact := s.sact &&& ~~~done, ci := s.ci &&& ~~~done })

/-- A port that was started: the registers have any value. -/
def Device.init (sact ci : BitVec 32) : Device T := ⟨sact, ci, 0#32, fun _ => .outside, fun _ => ∅⟩

/-- The slot that the step gives to its thread is held by no other. -/
def GivesFree (s : Device T) (a : Step T) : Prop :=
  ∀ t, a = .pick t → ∀ i s', s.step a = some (some i, s') → ∀ u, u ≠ t → i ∉ s.held u

/-- The lowest slot that a thread saw free when it read is not in use when it picks. -/
def FreshPick (s : Device T) (a : Step T) : Prop :=
  ∀ t, a = .pick t → ∀ slot tmo, s.alloc t = .read slot tmo →
    ∀ i < 32, slot.getLsbD i = false → (∀ j < i, slot.getLsbD j = true) → s.slots.getLsbD i = false

end Device

/-! ## What a thread picks -/

theorem scanSlots_eq_some {slot : BitVec 32} {left i k : Nat} (all : i + left = 32) :
    scanSlots slot left i (BitVec.twoPow 32 i) = some k ↔
      i ≤ k ∧ k < 32 ∧ slot.getLsbD k = false ∧ ∀ j, i ≤ j → j < k → slot.getLsbD j = true := by
  induction left generalizing i with
  | zero =>
    refine iff_of_false (by simp [scanSlots]) ?_
    rintro ⟨lower, upper, -⟩
    omega
  | succ left ih =>
    have shift : BitVec.twoPow 32 i <<< 1 = BitVec.twoPow 32 (i + 1) := by
      rw [BitVec.twoPow_eq, BitVec.twoPow_eq, BitVec.shiftLeft_add]
    have mask : BitVec.twoPow 32 i ≠ 0#32 := by
      intro zero
      have bit := congrArg (fun v => v.getLsbD i) zero
      simp only [BitVec.getLsbD_twoPow, BitVec.getLsbD_zero] at bit
      exact absurd bit (by simp; omega)
    rw [scanSlots, BitVec.twoPow_and, shift]
    cases bit : slot.getLsbD i with
    | true =>
      rw [if_pos rfl, if_neg mask, ih (by omega)]
      constructor
      · rintro ⟨lower, upper, clear, busy⟩
        refine ⟨by omega, upper, clear, fun j le lt => ?_⟩
        rcases Nat.eq_or_lt_of_le le with rfl | lt'
        · exact bit
        · exact busy j lt' lt
      · rintro ⟨lower, upper, clear, busy⟩
        refine ⟨?_, upper, clear, fun j le lt => busy j (by omega) lt⟩
        rcases Nat.eq_or_lt_of_le lower with rfl | lt
        · exact absurd (bit.symm.trans clear) (by decide)
        · exact lt
    | false =>
      rw [if_neg Bool.false_ne_true, if_pos rfl]
      constructor
      · rintro ⟨⟩
        exact ⟨le_rfl, by omega, bit, fun j le lt => absurd le (by omega)⟩
      · rintro ⟨lower, -, -, busy⟩
        rcases Nat.eq_or_lt_of_le lower with rfl | lt
        · rfl
        · exact absurd (bit.symm.trans (busy i le_rfl lt)) (by decide)

/-- The lowest slot that was free. -/
theorem findSlot_eq_some {slot : BitVec 32} {k : Nat} :
    findSlot slot = some k ↔ k < 32 ∧ slot.getLsbD k = false ∧ ∀ j < k, slot.getLsbD j = true := by
  have found : scanSlots slot 32 0 (BitVec.twoPow 32 0) = some k ↔ _ := scanSlots_eq_some rfl
  rw [BitVec.twoPow_zero] at found
  rw [findSlot, maxCmdCount, found]
  exact ⟨fun h => ⟨h.2.1, h.2.2.1, fun j lt => h.2.2.2 j (Nat.zero_le j) lt⟩,
    fun h => ⟨Nat.zero_le k, h.1, h.2.1, fun j _ lt => h.2.2 j lt⟩⟩

/-! ## The invariant -/

/-- The slots in use are those that some thread holds, no two threads hold one, and a thread has read that its own slots are
in use. -/
structure Sound {T : Type*} (s : Device T) : Prop where
  marked : ∀ t, ∀ i ∈ s.held t, s.slots.getLsbD i = true
  holder : ∀ i, s.slots.getLsbD i = true → ∃ t, i ∈ s.held t
  exclusive : ∀ t u i, i ∈ s.held t → i ∈ s.held u → t = u
  own : ∀ t slot tmo, s.alloc t = .read slot tmo → ∀ i ∈ s.held t, slot.getLsbD i = true

namespace Sound
variable {T : Type*} {s : Device T} {t : T} {i : Nat}

theorem init (sact ci : BitVec 32) : Sound (Device.init sact ci : Device T) where
  marked := fun _ _ mem => absurd mem (Finset.notMem_empty _)
  holder := fun _ bit => by simp [Device.init] at bit
  exclusive := fun _ _ _ mem _ => absurd mem (Finset.notMem_empty _)
  own := fun _ _ _ _ _ mem => absurd mem (Finset.notMem_empty _)

theorem registers (sound : Sound s) (sact ci : BitVec 32) : Sound { s with sact := sact, ci := ci } :=
  ⟨sound.marked, sound.holder, sound.exclusive, sound.own⟩

variable [DecidableEq T]

/-- A thread goes on without picking. -/
theorem walk (sound : Sound s) {x : Alloc}
    (seen : ∀ slot tmo, x = .read slot tmo → ∀ i ∈ s.held t, slot.getLsbD i = true) :
    Sound { s with alloc := Function.update s.alloc t x } where
  marked := sound.marked
  holder := sound.holder
  exclusive := sound.exclusive
  own := by
    intro u slot tmo read
    by_cases same : u = t
    · subst same
      exact seen slot tmo ((Function.update_self u x s.alloc).symm.trans read)
    · exact sound.own u slot tmo ((Function.update_of_ne same x s.alloc).symm.trans read)

/-- A slot that is not in use is given to a thread. -/
theorem give (sound : Sound s) (small : i < 32) (clear : s.slots.getLsbD i = false) :
    Sound { s with
      slots := s.slots ||| BitVec.twoPow 32 i
      alloc := Function.update s.alloc t .outside
      held := Function.update s.held t (insert i (s.held t)) } := by
  have mem_held : ∀ u j, j ∈ Function.update s.held t (insert i (s.held t)) u ↔ (u = t ∧ j = i) ∨ j ∈ s.held u := by
    intro u j
    by_cases same : u = t
    · subst same
      rw [Function.update_self, Finset.mem_insert]
      tauto
    · rw [Function.update_of_ne same]
      tauto
  have bit : ∀ j, (s.slots ||| BitVec.twoPow 32 i).getLsbD j = true ↔ s.slots.getLsbD j = true ∨ i = j := by
    intro j
    rw [BitVec.getLsbD_or, BitVec.getLsbD_twoPow, Bool.or_eq_true, Bool.and_eq_true, decide_eq_true_iff, decide_eq_true_iff]
    tauto
  have unheld : ∀ u, i ∉ s.held u := fun u mem => absurd ((sound.marked u i mem).symm.trans clear) (by decide)
  refine ⟨?_, ?_, ?_, ?_⟩
  · intro u j mem
    rw [bit]
    rcases (mem_held u j).mp mem with ⟨-, rfl⟩ | mem
    · exact Or.inr rfl
    · exact Or.inl (sound.marked u j mem)
  · intro j set
    rcases (bit j).mp set with set | rfl
    · obtain ⟨u, mem⟩ := sound.holder j set
      exact ⟨u, (mem_held u j).mpr (Or.inr mem)⟩
    · exact ⟨t, (mem_held t i).mpr (Or.inl ⟨rfl, rfl⟩)⟩
  · intro u v j mem_u mem_v
    rcases (mem_held u j).mp mem_u with ⟨at_u, here⟩ | held_u <;> rcases (mem_held v j).mp mem_v with ⟨at_v, here'⟩ | held_v
    · exact at_u.trans at_v.symm
    · exact absurd (here ▸ held_v) (unheld v)
    · exact absurd (here' ▸ held_u) (unheld u)
    · exact sound.exclusive u v j held_u held_v
  · intro u slot tmo read j mem
    have other : u ≠ t := by
      rintro rfl
      exact Alloc.noConfusion ((Function.update_self u Alloc.outside s.alloc).symm.trans read)
    rcases (mem_held u j).mp mem with ⟨same, -⟩ | mem
    · exact absurd same other
    · exact sound.own u slot tmo ((Function.update_of_ne other Alloc.outside s.alloc).symm.trans read) j mem

/-- A thread frees a slot that it holds. -/
theorem free (sound : Sound s) (mem : i ∈ s.held t) :
    Sound { s with
      slots := s.slots &&& ~~~(BitVec.twoPow 32 i)
      held := Function.update s.held t ((s.held t).erase i) } := by
  -- no other thread holds the slot, so erasing it there changes nothing
  have mem_held : ∀ u j, j ∈ Function.update s.held t ((s.held t).erase i) u ↔ j ≠ i ∧ j ∈ s.held u := by
    intro u j
    by_cases same : u = t
    · subst same
      rw [Function.update_self, Finset.mem_erase]
    · rw [Function.update_of_ne same]
      refine (and_iff_right_of_imp fun held eq => ?_).symm
      exact same (sound.exclusive u t i (eq ▸ held) mem)
  have bit : ∀ j, (s.slots &&& ~~~(BitVec.twoPow 32 i)).getLsbD j = true ↔ j ≠ i ∧ s.slots.getLsbD j = true := by
    intro j
    by_cases small : j < 32
    · simp only [BitVec.getLsbD_and, BitVec.getLsbD_not, BitVec.getLsbD_twoPow, Bool.and_eq_true, Bool.not_eq_true',
        small, decide_true, true_and, Bool.and_eq_false_iff, decide_eq_false_iff_not]
      constructor
      · rintro ⟨set, other⟩
        refine ⟨?_, set⟩
        rintro rfl
        exact other.elim (fun big => big small) (fun ne => ne rfl)
      · exact fun both => ⟨both.2, Or.inr both.1.symm⟩
    · have beyond : ∀ v : BitVec 32, v.getLsbD j = false := fun v => BitVec.getLsbD_of_ge v j (Nat.le_of_not_lt small)
      simp [beyond]
  refine ⟨?_, ?_, ?_, ?_⟩
  · intro u j held
    obtain ⟨other, before⟩ := (mem_held u j).mp held
    exact (bit j).mpr ⟨other, sound.marked u j before⟩
  · intro j set
    obtain ⟨other, before⟩ := (bit j).mp set
    obtain ⟨u, held⟩ := sound.holder j before
    exact ⟨u, (mem_held u j).mpr ⟨other, held⟩⟩
  · intro u v j held_u held_v
    exact sound.exclusive u v j ((mem_held u j).mp held_u).2 ((mem_held v j).mp held_v).2
  · intro u slot tmo read j held
    exact sound.own u slot tmo read j ((mem_held u j).mp held).2

theorem pick {slot : BitVec 32} {tmo : Nat} (sound : Sound s)
    (clear : ∀ i, findSlot slot = some i → s.slots.getLsbD i = false) : Sound (s.pick t slot tmo).2 := by
  rw [Device.pick]
  cases found : findSlot slot with
  | some i => exact sound.give (findSlot_eq_some.mp found).1 (clear i found)
  | none =>
    refine sound.walk fun slot' tmo' read => ?_
    split at read <;> cases read

/-- A fresh pick keeps the invariant, as every other step does. -/
theorem step {a : Step T} {r : Option Nat} {s' : Device T} (sound : Sound s) (fresh : FreshPick s a)
    (moved : s.step a = some (r, s')) : Sound s' := by
  cases a with
  | call t =>
    simp only [Device.step] at moved
    split at moved
    · obtain ⟨-, rfl⟩ := Prod.mk.inj (Option.some.inj moved)
      exact sound.walk fun _ _ read => by cases read
    · cases moved
  | read t =>
    simp only [Device.step] at moved
    split at moved
    · obtain ⟨-, rfl⟩ := Prod.mk.inj (Option.some.inj moved)
      refine sound.walk fun slot tmo read i mem => ?_
      obtain ⟨rfl, -⟩ := Alloc.read.inj read
      rw [BitVec.getLsbD_or, sound.marked t i mem, Bool.or_true]
    · cases moved
  | pick t =>
    simp only [Device.step] at moved
    split at moved
    · next slot tmo read =>
      obtain rfl := congrArg Prod.snd (Option.some.inj moved)
      refine sound.pick fun i found => ?_
      obtain ⟨small, clear, lower⟩ := findSlot_eq_some.mp found
      exact fresh t rfl slot tmo read i small clear lower
    · cases moved
  | free t slot =>
    simp only [Device.step] at moved
    split at moved
    · next mem =>
      obtain ⟨-, rfl⟩ := Prod.mk.inj (Option.some.inj moved)
      exact sound.free mem
    · cases moved
  | exec t slot =>
    simp only [Device.step] at moved
    split at moved
    · obtain ⟨-, rfl⟩ := Prod.mk.inj (Option.some.inj moved)
      exact sound.registers _ _
    · cases moved
  | complete done =>
    obtain ⟨-, rfl⟩ := Prod.mk.inj (Option.some.inj moved)
    exact sound.registers _ _

theorem givesFree_iff {a : Step T} (sound : Sound s) : GivesFree s a ↔ FreshPick s a := by
  constructor
  · rintro free t rfl slot tmo read i small clear lower
    have found : findSlot slot = some i := findSlot_eq_some.mpr ⟨small, clear, lower⟩
    have given : s.step (.pick t) = some (some i, (s.pick t slot tmo).2) := by
      simp only [Device.step, read, Device.pick, found]
    by_contra set
    obtain ⟨u, mem⟩ := sound.holder i (by simpa using set)
    by_cases same : u = t
    · -- a thread does not see its own slots as free
      subst same
      exact absurd ((sound.own u slot tmo read i mem).symm.trans clear) (by decide)
    · exact free t rfl i _ given u same mem
  · rintro fresh t rfl i s' given u - mem
    simp only [Device.step] at given
    split at given
    · next slot tmo read =>
      have found : findSlot slot = some i := by
        rw [Device.pick] at given
        split at given
        · next k found =>
          obtain ⟨same, -⟩ := Prod.mk.inj (Option.some.inj given)
          rw [found, same]
        · obtain ⟨same, -⟩ := Prod.mk.inj (Option.some.inj given)
          cases same
      obtain ⟨small, clear, lower⟩ := findSlot_eq_some.mp found
      exact absurd ((sound.marked u i mem).symm.trans (fresh t rfl slot tmo read i small clear lower)) (by decide)
    · cases given

/-- As long as the picks are fresh the slots are given to one thread each, and the first pick that is not gives a slot that
is held. -/
theorem allowed_iff (sound : Sound s) (steps : List (Step T)) :
    Lib.Allowed Device.step GivesFree s steps ↔ Lib.Allowed Device.step FreshPick s steps :=
  Lib.Allowed.congr_of_invariant (fun _ _ sound => sound.givesFree_iff)
    (fun _ _ _ _ sound fresh moved => sound.step fresh moved) sound steps

end Sound

/-- In every run of any number of threads and of the device: no slot is given to a thread while another thread holds it if
and only if at every pick the lowest slot that the thread saw free is not in use. -/
theorem slots_exclusive_iff {T : Type*} [DecidableEq T] (sact ci : BitVec 32) (steps : List (Step T)) :
    Lib.Allowed Device.step GivesFree (Device.init sact ci) steps ↔
      Lib.Allowed Device.step FreshPick (Device.init sact ci) steps :=
  (Sound.init sact ci).allowed_iff steps

/-- Two threads read before either of them picks. -/
def twoReads : List (Step Bool) := [.call true, .call false, .read true, .read false, .pick true, .pick false]

theorem slot_given_twice :
    ¬ ∀ (sact ci : BitVec 32) (steps : List (Step Bool)), Lib.Allowed Device.step GivesFree (Device.init sact ci) steps := by
  intro all
  have after := (((((all 0#32 0#32 twoReads).2 _ _ rfl).2 _ _ rfl).2 _ _ rfl).2 _ _ rfl).2 _ _ rfl
  exact after.1 false rfl 0 _ rfl true (by decide) (Finset.mem_insert_self 0 ∅)

end Ahci
end PreTeO.Bdev
