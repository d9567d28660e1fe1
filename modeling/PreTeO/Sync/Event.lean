import Mathlib.Data.BitVec
import Mathlib.Logic.Function.Basic
import PreTeO.Lib.Run

/-!
# Events (`core/sync/event.cpp`)

`set` and `check` read `m_state`, compute the new state from what they read, and exchange the two. The read and the exchange
are atomic, but not together: an exchange writes back the bits outside the mask as they were at the read. A bit that was set
meanwhile is lost, and one that was taken meanwhile is there again.
-/

namespace PreTeO.Sync
set_option autoImplicit false
open PreTeO.Lib

/-- A call of `cEvent`; `wait` calls `check` until it returns a bit. -/
inductive EventCall where
  | set (mask : BitVec 32)
  | check (mask : BitVec 32)
deriving DecidableEq, Repr

namespace EventCall

def mask : EventCall → BitVec 32
  | set mask => mask
  | check mask => mask

/-- What is computed from `m_state`, before the exchange. -/
def next : EventCall → BitVec 32 → BitVec 32
  | set mask, mState => mask ||| mState
  | check mask, mState => mState &&& ~~~mask

/-- What `check` returns of the state that was exchanged. -/
def result : EventCall → BitVec 32 → BitVec 32
  | set _, _ => 0
  | check mask, r => if mask ≠ 0 then r &&& mask else r

end EventCall

/-- A call that has read `m_state` and not exchanged it yet. -/
structure HalfCall where
  call : EventCall
  read : BitVec 32
deriving DecidableEq, Repr

/-- A call that is over, with what it returned. -/
structure DoneCall where
  call : EventCall
  result : BitVec 32
deriving DecidableEq, Repr

/-- `m_state`, the calls of the threads that are half-way, and the calls that are over, the newest first. -/
structure EventSystem where
  mState : BitVec 32
  half : Nat → Option HalfCall
  done : List DoneCall

/-- An atomic step of a thread. -/
inductive EventStep where
  | read (thread : Nat) (call : EventCall)
  | exchange (thread : Nat)
deriving DecidableEq, Repr

namespace EventSystem

/-- The state after `object_init`. -/
def start : EventSystem := ⟨0, fun _ => none, []⟩

def step (s : EventSystem) : EventStep → Option EventSystem
  | .read thread call =>
    if s.half thread = none ∧ call.mask ≠ 0 then
      some { s with half := Function.update s.half thread (some ⟨call, s.mState⟩) }
    else none
  | .exchange thread =>
    (s.half thread).map fun h =>
      { mState := h.call.next h.read
        half := Function.update s.half thread none
        done := ⟨h.call, h.call.result s.mState⟩ :: s.done }

/-- No call is half-way. -/
def Idle (s : EventSystem) : Prop := ∀ thread, s.half thread = none

end EventSystem

/-- The call is a `set` of the bit. -/
def DoneCall.sets (i : Nat) (d : DoneCall) : Bool :=
  match d.call with
  | .set mask => mask.getLsbD i
  | .check _ => false

/-- The call is a `check` that returned the bit. -/
def DoneCall.returns (i : Nat) (d : DoneCall) : Bool :=
  match d.call with
  | .set _ => false
  | .check mask => mask.getLsbD i && d.result.getLsbD i

namespace EventSystem

/-- Each bit that was set is pending, or was returned by a `check` that was over later. -/
def Kept (s : EventSystem) : Prop :=
  ∀ i newer d older, s.done = newer ++ d :: older → d.sets i = true →
    s.mState.getLsbD i = true ∨ ∃ e ∈ newer, e.returns i = true

/-- No bit was returned more often than it was set. -/
def Counted (s : EventSystem) : Prop := ∀ i, s.done.countP (DoneCall.returns i) ≤ s.done.countP (DoneCall.sets i)

/-- At an exchange, the bits outside the mask are as they were at the read. -/
def Undisturbed (s : EventSystem) : EventStep → Prop
  | .read _ _ => True
  | .exchange thread => ∀ h ∈ s.half thread, s.mState &&& ~~~h.call.mask = h.read &&& ~~~h.call.mask

instance (s : EventSystem) : ∀ a, Decidable (s.Undisturbed a)
  | .read _ _ => inferInstanceAs (Decidable True)
  | .exchange thread => inferInstanceAs (Decidable (∀ h ∈ s.half thread, _))

/-- A pending bit was set once more than it was returned. -/
def Pending (s : EventSystem) : Prop :=
  ∀ i, s.done.countP (DoneCall.returns i) + (if s.mState.getLsbD i then 1 else 0) ≤ s.done.countP (DoneCall.sets i)

variable {s t : EventSystem}

/-- An undisturbed exchange is an atomic operation on the state. -/
theorem next_undisturbed {call : EventCall} {mState read : BitVec 32}
    (same : mState &&& ~~~call.mask = read &&& ~~~call.mask) :
    call.next read = call.next mState := by
  have outside (i : Nat) (less : i < 32) (not_mask : call.mask.getLsbD i = false) : mState.getLsbD i = read.getLsbD i := by
    have bit := congrArg (fun b : BitVec 32 => b.getLsbD i) same
    simpa only [BitVec.getLsbD_and, BitVec.getLsbD_not, not_mask, less, decide_true, Bool.not_false, Bool.and_true] using bit
  apply BitVec.eq_of_getLsbD_eq
  intro i less
  have bit := outside i less
  cases call with
  | set mask =>
    simp only [EventCall.next, BitVec.getLsbD_or]
    cases in_mask : mask.getLsbD i with
    | true => rfl
    | false => rw [bit in_mask]
  | check mask =>
    simp only [EventCall.next, BitVec.getLsbD_and, BitVec.getLsbD_not]
    cases in_mask : mask.getLsbD i with
    | true => simp
    | false => rw [bit in_mask]

/-- What an exchange does to a bit: it is set, taken and returned, or left as it is. -/
theorem exchange_bit (call : EventCall) (mState : BitVec 32) (some : call.mask ≠ 0) (i : Nat) :
    let d : DoneCall := ⟨call, call.result mState⟩
    (d.sets i = true ∧ d.returns i = false ∧ (call.next mState).getLsbD i = true) ∨
      (d.sets i = false ∧ d.returns i = mState.getLsbD i ∧ (call.next mState).getLsbD i = false) ∨
      (d.sets i = false ∧ d.returns i = false ∧ (call.next mState).getLsbD i = mState.getLsbD i) := by
  cases call with
  | set mask =>
    cases in_mask : mask.getLsbD i with
    | true => exact .inl ⟨in_mask, rfl, by simp [EventCall.next, in_mask]⟩
    | false => exact .inr (.inr ⟨in_mask, rfl, by simp [EventCall.next, in_mask]⟩)
  | check mask =>
    have nonzero : mask ≠ 0 := some
    cases in_mask : mask.getLsbD i with
    | true =>
      refine .inr (.inl ⟨rfl, ?_, ?_⟩)
      · simp only [DoneCall.returns, EventCall.result]
        rw [if_pos nonzero, BitVec.getLsbD_and, in_mask, Bool.true_and, Bool.and_true]
      · simp [EventCall.next, in_mask]
    | false =>
      refine .inr (.inr ⟨rfl, by simp [DoneCall.returns, in_mask], ?_⟩)
      by_cases less : i < 32
      · simp only [EventCall.next, BitVec.getLsbD_and, BitVec.getLsbD_not, in_mask, less, decide_true, Bool.not_false,
          Bool.and_true]
      · simp [BitVec.getLsbD_of_ge _ _ (Nat.le_of_not_lt less)]

theorem Pending.counted (pending : Pending s) : Counted s := fun i => (Nat.le_add_right _ _).trans (pending i)

/-- What holds between the steps of undisturbed calls. -/
structure Inv (s : EventSystem) : Prop where
  kept : Kept s
  pending : Pending s
  masks : ∀ thread h, s.half thread = some h → h.call.mask ≠ 0

theorem start_inv : Inv start where
  kept i newer d older split := by
    have := congrArg List.length split
    simp [start] at this
  pending i := by simp [start]
  masks thread h half := by cases half

/-- A call that begins. -/
theorem Inv.read {thread : Nat} {call : EventCall} (inv : Inv s) (read : s.step (.read thread call) = some t) : Inv t := by
  rw [step] at read
  split at read
  · next idle =>
    cases read
    refine ⟨inv.kept, inv.pending, fun other h half => ?_⟩
    dsimp only at half
    by_cases same : other = thread
    · subst same
      rw [Function.update_self] at half
      cases half
      exact idle.2
    · rw [Function.update_of_ne same] at half
      exact inv.masks other h half
  · cases read

/-- A call that ends undisturbed. -/
theorem Inv.exchange {thread : Nat} (inv : Inv s) (undisturbed : Undisturbed s (.exchange thread))
    (exchange : s.step (.exchange thread) = some t) : Inv t := by
  rw [step] at exchange
  obtain ⟨h, half, rfl⟩ := Option.map_eq_some_iff.mp exchange
  have bits := exchange_bit h.call s.mState (inv.masks thread h half)
  rw [next_undisturbed (undisturbed h half)]
  refine ⟨fun i newer d older split set => ?_, fun i => ?_, fun other g other_half => ?_⟩
  · rcases List.cons_eq_append_iff.mp split with ⟨rfl, whole⟩ | ⟨newer', rfl, rest⟩
    · -- the bit was set by the call itself
      cases whole
      rcases bits i with ⟨-, -, bit⟩ | ⟨not_set, -⟩ | ⟨not_set, -⟩
      · exact .inl bit
      · exact absurd set (Bool.eq_false_iff.mp not_set)
      · exact absurd set (Bool.eq_false_iff.mp not_set)
    · rcases inv.kept i newer' d older rest set with pending | ⟨e, member, returned⟩
      · rcases bits i with ⟨-, -, bit⟩ | ⟨-, returned, -⟩ | ⟨-, -, bit⟩
        · exact .inl bit
        · exact .inr ⟨_, List.mem_cons_self, returned.trans pending⟩
        · exact .inl (bit.trans pending)
      · exact .inr ⟨e, List.mem_cons_of_mem _ member, returned⟩
  · have before := inv.pending i
    simp only [List.countP_cons]
    rcases bits i with ⟨set, returned, bit⟩ | ⟨set, returned, bit⟩ | ⟨set, returned, bit⟩
    · simp only [set, returned, bit, if_true]
      simp only [Bool.false_eq_true, if_false]
      split at before <;> omega
    · simp only [set, returned, bit, Bool.false_eq_true, if_false]
      exact before
    · simp only [set, returned, bit, Bool.false_eq_true, if_false]
      exact before
  · dsimp only at other_half
    by_cases same : other = thread
    · subst same
      rw [Function.update_self] at other_half
      cases other_half
    · rw [Function.update_of_ne same] at other_half
      exact inv.masks other g other_half

/-- No bit is lost, and none is returned too often, if no call changes a bit between the read and the exchange of another
call whose mask does not have it. -/
theorem events_kept (run : Reach step Undisturbed start s) : Kept s ∧ Counted s := by
  have inv : Inv s := run.invariant start_inv fun s a t inv undisturbed next => by
    cases a with
    | read thread call => exact inv.read next
    | exchange thread => exact inv.exchange undisturbed next
  exact ⟨inv.kept, inv.pending.counted⟩

/-- Two threads overlap: one sets two bits, and the other takes one of them. -/
def twoThreads : List EventStep :=
  [.read 0 (.set 3#32), .read 1 (.check 3#32), .exchange 0, .exchange 1, .read 0 (.check 1#32), .exchange 0]

theorem events_kept_twoThreads : ∃ s, runAll step Undisturbed start twoThreads = some s ∧ Kept s ∧ Counted s := by
  have runs : (runAll step Undisturbed start twoThreads).isSome = true := by decide +kernel
  obtain ⟨s, run⟩ := Option.isSome_iff_exists.mp runs
  exact ⟨s, run, events_kept (Reach.of_runAll _ run)⟩

/-- A thread has read the state, another sets a bit, and the exchange of the first loses it. -/
theorem set_loses_bit : ∃ s, Reach step (fun _ _ => True) start s ∧ s.Idle ∧ ¬ (Kept s ∧ Counted s) := by
  have run : runAll step (fun _ _ => True) start [.read 0 (.set 1#32), .read 1 (.set 2#32), .exchange 1, .exchange 0] =
      some ⟨1#32, Function.update (Function.update (Function.update (Function.update (fun _ => none) 0
        (some ⟨.set 1#32, 0#32⟩)) 1 (some ⟨.set 2#32, 0#32⟩)) 1 none) 0 none, [⟨.set 1#32, 0#32⟩, ⟨.set 2#32, 0#32⟩]⟩ := rfl
  refine ⟨_, Reach.of_runAll _ run, fun thread => ?_, fun both => ?_⟩
  · by_cases first : thread = 0 <;> by_cases second : thread = 1 <;> simp [Function.update, first, second]
  · rcases both.1 1 [⟨.set 1#32, 0#32⟩] ⟨.set 2#32, 0#32⟩ [] rfl rfl with pending | ⟨e, member, returned⟩
    · exact absurd pending (by decide)
    · rw [List.mem_singleton.mp member] at returned
      exact absurd returned (by decide)

end EventSystem

end PreTeO.Sync
