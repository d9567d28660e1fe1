import PreTeO.Sync.Mutex

/-!
# Threads sharing one mutex

The system interleaves `mutex_try_lock` and `mutex_unlock` calls of any number of threads. Beside
the mutex it records what the threads know: the handles each one received (with the number of the
acquisition that issued them) and the locks it has not yet unlocked. A thread is inside the mutex
while it has an unmatched lock.

A handle outlives the unlock. Passing it to `mutex_try_lock` on a free mutex takes the re-entry
branch, which raises the recursion counter but leaves the lock flag free for the next thread.
-/

namespace PreTeO.Sync
set_option autoImplicit false
open PreTeO.Lib

/-- A handle received from a successful `mutex_try_lock`, with the number of the acquisition it
belongs to. -/
structure Receipt where
  handle : BitVec 64
  acquisition : Nat
deriving DecidableEq, Repr

/-- The mutex and what its users know. -/
structure System (T : Type) where
  mutex : Mutex
  /-- Number of times the lock flag was taken. -/
  acquisitions : Nat
  received : T → List Receipt
  /-- The handles of the successful locks that are not unlocked yet. -/
  held : T → List (BitVec 64)

inductive Call (T : Type) where
  | tryLock (t : T) (h : BitVec 64)
  | unlock (t : T) (h : BitVec 64)
deriving DecidableEq, Repr

variable {T : Type}

/-- A freshly reset mutex that nobody has used. -/
def System.init (addr : BitVec 64) : System T where
  mutex := mutexReset ⟨addr, 0, 0, 0⟩
  acquisitions := 0
  received := fun _ => []
  held := fun _ => []

/-- This `mutex_try_lock` finds the lock flag free and takes it. -/
def System.Acquires (s : System T) (h : BitVec 64) : Prop :=
  h ≠ s.mutex.getHandle ∧ s.mutex.lockFlag = unlockMagic

instance (s : System T) (h : BitVec 64) : Decidable (s.Acquires h) :=
  inferInstanceAs (Decidable (_ ∧ _))

/-- A thread passes 0 or a handle it received earlier, kept for however long. -/
def System.Passes (s : System T) (t : T) (h : BitVec 64) : Prop :=
  h = 0#64 ∨ ∃ r ∈ s.received t, r.handle = h

/-- The calls the threads may make. -/
def System.Admits (s : System T) : Call T → Prop
  | .tryLock t h => s.Passes t h
  | .unlock t h => s.Passes t h

instance (s : System T) (t : T) (h : BitVec 64) : Decidable (s.Passes t h) :=
  inferInstanceAs (Decidable (_ ∨ _))

instance (s : System T) : (c : Call T) → Decidable (s.Admits c)
  | .tryLock t h => inferInstanceAs (Decidable (s.Passes t h))
  | .unlock t h => inferInstanceAs (Decidable (s.Passes t h))

/-- The handle is not left over from an acquisition `2^32` or more before the current one. -/
def System.NoLap (s : System T) (t : T) (h : BitVec 64) : Prop :=
  s.acquisitions < 2 ^ 32 ∨ ⟨h, s.acquisitions⟩ ∈ s.received t

instance (s : System T) (t : T) (h : BitVec 64) : Decidable (s.NoLap t h) :=
  inferInstanceAs (Decidable (_ ∨ _))

/-- The mutex's current handle is passed to `mutex_try_lock` only while the mutex is taken, below
the bound of the recursion counter and not after a lap of the handle counter; it is passed to
`mutex_unlock` of a taken mutex only not after a lap. Other handles are not restricted. -/
def System.Sound (s : System T) : Call T → Prop
  | .tryLock t h => h = s.mutex.getHandle →
      s.mutex.lockFlag ≠ unlockMagic ∧ s.mutex.lockCount.toNat + 1 < 2 ^ 32 ∧ s.NoLap t h
  | .unlock t h => h = s.mutex.getHandle → s.mutex.lockFlag = unlockMagic ∨ s.NoLap t h

instance (s : System T) : (c : Call T) → Decidable (s.Sound c)
  | .tryLock _ _ => inferInstanceAs (Decidable (_ → _))
  | .unlock _ _ => inferInstanceAs (Decidable (_ → _))

/-- The thread is between a successful lock and its matching last unlock. -/
def System.Inside (s : System T) (t : T) : Prop := s.held t ≠ []

instance (s : System T) (t : T) : Decidable (s.Inside t) :=
  inferInstanceAs (Decidable (s.held t ≠ []))

/-- At most one thread is inside. -/
def System.MutualExclusion (s : System T) : Prop := ∀ t u, s.Inside t → s.Inside u → t = u

/-- The thread's `mutex_try_lock` would succeed. -/
def System.Enters (s : System T) (h : BitVec 64) : Prop := (mutexTryLock s.mutex h).1 ≠ 0#64

/-! ## What one call does -/

theorem tryLock_acquire {m : Mutex} {h : BitVec 64} (other : h ≠ m.getHandle)
    (free : m.lockFlag = unlockMagic) :
    mutexTryLock m h = (handleAt m.addr (m.handleCount + 1#32),
      ⟨m.addr, 1#32, m.handleCount + 1#32, lockMagic⟩) := by
  rw [mutexTryLock, if_pos other]
  simp [free, Mutex.getHandle]

theorem tryLock_busy {m : Mutex} {h : BitVec 64} (other : h ≠ m.getHandle)
    (taken : m.lockFlag ≠ unlockMagic) : mutexTryLock m h = (0#64, { m with lockFlag := lockMagic }) := by
  simp [mutexTryLock, other, taken]

theorem tryLock_reenter (m : Mutex) :
    mutexTryLock m m.getHandle = (m.getHandle, { m with lockCount := m.lockCount + 1#32 }) := by
  simp [mutexTryLock]

theorem unlock_other {m : Mutex} {h : BitVec 64} (other : h ≠ m.getHandle) : mutexUnlock m h = m := by
  simp [mutexUnlock, other]

theorem unlock_last {m : Mutex} (last : m.lockCount.toNat ≤ 1) :
    mutexUnlock m m.getHandle = { m with lockCount := 0#32, lockFlag := unlockMagic } := by
  have count : m.lockCount = 0#32 ∨ m.lockCount = 1#32 := by
    rcases Nat.le_one_iff_eq_zero_or_eq_one.mp last with h | h
    · exact Or.inl (BitVec.eq_of_toNat_eq h)
    · exact Or.inr (BitVec.eq_of_toNat_eq h)
  rcases count with h | h <;> simp [mutexUnlock, h]

theorem unlock_nested {m : Mutex} (nested : 1 < m.lockCount.toNat) :
    mutexUnlock m m.getHandle = { m with lockCount := m.lockCount - 1#32 } := by
  have some : m.lockCount ≠ 0#32 := by
    rintro h
    rw [h] at nested
    exact absurd nested (by decide)
  have more : m.lockCount - 1#32 ≠ 0#32 := by bv_omega
  simp [mutexUnlock, some, more]

/-! ## The invariant -/

/-- The thread received the handle of the current acquisition. -/
def System.HasCurrent (s : System T) (t : T) : Prop :=
  ⟨s.mutex.getHandle, s.acquisitions⟩ ∈ s.received t

/-- The handle counter counts acquisitions, a receipt carries the handle of its acquisition, only
one thread has the current one, and the recursion counter is that thread's number of open locks. -/
structure System.Inv (s : System T) : Prop where
  count : s.mutex.handleCount = BitVec.ofNat 32 s.acquisitions
  receipt : ∀ t, ∀ r ∈ s.received t, r.acquisition ≤ s.acquisitions ∧ r.handle ≠ 0#64 ∧
    r.handle = handleAt s.mutex.addr (BitVec.ofNat 32 r.acquisition)
  owner : ∀ t u, s.HasCurrent t → s.HasCurrent u → t = u
  unused : s.acquisitions = 0 → s.mutex.lockFlag = unlockMagic
  free : s.mutex.lockFlag = unlockMagic → s.mutex.lockCount = 0#32 ∧ ∀ t, s.held t = []
  inside : ∀ t, s.Inside t → s.HasCurrent t
  depth : s.mutex.lockFlag ≠ unlockMagic → ∀ t, s.HasCurrent t →
    (∀ h ∈ s.held t, h = s.mutex.getHandle) ∧ (s.held t).length = s.mutex.lockCount.toNat

theorem System.init_inv (addr : BitVec 64) : (System.init addr : System T).Inv where
  count := rfl
  receipt := by simp [System.init]
  owner := by simp [System.init, System.HasCurrent]
  unused := fun _ => rfl
  free := fun _ => ⟨rfl, fun _ => rfl⟩
  inside := fun _ inside => absurd rfl inside
  depth := fun taken => absurd rfl taken

/-- Whoever passes the current handle of a taken mutex, and not a lap later, received it from the
current acquisition: handles of other acquisitions of this lap have other numbers. -/
theorem System.Inv.hasCurrent {s : System T} (inv : s.Inv) {t : T}
    (taken : s.mutex.lockFlag ≠ unlockMagic) (passes : s.Passes t s.mutex.getHandle)
    (noLap : s.NoLap t s.mutex.getHandle) : s.HasCurrent t := by
  rcases noLap with small | current
  · rcases passes with zero | ⟨r, received, same⟩
    · have none : BitVec.ofNat 32 s.acquisitions = 0#32 := by
        rw [← inv.count]
        exact handleAt_eq_zero zero
      have start : s.acquisitions = 0 := by
        have := congrArg BitVec.toNat none
        simp only [BitVec.toNat_ofNat] at this
        omega
      exact absurd (inv.unused start) taken
    · obtain ⟨le, -, handle⟩ := inv.receipt t r received
      have number : BitVec.ofNat 32 r.acquisition = BitVec.ofNat 32 s.acquisitions := by
        rw [← inv.count]
        exact handleAt_inj (handle.symm.trans same)
      have equal : r.acquisition = s.acquisitions := by
        have := congrArg BitVec.toNat number
        simp only [BitVec.toNat_ofNat] at this
        omega
      have : r = ⟨s.mutex.getHandle, s.acquisitions⟩ := by
        cases r
        simp_all
      rw [System.HasCurrent, ← this]
      exact received
  · exact current

/-! ## Runs -/

section Runs

variable [DecidableEq T]

/-- One atomic call. -/
def System.step (s : System T) : Call T → System T
  | .tryLock t h =>
    let (r, m) := mutexTryLock s.mutex h
    let n := if s.Acquires h then s.acquisitions + 1 else s.acquisitions
    if r ≠ 0#64 then
      { mutex := m, acquisitions := n
        received := Function.update s.received t (⟨r, n⟩ :: s.received t)
        held := Function.update s.held t (r :: s.held t) }
    else { s with mutex := m, acquisitions := n }
  | .unlock t h =>
    { s with mutex := mutexUnlock s.mutex h, held := Function.update s.held t ((s.held t).erase h) }

omit [DecidableEq T] in
/-- No receipt of an invariant state belongs to the next acquisition. -/
theorem System.Inv.no_next {s : System T} (inv : s.Inv) (t : T) (h : BitVec 64) :
    ⟨h, s.acquisitions + 1⟩ ∉ s.received t := by
  intro received
  have late : s.acquisitions + 1 ≤ s.acquisitions := (inv.receipt t _ received).1
  omega

omit [DecidableEq T] in
theorem System.Inv.receipt_next {s : System T} (inv : s.Inv) (t : T) :
    ∀ r ∈ s.received t, r.acquisition ≤ s.acquisitions + 1 ∧ r.handle ≠ 0#64 ∧
      r.handle = handleAt s.mutex.addr (BitVec.ofNat 32 r.acquisition) := by
  intro r received
  obtain ⟨le, nonzero, handle⟩ := inv.receipt t r received
  exact ⟨by omega, nonzero, handle⟩

theorem ofNat_succ (n : Nat) : BitVec.ofNat 32 n + 1#32 = BitVec.ofNat 32 (n + 1) := by
  rw [BitVec.ofNat_add]

/-- Taking the free lock flag with a handle that is not 0 makes the caller the only owner. -/
theorem System.Inv.acquire {s : System T} (inv : s.Inv) (t : T) {r : BitVec 64}
    (free : s.mutex.lockFlag = unlockMagic) (handle : r = handleAt s.mutex.addr (s.mutex.handleCount + 1#32))
    (nonzero : r ≠ 0#64) :
    System.Inv
      { mutex := ⟨s.mutex.addr, 1#32, s.mutex.handleCount + 1#32, lockMagic⟩
        acquisitions := s.acquisitions + 1
        received := Function.update s.received t (⟨r, s.acquisitions + 1⟩ :: s.received t)
        held := Function.update s.held t (r :: s.held t) } where
  count := by
    simp only [inv.count, ofNat_succ]
  receipt := by
    intro u q received
    by_cases same : u = t
    · subst same
      simp only [Function.update_self, List.mem_cons] at received
      rcases received with rfl | old
      · exact ⟨le_rfl, nonzero, by rw [handle, inv.count, ofNat_succ]⟩
      · exact inv.receipt_next u q old
    · simp only [Function.update_of_ne same] at received
      exact inv.receipt_next u q received
  owner := by
    have only : ∀ u h, ⟨h, s.acquisitions + 1⟩ ∈
        Function.update s.received t (⟨r, s.acquisitions + 1⟩ :: s.received t) u → u = t := by
      intro u h received
      by_contra other
      rw [Function.update_of_ne other] at received
      exact inv.no_next u h received
    intro u v hu hv
    rw [only u _ hu, only v _ hv]
  unused := fun zero => absurd zero (Nat.succ_ne_zero _)
  free := fun taken => absurd taken lockMagic_ne
  inside := by
    intro u inside
    by_cases same : u = t
    · subst same
      simp [System.HasCurrent, Mutex.getHandle, handle]
    · simp only [System.Inside, Function.update_of_ne same] at inside
      exact absurd ((inv.free free).2 u) inside
  depth := by
    intro _ u current
    by_cases same : u = t
    · subst same
      simp [(inv.free free).2 u, Mutex.getHandle, handle]
    · simp only [System.HasCurrent, Function.update_of_ne same] at current
      exact absurd current (inv.no_next u _)

omit [DecidableEq T] in
/-- Taking the lock flag when the new handle is 0: the flag is taken and nobody is told. -/
theorem System.Inv.acquire_zero {s : System T} (inv : s.Inv) (free : s.mutex.lockFlag = unlockMagic) :
    System.Inv
      { s with
        mutex := ⟨s.mutex.addr, 1#32, s.mutex.handleCount + 1#32, lockMagic⟩
        acquisitions := s.acquisitions + 1 } where
  count := by
    simp only [inv.count, ofNat_succ]
  receipt := fun t => inv.receipt_next t
  owner := fun t _ current => absurd current (inv.no_next t _)
  unused := fun zero => absurd zero (Nat.succ_ne_zero _)
  free := fun taken => absurd taken lockMagic_ne
  inside := fun t inside => absurd ((inv.free free).2 t) inside
  depth := fun _ t current => absurd current (inv.no_next t _)

/-- The owner enters once more. -/
theorem System.Inv.reenter {s : System T} (inv : s.Inv) {t : T}
    (taken : s.mutex.lockFlag ≠ unlockMagic) (bound : s.mutex.lockCount.toNat + 1 < 2 ^ 32)
    (current : s.HasCurrent t) :
    System.Inv
      { mutex := { s.mutex with lockCount := s.mutex.lockCount + 1#32 }
        acquisitions := s.acquisitions
        received := Function.update s.received t
          (⟨s.mutex.getHandle, s.acquisitions⟩ :: s.received t)
        held := Function.update s.held t (s.mutex.getHandle :: s.held t) } := by
  have known : ∀ u q, q ∈ Function.update s.received t
      (⟨s.mutex.getHandle, s.acquisitions⟩ :: s.received t) u ↔ q ∈ s.received u := by
    intro u q
    by_cases same : u = t
    · subst same
      simp only [Function.update_self, List.mem_cons, or_iff_right_iff_imp]
      rintro rfl
      exact current
    · rw [Function.update_of_ne same]
  constructor
  · exact inv.count
  · intro u q received
    exact inv.receipt u q ((known u q).mp received)
  · intro u v hu hv
    exact inv.owner u v ((known u _).mp hu) ((known v _).mp hv)
  · exact inv.unused
  · exact fun free => absurd free taken
  · intro u inside
    refine (known u _).mpr ?_
    by_cases same : u = t
    · subst same
      exact current
    · simp only [System.Inside, Function.update_of_ne same] at inside
      exact inv.inside u inside
  · intro _ u hu
    have here : u = t := inv.owner u t ((known u _).mp hu) current
    subst here
    obtain ⟨all, length⟩ := inv.depth taken u current
    have more : (s.mutex.lockCount + 1#32).toNat = s.mutex.lockCount.toNat + 1 := by
      rw [BitVec.toNat_add]
      exact Nat.mod_eq_of_lt bound
    simp only [Function.update_self, List.mem_cons, List.length_cons, length, more, and_true]
    rintro h (rfl | old)
    · rfl
    · exact all h old

/-- The owner leaves once. When it was the last time the lock flag is given back. -/
theorem System.Inv.leave {s : System T} (inv : s.Inv) {t : T}
    (taken : s.mutex.lockFlag ≠ unlockMagic) (current : s.HasCurrent t) :
    System.Inv { s with
      mutex := mutexUnlock s.mutex s.mutex.getHandle
      held := Function.update s.held t ((s.held t).erase s.mutex.getHandle) } := by
  obtain ⟨all, length⟩ := inv.depth taken t current
  have erased : ((s.held t).erase s.mutex.getHandle).length = s.mutex.lockCount.toNat - 1 := by
    rw [← length]
    cases heldT : s.held t with
    | nil => rfl
    | cons h rest =>
      have : h = s.mutex.getHandle := all h (by simp [heldT])
      simp [this]
  have others : ∀ u, u ≠ t → s.held u = [] := by
    intro u other
    by_contra inside
    exact other (inv.owner u t (inv.inside u inside) current)
  by_cases last : s.mutex.lockCount.toNat ≤ 1
  · have none : ∀ u, Function.update s.held t ((s.held t).erase s.mutex.getHandle) u = [] := by
      intro u
      by_cases same : u = t
      · subst same
        simp only [Function.update_self]
        exact List.eq_nil_of_length_eq_zero (by omega)
      · rw [Function.update_of_ne same]
        exact others u same
    rw [unlock_last last]
    exact ⟨inv.count, inv.receipt, inv.owner, fun _ => rfl, fun _ => ⟨rfl, none⟩,
      fun u inside => absurd (none u) inside, fun taken => absurd rfl taken⟩
  · rw [unlock_nested (by omega)]
    refine ⟨inv.count, inv.receipt, inv.owner, inv.unused, fun free => absurd free taken, ?_, ?_⟩
    · intro u inside
      by_cases same : u = t
      · subst same
        exact current
      · simp only [System.Inside, Function.update_of_ne same] at inside
        exact inv.inside u inside
    · intro _ u hu
      have here : u = t := inv.owner u t hu current
      subst here
      have less : (s.mutex.lockCount - 1#32).toNat = s.mutex.lockCount.toNat - 1 := by
        have := s.mutex.lockCount.isLt
        bv_omega
      simp only [Function.update_self, less, erased, and_true]
      exact fun h member => all h (List.mem_of_mem_erase member)

/-- Every sound call of a thread keeps the invariant. -/
theorem System.Inv.step {s : System T} (inv : s.Inv) {c : Call T} (admits : s.Admits c)
    (sound : s.Sound c) : (s.step c).Inv := by
  cases c with
  | tryLock t h =>
    by_cases other : h = s.mutex.getHandle
    · obtain ⟨taken, bound, noLap⟩ := sound other
      have current := inv.hasCurrent taken (other ▸ admits) (other ▸ noLap)
      have nonzero : s.mutex.getHandle ≠ 0#64 := (inv.receipt t _ current).2.1
      have same : ¬ s.Acquires h := fun acquires => acquires.1 other
      subst other
      simpa [System.step, tryLock_reenter, nonzero, same] using inv.reenter taken bound current
    · by_cases free : s.mutex.lockFlag = unlockMagic
      · have acquires : s.Acquires h := ⟨other, free⟩
        simp only [System.step, tryLock_acquire other free, if_pos acquires]
        split
        · next nonzero => exact inv.acquire t free rfl nonzero
        · exact inv.acquire_zero free
      · have busy : ¬ s.Acquires h := fun acquires => free acquires.2
        simp only [System.step, tryLock_busy other free, if_neg busy]
        exact ⟨inv.count, inv.receipt, inv.owner, fun zero => absurd (inv.unused zero) free,
          fun taken => absurd taken lockMagic_ne, inv.inside, fun _ => inv.depth free⟩
  | unlock t h =>
    by_cases other : h = s.mutex.getHandle
    · by_cases free : s.mutex.lockFlag = unlockMagic
      · obtain ⟨zero, none⟩ := inv.free free
        have same : mutexUnlock s.mutex h = s.mutex := by
          rw [other, unlock_last (by simp [zero]), ← zero, ← free]
        simp only [System.step, same, none t, List.erase_nil]
        rw [show Function.update s.held t [] = s.held by rw [← none t, Function.update_eq_self]]
        exact inv
      · have noLap : s.NoLap t h := (sound other).resolve_left free
        have current := inv.hasCurrent free (other ▸ admits) (other ▸ noLap)
        subst other
        exact inv.leave free current
    · have absent : h ∉ s.held t := by
        intro member
        have inside : s.Inside t := List.ne_nil_of_mem member
        have taken : s.mutex.lockFlag ≠ unlockMagic := fun free => inside ((inv.free free).2 t)
        exact other ((inv.depth taken t (inv.inside t inside)).1 h member)
      simp only [System.step, unlock_other other, List.erase_of_not_mem absent,
        Function.update_eq_self]
      exact inv

omit [DecidableEq T] in
/-- In an invariant state a sound `mutex_try_lock` succeeds only for a thread that is inside, if
there is one. -/
theorem System.Inv.enters_only {s : System T} (inv : s.Inv) {t u : T} {h : BitVec 64}
    (passes : s.Passes t h) (sound : s.Sound (.tryLock t h)) (inside : s.Inside u)
    (enters : s.Enters h) : t = u := by
  have taken : s.mutex.lockFlag ≠ unlockMagic := fun free => inside ((inv.free free).2 u)
  by_cases other : h = s.mutex.getHandle
  · obtain ⟨-, -, noLap⟩ := sound other
    exact inv.owner t u (inv.hasCurrent taken (other ▸ passes) (other ▸ noLap)) (inv.inside u inside)
  · rw [System.Enters, tryLock_busy other taken] at enters
    exact absurd rfl enters

/-- **Mutual exclusion.** In every interleaving of sound calls at most one thread is inside the
mutex, and a sound `mutex_try_lock` on a mutex with a thread inside succeeds only for that
thread. -/
theorem mutual_exclusion (addr : BitVec 64) (s : System T)
    (run : Reach (fun s c => some (s.step c)) (fun s c => s.Admits c ∧ s.Sound c) (System.init addr) s) :
    s.MutualExclusion ∧ ∀ t h u, s.Passes t h → s.Sound (.tryLock t h) → s.Inside u → s.Enters h →
      t = u := by
  have inv : s.Inv := by
    refine run.invariant (System.init_inv addr) ?_
    rintro s c t inv ⟨admits, sound⟩ returns
    cases returns
    exact inv.step admits sound
  refine ⟨fun t u ht hu => inv.owner t u (inv.inside t ht) (inv.inside u hu), ?_⟩
  intro t h u passes sound inside enters
  exact inv.enters_only passes sound inside enters

end Runs

/-- The handle of the first acquisition of the mutex at address `0x1000`. -/
def firstHandle : BitVec 64 := handleAt 0x1000#64 1#32

/-- Thread 0 enters twice, thread 1 is refused, thread 0 leaves twice, thread 1 enters. -/
def nestedCalls : List (Call Nat) :=
  [.tryLock 0 0#64, .tryLock 0 firstHandle, .tryLock 1 0#64, .unlock 0 firstHandle,
    .unlock 0 firstHandle, .tryLock 1 0#64]

theorem mutual_exclusion_nested :
    (nestedCalls.foldl System.step (System.init 0x1000#64)).MutualExclusion ∧
      (nestedCalls.foldl System.step (System.init 0x1000#64)).Inside 1 :=
  ⟨(mutual_exclusion 0x1000#64 _ (Reach.of_runAll nestedCalls rfl)).1, by decide⟩

/-- Thread 0 locks, unlocks and locks again with the handle it kept; thread 1 then locks with no
handle, as `cVolume::driver_ioctl` of two threads would. -/
def staleCalls : List (Call Nat) :=
  [.tryLock 0 0#64, .unlock 0 firstHandle, .tryLock 0 firstHandle, .tryLock 1 0#64]

/-- A kept handle breaks mutual exclusion: both threads are inside. -/
theorem stale_handle_admits_two :
    ¬ ∀ s : System Nat, Reach (fun s c => some (s.step c)) System.Admits (System.init 0x1000#64) s →
      s.MutualExclusion := by
  intro exclusion
  have both := exclusion _ (Reach.of_runAll staleCalls rfl) 0 1 (by decide) (by decide)
  exact absurd both (by decide)

end PreTeO.Sync
