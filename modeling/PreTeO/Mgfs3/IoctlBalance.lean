import PreTeO.Mgfs3.ContextIoctl
import PreTeO.Sync.MutexRun

/-!
# The mutex of a context over one request

A call of `driver_ioctl` that is over has taken the mutex of its context once, and has given it back at one of two places:
when it refuses the request before it looks at the driver of the handle, and after the `switch`. The exits in between keep
it. What decides is the handle as it is once nobody waits for it any more.
-/

namespace PreTeO.Mgfs3.Cxt
set_option autoImplicit false
open PreTeO.Common PreTeO.Fs PreTeO.Sync PreTeO.Sys

/-- The mutex of a context was given back as often as it was taken. -/
def Balanced (this : Nat) (events : List Event) : Prop :=
  events.count (.acquire this) = events.count (.release this)

instance (this : Nat) (events : List Event) : Decidable (Balanced this events) :=
  inferInstanceAs (Decidable (events.count (.acquire this) = events.count (.release this)))

/-- No transfer is pending on a handle. -/
def Idle (s : HandleTable) (h : Nat) : Prop := ∃ st, s.stateOf h = some st ∧ st &&& hstateIoPending = 0

/-- Every handle that was marked as busy is idle. -/
def Unmarked (s : HandleTable) (events : List Event) : Prop := ∀ h, .pending h ∈ events → Idle s h

/-- The handle has a driver and is of no device or volume, and if it is of a file or a context, it is of this one. -/
def Own (s : HandleTable) (this h : Nat) : Prop :=
  ∃ drv type, s.driverOf h = some drv ∧ s.typeOf h = some type ∧ drv ≠ 0 ∧
    ¬ (type = htypeVolume ∨ type = htypeDevice) ∧ (type = htypeFscontext ∨ type = htypeFile → drv = this)

/-- The context takes no requests, or the handle is not open, or it is open and the context's own when the wait for other
transfers is over. -/
def Settles {φ : Type} (this : Nat) (w : World φ) : Prop :=
  ∃ c, w.cxts this = some c ∧ (c.ioEnable = false ∨
    ∃ st, w.handles.stateOf w.dio.handle = some st ∧ (¬ (w.dio.handle ≠ 0 ∧ st &&& hstateOpen ≠ 0) ∨
      ∃ st' naps s, ioWait w.dio.handle st w.naps w.handles = some (st', naps, s) ∧
        st' &&& hstateOpen ≠ 0 ∧ Own s this w.dio.handle))

section Steps
variable {φ : Type} {ops : FileOps φ} {redirect : Nat → World φ → Option (World φ)} {this cmd h : Nat} {w w₁ r : World φ}

/-- The record of a handle after it is written. -/
theorem info_write {s s' : HandleTable} {f : Fs.HandleInfo → Fs.HandleInfo} (run : s.write h f = some s') :
    ∃ hi, s.info h = some hi ∧ s'.info h = some (f hi) := by
  simp only [HandleTable.write, Option.map_eq_some_iff] at run
  obtain ⟨it, found, rfl⟩ := run
  refine ⟨it.data, by simp [HandleTable.info, found], ?_⟩
  have addr : h - hdrSize ≠ 0 := by
    intro zero
    simp [Context.item, zero] at found
  simp [HandleTable.info, Context.item, Context.put, addr]

/-- The state of a handle that was just written; a handle that is not valid has none. -/
theorem stateOf_updateState {s s' : HandleTable} {st : Nat} (run : s.updateState h st = some s') :
    s'.stateOf h = some st ∨ s'.stateOf h = some 0 := by
  simp only [HandleTable.updateState, Option.bind_eq_bind, Option.bind_eq_some_iff] at run
  obtain ⟨valid, checked, run⟩ := run
  cases valid with
  | false =>
    obtain rfl := Option.some.inj run
    exact .inr (by simp [HandleTable.stateOf, HandleTable.read, checked])
  | true =>
    rw [if_pos rfl] at run
    obtain ⟨hi, before, after⟩ := info_write run
    have real : h ≠ 0 := by
      intro zero
      simp [HandleTable.validate, zero] at checked
    have magic : hi.magic = handleMagic := by simpa [HandleTable.validate, real, before] using checked
    exact .inl (by simp [HandleTable.stateOf, HandleTable.read, HandleTable.validate, real, after, magic])

/-- A handle that `mutexTryLock` gives out is the handle of the mutex. -/
theorem mutexTryLock_handle {m : Mutex} {hm : BitVec 64} (got : (mutexTryLock m hm).1 ≠ 0#64) :
    (mutexTryLock m hm).1 = (mutexTryLock m hm).2.getHandle := by
  by_cases other : hm ≠ m.getHandle
  · by_cases unlocked : m.lockFlag = unlockMagic
    · rw [tryLock_acquire other unlocked]
      rfl
    · rw [tryLock_busy other unlocked] at got
      exact absurd rfl got
  · obtain rfl : hm = m.getHandle := not_not.1 other
    rw [tryLock_reenter]
    rfl

/-- `lock` of one object. -/
theorem State.lock_spec {c c₁ : State φ} (run : c.lock = some c₁) :
    c₁.ioEnable = c.ioEnable ∧ c₁.ioLock = c₁.mutex.getHandle := by
  by_cases zero : (mutexTryLock c.mutex c.ioLock).1 = 0#64
  · simp [State.lock, zero] at run
  · simp only [State.lock, if_neg zero, Option.some.injEq] at run
    subst run
    exact ⟨rfl, mutexTryLock_handle zero⟩

/-- What `lock` does: the context holds its mutex under the handle it remembers. -/
theorem lock_spec (run : w.lock this = some w₁) :
    ∃ c c₁, w.cxts this = some c ∧ w₁.cxts this = some c₁ ∧ c₁.ioEnable = c.ioEnable ∧
      c₁.ioLock = c₁.mutex.getHandle ∧ w₁.handles = w.handles ∧ w₁.naps = w.naps ∧ w₁.dio = w.dio ∧
      w₁.events = w.events ++ [Event.acquire this] := by
  simp only [World.lock, Option.bind_eq_bind, Option.bind_eq_some_iff, Option.some.injEq] at run
  obtain ⟨c, found, c₁, locked, rfl⟩ := run
  obtain ⟨enable, held⟩ := State.lock_spec locked
  exact ⟨c, c₁, found, by simp [World.log, World.put], enable, held, rfl, rfl, rfl, rfl⟩

/-- What `unlock` does for a context that holds its mutex. -/
theorem unlock_spec {c : State φ} (found : w.cxts this = some c) (held : c.ioLock = c.mutex.getHandle)
    (run : w.unlock this = some r) : r.events = w.events ++ [Event.release this] ∧ r.handles = w.handles := by
  simp only [World.unlock, found, Option.bind_eq_bind, Option.bind_some, if_pos held, Option.some.injEq] at run
  subst run
  exact ⟨rfl, rfl⟩

/-- What is done between the two locks: the command leaves the handle idle, and the mutex is as it was. -/
theorem perform_spec {c : State φ} (found : w.cxts this = some c) (run : perform ops this cmd h w = some r) :
    r.events = w.events ++ [Event.pending h] ∧ Idle r.handles h ∧
      ∃ c', r.cxts this = some c' ∧ c'.ioLock = c.ioLock ∧ c'.mutex = c.mutex := by
  simp only [perform, found, Option.bind_eq_bind, Option.bind_some, Option.bind_eq_some_iff, Option.some.injEq] at run
  obtain ⟨st, -, s, -, b, -, st', -, s', wrote, rfl⟩ := run
  refine ⟨rfl, ?_, { c with fs := b.fs }, ?_, rfl, rfl⟩
  · have cleared : st' &&& 0xfd &&& hstateIoPending = 0 := by
      rw [Nat.and_assoc]
      exact Nat.and_zero _
    obtain now | now := stateOf_updateState wrote
    · exact ⟨_, now, cleared⟩
    · exact ⟨_, now, rfl⟩
  · simp [World.log, World.put]

/-- Where a request with an open handle ends: the context's own are done between the two marks, and the others are left or
handed over without the mutex being given back. -/
theorem dispatch_spec {c : State φ} {st : Nat} (found : w.cxts this = some c) (held : c.ioLock = c.mutex.getHandle)
    (run : dispatch ops redirect this cmd h st w = some r) :
    (st &&& hstateOpen ≠ 0 ∧ Own w.handles this h ∧ r.events = w.events ++ [Event.pending h, Event.release this] ∧
        Idle r.handles h) ∨
      ¬ (st &&& hstateOpen ≠ 0 ∧ Own w.handles this h) ∧ (r.events = w.events ∨ ∃ cxt, redirect cxt w = some r) := by
  by_cases closed : st &&& hstateOpen = 0
  · simp only [dispatch, if_pos closed, Option.some.injEq] at run
    subst run
    exact .inr ⟨fun own => own.1 closed, .inl rfl⟩
  simp only [dispatch, if_neg closed, Option.bind_eq_bind, Option.bind_eq_some_iff] at run
  obtain ⟨drv, driver, run⟩ := run
  by_cases none : drv = 0
  · simp only [if_pos none, Option.some.injEq] at run
    subst run
    refine .inr ⟨?_, .inl rfl⟩
    rintro ⟨-, drv', type, driver', -, real, -⟩
    exact real (Option.some.inj (driver'.symm.trans driver) |>.trans none)
  simp only [if_neg none, Option.bind_eq_some_iff] at run
  obtain ⟨type, typed, run⟩ := run
  by_cases other : (type = htypeFscontext ∨ type = htypeFile) ∧ drv ≠ this
  · rw [if_pos other] at run
    refine .inr ⟨?_, .inr ⟨drv, run⟩⟩
    rintro ⟨-, drv', type', driver', typed', -, -, own⟩
    obtain rfl := Option.some.inj (driver'.symm.trans driver)
    obtain rfl := Option.some.inj (typed'.symm.trans typed)
    exact other.2 (own other.1)
  rw [if_neg other] at run
  by_cases device : type = htypeVolume ∨ type = htypeDevice
  · simp only [if_pos device, Option.some.injEq] at run
    subst run
    refine .inr ⟨?_, .inl rfl⟩
    rintro ⟨-, drv', type', -, typed', -, neither, -⟩
    obtain rfl := Option.some.inj (typed'.symm.trans typed)
    exact neither device
  · simp only [if_neg device, Option.bind_eq_some_iff] at run
    obtain ⟨w', performed, unlocked⟩ := run
    obtain ⟨events, idle, c', found', lockSame, mutexSame⟩ := perform_spec found performed
    obtain ⟨released, handlesSame⟩ := unlock_spec found' (by rw [lockSame, mutexSame, held]) unlocked
    refine .inl ⟨closed, ⟨drv, type, driver, typed, none, device, ?_⟩, ?_, handlesSame ▸ idle⟩
    · exact fun kind => by_contra fun differs => other ⟨kind, differs⟩
    · rw [released, events, List.append_assoc]
      rfl

/-- One call: it ends with the mutex given back exactly if it settles, and the only handle it marks is idle then. -/
theorem ioctlWith_spec (run : ioctlWith ops redirect this cmd w = some r) :
    (Settles this w ∧ (r.events = w.events ++ [Event.acquire this, Event.release this] ∨
        r.events = w.events ++ [Event.acquire this, Event.pending w.dio.handle, Event.release this] ∧
          Idle r.handles w.dio.handle)) ∨
      ¬ Settles this w ∧ (r.events = w.events ++ [Event.acquire this] ∨
        ∃ cxt w₁, w₁.events = w.events ++ [Event.acquire this] ∧ w₁.dio.handle = w.dio.handle ∧
          redirect cxt w₁ = some r) := by
  simp only [ioctlWith, Option.bind_eq_bind, Option.bind_eq_some_iff] at run
  obtain ⟨w₁, locked, c', found₁, run⟩ := run
  obtain ⟨c, c₁, found, found₁', enable, held, handles, naps, dio, entered⟩ := lock_spec locked
  obtain rfl := Option.some.inj (found₁'.symm.trans found₁)
  have handle : w₁.dio.handle = w.dio.handle := by
    rw [dio]
    rfl
  replace handles : w₁.handles = w.handles := handles
  replace naps : w₁.naps = w.naps := naps
  replace entered : w₁.events = w.events ++ [Event.acquire this] := entered
  simp only [handle, handles, naps] at run
  by_cases disabled : c₁.ioEnable = false
  · rw [if_pos disabled] at run
    obtain ⟨released, -⟩ := unlock_spec found₁ held run
    refine .inl ⟨⟨c, found, .inl (enable ▸ disabled)⟩, .inl ?_⟩
    rw [released, entered, List.append_assoc]
    rfl
  simp only [if_neg disabled, Option.bind_eq_some_iff] at run
  obtain ⟨st, opened, run⟩ := run
  -- What follows is decided by the state that was read before the wait.
  have settles_iff : Settles this w ↔ ¬ (w.dio.handle ≠ 0 ∧ st &&& hstateOpen ≠ 0) ∨
      ∃ st' naps s, ioWait w.dio.handle st w.naps w.handles = some (st', naps, s) ∧
        st' &&& hstateOpen ≠ 0 ∧ Own s this w.dio.handle := by
    constructor
    · rintro ⟨d, found', off | ⟨st₀, opened', rest⟩⟩
      · obtain rfl := Option.some.inj (found'.symm.trans found)
        exact absurd (enable.trans off) disabled
      · obtain rfl := Option.some.inj (opened'.symm.trans opened)
        exact rest
    · exact fun rest => ⟨c, found, .inr ⟨st, opened, rest⟩⟩
  by_cases live : w.dio.handle ≠ 0 ∧ st &&& hstateOpen ≠ 0
  · rw [if_pos live] at run
    simp only [Option.bind_eq_some_iff] at run
    obtain ⟨⟨st', naps, s⟩, waited, run⟩ := run
    have found₂ : ({ w₁ with naps := naps, handles := s } : World φ).cxts this = some c₁ := found₁
    obtain ⟨isOpen, own, events, idle⟩ | ⟨other, early | ⟨cxt, handed⟩⟩ := dispatch_spec found₂ held run
    · refine .inl ⟨settles_iff.2 (.inr ⟨st', naps, s, waited, isOpen, own⟩), .inr ⟨?_, idle⟩⟩
      rw [events, entered, List.append_assoc]
      rfl
    all_goals
      have unsettled : ¬ Settles this w := by
        rw [settles_iff]
        rintro (dead | ⟨st₀, naps₀, s₀, waited₀, own⟩)
        · exact dead live
        · obtain ⟨rfl, -, rfl⟩ : st' = st₀ ∧ naps = naps₀ ∧ s = s₀ := by
            simpa using waited.symm.trans waited₀
          exact other own
    · exact .inr ⟨unsettled, .inl (early.trans entered)⟩
    · exact .inr ⟨unsettled, .inr ⟨cxt, { w₁ with naps := naps, handles := s }, entered, handle, handed⟩⟩
  · rw [if_neg live] at run
    have failed : (w₁.fail fsResultInvalidHandle).cxts this = some c₁ := found₁
    obtain ⟨released, -⟩ := unlock_spec failed held run
    refine .inl ⟨settles_iff.2 (.inl live), .inl ?_⟩
    rw [released]
    simp [World.fail, entered]

end Steps

section Runs
variable {φ : Type} {ops : FileOps φ} {this cmd n : Nat} {w r : World φ}

/-- What a call of any context adds: no mutex is given back more often than it was taken, and a handle that is marked is
the handle of the request, and idle in the end. -/
theorem driverIoctl_adds (run : driverIoctl ops n this cmd w = some r) :
    ∃ added, r.events = w.events ++ added ∧ (∀ c, added.count (.release c) ≤ added.count (.acquire c)) ∧
      Unmarked r.handles added := by
  induction n generalizing this w with
  | zero => exact absurd run (by simp [driverIoctl])
  | succ n ih =>
    obtain ⟨-, events | ⟨events, idle⟩⟩ | ⟨-, events | ⟨cxt, w₁, entered, -, handed⟩⟩ := ioctlWith_spec run
    · refine ⟨_, events, ?_, ?_⟩
      · intro c
        by_cases same : this = c <;> simp [same]
      · exact fun h marked => absurd marked (by simp)
    · refine ⟨_, events, ?_, ?_⟩
      · intro c
        by_cases same : this = c <;> simp [same]
      · intro h marked
        obtain rfl : h = w.dio.handle := by simpa using marked
        exact idle
    · refine ⟨_, events, ?_, ?_⟩
      · intro c
        simp [List.count_cons]
      · exact fun h marked => absurd marked (by simp)
    · obtain ⟨added, events, counts, unmarked⟩ := ih handed
      refine ⟨.acquire this :: added, ?_, ?_, ?_⟩
      · rw [events, entered, List.append_assoc]
        rfl
      · intro c
        have := counts c
        simp only [List.count_cons]
        simp
        omega
      · intro h marked
        exact unmarked h (by simpa using marked)

/-- A request is lock-balanced and leaves no handle marked exactly if it settles. -/
theorem ioctl_balanced_iff (run : driverIoctl ops n this cmd w.fresh = some r) :
    (Balanced this r.events ∧ Unmarked r.handles r.events) ↔ Settles this w := by
  obtain ⟨added, events, counts, unmarked⟩ := driverIoctl_adds run
  obtain rfl : r.events = added := events
  cases n with
  | zero => exact absurd run (by simp [driverIoctl])
  | succ n =>
    obtain ⟨settles, events | ⟨events, -⟩⟩ | ⟨unsettled, early⟩ := ioctlWith_spec run
    · exact iff_of_true ⟨by simp [Balanced, events, World.fresh], unmarked⟩ settles
    · exact iff_of_true ⟨by simp [Balanced, events, World.fresh], unmarked⟩ settles
    · refine iff_of_false (fun balanced => ?_) unsettled
      obtain events | ⟨cxt, w₁, entered, -, handed⟩ := early
      · simp [Balanced, events, World.fresh] at balanced
      · -- The context that takes the request over gives no mutex back that it did not take.
        obtain ⟨added, events, counts, -⟩ := driverIoctl_adds handed
        have := counts this
        have equal := balanced.1
        simp [Balanced, events, entered, World.fresh] at equal
        omega

/-- The loop ends with the state it read last, and no transfer is pending then. -/
theorem ioWait_spec {h st st' : Nat} {naps naps' : List HandleTable} {s s' : HandleTable} (read : s.stateOf h = some st)
    (run : ioWait h st naps s = some (st', naps', s')) : s'.stateOf h = some st' ∧ st' &&& hstateIoPending = 0 := by
  induction naps generalizing st s with
  | nil =>
    by_cases busy : st &&& hstateIoPending ≠ 0
    · simp [ioWait, busy] at run
    · simp only [ioWait, if_neg busy, Option.some.injEq, Prod.mk.injEq] at run
      obtain ⟨rfl, -, rfl⟩ := run
      exact ⟨read, not_not.1 busy⟩
  | cons next naps ih =>
    by_cases busy : st &&& hstateIoPending ≠ 0
    · simp only [ioWait, if_pos busy, Option.bind_eq_bind, Option.bind_eq_some_iff] at run
      obtain ⟨again, read', run⟩ := run
      exact ih read' run
    · simp only [ioWait, if_neg busy, Option.some.injEq, Prod.mk.injEq] at run
      obtain ⟨rfl, -, rfl⟩ := run
      exact ⟨read, not_not.1 busy⟩

/-- Nobody waits for a handle that is not busy. -/
theorem ioWait_free {h st : Nat} (naps : List HandleTable) (s : HandleTable) (free : st &&& hstateIoPending = 0) :
    ioWait h st naps s = some (st, naps, s) := by
  cases naps <;> simp [ioWait, free]

/-- A call reaches another context only with a handle of that context that is not busy; and if it was not busy before, with
the table as it was. -/
theorem ioctlWith_congr {f g : Nat → World φ → Option (World φ)}
    (same : ∀ cxt w' st, w'.dio.handle = w.dio.handle → w'.handles.stateOf w.dio.handle = some st →
      st &&& hstateIoPending = 0 → w'.handles.driverOf w.dio.handle = some cxt → cxt ≠ this →
      (∀ st₀, w.handles.stateOf w.dio.handle = some st₀ → st₀ &&& hstateIoPending = 0 → w'.handles = w.handles) →
      f cxt w' = g cxt w') :
    ioctlWith ops f this cmd w = ioctlWith ops g this cmd w := by
  unfold ioctlWith
  refine Option.bind_congr fun w₁ locked => ?_
  obtain ⟨-, -, -, -, -, -, handles, -, dio, -⟩ := lock_spec locked
  have handle : w₁.dio.handle = w.dio.handle := by
    rw [dio]
    rfl
  refine Option.bind_congr fun c found => ?_
  split
  · rfl
  refine Option.bind_congr fun st opened => ?_
  split
  · refine Option.bind_congr fun waited run => ?_
    obtain ⟨st', naps, s⟩ := waited
    obtain ⟨read, free⟩ := ioWait_spec opened run
    simp only [dispatch]
    split
    · rfl
    refine Option.bind_congr fun drv driver => ?_
    split
    · rfl
    refine Option.bind_congr fun type typed => ?_
    split
    · rename_i other
      refine same drv _ st' handle (handle ▸ read) free (handle ▸ driver) other.2 fun st₀ before idle => ?_
      obtain rfl : st = st₀ := by
        rw [handle, handles] at opened
        exact Option.some.inj (opened.symm.trans before)
      rw [ioWait_free _ _ idle] at run
      obtain ⟨-, -, rfl⟩ : st = st' ∧ w₁.naps = naps ∧ w₁.handles = s := by simpa using run
      exact handles
    · rfl
  · rfl

/-- A request is handed over at most once: two contexts on the stack are enough. -/
theorem redirect_once (ops : FileOps φ) (n this cmd : Nat) (w : World φ) :
    driverIoctl ops (n + 2) this cmd w = driverIoctl ops 2 this cmd w := by
  refine ioctlWith_congr fun cxt w' st handle read free driver _ _ => ?_
  refine ioctlWith_congr fun cxt' w'' st' handle' _ _ driver' other unchanged => ?_
  rw [← handle] at read driver
  rw [unchanged st read free] at driver'
  exact absurd (Option.some.inj (driver'.symm.trans driver)) other

end Runs

section Samples

/-- A file system without files. -/
def noFiles : FileOps Unit where
  fileOpen _ _ _ s := (false, s)
  fileClose _ s := s
  fileCreate _ _ _ _ _ s := (false, s)
  fileDelete _ _ s := (false, s)
  createHardLink _ _ _ _ s := (false, s)
  createSoftLink _ _ _ s := (false, s)
  fileMove _ _ _ _ s := (false, s)
  fileIo _ _ _ _ _ s := (0, s)
  inode _ _ := none
  dentryFlags _ _ := none
  dentryName _ _ := 0
  dentryLinkName _ _ := 0

/-- Two contexts at 10 and 20, and a file of the second one that is open under the handle 100. -/
def twoContexts : World Unit where
  cxts this :=
    if this = 10 then some ⟨⟨10, 5, dclassFsc⟩, 18, true, 0#64, ⟨0x1000#64, 0#32, 0#32, unlockMagic⟩, ()⟩
    else if this = 20 then some ⟨⟨20, 5, dclassFsc⟩, 28, true, 0#64, ⟨0x2000#64, 0#32, 0#32, unlockMagic⟩, ()⟩
    else none
  handles :=
    { self := 1, mode := .vector, ccol := 0, ncol := 2, pState := 2, state := [⟨75, 75, 75, 1, 0⟩, Col.zero]
      heap := fun p =>
        if p = 75 then some ⟨1, 0, 0, 0, ⟨htypeFile, hstateOpen, 20, 0, handleMagic, List.replicate fsMaxHandleData 0⟩⟩
        else none }
  naps := []
  mem := 0
  dio := ⟨0, 0, 0, 0, 0, 0, 0, 0, 0, 100, 0, ⟨0, 0, 0, 0, 0, 0, 0⟩⟩
  events := []

theorem ioctl_balanced_own :
    ∃ r, driverIoctl noFiles 1 20 dioctlFsize twoContexts.fresh = some r ∧ Balanced 20 r.events ∧
      Unmarked r.handles r.events := by
  obtain ⟨r, run⟩ := Option.isSome_iff_exists.1
    (show (driverIoctl noFiles 1 20 dioctlFsize twoContexts.fresh).isSome by decide)
  refine ⟨r, run, (ioctl_balanced_iff run).2 ?_⟩
  refine ⟨_, rfl, .inr ⟨hstateOpen, by decide, .inr ⟨hstateOpen, [], _, rfl, by decide, ?_⟩⟩⟩
  exact ⟨20, htypeFile, by decide, by decide, by decide, by decide, fun _ => rfl⟩

/-- The size of the file is asked of the first context: the second one answers, and the first one keeps its mutex. -/
theorem redirect_unbalanced :
    ∃ r, driverIoctl noFiles 2 10 dioctlFsize twoContexts.fresh = some r ∧
      r.events = [.acquire 10, .acquire 20, .pending 100, .release 20] ∧
      ¬ (Balanced 10 r.events ∧ Unmarked r.handles r.events) := by
  have trace : (driverIoctl noFiles 2 10 dioctlFsize twoContexts.fresh).map World.events =
      some [.acquire 10, .acquire 20, .pending 100, .release 20] := by
    decide
  obtain ⟨r, run, events⟩ := Option.map_eq_some_iff.1 trace
  refine ⟨r, run, events, fun both => ?_⟩
  rw [events] at both
  exact absurd both.1 (by decide)

end Samples

end PreTeO.Mgfs3.Cxt
