import PreTeO.Lib.Run

/-!
# Timers (`core/sys/timer.cpp`)

A timer is a slot of a table that grows by packs, and its handle is the number of the slot. The state of a slot is three
bits, and the operations set and clear one or the other. A pass of the timer thread goes through the slots under the lock,
and gives the lock up while it calls a callback: the pass is told up to the next call, and goes on when the callback returns.

The RTC and the scheduler are there. Of the RTC's interrupts `m_timer_state` is kept. `m_thread_state` is beside what it
stands for, the thread's suspension: the thread itself sets it as it starts, outside the lock and with the interrupts on.
-/

namespace PreTeO.Sys
set_option autoImplicit false

def tfSuspend : Nat := 1
def tfPeriodic : Nat := 2
def initialTimerPack : Nat := 32

/-- `_timer_info_t`; the bits of `state` are `call`, `running` and `active`. -/
structure TimerInfo where
  flags : Nat
  call : Bool
  running : Bool
  active : Bool
  countdown : Nat
  initial : Nat
  callback : Nat
  udata : Nat
deriving DecidableEq, Repr

/-- A slot after `mem_set`. -/
def TimerInfo.zero : TimerInfo := ⟨0, false, false, false, 0, 0, 0, 0⟩

/-- The test that the loops make. -/
def TimerInfo.runs (s : TimerInfo) : Bool := s.active && s.running

/-- `cTimer`; `suspended` is what the scheduler has of the thread. -/
structure Timer where
  timers : List TimerInfo
  timerState : Bool
  threadState : Bool
  suspended : Bool
deriving DecidableEq, Repr

/-- `thread_on`: the scheduler is asked only where `m_thread_state` is the other way. -/
def Timer.threadOn (t : Timer) (on : Bool) : Timer :=
  if t.threadState = on then t else { t with threadState := on, suspended := !on }

/-- `update_state`. -/
def Timer.updateState (t : Timer) : Timer :=
  { t with timerState := t.timers.any TimerInfo.runs }.threadOn (t.timers.any TimerInfo.runs)

/-- One slot changed. -/
def Timer.change (t : Timer) (i : Nat) (f : TimerInfo → TimerInfo) : Timer := { t with timers := t.timers.modify i f }

/-- `alloc_timer_pack`; `room` says whether the heap has a table of so many timers. -/
def Timer.allocTimerPack (room : Nat → Bool) (t : Timer) : Timer :=
  if room (t.timers.length + initialTimerPack) then
    { t with timers := t.timers ++ List.replicate initialTimerPack TimerInfo.zero }
  else t

/-- What `create` does with the slot it takes. It sets `TSTATE_RUNNING` and never clears it. -/
def TimerInfo.claimed (s : TimerInfo) (resolution flags callback udata : Nat) : TimerInfo :=
  { s with
    active := true
    flags := flags
    running := if flags &&& tfSuspend = 0 then true else s.running
    initial := resolution
    countdown := resolution
    callback := callback
    udata := udata }

/-- The loop over the slots in `create`. -/
def Timer.claim (t : Timer) (resolution flags callback udata : Nat) : Option (Nat × Timer) :=
  (t.timers.findIdx? fun s => !s.active).map fun i =>
    (i, (t.change i fun s => s.claimed resolution flags callback udata).updateState)

/-- `create`: the handle. Without room for a larger table it never returns. -/
def Timer.create (room : Nat → Bool) (resolution flags callback udata : Nat) (t : Timer) : Option (Nat × Timer) :=
  match t.claim resolution flags callback udata with
  | some r => some r
  | none => (t.allocTimerPack room).claim resolution flags callback udata

/-- `suspend`. -/
def Timer.suspend (t : Timer) (htimer : Nat) : Timer := (t.change htimer fun s => { s with running := false }).updateState

/-- `resume`. -/
def Timer.resume (t : Timer) (htimer : Nat) : Timer := (t.change htimer fun s => { s with running := true }).updateState

/-- `remove`. -/
def Timer.remove (t : Timer) (htimer : Nat) : Timer := (t.change htimer fun s => { s with active := false }).updateState

/-- A slot in `rtc_callback`. -/
def TimerInfo.tick (s : TimerInfo) : TimerInfo := if s.runs then { s with countdown := s.countdown - 1 } else s

/-- `rtc_callback`. -/
def Timer.rtcCallback (t : Timer) : Timer :=
  { t with timers := t.timers.map TimerInfo.tick }.threadOn
    ((t.timers.map TimerInfo.tick).any fun s => s.runs && decide (s.countdown ≤ 1))

/-- `timer_thread` before its loop. -/
def Timer.begun (t : Timer) : Timer := { t with threadState := true }

/-- What the pass does with a slot after its callback, or in place of it. -/
def TimerInfo.finished (s : TimerInfo) : TimerInfo :=
  { s with active := s.active && decide (s.flags &&& tfPeriodic ≠ 0), countdown := s.initial }

/-- The end of a slot's turn. -/
def Timer.finish (t : Timer) (i : Nat) : Timer :=
  let u := t.change i TimerInfo.finished
  match t.timers[i]? with
  | some s => if s.flags &&& tfPeriodic = 0 then u.updateState else u
  | none => u

/-- The slot's turn comes: it runs, and its time is over. -/
def TimerInfo.due (s : TimerInfo) : Bool := s.runs && s.countdown == 0

/-- The loop of `timer_thread` from slot `i` on: the slots that ended without a callback, and the slot whose callback is
called, if there is one. -/
def Timer.scan : Nat → Nat → Timer → List Nat × Option Nat × Timer
  | 0, _, t => ([], none, t)
  | n + 1, i, t =>
    match t.timers[i]? with
    | none => ([], none, t)
    | some s =>
      if s.due then
        if s.callback ≠ 0 then ([], some i, t.change i fun s => { s with call := true })
        else
          let (silent, call, t) := scan n (i + 1) (t.finish i)
          (i :: silent, call, t)
      else scan n (i + 1) t

/-- A pass from slot `i` on. -/
def Timer.passFrom (t : Timer) (i : Nat) : List Nat × Option Nat × Timer := t.scan (t.timers.length - i) i

/-- The callback of slot `i` returned; the slot is found by its number again. -/
def Timer.returned (t : Timer) (i : Nat) : Timer := (t.change i fun s => { s with call := false }).finish i

/-! ## Runs -/

/-- What happens: somebody calls the timer, also from a callback; the RTC ticks; the scheduler switches to the timer thread
for the first time, and the thread comes to its loop; the thread begins a pass, or the callback that it called returns. -/
inductive TimerAct where
  | create (resolution flags callback udata : Nat)
  | suspend (htimer : Nat)
  | resume (htimer : Nat)
  | remove (htimer : Nat)
  | tick
  | enter
  | begin
  | pass
  | back
deriving DecidableEq, Repr

/-- How far the timer thread is. -/
inductive TimerThread where
  | created
  | entered
  | looping
deriving DecidableEq, Repr

/-- The timer, the slot whose callback runs, and the thread. -/
structure TimerRun where
  timer : Timer
  calling : Option Nat
  thread : TimerThread
deriving DecidableEq, Repr

/-- What a step leads to besides: the handle of a new timer, the slots that ended without a callback. -/
structure TimerStep where
  handle : Option Nat
  silent : List Nat
  after : TimerRun
deriving DecidableEq, Repr

/-- One step; the thread does not begin a pass during a pass. -/
def TimerRun.step (room : Nat → Bool) (r : TimerRun) : TimerAct → Option TimerStep
  | .create resolution flags callback udata =>
    (r.timer.create room resolution flags callback udata).map fun (h, t) => ⟨some h, [], { r with timer := t }⟩
  | .suspend h => some ⟨none, [], { r with timer := r.timer.suspend h }⟩
  | .resume h => some ⟨none, [], { r with timer := r.timer.resume h }⟩
  | .remove h => some ⟨none, [], { r with timer := r.timer.remove h }⟩
  | .tick => some ⟨none, [], { r with timer := r.timer.rtcCallback }⟩
  | .enter =>
    if r.thread = .created ∧ r.timer.suspended = false then some ⟨none, [], { r with thread := .entered }⟩ else none
  | .begin =>
    if r.thread = .entered then some ⟨none, [], { r with timer := r.timer.begun, thread := .looping }⟩ else none
  | .pass =>
    if r.thread = .looping ∧ r.calling = none then
      let (silent, call, t) := r.timer.passFrom 0
      some ⟨none, silent, { r with timer := t, calling := call }⟩
    else none
  | .back =>
    match r.calling with
    | some i =>
      let (silent, call, t) := (r.timer.returned i).passFrom (i + 1)
      some ⟨none, silent, { r with timer := t, calling := call }⟩
    | none => none

/-- After `init`, which asks for the first pack, and with the thread that the driver creates suspended. -/
def TimerRun.start (room : Nat → Bool) : TimerRun :=
  ⟨(⟨[], false, false, true⟩ : Timer).allocTimerPack room, none, .created⟩

section Steps
variable {room : Nat → Bool} {r : TimerRun} {o : TimerStep}

theorem enter_spec (run : r.step room .enter = some o) :
    r.thread = .created ∧ r.timer.suspended = false ∧ o = ⟨none, [], { r with thread := .entered }⟩ := by
  simp only [TimerRun.step] at run
  split at run
  · next first => exact ⟨first.1, first.2, (Option.some.inj run).symm⟩
  · cases run

theorem begin_spec (run : r.step room .begin = some o) :
    r.thread = .entered ∧ o = ⟨none, [], { r with timer := r.timer.begun, thread := .looping }⟩ := by
  simp only [TimerRun.step] at run
  split at run
  · next entered => exact ⟨entered, (Option.some.inj run).symm⟩
  · cases run

theorem pass_spec (run : r.step room .pass = some o) :
    r.thread = .looping ∧ r.calling = none ∧ o = ⟨none, (r.timer.passFrom 0).1,
      { r with timer := (r.timer.passFrom 0).2.2, calling := (r.timer.passFrom 0).2.1 }⟩ := by
  simp only [TimerRun.step] at run
  split at run
  · next idle => exact ⟨idle.1, idle.2, (Option.some.inj run).symm⟩
  · cases run

theorem back_spec (run : r.step room .back = some o) :
    ∃ i, r.calling = some i ∧ o = ⟨none, ((r.timer.returned i).passFrom (i + 1)).1,
      { r with
        timer := ((r.timer.returned i).passFrom (i + 1)).2.2
        calling := ((r.timer.returned i).passFrom (i + 1)).2.1 }⟩ := by
  simp only [TimerRun.step] at run
  split at run
  · next i calling => exact ⟨i, calling, (Option.some.inj run).symm⟩
  · cases run

end Steps

/-! ## Slots -/

/-- A slot; one that is not there yet is like a new one. -/
def Timer.slot (t : Timer) (i : Nat) : TimerInfo := (t.timers[i]?).getD TimerInfo.zero

section Slots
variable {t u : Timer} {i j h : Nat} {f : TimerInfo → TimerInfo} {room : Nat → Bool}

@[simp] theorem threadOn_timers (t : Timer) (on : Bool) : (t.threadOn on).timers = t.timers := by
  unfold Timer.threadOn
  split <;> rfl

@[simp] theorem updateState_slot (t : Timer) (j : Nat) : t.updateState.slot j = t.slot j := by
  simp only [Timer.slot, Timer.updateState, threadOn_timers]

theorem change_slot (t : Timer) (i j : Nat) (f : TimerInfo → TimerInfo) :
    (t.change i f).slot j = if j = i ∧ i < t.timers.length then f (t.slot i) else t.slot j := by
  unfold Timer.slot Timer.change
  by_cases same : j = i
  · subst same
    by_cases inside : j < t.timers.length
    · simp [inside]
    · simp [inside]
  · simp [same, Ne.symm same]

/-- A change that leaves a new slot as it is. -/
theorem change_slot_zero (zero : f TimerInfo.zero = TimerInfo.zero) (t : Timer) (i j : Nat) :
    (t.change i f).slot j = if j = i then f (t.slot i) else t.slot j := by
  rw [change_slot]
  by_cases same : j = i
  · by_cases inside : i < t.timers.length
    · simp [same, inside]
    · have absent : t.slot i = TimerInfo.zero := by
        rw [Timer.slot, List.getElem?_eq_none (Nat.le_of_not_lt inside), Option.getD_none]
      simp [same, inside, absent, zero]
  · simp [same]

@[simp] theorem suspend_slot (t : Timer) (h j : Nat) :
    (t.suspend h).slot j = if j = h then { t.slot h with running := false } else t.slot j :=
  (updateState_slot _ j).trans (change_slot_zero rfl t h j)

theorem resume_slot (t : Timer) (h j : Nat) :
    (t.resume h).slot j = if j = h ∧ h < t.timers.length then { t.slot h with running := true } else t.slot j :=
  (updateState_slot _ j).trans (change_slot t h j _)

@[simp] theorem remove_slot (t : Timer) (h j : Nat) :
    (t.remove h).slot j = if j = h then { t.slot h with active := false } else t.slot j :=
  (updateState_slot _ j).trans (change_slot_zero rfl t h j)

@[simp] theorem rtcCallback_slot (t : Timer) (j : Nat) : t.rtcCallback.slot j = (t.slot j).tick := by
  simp only [Timer.slot, Timer.rtcCallback, threadOn_timers, List.getElem?_map]
  cases t.timers[j]? <;> rfl

@[simp] theorem finish_slot (t : Timer) (i j : Nat) :
    (t.finish i).slot j = if j = i then (t.slot i).finished else t.slot j := by
  have changed : (t.finish i).slot j = (t.change i TimerInfo.finished).slot j := by
    unfold Timer.finish
    cases t.timers[i]? with
    | none => rfl
    | some s =>
      simp only
      split
      · exact updateState_slot _ j
      · rfl
  rw [changed]
  exact change_slot_zero rfl t i j

theorem returned_slot (t : Timer) (i j : Nat) :
    (t.returned i).slot j = if j = i then { t.slot i with call := false }.finished else t.slot j := by
  rw [Timer.returned, finish_slot, change_slot_zero rfl, change_slot_zero rfl]
  by_cases same : j = i <;> simp [same]

@[simp] theorem allocTimerPack_slot (t : Timer) (room : Nat → Bool) (j : Nat) :
    (t.allocTimerPack room).slot j = t.slot j := by
  unfold Timer.allocTimerPack
  split
  · simp only [Timer.slot, List.getElem?_append]
    split
    · rfl
    · rename_i outside
      rw [List.getElem?_eq_none (Nat.le_of_not_lt outside), List.getElem?_replicate]
      split <;> rfl
  · rfl

/-- The slot that `create` takes was free. -/
theorem claim_spec {resolution flags callback udata : Nat} (run : t.claim resolution flags callback udata = some (h, u)) :
    (t.slot h).active = false ∧
      ∀ j, u.slot j = if j = h then (t.slot h).claimed resolution flags callback udata else t.slot j := by
  obtain ⟨i, found, same⟩ := Option.map_eq_some_iff.1 run
  obtain ⟨rfl, rfl⟩ := Prod.mk.inj same
  obtain ⟨inside, free, -⟩ := List.findIdx?_eq_some_iff_getElem.1 found
  constructor
  · simpa [Timer.slot, inside] using free
  · intro j
    rw [updateState_slot, change_slot]
    simp [inside]

theorem create_spec {resolution flags callback udata : Nat}
    (run : t.create room resolution flags callback udata = some (h, u)) :
    (t.slot h).active = false ∧
      ∀ j, u.slot j = if j = h then (t.slot h).claimed resolution flags callback udata else t.slot j := by
  unfold Timer.create at run
  cases first : t.claim resolution flags callback udata with
  | some r =>
    rw [first] at run
    exact claim_spec (first.trans run)
  | none =>
    rw [first] at run
    simpa using claim_spec run

/-- The slot that `create` takes: the first free one, or the first of the next pack. -/
def Timer.free (t : Timer) : Nat := t.timers.findIdx fun s => !s.active

theorem claim_free {resolution flags callback udata : Nat} (run : t.claim resolution flags callback udata = some (h, u)) :
    h = t.free := by
  obtain ⟨i, found, same⟩ := Option.map_eq_some_iff.1 run
  obtain ⟨rfl, -⟩ := Prod.mk.inj same
  exact (List.findIdx?_eq_some_iff_findIdx_eq.1 found).2.symm

theorem create_free {resolution flags callback udata : Nat}
    (run : t.create room resolution flags callback udata = some (h, u)) : h = t.free := by
  unfold Timer.create at run
  cases first : t.claim resolution flags callback udata with
  | some r =>
    rw [first] at run
    exact claim_free (first.trans run)
  | none =>
    rw [first] at run
    have full : t.free = t.timers.length := by
      rw [Timer.free, ← List.findIdx?_eq_none_iff_findIdx_eq]
      exact Option.map_eq_none_iff.1 first
    rw [full, claim_free run]
    by_cases grows : room (t.timers.length + initialTimerPack) = true
    · have next : t.timers.findIdx (fun s => !s.active) = t.timers.length := full
      have first : (List.replicate initialTimerPack TimerInfo.zero).findIdx (fun s => !s.active) = 0 := rfl
      simp only [Timer.free, Timer.allocTimerPack, grows, if_true, List.findIdx_append, next, Nat.lt_irrefl, if_false,
        first, Nat.zero_add]
    · rw [Timer.allocTimerPack, if_neg grows, full]

/-- What a stretch of the pass did: slots ended without a callback, and one may be called. -/
structure Scanned (t : Timer) (silent : List Nat) (call : Option Nat) (u : Timer) : Prop where
  slots : ∀ j, u.slot j = if j ∈ silent then (t.slot j).finished
    else if call = some j then { t.slot j with call := true } else t.slot j
  due : ∀ j ∈ silent, (t.slot j).due = true ∧ (t.slot j).callback = 0
  called : ∀ j, call = some j → (t.slot j).due = true ∧ j ∉ silent

/-- The loop of a pass, from slot `i` on. -/
theorem scan_spec (n i : Nat) (t : Timer) :
    Scanned t (t.scan n i).1 (t.scan n i).2.1 (t.scan n i).2.2 ∧
      (∀ j ∈ (t.scan n i).1, i ≤ j) ∧ ∀ j, (t.scan n i).2.1 = some j → i ≤ j := by
  have nothing : ∀ t, Scanned t [] none t := fun t => ⟨fun j => by simp, fun j => by simp, fun j => by simp⟩
  induction n generalizing i t with
  | zero => exact ⟨nothing t, by simp [Timer.scan], by simp [Timer.scan]⟩
  | succ n ih =>
    unfold Timer.scan
    cases there : t.timers[i]? with
    | none => exact ⟨nothing t, by simp, by simp⟩
    | some s =>
      have slot : t.slot i = s := by simp [Timer.slot, there]
      have inside : i < t.timers.length := (List.getElem?_eq_some_iff.1 there).1
      simp only
      by_cases due : s.due = true
      · rw [if_pos due]
        by_cases callback : s.callback ≠ 0
        · rw [if_pos callback]
          refine ⟨⟨fun j => ?_, by simp, ?_⟩, by simp, by simp⟩
          · rw [change_slot]
            by_cases same : j = i
            · subst same
              simp [inside]
            · simp [same, Ne.symm same]
          · intro j same
            obtain rfl : i = j := by simpa using same
            simp [slot, due]
        · rw [if_neg callback]
          obtain ⟨⟨slots, dues, called⟩, above, after⟩ := ih (i + 1) (t.finish i)
          have later : ∀ j, i + 1 ≤ j → (t.finish i).slot j = t.slot j := by
            intro j le
            have differ : j ≠ i := by omega
            simp [differ]
          refine ⟨⟨fun j => ?_, fun j member => ?_, fun j same => ?_⟩, fun j member => ?_, fun j same => ?_⟩
          · rw [slots j, finish_slot]
            simp only [List.mem_cons]
            by_cases same : j = i
            · subst same
              have absent : j ∉ ((t.finish j).scan n (j + 1)).1 := fun member => by
                have := above j member
                omega
              have uncalled : ((t.finish j).scan n (j + 1)).2.1 ≠ some j := fun call => by
                have := after j call
                omega
              simp [absent, uncalled]
            · simp [same]
          · obtain rfl | member := List.mem_cons.1 member
            · rw [slot]
              exact ⟨due, Decidable.not_not.1 callback⟩
            · rw [← later j (above j member)]
              exact dues j member
          · obtain ⟨dueJ, absent⟩ := called j same
            have le := after j same
            rw [later j le] at dueJ
            refine ⟨dueJ, fun member => ?_⟩
            obtain rfl | member := List.mem_cons.1 member
            · omega
            · exact absent member
          · obtain rfl | member := List.mem_cons.1 member
            · exact Nat.le_refl _
            · have := above j member
              omega
          · have := after j same
            omega
      · rw [if_neg due]
        obtain ⟨scanned, above, after⟩ := ih (i + 1) t
        exact ⟨scanned, fun j member => Nat.le_of_succ_le (above j member), fun j same => Nat.le_of_succ_le (after j same)⟩

end Slots

end PreTeO.Sys
