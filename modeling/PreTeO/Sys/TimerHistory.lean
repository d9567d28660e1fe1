import PreTeO.Sys.Timer

/-!
# When timers fire

A row of events tells what was asked of the timers and which callbacks were called. `create` leaves `TSTATE_RUNNING` as the
slot's last timer had it, so a timer that is created suspended runs at once if its slot still has the bit; nothing else goes
wrong.
-/

namespace PreTeO.Sys
set_option autoImplicit false
open PreTeO.Lib

/-- What happened to the timer with a handle, and the ticks of the RTC. -/
inductive TimerEvent where
  | created (h flags resolution : Nat)
  | resumed (h : Nat)
  | removed (h : Nat)
  | tick
  | fired (h : Nat)
deriving DecidableEq, Repr

/-- Events, the last one first. -/
abbrev TimerLog : Type := List TimerEvent

/-- The ticks since a timer fired, or since all these events. -/
def ticksSince (h : Nat) (later : TimerLog) : Nat := (later.takeWhile fun e => e ≠ .fired h).count .tick

/-- A timer may fire: it was created and not removed since, it was resumed if it was created suspended, and the ticks of its
resolution are over. -/
def MayFire (log : TimerLog) (h : Nat) : Prop :=
  ∃ later flags resolution earlier, log = later ++ .created h flags resolution :: earlier ∧
    (∀ f n, .created h f n ∉ later) ∧ .removed h ∉ later ∧ (flags &&& tfSuspend ≠ 0 → .resumed h ∈ later) ∧
    resolution ≤ ticksSince h later

/-- Whenever a timer fired, it might. -/
def WellTimed : TimerLog → Prop
  | [] => True
  | e :: log => (∀ h, e = .fired h → MayFire log h) ∧ WellTimed log

/-- The timer and what happened. -/
structure TimerHistory where
  run : TimerRun
  log : TimerLog

/-- The event of a step. -/
def TimerAct.event (o : TimerStep) : TimerAct → Option TimerEvent
  | .create resolution flags _ _ => o.handle.map fun h => .created h flags resolution
  | .suspend _ => none
  | .resume h => some (.resumed h)
  | .remove h => some (.removed h)
  | .tick => some .tick
  | .enter => none
  | .begin => none
  | .pass => o.after.calling.map .fired
  | .back => o.after.calling.map .fired

/-- A step that is written down. -/
def TimerHistory.step (room : Nat → Bool) (s : TimerHistory) (a : TimerAct) : Option TimerHistory :=
  (s.run.step room a).map fun o => ⟨o.after, (a.event o).toList ++ s.log⟩

def TimerHistory.start (room : Nat → Bool) : TimerHistory := ⟨.start room, []⟩

/-- A timer is created suspended only in a slot that is not running. -/
def TimerHistory.Clear (s : TimerHistory) : TimerAct → Prop
  | .create _ flags _ _ => flags &&& tfSuspend ≠ 0 → (s.run.timer.slot s.run.timer.free).running = false
  | _ => True

instance (s : TimerHistory) : (a : TimerAct) → Decidable (s.Clear a)
  | .create _ _ _ _ => inferInstanceAs (Decidable (_ → _))
  | .suspend _ | .resume _ | .remove _ | .tick | .enter | .begin | .pass | .back => inferInstanceAs (Decidable True)

/-- What the events say of the timer in a slot. While its callback runs, the countdown says nothing. -/
structure Told (calling : Option Nat) (log : TimerLog) (i : Nat) (s : TimerInfo) : Prop where
  history : ∃ later earlier, log = later ++ .created i s.flags s.initial :: earlier ∧ (∀ f n, .created i f n ∉ later) ∧
    .removed i ∉ later ∧ (s.running = true → s.flags &&& tfSuspend ≠ 0 → .resumed i ∈ later) ∧
    (calling ≠ some i → s.initial ≤ s.countdown + ticksSince i later)

/-- Every timer there is. -/
def AllTold (calling : Option Nat) (log : TimerLog) (t : Timer) : Prop :=
  ∀ i, (t.slot i).active = true → Told calling log i (t.slot i)

section Steps
variable {calling calling' : Option Nat} {log : TimerLog} {i : Nat} {s s' : TimerInfo} {e : Option TimerEvent}

theorem ticksSince_cons {h : Nat} {later : TimerLog} {e : TimerEvent} (unfired : e ≠ .fired h) :
    ticksSince h (e :: later) = ticksSince h later + if e = .tick then 1 else 0 := by
  simp only [ticksSince, List.takeWhile_cons, unfired, ne_eq, not_false_eq_true, decide_true, if_true, List.count_cons]
  congr 1
  by_cases tick : e = .tick <;> simp [tick]

/-- A timer that is still there after a step. -/
theorem Told.next (told : Told calling log i s) (uncreated : ∀ f n, e ≠ some (.created i f n))
    (unremoved : e ≠ some (.removed i)) (flags : s'.flags = s.flags) (initial : s'.initial = s.initial)
    (running : s'.running = true → s.running = true ∨ e = some (.resumed i))
    (countdown : calling' ≠ some i → s'.initial ≤ s'.countdown ∨
      calling ≠ some i ∧ e ≠ some (.fired i) ∧ s.countdown ≤ s'.countdown + if e = some .tick then 1 else 0) :
    Told calling' (e.toList ++ log) i s' := by
  obtain ⟨later, earlier, rfl, created, removed, resumed, ticks⟩ := told.history
  refine ⟨e.toList ++ later, earlier, ?_, ?_, ?_, ?_, ?_⟩
  · rw [flags, initial, List.append_assoc]
  · intro f n member
    obtain now | before := List.mem_append.1 member
    · exact uncreated f n (Option.mem_toList.1 now)
    · exact created f n before
  · intro member
    obtain now | before := List.mem_append.1 member
    · exact unremoved (Option.mem_toList.1 now)
    · exact removed before
  · intro on suspended
    rw [List.mem_append, Option.mem_toList]
    obtain before | now := running on
    · exact .inr (resumed before (flags ▸ suspended))
    · exact .inl now
  · intro other
    obtain full | ⟨before, unfired, less⟩ := countdown other
    · exact Nat.le_add_right_of_le full
    · have old := ticks before
      rw [← initial] at old
      cases e with
      | none =>
        simp only [Option.toList_none, List.nil_append]
        simp only [reduceCtorEq, if_false] at less
        omega
      | some e =>
        rw [Option.toList_some, List.singleton_append, ticksSince_cons fun same => unfired (congrArg some same)]
        simp only [Option.some.injEq] at less
        omega

variable {t u : Timer}

/-- The callback of a slot returned: its countdown starts again. -/
theorem returned_told (told : AllTold (some i) log t) : AllTold none log (t.returned i) := by
  intro j active
  rw [returned_slot] at active ⊢
  by_cases same : j = i
  · subst same
    rw [if_pos rfl] at active ⊢
    have before : (t.slot j).active = true := by simpa using (Bool.and_eq_true _ _ ▸ active).1
    exact (told j before).next (e := none) (by simp) (by simp) rfl rfl .inl fun _ => .inl (Nat.le_refl _)
  · rw [if_neg same] at active ⊢
    refine (told j active).next (e := none) (by simp) (by simp) rfl rfl .inl fun _ => .inr ⟨?_, by simp, Nat.le_add_right _ _⟩
    simpa using Ne.symm same

/-- A stretch of the pass: what ended starts again, what is called has an event. -/
theorem scan_told {silent : List Nat} {call : Option Nat} (told : AllTold none log t) (scanned : Scanned t silent call u) :
    AllTold call ((call.map TimerEvent.fired).toList ++ log) u := by
  intro j active
  have unfired : call ≠ some j → call.map TimerEvent.fired ≠ some (.fired j) := by
    intro other same
    obtain ⟨k, called, same⟩ := Option.map_eq_some_iff.1 same
    cases same
    exact other called
  have uncreated : ∀ f n, call.map TimerEvent.fired ≠ some (.created j f n) := by
    intro f n
    cases call <;> simp
  have unremoved : call.map TimerEvent.fired ≠ some (.removed j) := by
    cases call <;> simp
  rw [scanned.slots j] at active ⊢
  by_cases ended : j ∈ silent
  · rw [if_pos ended] at active ⊢
    have before : (t.slot j).active = true := (Bool.and_eq_true _ _ ▸ active).1
    exact (told j before).next uncreated unremoved rfl rfl .inl fun _ => .inl (Nat.le_refl _)
  · rw [if_neg ended] at active ⊢
    by_cases called : call = some j
    · rw [if_pos called] at active ⊢
      exact (told j active).next uncreated unremoved rfl rfl .inl fun other => absurd called other
    · rw [if_neg called] at active ⊢
      exact (told j active).next uncreated unremoved rfl rfl .inl fun _ =>
        .inr ⟨by simp, unfired called, Nat.le_add_right _ _⟩

/-- What is called may be called. -/
theorem scan_may {silent : List Nat} {call : Option Nat} (told : AllTold none log t) (scanned : Scanned t silent call u)
    {h : Nat} (called : call = some h) : MayFire log h := by
  obtain ⟨due, -⟩ := scanned.called h called
  obtain ⟨runs, over'⟩ := Bool.and_eq_true _ _ ▸ due
  obtain ⟨active, running⟩ := Bool.and_eq_true _ _ ▸ runs
  obtain ⟨later, earlier, shape, created, removed, resumed, ticks⟩ := (told h active).history
  refine ⟨later, (t.slot h).flags, (t.slot h).initial, earlier, shape, created, removed, resumed running, ?_⟩
  have zero : (t.slot h).countdown = 0 := by simpa using over'
  have enough := ticks (by simp)
  rwa [zero, Nat.zero_add] at enough

/-- One step keeps what the events say, and fires what may fire. -/
theorem step_told {room : Nat → Bool} {r : TimerRun} {a : TimerAct} {o : TimerStep}
    (told : AllTold r.calling log r.timer) (clear : TimerHistory.Clear ⟨r, log⟩ a) (run : r.step room a = some o) :
    AllTold o.after.calling ((a.event o).toList ++ log) o.after.timer ∧ ∀ h, a.event o = some (.fired h) → MayFire log h := by
  -- Changes of a slot by its owner: only `running` and `active` change.
  cases a with
  | create resolution flags callback udata =>
    obtain ⟨⟨h, t⟩, made, rfl⟩ := Option.map_eq_some_iff.1 run
    obtain ⟨free, slots⟩ := create_spec made
    have first : h = r.timer.free := create_free made
    refine ⟨fun j active => ?_, by simp [TimerAct.event]⟩
    change (t.slot j).active = true at active
    change Told r.calling (TimerEvent.created h flags resolution :: log) j (t.slot j)
    rw [slots j] at active ⊢
    by_cases same : j = h
    · subst same
      rw [if_pos rfl]
      refine ⟨[], log, rfl, by simp, by simp, fun on suspended => ?_, fun _ => Nat.le_add_right _ _⟩
      have off := clear suspended
      simp only [TimerInfo.claimed] at on suspended
      rw [if_neg suspended, first, off] at on
      cases on
    · rw [if_neg same] at active ⊢
      refine (told j active).next (e := some (.created h flags resolution)) ?_ (by simp) rfl rfl .inl fun other =>
        .inr ⟨other, by simp, Nat.le_add_right _ _⟩
      rintro f n eq
      cases eq
      exact same rfl
  | suspend h =>
    cases run
    refine ⟨fun j active => ?_, by simp [TimerAct.event]⟩
    change ((r.timer.suspend h).slot j).active = true at active
    change Told r.calling log j ((r.timer.suspend h).slot j)
    rw [suspend_slot] at active ⊢
    by_cases same : j = h
    · subst same
      rw [if_pos rfl] at active ⊢
      exact (told j active).next (e := none) (by simp) (by simp) rfl rfl (fun on => by cases on) fun other =>
        .inr ⟨other, by simp, Nat.le_add_right _ _⟩
    · rw [if_neg same] at active ⊢
      exact told j active
  | resume h =>
    cases run
    refine ⟨fun j active => ?_, by simp [TimerAct.event]⟩
    change ((r.timer.resume h).slot j).active = true at active
    change Told r.calling (.resumed h :: log) j ((r.timer.resume h).slot j)
    rw [resume_slot] at active ⊢
    by_cases same : j = h ∧ h < r.timer.timers.length
    · obtain ⟨rfl, inside⟩ := same
      rw [if_pos ⟨rfl, inside⟩] at active ⊢
      exact (told j active).next (e := some (.resumed j)) (by simp) (by simp) rfl rfl (fun _ => .inr rfl) fun other =>
        .inr ⟨other, by simp, Nat.le_add_right _ _⟩
    · rw [if_neg same] at active ⊢
      exact (told j active).next (e := some (.resumed h)) (by simp) (by simp) rfl rfl .inl fun other =>
        .inr ⟨other, by simp, Nat.le_add_right _ _⟩
  | remove h =>
    cases run
    refine ⟨fun j active => ?_, by simp [TimerAct.event]⟩
    change ((r.timer.remove h).slot j).active = true at active
    change Told r.calling (.removed h :: log) j ((r.timer.remove h).slot j)
    rw [remove_slot] at active ⊢
    by_cases same : j = h
    · rw [if_pos same] at active
      cases active
    · rw [if_neg same] at active ⊢
      exact (told j active).next (e := some (.removed h)) (by simp) (by simpa using Ne.symm same) rfl rfl .inl fun other =>
        .inr ⟨other, by simp, Nat.le_add_right _ _⟩
  | tick =>
    cases run
    refine ⟨fun j active => ?_, by simp [TimerAct.event]⟩
    change (r.timer.rtcCallback.slot j).active = true at active
    change Told r.calling (.tick :: log) j (r.timer.rtcCallback.slot j)
    rw [rtcCallback_slot, TimerInfo.tick] at active ⊢
    by_cases on : (r.timer.slot j).runs = true
    · rw [if_pos on] at active ⊢
      refine (told j active).next (e := some .tick) (by simp) (by simp) rfl rfl .inl fun other => .inr ⟨other, by simp, ?_⟩
      change (r.timer.slot j).countdown ≤ (r.timer.slot j).countdown - 1 + 1
      omega
    · rw [if_neg on] at active ⊢
      exact (told j active).next (e := some .tick) (by simp) (by simp) rfl rfl .inl fun other =>
        .inr ⟨other, by simp, by simp⟩
  | enter =>
    obtain ⟨-, -, rfl⟩ := enter_spec run
    exact ⟨told, by simp [TimerAct.event]⟩
  | begin =>
    obtain ⟨-, rfl⟩ := begin_spec run
    exact ⟨told, by simp [TimerAct.event]⟩
  | pass =>
    obtain ⟨-, calling, rfl⟩ := pass_spec run
    rw [calling] at told
    have scanned := (scan_spec (r.timer.timers.length - 0) 0 r.timer).1
    refine ⟨scan_told told scanned, fun h fired => ?_⟩
    obtain ⟨k, called, same⟩ := Option.map_eq_some_iff.1 fired
    cases same
    exact scan_may told scanned called
  | back =>
    obtain ⟨i, calling, rfl⟩ := back_spec run
    rw [calling] at told
    have told' := returned_told told
    have scanned := (scan_spec ((r.timer.returned i).timers.length - (i + 1)) (i + 1) (r.timer.returned i)).1
    refine ⟨scan_told told' scanned, fun h fired => ?_⟩
    obtain ⟨k, called, same⟩ := Option.map_eq_some_iff.1 fired
    cases same
    exact scan_may told' scanned called

end Steps

/-- Whatever is asked of the timers, in every run in which no timer is created suspended in a slot that is running, timers
fire when they may. -/
theorem timers_fire_in_time (room : Nat → Bool) {s : TimerHistory}
    (reached : Reach (TimerHistory.step room) TimerHistory.Clear (.start room) s) : WellTimed s.log := by
  have start : AllTold (TimerHistory.start room).run.calling (TimerHistory.start room).log
      (TimerHistory.start room).run.timer := by
    intro i active
    change (((⟨[], false, false, true⟩ : Timer).allocTimerPack room).slot i).active = true at active
    rw [allocTimerPack_slot] at active
    cases active
  have kept : AllTold s.run.calling s.log s.run.timer ∧ WellTimed s.log := by
    apply reached.invariant
    · exact ⟨start, trivial⟩
    · rintro ⟨run, log⟩ a t ⟨told, timed⟩ clear step
      obtain ⟨o, ran, rfl⟩ := Option.map_eq_some_iff.1 step
      obtain ⟨told', may⟩ := step_told told clear ran
      refine ⟨told', ?_⟩
      change WellTimed ((a.event o).toList ++ log)
      cases event : a.event o with
      | none => exact timed
      | some e => exact ⟨fun h fired => may h (event.trans (congrArg some fired)), timed⟩
  exact kept.2

/-- A periodic timer that was created suspended fires without having been resumed: its slot was running before. -/
def leftRunning : List TimerAct :=
  [.create 1 0 1 0, .enter, .begin, .remove 0, .create 1 (tfSuspend ||| tfPeriodic) 1 0, .tick, .pass]

theorem suspended_timer_fires : ∃ s, runAll (TimerHistory.step fun _ => true) (fun _ _ => True) (.start fun _ => true)
    leftRunning = some s ∧ ¬ WellTimed s.log := by
  refine ⟨_, rfl, fun timed => ?_⟩
  obtain ⟨later, flags, resolution, earlier, shape, created, -, resumed, -⟩ := timed.1 0 rfl
  change [TimerEvent.tick, .created 0 3 1, .removed 0, .created 0 0 1] = later ++ .created 0 flags resolution :: earlier at shape
  obtain _ | ⟨a, _ | ⟨b, later⟩⟩ := later
  · simp at shape
  · simp only [List.cons_append, List.nil_append, List.cons.injEq, TimerEvent.created.injEq] at shape
    obtain ⟨rfl, ⟨-, rfl, -⟩, -⟩ := shape
    exact absurd (resumed (by decide)) (by decide)
  · simp only [List.cons_append, List.cons.injEq] at shape
    obtain ⟨-, rfl, -⟩ := shape
    exact created 3 1 (by simp)

/-- A timer is created suspended, resumed, and fires. -/
def resumedFirst : List TimerAct :=
  [.create 2 tfSuspend 1 0, .tick, .resume 0, .enter, .begin, .tick, .tick, .pass, .back]

theorem resumed_timer_fires : ∃ s, runAll (TimerHistory.step fun _ => true) TimerHistory.Clear (.start fun _ => true)
    resumedFirst = some s ∧ TimerEvent.fired 0 ∈ s.log ∧ WellTimed s.log :=
  ⟨_, rfl, by decide, timers_fire_in_time (fun _ => true) (Reach.of_runAll resumedFirst rfl)⟩

end PreTeO.Sys
