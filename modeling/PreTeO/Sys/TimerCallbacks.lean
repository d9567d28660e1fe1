import Mathlib.Logic.Function.Basic
import PreTeO.Sys.Timer

/-!
# Callbacks that use the timer

Beside the table stand the timers as their owners know them: each has an identity besides its handle, and it is there until
it is removed or, if it is not periodic, until its callback returned. The pass finds the slot of a callback that returned by
its number. If the callback removed its timer and the slot was taken again, the new timer is taken for the one that fired.
-/

namespace PreTeO.Sys
set_option autoImplicit false
open PreTeO.Lib

/-- What a timer is to its owner. -/
structure Alarm where
  flags : Nat
  countdown : Nat
  initial : Nat
  callback : Nat
  udata : Nat
deriving DecidableEq, Repr

/-- The timer in a slot. -/
def TimerInfo.alarm (s : TimerInfo) : Option Alarm :=
  if s.active then some ⟨s.flags, s.countdown, s.initial, s.callback, s.udata⟩ else none

/-- A timer that fired. -/
def Alarm.fired (a : Alarm) : Option Alarm :=
  if a.flags &&& tfPeriodic ≠ 0 then some { a with countdown := a.initial } else none

/-- A tick. -/
def Alarm.tick (a : Alarm) : Alarm := { a with countdown := a.countdown - 1 }

/-- The timers by their handles, with the numbers of their creation. -/
abbrev Alarms : Type := Nat → Option (Nat × Alarm)

/-- The timer beside the timers that there should be; `caller` is the one whose callback runs. -/
structure Watched where
  run : TimerRun
  alarms : Alarms
  born : Nat
  caller : Nat

def Watched.start (room : Nat → Bool) : Watched := ⟨.start room, fun _ => none, 0, 0⟩

/-- The callback of timer `id` with the handle `i` returned. -/
def Alarms.returned (alarms : Alarms) (i id : Nat) : Alarms := fun h =>
  match alarms h with
  | some (n, a) => if h = i ∧ n = id then a.fired.map fun a => (n, a) else some (n, a)
  | none => none

/-- Timers without a callback fired. -/
def Alarms.ended (alarms : Alarms) (silent : List Nat) : Alarms := fun h =>
  match alarms h with
  | some (n, a) => if h ∈ silent then a.fired.map fun a => (n, a) else some (n, a)
  | none => none

/-- What a step should do to the timers. -/
def Watched.next (w : Watched) (o : TimerStep) : TimerAct → Alarms
  | .create resolution flags callback udata =>
    match o.handle with
    | some h => Function.update w.alarms h (some (w.born, ⟨flags, resolution, resolution, callback, udata⟩))
    | none => w.alarms
  | .suspend _ => w.alarms
  | .resume _ => w.alarms
  | .remove h => Function.update w.alarms h none
  | .tick => fun h =>
    if (w.run.timer.slot h).running then (w.alarms h).map fun (n, a) => (n, a.tick) else w.alarms h
  | .enter => w.alarms
  | .begin => w.alarms
  | .pass => w.alarms.ended o.silent
  | .back =>
    match w.run.calling with
    | some i => (w.alarms.returned i w.caller).ended o.silent
    | none => w.alarms

/-- One step of both. -/
def Watched.step (room : Nat → Bool) (w : Watched) (a : TimerAct) : Option Watched :=
  (w.run.step room a).map fun o =>
    { run := o.after
      alarms := w.next o a
      born := w.born + 1
      caller := if a = .pass ∨ a = .back then ((o.after.calling.bind (w.next o a)).map Prod.fst).getD 0 else w.caller }

/-- The table has the timers that there should be, each with what is its own. -/
def Watched.Kept (w : Watched) : Prop := ∀ h, (w.run.timer.slot h).alarm = (w.alarms h).map Prod.snd

/-- When a callback returns, its slot is not taken by another timer, or the other one is periodic and has its whole time. -/
def Watched.Own (w : Watched) : TimerAct → Prop
  | .back => ∀ i ∈ w.run.calling, ∀ p ∈ w.alarms i, p.1 = w.caller ∨ p.2.fired = some p.2
  | _ => True

instance (w : Watched) : (a : TimerAct) → Decidable (w.Own a)
  | .back => inferInstanceAs (Decidable (∀ i ∈ w.run.calling, ∀ p ∈ w.alarms i, p.1 = w.caller ∨ p.2.fired = some p.2))
  | .create _ _ _ _ | .suspend _ | .resume _ | .remove _ | .tick | .enter | .begin | .pass =>
    inferInstanceAs (Decidable True)

/-- What becomes of the timer `n` with a handle in a step: it is removed, or it fired; or it is as it was, but for a tick. -/
inductive Stays (w w' : Watched) (h n : Nat) (a : Alarm) : TimerAct → Prop where
  | removed : Stays w w' h n a (.remove h)
  | ticked (now : w'.alarms h = some (n, a.tick)) : Stays w w' h n a .tick
  | fired (calls : w.run.calling = some h) (own : n = w.caller) (now : w'.alarms h = a.fired.map fun a => (n, a)) :
      Stays w w' h n a .back
  | silent (act : TimerAct) (pass : act = .pass ∨ act = .back) (due : (w.run.timer.slot h).due = true)
      (none : a.callback = 0) (now : w'.alarms h = a.fired.map fun a => (n, a)) : Stays w w' h n a act
  | same (act : TimerAct) (now : w'.alarms h = some (n, a)) : Stays w w' h n a act

section Steps
variable {room : Nat → Bool} {w w' : Watched} {s : TimerInfo} {t u : Timer} {alarms : Alarms}

@[simp] theorem alarm_finished (s : TimerInfo) : s.finished.alarm = s.alarm.bind Alarm.fired := by
  unfold TimerInfo.alarm TimerInfo.finished Alarm.fired
  by_cases active : s.active = true
  · by_cases periodic : s.flags &&& tfPeriodic ≠ 0
    · simp [active, periodic]
    · simp [active, periodic]
  · simp [active]

@[simp] theorem alarm_tick (s : TimerInfo) : s.tick.alarm = if s.running then s.alarm.map Alarm.tick else s.alarm := by
  unfold TimerInfo.tick TimerInfo.runs TimerInfo.alarm
  by_cases active : s.active = true
  · by_cases running : s.running = true
    · simp [active, running, Alarm.tick]
    · simp [active, running]
  · simp [active]

/-- A timer that fired, by its handle. -/
theorem returned_snd (alarms : Alarms) (i id h : Nat) : (alarms.returned i id h).map Prod.snd =
    if h = i ∧ (alarms h).map Prod.fst = some id then ((alarms h).map Prod.snd).bind Alarm.fired
    else (alarms h).map Prod.snd := by
  unfold Alarms.returned
  cases alarms h with
  | none => simp
  | some p =>
    obtain ⟨n, a⟩ := p
    by_cases same : h = i ∧ n = id
    · simp only [same, and_self, if_true, Option.map_some, Option.bind_some]
      cases a.fired <;> rfl
    · simp [same]

theorem ended_snd (alarms : Alarms) (silent : List Nat) (h : Nat) : (alarms.ended silent h).map Prod.snd =
    if h ∈ silent then ((alarms h).map Prod.snd).bind Alarm.fired else (alarms h).map Prod.snd := by
  unfold Alarms.ended
  cases alarms h with
  | none => simp
  | some p =>
    by_cases member : h ∈ silent
    · simp only [member, if_true, Option.map_some, Option.bind_some]
      cases p.2.fired <;> rfl
    · simp [member]

/-- A stretch of the pass ends the timers that it should. -/
theorem scan_kept {silent : List Nat} {call : Option Nat} (kept : ∀ h, (t.slot h).alarm = (alarms h).map Prod.snd)
    (scanned : Scanned t silent call u) (h : Nat) : (u.slot h).alarm = (alarms.ended silent h).map Prod.snd := by
  rw [scanned.slots h, ended_snd, ← kept h]
  by_cases member : h ∈ silent
  · rw [if_pos member, if_pos member, alarm_finished]
  · rw [if_neg member, if_neg member]
    split <;> rfl

/-- The return of a callback: the table keeps the timers exactly if the slot is `Own`. -/
theorem returned_kept_iff {i : Nat} (kept : ∀ h, (t.slot h).alarm = (alarms h).map Prod.snd) (id : Nat) :
    (∀ h, ((t.returned i).slot h).alarm = (alarms.returned i id h).map Prod.snd) ↔
      ∀ p ∈ alarms i, p.1 = id ∨ p.2.fired = some p.2 := by
  have at_slot : ((t.returned i).slot i).alarm = ((alarms i).map Prod.snd).bind Alarm.fired := by
    rw [returned_slot, if_pos rfl, alarm_finished, ← kept i]
    rfl
  constructor
  · rintro all ⟨n, a⟩ there
    have same := all i
    rw [at_slot, returned_snd, Option.mem_def.1 there] at same
    by_cases own : n = id
    · exact .inl own
    · simp only [Option.map_some, Option.bind_some, true_and, Option.some.injEq, own, if_false] at same
      exact .inr same
  · intro own h
    by_cases same : h = i
    · subst same
      rw [at_slot, returned_snd]
      cases there : alarms h with
      | none => simp
      | some p =>
        by_cases mine : p.1 = id
        · simp [mine]
        · obtain mine' | whole := own p there
          · exact absurd mine' mine
          · simp [mine, whole]
    · rw [returned_slot, if_neg same, returned_snd, if_neg fun both => same both.1]
      exact kept h

/-- One step keeps the timers. -/
theorem step_kept {a : TimerAct} (kept : w.Kept) (own : w.Own a) (step : w.step room a = some w') : w'.Kept := by
  obtain ⟨o, run, rfl⟩ := Option.map_eq_some_iff.1 step
  intro j
  change (o.after.timer.slot j).alarm = (w.next o a j).map Prod.snd
  cases a with
  | create resolution flags callback udata =>
    obtain ⟨⟨h, t⟩, made, rfl⟩ := Option.map_eq_some_iff.1 run
    obtain ⟨-, slots⟩ := create_spec made
    change (t.slot j).alarm = (Function.update w.alarms h _ j).map Prod.snd
    rw [slots j]
    by_cases same : j = h
    · subst same
      simp [TimerInfo.alarm, TimerInfo.claimed]
    · rw [if_neg same, Function.update_of_ne same]
      exact kept j
  | suspend h =>
    cases run
    change ((w.run.timer.suspend h).slot j).alarm = _
    rw [suspend_slot]
    by_cases same : j = h
    · subst same
      rw [if_pos rfl]
      exact kept j
    · rw [if_neg same]
      exact kept j
  | resume h =>
    cases run
    change ((w.run.timer.resume h).slot j).alarm = _
    rw [resume_slot]
    by_cases same : j = h ∧ h < w.run.timer.timers.length
    · rw [if_pos same, ← same.1]
      exact kept j
    · rw [if_neg same]
      exact kept j
  | remove h =>
    cases run
    change ((w.run.timer.remove h).slot j).alarm = (Function.update w.alarms h none j).map Prod.snd
    rw [remove_slot]
    by_cases same : j = h
    · subst same
      simp [TimerInfo.alarm]
    · rw [if_neg same, Function.update_of_ne same]
      exact kept j
  | tick =>
    cases run
    change (w.run.timer.rtcCallback.slot j).alarm = (ite _ _ _ : Option (Nat × Alarm)).map Prod.snd
    rw [rtcCallback_slot, alarm_tick, kept j]
    by_cases running : (w.run.timer.slot j).running = true
    · rw [if_pos running, if_pos running, Option.map_map, Option.map_map]
      rfl
    · rw [if_neg running, if_neg running]
  | enter =>
    obtain ⟨-, -, rfl⟩ := enter_spec run
    exact kept j
  | begin =>
    obtain ⟨-, rfl⟩ := begin_spec run
    exact kept j
  | pass =>
    obtain ⟨-, -, rfl⟩ := pass_spec run
    exact scan_kept kept (scan_spec (w.run.timer.timers.length - 0) 0 w.run.timer).1 j
  | back =>
    obtain ⟨i, calling, rfl⟩ := back_spec run
    simp only [Watched.next, calling]
    have returned := (returned_kept_iff kept w.caller).2 (own i calling)
    exact scan_kept returned (scan_spec _ (i + 1) (w.run.timer.returned i)).1 j

/-- What a step does to a timer. -/
theorem step_stays {act : TimerAct} (kept : w.Kept) (step : w.step room act = some w') {h n : Nat} {a : Alarm}
    (there : w.alarms h = some (n, a)) : Stays w w' h n a act := by
  obtain ⟨o, run, rfl⟩ := Option.map_eq_some_iff.1 step
  have alarm : (w.run.timer.slot h).alarm = some a := by rw [kept h, there]; rfl
  have active : (w.run.timer.slot h).active = true := by
    by_contra off
    simp [TimerInfo.alarm, off] at alarm
  have callback : a.callback = (w.run.timer.slot h).callback := by
    rw [TimerInfo.alarm, if_pos active] at alarm
    exact (Option.some.inj alarm) ▸ rfl
  cases act with
  | create resolution flags callback udata =>
    obtain ⟨⟨i, t⟩, made, rfl⟩ := Option.map_eq_some_iff.1 run
    have other : h ≠ i := by
      rintro rfl
      exact absurd active (by simp [(create_spec made).1])
    exact .same _ ((Function.update_of_ne other _ _).trans there)
  | suspend i => exact .same _ there
  | resume i => exact .same _ there
  | remove i =>
    by_cases same : h = i
    · subst same
      exact .removed
    · exact .same _ ((Function.update_of_ne same _ _).trans there)
  | tick =>
    by_cases running : (w.run.timer.slot h).running = true
    · refine .ticked ?_
      change (ite _ _ _ : Option (Nat × Alarm)) = _
      rw [if_pos running, there]
      rfl
    · exact .same _ ((if_neg running).trans there)
  | enter =>
    obtain ⟨-, -, rfl⟩ := enter_spec run
    exact .same _ there
  | begin =>
    obtain ⟨-, rfl⟩ := begin_spec run
    exact .same _ there
  | pass =>
    obtain ⟨-, -, rfl⟩ := pass_spec run
    have scanned := (scan_spec (w.run.timer.timers.length - 0) 0 w.run.timer).1
    by_cases member : h ∈ (w.run.timer.passFrom 0).1
    · obtain ⟨due, silent⟩ := scanned.due h member
      refine .silent _ (.inl rfl) due (callback.trans silent) ?_
      simp [Watched.next, Alarms.ended, there, member]
    · refine .same _ ?_
      simp [Watched.next, Alarms.ended, there, member]
  | back =>
    obtain ⟨i, calling, rfl⟩ := back_spec run
    obtain ⟨scanned, above, -⟩ :=
      scan_spec ((w.run.timer.returned i).timers.length - (i + 1)) (i + 1) (w.run.timer.returned i)
    by_cases member : h ∈ ((w.run.timer.returned i).passFrom (i + 1)).1
    · have other : h ≠ i := by
        have := above h member
        omega
      obtain ⟨due, silent⟩ := scanned.due h member
      rw [returned_slot, if_neg other] at due silent
      refine .silent _ (.inr rfl) due (callback.trans silent) ?_
      simp [Watched.next, calling, Alarms.ended, Alarms.returned, there, member, other]
    · by_cases own : h = i ∧ n = w.caller
      · obtain ⟨rfl, mine⟩ := own
        refine .fired calling mine ?_
        cases fired : a.fired <;>
          simp [Watched.next, calling, Alarms.ended, Alarms.returned, there, member, mine, fired]
      · refine .same _ ?_
        simp [Watched.next, calling, Alarms.ended, Alarms.returned, there, member, own]

end Steps

/-- Whatever the callbacks and others ask of the timers, in every run in which the slot of a callback that returns is its
own, every timer is in the table with what is its own, and every step leaves each as it was, but for the ticks, until it is
removed or has fired. -/
theorem timers_keep (room : Nat → Bool) {w : Watched}
    (reached : Reach (Watched.step room) Watched.Own (.start room) w) :
    w.Kept ∧ ∀ act w', w.Own act → w.step room act = some w' →
      w'.Kept ∧ ∀ h n a, w.alarms h = some (n, a) → Stays w w' h n a act := by
  have start : (Watched.start room).Kept := by
    intro h
    change ((((⟨[], false, false, true⟩ : Timer).allocTimerPack room).slot h).alarm) = none
    rw [allocTimerPack_slot]
    rfl
  have kept : w.Kept := reached.invariant start fun _ _ _ kept own step => step_kept kept own step
  exact ⟨kept, fun act w' own step => ⟨step_kept kept own step, fun h n a there => step_stays kept step there⟩⟩

/-- A callback removes its timer and creates another that is to fire once. -/
def slotTakenAgain : List TimerAct :=
  [.create 1 0 1 0, .enter, .begin, .tick, .pass, .remove 0, .create 5 0 2 7, .back]

/-- The new timer was not removed and has not fired, but it is gone. -/
theorem new_timer_lost : ∃ w, runAll (Watched.step fun _ => true) (fun _ _ => True) (.start fun _ => true)
    slotTakenAgain = some w ∧ w.alarms 0 = some (6, ⟨0, 5, 5, 2, 7⟩) ∧ (w.run.timer.slot 0).active = false ∧ ¬ w.Kept :=
  ⟨_, rfl, by decide, by decide, fun kept => absurd (kept 0) (by decide)⟩

/-- A callback removes its timer and creates a periodic one. -/
def periodicAgain : List TimerAct :=
  [.create 1 0 1 0, .enter, .begin, .tick, .pass, .remove 0, .create 5 tfPeriodic 2 7]

theorem periodic_timer_kept : ∃ w, runAll (Watched.step fun _ => true) Watched.Own (.start fun _ => true)
    periodicAgain = some w ∧ w.Own .back ∧ w.Kept ∧ ∀ act w', w.Own act → w.step (fun _ => true) act = some w' →
      w'.Kept ∧ ∀ h n a, w.alarms h = some (n, a) → Stays w w' h n a act :=
  ⟨_, rfl, by decide, timers_keep (fun _ => true) (Reach.of_runAll periodicAgain rfl)⟩

end PreTeO.Sys
