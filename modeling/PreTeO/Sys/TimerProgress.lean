import PreTeO.Sys.Timer

/-!
# No timer is forgotten

The interrupts of the RTC are on exactly while some timer runs, and the timer thread is not suspended while one is due: what
`update_state` and `rtc_callback` tell stays right between their calls. A pass then comes to every timer that is due.

The thread sets `m_thread_state` when it starts, whatever it was. If it is turned off between its first switch and that
store, it is suspended with the flag set, and `thread_on` does not wake it again.
-/

namespace PreTeO.Sys
set_option autoImplicit false
open PreTeO.Lib

/-- What the flags of the timer say. -/
structure Timer.Alert (t : Timer) : Prop where
  clock : t.timerState = t.timers.any TimerInfo.runs
  bounded : ∀ s ∈ t.timers, s.countdown ≤ s.initial
  awake : ∀ s ∈ t.timers, s.due = true → t.threadState = true
  needed : t.threadState = true → t.timers.any TimerInfo.runs = true
  agree : t.suspended = !t.threadState

section Alert
variable {t : Timer} {i j n : Nat} {f : TimerInfo → TimerInfo} {room : Nat → Bool}

/-! ## Changes of a slot -/

theorem mem_change {s : TimerInfo} (member : s ∈ (t.change i f).timers) :
    s ∈ t.timers ∨ ∃ x, t.timers[i]? = some x ∧ s = f x := by
  obtain ⟨k, get⟩ := List.getElem?_of_mem member
  unfold Timer.change at get
  by_cases same : i = k
  · subst same
    rw [List.getElem?_modify_eq] at get
    obtain ⟨x, there, rfl⟩ := Option.map_eq_some_iff.mp get
    exact .inr ⟨x, there, rfl⟩
  · rw [List.getElem?_modify_ne _ _ same] at get
    exact .inl (List.mem_of_getElem? get)

theorem any_modify {l : List TimerInfo} {p : TimerInfo → Bool} (same : ∀ x, l[i]? = some x → p (f x) = p x) :
    (l.modify i f).any p = l.any p := by
  have flags : (l.modify i f).map p = l.map p := by
    refine List.ext_getElem? fun k => ?_
    rw [List.getElem?_map, List.getElem?_map]
    by_cases here : i = k
    · subst here
      rw [List.getElem?_modify_eq]
      cases there : l[i]? with
      | none => rfl
      | some x => exact congrArg some (same x there)
    · rw [List.getElem?_modify_ne _ _ here]
  have all (q : List TimerInfo) : q.any p = (q.map p).any id := by
    rw [List.any_map]
    rfl
  rw [all, all, flags]

theorem runs_of_due {s : TimerInfo} (due : s.due = true) : s.runs = true := (Bool.and_eq_true_iff.mp due).1

/-! ## The flags -/

@[simp] theorem threadOn_timerState (t : Timer) (on : Bool) : (t.threadOn on).timerState = t.timerState := by
  unfold Timer.threadOn
  split <;> rfl

@[simp] theorem threadOn_threadState (t : Timer) (on : Bool) : (t.threadOn on).threadState = on := by
  unfold Timer.threadOn
  split
  · assumption
  · rfl

/-- `thread_on` keeps the flag right, if it was. -/
theorem threadOn_suspended (agree : t.suspended = !t.threadState) (on : Bool) : (t.threadOn on).suspended = !on := by
  unfold Timer.threadOn
  split
  · next same => rw [agree, same]
  · rfl

@[simp] theorem updateState_timers (t : Timer) : t.updateState.timers = t.timers := threadOn_timers _ _

@[simp] theorem updateState_threadState (t : Timer) : t.updateState.threadState = t.timers.any TimerInfo.runs :=
  threadOn_threadState _ _

theorem updateState_suspended (agree : t.suspended = !t.threadState) :
    t.updateState.suspended = !t.timers.any TimerInfo.runs :=
  @threadOn_suspended { t with timerState := t.timers.any TimerInfo.runs } agree _

/-- `update_state` says what there is. -/
theorem alert_updateState (bounded : ∀ s ∈ t.timers, s.countdown ≤ s.initial) (agree : t.suspended = !t.threadState) :
    t.updateState.Alert where
  clock := by rw [Timer.updateState, threadOn_timerState, threadOn_timers]
  bounded := by rwa [updateState_timers]
  awake s member due := by
    rw [updateState_timers] at member
    rw [updateState_threadState]
    exact List.any_eq_true.mpr ⟨s, member, runs_of_due due⟩
  needed on := by rwa [updateState_threadState, ← updateState_timers t] at on
  agree := by rw [updateState_suspended agree, updateState_threadState]

theorem Timer.Alert.bounded_change (alert : t.Alert)
    (keep : ∀ s : TimerInfo, s.countdown ≤ s.initial → (f s).countdown ≤ (f s).initial) :
    ∀ s ∈ (t.change i f).timers, s.countdown ≤ s.initial := by
  intro s member
  rcases mem_change member with old | ⟨x, there, rfl⟩
  · exact alert.bounded s old
  · exact keep x (alert.bounded x (List.mem_of_getElem? there))

/-- A change after which no other timers run, and none is due that was not. -/
theorem Timer.Alert.change (alert : t.Alert)
    (bounded : ∀ s : TimerInfo, s.countdown ≤ s.initial → (f s).countdown ≤ (f s).initial)
    (runs : ∀ x, t.timers[i]? = some x → (f x).runs = x.runs)
    (due : ∀ x, t.timers[i]? = some x → (f x).due = true → x.due = true) : (t.change i f).Alert := by
  refine ⟨alert.clock.trans (any_modify runs).symm, alert.bounded_change bounded, fun s member now => ?_,
    fun on => (any_modify runs).trans (alert.needed on), alert.agree⟩
  rcases mem_change member with old | ⟨x, there, rfl⟩
  · exact alert.awake s old now
  · exact alert.awake x (List.mem_of_getElem? there) (due x there now)

/-! ## The calls -/

theorem Timer.Alert.finish (alert : t.Alert) (i : Nat) : (t.finish i).Alert := by
  have bounded : ∀ s : TimerInfo, s.countdown ≤ s.initial → s.finished.countdown ≤ s.finished.initial :=
    fun s _ => Nat.le_refl s.initial
  -- a timer that starts again at once was due, since it never counts from more than its resolution
  have periodic (again : ∀ x, t.timers[i]? = some x → x.flags &&& tfPeriodic ≠ 0) : (t.change i TimerInfo.finished).Alert := by
    have active (x : TimerInfo) (there : t.timers[i]? = some x) : x.finished.runs = x.runs := by
      unfold TimerInfo.finished TimerInfo.runs
      rw [decide_eq_true (again x there), Bool.and_true]
    refine alert.change bounded active fun x there due => ?_
    obtain ⟨runs, zero⟩ := Bool.and_eq_true_iff.mp due
    have le := alert.bounded x (List.mem_of_getElem? there)
    have initial : x.initial = 0 := beq_iff_eq.mp zero
    exact Bool.and_eq_true_iff.mpr ⟨active x there ▸ runs, beq_iff_eq.mpr (by omega)⟩
  unfold Timer.finish
  cases there : t.timers[i]? with
  | none =>
    refine periodic fun x some => ?_
    rw [there] at some
    cases some
  | some s =>
    dsimp only
    split
    · exact alert_updateState (alert.bounded_change bounded) alert.agree
    · next again =>
      refine periodic fun x same => ?_
      rw [there] at same
      exact Option.some.inj same ▸ again

theorem Timer.Alert.scan (alert : t.Alert) (n i : Nat) : (t.scan n i).2.2.Alert := by
  induction n generalizing i t with
  | zero => exact alert
  | succ n ih =>
    unfold Timer.scan
    cases t.timers[i]? with
    | none => exact alert
    | some s =>
      dsimp only
      split
      · split
        · exact alert.change (fun _ le => le) (fun _ _ => rfl) fun _ _ due => due
        · exact ih (alert.finish i) (i + 1)
      · exact ih alert (i + 1)

theorem Timer.Alert.returned (alert : t.Alert) (i : Nat) : (t.returned i).Alert := by
  have back : (t.change i fun s => { s with call := false }).Alert :=
    alert.change (fun _ le => le) (fun _ _ => rfl) fun _ _ due => due
  exact back.finish i

theorem Timer.Alert.rtcCallback (alert : t.Alert) : t.rtcCallback.Alert := by
  have runs (s : TimerInfo) : s.tick.runs = s.runs := by
    unfold TimerInfo.tick
    split <;> rfl
  have timers : t.rtcCallback.timers = t.timers.map TimerInfo.tick := threadOn_timers _ _
  have flag : t.rtcCallback.threadState =
      (t.timers.map TimerInfo.tick).any fun s => s.runs && decide (s.countdown ≤ 1) := threadOn_threadState _ _
  have suspended : t.rtcCallback.suspended =
      !(t.timers.map TimerInfo.tick).any fun s => s.runs && decide (s.countdown ≤ 1) :=
    @threadOn_suspended { t with timers := t.timers.map TimerInfo.tick } alert.agree _
  refine ⟨?_, fun s member => ?_, fun s member due => ?_, fun on => ?_, by rw [suspended, flag]⟩
  · rw [timers, Timer.rtcCallback, threadOn_timerState, List.any_map]
    exact alert.clock.trans (congrArg _ (funext fun s => (runs s).symm))
  · rw [timers] at member
    obtain ⟨x, old, rfl⟩ := List.mem_map.mp member
    have le := alert.bounded x old
    unfold TimerInfo.tick
    split
    · exact Nat.le_trans (Nat.sub_le _ _) le
    · exact le
  · rw [timers] at member
    rw [flag]
    obtain ⟨running, zero⟩ := Bool.and_eq_true_iff.mp due
    have zero := beq_iff_eq.mp zero
    have soon : s.countdown ≤ 1 := by omega
    exact List.any_eq_true.mpr ⟨s, member, Bool.and_eq_true_iff.mpr ⟨running, decide_eq_true soon⟩⟩
  · rw [flag] at on
    obtain ⟨s, member, both⟩ := List.any_eq_true.mp on
    rw [timers]
    exact List.any_eq_true.mpr ⟨s, member, (Bool.and_eq_true_iff.mp both).1⟩

theorem Timer.Alert.claim (alert : t.Alert) {h resolution flags callback udata : Nat} {u : Timer}
    (run : t.claim resolution flags callback udata = some (h, u)) : u.Alert := by
  obtain ⟨i, -, same⟩ := Option.map_eq_some_iff.1 run
  obtain ⟨rfl, rfl⟩ := Prod.mk.inj same
  exact alert_updateState (alert.bounded_change fun s _ => Nat.le_refl resolution) alert.agree

theorem Timer.Alert.allocTimerPack (alert : t.Alert) (room : Nat → Bool) : (t.allocTimerPack room).Alert := by
  unfold Timer.allocTimerPack
  split
  · have fresh {s : TimerInfo} (member : s ∈ t.timers ++ List.replicate initialTimerPack TimerInfo.zero) :
        s ∈ t.timers ∨ s = TimerInfo.zero :=
      (List.mem_append.mp member).imp_right List.eq_of_mem_replicate
    refine ⟨?_, fun s member => ?_, fun s member due => ?_, fun on => ?_, alert.agree⟩
    · dsimp only
      rw [List.any_append, alert.clock]
      exact (Bool.or_false _).symm
    · rcases fresh member with old | rfl
      · exact alert.bounded s old
      · exact Nat.le_refl 0
    · rcases fresh member with old | rfl
      · exact alert.awake s old due
      · cases due
    · dsimp only
      rw [List.any_append, alert.needed on, Bool.true_or]
  · exact alert

theorem Timer.Alert.create (alert : t.Alert) {h resolution flags callback udata : Nat} {u : Timer}
    (run : t.create room resolution flags callback udata = some (h, u)) : u.Alert := by
  unfold Timer.create at run
  cases first : t.claim resolution flags callback udata with
  | some r =>
    rw [first] at run
    exact alert.claim (first.trans run)
  | none =>
    rw [first] at run
    exact (alert.allocTimerPack room).claim run

/-! ## Passes -/

theorem lt_of_due (due : (t.slot i).due = true) : i < t.timers.length := by
  rcases Nat.lt_or_ge i t.timers.length with inside | outside
  · exact inside
  · rw [Timer.slot, List.getElem?_eq_none outside, Option.getD_none] at due
    cases due

/-- A pass comes to a timer that is due, or stops before it for a callback. -/
theorem scan_reaches {first : Nat} (le : first ≤ i) (enough : i < first + n) (due : (t.slot i).due = true) :
    i ∈ (t.scan n first).1 ∨ ∃ j, first ≤ j ∧ j ≤ i ∧ (t.scan n first).2.1 = some j := by
  induction n generalizing first t with
  | zero => omega
  | succ n ih =>
    obtain ⟨s, there⟩ : ∃ s, t.timers[first]? = some s :=
      ⟨_, List.getElem?_eq_getElem (Nat.lt_of_le_of_lt le (lt_of_due due))⟩
    have slot : t.slot first = s := by rw [Timer.slot, there, Option.getD_some]
    unfold Timer.scan
    rw [there]
    dsimp only
    by_cases now : s.due = true
    · rw [if_pos now]
      by_cases callback : s.callback ≠ 0
      · rw [if_pos callback]
        exact .inr ⟨first, Nat.le_refl _, le, rfl⟩
      · rw [if_neg callback]
        rcases Nat.lt_or_eq_of_le le with later | rfl
        · have other : i ≠ first := Nat.ne_of_gt later
          have due' : ((t.finish first).slot i).due = true := by rwa [finish_slot, if_neg other]
          rcases ih later (by omega) due' with ended | ⟨j, low, high, call⟩
          · exact .inl (List.mem_cons_of_mem _ ended)
          · exact .inr ⟨j, Nat.le_of_succ_le low, high, call⟩
        · exact .inl List.mem_cons_self
    · rw [if_neg now]
      rcases Nat.lt_or_eq_of_le le with later | rfl
      · rcases ih later (by omega) due with ended | ⟨j, low, high, call⟩
        · exact .inl ended
        · exact .inr ⟨j, Nat.le_of_succ_le low, high, call⟩
      · rw [slot] at due
        exact absurd due now

/-! ## The thread stays awake -/

/-- A timer that runs still does after a change that stops none. -/
theorem runs_change (keep : ∀ x, t.timers[i]? = some x → x.runs = true → (f x).runs = true)
    (some : t.timers.any TimerInfo.runs = true) : (t.change i f).timers.any TimerInfo.runs = true := by
  obtain ⟨s, member, running⟩ := List.any_eq_true.mp some
  obtain ⟨k, get⟩ := List.getElem?_of_mem member
  refine List.any_eq_true.mpr ?_
  by_cases same : i = k
  · subst same
    refine ⟨f s, List.mem_of_getElem? (i := i) ?_, keep s get running⟩
    rw [Timer.change, List.getElem?_modify_eq, get]
    rfl
  · refine ⟨s, List.mem_of_getElem? (i := k) ?_, running⟩
    rw [Timer.change, List.getElem?_modify_ne _ _ same, get]

/-- A thread that is not suspended has a timer to come to. -/
theorem Timer.Alert.runs_of_awake (alert : t.Alert) (awake : t.suspended = false) : t.timers.any TimerInfo.runs = true := by
  rw [alert.agree, Bool.not_eq_false'] at awake
  exact alert.needed awake

theorem Timer.Alert.claim_awake (alert : t.Alert) (awake : t.suspended = false) {h resolution flags callback udata : Nat}
    {u : Timer} (run : t.claim resolution flags callback udata = some (h, u)) : u.suspended = false := by
  obtain ⟨i, found, same⟩ := Option.map_eq_some_iff.1 run
  obtain ⟨rfl, rfl⟩ := Prod.mk.inj same
  obtain ⟨inside, free, -⟩ := List.findIdx?_eq_some_iff_getElem.1 found
  have agree : (t.change i fun s => s.claimed resolution flags callback udata).suspended =
      !(t.change i fun s => s.claimed resolution flags callback udata).threadState := alert.agree
  rw [updateState_suspended agree, Bool.not_eq_false']
  refine runs_change (fun x there running => ?_) (alert.runs_of_awake awake)
  -- The slot that is taken was free, so it did not run.
  obtain ⟨_, slot⟩ := List.getElem?_eq_some_iff.mp there
  obtain ⟨active, -⟩ := Bool.and_eq_true_iff.mp running
  rw [slot, active] at free
  cases free

theorem Timer.Alert.create_awake (alert : t.Alert) (awake : t.suspended = false) {h resolution flags callback udata : Nat}
    {u : Timer} (run : t.create room resolution flags callback udata = some (h, u)) : u.suspended = false := by
  unfold Timer.create at run
  cases first : t.claim resolution flags callback udata with
  | some r =>
    rw [first] at run
    exact alert.claim_awake awake (first.trans run)
  | none =>
    rw [first] at run
    refine (alert.allocTimerPack room).claim_awake ?_ run
    unfold Timer.allocTimerPack
    split
    · exact awake
    · exact awake

theorem Timer.Alert.resume_awake (alert : t.Alert) (awake : t.suspended = false) (h : Nat) :
    (t.resume h).suspended = false := by
  have kept : (t.change h fun s => { s with running := true }).timers.any TimerInfo.runs = true := by
    refine runs_change (fun x _ running => ?_) (alert.runs_of_awake awake)
    exact Bool.and_eq_true_iff.mpr ⟨(Bool.and_eq_true_iff.mp running).1, rfl⟩
  rw [Timer.resume, updateState_suspended (t := t.change h _) alert.agree, kept, Bool.not_true]

end Alert

/-- One step of a run. -/
def TimerRun.next (room : Nat → Bool) (r : TimerRun) (a : TimerAct) : Option TimerRun := (r.step room a).map TimerStep.after

/-- Between the first switch to the thread and its store, no tick comes and no timer is suspended or removed. -/
def TimerRun.Calm (r : TimerRun) : TimerAct → Prop
  | .tick | .suspend _ | .remove _ => r.thread ≠ .entered
  | _ => True

instance (r : TimerRun) : (a : TimerAct) → Decidable (r.Calm a)
  | .tick | .suspend _ | .remove _ => inferInstanceAs (Decidable (_ ≠ _))
  | .create _ _ _ _ | .resume _ | .enter | .begin | .pass | .back => inferInstanceAs (Decidable True)

/-- The flags are right, also while the thread starts. -/
structure TimerRun.Alert (r : TimerRun) : Prop where
  timer : r.timer.Alert
  idle : r.thread ≠ .looping → r.calling = none
  entered : r.thread = .entered → r.timer.suspended = false

section Runs
variable {room : Nat → Bool} {r u : TimerRun}

theorem next_alert (alert : r.Alert) {a : TimerAct} (calm : r.Calm a) (run : r.next room a = some u) : u.Alert := by
  obtain ⟨timer, idle, entered⟩ := alert
  obtain ⟨s, step, rfl⟩ := Option.map_eq_some_iff.mp run
  cases a with
  | create resolution flags callback udata =>
    obtain ⟨⟨h, t⟩, created, rfl⟩ := Option.map_eq_some_iff.mp step
    exact ⟨timer.create created, idle, fun starts => timer.create_awake (entered starts) created⟩
  | suspend h =>
    obtain rfl := Option.some.inj step
    exact ⟨alert_updateState (timer.bounded_change fun _ le => le) timer.agree, idle, fun starts => absurd starts calm⟩
  | resume h =>
    obtain rfl := Option.some.inj step
    exact ⟨alert_updateState (timer.bounded_change fun _ le => le) timer.agree, idle,
      fun starts => timer.resume_awake (entered starts) h⟩
  | remove h =>
    obtain rfl := Option.some.inj step
    exact ⟨alert_updateState (timer.bounded_change fun _ le => le) timer.agree, idle, fun starts => absurd starts calm⟩
  | tick =>
    obtain rfl := Option.some.inj step
    exact ⟨timer.rtcCallback, idle, fun starts => absurd starts calm⟩
  | enter =>
    obtain ⟨first, awake, rfl⟩ := enter_spec step
    exact ⟨timer, fun _ => idle (by simp [first]), fun _ => awake⟩
  | begin =>
    obtain ⟨starts, rfl⟩ := begin_spec step
    -- The thread is awake, so the flag is set already.
    have set : r.timer.threadState = true := by
      have awake := entered starts
      rwa [timer.agree, Bool.not_eq_false'] at awake
    have same : r.timer.begun = r.timer := by rw [Timer.begun, ← set]
    refine ⟨?_, fun outside => absurd rfl outside, fun starts => by cases starts⟩
    dsimp only
    rwa [same]
  | pass =>
    obtain ⟨looping, -, rfl⟩ := pass_spec step
    exact ⟨timer.scan _ 0, fun outside => absurd looping outside, fun starts => by simp [looping] at starts⟩
  | back =>
    obtain ⟨i, calling, rfl⟩ := back_spec step
    have looping : r.thread = .looping := by
      refine Decidable.byContradiction fun outside => ?_
      rw [idle outside] at calling
      cases calling
    exact ⟨(timer.returned i).scan _ (i + 1), fun outside => absurd looping outside, fun starts => by simp [looping] at starts⟩

theorem start_alert (room : Nat → Bool) : (TimerRun.start room).Alert := by
  have empty : (⟨[], false, false, true⟩ : Timer).Alert :=
    ⟨rfl, fun _ member => absurd member List.not_mem_nil, fun _ member => absurd member List.not_mem_nil, nofun, rfl⟩
  exact ⟨empty.allocTimerPack room, fun _ => rfl, nofun⟩

/-- In every run in which the thread is not turned off while it starts, with callbacks that use the timers, the interrupts of
the clock are on exactly while a timer runs, and while one is due the thread is not suspended and its pass, begun or going on
before that slot, ends the timer or calls it if it calls none before it. -/
theorem timers_noticed (reached : Reach (TimerRun.next room) TimerRun.Calm (TimerRun.start room) r) :
    r.timer.timerState = r.timer.timers.any TimerInfo.runs ∧ ∀ i, (r.timer.slot i).due = true → r.timer.suspended = false ∧
      (∀ s, r.step room .pass = some s → i ∈ s.silent ∨ ∃ j ≤ i, s.after.calling = some j) ∧
      ∀ k < i, r.calling = some k → ∀ s, r.step room .back = some s →
        i ∈ s.silent ∨ ∃ j, k < j ∧ j ≤ i ∧ s.after.calling = some j := by
  have alert : r.Alert := reached.invariant (start_alert room) fun _ _ _ before calm run => next_alert before calm run
  refine ⟨alert.timer.clock, fun i due => ⟨?_, fun s pass => ?_, fun k before calling s back => ?_⟩⟩
  · have inside := lt_of_due due
    rw [alert.timer.agree, Bool.not_eq_false']
    refine alert.timer.awake (r.timer.slot i) (List.mem_of_getElem? (i := i) ?_) due
    rw [Timer.slot, List.getElem?_eq_getElem inside, Option.getD_some]
  · obtain ⟨-, -, rfl⟩ := pass_spec pass
    rcases scan_reaches (Nat.zero_le i) (show i < 0 + (r.timer.timers.length - 0) by have := lt_of_due due; omega) due with
      ended | ⟨j, -, high, call⟩
    · exact .inl ended
    · exact .inr ⟨j, high, call⟩
  · obtain ⟨k', calling', rfl⟩ := back_spec back
    obtain rfl : k = k' := Option.some.inj (calling.symm.trans calling')
    have due' : ((r.timer.returned k).slot i).due = true := by rwa [returned_slot, if_neg (Nat.ne_of_gt before)]
    rcases scan_reaches (Nat.succ_le_of_lt before)
      (show i < k + 1 + ((r.timer.returned k).timers.length - (k + 1)) by have := lt_of_due due'; omega) due' with
      ended | ⟨j, low, high, call⟩
    · exact .inl ended
    · exact .inr ⟨j, low, high, call⟩

end Runs

/-- The thread starts with the first timer, which is due after a tick. -/
def firstTimer : List TimerAct := [.create 1 0 5 0, .enter, .begin, .tick]

theorem timers_noticed_one : ∃ r, runAll (TimerRun.next fun _ => true) TimerRun.Calm (TimerRun.start fun _ => true)
    firstTimer = some r ∧ (r.timer.slot 0).due = true ∧ r.timer.suspended = false ∧ r.timer.timerState = true := by
  refine ⟨_, rfl, rfl, ?_⟩
  obtain ⟨clock, due⟩ := timers_noticed (@Reach.of_runAll _ _ (TimerRun.next fun _ => true) TimerRun.Calm _
    (TimerRun.start fun _ => true) _ firstTimer rfl)
  exact ⟨(due 0 rfl).1, clock.trans rfl⟩

/-- A tick while the thread starts, and it sleeps while its timer is due. -/
example : ∃ r, runAll (TimerRun.next fun _ => true) (fun _ _ => True) (TimerRun.start fun _ => true)
    [.create 3 0 5 0, .enter, .tick, .begin, .tick, .tick] = some r ∧ (r.timer.slot 0).due = true ∧
      r.timer.suspended = true :=
  ⟨_, rfl, rfl, rfl⟩

end PreTeO.Sys
