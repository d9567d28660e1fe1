import PreTeO.Sys.Blender

/-!
# Turns of the threads (`core/sys/micro_blender.cpp`)

The queue turns past the threads that are blocked, and a new thread goes to its end. So a thread that is not blocked comes
to the front with the n-th switch of the context at the latest if there are n before it, whatever the threads do.
-/

namespace PreTeO.Sys
set_option autoImplicit false
open PreTeO.Lib

namespace Blender

/-- The place of the first thread with an id. The thread that runs is at place 0. -/
def place (s : Blender) (id : Nat) : Option Nat := s.queue.findIdx? fun t => t.id = id

/-- The first thread with the id is behind others and can run. -/
def Waits (id : Nat) (s : Blender) : Prop :=
  ∃ l t r, s.queue = l ++ t :: r ∧ l ≠ [] ∧ (∀ x ∈ l, x.id ≠ id) ∧ t.id = id ∧ ¬ t.Blocked

/-- The events that call `switch_context`. -/
def Event.switches : Event → Bool
  | .switchContext | .timer | .exception _ | .breakpoint | .debug | .memoryException _ | .sleep _ => true
  | _ => false

/-- The thread waits in every state of the run. -/
def PassedOver (id : Nat) : Blender → List Event → Prop
  | s, [] => s.Waits id
  | s, e :: es => s.Waits id ∧ ∀ t, s.step e = some t → PassedOver id t es

/-! ## Places in the queue -/

section Places
variable {id n : Nat} {queue queue' : List Thread} {s : Blender}

/-- The first thread with the id is behind `n` others. -/
def Behind (id n : Nat) (queue : List Thread) : Prop :=
  ∃ l t r, queue = l ++ t :: r ∧ l.length = n ∧ (∀ x ∈ l, x.id ≠ id) ∧ t.id = id

theorem Behind.place (behind : Behind id n s.queue) : s.place id = some n := by
  obtain ⟨l, t, r, split, rfl, others, mine⟩ := behind
  have none : l.findIdx? (fun t => decide (t.id = id)) = none := by
    rw [List.findIdx?_eq_none_iff]
    exact fun x inside => decide_eq_false (others x inside)
  unfold Blender.place
  rw [split, List.findIdx?_append, none, List.findIdx?_cons, decide_eq_true mine, if_pos rfl, Option.map_some,
    Nat.zero_add]
  rfl

/-- The place depends on the ids alone. -/
theorem Behind.congr (behind : Behind id n queue) (same : queue'.map Thread.id = queue.map Thread.id) :
    Behind id n queue' := by
  obtain ⟨l, t, r, rfl, length, others, mine⟩ := behind
  rw [List.map_append, List.map_cons] at same
  obtain ⟨l', rest, rfl, first, last⟩ := List.map_eq_append_iff.mp same
  obtain ⟨t', r', rfl, id', -⟩ := List.map_eq_cons_iff.mp last
  refine ⟨l', t', r', rfl, ?_, fun x inside => ?_, id'.trans mine⟩
  · rw [← length, ← List.length_map Thread.id, first, List.length_map]
  · have inside' : x.id ∈ l.map Thread.id := first ▸ List.mem_map_of_mem inside
    obtain ⟨y, member, same⟩ := List.mem_map.mp inside'
    exact same ▸ others y member

theorem map_id_modify (queue : List Thread) (i : Nat) {f : Thread → Thread} (keep : ∀ t, (f t).id = t.id) :
    (queue.modify i f).map Thread.id = queue.map Thread.id := by
  refine List.ext_getElem (by simp) fun j bound bound' => ?_
  rw [List.getElem_map, List.getElem_map, List.getElem_modify]
  split
  · exact keep _
  · rfl

theorem free_unset {x : Thread} {flags : BitVec 16} (free : ¬ x.Blocked) (among : tsBlocked &&& flags = flags) :
    x.flags &&& flags = 0#16 := by
  have clear : x.flags &&& tsBlocked = 0#16 := not_not.mp free
  rw [← among, ← BitVec.and_assoc, clear, BitVec.zero_and]

/-- The queue is turned to a thread that is not blocked, and one that waits is not passed by. -/
theorem rollLoop_behind {l r : List Thread} {t : Thread} (split : queue = l ++ t :: r) (others : ∀ x ∈ l, x.id ≠ id)
    (behind : l ≠ []) (mine : t.id = id) (free : ¬ t.Blocked) :
    ∃ queue' n m, rollLoop queue.length queue 0 = some (queue', n) ∧ m < l.length ∧ Behind id m queue' := by
  obtain ⟨h, l, rfl⟩ := List.exists_cons_of_ne_nil behind
  have rolled : roll queue = l ++ t :: (r ++ [h]) := by
    rw [split, List.cons_append, roll_cons, List.append_assoc]
    rfl
  obtain ⟨pre, u, post, split', blocked, ends⟩ := exists_first_free (show ∃ x ∈ roll queue, ¬ x.Blocked by
    refine ⟨t, ?_, free⟩
    rw [rolled]
    exact List.mem_append_right l List.mem_cons_self)
  have enough : pre.length < queue.length := by
    rw [← (roll_perm queue).length_eq, split', List.length_append, List.length_cons]
    omega
  refine ⟨_, _, l.length - pre.length, rollLoop_ends split' blocked ends enough, ?_, ?_⟩
  · rw [List.length_cons]
    omega
  · rw [rolled] at split'
    -- the thread is not among the blocked ones that were passed by
    have le : pre.length ≤ l.length := by
      by_contra passed
      have inside : l.length < pre.length := Nat.lt_of_not_le passed
      have same := congrArg (fun q : List Thread => q[l.length]?) split'
      simp only [List.getElem?_append_right (Nat.le_refl l.length), Nat.sub_self, List.getElem?_cons_zero,
        List.getElem?_append_left inside] at same
      exact free (blocked t (List.mem_of_getElem? same.symm))
    obtain ⟨m, rfl, rest⟩ : ∃ m, l = pre ++ m ∧ u :: post = m ++ t :: (r ++ [h]) := by
      rcases List.append_eq_append_iff.mp split' with ⟨m, first, last⟩ | ⟨m, first, last⟩
      · have none : m = [] := by
          rw [first, List.length_append] at le
          exact List.length_eq_zero_iff.mp (by omega)
        subst none
        exact ⟨[], by rw [first, List.append_nil, List.append_nil], last.symm⟩
      · exact ⟨m, first, last⟩
    refine ⟨m, t, (r ++ [h]) ++ pre, ?_, ?_, fun x inside => ?_, mine⟩
    · have turned := congrArg (fun q : List Thread => q ++ pre) rest
      simpa only [List.cons_append, List.append_assoc] using turned
    · rw [List.length_append, Nat.add_sub_cancel_left]
    · exact others x (List.mem_cons_of_mem h (List.mem_append_right pre inside))

/-- A switch brings a thread that waits nearer to the front. -/
theorem switchContext_behind {l r : List Thread} {x : Thread} (split : s.queue = l ++ x :: r)
    (others : ∀ y ∈ l, y.id ≠ id) (behind : l ≠ []) (mine : x.id = id) (free : ¬ x.Blocked) :
    ∃ t, s.switchContext = some t ∧ ∃ m < l.length, Behind id m t.queue := by
  obtain ⟨queue', n, m, ends, lt, after⟩ := rollLoop_behind split others behind mine free
  have leaves (u : Thread) : (leave s.timeDiv u).id = u.id := by
    unfold leave
    dsimp only
    split <;> rfl
  unfold switchContext
  split
  · next none =>
    rw [none] at split
    exact absurd split.symm (by simp)
  · rw [ends]
    dsimp only
    split
    · have entered := @map_id_modify (queue'.modify (s.queue.length - n) (leave s.timeDiv)) 0 enter fun _ => rfl
      exact ⟨_, rfl, m, lt, after.congr (entered.trans (map_id_modify queue' _ leaves))⟩
    · exact ⟨_, rfl, m, lt, after⟩

/-- `idle` removes no thread that can run, and no other than those it finds finished or with an exception. -/
theorem reap_behind {l r : List Thread} {x : Thread} (split : queue = l ++ x :: r) (others : ∀ y ∈ l, y.id ≠ id)
    (mine : x.id = id) (free : ¬ x.Blocked) (fuel pos i : Nat) : ∃ m ≤ l.length, Behind id m (reap fuel queue pos i) := by
  induction fuel generalizing queue l r pos i with
  | zero => exact ⟨_, Nat.le_refl _, l, x, r, split, rfl, others, mine⟩
  | succ fuel ih =>
    have here : ∃ m ≤ l.length, Behind id m queue := ⟨_, Nat.le_refl _, l, x, r, split, rfl, others, mine⟩
    unfold Blender.reap
    cases get : queue[pos]? with
    | none => exact here
    | some u =>
      dsimp only
      by_cases flagged : u.flags &&& (tsFinished ||| tsException) ≠ 0#16
      · obtain ⟨l', r', left, le, others'⟩ : ∃ l' r', queue.eraseIdx pos = l' ++ x :: r' ∧ l'.length ≤ l.length ∧
            ∀ y ∈ l', y.id ≠ id := by
          subst split
          rcases Nat.lt_trichotomy pos l.length with before | same | after
          · refine ⟨l.eraseIdx pos, r, List.eraseIdx_append_of_lt_length before _, List.length_eraseIdx_le l pos, ?_⟩
            exact fun y inside => others y (List.mem_of_mem_eraseIdx inside)
          · subst same
            rw [List.getElem?_append_right (Nat.le_refl _), Nat.sub_self, List.getElem?_cons_zero] at get
            obtain rfl := Option.some.inj get
            exact absurd (free_unset free (by decide)) flagged
          · obtain ⟨k, rfl⟩ := Nat.exists_eq_add_of_lt after
            refine ⟨l, r.eraseIdx k, ?_, Nat.le_refl _, others⟩
            rw [List.eraseIdx_append_of_length_le (by omega), show l.length + k + 1 - l.length = k + 1 by omega]
            rfl
        rw [if_pos flagged]
        split
        · obtain ⟨m, le', behind⟩ := ih left others' _ i
          exact ⟨m, le'.trans le, behind⟩
        · exact ⟨_, le, l', x, r', left, rfl, others', mine⟩
      · rw [if_neg flagged]
        split
        · exact ih split others _ _
        · exact here

/-- A change of the thread that runs. -/
theorem front_split {l r : List Thread} {x : Thread} (split : queue = l ++ x :: r) (others : ∀ y ∈ l, y.id ≠ id)
    (behind : l ≠ []) {f : Thread → Thread} (keep : ∀ t, (f t).id = t.id) :
    ∃ l', queue.modify 0 f = l' ++ x :: r ∧ l'.length = l.length ∧ l' ≠ [] ∧ ∀ y ∈ l', y.id ≠ id := by
  obtain ⟨h, l, rfl⟩ := List.exists_cons_of_ne_nil behind
  refine ⟨f h :: l, by rw [split]; rfl, rfl, List.cons_ne_nil _ _, fun y inside => ?_⟩
  rcases List.mem_cons.mp inside with rfl | inside
  · rw [keep]
    exact others h List.mem_cons_self
  · exact others y (List.mem_cons_of_mem h inside)

/-- An exception of the thread that runs, or its sleep. -/
theorem running_behind {l r : List Thread} {x : Thread} (split : s.queue = l ++ x :: r) (others : ∀ y ∈ l, y.id ≠ id)
    (behind : l ≠ []) (mine : x.id = id) (free : ¬ x.Blocked) {f : Thread → Thread} (keep : ∀ t, (f t).id = t.id) :
    ∃ t, s.running f = some t ∧ ∃ m < l.length, Behind id m t.queue := by
  obtain ⟨l', split', length, behind', others'⟩ := front_split split others behind keep
  rw [← length]
  exact switchContext_behind split' others' behind' mine free

theorem wake_id (x : Thread) : (wake x).id = x.id := by
  unfold wake
  split
  · split <;> rfl
  · rfl

theorem wake_free {x : Thread} (free : ¬ x.Blocked) : wake x = x :=
  if_neg (not_not.mpr (free_unset free (by decide)))

theorem timer_behind {l r : List Thread} {x : Thread} (split : s.queue = l ++ x :: r) (others : ∀ y ∈ l, y.id ≠ id)
    (behind : l ≠ []) (mine : x.id = id) (free : ¬ x.Blocked) :
    ∃ t, s.timer = some t ∧ ∃ m < l.length, Behind id m t.queue := by
  obtain ⟨l', split', length, behind', others'⟩ :=
    front_split split others behind (show ∀ t : Thread, { t with tmSched := (t.tmSched + 1) % 2 ^ 64 }.id = t.id from
      fun _ => rfl)
  have woken : (s.queue.modify 0 fun t => { t with tmSched := (t.tmSched + 1) % 2 ^ 64 }).map wake =
      l'.map wake ++ x :: r.map wake := by
    rw [split', List.map_append, List.map_cons, wake_free free]
  rw [← length, ← List.length_map wake]
  refine switchContext_behind woken (fun y inside => ?_) (fun none => behind' (List.map_eq_nil_iff.mp none)) mine free
  obtain ⟨z, member, rfl⟩ := List.mem_map.mp inside
  rw [wake_id]
  exact others' z member

theorem byId_behind (behind : Behind id n s.queue) (other : Nat) {f : Thread → Thread} (keep : ∀ t, (f t).id = t.id) :
    Behind id n (s.byId other f).queue := by
  unfold byId
  split
  · exact behind
  · exact behind.congr (map_id_modify _ _ keep)

/-- A new thread is behind all others. -/
theorem create_behind (behind : Behind id n s.queue) (starter suspend : Bool) (resolution : Nat) :
    Behind id n (s.create starter suspend resolution).queue := by
  obtain ⟨l, t, r, split, length, others, mine⟩ := behind
  unfold create
  dsimp only
  rw [split, List.append_assoc, List.cons_append]
  exact ⟨l, t, _, rfl, length, others, mine⟩

/-- While a thread waits every event returns. None takes it farther from the front, and a switch brings it nearer. -/
theorem step_behind (waits : s.Waits id) (e : Event) :
    ∃ t n m, s.step e = some t ∧ Behind id n s.queue ∧ Behind id m t.queue ∧ if e.switches then m < n else m ≤ n := by
  obtain ⟨l, x, r, split, behind, others, mine, free⟩ := waits
  have here : Behind id l.length s.queue := ⟨l, x, r, split, rfl, others, mine⟩
  have switched {next : Option Blender} (nearer : ∃ t, next = some t ∧ ∃ m < l.length, Behind id m t.queue) :
      ∃ t n m, next = some t ∧ Behind id n s.queue ∧ Behind id m t.queue ∧ m < n := by
    obtain ⟨t, returns, m, lt, after⟩ := nearer
    exact ⟨t, _, m, returns, here, after, lt⟩
  have kept {t : Blender} (after : Behind id l.length t.queue) :
      ∃ u n m, some t = some u ∧ Behind id n s.queue ∧ Behind id m u.queue ∧ m ≤ n :=
    ⟨t, _, _, rfl, here, after, Nat.le_refl _⟩
  cases e with
  | switchContext => exact switched (switchContext_behind split others behind mine free)
  | timer => exact switched (timer_behind split others behind mine free)
  | exception exn => exact switched (running_behind split others behind mine free fun _ => rfl)
  | breakpoint => exact switched (running_behind split others behind mine free fun _ => rfl)
  | debug => exact switched (running_behind split others behind mine free fun _ => rfl)
  | memoryException addr => exact switched (running_behind split others behind mine free fun _ => rfl)
  | sleep countdown => exact switched (running_behind split others behind mine free fun _ => rfl)
  | createSysthread stack suspend resolution =>
    refine kept ?_
    unfold createSysthread
    split
    · exact create_behind here true suspend resolution
    · exact here
  | createUsrSysthread suspend resolution => exact kept (create_behind here false suspend resolution)
  | terminate other => exact kept (byId_behind here other fun _ => rfl)
  | sleepId other countdown => exact kept (byId_behind here other fun _ => rfl)
  | suspend other => exact kept (byId_behind here other fun _ => rfl)
  | resume other => exact kept (byId_behind here other fun _ => rfl)
  | start =>
    refine kept (here.congr (map_id_modify s.queue 0 fun x => ?_))
    split <;> rfl
  | finish =>
    refine kept (here.congr (map_id_modify s.queue 0 fun x => ?_))
    split <;> rfl
  | idle =>
    obtain ⟨m, le, after⟩ : ∃ m ≤ l.length, Behind id m s.onIdle.queue := by
      unfold onIdle
      split
      · unfold idle
        split
        · exact ⟨_, Nat.le_refl _, here⟩
        · exact reap_behind split others mine free _ 0 0
      · exact ⟨_, Nat.le_refl _, here⟩
    exact ⟨_, _, m, rfl, here, after, le⟩
  | setTimeDiv div =>
    refine kept ?_
    unfold setTimeDiv
    split <;> exact here

/-- While a thread that can run is passed over, every event returns, and there are fewer switches than threads before it. -/
theorem turn_comes {es : List Event} (waiting : PassedOver id s es) :
    ∃ n t, s.place id = some n ∧ es.countP Event.switches < n ∧ es.foldlM Blender.step s = some t ∧
      ∀ e, ∃ u, t.step e = some u := by
  induction es generalizing s with
  | nil =>
    have returns : ∀ e, ∃ u, s.step e = some u := fun e => by
      obtain ⟨u, -, -, returns, -⟩ := step_behind waiting e
      exact ⟨u, returns⟩
    obtain ⟨l, x, r, split, behind, others, mine, -⟩ := waiting
    exact ⟨_, s, Behind.place ⟨l, x, r, split, rfl, others, mine⟩, List.length_pos_iff.mpr behind, rfl, returns⟩
  | cons e es ih =>
    obtain ⟨t, n, m, returns, before, after, nearer⟩ := step_behind waiting.1 e
    obtain ⟨k, u, place, fewer, run, last⟩ := ih (waiting.2 t returns)
    obtain rfl : m = k := Option.some.inj (after.place.symm.trans place)
    refine ⟨n, u, before.place, ?_, ?_, last⟩
    · rw [List.countP_cons]
      by_cases switches : e.switches = true
      · rw [if_pos switches] at nearer ⊢
        omega
      · rw [if_neg switches] at nearer ⊢
        omega
    · rw [List.foldlM_cons, returns]
      exact run

end Places

def newThread (id : Nat) (flags : BitVec 16) : Thread := ⟨id, true, flags, 0, 0, 0, 0, 0⟩

/-- The idle thread and two threads, none of which has run. -/
def threeThreads : Blender := (init.createSysthread true false 0).createSysthread true false 0

/-- The second of two threads is passed over by one switch. -/
theorem turn_comes_three : ∃ n t, threeThreads.place 3 = some n ∧ [Event.switchContext].countP Event.switches < n ∧
    [Event.switchContext].foldlM Blender.step threeThreads = some t ∧ ∀ e, ∃ u, t.step e = some u := by
  refine turn_comes ⟨?_, fun t returns => ?_⟩
  · exact ⟨[idleThread 1, newThread 2 tsPending], newThread 3 tsPending, [], by decide, by decide, by decide, by decide,
      by decide⟩
  · have switched : threeThreads.step .switchContext = some { threeThreads with
        queue := [newThread 2 tsRunning, newThread 3 tsPending, { idleThread 1 with flags := tsPending }] } := by decide
    obtain rfl := Option.some.inj (returns.symm.trans switched)
    exact ⟨[newThread 2 tsRunning], newThread 3 tsPending, _, rfl, by decide, by decide, by decide, by decide⟩

end Blender
end PreTeO.Sys
