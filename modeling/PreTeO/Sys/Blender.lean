import Mathlib.Algebra.Group.Nat.Defs
import Mathlib.Data.List.Rotate
import PreTeO.Lib.Run

/-!
# The scheduler of a CPU (`core/sys/micro_blender.cpp`)

The threads stand in a rotating queue with the running one first. `switch_context` rolls the queue until a thread without
a blocking flag is first; if there is none, the loop has no end, and the call is `none`.

`get_thread` never gives out the idle thread, so no call by id can block it. The handlers of exceptions and
`sleep_systhread` for the running thread take whichever thread is first. Only the idle thread calls `idle`, so the thread that
is first is never one that `idle` removes, and the queue does what a list does.
-/

namespace PreTeO.Sys
set_option autoImplicit false
open PreTeO.Lib

def tsRunning : BitVec 16 := 1#16 <<< 0
def tsPending : BitVec 16 := 1#16 <<< 1
def tsSuspend : BitVec 16 := 1#16 <<< 2
def tsFinished : BitVec 16 := 1#16 <<< 3
def tsSleep : BitVec 16 := 1#16 <<< 4
def tsException : BitVec 16 := 1#16 <<< 5
def tsBreakpoint : BitVec 16 := 1#16 <<< 6
def tsDebug : BitVec 16 := 1#16 <<< 7
def tsMemoryException : BitVec 16 := 1#16 <<< 8

/-- The flags that `switch_context` passes over. -/
def tsBlocked : BitVec 16 :=
  tsFinished ||| tsSleep ||| tsSuspend ||| tsBreakpoint ||| tsDebug ||| tsMemoryException ||| tsException

def idleWork : Nat := 2000
def minTimeDiv : Nat := 1
def maxTimeDiv : Nat := 10
def defaultTimeDiv : Nat := 10

/-- `_cthread_t`, without the stack. Of the context there is left whether it begins in `starter_proc`. -/
structure Thread where
  id : Nat
  starter : Bool
  flags : BitVec 16
  resolution : Nat
  exception : Nat
  mfAddr : Nat
  tmSched : Nat
  tmSleep : Nat
deriving DecidableEq, Repr

/-- `cBlender` after `init`: `m_idle_id`, `m_thread_id`, `m_idle_work`, `m_time_div` and the queue. -/
structure Blender where
  idleId : Nat
  threadId : Nat
  idleWork : Nat
  timeDiv : Nat
  queue : List Thread
deriving DecidableEq, Repr

def Thread.Blocked (t : Thread) : Prop := t.flags &&& tsBlocked ≠ 0#16

instance (t : Thread) : Decidable t.Blocked := inferInstanceAs (Decidable (_ ≠ _))

/-- `p_ct->flags |= flags`. -/
def Thread.set (t : Thread) (flags : BitVec 16) : Thread := { t with flags := t.flags ||| flags }

/-- `p_ct->flags &= ~flags`. -/
def Thread.clear (t : Thread) (flags : BitVec 16) : Thread := { t with flags := t.flags &&& ~~~flags }

/-- The idle thread as `create_idle` adds it. -/
def idleThread (id : Nat) : Thread := ⟨id, false, 0, 0, 0, 0, 0, 0⟩

/-- `init`: the idle thread is the first in the queue. -/
def Blender.init : Blender := ⟨1, 2, Sys.idleWork, defaultTimeDiv, [idleThread 1]⟩

namespace Blender

/-! ## `switch_context` -/

/-- `roll`: the first thread goes to the end. -/
def roll (queue : List Thread) : List Thread := queue.rotate 1

/-- The loop of `switch_context` for at most `fuel` rolls, with the number of rolls so far. -/
def rollLoop : Nat → List Thread → Nat → Option (List Thread × Nat)
  | 0, _, _ => none
  | fuel + 1, queue, n =>
    match roll queue with
    | [] => some ([], n + 1)
    | t :: rest => if t.Blocked then rollLoop fuel (t :: rest) (n + 1) else some (t :: rest, n + 1)

/-- What `switch_context` does to the thread that has run; a thread with a resolution goes to sleep. -/
def leave (timeDiv : Nat) (t : Thread) : Thread :=
  let t := (t.clear tsRunning).set tsPending
  if t.resolution ≠ 0 then { t.set tsSleep with tmSleep := (t.tmSleep + t.resolution / timeDiv) % 2 ^ 32 } else t

/-- And to the thread that runs from now on. -/
def enter (t : Thread) : Thread := (t.clear tsPending).set tsRunning

/-- `switch_context`, with as many rolls as there are threads. The old thread is as many places before the end as the
queue was rolled; after a whole turn it is the first again. -/
def switchContext (s : Blender) : Option Blender :=
  match s.queue with
  | [] => some s
  | _ :: _ =>
    match rollLoop s.queue.length s.queue 0 with
    | none => none
    | some (queue, n) =>
      if n ≠ s.queue.length then
        some { s with queue := (queue.modify (s.queue.length - n) (leave s.timeDiv)).modify 0 enter }
      else some { s with queue := queue }

/-! ## The other calls -/

/-- The sleep time control of `timer`. -/
def wake (t : Thread) : Thread :=
  if t.flags &&& tsSleep ≠ 0#16 then
    if t.tmSleep = 0 then t.clear tsSleep else { t with tmSleep := t.tmSleep - 1 }
  else t

/-- `timer`. -/
def timer (s : Blender) : Option Blender :=
  let queue := s.queue.modify 0 fun t => { t with tmSched := (t.tmSched + 1) % 2 ^ 64 }
  switchContext { s with queue := queue.map wake }

/-- A change of the running thread and `switch_context`, as the handlers of exceptions do it. -/
def running (s : Blender) (f : Thread → Thread) : Option Blender := switchContext { s with queue := s.queue.modify 0 f }

def exception (s : Blender) (exn : Nat) : Option Blender :=
  s.running fun t => { t.set tsException with exception := exn }
def breakpoint (s : Blender) : Option Blender := s.running fun t => t.set tsBreakpoint
def debug (s : Blender) : Option Blender := s.running fun t => t.set tsDebug
def memoryException (s : Blender) (addr : Nat) : Option Blender :=
  s.running fun t => { t.set tsMemoryException with mfAddr := addr }

/-- `sleep_systhread` for the running thread. -/
def sleep (s : Blender) (countdown : Nat) : Option Blender :=
  s.running fun t => { t.set tsSleep with tmSleep := countdown / s.timeDiv }

/-- The index of the thread that `get_thread` gives out. -/
def getThread (s : Blender) (id : Nat) : Option Nat :=
  if id ≠ s.idleId then s.queue.findIdx? fun t => t.id = id else none

/-- A change of the thread that `get_thread` gives out. -/
def byId (s : Blender) (id : Nat) (f : Thread → Thread) : Blender :=
  match s.getThread id with
  | none => s
  | some i => { s with queue := s.queue.modify i f }

def terminate (s : Blender) (id : Nat) : Blender := s.byId id fun t => t.set tsFinished
def sleepId (s : Blender) (id countdown : Nat) : Blender :=
  s.byId id fun t => { t.set tsSleep with tmSleep := countdown / s.timeDiv }
def suspend (s : Blender) (id : Nat) : Blender := s.byId id fun t => t.set tsSuspend
def resume (s : Blender) (id : Nat) : Blender := s.byId id fun t => t.clear tsSuspend

/-- A new thread at the end of the queue. -/
def create (s : Blender) (starter suspend : Bool) (resolution : Nat) : Blender :=
  let flags := tsPending ||| if suspend then tsSuspend else 0
  { s with
    queue := s.queue ++ [⟨s.threadId, starter, flags, resolution, 0, 0, 0, 0⟩]
    threadId := (s.threadId + 1) % 2 ^ 32 }

/-- `create_systhread`, with or without memory for the stack. -/
def createSysthread (s : Blender) (stack suspend : Bool) (resolution : Nat) : Blender :=
  if stack then s.create true suspend resolution else s

/-- `create_usr_systhread`. -/
def createUsrSysthread (s : Blender) (suspend : Bool) (resolution : Nat) : Blender := s.create false suspend resolution

/-- `starter_proc` before and after it runs the entry of its thread. -/
def start (s : Blender) : Blender :=
  { s with queue := s.queue.modify 0 fun t => if t.starter then (t.clear tsPending).set tsRunning else t }
def finish (s : Blender) : Blender :=
  { s with queue := s.queue.modify 0 fun t => if t.starter then (t.clear tsRunning).set (tsPending ||| tsFinished) else t }

/-- The loop of `idle` that removes threads, with the cursor of the queue and the number of threads it has kept. -/
def reap : Nat → List Thread → Nat → Nat → List Thread
  | 0, queue, _, _ => queue
  | fuel + 1, queue, pos, i =>
    match queue[pos]? with
    | none => queue
    | some t =>
      if t.flags &&& (tsFinished ||| tsException) ≠ 0#16 then
        -- the cursor goes to the next thread, and from the last one back
        let left := queue.eraseIdx pos
        if i < left.length then reap fuel left (if pos + 1 = queue.length then pos - 1 else pos) i else left
      else if i + 1 < queue.length then reap fuel queue (if pos + 1 < queue.length then pos + 1 else 0) (i + 1)
      else queue

/-- `idle`. -/
def idle (s : Blender) : Blender :=
  if s.idleWork ≠ 0 then { s with idleWork := s.idleWork - 1 }
  else { s with queue := reap s.queue.length s.queue 0 0, idleWork := Sys.idleWork }

/-- The idle thread runs. -/
def idles (s : Blender) : Bool := s.queue.head?.any fun t => t.id == s.idleId

/-- `idle` as it comes: `cCPU::idle` calls it in the idle thread, and nothing else does. -/
def onIdle (s : Blender) : Blender := if s.idles then s.idle else s

/-- `set_time_div`. -/
def setTimeDiv (s : Blender) (div : Nat) : Blender :=
  if minTimeDiv ≤ div ∧ div ≤ maxTimeDiv then { s with timeDiv := div } else s

/-! ## Runs -/

/-- A call on the scheduler, by a thread or by an interrupt. -/
inductive Event where
  | switchContext
  | timer
  | exception (exn : Nat)
  | breakpoint
  | debug
  | memoryException (addr : Nat)
  | sleep (countdown : Nat)
  | createSysthread (stack suspend : Bool) (resolution : Nat)
  | createUsrSysthread (suspend : Bool) (resolution : Nat)
  | terminate (id : Nat)
  | sleepId (id countdown : Nat)
  | suspend (id : Nat)
  | resume (id : Nat)
  | start
  | finish
  | idle
  | setTimeDiv (div : Nat)
deriving DecidableEq, Repr

def step (s : Blender) : Event → Option Blender
  | .switchContext => s.switchContext
  | .timer => s.timer
  | .exception exn => s.exception exn
  | .breakpoint => s.breakpoint
  | .debug => s.debug
  | .memoryException addr => s.memoryException addr
  | .sleep countdown => s.sleep countdown
  | .createSysthread stack suspend resolution => some (s.createSysthread stack suspend resolution)
  | .createUsrSysthread suspend resolution => some (s.createUsrSysthread suspend resolution)
  | .terminate id => some (s.terminate id)
  | .sleepId id countdown => some (s.sleepId id countdown)
  | .suspend id => some (s.suspend id)
  | .resume id => some (s.resume id)
  | .start => some s.start
  | .finish => some s.finish
  | .idle => some s.onIdle
  | .setTimeDiv div => some (s.setTimeDiv div)

/-- The running thread is not the idle thread. -/
def Busy (s : Blender) : Prop := ∀ t, s.queue.head? = some t → t.id ≠ s.idleId

/-- An event that flags the running thread does not come while the idle thread runs. -/
def Spares (s : Blender) : Event → Prop
  | .exception _ | .breakpoint | .debug | .memoryException _ | .sleep _ => s.Busy
  | _ => True

/-- The roll loop of `switch_context` comes to an end. -/
def RollEnds (s : Blender) : Prop := ∃ fuel, rollLoop fuel s.queue 0 ≠ none

/-! ## The roll loop -/

theorem roll_cons (t : Thread) (rest : List Thread) : roll (t :: rest) = rest ++ [t] := by
  unfold roll
  rw [List.rotate_cons_succ, List.rotate_zero]

theorem roll_perm (queue : List Thread) : (roll queue).Perm queue := List.rotate_perm queue 1

/-- The loop ends at the first thread that is not blocked, behind the one that was first. -/
theorem rollLoop_ends {l r : List Thread} {t : Thread} {queue : List Thread} {n fuel : Nat}
    (split : roll queue = l ++ t :: r) (blocked : ∀ x ∈ l, x.Blocked) (free : ¬ t.Blocked) (enough : l.length < fuel) :
    rollLoop fuel queue n = some (t :: (r ++ l), n + 1 + l.length) := by
  induction l generalizing queue r n fuel with
  | nil =>
    obtain ⟨fuel, rfl⟩ := Nat.exists_eq_succ_of_ne_zero (show fuel ≠ 0 by simp at enough; omega)
    unfold rollLoop
    rw [split, List.nil_append, List.append_nil]
    exact if_neg free
  | cons y l ih =>
    rw [List.length_cons] at enough
    obtain ⟨fuel, rfl⟩ := Nat.exists_eq_succ_of_ne_zero (show fuel ≠ 0 by omega)
    have next : roll (y :: (l ++ t :: r)) = l ++ t :: (r ++ [y]) := by
      rw [roll_cons, List.append_assoc]
      rfl
    have rest : rollLoop fuel (y :: (l ++ t :: r)) (n + 1) = some (t :: (r ++ [y] ++ l), n + 1 + 1 + l.length) :=
      ih next (fun x member => blocked x (List.mem_cons_of_mem _ member)) (by omega)
    unfold rollLoop
    rw [split, List.cons_append]
    refine (if_pos (blocked y List.mem_cons_self)).trans (rest.trans ?_)
    rw [List.length_cons, List.append_assoc, Nat.add_assoc (n + 1), Nat.add_comm 1]
    rfl

/-- Over threads that are all blocked the loop has no end. -/
theorem rollLoop_stuck {queue : List Thread} (some : queue ≠ []) (blocked : ∀ x ∈ queue, x.Blocked) (fuel n : Nat) :
    rollLoop fuel queue n = none := by
  induction fuel generalizing queue n with
  | zero => rfl
  | succ fuel ih =>
    have all : ∀ x ∈ roll queue, x.Blocked := fun x member => blocked x ((roll_perm queue).mem_iff.mp member)
    have left : roll queue ≠ [] := fun none => some (List.perm_nil.mp (none ▸ (roll_perm queue).symm))
    unfold rollLoop
    cases rolled : roll queue with
    | nil => exact absurd rolled left
    | cons t rest =>
      rw [rolled] at all
      exact (if_pos (all t List.mem_cons_self)).trans (ih (List.cons_ne_nil _ _) all (n + 1))

/-- The first thread that is not blocked. -/
theorem exists_first_free {queue : List Thread} (some : ∃ t ∈ queue, ¬ t.Blocked) :
    ∃ l t r, queue = l ++ t :: r ∧ (∀ x ∈ l, x.Blocked) ∧ ¬ t.Blocked := by
  induction queue with
  | nil =>
    obtain ⟨t, member, -⟩ := some
    cases member
  | cons y rest ih =>
    by_cases blocked : y.Blocked
    · obtain ⟨t, member, free⟩ := some
      have later : t ∈ rest := by
        rcases List.mem_cons.mp member with rfl | later
        · exact absurd blocked free
        · exact later
      obtain ⟨l, t, r, rfl, all, free⟩ := ih ⟨t, later, free⟩
      refine ⟨y :: l, t, r, rfl, ?_, free⟩
      intro x inside
      rcases List.mem_cons.mp inside with rfl | inside
      · exact blocked
      · exact all x inside
    · exact ⟨[], y, rest, rfl, fun x inside => absurd inside List.not_mem_nil, blocked⟩

/-- As many rolls as there are threads are enough, if some thread is not blocked. -/
theorem rollLoop_length {queue : List Thread} (some : ∃ t ∈ queue, ¬ t.Blocked) :
    ∃ queue' n, rollLoop queue.length queue 0 = .some (queue', n) ∧ queue'.Perm queue := by
  have perm := roll_perm queue
  obtain ⟨l, t, r, split, blocked, free⟩ := exists_first_free (show ∃ t ∈ roll queue, ¬ t.Blocked by
    obtain ⟨t, member, free⟩ := some
    exact ⟨t, perm.mem_iff.mpr member, free⟩)
  have length : l.length < queue.length := by
    rw [← perm.length_eq, split, List.length_append, List.length_cons]
    omega
  refine ⟨_, _, rollLoop_ends split blocked free length, ?_⟩
  rw [split] at perm
  have turned : ((t :: r) ++ l).Perm (l ++ t :: r) := List.perm_append_comm
  exact turned.trans perm

/-- The loop ends iff some thread is not blocked. -/
theorem rollEnds_iff {s : Blender} (some : s.queue ≠ []) : s.RollEnds ↔ ∃ t ∈ s.queue, ¬ t.Blocked := by
  constructor
  · rintro ⟨fuel, ends⟩
    by_contra all
    simp only [not_exists, not_and, not_not] at all
    exact ends (rollLoop_stuck some all fuel 0)
  · intro free
    obtain ⟨queue', n, ends, -⟩ := rollLoop_length free
    exact ⟨_, by rw [ends]; exact Option.some_ne_none _⟩

/-! ## The idle thread -/

/-- The thread is the idle thread, and nothing has blocked it. -/
structure Idle (id : Nat) (t : Thread) : Prop where
  id : t.id = id
  free : t.flags &&& tsBlocked = 0#16
  resolution : t.resolution = 0
  starter : t.starter = false

/-- The idle thread is in the queue, and nothing has blocked it. -/
def HasIdle (id : Nat) (queue : List Thread) : Prop := ∃ t ∈ queue, Idle id t

section Flags
variable {id : Nat} {t : Thread} {flags : BitVec 16}

theorem Idle.set (idle : Idle id t) (harmless : flags &&& tsBlocked = 0#16) : Idle id (t.set flags) := by
  refine ⟨idle.id, ?_, idle.resolution, idle.starter⟩
  unfold Thread.set
  dsimp only
  rw [BitVec.and_or_distrib_right, idle.free, harmless]
  rfl

theorem Idle.clear (idle : Idle id t) (flags : BitVec 16) : Idle id (t.clear flags) := by
  refine ⟨idle.id, ?_, idle.resolution, idle.starter⟩
  unfold Thread.clear
  rw [BitVec.and_assoc, BitVec.and_comm (~~~flags), ← BitVec.and_assoc, idle.free, BitVec.zero_and]

/-- No flag of the blocking ones is set. -/
theorem Idle.unset (idle : Idle id t) (among : tsBlocked &&& flags = flags) : t.flags &&& flags = 0#16 := by
  rw [← among, ← BitVec.and_assoc, idle.free, BitVec.zero_and]

theorem Idle.leave (idle : Idle id t) (timeDiv : Nat) : Idle id (leave timeDiv t) := by
  have kept := (idle.clear tsRunning).set (show tsPending &&& tsBlocked = 0#16 by decide)
  unfold Blender.leave
  dsimp only
  rw [if_neg (by simpa using kept.resolution)]
  exact kept

theorem Idle.enter (idle : Idle id t) : Idle id (enter t) := (idle.clear tsPending).set (by decide)

theorem Idle.wake (idle : Idle id t) : Idle id (wake t) := by
  unfold Blender.wake
  rw [if_neg (by simpa using idle.unset (show tsBlocked &&& tsSleep = tsSleep by decide))]
  exact idle

end Flags

section Queue
variable {id : Nat} {queue queue' : List Thread}

theorem HasIdle.perm (has : HasIdle id queue) (perm : queue'.Perm queue) : HasIdle id queue' := by
  obtain ⟨t, member, idle⟩ := has
  exact ⟨t, perm.mem_iff.mpr member, idle⟩

/-- A change of one thread keeps the idle thread, if it is another thread or it stays idle. -/
theorem HasIdle.modify (has : HasIdle id queue) {i : Nat} {f : Thread → Thread}
    (keep : ∀ t, queue[i]? = some t → Idle id t → Idle id (f t)) : HasIdle id (queue.modify i f) := by
  obtain ⟨t, member, idle⟩ := has
  obtain ⟨j, get⟩ := List.getElem?_of_mem member
  by_cases same : i = j
  · subst same
    refine ⟨f t, List.mem_of_getElem? (i := i) ?_, keep t get idle⟩
    rw [List.getElem?_modify_eq, get]
    rfl
  · refine ⟨t, List.mem_of_getElem? (i := j) ?_, idle⟩
    rw [List.getElem?_modify_ne _ _ same, get]

theorem HasIdle.map (has : HasIdle id queue) {f : Thread → Thread} (keep : ∀ t, Idle id t → Idle id (f t)) :
    HasIdle id (queue.map f) := by
  obtain ⟨t, member, idle⟩ := has
  exact ⟨f t, List.mem_map_of_mem member, keep t idle⟩

theorem HasIdle.append (has : HasIdle id queue) (rest : List Thread) : HasIdle id (queue ++ rest) := by
  obtain ⟨t, member, idle⟩ := has
  exact ⟨t, List.mem_append_left _ member, idle⟩

/-- `idle` removes only threads that are finished or had an exception. -/
theorem HasIdle.reap (has : HasIdle id queue) (fuel pos i : Nat) : HasIdle id (reap fuel queue pos i) := by
  induction fuel generalizing queue pos i with
  | zero => exact has
  | succ fuel ih =>
    unfold Blender.reap
    cases get : queue[pos]? with
    | none => exact has
    | some t =>
      dsimp only
      by_cases flagged : t.flags &&& (tsFinished ||| tsException) ≠ 0#16
      · have left : HasIdle id (queue.eraseIdx pos) := by
          obtain ⟨u, member, idle⟩ := has
          obtain ⟨j, get'⟩ := List.getElem?_of_mem member
          refine ⟨u, List.mem_eraseIdx_iff_getElem?.mpr ⟨j, ?_, get'⟩, idle⟩
          rintro rfl
          rw [get] at get'
          cases get'
          exact flagged (idle.unset (by decide))
        rw [if_pos flagged]
        split
        · exact ih left _ _
        · exact left
      · rw [if_neg flagged]
        split
        · exact ih has _ _
        · exact has

end Queue

/-! ## The calls keep the idle thread -/

section Steps
variable {s : Blender}

theorem HasIdle.rollEnds (has : HasIdle s.idleId s.queue) : ∃ t ∈ s.queue, ¬ t.Blocked := by
  obtain ⟨t, member, idle⟩ := has
  exact ⟨t, member, fun blocked => blocked idle.free⟩

/-- With an idle thread that can run, `switch_context` returns, and the idle thread can still run. -/
theorem switchContext_kept (has : HasIdle s.idleId s.queue) :
    ∃ t, s.switchContext = some t ∧ t.idleId = s.idleId ∧ HasIdle t.idleId t.queue := by
  obtain ⟨queue, n, ends, perm⟩ := rollLoop_length has.rollEnds
  unfold switchContext
  split
  · exact ⟨s, rfl, rfl, has⟩
  · rw [ends]
    dsimp only
    have rolled := has.perm perm
    split
    · refine ⟨_, rfl, rfl, ?_⟩
      exact (rolled.modify fun t _ idle => idle.leave s.timeDiv).modify fun t _ idle => idle.enter
    · exact ⟨_, rfl, rfl, rolled⟩

/-- A change of the running thread, when it is not the idle thread. -/
theorem running_kept (has : HasIdle s.idleId s.queue) (busy : s.Busy) (f : Thread → Thread) :
    ∃ t, s.running f = some t ∧ t.idleId = s.idleId ∧ HasIdle t.idleId t.queue := by
  refine switchContext_kept (s := { s with queue := s.queue.modify 0 f }) ?_
  refine has.modify ?_
  intro t get idle
  exact absurd idle.id (busy t (by rw [List.head?_eq_getElem?]; exact get))

/-- A change by id never is one of the idle thread. -/
theorem byId_kept (has : HasIdle s.idleId s.queue) (id : Nat) (f : Thread → Thread) :
    (s.byId id f).idleId = s.idleId ∧ HasIdle s.idleId (s.byId id f).queue := by
  unfold byId getThread
  by_cases other : id ≠ s.idleId
  · rw [if_pos other]
    cases found : s.queue.findIdx? fun t => t.id = id with
    | none => exact ⟨rfl, has⟩
    | some i =>
      refine ⟨rfl, has.modify ?_⟩
      intro t get idle
      obtain ⟨bound, same, -⟩ := List.findIdx?_eq_some_iff_getElem.mp found
      rw [List.getElem?_eq_getElem bound] at get
      cases get
      simp only [decide_eq_true_eq] at same
      exact absurd (same.symm.trans idle.id) other
  · rw [if_neg other]
    exact ⟨rfl, has⟩

/-- Every event that spares the idle thread returns and leaves it able to run. -/
theorem step_kept (has : HasIdle s.idleId s.queue) {e : Event} (spares : s.Spares e) :
    ∃ t, s.step e = some t ∧ t.idleId = s.idleId ∧ HasIdle t.idleId t.queue := by
  cases e with
  | switchContext => exact switchContext_kept has
  | timer =>
    refine switchContext_kept (s := { s with queue := _ }) ?_
    have counted : HasIdle s.idleId (s.queue.modify 0 fun t => { t with tmSched := (t.tmSched + 1) % 2 ^ 64 }) :=
      has.modify fun t _ idle => ⟨idle.id, idle.free, idle.resolution, idle.starter⟩
    exact counted.map fun t idle => idle.wake
  | exception exn => exact running_kept has spares _
  | breakpoint => exact running_kept has spares _
  | debug => exact running_kept has spares _
  | memoryException addr => exact running_kept has spares _
  | sleep countdown => exact running_kept has spares _
  | createSysthread stack suspend resolution =>
    refine ⟨_, rfl, ?_⟩
    unfold createSysthread
    split
    · exact ⟨rfl, has.append _⟩
    · exact ⟨rfl, has⟩
  | createUsrSysthread suspend resolution => exact ⟨_, rfl, rfl, has.append _⟩
  | terminate id => exact ⟨_, rfl, (byId_kept has id _).1, (byId_kept has id _).1 ▸ (byId_kept has id _).2⟩
  | sleepId id countdown => exact ⟨_, rfl, (byId_kept has id _).1, (byId_kept has id _).1 ▸ (byId_kept has id _).2⟩
  | suspend id => exact ⟨_, rfl, (byId_kept has id _).1, (byId_kept has id _).1 ▸ (byId_kept has id _).2⟩
  | resume id => exact ⟨_, rfl, (byId_kept has id _).1, (byId_kept has id _).1 ▸ (byId_kept has id _).2⟩
  | start =>
    refine ⟨_, rfl, rfl, has.modify ?_⟩
    intro t _ idle
    rw [if_neg (by rw [idle.starter]; decide)]
    exact idle
  | finish =>
    refine ⟨_, rfl, rfl, has.modify ?_⟩
    intro t _ idle
    rw [if_neg (by rw [idle.starter]; decide)]
    exact idle
  | idle =>
    refine ⟨_, rfl, ?_⟩
    unfold Blender.onIdle
    split
    · unfold Blender.idle
      split
      · exact ⟨rfl, has⟩
      · exact ⟨rfl, has.reap _ _ _⟩
    · exact ⟨rfl, has⟩
  | setTimeDiv div =>
    refine ⟨_, rfl, ?_⟩
    unfold setTimeDiv
    split <;> exact ⟨rfl, has⟩

/-- While nothing flags the idle thread, the roll loop ends in every state, and every event returns. -/
theorem roll_ends (reach : Reach Blender.step Blender.Spares Blender.init s) :
    s.RollEnds ∧ ∀ e, s.Spares e → ∃ t, s.step e = some t := by
  have kept : HasIdle s.idleId s.queue := by
    let Kept : Blender → Prop := fun s => HasIdle s.idleId s.queue
    have start : Kept Blender.init := ⟨idleThread 1, List.mem_singleton.mpr rfl, rfl, by decide, rfl, rfl⟩
    refine reach.invariant start ?_
    intro s e t has spares returns
    obtain ⟨t', same, -, left⟩ := step_kept has spares
    rw [returns] at same
    cases same
    exact left
  refine ⟨?_, ?_⟩
  · have free := kept.rollEnds
    obtain ⟨t, member, -⟩ := kept
    exact (rollEnds_iff (List.ne_nil_of_mem member)).mpr free
  · intro e spares
    obtain ⟨t, returns, -⟩ := step_kept kept spares
    exact ⟨t, returns⟩

end Steps

/-- A thread that sleeps after each turn is created, runs and asks for a longer sleep, and the idle thread runs again. -/
theorem roll_ends_two_threads : ∃ s, ((Blender.init.createSysthread true false 40).step .switchContext).bind
    (fun s => s.step (.sleep 100)) = some s ∧ s.queue.map Thread.id = [1, 2] ∧
      s.RollEnds ∧ ∀ e, s.Spares e → ∃ t, s.step e = some t := by
  have created : Reach Blender.step Blender.Spares Blender.init (Blender.init.createSysthread true false 40) :=
    (Reach.refl _).snoc (a := Event.createSysthread true false 40) trivial rfl
  obtain ⟨s₁, switched, busy⟩ : ∃ s₁, (Blender.init.createSysthread true false 40).step .switchContext = some s₁ ∧ s₁.Busy := by
    refine ⟨_, rfl, fun t first => ?_⟩
    cases first
    decide
  obtain ⟨s₂, slept, ids⟩ : ∃ s₂, ((Blender.init.createSysthread true false 40).step .switchContext).bind
      (fun s => s.step (.sleep 100)) = some s₂ ∧ s₂.queue.map Thread.id = [1, 2] := ⟨_, rfl, rfl⟩
  have sleeps := slept
  rw [switched, Option.bind_some] at sleeps
  have runs := created.snoc (a := Event.switchContext) trivial switched
  exact ⟨s₂, slept, ids, roll_ends (runs.snoc (a := Event.sleep 100) busy sleeps)⟩

/-- An exception of the idle thread when no other thread can run: the roll loop has no end. -/
theorem idle_exception_never_returns :
    Blender.init.step (.exception 13) = none ∧
      ¬ RollEnds { Blender.init with queue := [{ (idleThread 1).set tsException with exception := 13 }] } := by
  refine ⟨by decide, ?_⟩
  rw [rollEnds_iff (by decide)]
  decide

end Blender

end PreTeO.Sys
