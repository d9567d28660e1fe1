import PreTeO.Mgfs3.InodeFile
import PreTeO.Mgfs3.BlockMap

/-!
# Handles and locks along a program

`Passes` says what a piece of code does with the resources it is handed: it returns, gives the lock back as it was,
and turns the buffer handles it starts with into those it returns. Its rules follow the code. The relation `R` is what
the code leaves alone besides: nothing for `Hold`, the marks for `Keep`, all but the bitmaps for `Calm`.
-/

namespace PreTeO.Mgfs3
set_option autoImplicit false
open PreTeO.Lib

/-- Nothing of the unit is waiting to be written. -/
def Volume.Saved (v : Volume) (unit : Nat) : Prop := v.unsaved unit = false ∧ v.disk unit = v.mem unit

/-- The volume is the same, with the lock and the usage counters as before. -/
structure Hold (v w : Volume) : Prop where
  unitSize : w.unitSize = v.unitSize
  shadow : w.shadow = v.shadow
  reads : w.reads = v.reads
  users : w.users = v.users
  held : w.held = v.held

/-- Besides, no unit that was saved is left unsaved. -/
structure Keep (v w : Volume) : Prop extends Hold v w where
  saved : ∀ unit, v.Saved unit → w.Saved unit

/-- Besides, no unit changed and no inode record but for the counter of used bits. -/
structure Calm (v w : Volume) : Prop extends Keep v w where
  mem : w.mem = v.mem
  inodes : ∀ ref, ∃ n, w.inodes ref = { v.inodes ref with nused := n }

/-- Nothing changed but what was marked for writing. -/
structure Frozen (v w : Volume) : Prop extends Keep v w where
  mem : w.mem = v.mem
  inodes : w.inodes = v.inodes
  bits : w.bits = v.bits

/-- Nothing changed but what was marked for writing, the bits of one bitmap file and its counter. -/
structure Recount (ref : Ref) (v w : Volume) : Prop extends Keep v w where
  mem : w.mem = v.mem
  bits : ∃ recs, w.bits = Function.update v.bits ref.idx recs
  inodes : ∃ n, w.inodes = Function.update v.inodes ref { v.inodes ref with nused := n }

/-- The state with some buffers in use besides. -/
def Volume.holding (v : Volume) (units : List Nat) : Volume :=
  { v with users := fun unit => v.users unit + units.count unit }

/-- A relation between states that does not look at the lock or the usage counters but to say that they stay. -/
structure Frames (R : Volume → Volume → Prop) : Prop where
  refl : ∀ v, R v v
  trans : ∀ u v w, R u v → R v w → R u w
  same : ∀ v w, R v w → Hold v w
  hold : ∀ v w users, R v w → R { v with users := users } { w with users := users }
  lock : ∀ v w held t t', R v w → R { v with held := held, tickets := t } { w with held := held, tickets := t' }
  mark : ∀ v unit, R v { v with
    disk := Function.update v.disk unit (v.mem unit), unsaved := Function.update v.unsaved unit false }
  store : ∀ v stored, R v { v with stored := stored }

/-- It does not look at the bits and the counter of a bitmap file either. -/
structure Tallies (R : Volume → Volume → Prop) (ref : Ref) : Prop extends Frames R where
  count : ∀ v recs n, R v { v with
    bits := Function.update v.bits ref.idx recs
    inodes := Function.update v.inodes ref { v.inodes ref with nused := n } }

theorem hold_frames : Frames Hold where
  refl _ := ⟨rfl, rfl, rfl, rfl, rfl⟩
  trans _ _ _ first second := ⟨second.unitSize.trans first.unitSize, second.shadow.trans first.shadow,
    second.reads.trans first.reads, second.users.trans first.users, second.held.trans first.held⟩
  same _ _ hold := hold
  hold _ _ _ hold := { hold with users := rfl, held := hold.held }
  lock _ _ _ _ _ hold := { hold with users := hold.users, held := rfl }
  mark _ _ := ⟨rfl, rfl, rfl, rfl, rfl⟩
  store _ _ := ⟨rfl, rfl, rfl, rfl, rfl⟩

theorem hold_tallies (ref : Ref) : Tallies Hold ref := ⟨hold_frames, fun _ _ _ => ⟨rfl, rfl, rfl, rfl, rfl⟩⟩

theorem Saved.mark {v : Volume} (unit u : Nat) (saved : v.Saved u) :
    Volume.Saved { v with
      disk := Function.update v.disk unit (v.mem unit), unsaved := Function.update v.unsaved unit false } u := by
  unfold Volume.Saved at saved ⊢
  by_cases same : u = unit
  · subst same
    simp
  · simpa [same] using saved

theorem keep_frames : Frames Keep where
  refl v := ⟨hold_frames.refl v, fun _ saved => saved⟩
  trans u v w first second :=
    ⟨hold_frames.trans u v w first.toHold second.toHold, fun unit saved => second.saved unit (first.saved unit saved)⟩
  same _ _ keep := keep.toHold
  hold v w users keep := ⟨hold_frames.hold v w users keep.toHold, keep.saved⟩
  lock v w held t t' keep := ⟨hold_frames.lock v w held t t' keep.toHold, keep.saved⟩
  mark v unit := ⟨hold_frames.mark v unit, Saved.mark unit⟩
  store v stored := ⟨hold_frames.store v stored, fun _ saved => saved⟩

theorem keep_tallies (ref : Ref) : Tallies Keep ref :=
  ⟨keep_frames, fun v recs n => ⟨(hold_tallies ref).count v recs n, fun _ saved => saved⟩⟩

theorem calm_frames : Frames Calm where
  refl v := ⟨keep_frames.refl v, rfl, fun ref => ⟨(v.inodes ref).nused, rfl⟩⟩
  trans u v w first second := by
    refine ⟨keep_frames.trans u v w first.toKeep second.toKeep, second.mem.trans first.mem, fun ref => ?_⟩
    obtain ⟨n, same⟩ := first.inodes ref
    obtain ⟨m, same'⟩ := second.inodes ref
    exact ⟨m, by rw [same', same]⟩
  same _ _ calm := calm.toHold
  hold v w users calm := ⟨keep_frames.hold v w users calm.toKeep, calm.mem, calm.inodes⟩
  lock v w held t t' calm := ⟨keep_frames.lock v w held t t' calm.toKeep, calm.mem, calm.inodes⟩
  mark v unit := ⟨keep_frames.mark v unit, rfl, fun ref => ⟨(v.inodes ref).nused, rfl⟩⟩
  store v stored := ⟨keep_frames.store v stored, rfl, fun ref => ⟨(v.inodes ref).nused, rfl⟩⟩

theorem calm_tallies (ref : Ref) : Tallies Calm ref := by
  refine ⟨calm_frames, fun v recs n => ⟨(keep_tallies ref).count v recs n, rfl, fun r => ?_⟩⟩
  by_cases same : r = ref
  · subst same
    exact ⟨n, by simp⟩
  · exact ⟨(v.inodes r).nused, by simp [same]⟩

theorem frozen_frames : Frames Frozen where
  refl v := ⟨keep_frames.refl v, rfl, rfl, rfl⟩
  trans u v w first second := ⟨keep_frames.trans u v w first.toKeep second.toKeep, second.mem.trans first.mem,
    second.inodes.trans first.inodes, second.bits.trans first.bits⟩
  same _ _ frozen := frozen.toHold
  hold v w users frozen := ⟨keep_frames.hold v w users frozen.toKeep, frozen.mem, frozen.inodes, frozen.bits⟩
  lock v w held t t' frozen := ⟨keep_frames.lock v w held t t' frozen.toKeep, frozen.mem, frozen.inodes, frozen.bits⟩
  mark v unit := ⟨keep_frames.mark v unit, rfl, rfl, rfl⟩
  store v stored := ⟨keep_frames.store v stored, rfl, rfl, rfl⟩

theorem recount_frames (ref : Ref) : Frames (Recount ref) where
  refl v := ⟨keep_frames.refl v, rfl, ⟨v.bits ref.idx, by simp⟩, (v.inodes ref).nused, by simp⟩
  trans u v w first second := by
    obtain ⟨recs, bits⟩ := first.bits
    obtain ⟨n, inodes⟩ := first.inodes
    obtain ⟨recs', bits'⟩ := second.bits
    obtain ⟨n', inodes'⟩ := second.inodes
    refine ⟨keep_frames.trans u v w first.toKeep second.toKeep, second.mem.trans first.mem, ⟨recs', ?_⟩, n', ?_⟩
    · rw [bits', bits, Function.update_idem]
    · rw [inodes', inodes, Function.update_idem, Function.update_self]
  same _ _ moved := moved.toHold
  hold v w users moved := ⟨keep_frames.hold v w users moved.toKeep, moved.mem, moved.bits, moved.inodes⟩
  lock v w held t t' moved := ⟨keep_frames.lock v w held t t' moved.toKeep, moved.mem, moved.bits, moved.inodes⟩
  mark v unit := ⟨keep_frames.mark v unit, rfl, ⟨v.bits ref.idx, by simp⟩, (v.inodes ref).nused, by simp⟩
  store v stored := ⟨keep_frames.store v stored, rfl, ⟨v.bits ref.idx, by simp⟩, (v.inodes ref).nused, by simp⟩

theorem recount_tallies (ref : Ref) : Tallies (Recount ref) ref :=
  ⟨recount_frames ref, fun v recs n => ⟨(keep_tallies ref).count v recs n, rfl, ⟨recs, rfl⟩, n, rfl⟩⟩

theorem Frozen.calm {v w : Volume} (frozen : Frozen v w) : Calm v w :=
  ⟨frozen.toKeep, frozen.mem, fun ref => ⟨(v.inodes ref).nused, by rw [frozen.inodes]⟩⟩

/-! ## Rules -/

/-- With the lock free or held with the handle passed, and the buffers `before` in use, the code returns; then the
buffers `after` are in use, and all else moved along `R`. -/
def Passes {A : Type} (R : Volume → Volume → Prop) (hlock : Nat) (before : List Nat) (m : M A) (after : A → List Nat) :
    Prop :=
  ∀ v, Ready hlock v → ∃ a w, m.run (v.holding before) = .ok (a, w) ∧ R (v.holding (after a)) w

/-- The code starts and ends without buffers. -/
abbrev Quiet {A : Type} (R : Volume → Volume → Prop) (hlock : Nat) (m : M A) : Prop := Passes R hlock [] m fun _ => []

@[simp] theorem holding_nil (v : Volume) : v.holding [] = v := by
  simp [Volume.holding]

theorem holding_holding (v : Volume) (l k : List Nat) : (v.holding l).holding k = v.holding (l ++ k) := by
  simp [Volume.holding, List.count_append, Nat.add_assoc]

theorem holding_perm {l k : List Nat} (perm : l.Perm k) (v : Volume) : v.holding l = v.holding k := by
  simp only [Volume.holding, perm.count_eq]

theorem Hold.ready {v w : Volume} {hlock : Nat} (hold : Hold v w) (ready : Ready hlock v) : Ready hlock w := by
  unfold Ready at ready ⊢
  rw [hold.held]
  exact ready

/-- Code between lock and unlock, run in a state in which the lock is held. -/
theorem locked_run {A : Type} {hlock : Nat} {body : Nat → M A} {v : Volume} {P : A → Volume → Prop}
    (ready : Ready hlock v)
    (inside : ∀ g depth t, ∃ a w, (body g).run { v with held := some ⟨g, depth + 1⟩, tickets := t } = .ok (a, w) ∧
      w.held = some ⟨g, depth + 1⟩ ∧ P a { w with held := v.held }) :
    ∃ a w, (locked hlock body).run v = .ok (a, w) ∧ P a w := by
  unfold locked
  rcases ready with free | ⟨depth, mine⟩
  · obtain ⟨a, w, run, held, post⟩ := inside (v.tickets + 1) 0 (v.tickets + 1)
    have lock : (mgfsLock hlock).run v =
        .ok (v.tickets + 1, { v with held := some ⟨v.tickets + 1, 0 + 1⟩, tickets := v.tickets + 1 }) := by
      simp [mgfsLock, Prog.run_bind, free]
    have unlock : (mgfsUnlock (v.tickets + 1)).run w = .ok ((), { w with held := v.held }) := by
      simp [mgfsUnlock, held, free]
    refine ⟨a, _, ?_, post⟩
    rw [Prog.bind_ok lock, Prog.bind_ok run, Prog.bind_ok unlock]
    rfl
  · obtain ⟨a, w, run, held, post⟩ := inside hlock (depth + 1) v.tickets
    have lock : (mgfsLock hlock).run v = .ok (hlock, { v with held := some ⟨hlock, depth + 1 + 1⟩, tickets := v.tickets }) := by
      simp [mgfsLock, Prog.run_bind, mine]
    have unlock : (mgfsUnlock hlock).run w = .ok ((), { w with held := v.held }) := by
      simp [mgfsUnlock, held, mine]
    refine ⟨a, _, ?_, post⟩
    rw [Prog.bind_ok lock, Prog.bind_ok run, Prog.bind_ok unlock]
    rfl

namespace Passes

variable {A B : Type} {R : Volume → Volume → Prop} {hlock : Nat} {before : List Nat} {m m' : M A} {f : A → M B}
  {after : A → List Nat} {last : B → List Nat}

/-- A state that is related to one with buffers in use has them in use. -/
theorem unhold (frames : Frames R) {v w : Volume} {l : List Nat} (moved : R (v.holding l) w) :
    ∃ u, w = u.holding l ∧ R v u := by
  have users := (frames.same _ _ moved).users
  refine ⟨{ w with users := v.users }, ?_, ?_⟩
  · cases w
    simp_all [Volume.holding]
  · exact frames.hold (v.holding l) w v.users moved

/-- Buffers in use besides stay in use. -/
theorem holding (frames : Frames R) {v w : Volume} (moved : R v w) (l : List Nat) : R (v.holding l) (w.holding l) := by
  have same : w.holding l = { w with users := (v.holding l).users } := by
    simp only [Volume.holding, (frames.same _ _ moved).users]
  rw [same]
  exact frames.hold v w (v.holding l).users moved

/-- What is known of a run that is known otherwise. -/
theorem of_run (passes : Passes R hlock before m after) {v w : Volume} {a : A} (ready : Ready hlock v)
    (run : m.run (v.holding before) = .ok (a, w)) : R (v.holding (after a)) w := by
  obtain ⟨a', w', run', moved⟩ := passes v ready
  rw [run] at run'
  cases run'
  exact moved

theorem pure (frames : Frames R) (a : A) (same : after a = before) : Passes R hlock before (pure a) after :=
  fun v _ => ⟨a, v.holding before, rfl, by rw [same]; exact frames.refl _⟩

theorem bind (frames : Frames R) (first : Passes R hlock before m after)
    (next : ∀ a, Passes R hlock (after a) (f a) last) : Passes R hlock before (m >>= f) last := by
  intro v ready
  obtain ⟨a, w, run, moved⟩ := first v ready
  obtain ⟨u, rfl, moved'⟩ := unhold frames moved
  obtain ⟨b, x, run', moved''⟩ := next a u ((frames.same _ _ moved').ready ready)
  exact ⟨b, x, by rw [Prog.bind_ok run, run'], frames.trans _ _ _ (holding frames moved' (last b)) moved''⟩

theorem ite {c : Prop} [Decidable c] (yes : c → Passes R hlock before m after)
    (no : ¬ c → Passes R hlock before m' after) : Passes R hlock before (if c then m else m') after := by
  split
  · next holds => exact yes holds
  · next fails => exact no fails

theorem get (frames : Frames R) : Passes R hlock before Prog.get fun _ => before :=
  fun v _ => ⟨_, _, rfl, frames.refl (v.holding before)⟩

theorem modify {g : Volume → Volume} (moved : ∀ v, R v (g v)) : Passes R hlock before (Prog.modify g) fun _ => before :=
  fun v _ => ⟨(), _, rfl, moved (v.holding before)⟩

/-- Buffers in use besides, before and after. -/
theorem beside (passes : Passes R hlock before m after) (l : List Nat) :
    Passes R hlock (before ++ l) m fun a => after a ++ l := by
  intro v ready
  obtain ⟨a, w, run, moved⟩ := passes (v.holding l) ready
  refine ⟨a, w, ?_, ?_⟩
  · rw [holding_perm List.perm_append_comm, ← holding_holding]
    exact run
  · rw [holding_perm List.perm_append_comm, ← holding_holding]
    exact moved

/-- Code between lock and unlock gets the handle of the lock. -/
theorem locked (frames : Frames R) {body : Nat → M A} (inside : ∀ g, Passes R g before (body g) after) :
    Passes R hlock before (locked hlock body) after := by
  intro v ready
  refine locked_run (P := fun a w => R (v.holding (after a)) w) (v := v.holding before) ready ?_
  intro g depth t
  obtain ⟨a, w, run, moved⟩ := inside g { v with held := some ⟨g, depth + 1⟩, tickets := t } (Or.inr ⟨depth, rfl⟩)
  exact ⟨a, w, run, (frames.same _ _ moved).held, frames.lock _ _ v.held v.tickets w.tickets moved⟩

end Passes

/-! ## Buffers -/

section Buffers
variable {R : Volume → Volume → Prop} {hlock : Nat}

theorem alloc_passes (frames : Frames R) (unit : Nat) : Passes R hlock [] (mgfsBufferAlloc unit hlock) Option.toList := by
  apply Passes.locked frames
  intro g v _
  cases reads : v.reads unit with
  | false =>
    refine ⟨none, v, ?_, ?_⟩
    · simp [Prog.run_bind, reads]
    · simpa using frames.refl v
  | true =>
    refine ⟨some unit, v.holding [unit], ?_, frames.refl _⟩
    have users : Function.update v.users unit (v.users unit + 1) = fun u => v.users u + List.count u [unit] := by
      funext u
      by_cases same : u = unit
      · subst same
        simp
      · simp [same, Ne.symm same, List.count_singleton]
    simp [Prog.run_bind, reads, Volume.holding, users]

theorem free_passes (frames : Frames R) (unit : Nat) :
    Passes R hlock [unit] (mgfsBufferFree unit hlock) fun _ => [] := by
  apply Passes.locked frames
  intro g v _
  refine ⟨(), v, ?_, by simpa using frames.refl v⟩
  have users : Function.update (v.holding [unit]).users unit ((v.holding [unit]).users unit - 1) = v.users := by
    funext u
    by_cases same : u = unit
    · subst same
      simp [Volume.holding]
    · simp [Volume.holding, same, Ne.symm same, List.count_singleton]
  rw [Prog.run_modify, users]
  rfl

theorem release_passes (frames : Frames R) (hb : Option Nat) :
    Passes R hlock hb.toList (mgfsBufferRelease hb hlock) fun _ => [] := by
  cases hb with
  | none => exact Passes.pure frames () rfl
  | some unit => exact free_passes frames unit

theorem write_passes (frames : Frames R) (unit : Nat) : Quiet R hlock (mgfsBufferWrite unit hlock) := by
  apply Passes.locked frames
  intro g
  exact Passes.modify fun v => frames.mark v unit

theorem alloc_run {v : Volume} (ready : Ready hlock v) (unit : Nat) :
    ∃ w, (mgfsBufferAlloc unit hlock).run v = .ok (if v.reads unit then some unit else none, w) := by
  cases reads : v.reads unit with
  | true =>
    obtain ⟨w, run, -⟩ := mgfsBufferAlloc_some ready reads
    exact ⟨w, run⟩
  | false =>
    obtain ⟨w, run, -⟩ := mgfsBufferAlloc_none ready reads
    exact ⟨w, run⟩

/-! ## Handles of inodes -/

theorem list_passes (frames : Frames R) (ref : Ref) (first count : Nat) :
    Quiet R hlock (mgfsInodeListDunit ref first count hlock) := by
  intro v ready
  rw [holding_nil]
  obtain ⟨w, run, t, rfl⟩ := mgfsInodeListDunit_spec ready ref first count
  refine ⟨_, _, run, ?_⟩
  rw [holding_nil]
  exact frames.lock v v v.held v.tickets t (frames.refl v)

theorem readBlock_passes (frames : Frames R) (ref : Ref) (block : Nat) :
    Passes R hlock [] (mgfsInodeReadBlock ref block hlock) Option.toList := by
  apply Passes.bind frames (list_passes frames ref block 1)
  intro out
  split
  · exact alloc_passes frames _
  · exact Passes.pure frames none rfl

theorem readRecord_passes (frames : Frames R) (ref : Ref) (number : Nat) :
    Passes R hlock [] (readRecord ref number hlock) Option.toList := by
  apply Passes.bind frames (Passes.get frames)
  intro v
  apply Passes.ite
  · intro _
    exact readBlock_passes frames ref _
  · intro _
    exact Passes.pure frames none rfl

/-- The buffer behind a handle there may not be. -/
def handleUnits (h : Option InodeHandle) : List Nat := (h.bind InodeHandle.hb).toList

theorem metaOpen_passes (frames : Frames R) (idx : Nat) :
    Passes R hlock [] (mgfsInodeMetaOpen idx hlock) handleUnits := by
  apply Passes.bind frames (readRecord_passes frames .superblock idx)
  intro hb
  cases hb with
  | none => exact Passes.pure frames none rfl
  | some unit => exact Passes.pure frames _ rfl

theorem metaOpen_ref {v w : Volume} {idx : Nat} {handle : InodeHandle}
    (opened : (mgfsInodeMetaOpen idx hlock).run v = .ok (some handle, w)) :
    handle.ref = .member idx := by
  obtain ⟨hb, v₁, _, rest⟩ := Prog.bind_eq_ok opened
  cases hb with
  | none => cases rest
  | some unit =>
    cases rest
    rfl

theorem openShadow_ref {v w : Volume} {idx : Nat} {handle : InodeHandle}
    (opened : (openShadow idx hlock).run v = .ok (some handle, w)) :
    handle.ref = .member idx := by
  obtain ⟨u, v₁, _, rest⟩ := Prog.bind_eq_ok opened
  split at rest
  · exact metaOpen_ref rest
  · cases rest

theorem close_passes (frames : Frames R) (h : InodeHandle) :
    Passes R hlock h.hb.toList (mgfsInodeClose h hlock) fun _ => [] :=
  release_passes frames h.hb

theorem update_passes (frames : Frames R) (h : InodeHandle) : Quiet R hlock (mgfsInodeUpdate h hlock) := by
  unfold mgfsInodeUpdate
  split
  · exact Passes.pure frames () rfl
  · apply Passes.bind frames (write_passes frames _)
    intro _
    exact Passes.modify fun v => frames.store v _

/-- The unit `mgfs_inode_read_block` returns the buffer of. -/
def Volume.blockUnit (v : Volume) (ref : Ref) (block : Nat) : Option Nat :=
  match inodeListDunit v.dev v.unitSize (v.inodes ref) block 1 with
  | [unit] => if v.reads unit then some unit else none
  | _ => none

theorem blockUnit_congr {v w : Volume} {ref : Ref} (unitSize : w.unitSize = v.unitSize) (reads : w.reads = v.reads)
    (mem : w.mem = v.mem) (record : ∃ n, w.inodes ref = { v.inodes ref with nused := n }) (block : Nat) :
    w.blockUnit ref block = v.blockUnit ref block := by
  obtain ⟨n, same⟩ := record
  have dev : w.dev = v.dev := by
    funext unit
    simp [Volume.dev, reads, mem]
  unfold Volume.blockUnit
  rw [dev, unitSize, reads, same]
  rfl

theorem readBlock_run {v : Volume} (ready : Ready hlock v) (ref : Ref) (block : Nat) :
    ∃ w, (mgfsInodeReadBlock ref block hlock).run v = .ok (v.blockUnit ref block, w) ∧
      Frozen (v.holding (v.blockUnit ref block).toList) w := by
  obtain ⟨w₁, list, t, rfl⟩ := mgfsInodeListDunit_spec ready ref block 1
  obtain ⟨w, run⟩ : ∃ w, (mgfsInodeReadBlock ref block hlock).run v = .ok (v.blockUnit ref block, w) := by
    unfold mgfsInodeReadBlock
    rw [Prog.bind_ok list]
    unfold Volume.blockUnit
    generalize inodeListDunit v.dev v.unitSize (v.inodes ref) block 1 = out
    rcases out with _ | ⟨unit, _ | ⟨_, _⟩⟩
    · exact ⟨_, rfl⟩
    · exact alloc_run (v := { v with tickets := t }) ready unit
    · exact ⟨_, rfl⟩
  refine ⟨w, run, (readBlock_passes frozen_frames ref block).of_run ready ?_⟩
  rw [holding_nil]
  exact run

/-! ## Bitmaps -/

theorem bitmapRecord_passes (frames : Frames R) (h : InodeHandle) (bitNumber : Nat) :
    Passes R hlock [] (bitmapRecord h bitNumber hlock) Option.toList := by
  apply Passes.bind frames (Passes.get frames)
  intro v
  apply Passes.ite
  · intro _
    apply Passes.ite
    · intro _
      exact readBlock_passes frames h.ref _
    · intro _
      exact Passes.pure frames none rfl
  · intro _
    exact Passes.pure frames none rfl

theorem bitmapSet_passes (h : InodeHandle) (tallies : Tallies R h.ref) (bitNumber : Nat) (state : Bool) :
    Quiet R hlock (mgfsBitmapSet h bitNumber state hlock) := by
  have frames := tallies.toFrames
  apply Passes.bind frames (bitmapRecord_passes frames h bitNumber)
  intro hb
  cases hb with
  | none => exact Passes.pure frames false rfl
  | some hb =>
    apply Passes.locked frames
    intro lock
    apply Passes.bind frames (Passes.get frames)
    intro v
    have frees : Passes R lock [hb] (do mgfsBufferFree hb lock; pure true) fun _ => [] := by
      apply Passes.bind frames (free_passes frames hb)
      intro _
      exact Passes.pure frames true rfl
    apply Passes.ite
    · intro _
      apply Passes.bind frames (Passes.modify fun v => tallies.count v _ _)
      intro _
      apply Passes.bind frames ((write_passes frames hb).beside [hb])
      intro _
      apply Passes.bind frames ((update_passes frames h).beside [hb])
      intro _
      exact frees
    · intro _
      exact frees

theorem bitmapSetArray_passes (h : InodeHandle) (tallies : Tallies R h.ref) (state : Bool) (array : List Nat) :
    Quiet R hlock (mgfsBitmapSetArray h state hlock array) := by
  have frames := tallies.toFrames
  induction array with
  | nil => exact Passes.pure frames 0 rfl
  | cons x rest ih =>
    apply Passes.ite
    · intro _
      apply Passes.bind frames (bitmapSet_passes h tallies x state)
      intro _
      apply Passes.bind frames ih
      intro r
      exact Passes.pure frames _ rfl
    · intro _
      exact ih

theorem bitmapFree_passes (h : InodeHandle) (tallies : Tallies R h.ref) (array : List Nat) :
    Quiet R hlock (mgfsBitmapFree h array hlock) :=
  bitmapSetArray_passes h tallies false array

theorem bitmapSync_passes (h hshadow : InodeHandle) (tallies : Tallies R hshadow.ref) (array : List Nat) :
    Quiet R hlock (mgfsBitmapSync h hshadow hlock array) := by
  have frames := tallies.toFrames
  induction array with
  | nil => exact Passes.pure frames () rfl
  | cons x rest ih =>
    apply Passes.ite
    · intro _
      apply Passes.bind frames (bitmapRecord_passes frames h x)
      intro hb
      cases hb with
      | none => exact ih
      | some hb =>
        have inside : Passes R hlock [hb] (locked hlock fun lock => do
            let v ← Prog.get
            let _ ← mgfsBitmapSet hshadow x (v.bit h.ref x) lock
            mgfsBufferFree hb lock) fun _ => [] := by
          apply Passes.locked frames
          intro lock
          apply Passes.bind frames (Passes.get frames)
          intro v
          apply Passes.bind frames ((bitmapSet_passes hshadow tallies x _).beside [hb])
          intro _
          exact free_passes frames hb
        apply Passes.bind frames inside
        intro _
        exact ih
    · intro _
      exact ih

theorem syncShadow_passes (frames : Frames R) (h : InodeHandle) (hshadow : Option InodeHandle)
    (tallies : ∀ s, hshadow = some s → Tallies R s.ref) (array : List Nat) :
    Quiet R hlock (syncShadow h hshadow hlock array) := by
  cases hshadow with
  | none => exact Passes.pure frames () rfl
  | some s => exact bitmapSync_passes h s (tallies s rfl) array

theorem openShadow_passes (frames : Frames R) (idx : Nat) :
    Passes R hlock [] (openShadow idx hlock) handleUnits := by
  apply Passes.bind frames (Passes.get frames)
  intro v
  apply Passes.ite
  · intro _
    exact metaOpen_passes frames idx
  · intro _
    exact Passes.pure frames none rfl

theorem closeShadow_passes (frames : Frames R) (hshadow : Option InodeHandle) :
    Passes R hlock (handleUnits hshadow) (closeShadow hshadow hlock) fun _ => [] := by
  cases hshadow with
  | none => exact Passes.pure frames () rfl
  | some s => exact close_passes frames s

end Buffers

end PreTeO.Mgfs3
