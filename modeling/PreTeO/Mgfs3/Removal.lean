import PreTeO.Mgfs3.Passes

/-!
# Removing blocks

`inode_remove_block` turns entries of its places invalid, clears bits of the bitmap file it is handed and of the shadow, and
takes the number of removed units off `dunits` once per level. `Removal` is what a relation must allow for the code to pass
along it; `Prunes` is the closest such relation.
-/

namespace PreTeO.Mgfs3
set_option autoImplicit false
open PreTeO.Lib

/-! ## Entries -/

theorem entry_blit (m : Mem) (i j x : Nat) :
    entry (m.blit (4 * i) 4 (Mem.digit x)) j = if j = i then x % 2 ^ 32 else entry m j := by
  by_cases same : j = i
  · subst same
    rw [if_pos rfl]
    exact Mem.load_store m (4 * j) 4 x
  · rw [if_neg same]
    apply Mem.load_blit_out
    unfold Mem.Apart
    omega

/-- The state with an entry invalid. -/
def Volume.cut (v : Volume) (i : Nat) : Place → Volume
  | .locations ref =>
    { v with
      inodes := Function.update v.inodes ref
        { v.inodes ref with location := Function.update (v.inodes ref).location i invalidUnitNumber } }
  | .unit u =>
    { v with
      mem := Function.update v.mem u ((v.mem u).blit (4 * i) 4 (Mem.digit invalidUnitNumber))
      unsaved := Function.update v.unsaved u true }

theorem put_run (place : Place) (i : Nat) : place.put i invalidUnitNumber = Prog.modify fun v => v.cut i place := by
  cases place <;> rfl

/-- The entries of the place. -/
theorem table_cut (v : Volume) (place : Place) (i j : Nat) :
    place.table (v.cut i place) j = if j = i then invalidUnitNumber else place.table v j := by
  cases place with
  | locations ref =>
    simp only [Place.table, Volume.cut, Function.update_self]
    exact Function.update_apply _ _ _ _
  | unit u =>
    simp only [Place.table, Volume.cut, Function.update_self]
    exact entry_blit _ _ _ _

/-! ## The steps of a call -/

/-- What `removeTree` does after the call for the subtree. -/
def cleanTree (g : Growth) (hlock : Nat) (place : Place) (i base : Nat) (a : Nat × Bool) : M Unit := do
  dropUnits g.inode.ref a.1
  if a.2 then do
    let _ ← mgfsBitmapFree g.bitmap [base] hlock
    syncShadow g.bitmap g.shadow hlock [base]
    place.put i invalidUnitNumber
  else return ()

/-- What a call does with the buffer of its place at the end. -/
def leavePlace (unit r hlock : Nat) : M Unit :=
  if r ≠ 0 then do
    mgfsBufferWrite unit hlock
    mgfsBufferFree unit hlock
  else mgfsBufferFree unit hlock

theorem removeTree_eq (down : Nat → Nat → M (Nat × Bool)) (g : Growth) (hlock nblocks : Nat) (place : Place)
    (i base r : Nat) : removeTree down g hlock nblocks place i base r =
      down base (nblocks - r) >>= fun a => cleanTree g hlock place i base a >>= fun _ => pure (r + a.1) := by
  unfold removeTree cleanTree
  congr 1
  funext a
  obtain ⟨n, empty⟩ := a
  rw [Prog.bind_assoc]
  dsimp only
  apply congrArg (dropUnits g.inode.ref n >>= ·)
  funext _
  cases empty with
  | true => simp only [if_true, Prog.bind_assoc]
  | false => simp only [if_false, Prog.pure_bind, Bool.false_eq_true]

/-- A call for an address unit. -/
theorem removeAt_unit {down : Nat → Nat → M (Nat × Bool)} {g : Growth} {level hlock base nblocks : Nat} {v : Volume}
    (under : level ≠ (v.inodes g.inode.ref).level) : (removeAt down g level hlock base nblocks).run v =
      (mgfsBufferAlloc base hlock >>= fun hb =>
        match hb with
        | none => pure (0, true)
        | some unit =>
          removeLoop down g level hlock nblocks (.unit unit) (v.unitSize / 4) (v.unitSize / 4) 0 >>= fun a =>
            leavePlace unit a.1 hlock >>= fun _ => pure (a.1, decide (a.2 = 0))).run v := by
  unfold removeAt
  rw [Prog.bind_ok (Prog.run_get v), if_neg under]
  apply congrArg (fun m : M (Nat × Bool) => m.run v)
  congr 1
  funext hb
  cases hb with
  | none => rfl
  | some unit =>
    dsimp only
    congr 1
    funext a
    unfold leavePlace
    by_cases none : a.1 = 0
    · simp only [none, ne_eq, not_true_eq_false, if_false]
    · simp only [none, ne_eq, not_false_eq_true, if_true, Prog.bind_assoc]

/-- A call for the locations. -/
theorem removeAt_locations {down : Nat → Nat → M (Nat × Bool)} {g : Growth} {level hlock base nblocks : Nat} {v : Volume}
    (top : level = (v.inodes g.inode.ref).level) : (removeAt down g level hlock base nblocks).run v =
      (removeLoop down g level hlock nblocks (.locations g.inode.ref) maxLocationIndex maxLocationIndex 0 >>= fun a =>
        pure (a.1, decide (a.2 = 0))).run v := by
  unfold removeAt
  rw [Prog.bind_ok (Prog.run_get v), if_pos top]

/-! ## Along a relation -/

/-- A relation that lets the removal of blocks of an inode through. -/
structure Removal (R : Volume → Volume → Prop) (g : Growth) : Prop where
  bitmap : Tallies R g.bitmap.ref
  shadow : ∀ s, g.shadow = some s → Tallies R s.ref
  cut : ∀ v place i, R v (v.cut i place)
  drop : ∀ v n, R v { v with inodes := Function.update v.inodes g.inode.ref { v.inodes g.inode.ref with dunits := n } }

section Rules
variable {R : Volume → Volume → Prop} {g : Growth} {hlock : Nat}

theorem put_passes (removal : Removal R g) (place : Place) (i : Nat) (before : List Nat) :
    Passes R hlock before (place.put i invalidUnitNumber) fun _ => before := by
  rw [put_run]
  exact Passes.modify fun v => removal.cut v place i

theorem clearPlace_passes (removal : Removal R g) (place : Place) (n : Nat) : Quiet R hlock (clearPlace place n) := by
  induction n with
  | zero => exact Passes.pure removal.bitmap.toFrames () rfl
  | succ n ih =>
    apply Passes.bind removal.bitmap.toFrames ih
    intro _
    exact put_passes removal place n []

theorem dropUnits_passes (removal : Removal R g) (n : Nat) : Quiet R hlock (dropUnits g.inode.ref n) :=
  Passes.modify fun v => removal.drop v _

theorem removeData_passes (removal : Removal R g) (nblocks : Nat) (place : Place) (addrIdx r : Nat) :
    Quiet R hlock (removeData g hlock nblocks place addrIdx r) := by
  have frames := removal.bitmap.toFrames
  apply Passes.bind frames (Passes.get frames)
  intro v
  apply Passes.bind frames (bitmapFree_passes g.bitmap removal.bitmap _)
  intro n
  apply Passes.bind frames (dropUnits_passes removal n)
  intro _
  apply Passes.bind frames (syncShadow_passes frames g.bitmap g.shadow removal.shadow _)
  intro _
  apply Passes.bind frames (clearPlace_passes removal place _)
  intro _
  exact Passes.pure frames _ rfl

theorem cleanTree_passes (removal : Removal R g) (place : Place) (i base : Nat) (a : Nat × Bool) :
    Quiet R hlock (cleanTree g hlock place i base a) := by
  have frames := removal.bitmap.toFrames
  apply Passes.bind frames (dropUnits_passes removal a.1)
  intro _
  apply Passes.ite
  · intro _
    apply Passes.bind frames (bitmapFree_passes g.bitmap removal.bitmap _)
    intro _
    apply Passes.bind frames (syncShadow_passes frames g.bitmap g.shadow removal.shadow _)
    intro _
    exact put_passes removal place i []
  · intro _
    exact Passes.pure frames () rfl

theorem removeTree_passes (removal : Removal R g) {down : Nat → Nat → M (Nat × Bool)}
    (below : ∀ base n, Quiet R hlock (down base n)) (nblocks : Nat) (place : Place) (i base r : Nat) :
    Quiet R hlock (removeTree down g hlock nblocks place i base r) := by
  have frames := removal.bitmap.toFrames
  rw [removeTree_eq]
  apply Passes.bind frames (below base _)
  intro a
  apply Passes.bind frames (cleanTree_passes removal place i base a)
  intro _
  exact Passes.pure frames _ rfl

theorem removeLoop_passes (removal : Removal R g) {down : Nat → Nat → M (Nat × Bool)}
    (below : ∀ base n, Quiet R hlock (down base n)) (level nblocks : Nat) (place : Place) (fuel addrIdx r : Nat) :
    Quiet R hlock (removeLoop down g level hlock nblocks place fuel addrIdx r) := by
  have frames := removal.bitmap.toFrames
  induction fuel generalizing addrIdx r with
  | zero => exact Passes.pure frames _ rfl
  | succ fuel ih =>
    apply Passes.ite
    · intro _
      apply Passes.bind frames (Passes.get frames)
      intro v
      apply Passes.ite
      · intro _
        apply Passes.ite
        · intro _
          apply Passes.bind frames (removeTree_passes removal below nblocks place _ _ r)
          intro r'
          exact ih _ r'
        · intro _
          apply Passes.bind frames (removeData_passes removal nblocks place _ r)
          intro a
          exact ih _ _
      · intro _
        exact ih _ r
    · intro _
      exact Passes.pure frames _ rfl

theorem leavePlace_passes (frames : Frames R) (unit r : Nat) :
    Passes R hlock [unit] (leavePlace unit r hlock) fun _ => [] := by
  apply Passes.ite
  · intro _
    apply Passes.bind frames ((write_passes frames unit).beside [unit])
    intro _
    exact free_passes frames unit
  · intro _
    exact free_passes frames unit

theorem removeAt_passes (removal : Removal R g) {down : Nat → Nat → M (Nat × Bool)}
    (below : ∀ base n, Quiet R hlock (down base n)) (level base nblocks : Nat) :
    Quiet R hlock (removeAt down g level hlock base nblocks) := by
  have frames := removal.bitmap.toFrames
  intro v ready
  rw [holding_nil]
  by_cases top : level = (v.inodes g.inode.ref).level
  · rw [removeAt_locations top]
    have passes : Quiet R hlock (removeLoop down g level hlock nblocks (.locations g.inode.ref) maxLocationIndex
        maxLocationIndex 0 >>= fun a => pure (a.1, decide (a.2 = 0))) := by
      apply Passes.bind frames (removeLoop_passes removal below level nblocks _ _ _ _)
      intro a
      exact Passes.pure frames _ rfl
    simpa using passes v ready
  · rw [removeAt_unit top]
    have passes : Quiet R hlock (mgfsBufferAlloc base hlock >>= fun hb =>
        match hb with
        | none => pure (0, true)
        | some unit =>
          removeLoop down g level hlock nblocks (.unit unit) (v.unitSize / 4) (v.unitSize / 4) 0 >>= fun a =>
            leavePlace unit a.1 hlock >>= fun _ => pure (a.1, decide (a.2 = 0))) := by
      apply Passes.bind frames (alloc_passes frames base)
      intro hb
      cases hb with
      | none => exact Passes.pure frames _ rfl
      | some unit =>
        apply Passes.bind frames ((removeLoop_passes removal below level nblocks (.unit unit) _ _ 0).beside [unit])
        intro a
        apply Passes.bind frames (leavePlace_passes frames unit a.1)
        intro _
        exact Passes.pure frames _ rfl
    simpa using passes v ready

theorem inodeRemoveBlock_passes (removal : Removal R g) (level base nblocks : Nat) :
    Quiet R hlock (inodeRemoveBlock g hlock level base nblocks) := by
  induction level generalizing base nblocks with
  | zero =>
    apply removeAt_passes removal
    intro _ _
    exact Passes.pure removal.bitmap.toFrames _ rfl
  | succ level ih =>
    apply removeAt_passes removal
    exact ih

end Rules

end PreTeO.Mgfs3
