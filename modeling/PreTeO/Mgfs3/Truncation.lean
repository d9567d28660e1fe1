import PreTeO.Mgfs3.BlockTree
import PreTeO.Mgfs3.BitmapAlloc

/-!
# Truncation

`mgfs_inode_truncate` hands the inode bitmap to the removal in place of the space bitmap. So no unit of the file becomes
free; and where it removes units all the same, the first block of a leaf is lost. What is left are the truncations that have
no unit to remove.
-/

namespace PreTeO.Mgfs3
set_option autoImplicit false
open PreTeO.Lib

abbrev inodeBitmap : Ref := .member inodeBitmapIdx
abbrev inodeShadow : Ref := .member inodeBitmapShadowIdx

/-! ## What removal leaves alone -/

/-- Entries became invalid, and the bitmap files in `S` changed. -/
structure Prunes (ref : Ref) (S : Nat → Prop) (v w : Volume) : Prop extends Hold v w where
  bits : ∀ idx, ¬ S idx → w.bits idx = v.bits idx
  mem : ∀ unit, Cut (entry (v.mem unit)) (entry (w.mem unit))
  level : (w.inodes ref).level = (v.inodes ref).level
  location : ∀ r, Cut (v.inodes r).location (w.inodes r).location

section Prunes
variable {ref : Ref} {S : Nat → Prop} {u v w : Volume} {g : Growth} {hlock : Nat}

theorem prunes_frames (ref : Ref) (S : Nat → Prop) : Frames (Prunes ref S) where
  refl v := ⟨hold_frames.refl v, fun _ _ => rfl, fun _ => Cut.refl _, rfl, fun _ => Cut.refl _⟩
  trans u v w first second := ⟨hold_frames.trans u v w first.toHold second.toHold,
    fun idx other => (second.bits idx other).trans (first.bits idx other),
    fun unit => (first.mem unit).trans (second.mem unit), second.level.trans first.level,
    fun r => (first.location r).trans (second.location r)⟩
  same _ _ moved := moved.toHold
  hold v w users moved := ⟨hold_frames.hold v w users moved.toHold, moved.bits, moved.mem, moved.level, moved.location⟩
  lock v w held t t' moved :=
    ⟨hold_frames.lock v w held t t' moved.toHold, moved.bits, moved.mem, moved.level, moved.location⟩
  mark v unit := ⟨hold_frames.mark v unit, fun _ _ => rfl, fun _ => Cut.refl _, rfl, fun _ => Cut.refl _⟩
  store v stored := ⟨hold_frames.store v stored, fun _ _ => rfl, fun _ => Cut.refl _, rfl, fun _ => Cut.refl _⟩

/-- A record whose level stays and whose locations are cut. -/
theorem prunes_update (v : Volume) (r : Ref) {record : Inode} (level : record.level = (v.inodes r).level)
    (location : Cut (v.inodes r).location record.location) :
    Prunes ref S v { v with inodes := Function.update v.inodes r record } := by
  refine ⟨⟨rfl, rfl, rfl, rfl, rfl⟩, fun _ _ => rfl, fun _ => Cut.refl _, ?_, fun r' => ?_⟩
  · by_cases same : ref = r
    · subst same
      simpa using level
    · simp [same]
  · by_cases same : r' = r
    · subst same
      simpa using location
    · simpa [same] using Cut.refl _

theorem prunes_tallies {r : Ref} (inside : S r.idx) : Tallies (Prunes ref S) r := by
  refine ⟨prunes_frames ref S, fun v recs n => ?_⟩
  have record : Prunes ref S v { v with inodes := Function.update v.inodes r { v.inodes r with nused := n } } :=
    prunes_update v r rfl (Cut.refl _)
  refine ⟨⟨rfl, rfl, rfl, rfl, rfl⟩, fun idx other => ?_, record.mem, record.level, record.location⟩
  have ne : idx ≠ r.idx := by
    rintro rfl
    exact other inside
  simp [ne]

theorem prunes_cut (v : Volume) (place : Place) (i : Nat) : Prunes ref S v (v.cut i place) := by
  cases place with
  | locations r =>
    apply prunes_update
    · rfl
    · intro j
      by_cases same : j = i <;> simp [same]
  | unit a =>
    refine ⟨⟨rfl, rfl, rfl, rfl, rfl⟩, fun _ _ => rfl, fun unit => ?_, rfl, fun _ => Cut.refl _⟩
    by_cases same : unit = a
    · subst same
      intro j
      simp only [Volume.cut, Function.update_self, entry_blit]
      by_cases here : j = i
      · exact Or.inr (if_pos here)
      · exact Or.inl (if_neg here)
    · simpa [Volume.cut, same] using Cut.refl _

theorem prunes_removal (ref : Ref) (bitmap : S g.bitmap.ref.idx) (shadow : ∀ s, g.shadow = some s → S s.ref.idx) :
    Removal (Prunes ref S) g :=
  ⟨prunes_tallies bitmap, fun s is => prunes_tallies (shadow s is), prunes_cut,
    fun v _ => prunes_update v g.inode.ref rfl (Cut.refl _)⟩

theorem Prunes.table (moved : Prunes ref S v w) (place : Place) : Cut (place.table v) (place.table w) := by
  cases place with
  | locations r => exact moved.location r
  | unit a => exact moved.mem a

theorem Prunes.units (moved : Prunes ref S v w) : CutUnits v.dev w.dev := by
  intro a m' read
  obtain ⟨reads, same⟩ := Option.ite_none_right_eq_some.1 read
  obtain rfl := Option.some.inj same
  rw [moved.reads] at reads
  exact ⟨v.mem a, if_pos reads, moved.mem a⟩

end Prunes

/-! ## What removal loses -/

/-- A block below the place is lost that is not behind one there was. -/
def Lost (v w : Volume) (l : Nat) (place : Place) (c : Nat) : Prop :=
  ∃ f b u, b ≤ f ∧ unitAt v.dev (v.unitSize / 4) l (place.table v) c f = some u ∧
    unitAt w.dev (w.unitSize / 4) l (place.table w) c b = none

section Lost
variable {ref : Ref} {S : Nat → Prop} {u v w : Volume} {g : Growth} {hlock l c : Nat} {place : Place}

/-- What is lost stays lost. -/
theorem Lost.later (lost : Lost u v l place c) (moved : Prunes ref S v w) : Lost u w l place c := by
  obtain ⟨f, b, a, le, before, after⟩ := lost
  refine ⟨f, b, a, le, before, ?_⟩
  cases found : unitAt w.dev (w.unitSize / 4) l (place.table w) c b with
  | none => rfl
  | some x =>
    rw [moved.unitSize] at found
    rw [unitAt_cut moved.units (moved.table place) found] at after
    cases after

theorem Lost.earlier (moved : Prunes ref S u v) (lost : Lost v w l place c) : Lost u w l place c := by
  obtain ⟨f, b, a, le, before, after⟩ := lost
  rw [moved.unitSize] at before
  exact ⟨f, b, a, le, unitAt_cut moved.units (moved.table place) before, after⟩

/-- What is lost below a slot is lost. -/
theorem Lost.slot {i : Nat} (inside : i < c) (valid : place.table v i ≠ invalidUnitNumber)
    (reads : v.reads (place.table v i) = true) (moved : Prunes ref S v w)
    (lost : Lost v w l (.unit (place.table v i)) (v.unitSize / 4)) : Lost v w (l + 1) place c := by
  obtain ⟨f, b, a, le, before, after⟩ := lost
  have low := unitAt_lt before
  have read : v.dev (place.table v i) = some (v.mem (place.table v i)) := if_pos reads
  refine ⟨i * (v.unitSize / 4) ^ (l + 1) + f, i * (v.unitSize / 4) ^ (l + 1) + b, a, Nat.add_le_add_left le _, ?_, ?_⟩
  · rw [unitAt_child (slotOf_of_lt inside valid) read low]
    exact before
  · rw [moved.unitSize] at after ⊢
    rcases moved.table place i with same | invalid
    · have used : slotOf (place.table w) c i = some (place.table v i) := by
        rw [slotOf_of_lt inside (by rw [same]; exact valid), same]
      have read' : w.dev (place.table v i) = some (w.mem (place.table v i)) := if_pos (by rw [moved.reads]; exact reads)
      rw [unitAt_child used read' (Nat.lt_of_le_of_lt le low)]
      exact after
    · have digit : (i * (v.unitSize / 4) ^ (l + 1) + b) / (v.unitSize / 4) ^ (l + 1) = i := by
        rw [Nat.add_comm, Nat.add_mul_div_right _ _ (Nat.lt_of_le_of_lt (Nat.zero_le _) low),
          Nat.div_eq_of_lt (Nat.lt_of_le_of_lt le low), Nat.zero_add]
      rw [unitAt_succ, digit, slotOf_invalid invalid]
      rfl

theorem clearPlace_run (place : Place) (n : Nat) (v : Volume) :
    ∃ w, (clearPlace place n).run v = .ok ((), w) ∧ ∀ i < n, place.table w i = invalidUnitNumber := by
  induction n with
  | zero => exact ⟨v, rfl, nofun⟩
  | succ n ih =>
    obtain ⟨w, run, invalid⟩ := ih
    refine ⟨w.cut n place, ?_, fun i below => ?_⟩
    · rw [clearPlace, Prog.bind_ok run, put_run]
      rfl
    · rw [table_cut]
      by_cases last : i = n
      · rw [if_pos last]
      · rw [if_neg last]
        exact invalid i (by omega)

theorem scanDown_le (p : Table) (nblocks k r count : Nat) : (scanDown p nblocks k r count).1 ≤ k := by
  induction k generalizing r count with
  | zero => exact Nat.le_refl _
  | succ k ih =>
    unfold scanDown
    split
    · split
      · exact Nat.le_succ_of_le (ih _ _)
      · exact Nat.le_succ_of_le (ih _ _)
    · exact Nat.le_refl _

/-- A stretch of data units. The position it starts at is in use. -/
theorem removeData_loses (removal : Removal (Prunes ref S) g) (ready : Ready hlock v) (nblocks : Nat) {i : Nat} (r : Nat)
    (inside : i < c) (valid : place.table v i ≠ invalidUnitNumber) :
    ∃ a w, (removeData g hlock nblocks place i r).run v = .ok (a, w) ∧ a.2 ≤ i ∧ Prunes ref S v w ∧
      Lost v w 0 place c := by
  obtain ⟨a, w, run, moved⟩ := removeData_passes removal nblocks place i r v ready
  rw [holding_nil] at run moved
  suffices a.2 ≤ i ∧ place.table w 0 = invalidUnitNumber from
    ⟨a, w, run, this.1, moved, i, 0, _, Nat.zero_le _, slotOf_of_lt inside valid, slotOf_invalid this.2⟩
  -- the last thing done is that positions from 0 on become invalid
  obtain ⟨_, v₁, _, run⟩ := Prog.bind_eq_ok run
  obtain ⟨_, v₂, _, run⟩ := Prog.bind_eq_ok run
  obtain ⟨_, v₃, _, run⟩ := Prog.bind_eq_ok run
  obtain ⟨_, v₄, _, run⟩ := Prog.bind_eq_ok run
  obtain ⟨_, v₅, clear, run⟩ := Prog.bind_eq_ok run
  obtain ⟨w', clear', invalid⟩ := clearPlace_run place _ v₄
  rw [clear'] at clear
  cases clear
  cases run
  exact ⟨scanDown_le _ _ _ _ _, invalid 0 (Nat.succ_pos _)⟩

/-- What a call at a level has to do: if it removes units of an address unit, it could read it, and a block is lost. -/
def Loses (ref : Ref) (S : Nat → Prop) (hlock l : Nat) (down : Nat → Nat → M (Nat × Bool)) : Prop :=
  ∀ v base n, Ready hlock v → l < (v.inodes ref).level →
    ∃ a w, (down base n).run v = .ok (a, w) ∧ Prunes ref S v w ∧
      (0 < a.1 → v.reads base = true ∧ Lost v w l (.unit base) (v.unitSize / 4))

variable {down : Nat → Nat → M (Nat × Bool)}

theorem removeTree_loses (removal : Removal (Prunes ref S) g) (below : Loses ref S hlock l down) (ready : Ready hlock v)
    (under : l < (v.inodes ref).level) (nblocks : Nat) {i : Nat} (r : Nat) (inside : i < c)
    (valid : place.table v i ≠ invalidUnitNumber) :
    ∃ r' w, (removeTree down g hlock nblocks place i (place.table v i) r).run v = .ok (r', w) ∧ Prunes ref S v w ∧
      (r < r' → Lost v w (l + 1) place c) := by
  have trans := (prunes_frames ref S).trans
  obtain ⟨a, v₁, first, moved₁, lost⟩ := below v (place.table v i) (nblocks - r) ready under
  obtain ⟨_, w, clean, moved₂⟩ := cleanTree_passes removal place i (place.table v i) a v₁ (moved₁.toHold.ready ready)
  rw [holding_nil] at clean moved₂
  refine ⟨r + a.1, w, ?_, trans _ _ _ moved₁ moved₂, fun more => ?_⟩
  · rw [removeTree_eq, Prog.bind_ok first, Prog.bind_ok clean]
    rfl
  · obtain ⟨reads, lost⟩ := lost (by omega)
    exact lost.slot inside valid reads moved₁ |>.later moved₂

/-- The positions of a place: of the locations, or of an address unit, where the level below is a call. -/
theorem removeLoop_loses (place : Place) (removal : Removal (Prunes ref S) g) (below : ∀ m, l = m + 1 → Loses ref S hlock m down)
    (ready : Ready hlock v) (under : l ≤ (v.inodes ref).level) (nblocks fuel : Nat) {addrIdx : Nat} (r : Nat)
    (inside : addrIdx ≤ c) :
    ∃ a w, (removeLoop down g l hlock nblocks place fuel addrIdx r).run v = .ok (a, w) ∧ Prunes ref S v w ∧
      (r < a.1 → Lost v w l place c) := by
  have frames := prunes_frames ref S
  induction fuel generalizing v addrIdx r with
  | zero => exact ⟨(r, addrIdx), v, rfl, frames.refl v, fun more => absurd more (Nat.lt_irrefl r)⟩
  | succ fuel ih =>
    unfold removeLoop
    by_cases more : addrIdx ≠ 0 ∧ r < nblocks
    · rw [if_pos more]
      have index : addrIdx - 1 < c := by omega
      dsimp only
      rw [Prog.bind_ok (Prog.run_get v)]
      by_cases valid : place.table v (addrIdx - 1) ≠ invalidUnitNumber
      · rw [if_pos valid]
        -- after the first step the loop goes on, and what it loses then is lost from the start
        have goes : ∀ (v₁ : Volume) (r₁ i₁ : Nat), Prunes ref S v v₁ → i₁ ≤ c → (r < r₁ → Lost v v₁ l place c) →
            ∃ a w, (removeLoop down g l hlock nblocks place fuel i₁ r₁).run v₁ = .ok (a, w) ∧ Prunes ref S v w ∧
              (r < a.1 → Lost v w l place c) := by
          intro v₁ r₁ i₁ moved₁ inside₁ lost₁
          obtain ⟨a, w, run, moved, lost⟩ := ih (moved₁.toHold.ready ready) (by rw [moved₁.level]; exact under) r₁ inside₁
          refine ⟨a, w, run, frames.trans _ _ _ moved₁ moved, fun more => ?_⟩
          rcases Nat.lt_or_ge r r₁ with early | late
          · exact (lost₁ early).later moved
          · exact (lost (Nat.lt_of_le_of_lt late more)).earlier moved₁
        cases l with
        | zero =>
          rw [if_neg (by simp)]
          obtain ⟨a₁, v₁, run₁, back, moved₁, lost₁⟩ := removeData_loses removal ready nblocks r index valid
          obtain ⟨a, w, run, rest⟩ := goes v₁ a₁.1 a₁.2 moved₁ (by omega) fun _ => lost₁
          exact ⟨a, w, by rw [Prog.bind_ok run₁]; exact run, rest⟩
        | succ m =>
          rw [if_pos (Nat.succ_ne_zero m)]
          obtain ⟨r₁, v₁, run₁, moved₁, lost₁⟩ :=
            removeTree_loses removal (below m rfl) ready under nblocks r index valid
          obtain ⟨a, w, run, rest⟩ := goes v₁ r₁ (addrIdx - 1) moved₁ (Nat.le_of_lt index) lost₁
          exact ⟨a, w, by rw [Prog.bind_ok run₁]; exact run, rest⟩
      · rw [if_neg valid]
        exact ih ready under r (Nat.le_of_lt index)
    · rw [if_neg more]
      exact ⟨(r, addrIdx), v, rfl, frames.refl v, fun more => absurd more (Nat.lt_irrefl r)⟩

/-- A call for an address unit. -/
theorem removeAt_loses (removal : Removal (Prunes g.inode.ref S) g)
    (below : ∀ m, l = m + 1 → Loses g.inode.ref S hlock m down) :
    Loses g.inode.ref S hlock l fun base n => removeAt down g l hlock base n := by
  have frames := prunes_frames g.inode.ref S
  intro v base n ready under
  rw [removeAt_unit (Nat.ne_of_lt under)]
  obtain ⟨hb, v₁, alloc, moved₁⟩ := alloc_passes frames base v ready
  rw [holding_nil] at alloc
  obtain ⟨v₁', alloc'⟩ := alloc_run ready base
  rw [alloc] at alloc'
  cases reads : v.reads base with
  | false =>
    rw [reads] at alloc'
    cases alloc'
    rw [Prog.bind_ok alloc]
    exact ⟨(0, true), v₁, rfl, by simpa using moved₁, fun more => absurd more (Nat.lt_irrefl 0)⟩
  | true =>
    rw [reads] at alloc'
    cases alloc'
    obtain ⟨u, rfl, moved⟩ := Passes.unhold frames moved₁
    have ready₁ : Ready hlock (u.holding [base]) := moved.toHold.ready ready
    obtain ⟨a, v₂, loop, moved₂, lost⟩ := removeLoop_loses (.unit base) removal below ready₁
      (by rw [show (u.holding [base]).inodes = u.inodes from rfl, moved.level]; exact Nat.le_of_lt under) n
      (v.unitSize / 4) 0 (Nat.le_refl _)
    obtain ⟨x, rfl, moved₃⟩ := Passes.unhold frames moved₂
    obtain ⟨_, w, leave, moved₄⟩ := leavePlace_passes frames base a.1 x (moved₃.toHold.ready (moved.toHold.ready ready))
    rw [holding_nil] at moved₄
    have last := frames.trans _ _ _ moved₃ moved₄
    refine ⟨(a.1, decide (a.2 = 0)), w, ?_, frames.trans _ _ _ moved last, fun more => ⟨rfl, ?_⟩⟩
    · rw [Prog.bind_ok alloc, if_pos rfl]
      exact (Prog.bind_ok loop).trans ((Prog.bind_ok leave).trans rfl)
    · have lost' : Lost u x l (.unit base) (v.unitSize / 4) := lost more
      exact (lost'.later moved₄).earlier moved

/-- What `inode_remove_block` removes, it takes from the front of a leaf. -/
theorem inodeRemoveBlock_loses (removal : Removal (Prunes g.inode.ref S) g) (base : Nat) (ready : Ready hlock v)
    (nblocks : Nat) : ∃ a w, (inodeRemoveBlock g hlock (v.inodes g.inode.ref).level base nblocks).run v = .ok (a, w) ∧
      Prunes g.inode.ref S v w ∧
      (0 < a.1 → Lost v w (v.inodes g.inode.ref).level (.locations g.inode.ref) maxLocationIndex) := by
  have deeper : ∀ l, Loses g.inode.ref S hlock l (inodeRemoveBlock g hlock l) := by
    intro l
    induction l with
    | zero => exact removeAt_loses removal nofun
    | succ l ih =>
      apply removeAt_loses removal
      rintro m same
      cases same
      exact ih
  have call : ∀ l (down : Nat → Nat → M (Nat × Bool)), l = (v.inodes g.inode.ref).level →
      (∀ m, l = m + 1 → Loses g.inode.ref S hlock m down) →
      ∃ a w, (removeAt down g l hlock base nblocks).run v = .ok (a, w) ∧ Prunes g.inode.ref S v w ∧
        (0 < a.1 → Lost v w l (.locations g.inode.ref) maxLocationIndex) := by
    intro l down top below
    obtain ⟨a, w, run, moved, lost⟩ := removeLoop_loses (.locations g.inode.ref) removal below ready
      (Nat.le_of_eq top) nblocks maxLocationIndex 0 (Nat.le_refl _)
    refine ⟨(a.1, decide (a.2 = 0)), w, ?_, moved, lost⟩
    rw [removeAt_locations top, Prog.bind_ok run]
    rfl
  cases top : (v.inodes g.inode.ref).level with
  | zero => exact call 0 _ top.symm nofun
  | succ l =>
    apply call (l + 1) _ top.symm
    rintro m same
    cases same
    exact deeper l

end Lost

/-! ## The call -/

section Call
variable {v w : Volume} {h : InodeHandle} {hlock newSize : Nat}

theorem Frozen.prunes {S : Nat → Prop} {ref : Ref} (frozen : Frozen v w) : Prunes ref S v w :=
  ⟨frozen.toHold, fun idx _ => by rw [frozen.bits], fun unit => by rw [frozen.mem]; exact Cut.refl _, by rw [frozen.inodes],
    fun r => by rw [frozen.inodes]; exact Cut.refl _⟩

/-- The bitmap files the truncation changes. -/
def truncated (idx : Nat) : Prop := idx = inodeBitmapIdx ∨ idx = spaceBitmapShadowIdx

/-- What is left to do after the removal. -/
theorem finish_passes {R : Volume → Volume → Prop} (frames : Frames R) (h hbitmap : InodeHandle)
    (hshadow : Option InodeHandle) (size : Nat) : Passes R hlock (handleUnits hshadow ++ hbitmap.hb.toList) (do
      closeShadow hshadow hlock
      mgfsInodeClose hbitmap hlock
      mgfsInodeUpdate h hlock
      return size) fun _ => [] := by
  apply Passes.bind frames ((closeShadow_passes frames hshadow).beside hbitmap.hb.toList)
  intro _
  apply Passes.bind frames (close_passes frames hbitmap)
  intro _
  apply Passes.bind frames (update_passes frames h)
  intro _
  exact Passes.pure frames size rfl

/-- The new size is returned only if no block was to be removed or one is lost. -/
theorem mgfsInodeTruncate_run (ready : Ready hlock v) (shorter : newSize < (v.inodes h.ref).sz)
    (small : (v.inodes h.ref).sz < 2 ^ 64) :
    ∃ r w, (mgfsInodeTruncate h newSize hlock).run v = .ok (r, w) ∧ Prunes h.ref truncated v w ∧
      (r = newSize → cutBlocks v.unitSize (v.inodes h.ref).sz newSize = 0 ∨
        Lost v w (v.inodes h.ref).level (.locations h.ref) maxLocationIndex) := by
  have frames := prunes_frames h.ref truncated
  unfold mgfsInodeTruncate
  rw [Prog.bind_ok (Prog.run_get v)]
  dsimp only
  rw [if_pos shorter]
  obtain ⟨opened, v₁, opens, moved₁⟩ := metaOpen_passes frozen_frames inodeBitmapIdx v ready
  rw [holding_nil] at opens
  rw [Prog.bind_ok opens]
  cases opened with
  | none =>
    rw [handleUnits, Option.bind_none, Option.toList_none, holding_nil] at moved₁
    exact ⟨_, v₁, rfl, moved₁.prunes, fun same => absurd same (Nat.ne_of_gt shorter)⟩
  | some hbitmap =>
    obtain ⟨u₁, rfl, frozen₁⟩ := Passes.unhold frozen_frames moved₁
    obtain ⟨hshadow, v₂, shadows, moved₂⟩ := (openShadow_passes frozen_frames spaceBitmapShadowIdx).beside
      hbitmap.hb.toList u₁ (frozen₁.toHold.ready ready)
    obtain ⟨u₂, rfl, frozen₂⟩ := Passes.unhold frozen_frames moved₂
    have frozen := frozen_frames.trans _ _ _ frozen₁ frozen₂
    have removal : Removal (Prunes h.ref truncated) ⟨h, hbitmap, hshadow⟩ := by
      apply prunes_removal
      · exact Or.inl (congrArg Ref.idx (metaOpen_ref opens))
      · rintro s rfl
        exact Or.inr (congrArg Ref.idx (openShadow_ref shadows))
    have ready₂ : Ready hlock (u₂.holding (handleUnits hshadow ++ hbitmap.hb.toList)) := frozen.toHold.ready ready
    obtain ⟨a, v₃, removes, moved₃, lost⟩ := inodeRemoveBlock_loses (g := ⟨h, hbitmap, hshadow⟩) removal
      ((v.inodes h.ref).location 0) ready₂ (cutBlocks v.unitSize (v.inodes h.ref).sz newSize)
    obtain ⟨u₃, rfl, moved₃'⟩ := Passes.unhold frames moved₃
    have level : (u₂.inodes h.ref).level = (v.inodes h.ref).level := by rw [frozen.inodes]
    change (inodeRemoveBlock ⟨h, hbitmap, hshadow⟩ hlock (u₂.inodes h.ref).level _ _).run _ = _ at removes
    rw [level] at removes
    -- the state with the size set
    generalize size : (if a.1 = cutBlocks v.unitSize (v.inodes h.ref).sz newSize then newSize
      else ((v.inodes h.ref).sz + (2 ^ 64 - a.1 * v.unitSize % 2 ^ 32)) % 2 ^ 64) = sz
    have sized : Prunes h.ref truncated u₃
        { u₃ with inodes := Function.update u₃.inodes h.ref { u₃.inodes h.ref with sz := sz } } :=
      prunes_update u₃ h.ref rfl (Cut.refl _)
    obtain ⟨r, w, finish, moved₄⟩ := finish_passes frames h hbitmap hshadow sz _
      (sized.toHold.ready (moved₃'.toHold.ready (frozen.toHold.ready ready)))
    rw [holding_nil] at moved₄
    obtain rfl : r = sz := by
      obtain ⟨_, _, _, rest⟩ := Prog.bind_eq_ok finish
      obtain ⟨_, _, _, rest⟩ := Prog.bind_eq_ok rest
      obtain ⟨_, _, _, rest⟩ := Prog.bind_eq_ok rest
      cases rest
      rfl
    have after := frames.trans _ _ _ sized moved₄
    refine ⟨r, w, ?_, frames.trans _ _ _ frozen.prunes (frames.trans _ _ _ moved₃' after), fun same => ?_⟩
    · dsimp only
      refine (Prog.bind_ok shadows).trans ((Prog.bind_ok removes).trans ?_)
      rw [size]
      exact finish
    · by_cases none : a.1 = 0
      · left
        by_contra some
        rw [none, if_neg (Ne.symm some), Nat.zero_mul, Nat.zero_mod, Nat.sub_zero, Nat.add_mod_right,
          Nat.mod_eq_of_lt small] at size
        omega
      · right
        have lost' : Lost u₂ u₃ (u₂.inodes h.ref).level (.locations h.ref) maxLocationIndex := lost (Nat.pos_of_ne_zero none)
        rw [level] at lost'
        have before : Prunes h.ref truncated v u₂ := frozen.prunes
        exact (lost'.later after).earlier before

/-- The unit of a metafile's record, if it can be read. -/
def Volume.metaUnit (v : Volume) (idx : Nat) : Option Nat :=
  let pos := mgfsInodeCalcDataPos v.unitSize (v.inodes .superblock) (idx * szInodeRecord) szInodeRecord
  if pos.size = szInodeRecord then v.blockUnit .superblock pos.block else none

theorem metaOpen_run (ready : Ready hlock v) (idx : Nat) :
    ∃ w, (mgfsInodeMetaOpen idx hlock).run v = .ok ((v.metaUnit idx).map fun unit => ⟨.member idx, some unit⟩, w) := by
  obtain ⟨w, record⟩ : ∃ w, (readRecord .superblock idx hlock).run v = .ok (v.metaUnit idx, w) := by
    unfold readRecord Volume.metaUnit
    rw [Prog.bind_ok (Prog.run_get v)]
    dsimp only
    split
    · obtain ⟨w, run, -⟩ := readBlock_run ready .superblock
        (mgfsInodeCalcDataPos v.unitSize (v.inodes .superblock) (idx * szInodeRecord) szInodeRecord).block
      exact ⟨w, run⟩
    · exact ⟨v, rfl⟩
  refine ⟨w, ?_⟩
  rw [mgfsInodeMetaOpen, Prog.bind_ok record]
  cases v.metaUnit idx <;> rfl

/-- Where nothing is to be removed, nothing is. -/
theorem inodeRemoveBlock_none (hlock : Nat) (g : Growth) (base : Nat) (v : Volume) :
    (inodeRemoveBlock g hlock (v.inodes g.inode.ref).level base 0).run v = .ok ((0, false), v) := by
  have loop (down : Nat → Nat → M (Nat × Bool)) (l : Nat) : (removeLoop down g l hlock 0 (.locations g.inode.ref)
      maxLocationIndex maxLocationIndex 0).run v = .ok ((0, maxLocationIndex), v) := rfl
  cases top : (v.inodes g.inode.ref).level with
  | zero =>
    rw [inodeRemoveBlock, removeAt_locations top.symm, Prog.bind_ok (loop _ 0)]
    rfl
  | succ l =>
    rw [inodeRemoveBlock, removeAt_locations top.symm, Prog.bind_ok (loop _ (l + 1))]
    rfl

/-- The volume after only the size was set. -/
def Volume.resized (v : Volume) (ref : Ref) (size : Nat) : Volume :=
  { v with inodes := Function.update v.inodes ref { v.inodes ref with sz := size } }

/-- Where no block is to be removed only the size changes, if the inode bitmap can be opened. -/
theorem mgfsInodeTruncate_none (ready : Ready hlock v) (shorter : newSize < (v.inodes h.ref).sz)
    (none : cutBlocks v.unitSize (v.inodes h.ref).sz newSize = 0) :
    ∃ w, (mgfsInodeTruncate h newSize hlock).run v =
      .ok (if (v.metaUnit inodeBitmapIdx).isSome then newSize else (v.inodes h.ref).sz, w) ∧
      Frozen (if (v.metaUnit inodeBitmapIdx).isSome then v.resized h.ref newSize else v) w := by
  unfold mgfsInodeTruncate
  rw [Prog.bind_ok (Prog.run_get v)]
  dsimp only
  rw [if_pos shorter, none]
  obtain ⟨v₁, opens⟩ := metaOpen_run ready inodeBitmapIdx
  have moved₁ := (metaOpen_passes frozen_frames inodeBitmapIdx).of_run ready (by rw [holding_nil]; exact opens)
  rw [Prog.bind_ok opens]
  cases found : v.metaUnit inodeBitmapIdx with
  | none =>
    rw [found, Option.map_none, handleUnits, Option.bind_none, Option.toList_none, holding_nil] at moved₁
    exact ⟨v₁, rfl, moved₁⟩
  | some unit =>
    rw [found] at moved₁
    obtain ⟨u₁, rfl, frozen₁⟩ := Passes.unhold frozen_frames moved₁
    obtain ⟨hshadow, v₂, shadows, moved₂⟩ := (openShadow_passes frozen_frames spaceBitmapShadowIdx).beside
      [unit] u₁ (frozen₁.toHold.ready ready)
    obtain ⟨u₂, rfl, frozen₂⟩ := Passes.unhold frozen_frames moved₂
    have frozen := frozen_frames.trans _ _ _ frozen₁ frozen₂
    have removes := inodeRemoveBlock_none hlock ⟨h, ⟨.member inodeBitmapIdx, some unit⟩, hshadow⟩
      ((v.inodes h.ref).location 0) (u₂.holding (handleUnits hshadow ++ [unit]))
    have level : (u₂.inodes h.ref).level = (v.inodes h.ref).level := by rw [frozen.inodes]
    change (inodeRemoveBlock ⟨h, ⟨.member inodeBitmapIdx, some unit⟩, hshadow⟩ hlock (u₂.inodes h.ref).level _ 0).run _ = _
      at removes
    rw [level] at removes
    have resized : Frozen (v.resized h.ref newSize) (u₂.resized h.ref newSize) := by
      refine ⟨⟨⟨frozen.unitSize, frozen.shadow, frozen.reads, frozen.users, frozen.held⟩, frozen.saved⟩, frozen.mem, ?_,
        frozen.bits⟩
      change Function.update u₂.inodes _ _ = Function.update v.inodes _ _
      rw [frozen.inodes]
    obtain ⟨r, w, finish, moved₃⟩ := finish_passes frozen_frames h ⟨.member inodeBitmapIdx, some unit⟩ hshadow newSize
      (u₂.resized h.ref newSize) (frozen.toHold.ready ready)
    rw [holding_nil] at moved₃
    obtain rfl : r = newSize := by
      obtain ⟨_, _, _, rest⟩ := Prog.bind_eq_ok finish
      obtain ⟨_, _, _, rest⟩ := Prog.bind_eq_ok rest
      obtain ⟨_, _, _, rest⟩ := Prog.bind_eq_ok rest
      cases rest
      rfl
    refine ⟨w, ?_, frozen_frames.trans _ _ _ resized moved₃⟩
    dsimp only [Option.map_some]
    exact (Prog.bind_ok shadows).trans ((Prog.bind_ok removes).trans finish)

end Call

/-! ## What truncation is for -/

/-- The units a file of a size needs. -/
def unitsFor (unitSize size : Nat) : Nat := (size + unitSize - 1) / unitSize

/-- A file: its blocks are found and in use. -/
structure Volume.IsFile (v : Volume) (ref : Ref) : Prop where
  mapped : ∀ block, (unitOf v.dev v.unitSize (v.inodes ref) block).isSome ↔ block < (v.inodes ref).dunits
  used : ∀ block unit, unitOf v.dev v.unitSize (v.inodes ref) block = some unit → v.bit spaceBitmap unit = true
  small : (v.inodes ref).sz < 2 ^ 64

/-- The unit is free, also in the shadow if the volume has shadows. -/
def Volume.Freed (v : Volume) (unit : Nat) : Prop :=
  v.bit spaceBitmap unit = false ∧ (v.shadow = true → v.bit spaceShadow unit = false)

/-- The bytes of a file that can be read. -/
def bytesOf (v : Volume) (h : InodeHandle) (offset size hlock : Nat) : Option (List Byte) :=
  match (mgfsInodeRead h offset size hlock).run v with
  | .ok (bytes, _) => some bytes
  | .error _ => none

/-- The file was cut to the new size. -/
structure Truncates (v : Volume) (h : InodeHandle) (newSize hlock : Nat) (w : Volume) : Prop where
  run : (mgfsInodeTruncate h newSize hlock).run v = .ok (newSize, w)
  size : (w.inodes h.ref).sz = newSize
  bytes : ∀ offset size, offset + size ≤ newSize → bytesOf w h offset size hlock = bytesOf v h offset size hlock
  dunits : (w.inodes h.ref).dunits = unitsFor v.unitSize newSize
  units : ∀ block, unitOf w.dev w.unitSize (w.inodes h.ref) block =
    if block < unitsFor v.unitSize newSize then unitOf v.dev v.unitSize (v.inodes h.ref) block else none
  freed : ∀ block unit, unitsFor v.unitSize newSize ≤ block →
    unitOf v.dev v.unitSize (v.inodes h.ref) block = some unit → w.Freed unit
  emptied : ∀ block < (v.inodes h.ref).dunits, ∀ unit ∈ addressesOf v.dev v.unitSize (v.inodes h.ref) block,
    (∀ kept < unitsFor v.unitSize newSize, unit ∉ addressesOf v.dev v.unitSize (v.inodes h.ref) kept) → w.Freed unit
  inodes : ∀ number, w.bit inodeBitmap number = v.bit inodeBitmap number

/-! ## Reading a file -/

/-- A read of the file finds the same in both volumes: it does not look at the recorded size. -/
structure Alike (ref : Ref) (v w : Volume) : Prop where
  unitSize : w.unitSize = v.unitSize
  reads : w.reads = v.reads
  mem : w.mem = v.mem
  inode : ∃ size, w.inodes ref = { v.inodes ref with sz := size }

/-- The list of blocks does not depend on the recorded size. -/
theorem inodeListDunit_sz (dev : Nat → Option Mem) (unitSize : Nat) (inode : Inode) (size first count : Nat) :
    inodeListDunit dev unitSize { inode with sz := size } first count = inodeListDunit dev unitSize inode first count := by
  have loop (fuel : Nat) (out : List Nat) : bootListLoop dev unitSize { inode with sz := size } first count fuel out =
      bootListLoop dev unitSize inode first count fuel out := by
    induction fuel generalizing out with
    | zero => rfl
    | succ fuel ih => simp only [bootListLoop, ih]
  exact loop count []

section Alike
variable {ref : Ref} {u v w : Volume} {hlock total : Nat}

theorem Alike.of_ticked (alike : Alike ref v w) {v' w' : Volume} (ticked : Ticked v v') (ticked' : Ticked w w') :
    Alike ref v' w' := by
  obtain ⟨t, rfl⟩ := ticked
  obtain ⟨t', rfl⟩ := ticked'
  exact ⟨alike.unitSize, alike.reads, alike.mem, alike.inode⟩

theorem Alike.dev (alike : Alike ref v w) : w.dev = v.dev := by
  unfold Volume.dev
  rw [alike.reads, alike.mem]

/-- A unit is read and its buffer given back. -/
theorem readUnits_cons (ready : Ready hlock v) {x : Nat} (reads : v.reads x = true) (rest : List Nat) (out : List Byte)
    (offset : Nat) :
    ∃ w, (readUnits total hlock (x :: rest) out offset).run v = (readUnits total hlock rest
      (out ++ (List.range (min (v.unitSize - offset) (total - out.length))).map fun i => v.mem x (offset + i)) 0).run w ∧
      Ticked v w := by
  obtain ⟨v₁, alloc, taken⟩ := mgfsBufferAlloc_some ready reads
  obtain ⟨v₂, free, given⟩ := mgfsBufferFree_spec (taken.ready ready) x
  obtain ⟨t, rfl⟩ := taken
  refine ⟨v₂, ?_, ?_⟩
  · conv_lhs => unfold readUnits
    rw [Prog.bind_ok alloc]
    dsimp only
    rw [Prog.bind_ok (Prog.run_get _)]
    dsimp only
    rw [Prog.bind_ok free]
    rfl
  · obtain ⟨t', rfl⟩ := given
    exact ⟨t', by simp [Volume.taken, Volume.given]⟩

/-- A unit that cannot be read ends the array. -/
theorem readUnits_fails (ready : Ready hlock v) {x : Nat} (fails : v.reads x = false) (rest : List Nat) (out : List Byte)
    (offset : Nat) : ∃ w, (readUnits total hlock (x :: rest) out offset).run v = .ok ((out, false), w) ∧ Ticked v w := by
  obtain ⟨w, alloc, ticked⟩ := mgfsBufferAlloc_none ready fails
  refine ⟨w, ?_, ticked⟩
  unfold readUnits
  rw [Prog.bind_ok alloc]
  rfl

theorem readUnits_alike (alike : Alike ref v w) (ready : Ready hlock v) (ready' : Ready hlock w) (array : List Nat)
    (out : List Byte) (offset : Nat) :
    ∃ a v' w', (readUnits total hlock array out offset).run v = .ok (a, v') ∧
      (readUnits total hlock array out offset).run w = .ok (a, w') ∧ Ticked v v' ∧ Ticked w w' := by
  induction array generalizing out offset v w with
  | nil => exact ⟨(out, true), v, w, rfl, rfl, Ticked.refl v, Ticked.refl w⟩
  | cons x rest ih =>
    have reads' : w.reads x = v.reads x := congrFun alike.reads x
    cases reads : v.reads x with
    | false =>
      obtain ⟨v', run, ticked⟩ := @readUnits_fails v hlock total ready x reads rest out offset
      obtain ⟨w', run', ticked'⟩ := @readUnits_fails w hlock total ready' x (reads'.trans reads) rest out offset
      exact ⟨_, v', w', run, run', ticked, ticked'⟩
    | true =>
      obtain ⟨v₁, step, ticked⟩ := @readUnits_cons v hlock total ready x reads rest out offset
      obtain ⟨w₁, step', ticked'⟩ := @readUnits_cons w hlock total ready' x (reads'.trans reads) rest out offset
      rw [step, step', alike.unitSize, alike.mem]
      obtain ⟨a, v', w', run, run', later, later'⟩ :=
        ih (alike.of_ticked ticked ticked') (ticked.ready ready) (ticked'.ready ready') _ 0
      exact ⟨a, v', w', run, run', ticked.trans later, ticked'.trans later'⟩

theorem readLoop_alike (alike : Alike ref v w) (ready : Ready hlock v) (ready' : Ready hlock w)
    (fuel block count : Nat) (out : List Byte) (offset : Nat) :
    ∃ bytes v' w', (readLoop ref total hlock fuel block count out offset).run v = .ok (bytes, v') ∧
      (readLoop ref total hlock fuel block count out offset).run w = .ok (bytes, w') := by
  induction fuel generalizing block count out offset v w with
  | zero => exact ⟨out, v, w, rfl, rfl⟩
  | succ fuel ih =>
    unfold readLoop
    split
    · obtain ⟨v₁, list, ticked⟩ := mgfsInodeListDunit_spec ready ref block (min count maxUnitArray)
      obtain ⟨w₁, list', ticked'⟩ := mgfsInodeListDunit_spec ready' ref block (min count maxUnitArray)
      have same : inodeListDunit w.dev w.unitSize (w.inodes ref) block (min count maxUnitArray) =
          inodeListDunit v.dev v.unitSize (v.inodes ref) block (min count maxUnitArray) := by
        obtain ⟨size, inode⟩ := alike.inode
        rw [alike.dev, alike.unitSize, inode]
        exact inodeListDunit_sz _ _ _ _ _ _
      rw [same] at list'
      rw [Prog.bind_ok list, Prog.bind_ok list']
      split
      · exact ⟨out, v₁, w₁, rfl, rfl⟩
      · obtain ⟨a, v₂, w₂, units, units', later, later'⟩ := @readUnits_alike ref v₁ w₁ hlock total
          (alike.of_ticked ticked ticked') (ticked.ready ready) (ticked'.ready ready') _ out offset
        rw [Prog.bind_ok units, Prog.bind_ok units']
        dsimp only
        split
        · exact ih (alike.of_ticked (ticked.trans later) (ticked'.trans later')) ((ticked.trans later).ready ready)
            ((ticked'.trans later').ready ready') _ _ _ _
        · exact ⟨_, v₂, w₂, rfl, rfl⟩
    · exact ⟨out, v, w, rfl, rfl⟩

end Alike

/-- Whatever the size is set to, the file reads as before. -/
theorem bytesOf_alike {v w : Volume} {h : InodeHandle} {hlock : Nat} (alike : Alike h.ref v w) (ready : Ready hlock v)
    (ready' : Ready hlock w) (offset size : Nat) : bytesOf w h offset size hlock = bytesOf v h offset size hlock := by
  obtain ⟨bytes, v', w', run, run'⟩ : ∃ bytes v' w', (mgfsInodeRead h offset size hlock).run v = .ok (bytes, v') ∧
      (mgfsInodeRead h offset size hlock).run w = .ok (bytes, w') := by
    unfold mgfsInodeRead
    by_cases valid : h.hb ≠ none
    · have position : mgfsInodeCalcDataPos w.unitSize (w.inodes h.ref) offset size =
          mgfsInodeCalcDataPos v.unitSize (v.inodes h.ref) offset size := by
        obtain ⟨s, inode⟩ := alike.inode
        rw [alike.unitSize, inode]
        rfl
      rw [if_pos valid, Prog.bind_ok (Prog.run_get v), Prog.bind_ok (Prog.run_get w), position]
      exact readLoop_alike alike ready ready' _ _ _ _ _
    · rw [if_neg valid]
      exact ⟨[], v, w, rfl, rfl⟩
  unfold bytesOf
  rw [run, run']

section Truncates
variable {v w : Volume} {h : InodeHandle} {hlock newSize : Nat}

/-- A truncation that is done removes no block. -/
theorem Truncates.cuts_none (done : Truncates v h newSize hlock w) (ready : Ready hlock v) (file : v.IsFile h.ref)
    (shorter : newSize < (v.inodes h.ref).sz) : cutBlocks v.unitSize (v.inodes h.ref).sz newSize = 0 := by
  obtain ⟨r, w', run, moved, lost⟩ := mgfsInodeTruncate_run ready shorter file.small
  rw [done.run] at run
  cases run
  rcases lost rfl with none | ⟨f, b, unit, le, before, after⟩
  · exact none
  have inside : f < (v.inodes h.ref).dunits := (file.mapped f).1 (by rw [show unitOf _ _ _ f = some unit from before]; rfl)
  by_cases drops : unitsFor v.unitSize newSize < (v.inodes h.ref).dunits
  · -- a unit that was to become free is still in use
    obtain ⟨unit, mapped⟩ := Option.isSome_iff_exists.1 ((file.mapped _).2 drops)
    have free := (done.freed _ unit (Nat.le_refl _) mapped).1
    have used := file.used _ unit mapped
    rw [Volume.bit_eq] at free used
    rw [moved.bits spaceBitmap.idx (by unfold truncated; decide), used] at free
    cases free
  · -- a block that was to stay is lost
    have kept := done.units b
    rw [if_pos (by omega), unitOf, moved.level] at kept
    have gone : unitOf v.dev v.unitSize (v.inodes h.ref) b = Option.none := kept.symm.trans after
    have found := (file.mapped b).2 (by omega)
    rw [gone] at found
    cases found

/-- Truncation cuts a file as it should exactly if there is nothing to cut off: no unit is behind the new size, the count of
blocks comes out as 0, and the inode bitmap can be opened. -/
theorem truncates_iff (ready : Ready hlock v) (file : v.IsFile h.ref) (shorter : newSize < (v.inodes h.ref).sz) :
    (∃ w, Truncates v h newSize hlock w) ↔ (v.metaUnit inodeBitmapIdx).isSome ∧
      cutBlocks v.unitSize (v.inodes h.ref).sz newSize = 0 ∧ unitsFor v.unitSize newSize = (v.inodes h.ref).dunits := by
  constructor
  · rintro ⟨w, done⟩
    have none := done.cuts_none ready file shorter
    obtain ⟨w', run, frozen⟩ := mgfsInodeTruncate_none ready shorter none
    rw [done.run] at run
    obtain ⟨size, rfl⟩ := Prod.mk.inj (Except.ok.inj run)
    have opens : (v.metaUnit inodeBitmapIdx).isSome := by
      by_contra closed
      rw [if_neg closed] at size
      omega
    rw [if_pos opens] at frozen
    refine ⟨opens, none, done.dunits.symm.trans ?_⟩
    rw [frozen.inodes]
    simp [Volume.resized]
  · rintro ⟨opens, none, units⟩
    obtain ⟨w, run, frozen⟩ := mgfsInodeTruncate_none ready shorter none
    rw [if_pos opens] at run frozen
    have inode : w.inodes h.ref = { v.inodes h.ref with sz := newSize } := by
      rw [frozen.inodes]
      simp [Volume.resized]
    have alike : Alike h.ref v w := ⟨frozen.unitSize, frozen.reads, frozen.mem, newSize, inode⟩
    have ready' : Ready hlock w := frozen.toHold.ready ready
    refine ⟨w, run, by rw [inode], fun offset size _ => bytesOf_alike alike ready ready' offset size, by rw [inode, units],
      fun block => ?_, fun block unit behind mapped => ?_, fun block inside unit member only => ?_, fun number => ?_⟩
    · rw [alike.dev, alike.unitSize, inode, units]
      split
      · rfl
      · next outside =>
        have lacks := (file.mapped block).not.2 outside
        exact Option.not_isSome_iff_eq_none.1 lacks
    · have inside := (file.mapped block).1 (by rw [mapped]; rfl)
      omega
    · exact absurd member (only block (by omega))
    · rw [Volume.bit_eq, Volume.bit_eq, frozen.bits]
      rfl

end Truncates

/-! ## Two files -/

/-- A metafile of one unit. -/
def metaInode (unit : Nat) : Inode := ⟨0, 0, 1, 0, fun i => if i = 0 then unit else invalidUnitNumber, 512, 0⟩

/-- A file of two units. -/
def twoUnits (sz : Nat) : Inode := ⟨0, 0, 2, 0, fun i => if i < 2 then 10 + i else invalidUnitNumber, sz, 0⟩

/-- A record with its first 32 bits set. -/
def wordRec : BitmapRec := ⟨32, BitVec.ofNat maxBitmapBits 0xffffffff⟩

/-- A volume with metafiles of one unit each, the same file under every number, and the first 32 bits of each bitmap set. -/
def mounted (file : Inode) : Volume :=
  { zeroVolume 512 with
    inodes := fun
      | .superblock => metaInode 1
      | .member idx => metaInode (2 + idx)
      | .file _ => file
    bits := fun _ => wordRec :: List.replicate 15 ⟨0, BitVec.ofNat maxBitmapBits 0⟩ }

theorem twoUnits_isFile {sz : Nat} (small : sz < 2 ^ 64) (number : Nat) :
    (mounted (twoUnits sz)).IsFile (.file number) := by
  have unit : ∀ block, unitOf (mounted (twoUnits sz)).dev (mounted (twoUnits sz)).unitSize
      ((mounted (twoUnits sz)).inodes (.file number)) block = if block < 2 then some (10 + block) else none := by
    intro block
    change slotOf (twoUnits sz).location maxLocationIndex block = _
    by_cases low : block < 2
    · have entry : (twoUnits sz).location block = 10 + block := if_pos low
      rw [if_pos low, slotOf_of_lt (by unfold maxLocationIndex; omega) (by rw [entry]; unfold invalidUnitNumber; omega),
        entry]
    · rw [if_neg low]
      exact slotOf_invalid (if_neg low)
  refine ⟨fun block => ?_, fun block u found => ?_, small⟩
  · rw [unit block]
    change _ ↔ block < 2
    by_cases low : block < 2 <;> simp [low]
  · rw [unit block] at found
    obtain ⟨low, same⟩ := Option.ite_none_right_eq_some.1 found
    obtain rfl := Option.some.inj same
    have bits : ∀ n, 10 ≤ n → n < 12 → wordRec.bits.getLsbD n = true := by decide
    have place : (10 + block) % maxBitmapBits = 10 + block ∧ (10 + block) / maxBitmapBits = 0 := by
      unfold maxBitmapBits
      omega
    unfold Volume.bit Volume.bitmapRec
    rw [place.1, place.2]
    exact bits (10 + block) (by omega) (by omega)

/-- The size of a file of two units is cut from behind them to a byte in the second one. -/
theorem truncates_iff_behind : ∃ w, Truncates (mounted (twoUnits 2000)) ⟨.file 7, some 3⟩ 1000 0 w :=
  (truncates_iff (h := ⟨.file 7, some 3⟩) (Or.inl rfl) (twoUnits_isFile (by decide) 7) (show 1000 < 2000 by decide)).2
    ⟨by decide, by decide, rfl⟩

/-- A file of two units is not cut to one. -/
theorem half_not_truncated : ∃ v : Volume, v.IsFile (.file 7) ∧ Ready 0 v ∧ 512 < (v.inodes (.file 7)).sz ∧
    ¬ ∃ w, Truncates v ⟨.file 7, some 3⟩ 512 0 w := by
  have file : (mounted (twoUnits 1024)).IsFile (.file 7) := twoUnits_isFile (by decide) 7
  refine ⟨mounted (twoUnits 1024), file, Or.inl rfl, show 512 < 1024 by decide, fun ⟨w, done⟩ => ?_⟩
  have one : cutBlocks 512 1024 512 = 0 := done.cuts_none (Or.inl rfl) file (show 512 < 1024 by decide)
  exact absurd one (by decide)

end PreTeO.Mgfs3
