import PreTeO.Mgfs3.RemoveAll
import PreTeO.Mgfs3.Truncation

/-!
# Deleting an inode

`mgfs_inode_delete` takes an inode for deleted if the removal of its blocks says that it is empty. A removal says so when it
comes to the front of the locations; to remove no blocks it does not set out.
-/

namespace PreTeO.Mgfs3
set_option autoImplicit false
open PreTeO.Lib

/-! ## Bitmap files, opened and closed -/

/-- The member of the meta group is found. -/
def Volume.Member (v : Volume) (idx : Nat) : Prop :=
  let pos := mgfsInodeCalcDataPos v.unitSize (v.inodes .superblock) (idx * szInodeRecord) szInodeRecord
  pos.size = szInodeRecord ∧ pos.block < (v.inodes .superblock).dunits ∧ (v.blockUnit .superblock pos.block).isSome

section Open
variable {v w : Volume} {hlock idx shadowIdx : Nat}

theorem Volume.Member.open_run (member : v.Member idx) (ready : Ready hlock v) :
    ∃ unit w, (mgfsInodeMetaOpen idx hlock).run v = .ok (some ⟨.member idx, some unit⟩, w) ∧
      Frozen (v.holding [unit]) w := by
  obtain ⟨size, _, found⟩ := member
  obtain ⟨unit, is_some⟩ := Option.isSome_iff_exists.mp found
  have record : v.metaUnit idx = some unit := (if_pos size).trans is_some
  obtain ⟨w, opens⟩ := metaOpen_run ready idx
  rw [record] at opens
  have alone : (mgfsInodeMetaOpen idx hlock).run (v.holding []) = .ok (some ⟨.member idx, some unit⟩, w) := by
    rw [holding_nil]
    exact opens
  exact ⟨unit, w, opens, (metaOpen_passes frozen_frames idx).of_run ready alone⟩

theorem Volume.Member.frozen (member : v.Member idx) (frozen : Frozen v w) : w.Member idx := by
  obtain ⟨size, inside, found⟩ := member
  have blocks : ∀ block, w.blockUnit .superblock block = v.blockUnit .superblock block :=
    blockUnit_congr frozen.unitSize frozen.reads frozen.mem ⟨(v.inodes .superblock).nused, by rw [frozen.inodes]⟩
  unfold Volume.Member
  dsimp only
  rw [frozen.unitSize, frozen.inodes, blocks]
  exact ⟨size, inside, found⟩

/-- A bitmap file and its shadow are opened. -/
theorem openPair_run (ready : Ready hlock v) (member : v.Member idx) (shadow : v.shadow = true → v.Member shadowIdx) :
    ∃ unit s v₁ u, (mgfsInodeMetaOpen idx hlock).run v = .ok (some ⟨.member idx, some unit⟩, v₁) ∧
      (openShadow shadowIdx hlock).run v₁ = .ok (s, u.holding (handleUnits s ++ [unit])) ∧ Frozen v u ∧
      s.map InodeHandle.ref = if v.shadow then some (.member shadowIdx) else none := by
  obtain ⟨unit, v₁, opens, moved₁⟩ := member.open_run ready
  obtain ⟨u₁, rfl, frozen₁⟩ := Passes.unhold frozen_frames moved₁
  have same : (u₁.holding [unit]).shadow = v.shadow := frozen₁.shadow
  refine ⟨unit, ?_⟩
  unfold openShadow
  by_cases shadows : v.shadow = true
  · have member₁ : u₁.Member shadowIdx := (shadow shadows).frozen frozen₁
    have ready₁ : Ready hlock (u₁.holding [unit]) := frozen₁.toHold.ready ready
    obtain ⟨sunit, v₂, opens₂, moved₂⟩ := Volume.Member.open_run (v := u₁.holding [unit]) member₁ ready₁
    rw [holding_holding] at moved₂
    obtain ⟨u₂, rfl, frozen₂⟩ := Passes.unhold frozen_frames moved₂
    refine ⟨some ⟨.member shadowIdx, some sunit⟩, _, u₂, opens, ?_, frozen_frames.trans _ _ _ frozen₁ frozen₂, ?_⟩
    · rw [Prog.bind_ok (Prog.run_get _), if_pos (same.trans shadows), opens₂]
      have swap : ([unit] ++ [sunit]).Perm [sunit, unit] := List.perm_append_comm
      exact congrArg (fun x => Except.ok (_, x)) (holding_perm swap u₂)
    · rw [if_pos shadows]
      rfl
  · refine ⟨none, _, u₁, opens, ?_, frozen₁, ?_⟩
    · rw [Prog.bind_ok (Prog.run_get _), if_neg (by rw [same]; exact shadows)]
      rfl
    · rw [if_neg shadows]
      rfl

theorem closePair_run {x : Volume} (ready : Ready hlock x) (h : InodeHandle) (s : Option InodeHandle) :
    ∃ y w, (closeShadow s hlock).run (x.holding (handleUnits s ++ h.hb.toList)) = .ok ((), y) ∧
      (mgfsInodeClose h hlock).run y = .ok ((), w) ∧ Frozen x w := by
  obtain ⟨_, y, first, moved⟩ := (closeShadow_passes frozen_frames s).beside h.hb.toList x ready
  obtain ⟨u, rfl, frozen⟩ := Passes.unhold frozen_frames moved
  obtain ⟨_, w, second, moved'⟩ := close_passes frozen_frames h u (frozen.toHold.ready ready)
  rw [holding_nil] at moved'
  exact ⟨_, w, first, second, frozen_frames.trans _ _ _ frozen moved'⟩

end Open

/-! ## The number of an inode -/

/-- The bitmap file at an index and, if there are shadows, its shadow at another. -/
structure Growth.Opened (g : Growth) (idx shadowIdx : Nat) (shadow : Bool) : Prop where
  bitmap : g.bitmap.ref = .member idx
  shadow : g.shadow.map InodeHandle.ref = if shadow then some (.member shadowIdx) else none

section Opened
variable {g : Growth} {idx shadowIdx : Nat} {shadow : Bool}

theorem Growth.Opened.shadow_ref (opened : g.Opened idx shadowIdx shadow) {s : InodeHandle} (is : g.shadow = some s) :
    shadow = true ∧ s.ref = .member shadowIdx := by
  have same := opened.shadow
  rw [is, Option.map_some] at same
  cases shadow with
  | false => cases same
  | true => exact ⟨rfl, Option.some.inj same⟩

theorem Growth.Opened.marks (opened : g.Opened idx shadowIdx shadow) {r : Ref} (marks : g.Marks r) :
    r = .member idx ∨ shadow = true ∧ r = .member shadowIdx := by
  rcases marks with rfl | ⟨s, is, rfl⟩
  · exact Or.inl opened.bitmap
  · exact Or.inr (opened.shadow_ref is)

theorem Growth.Opened.separate (opened : g.Opened idx shadowIdx shadow) (file : ∀ i, g.inode.ref ≠ .member i)
    (ne : idx ≠ shadowIdx) : g.Separate := by
  refine ⟨opened.bitmap ▸ file idx, fun s is => ?_⟩
  rw [(opened.shadow_ref is).2, opened.bitmap]
  exact ⟨file shadowIdx, ne⟩

/-- There is a handle of the shadow if there are shadows. -/
theorem Growth.Opened.handle (opened : g.Opened idx shadowIdx shadow) (shadows : shadow = true) :
    ∃ s, g.shadow = some s ∧ s.ref = .member shadowIdx := by
  have same := opened.shadow
  rw [if_pos shadows] at same
  obtain ⟨s, is, ref⟩ := Option.map_eq_some_iff.1 same
  exact ⟨s, is, ref⟩

end Opened

section Number
variable {v w : Volume} {hlock : Nat}

theorem rootedBut_none (v : Volume) (r : Ref) : v.RootedBut (fun _ => False) r := by
  intro mem agree block inside
  have same : mem = v.mem := funext fun unit => agree unit id
  rw [same]

/-- The number goes back. -/
theorem inodeFree_run (number : Nat) (ready : Ready hlock v) (aligned : szBitmapRec ∣ v.unitSize)
    (ok : ∀ r, r = inodeBitmap ∨ v.shadow = true ∧ r = inodeShadow → v.BitmapOk r ∧ v.HasBit r number)
    (member : v.Member inodeBitmapIdx) (shadow : v.shadow = true → v.Member inodeBitmapShadowIdx) :
    ∃ g w, (inodeFree number hlock).run v = .ok (true, w) ∧
      g.Opened inodeBitmapIdx inodeBitmapShadowIdx v.shadow ∧ g.inode = ⟨.file number, none⟩ ∧
      Frees g [number] [number] nowhere v w := by
  obtain ⟨unit, s, v₁, u, opens, shadows, frozen, is⟩ := openPair_run ready member shadow
  let g : Growth := ⟨⟨.file number, none⟩, ⟨.member inodeBitmapIdx, some unit⟩, s⟩
  have opened : g.Opened inodeBitmapIdx inodeBitmapShadowIdx v.shadow := ⟨rfl, is⟩
  have separate : g.Separate := opened.separate nofun (by decide)
  have sound : Sound g (fun _ => False) v :=
    ⟨aligned, fun r marks => (ok r (opened.marks marks)).1, fun r _ => rootedBut_none v r⟩
  have records : ∀ n ∈ [number], g.Records v n := by
    intro n here r marks
    rw [List.mem_singleton.1 here]
    exact (ok r (opened.marks marks)).2
  have still := Frees.of_frozen (g := g) (A := nowhere) frozen
  have soundU := still.sound (fun _ => False.elim) separate sound
  have readyU : Ready hlock u := frozen.toHold.ready ready
  have recordsU : ∀ n ∈ [number], g.Records u n := fun n here => still.records separate (records n here)
  obtain ⟨v₂, free, frees₂⟩ := bitmapFree_run (v := u.holding (handleUnits s ++ [unit])) (A := nowhere) separate
    soundU.holding readyU recordsU
  obtain ⟨u₂, rfl, freed⟩ := Frees.unhold frees₂
  have readyU₂ : Ready hlock u₂ := freed.toHold.ready readyU
  obtain ⟨v₃, sync, frees₃⟩ := syncShadow_frees (v := u₂.holding (handleUnits s ++ [unit])) (A := nowhere)
    separate (freed.sound (fun _ => False.elim) separate soundU).holding readyU₂
    (fun n here => freed.records separate (recordsU n here)) fun n here => freed.clear here
  obtain ⟨u₃, rfl, synced⟩ := Frees.unhold frees₃
  obtain ⟨y, w, close, close', frozen'⟩ := closePair_run (synced.toHold.ready readyU₂) ⟨.member inodeBitmapIdx, some unit⟩ s
  have all := (((still.trans freed).trans synced).trans (Frees.of_frozen frozen'))
  refine ⟨g, w, ?_, opened, rfl, all⟩
  unfold inodeFree
  rw [Prog.bind_ok opens]
  refine (Prog.bind_ok shadows).trans ((Prog.bind_ok free).trans ((Prog.bind_ok sync).trans ((Prog.bind_ok close).trans
    ((Prog.bind_ok close').trans ?_))))
  rfl

end Number

/-! ## The call -/

/-- The bitmap files of a volume that has shadows or has not. -/
def IsBitmap (shadow : Bool) (r : Ref) : Prop :=
  (r = spaceBitmap ∨ r = inodeBitmap) ∨ shadow = true ∧ (r = spaceShadow ∨ r = inodeShadow)

/-- The bitmap files are found and their bits can be changed, whatever the units in `T` hold. -/
structure Volume.Intact (v : Volume) (T : Nat → Prop) : Prop where
  aligned : szBitmapRec ∣ v.unitSize
  ok : ∀ r, IsBitmap v.shadow r → v.BitmapOk r
  member : ∀ r, IsBitmap v.shadow r → v.Member r.idx
  rooted : ∀ r, r = .superblock ∨ IsBitmap v.shadow r → v.RootedBut T r

/-- The units of an inode: the data units and the address units. -/
def Volume.unitsOf (v : Volume) (r : Ref) : List Nat :=
  v.unitsAt (v.inodes r).level (.locations r) maxLocationIndex (v.inodes r).dunits

/-- An inode with no other name. Its tree is filled, no unit is in it twice, and its units and its number have bits. -/
structure Volume.Deletable (v : Volume) (number : Nat) : Prop where
  links : (v.inodes (.file number)).lc = 0
  filled : TreeFilled v.dev (v.unitSize / 4) (v.inodes (.file number)).level (v.inodes (.file number)).location maxLocationIndex
    (v.inodes (.file number)).dunits
  nodup : (v.unitsOf (.file number)).Nodup
  units : ∀ r, r = spaceBitmap ∨ v.shadow = true ∧ r = spaceShadow → ∀ unit ∈ v.unitsOf (.file number), v.HasBit r unit
  number : ∀ r, r = inodeBitmap ∨ v.shadow = true ∧ r = inodeShadow → v.HasBit r number

/-- The bits of some numbers are clear in a bitmap file, the others are as they were. -/
def Clears (v w : Volume) (r : Ref) (numbers : List Nat) : Prop := ∀ n, w.bit r n = (v.bit r n && !decide (n ∈ numbers))

/-- The inode is deleted: its units and its number are free, and nothing else is. -/
structure Deletes (v : Volume) (h : InodeHandle) (number hlock : Nat) (w : Volume) : Prop where
  run : (mgfsInodeDelete h number hlock).run v = .ok (true, w)
  space : Clears v w spaceBitmap (v.unitsOf h.ref)
  inodes : Clears v w inodeBitmap [number]
  spaceShadow : v.shadow = true → Clears v w spaceShadow (v.unitsOf h.ref)
  inodeShadow : v.shadow = true → Clears v w inodeShadow [number]

section Call
variable {v w x : Volume} {h : InodeHandle} {number hlock : Nat}

theorem Clears.of_marked {r : Ref} {numbers : List Nat} (marked : Marked (v.bits r.idx) (w.bits r.idx) numbers false) :
    Clears v w r numbers := by
  intro n
  rw [Volume.bit_eq, Volume.bit_eq, marked.bits]
  by_cases here : n ∈ numbers <;> simp [here]

/-- The bitmaps are opened before the units go back and closed afterwards. -/
theorem mgfsInodeDelete_run (number : Nat) (ready : Ready hlock v) (links : (v.inodes h.ref).lc = 0) (member : v.Member spaceBitmapIdx)
    (shadow : v.shadow = true → v.Member spaceBitmapShadowIdx) :
    ∃ g u l, Growth.Opened g spaceBitmapIdx spaceBitmapShadowIdx v.shadow ∧ g.inode = h ∧ Frozen v u ∧
      ∀ done y, (deleteUnits h number g hlock).run (u.holding l) = .ok (done, y.holding l) → Ready hlock y →
        ∃ w, (mgfsInodeDelete h number hlock).run v = .ok (done, w) ∧ Frozen y w := by
  obtain ⟨unit, s, v₁, u, opens, shadows, frozen, is⟩ := openPair_run ready member shadow
  refine ⟨⟨h, ⟨.member spaceBitmapIdx, some unit⟩, s⟩, u, handleUnits s ++ [unit], ⟨rfl, is⟩, rfl, frozen,
    fun done y units readyY => ?_⟩
  obtain ⟨z, w, close, close', frozen'⟩ := closePair_run readyY ⟨.member spaceBitmapIdx, some unit⟩ s
  refine ⟨w, ?_, frozen'⟩
  unfold mgfsInodeDelete
  rw [Prog.bind_ok (Prog.run_get v), if_neg (not_not_intro links), Prog.bind_ok opens]
  exact (Prog.bind_ok shadows).trans ((Prog.bind_ok units).trans ((Prog.bind_ok close).trans ((Prog.bind_ok close').trans rfl)))

/-- What is left to do when the units are gone. -/
theorem deleteUnits_run {g : Growth} {l : List Nat} {removed : Nat} {empty done : Bool}
    (removes : (inodeRemoveBlock g hlock (v.inodes h.ref).level ((v.inodes h.ref).location 0) (v.inodes h.ref).dunits).run v =
      .ok ((removed, empty), w))
    (frees : (if empty ∧ (v.inodes h.ref).dunits = removed then inodeFree number hlock else pure false : M Bool).run w =
      .ok (done, x.holding l)) (ready : Ready hlock x) :
    ∃ y, (deleteUnits h number g hlock).run v = .ok (done, y.holding l) ∧ Ready hlock y ∧ y.bits = x.bits := by
  let record : Inode := { x.inodes h.ref with
    flags := if done then (x.inodes h.ref).flags ||| mgfsDeleted else (x.inodes h.ref).flags
    sz := (x.inodes h.ref).dunits * x.unitSize % 2 ^ 32 }
  let z : Volume := { x with inodes := Function.update x.inodes h.ref record }
  obtain ⟨_, y', update, frozen⟩ := (update_passes frozen_frames h).beside l z ready
  obtain ⟨y, rfl, frozen'⟩ := Passes.unhold frozen_frames frozen
  refine ⟨y, ?_, frozen'.toHold.ready ready, frozen'.bits⟩
  unfold deleteUnits
  rw [Prog.bind_ok (Prog.run_get v)]
  refine (Prog.bind_ok removes).trans ?_
  dsimp only
  by_cases all : empty = true ∧ (v.inodes h.ref).dunits = removed
  · rw [if_pos all] at frees ⊢
    exact (Prog.bind_ok frees).trans ((Prog.bind_ok update).trans rfl)
  · rw [if_neg all] at frees ⊢
    exact (Prog.bind_ok frees).trans ((Prog.bind_ok update).trans rfl)

end Call

section Deletes
variable {v w : Volume} {h : InodeHandle} {number hlock : Nat} {g : Growth} {X Y : List Nat} {A : Place → Prop} {T : Nat → Prop}

/-- The members of a meta group that is rooted elsewhere are found as before. -/
theorem Frees.member (frees : Frees g X Y A v w) (within : ∀ unit, A (.unit unit) → T unit) (other : Ref.superblock ≠ g.inode.ref)
    (rooted : v.RootedBut T .superblock) {idx : Nat} (member : v.Member idx) : w.Member idx := by
  obtain ⟨n, same⟩ := frees.inodes .superblock other
  obtain ⟨size, inside, found⟩ := member
  unfold Volume.Member
  dsimp only
  rw [same, frees.unitSize]
  refine ⟨size, inside, ?_⟩
  rw [show mgfsInodeCalcDataPos v.unitSize { v.inodes .superblock with nused := n } (idx * szInodeRecord) szInodeRecord =
    mgfsInodeCalcDataPos v.unitSize (v.inodes .superblock) (idx * szInodeRecord) szInodeRecord from rfl,
    frees.blockUnit within other rooted inside]
  exact found

/-- What a removal clears in the bitmap and in the shadow. -/
theorem Frees.clears (frees : Frees g X X A v w) {idx shadowIdx : Nat} {shadow : Bool}
    (opened : g.Opened idx shadowIdx shadow) :
    Clears v w (.member idx) X ∧ (shadow = true → Clears v w (.member shadowIdx) X) := by
  refine ⟨Clears.of_marked (opened.bitmap ▸ frees.main), fun shadows => ?_⟩
  obtain ⟨s, is, ref⟩ := opened.handle shadows
  exact Clears.of_marked (ref ▸ frees.shadowed s is)

/-- The bits of another bitmap stay. -/
theorem Frees.others (frees : Frees g X Y A v w) {idx shadowIdx : Nat} {shadow : Bool}
    (opened : g.Opened idx shadowIdx shadow) {i : Nat} (ne : i ≠ idx) (ne' : i ≠ shadowIdx) : w.bits i = v.bits i := by
  apply frees.rest
  intro r marks same
  rcases opened.marks marks with rfl | ⟨_, rfl⟩
  · exact ne same
  · exact ne' same

theorem Clears.congr {v' w' : Volume} {r : Ref} {numbers : List Nat} (clears : Clears v w r numbers)
    (before : v'.bits r.idx = v.bits r.idx) (after : w'.bits r.idx = w.bits r.idx) : Clears v' w' r numbers := by
  intro n
  have same := clears n
  rw [Volume.bit_eq, Volume.bit_eq] at same ⊢
  rw [before, after]
  exact same

theorem Volume.Intact.sound (intact : v.Intact T) (opened : g.Opened spaceBitmapIdx spaceBitmapShadowIdx v.shadow) :
    Sound g T v := by
  have bitmaps : ∀ r, g.Marks r → IsBitmap v.shadow r := by
    intro r marks
    rcases opened.marks marks with rfl | ⟨shadows, rfl⟩
    · exact Or.inl (Or.inl rfl)
    · exact Or.inr ⟨shadows, Or.inl rfl⟩
  exact ⟨intact.aligned, fun r marks => intact.ok r (bitmaps r marks), fun r marks => intact.rooted r (Or.inr (bitmaps r marks))⟩

theorem Volume.Deletable.holds (file : v.Deletable number) (is : g.inode.ref = .file number)
    (opened : g.Opened spaceBitmapIdx spaceBitmapShadowIdx v.shadow) :
    Holds g (fun unit => unit ∈ v.unitsOf (.file number)) v (v.inodes (.file number)).level (.locations (.file number))
      maxLocationIndex (v.inodes (.file number)).dunits := by
  refine ⟨fun r same => ?_, file.filled, file.nodup, fun unit member => member, fun unit member r marks => ?_⟩
  · cases same
    exact is.symm
  · refine file.units r ?_ unit member
    rcases opened.marks marks with rfl | ⟨shadows, rfl⟩
    · exact Or.inl rfl
    · exact Or.inr ⟨shadows, rfl⟩

theorem empty_not_deleted (ready : Ready hlock v) (intact : v.Intact T) (links : (v.inodes h.ref).lc = 0)
    (none : (v.inodes h.ref).dunits = 0) (w : Volume) : ¬ Deletes v h number hlock w := by
  intro deletes
  obtain ⟨g, u, l, opened, is, frozen, finish⟩ := mgfsInodeDelete_run number ready links
    (intact.member spaceBitmap (Or.inl (Or.inl rfl))) fun shadows => intact.member spaceShadow (Or.inr ⟨shadows, Or.inl rfl⟩)
  subst is
  have zero : ((u.holding l).inodes g.inode.ref).dunits = 0 := by
    change (u.inodes g.inode.ref).dunits = 0
    rw [frozen.inodes]
    exact none
  have removes : (inodeRemoveBlock g hlock ((u.holding l).inodes g.inode.ref).level
      (((u.holding l).inodes g.inode.ref).location 0) ((u.holding l).inodes g.inode.ref).dunits).run (u.holding l) =
      .ok ((0, false), u.holding l) := by
    rw [zero]
    exact inodeRemoveBlock_none _ _ _ _
  have stays : (if false = true ∧ ((u.holding l).inodes g.inode.ref).dunits = 0 then inodeFree number hlock
      else pure false : M Bool).run (u.holding l) = .ok (false, u.holding l) := by
    rw [if_neg fun both => Bool.noConfusion both.1]
    rfl
  obtain ⟨y, units, readyY, _⟩ := deleteUnits_run removes stays (frozen.toHold.ready ready)
  obtain ⟨w', run, _⟩ := finish false y units readyY
  rw [deletes.run] at run
  cases run

theorem unitsOf_frozen (frozen : Frozen v w) (r : Ref) : w.unitsOf r = v.unitsOf r := by
  unfold Volume.unitsOf Volume.unitsAt Volume.dev Place.table
  simp only [frozen.inodes, frozen.unitSize, frozen.reads, frozen.mem]

/-- The number of the inode can still be freed when its units are. -/
theorem Volume.Intact.later (intact : v.Intact T) (frees : Frees g X Y A v w) (within : ∀ unit, A (.unit unit) → T unit)
    (opened : g.Opened spaceBitmapIdx spaceBitmapShadowIdx v.shadow) (file : ∀ i, g.inode.ref ≠ .member i)
    (super : Ref.superblock ≠ g.inode.ref) {r : Ref} (inode : r = inodeBitmap ∨ v.shadow = true ∧ r = inodeShadow) :
    w.BitmapOk r ∧ w.Member r.idx := by
  have bitmap : IsBitmap v.shadow r := by
    rcases inode with rfl | ⟨shadows, rfl⟩
    · exact Or.inl (Or.inr rfl)
    · exact Or.inr ⟨shadows, Or.inr rfl⟩
  have same : w.bits r.idx = v.bits r.idx := by
    rcases inode with rfl | ⟨_, rfl⟩
    · exact frees.others opened (by decide) (by decide)
    · exact frees.others opened (by decide) (by decide)
  have other : r ≠ g.inode.ref := by
    rcases inode with rfl | ⟨_, rfl⟩
    · exact (file _).symm
    · exact (file _).symm
  have marked : Marked (v.bits r.idx) (w.bits r.idx) [] false := by
    rw [same]
    exact Marked.refl _ _
  exact ⟨frees.bitmapOk within other (intact.rooted r (Or.inr bitmap)) (intact.ok r bitmap) marked,
    frees.member within super (intact.rooted .superblock (Or.inl rfl)) (intact.member r bitmap)⟩

theorem file_deleted (ready : Ready hlock v) (is_file : h.ref = .file number) (file : v.Deletable number)
    (intact : v.Intact fun unit => unit ∈ v.unitsOf (.file number)) (some : (v.inodes (.file number)).dunits ≠ 0) :
    ∃ w, Deletes v h number hlock w := by
  obtain ⟨g, u, l, opened, is, frozen, finish⟩ := mgfsInodeDelete_run number ready (is_file ▸ file.links)
    (intact.member spaceBitmap (Or.inl (Or.inl rfl))) fun shadows => intact.member spaceShadow (Or.inr ⟨shadows, Or.inl rfl⟩)
  subst is
  rw [← is_file] at intact some
  have members : ∀ i, g.inode.ref ≠ .member i := fun i => by rw [is_file]; nofun
  have super : Ref.superblock ≠ g.inode.ref := by rw [is_file]; nofun
  have separate := opened.separate members (by decide)
  have still := Frees.of_frozen (g := g) (A := nowhere) frozen
  have sound := still.sound (fun _ => False.elim) separate (intact.sound opened)
  have readyU : Ready hlock u := frozen.toHold.ready ready
  have record : (u.holding l).inodes g.inode.ref = v.inodes g.inode.ref := congrFun frozen.inodes _
  -- the units go back
  have holds := ((file.holds is_file opened).frozen frozen).holding l
  rw [← is_file] at holds
  rw [← record] at holds
  obtain ⟨empty, x, removes, last, frees, _⟩ := inodeRemoveBlock_all separate sound.holding readyU holds
    (((u.holding l).inodes g.inode.ref).location 0) (Nat.le_refl _)
  have units : (u.holding l).unitsAt ((u.holding l).inodes g.inode.ref).level (.locations g.inode.ref) maxLocationIndex
      ((u.holding l).inodes g.inode.ref).dunits = v.unitsOf g.inode.ref := unitsOf_frozen frozen g.inode.ref
  rw [units] at frees
  obtain ⟨u₁, rfl, freed⟩ := Frees.unhold frees
  have all := still.widen.trans freed
  rw [List.nil_append] at all
  have within : ∀ unit, Touches (.locations g.inode.ref) (v.unitsOf g.inode.ref) (.unit unit) →
      unit ∈ v.unitsOf g.inode.ref := by
    rintro unit (same | ⟨u, member, same⟩)
    · cases same
    · cases same
      exact member
  -- the number goes back
  have later : ∀ r, r = inodeBitmap ∨ v.shadow = true ∧ r = inodeShadow → u₁.BitmapOk r ∧ u₁.Member r.idx :=
    fun r inode => intact.later all within opened members super inode
  have shadow : u₁.shadow = v.shadow := all.shadow
  obtain ⟨g', w', free, opened', is', frees'⟩ := inodeFree_run (v := u₁.holding l) number
    (all.toHold.ready ready) (by rw [show (u₁.holding l).unitSize = v.unitSize from all.unitSize]; exact intact.aligned) (fun r inode => by
      rw [show (u₁.holding l).shadow = v.shadow from shadow] at inode
      refine ⟨(later r inode).1.holding, ?_⟩
      have other : r ≠ g.inode.ref := by
        rcases inode with rfl | ⟨_, rfl⟩
        · exact (members _).symm
        · exact (members _).symm
      obtain ⟨n, same⟩ := all.inodes r other
      have has := file.number r inode
      unfold Volume.HasBit at has ⊢
      rw [show (u₁.holding l).inodes = u₁.inodes from rfl, same]
      exact has) (later inodeBitmap (Or.inl rfl)).2 fun shadows => (later inodeShadow (Or.inr ⟨shadow ▸ shadows, rfl⟩)).2
  obtain ⟨u₂, rfl, freed'⟩ := Frees.unhold frees'
  rw [show (u₁.holding l).shadow = v.shadow from shadow] at opened'
  have empties : empty = true ∧ ((u.holding l).inodes g.inode.ref).dunits = ((u.holding l).inodes g.inode.ref).dunits := by
    refine ⟨last (Nat.pos_of_ne_zero ?_), rfl⟩
    rw [record]
    exact some
  have done : (if empty = true ∧ ((u.holding l).inodes g.inode.ref).dunits = ((u.holding l).inodes g.inode.ref).dunits then
      inodeFree number hlock else pure false : M Bool).run (u₁.holding l) = .ok (true, u₂.holding l) := by
    rw [if_pos empties]
    exact free
  obtain ⟨y, run, readyY, bits⟩ := deleteUnits_run removes done (freed'.toHold.ready (all.toHold.ready ready))
  obtain ⟨w, run', frozen'⟩ := finish true y run readyY
  have bits' : w.bits = u₂.bits := frozen'.bits.trans bits
  have after : ∀ i, i ≠ inodeBitmapIdx → i ≠ inodeBitmapShadowIdx → w.bits i = u₁.bits i := fun i ne ne' => by
    rw [bits', freed'.others opened' ne ne']
  have before : ∀ i, i ≠ spaceBitmapIdx → i ≠ spaceBitmapShadowIdx → v.bits i = u₁.bits i := fun i ne ne' =>
    (all.others opened ne ne').symm
  obtain ⟨space, spaceShadows⟩ := all.clears opened
  obtain ⟨inodes, inodeShadows⟩ := freed'.clears opened'
  exact ⟨w, run', space.congr rfl (after _ (by decide) (by decide)),
    inodes.congr (before _ (by decide) (by decide)) (congrFun bits' _),
    fun shadows => (spaceShadows shadows).congr rfl (after _ (by decide) (by decide)),
    fun shadows => (inodeShadows shadows).congr (before _ (by decide) (by decide)) (congrFun bits' _)⟩

/-- An inode is deleted exactly if it has blocks. -/
theorem deletes_iff (ready : Ready hlock v) (is_file : h.ref = .file number) (file : v.Deletable number)
    (intact : v.Intact fun unit => unit ∈ v.unitsOf (.file number)) :
    (∃ w, Deletes v h number hlock w) ↔ (v.inodes (.file number)).dunits ≠ 0 := by
  constructor
  · rintro ⟨w, deletes⟩ none
    exact empty_not_deleted ready intact (is_file ▸ file.links) (is_file ▸ none) w deletes
  · exact file_deleted ready is_file file intact

end Deletes

/-! ## A file with blocks and one without -/

theorem mounted_blocks (file : Inode) (mem : Nat → Mem) (r : Ref) (is : r = .superblock ∨ r = spaceBitmap ∨ r = inodeBitmap) :
    ∃ unit, Volume.blockUnit { mounted file with mem := mem } r 0 = some unit ∧ (mounted file).blockUnit r 0 = some unit := by
  rcases is with rfl | rfl | rfl
  · exact ⟨_, rfl, rfl⟩
  · exact ⟨_, rfl, rfl⟩
  · exact ⟨_, rfl, rfl⟩

theorem mounted_intact (file : Inode) (T : Nat → Prop) : (mounted file).Intact T := by
  have bitmap : ∀ r, IsBitmap (mounted file).shadow r → r = spaceBitmap ∨ r = inodeBitmap := by
    rintro r (is | ⟨shadows, _⟩)
    · exact is
    · cases shadows
  have counted : CountedFile (wordRec :: List.replicate 15 ⟨0, BitVec.ofNat maxBitmapBits 0⟩) := by
    unfold CountedFile BitmapRec.Counted
    decide
  have first : ∀ r, r = .superblock ∨ r = spaceBitmap ∨ r = inodeBitmap →
      ∀ block < ((mounted file).inodes r).dunits, block = 0 := by
    rintro r (rfl | rfl | rfl) block inside
    · exact Nat.lt_one_iff.1 inside
    · exact Nat.lt_one_iff.1 inside
    · exact Nat.lt_one_iff.1 inside
  have found : ∀ r, r = .superblock ∨ r = spaceBitmap ∨ r = inodeBitmap → ((mounted file).blockUnit r 0).isSome := by
    intro r is
    obtain ⟨unit, _, same⟩ := mounted_blocks file (mounted file).mem r is
    rw [same]
    rfl
  have length : (wordRec :: List.replicate 15 ⟨0, BitVec.ofNat maxBitmapBits 0⟩).length = 1 * (512 / szBitmapRec) := by decide
  have short : maxBitmapBits * (wordRec :: List.replicate 15 ⟨0, BitVec.ofNat maxBitmapBits 0⟩).length ≤ 2 ^ 32 := by decide
  have place : ∀ idx, idx = spaceBitmapIdx ∨ idx = inodeBitmapIdx →
      (mgfsInodeCalcDataPos 512 (metaInode 1) (idx * szInodeRecord) szInodeRecord).size = szInodeRecord ∧
      (mgfsInodeCalcDataPos 512 (metaInode 1) (idx * szInodeRecord) szInodeRecord).block = 0 := by
    rintro idx (rfl | rfl)
    · decide
    · decide
  have member : ∀ idx, idx = spaceBitmapIdx ∨ idx = inodeBitmapIdx → (mounted file).Member idx := by
    intro idx is
    obtain ⟨size, block⟩ := place idx is
    refine ⟨size, Nat.lt_of_le_of_lt (Nat.le_of_eq block) Nat.one_pos, ?_⟩
    exact (congrArg (fun block => ((mounted file).blockUnit .superblock block).isSome) block).trans (found _ (Or.inl rfl))
  refine ⟨show szBitmapRec ∣ 512 by decide, fun r is => ?_, fun r is => ?_, fun r is mem _ block inside => ?_⟩
  · have readable : ∀ block < ((mounted file).inodes r).dunits, ((mounted file).blockUnit r block).isSome := by
      intro block inside
      rw [first r (Or.inr (bitmap r is)) block inside]
      exact found r (Or.inr (bitmap r is))
    rcases bitmap r is with rfl | rfl
    · exact ⟨length, short, Nat.le_refl _, counted, readable⟩
    · exact ⟨length, short, Nat.le_refl _, counted, readable⟩
  · rcases bitmap r is with rfl | rfl
    · exact member _ (Or.inl rfl)
    · exact member _ (Or.inr rfl)
  · have is' : r = .superblock ∨ r = spaceBitmap ∨ r = inodeBitmap := is.imp_right (bitmap r)
    obtain rfl := first r is' block inside
    obtain ⟨unit, moved, same⟩ := mounted_blocks file mem r is'
    rw [moved, same]

theorem twoUnits_deletable : (mounted (twoUnits 1024)).Deletable 7 := by
  refine ⟨rfl, ⟨by decide, by decide⟩, by decide, ?_, ?_⟩
  · rintro r (rfl | ⟨shadows, _⟩)
    · unfold Volume.HasBit
      decide
    · cases shadows
  · rintro r (rfl | ⟨shadows, _⟩)
    · unfold Volume.HasBit
      decide
    · cases shadows

theorem deletes_twoUnits : (∃ w, Deletes (mounted (twoUnits 1024)) ⟨.file 7, some 3⟩ 7 0 w) ↔ (2 : Nat) ≠ 0 :=
  deletes_iff (Or.inl rfl) rfl twoUnits_deletable (mounted_intact _ _)

/-- A file as it was created is not deleted. -/
theorem fresh_not_deleted : ∃ v : Volume, v.Deletable 7 ∧ (∀ T, v.Intact T) ∧ Ready 0 v ∧
    ¬ ∃ w, Deletes v ⟨.file 7, some 3⟩ 7 0 w := by
  refine ⟨mounted (Inode.fresh 0), ⟨rfl, ⟨Nat.zero_le _, by decide⟩, List.nodup_nil, fun _ _ _ => nofun, ?_⟩,
    mounted_intact _, Or.inl rfl, fun ⟨w, deletes⟩ => ?_⟩
  · rintro r (rfl | ⟨shadows, _⟩)
    · unfold Volume.HasBit
      decide
    · cases shadows
  · exact empty_not_deleted (T := fun _ => False) (Or.inl rfl) (mounted_intact _ _) rfl rfl w deletes

end PreTeO.Mgfs3
