import PreTeO.Mgfs3.Volume

/-!
# Block lists of the kernel and of the boot loader (`boot2/fs/mgfs3.c`)

The boot loader reads every address unit into one buffer and keeps no handles. The kernel's walk returns the same units
for the unit size the boot loader works with, and leaves nothing behind but the lock's ticket counter. The boot loader
computes the unit size in 16 bits.
-/

namespace PreTeO.Mgfs3
set_option autoImplicit false
open PreTeO.Lib

/-! ## The boot loader's walk -/

/-- `get_unit_size`, a 16-bit number. -/
def getUnitSize (szSector szUnit : Nat) : Nat := szSector * szUnit % 2 ^ 16

/-- Where the boot loader's walk stands. -/
structure BootWalk where
  table : Table
  c : Nat
  f : Nat

/-- The search at level `l` and the read of the address unit it finds; `dev` is `read_dev_unit`. -/
def bootDescendLevel (dev : Nat → Option Mem) (clSz l : Nat) (w : BootWalk) : BootWalk :=
  let max := pow32 (clSz / 4) l
  match findPointer w.c max w.f with
  | none => w
  | some i =>
    if w.table i ≠ invalidUnitNumber then
      match dev (w.table i) with
      | none => w
      | some m => ⟨entry m, clSz / 4, w.f - i * max % 2 ^ 32⟩
    else w

/-- The loop over the levels. -/
def bootDescend (dev : Nat → Option Mem) (clSz : Nat) : Nat → BootWalk → BootWalk
  | 0, w => w
  | l + 1, w => bootDescend dev clSz l (bootDescendLevel dev clSz (l + 1) w)

/-- The loop that fills the array. -/
def bootListLoop (dev : Nat → Option Mem) (clSz : Nat) (inode : Inode) (first count : Nat) : Nat → List Nat → List Nat
  | 0, out => out
  | fuel + 1, out =>
    if out.length < count then
      let w := bootDescend dev clSz inode.level ⟨inode.location, maxLocationIndex, (first + out.length) % 2 ^ 32⟩
      if w.c ≤ w.f then out
      else
        let (out, invalid) := takeEntries w.table count (w.c - w.f) w.f out
        if invalid then out else bootListLoop dev clSz inode first count fuel out
    else out

/-- `inode_list_dunit` with the unit size it computes. -/
def inodeListDunit (dev : Nat → Option Mem) (clSz : Nat) (inode : Inode) (first count : Nat) : List Nat :=
  bootListLoop dev clSz inode first count count []

/-! ## Locks and buffers -/

/-- The lock is free, or held with the handle the call passes on. -/
def Ready (hlock : Nat) (v : Volume) : Prop := v.held = none ∨ ∃ depth, v.held = some ⟨hlock, depth + 1⟩

variable {v w : Volume} {hlock : Nat}

/-- Between lock and unlock the lock is held; afterwards it is as it was before. -/
theorem locked_spec {A : Type} {body : Nat → M A} {a : A} (ready : Ready hlock v)
    (runs : ∀ g depth t, (body g).run { v with held := some ⟨g, depth + 1⟩, tickets := t } =
      .ok (a, { w with held := some ⟨g, depth + 1⟩, tickets := t })) :
    ∃ t, (locked hlock body).run v = .ok (a, { w with held := v.held, tickets := t }) := by
  unfold locked
  rcases ready with free | ⟨depth, mine⟩
  · refine ⟨v.tickets + 1, ?_⟩
    have lock : (mgfsLock hlock).run v =
        .ok (v.tickets + 1, { v with held := some ⟨v.tickets + 1, 0 + 1⟩, tickets := v.tickets + 1 }) := by
      simp [mgfsLock, Prog.run_bind, free]
    rw [Prog.bind_ok lock, Prog.bind_ok (runs _ _ _)]
    simp [mgfsUnlock, free, Prog.run_bind]
  · refine ⟨v.tickets, ?_⟩
    have lock : (mgfsLock hlock).run v =
        .ok (hlock, { v with held := some ⟨hlock, depth + 1 + 1⟩, tickets := v.tickets }) := by
      simp [mgfsLock, Prog.run_bind, mine]
    rw [Prog.bind_ok lock, Prog.bind_ok (runs _ _ _)]
    simp [mgfsUnlock, mine, Prog.run_bind]

/-- Only the ticket counter of the lock moved. -/
def Ticked (v w : Volume) : Prop := ∃ t, w = { v with tickets := t }

theorem Ticked.refl (v : Volume) : Ticked v v := ⟨v.tickets, rfl⟩

theorem Ticked.trans {u : Volume} (first : Ticked u v) (second : Ticked v w) : Ticked u w := by
  obtain ⟨t, rfl⟩ := first
  obtain ⟨t', rfl⟩ := second
  exact ⟨t', rfl⟩

theorem Ticked.ready (ticked : Ticked v w) (ready : Ready hlock v) : Ready hlock w := by
  obtain ⟨t, rfl⟩ := ticked
  exact ready

/-- The state after a buffer was taken. -/
def Volume.taken (v : Volume) (unit : Nat) : Volume :=
  { v with users := Function.update v.users unit (v.users unit + 1) }

/-- The state after a buffer was given back. -/
def Volume.given (v : Volume) (unit : Nat) : Volume :=
  { v with users := Function.update v.users unit (v.users unit - 1) }

theorem mgfsBufferAlloc_some (ready : Ready hlock v) {unit : Nat} (reads : v.reads unit = true) :
    ∃ w, (mgfsBufferAlloc unit hlock).run v = .ok (some unit, w) ∧ Ticked (v.taken unit) w := by
  obtain ⟨t, run⟩ : ∃ t, (mgfsBufferAlloc unit hlock).run v = .ok (some unit, { v.taken unit with held := v.held, tickets := t }) := by
    apply locked_spec ready
    intro g depth t
    simp [Prog.run_bind, reads, Volume.taken]
  exact ⟨_, run, t, rfl⟩

theorem mgfsBufferAlloc_none (ready : Ready hlock v) {unit : Nat} (fails : v.reads unit = false) :
    ∃ w, (mgfsBufferAlloc unit hlock).run v = .ok (none, w) ∧ Ticked v w := by
  obtain ⟨t, run⟩ : ∃ t, (mgfsBufferAlloc unit hlock).run v = .ok (none, { v with held := v.held, tickets := t }) := by
    apply locked_spec ready
    intro g depth t
    simp [Prog.run_bind, fails]
  exact ⟨_, run, t, rfl⟩

theorem mgfsBufferFree_spec (ready : Ready hlock v) (unit : Nat) :
    ∃ w, (mgfsBufferFree unit hlock).run v = .ok ((), w) ∧ Ticked (v.given unit) w := by
  obtain ⟨t, run⟩ : ∃ t, (mgfsBufferFree unit hlock).run v = .ok ((), { v.given unit with held := v.held, tickets := t }) := by
    apply locked_spec ready
    intro g depth t
    simp [Volume.given]
  exact ⟨_, run, t, rfl⟩

/-! ## The kernel's walk -/

/-- A state with one more user of the buffer of a walk, if it has one. -/
def Volume.walking (v : Volume) : Option Nat → Volume
  | none => v
  | some unit => v.taken unit

theorem mgfsBufferRelease_spec {hb : Option Nat} (ready : Ready hlock w) (ticked : Ticked (v.walking hb) w) :
    ∃ u, (mgfsBufferRelease hb hlock).run w = .ok ((), u) ∧ Ticked v u := by
  cases hb with
  | none => exact ⟨w, rfl, ticked⟩
  | some unit =>
    obtain ⟨u, run, given⟩ := mgfsBufferFree_spec ready unit
    refine ⟨u, run, ?_⟩
    obtain ⟨t, rfl⟩ := ticked
    obtain ⟨t', rfl⟩ := given
    refine ⟨t', ?_⟩
    simp [Volume.given, Volume.walking, Volume.taken]

/-- What the boot loader would read of a mounted volume. -/
def Volume.dev (v : Volume) (unit : Nat) : Option Mem := if v.reads unit then some (v.mem unit) else none

/-- A walk without its buffer. -/
def Walk.boot (w : Walk) : BootWalk := ⟨w.table, w.c, w.f⟩

theorem descendLevel_spec (ready : Ready hlock v) (l : Nat) {walk : Walk} (empty : walk.hb = none) :
    ∃ walk' w, (descendLevel hlock l walk).run v = .ok (walk', w) ∧
      walk'.boot = bootDescendLevel v.dev v.unitSize l walk.boot ∧ Ticked (v.walking walk'.hb) w := by
  have stays : Ticked (v.walking walk.hb) v := by
    rw [empty]
    exact Ticked.refl v
  unfold descendLevel
  rw [Prog.bind_ok (Prog.run_get v)]
  cases found : findPointer walk.c (pow32 (v.unitSize / 4) l) walk.f with
  | none =>
    refine ⟨walk, v, ?_, ?_, stays⟩
    · simp only [found, Prog.run_pure]
    · simp [bootDescendLevel, Walk.boot, found]
  | some i =>
    simp only [found]
    by_cases valid : walk.table i = invalidUnitNumber
    · refine ⟨walk, v, ?_, ?_, stays⟩
      · simp [valid]
      · simp [bootDescendLevel, Walk.boot, found, valid]
    · simp only [ne_eq, valid, not_false_eq_true, if_true]
      cases reads : v.reads (walk.table i) with
      | true =>
        obtain ⟨w, run, ticked⟩ := mgfsBufferAlloc_some ready reads
        rw [Prog.bind_ok run]
        refine ⟨_, w, rfl, ?_, ticked⟩
        simp [bootDescendLevel, Walk.boot, found, valid, Volume.dev, reads]
      | false =>
        obtain ⟨w, run, ticked⟩ := mgfsBufferAlloc_none ready reads
        rw [Prog.bind_ok run]
        refine ⟨_, w, rfl, ?_, ticked⟩
        simp [bootDescendLevel, Walk.boot, found, valid, Volume.dev, reads]

/-- The walk down the tree finds what the boot loader's finds. -/
theorem descend_spec (ready : Ready hlock v) (l : Nat) {walk : Walk} (empty : walk.hb = none) :
    ∃ walk' w, (descend hlock l walk).run v = .ok (walk', w) ∧
      walk'.boot = bootDescend v.dev v.unitSize l walk.boot ∧ Ticked (v.walking walk'.hb) w := by
  induction l generalizing v walk with
  | zero =>
    refine ⟨walk, v, rfl, rfl, ?_⟩
    rw [empty]
    exact Ticked.refl v
  | succ l ih =>
    obtain ⟨walk₁, v₁, run, boot, ticked⟩ := descendLevel_spec ready (l + 1) empty
    have ready₁ : Ready hlock v₁ := by
      apply ticked.ready
      cases walk₁.hb <;> exact ready
    unfold descend bootDescend
    rw [Prog.bind_ok run, ← boot]
    split
    · obtain ⟨v₂, release, ticked₂⟩ := mgfsBufferRelease_spec ready₁ ticked
      obtain ⟨t, rfl⟩ := ticked₂
      have empty₁ : ({ walk₁ with hb := none } : Walk).hb = none := rfl
      obtain ⟨walk', w, rest, boot', ticked'⟩ := ih (v := { v with tickets := t }) ready empty₁
      refine ⟨walk', w, by rw [Prog.bind_ok release, rest], boot', ?_⟩
      obtain ⟨t', rfl⟩ := ticked'
      exact ⟨t', by cases walk'.hb <;> rfl⟩
    · next last =>
      have : l = 0 := by omega
      subst this
      exact ⟨walk₁, v₁, rfl, rfl, ticked⟩

theorem listLoop_spec (ready : Ready hlock v) (inode : Inode) (first count fuel : Nat) (out : List Nat) :
    ∃ w, (listLoop inode first count hlock fuel out).run v =
        .ok (bootListLoop v.dev v.unitSize inode first count fuel out, w) ∧ Ticked v w := by
  induction fuel generalizing v out with
  | zero => exact ⟨v, rfl, Ticked.refl v⟩
  | succ fuel ih =>
    unfold listLoop bootListLoop
    split
    · have empty : (Walk.mk inode.location maxLocationIndex ((first + out.length) % 2 ^ 32) none).hb = none := rfl
      obtain ⟨walk, v₁, run, boot, ticked⟩ := descend_spec ready inode.level empty
      have ready₁ : Ready hlock v₁ := by
        apply ticked.ready
        cases walk.hb <;> exact ready
      obtain ⟨v₂, release, ticked₂⟩ := mgfsBufferRelease_spec ready₁ ticked
      rw [Prog.bind_ok run]
      dsimp only [Walk.boot] at boot
      rw [← boot]
      dsimp only
      split
      · exact ⟨v₂, by rw [Prog.bind_ok release]; rfl, ticked₂⟩
      · rw [Prog.bind_ok release]
        split
        · exact ⟨v₂, rfl, ticked₂⟩
        · obtain ⟨w, rest, ticked'⟩ := ih (ticked₂.ready ready) (takeEntries walk.table count (walk.c - walk.f) walk.f out).1
          obtain ⟨t, rfl⟩ := ticked₂
          exact ⟨w, rest, Ticked.trans ⟨t, rfl⟩ ticked'⟩
    · exact ⟨v, rfl, Ticked.refl v⟩

/-- The kernel lists the units the boot loader would list with the same unit size. -/
theorem mgfsInodeListDunit_spec (ready : Ready hlock v) (ref : Ref) (first count : Nat) :
    ∃ w, (mgfsInodeListDunit ref first count hlock).run v =
        .ok (inodeListDunit v.dev v.unitSize (v.inodes ref) first count, w) ∧ Ticked v w :=
  listLoop_spec ready (v.inodes ref) first count count []

/-! ## The unit size of 16 bits -/

/-- The kernel returns the units the boot loader returns, in the same order. -/
def ListsAgree (v : Volume) (szSector szUnit : Nat) (ref : Ref) (first count hlock : Nat) : Prop :=
  ∃ w, (mgfsInodeListDunit ref first count hlock).run v =
    .ok (inodeListDunit v.dev (getUnitSize szSector szUnit) (v.inodes ref) first count, w)

/-- An inode with one address unit. -/
def oneLeaf : Inode := ⟨0, 0, 0, 1, fun i => if i = 0 then 1 else invalidUnitNumber, 0, 0⟩

/-- A volume of zeros on which every inode has one address unit. -/
def zeroVolume (unitSize : Nat) : Volume :=
  { unitSize := unitSize
    shadow := false
    reads := fun _ => true
    mem := fun _ _ => 0#8
    disk := fun _ _ => 0#8
    unsaved := fun _ => false
    users := fun _ => 0
    inodes := fun _ => oneLeaf
    stored := fun _ => oneLeaf
    bits := fun _ => []
    held := none
    tickets := 0 }

/-- With large units the last block that fits in 64 kilobytes of addresses is in the address unit. -/
theorem inodeListDunit_large {size : Nat} (large : 2 ^ 16 ≤ size) (small : size < 2 ^ 24) :
    inodeListDunit (zeroVolume size).dev size oneLeaf 16383 1 = [0] := by
  have max : pow32 (size / 4) 1 = size / 4 := by
    simp only [pow32]
    omega
  have found : findPointer maxLocationIndex (size / 4) 16383 = some 0 := by
    have first : 16383 < (0 + 1) * (size / 4) % 2 ^ 32 := by omega
    unfold findPointer maxLocationIndex
    rw [show List.range 8 = 0 :: [1, 2, 3, 4, 5, 6, 7] from rfl, List.find?_cons_of_pos (by simpa using first)]
  have zero : entry (fun _ => 0#8) 16383 = 0 := Mem.load_zero fun _ _ _ => rfl
  obtain ⟨left, more⟩ : ∃ left, size / 4 - 16383 = left + 1 := ⟨size / 4 - 16384, by omega⟩
  have step : bootDescend (zeroVolume size).dev size 1 ⟨oneLeaf.location, maxLocationIndex, 16383⟩ =
      ⟨entry fun _ => 0#8, size / 4, 16383⟩ := by
    simp [bootDescend, bootDescendLevel, max, found, oneLeaf, invalidUnitNumber, Volume.dev, zeroVolume]
  simp only [inodeListDunit, bootListLoop, List.length_nil, Nat.add_zero, show 16383 % 2 ^ 32 = 16383 from rfl,
    show oneLeaf.level = 1 from rfl, step]
  rw [if_pos (by decide), if_neg (by omega), more]
  simp [takeEntries, zero, invalidUnitNumber]

/-- With small units it is not. -/
theorem inodeListDunit_small (dev : Nat → Option Mem) {size : Nat} (small : size < 2 ^ 16) :
    inodeListDunit dev size oneLeaf 16383 1 = [] := by
  have max : pow32 (size / 4) 1 = size / 4 := by
    simp only [pow32]
    omega
  have step : bootDescend dev size 1 ⟨oneLeaf.location, maxLocationIndex, 16383⟩ =
      ⟨oneLeaf.location, maxLocationIndex, 16383⟩ := by
    unfold bootDescend bootDescendLevel
    dsimp only
    rw [max]
    split
    · rfl
    · next i found =>
      have holds : 16383 < (i + 1) * (size / 4) % 2 ^ 32 := by simpa using List.find?_some found
      have later : i ≠ 0 := by
        rintro rfl
        omega
      simp [oneLeaf, later, bootDescend]
  simp only [inodeListDunit, bootListLoop, List.length_nil, Nat.add_zero, show 16383 % 2 ^ 32 = 16383 from rfl,
    show oneLeaf.level = 1 from rfl, step]
  rfl

/-- The two lists differ on some volume if the unit size does not fit in 16 bits. -/
theorem lists_differ {szSector szUnit : Nat} (large : 2 ^ 16 ≤ szSector * szUnit) (small : szSector * szUnit < 2 ^ 24) :
    ¬ ListsAgree (zeroVolume (szSector * szUnit)) szSector szUnit (.file 0) 16383 1 0 := by
  rintro ⟨w, run⟩
  have ready : Ready 0 (zeroVolume (szSector * szUnit)) := Or.inl rfl
  obtain ⟨w', run', -⟩ := mgfsInodeListDunit_spec ready (.file 0) 16383 1
  rw [run'] at run
  have kernel := inodeListDunit_large large small
  have boot := inodeListDunit_small (zeroVolume (szSector * szUnit)).dev
    (show getUnitSize szSector szUnit < 2 ^ 16 from Nat.mod_lt _ (by decide))
  have same := congrArg Prod.fst (Except.ok.inj run)
  change inodeListDunit _ (szSector * szUnit) oneLeaf 16383 1 = inodeListDunit _ _ oneLeaf 16383 1 at same
  rw [kernel, boot] at same
  cases same

end PreTeO.Mgfs3
