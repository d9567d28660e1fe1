import PreTeO.Lib.Run
import PreTeO.Mgfs3.FileSize

/-!
# The recorded size over a sequence of writes

`mgfs_inode_write` raises the recorded size to the offset and the bytes written, also where it wrote none. So the size is
right after every write of a sequence in which each write starts within the recorded size or gets to a unit.
-/

namespace PreTeO.Mgfs3
set_option autoImplicit false
open PreTeO.Lib

/-! ## What the loops store -/

section Loops
variable {ref : Ref} {idx hlock total : Nat} {data : Nat → Byte} {v w : Volume}

/-- A buffer that is handed out is that of the unit, and only a unit that can be read has one. -/
theorem bufferAlloc_result {unit : Nat} {hb : Option Nat} (run : (mgfsBufferAlloc unit hlock).run v = .ok (hb, w)) :
    hb = if v.reads unit = true then some unit else none := by
  obtain ⟨lock, x, y, locks, inside, _⟩ := @locked_inside .superblock 0 _ _ _ _ _ _ run
  obtain ⟨_, _, start, inside⟩ := Prog.bind_eq_ok inside
  cases start
  rw [← locks.reads]
  split at inside
  · next reads =>
    obtain ⟨_, _, _, inside⟩ := Prog.bind_eq_ok inside
    cases inside
    rw [if_pos reads]
  · next fails =>
    cases inside
    rw [if_neg fails]

theorem still_writeUnits (array : List Nat) (r offset : Nat) :
    Along (Still ref idx) (writeUnits data total hlock array r offset) := by
  induction array generalizing r offset with
  | nil => exact still_pure _
  | cons x rest ih =>
    apply still_bind (still_alloc _ _)
    intro hb
    cases hb with
    | none => exact still_pure _
    | some unit =>
      apply still_bind still_get
      intro v
      dsimp only
      apply still_bind (still_putBytes _ _ _ _)
      intro _
      apply still_bind (still_write _ _)
      intro _
      exact still_bind (still_free _ _) fun _ => ih _ _

theorem still_writeLoop (other : Ref) (fuel block count r offset : Nat) :
    Along (Still ref idx) (writeLoop other data total hlock fuel block count r offset) := by
  induction fuel generalizing block count r offset with
  | zero => exact still_pure r
  | succ fuel ih =>
    apply Along.ite
    · intro _
      apply still_bind (still_list _ _ _ _)
      intro array
      apply Along.ite
      · intro _
        exact still_pure r
      · intro _
        apply still_bind (still_writeUnits _ _ _)
        intro c
        apply Along.ite
        · intro _
          exact ih _ _ _ _
        · intro _
          exact still_pure _
    · intro _
      exact still_pure r

/-- What one unit takes: nothing if it cannot be read. -/
theorem writeUnits_cons {x r offset : Nat} {rest : List Nat} {c : Copied}
    (run : (writeUnits data total hlock (x :: rest) r offset).run v = .ok (c, w)) :
    v.reads x = false ∧ c = ⟨r, false⟩ ∨ v.reads x = true ∧ ∃ u,
      (writeUnits data total hlock rest (r + min (v.unitSize - offset) (total - r)) 0).run u = .ok (c, w) := by
  obtain ⟨hb, v₁, alloc, run⟩ := Prog.bind_eq_ok run
  have same := (@still_alloc .superblock 0 _ _ _ _ _ alloc).unitSize
  have result := bufferAlloc_result alloc
  split at result
  · next reads =>
    subst result
    obtain ⟨_, _, start, run⟩ := Prog.bind_eq_ok run
    cases start
    obtain ⟨_, _, _, run⟩ := Prog.bind_eq_ok run
    obtain ⟨_, _, _, run⟩ := Prog.bind_eq_ok run
    obtain ⟨_, u, _, run⟩ := Prog.bind_eq_ok run
    rw [same] at run
    exact Or.inr ⟨reads, u, run⟩
  · next fails =>
    subst result
    cases run
    exact Or.inl ⟨Bool.eq_false_iff.2 fails, rfl⟩

/-- Bytes are only added, and never more than there are. -/
theorem writeUnits_bounds (array : List Nat) {r offset : Nat} (le : r ≤ total) {c : Copied} {v : Volume}
    (run : (writeUnits data total hlock array r offset).run v = .ok (c, w)) : r ≤ c.r ∧ c.r ≤ total := by
  induction array generalizing r offset v with
  | nil =>
    cases run
    exact ⟨Nat.le_refl r, le⟩
  | cons x rest ih =>
    obtain ⟨_, rfl⟩ | ⟨_, u, later⟩ := writeUnits_cons run
    · exact ⟨Nat.le_refl r, le⟩
    · obtain ⟨more, most⟩ := ih (by omega) later
      exact ⟨by omega, most⟩

theorem writeLoop_bounds {fuel block count r offset n : Nat} (le : r ≤ total) {v : Volume}
    (run : (writeLoop ref data total hlock fuel block count r offset).run v = .ok (n, w)) : r ≤ n ∧ n ≤ total := by
  have nothing : r ≤ r ∧ r ≤ total := ⟨Nat.le_refl r, le⟩
  induction fuel generalizing block count r offset v with
  | zero =>
    cases run
    exact nothing
  | succ fuel ih =>
    unfold writeLoop at run
    split at run
    · obtain ⟨array, v₁, list, run⟩ := Prog.bind_eq_ok run
      split at run
      · cases run
        exact nothing
      · obtain ⟨c, v₂, units, run⟩ := Prog.bind_eq_ok run
        have added := writeUnits_bounds array le units
        split at run
        · obtain ⟨more, most⟩ := ih added.2 run ⟨Nat.le_refl _, added.2⟩
          exact ⟨Nat.le_trans added.1 more, most⟩
        · cases run
          exact added
    · cases run
      exact nothing

/-- The unit of the first block of a position is listed and can be read, and there is a byte to store. -/
def Stores (v : Volume) (ref : Ref) (hlock : Nat) (pos : DataPos) : Prop :=
  0 < pos.size ∧ ∃ x rest u,
    (mgfsInodeListDunit ref pos.block (min pos.count maxUnitArray) hlock).run v = .ok (x :: rest, u) ∧ v.reads x = true

/-- The loop of a write stores a byte if and only if it gets to a unit. -/
theorem writeLoop_stores {pos : DataPos} (inside : 0 < pos.size → pos.offset < v.unitSize ∧ 0 < pos.count) {n : Nat}
    (run : (writeLoop ref data pos.size hlock pos.count pos.block pos.count 0 pos.offset).run v = .ok (n, w)) :
    0 < n ↔ Stores v ref hlock pos := by
  obtain ⟨total, block, offset, count⟩ := pos
  dsimp only at inside run ⊢
  by_cases some : 0 < total
  · obtain ⟨low, blocks⟩ := inside some
    obtain ⟨fuel, rfl⟩ : ∃ fuel, count = fuel + 1 := ⟨count - 1, by omega⟩
    unfold writeLoop at run
    rw [if_pos some] at run
    obtain ⟨array, v₁, list, run⟩ := Prog.bind_eq_ok run
    have listed : Still ref 0 v v₁ := still_list _ _ _ _ _ _ _ list
    cases array with
    | nil =>
      cases run
      refine iff_of_false (Nat.lt_irrefl 0) ?_
      rintro ⟨_, x, rest, u, other, _⟩
      rw [list] at other
      cases other
    | cons x rest =>
      rw [if_neg (List.cons_ne_nil x rest)] at run
      obtain ⟨c, v₂, units, run⟩ := Prog.bind_eq_ok run
      obtain ⟨fails, rfl⟩ | ⟨reads, u, later⟩ := writeUnits_cons units
      · cases run
        refine iff_of_false (Nat.lt_irrefl 0) ?_
        rintro ⟨_, y, rest', u, other, readable⟩
        rw [list] at other
        cases other
        rw [← listed.reads, fails] at readable
        cases readable
      · rw [listed.unitSize, Nat.zero_add] at later
        have added := writeUnits_bounds rest (by omega) later
        have grown : c.r ≤ n := by
          split at run
          · exact (writeLoop_bounds added.2 run).1
          · cases run
            exact Nat.le_refl _
        refine iff_of_true (by omega) ⟨some, x, rest, v₁, list, ?_⟩
        rwa [← listed.reads]
  · refine iff_of_false ?_ fun stores => some stores.1
    have := (writeLoop_bounds (Nat.zero_le _) run).2
    omega

end Loops

/-! ## One write -/

/-- The write gets to a unit: there is a handle, the append leaves enough for the write as the code counts it, and the unit
of the first block is found and can be read. -/
def Reaches (v : Volume) (h : InodeHandle) (offset size hlock : Nat) : Prop :=
  h.hb ≠ none ∧ ∃ n u, (growInode h offset size hlock).run v = .ok (n, u) ∧ endOf offset size ≤ n ∧
    Stores u h.ref hlock (mgfsInodeCalcDataPos u.unitSize (u.inodes h.ref) offset size)

/-- The recorded size lies within the units, and the volume does not have more units than a counter counts. -/
structure Fits (ref : Ref) (v : Volume) : Prop where
  within : (v.inodes ref).sz ≤ (v.inodes ref).dunits * v.unitSize
  room : (v.inodes ref).dunits + clearBits (v.bits spaceBitmapIdx) < 2 ^ 32

/-- A write that returns `r` leaves the recorded size within the units, raises it by no more than what it wrote, and not at
all if it wrote nothing. -/
structure SizeKept (ref : Ref) (offset r : Nat) (v w : Volume) : Prop where
  within : (w.inodes ref).sz ≤ (w.inodes ref).dunits * w.unitSize
  most : (w.inodes ref).sz ≤ max (v.inodes ref).sz (offset + r)
  nothing : r = 0 → (w.inodes ref).sz = (v.inodes ref).sz

/-- What a position of at least one byte says. -/
theorem calcDataPos_some {unitSize offset size : Nat} {inode : Inode}
    (some : 0 < (mgfsInodeCalcDataPos unitSize inode offset size).size) :
    (mgfsInodeCalcDataPos unitSize inode offset size).offset < unitSize ∧
      0 < (mgfsInodeCalcDataPos unitSize inode offset size).count ∧
      offset + (mgfsInodeCalcDataPos unitSize inode offset size).size ≤ inode.dunits * unitSize := by
  have low : unitSize * inode.dunits % 2 ^ 32 ≤ inode.dunits * unitSize := by
    rw [Nat.mul_comm]
    exact Nat.mod_le _ _
  rw [calcDataPos_eq] at some ⊢
  unfold exactPos at some ⊢
  split at some
  · next inside =>
    rw [if_pos inside]
    have pos := unitSize_pos inside
    dsimp only at some ⊢
    refine ⟨Nat.mod_lt _ pos, ?_, by omega⟩
    unfold unitsFor
    exact Nat.div_pos (by omega) pos
  · exact absurd some (Nat.lt_irrefl 0)

/-- A write within the units of a file gets to a unit if there is a handle and the block of the offset has a unit that can be
read: no append comes before it. -/
theorem reaches_within_iff {v : Volume} {h : InodeHandle} {offset size hlock : Nat} (ready : Ready hlock v)
    (bytes : 0 < size) (enough : offset + size ≤ v.unitSize * (v.inodes h.ref).dunits % 2 ^ 32)
    (clear : let pos := mgfsInodeCalcDataPos v.unitSize (v.inodes h.ref) offset size
      ClearRounds v.dev v.unitSize (v.inodes h.ref) pos.block (min pos.count maxUnitArray)) :
    Reaches v h offset size hlock ↔
      h.hb ≠ none ∧ ∃ x, unitOf v.dev v.unitSize (v.inodes h.ref) (offset / v.unitSize) = some x ∧ v.reads x = true := by
  have inside : offset < v.unitSize * (v.inodes h.ref).dunits % 2 ^ 32 := by omega
  have low : endOf offset size ≤ (v.inodes h.ref).dunits * v.unitSize % 2 ^ 32 := by
    rw [Nat.mul_comm (v.inodes h.ref).dunits]
    exact Nat.le_trans (Nat.mod_le _ _) enough
  have grow : (growInode h offset size hlock).run v = .ok ((v.inodes h.ref).dunits * v.unitSize % 2 ^ 32, v) := by
    unfold growInode
    rw [Prog.bind_ok (Prog.run_get v)]
    dsimp only
    rw [if_neg (Nat.not_lt.mpr low)]
    rfl
  have stores : 0 < (mgfsInodeCalcDataPos v.unitSize (v.inodes h.ref) offset size).size := by
    rw [calcDataPos_eq, exactPos, if_pos inside]
    dsimp only
    omega
  have block : (mgfsInodeCalcDataPos v.unitSize (v.inodes h.ref) offset size).block = offset / v.unitSize := by
    rw [calcDataPos_eq, exactPos, if_pos inside]
  obtain ⟨-, count, -⟩ := calcDataPos_some stores
  obtain ⟨w, list, -⟩ := mgfsInodeListDunit_spec ready h.ref
    (mgfsInodeCalcDataPos v.unitSize (v.inodes h.ref) offset size).block
    (min (mgfsInodeCalcDataPos v.unitSize (v.inodes h.ref) offset size).count maxUnitArray)
  obtain ⟨n, more⟩ : ∃ n, min (mgfsInodeCalcDataPos v.unitSize (v.inodes h.ref) offset size).count maxUnitArray = n + 1 :=
    ⟨_, (Nat.succ_pred_eq_of_pos (Nat.lt_min.mpr ⟨count, by decide⟩)).symm⟩
  rw [inodeListDunit_units clear] at list
  constructor
  · rintro ⟨valid, n', u, run, -, -, x, rest, u', listed, reads⟩
    obtain ⟨rfl, rfl⟩ := Prod.mk.inj (Except.ok.inj (grow.symm.trans run))
    refine ⟨valid, x, ?_, reads⟩
    have units := congrArg Prod.fst (Except.ok.inj (list.symm.trans listed))
    dsimp only at units
    have first := @unitsFrom_get _ _ _ 0 x (by rw [units]; rfl)
    rwa [Nat.add_zero, block] at first
  · rintro ⟨valid, x, here, reads⟩
    rw [more, block, unitsFrom_cons here] at list
    rw [← block, ← more] at list
    exact ⟨valid, _, v, grow, low, stores, x, _, w, list, reads⟩

/-- What a write that returns `r` does besides the bytes: `k` units are hung in, the size is the maximum, and bytes are written
if and only if it gets to a unit. -/
structure Written (v w : Volume) (h : InodeHandle) (offset size hlock k r : Nat) : Prop where
  unitSize : w.unitSize = v.unitSize
  reads : w.reads = v.reads
  dunits : (w.inodes h.ref).dunits ≡ (v.inodes h.ref).dunits + k [MOD 2 ^ 32]
  small : (v.inodes h.ref).dunits < 2 ^ 32 → (w.inodes h.ref).dunits < 2 ^ 32
  clear : clearBits (w.bits spaceBitmapIdx) + k ≤ clearBits (v.bits spaceBitmapIdx)
  sz : (w.inodes h.ref).sz = max (v.inodes h.ref).sz (endOf offset r)
  within : 0 < r → offset + r ≤ (w.inodes h.ref).dunits * w.unitSize
  reaches : 0 < r ↔ Reaches v h offset size hlock

section Write
variable {h : InodeHandle} {offset size hlock r : Nat} {data : Nat → Byte} {v w : Volume}

theorem growInode_appends {n : Nat} (run : (growInode h offset size hlock).run v = .ok (n, w)) :
    ∃ k, Appends h.ref spaceBitmapIdx k v w := by
  have cases := growInode_cases run
  split at cases
  · obtain ⟨k, append, _⟩ := cases
    exact ⟨k, appendBlocks_appends append⟩
  · obtain ⟨rfl, _⟩ := cases
    exact ⟨0, (Still.refl _).appends⟩

/-- What the part of a write before the record is changed has done when it has written `r` bytes. -/
structure Put (v w : Volume) (h : InodeHandle) (offset size hlock k r : Nat) : Prop extends
    Appends h.ref spaceBitmapIdx k v w where
  within : 0 < r → offset + r ≤ (w.inodes h.ref).dunits * w.unitSize
  reaches : 0 < r ↔ Reaches v h offset size hlock

/-- Nothing was put where the write does not get to a unit. -/
theorem Put.nothing {k : Nat} (appends : Appends h.ref spaceBitmapIdx k v w) (never : ¬ Reaches v h offset size hlock) :
    Put v w h offset size hlock k 0 :=
  ⟨appends, fun some => absurd some (Nat.lt_irrefl 0), iff_of_false (Nat.lt_irrefl 0) never⟩

/-- The loop of a write whose append left enough. -/
theorem writeLoop_put {n : Nat} {u : Volume} (valid : h.hb ≠ none) (grow : (growInode h offset size hlock).run v = .ok (n, u))
    (enough : endOf offset size ≤ n) {pos : DataPos}
    (at_pos : pos = mgfsInodeCalcDataPos u.unitSize (u.inodes h.ref) offset size)
    (run : (writeLoop h.ref data pos.size hlock pos.count pos.block pos.count 0 pos.offset).run u = .ok (r, w)) :
    ∃ k, Put v w h offset size hlock k r := by
  subst at_pos
  obtain ⟨k, appends⟩ := growInode_appends grow
  have still : Still h.ref spaceBitmapIdx u w := still_writeLoop _ _ _ _ _ _ _ _ _ run
  have most := (writeLoop_bounds (Nat.zero_le _) run).2
  have position := @calcDataPos_some u.unitSize offset size (u.inodes h.ref)
  have stores := writeLoop_stores (fun some => ⟨(position some).1, (position some).2.1⟩) run
  refine ⟨k, appends.trans still.appends, fun some => ?_, stores.trans ⟨fun stored => ⟨valid, n, u, grow, enough, stored⟩, ?_⟩⟩
  · have inside := (position (by omega)).2.2
    rw [still.dunits, still.unitSize]
    omega
  · rintro ⟨_, n', u', grow', _, stored⟩
    rw [grow] at grow'
    cases grow'
    exact stored

/-- The end of a write: the record, and its unit. -/
theorem Put.written {k r' : Nat} {u : Volume} (put : Put v u h offset size hlock k r')
    (run : (do
      putInode h.ref fun inode => { inode with sz := max inode.sz (endOf offset r') }
      mgfsInodeUpdate h hlock
      return r' : M Nat).run u = .ok (r, w)) : Written v w h offset size hlock k r := by
  obtain ⟨_, u₁, record, run⟩ := Prog.bind_eq_ok run
  obtain ⟨_, u₂, update, run⟩ := Prog.bind_eq_ok run
  cases run
  cases record
  have still : Still h.ref spaceBitmapIdx _ w := still_update _ _ _ _ _ update
  have dunits : (w.inodes h.ref).dunits = (u.inodes h.ref).dunits := by
    rw [still.dunits]
    simp
  have sz : (w.inodes h.ref).sz = max (u.inodes h.ref).sz (endOf offset r) := by
    rw [still.sz]
    simp
  refine ⟨still.unitSize.trans put.unitSize, still.reads.trans put.reads, ?_, ?_, ?_, ?_, ?_, put.reaches⟩
  · rw [dunits]
    exact put.dunits
  · rw [dunits]
    exact put.small
  · rw [still.bits]
    exact put.clear
  · rw [sz, put.sz]
  · rw [dunits, still.unitSize]
    exact put.within

theorem mgfsInodeWrite_written (run : (mgfsInodeWrite h offset size data hlock).run v = .ok (r, w)) :
    ∃ k, Written v w h offset size hlock k r := by
  unfold mgfsInodeWrite at run
  split at run
  · next valid =>
    obtain ⟨n, u, grow, run⟩ := Prog.bind_eq_ok run
    obtain ⟨_, _, start, run⟩ := Prog.bind_eq_ok run
    cases start
    dsimp only at run
    split at run
    · next enough =>
      obtain ⟨r', u', loop, run⟩ := Prog.bind_eq_ok run
      obtain ⟨k, put⟩ := writeLoop_put valid grow enough rfl loop
      exact ⟨k, put.written run⟩
    · next short =>
      obtain ⟨k, appends⟩ := growInode_appends grow
      refine ⟨k, (Put.nothing appends ?_).written run⟩
      rintro ⟨_, n', u', grow', enough, _⟩
      rw [grow] at grow'
      cases grow'
      exact short enough
  · next invalid =>
    have appends : Appends h.ref spaceBitmapIdx 0 v v := (Still.refl v).appends
    exact ⟨0, (Put.nothing appends fun reaches => invalid reaches.1).written run⟩

/-- The counts stay exact. -/
theorem Written.exact {k : Nat} (written : Written v w h offset size hlock k r) (fits : Fits h.ref v) :
    (w.inodes h.ref).dunits = (v.inodes h.ref).dunits + k :=
  count_exact written.dunits written.small written.clear fits.room

theorem Written.grows {k : Nat} (written : Written v w h offset size hlock k r) (fits : Fits h.ref v) :
    (v.inodes h.ref).dunits * v.unitSize ≤ (w.inodes h.ref).dunits * w.unitSize := by
  rw [written.exact fits, written.unitSize]
  exact Nat.mul_le_mul_right _ (Nat.le_add_right _ _)

/-- Starting within the recorded size or getting to a unit keeps the size right. -/
theorem Written.kept {k : Nat} (written : Written v w h offset size hlock k r) (fits : Fits h.ref v)
    (meets : offset ≤ (v.inodes h.ref).sz ∨ Reaches v h offset size hlock) : SizeKept h.ref offset r v w := by
  have low : endOf offset r ≤ offset + r := Nat.mod_le _ _
  have grows := written.grows fits
  have before := fits.within
  have sz := written.sz
  rcases Nat.eq_zero_or_pos r with rfl | some
  · have inside : offset ≤ (v.inodes h.ref).sz := meets.resolve_right fun reaches =>
      absurd (written.reaches.2 reaches) (Nat.lt_irrefl 0)
    exact ⟨by omega, by omega, fun _ => by omega⟩
  · have within := written.within some
    exact ⟨by omega, by omega, fun none => by omega⟩

/-- A write keeps the size right if and only if it starts within the recorded size or gets to a unit. -/
theorem Written.kept_iff {k : Nat} (written : Written v w h offset size hlock k r) (fits : Fits h.ref v)
    (offset64 : offset < 2 ^ 64) :
    SizeKept h.ref offset r v w ↔ offset ≤ (v.inodes h.ref).sz ∨ Reaches v h offset size hlock := by
  refine ⟨fun kept => ?_, written.kept fits⟩
  rcases Nat.eq_zero_or_pos r with rfl | some
  · have same := kept.nothing rfl
    rw [written.sz, endOf, Nat.add_zero, Nat.mod_eq_of_lt offset64] at same
    exact Or.inl (by omega)
  · exact Or.inr (written.reaches.1 some)

theorem Written.fits {k : Nat} (written : Written v w h offset size hlock k r) (fits : Fits h.ref v)
    (kept : SizeKept h.ref offset r v w) : Fits h.ref w := by
  refine ⟨kept.within, ?_⟩
  have room := fits.room
  have clear := written.clear
  rw [written.exact fits]
  omega

end Write

/-! ## Sequences of writes -/

/-- The arguments of a call of `mgfs_inode_write`. -/
structure WriteCall where
  hb : Option Nat
  offset : Nat
  size : Nat
  data : Nat → Byte
  hlock : Nat

/-- The call, for an inode. -/
def WriteCall.run (ref : Ref) (v : Volume) (call : WriteCall) : Except Stuck (Nat × Volume) :=
  (mgfsInodeWrite ⟨ref, call.hb⟩ call.offset call.size call.data call.hlock).run v

/-- The state after a call that returns. -/
def WriteCall.step (ref : Ref) (v : Volume) (call : WriteCall) : Option Volume :=
  match call.run ref v with
  | .ok (_, w) => some w
  | .error _ => none

/-- The call starts within the recorded size or gets to a unit. -/
def WriteCall.Meets (ref : Ref) (v : Volume) (call : WriteCall) : Prop :=
  call.offset ≤ (v.inodes ref).sz ∨ Reaches v ⟨ref, call.hb⟩ call.offset call.size call.hlock

theorem WriteCall.step_run {ref : Ref} {v w : Volume} {call : WriteCall} (step : call.step ref v = some w) :
    ∃ r, call.run ref v = .ok (r, w) := by
  unfold WriteCall.step at step
  split at step
  · next r w' run =>
    cases step
    exact ⟨r, run⟩
  · cases step

section Sequence
variable {ref : Ref} {start v w : Volume} {call : WriteCall} {r : Nat}

theorem fits_of_reach (fits : Fits ref start) (run : Reach (WriteCall.step ref) (WriteCall.Meets ref) start v) :
    Fits ref v := by
  apply Reach.invariant run fits
  intro u call w fits meets step
  obtain ⟨r, returns⟩ := WriteCall.step_run step
  obtain ⟨k, written⟩ := mgfsInodeWrite_written returns
  exact written.fits fits (written.kept fits meets)

/-- In every sequence of writes that start within the recorded size or get to a unit, each write keeps the size right; and
the first one that does neither does not. -/
theorem writes_keep_size (fits : Fits ref start)
    (run : Reach (WriteCall.step ref) (WriteCall.Meets ref) start v) (returns : call.run ref v = .ok (r, w))
    (offset64 : call.offset < 2 ^ 64) : SizeKept ref call.offset r v w ↔ call.Meets ref v := by
  obtain ⟨k, written⟩ := mgfsInodeWrite_written returns
  exact written.kept_iff (fits_of_reach fits run) offset64

/-- A write within a file of two units. -/
def threeBytes : WriteCall := ⟨some 3, 100, 3, fun _ => 0#8, 0⟩

theorem mounted_fits {file : Inode} (within : file.sz ≤ file.dunits * 512) (room : file.dunits < 2 ^ 16) :
    Fits (.file 7) (mounted file) := by
  refine ⟨within, ?_⟩
  have clear : clearBits (wordRec :: List.replicate 15 ⟨0, BitVec.ofNat maxBitmapBits 0⟩) = 3936 := by decide +kernel
  change file.dunits + clearBits (wordRec :: List.replicate 15 ⟨0, BitVec.ofNat maxBitmapBits 0⟩) < 2 ^ 32
  rw [clear]
  omega

theorem threeBytes_keeps_size : ∃ w, threeBytes.run (.file 7) (mounted (twoUnits 700)) = .ok (3, w) ∧
    (SizeKept (.file 7) 100 3 (mounted (twoUnits 700)) w ↔ threeBytes.Meets (.file 7) (mounted (twoUnits 700))) :=
  ⟨_, rfl, writes_keep_size (mounted_fits (by decide) (by decide)) (Reach.refl _)
    (show threeBytes.run (.file 7) (mounted (twoUnits 700)) = .ok (3, _) from rfl) (by decide)⟩

/-- The volume with no unit left. -/
def fullVolume (file : Inode) : Volume :=
  { mounted file with bits := fun _ => List.replicate 16 ⟨maxBitmapBits, BitVec.allOnes maxBitmapBits⟩ }

/-- Ten bytes behind the end of the file. -/
def tenBytes : WriteCall := ⟨some 3, 2000, 10, fun _ => 0#8, 0⟩

/-- On a full volume a write that writes nothing makes a file of two units one of 2000 bytes. -/
theorem full_write_raises_size : ∃ start : Volume, Fits (.file 7) start ∧ ∃ w,
    tenBytes.run (.file 7) start = .ok (0, w) ∧ (w.inodes (.file 7)).sz = 2000 ∧
    (w.inodes (.file 7)).dunits * w.unitSize = 1024 ∧ ¬ SizeKept (.file 7) 2000 0 start w := by
  have clear : clearBits ((fullVolume (twoUnits 700)).bits spaceBitmapIdx) = 0 := by decide +kernel
  refine ⟨fullVolume (twoUnits 700), ⟨by decide, ?_⟩, _, rfl, rfl, rfl, fun kept => ?_⟩
  · rw [clear]
    decide
  · have same : 2000 = 700 := kept.nothing rfl
    omega

end Sequence

end PreTeO.Mgfs3
