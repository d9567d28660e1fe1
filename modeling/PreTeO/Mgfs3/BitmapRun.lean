import PreTeO.Lib.Run
import PreTeO.Mgfs3.BitmapSet

/-!
# Runs of calls on a bitmap file

The counter of a bitmap file is a number of four bytes in the three bytes at the end of its inode record. The fourth byte is
the first one of the record behind it, so the calls are run here on the bytes of the unit the record lies in.
-/

namespace PreTeO.Mgfs3
set_option autoImplicit false
open PreTeO.Lib

/-! ## The code -/

/-- Where `reserved` lies in an inode record. -/
def reservedPlace : Nat := 61

/-- A bitmap file, and the bytes of the unit its inode record lies in. -/
structure BitmapFile where
  volume : Volume
  group : Mem

/-- Where the inode record lies in its unit. -/
def BitmapFile.recordPlace (s : BitmapFile) (h : InodeHandle) : Nat := h.ref.idx * szInodeRecord % s.volume.unitSize

/-- `*p_nused`. -/
def BitmapFile.nused (s : BitmapFile) (h : InodeHandle) : Nat := s.group.load (s.recordPlace h + reservedPlace) 4

/-- The volume with the counter as it is read. -/
def BitmapFile.view (s : BitmapFile) (h : InodeHandle) : Volume :=
  { s.volume with
    inodes := Function.update s.volume.inodes h.ref { s.volume.inodes h.ref with nused := s.nused h } }

/-- A call works on the counter in the bytes of the unit. -/
def BitmapFile.call {A : Type} (h : InodeHandle) (code : M A) : Prog Stuck BitmapFile A := ⟨fun s =>
  match code.run (s.view h) with
  | .ok (a, w) => .ok (a, ⟨w, s.group.store (s.recordPlace h + reservedPlace) 4 (w.inodes h.ref).nused⟩)
  | .error e => .error e⟩

/-- The calls on a bitmap file. -/
inductive BitmapOp where
  | alloc (count : Nat)
  | set (bitNumber : Nat) (state : Bool)
  | setArray (array : List Nat) (state : Bool)
  | free (array : List Nat)

/-- A call, with the lock handle it passes. -/
structure BitmapCall where
  op : BitmapOp
  hlock : Nat

def BitmapCall.code (h : InodeHandle) (c : BitmapCall) : M Unit :=
  match c.op with
  | .alloc count => do
    let _ ← mgfsBitmapAlloc count h c.hlock
    return ()
  | .set bitNumber state => do
    let _ ← mgfsBitmapSet h bitNumber state c.hlock
    return ()
  | .setArray array state => do
    let _ ← mgfsBitmapSetArray h state c.hlock array
    return ()
  | .free array => do
    let _ ← mgfsBitmapFree h array c.hlock
    return ()

/-- One returning call. -/
def BitmapFile.step (h : InodeHandle) (s : BitmapFile) (c : BitmapCall) : Option BitmapFile :=
  match (BitmapFile.call h (c.code h)).run s with
  | .ok (_, t) => some t
  | .error _ => none

/-! ## The lowest clear bits -/

/-- An ascending list whose members have no others below them is the front of an ascending list. -/
theorem eq_take_of_lowest {l new : List Nat} (up : l.Pairwise (· < ·)) (up' : new.Pairwise (· < ·))
    (inside : ∀ n ∈ new, n ∈ l) (lowest : ∀ n ∈ new, ∀ m ∈ l, m < n → m ∈ new) : new = l.take new.length := by
  induction l generalizing new with
  | nil =>
    rw [List.eq_nil_iff_forall_not_mem.mpr fun n member => List.not_mem_nil (inside n member)]
    rfl
  | cons a l ih =>
    cases new with
    | nil => rfl
    | cons b rest =>
      obtain ⟨above, up⟩ := List.pairwise_cons.mp up
      obtain ⟨above', rest_up⟩ := List.pairwise_cons.mp up'
      have first : a = b := by
        rcases List.mem_cons.mp (inside b List.mem_cons_self) with here | later
        · exact here.symm
        · rcases List.mem_cons.mp (lowest b List.mem_cons_self a List.mem_cons_self (above b later)) with here | member
          · exact here
          · exact absurd (above' a member) (Nat.lt_asymm (above b later))
      subst first
      have tail := ih up rest_up
        (fun n member => (List.mem_cons.mp (inside n (List.mem_cons_of_mem _ member))).resolve_left
          (Nat.ne_of_gt (above' n member)))
        fun n member m later less => (List.mem_cons.mp (lowest n (List.mem_cons_of_mem _ member) m
          (List.mem_cons_of_mem _ later) less)).resolve_left (Nat.ne_of_gt (above m later))
      rw [List.length_cons, List.take_succ_cons, ← tail]

/-- The clear bits of a bitmap file. -/
def Volume.clear (v : Volume) (ref : Ref) : List Nat :=
  (List.range (maxBitmapBits * ((v.inodes ref).sz / szBitmapRec))).filter fun n => !v.bit ref n

section Clear
variable {v w : Volume} {ref : Ref} {h : InodeHandle} {hlock n : Nat}

theorem Volume.mem_clear : n ∈ v.clear ref ↔ v.HasBit ref n ∧ v.bit ref n = false := by
  unfold Volume.clear Volume.HasBit
  rw [List.mem_filter, List.mem_range, Nat.mul_comm, Nat.div_lt_iff_lt_mul (by decide), Bool.not_eq_true']

theorem Volume.clear_ascending (v : Volume) (ref : Ref) : (v.clear ref).Pairwise (· < ·) := List.pairwise_lt_range.filter _

/-- In a file of whole records. -/
theorem Volume.inFile_iff (whole : szBitmapRec ∣ (v.inodes ref).sz) : v.InFile ref n ↔ v.HasBit ref n := by
  obtain ⟨q, size⟩ := whole
  unfold Volume.InFile Volume.HasBit
  rw [size, Nat.mul_div_cancel_left q (by decide)]
  exact Nat.mul_lt_mul_left (by decide)

/-- An allocation takes the lowest clear bits, as many as there are. -/
theorem mgfsBitmapAlloc_lowest (ready : Ready hlock v) (ok : v.BitmapOk h.ref) (whole : szBitmapRec ∣ (v.inodes h.ref).sz)
    (count : Nat) : ∃ w, (mgfsBitmapAlloc count h hlock).run v = .ok ((v.clear h.ref).take count, w) ∧
      TookBits v w h.ref ((v.clear h.ref).take count) := by
  obtain ⟨w, new, run, gave, up⟩ := mgfsBitmapAlloc_ascending ready ok count
  have was : ∀ n ∈ new, v.bit h.ref n = false := by
    obtain ⟨_, _, took⟩ := gave.toTookBits.bits
    exact fun n member => (took.clear n member).2
  have member_of : ∀ n ∈ v.clear h.ref, w.bit h.ref n = true → n ∈ new := by
    intro n clear set
    rw [gave.toTookBits.bit n, (Volume.mem_clear.mp clear).2] at set
    simpa using set
  have front := eq_take_of_lowest (v.clear_ascending h.ref) up
    (fun n member => Volume.mem_clear.mpr ⟨(Volume.inFile_iff whole).mp (gave.inside n member), was n member⟩)
    fun n member m clear less => member_of m clear (gave.lowest n member m less)
  have taken : new = (v.clear h.ref).take count := by
    rcases Nat.lt_or_ge new.length count with fewer | enough
    · have all : ∀ n ∈ v.clear h.ref, n ∈ new := fun n clear =>
        member_of n clear (gave.full fewer n ((Volume.inFile_iff whole).mpr (Volume.mem_clear.mp clear).1))
      have most : (v.clear h.ref).length ≤ new.length := by
        have nodup : (v.clear h.ref).Nodup := (v.clear_ascending h.ref).imp Nat.ne_of_lt
        exact (nodup.subperm all).length_le
      rw [front, List.take_of_length_le most, List.take_of_length_le (Nat.le_of_lt (most.trans_lt fewer))]
    · rw [← Nat.le_antisymm gave.least enough, ← front]
  exact ⟨w, taken ▸ run, taken ▸ gave.toTookBits⟩

end Clear

/-! ## One call -/

/-- The bits of a file after some of them are put into a state. -/
def Volume.putBits (v : Volume) (ref : Ref) (units : List Nat) (state : Bool) : Finset Nat :=
  if state then setBits (v.bits ref.idx) ∪ (v.within ref units).toFinset
  else setBits (v.bits ref.idx) \ (v.within ref units).toFinset

/-- The bits that are to be set after a call. -/
def BitmapOp.bits (v : Volume) (ref : Ref) : BitmapOp → Finset Nat
  | .alloc count => setBits (v.bits ref.idx) ∪ ((v.clear ref).take count).toFinset
  | .set bitNumber state => v.putBits ref [bitNumber] state
  | .setArray array state => v.putBits ref array state
  | .free array => v.putBits ref array false

/-- A call has left the file with these bits. -/
structure LeftBits (v w : Volume) (ref : Ref) (left : Finset Nat) : Prop extends Recount ref v w where
  ok : w.BitmapOk ref
  totalled : w.Totalled ref
  set : setBits (w.bits ref.idx) = left

section Call
variable {v w : Volume} {ref : Ref} {h : InodeHandle} {hlock : Nat}

theorem TookBits.recount {new : List Nat} (took : TookBits v w ref new) : Recount ref v w := by
  obtain ⟨recs, bits, _⟩ := took.bits
  obtain ⟨n, inodes, _⟩ := took.nused
  exact ⟨took.toKeep, took.mem, ⟨recs, bits⟩, n, inodes⟩

theorem TookBits.leaves {new : List Nat} (took : TookBits v w ref new) (ok : v.BitmapOk ref) (totalled : v.Totalled ref) :
    LeftBits v w ref (setBits (v.bits ref.idx) ∪ new.toFinset) := by
  refine ⟨took.recount, took.ok ok, took.totalled totalled, ?_⟩
  obtain ⟨recs, bits, took'⟩ := took.bits
  rw [bits, Function.update_self]
  exact took'.setBits

theorem SetBits.leaves {units : List Nat} {state : Bool} (set : SetBits v w ref (v.within ref units) state) (ok : v.BitmapOk ref)
    (totalled : w.Totalled ref) : LeftBits v w ref (v.putBits ref units state) :=
  ⟨set.toRecount, set.ok ok, totalled, set.marked.setBits⟩

/-- `mgfs_bitmap_set` of any bit. -/
theorem mgfsBitmapSet_leaves (ready : Ready hlock v) (ok : v.BitmapOk h.ref) (aligned : szBitmapRec ∣ v.unitSize)
    (totalled : v.Totalled h.ref) (n : Nat) (state : Bool) :
    ∃ w, (mgfsBitmapSet h n state hlock).run v = .ok (decide (v.HasBit h.ref n), w) ∧
      LeftBits v w h.ref (v.putBits h.ref [n] state) := by
  by_cases has : v.HasBit h.ref n
  · obtain ⟨w, run, set, counts⟩ := mgfsBitmapSet_counted ready ok aligned has state
    have within : v.within h.ref [n] = [n] := by simp [Volume.within, has]
    rw [← within] at set
    exact ⟨w, by rw [run, decide_eq_true has], set.leaves ok (counts totalled)⟩
  · have within : v.within h.ref [n] = [] := by simp [Volume.within, has]
    have set : SetBits v v h.ref (v.within h.ref [n]) state := by
      rw [within]
      exact SetBits.of_frozen (frozen_frames.refl v) (Marked.refl _ _)
    exact ⟨v, by rw [mgfsBitmapSet_outside has, decide_eq_false has], set.leaves ok totalled⟩

/-- Every call returns and leaves the bits it is to leave. -/
theorem BitmapCall.run (c : BitmapCall) (ready : Ready c.hlock v) (ok : v.BitmapOk h.ref) (aligned : szBitmapRec ∣ v.unitSize)
    (whole : szBitmapRec ∣ (v.inodes h.ref).sz) (totalled : v.Totalled h.ref) :
    ∃ w, (c.code h).run v = .ok ((), w) ∧ LeftBits v w h.ref (c.op.bits v h.ref) := by
  obtain ⟨op, hlock⟩ := c
  have array : ∀ units state, ∃ w, (do
      let _ ← mgfsBitmapSetArray h state hlock units
      return () : M Unit).run v = .ok ((), w) ∧ LeftBits v w h.ref (v.putBits h.ref units state) := by
    intro units state
    obtain ⟨w, run, set, counts⟩ := mgfsBitmapSetArray_counted ready ok aligned units state
    exact ⟨w, Prog.bind_ok run, set.leaves ok (counts totalled)⟩
  cases op with
  | alloc count =>
    obtain ⟨w, run, took⟩ := mgfsBitmapAlloc_lowest ready ok whole count
    exact ⟨w, Prog.bind_ok run, took.leaves ok totalled⟩
  | set n state =>
    obtain ⟨w, run, leaves⟩ := mgfsBitmapSet_leaves ready ok aligned totalled n state
    exact ⟨w, Prog.bind_ok run, leaves⟩
  | setArray units state => exact array units state
  | free units => exact array units false

end Call

/-! ## The bytes of the counter -/

/-- The file can be read, its counters are right, and it has whole records. -/
structure BitmapFile.Sound (s : BitmapFile) (h : InodeHandle) : Prop where
  ok : s.volume.BitmapOk h.ref
  aligned : szBitmapRec ∣ s.volume.unitSize
  whole : szBitmapRec ∣ (s.volume.inodes h.ref).sz
  total : s.nused h = (setBits (s.volume.bits h.ref.idx)).card

/-- Nothing changed but the bits of the file, what was marked for writing, and bytes of the inode record. -/
structure BitmapFile.Untouched (h : InodeHandle) (s t : BitmapFile) : Prop where
  volume : Recount h.ref s.volume t.volume
  bytes : ∀ i, i < s.recordPlace h ∨ s.recordPlace h + szInodeRecord ≤ i → t.group i = s.group i

/-- The fourth bytes of two numbers. -/
theorem digit_three_eq_iff {a b : Nat} (small : a < 2 ^ 32) (small' : b < 2 ^ 32) :
    Mem.digit a 3 = Mem.digit b 3 ↔ a / 2 ^ 24 = b / 2 ^ 24 := by
  unfold Mem.digit
  rw [← BitVec.toNat_inj, BitVec.toNat_ofNat, BitVec.toNat_ofNat]
  omega

section Bytes
variable {s t u : BitmapFile} {h : InodeHandle}

theorem BitmapFile.view_recount (s : BitmapFile) (h : InodeHandle) : Recount h.ref s.volume (s.view h) := by
  have same := (recount_tallies h.ref).count s.volume (s.volume.bits h.ref.idx) (s.nused h)
  rwa [Function.update_eq_self] at same

theorem BitmapFile.view_inode (s : BitmapFile) (h : InodeHandle) :
    (s.view h).inodes h.ref = { s.volume.inodes h.ref with nused := s.nused h } := Function.update_self _ _ _

/-- What the calls are to do does not depend on the counter. -/
theorem BitmapFile.view_bits (s : BitmapFile) (h : InodeHandle) (op : BitmapOp) :
    op.bits (s.view h) h.ref = op.bits s.volume h.ref := by
  have has : ∀ n, (s.view h).HasBit h.ref n ↔ s.volume.HasBit h.ref n := fun n => (s.view_recount h).hasBit h.ref
  have within : ∀ units, (s.view h).within h.ref units = s.volume.within h.ref units := fun units =>
    List.filter_congr fun n _ => decide_eq_decide.mpr (has n)
  have clear : (s.view h).clear h.ref = s.volume.clear h.ref := by
    unfold Volume.clear
    rw [s.view_inode h]
    rfl
  have put : ∀ units state, (s.view h).putBits h.ref units state = s.volume.putBits h.ref units state := by
    intro units state
    unfold Volume.putBits
    rw [within]
    rfl
  cases op with
  | alloc count =>
    unfold BitmapOp.bits
    rw [clear]
    rfl
  | set n state => exact put [n] state
  | setArray units state => exact put units state
  | free units => exact put units false

namespace BitmapFile.Sound

theorem card_lt (sound : s.Sound h) : (setBits (s.volume.bits h.ref.idx)).card < 2 ^ 32 := PreTeO.Mgfs3.card_lt sound.ok.short

theorem view_ok (sound : s.Sound h) : (s.view h).BitmapOk h.ref := (s.view_recount h).ok sound.ok rfl sound.ok.counted

theorem view_totalled (sound : s.Sound h) : (s.view h).Totalled h.ref := by
  refine ⟨sound.ok.short, ?_⟩
  rw [s.view_inode h]
  exact sound.total

/-- A call that leaves the volume as it is to be leaves the counter in the bytes. -/
theorem stored (sound : s.Sound h) {w : Volume} {bits : Finset Nat} (leaves : LeftBits (s.view h) w h.ref bits)
    (moved : t = ⟨w, s.group.store (s.recordPlace h + reservedPlace) 4 (w.inodes h.ref).nused⟩) :
    t.Sound h ∧ Recount h.ref s.volume t.volume ∧ setBits (t.volume.bits h.ref.idx) = bits ∧
      (s.Untouched h t ↔ bits.card / 2 ^ 24 = (setBits (s.volume.bits h.ref.idx)).card / 2 ^ 24) := by
  have recount : Recount h.ref s.volume w := (recount_frames h.ref).trans _ _ _ (s.view_recount h) leaves.toRecount
  have small : (w.inodes h.ref).nused < 2 ^ 32 := by
    rw [leaves.totalled.total]
    exact PreTeO.Mgfs3.card_lt leaves.totalled.short
  have place : t.recordPlace h = s.recordPlace h := by
    unfold recordPlace
    rw [moved, recount.unitSize]
  have nused : t.nused h = (w.inodes h.ref).nused := by
    unfold nused
    rw [place, moved]
    exact Mem.load_store_of_lt small
  have volume : t.volume = w := by rw [moved]
  rw [volume]
  refine ⟨?_, recount, leaves.set, ?_⟩
  · have total := leaves.totalled.total
    rw [← nused, ← volume] at total
    obtain ⟨m, same⟩ := recount.record h.ref
    refine ⟨volume ▸ leaves.ok, ?_, ?_, total⟩
    · rw [volume, recount.unitSize]
      exact sound.aligned
    · rw [volume, same]
      exact sound.whole
  · have group : t.group = s.group.store (s.recordPlace h + reservedPlace) 4 (w.inodes h.ref).nused := by rw [moved]
    have before : s.group (s.recordPlace h + szInodeRecord) = Mem.digit (setBits (s.volume.bits h.ref.idx)).card 3 := by
      rw [← sound.total]
      exact (Mem.digit_load _ _ 4 3 (by decide)).symm
    have after : t.group (s.recordPlace h + szInodeRecord) = Mem.digit bits.card 3 := by
      rw [group, Mem.store, Mem.blit_in (by unfold reservedPlace szInodeRecord; omega)
        (by unfold reservedPlace szInodeRecord; omega), leaves.totalled.total, leaves.set]
      unfold szInodeRecord reservedPlace
      congr 1
      omega
    have few : bits.card < 2 ^ 32 := by
      rw [← leaves.set]
      exact PreTeO.Mgfs3.card_lt leaves.totalled.short
    rw [← digit_three_eq_iff few sound.card_lt, ← before, ← after]
    constructor
    · exact fun same => same.bytes _ (Or.inr (Nat.le_refl _))
    · intro same
      refine ⟨volume ▸ recount, fun i out => ?_⟩
      by_cases last : i = s.recordPlace h + szInodeRecord
      · rw [last]
        exact same
      · rw [group]
        unfold szInodeRecord at out last
        exact Mem.store_out (by unfold reservedPlace; omega)

end BitmapFile.Sound

end Bytes

/-! ## Runs -/

/-- What is to be said of a bitmap file in every state: the counters of the records count their set bits, the counter of the
file is their sum, and an allocation gives the lowest clear bits there are, as those that `mgfs_bitmap_set` counts. -/
structure BitmapFile.Serves (h : InodeHandle) (s : BitmapFile) : Prop where
  used : CountedFile (s.volume.bits h.ref.idx)
  total : s.nused h = usedSum (s.volume.bits h.ref.idx)
  alloc : ∀ count hlock, Ready hlock s.volume → ∃ t,
    (BitmapFile.call h (mgfsBitmapAlloc count h hlock)).run s = .ok ((s.volume.clear h.ref).take count, t) ∧
    ∀ n, t.volume.bit h.ref n = true ↔ s.volume.bit h.ref n = true ∨ n ∈ (s.volume.clear h.ref).take count

/-- The fourth byte of the number of set bits stays as it is. -/
def BitmapCall.KeepsByte (h : InodeHandle) (s : BitmapFile) (c : BitmapCall) : Prop :=
  (c.op.bits s.volume h.ref).card / 2 ^ 24 = (setBits (s.volume.bits h.ref.idx)).card / 2 ^ 24

section Run
variable {s t u : BitmapFile} {h : InodeHandle}

theorem BitmapFile.call_ok {A : Type} {code : M A} {a : A} {w : Volume} (run : code.run (s.view h) = .ok (a, w)) :
    (BitmapFile.call h code).run s =
      .ok (a, ⟨w, s.group.store (s.recordPlace h + reservedPlace) 4 (w.inodes h.ref).nused⟩) := by
  unfold BitmapFile.call
  dsimp only
  rw [run]

theorem BitmapFile.Untouched.refl (h : InodeHandle) (s : BitmapFile) : s.Untouched h s :=
  ⟨(recount_frames h.ref).refl s.volume, fun _ _ => rfl⟩

theorem BitmapFile.Untouched.trans (first : s.Untouched h t) (second : t.Untouched h u) : s.Untouched h u := by
  have place : t.recordPlace h = s.recordPlace h := by
    unfold recordPlace
    rw [first.volume.unitSize]
  refine ⟨(recount_frames h.ref).trans _ _ _ first.volume second.volume, fun i out => ?_⟩
  rw [second.bytes i (place.symm ▸ out), first.bytes i out]

namespace BitmapFile.Sound

/-- Every call returns; the bytes behind the record stay if and only if the fourth byte of the number of set bits does. -/
theorem step (sound : s.Sound h) {c : BitmapCall} (ready : Ready c.hlock s.volume) :
    ∃ t, s.step h c = some t ∧ t.Sound h ∧ setBits (t.volume.bits h.ref.idx) = c.op.bits s.volume h.ref ∧
      (s.Untouched h t ↔ c.KeepsByte h s) := by
  have view := s.view_recount h
  obtain ⟨w, run, left⟩ := c.run (view.toHold.ready ready) sound.view_ok (view.unitSize ▸ sound.aligned)
    (by rw [s.view_inode h]; exact sound.whole) sound.view_totalled
  rw [s.view_bits h c.op] at left
  obtain ⟨kept, _, bits, untouched⟩ := sound.stored left rfl
  refine ⟨_, ?_, kept, bits, untouched⟩
  unfold BitmapFile.step
  rw [BitmapFile.call_ok run]

theorem serves (sound : s.Sound h) : s.Serves h := by
  refine ⟨sound.ok.counted, sound.total.trans sound.ok.counted.sum.symm, fun count hlock ready => ?_⟩
  have view := s.view_recount h
  obtain ⟨w, run, took⟩ := mgfsBitmapAlloc_lowest (view.toHold.ready ready) sound.view_ok
    (by rw [s.view_inode h]; exact sound.whole) count
  have clear : (s.view h).clear h.ref = s.volume.clear h.ref := by
    unfold Volume.clear
    rw [s.view_inode h]
    rfl
  rw [clear] at run took
  refine ⟨_, BitmapFile.call_ok run, fun n => ?_⟩
  change w.bit h.ref n = true ↔ _
  rw [took.bit n, Bool.or_eq_true, decide_eq_true_iff]
  rfl

end BitmapFile.Sound

/-- In every run of calls that keep the fourth byte of the number of set bits, the file serves in every state reached, and
nothing outside it was changed. -/
theorem bitmap_file_run (sound : s.Sound h)
    (run : Reach (BitmapFile.step h) (fun s c => Ready c.hlock s.volume ∧ c.KeepsByte h s) s t) :
    t.Serves h ∧ s.Untouched h t := by
  let Kept : BitmapFile → Prop := fun t => t.Sound h ∧ s.Untouched h t
  have start : Kept s := ⟨sound, BitmapFile.Untouched.refl h s⟩
  have kept : Kept t := by
    refine run.invariant start ?_
    rintro u c v ⟨sound, before⟩ ⟨ready, keeps⟩ step
    obtain ⟨v', step', sound', _, untouched⟩ := sound.step ready
    obtain rfl := Option.some.inj (step'.symm.trans step)
    exact ⟨sound', before.trans (untouched.mpr keeps)⟩
  exact ⟨kept.1.serves, kept.2⟩

end Run

/-! ## A space bitmap for 2^24 units -/

/-- A bitmap file of 17 blocks, behind an address unit; the record behind it has no flags. -/
def bitmapFile (recs : List BitmapRec) : BitmapFile where
  volume := { zeroVolume 130560 with
    mem := fun _ i => if i % 4 = 0 then BitVec.ofNat 8 (8 + i / 4) else 0#8
    inodes := fun _ => ⟨0, 0, 17, 1, Function.update (fun _ => invalidUnitNumber) 0 7, 17 * 130560, 0⟩
    bits := fun _ => recs }
  group := Mem.store (fun _ => 0#8) reservedPlace 4 (setBits recs).card

def spaceHandle : InodeHandle := ⟨spaceBitmap, some 3⟩

theorem bitmapFile_sound {recs : List BitmapRec} (length : recs.length = 69360) (counted : CountedFile recs) :
    (bitmapFile recs).Sound spaceHandle := by
  have short : maxBitmapBits * recs.length ≤ 2 ^ 32 := by
    rw [length]
    decide
  refine ⟨⟨?_, short, ?_, counted, fun block inside => ?_⟩, show 32 ∣ 130560 by decide, show 32 ∣ 17 * 130560 by decide,
    Mem.load_store_of_lt (card_lt short)⟩
  · change recs.length = 17 * (130560 / szBitmapRec)
    rw [length]
    decide
  · change 17 * 130560 ≤ szBitmapRec * recs.length
    rw [length]
    decide
  · have readable : ∀ block, block < 17 → ((bitmapFile []).volume.blockUnit spaceBitmap block).isSome := by
      decide +kernel
    exact readable block inside

theorem ones_allOnes (w : Nat) : ones (BitVec.allOnes w) = w := by
  by_contra fewer
  obtain ⟨j, bound, clear⟩ := (ones_lt_iff _).mp (Nat.lt_of_le_of_ne (ones_le _) fewer)
  simp [bound] at clear

/-- Full records, one with 15 set bits, and empty ones. -/
def filledRecs (full empty : Nat) : List BitmapRec :=
  List.replicate full ⟨248, BitVec.allOnes 248⟩ ++ ⟨15, BitVec.ofNat 248 (2 ^ 15 - 1)⟩ :: List.replicate empty ⟨0, 0#248⟩

section Filled
variable (full empty : Nat)

theorem filledRecs_length : (filledRecs full empty).length = full + (empty + 1) := by simp [filledRecs]

theorem filledRecs_counted : CountedFile (filledRecs full empty) := by
  intro r member
  rcases List.mem_append.mp member with first | rest
  · obtain rfl := List.eq_of_mem_replicate first
    exact (ones_allOnes 248).symm
  · rcases List.mem_cons.mp rest with rfl | last
    · show 15 = ones (BitVec.ofNat 248 (2 ^ 15 - 1))
      decide +kernel
    · obtain rfl := List.eq_of_mem_replicate last
      show 0 = ones 0#248
      decide +kernel

theorem filledRecs_card : (setBits (filledRecs full empty)).card = full * 248 + 15 := by
  rw [← (filledRecs_counted full empty).sum]
  simp [usedSum, filledRecs]

/-- The first clear bit. -/
theorem filledRecs_clear : bitOf (filledRecs full empty) (full * 248 + 15) = false := by
  unfold bitOf filledRecs maxBitmapBits
  rw [show (full * 248 + 15) / 248 = full by omega, show (full * 248 + 15) % 248 = 15 by omega,
    List.getElem?_append_right (by simp), List.length_replicate, Nat.sub_self, List.getElem?_cons_zero]
  decide

theorem filledFile_sound (length : full + (empty + 1) = 69360) :
    (bitmapFile (filledRecs full empty)).Sound spaceHandle :=
  bitmapFile_sound ((filledRecs_length full empty).trans length) (filledRecs_counted full empty)

/-- One more bit. -/
theorem filledFile_set (length : full + (empty + 1) = 69360) :
    (BitmapOp.bits (bitmapFile (filledRecs full empty)).volume spaceBitmap (.set (full * 248 + 15) true)).card =
      full * 248 + 15 + 1 := by
  have has : (bitmapFile (filledRecs full empty)).volume.HasBit spaceBitmap (full * 248 + 15) := by
    change (full * 248 + 15) / 248 < 17 * 130560 / 32
    omega
  have absent : full * 248 + 15 ∉ setBits (filledRecs full empty) := by
    rw [mem_setBits, filledRecs_clear]
    decide
  have within : (bitmapFile (filledRecs full empty)).volume.within spaceBitmap [full * 248 + 15] = [full * 248 + 15] := by
    simp [Volume.within, has]
  dsimp only [BitmapOp.bits]
  rw [Volume.putBits, within, if_pos rfl]
  change (setBits (filledRecs full empty) ∪ {full * 248 + 15}).card = _
  rw [Finset.union_comm, ← Finset.insert_eq, Finset.card_insert_of_notMem absent, filledRecs_card]

theorem filledFile_keeps (length : full + (empty + 1) = 69360) :
    BitmapCall.KeepsByte spaceHandle (bitmapFile (filledRecs full empty)) ⟨.set (full * 248 + 15) true, 0⟩ ↔
      (full * 248 + 15 + 1) / 2 ^ 24 = (full * 248 + 15) / 2 ^ 24 := by
  have before : (setBits ((bitmapFile (filledRecs full empty)).volume.bits spaceHandle.ref.idx)).card = full * 248 + 15 :=
    filledRecs_card full empty
  unfold BitmapCall.KeepsByte
  rw [before]
  change (BitmapOp.bits _ spaceBitmap _).card / 2 ^ 24 = _ ↔ _
  rw [filledFile_set full empty length]

end Filled

/-- The sixteenth unit is marked. -/
theorem bitmap_file_run_one : ∃ t,
    (bitmapFile (filledRecs 0 69359)).step spaceHandle ⟨.set 15 true, 0⟩ = some t ∧ t.Serves spaceHandle ∧
      (bitmapFile (filledRecs 0 69359)).Untouched spaceHandle t := by
  have sound := filledFile_sound 0 69359 rfl
  have ready : Ready 0 (bitmapFile (filledRecs 0 69359)).volume := Or.inl rfl
  obtain ⟨t, step, _⟩ := sound.step (c := ⟨.set 15 true, 0⟩) ready
  have keeps := (filledFile_keeps 0 69359 rfl).mpr rfl
  exact ⟨t, step, bitmap_file_run sound ((Reach.refl _).snoc ⟨ready, keeps⟩ step)⟩

/-- The unit that makes them 2^24 changes the flags of the inode record behind. -/
theorem next_record_changed : ∃ t, (bitmapFile (filledRecs 67650 1709)).Sound spaceHandle ∧
    (bitmapFile (filledRecs 67650 1709)).step spaceHandle ⟨.set (67650 * 248 + 15) true, 0⟩ = some t ∧
      ¬ (bitmapFile (filledRecs 67650 1709)).Untouched spaceHandle t := by
  have sound := filledFile_sound 67650 1709 rfl
  obtain ⟨t, step, _, _, untouched⟩ := sound.step (c := ⟨.set (67650 * 248 + 15) true, 0⟩) (Or.inl rfl)
  refine ⟨t, sound, step, fun same => ?_⟩
  have keeps := (filledFile_keeps 67650 1709 rfl).mp (untouched.mp same)
  exact absurd keeps (by decide)

end PreTeO.Mgfs3
