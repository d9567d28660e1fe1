import PreTeO.Mgfs3.FileBytes

/-!
# Writes within a file

A write that stays within the units of a whole file stores its bytes in the units of the blocks, marks each for writing and
touches no other unit, so the blocks are found as before.
-/

namespace PreTeO.Mgfs3
set_option autoImplicit false
open PreTeO.Lib

/-- The state after a unit was marked for writing. -/
def Volume.marked (v : Volume) (unit : Nat) : Volume :=
  { v with disk := Function.update v.disk unit (v.mem unit), unsaved := Function.update v.unsaved unit false }

/-- The state after bytes were stored in a unit and the unit was marked for writing. -/
def Volume.wrote (v : Volume) (unit offset n : Nat) (f : Nat → Byte) : Volume :=
  Volume.marked { v with mem := Function.update v.mem unit ((v.mem unit).blit offset n f) } unit

/-- The blocks of a file are in units of their own, and no block is found through one of them. -/
structure Distinct (v : Volume) (ref : Ref) : Prop where
  own : ∀ b < (v.inodes ref).dunits, ∀ c < (v.inodes ref).dunits, v.unitNo ref c = v.unitNo ref b → c = b
  data : ∀ b < (v.inodes ref).dunits, ∀ c < (v.inodes ref).dunits,
    v.unitNo ref c ∉ addressesOf v.dev v.unitSize (v.inodes ref) b

section Write
variable {ref : Ref} {hlock total a r : Nat} {data : Nat → Byte} {v w : Volume}

/-! ## A unit -/

theorem mgfsBufferWrite_spec (ready : Ready hlock v) (unit : Nat) :
    ∃ w, (mgfsBufferWrite unit hlock).run v = .ok ((), w) ∧ Ticked (v.marked unit) w := by
  obtain ⟨t, run⟩ : ∃ t, (mgfsBufferWrite unit hlock).run v = .ok ((), { v.marked unit with held := v.held, tickets := t }) := by
    apply locked_spec ready
    intro g depth t
    rfl
  exact ⟨_, run, t, rfl⟩

/-- A unit is written and its buffer given back. -/
theorem writeUnits_step (ready : Ready hlock v) {x : Nat} (reads : v.reads x = true) (rest : List Nat) (r offset : Nat) :
    ∃ w, (writeUnits data total hlock (x :: rest) r offset).run v =
        (writeUnits data total hlock rest (r + min (v.unitSize - offset) (total - r)) 0).run w ∧
      Ticked (v.wrote x offset (min (v.unitSize - offset) (total - r)) fun i => data (r + i)) w := by
  obtain ⟨v₁, alloc, t, rfl⟩ := mgfsBufferAlloc_some ready reads
  obtain ⟨v₂, put⟩ : ∃ v₂, (putBytes x offset (min (v.unitSize - offset) (total - r)) fun i => data (r + i)).run
      { v.taken x with tickets := t } = .ok ((), v₂) := ⟨_, rfl⟩
  have ready₂ : Ready hlock v₂ := by
    cases put
    exact ready
  obtain ⟨v₃, write, marked⟩ := mgfsBufferWrite_spec ready₂ x
  obtain ⟨v₄, free, given⟩ := mgfsBufferFree_spec (marked.ready ready₂) x
  refine ⟨v₄, ?_, ?_⟩
  · conv_lhs => unfold writeUnits
    rw [Prog.bind_ok alloc]
    dsimp only
    rw [Prog.bind_ok (Prog.run_get _)]
    exact (Prog.bind_ok put).trans ((Prog.bind_ok write).trans (Prog.bind_ok free))
  · cases put
    obtain ⟨t', rfl⟩ := marked
    obtain ⟨t'', rfl⟩ := given
    refine ⟨t'', ?_⟩
    simp [Volume.wrote, Volume.marked, Volume.given, Volume.taken]

/-! ## The units of a file -/

/-- A volume whose files have the same blocks, in the same units. -/
structure Same (ref : Ref) (v w : Volume) : Prop where
  unitSize : w.unitSize = v.unitSize
  reads : w.reads = v.reads
  dunits : (w.inodes ref).dunits = (v.inodes ref).dunits
  level : (w.inodes ref).level = (v.inodes ref).level
  location : (w.inodes ref).location = (v.inodes ref).location
  addresses : ∀ b < (v.inodes ref).dunits, ∀ u ∈ addressesOf v.dev v.unitSize (v.inodes ref) b, w.mem u = v.mem u

theorem Same.refl (ref : Ref) (v : Volume) : Same ref v v := ⟨rfl, rfl, rfl, rfl, rfl, fun _ _ _ _ => rfl⟩

/-- Where the address units of a file did not change, neither did its blocks. -/
theorem Same.block (same : Same ref v w) (whole : Whole v ref) {b : Nat} (inside : b < (v.inodes ref).dunits) :
    unitOf w.dev w.unitSize (w.inodes ref) b = unitOf v.dev v.unitSize (v.inodes ref) b ∧
      addressesOf w.dev w.unitSize (w.inodes ref) b = addressesOf v.dev v.unitSize (v.inodes ref) b ∧
      ClearWalk w.dev (w.unitSize / 4) (w.inodes ref).level (w.inodes ref).location maxLocationIndex b := by
  have fails : ∀ u, v.dev u = none → w.dev u = none := by
    intro u
    unfold Volume.dev
    rw [same.reads, ite_eq_right_iff, ite_eq_right_iff]
    exact fun fails readable => absurd (fails readable) (Option.some_ne_none _)
  have dev : ∀ u ∈ addressesOf v.dev v.unitSize (v.inodes ref) b, w.dev u = v.dev u := by
    intro u member
    unfold Volume.dev
    rw [same.reads, same.addresses b inside u member]
  obtain ⟨leaf, addresses, clear⟩ := leafOf_congr fails dev
  unfold unitOf addressesOf
  rw [same.unitSize, same.level, same.location, leaf]
  exact ⟨rfl, addresses, clear (whole.clear b inside).2⟩

theorem Same.unitNo (same : Same ref v w) (whole : Whole v ref) {b : Nat} (inside : b < (v.inodes ref).dunits) :
    w.unitNo ref b = v.unitNo ref b := by
  unfold Volume.unitNo
  rw [(same.block whole inside).1]

theorem Same.trans {u : Volume} (first : Same ref u v) (whole : Whole u ref) (second : Same ref v w) : Same ref u w := by
  refine ⟨second.unitSize.trans first.unitSize, second.reads.trans first.reads, second.dunits.trans first.dunits,
    second.level.trans first.level, second.location.trans first.location, fun b inside x member => ?_⟩
  refine (second.addresses b (inside.trans_eq first.dunits.symm) x ?_).trans (first.addresses b inside x member)
  rw [(first.block whole inside).2.1]
  exact member

theorem Same.room (same : Same ref v w) : w.room ref = v.room ref := by
  unfold Volume.room
  rw [same.dunits, same.unitSize]

theorem Same.whole (same : Same ref v w) (whole : Whole v ref) : Whole w ref := by
  refine ⟨same.room ▸ whole.small, fun b inside => ?_, fun b inside => ?_⟩
  · rw [same.dunits] at inside
    rw [(same.block whole inside).1]
    exact whole.mapped b inside
  · rw [same.dunits] at inside
    exact ⟨(whole.clear b inside).1, (same.block whole inside).2.2⟩

/-- The bytes of a file are those in its units. -/
theorem Same.fileBytes (same : Same ref v w) (whole : Whole v ref) {p : Nat} (inside : p < v.room ref) :
    w.fileBytes ref p = Mem.paged w.mem v.unitSize (v.unitNo ref) p := by
  have block : p / v.unitSize < (v.inodes ref).dunits := Nat.div_lt_of_lt_mul (Nat.mul_comm _ v.unitSize ▸ inside)
  unfold Volume.fileBytes Mem.paged
  rw [same.unitSize, same.unitNo whole block]

theorem Same.list (same : Same ref v w) (whole : Whole v ref) {b count : Nat} (inside : b + count ≤ (v.inodes ref).dunits) :
    inodeListDunit w.dev w.unitSize (w.inodes ref) b count = inodeListDunit v.dev v.unitSize (v.inodes ref) b count := by
  obtain ⟨length, named⟩ := whole.units inside
  obtain ⟨length', named'⟩ := (same.whole whole).units (inside.trans_eq same.dunits.symm)
  refine List.ext_getElem (length'.trans length.symm) fun i bound bound' => ?_
  rw [named' i bound, named i bound', same.unitNo whole (by omega)]

/-! ## Stores -/

/-- What a write into a file leaves: the bytes of the row that it is given, in the units of the file, and nothing else. -/
structure Stored (ref : Ref) (a r : Nat) (data : Nat → Byte) (v w : Volume) : Prop where
  tail : w = { v with mem := w.mem, disk := w.disk, unsaved := w.unsaved, tickets := w.tickets }
  bytes : ∀ p < v.room ref, Mem.paged w.mem v.unitSize (v.unitNo ref) p = (v.fileBytes ref).blit a r data p
  others : ∀ unit, (∀ b < (v.inodes ref).dunits, v.unitNo ref b ≠ unit) →
    w.mem unit = v.mem unit ∧ w.disk unit = v.disk unit ∧ w.unsaved unit = v.unsaved unit
  saved : ∀ unit, v.Saved unit → w.Saved unit

theorem Stored.refl (v : Volume) : Stored ref a 0 data v v :=
  ⟨rfl, fun p _ => by rw [Mem.blit_zero]; rfl, fun _ _ => ⟨rfl, rfl, rfl⟩, fun _ saved => saved⟩

theorem Stored.ticked (stored : Stored ref a r data v w) {u : Volume} (ticked : Ticked w u) : Stored ref a r data v u := by
  obtain ⟨t, rfl⟩ := ticked
  obtain ⟨tail, bytes, others, saved⟩ := stored
  refine ⟨?_, bytes, others, saved⟩
  conv_lhs => rw [tail]

theorem Stored.ready (stored : Stored ref a r data v w) (ready : Ready hlock v) : Ready hlock w := by
  rw [stored.tail]
  exact ready

/-- The address units of a file are not among its blocks. -/
theorem Stored.same (stored : Stored ref a r data v w) (distinct : Distinct v ref) : Same ref v w := by
  obtain ⟨tail, -, others, -⟩ := stored
  refine ⟨by rw [tail], by rw [tail], by rw [tail], by rw [tail], by rw [tail], fun b inside u member => ?_⟩
  refine (others u fun c bound same => ?_).1
  exact distinct.data b inside c bound (same ▸ member)

/-- The next bytes of the row go to a unit. -/
theorem Stored.step (stored : Stored ref a r data v w) (distinct : Distinct v ref) {b o n : Nat}
    (inside : b < (v.inodes ref).dunits) (next : n = 0 ∨ a + r = b * v.unitSize + o) (fits : o + n ≤ v.unitSize) :
    Stored ref a (r + n) data v (w.wrote (v.unitNo ref b) o n fun i => data (r + i)) := by
  obtain ⟨tail, bytes, others, saved⟩ := stored
  refine ⟨?_, fun p low => ?_, fun unit other => ?_, fun unit was => ?_⟩
  · rw [tail]
    rfl
  · change Mem.paged (Function.update w.mem _ _) _ _ p = _
    rw [Mem.paged_blit (fun c bound => distinct.own b inside c bound) fits low, ← Mem.blit_append]
    rcases next with rfl | place
    · rw [Mem.blit_zero, Mem.blit_zero, bytes p low]
    · rw [place]
      exact Mem.blit_at (bytes p low)
  · have ne := (other b inside).symm
    obtain ⟨mem, disk, unsaved⟩ := others unit other
    refine ⟨?_, ?_, ?_⟩
    · exact (Function.update_of_ne ne _ _).trans mem
    · exact (Function.update_of_ne ne _ _).trans disk
    · exact (Function.update_of_ne ne _ _).trans unsaved
  · obtain ⟨clean, marked⟩ := saved unit was
    by_cases here : unit = v.unitNo ref b
    · subst here
      exact ⟨Function.update_self _ _ _, (Function.update_self _ _ _).trans rfl⟩
    · refine ⟨(Function.update_of_ne here _ _).trans clean, (Function.update_of_ne here _ _).trans ?_⟩
      exact marked.trans (Function.update_of_ne here _ _).symm

/-! ## The loops -/

/-- The units of an array of the file are written. -/
theorem writeUnits_stored (ready : Ready hlock v) (reads : ∀ unit, v.reads unit = true) (distinct : Distinct v ref)
    (array : List Nat) {b : Nat} (named : ∀ i (inside : i < array.length), array[i] = v.unitNo ref (b + i))
    (inside : b + array.length ≤ (v.inodes ref).dunits) {offset : Nat} (le : r ≤ total) (low : array ≠ [] → offset ≤ v.unitSize)
    (next : total ≤ r ∨ a + r = b * v.unitSize + offset) (stored : Stored ref a r data v w) :
    ∃ u, (writeUnits data total hlock array r offset).run w =
        .ok (⟨r + min (total - r) (array.length * v.unitSize - offset), true⟩, u) ∧
      Stored ref a (r + min (total - r) (array.length * v.unitSize - offset)) data v u := by
  induction array generalizing b r offset w with
  | nil =>
    rw [List.length_nil, Nat.zero_mul, Nat.zero_sub, Nat.min_zero, Nat.add_zero]
    exact ⟨w, rfl, stored⟩
  | cons x rest ih =>
    have low := low (List.cons_ne_nil x rest)
    have first : x = v.unitNo ref b := named 0 (Nat.succ_pos _)
    rw [List.length_cons] at inside
    have same := stored.same distinct
    have readable : w.reads x = true := by
      rw [same.reads]
      exact reads x
    obtain ⟨w', step, ticked⟩ := @writeUnits_step hlock total data w (stored.ready ready) x readable rest r offset
    rw [same.unitSize] at step ticked
    have stored' := (stored.step distinct (b := b) (o := offset) (n := min (v.unitSize - offset) (total - r)) (by omega) (by omega)
      (by omega)).ticked (first ▸ ticked)
    have named' : ∀ i (inside : i < rest.length), rest[i] = v.unitNo ref (b + 1 + i) := by
      intro i bound
      rw [Nat.add_assoc, Nat.add_comm 1 i]
      exact named (i + 1) (Nat.succ_lt_succ bound)
    have next' : total ≤ r + min (v.unitSize - offset) (total - r) ∨
        a + (r + min (v.unitSize - offset) (total - r)) = (b + 1) * v.unitSize + 0 := by
      rw [Nat.add_mul]
      omega
    obtain ⟨u, run, stored''⟩ := ih named' (by omega) (by omega) (fun _ => Nat.zero_le v.unitSize) next' stored'
    have count : r + min (v.unitSize - offset) (total - r) +
        min (total - (r + min (v.unitSize - offset) (total - r))) (rest.length * v.unitSize - 0) =
        r + min (total - r) ((x :: rest).length * v.unitSize - offset) := by
      rw [List.length_cons, Nat.succ_mul]
      omega
    rw [count] at run stored''
    exact ⟨u, step.trans run, stored''⟩

/-- The blocks of a file are written in batches. -/
theorem writeLoop_stored (ready : Ready hlock v) (reads : ∀ unit, v.reads unit = true) (whole : Whole v ref)
    (distinct : Distinct v ref) (fuel : Nat) {b count : Nat} (enough : count ≤ fuel)
    (inside : b + count ≤ (v.inodes ref).dunits) {offset : Nat} (le : r ≤ total) (low : offset ≤ v.unitSize)
    (next : total ≤ r ∨ a + r = b * v.unitSize + offset) (stored : Stored ref a r data v w) :
    ∃ u, (writeLoop ref data total hlock fuel b count r offset).run w =
        .ok (r + min (total - r) (count * v.unitSize - offset), u) ∧
      Stored ref a (r + min (total - r) (count * v.unitSize - offset)) data v u := by
  induction fuel generalizing b count r offset w with
  | zero =>
    obtain rfl := Nat.le_zero.mp enough
    rw [Nat.zero_mul, Nat.zero_sub, Nat.min_zero, Nat.add_zero]
    exact ⟨w, rfl, stored⟩
  | succ fuel ih =>
    unfold writeLoop
    split
    · next more =>
      obtain ⟨w₁, list, ticked⟩ := mgfsInodeListDunit_spec (stored.ready ready) ref b (min count maxUnitArray)
      rw [(stored.same distinct).list whole (by omega)] at list
      obtain ⟨length, named⟩ := @Whole.units ref v whole b (min count maxUnitArray) (by omega)
      rw [Prog.bind_ok list]
      generalize inodeListDunit v.dev v.unitSize (v.inodes ref) b (min count maxUnitArray) = array at length named
      split
      · next none =>
        rw [none, List.length_nil] at length
        obtain rfl : count = 0 := by
          unfold maxUnitArray at length
          omega
        rw [Nat.zero_mul, Nat.zero_sub, Nat.min_zero, Nat.add_zero]
        exact ⟨w₁, rfl, stored.ticked ticked⟩
      · next some =>
        obtain ⟨w₂, units, stored₂⟩ := writeUnits_stored ready reads distinct array named (by omega) le (fun _ => low) next
          (stored.ticked ticked)
        rw [Prog.bind_ok units]
        dsimp only
        rw [if_pos rfl]
        have pos : 0 < array.length := List.length_pos_iff.mpr some
        have first : v.unitSize ≤ array.length * v.unitSize := Nat.le_mul_of_pos_left _ pos
        have split : array.length * v.unitSize + (count - array.length) * v.unitSize = count * v.unitSize := by
          rw [← Nat.add_mul]
          congr 1
          omega
        have enough' : count - array.length ≤ fuel := by omega
        have inside' : b + array.length + (count - array.length) ≤ (v.inodes ref).dunits := by omega
        have next' : total ≤ r + min (total - r) (array.length * v.unitSize - offset) ∨
            a + (r + min (total - r) (array.length * v.unitSize - offset)) = (b + array.length) * v.unitSize + 0 := by
          rw [Nat.add_mul]
          omega
        obtain ⟨u, run, stored₃⟩ := ih enough' inside' (by omega) (Nat.zero_le v.unitSize) next' stored₂
        have bytes : r + min (total - r) (array.length * v.unitSize - offset) +
            min (total - (r + min (total - r) (array.length * v.unitSize - offset)))
              ((count - array.length) * v.unitSize - 0) = r + min (total - r) (count * v.unitSize - offset) := by omega
        rw [bytes] at run stored₃
        exact ⟨u, run, stored₃⟩
    · rw [show total - r = 0 by omega, Nat.zero_min, Nat.add_zero]
      exact ⟨w, rfl, stored⟩

/-! ## The record -/

/-- The state after the recorded size of a file was raised to `n`. -/
def Volume.sized (v : Volume) (ref : Ref) (n : Nat) : Volume :=
  { v with inodes := Function.update v.inodes ref { v.inodes ref with sz := max (v.inodes ref).sz n } }

/-- The state after the records of the unit of a record were marked for writing. -/
def Volume.filed (v : Volume) (ref : Ref) : Volume :=
  { v with stored := fun r => if sameUnit v.unitSize ref r then v.inodes r else v.stored r }

/-- The state after the recorded size was raised and the unit of the record was marked for writing. -/
def Volume.recorded (v : Volume) (ref : Ref) (unit n : Nat) : Volume := ((v.sized ref n).marked unit).filed ref

section Recorded
variable {unit n : Nat}

theorem Stored.size (stored : Stored ref a r data v w) :
    (w.recorded ref unit n).inodes ref = { v.inodes ref with sz := max (v.inodes ref).sz n } := by
  rw [stored.tail]
  exact Function.update_self _ _ _

theorem Stored.record (stored : Stored ref a r data v w) {other : Ref} (ne : other ≠ ref) :
    (w.recorded ref unit n).inodes other = v.inodes other := by
  rw [stored.tail]
  exact Function.update_of_ne ne _ _

/-- A file whose address units are not among the blocks written keeps its blocks. -/
theorem Stored.keeps (stored : Stored ref a r data v w) {other : Ref} (distinct : ∀ b < (v.inodes other).dunits,
    ∀ c < (v.inodes ref).dunits, v.unitNo ref c ∉ addressesOf v.dev v.unitSize (v.inodes other) b) :
    Same other v (w.recorded ref unit n) := by
  have fields : ∃ sz, (w.recorded ref unit n).inodes other = { v.inodes other with sz := sz } := by
    by_cases here : other = ref
    · subst here
      exact ⟨_, stored.size⟩
    · exact ⟨(v.inodes other).sz, stored.record here⟩
  obtain ⟨sz, fields⟩ := fields
  refine ⟨by rw [stored.tail]; rfl, by rw [stored.tail]; rfl, by rw [fields], by rw [fields], by rw [fields],
    fun b inside u member => ?_⟩
  exact (stored.others u fun c bound same => distinct b inside c bound (same ▸ member)).1

theorem Stored.filed (stored : Stored ref a r data v w) {other : Ref} (was : v.stored other = v.inodes other)
    (mine : sameUnit w.unitSize ref ref = true) :
    (w.recorded ref unit n).stored other = (w.recorded ref unit n).inodes other := by
  by_cases here : other = ref
  · subst here
    exact if_pos mine
  · refine ite_eq_left_iff.mpr fun _ => ?_
    have kept : w.stored = v.stored := by rw [stored.tail]
    exact (congrFun kept other).trans (was.trans (@Stored.record ref a r data v w unit n stored other here).symm)

theorem Stored.marked (stored : Stored ref a r data v w) {x : Nat} (was : v.Saved x) : (w.recorded ref unit n).Saved x :=
  Saved.mark unit x (stored.saved x was)

end Recorded

/-- A write that stays within the units stores all its bytes, and raises the recorded size to their end. -/
theorem mgfsInodeWrite_stored {unit offset size : Nat} (ready : Ready hlock v) (reads : ∀ unit, v.reads unit = true)
    (whole : Whole v ref) (distinct : Distinct v ref) (inside : offset + size ≤ v.room ref) :
    ∃ u w, (mgfsInodeWrite ⟨ref, some unit⟩ offset size data hlock).run v = .ok (size, w) ∧
      Stored ref offset size data v u ∧ Ticked (u.recorded ref unit (offset + size)) w := by
  have small := whole.small
  have ends : endOf offset size = offset + size := Nat.mod_eq_of_lt (by omega)
  have bytes : (v.inodes ref).dunits * v.unitSize % 2 ^ 32 = v.room ref := Nat.mod_eq_of_lt small
  have grow : (growInode ⟨ref, some unit⟩ offset size hlock).run v = .ok (v.room ref, v) := by
    unfold growInode
    rw [Prog.bind_ok (Prog.run_get v)]
    dsimp only
    rw [bytes, ends, if_neg (Nat.not_lt.mpr inside)]
    rfl
  obtain ⟨u, loop, stored⟩ : ∃ u, (writeLoop ref data (exactPos v.unitSize (v.room ref) offset size).size hlock
      (exactPos v.unitSize (v.room ref) offset size).count (exactPos v.unitSize (v.room ref) offset size).block
      (exactPos v.unitSize (v.room ref) offset size).count 0 (exactPos v.unitSize (v.room ref) offset size).offset).run v =
        .ok (size, u) ∧ Stored ref offset size data v u := by
    by_cases low : offset < v.room ref
    · obtain ⟨blocks, first, start, count⟩ := @Whole.position ref v offset size low
      obtain ⟨u, run, stored⟩ := writeLoop_stored ready reads whole distinct _ (Nat.le_refl _) blocks (Nat.zero_le _) first.le
        (.inr start.symm) (Stored.refl v)
      rw [Nat.sub_zero, Nat.zero_add, count, Nat.min_eq_left (by omega)] at run stored
      exact ⟨u, run, stored⟩
    · obtain rfl : size = 0 := by omega
      unfold exactPos
      rw [if_neg low]
      exact ⟨v, rfl, Stored.refl v⟩
  have ready' : Ready hlock (u.sized ref (offset + size)) := stored.ready ready
  obtain ⟨u', write, t, rfl⟩ := mgfsBufferWrite_spec ready' unit
  refine ⟨u, _, ?_, stored, t, rfl⟩
  unfold mgfsInodeWrite mgfsInodeUpdate putInode storeRecords
  dsimp only
  rw [if_pos (Option.some_ne_none unit), Prog.bind_ok grow, Prog.bind_ok (Prog.run_get v),
    calcDataPos_eq, Nat.mul_comm v.unitSize, bytes, if_pos (ends.trans_le inside), Prog.bind_ok loop, ends]
  exact (Prog.bind_ok (Prog.run_modify _ _)).trans (Prog.bind_ok (Prog.bind_ok write))

end Write

end PreTeO.Mgfs3
