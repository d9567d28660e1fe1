import PreTeO.Mgfs3.BitmapTotal
import PreTeO.Mgfs3.BitmapAlloc

/-!
# What setting and clearing bits does to a bitmap file

`Marked` says that some bits have a state now and the others are as they were; it composes. Every bit with a record in the
file can be set, and the shadow of a file takes over what is synchronized.
-/

namespace PreTeO.Mgfs3
set_option autoImplicit false
open PreTeO.Lib

/-! ## Records -/

/-- The bits in `units` are in a state, the others as they were. -/
structure Marked (recs recs' : List BitmapRec) (units : List Nat) (state : Bool) : Prop where
  length : recs'.length = recs.length
  bits : ∀ n, bitOf recs' n = if n ∈ units then state else bitOf recs n
  counted : CountedFile recs → CountedFile recs'

theorem Marked.refl (recs : List BitmapRec) (state : Bool) : Marked recs recs [] state :=
  ⟨rfl, fun n => by simp, fun counted => counted⟩

theorem Marked.trans {a b c : List BitmapRec} {x y : List Nat} {state : Bool} (first : Marked a b x state)
    (second : Marked b c y state) : Marked a c (x ++ y) state := by
  refine ⟨second.length.trans first.length, fun n => ?_, fun counted => second.counted (first.counted counted)⟩
  rw [second.bits n, first.bits n]
  by_cases late : n ∈ y
  · simp [late]
  · by_cases early : n ∈ x <;> simp [late, early]

/-- A bit that is in the state. -/
theorem Marked.same {recs : List BitmapRec} {n : Nat} {state : Bool} (same : bitOf recs n = state) :
    Marked recs recs [n] state := by
  refine ⟨rfl, fun m => ?_, fun counted => counted⟩
  by_cases here : m = n
  · subst here
    simp [same]
  · simp [here]

/-- A bit that is not, put into it. -/
theorem Marked.put {recs : List BitmapRec} {n : Nat} {state : Bool} (inside : n / maxBitmapBits < recs.length)
    (differ : bitOf recs n = !state) :
    Marked recs (recs.modify (n / maxBitmapBits) (·.put (n % maxBitmapBits) state)) [n] state := by
  have get := List.getElem?_eq_getElem inside
  have small : n % maxBitmapBits < maxBitmapBits := Nat.mod_lt _ (by decide)
  rw [bitOf, get] at differ
  refine ⟨List.length_modify _ _ _, fun m => ?_, fun counted r member => ?_⟩
  · unfold bitOf
    rw [List.getElem?_modify]
    by_cases here : n / maxBitmapBits = m / maxBitmapBits
    · rw [← here, get, Option.map_eq_map, Option.map_some, if_pos rfl]
      dsimp only
      rw [put_bit _ state small (Nat.mod_lt _ (by decide))]
      have whole := Nat.div_add_mod n maxBitmapBits
      have whole' := Nat.div_add_mod m maxBitmapBits
      by_cases hit : m % maxBitmapBits = n % maxBitmapBits
      · have : m = n := by rw [← whole, ← whole', here, hit]
        simp [this]
      · have : m ≠ n := by
          rintro rfl
          exact hit rfl
        simp [hit, this]
    · have : m ≠ n := by
        rintro rfl
        exact here rfl
      simp [here, this]
  · rw [List.mem_iff_getElem?] at member
    obtain ⟨i, at_i⟩ := member
    rw [List.getElem?_modify, Option.map_eq_map, Option.map_eq_some_iff] at at_i
    obtain ⟨r', old, rfl⟩ := at_i
    have right := counted r' (List.mem_of_getElem? old)
    by_cases here : n / maxBitmapBits = i
    · subst here
      rw [get] at old
      cases old
      rw [if_pos rfl]
      exact put_counted small right differ
    · rw [if_neg here]
      exact right

theorem Marked.setBits {recs recs' : List BitmapRec} {units : List Nat} {state : Bool} (marked : Marked recs recs' units state) :
    setBits recs' = if state then setBits recs ∪ units.toFinset else setBits recs \ units.toFinset := by
  ext n
  rw [mem_setBits, marked.bits n]
  cases state with
  | true =>
    rw [if_pos rfl, Finset.mem_union, List.mem_toFinset, mem_setBits]
    by_cases member : n ∈ units <;> simp [member]
  | false =>
    rw [if_neg Bool.false_ne_true, Finset.mem_sdiff, List.mem_toFinset, mem_setBits]
    by_cases member : n ∈ units <;> simp [member]

/-- The counter follows one bit that changes. -/
theorem Marked.countBit {recs recs' : List BitmapRec} {n : Nat} {state : Bool} (marked : Marked recs recs' [n] state)
    (differ : bitOf recs n = !state) (short : maxBitmapBits * recs.length ≤ 2 ^ 32) :
    PreTeO.Mgfs3.countBit (PreTeO.Mgfs3.setBits recs).card state = (PreTeO.Mgfs3.setBits recs').card := by
  have few := card_lt short
  have few' := card_lt (marked.length.symm ▸ short)
  rw [marked.setBits] at few' ⊢
  unfold PreTeO.Mgfs3.countBit
  have single : [n].toFinset = {n} := rfl
  rw [single] at few' ⊢
  cases state with
  | true =>
    have absent : n ∉ PreTeO.Mgfs3.setBits recs := by
      rw [mem_setBits, differ]
      decide
    simp only [if_true] at few' ⊢
    rw [Finset.union_comm, ← Finset.insert_eq, Finset.card_insert_of_notMem absent] at few' ⊢
    exact Nat.mod_eq_of_lt few'
  | false =>
    have present : n ∈ PreTeO.Mgfs3.setBits recs := mem_setBits.mpr differ
    have positive := Finset.card_pos.mpr ⟨n, present⟩
    simp only [Bool.false_eq_true, if_false]
    rw [← Finset.erase_eq, Finset.card_erase_of_mem present]
    omega

/-! ## The file -/

/-- The bit has a whole record in the file. -/
def Volume.HasBit (v : Volume) (ref : Ref) (n : Nat) : Prop := n / maxBitmapBits < (v.inodes ref).sz / szBitmapRec

instance (v : Volume) (ref : Ref) (n : Nat) : Decidable (v.HasBit ref n) := inferInstanceAs (Decidable (_ < _))

/-- The bits of an array that have records. -/
def Volume.within (v : Volume) (ref : Ref) (units : List Nat) : List Nat := units.filter fun n => decide (v.HasBit ref n)

/-- Some bits of a bitmap file are in a state now; of the volume nothing else changed but what was marked for writing. -/
structure SetBits (v w : Volume) (ref : Ref) (units : List Nat) (state : Bool) : Prop extends Recount ref v w where
  marked : Marked (v.bits ref.idx) (w.bits ref.idx) units state

section File
variable {u v w : Volume} {ref : Ref} {h hshadow : InodeHandle} {hlock n : Nat} {units : List Nat} {state : Bool}

theorem Recount.bits_ne (moved : Recount ref v w) {idx : Nat} (other : idx ≠ ref.idx) : w.bits idx = v.bits idx := by
  obtain ⟨recs, bits⟩ := moved.bits
  rw [bits, Function.update_of_ne other]

theorem Recount.record (moved : Recount ref v w) (r : Ref) : ∃ n, w.inodes r = { v.inodes r with nused := n } := by
  obtain ⟨n, inodes⟩ := moved.inodes
  rw [inodes]
  by_cases same : r = ref
  · subst same
    exact ⟨n, by simp⟩
  · exact ⟨(v.inodes r).nused, by simp [same]⟩

theorem Recount.hasBit (moved : Recount ref v w) (r : Ref) : w.HasBit r n ↔ v.HasBit r n := by
  obtain ⟨m, same⟩ := moved.record r
  unfold Volume.HasBit
  rw [same]

/-- A bitmap file whose records changed can be read as before. -/
theorem Recount.ok (moved : Recount ref v w) {r : Ref} (ok : v.BitmapOk r)
    (length : (w.bits r.idx).length = (v.bits r.idx).length) (counted : CountedFile (w.bits r.idx)) : w.BitmapOk r := by
  obtain ⟨m, same⟩ := moved.record r
  refine ⟨?_, ?_, ?_, counted, fun block inside => ?_⟩
  · rw [length, ok.length, same, moved.unitSize]
  · rw [length]
    exact ok.short
  · rw [length, same]
    exact ok.size
  · rw [same] at inside
    rw [blockUnit_congr moved.unitSize moved.reads moved.mem ⟨m, same⟩]
    exact ok.readable block inside

theorem SetBits.ok (set : SetBits v w ref units state) {r : Ref} (ok : v.BitmapOk r) : w.BitmapOk r := by
  by_cases same : r.idx = ref.idx
  · apply set.toRecount.ok ok
    · rw [same]
      exact set.marked.length
    · rw [same]
      exact set.marked.counted (same ▸ ok.counted)
  · apply set.toRecount.ok ok
    · rw [set.toRecount.bits_ne same]
    · rw [set.toRecount.bits_ne same]
      exact ok.counted

theorem Frozen.recount (frozen : Frozen v w) (ref : Ref) : Recount ref v w :=
  ⟨frozen.toKeep, frozen.mem, ⟨v.bits ref.idx, by rw [frozen.bits, Function.update_eq_self]⟩, (v.inodes ref).nused, by
    rw [frozen.inodes]
    simp⟩

theorem SetBits.of_frozen (frozen : Frozen v w) (marked : Marked (v.bits ref.idx) (v.bits ref.idx) units state) :
    SetBits v w ref units state :=
  ⟨frozen.recount ref, by rw [frozen.bits]; exact marked⟩

theorem SetBits.trans {more : List Nat} (first : SetBits u v ref units state) (second : SetBits v w ref more state) :
    SetBits u w ref (units ++ more) state :=
  ⟨(recount_frames ref).trans u v w first.toRecount second.toRecount, first.marked.trans second.marked⟩

theorem SetBits.frozen (frozen : Frozen u v) (set : SetBits v w ref units state) : SetBits u w ref units state := by
  have both := (SetBits.of_frozen frozen (Marked.refl (u.bits ref.idx) state)).trans set
  rwa [List.nil_append] at both

/-! ## The code -/

/-- Where the record of a bit lies. -/
theorem recordPos (ok : v.BitmapOk ref) (aligned : szBitmapRec ∣ v.unitSize) (has : v.HasBit ref n) :
    n < (v.inodes ref).sz / szBitmapRec % 2 ^ 32 * maxBitmapBits % 2 ^ 32 ∧
      (mgfsInodeCalcDataPos v.unitSize (v.inodes ref) (n / maxBitmapBits * szBitmapRec) szBitmapRec).size = szBitmapRec ∧
      (mgfsInodeCalcDataPos v.unitSize (v.inodes ref) (n / maxBitmapBits * szBitmapRec) szBitmapRec).block <
        (v.inodes ref).dunits := by
  obtain ⟨q, unit⟩ := aligned
  have length := ok.length
  have short := ok.short
  have size := ok.size
  rw [unit, Nat.mul_div_cancel_left q (by decide : 0 < szBitmapRec)] at length
  have bytes : v.unitSize * (v.inodes ref).dunits = szBitmapRec * (v.bits ref.idx).length := by
    rw [unit, length, Nat.mul_assoc, Nat.mul_comm q]
  unfold Volume.HasBit at has
  unfold szBitmapRec maxBitmapBits at *
  have records : (v.inodes ref).sz / 32 ≤ (v.bits ref.idx).length := by omega
  have limit : v.unitSize * (v.inodes ref).dunits % 2 ^ 32 = v.unitSize * (v.inodes ref).dunits :=
    Nat.mod_eq_of_lt (by omega)
  refine ⟨by omega, ?_⟩
  unfold mgfsInodeCalcDataPos
  rw [limit, if_pos (by omega)]
  refine ⟨?_, ?_⟩
  · dsimp only
    split <;> omega
  · dsimp only
    rw [Nat.div_lt_iff_lt_mul (by
      apply Nat.pos_of_ne_zero
      intro zero
      rw [zero, Nat.zero_mul] at bytes
      omega), Nat.mul_comm (v.inodes ref).dunits]
    omega

theorem bitmapRecord_run (ready : Ready hlock v) (ok : v.BitmapOk h.ref) (aligned : szBitmapRec ∣ v.unitSize)
    (has : v.HasBit h.ref n) :
    ∃ hb w, (bitmapRecord h n hlock).run v = .ok (some hb, w) ∧ Frozen (v.holding [hb]) w := by
  obtain ⟨small, size, block⟩ := recordPos ok aligned has
  obtain ⟨hb, unit⟩ := Option.isSome_iff_exists.mp (ok.readable _ block)
  obtain ⟨w, run, frozen⟩ := readBlock_run ready h.ref
    (mgfsInodeCalcDataPos v.unitSize (v.inodes h.ref) (n / maxBitmapBits * szBitmapRec) szBitmapRec).block
  rw [unit] at run frozen
  refine ⟨hb, w, ?_, frozen⟩
  unfold bitmapRecord
  rw [Prog.bind_ok (Prog.run_get v)]
  dsimp only
  rw [if_pos small, if_pos size]
  exact run

/-- The part of `mgfs_bitmap_set` between lock and unlock. -/
theorem setLocked_run (hb : Nat) (state : Bool) {lock : Nat} (ready : Ready lock v)
    (inside : n / maxBitmapBits < (v.bits h.ref.idx).length) :
    ∃ w, (do
      let v ← Prog.get
      if v.bit h.ref n ≠ state then
        putBit h n state
        mgfsBufferWrite hb lock
        mgfsInodeUpdate h lock
      mgfsBufferFree hb lock
      return true : M Bool).run (v.holding [hb]) = .ok (true, w) ∧ SetBits v w h.ref [n] state ∧
      (v.Totalled h.ref → w.Totalled h.ref) := by
  rw [Prog.bind_ok (Prog.run_get _)]
  have frees : ∀ {u : Volume}, Ready lock u → ∃ w, (do
      mgfsBufferFree hb lock
      return true : M Bool).run (u.holding [hb]) = .ok (true, w) ∧ Frozen u w := by
    intro u ready
    obtain ⟨_, w, run, frozen⟩ := free_passes frozen_frames hb u ready
    rw [holding_nil] at frozen
    exact ⟨w, by rw [Prog.bind_ok run]; rfl, frozen⟩
  have bit : (v.holding [hb]).bit h.ref n = bitOf (v.bits h.ref.idx) n := rfl
  rw [bit]
  by_cases same : bitOf (v.bits h.ref.idx) n = state
  · obtain ⟨w, run, frozen⟩ := frees ready
    refine ⟨w, ?_, SetBits.of_frozen frozen (Marked.same same), frozen.totalled⟩
    dsimp only
    rw [if_neg (not_not_intro same)]
    exact run
  · -- the state with the bit put
    let u : Volume := { v with
      bits := Function.update v.bits h.ref.idx
        ((v.bits h.ref.idx).modify (n / maxBitmapBits) (·.put (n % maxBitmapBits) state))
      inodes := Function.update v.inodes h.ref
        { v.inodes h.ref with nused := countBit (v.inodes h.ref).nused state } }
    have differ := Bool.eq_not_iff.mpr same
    have marked := Marked.put inside differ
    have bits : u.bits h.ref.idx =
        (v.bits h.ref.idx).modify (n / maxBitmapBits) (·.put (n % maxBitmapBits) state) := Function.update_self _ _ _
    have set : SetBits v u h.ref [n] state := ⟨(recount_tallies h.ref).count v _ _, bits ▸ marked⟩
    have totalled : v.Totalled h.ref → u.Totalled h.ref := by
      rintro ⟨short, total⟩
      refine ⟨?_, ?_⟩
      · rw [bits, marked.length]
        exact short
      · have nused : (u.inodes h.ref).nused = countBit (v.inodes h.ref).nused state := by
          dsimp only [u]
          rw [Function.update_self]
        rw [bits, nused, total]
        exact marked.countBit differ short
    obtain ⟨_, w₁, write, moved₁⟩ := (write_passes frozen_frames hb).beside [hb] u ready
    obtain ⟨u₁, rfl, frozen₁⟩ := Passes.unhold frozen_frames moved₁
    obtain ⟨_, w₂, update, moved₂⟩ := (update_passes frozen_frames h).beside [hb] u₁ (frozen₁.toHold.ready ready)
    obtain ⟨u₂, rfl, frozen₂⟩ := Passes.unhold frozen_frames moved₂
    obtain ⟨w, run, frozen₃⟩ := frees (frozen₂.toHold.ready (frozen₁.toHold.ready ready))
    have frozen := frozen_frames.trans _ _ _ frozen₁ (frozen_frames.trans _ _ _ frozen₂ frozen₃)
    refine ⟨w, ?_, ?_, fun before => frozen.totalled (totalled before)⟩
    · dsimp only
      rw [if_pos same]
      change (do
        mgfsBufferWrite hb lock
        mgfsInodeUpdate h lock
        mgfsBufferFree hb lock
        return true : M Bool).run (u.holding [hb]) = _
      exact (Prog.bind_ok write).trans ((Prog.bind_ok update).trans run)
    · have both := set.trans (SetBits.of_frozen frozen (Marked.refl (u.bits h.ref.idx) state))
      rwa [List.append_nil] at both

theorem SetBits.lock {held : Option Lock} {t : Nat}
    (set : SetBits { v with held := held, tickets := t } w ref units state) :
    SetBits v { w with held := v.held } ref units state :=
  ⟨(recount_frames ref).lock { v with held := held, tickets := t } w v.held v.tickets w.tickets set.toRecount, set.marked⟩

theorem Volume.BitmapOk.inside (ok : v.BitmapOk ref) (has : v.HasBit ref n) :
    n / maxBitmapBits < (v.bits ref.idx).length := by
  have size := ok.size
  unfold Volume.HasBit at has
  unfold szBitmapRec at size has
  omega

theorem Volume.BitmapOk.holding (ok : v.BitmapOk ref) {l : List Nat} : (v.holding l).BitmapOk ref :=
  ⟨ok.length, ok.short, ok.size, ok.counted, ok.readable⟩

theorem Volume.Totalled.lock (totalled : v.Totalled ref) (held : Option Lock) (t : Nat) :
    Volume.Totalled { v with held := held, tickets := t } ref := ⟨totalled.short, totalled.total⟩

/-- Every bit with a record can be set, and the counter of the file follows. -/
theorem mgfsBitmapSet_counted (ready : Ready hlock v) (ok : v.BitmapOk h.ref) (aligned : szBitmapRec ∣ v.unitSize)
    (has : v.HasBit h.ref n) (state : Bool) :
    ∃ w, (mgfsBitmapSet h n state hlock).run v = .ok (true, w) ∧ SetBits v w h.ref [n] state ∧
      (v.Totalled h.ref → w.Totalled h.ref) := by
  obtain ⟨hb, w₁, record, moved⟩ := bitmapRecord_run ready ok aligned has
  obtain ⟨u, rfl, frozen⟩ := Passes.unhold frozen_frames moved
  unfold mgfsBitmapSet
  rw [Prog.bind_ok record]
  dsimp only
  obtain ⟨a, w, run, rfl, set, totalled⟩ := locked_run (v := u.holding [hb])
    (P := fun a w => a = true ∧ SetBits u w h.ref [n] state ∧ (u.Totalled h.ref → w.Totalled h.ref))
    (frozen.toHold.ready ready) (by
      intro g depth t
      obtain ⟨w, run, set, totalled⟩ := setLocked_run (v := { u with held := some ⟨g, depth + 1⟩, tickets := t }) (h := h) hb state
        (Or.inr ⟨depth, rfl⟩) (by
          change n / maxBitmapBits < (u.bits h.ref.idx).length
          rw [frozen.bits]
          exact ok.inside has)
      exact ⟨true, w, run, set.held, rfl, set.lock, fun before => (totalled (before.lock _ _)).lock _ _⟩)
  exact ⟨w, run, set.frozen frozen, fun before => totalled (frozen.totalled before)⟩

theorem mgfsBitmapSet_run (ready : Ready hlock v) (ok : v.BitmapOk h.ref) (aligned : szBitmapRec ∣ v.unitSize)
    (has : v.HasBit h.ref n) (state : Bool) :
    ∃ w, (mgfsBitmapSet h n state hlock).run v = .ok (true, w) ∧ SetBits v w h.ref [n] state := by
  obtain ⟨w, run, set, _⟩ := mgfsBitmapSet_counted ready ok aligned has state
  exact ⟨w, run, set⟩

/-- A bit without a record is refused. -/
theorem mgfsBitmapSet_outside (outside : ¬ v.HasBit h.ref n) (state : Bool) :
    (mgfsBitmapSet h n state hlock).run v = .ok (false, v) := by
  have past : ¬ n < (v.inodes h.ref).sz / szBitmapRec % 2 ^ 32 * maxBitmapBits % 2 ^ 32 := by
    intro inside
    apply outside
    unfold Volume.HasBit
    rw [Nat.div_lt_iff_lt_mul (by decide)]
    exact inside.trans_le ((Nat.mod_le _ _).trans (Nat.mul_le_mul_right _ (Nat.mod_le _ _)))
  have none : (bitmapRecord h n hlock).run v = .ok (none, v) := by
    unfold bitmapRecord
    rw [Prog.bind_ok (Prog.run_get v)]
    dsimp only
    rw [if_neg past]
    rfl
  unfold mgfsBitmapSet
  rw [Prog.bind_ok none]
  rfl

theorem Volume.BitmapOk.unit_valid (ok : v.BitmapOk ref) (has : v.HasBit ref n) : n ≠ invalidUnitNumber := by
  have inside := ok.inside has
  have short := ok.short
  unfold maxBitmapBits at inside short
  unfold invalidUnitNumber
  omega

/-- `mgfs_bitmap_set_array` counts the bits that have records. -/
theorem mgfsBitmapSetArray_counted (ready : Ready hlock v) (ok : v.BitmapOk h.ref) (aligned : szBitmapRec ∣ v.unitSize)
    (units : List Nat) (state : Bool) :
    ∃ w, (mgfsBitmapSetArray h state hlock units).run v =
        .ok ((v.within h.ref units).length, w) ∧
      SetBits v w h.ref (v.within h.ref units) state ∧ (v.Totalled h.ref → w.Totalled h.ref) := by
  induction units generalizing v with
  | nil => exact ⟨v, rfl, SetBits.of_frozen (frozen_frames.refl v) (Marked.refl _ _), id⟩
  | cons n rest ih =>
    unfold mgfsBitmapSetArray
    by_cases has : v.HasBit h.ref n
    · obtain ⟨v₁, run, set, totalled⟩ := mgfsBitmapSet_counted ready ok aligned has state
      obtain ⟨w, run', set', totalled'⟩ := ih (set.toHold.ready ready) (set.ok ok) (by rw [set.unitSize]; exact aligned)
      have same : v₁.within h.ref rest = v.within h.ref rest :=
        List.filter_congr fun m _ => decide_eq_decide.mpr (set.toRecount.hasBit h.ref)
      have split : v.within h.ref (n :: rest) = n :: v.within h.ref rest := by simp [Volume.within, has]
      rw [same] at run' set'
      rw [split]
      refine ⟨w, ?_, set.trans set', totalled' ∘ totalled⟩
      rw [if_pos (ok.unit_valid has), Prog.bind_ok run, Prog.bind_ok run']
      rfl
    · obtain ⟨w, run, set, totalled⟩ := ih ready ok aligned
      have skip : v.within h.ref (n :: rest) = v.within h.ref rest := by simp [Volume.within, has]
      rw [skip]
      refine ⟨w, ?_, set, totalled⟩
      split
      · rw [Prog.bind_ok (mgfsBitmapSet_outside has state), Prog.bind_ok run]
        rfl
      · exact run

/-- `mgfs_bitmap_set_array` of bits that have records. -/
theorem mgfsBitmapSetArray_run (ready : Ready hlock v) (ok : v.BitmapOk h.ref) (aligned : szBitmapRec ∣ v.unitSize)
    {units : List Nat} (has : ∀ n ∈ units, v.HasBit h.ref n) (state : Bool) :
    ∃ w, (mgfsBitmapSetArray h state hlock units).run v = .ok (units.length, w) ∧ SetBits v w h.ref units state := by
  obtain ⟨w, run, set, _⟩ := mgfsBitmapSetArray_counted ready ok aligned units state
  have all : v.within h.ref units = units := List.filter_eq_self.mpr fun n member => decide_eq_true (has n member)
  rw [all] at run set
  exact ⟨w, run, set⟩

/-- `mgfs_bitmap_sync` of clear bits clears them in the shadow. -/
theorem mgfsBitmapSync_run (ready : Ready hlock v) (ok : v.BitmapOk h.ref) (okShadow : v.BitmapOk hshadow.ref)
    (apart : h.ref.idx ≠ hshadow.ref.idx) (aligned : szBitmapRec ∣ v.unitSize) {units : List Nat}
    (has : ∀ n ∈ units, v.HasBit h.ref n ∧ v.HasBit hshadow.ref n) (clear : ∀ n ∈ units, v.bit h.ref n = false) :
    ∃ w, (mgfsBitmapSync h hshadow hlock units).run v = .ok ((), w) ∧ SetBits v w hshadow.ref units false := by
  induction units generalizing v with
  | nil => exact ⟨v, rfl, SetBits.of_frozen (frozen_frames.refl v) (Marked.refl _ _)⟩
  | cons n rest ih =>
    obtain ⟨first, firstShadow⟩ := has n List.mem_cons_self
    obtain ⟨hb, w₁, record, moved⟩ := bitmapRecord_run ready ok aligned first
    obtain ⟨u, rfl, frozen⟩ := Passes.unhold frozen_frames moved
    have bit : u.bit h.ref n = false := by
      rw [Volume.bit_eq, frozen.bits]
      exact clear n List.mem_cons_self
    -- the bit of the shadow, between lock and unlock
    have inside : ∀ g depth t, ∃ (a : Unit) (w : Volume), (do
        let v ← Prog.get
        let _ ← mgfsBitmapSet hshadow n (v.bit h.ref n) g
        mgfsBufferFree hb g : M Unit).run { u.holding [hb] with held := some ⟨g, depth + 1⟩, tickets := t } = .ok (a, w) ∧
        w.held = some ⟨g, depth + 1⟩ ∧ SetBits u { w with held := u.held } hshadow.ref [n] false := by
      intro g depth t
      let u' : Volume := { u with held := some ⟨g, depth + 1⟩, tickets := t }
      have ready' : Ready g u' := Or.inr ⟨depth, rfl⟩
      obtain ⟨v₂, run, set⟩ := mgfsBitmapSet_run (v := u'.holding [hb]) (h := hshadow) ready'
        ((frozen.ok okShadow).lock _ _).holding (by rw [← frozen.unitSize] at aligned; exact aligned)
        ((frozen.recount hshadow.ref).hasBit hshadow.ref |>.mpr firstShadow) (u.bit h.ref n)
      rw [bit] at set
      obtain ⟨x, rfl, recount⟩ := Passes.unhold (recount_frames hshadow.ref) set.toRecount
      obtain ⟨_, w, free, frozen₂⟩ := free_passes frozen_frames hb x (recount.toHold.ready ready')
      rw [holding_nil] at frozen₂
      have setX : SetBits u' x hshadow.ref [n] false := ⟨recount, set.marked⟩
      have both := setX.trans (SetBits.of_frozen frozen₂ (Marked.refl (x.bits hshadow.ref.idx) false))
      rw [List.append_nil] at both
      exact ⟨(), w, (Prog.bind_ok run).trans free, both.held, both.lock⟩
    have readyU : Ready hlock (u.holding [hb]) := frozen.toHold.ready ready
    obtain ⟨_, v₁, locks, set₁⟩ := locked_run (P := fun (_ : Unit) w => SetBits u w hshadow.ref [n] false) readyU inside
    have set₁' : SetBits v v₁ hshadow.ref [n] false := set₁.frozen frozen
    have same : ∀ m, v₁.bit h.ref m = v.bit h.ref m := by
      intro m
      rw [Volume.bit_eq, Volume.bit_eq, set₁'.toRecount.bits_ne apart]
    obtain ⟨w, run, set⟩ := ih (set₁'.toHold.ready ready) (set₁'.ok ok) (set₁'.ok okShadow)
      (by rw [set₁'.unitSize]; exact aligned)
      (fun m member => ⟨(set₁'.toRecount.hasBit h.ref).mpr (has m (List.mem_cons_of_mem _ member)).1,
        (set₁'.toRecount.hasBit hshadow.ref).mpr (has m (List.mem_cons_of_mem _ member)).2⟩)
      fun m member => by
        rw [same]
        exact clear m (List.mem_cons_of_mem _ member)
    refine ⟨w, ?_, set₁'.trans set⟩
    unfold mgfsBitmapSync
    rw [if_pos (ok.unit_valid first), Prog.bind_ok record]
    exact (Prog.bind_ok locks).trans run

end File

end PreTeO.Mgfs3
