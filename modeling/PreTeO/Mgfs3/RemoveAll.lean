import PreTeO.Mgfs3.BitmapSet
import PreTeO.Mgfs3.FilledTree

/-!
# Removing all the blocks of a tree

`Frees` says which bits a removal clears and which places it changes; it composes along the code. A call that is to remove at
least as many blocks as there are below a filled address unit clears the bits of all its units and says that it is empty.
-/

namespace PreTeO.Mgfs3
set_option autoImplicit false
open PreTeO.Lib

/-- The inode is none of the bitmap files, and the shadow is another file than the bitmap. -/
structure Growth.Separate (g : Growth) : Prop where
  bitmap : g.inode.ref ≠ g.bitmap.ref
  shadow : ∀ s, g.shadow = some s → g.inode.ref ≠ s.ref ∧ g.bitmap.ref.idx ≠ s.ref.idx

/-- The file is the bitmap or its shadow. -/
def Growth.Marks (g : Growth) (r : Ref) : Prop := r = g.bitmap.ref ∨ ∃ s, g.shadow = some s ∧ r = s.ref

/-- The unit has a bit in the bitmap and in its shadow. -/
def Growth.Records (g : Growth) (v : Volume) (unit : Nat) : Prop := ∀ r, g.Marks r → v.HasBit r unit

/-- The blocks of the file are found whatever the units in `T` hold. -/
def Volume.RootedBut (v : Volume) (T : Nat → Prop) (ref : Ref) : Prop :=
  ∀ mem : Nat → Mem, (∀ unit, ¬ T unit → mem unit = v.mem unit) →
    ∀ block < (v.inodes ref).dunits, Volume.blockUnit { v with mem := mem } ref block = v.blockUnit ref block

/-- The bitmap files can be read and set, and the units in `T` have no part in that. -/
structure Sound (g : Growth) (T : Nat → Prop) (v : Volume) : Prop where
  aligned : szBitmapRec ∣ v.unitSize
  ok : ∀ r, g.Marks r → v.BitmapOk r
  rooted : ∀ r, g.Marks r → v.RootedBut T r

/-- The bits in `X` were cleared in the bitmap and those in `Y` in its shadow. Of the places only those in `A` changed, and of
the other inodes only the counters of used bits. -/
structure Frees (g : Growth) (X Y : List Nat) (A : Place → Prop) (v w : Volume) : Prop extends Hold v w where
  main : Marked (v.bits g.bitmap.ref.idx) (w.bits g.bitmap.ref.idx) X false
  shadowed : ∀ s, g.shadow = some s → Marked (v.bits s.ref.idx) (w.bits s.ref.idx) Y false
  rest : ∀ idx, (∀ r, g.Marks r → idx ≠ r.idx) → w.bits idx = v.bits idx
  mem : ∀ unit, ¬ A (.unit unit) → w.mem unit = v.mem unit
  inodes : ∀ r, r ≠ g.inode.ref → ∃ n, w.inodes r = { v.inodes r with nused := n }
  own : ∃ d t, w.inodes g.inode.ref = { v.inodes g.inode.ref with dunits := d, location := t }
  location : ¬ A (.locations g.inode.ref) → (w.inodes g.inode.ref).location = (v.inodes g.inode.ref).location

namespace Frees
variable {g : Growth} {X Y X' Y' : List Nat} {A B : Place → Prop} {u v w : Volume} {T : Nat → Prop}

theorem trans (first : Frees g X Y A u v) (second : Frees g X' Y' A v w) : Frees g (X ++ X') (Y ++ Y') A u w := by
  refine ⟨hold_frames.trans _ _ _ first.toHold second.toHold, first.main.trans second.main,
    fun s is => (first.shadowed s is).trans (second.shadowed s is),
    fun idx other => (second.rest idx other).trans (first.rest idx other),
    fun unit other => (second.mem unit other).trans (first.mem unit other), fun r other => ?_, ?_,
    fun other => (second.location other).trans (first.location other)⟩
  · obtain ⟨n, same⟩ := first.inodes r other
    obtain ⟨m, same'⟩ := second.inodes r other
    exact ⟨m, by rw [same', same]⟩
  · obtain ⟨d, t, same⟩ := first.own
    obtain ⟨d', t', same'⟩ := second.own
    exact ⟨d', t', by rw [same', same]⟩

theorem mono (frees : Frees g X Y A v w) (more : ∀ place, A place → B place) : Frees g X Y B v w :=
  ⟨frees.toHold, frees.main, frees.shadowed, frees.rest, fun unit other => frees.mem unit fun inside => other (more _ inside),
    frees.inodes, frees.own, fun other => frees.location fun inside => other (more _ inside)⟩

/-- The order of the bits does not matter. -/
theorem congr (frees : Frees g X Y A v w) (main : ∀ n, n ∈ X ↔ n ∈ X') (shadow : ∀ n, n ∈ Y ↔ n ∈ Y') :
    Frees g X' Y' A v w := by
  refine { frees with main := ?_, shadowed := fun s is => ?_ }
  · refine ⟨frees.main.length, fun n => ?_, frees.main.counted⟩
    rw [frees.main.bits n]
    simp only [main n]
  · refine ⟨(frees.shadowed s is).length, fun n => ?_, (frees.shadowed s is).counted⟩
    rw [(frees.shadowed s is).bits n]
    simp only [shadow n]

theorem refl (g : Growth) (A : Place → Prop) (v : Volume) : Frees g [] [] A v v :=
  ⟨hold_frames.refl v, Marked.refl _ _, fun _ _ => Marked.refl _ _, fun _ _ => rfl, fun _ _ => rfl,
    fun r _ => ⟨(v.inodes r).nused, rfl⟩, ⟨(v.inodes g.inode.ref).dunits, (v.inodes g.inode.ref).location, rfl⟩, fun _ => rfl⟩

theorem of_frozen (frozen : Frozen v w) : Frees g [] [] A v w := by
  refine ⟨frozen.toHold, ?_, fun s _ => ?_, fun idx _ => by rw [frozen.bits], fun unit _ => by rw [frozen.mem],
    fun r _ => ⟨(v.inodes r).nused, by rw [frozen.inodes]⟩,
    ⟨(v.inodes g.inode.ref).dunits, (v.inodes g.inode.ref).location, by rw [frozen.inodes]⟩, fun _ => by rw [frozen.inodes]⟩
  · rw [frozen.bits]
    exact Marked.refl _ _
  · rw [frozen.bits]
    exact Marked.refl _ _

/-- Bits of one of the bitmap files. -/
theorem of_set (separate : g.Separate) {r : Ref} (marks : g.Marks r) {units : List Nat} (set : SetBits v w r units false)
    (main : r = g.bitmap.ref → units = X) (notMain : r ≠ g.bitmap.ref → X = [])
    (shadow : ∀ s, g.shadow = some s → (r = s.ref → units = Y) ∧ (r ≠ s.ref → Y = [])) : Frees g X Y A v w := by
  have other : ∀ r', g.Marks r' → r' ≠ r → r'.idx ≠ r.idx := by
    rintro r' (rfl | ⟨s, is, rfl⟩) ne
    · rcases marks with rfl | ⟨s, is, rfl⟩
      · exact absurd rfl ne
      · exact (separate.shadow s is).2
    · rcases marks with rfl | ⟨s', is', rfl⟩
      · exact (separate.shadow s is).2.symm
      · rw [is] at is'
        cases is'
        exact absurd rfl ne
  have inode : g.inode.ref ≠ r := by
    rcases marks with rfl | ⟨s, is, rfl⟩
    · exact separate.bitmap
    · exact (separate.shadow s is).1
  have marked : ∀ r', g.Marks r' → ∀ Z, (r = r' → units = Z) → (r ≠ r' → Z = []) →
      Marked (v.bits r'.idx) (w.bits r'.idx) Z false := by
    intro r' marks' Z same ne
    by_cases here : r = r'
    · subst here
      rw [← same rfl]
      exact set.marked
    · rw [ne here, set.toRecount.bits_ne (other r' marks' (Ne.symm here))]
      exact Marked.refl _ _
  obtain ⟨n, inodes⟩ := set.inodes
  have own : w.inodes g.inode.ref = v.inodes g.inode.ref := by rw [inodes, Function.update_of_ne inode]
  refine ⟨set.toHold, marked _ (Or.inl rfl) X main notMain, fun s is => marked _ (Or.inr ⟨s, is, rfl⟩) Y (shadow s is).1
    (shadow s is).2, fun idx apart => set.toRecount.bits_ne (apart r marks), fun unit _ => by rw [set.mem],
    fun r' _ => set.toRecount.record r', ⟨_, _, own⟩, fun _ => by rw [own]⟩

/-- An entry of a place that may change. -/
theorem cut {place : Place} (inside : A place) (mine : ∀ r, place = .locations r → r = g.inode.ref) (v : Volume) (i : Nat) :
    Frees g [] [] A v (v.cut i place) := by
  cases place with
  | locations r =>
    obtain rfl := mine r rfl
    refine ⟨⟨rfl, rfl, rfl, rfl, rfl⟩, Marked.refl _ _, fun _ _ => Marked.refl _ _, fun _ _ => rfl, fun _ _ => rfl,
      fun r other => ⟨(v.inodes r).nused, ?_⟩, ⟨_, _, Function.update_self _ _ _⟩, fun other => absurd inside other⟩
    simp [Volume.cut, other]
  | unit a =>
    refine ⟨⟨rfl, rfl, rfl, rfl, rfl⟩, Marked.refl _ _, fun _ _ => Marked.refl _ _, fun _ _ => rfl, fun unit other => ?_,
      fun r _ => ⟨(v.inodes r).nused, rfl⟩, ⟨_, _, rfl⟩, fun _ => rfl⟩
    have ne : unit ≠ a := by
      rintro rfl
      exact other inside
    simp [Volume.cut, ne]

theorem drop (v : Volume) (d : Nat) : Frees g [] [] A v
    { v with inodes := Function.update v.inodes g.inode.ref { v.inodes g.inode.ref with dunits := d } } := by
  refine ⟨⟨rfl, rfl, rfl, rfl, rfl⟩, Marked.refl _ _, fun _ _ => Marked.refl _ _, fun _ _ => rfl, fun _ _ => rfl,
    fun r other => ⟨(v.inodes r).nused, ?_⟩, ⟨d, (v.inodes g.inode.ref).location, ?_⟩, fun _ => ?_⟩
  · simp [other]
  · simp
  · simp

/-! ## What it leaves -/

theorem level (frees : Frees g X Y A v w) : (w.inodes g.inode.ref).level = (v.inodes g.inode.ref).level := by
  obtain ⟨d, t, same⟩ := frees.own
  rw [same]

theorem dev (frees : Frees g X Y A v w) {unit : Nat} (other : ¬ A (.unit unit)) : w.dev unit = v.dev unit := by
  unfold Volume.dev
  rw [frees.reads, frees.mem unit other]

theorem table (frees : Frees g X Y A v w) {place : Place} (other : ¬ A place)
    (mine : ∀ r, place = .locations r → r = g.inode.ref) : place.table w = place.table v := by
  cases place with
  | locations r =>
    obtain rfl := mine r rfl
    exact frees.location other
  | unit a =>
    unfold Place.table
    dsimp only
    rw [frees.mem a other]

theorem marks_ne (separate : g.Separate) {r : Ref} (marks : g.Marks r) : r ≠ g.inode.ref := by
  rcases marks with rfl | ⟨s, is, rfl⟩
  · exact separate.bitmap.symm
  · exact (separate.shadow s is).1.symm

theorem records (frees : Frees g X Y A v w) (separate : g.Separate) {unit : Nat} (records : g.Records v unit) :
    g.Records w unit := by
  intro r marks
  obtain ⟨n, same⟩ := frees.inodes r (marks_ne separate marks)
  unfold Volume.HasBit
  rw [same]
  exact records r marks

/-- The blocks of a file that is rooted elsewhere are found as before. -/
theorem blockUnit (frees : Frees g X Y A v w) (within : ∀ unit, A (.unit unit) → T unit) {r : Ref} (other : r ≠ g.inode.ref)
    (rooted : v.RootedBut T r) {block : Nat} (inside : block < (v.inodes r).dunits) :
    w.blockUnit r block = v.blockUnit r block := by
  have agree : ∀ unit, ¬ T unit → w.mem unit = v.mem unit := fun unit out => frees.mem unit fun a => out (within unit a)
  rw [← rooted w.mem agree block inside]
  exact blockUnit_congr (v := { v with mem := w.mem }) frees.unitSize frees.reads rfl (frees.inodes r other) block

theorem rootedBut (frees : Frees g X Y A v w) (within : ∀ unit, A (.unit unit) → T unit) {r : Ref} (other : r ≠ g.inode.ref)
    (rooted : v.RootedBut T r) : w.RootedBut T r := by
  intro mem agree block inside
  obtain ⟨n, same⟩ := frees.inodes r other
  rw [same] at inside
  rw [frees.blockUnit within other rooted inside]
  have agree' : ∀ unit, ¬ T unit → mem unit = v.mem unit := fun unit out => by
    rw [agree unit out, frees.mem unit fun a => out (within unit a)]
  rw [← rooted mem agree' block inside]
  exact blockUnit_congr (v := { v with mem := mem }) (w := { w with mem := mem }) frees.unitSize frees.reads rfl ⟨n, same⟩ block

/-- A bitmap file whose records were changed by the removal, or not at all. -/
theorem bitmapOk (frees : Frees g X Y A v w) (within : ∀ unit, A (.unit unit) → T unit) {r : Ref} (other : r ≠ g.inode.ref)
    (rooted : v.RootedBut T r) (ok : v.BitmapOk r) {Z : List Nat}
    (marked : Marked (v.bits r.idx) (w.bits r.idx) Z false) : w.BitmapOk r := by
  obtain ⟨n, same⟩ := frees.inodes r other
  refine ⟨?_, ?_, ?_, marked.counted ok.counted, fun block inside => ?_⟩
  · rw [marked.length, ok.length, same, frees.unitSize]
  · rw [marked.length]
    exact ok.short
  · rw [marked.length, same]
    exact ok.size
  · rw [same] at inside
    rw [frees.blockUnit within other rooted inside]
    exact ok.readable block inside

theorem sound (frees : Frees g X Y A v w) (within : ∀ unit, A (.unit unit) → T unit) (separate : g.Separate)
    (sound : Sound g T v) : Sound g T w := by
  refine ⟨by rw [frees.unitSize]; exact sound.aligned, fun r marks => ?_, fun r marks => ?_⟩
  · have other := marks_ne separate marks
    have ok := sound.ok r marks
    have rooted := sound.rooted r marks
    rcases marks with rfl | ⟨s, is, rfl⟩
    · exact frees.bitmapOk within other rooted ok frees.main
    · exact frees.bitmapOk within other rooted ok (frees.shadowed s is)
  · exact frees.rootedBut within (marks_ne separate marks) (sound.rooted r marks)

end Frees

/-! ## Bits -/

section Bits
variable {g : Growth} {A : Place → Prop} {v : Volume} {T : Nat → Prop} {hlock : Nat} {units : List Nat}

theorem bitmapFree_run (separate : g.Separate) (sound : Sound g T v) (ready : Ready hlock v)
    (records : ∀ unit ∈ units, g.Records v unit) :
    ∃ w, (mgfsBitmapFree g.bitmap units hlock).run v = .ok (units.length, w) ∧ Frees g units [] A v w := by
  have marks : g.Marks g.bitmap.ref := Or.inl rfl
  obtain ⟨w, run, set⟩ := mgfsBitmapSetArray_run ready (sound.ok _ marks) sound.aligned
    (fun unit member => records unit member _ marks) false
  refine ⟨w, run, Frees.of_set separate marks set (fun _ => rfl) (fun ne => absurd rfl ne) fun s is => ⟨fun same => ?_, fun _ => rfl⟩⟩
  exact absurd (congrArg Ref.idx same) (separate.shadow s is).2

theorem syncShadow_frees (separate : g.Separate) (sound : Sound g T v) (ready : Ready hlock v)
    (records : ∀ unit ∈ units, g.Records v unit) (clear : ∀ unit ∈ units, v.bit g.bitmap.ref unit = false) :
    ∃ w, (syncShadow g.bitmap g.shadow hlock units).run v = .ok ((), w) ∧ Frees g [] units A v w := by
  cases is : g.shadow with
  | none =>
    refine ⟨v, rfl, ?_⟩
    have same := Frees.refl g A v
    refine { same with shadowed := fun s is' => ?_ }
    rw [is] at is'
    cases is'
  | some s =>
    have marks : g.Marks s.ref := Or.inr ⟨s, is, rfl⟩
    have apart := (separate.shadow s is).2
    obtain ⟨w, run, set⟩ := mgfsBitmapSync_run ready (sound.ok _ (Or.inl rfl))
      (sound.ok _ marks) apart sound.aligned
      (fun unit member => ⟨records unit member _ (Or.inl rfl), records unit member _ marks⟩) clear
    refine ⟨w, run, Frees.of_set separate marks set (fun same => absurd (congrArg Ref.idx same).symm apart) (fun _ => rfl)
      fun s' is' => ?_⟩
    rw [is] at is'
    cases is'
    exact ⟨fun _ => rfl, fun ne => absurd rfl ne⟩

/-- Bits that were cleared. -/
theorem Frees.clear {X Y : List Nat} {w : Volume} (frees : Frees g X Y A v w) {unit : Nat} (member : unit ∈ X) :
    w.bit g.bitmap.ref unit = false := by
  rw [Volume.bit_eq, frees.main.bits, if_pos member]

end Bits

/-! ## Places -/

/-- The unit a place lies in. -/
def Place.units : Place → List Nat
  | .locations _ => []
  | .unit u => [u]

/-- The units below a place. -/
def Volume.unitsAt (v : Volume) (l : Nat) (place : Place) (c k : Nat) : List Nat :=
  treeUnits v.dev (v.unitSize / 4) l (place.table v) c k

/-- A place of the inode with a filled tree below it; its units are all different, lie in `T`, and have bits. -/
structure Holds (g : Growth) (T : Nat → Prop) (v : Volume) (l : Nat) (place : Place) (c k : Nat) : Prop where
  mine : ∀ r, place = .locations r → r = g.inode.ref
  filled : TreeFilled v.dev (v.unitSize / 4) l (place.table v) c k
  nodup : (place.units ++ v.unitsAt l place c k).Nodup
  inside : ∀ unit ∈ place.units ++ v.unitsAt l place c k, T unit
  records : ∀ unit ∈ v.unitsAt l place c k, g.Records v unit

/-- The place, and the units of a list. -/
def Touches (place : Place) (units : List Nat) (q : Place) : Prop := q = place ∨ ∃ u ∈ units, q = .unit u

section Places
variable {g : Growth} {T : Nat → Prop} {v w : Volume} {hlock l c k : Nat} {place : Place}

theorem Touches.within {units : List Nat} (inside : ∀ unit ∈ place.units ++ units, T unit) (unit : Nat)
    (touched : Touches place units (.unit unit)) : T unit := by
  apply inside unit
  rcases touched with rfl | ⟨u, member, same⟩
  · exact List.mem_append_left _ List.mem_cons_self
  · cases same
    exact List.mem_append_right _ member

theorem clearPlace_frees {A : Place → Prop} (inside : A place) (mine : ∀ r, place = .locations r → r = g.inode.ref) (n : Nat)
    (v : Volume) : ∃ w, (clearPlace place n).run v = .ok ((), w) ∧ Frees g [] [] A v w ∧
      ∀ i, place.table w i = if i < n then invalidUnitNumber else place.table v i := by
  induction n with
  | zero => exact ⟨v, rfl, Frees.refl g A v, fun i => by simp⟩
  | succ n ih =>
    obtain ⟨w, run, frees, table⟩ := ih
    refine ⟨w.cut n place, ?_, frees.trans (Frees.cut inside mine w n), fun i => ?_⟩
    · rw [clearPlace, Prog.bind_ok run, put_run]
      rfl
    · rw [table_cut, table]
      by_cases last : i = n
      · rw [if_pos last, if_pos (by omega)]
      · rw [if_neg last]
        by_cases before : i < n
        · rw [if_pos before, if_pos (by omega)]
        · rw [if_neg before, if_neg (by omega)]

/-- The inner loop over positions that are all in use. -/
theorem scanDown_valid {p : Table} {nblocks k r count : Nat} (valid : ∀ j ≤ k, p j ≠ invalidUnitNumber) :
    scanDown p nblocks k r count = (k - (nblocks - r), count + min k (nblocks - r)) := by
  induction k generalizing r count with
  | zero => simp [scanDown]
  | succ k ih =>
    unfold scanDown
    by_cases more : r < nblocks
    · rw [if_pos more, if_pos (valid (k + 1) (Nat.le_refl _)), ih fun j le => valid j (Nat.le_succ_of_le le)]
      have first : k - (nblocks - (r + 1)) = k + 1 - (nblocks - r) := by omega
      have second : count + 1 + min k (nblocks - (r + 1)) = count + min (k + 1) (nblocks - r) := by omega
      rw [first, second]
    · rw [if_neg more]
      have none : nblocks - r = 0 := by omega
      simp [none]

/-- No place at all. -/
def nowhere (_ : Place) : Prop := False

theorem Frees.widen {X Y : List Nat} {A : Place → Prop} (frees : Frees g X Y nowhere v w) : Frees g X Y A v w :=
  frees.mono fun _ => False.elim

/-- The bits of a stretch of data units are cleared, its entries become invalid. -/
theorem removeData_frees {A : Place → Prop} (separate : g.Separate) (sound : Sound g T v) (ready : Ready hlock v)
    (inside : A place) (mine : ∀ r, place = .locations r → r = g.inode.ref) {nblocks addrIdx r i count : Nat}
    (scan : scanDown (place.table v) nblocks addrIdx r 0 = (i, count))
    (records : ∀ unit ∈ (List.range (count + 1)).map fun j => place.table v (i + j), g.Records v unit) :
    ∃ w, (removeData g hlock nblocks place addrIdx r).run v = .ok ((r + (count + 1), i), w) ∧
      Frees g ((List.range (count + 1)).map fun j => place.table v (i + j))
        ((List.range (count + 1)).map fun j => place.table v (i + j)) A v w ∧
      ∀ j, place.table w j = if j < count + 1 then invalidUnitNumber else place.table v j := by
  generalize units : (List.range (count + 1)).map (fun j => place.table v (i + j)) = base at records
  have size : base.length = count + 1 := by rw [← units, List.length_map, List.length_range]
  have outside : ∀ unit, nowhere (.unit unit) → T unit := fun _ => False.elim
  obtain ⟨v₁, free, frees₁⟩ := bitmapFree_run (A := nowhere) separate sound ready records
  -- the state with the units taken off the counter
  obtain ⟨v₂, drop, frees₂⟩ : ∃ v₂, (dropUnits g.inode.ref base.length).run v₁ = .ok ((), v₂) ∧ Frees g [] [] nowhere v₁ v₂ :=
    ⟨_, rfl, Frees.drop v₁ _⟩
  have both := frees₁.trans frees₂
  rw [List.append_nil, List.append_nil] at both
  obtain ⟨v₃, sync, frees₃⟩ := syncShadow_frees (A := nowhere) separate (both.sound outside separate sound)
    (both.toHold.ready ready) (fun unit member => both.records separate (records unit member)) fun unit member => both.clear member
  have still := both.trans frees₃
  rw [List.append_nil, List.nil_append] at still
  obtain ⟨w, clear, frees₄, table⟩ := clearPlace_frees inside mine (count + 1) v₃
  have all := still.widen.trans frees₄
  rw [List.append_nil] at all
  refine ⟨w, ?_, all, fun j => by rw [table, still.table id mine]⟩
  unfold removeData
  rw [Prog.bind_ok (Prog.run_get v)]
  dsimp only
  rw [scan]
  dsimp only
  rw [units, Prog.bind_ok free, Prog.bind_ok drop, List.take_length, Prog.bind_ok sync, Prog.bind_ok clear, size]
  rfl

/-- After the call for a subtree that is empty now. -/
theorem cleanTree_frees {A : Place → Prop} (separate : g.Separate) (sound : Sound g T v) (ready : Ready hlock v)
    (inside : A place) (mine : ∀ r, place = .locations r → r = g.inode.ref) (i n : Nat) {base : Nat}
    (records : g.Records v base) :
    ∃ w, (cleanTree g hlock place i base (n, true)).run v = .ok ((), w) ∧ Frees g [base] [base] A v w ∧
      ∀ j, place.table w j = if j = i then invalidUnitNumber else place.table v j := by
  have outside : ∀ unit, nowhere (.unit unit) → T unit := fun _ => False.elim
  have one : ∀ {x : Volume}, g.Records x base → ∀ unit ∈ [base], g.Records x unit := by
    intro x records unit member
    rw [List.mem_singleton] at member
    exact member ▸ records
  -- until the entry is cut no place changes
  obtain ⟨v₁, drop, frees₁⟩ : ∃ v₁, (dropUnits g.inode.ref n).run v = .ok ((), v₁) ∧ Frees g [] [] nowhere v v₁ :=
    ⟨_, rfl, Frees.drop v _⟩
  have sound₁ := frees₁.sound outside separate sound
  obtain ⟨v₂, free, frees₂⟩ := bitmapFree_run (A := nowhere) separate sound₁ (frees₁.toHold.ready ready)
    (one (frees₁.records separate records))
  have both := frees₁.trans frees₂
  obtain ⟨v₃, sync, frees₃⟩ := syncShadow_frees (A := nowhere) separate (frees₂.sound outside separate sound₁)
    (both.toHold.ready ready) (one (both.records separate records)) fun unit member => both.clear member
  have all := both.trans frees₃
  refine ⟨v₃.cut i place, ?_, ?_, fun j => ?_⟩
  · unfold cleanTree
    rw [Prog.bind_ok drop, if_pos rfl, Prog.bind_ok free, Prog.bind_ok sync, put_run]
    rfl
  · have last := all.widen.trans (Frees.cut inside mine v₃ i)
    simpa using last
  · rw [table_cut, all.table id mine]

end Places

/-! ## The loop -/

section Loop
variable {g : Growth} {T : Nat → Prop} {v w : Volume} {hlock l c k : Nat} {place : Place}
  {down : Nat → Nat → M (Nat × Bool)}

/-- The loop has come to the front. -/
theorem removeLoop_front (level nblocks fuel r : Nat) :
    (removeLoop down g level hlock nblocks place fuel 0 r).run v = .ok ((r, 0), v) := by
  cases fuel <;> rfl

/-- Where no position is in use nothing happens. -/
theorem removeLoop_nothing (down : Nat → Nat → M (Nat × Bool)) (g : Growth) (hlock level nblocks fuel r : Nat) {i : Nat}
    (invalid : ∀ j < i, place.table v j = invalidUnitNumber) :
    ∃ i', (removeLoop down g level hlock nblocks place fuel i r).run v = .ok ((r, i'), v) ∧ i' ≤ i := by
  induction fuel generalizing i with
  | zero => exact ⟨i, rfl, Nat.le_refl i⟩
  | succ fuel ih =>
    unfold removeLoop
    by_cases more : i ≠ 0 ∧ r < nblocks
    · rw [if_pos more]
      dsimp only
      rw [Prog.bind_ok (Prog.run_get v), if_neg (not_not_intro (invalid (i - 1) (by omega)))]
      obtain ⟨i', run, le⟩ := ih (i := i - 1) fun j below => invalid j (by omega)
      exact ⟨i', run, by omega⟩
    · rw [if_neg more]
      exact ⟨i, rfl, Nat.le_refl i⟩

/-- What a loop that removes everything does: it returns what there was and ends at the front, the bits of all units are
cleared, and no position is in use any more. -/
def Removes (g : Growth) (v : Volume) (l : Nat) (place : Place) (c k r i : Nat) (a : Nat × Nat) (w : Volume) : Prop :=
  a.1 = r + k ∧ (0 < k ∨ i = 0 → a.2 = 0) ∧
    Frees g (v.unitsAt l place c k) (v.unitsAt l place c k) (Touches place (v.unitsAt l place c k)) v w ∧
    ∀ j < c, place.table w j = invalidUnitNumber

theorem Removes.nothing {i i' r : Nat} (units : v.unitsAt l place c 0 = []) (le : i' ≤ i)
    (invalid : ∀ j < c, place.table v j = invalidUnitNumber) : Removes g v l place c 0 r i (r, i') v := by
  refine ⟨rfl, fun zero => ?_, ?_, invalid⟩
  · dsimp only
    omega
  · rw [units]
    exact Frees.refl g _ v

theorem treeUnits_zero (dev : Nat → Option Mem) (n l : Nat) (t : Table) (c : Nat) : treeUnits dev n l t c 0 = [] := by
  cases l with
  | zero => simp [treeUnits]
  | succ l => simp [treeUnits]

/-- The positions of a leaf. -/
theorem removeLoop_leaf (separate : g.Separate) (sound : Sound g T v) (ready : Ready hlock v) (holds : Holds g T v 0 place c k)
    {nblocks fuel i r : Nat} (enough : i ≤ fuel) (inside : i ≤ c) (all : k ≤ i) (more : r + k ≤ nblocks) :
    ∃ a w, (removeLoop down g 0 hlock nblocks place fuel i r).run v = .ok (a, w) ∧ Removes g v 0 place c k r i a w := by
  induction i generalizing fuel with
  | zero =>
    obtain rfl : k = 0 := by omega
    refine ⟨(r, 0), v, removeLoop_front _ _ _ _, Removes.nothing (treeUnits_zero _ _ _ _ _) (Nat.le_refl 0) fun j below => ?_⟩
    have slot := holds.filled.2 j below
    by_contra valid
    exact Nat.not_lt_zero j (slot.1 valid)
  | succ i ih =>
    by_cases none : k = 0
    · subst none
      have invalid : ∀ j < c, place.table v j = invalidUnitNumber := by
        intro j below
        have slot := holds.filled.2 j below
        by_contra valid
        exact Nat.not_lt_zero j (slot.1 valid)
      obtain ⟨i', run, le⟩ := removeLoop_nothing down g hlock 0 nblocks fuel r (i := i + 1) fun j below =>
        invalid j (by omega)
      exact ⟨(r, i'), v, run, Removes.nothing (treeUnits_zero _ _ _ _ _) le invalid⟩
    · obtain ⟨fuel, rfl⟩ : ∃ fuel', fuel = fuel' + 1 := ⟨fuel - 1, by omega⟩
      have slot := holds.filled.2 i (by omega)
      unfold removeLoop
      rw [if_pos ⟨Nat.succ_ne_zero i, by omega⟩]
      dsimp only
      rw [Prog.bind_ok (Prog.run_get v), Nat.add_sub_cancel]
      by_cases last : i < k
      · obtain rfl : k = i + 1 := by omega
        -- the last position in use: all before it are
        have valid : ∀ j ≤ i, place.table v j ≠ invalidUnitNumber :=
          fun j le => (holds.filled.2 j (by omega)).2 (Nat.lt_succ_of_le le)
        have scan : scanDown (place.table v) nblocks i r 0 = (0, i) := by
          rw [scanDown_valid valid]
          simp only [Prod.mk.injEq]
          omega
        have units : (List.range (i + 1)).map (fun j => place.table v (0 + j)) = v.unitsAt 0 place c (i + 1) := by
          unfold Volume.unitsAt treeUnits
          rw [Nat.min_eq_right inside]
          simp only [Nat.zero_add]
        obtain ⟨w, run, frees, table⟩ := removeData_frees (A := Touches place (v.unitsAt 0 place c (i + 1))) separate sound
          ready (Or.inl rfl) holds.mine scan
          (by rw [units]; exact holds.records)
        rw [units] at frees
        rw [if_pos (slot.2 last), if_neg (by simp), Prog.bind_ok run]
        refine ⟨(r + (i + 1), 0), w, removeLoop_front _ _ _ _, rfl, fun _ => rfl, frees, fun j below => ?_⟩
        rw [table]
        by_cases front : j < i + 1
        · rw [if_pos front]
        · rw [if_neg front]
          by_contra valid
          exact front ((holds.filled.2 j below).1 valid)
      · rw [if_neg fun valid => last (slot.1 valid)]
        have fewer : i ≤ fuel := by omega
        obtain ⟨a, w, run, count, front, rest⟩ := ih fewer (by omega) (by omega)
        exact ⟨a, w, run, count, fun _ => front (Or.inl (Nat.pos_of_ne_zero none)), rest⟩

/-- What a call for the level below has to do with an address unit that has blocks. -/
def RemovesAll (g : Growth) (T : Nat → Prop) (hlock l : Nat) (down : Nat → Nat → M (Nat × Bool)) : Prop :=
  ∀ v base k n, Ready hlock v → Sound g T v → l < (v.inodes g.inode.ref).level → v.reads base = true →
    Holds g T v l (.unit base) (v.unitSize / 4) k → 0 < k → k ≤ n →
    ∃ w, (down base n).run v = .ok ((k, true), w) ∧
      Frees g (v.unitsAt l (.unit base) (v.unitSize / 4) k) (v.unitsAt l (.unit base) (v.unitSize / 4) k)
        (Touches (.unit base) (v.unitsAt l (.unit base) (v.unitSize / 4) k)) v w

/-- The tree below a slot. -/
theorem Holds.child (holds : Holds g T v (l + 1) place c k) {i : Nat} (inside : i < c)
    (some : i * (v.unitSize / 4) ^ (l + 1) < k) (last : k ≤ (i + 1) * (v.unitSize / 4) ^ (l + 1)) :
    place.table v i ≠ invalidUnitNumber ∧ v.reads (place.table v i) = true ∧
      Holds g T v l (.unit (place.table v i)) (v.unitSize / 4) (k - i * (v.unitSize / 4) ^ (l + 1)) ∧
      v.unitsAt (l + 1) place c k = treeUnits v.dev (v.unitSize / 4) (l + 1) (place.table v) i k ++
        place.table v i :: v.unitsAt l (.unit (place.table v i)) (v.unitSize / 4) (k - i * (v.unitSize / 4) ^ (l + 1)) := by
  obtain ⟨valid, m, read, below⟩ := holds.filled.slot inside some
  rw [share_last last] at below
  obtain ⟨reads, same⟩ := Option.ite_none_right_eq_some.1 read
  obtain rfl := Option.some.inj same
  have units : v.unitsAt (l + 1) place c k = treeUnits v.dev (v.unitSize / 4) (l + 1) (place.table v) i k ++
      place.table v i :: v.unitsAt l (.unit (place.table v i)) (v.unitSize / 4) (k - i * (v.unitSize / 4) ^ (l + 1)) := by
    unfold Volume.unitsAt
    rw [treeUnits_slots inside last, treeUnits_slot some read, share_last last]
    rfl
  have nodup := holds.nodup
  rw [units] at nodup
  have member : ∀ unit ∈ (Place.unit (place.table v i)).units ++
      v.unitsAt l (.unit (place.table v i)) (v.unitSize / 4) (k - i * (v.unitSize / 4) ^ (l + 1)),
      unit ∈ v.unitsAt (l + 1) place c k := by
    intro unit member
    rw [units]
    exact List.mem_append_right _ member
  refine ⟨valid, reads, ⟨nofun, below, ?_, fun unit inside => holds.inside unit (List.mem_append_right _ (member unit inside)),
    fun unit inside => holds.records unit (member unit (List.mem_append_right _ inside))⟩, units⟩
  exact (List.nodup_append.1 (List.nodup_append.1 nodup).2.1).2.1

/-- The tree without its last slot, after the units below that were cleared. -/
theorem Holds.front {X Y : List Nat} {A : Place → Prop} (holds : Holds g T v (l + 1) place c k) (separate : g.Separate)
    (pos : 0 < v.unitSize / 4) {i : Nat} (inside : i < c) (some : i * (v.unitSize / 4) ^ (l + 1) < k)
    (last : k ≤ (i + 1) * (v.unitSize / 4) ^ (l + 1)) (frees : Frees g X Y A v w)
    (table : ∀ j, place.table w j = if j = i then invalidUnitNumber else place.table v j)
    (apart : ∀ unit ∈ treeUnits v.dev (v.unitSize / 4) (l + 1) (place.table v) i k, ¬ A (.unit unit)) :
    Holds g T w (l + 1) place c (i * (v.unitSize / 4) ^ (l + 1)) ∧
      w.unitsAt (l + 1) place c (i * (v.unitSize / 4) ^ (l + 1)) =
        treeUnits v.dev (v.unitSize / 4) (l + 1) (place.table v) i k := by
  have size : w.unitSize = v.unitSize := frees.unitSize
  have before : ∀ j < i, place.table w j = place.table v j := fun j before => by rw [table, if_neg (by omega)]
  obtain ⟨filled, units⟩ := holds.filled.front pos inside some before
    (fun j behind below => by
      rw [table]
      by_cases here : j = i
      · rw [if_pos here]
      · rw [if_neg here]
        apply holds.filled.invalid below
        exact Nat.le_trans last (Nat.mul_le_mul_right _ (by omega)))
    (fun u member => frees.dev (apart u member))
  have all : w.unitsAt (l + 1) place c (i * (v.unitSize / 4) ^ (l + 1)) =
      treeUnits v.dev (v.unitSize / 4) (l + 1) (place.table v) i k := by
    unfold Volume.unitsAt
    rw [size, treeUnits_slots inside.le (Nat.le_refl _), units]
  obtain ⟨_, _, _, split⟩ := holds.child inside some last
  have subset : ∀ unit ∈ treeUnits v.dev (v.unitSize / 4) (l + 1) (place.table v) i k,
      unit ∈ v.unitsAt (l + 1) place c k := by
    intro unit member
    rw [split]
    exact List.mem_append_left _ member
  refine ⟨⟨holds.mine, by rw [size]; exact filled, ?_, ?_, ?_⟩, all⟩
  · rw [all]
    have nodup := holds.nodup
    rw [split, ← List.append_assoc] at nodup
    exact (List.nodup_append.1 nodup).1
  · rw [all]
    intro unit member
    apply holds.inside unit
    rcases List.mem_append.1 member with here | below
    · exact List.mem_append_left _ here
    · exact List.mem_append_right _ (subset unit below)
  · rw [all]
    intro unit member
    exact frees.records separate (holds.records unit (subset unit member))

/-- The last slot of a tree and the places of the rest have nothing in common. -/
theorem Holds.apart (holds : Holds g T v (l + 1) place c k) {base : Nat} {front child : List Nat}
    (split : v.unitsAt (l + 1) place c k = front ++ base :: child) :
    ¬ Touches (.unit base) child place ∧
      ∀ unit ∈ front, ¬ (Touches (.unit base) child (.unit unit) ∨ Place.unit unit = place) := by
  have nodup := holds.nodup
  rw [split] at nodup
  obtain ⟨_, inner, outer⟩ := List.nodup_append.1 nodup
  obtain ⟨_, _, cross⟩ := List.nodup_append.1 inner
  have own : ∀ unit, Place.unit unit = place → unit ∈ place.units := by
    rintro unit rfl
    exact List.mem_cons_self
  refine ⟨?_, fun unit member => ?_⟩
  · rintro (rfl | ⟨u, member, rfl⟩)
    · exact outer base List.mem_cons_self base (List.mem_append_right _ List.mem_cons_self) rfl
    · exact outer u List.mem_cons_self u (List.mem_append_right _ (List.mem_cons_of_mem _ member)) rfl
  · rintro ((same | ⟨u, below, same⟩) | same)
    · cases same
      exact cross base member base List.mem_cons_self rfl
    · cases same
      exact cross unit member unit (List.mem_cons_of_mem _ below) rfl
    · exact outer unit (own unit same) unit (List.mem_append_left _ member) rfl

/-- The units of the slots before one. -/
theorem unitsAt_front (place : Place) (pos : 0 < v.unitSize / 4) {i : Nat} (inside : i ≤ c) (some : i * (v.unitSize / 4) ^ (l + 1) ≤ k) :
    v.unitsAt (l + 1) place c (i * (v.unitSize / 4) ^ (l + 1)) = treeUnits v.dev (v.unitSize / 4) (l + 1) (place.table v) i k := by
  unfold Volume.unitsAt
  rw [treeUnits_slots inside (Nat.le_refl _), treeUnits_full pos (Nat.le_refl _) some]

/-- The last slot with its subtree. -/
theorem removeSlot_all (below : RemovesAll g T hlock l down) (separate : g.Separate) (sound : Sound g T v)
    (ready : Ready hlock v) (under : l < (v.inodes g.inode.ref).level) (holds : Holds g T v (l + 1) place c k) {i : Nat}
    (inside : i < c) (some : i * (v.unitSize / 4) ^ (l + 1) < k) (last : k ≤ (i + 1) * (v.unitSize / 4) ^ (l + 1))
    {nblocks r : Nat} (more : k - i * (v.unitSize / 4) ^ (l + 1) ≤ nblocks - r) :
    ∃ Z w, (removeTree down g hlock nblocks place i (place.table v i) r).run v =
        .ok (r + (k - i * (v.unitSize / 4) ^ (l + 1)), w) ∧
      Frees g Z Z (Touches place (v.unitsAt (l + 1) place c k)) v w ∧
      (∀ u, u ∈ Z ↔ u ∈ v.unitsAt (l + 1) place c k ∧ u ∉ v.unitsAt (l + 1) place c (i * (v.unitSize / 4) ^ (l + 1))) ∧
      Holds g T w (l + 1) place c (i * (v.unitSize / 4) ^ (l + 1)) ∧
      ∀ q ≤ i * (v.unitSize / 4) ^ (l + 1), w.unitsAt (l + 1) place c q = v.unitsAt (l + 1) place c q := by
  obtain ⟨_, reads, child, split⟩ := holds.child inside some last
  obtain ⟨away, apart⟩ := holds.apart split
  have pos : 0 < v.unitSize / 4 := by
    apply Nat.pos_of_ne_zero
    intro zero
    rw [zero, Nat.pow_succ, Nat.mul_zero, Nat.mul_zero] at last
    omega
  have front := unitsAt_front (v := v) place pos inside.le some.le
  rw [← front] at split apart
  generalize base_eq : place.table v i = base at *
  generalize count : k - i * (v.unitSize / 4) ^ (l + 1) = k' at *
  generalize child_eq : v.unitsAt l (.unit base) (v.unitSize / 4) k' = units at *
  -- the subtree, its address unit and the entry
  obtain ⟨v₁, run₁, frees₁⟩ := below v base k' (nblocks - r) ready sound under reads child (by omega) more
  rw [child_eq] at frees₁
  have within₁ : ∀ unit, Touches (.unit base) units (.unit unit) → T unit := by
    intro unit touched
    rw [← child_eq] at touched
    exact Touches.within child.inside unit touched
  have member : base ∈ v.unitsAt (l + 1) place c k := by
    rw [split]
    exact List.mem_append_right _ List.mem_cons_self
  obtain ⟨v₂, run₂, frees₂, table₂⟩ := cleanTree_frees (A := fun q => q = place) separate
    (frees₁.sound within₁ separate sound) (frees₁.toHold.ready ready) rfl holds.mine i k'
    (frees₁.records separate (holds.records base member))
  have both := (frees₁.mono (B := fun q => Touches (.unit base) units q ∨ q = place) fun _ => Or.inl).trans
    (frees₂.mono fun _ => Or.inr)
  have table : ∀ j, place.table v₂ j = if j = i then invalidUnitNumber else place.table v j := fun j => by
    rw [table₂, frees₁.table away holds.mine]
  refine ⟨units ++ [base], v₂, ?_, both.mono ?_, fun u => ?_, ?_, fun q le => ?_⟩
  · rw [removeTree_eq, Prog.bind_ok run₁, Prog.bind_ok run₂]
    rfl
  · rw [split]
    rintro q ((rfl | ⟨u, below, rfl⟩) | rfl)
    · exact Or.inr ⟨base, List.mem_append_right _ List.mem_cons_self, rfl⟩
    · exact Or.inr ⟨u, List.mem_append_right _ (List.mem_cons_of_mem _ below), rfl⟩
    · exact Or.inl rfl
  · have nodup := holds.nodup
    rw [split] at nodup
    obtain ⟨_, inner, _⟩ := List.nodup_append.1 nodup
    obtain ⟨_, _, cross⟩ := List.nodup_append.1 inner
    have out : ∀ u ∈ base :: units, u ∉ v.unitsAt (l + 1) place c (i * (v.unitSize / 4) ^ (l + 1)) :=
      fun u here before => cross u before u here rfl
    rw [split, List.mem_append, List.mem_append, List.mem_singleton]
    constructor
    · intro here
      have here' : u ∈ base :: units := List.mem_cons.2 here.symm
      exact ⟨Or.inr here', out u here'⟩
    · rintro ⟨before | here, other⟩
      · exact absurd before other
      · exact (List.mem_cons.1 here).symm
  · exact (holds.front separate pos inside some last both table (by rw [← front]; exact apart)).1
  · unfold Volume.unitsAt
    rw [both.unitSize]
    refine treeUnits_congr (fun j low used => ?_) fun u here => both.dev (apart u (treeUnits_subset le u here))
    rw [table, if_neg]
    rintro rfl
    exact Nat.not_lt_of_le le used

/-- The positions of a table over address units. -/
theorem removeLoop_node (below : RemovesAll g T hlock l down) (separate : g.Separate) (sound : Sound g T v)
    (ready : Ready hlock v) (under : l < (v.inodes g.inode.ref).level) (holds : Holds g T v (l + 1) place c k)
    {nblocks fuel i r : Nat} (enough : i ≤ fuel) (inside : i ≤ c) (all : k ≤ i * (v.unitSize / 4) ^ (l + 1))
    (more : r + k ≤ nblocks) :
    ∃ a w, (removeLoop down g (l + 1) hlock nblocks place fuel i r).run v = .ok (a, w) ∧
      Removes g v (l + 1) place c k r i a w := by
  induction i generalizing v fuel k r with
  | zero =>
    obtain rfl : k = 0 := by omega
    exact ⟨(r, 0), v, removeLoop_front _ _ _ _, Removes.nothing (treeUnits_zero _ _ _ _ _) (Nat.le_refl 0) fun j below =>
      holds.filled.invalid below (Nat.zero_le _)⟩
  | succ i ih =>
    by_cases none : k = 0
    · subst none
      have invalid : ∀ j < c, place.table v j = invalidUnitNumber := fun j below => holds.filled.invalid below (Nat.zero_le _)
      obtain ⟨i', run, le⟩ := removeLoop_nothing down g hlock (l + 1) nblocks fuel r (i := i + 1) fun j below =>
        invalid j (by omega)
      exact ⟨(r, i'), v, run, Removes.nothing (treeUnits_zero _ _ _ _ _) le invalid⟩
    · obtain ⟨fuel, rfl⟩ : ∃ fuel', fuel = fuel' + 1 := ⟨fuel - 1, by omega⟩
      unfold removeLoop
      rw [if_pos ⟨Nat.succ_ne_zero i, by omega⟩]
      dsimp only
      rw [Prog.bind_ok (Prog.run_get v), Nat.add_sub_cancel]
      by_cases some : i * (v.unitSize / 4) ^ (l + 1) < k
      · -- the last slot, and those before it
        have room : k - i * (v.unitSize / 4) ^ (l + 1) ≤ nblocks - r := by omega
        have fewer : i ≤ fuel := by omega
        obtain ⟨Z, v₁, run₁, frees₁, units, holds₁, same⟩ := removeSlot_all below separate sound ready under holds inside
          some all room
        have within : ∀ unit, Touches place (v.unitsAt (l + 1) place c k) (.unit unit) → T unit :=
          Touches.within holds.inside
        have size : v₁.unitSize = v.unitSize := frees₁.unitSize
        obtain ⟨a, w, run, first, last, frees, invalid⟩ := ih (frees₁.sound within separate sound)
          (frees₁.toHold.ready ready) (by rw [frees₁.level]; exact under) holds₁ fewer
          (r := r + (k - i * (v.unitSize / 4) ^ (l + 1))) (by omega) (by rw [size]) (by omega)
        rw [same _ (Nat.le_refl _)] at frees
        have before : ∀ u ∈ v.unitsAt (l + 1) place c (i * (v.unitSize / 4) ^ (l + 1)), u ∈ v.unitsAt (l + 1) place c k :=
          treeUnits_subset some.le
        refine ⟨a, w, ?_, by omega, fun _ => last ?_, ?_, invalid⟩
        · rw [if_pos (holds.child inside some all).1, if_pos (Nat.succ_ne_zero l), Prog.bind_ok run₁]
          exact run
        · rcases Nat.eq_zero_or_pos i with first | later
          · exact Or.inr first
          · refine Or.inl (Nat.mul_pos later (Nat.pow_pos (Nat.pos_of_ne_zero fun zero => ?_)))
            rw [zero, Nat.pow_succ, Nat.mul_zero, Nat.mul_zero] at all
            omega
        · have whole := frees₁.trans (frees.mono (B := Touches place (v.unitsAt (l + 1) place c k)) ?_)
          · have member : ∀ u, u ∈ Z ++ v.unitsAt (l + 1) place c (i * (v.unitSize / 4) ^ (l + 1)) ↔
                u ∈ v.unitsAt (l + 1) place c k := by
              intro u
              rw [List.mem_append, units]
              constructor
              · rintro (⟨here, _⟩ | front)
                · exact here
                · exact before u front
              · intro here
                by_cases front : u ∈ v.unitsAt (l + 1) place c (i * (v.unitSize / 4) ^ (l + 1))
                · exact Or.inr front
                · exact Or.inl ⟨here, front⟩
            exact whole.congr member member
          · rintro q (rfl | ⟨u, front, rfl⟩)
            · exact Or.inl rfl
            · exact Or.inr ⟨u, before u front, rfl⟩
      · have free := holds.filled.invalid inside (Nat.le_of_not_lt some)
        rw [if_neg (not_not_intro free)]
        have fewer : i ≤ fuel := by omega
        obtain ⟨a, w, run, first, last, rest⟩ := ih sound ready under holds fewer (by omega) (Nat.le_of_not_lt some) more
        exact ⟨a, w, run, first, fun _ => last (Or.inl (Nat.pos_of_ne_zero none)), rest⟩

/-- All the positions of a table. -/
theorem removeLoop_all (below : ∀ m, l = m + 1 → RemovesAll g T hlock m down) (separate : g.Separate) (sound : Sound g T v)
    (ready : Ready hlock v) (under : l ≤ (v.inodes g.inode.ref).level) (holds : Holds g T v l place c k) {nblocks : Nat}
    (more : k ≤ nblocks) :
    ∃ a w, (removeLoop down g l hlock nblocks place c c 0).run v = .ok (a, w) ∧ Removes g v l place c k 0 c a w := by
  cases l with
  | zero => exact removeLoop_leaf separate sound ready holds (Nat.le_refl c) (Nat.le_refl c) holds.filled.1 (by omega)
  | succ m =>
    exact removeLoop_node (below m rfl) separate sound ready under holds (Nat.le_refl c) (Nat.le_refl c) holds.filled.1
      (by omega)

/-! ## The calls -/

theorem Frees.unhold {X Y : List Nat} {A : Place → Prop} {units : List Nat} (frees : Frees g X Y A (v.holding units) w) :
    ∃ u, w = u.holding units ∧ Frees g X Y A v u := by
  obtain ⟨u, rfl, hold⟩ := Passes.unhold hold_frames frees.toHold
  exact ⟨u, rfl, hold, frees.main, frees.shadowed, frees.rest, frees.mem, frees.inodes, frees.own, frees.location⟩

/-- What a volume holds it holds as long as nothing changes. -/
theorem Holds.frozen (holds : Holds g T v l place c k) (frozen : Frozen v w) : Holds g T w l place c k := by
  have dev : w.dev = v.dev := by
    funext unit
    simp [Volume.dev, frozen.reads, frozen.mem]
  have table : place.table w = place.table v := by
    cases place with
    | locations r => simp [Place.table, frozen.inodes]
    | unit u => simp [Place.table, frozen.mem]
  have units : w.unitsAt l place c k = v.unitsAt l place c k := by
    unfold Volume.unitsAt
    rw [dev, table, frozen.unitSize]
  refine ⟨holds.mine, ?_, ?_, ?_, ?_⟩
  · rw [dev, table, frozen.unitSize]
    exact holds.filled
  · rw [units]
    exact holds.nodup
  · rw [units]
    exact holds.inside
  · rw [units]
    intro unit member r marks
    unfold Volume.HasBit
    rw [frozen.inodes]
    exact holds.records unit member r marks

theorem Holds.holding (holds : Holds g T v l place c k) (units : List Nat) : Holds g T (v.holding units) l place c k :=
  ⟨holds.mine, holds.filled, holds.nodup, holds.inside, holds.records⟩

theorem Sound.holding (sound : Sound g T v) {units : List Nat} : Sound g T (v.holding units) :=
  ⟨sound.aligned, fun r marks => (sound.ok r marks).holding, fun r marks => sound.rooted r marks⟩

/-- A call for an address unit: its loop runs with the buffer of the unit. -/
theorem removeAt_unit_run (down : Nat → Nat → M (Nat × Bool)) (ready : Ready hlock v) (under : l < (v.inodes g.inode.ref).level) {base : Nat}
    (reads : v.reads base = true) (n : Nat) : ∃ u, Frozen v u ∧
      ∀ a x, (removeLoop down g l hlock n (.unit base) (v.unitSize / 4) (v.unitSize / 4) 0).run (u.holding [base]) =
        .ok (a, x.holding [base]) → Ready hlock x →
        ∃ w, (removeAt down g l hlock base n).run v = .ok ((a.1, decide (a.2 = 0)), w) ∧ Frozen x w := by
  obtain ⟨hb, v₁, alloc, moved₁⟩ := alloc_passes frozen_frames base v ready
  rw [holding_nil] at alloc
  obtain ⟨v₁', alloc'⟩ := alloc_run ready base
  rw [alloc, reads] at alloc'
  cases alloc'
  obtain ⟨u, rfl, frozen⟩ := Passes.unhold frozen_frames moved₁
  refine ⟨u, frozen, fun a x loop readyX => ?_⟩
  obtain ⟨_, w, leave, frozen'⟩ := leavePlace_passes frozen_frames base a.1 x readyX
  rw [holding_nil] at frozen'
  refine ⟨w, ?_, frozen'⟩
  rw [removeAt_unit (Nat.ne_of_lt under), Prog.bind_ok alloc, if_pos rfl]
  exact (Prog.bind_ok loop).trans ((Prog.bind_ok leave).trans rfl)

theorem unitsAt_frozen (frozen : Frozen v w) (l : Nat) (place : Place) (c k : Nat) :
    w.unitsAt l place c k = v.unitsAt l place c k := by
  have table : place.table w = place.table v := by
    cases place with
    | locations r => simp [Place.table, frozen.inodes]
    | unit u => simp [Place.table, frozen.mem]
  unfold Volume.unitsAt Volume.dev
  simp only [table, frozen.reads, frozen.mem, frozen.unitSize]

theorem removeAt_all (below : ∀ m, l = m + 1 → RemovesAll g T hlock m down) (separate : g.Separate) :
    RemovesAll g T hlock l fun base n => removeAt down g l hlock base n := by
  intro v base k n ready sound under reads holds pos le
  obtain ⟨u, frozen, finish⟩ := removeAt_unit_run down ready under reads n
  have soundU : Sound g T u := (Frees.of_frozen (A := nowhere) frozen).sound (fun _ => False.elim) separate sound
  have readyU : Ready hlock u := frozen.toHold.ready ready
  have underU : l ≤ ((u.holding [base]).inodes g.inode.ref).level := by
    change l ≤ (u.inodes g.inode.ref).level
    rw [frozen.inodes]
    exact Nat.le_of_lt under
  have holdsU : Holds g T (u.holding [base]) l (.unit base) (v.unitSize / 4) k := (holds.frozen frozen).holding _
  obtain ⟨⟨first, second⟩, v₂, loop, count, last, frees, _⟩ := removeLoop_all below separate soundU.holding readyU underU
    holdsU le
  obtain ⟨x, rfl, freed⟩ := Frees.unhold frees
  obtain ⟨w, run, frozen'⟩ := finish _ x loop (freed.toHold.ready readyU)
  obtain rfl : first = k := by simpa using count
  obtain rfl : second = 0 := last (Or.inl pos)
  have all := ((Frees.of_frozen (A := Touches (.unit base) _) frozen).trans freed).trans (Frees.of_frozen frozen')
  rw [List.nil_append, List.append_nil] at all
  change Frees g (u.unitsAt l (.unit base) (v.unitSize / 4) first) (u.unitsAt l (.unit base) (v.unitSize / 4) first)
    (Touches (.unit base) (u.unitsAt l (.unit base) (v.unitSize / 4) first)) v w at all
  rw [unitsAt_frozen frozen] at all
  exact ⟨w, run, all⟩

theorem inodeRemoveBlock_below (separate : g.Separate) (l : Nat) : RemovesAll g T hlock l (inodeRemoveBlock g hlock l) := by
  induction l with
  | zero => exact removeAt_all nofun separate
  | succ l ih =>
    apply removeAt_all _ separate
    rintro m same
    cases same
    exact ih

/-- The removal of all the blocks of an inode. -/
theorem inodeRemoveBlock_all (separate : g.Separate) (sound : Sound g T v) (ready : Ready hlock v)
    (holds : Holds g T v (v.inodes g.inode.ref).level (.locations g.inode.ref) maxLocationIndex k) (base : Nat) {n : Nat}
    (le : k ≤ n) :
    ∃ empty w, (inodeRemoveBlock g hlock (v.inodes g.inode.ref).level base n).run v = .ok ((k, empty), w) ∧
      (0 < k → empty = true) ∧
      Frees g (v.unitsAt (v.inodes g.inode.ref).level (.locations g.inode.ref) maxLocationIndex k)
        (v.unitsAt (v.inodes g.inode.ref).level (.locations g.inode.ref) maxLocationIndex k)
        (Touches (.locations g.inode.ref)
          (v.unitsAt (v.inodes g.inode.ref).level (.locations g.inode.ref) maxLocationIndex k)) v w ∧
      ∀ j < maxLocationIndex, (w.inodes g.inode.ref).location j = invalidUnitNumber := by
  have call : ∀ l (down : Nat → Nat → M (Nat × Bool)), l = (v.inodes g.inode.ref).level →
      (∀ m, l = m + 1 → RemovesAll g T hlock m down) → ∃ empty w,
      (removeAt down g l hlock base n).run v = .ok ((k, empty), w) ∧ (0 < k → empty = true) ∧
      Frees g (v.unitsAt l (.locations g.inode.ref) maxLocationIndex k)
        (v.unitsAt l (.locations g.inode.ref) maxLocationIndex k)
        (Touches (.locations g.inode.ref) (v.unitsAt l (.locations g.inode.ref) maxLocationIndex k)) v w ∧
      ∀ j < maxLocationIndex, (w.inodes g.inode.ref).location j = invalidUnitNumber := by
    intro l down top below
    rw [← top] at holds
    obtain ⟨⟨first, second⟩, w, loop, count, last, frees, invalid⟩ :=
      removeLoop_all below separate sound ready (Nat.le_of_eq top) holds le
    obtain rfl : first = k := by simpa using count
    refine ⟨decide (second = 0), w, ?_, fun pos => ?_, frees, invalid⟩
    · rw [removeAt_locations top, Prog.bind_ok loop]
      rfl
    · exact decide_eq_true (last (Or.inl pos))
  cases top : (v.inodes g.inode.ref).level with
  | zero => exact call 0 _ top.symm nofun
  | succ l =>
    apply call (l + 1) _ top.symm
    rintro m same
    cases same
    exact inodeRemoveBlock_below separate l

end Loop

end PreTeO.Mgfs3
