import PreTeO.Mgfs3.RemoveAll
import PreTeO.Mgfs3.Truncation

/-!
# Removing some of the blocks of a tree

What a removal takes off `dunits` it takes off once per level. From a leaf it takes a block too many unless it takes all of
them, and a table is taken for empty if the removal ends in its first slot. `Stops` says where that does not happen.
-/

namespace PreTeO.Mgfs3
set_option autoImplicit false
open PreTeO.Lib

/-! ## The number of blocks -/

/-- The number of blocks of an inode is less by `n`, as 32 bits count. -/
structure Drops (ref : Ref) (n : Nat) (v w : Volume) : Prop extends Hold v w where
  level : (w.inodes ref).level = (v.inodes ref).level
  dunits : ((w.inodes ref).dunits + n) % 2 ^ 32 = (v.inodes ref).dunits % 2 ^ 32
  small : (v.inodes ref).dunits < 2 ^ 32 → (w.inodes ref).dunits < 2 ^ 32

section Drops
variable {ref : Ref} {u v w : Volume} {g : Growth} {hlock l : Nat} {place : Place} {down : Nat → Nat → M (Nat × Bool)}

theorem Drops.trans {n m : Nat} (first : Drops ref n u v) (second : Drops ref m v w) : Drops ref (n + m) u w := by
  refine ⟨hold_frames.trans _ _ _ first.toHold second.toHold, second.level.trans first.level, ?_,
    fun small => second.small (first.small small)⟩
  have one := first.dunits
  have two := second.dunits
  omega

theorem Drops.refl (ref : Ref) (v : Volume) : Drops ref 0 v v := ⟨hold_frames.refl v, rfl, rfl, id⟩

theorem drops_frames (ref : Ref) : Frames (Drops ref 0) where
  refl := Drops.refl ref
  trans _ _ _ first second := first.trans second
  same _ _ drops := drops.toHold
  hold v w users drops := ⟨hold_frames.hold v w users drops.toHold, drops.level, drops.dunits, drops.small⟩
  lock v w held t t' drops := ⟨hold_frames.lock v w held t t' drops.toHold, drops.level, drops.dunits, drops.small⟩
  mark v unit := ⟨hold_frames.mark v unit, rfl, rfl, id⟩
  store v stored := ⟨hold_frames.store v stored, rfl, rfl, id⟩

/-- A record with as many blocks. -/
theorem drops_update (v : Volume) (r : Ref) {record : Inode} (level : record.level = (v.inodes r).level)
    (dunits : record.dunits = (v.inodes r).dunits) :
    Drops ref 0 v { v with inodes := Function.update v.inodes r record } := by
  have same : ∀ r', (Function.update v.inodes r record r').level = (v.inodes r').level ∧
      (Function.update v.inodes r record r').dunits = (v.inodes r').dunits := by
    intro r'
    by_cases here : r' = r
    · subst here
      rw [Function.update_self]
      exact ⟨level, dunits⟩
    · rw [Function.update_of_ne here]
      exact ⟨rfl, rfl⟩
  exact ⟨⟨rfl, rfl, rfl, rfl, rfl⟩, (same ref).1, congrArg (· % 2 ^ 32) (same ref).2, fun small => (same ref).2.trans_lt small⟩

theorem drops_tallies (ref r : Ref) : Tallies (Drops ref 0) r := by
  refine ⟨drops_frames ref, fun v recs n => ?_⟩
  have record : Drops ref 0 v { v with inodes := Function.update v.inodes r { v.inodes r with nused := n } } :=
    drops_update v r rfl rfl
  exact ⟨⟨rfl, rfl, rfl, rfl, rfl⟩, record.level, record.dunits, record.small⟩

theorem drops_cut (v : Volume) (place : Place) (i : Nat) : Drops ref 0 v (v.cut i place) := by
  cases place with
  | locations r => exact drops_update v r rfl rfl
  | unit a => exact ⟨⟨rfl, rfl, rfl, rfl, rfl⟩, rfl, rfl, id⟩

theorem dropUnits_drops (ref : Ref) (v : Volume) (n : Nat) : ∃ w, (dropUnits ref n).run v = .ok ((), w) ∧ Drops ref n v w := by
  refine ⟨_, rfl, ⟨rfl, rfl, rfl, rfl, rfl⟩, ?_, ?_, fun _ => ?_⟩
  · simp
  · simp only [Function.update_self]
    omega
  · simp only [Function.update_self]
    exact Nat.mod_lt _ (by decide)

theorem clearPlace_drops (ref : Ref) (place : Place) (n : Nat) (v : Volume) :
    ∃ w, (clearPlace place n).run v = .ok ((), w) ∧ Drops ref 0 v w := by
  induction n with
  | zero => exact ⟨v, rfl, Drops.refl ref v⟩
  | succ n ih =>
    obtain ⟨w, run, drops⟩ := ih
    refine ⟨w.cut n place, ?_, drops.trans (drops_cut w place n)⟩
    rw [clearPlace, Prog.bind_ok run, put_run]
    rfl

theorem removeData_drops (place : Place) (ready : Ready hlock v) (nblocks i r : Nat) :
    ∃ n j w, (removeData g hlock nblocks place i r).run v = .ok ((r + n, j), w) ∧ Drops g.inode.ref n v w := by
  have frames := drops_frames g.inode.ref
  obtain ⟨n, v₁, free, drops₁⟩ := bitmapFree_passes g.bitmap (drops_tallies g.inode.ref g.bitmap.ref)
    ((List.range ((scanDown (place.table v) nblocks i r 0).2 + 1)).map fun j =>
      place.table v ((scanDown (place.table v) nblocks i r 0).1 + j)) v ready
  rw [holding_nil] at free drops₁
  obtain ⟨v₂, drop, drops₂⟩ := dropUnits_drops g.inode.ref v₁ n
  obtain ⟨_, v₃, sync, drops₃⟩ := syncShadow_passes frames g.bitmap g.shadow
    (fun s _ => drops_tallies g.inode.ref s.ref)
    (((List.range ((scanDown (place.table v) nblocks i r 0).2 + 1)).map fun j =>
      place.table v ((scanDown (place.table v) nblocks i r 0).1 + j)).take n) v₂
    (drops₂.toHold.ready (drops₁.toHold.ready ready))
  rw [holding_nil] at sync drops₃
  obtain ⟨w, clear, drops₄⟩ := clearPlace_drops g.inode.ref place
    ((scanDown (place.table v) nblocks i r 0).2 + 1) v₃
  have all := (drops₁.trans drops₂).trans (drops₃.trans drops₄)
  refine ⟨n, (scanDown (place.table v) nblocks i r 0).1, w, ?_, by simpa using all⟩
  unfold removeData
  rw [Prog.bind_ok (Prog.run_get v)]
  exact (Prog.bind_ok free).trans ((Prog.bind_ok drop).trans ((Prog.bind_ok sync).trans ((Prog.bind_ok clear).trans rfl)))

theorem cleanTree_drops (place : Place) (ready : Ready hlock v) (i base : Nat) (a : Nat × Bool) :
    ∃ w, (cleanTree g hlock place i base a).run v = .ok ((), w) ∧ Drops g.inode.ref a.1 v w := by
  have frames := drops_frames g.inode.ref
  obtain ⟨v₁, drop, drops₁⟩ := dropUnits_drops g.inode.ref v a.1
  have ready₁ := drops₁.toHold.ready ready
  unfold cleanTree
  rw [Prog.bind_ok drop]
  by_cases empty : a.2 = true
  · rw [if_pos empty]
    obtain ⟨n, v₂, free, drops₂⟩ := bitmapFree_passes g.bitmap (drops_tallies g.inode.ref g.bitmap.ref) [base] v₁ ready₁
    rw [holding_nil] at free drops₂
    obtain ⟨_, v₃, sync, drops₃⟩ := syncShadow_passes frames g.bitmap g.shadow
      (fun s _ => drops_tallies g.inode.ref s.ref) [base] v₂ (drops₂.toHold.ready ready₁)
    rw [holding_nil] at sync drops₃
    refine ⟨v₃.cut i place, ?_, ((drops₁.trans drops₂).trans drops₃).trans (drops_cut v₃ place i)⟩
    rw [Prog.bind_ok free, Prog.bind_ok sync, put_run]
    rfl
  · rw [if_neg empty]
    exact ⟨v₁, rfl, drops₁⟩

/-- What a call at a level takes off. -/
def DropsBelow (ref : Ref) (hlock l : Nat) (down : Nat → Nat → M (Nat × Bool)) : Prop :=
  ∀ v base n, Ready hlock v → l < (v.inodes ref).level →
    ∃ a w, (down base n).run v = .ok (a, w) ∧ Drops ref (a.1 * (l + 1)) v w

theorem removeLoop_drops (place : Place) (below : ∀ m, l = m + 1 → DropsBelow g.inode.ref hlock m down) (ready : Ready hlock v)
    (under : l ≤ (v.inodes g.inode.ref).level) (nblocks fuel i r : Nat) :
    ∃ n j w, (removeLoop down g l hlock nblocks place fuel i r).run v = .ok ((r + n, j), w) ∧
      Drops g.inode.ref (n * (l + 1)) v w := by
  have nothing : Drops g.inode.ref (0 * (l + 1)) v v := by
    rw [Nat.zero_mul]
    exact Drops.refl _ v
  induction fuel generalizing v i r with
  | zero => exact ⟨0, i, v, rfl, nothing⟩
  | succ fuel ih =>
    unfold removeLoop
    by_cases more : i ≠ 0 ∧ r < nblocks
    · rw [if_pos more]
      dsimp only
      rw [Prog.bind_ok (Prog.run_get v)]
      -- the first step, and what the loop does after it
      have goes : ∀ (v₁ : Volume) (n j : Nat), Drops g.inode.ref (n * (l + 1)) v v₁ →
          ∃ n' j' w, (removeLoop down g l hlock nblocks place fuel j (r + n)).run v₁ = .ok ((r + n', j'), w) ∧
            Drops g.inode.ref (n' * (l + 1)) v w := by
        intro v₁ n j drops
        obtain ⟨m, j', w, run, rest⟩ := ih (drops.toHold.ready ready) (by rw [drops.level]; exact under) j (r + n)
          (by rw [Nat.zero_mul]; exact Drops.refl _ v₁)
        refine ⟨n + m, j', w, by rw [run, Nat.add_assoc], ?_⟩
        rw [Nat.add_mul]
        exact drops.trans rest
      by_cases valid : place.table v (i - 1) ≠ invalidUnitNumber
      · rw [if_pos valid]
        cases l with
        | zero =>
          rw [if_neg (by simp)]
          obtain ⟨n, j, v₁, run, drops⟩ := removeData_drops (g := g) place ready nblocks (i - 1) r
          rw [Prog.bind_ok run]
          exact goes v₁ n j (by rw [Nat.zero_add, Nat.mul_one]; exact drops)
        | succ m =>
          rw [if_pos (Nat.succ_ne_zero m), removeTree_eq, Prog.bind_assoc]
          obtain ⟨a, v₁, call, drops₁⟩ := below m rfl v (place.table v (i - 1)) (nblocks - r) ready under
          obtain ⟨v₂, clean, drops₂⟩ := cleanTree_drops (g := g) place (drops₁.toHold.ready ready) (i - 1)
            (place.table v (i - 1)) a
          rw [Prog.bind_ok call, Prog.bind_assoc, Prog.bind_ok clean]
          exact goes v₂ a.1 (i - 1) (by rw [Nat.mul_succ]; exact drops₁.trans drops₂)
      · rw [if_neg valid]
        exact goes v 0 (i - 1) nothing
    · rw [if_neg more]
      exact ⟨0, i, v, rfl, nothing⟩

theorem removeAt_drops (below : ∀ m, l = m + 1 → DropsBelow g.inode.ref hlock m down) :
    DropsBelow g.inode.ref hlock l fun base n => removeAt down g l hlock base n := by
  have frames := drops_frames g.inode.ref
  intro v base n ready under
  rw [removeAt_unit (Nat.ne_of_lt under)]
  obtain ⟨hb, v₁, alloc, moved₁⟩ := alloc_passes frames base v ready
  rw [holding_nil] at alloc
  rw [Prog.bind_ok alloc]
  cases hb with
  | none =>
    rw [Option.toList_none, holding_nil] at moved₁
    exact ⟨(0, true), v₁, rfl, by rw [Nat.zero_mul]; exact moved₁⟩
  | some unit =>
    obtain ⟨u, rfl, moved⟩ := Passes.unhold frames moved₁
    obtain ⟨m, j, v₂, loop, drops⟩ := removeLoop_drops (.unit unit) below
      (v := u.holding [unit]) (moved.toHold.ready ready) (by
        change l ≤ (u.inodes g.inode.ref).level
        rw [moved.level]
        exact Nat.le_of_lt under) n (v.unitSize / 4) (v.unitSize / 4) 0
    obtain ⟨x, rfl, hold⟩ := Passes.unhold hold_frames drops.toHold
    obtain ⟨_, w, leave, moved'⟩ := leavePlace_passes frames unit (0 + m) x (hold.ready (moved.toHold.ready ready))
    rw [holding_nil] at moved'
    have inner : Drops g.inode.ref (m * (l + 1)) u x := ⟨hold, drops.level, drops.dunits, drops.small⟩
    refine ⟨(0 + m, decide (j = 0)), w, ?_, ?_⟩
    · exact (Prog.bind_ok loop).trans ((Prog.bind_ok leave).trans rfl)
    · have all := (moved.trans inner).trans moved'
      rw [Nat.zero_add]
      simpa using all

/-- A removal takes what it removes off the number of blocks once per level. -/
theorem inodeRemoveBlock_drops (base : Nat) (ready : Ready hlock v) (nblocks : Nat) :
    ∃ a w, (inodeRemoveBlock g hlock (v.inodes g.inode.ref).level base nblocks).run v = .ok (a, w) ∧
      Drops g.inode.ref (a.1 * ((v.inodes g.inode.ref).level + 1)) v w := by
  have deeper : ∀ l, DropsBelow g.inode.ref hlock l (inodeRemoveBlock g hlock l) := by
    intro l
    induction l with
    | zero => exact removeAt_drops nofun
    | succ l ih =>
      apply removeAt_drops
      rintro m same
      cases same
      exact ih
  have call : ∀ l (down : Nat → Nat → M (Nat × Bool)), l = (v.inodes g.inode.ref).level →
      (∀ m, l = m + 1 → DropsBelow g.inode.ref hlock m down) →
      ∃ a w, (removeAt down g l hlock base nblocks).run v = .ok (a, w) ∧ Drops g.inode.ref (a.1 * (l + 1)) v w := by
    intro l down top below
    obtain ⟨n, j, w, run, drops⟩ := removeLoop_drops (.locations g.inode.ref) below ready (Nat.le_of_eq top) nblocks
      maxLocationIndex maxLocationIndex 0
    refine ⟨(0 + n, decide (j = 0)), w, ?_, by rw [Nat.zero_add]; exact drops⟩
    rw [removeAt_locations top, Prog.bind_ok run]
    rfl
  cases top : (v.inodes g.inode.ref).level with
  | zero => exact call 0 _ top.symm nofun
  | succ l =>
    apply call (l + 1) _ top.symm
    rintro m same
    cases same
    exact deeper l

end Drops

/-! ## Where a removal ends -/

/-- A removal that leaves `q` blocks of a table at a level ends at the front of a leaf, and in no first slot of the tables on
the way to it. -/
def Stops (n : Nat) : Nat → Nat → Prop
  | 0, q => q = 0
  | l + 1, q => q % n ^ (l + 1) = 0 ∨ Stops n l (q % n ^ (l + 1)) ∧ n ^ l ≤ q % n ^ (l + 1)

/-- The first `q` of `k` blocks below a place are left, and the bits of the units that only the others need are cleared. -/
structure Leaves (g : Growth) (v : Volume) (l : Nat) (place : Place) (c k q : Nat) (w : Volume) : Prop where
  frees : ∃ Z, (∀ u, u ∈ Z ↔ u ∈ v.unitsAt l place c k ∧ u ∉ v.unitsAt l place c q) ∧
    Frees g Z Z (Touches place (v.unitsAt l place c k)) v w
  filled : TreeFilled w.dev (w.unitSize / 4) l (place.table w) c q

/-- One of the first `q` blocks is not found. -/
def Gone (w : Volume) (l : Nat) (place : Place) (c q : Nat) : Prop :=
  ∃ b < q, unitAt w.dev (w.unitSize / 4) l (place.table w) c b = none

/-- What a removal of `n` blocks does that begins with `r` removed. -/
def EndsAt (g : Growth) (v : Volume) (l : Nat) (place : Place) (c k n r : Nat) (a : Nat × Nat) (w : Volume) : Prop :=
  (Stops (v.unitSize / 4) l (k - n) →
    a.1 = r + n ∧ (a.2 = 0 ↔ k - n < (v.unitSize / 4) ^ l) ∧ Leaves g v l place c k (k - n) w) ∧
  (¬ Stops (v.unitSize / 4) l (k - n) → a.1 = r + (n + 1) ∨ Gone w l place c (k - n))

section Part
variable {g : Growth} {T S : Nat → Prop} {u v w : Volume} {hlock l c k n r q : Nat} {place : Place}
  {down : Nat → Nat → M (Nat × Bool)}

theorem Gone.later (gone : Gone v l place c q) (moved : Prunes g.inode.ref S v w) : Gone w l place c q := by
  obtain ⟨b, below, none⟩ := gone
  refine ⟨b, below, ?_⟩
  cases found : unitAt w.dev (w.unitSize / 4) l (place.table w) c b with
  | none => rfl
  | some x =>
    rw [moved.unitSize] at found
    rw [unitAt_cut moved.units (moved.table place) found] at none
    cases none

/-- The blocks of a slot that is not in use. -/
theorem unitAt_unused {dev : Nat → Option Mem} {n c i b : Nat} {t : Table} (invalid : t i = invalidUnitNumber)
    (low : b < n ^ (l + 1)) : unitAt dev n (l + 1) t c (i * n ^ (l + 1) + b) = none := by
  have digit : (i * n ^ (l + 1) + b) / n ^ (l + 1) = i := by
    rw [Nat.add_comm, Nat.add_mul_div_right _ _ (Nat.lt_of_le_of_lt (Nat.zero_le _) low), Nat.div_eq_of_lt low, Nat.zero_add]
  rw [unitAt_succ, digit, slotOf_invalid invalid]
  rfl

/-- What is gone below a slot is gone. -/
theorem Gone.slot (moved : Prunes g.inode.ref S v w) {i : Nat} (inside : i < c) (valid : place.table v i ≠ invalidUnitNumber)
    (room : q ≤ (v.unitSize / 4) ^ (l + 1)) (gone : Gone w l (.unit (place.table v i)) (v.unitSize / 4) q) :
    Gone w (l + 1) place c (i * (v.unitSize / 4) ^ (l + 1) + q) := by
  obtain ⟨b, below, none⟩ := gone
  have low : b < (v.unitSize / 4) ^ (l + 1) := Nat.lt_of_lt_of_le below room
  refine ⟨i * (v.unitSize / 4) ^ (l + 1) + b, Nat.add_lt_add_left below _, ?_⟩
  rw [moved.unitSize] at none ⊢
  rcases moved.table place i with same | invalid
  · have used : slotOf (place.table w) c i = some (place.table v i) := by
      rw [slotOf_of_lt inside (by rw [same]; exact valid), same]
    cases read : w.dev (place.table v i) with
    | none =>
      have digit : (i * (v.unitSize / 4) ^ (l + 1) + b) / (v.unitSize / 4) ^ (l + 1) = i := by
        rw [Nat.add_comm, Nat.add_mul_div_right _ _ (Nat.lt_of_le_of_lt (Nat.zero_le _) low), Nat.div_eq_of_lt low,
          Nat.zero_add]
      rw [unitAt_succ, digit, used, Option.bind_some, read]
      rfl
    | some m =>
      obtain ⟨_, same'⟩ := Option.ite_none_right_eq_some.1 read
      obtain rfl := Option.some.inj same'
      rw [unitAt_child used read low]
      exact none
  · exact unitAt_unused invalid low

/-- A loop that has removed as many blocks as it was to. -/
theorem removeLoop_enough {nblocks fuel i : Nat} (enough : nblocks ≤ r) :
    (removeLoop down g l hlock nblocks place fuel i r).run v = .ok ((r, i), v) := by
  cases fuel with
  | zero => rfl
  | succ fuel =>
    unfold removeLoop
    rw [if_neg fun more => Nat.not_lt_of_le enough more.2]
    rfl

/-! ## Leaves -/

/-- From a leaf with more blocks one too many is taken. -/
theorem removeLoop_leaf_some (down : Nat → Nat → M (Nat × Bool)) (separate : g.Separate) (sound : Sound g T v) (ready : Ready hlock v)
    (holds : Holds g T v 0 place c k) {nblocks fuel i : Nat} (enough : i ≤ fuel) (inside : i ≤ c) (le : k ≤ i)
    (total : nblocks = r + n) (pos : 0 < n) (less : n < k) :
    ∃ a w, (removeLoop down g 0 hlock nblocks place fuel i r).run v = .ok (a, w) ∧ a.1 = r + (n + 1) := by
  induction i generalizing fuel with
  | zero => omega
  | succ i ih =>
    obtain ⟨fuel, rfl⟩ : ∃ fuel', fuel = fuel' + 1 := ⟨fuel - 1, by omega⟩
    have slot := holds.filled.2 i (by omega)
    unfold removeLoop
    rw [if_pos ⟨Nat.succ_ne_zero i, by omega⟩]
    dsimp only
    rw [Prog.bind_ok (Prog.run_get v), Nat.add_sub_cancel]
    by_cases last : i < k
    · have valid : ∀ j ≤ i, place.table v j ≠ invalidUnitNumber :=
        fun j low => (holds.filled.2 j (by omega)).2 (by omega)
      have scan : scanDown (place.table v) nblocks i r 0 = (i - n, n) := by
        rw [scanDown_valid valid, total, Nat.add_sub_cancel_left, Nat.zero_add, Nat.min_eq_right (by omega)]
      have records : ∀ unit ∈ (List.range (n + 1)).map fun j => place.table v (i - n + j), g.Records v unit := by
        intro unit member
        obtain ⟨j, low, rfl⟩ := List.mem_map.1 member
        rw [List.mem_range] at low
        apply holds.records
        unfold Volume.unitsAt treeUnits
        exact List.mem_map.2 ⟨i - n + j, List.mem_range.2 (by omega), rfl⟩
      obtain ⟨w, run, _, _⟩ := removeData_frees (A := Touches place []) separate sound ready (Or.inl rfl) holds.mine scan records
      rw [if_pos (slot.2 last), if_neg (by simp), Prog.bind_ok run]
      exact ⟨_, w, removeLoop_enough (by omega), rfl⟩
    · rw [if_neg fun valid => last (slot.1 valid)]
      exact ih (by omega) (by omega) (by omega)

/-! ## Address units -/

/-- What a call for the level below has to do with an address unit that has more blocks than are to be removed. -/
def RemovesSome (g : Growth) (T : Nat → Prop) (hlock l : Nat) (down : Nat → Nat → M (Nat × Bool)) : Prop :=
  ∀ v base k n, Ready hlock v → Sound g T v → l < (v.inodes g.inode.ref).level → v.reads base = true →
    Holds g T v l (.unit base) (v.unitSize / 4) k → 0 < n → n < k →
    ∃ x j w, (down base n).run v = .ok ((x, decide (j = 0)), w) ∧ EndsAt g v l (.unit base) (v.unitSize / 4) k n 0 (x, j) w

/-- Anything may become invalid. -/
abbrev Prunable (g : Growth) : Volume → Volume → Prop := Prunes g.inode.ref fun _ => True

theorem prunable_removal (g : Growth) : Removal (Prunable g) g := prunes_removal g.inode.ref trivial fun _ _ => trivial

/-- A subtree of which blocks are left as they should be. -/
theorem Leaves.slot (holds : Holds g T v (l + 1) place c k) {i : Nat} (inside : i < c)
    (some : i * (v.unitSize / 4) ^ (l + 1) < k) (last : k ≤ (i + 1) * (v.unitSize / 4) ^ (l + 1)) (fewer : 0 < q)
    (less : q < k - i * (v.unitSize / 4) ^ (l + 1))
    (leaves : Leaves g v l (.unit (place.table v i)) (v.unitSize / 4) (k - i * (v.unitSize / 4) ^ (l + 1)) q w) :
    Leaves g v (l + 1) place c k (i * (v.unitSize / 4) ^ (l + 1) + q) w := by
  obtain ⟨valid, reads, child, split⟩ := holds.child inside some last
  obtain ⟨away, apart⟩ := holds.apart split
  obtain ⟨⟨Z, units, frees⟩, filled⟩ := leaves
  have pos : 0 < v.unitSize / 4 := by
    apply Nat.pos_of_ne_zero
    intro zero
    rw [zero, Nat.pow_succ, Nat.mul_zero, Nat.mul_zero] at last
    omega
  have room : k - i * (v.unitSize / 4) ^ (l + 1) ≤ (v.unitSize / 4) ^ (l + 1) := by
    rw [Nat.succ_mul] at last
    omega
  have read : v.dev (place.table v i) = Option.some (v.mem (place.table v i)) := if_pos reads
  have table : place.table w = place.table v := frees.table away holds.mine
  -- the units of the blocks that are left
  have kept : v.unitsAt (l + 1) place c (i * (v.unitSize / 4) ^ (l + 1) + q) =
      treeUnits v.dev (v.unitSize / 4) (l + 1) (place.table v) i k ++
        place.table v i :: v.unitsAt l (.unit (place.table v i)) (v.unitSize / 4) q := by
    have le : i * (v.unitSize / 4) ^ (l + 1) + q ≤ (i + 1) * (v.unitSize / 4) ^ (l + 1) := by
      rw [Nat.succ_mul]
      omega
    rw [← unitsAt_front place pos inside.le some.le, unitsAt_front place (k := i * (v.unitSize / 4) ^ (l + 1) + q) pos
      inside.le (Nat.le_add_right _ _)]
    unfold Volume.unitsAt
    rw [treeUnits_slots inside le, treeUnits_slot (by omega) read, share_last le, Nat.add_sub_cancel_left]
    rfl
  refine ⟨⟨Z, fun u => ?_, frees.mono ?_⟩, ?_⟩
  · have nodup := holds.nodup
    rw [split] at nodup
    obtain ⟨_, inner, _⟩ := List.nodup_append.1 nodup
    obtain ⟨_, below, cross⟩ := List.nodup_append.1 inner
    have outside := (List.nodup_cons.1 below).1
    rw [units, split, kept]
    simp only [List.mem_append, List.mem_cons, not_or]
    constructor
    · rintro ⟨here, gone⟩
      refine ⟨Or.inr (Or.inr here), fun front => cross u front u (List.mem_cons_of_mem _ here) rfl, ?_, gone⟩
      rintro rfl
      exact outside here
    · rintro ⟨front | own | here, before, other, gone⟩
      · exact absurd front before
      · exact absurd own other
      · exact ⟨here, gone⟩
  · rw [split]
    rintro p (rfl | ⟨u, below, rfl⟩)
    · exact Or.inr ⟨_, List.mem_append_right _ List.mem_cons_self, rfl⟩
    · exact Or.inr ⟨u, List.mem_append_right _ (List.mem_cons_of_mem _ below), rfl⟩
  · have size : w.unitSize = v.unitSize := frees.unitSize
    rw [size] at filled ⊢
    refine holds.filled.shrink pos inside some last fewer (by omega) (fun j _ => by rw [table])
      (fun u front => frees.dev fun touched => apart u front (Or.inl touched)) (m := w.mem (place.table v i)) ?_ filled
    unfold Volume.dev
    rw [if_pos (by rw [frees.reads]; exact reads)]

/-- Blocks that go before others. -/
theorem Leaves.trans {Z : List Nat} {k' : Nat} (frees : Frees g Z Z (Touches place (v.unitsAt l place c k)) v w) (le : q ≤ k')
    (le' : k' ≤ k) (units : ∀ u, u ∈ Z ↔ u ∈ v.unitsAt l place c k ∧ u ∉ v.unitsAt l place c k')
    (same : ∀ q ≤ k', w.unitsAt l place c q = v.unitsAt l place c q) {x : Volume} (leaves : Leaves g w l place c k' q x) :
    Leaves g v l place c k q x := by
  obtain ⟨⟨Z', units', frees'⟩, filled⟩ := leaves
  rw [same k' (Nat.le_refl _)] at units' frees'
  rw [same q le] at units'
  have sub : ∀ u ∈ v.unitsAt l place c k', u ∈ v.unitsAt l place c k := treeUnits_subset le'
  have sub' : ∀ u ∈ v.unitsAt l place c q, u ∈ v.unitsAt l place c k' := treeUnits_subset le
  refine ⟨⟨Z ++ Z', fun u => ?_, frees.trans (frees'.mono ?_)⟩, filled⟩
  · rw [List.mem_append, units, units']
    constructor
    · rintro (⟨here, other⟩ | ⟨here, other⟩)
      · exact ⟨here, fun kept => other (sub' u kept)⟩
      · exact ⟨sub u here, other⟩
    · rintro ⟨here, other⟩
      by_cases middle : u ∈ v.unitsAt l place c k'
      · exact Or.inr ⟨middle, other⟩
      · exact Or.inl ⟨here, middle⟩
  · rintro p (rfl | ⟨u, here, rfl⟩)
    · exact Or.inl rfl
    · exact Or.inr ⟨u, sub u here, rfl⟩

/-- Where no place changes any more the blocks are left. -/
theorem Leaves.still {Y : List Nat} {x : Volume} (leaves : Leaves g v l place c k q w)
    (mine : ∀ r, place = .locations r → r = g.inode.ref) (frees : Frees g [] Y nowhere w x) (none : Y = []) :
    Leaves g v l place c k q x := by
  subst none
  obtain ⟨⟨Z, units, first⟩, filled⟩ := leaves
  have both := first.trans frees.widen
  rw [List.append_nil] at both
  refine ⟨⟨Z, units, both⟩, ?_⟩
  have dev : x.dev = w.dev := funext fun unit => frees.dev id
  rw [dev, frees.unitSize, frees.table id mine]
  exact filled

theorem stops_front {m i : Nat} : Stops m (l + 1) (i * m ^ (l + 1)) := Or.inl (Nat.mul_mod_left _ _)

theorem stops_slot {m i : Nat} (pos : 0 < q) (low : q < m ^ (l + 1)) :
    Stops m (l + 1) (i * m ^ (l + 1) + q) ↔ Stops m l q ∧ m ^ l ≤ q := by
  have rest : (i * m ^ (l + 1) + q) % m ^ (l + 1) = q := by
    rw [Nat.mul_add_mod', Nat.mod_eq_of_lt low]
  rw [Stops, rest]
  constructor
  · rintro (zero | stops)
    · omega
    · exact stops
  · exact Or.inr

theorem first_slot {m i : Nat} (low : q < m) : i = 0 ↔ i * m + q < m := by
  constructor
  · rintro rfl
    rw [Nat.zero_mul, Nat.zero_add]
    exact low
  · intro small
    by_contra later
    have := Nat.le_mul_of_pos_left m (Nat.pos_of_ne_zero later)
    omega

/-- The slot the removal ends in. -/
theorem removeSlot_some (part : RemovesSome g T hlock l down) (quiet : ∀ base n, Quiet (Prunable g) hlock (down base n))
    (separate : g.Separate) (sound : Sound g T v) (ready : Ready hlock v) (under : l < (v.inodes g.inode.ref).level)
    (holds : Holds g T v (l + 1) place c k) {i : Nat} (inside : i < c) (some : i * (v.unitSize / 4) ^ (l + 1) < k)
    (last : k ≤ (i + 1) * (v.unitSize / 4) ^ (l + 1)) {nblocks : Nat} (total : nblocks = r + n) (pos : 0 < n)
    (less : n < k - i * (v.unitSize / 4) ^ (l + 1)) (fuel : Nat) :
    ∃ a w, (removeTree down g hlock nblocks place i (place.table v i) r >>= fun r =>
        removeLoop down g (l + 1) hlock nblocks place fuel i r).run v = .ok (a, w) ∧
      EndsAt g v (l + 1) place c k n r a w := by
  obtain ⟨valid, reads, child, split⟩ := holds.child inside some last
  obtain ⟨x, j, v₁, run₁, good, bad⟩ := part v (place.table v i) _ n ready sound under reads child pos less
  have moved₁ : Prunable g v v₁ := by
    have passes := (quiet (place.table v i) n).of_run ready (by rw [holding_nil]; exact run₁)
    rwa [holding_nil] at passes
  have room : k - i * (v.unitSize / 4) ^ (l + 1) ≤ (v.unitSize / 4) ^ (l + 1) := by
    rw [Nat.succ_mul] at last
    omega
  -- the blocks that are left in the slot
  obtain ⟨q, left⟩ : ∃ q, q = k - i * (v.unitSize / 4) ^ (l + 1) - n := ⟨_, rfl⟩
  have rest : k - n = i * (v.unitSize / 4) ^ (l + 1) + q := by omega
  have fewer : 0 < q := by omega
  have low : q < (v.unitSize / 4) ^ (l + 1) := by omega
  rw [← left] at good bad
  have slot := stops_slot (m := v.unitSize / 4) (i := i) fewer low
  have order : nblocks - r = n := by omega
  obtain ⟨_, v₂, run₂, moved₂⟩ := cleanTree_passes (prunable_removal g) place i (place.table v i) (x, decide (j = 0)) v₁
    (moved₁.toHold.ready ready)
  rw [holding_nil] at run₂ moved₂
  have tree : (removeTree down g hlock nblocks place i (place.table v i) r).run v = .ok (r + x, v₂) := by
    rw [removeTree_eq, order, Prog.bind_ok run₁, Prog.bind_ok run₂]
    rfl
  rw [Prog.bind_ok tree]
  unfold EndsAt
  rw [rest, slot]
  by_cases stops : Stops (v.unitSize / 4) l q ∧ (v.unitSize / 4) ^ l ≤ q
  · obtain ⟨count, flag, leaves⟩ := good stops.1
    obtain rfl : x = n := by simpa using count
    have used : j ≠ 0 := fun zero => Nat.not_lt_of_le stops.2 (flag.1 zero)
    -- the address unit stays
    obtain ⟨v₂', drop, frees⟩ : ∃ v₂', (dropUnits g.inode.ref x).run v₁ = .ok ((), v₂') ∧ Frees g [] [] nowhere v₁ v₂' :=
      ⟨_, rfl, Frees.drop v₁ _⟩
    obtain rfl : v₂ = v₂' := by
      unfold cleanTree at run₂
      rw [Prog.bind_ok drop, decide_eq_false used] at run₂
      cases run₂
      rfl
    refine ⟨(r + x, i), v₂, removeLoop_enough (by omega), fun _ => ⟨rfl, ?_, ?_⟩, fun no => absurd stops no⟩
    · exact first_slot low
    · exact (leaves.slot holds inside some last fewer (by omega)).still holds.mine frees rfl
  · obtain ⟨a, w, run₃, moved₃⟩ := removeLoop_passes (prunable_removal g) quiet (l + 1) nblocks place fuel i (r + x) v₂
      (moved₂.toHold.ready (moved₁.toHold.ready ready))
    rw [holding_nil] at run₃ moved₃
    have moved : Prunable g v₁ w := (prunes_frames _ _).trans _ _ _ moved₂ moved₃
    refine ⟨a, w, run₃, fun yes => absurd yes stops, fun _ => ?_⟩
    by_cases child_stops : Stops (v.unitSize / 4) l q
    · -- the address unit is freed though it has blocks
      obtain ⟨count, flag, leaves⟩ := good child_stops
      obtain rfl : j = 0 := flag.2 (Nat.lt_of_not_le fun le => stops ⟨child_stops, le⟩)
      obtain ⟨⟨Z, units, frees⟩, _⟩ := leaves
      obtain ⟨v₂', clean, _, table⟩ := cleanTree_frees (A := fun p => p = place) separate
        (frees.sound (Touches.within child.inside) separate sound) (moved₁.toHold.ready ready) rfl holds.mine i x
        (frees.records separate (holds.records _ (by
          rw [split]
          exact List.mem_append_right _ List.mem_cons_self)))
      rw [decide_eq_true rfl, clean] at run₂
      cases run₂
      have invalid : place.table w i = invalidUnitNumber := by
        rcases moved₃.table place i with same | cut
        · rw [same, table, if_pos rfl]
        · exact cut
      refine Or.inr ⟨i * (v.unitSize / 4) ^ (l + 1) + 0, by omega, ?_⟩
      rw [moved.unitSize, moved₁.unitSize]
      exact unitAt_unused invalid (by omega)
    · rcases bad child_stops with many | gone
      · left
        rw [removeLoop_enough (by omega)] at run₃
        cases run₃
        dsimp only
        dsimp only at many
        omega
      · right
        have both : Prunable g v w := (prunes_frames _ _).trans _ _ _ moved₁ moved
        exact (gone.later moved).slot both inside valid low.le

theorem removeLoop_some (all : RemovesAll g T hlock l down) (part : RemovesSome g T hlock l down)
    (quiet : ∀ base n, Quiet (Prunable g) hlock (down base n)) (separate : g.Separate) (sound : Sound g T v)
    (ready : Ready hlock v) (under : l < (v.inodes g.inode.ref).level) (holds : Holds g T v (l + 1) place c k)
    {nblocks fuel i : Nat} (enough : i ≤ fuel) (inside : i ≤ c) (le : k ≤ i * (v.unitSize / 4) ^ (l + 1))
    (total : nblocks = r + n) (pos : 0 < n) (less : n < k) :
    ∃ a w, (removeLoop down g (l + 1) hlock nblocks place fuel i r).run v = .ok (a, w) ∧
      EndsAt g v (l + 1) place c k n r a w := by
  induction i generalizing v fuel k r n with
  | zero => omega
  | succ i ih =>
    obtain ⟨fuel, rfl⟩ : ∃ fuel', fuel = fuel' + 1 := ⟨fuel - 1, by omega⟩
    unfold removeLoop
    rw [if_pos ⟨Nat.succ_ne_zero i, by omega⟩]
    dsimp only
    rw [Prog.bind_ok (Prog.run_get v), Nat.add_sub_cancel]
    by_cases some : i * (v.unitSize / 4) ^ (l + 1) < k
    · rw [if_pos (holds.child inside some le).1, if_pos (Nat.succ_ne_zero l)]
      rcases Nat.lt_or_ge n (k - i * (v.unitSize / 4) ^ (l + 1)) with within | whole
      · exact removeSlot_some part quiet separate sound ready under holds inside some le total pos within fuel
      · have room : k - i * (v.unitSize / 4) ^ (l + 1) ≤ nblocks - r := by omega
        have fewer : i ≤ fuel := by omega
        obtain ⟨Z, v₁, run₁, frees₁, units, holds₁, same⟩ := removeSlot_all all separate sound ready under holds inside some le
          room
        have size : v₁.unitSize = v.unitSize := frees₁.unitSize
        rw [Prog.bind_ok run₁]
        rcases Nat.lt_or_ge (k - i * (v.unitSize / 4) ^ (l + 1)) n with more | last
        · -- the slots before it
          obtain ⟨a, w, run, good, bad⟩ := ih (frees₁.sound (Touches.within holds.inside) separate sound)
            (frees₁.toHold.ready ready) (by rw [frees₁.level]; exact under) holds₁ fewer
            (r := r + (k - i * (v.unitSize / 4) ^ (l + 1))) (n := n - (k - i * (v.unitSize / 4) ^ (l + 1))) (by omega) (by rw [size]) (by omega) (by omega) (by omega)
          have left : i * (v.unitSize / 4) ^ (l + 1) - (n - (k - i * (v.unitSize / 4) ^ (l + 1))) = k - n := by omega
          rw [left, size] at good bad
          refine ⟨a, w, run, fun stops => ?_, fun goes_on => ?_⟩
          · obtain ⟨count, flag, leaves⟩ := good stops
            exact ⟨by omega, flag, Leaves.trans frees₁ (by omega) some.le units same leaves⟩
          · rcases bad goes_on with many | gone
            · left
              omega
            · exact Or.inr gone
        · obtain rfl : n = k - i * (v.unitSize / 4) ^ (l + 1) := by omega
          have left : k - (k - i * (v.unitSize / 4) ^ (l + 1)) = i * (v.unitSize / 4) ^ (l + 1) := by omega
          refine ⟨(r + (k - i * (v.unitSize / 4) ^ (l + 1)), i), v₁, removeLoop_enough (by omega), fun _ => ⟨rfl, ?_, ?_⟩,
            fun goes_on => absurd ?_ goes_on⟩
          · rw [left]
            rw [Nat.succ_mul] at le
            exact first_slot (q := 0) (by omega)
          · rw [left]
            refine ⟨⟨Z, units, frees₁⟩, ?_⟩
            have filled := holds₁.filled
            exact filled
          · rw [left]
            exact stops_front
    · have free := holds.filled.invalid inside (Nat.le_of_not_lt some)
      rw [if_neg (not_not_intro free)]
      exact ih sound ready under holds (by omega) (by omega) (Nat.le_of_not_lt some) total pos less

/-! ## The calls -/

theorem holding_inj {x y : Volume} {units : List Nat} (same : x.holding units = y.holding units) : x = y := by
  have users : x.users = y.users := by
    funext unit
    have here := congrFun (congrArg Volume.users same) unit
    exact Nat.add_right_cancel here
  cases x
  cases y
  simp only [Volume.holding, Volume.mk.injEq] at same users ⊢
  exact ⟨same.1, same.2.1, same.2.2.1, same.2.2.2.1, same.2.2.2.2.1, same.2.2.2.2.2.1, users, same.2.2.2.2.2.2.2⟩

/-- What is left is left when nothing changes but the buffers in use. -/
theorem EndsAt.unhold {units : List Nat} {a : Nat × Nat} {x : Volume}
    (ends : EndsAt g (u.holding units) l place c k n r a (x.holding units)) : EndsAt g u l place c k n r a x := by
  refine ⟨fun stops => ?_, ends.2⟩
  obtain ⟨count, flag, ⟨Z, members, frees⟩, filled⟩ := ends.1 stops
  obtain ⟨y, same, frees'⟩ := Frees.unhold frees
  rw [← holding_inj same] at frees'
  exact ⟨count, flag, ⟨Z, members, frees'⟩, filled⟩

theorem EndsAt.frozen {a : Nat × Nat} {x : Volume} (ends : EndsAt g u l place c k n r a x) (before : Frozen v u)
    (after : Frozen x w) (mine : ∀ r, place = .locations r → r = g.inode.ref) : EndsAt g v l place c k n r a w := by
  have units : ∀ k, u.unitsAt l place c k = v.unitsAt l place c k := unitsAt_frozen before l place c
  unfold EndsAt at ends ⊢
  rw [before.unitSize] at ends
  refine ⟨fun stops => ?_, fun goes_on => ?_⟩
  · obtain ⟨count, flag, leaves⟩ := ends.1 stops
    obtain ⟨⟨Z, members, frees⟩, filled⟩ := leaves.still mine (Frees.of_frozen after) rfl
    rw [units, units] at members
    rw [units] at frees
    have both := (Frees.of_frozen (A := Touches place (v.unitsAt l place c k)) before).trans frees
    rw [List.nil_append] at both
    exact ⟨count, flag, ⟨Z, members, both⟩, filled⟩
  · exact (ends.2 goes_on).imp_right fun gone => gone.later (g := g) (S := fun _ => True) after.prunes

/-- All the positions of a table that has more blocks than are to be removed. -/
theorem removeLoop_ends (below : ∀ m, l = m + 1 → RemovesAll g T hlock m down ∧ RemovesSome g T hlock m down)
    (quiet : ∀ base n, Quiet (Prunable g) hlock (down base n)) (separate : g.Separate) (sound : Sound g T v)
    (ready : Ready hlock v) (under : l ≤ (v.inodes g.inode.ref).level) (holds : Holds g T v l place c k) (pos : 0 < n)
    (less : n < k) :
    ∃ a w, (removeLoop down g l hlock n place c c 0).run v = .ok (a, w) ∧ EndsAt g v l place c k n 0 a w := by
  cases l with
  | zero =>
    obtain ⟨a, w, run, many⟩ := removeLoop_leaf_some down (r := 0) separate sound ready holds (Nat.le_refl c)
      (Nat.le_refl c) holds.filled.1 (Nat.zero_add n).symm pos less
    refine ⟨a, w, run, fun stops => ?_, fun _ => Or.inl many⟩
    unfold Stops at stops
    omega
  | succ m =>
    obtain ⟨all, part⟩ := below m rfl
    exact removeLoop_some all part quiet separate sound ready under holds (Nat.le_refl c) (Nat.le_refl c) holds.filled.1
      (Nat.zero_add n).symm pos less

theorem removeAt_some (below : ∀ m, l = m + 1 → RemovesAll g T hlock m down ∧ RemovesSome g T hlock m down)
    (quiet : ∀ base n, Quiet (Prunable g) hlock (down base n)) (separate : g.Separate) :
    RemovesSome g T hlock l fun base n => removeAt down g l hlock base n := by
  intro v base k n ready sound under reads holds pos less
  obtain ⟨u, frozen, finish⟩ := removeAt_unit_run down ready under reads n
  have soundU : Sound g T u := (Frees.of_frozen (A := nowhere) frozen).sound (fun _ => False.elim) separate sound
  have readyU : Ready hlock u := frozen.toHold.ready ready
  have underU : l ≤ ((u.holding [base]).inodes g.inode.ref).level := by
    change l ≤ (u.inodes g.inode.ref).level
    rw [frozen.inodes]
    exact Nat.le_of_lt under
  have holdsU : Holds g T (u.holding [base]) l (.unit base) (v.unitSize / 4) k := (holds.frozen frozen).holding _
  obtain ⟨a, v₂, loop, ends⟩ := removeLoop_ends below quiet separate soundU.holding readyU underU holdsU pos less
  have moved := (removeLoop_passes (prunable_removal g) quiet l n (.unit base) (v.unitSize / 4) (v.unitSize / 4) 0).of_run
    (v := u.holding [base]) readyU (by rw [holding_nil]; exact loop)
  rw [holding_nil] at moved
  obtain ⟨x, rfl, moved'⟩ := Passes.unhold (prunes_frames _ _) moved
  obtain ⟨w, run, frozen'⟩ := finish a x loop (moved'.toHold.ready readyU)
  exact ⟨a.1, a.2, w, run, ends.unhold.frozen frozen frozen' nofun⟩

theorem inodeRemoveBlock_some (separate : g.Separate) (l : Nat) :
    RemovesAll g T hlock l (inodeRemoveBlock g hlock l) ∧ RemovesSome g T hlock l (inodeRemoveBlock g hlock l) := by
  refine ⟨inodeRemoveBlock_below separate l, ?_⟩
  induction l with
  | zero =>
    apply removeAt_some (fun _ same => by cases same) _ separate
    intro _ _
    exact Passes.pure (prunes_frames _ _) _ rfl
  | succ l ih =>
    apply removeAt_some _ (inodeRemoveBlock_passes (prunable_removal g) l) separate
    rintro m same
    cases same
    exact ⟨inodeRemoveBlock_below separate l, ih⟩

/-- The removal of some of the blocks of an inode. -/
theorem inodeRemoveBlock_part (separate : g.Separate) (sound : Sound g T v) (ready : Ready hlock v)
    (holds : Holds g T v (v.inodes g.inode.ref).level (.locations g.inode.ref) maxLocationIndex k) (base : Nat) (pos : 0 < n)
    (less : n < k) :
    ∃ x j w, (inodeRemoveBlock g hlock (v.inodes g.inode.ref).level base n).run v = .ok ((x, decide (j = 0)), w) ∧
      EndsAt g v (v.inodes g.inode.ref).level (.locations g.inode.ref) maxLocationIndex k n 0 (x, j) w := by
  have call : ∀ l (down : Nat → Nat → M (Nat × Bool)), l = (v.inodes g.inode.ref).level →
      (∀ m, l = m + 1 → RemovesAll g T hlock m down ∧ RemovesSome g T hlock m down) →
      (∀ base n, Quiet (Prunable g) hlock (down base n)) → ∃ x j w,
      (removeAt down g l hlock base n).run v = .ok ((x, decide (j = 0)), w) ∧
      EndsAt g v l (.locations g.inode.ref) maxLocationIndex k n 0 (x, j) w := by
    intro l down top below quiet
    rw [← top] at holds
    obtain ⟨a, w, loop, ends⟩ := removeLoop_ends below quiet separate sound ready (Nat.le_of_eq top) holds pos less
    refine ⟨a.1, a.2, w, ?_, ends⟩
    rw [removeAt_locations top, Prog.bind_ok loop]
    rfl
  cases top : (v.inodes g.inode.ref).level with
  | zero => exact call 0 _ top.symm (fun _ same => by cases same) fun _ _ => Passes.pure (prunes_frames _ _) _ rfl
  | succ l =>
    apply call (l + 1) _ top.symm _ (inodeRemoveBlock_passes (prunable_removal g) l)
    rintro m same
    cases same
    exact inodeRemoveBlock_some separate l

end Part

end PreTeO.Mgfs3
