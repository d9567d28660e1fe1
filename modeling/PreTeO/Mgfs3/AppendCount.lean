import Mathlib.Data.Nat.ModEq
import PreTeO.Lib.Bits
import PreTeO.Mgfs3.BitmapAlloc
import PreTeO.Mgfs3.InodeFile
import PreTeO.Mgfs3.Passes

/-!
# How many units an append hangs in

A run of `inode_append_block` that returns leaves the recorded size alone and adds to `dunits` what it returns, in 32 bits.
The units come out of the clear bits of the space bitmap, so that an inode never gets more than there are.
-/

namespace PreTeO.Mgfs3
set_option autoImplicit false
open PreTeO.Lib

/-! ## What leaves the counts alone -/

/-- The size and the number of units of the inode are as they were, and so is the bitmap file. -/
structure Still (ref : Ref) (idx : Nat) (v w : Volume) : Prop where
  unitSize : w.unitSize = v.unitSize
  reads : w.reads = v.reads
  sz : (w.inodes ref).sz = (v.inodes ref).sz
  dunits : (w.inodes ref).dunits = (v.inodes ref).dunits
  bits : w.bits idx = v.bits idx

section Still
variable {ref : Ref} {idx : Nat}

theorem Still.refl (v : Volume) : Still ref idx v v := ⟨rfl, rfl, rfl, rfl, rfl⟩

theorem Still.trans (u v w : Volume) (first : Still ref idx u v) (second : Still ref idx v w) : Still ref idx u w :=
  ⟨second.unitSize.trans first.unitSize, second.reads.trans first.reads, second.sz.trans first.sz,
    second.dunits.trans first.dunits, second.bits.trans first.bits⟩

/-- A field of another record that replaces one with the same value of it. -/
theorem field_update {B : Type} (field : Inode → B) (inodes : Ref → Inode) (ref other : Ref) {inode : Inode}
    (same : field inode = field (inodes other)) : field (Function.update inodes other inode ref) = field (inodes ref) := by
  by_cases here : ref = other
  · subst here
    simpa using same
  · simp [here]

theorem still_pure {A : Type} (a : A) : Along (Still ref idx) (pure a : M A) := Along.pure Still.refl a

theorem still_get : Along (Still ref idx) (Prog.get : M Volume) := Along.get Still.refl

theorem still_bind {A B : Type} {m : M A} {f : A → M B} (first : Along (Still ref idx) m)
    (next : ∀ a, Along (Still ref idx) (f a)) : Along (Still ref idx) (m >>= f) := Along.bind Still.trans first next

theorem still_lock (hlock : Nat) : Along (Still ref idx) (mgfsLock hlock) := by
  apply still_bind still_get
  intro v
  split
  · exact still_bind (Along.modify fun v => ⟨rfl, rfl, rfl, rfl, rfl⟩) fun _ => still_pure _
  · apply Along.ite
    · intro _
      exact still_bind (Along.modify fun v => ⟨rfl, rfl, rfl, rfl, rfl⟩) fun _ => still_pure _
    · intro _
      exact Along.stuck _

theorem still_unlock (lock : Nat) : Along (Still ref idx) (mgfsUnlock lock) := by
  apply Along.modify
  intro v
  split
  · exact Still.refl v
  · split
    · exact ⟨rfl, rfl, rfl, rfl, rfl⟩
    · exact Still.refl v

theorem still_locked {A : Type} {hlock : Nat} {body : Nat → M A} (inside : ∀ lock, Along (Still ref idx) (body lock)) :
    Along (Still ref idx) (locked hlock body) :=
  still_bind (still_lock hlock) fun lock =>
    still_bind (inside lock) fun a => still_bind (still_unlock lock) fun _ => still_pure a

/-- Nothing is counted but between lock and unlock. -/
theorem locked_inside {A : Type} {hlock : Nat} {body : Nat → M A} {v w : Volume} {a : A}
    (run : (locked hlock body).run v = .ok (a, w)) :
    ∃ lock x y, Still ref idx v x ∧ (body lock).run x = .ok (a, y) ∧ Still ref idx y w := by
  obtain ⟨lock, x, locks, run⟩ := Prog.bind_eq_ok run
  obtain ⟨b, y, inside, run⟩ := Prog.bind_eq_ok run
  obtain ⟨_, z, unlocks, run⟩ := Prog.bind_eq_ok run
  cases run
  exact ⟨lock, x, y, still_lock hlock _ _ _ locks, inside, still_unlock lock _ _ _ unlocks⟩

theorem still_alloc (unit hlock : Nat) : Along (Still ref idx) (mgfsBufferAlloc unit hlock) := by
  apply still_locked
  intro _
  apply still_bind still_get
  intro v
  apply Along.ite
  · intro _
    exact still_bind (Along.modify fun v => ⟨rfl, rfl, rfl, rfl, rfl⟩) fun _ => still_pure _
  · intro _
    exact still_pure _

theorem still_free (unit hlock : Nat) : Along (Still ref idx) (mgfsBufferFree unit hlock) :=
  still_locked fun _ => Along.modify fun _ => ⟨rfl, rfl, rfl, rfl, rfl⟩

theorem still_release (hb : Option Nat) (hlock : Nat) : Along (Still ref idx) (mgfsBufferRelease hb hlock) := by
  cases hb with
  | none => exact still_pure ()
  | some unit => exact still_free unit hlock

theorem still_write (unit hlock : Nat) : Along (Still ref idx) (mgfsBufferWrite unit hlock) :=
  still_locked fun _ => Along.modify fun _ => ⟨rfl, rfl, rfl, rfl, rfl⟩

theorem still_putBytes (unit offset n : Nat) (f : Nat → Byte) : Along (Still ref idx) (putBytes unit offset n f) :=
  Along.modify fun _ => ⟨rfl, rfl, rfl, rfl, rfl⟩

theorem still_putInode (other : Ref) {f : Inode → Inode} (sz : ∀ inode, (f inode).sz = inode.sz)
    (dunits : ∀ inode, (f inode).dunits = inode.dunits) : Along (Still ref idx) (putInode other f) :=
  Along.modify fun v => ⟨rfl, rfl, field_update Inode.sz v.inodes ref other (sz _),
    field_update Inode.dunits v.inodes ref other (dunits _), rfl⟩

theorem still_descend (hlock l : Nat) (w : Walk) : Along (Still ref idx) (descend hlock l w) := by
  induction l generalizing w with
  | zero => exact still_pure w
  | succ l ih =>
    have level : Along (Still ref idx) (descendLevel hlock (l + 1) w) := by
      apply still_bind still_get
      intro v
      dsimp only
      split
      · exact still_pure w
      · apply Along.ite
        · intro _
          apply still_bind (still_alloc _ _)
          intro hb
          cases hb with
          | none => exact still_pure _
          | some unit => exact still_pure _
        · intro _
          exact still_pure w
    apply still_bind level
    intro w
    apply Along.ite
    · intro _
      exact still_bind (still_release _ _) fun _ => ih _
    · intro _
      exact still_pure w

theorem still_list (other : Ref) (first count hlock : Nat) :
    Along (Still ref idx) (mgfsInodeListDunit other first count hlock) := by
  have loop : ∀ inode fuel out, Along (Still ref idx) (listLoop inode first count hlock fuel out) := by
    intro inode fuel
    induction fuel with
    | zero => exact fun out => still_pure out
    | succ fuel ih =>
      intro out
      apply Along.ite
      · intro _
        apply still_bind (still_descend _ _ _)
        intro w
        apply Along.ite
        · intro _
          exact still_bind (still_release _ _) fun _ => still_pure out
        · intro _
          dsimp only
          apply still_bind (still_release _ _)
          intro _
          apply Along.ite
          · intro _
            exact still_pure _
          · intro _
            exact ih _
      · intro _
        exact still_pure out
  exact still_bind still_get fun v => loop _ _ _

theorem still_readBlock (other : Ref) (block hlock : Nat) : Along (Still ref idx) (mgfsInodeReadBlock other block hlock) := by
  apply still_bind (still_list _ _ _ _)
  intro out
  split
  · exact still_alloc _ _
  · exact still_pure none

theorem still_readRecord (other : Ref) (number hlock : Nat) : Along (Still ref idx) (readRecord other number hlock) := by
  apply still_bind still_get
  intro v
  apply Along.ite
  · intro _
    exact still_readBlock _ _ _
  · intro _
    exact still_pure none

theorem still_metaOpen (k hlock : Nat) : Along (Still ref idx) (mgfsInodeMetaOpen k hlock) := by
  apply still_bind (still_readRecord _ _ _)
  intro hb
  cases hb with
  | none => exact still_pure none
  | some unit => exact still_pure _

theorem still_close (h : InodeHandle) (hlock : Nat) : Along (Still ref idx) (mgfsInodeClose h hlock) :=
  still_release h.hb hlock

theorem still_update (h : InodeHandle) (hlock : Nat) : Along (Still ref idx) (mgfsInodeUpdate h hlock) := by
  unfold mgfsInodeUpdate
  split
  · exact still_pure ()
  · exact still_bind (still_write _ _) fun _ => Along.modify fun _ => ⟨rfl, rfl, rfl, rfl, rfl⟩

theorem still_bitmapRecord (h : InodeHandle) (bitNumber hlock : Nat) :
    Along (Still ref idx) (bitmapRecord h bitNumber hlock) := by
  apply still_bind still_get
  intro v
  apply Along.ite
  · intro _
    apply Along.ite
    · intro _
      exact still_readBlock _ _ _
    · intro _
      exact still_pure none
  · intro _
    exact still_pure none

/-- A change of a bit of another file. -/
theorem still_putBit (h : InodeHandle) (other : h.ref.idx ≠ idx) (bitNumber : Nat) (state : Bool) :
    Along (Still ref idx) (putBit h bitNumber state) := by
  apply Along.modify
  intro v
  exact ⟨rfl, rfl, field_update Inode.sz v.inodes ref h.ref rfl, field_update Inode.dunits v.inodes ref h.ref rfl,
    Function.update_of_ne (Ne.symm other) _ _⟩

theorem still_bitmapSet (h : InodeHandle) (other : h.ref.idx ≠ idx) (bitNumber : Nat) (state : Bool) (hlock : Nat) :
    Along (Still ref idx) (mgfsBitmapSet h bitNumber state hlock) := by
  apply still_bind (still_bitmapRecord _ _ _)
  intro hb
  cases hb with
  | none => exact still_pure false
  | some hb =>
    apply still_locked
    intro lock
    apply still_bind still_get
    intro v
    have frees : Along (Still ref idx) (do mgfsBufferFree hb lock; pure true : M Bool) :=
      still_bind (still_free _ _) fun _ => still_pure true
    apply Along.ite
    · intro _
      apply still_bind (still_putBit h other _ _)
      intro _
      apply still_bind (still_write _ _)
      intro _
      exact still_bind (still_update _ _) fun _ => frees
    · intro _
      exact frees

theorem still_sync (h : InodeHandle) (hshadow : Option InodeHandle) (other : ∀ s, hshadow = some s → s.ref.idx ≠ idx)
    (hlock : Nat) (array : List Nat) : Along (Still ref idx) (syncShadow h hshadow hlock array) := by
  cases hshadow with
  | none => exact still_pure ()
  | some s =>
    have apart := other s rfl
    change Along (Still ref idx) (mgfsBitmapSync h s hlock array)
    induction array with
    | nil => exact still_pure ()
    | cons x rest ih =>
      apply Along.ite
      · intro _
        apply still_bind (still_bitmapRecord _ _ _)
        intro hb
        cases hb with
        | none => exact ih
        | some hb =>
          have inside : Along (Still ref idx) (locked hlock fun lock => do
              let v ← Prog.get
              let _ ← mgfsBitmapSet s x (v.bit h.ref x) lock
              mgfsBufferFree hb lock) := by
            apply still_locked
            intro lock
            apply still_bind still_get
            intro v
            exact still_bind (still_bitmapSet s apart _ _ _) fun _ => still_free _ _
          exact still_bind inside fun _ => ih
      · intro _
        exact ih

theorem still_fillUnit (unit : Nat) (b : Byte) : Along (Still ref idx) (fillUnit unit b) :=
  still_bind still_get fun _ => still_putBytes _ _ _ _

theorem still_fillUnits (b : Byte) (hlock : Nat) (units : List Nat) : Along (Still ref idx) (fillUnits b hlock units) := by
  induction units with
  | nil => exact still_pure ()
  | cons x rest ih =>
    apply still_bind (still_alloc _ _)
    intro hb
    cases hb with
    | none => exact ih
    | some unit =>
      apply still_bind (still_fillUnit _ _)
      intro _
      apply still_bind (still_write _ _)
      intro _
      exact still_bind (still_free _ _) fun _ => ih

theorem still_put (place : Place) (i x : Nat) : Along (Still ref idx) (place.put i x) := by
  cases place with
  | locations other =>
    unfold Place.put
    exact still_putInode other (fun _ => rfl) fun _ => rfl
  | unit u => exact still_putBytes _ _ _ _

theorem still_openShadow (k hlock : Nat) : Along (Still ref idx) (openShadow k hlock) := by
  apply still_bind still_get
  intro v
  apply Along.ite
  · intro _
    exact still_metaOpen _ _
  · intro _
    exact still_pure none

theorem still_closeShadow (hshadow : Option InodeHandle) (hlock : Nat) :
    Along (Still ref idx) (closeShadow hshadow hlock) := by
  cases hshadow with
  | none => exact still_pure ()
  | some s => exact still_close s hlock

end Still

/-! ## Clear bits -/

/-- The clear bits of a record. -/
def BitmapRec.clear (r : BitmapRec) : Nat := ((List.range maxBitmapBits).filter fun bit => !r.bits.getLsbD bit).length

theorem BitmapRec.clear_add_ones (r : BitmapRec) : r.clear + ones r.bits = maxBitmapBits := by
  have whole := (List.range maxBitmapBits).length_eq_length_filter_add fun bit => r.bits.getLsbD bit
  have set : ones r.bits = ((List.range maxBitmapBits).filter fun bit => r.bits.getLsbD bit).length := by
    have same : (Finset.range maxBitmapBits).filter (fun j => r.bits.getLsbD j = true) =
        ((List.range maxBitmapBits).filter fun bit => r.bits.getLsbD bit).toFinset := by
      ext j
      simp
    rw [ones, same, List.toFinset_card_of_nodup (List.nodup_range.filter _)]
  rw [List.length_range] at whole
  unfold BitmapRec.clear
  omega

/-- One bit of a record set, or cleared, that was another. -/
theorem BitmapRec.put_ones (r : BitmapRec) {bit : Nat} {state : Bool} (small : bit < maxBitmapBits)
    (differ : r.bits.getLsbD bit = !state) :
    if state then ones (r.put bit state).bits = ones r.bits + 1 else ones r.bits = ones (r.put bit state).bits + 1 := by
  have same : SameBut bit r.bits (r.put bit state).bits := by
    intro j bound other
    rw [put_bit r state small bound, if_neg other]
  have here : (r.put bit state).bits.getLsbD bit = state := by
    rw [put_bit r state small small, if_pos rfl]
  cases state with
  | true =>
    rw [if_pos rfl]
    exact ones_set small same differ here
  | false =>
    rw [if_neg Bool.false_ne_true]
    exact ones_set small (fun j bound other => (same j bound other).symm) here differ

theorem clearBits_set {recs : List BitmapRec} {k : Nat} {r : BitmapRec} (get : recs[k]? = some r) (r' : BitmapRec) :
    clearBits (recs.set k r') + r.clear = clearBits recs + r'.clear := by
  change (List.map BitmapRec.clear (recs.set k r')).sum + r.clear = (recs.map BitmapRec.clear).sum + r'.clear
  induction recs generalizing k with
  | nil => cases get
  | cons first rest ih =>
    cases k with
    | zero =>
      cases get
      simp only [List.set_cons_zero, List.map_cons, List.sum_cons]
      omega
    | succ k =>
      have tail := ih get
      simp only [List.set_cons_succ, List.map_cons, List.sum_cons]
      omega

theorem allocBits_clear {base count fuel : Nat} {r r' : BitmapRec} {out out' : List Nat}
    (found : allocBits base count fuel r out = (r', out')) :
    out.length ≤ out'.length ∧ r'.clear + out'.length = r.clear + out.length := by
  induction fuel generalizing r out with
  | zero =>
    cases found
    exact ⟨Nat.le_refl _, rfl⟩
  | succ fuel ih =>
    unfold allocBits at found
    split at found
    · split at found
      · cases found
        exact ⟨Nat.le_refl _, rfl⟩
      · next bit next took =>
        obtain ⟨small, clear, rfl, -⟩ := allocBit_some took
        have one := @BitmapRec.put_ones r bit true small clear
        obtain ⟨more, rest⟩ := ih found
        have before := r.clear_add_ones
        have after := (r.put bit true).clear_add_ones
        rw [if_pos rfl] at one
        rw [List.length_append, List.length_singleton] at more rest
        omega
    · cases found
      exact ⟨Nat.le_refl _, rfl⟩

theorem allocRecords_clear {count sz n k offset offset' : Nat} {recs recs' : List BitmapRec} {out out' : List Nat}
    (found : allocRecords count sz n k offset recs out = (recs', out', offset')) :
    out.length ≤ out'.length ∧ clearBits recs' + out'.length = clearBits recs + out.length := by
  induction n generalizing k offset recs out with
  | zero =>
    cases found
    exact ⟨Nat.le_refl _, rfl⟩
  | succ n ih =>
    unfold allocRecords at found
    split at found
    · split at found
      · cases found
        exact ⟨Nat.le_refl _, rfl⟩
      · next r get =>
        cases bits : allocBits (k * maxBitmapBits) count maxBitmapBits r out with
        | mk r₁ out₁ =>
          rw [bits] at found
          obtain ⟨more, here⟩ := allocBits_clear bits
          obtain ⟨later, rest⟩ := ih found
          have set := clearBits_set get r₁
          omega
    · cases found
      exact ⟨Nat.le_refl _, rfl⟩

/-! ## Counting along the calls -/

/-- As `Still`, but for `given` clear bits that were taken, and at most `back` that became clear. -/
structure Trades (ref : Ref) (idx given back : Nat) (v w : Volume) : Prop where
  unitSize : w.unitSize = v.unitSize
  reads : w.reads = v.reads
  sz : (w.inodes ref).sz = (v.inodes ref).sz
  dunits : (w.inodes ref).dunits = (v.inodes ref).dunits
  clear : clearBits (w.bits idx) + given ≤ clearBits (v.bits idx) + back

section Trades
variable {ref : Ref} {idx a b c d : Nat} {u v w : Volume}

theorem Still.trades (still : Still ref idx v w) : Trades ref idx 0 0 v w :=
  ⟨still.unitSize, still.reads, still.sz, still.dunits, by rw [still.bits]⟩

theorem Trades.trans (first : Trades ref idx a b u v) (second : Trades ref idx c d v w) :
    Trades ref idx (a + c) (b + d) u w := by
  refine ⟨second.unitSize.trans first.unitSize, second.reads.trans first.reads, second.sz.trans first.sz,
    second.dunits.trans first.dunits, ?_⟩
  have := first.clear
  have := second.clear
  omega

/-- What a run of code that leaves the counts alone is followed by. -/
theorem Still.then (still : Still ref idx u v) (trades : Trades ref idx a b v w) : Trades ref idx a b u w := by
  have both := still.trades.trans trades
  rwa [Nat.zero_add, Nat.zero_add] at both

theorem Trades.still (trades : Trades ref idx a b u v) (still : Still ref idx v w) : Trades ref idx a b u w :=
  trades.trans still.trades

theorem allocBlock_trades {h : InodeHandle} {count block hb offset lock offset' : Nat} {out out' : List Nat}
    (run : (allocBlock h count block hb offset out lock).run v = .ok ((out', offset'), w)) :
    out.length ≤ out'.length ∧ Trades ref h.ref.idx (out'.length - out.length) 0 v w := by
  obtain ⟨_, _, start, run⟩ := Prog.bind_eq_ok run
  cases start
  dsimp only at run
  cases alloc : allocRecords count (v.inodes h.ref).sz (v.unitSize / szBitmapRec) (block * (v.unitSize / szBitmapRec)) offset
      (v.bits h.ref.idx) out with
  | mk recs found =>
    obtain ⟨out₁, offset₁⟩ := found
    rw [alloc] at run
    dsimp only at run
    obtain ⟨more, clear⟩ := allocRecords_clear alloc
    have frees : ∀ x, (do mgfsBufferFree hb lock; pure (out₁, offset₁) : M (List Nat × Nat)).run x =
        .ok ((out', offset'), w) → out' = out₁ ∧ Still ref h.ref.idx x w := by
      intro x run
      obtain ⟨_, y, free, rest⟩ := Prog.bind_eq_ok run
      cases rest
      exact ⟨rfl, still_free _ _ _ _ _ free⟩
    split at run
    · obtain ⟨_, _, first, run⟩ := Prog.bind_eq_ok run
      cases first
      obtain ⟨_, u₂, recount, run⟩ := Prog.bind_eq_ok run
      obtain ⟨_, u₃, write, run⟩ := Prog.bind_eq_ok run
      obtain ⟨rfl, last⟩ := frees u₃ run
      refine ⟨more, Trades.still ?_ last⟩
      have counts : Still ref h.ref.idx _ u₂ := still_putInode h.ref (by intro _; rfl) (by intro _; rfl) _ _ _ recount
      have writes : Still ref h.ref.idx u₂ u₃ := still_write _ _ _ _ _ write
      refine Trades.still ?_ (Still.trans _ _ _ counts writes)
      refine ⟨rfl, rfl, rfl, rfl, ?_⟩
      dsimp only
      rw [Function.update_self]
      omega
    · next same =>
      obtain ⟨rfl, last⟩ := frees _ run
      have none : out'.length - out.length = 0 := by omega
      rw [none]
      exact ⟨more, last.trades⟩

theorem allocBlocks_trades {h : InodeHandle} {count hlock n block offset : Nat} {out out' : List Nat}
    (run : (allocBlocks h count hlock n block offset out).run v = .ok (out', w)) :
    out.length ≤ out'.length ∧ Trades ref h.ref.idx (out'.length - out.length) 0 v w := by
  have nothing : ∀ (x : Volume) (n : Nat), Trades ref h.ref.idx (n - n) 0 x x := by
    intro x n
    rw [Nat.sub_self]
    exact (Still.refl x).trades
  induction n generalizing v block offset out with
  | zero =>
    cases run
    exact ⟨Nat.le_refl _, nothing _ _⟩
  | succ n ih =>
    obtain ⟨_, _, start, run⟩ := Prog.bind_eq_ok run
    cases start
    split at run
    · obtain ⟨hb, x, read, run⟩ := Prog.bind_eq_ok run
      have reads : Still ref h.ref.idx v x := still_readBlock _ _ _ _ _ _ read
      cases hb with
      | none =>
        obtain ⟨more, given⟩ := ih run
        exact ⟨more, reads.then given⟩
      | some hb =>
        obtain ⟨⟨out₁, offset₁⟩, y, inside, run⟩ := Prog.bind_eq_ok run
        obtain ⟨lock, x', y', before, body, behind⟩ := locked_inside inside
        obtain ⟨more, given⟩ := allocBlock_trades body
        obtain ⟨later, rest⟩ := ih run
        have all := (reads.then (before.then given)).still behind |>.trans rest
        refine ⟨Nat.le_trans more later, ?_⟩
        rwa [show out₁.length - out.length + (out'.length - out₁.length) = out'.length - out.length by omega] at all
    · cases run
      exact ⟨Nat.le_refl _, nothing _ _⟩

/-- What `mgfs_bitmap_alloc` returns was clear. -/
theorem bitmapAlloc_trades {h : InodeHandle} {count hlock : Nat} {out : List Nat}
    (run : (mgfsBitmapAlloc count h hlock).run v = .ok (out, w)) : Trades ref h.ref.idx out.length 0 v w := by
  obtain ⟨_, _, start, run⟩ := Prog.bind_eq_ok run
  cases start
  obtain ⟨found, x, blocks, run⟩ := Prog.bind_eq_ok run
  have given : Trades ref h.ref.idx found.length 0 v x := (allocBlocks_trades blocks).2
  split at run
  · obtain ⟨_, y, update, run⟩ := Prog.bind_eq_ok run
    cases run
    exact given.still (still_update _ _ _ _ _ update)
  · cases run
    exact given

/-- A bit that is cleared gives one clear bit back at most. -/
theorem putBit_trades (h : InodeHandle) {bitNumber : Nat} (set : v.bit h.ref bitNumber = true)
    (run : (putBit h bitNumber false).run v = .ok ((), w)) : Trades ref h.ref.idx 0 1 v w := by
  cases run
  refine ⟨rfl, rfl, field_update Inode.sz v.inodes ref h.ref rfl, field_update Inode.dunits v.inodes ref h.ref rfl, ?_⟩
  have small : bitNumber % maxBitmapBits < maxBitmapBits := Nat.mod_lt _ (by decide)
  dsimp only
  rw [Function.update_self]
  rw [Volume.bit_eq, bitOf] at set
  cases get : (v.bits h.ref.idx)[bitNumber / maxBitmapBits]? with
  | none =>
    rw [get] at set
    cases set
  | some r =>
    rw [get] at set
    have one := @BitmapRec.put_ones r (bitNumber % maxBitmapBits) false small set
    have before := r.clear_add_ones
    have after := (r.put (bitNumber % maxBitmapBits) false).clear_add_ones
    have stored := clearBits_set get (r.put (bitNumber % maxBitmapBits) false)
    obtain ⟨bound, here⟩ := List.getElem?_eq_some_iff.mp get
    rw [List.modify_eq_set_getElem?, get, Option.map_eq_map, Option.map_some, Option.getD_some]
    rw [if_neg Bool.false_ne_true] at one
    omega

theorem bitmapClear_trades {h : InodeHandle} {bitNumber hlock : Nat} {done : Bool}
    (run : (mgfsBitmapSet h bitNumber false hlock).run v = .ok (done, w)) : Trades ref h.ref.idx 0 1 v w := by
  have more : ∀ {x y : Volume}, Still ref h.ref.idx x y → Trades ref h.ref.idx 0 1 x y := by
    intro x y still
    exact ⟨still.unitSize, still.reads, still.sz, still.dunits, by rw [still.bits]; omega⟩
  obtain ⟨hb, x, record, run⟩ := Prog.bind_eq_ok run
  have reads : Still ref h.ref.idx v x := still_bitmapRecord _ _ _ _ _ _ record
  cases hb with
  | none =>
    cases run
    exact more reads
  | some hb =>
    obtain ⟨lock, y, z, before, body, behind⟩ := locked_inside run
    obtain ⟨_, _, start, body⟩ := Prog.bind_eq_ok body
    cases start
    have frees : ∀ {a : Volume}, (do mgfsBufferFree hb lock; pure true : M Bool).run a = .ok (done, z) →
        Still ref h.ref.idx a z := by
      intro a run
      obtain ⟨_, b, free, rest⟩ := Prog.bind_eq_ok run
      cases rest
      exact still_free _ _ _ _ _ free
    split at body
    · next differ =>
      obtain ⟨_, y₁, put, body⟩ := Prog.bind_eq_ok body
      obtain ⟨_, y₂, write, body⟩ := Prog.bind_eq_ok body
      obtain ⟨_, y₃, update, body⟩ := Prog.bind_eq_ok body
      have cleared : Trades ref h.ref.idx 0 1 y y₁ := putBit_trades h (by simpa using differ) put
      have writes : Still ref h.ref.idx y₁ y₂ := still_write _ _ _ _ _ write
      have updates : Still ref h.ref.idx y₂ y₃ := still_update _ _ _ _ _ update
      have rest := Still.trans _ _ _ writes (Still.trans _ _ _ updates (Still.trans _ _ _ (frees body) behind))
      exact reads.then (before.then (cleared.still rest))
    · exact more (Still.trans _ _ _ reads (Still.trans _ _ _ before (Still.trans _ _ _ (frees body) behind)))

theorem bitmapFree_trades {h : InodeHandle} {unit hlock n : Nat}
    (run : (mgfsBitmapFree h [unit] hlock).run v = .ok (n, w)) : Trades ref h.ref.idx 0 1 v w := by
  unfold mgfsBitmapFree mgfsBitmapSetArray at run
  split at run
  · obtain ⟨done, x, set, run⟩ := Prog.bind_eq_ok run
    cases run
    exact bitmapClear_trades set
  · cases run
    exact ⟨rfl, rfl, rfl, rfl, by omega⟩

end Trades

/-! ## Hanging units in -/

/-- `k` units were hung into the inode, counted in 32 bits. -/
structure Hangs (ref : Ref) (idx k : Nat) (v w : Volume) : Prop where
  unitSize : w.unitSize = v.unitSize
  reads : w.reads = v.reads
  sz : (w.inodes ref).sz = (v.inodes ref).sz
  dunits : (w.inodes ref).dunits ≡ (v.inodes ref).dunits + k [MOD 2 ^ 32]
  small : (v.inodes ref).dunits < 2 ^ 32 → (w.inodes ref).dunits < 2 ^ 32
  clear : clearBits (w.bits idx) ≤ clearBits (v.bits idx)

section Hangs
variable {ref : Ref} {idx j k : Nat} {u v w : Volume}

theorem Trades.hangs {given back : Nat} (trades : Trades ref idx given back v w) (less : back ≤ given) :
    Hangs ref idx 0 v w := by
  refine ⟨trades.unitSize, trades.reads, trades.sz, by rw [trades.dunits]; rfl, fun small => by rwa [trades.dunits], ?_⟩
  have := trades.clear
  omega

theorem Still.hangs (still : Still ref idx v w) : Hangs ref idx 0 v w := still.trades.hangs (Nat.le_refl 0)

theorem Hangs.trans (first : Hangs ref idx j u v) (second : Hangs ref idx k v w) : Hangs ref idx (j + k) u w := by
  refine ⟨second.unitSize.trans first.unitSize, second.reads.trans first.reads, second.sz.trans first.sz, ?_,
    fun small => second.small (first.small small), Nat.le_trans second.clear first.clear⟩
  rw [← Nat.add_assoc]
  exact second.dunits.trans (first.dunits.add_right k)

theorem Hangs.still (hangs : Hangs ref idx k u v) (still : Still ref idx v w) : Hangs ref idx k u w :=
  hangs.trans still.hangs

theorem Still.hung (still : Still ref idx u v) (hangs : Hangs ref idx k v w) : Hangs ref idx k u w := by
  have both := still.hangs.trans hangs
  rwa [Nat.zero_add] at both

/-- One more unit. -/
theorem count_hangs (run : (putInode ref fun inode => { inode with dunits := (inode.dunits + 1) % 2 ^ 32 }).run v = .ok ((), w)) :
    Hangs ref idx 1 v w := by
  cases run
  refine ⟨rfl, rfl, field_update Inode.sz v.inodes ref ref rfl, ?_, fun _ => ?_, Nat.le_refl _⟩
  · dsimp only
    rw [Function.update_self]
    exact Nat.mod_modEq _ _
  · dsimp only
    rw [Function.update_self]
    exact Nat.mod_lt _ (by decide)

theorem fillPlace_hangs {place : Place} {n i : Nat} {array : List Nat}
    (run : (fillPlace ref place n i array).run v = .ok ((), w)) : Hangs ref idx (min n array.length) v w := by
  induction n generalizing v i array with
  | zero =>
    rw [Nat.zero_min]
    cases array <;> cases run <;> exact (Still.refl _).hangs
  | succ n ih =>
    cases array with
    | nil =>
      cases run
      exact (Still.refl _).hangs
    | cons x rest =>
      obtain ⟨_, v₁, put, run⟩ := Prog.bind_eq_ok run
      obtain ⟨_, v₂, count, run⟩ := Prog.bind_eq_ok run
      have puts : Still ref idx v v₁ := still_put _ _ _ _ _ _ put
      have one : Hangs ref idx 1 v₁ v₂ := count_hangs count
      have all := puts.hung (one.trans (ih run))
      rwa [Nat.add_comm, ← Nat.add_min_add_right] at all

end Hangs

/-- The growth takes its units from the bitmap file `idx`, and has no shadow with that index. -/
structure Growth.From (g : Growth) (idx : Nat) : Prop where
  bitmap : g.bitmap.ref.idx = idx
  shadow : ∀ s, g.shadow = some s → s.ref.idx ≠ idx

section Append
variable {g : Growth} {idx hlock : Nat} {v w : Volume}

theorem newAddrUnit_hangs (from_idx : g.From idx) {ref : Ref} {use : Nat → M Unit}
    (uses : ∀ unit, Along (Still ref idx) (use unit)) {unit : Option Nat}
    (run : (newAddrUnit g hlock use).run v = .ok (unit, w)) : Hangs ref idx 0 v w := by
  obtain ⟨out, v₁, alloc, run⟩ := Prog.bind_eq_ok run
  have given : Trades ref idx out.length 0 v v₁ := by
    rw [← from_idx.bitmap]
    exact bitmapAlloc_trades alloc
  split at run
  · next x =>
    obtain ⟨hb, v₂, buffer, run⟩ := Prog.bind_eq_ok run
    have buffers : Still ref idx v₁ v₂ := still_alloc _ _ _ _ _ buffer
    cases hb with
    | none =>
      obtain ⟨n, v₃, free, run⟩ := Prog.bind_eq_ok run
      cases run
      have back : Trades ref idx 0 1 v₂ w := by
        rw [← from_idx.bitmap]
        exact bitmapFree_trades free
      exact ((given.still buffers).trans back).hangs (Nat.le_refl 1)
    | some _ =>
      obtain ⟨_, v₃, used, run⟩ := Prog.bind_eq_ok run
      obtain ⟨_, v₄, free, run⟩ := Prog.bind_eq_ok run
      obtain ⟨_, v₅, sync, run⟩ := Prog.bind_eq_ok run
      cases run
      have frees : Still ref idx v₃ v₄ := still_free _ _ _ _ _ free
      have rest := Still.trans _ _ _ buffers (Still.trans _ _ _ (uses x _ _ _ used)
        (Still.trans _ _ _ frees (still_sync _ _ from_idx.shadow _ _ _ _ _ sync)))
      exact (given.still rest).hangs (Nat.zero_le _)
  · cases run
    exact given.hangs (Nat.zero_le _)

theorem addPointer_hangs (from_idx : g.From idx) {ref : Ref} {place : Place} {i : Nat} {unit : Option Nat}
    (run : (addPointer g hlock place i).run v = .ok (unit, w)) : Hangs ref idx 0 v w := by
  apply newAddrUnit_hangs from_idx _ run
  intro unit
  apply still_bind (still_put _ _ _)
  intro _
  exact still_bind (still_fillUnit _ _) fun _ => still_write _ _

theorem switchLevel_hangs (from_idx : g.From idx) {ref : Ref} {unit : Option Nat}
    (run : (switchLevel g hlock).run v = .ok (unit, w)) : Hangs ref idx 0 v w := by
  apply newAddrUnit_hangs from_idx _ run
  intro unit
  have copies : ∀ n, Along (Still ref idx) (copyLocations g.inode.ref unit n) := by
    intro n
    induction n with
    | zero => exact still_pure ()
    | succ n ih =>
      apply still_bind ih
      intro _
      exact still_bind still_get fun _ => still_putBytes _ _ _ _
  apply still_bind (still_fillUnit _ _)
  intro _
  apply still_bind (copies _)
  intro _
  exact still_bind (still_write _ _) fun _ => still_putInode _ (fun _ => rfl) fun _ => rfl

/-- What is hung in at the end of a round. -/
def Round.count : Round → Nat
  | .done r => r
  | .again _ r => r

/-- From `r` units on, of the `total` there are. -/
structure HangsTo (ref : Ref) (idx r total r' : Nat) (v w : Volume) : Prop where
  more : r ≤ r'
  most : r' ≤ total
  hangs : Hangs ref idx (r' - r) v w

theorem HangsTo.stay {ref : Ref} {r total : Nat} (le : r ≤ total) (hangs : Hangs ref idx 0 v w) :
    HangsTo ref idx r total r v w :=
  ⟨Nat.le_refl r, le, by rwa [Nat.sub_self]⟩

theorem HangsTo.trans {ref : Ref} {r r₁ r₂ total : Nat} {u : Volume} (first : HangsTo ref idx r total r₁ u v)
    (second : HangsTo ref idx r₁ total r₂ v w) : HangsTo ref idx r total r₂ u w := by
  refine ⟨Nat.le_trans first.more second.more, second.most, ?_⟩
  have both := first.hangs.trans second.hangs
  have := first.more
  have := second.more
  rwa [show r₁ - r + (r₂ - r₁) = r₂ - r by omega] at both

section Loop
variable {down : Nat → List Nat → M Nat} {level : Nat} {array : List Nat}

/-- The call for the level below hangs in what it returns. -/
def Descends (g : Growth) (idx : Nat) (down : Nat → List Nat → M Nat) : Prop :=
  ∀ (base : Nat) (array : List Nat) (v : Volume) (n : Nat) (w : Volume), (down base array).run v = .ok (n, w) →
    n ≤ array.length ∧ Hangs g.inode.ref idx n v w

theorem appendAt_hangs (from_idx : g.From idx) (descends : Descends g idx down) {base n r : Nat} {place : Place}
    (le : r ≤ array.length) {round : Round}
    (run : (appendAt down g level hlock base place n r array).run v = .ok (round, w)) :
    HangsTo g.inode.ref idx r array.length round.count v w := by
  obtain ⟨_, _, start, run⟩ := Prog.bind_eq_ok run
  cases start
  dsimp only at run
  generalize firstFree (place.table v) n = i at run
  -- what follows the call for the level below
  have pointer : ∀ {r₁ : Nat} {u : Volume} {goOn : Option Nat → M Round},
      HangsTo g.inode.ref idx r array.length r₁ v u →
      goOn none = pure (Round.done r₁) → (∀ unit, goOn (some unit) = pure (Round.again base r₁)) →
      (if 0 < i ∧ array.length ≤ r₁ then pure (Round.done r₁) else addPointer g hlock place i >>= goOn : M Round).run u =
        .ok (round, w) →
      HangsTo g.inode.ref idx r array.length round.count v w := by
    intro r₁ u goOn first stops goesOn run
    split at run
    · cases run
      exact first
    · obtain ⟨unit, v₂, pointer, run⟩ := Prog.bind_eq_ok run
      have hangs : Hangs g.inode.ref idx 0 _ _ := addPointer_hangs from_idx pointer
      have next := HangsTo.stay first.most hangs
      cases unit with
      | none =>
        rw [stops] at run
        cases run
        exact first.trans next
      | some unit =>
        rw [goesOn] at run
        cases run
        exact first.trans next
  split at run
  · split at run
    · split at run
      · obtain ⟨m, v₂, call, below⟩ := Prog.bind_eq_ok run
        obtain ⟨few, hangs⟩ := descends _ _ _ _ _ call
        rw [List.length_drop] at few
        refine pointer ⟨Nat.le_add_right r m, by omega, ?_⟩ rfl (fun _ => rfl) below
        rwa [Nat.add_sub_cancel_left]
      · exact pointer (HangsTo.stay le (Still.refl _).hangs) rfl (fun _ => rfl) run
    · obtain ⟨_, v₁, fill, run⟩ := Prog.bind_eq_ok run
      have fills : Hangs g.inode.ref idx _ v v₁ := fillPlace_hangs fill
      rw [List.length_drop] at fills
      have done : ∀ {u : Volume}, Still g.inode.ref idx v₁ u →
          HangsTo g.inode.ref idx r array.length (r + min (n - i) (array.length - r)) v u := by
        intro u still
        refine ⟨Nat.le_add_right _ _, by omega, ?_⟩
        rw [Nat.add_sub_cancel_left]
        exact fills.still still
      cases place with
      | locations _ =>
        cases run
        exact done (Still.refl _)
      | unit u =>
        obtain ⟨_, v₂, write, run⟩ := Prog.bind_eq_ok run
        cases run
        exact done (still_write _ _ _ _ _ write)
  · split at run
    · obtain ⟨unit, v₁, switch, run⟩ := Prog.bind_eq_ok run
      have hangs : Hangs g.inode.ref idx 0 _ _ := switchLevel_hangs from_idx switch
      have next := HangsTo.stay le hangs
      cases unit <;> cases run <;> exact next
    · cases run
      exact HangsTo.stay le (Still.refl _).hangs

theorem appendLoop_hangs (from_idx : g.From idx) (descends : Descends g idx down) {fuel base r r' : Nat}
    {hb hb' : Option Nat} (le : r ≤ array.length)
    (run : (appendLoop down g level hlock array fuel base r hb).run v = .ok ((r', hb'), w)) :
    HangsTo g.inode.ref idx r array.length r' v w := by
  induction fuel generalizing v base r hb with
  | zero => cases run
  | succ fuel ih =>
    unfold appendLoop at run
    split at run
    · obtain ⟨_, _, start, run⟩ := Prog.bind_eq_ok run
      cases start
      split at run
      · obtain ⟨round, v₁, at_place, run⟩ := Prog.bind_eq_ok run
        have first := appendAt_hangs from_idx descends le at_place
        cases round with
        | done r₁ =>
          cases run
          exact first
        | again base₁ r₁ => exact first.trans (ih first.most run)
      · obtain ⟨buffer, v₁, alloc, run⟩ := Prog.bind_eq_ok run
        have buffers : Still g.inode.ref idx v v₁ := still_alloc _ _ _ _ _ alloc
        have start := HangsTo.stay le buffers.hangs
        cases buffer with
        | none =>
          cases run
          exact start
        | some unit =>
          obtain ⟨round, v₂, at_place, run⟩ := Prog.bind_eq_ok run
          have first := start.trans (appendAt_hangs from_idx descends le at_place)
          cases round with
          | done r₁ =>
            cases run
            exact first
          | again base₁ r₁ => exact first.trans (ih first.most run)
    · cases run
      exact HangsTo.stay le (Still.refl _).hangs

/-- What the loop over the rounds comes to, with the buffer handed back. -/
theorem appendRounds_hangs (from_idx : g.From idx) (descends : Descends g idx down) {base n : Nat}
    (run : (do
      let v ← Prog.get
      let (r, hb) ← appendLoop down g level hlock array (rounds g v array) base 0 none
      mgfsBufferRelease hb hlock
      return r : M Nat).run v = .ok (n, w)) : n ≤ array.length ∧ Hangs g.inode.ref idx n v w := by
  obtain ⟨_, _, start, run⟩ := Prog.bind_eq_ok run
  cases start
  obtain ⟨⟨r, hb⟩, v₁, loop, run⟩ := Prog.bind_eq_ok run
  obtain ⟨_, v₂, release, run⟩ := Prog.bind_eq_ok run
  cases run
  have hung := appendLoop_hangs from_idx descends (Nat.zero_le _) loop
  refine ⟨hung.most, ?_⟩
  exact hung.hangs.still (still_release _ _ _ _ _ release)

end Loop

/-- `inode_append_block` for a level hangs in what it returns. -/
theorem inodeAppendBlock_hangs (from_idx : g.From idx) (level : Nat) : Descends g idx (inodeAppendBlock g hlock level) := by
  induction level with
  | zero =>
    intro base array v n w run
    refine appendRounds_hangs from_idx ?_ run
    intro base array v n w run
    cases run
    exact ⟨Nat.zero_le _, (Still.refl _).hangs⟩
  | succ level ih =>
    intro base array v n w run
    exact appendRounds_hangs from_idx ih run

/-- Units were hung in, all of them clear in the bitmap file before. -/
structure Appends (ref : Ref) (idx k : Nat) (v w : Volume) : Prop where
  unitSize : w.unitSize = v.unitSize
  reads : w.reads = v.reads
  sz : (w.inodes ref).sz = (v.inodes ref).sz
  dunits : (w.inodes ref).dunits ≡ (v.inodes ref).dunits + k [MOD 2 ^ 32]
  small : (v.inodes ref).dunits < 2 ^ 32 → (w.inodes ref).dunits < 2 ^ 32
  clear : clearBits (w.bits idx) + k ≤ clearBits (v.bits idx)

theorem Still.appends {ref : Ref} (still : Still ref idx v w) : Appends ref idx 0 v w :=
  ⟨still.unitSize, still.reads, still.sz, by rw [still.dunits]; rfl, fun small => by rwa [still.dunits], by rw [still.bits]; rfl⟩

theorem Appends.trans {ref : Ref} {j k : Nat} {u : Volume} (first : Appends ref idx j u v) (second : Appends ref idx k v w) :
    Appends ref idx (j + k) u w := by
  refine ⟨second.unitSize.trans first.unitSize, second.reads.trans first.reads, second.sz.trans first.sz, ?_,
    fun small => second.small (first.small small), ?_⟩
  · rw [← Nat.add_assoc]
    exact second.dunits.trans (first.dunits.add_right k)
  · have := first.clear
    have := second.clear
    omega

/-- A count of 32 bits is exact as long as the units that it counts were clear among so many. -/
theorem count_exact {before after clear left k : Nat} (same : after ≡ before + k [MOD 2 ^ 32])
    (small : before < 2 ^ 32 → after < 2 ^ 32) (taken : left + k ≤ clear) (room : before + clear < 2 ^ 32) :
    after = before + k := by
  unfold Nat.ModEq at same
  rwa [Nat.mod_eq_of_lt (small (by omega)), Nat.mod_eq_of_lt (by omega)] at same

theorem appendBatch_appends (from_idx : g.From idx) {pattern : Option Byte} {nblocks n : Nat}
    (run : (appendBatch g pattern nblocks hlock).run v = .ok (n, w)) : Appends g.inode.ref idx n v w := by
  obtain ⟨array, v₁, alloc, run⟩ := Prog.bind_eq_ok run
  have given : Trades g.inode.ref idx array.length 0 v v₁ := by
    rw [← from_idx.bitmap]
    exact bitmapAlloc_trades alloc
  split at run
  · cases run
    have clear := given.clear
    exact ⟨given.unitSize, given.reads, given.sz, by rw [given.dunits]; rfl, fun small => by rwa [given.dunits], by omega⟩
  · have rest : ∀ {u : Volume}, Still g.inode.ref idx v₁ u →
        (do
          let v ← Prog.get
          let r ← inodeAppendBlock g hlock (v.inodes g.inode.ref).level ((v.inodes g.inode.ref).location 0) array
          syncShadow g.bitmap g.shadow hlock (array.take r)
          return r : M Nat).run u = .ok (n, w) → Appends g.inode.ref idx n v w := by
      intro u still run
      obtain ⟨_, _, start, run⟩ := Prog.bind_eq_ok run
      cases start
      obtain ⟨r, v₂, append, run⟩ := Prog.bind_eq_ok run
      obtain ⟨_, v₃, sync, run⟩ := Prog.bind_eq_ok run
      cases run
      obtain ⟨few, hangs⟩ := inodeAppendBlock_hangs from_idx _ _ _ _ _ _ append
      have syncs : Still g.inode.ref idx v₂ w := still_sync _ _ from_idx.shadow _ _ _ _ _ sync
      have given := given.still still
      have hung := hangs.still syncs
      have clear := given.clear
      have later := hung.clear
      refine ⟨hung.unitSize.trans given.unitSize, hung.reads.trans given.reads, hung.sz.trans given.sz, ?_, ?_, by omega⟩
      · rw [← given.dunits]
        exact hung.dunits
      · rw [← given.dunits]
        exact hung.small
    cases pattern with
    | none => exact rest (Still.refl _) run
    | some b =>
      obtain ⟨_, v₂, fill, run⟩ := Prog.bind_eq_ok run
      exact rest (still_fillUnits _ _ _ _ _ _ fill) run

theorem appendBatches_appends (from_idx : g.From idx) {pattern : Option Byte} {nblocks fuel r n : Nat}
    (run : (appendBatches g pattern nblocks hlock fuel r).run v = .ok (n, w)) :
    r ≤ n ∧ Appends g.inode.ref idx (n - r) v w := by
  have nothing : ∀ x : Volume, r ≤ r ∧ Appends g.inode.ref idx (r - r) x x := by
    intro x
    rw [Nat.sub_self]
    exact ⟨Nat.le_refl r, (Still.refl x).appends⟩
  induction fuel generalizing v r with
  | zero =>
    cases run
    exact nothing _
  | succ fuel ih =>
    unfold appendBatches at run
    split at run
    · obtain ⟨m, v₁, batch, run⟩ := Prog.bind_eq_ok run
      have first := appendBatch_appends from_idx batch
      split at run
      · next none =>
        cases run
        rw [none] at first
        rw [Nat.sub_self]
        exact ⟨Nat.le_refl _, first⟩
      · obtain ⟨more, rest⟩ := ih run fun x => by rw [Nat.sub_self]; exact ⟨Nat.le_refl _, (Still.refl x).appends⟩
        have both := first.trans rest
        rw [show m + (n - (r + m)) = n - r by omega] at both
        exact ⟨by omega, both⟩
    · cases run
      exact nothing _

end Append

/-- Appending blocks hangs in what it returns. -/
theorem appendBlocks_appends {h : InodeHandle} {nblocks hlock n : Nat} {pattern : Option Byte} {v w : Volume}
    (run : (appendBlocks h nblocks pattern hlock).run v = .ok (n, w)) : Appends h.ref spaceBitmapIdx n v w := by
  obtain ⟨hbitmap, v₁, opens, run⟩ := Prog.bind_eq_ok run
  have opened : Still h.ref spaceBitmapIdx v v₁ := still_metaOpen _ _ _ _ _ opens
  cases hbitmap with
  | none =>
    cases run
    exact opened.appends
  | some hbitmap =>
    obtain ⟨hshadow, v₂, shadows, run⟩ := Prog.bind_eq_ok run
    obtain ⟨r, v₃, batches, run⟩ := Prog.bind_eq_ok run
    obtain ⟨_, v₄, closes, run⟩ := Prog.bind_eq_ok run
    obtain ⟨_, v₅, closed, run⟩ := Prog.bind_eq_ok run
    cases run
    have from_idx : Growth.From ⟨h, hbitmap, hshadow⟩ spaceBitmapIdx := by
      refine ⟨congrArg Ref.idx (metaOpen_ref opens), ?_⟩
      rintro s rfl
      rw [congrArg Ref.idx (openShadow_ref shadows)]
      decide
    have before : Still h.ref spaceBitmapIdx v v₂ := Still.trans _ _ _ opened (still_openShadow _ _ _ _ _ shadows)
    have behind : Still h.ref spaceBitmapIdx v₃ w :=
      Still.trans _ _ _ (still_closeShadow _ _ _ _ _ closes) (still_close _ _ _ _ _ closed)
    have hung : Appends h.ref spaceBitmapIdx (n - 0) v₂ v₃ := (appendBatches_appends from_idx batches).2
    have all := (before.appends.trans hung).trans behind.appends
    rwa [Nat.zero_add, Nat.sub_zero, Nat.add_zero] at all

end PreTeO.Mgfs3
