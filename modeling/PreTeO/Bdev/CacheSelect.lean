import PreTeO.Bdev.CacheInv

/-!
# Selecting a chunk

`select_chunk` finds the chunk that holds the block, else a chunk that holds nothing, else no chunk
at all: a present chunk is never given up for another piece. The new time stamp of the chunk found is
nothing the invariant reads.
-/

namespace PreTeO.Bdev
set_option autoImplicit false
open PreTeO.Lib

/-! ## Selection -/

/-- What `select_chunk` may answer for block `b`. -/
inductive Selection (s : Cache) (b : Nat) : Option Nat → Prop
  | holder {c : Nat} : c < s.geo.numChunks → s.Present (s.geo.addr c) → s.Covers (s.geo.addr c) b →
      Selection s b (some (s.geo.addr c))
  | empty {c : Nat} : c < s.geo.numChunks → ¬ s.Present (s.geo.addr c) →
      (∀ d, d < s.geo.numChunks → s.Present (s.geo.addr d) → ¬ s.Covers (s.geo.addr d) b) →
      Selection s b (some (s.geo.addr c))
  | full : (∀ d, d < s.geo.numChunks → s.Present (s.geo.addr d) ∧ ¬ s.Covers (s.geo.addr d) b) →
      Selection s b none

/-- A chunk that holds nothing. -/
def Cache.Idle (s : Cache) (p : Nat) : Prop :=
  ∃ c, c < s.geo.numChunks ∧ p = s.geo.addr c ∧ ¬ s.Present p

section Select

variable {s : Cache} {disk : Nat → Byte}

/-- The 32-bit bounds of a present chunk are its real bounds. -/
theorem Inv.bounds (inv : Inv s disk) {c : Nat} (hc : c < s.geo.numChunks)
    (present : s.Present (s.geo.addr c)) :
    s.bstart (s.geo.addr c) % 2 ^ 32 = s.bstart (s.geo.addr c) ∧
      (s.bstart (s.geo.addr c) + s.geo.chunkSize) % 2 ^ 32 = s.bstart (s.geo.addr c) + s.geo.chunkSize := by
  have start := (inv.loaded c hc present).start
  have blocks := inv.fits.blocks
  have pos := inv.fits.chunk_pos
  exact ⟨Nat.mod_eq_of_lt (by omega), Nat.mod_eq_of_lt (by omega)⟩

/-- From chunk `nc` on, with the candidates of the chunks before it. -/
theorem selectLoop_selection (inv : Inv s disk) (b : Nat) :
    ∀ fuel nc free minRef tmexp, nc ≤ s.geo.numChunks → s.geo.numChunks - nc < fuel →
      (∀ p, free = some p → s.Idle p) → (∀ p, minRef = some p → s.Idle p) →
      (∀ d, d < nc → s.Present (s.geo.addr d) → ¬ s.Covers (s.geo.addr d) b) →
      (free = none → ∀ d, d < nc → s.Present (s.geo.addr d)) →
      Selection s b (s.selectLoop b fuel nc free minRef tmexp) := by
  intro fuel
  induction fuel with
  | zero => intro nc free minRef tmexp _ fuel; omega
  | succ fuel ih =>
    intro nc free minRef tmexp le enough idleFree idleMin uncovered allPresent
    by_cases more : nc < s.geo.numChunks
    · rw [Cache.selectLoop, inv.fits.getChunk more]
      by_cases present : s.Present (s.geo.addr nc)
      · obtain ⟨low, high⟩ := inv.bounds more present
        simp only [present, if_true, low, high]
        split
        · next covers => exact .holder more present covers
        · next notCovers =>
          apply ih _ _ _ _ more (by omega) idleFree idleMin
          · intro d hd here
            rcases Nat.lt_succ_iff_lt_or_eq.mp hd with old | rfl
            · exact uncovered d old here
            · exact notCovers
          · intro none d hd
            rcases Nat.lt_succ_iff_lt_or_eq.mp hd with old | rfl
            · exact allPresent none d old
            · exact present
      · have idle : s.Idle (s.geo.addr nc) := ⟨nc, more, rfl, present⟩
        have idleOr : ∀ p, free.or (some (s.geo.addr nc)) = some p → s.Idle p := by
          intro p h
          cases free with
          | none =>
            cases h
            exact idle
          | some q => exact idleFree p h
        have uncoveredNext : ∀ d, d < nc + 1 → s.Present (s.geo.addr d) → ¬ s.Covers (s.geo.addr d) b := by
          intro d hd here
          rcases Nat.lt_succ_iff_lt_or_eq.mp hd with old | rfl
          · exact uncovered d old here
          · exact absurd here present
        have someOr : free.or (some (s.geo.addr nc)) = none → ∀ d, d < nc + 1 → s.Present (s.geo.addr d) := by
          intro h
          cases free <;> cases h
        simp only [present, if_false]
        split
        · exact ih _ _ _ _ more (by omega) idleOr (fun p h => by cases h; exact idle) uncoveredNext someOr
        · exact ih _ _ _ _ more (by omega) idleOr idleMin uncoveredNext someOr
    · have done : nc = s.geo.numChunks := by omega
      rw [Cache.selectLoop, Geometry.getChunk, if_neg more]
      subst done
      cases result : free.or minRef with
      | none =>
        have nothing : free = none := by
          cases free
          · rfl
          · cases result
        exact .full fun d hd => ⟨allPresent nothing d hd, uncovered d hd (allPresent nothing d hd)⟩
      | some p =>
        have idle : s.Idle p := by
          cases free with
          | none => exact idleMin p result
          | some q =>
            cases result
            exact idleFree p rfl
        obtain ⟨c, hc, rfl, absent⟩ := idle
        exact .empty hc absent uncovered

theorem Inv.selection (inv : Inv s disk) (b : Nat) : Selection s b (s.selected b) := by
  apply selectLoop_selection inv b _ _ _ _ _ (Nat.zero_le _) (by omega)
  · intro p h
    cases h
  · intro p h
    cases h
  · intro d hd
    omega
  · intro _ d hd
    omega

/-- The chunk that holds a block is found again. -/
theorem Inv.selected_holder (inv : Inv s disk) {b c : Nat} (hc : c < s.geo.numChunks)
    (present : s.Present (s.geo.addr c)) (covers : s.Covers (s.geo.addr c) b) :
    s.selected b = some (s.geo.addr c) := by
  have selection := inv.selection b
  generalize s.selected b = r at selection
  cases selection with
  | @holder d hd here also =>
    have same : c = d := by
      apply inv.unique c d hc hd present here
      by_contra ne
      simp only [Cache.Covers] at covers also
      rcases pieces_apart (inv.loaded c hc present).aligned (inv.loaded d hd here).aligned ne with h | h <;>
        omega
    rw [same]
  | empty _ _ none => exact absurd covers (none c hc present)
  | full all => exact absurd covers (all c hc).2

end Select

/-! ## Time stamps -/

/-- A new time stamp changes nothing the invariant reads. -/
theorem stamp_alike {s : Cache} {c d : Nat} (fits : s.geo.Fits s.dev.nblocks) :
    Alike s (s.stamp (s.geo.addr c)) (s.geo.addr d) := by
  have states := fits.states
  by_cases same : d = c
  · subst same
    refine ⟨fun i _ high => stamp_out i (by omega), fun o _ => ?_, fun i _ => ?_⟩
    · rw [Cache.pair, stamp_out _ (by simp only [getBstatePtr, szChunkHdr]; omega), Cache.pair]
    · apply stamp_out
      simp only [Geometry.getCachePtr, szChunkHdr] at *
      omega
  · apply ChunkSame.alike _ fits
    intro i low high
    apply stamp_out
    have size := s.geo.chunkSz_eq
    simp only [szChunkHdr] at states
    rcases s.geo.addr_apart same with h | h <;> omega

theorem Inv.stamp {s : Cache} {disk : Nat → Byte} (inv : Inv s disk) (c : Nat) :
    Inv (s.stamp (s.geo.addr c)) disk :=
  inv.frame rfl rfl fun _ _ => stamp_alike inv.fits

end PreTeO.Bdev
