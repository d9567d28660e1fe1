import PreTeO.Bdev.CacheRun

/-!
# Buffers on loan

Between `cache_buffer_lock` and `cache_buffer_unlock` a request holds the mutex of its chunk, and
other requests and the flush go on with the other chunks. The locks, copies and unlocks of all
requests interleave freely; a lock of a chunk on loan waits. A chunk on loan always holds its block,
so what a lock finds is decided by the chunks that hold nothing.
-/

namespace PreTeO.Bdev
set_option autoImplicit false
open PreTeO.Lib

/-- A buffer on loan for the block a request asked for. -/
structure Loan where
  block : Nat
  buffer : Buffer

/-- A cache with its outstanding requests. -/
structure Shared where
  cache : Cache
  disk : Nat → Byte
  loans : List Loan

/-- What the requests and the flush thread do. -/
inductive Act where
  /-- `cache_buffer_lock` for a block -/
  | lock (block : Nat)
  /-- the copy of an outstanding request, with `cache_dirty` if it is a write -/
  | transfer (k : Nat) (write : Bool) (offset nbytes : Nat) (user : Nat → Byte)
  /-- `cache_buffer_unlock` by an outstanding request -/
  | unlock (k : Nat)
  /-- `cache_flush` at one chunk -/
  | flush (num : Nat)

/-- No outstanding request holds the mutex of the chunk at `p`. -/
def Shared.Free (h : Shared) (p : Nat) : Prop := ∀ l ∈ h.loans, l.buffer.chunk ≠ p

instance (h : Shared) (p : Nat) : Decidable (h.Free p) := inferInstanceAs (Decidable (∀ l ∈ h.loans, _))

def Shared.step (h : Shared) : Act → Option Shared
  | .lock block =>
    match h.cache.bufferLock lockFuel block with
    | none => none
    | some (none, s) => some { h with cache := s }
    | some (some buf, s) => if h.Free buf.chunk then some ⟨s, h.disk, ⟨block, buf⟩ :: h.loans⟩ else none
  | .transfer k write offset nbytes user =>
    match h.loans[k]? with
    | none => none
    | some l =>
      let (_, s) := h.cache.copy write user 0 l.buffer offset nbytes
      let s := if write then s.dirty l.buffer l.block else s
      some { h with
        cache := s
        disk := after write h.disk (l.block * h.cache.geo.blockSize + offset) nbytes user }
  | .unlock k =>
    match h.loans[k]? with
    | none => none
    | some l =>
      -- the mutex is released only if the chunk is found again
      let loans := if h.cache.selected l.block = some l.buffer.chunk then h.loans.eraseIdx k else h.loans
      some { h with cache := h.cache.bufferUnlock l.block, loans := loans }
  | .flush num =>
    match h.cache.geo.getChunk num with
    | none => none
    | some p => if h.Free p then some { h with cache := h.cache.flushChunk p } else none

/-- A write that stays inside the chunk on loan, its states and the device. -/
def Loan.Writable (s : Cache) (l : Loan) (offset nbytes : Nat) : Prop :=
  s.geo.Inside l.block offset nbytes ∧ s.geo.MarksFit l.block ∧
    l.block * s.geo.blockSize + offset + nbytes ≤ s.dev.nblocks * s.geo.blockSize

instance (s : Cache) (l : Loan) (offset nbytes : Nat) : Decidable (l.Writable s offset nbytes) :=
  inferInstanceAs (Decidable (_ ∧ _))

/-- Any lock, read, unlock and flush, and the writes that stay where they belong. -/
def Shared.Ok (h : Shared) : Act → Prop
  | .lock block => block < 2 ^ 32
  | .transfer k write offset nbytes _ => write = true → ∀ l ∈ h.loans[k]?, l.Writable h.cache offset nbytes
  | .unlock _ => True
  | .flush _ => True

instance (h : Shared) : (a : Act) → Decidable (h.Ok a)
  | .lock block => inferInstanceAs (Decidable (block < 2 ^ 32))
  | .transfer k write offset nbytes _ =>
    inferInstanceAs (Decidable (write = true → ∀ l ∈ h.loans[k]?, l.Writable h.cache offset nbytes))
  | .unlock _ => inferInstanceAs (Decidable True)
  | .flush _ => inferInstanceAs (Decidable True)

def Shared.start (g : Geometry) (d : Device) (tsc : Nat → Nat) : Shared := ⟨alloc g d tsc, d.bytes, []⟩

/-! ## Loans stay valid -/

/-- The chunk on loan holds the block, and the buffer is the block's. -/
def Loan.Valid (s : Cache) (l : Loan) : Prop :=
  ∃ c, c < s.geo.numChunks ∧ s.Present (s.geo.addr c) ∧ s.Covers (s.geo.addr c) l.block ∧
    l.block < s.dev.nblocks ∧ l.buffer = s.bufferAt (s.geo.addr c) l.block

/-- The invariant of a shared cache. -/
structure Shared.Holds (h : Shared) : Prop where
  inv : Inv h.cache h.disk
  loans : ∀ l ∈ h.loans, l.Valid h.cache

/-- Chunks keep their pieces. -/
structure Steady (s s' : Cache) : Prop where
  geo : s'.geo = s.geo
  nblocks : s'.dev.nblocks = s.dev.nblocks
  keep : ∀ c, c < s.geo.numChunks → s.Present (s.geo.addr c) →
    s'.Present (s.geo.addr c) ∧ s'.bstart (s.geo.addr c) = s.bstart (s.geo.addr c)

theorem Grows.steady {s s' : Cache} {b : Nat} (h : Grows s s' b) : Steady s s' :=
  ⟨h.geo, by rw [h.dev], h.keep⟩

theorem Loan.Valid.steady {s s' : Cache} {l : Loan} (valid : l.Valid s) (h : Steady s s') : l.Valid s' := by
  obtain ⟨c, hc, present, covers, inside, buffer⟩ := valid
  obtain ⟨here, start⟩ := h.keep c hc present
  rw [← h.geo] at hc here start
  refine ⟨c, hc, here, ?_, by rw [h.nblocks]; exact inside, ?_⟩
  · rw [Cache.Covers, start, h.geo]
    exact covers
  · rw [buffer, Cache.bufferAt, Cache.bufferAt, start, h.geo]

theorem Shared.Holds.steady {h : Shared} {s' : Cache} {disk' : Nat → Byte} {loans : List Loan}
    (holds : h.Holds) (inv : Inv s' disk') (steady : Steady h.cache s') (fewer : ∀ l ∈ loans, l ∈ h.loans) :
    Shared.Holds ⟨s', disk', loans⟩ :=
  ⟨inv, fun l member => (holds.loans l (fewer l member)).steady steady⟩

section Step

variable {h t : Shared}

theorem Shared.Holds.lock {b : Nat} (holds : h.Holds) (small : b < 2 ^ 32) (step : h.step (.lock b) = some t) :
    t.Holds := by
  obtain ⟨out, s', lock, locked⟩ := holds.inv.bufferLock b small
  have steady := locked.grows.steady
  cases out with
  | none =>
    simp only [Shared.step, lock, Option.some.injEq] at step
    subst step
    exact holds.steady locked.inv steady fun _ => id
  | some buf =>
    simp only [Shared.step, lock] at step
    split at step
    · cases step
      refine ⟨locked.inv, fun l member => ?_⟩
      rcases List.mem_cons.mp member with rfl | old
      · obtain ⟨result, inv, grows⟩ := locked
        have geo := grows.geo
        cases result with
        | @granted c hc _ inside present covers =>
          rw [← geo] at hc present covers
          rw [← grows.dev] at inside
          exact ⟨c, hc, present, covers, inside, by rw [geo]⟩
      · exact (holds.loans l old).steady steady
    · cases step

theorem Shared.Holds.transfer {k offset nbytes : Nat} {write : Bool} {user : Nat → Byte} (holds : h.Holds)
    (meets : h.Ok (.transfer k write offset nbytes user))
    (step : h.step (.transfer k write offset nbytes user) = some t) : t.Holds := by
  cases found : h.loans[k]? with
  | none =>
    simp only [Shared.step, found] at step
    cases step
  | some l =>
    simp only [Shared.step, found, Option.some.injEq] at step
    subst step
    obtain ⟨c, hc, present, covers, inside, buffer⟩ := holds.loans l (List.mem_of_getElem? found)
    rw [buffer]
    have inv := holds.inv
    have start := (inv.loaded c hc present).piece inv.fits covers
    cases write with
    | true =>
      obtain ⟨room, marks, range⟩ := meets rfl l (Option.mem_def.mpr found)
      obtain ⟨after, grows⟩ := inv.writeRound (f := user) hc present covers inside room range marks
      simp only [copy_write, Nat.zero_add, if_true, start]
      exact holds.steady after grows.steady fun _ => id
    | false =>
      simp only [copy_read, Bool.false_eq_true, if_false]
      exact holds.steady (inv.touch _) ⟨rfl, rfl, fun _ _ here => ⟨here, rfl⟩⟩ fun _ => id

theorem Shared.Holds.unlock {k : Nat} (holds : h.Holds) (step : h.step (.unlock k) = some t) : t.Holds := by
  cases found : h.loans[k]? with
  | none =>
    simp only [Shared.step, found] at step
    cases step
  | some l =>
    simp only [Shared.step, found, Option.some.injEq] at step
    subst step
    obtain ⟨after, grows⟩ := holds.inv.bufferUnlock l.block
    apply holds.steady after grows.steady
    intro x member
    split at member
    · exact List.mem_of_mem_eraseIdx member
    · exact member

theorem Shared.Holds.flush {num : Nat} (holds : h.Holds) (step : h.step (.flush num) = some t) : t.Holds := by
  have inv := holds.inv
  by_cases hc : num < h.cache.geo.numChunks
  · simp only [Shared.step, inv.fits.getChunk hc] at step
    split at step
    · cases step
      by_cases present : h.cache.Present (h.cache.geo.addr num)
      · have flushed := (inv.loaded num hc present).flushChunk inv.fits present
        refine holds.steady (flushed.inv inv hc present) ⟨flushed.geo, flushed.nblocks, ?_⟩ fun _ => id
        intro c _ here
        by_cases same : c = num
        · subst same
          exact ⟨flushed.present, flushed.bstart⟩
        · have alike := flushed.other inv same
          exact ⟨alike.present.mpr here, alike.head.bstart⟩
      · have clean : ¬ h.cache.Dirty (h.cache.geo.addr num) := by
          rw [Cache.Dirty, inv.empty num hc present]
          exact fun h => h rfl
        rw [flushChunk_clean clean]
        exact holds
    · cases step
  · simp only [Shared.step, Geometry.getChunk, if_neg hc] at step
    cases step

/-- Every step keeps the invariant. -/
theorem Shared.Holds.step {a : Act} (holds : h.Holds) (meets : h.Ok a) (step : h.step a = some t) :
    t.Holds := by
  cases a with
  | lock block => exact holds.lock meets step
  | transfer k write offset nbytes user => exact holds.transfer meets step
  | unlock k => exact holds.unlock step
  | flush num => exact holds.flush step

end Step

theorem shared_holds {g : Geometry} {d : Device} {tsc : Nat → Nat} {h : Shared} (fits : g.Fits d.nblocks)
    (run : Reach Shared.step Shared.Ok (Shared.start g d tsc) h) : h.Holds := by
  have start : (Shared.start g d tsc).Holds := ⟨alloc_inv tsc fits, fun l member => by cases member⟩
  exact run.invariant start fun h a t holds meets step => holds.step meets step

/-! ## Availability -/

/-- `cache_buffer_lock` ends with a buffer of at least one block, in the chunk that held the block
before if there was one. Waiting for that chunk's mutex changes nothing of this. -/
def Cache.Serves (s : Cache) (b : Nat) : Prop :=
  ∃ buf s', s.bufferLock lockFuel b = some (some buf, s') ∧ 0 < buf.bcount ∧
    ∃ c, c < s.geo.numChunks ∧ buf.chunk = s.geo.addr c ∧ s'.Present (s.geo.addr c) ∧
      s'.Covers (s.geo.addr c) b ∧
      ∀ d, d < s.geo.numChunks → s.Present (s.geo.addr d) → s.Covers (s.geo.addr d) b → d = c

theorem Inv.serves_iff {s : Cache} {disk : Nat → Byte} {b : Nat} (inv : Inv s disk) (inside : b < s.dev.nblocks) :
    s.Serves b ↔ s.Room b := by
  have blocks := inv.fits.blocks
  obtain ⟨out, s', lock, result, inv', grows⟩ := inv.bufferLock b (by omega)
  cases result with
  | full none =>
    constructor
    · rintro ⟨buf, u, other, _⟩
      cases lock.symm.trans other
    · rintro ⟨c, hc, usable⟩
      exact absurd usable (none c hc)
  | beyond outside => omega
  | @granted c hc usable _ present covers =>
    refine ⟨fun _ => ⟨c, hc, usable⟩, fun _ => ⟨_, s', lock, ?_, c, hc, rfl, present, covers, ?_⟩⟩
    · have := covers.2
      have pos := inv.fits.chunk_pos
      simp only [Cache.bufferAt]
      omega
    · intro d hd here also
      obtain ⟨hereD, startD⟩ := grows.keep d hd here
      apply grows.single inv' hd hc hereD present _ covers
      rw [Cache.Covers, startD, grows.geo]
      exact also

end PreTeO.Bdev
