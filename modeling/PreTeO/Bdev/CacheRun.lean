import PreTeO.Lib.Run
import PreTeO.Bdev.CacheRequest

/-!
# Runs of the cache

The history of a run is the device as its users see it: the device's first bytes with every write
applied. A cache in front of the device is transparent when each request is answered from the
history, and its flush is complete when the device has caught up with it.
-/

namespace PreTeO.Bdev
set_option autoImplicit false
open PreTeO.Lib

/-- A cache and the history of its requests. -/
structure History where
  cache : Cache
  disk : Nat → Byte

/-- What a request does to the device as its users see it. -/
def Request.effect (g : Geometry) (disk : Nat → Byte) : Request → Nat → Byte
  | .read _ _ _ => disk
  | .write block offset size data => Mem.blit disk (block * g.blockSize + offset) size data
  | .flush => disk

/-- What its users expect to get. -/
def Request.Answered (g : Geometry) (disk : Nat → Byte) (reply : Reply) : Request → Prop
  | .read block offset size =>
    reply.count = size ∧ ∀ i, i < size → reply.user i = disk (block * g.blockSize + offset + i)
  | .write _ _ size _ => reply.count = size
  | .flush => True

/-- `cache_ioctl` in a run. -/
def History.step (h : History) (r : Request) : Option History :=
  (h.cache.ioctl r).map fun out => ⟨out.2, r.effect h.cache.geo h.disk⟩

/-- The cache holds its history. -/
def History.Holds (h : History) : Prop := Inv h.cache h.disk

/-- A fresh cache. -/
def History.start (g : Geometry) (d : Device) (tsc : Nat → Nat) : History := ⟨alloc g d tsc, d.bytes⟩

/-- The request is answered from the history and touches the chunks only where they keep the data and
the states of its blocks. -/
def Transparent (h : History) (r : Request) : Prop :=
  ∃ reply s', h.cache.ioctl r = some (reply, s') ∧ r.Answered h.cache.geo h.disk reply ∧
    ∀ a ∈ s'.log, a ∈ h.cache.log ∨ a.Inside h.cache.geo

/-- The requests on the device. -/
def Request.InRange (s : Cache) : Request → Prop
  | .read block offset size => s.InRange block offset size
  | .write block offset size _ => s.InRange block offset size
  | .flush => True

/-- The requests that are served right. -/
def Request.Sound (s : Cache) : Request → Prop
  | .read block offset size => s.Sound false block offset size
  | .write block offset size _ => s.Sound true block offset size
  | .flush => True

instance (s : Cache) : (r : Request) → Decidable (r.InRange s)
  | .read block offset size => inferInstanceAs (Decidable (s.InRange block offset size))
  | .write block offset size _ => inferInstanceAs (Decidable (s.InRange block offset size))
  | .flush => inferInstanceAs (Decidable True)

instance (s : Cache) : (r : Request) → Decidable (r.Sound s)
  | .read block offset size => inferInstanceAs (Decidable (s.Sound false block offset size))
  | .write block offset size _ => inferInstanceAs (Decidable (s.Sound true block offset size))
  | .flush => inferInstanceAs (Decidable True)

section Step

variable {h : History} {r : Request}

/-- A sound request is answered, and the invariant holds for the new history. -/
theorem Inv.ioctl (inv : Inv h.cache h.disk) (inRange : r.InRange h.cache) (sound : r.Sound h.cache) :
    ∃ reply s', h.cache.ioctl r = some (reply, s') ∧ r.Answered h.cache.geo h.disk reply ∧
      (∀ a ∈ s'.log, a ∈ h.cache.log ∨ a.Inside h.cache.geo) ∧ Inv s' (r.effect h.cache.geo h.disk) := by
  cases r with
  | read block offset size =>
    obtain ⟨reply, s', run, served⟩ := inv.io false (fun _ => 0#8) inRange sound
    refine ⟨reply, s', run, ⟨served.count, fun i hi => ?_⟩, served.kept.log, served.inv⟩
    rw [served.bytes rfl, Mem.blit_in (Nat.zero_le i) (by omega), Nat.sub_zero]
  | write block offset size data =>
    obtain ⟨reply, s', run, served⟩ := inv.io true data inRange sound
    exact ⟨reply, s', run, served.count, served.kept.log, served.inv⟩
  | flush =>
    have flushed := inv.flush
    exact ⟨_, _, rfl, trivial, flushed.log, flushed.inv⟩

end Step

/-- The invariant holds in every state reached by sound requests on the device. -/
theorem reach_inv {g : Geometry} {d : Device} {tsc : Nat → Nat} {h : History} (fits : g.Fits d.nblocks)
    (run : Reach History.step (fun h r => r.InRange h.cache ∧ r.Sound h.cache) (History.start g d tsc) h) :
    h.Holds := by
  have start : (History.start g d tsc).Holds := alloc_inv tsc fits
  refine run.invariant start ?_
  intro h r t inv meets step
  obtain ⟨reply, s', returns, _, _, after⟩ := Inv.ioctl inv meets.1 meets.2
  rw [History.step, returns] at step
  cases step
  exact after

/-- In every run of requests on the device that stay inside one chunk, or start with a whole block of
the first chunk and end in the second, and for which there are chunks, each request is answered with
the bytes last written and touches only the data and the state bits of its chunks. -/
theorem cache_transparent {g : Geometry} {d : Device} {tsc : Nat → Nat} {h : History} {r : Request}
    (fits : g.Fits d.nblocks)
    (run : Reach History.step (fun h r => r.InRange h.cache ∧ r.Sound h.cache) (History.start g d tsc) h)
    (inRange : r.InRange h.cache) (sound : r.Sound h.cache) : Transparent h r := by
  obtain ⟨reply, s', returns, answered, log, _⟩ := Inv.ioctl (reach_inv fits run) inRange sound
  exact ⟨reply, s', returns, answered, log⟩

/-! A small cache over a device of sixteen blocks. -/

theorem smallBlock_lt : 512 < 2 ^ 16 := by decide

theorem smallChunk_lt : 4 < 2 ^ 16 := by decide

theorem twoChunks_lt : 2 < 2 ^ 16 := by decide

def smallGeometry : Geometry := ⟨512, 4, 2, smallBlock_lt, smallChunk_lt, twoChunks_lt⟩

def smallDevice : Device := ⟨16, fun _ => 0xaa#8⟩

def smallStart : History := History.start smallGeometry smallDevice fun k => k + 1

theorem smallGeometry_fits : smallGeometry.Fits smallDevice.nblocks := by
  constructor <;> decide

/-- A rewritten block is read back. -/
theorem cache_transparent_rewrite : ∃ h,
    Reach History.step (fun h r => r.InRange h.cache ∧ r.Sound h.cache) smallStart h ∧
      Transparent h (.read 1 8 512) := by
  have run : (runAll History.step (fun h r => r.InRange h.cache ∧ r.Sound h.cache) smallStart
      [.write 1 0 1024 fun _ => 0x55#8]).map (fun h => decide ((Request.read 1 8 512).InRange h.cache ∧
        (Request.read 1 8 512).Sound h.cache)) = some true := by decide +kernel
  obtain ⟨h, reached, meets⟩ := Option.map_eq_some_iff.mp run
  obtain ⟨inRange, sound⟩ := of_decide_eq_true meets
  have reach := Reach.of_runAll _ reached
  exact ⟨h, reach, cache_transparent smallGeometry_fits reach inRange sound⟩

/-- A read of two chunks that starts in the second chunk copies past the data area of its chunk and
returns what lies there. -/
theorem long_read_not_transparent :
    (Request.read 4 0 4096).InRange smallStart.cache ∧ ¬ Transparent smallStart (.read 4 0 4096) := by
  refine ⟨by decide +kernel, ?_⟩
  rintro ⟨reply, s', returns, ⟨_, bytes⟩, _⟩
  have foreign : (smallStart.cache.ioctl (.read 4 0 4096)).map (fun out => out.1.user 2048) = some 0#8 := by
    decide +kernel
  rw [returns] at foreign
  have expected : reply.user 2048 = 0xaa#8 := bytes 2048 (by decide)
  cases foreign.symm.trans (congrArg some expected)

/-! ## Flush completeness -/

/-- After a flush nothing is marked dirty and the device has what the cache holds. -/
def FlushComplete (s : Cache) : Prop :=
  ∀ c, c < s.geo.numChunks → s.Present (s.geo.addr c) → ChunkComplete s (s.geo.addr c)

/-- Any read and any flush, and the writes that are served right. -/
def Request.Admitted (s : Cache) : Request → Prop
  | .read _ _ _ => True
  | .write block offset size _ => s.InRange block offset size ∧ s.Sound true block offset size
  | .flush => True

instance (s : Cache) : (r : Request) → Decidable (r.Admitted s)
  | .read _ _ _ => inferInstanceAs (Decidable True)
  | .write _ _ _ _ => inferInstanceAs (Decidable (_ ∧ _))
  | .flush => inferInstanceAs (Decidable True)

theorem reach_admitted {g : Geometry} {d : Device} {tsc : Nat → Nat} {h : History} (fits : g.Fits d.nblocks)
    (run : Reach History.step (fun h r => r.Admitted h.cache) (History.start g d tsc) h) : h.Holds := by
  have start : (History.start g d tsc).Holds := alloc_inv tsc fits
  refine run.invariant start ?_
  intro h r t inv meets step
  rw [History.step] at step
  obtain ⟨⟨reply, s'⟩, returns, rfl⟩ := Option.map_eq_some_iff.mp step
  cases r with
  | read block offset size =>
    obtain ⟨reply', s'', run, after, _, _⟩ := Inv.ioLoop_read (h.cache.geo.blockCount size) h.cache
      (fun _ => 0#8) 0 (block % 2 ^ 32) (h.cache.geo.blockCount size) offset size inv (Nat.mod_lt _ (by decide))
    have same : some (reply', s'') = some (reply, s') := run.symm.trans returns
    cases same
    exact after
  | write block offset size data =>
    obtain ⟨reply', s'', run, _, _, after⟩ :=
      Inv.ioctl (r := .write block offset size data) inv meets.1 meets.2
    cases run.symm.trans returns
    exact after
  | flush =>
    cases returns
    exact inv.flush.inv

/-- In every state reached, a flush is complete exactly if each chunk that has a dirty block has a
dirty first block. -/
theorem flush_complete_iff {g : Geometry} {d : Device} {tsc : Nat → Nat} {h : History}
    (fits : g.Fits d.nblocks)
    (run : Reach History.step (fun h r => r.Admitted h.cache) (History.start g d tsc) h) :
    FlushComplete h.cache.flush ↔ ∀ c, c < h.cache.geo.numChunks → h.cache.Present (h.cache.geo.addr c) →
      ChunkReady h.cache (h.cache.geo.addr c) := by
  have flushed := (reach_admitted fits run).flush
  rw [FlushComplete, flushed.geo]
  refine forall_congr' fun c => forall_congr' fun hc => ?_
  rw [flushed.present c hc]
  exact forall_congr' fun present => flushed.complete c hc present

/-- A write from the first block of a chunk on is written back. -/
theorem flush_complete_first_block : ∃ h,
    Reach History.step (fun h r => r.Admitted h.cache) smallStart h ∧ FlushComplete h.cache.flush := by
  have run : (runAll History.step (fun h r => r.Admitted h.cache) smallStart
      [.write 0 0 512 fun _ => 0x55#8]).map (fun h => decide (∀ c, c < h.cache.geo.numChunks →
        h.cache.Present (h.cache.geo.addr c) → ChunkReady h.cache (h.cache.geo.addr c))) = some true := by
    decide +kernel
  obtain ⟨h, reached, ready⟩ := Option.map_eq_some_iff.mp run
  have reach := Reach.of_runAll _ reached
  exact ⟨h, reach, (flush_complete_iff smallGeometry_fits reach).mpr (of_decide_eq_true ready)⟩

/-- A write to the second block of a chunk is not written back. -/
theorem flush_skips_second_block : ∃ h,
    Reach History.step (fun h r => r.InRange h.cache ∧ r.Sound h.cache) smallStart h ∧
      ¬ FlushComplete h.cache.flush := by
  have run : (runAll History.step (fun h r => r.InRange h.cache ∧ r.Sound h.cache) smallStart
      [.write 1 0 512 fun _ => 0x55#8]).map (fun h => decide (0 < h.cache.flush.geo.numChunks ∧
        h.cache.flush.Present (h.cache.flush.geo.addr 0) ∧ 1 < h.cache.flush.bcount (h.cache.flush.geo.addr 0) ∧
        h.cache.flush.MarkedDirty (h.cache.flush.geo.addr 0) 1)) = some true := by decide +kernel
  obtain ⟨h, reached, left⟩ := Option.map_eq_some_iff.mp run
  obtain ⟨chunk, present, block, marked⟩ := of_decide_eq_true left
  refine ⟨h, Reach.of_runAll _ reached, fun complete => ?_⟩
  exact (complete 0 chunk present 1 block).1 marked

end PreTeO.Bdev
