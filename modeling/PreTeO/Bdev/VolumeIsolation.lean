import PreTeO.Bdev.VolumeRun

/-!
# The blocks that a request on a partition reaches

A request on a partition is rebased and handed to the disk volume; nothing compares it with the size of the partition. The
disk volume serves it in rounds of `cache_io`. A round copies bytes of its blocks; before that the cache reads from the device
what it lacks of their chunk, wherever the partition ends, and after a write it marks the blocks up to the end of the chunk.
-/

namespace PreTeO.Bdev.Vol
set_option autoImplicit false
open PreTeO.Sys PreTeO.Fs

/-- The blocks of an ask are blocks of the volume. -/
def Ask.Inside (v : Volume) (a : Ask) : Prop :=
  ∀ b, a.Touches v.host.blockSize b → v.offset ≤ b ∧ b < v.offset + v.size

/-- All that was asked for a volume lies in it. -/
def Isolated (v : Volume) (asks : List Ask) : Prop := ∀ a ∈ asks, a.Inside v

/-- Bytes of the disk that lie in a volume. -/
def Volume.HasBytes (v : Volume) (pos size : Nat) : Prop :=
  size = 0 ∨ v.offset * v.host.blockSize ≤ pos ∧ pos + size ≤ (v.offset + v.size) * v.host.blockSize

/-- Blocks of the disk that lie in a volume. -/
def Volume.HasBlocks (v : Volume) (first count : Nat) : Prop :=
  count = 0 ∨ v.offset ≤ first ∧ first + count ≤ v.offset + v.size

instance (v : Volume) (pos size : Nat) : Decidable (v.HasBytes pos size) := inferInstanceAs (Decidable (_ ∨ _))
instance (v : Volume) (first count : Nat) : Decidable (v.HasBlocks first count) := inferInstanceAs (Decidable (_ ∨ _))

/-- A round stays in a volume: the blocks that its chunk lacks, the bytes, and after a write the blocks of the chunk from the
first one on. -/
def Volume.RoundFits (v : Volume) (write : Bool) (block offset rest : Nat) (chunk : Nat × Nat) : Prop :=
  v.HasBlocks (v.host.chunkStart block + chunk.1) (chunk.2 - chunk.1) ∧
    v.HasBytes (block * v.host.blockSize + offset) (v.host.copied block rest) ∧
    (write = true → v.HasBlocks block (v.host.chunkStart block + chunk.2 - block))

instance (v : Volume) (write : Bool) (block offset rest : Nat) (chunk : Nat × Nat) :
    Decidable (v.RoundFits write block offset rest chunk) := inferInstanceAs (Decidable (_ ∧ _ ∧ (_ → _)))

/-- The rounds of a request stay in a volume, as far as it comes. -/
def RoundsFit (sys : Services) (v : Volume) (write : Bool) :
    Nat → (bstart bcount offset rest : Nat) → List Ask → Prop
  | 0, _, _, _, _, _ => True
  | fuel + 1, bstart, bcount, offset, rest, asks =>
    bcount ≠ 0 → rest ≠ 0 → ∀ chunk, sys.lock asks v.pvd bstart = some chunk →
      v.RoundFits write bstart offset rest chunk ∧
        RoundsFit sys v write fuel ((bstart + v.host.reported bstart) % 2 ^ 32) (bcount - v.host.reported bstart) 0
          (rest - v.host.copied bstart rest) (asks ++ v.host.round write bstart offset rest chunk)

/-- A transfer of a file stays in its partition. -/
def Volume.FileFits (v : Volume) (sys : Services) (write : Bool) (offset sz : Nat) (asks : List Ask) : Prop :=
  sys.cacheReady asks v.pvd = true →
    RoundsFit sys v write (blocksOf v.host.blockSize sz) (v.voffset offset / v.host.blockSize % 2 ^ 32)
      (blocksOf v.host.blockSize sz) (v.voffset offset % v.host.blockSize) sz asks

/-- What was asked after a block transfer of no blocks to block 0. -/
def Services.afterNothing (sys : Services) (asks : List Ask) (self : Nat) : List Ask :=
  if sys.cacheReady asks self then asks else asks ++ [⟨.host, true, 0, 0, 0, 0⟩]

/-- The requests that stay in their partition. -/
def Fits (sys : Services) (w : World) (v : Volume) (cmd : Nat) (dio : DriverIo) : Prop :=
  v.ioEnable = false ∨
    ((cmd = dioctlFread ∨ cmd = dioctlFwrite →
        v.FileFits sys (decide (cmd = dioctlFwrite)) dio.offset dio.size w.asks) ∧
      (cmd = dioctlSread ∨ cmd = dioctlSwrite →
        v.FileFits sys (decide (cmd = dioctlSwrite)) v.currentOffset dio.size w.asks) ∧
      (cmd = dioctlBwrite → (dio.offset + v.offset) % 2 ^ 64 = 0 → sys.bootMemory = true →
        sys.Boots (sys.afterNothing w.asks v.pvd) v.pvd → ∃ d, w.vols v.pvd = some d ∧ d.ioEnable = false))

/-- The blocks of a range of bytes lie in a range of blocks if and only if the bytes do. -/
theorem blocks_within_iff {bs pos size first count : Nat} (positive : 0 < bs) :
    (∀ b, (∃ i, i < size ∧ (pos + i) / bs = b) → first ≤ b ∧ b < first + count) ↔
      size = 0 ∨ first * bs ≤ pos ∧ pos + size ≤ (first + count) * bs := by
  constructor
  · intro inside
    obtain none | some := Nat.eq_zero_or_pos size
    · exact .inl none
    · have low := (inside _ ⟨0, some, rfl⟩).1
      have high := (inside _ ⟨size - 1, by omega, rfl⟩).2
      rw [Nat.le_div_iff_mul_le positive] at low
      rw [Nat.div_lt_iff_lt_mul positive] at high
      exact .inr ⟨low, by omega⟩
  · rintro (rfl | ⟨low, high⟩) b ⟨i, bound, rfl⟩
    · exact absurd bound (Nat.not_lt_zero i)
    · rw [Nat.le_div_iff_mul_le positive, Nat.div_lt_iff_lt_mul positive]
      omega

theorem Ask.inside_iff {v : Volume} {a : Ask} :
    a.Inside v ↔ v.HasBytes (a.bstart * v.host.blockSize + a.boffset) a.bsize :=
  blocks_within_iff v.host.positive

theorem Volume.hasBytes_blocks {v : Volume} {first count : Nat} :
    v.HasBytes (first * v.host.blockSize + 0) (count * v.host.blockSize) ↔ v.HasBlocks first count := by
  have positive := v.host.positive
  unfold HasBytes HasBlocks
  rw [Nat.add_zero, ← Nat.add_mul, Nat.mul_le_mul_right_iff positive, Nat.mul_le_mul_right_iff positive]
  refine or_congr_left ⟨fun none => ?_, fun none => by rw [none, Nat.zero_mul]⟩
  exact (Nat.mul_eq_zero.mp none).resolve_right (Nat.pos_iff_ne_zero.mp positive)

theorem isolated_append {v : Volume} {asks more : List Ask} : Isolated v (asks ++ more) ↔ Isolated v asks ∧ Isolated v more :=
  List.forall_mem_append

theorem isolated_nil (v : Volume) : Isolated v [] := fun _ member => absurd member List.not_mem_nil

section Rounds
variable {sys : Services} {w w' : World} {v : Volume} {write : Bool} {r : Nat}

/-- A round asks for blocks of the volume if and only if it stays there. -/
theorem round_isolated_iff {block offset rest : Nat} {chunk : Nat × Nat} :
    Isolated v (v.host.round write block offset rest chunk) ↔ v.RoundFits write block offset rest chunk := by
  unfold Isolated Host.round Volume.RoundFits
  simp only [List.forall_mem_cons, Ask.inside_iff, Volume.hasBytes_blocks]
  refine and_congr_right' (and_congr_right' ?_)
  cases write with
  | false => simp
  | true => simp [← Volume.hasBytes_blocks]

/-- The loop asks for blocks of the volume if and only if its rounds stay there. -/
theorem cacheLoop_isolated_iff {fuel bstart bcount offset rest done : Nat}
    (run : cacheLoop sys v.pvd v.host write fuel bstart bcount offset rest done w = some (r, w')) :
    ∃ added, w'.asks = w.asks ++ added ∧
      (Isolated v added ↔ RoundsFit sys v write fuel bstart bcount offset rest w.asks) := by
  induction fuel generalizing bstart bcount offset rest done w with
  | zero =>
    simp only [cacheLoop, Option.some.injEq, Prod.mk.injEq] at run
    exact ⟨[], by rw [← run.2, List.append_nil], iff_of_true (isolated_nil v) trivial⟩
  | succ fuel ih =>
    have ends (same : w = w') (past : ¬ (bcount ≠ 0 ∧ rest ≠ 0) ∨ sys.lock w.asks v.pvd bstart = none) :
        ∃ added, w'.asks = w.asks ++ added ∧
          (Isolated v added ↔ RoundsFit sys v write (fuel + 1) bstart bcount offset rest w.asks) := by
      refine ⟨[], by rw [same, List.append_nil], iff_of_true (isolated_nil v) fun count bytes chunk lock => ?_⟩
      obtain stop | none := past
      · exact absurd ⟨count, bytes⟩ stop
      · cases lock.symm.trans none
    rw [cacheLoop] at run
    by_cases more : bcount ≠ 0 ∧ rest ≠ 0
    · rw [if_pos more] at run
      cases lock : sys.lock w.asks v.pvd bstart with
      | none =>
        simp only [lock, Option.some.injEq, Prod.mk.injEq] at run
        exact ends run.2 (.inr lock)
      | some chunk =>
        simp only [lock] at run
        split at run
        · obtain ⟨added, asks, isolated⟩ := ih run
          refine ⟨v.host.round write bstart offset rest chunk ++ added, by rw [asks, List.append_assoc], ?_⟩
          rw [isolated_append, round_isolated_iff, isolated]
          constructor
          · intro fits _ _ chunk' lock'
            obtain rfl := Option.some.inj (lock.symm.trans lock')
            exact fits
          · exact fun fits => fits more.1 more.2 chunk lock
        · cases run
    · rw [if_neg more] at run
      exact ends (congrArg Prod.snd (Option.some.inj run)) (.inl more)

/-- A loop that copies bytes of block 0 does not stay in a partition. -/
theorem cacheLoop_boot {fuel bcount offset rest : Nat} (first : v.offset ≠ 0) (within : offset < v.host.blockSize)
    (moved : r ≠ 0) (run : cacheLoop sys v.pvd v.host write fuel 0 bcount offset rest 0 w = some (r, w')) :
    ¬ RoundsFit sys v write fuel 0 bcount offset rest w.asks := by
  intro fits
  cases fuel with
  | zero =>
    simp only [cacheLoop, Option.some.injEq, Prod.mk.injEq] at run
    exact moved run.1.symm
  | succ fuel =>
    rw [cacheLoop] at run
    by_cases more : bcount ≠ 0 ∧ rest ≠ 0
    · rw [if_pos more] at run
      cases lock : sys.lock w.asks v.pvd 0 with
      | none =>
        simp only [lock, Option.some.injEq, Prod.mk.injEq] at run
        exact moved run.1.symm
      | some chunk =>
        simp only [lock] at run
        split at run
        · next inside =>
          obtain none | ⟨low, -⟩ := (fits more.1 more.2 chunk lock).1.2.1
          · exact absurd none (Nat.pos_iff_ne_zero.mp (Host.copied_zero inside more.2))
          · have := Nat.le_mul_of_pos_left v.host.blockSize (Nat.pos_of_ne_zero first)
            omega
        · cases run
    · rw [if_neg more] at run
      exact moved (congrArg Prod.fst (Option.some.inj run)).symm

end Rounds

section Asks
variable {sys : Services} {up : Parent} {w w' : World} {v d : Volume} {r : Nat}

/-- Block 0 is in no partition. -/
theorem Isolated.boot {added : List Ask} (first : v.offset ≠ 0) (isolated : Isolated v added) :
    ¬ ∃ a ∈ added, a.Touches v.host.blockSize 0 := by
  rintro ⟨a, member, touched⟩
  exact first (Nat.le_zero.1 (isolated a member 0 touched).1)

/-- The scan after a write to block 0 of a disk. -/
theorem rescan_disk {q block : Nat} {write : Bool} (sane : w.Sane) (disk : w.vols q = some d) (isDisk : d.IsDisk)
    (hdd : d.host.Hdd) (run : rescan sys up q write block w = some w') :
    ∃ added, w'.asks = w.asks ++ added ∧
      ((write = true ∧ block = 0) ∧ sys.bootMemory = true ∧ sys.Boots w.asks q →
        ∃ a ∈ added, a.Touches d.host.blockSize 0) ∧
      (¬ ((write = true ∧ block = 0) ∧ sys.bootMemory = true ∧ sys.Boots w.asks q) → added = []) := by
  unfold rescan at run
  by_cases zero : write = true ∧ block = 0
  · rw [if_pos zero] at run
    obtain ⟨-, added, asks, touched, missed⟩ := scan_disk sane disk isDisk run
    exact ⟨added, asks, fun all => touched ⟨hdd, all.2⟩, fun none => missed fun all => none ⟨zero, all.2⟩⟩
  · rw [if_neg zero] at run
    obtain rfl := Option.some.inj run
    exact ⟨[], (List.append_nil _).symm, fun all => absurd all.1 zero, fun _ => rfl⟩

/-- A hard disk is written to. -/
theorem writable_disk (isDisk : d.IsDisk) (hdd : d.host.Hdd) (write : Bool) :
    ¬ (write = true ∧ d.flags &&& vfReadonly ≠ 0) := by
  rw [isDisk.flags, diskFlags, hdd.1]
  rintro ⟨-, readonly⟩
  exact readonly (by decide)

/-- A file transfer of a disk for one of its partitions stays in the partition if and only if its rounds do. -/
theorem volFileIo_disk {write : Bool} {offset sz : Nat} (sane : w.Sane) (disk : w.vols v.pvd = some d) (isDisk : d.IsDisk)
    (part : v.IsPart d.host) (run : volFileIo sys up write v.pvd (v.voffset offset) sz w = some (r, w')) :
    ∃ added, w'.asks = w.asks ++ added ∧ (Isolated v added ↔ v.FileFits sys write offset sz w.asks) := by
  have host := part.sameHost
  have small : v.voffset offset < 2 ^ 64 := Nat.mod_lt _ (Nat.two_pow_pos 64)
  have start : d.voffset (v.voffset offset) = v.voffset offset := by
    have again : d.voffset (v.voffset offset) = (v.voffset offset + d.offset * d.host.blockSize % 2 ^ 32) % 2 ^ 64 := rfl
    rw [again, isDisk.offset, Nat.zero_mul, Nat.zero_mod, Nat.add_zero, Nat.mod_eq_of_lt small]
  simp only [volFileIo, disk, Option.bind_eq_bind, Option.bind_some, if_neg (writable_disk isDisk part.hdd write),
    if_pos isDisk.routes.1, start, ← host] at run
  by_cases ready : sys.cacheReady w.asks v.pvd = true
  · simp only [if_pos ready, Option.bind_eq_some_iff, Option.some.injEq, Prod.mk.injEq] at run
    obtain ⟨⟨r₁, w₁⟩, moved, w₂, scanned, -, rfl⟩ := run
    obtain ⟨rounds, asks₁, isolated⟩ := cacheLoop_isolated_iff moved
    have disk₁ : w₁.vols v.pvd = some d := by rw [cacheLoop_vols moved]; exact disk
    obtain ⟨boots, asks₂, -, missed⟩ := rescan_disk (sane.congr (cacheLoop_vols moved)) disk₁ isDisk part.hdd scanned
    refine ⟨rounds ++ boots, by rw [asks₂, asks₁, List.append_assoc], ?_⟩
    rw [isolated_append, isolated]
    refine ⟨fun both _ => both.1, fun fits => ⟨fits ready, ?_⟩⟩
    -- A scan comes after a transfer to block 0, which is in no partition.
    have none : boots = [] := by
      refine missed fun all => ?_
      have wrote := Bool.and_eq_true_iff.1 all.1.1
      have zero : v.voffset offset / v.host.blockSize % 2 ^ 32 = 0 := by rw [all.1.2]; rfl
      have rounds := fits ready
      rw [cacheIo, zero] at moved
      rw [zero] at rounds
      exact cacheLoop_boot part.first (Nat.mod_lt _ v.host.positive) (of_decide_eq_true wrote.1) moved rounds
    rw [none]
    exact isolated_nil v
  · simp only [if_neg ready, Option.some.injEq, Prod.mk.injEq] at run
    refine ⟨[], by rw [← run.2, List.append_nil], iff_of_true (isolated_nil v) fun yes => absurd yes ready⟩

/-- A disk asks for nothing, or for no blocks, when there are none to transfer. -/
theorem blockIo_nothing {q block : Nat} {write : Bool} (isDisk : d.IsDisk) (small : block < 2 ^ 64)
    (run : blockIo sys up q d write block 0 w = some (r, w')) :
    w'.vols = w.vols ∧ ∃ added, w'.asks = w.asks ++ added ∧ (∀ a ∈ added, a.bsize = 0) ∧
      ((write = true ∧ block = 0) → w'.asks = sys.afterNothing w.asks q) := by
  obtain ⟨cached, hosted⟩ := isDisk.routes
  have base : (block + d.offset) % 2 ^ 64 = block := by rw [isDisk.offset, Nat.add_zero, Nat.mod_eq_of_lt small]
  rw [blockIo, if_neg (not_not.mpr cached), base] at run
  by_cases ready : sys.cacheReady w.asks q = true
  · simp only [if_pos ready, cacheIo, cacheLoop, Option.bind_eq_bind, Option.bind_some, Option.some.injEq,
      Prod.mk.injEq] at run
    rw [← run.2]
    refine ⟨rfl, [], (List.append_nil _).symm, fun _ member => absurd member List.not_mem_nil, fun _ => ?_⟩
    rw [Services.afterNothing, if_pos ready]
  · simp only [if_neg ready, directIo, if_pos hosted, base, World.ask, Nat.zero_mul, Option.some.injEq, Prod.mk.injEq] at run
    rw [← run.2]
    refine ⟨rfl, [_], rfl, fun a member => ?_, ?_⟩
    · rw [List.mem_singleton.mp member]
    · rintro ⟨rfl, rfl⟩
      rw [Services.afterNothing, if_neg ready]
      rfl

theorem isolated_of_empty {added : List Ask} (empty : ∀ a ∈ added, a.bsize = 0) : Isolated v added := by
  rintro a member b ⟨i, bound, -⟩
  rw [empty a member] at bound
  exact absurd bound (Nat.not_lt_zero i)

/-- A block transfer of no blocks: a disk comes to no block but the boot sector, and to that after a write to block 0. -/
theorem volBlockIo_disk {write : Bool} {block : Nat} (sane : w.Sane) (disk : w.vols v.pvd = some d) (isDisk : d.IsDisk)
    (part : v.IsPart d.host) (small : block < 2 ^ 64) (run : volBlockIo sys up v.pvd write block 0 w = some (r, w')) :
    ∃ added, w'.asks = w.asks ++ added ∧
      (Isolated v added ↔ ¬ ((write = true ∧ block = 0) ∧ sys.bootMemory = true ∧
        sys.Boots (sys.afterNothing w.asks v.pvd) v.pvd)) ∧ (block ≠ 0 → w'.vols = w.vols) := by
  simp only [volBlockIo, disk, Option.bind_eq_bind, Option.bind_some, if_neg (writable_disk isDisk part.hdd write),
    Option.bind_eq_some_iff, Option.some.injEq, Prod.mk.injEq] at run
  obtain ⟨⟨r₁, w₁⟩, moved, w₂, scanned, -, rfl⟩ := run
  obtain ⟨vols, nothing, asks₁, empty, after⟩ := blockIo_nothing isDisk small moved
  have disk₁ : w₁.vols v.pvd = some d := by rw [vols, disk]
  obtain ⟨boots, asks₂, touched, missed⟩ := rescan_disk (sane.congr vols) disk₁ isDisk part.hdd scanned
  rw [← part.sameHost] at touched
  refine ⟨nothing ++ boots, by rw [asks₂, asks₁, List.append_assoc], ?_, fun other => ?_⟩
  · rw [isolated_append, and_iff_right (isolated_of_empty empty)]
    constructor
    · rintro isolated ⟨zero, rest⟩
      rw [← after zero] at rest
      exact isolated.boot part.first (touched ⟨zero, rest⟩)
    · intro none
      rw [missed fun all => none ⟨all.1, after all.1 ▸ all.2⟩]
      exact isolated_nil v
  · rw [rescan, if_neg (fun both => other both.2)] at scanned
    rw [← Option.some.inj scanned, vols]

/-- A command for a block transfer. -/
def blockCommand (write : Bool) : Nat := if write then dioctlBwrite else dioctlBread

theorem volCommand_block {q : Nat} (write : Bool) (dio : DriverIo) :
    volCommand sys up (blockCommand write) q dio w =
      (volBlockIo sys up q write dio.offset dio.result w).map (Prod.map some id) := by
  cases write <;> rfl

/-- `driver_ioctl` has put 0 in the word of the count before it reads it. -/
theorem result_cleared (dio : DriverIo) : ({ dio.setResult 0 with error := 0 } : DriverIo).result = 0 := by
  simp [DriverIo.result, DriverIo.setResult]

theorem volIoctl_disk {write : Bool} {dio dio' : DriverIo} (sane : w.Sane) (disk : w.vols v.pvd = some d) (isDisk : d.IsDisk)
    (part : v.IsPart d.host) (small : dio.offset < 2 ^ 64)
    (run : volIoctl sys up (blockCommand write) v.pvd dio w = some (dio', w')) :
    ∃ added, w'.asks = w.asks ++ added ∧
      (Isolated v added ↔ ¬ ((write = true ∧ dio.offset = 0) ∧ (sys.bootMemory = true ∧
        sys.Boots (sys.afterNothing w.asks v.pvd) v.pvd) ∧ d.ioEnable = true)) ∧
      (dio.offset ≠ 0 → w'.vols = w.vols) := by
  simp only [volIoctl, disk, Option.bind_eq_bind, Option.bind_some, volCommand_block, result_cleared] at run
  by_cases enabled : d.ioEnable = true
  · simp only [if_pos enabled, Option.bind_eq_some_iff, Option.map_eq_some_iff] at run
    obtain ⟨-, ⟨⟨r, w₁⟩, moved, rfl⟩, run⟩ := run
    simp only [Prod.map, id, Option.some.injEq, Prod.mk.injEq] at run
    obtain ⟨-, rfl⟩ := run
    obtain ⟨added, asks, isolated, vols⟩ := volBlockIo_disk sane disk isDisk part small moved
    refine ⟨added, asks, isolated.trans ?_, vols⟩
    rw [and_iff_left enabled]
  · simp only [if_neg enabled, Option.some.injEq, Prod.mk.injEq] at run
    obtain ⟨-, rfl⟩ := run
    exact ⟨[], (List.append_nil _).symm, iff_of_true (isolated_nil v) fun all => enabled all.2.2, fun _ => rfl⟩

end Asks

section Partitions
variable {sys : Services} {w w' : World} {v d : Volume} {p r n : Nat}

theorem volFileIo_part {write : Bool} {offset sz : Nat} (sane : w.Sane) (found : w.vols p = some v)
    (disk : w.vols v.pvd = some d) (isDisk : d.IsDisk) (part : v.IsPart d.host)
    (run : volFileIo sys (volumes sys n) write p offset sz w = some (r, w')) :
    ∃ added, w'.asks = w.asks ++ added ∧ (Isolated v added ↔ v.FileFits sys write offset sz w.asks) := by
  have writable : ¬ (write = true ∧ v.flags &&& vfReadonly ≠ 0) := by
    rw [part.flags]
    exact fun both => both.2 (by decide)
  have uncached : ¬ v.flags &&& vfNocache = 0 := by
    rw [part.flags]
    decide
  simp only [volFileIo, found, Option.bind_eq_bind, Option.bind_some, if_neg writable, if_neg uncached,
    if_pos part.pvd] at run
  cases n with
  | zero => exact absurd run (by simp [volumes])
  | succ n => exact volFileIo_disk sane disk isDisk part run

theorem volBlockIo_part {write : Bool} {block : Nat} (sane : w.Sane) (found : w.vols p = some v)
    (disk : w.vols v.pvd = some d) (isDisk : d.IsDisk) (part : v.IsPart d.host)
    (run : volBlockIo sys (volumes sys n) p write block 0 w = some (r, w')) :
    ∃ added, w'.asks = w.asks ++ added ∧ (Isolated v added ↔
      ¬ ((write = true ∧ (block + v.offset) % 2 ^ 64 = 0) ∧ (sys.bootMemory = true ∧
        sys.Boots (sys.afterNothing w.asks v.pvd) v.pvd) ∧ d.ioEnable = true)) := by
  have writable : ¬ (write = true ∧ v.flags &&& vfReadonly ≠ 0) := by
    rw [part.flags]
    exact fun both => both.2 (by decide)
  have uncached : v.flags &&& vfNocache ≠ 0 := by
    rw [part.flags]
    decide
  have hostless : ¬ v.flags &&& vfHostctrl ≠ 0 := by
    rw [part.flags]
    decide
  simp only [volBlockIo, found, Option.bind_eq_bind, Option.bind_some, if_neg writable, blockIo, if_pos uncached, directIo,
    if_neg hostless, if_pos part.pvd, Option.bind_eq_some_iff, Option.some.injEq, Prod.mk.injEq] at run
  obtain ⟨⟨r₁, w₁⟩, ⟨⟨dio, w₁'⟩, called, -, rfl⟩, w₂, scanned, -, rfl⟩ := run
  cases n with
  | zero => exact absurd called (by simp [volumes])
  | succ n =>
    obtain ⟨added, asks, isolated, vols⟩ := volIoctl_disk sane disk isDisk part (Nat.mod_lt _ (Nat.two_pow_pos 64)) called
    refine ⟨added, ?_, isolated⟩
    -- The partition itself has nothing to scan: at block 0 of it the disk was not scanned either, so it is still there.
    suffices w₂ = w₁' by rw [this, asks]
    by_cases zero : write = true ∧ block = 0
    · rw [rescan, if_pos zero] at scanned
      have base : (block + v.offset) % 2 ^ 64 ≠ 0 := by
        have := part.first
        have := part.offset_lt
        omega
      have still : w₁'.vols p = some v := by rw [vols base, found]
      exact scan_part still part.pidx scanned
    · rw [rescan, if_neg zero] at scanned
      exact (Option.some.inj scanned).symm

/-- The kinds of commands: transfers of a file, of the file from the current offset on, of blocks, and those without any. -/
theorem volCommand_cases {up : Parent} {cmd : Nat} {dio : DriverIo} {answer : Option Nat}
    (run : volCommand sys up cmd p dio w = some (answer, w')) :
    ((cmd = dioctlFread ∨ cmd = dioctlFwrite) ∧
        ∃ r, volFileIo sys up (decide (cmd = dioctlFwrite)) p dio.offset dio.size w = some (r, w')) ∨
      ((cmd = dioctlSread ∨ cmd = dioctlSwrite) ∧
        ∃ r, volSerialIo sys up (decide (cmd = dioctlSwrite)) p dio.size w = some (r, w')) ∨
      (∃ write r, cmd = blockCommand write ∧ volBlockIo sys up p write dio.offset dio.result w = some (r, w')) ∨
      (cmd ∉ [dioctlFread, dioctlFwrite, dioctlSread, dioctlSwrite, dioctlBwrite] ∧ w'.asks = w.asks) := by
  have mapped : ∀ {out : Option (Nat × World)}, out.map (Prod.map some id) = some (answer, w') →
      ∃ r, out = some (r, w') := by
    intro out run
    simp only [Option.map_eq_some_iff, Prod.map, id, Prod.mk.injEq] at run
    obtain ⟨⟨r, w₁⟩, done, -, rfl⟩ := run
    exact ⟨r, done⟩
  simp only [volCommand] at run
  split at run
  · rename_i seek
    simp only [Option.bind_eq_bind, Option.bind_eq_some_iff, Option.some.injEq, Prod.mk.injEq] at run
    obtain ⟨u, -, -, rfl⟩ := run
    refine .inr (.inr (.inr ⟨?_, rfl⟩))
    rw [seek]
    decide
  split at run
  · next serial =>
    subst serial
    exact .inr (.inl ⟨.inl rfl, mapped run⟩)
  split at run
  · next serial =>
    subst serial
    exact .inr (.inl ⟨.inr rfl, mapped run⟩)
  split at run
  · obtain ⟨r, run⟩ := mapped run
    exact .inr (.inr (.inl ⟨false, r, ‹_›, run⟩))
  split at run
  · obtain ⟨r, run⟩ := mapped run
    exact .inr (.inr (.inl ⟨true, r, ‹_›, run⟩))
  split at run
  · next file =>
    subst file
    exact .inl ⟨.inl rfl, mapped run⟩
  split at run
  · next file =>
    subst file
    exact .inl ⟨.inr rfl, mapped run⟩
  · simp only [Option.some.injEq, Prod.mk.injEq] at run
    refine .inr (.inr (.inr ⟨?_, by rw [run.2]⟩))
    simp only [List.mem_cons, List.not_mem_nil, or_false, not_or]
    exact ⟨‹_›, ‹_›, ‹_›, ‹_›, ‹_›⟩

end Partitions

section Samples

def hardDisk : Host := ⟨10, 512, dclassHdd, dtypeDev, dmodeBlock, 256, sector_positive, sector_small, ide_sectors⟩

/-- A hard disk with two partitions, one near its start and one at 4 GiB, and a cache that has every chunk that was read. -/
def twoPartitions : Services where
  cacheReady _ _ := true
  lock asks _ block := some (if ⟨.host, false, hardDisk.chunkStart block, 0, 256, 131072⟩ ∈ asks then 256 else 0, 256)
  answer _ a := a.bsize
  ncBuffer _ := false
  rounds := 0
  bootMemory := true
  partition _ k := if k.val = 0 then (⟨2048, by decide⟩, ⟨1000, by decide⟩)
    else if k.val = 1 then (⟨8388608, by decide⟩, ⟨16, by decide⟩) else (⟨0, by decide⟩, ⟨0, by decide⟩)
  clone drivers := 100 * (drivers.length + 1)

/-- The disk when its driver has registered it at 100. -/
def registered : World :=
  { World.put ⟨fun _ => none, [], []⟩ 100 (diskVolume hardDisk 16777216) with drivers := [] ++ [100] }

theorem registered_scans : (scan twoPartitions (volumes twoPartitions 1) 100 registered).isSome = true := by decide

/-- The disk after its first scan, with its partitions at 200 and 300. -/
def scanned : World := (scan twoPartitions (volumes twoPartitions 1) 100 registered).get registered_scans

theorem scanned_reachable : Reachable twoPartitions scanned :=
  .attach .empty (by decide) rfl (Option.some_get registered_scans).symm

/-- A request for 512 bytes from the start of a volume. -/
def firstBytes : DriverIo := { DriverIo.blank with size := 512 }

end Samples

end PreTeO.Bdev.Vol
