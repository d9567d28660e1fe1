import PreTeO.Bdev.Volume

/-!
# The volumes of a running system

Disk volumes are registered by the drivers of their devices, and everything else happens in requests: a disk volume scans
its boot sector when it is made and after a write to block 0, and adds, moves and removes the partitions. In every state
that is reached this way a volume is a whole disk or a part of one.
-/

namespace PreTeO.Bdev.Vol
set_option autoImplicit false
open PreTeO.Sys PreTeO.Fs

def dclassCdrom : Nat := 1

/-- The flags of a disk volume after `driver_init`. -/
def diskFlags (host : Host) : Nat := if host.driverClass = dclassCdrom then vfHostctrl ||| vfReadonly else vfHostctrl

/-- The disks that have a partition table. -/
def Host.Hdd (host : Host) : Prop :=
  host.driverClass = dclassHdd ∧ host.driverType = dtypeDev ∧ host.driverMode = dmodeBlock

/-- A volume that the driver of its device registered. -/
structure Volume.IsDisk (v : Volume) : Prop where
  flags : v.flags = diskFlags v.host
  pidx : v.pidx = 0
  offset : v.offset = 0
  pvd : v.pvd = 0

/-- A volume that `scan` registered for a partition on a host. -/
structure Volume.IsPart (v : Volume) (host : Host) : Prop where
  flags : v.flags = vfNocache
  pidx : v.pidx ≠ 0
  pvd : v.pvd ≠ 0
  first : v.offset ≠ 0
  offset_lt : v.offset < 2 ^ 32
  size_lt : v.size < 2 ^ 32
  hdd : host.Hdd
  sameHost : v.host = host

/-- Every volume is a disk or a part of a disk. -/
structure World.Sane (w : World) : Prop where
  null : w.vols 0 = none
  offset_lt : ∀ p v, w.vols p = some v → v.currentOffset < 2 ^ 64
  kind : ∀ p v, w.vols p = some v →
    v.IsDisk ∨ ∃ d, w.vols v.pvd = some d ∧ d.IsDisk ∧ v.IsPart d.host

/-- The volume that the driver of a device registers. -/
def diskVolume (host : Host) (size : Nat) : Volume := ⟨diskFlags host, 0, 0, size, 0, host, 0, true⟩

/-- The states of a system: drivers register disks, volumes get requests, and volumes are switched off. -/
inductive Reachable (sys : Services) : World → Prop where
  | empty : Reachable sys ⟨fun _ => none, [], []⟩
  | attach {w w' : World} {p n : Nat} {host : Host} {size : Nat} (reached : Reachable sys w) (real : p ≠ 0)
      (free : w.vols p = none)
      (run : scan sys (volumes sys n) p { w.put p (diskVolume host size) with drivers := w.drivers ++ [p] } = some w') :
      Reachable sys w'
  | request {w w' : World} {n cmd p : Nat} {dio dio' : DriverIo} (reached : Reachable sys w)
      (typed : dio.offset < 2 ^ 64) (run : (volumes sys n).ioctl cmd p dio w = some (dio', w')) : Reachable sys w'
  | uninit {w : World} {p : Nat} {v : Volume} (reached : Reachable sys w) (found : w.vols p = some v) :
      Reachable sys (w.put p { v with ioEnable := false })

section Keeps
variable {sys : Services} {up : Parent} {w w' : World} {p r : Nat} {v : Volume}

/-- A volume is replaced by one that is the same to every other. -/
theorem World.Sane.put_same (sane : w.Sane) {v' : Volume} (found : w.vols p = some v) (offset_lt : v'.currentOffset < 2 ^ 64)
    (disk : v.IsDisk → v'.IsDisk) (part : ∀ host, v.IsPart host → v'.IsPart host) (pvd : v'.pvd = v.pvd)
    (host : v'.host = v.host) : (w.put p v').Sane := by
  have null : p ≠ 0 := by
    rintro rfl
    exact absurd found (by simp [sane.null])
  -- A disk is still a disk on the same host, whichever volume was replaced.
  have disks : ∀ q d, w.vols q = some d → d.IsDisk → ∃ d', (w.put p v').vols q = some d' ∧ d'.IsDisk ∧ d'.host = d.host := by
    intro q d there isDisk
    by_cases same : q = p
    · subst same
      obtain rfl := Option.some.inj (there.symm.trans found)
      exact ⟨v', by simp [World.put], disk isDisk, host⟩
    · exact ⟨d, by simp [World.put, same, there], isDisk, rfl⟩
  refine ⟨by simp [World.put, null.symm, sane.null], ?_, ?_⟩
  · intro q u there
    by_cases same : q = p
    · subst same
      obtain rfl : v' = u := by simpa [World.put] using there
      exact offset_lt
    · exact sane.offset_lt q u (by simpa [World.put, same] using there)
  · intro q u there
    have kept : ∀ u₀ : Volume, (u₀.IsDisk → u.IsDisk) → (∀ host, u₀.IsPart host → u.IsPart host) → u.pvd = u₀.pvd →
        w.vols q = some u₀ → u.IsDisk ∨ ∃ d, (w.put p v').vols u.pvd = some d ∧ d.IsDisk ∧ u.IsPart d.host := by
      intro u₀ toDisk toPart samePvd before
      obtain isDisk | ⟨d, parent, isDisk, isPart⟩ := sane.kind q u₀ before
      · exact .inl (toDisk isDisk)
      · obtain ⟨d', there', isDisk', sameHost⟩ := disks _ d parent isDisk
        exact .inr ⟨d', samePvd ▸ there', isDisk', sameHost ▸ toPart _ isPart⟩
    by_cases same : q = p
    · subst same
      obtain rfl : v' = u := by simpa [World.put] using there
      exact kept v disk part pvd found
    · exact kept u id (fun _ => id) rfl (by simpa [World.put, same] using there)

theorem World.Sane.congr (sane : w.Sane) (same : w'.vols = w.vols) : w'.Sane := by
  refine ⟨by rw [same, sane.null], ?_, ?_⟩
  · simpa only [same] using sane.offset_lt
  · simpa only [same] using sane.kind

/-- A volume is added where there was none. -/
theorem World.Sane.put_new (sane : w.Sane) (real : p ≠ 0) (free : w.vols p = none) (offset_lt : v.currentOffset < 2 ^ 64)
    (kind : v.IsDisk ∨ ∃ d, w.vols v.pvd = some d ∧ d.IsDisk ∧ v.IsPart d.host) : (w.put p v).Sane := by
  have others : ∀ q u, w.vols q = some u → (w.put p v).vols q = some u := by
    intro q u there
    have other : q ≠ p := by
      rintro rfl
      exact absurd there (by simp [free])
    simp [World.put, other, there]
  refine ⟨by simp [World.put, real.symm, sane.null], ?_, ?_⟩
  · intro q u there
    by_cases same : q = p
    · obtain rfl : v = u := by simpa [World.put, same] using there
      exact offset_lt
    · exact sane.offset_lt q u (by simpa [World.put, same] using there)
  · intro q u there
    have before : u.IsDisk ∨ ∃ d, w.vols u.pvd = some d ∧ d.IsDisk ∧ u.IsPart d.host := by
      by_cases same : q = p
      · obtain rfl : v = u := by simpa [World.put, same] using there
        exact kind
      · exact sane.kind q u (by simpa [World.put, same] using there)
    obtain disk | ⟨d, parent, rest⟩ := before
    · exact .inl disk
    · exact .inr ⟨d, others _ d parent, rest⟩

/-- A partition is removed. -/
theorem World.Sane.remove (sane : w.Sane) (found : w.vols p = some v) (part : v.pidx ≠ 0) (drivers : List Nat) :
    ({ w with vols := Function.update w.vols p none, drivers := drivers } : World).Sane := by
  have back : ∀ q u, Function.update w.vols p none q = some u → w.vols q = some u := by
    intro q u there
    by_cases same : q = p
    · simp [same] at there
    · simpa [same] using there
  refine ⟨?_, fun q u there => sane.offset_lt q u (back q u there), fun q u there => ?_⟩
  · by_cases null : p = 0
    · simp [null]
    · simp [Ne.symm null, sane.null]
  · obtain disk | ⟨d, parent, isDisk, isPart⟩ := sane.kind q u (back q u there)
    · exact .inl disk
    · refine .inr ⟨d, ?_, isDisk, isPart⟩
      have other : u.pvd ≠ p := by
        rintro same
        rw [same, found] at parent
        obtain rfl := Option.some.inj parent
        exact part isDisk.pidx
      simpa [other] using parent

/-- The volume that `verify` finds. -/
theorem findPartition_spec {host : Host} {idx : Nat} (found : findPartition w host idx = some p) :
    ∃ v, w.vols p = some v ∧ v.pidx ≠ 0 := by
  have holds := List.find?_some found
  cases there : w.vols p with
  | none => simp [there] at holds
  | some v =>
    simp only [there, decide_eq_true_eq] at holds
    exact ⟨v, rfl, holds.2.1⟩

/-- A record of the partition table leaves the disk and the system sane, and asks nothing. -/
theorem scanEntry_spec {self idx first count : Nat} {d : Volume} (sane : w.Sane) (disk : w.vols self = some d)
    (isDisk : d.IsDisk) (hdd : d.host.Hdd)
    (numbered : idx ≠ 0) (first_lt : first < 2 ^ 32) (count_lt : count < 2 ^ 32)
    (run : scanEntry sys self d.host w idx first count = some w') :
    w'.Sane ∧ w'.vols self = some d ∧ w'.asks = w.asks := by
  have real : self ≠ 0 := by
    rintro rfl
    exact absurd disk (by simp [sane.null])
  cases found : findPartition w d.host idx with
  | some p =>
    obtain ⟨v, there, part⟩ := findPartition_spec found
    have other : self ≠ p := by
      rintro rfl
      obtain rfl := Option.some.inj (there.symm.trans disk)
      exact part isDisk.pidx
    simp only [scanEntry, found, there, Option.bind_eq_bind, Option.bind_some] at run
    by_cases used : first ≠ 0 ∧ count ≠ 0
    · simp only [if_pos used, Option.some.injEq] at run
      subst run
      refine ⟨sane.put_same there (sane.offset_lt p v there) ?_ ?_ rfl rfl, by simp [World.put, other, disk], rfl⟩
      · exact fun disk => absurd disk.pidx part
      · exact fun host isPart => { isPart with first := used.1, offset_lt := first_lt, size_lt := count_lt }
    · simp only [if_neg used, Option.some.injEq] at run
      subst run
      exact ⟨sane.remove there part _, by simp [other, disk], rfl⟩
  | none =>
    simp only [scanEntry, found] at run
    by_cases new : first ≠ 0 ∧ count ≠ 0 ∧ sys.clone w.drivers ≠ 0
    · rw [if_pos new] at run
      by_cases free : w.vols (sys.clone w.drivers) = none
      · simp only [free, Option.isSome_none, Bool.false_eq_true, if_false, Option.some.injEq] at run
        subst run
        have other : self ≠ sys.clone w.drivers := by
          intro same
          rw [← same, disk] at free
          exact absurd free (by simp)
        refine ⟨?_, by simp [World.put, other, disk], rfl⟩
        refine World.Sane.congr (sane.put_new new.2.2 free (v := ⟨vfNocache, idx, first, count, self, d.host, 0, true⟩) ?_ ?_) rfl
        · exact Nat.two_pow_pos 64
        · exact .inr ⟨d, disk, isDisk, ⟨rfl, numbered, real, new.1, first_lt, count_lt, hdd, rfl⟩⟩
      · simp [Option.isSome_iff_ne_none.2 free] at run
    · simp only [if_neg new, Option.some.injEq] at run
      subst run
      exact ⟨sane, disk, rfl⟩

/-- The partition table leaves the disk and the system sane, and asks nothing. -/
theorem scanTable_spec {self : Nat} {d : Volume} {table : Fin 4 → Fin (2 ^ 32) × Fin (2 ^ 32)} {rest : List (Fin 4)}
    (sane : w.Sane) (disk : w.vols self = some d) (isDisk : d.IsDisk)
    (hdd : d.host.Hdd)
    (run : scanTable sys self d.host table rest w = some w') :
    w'.Sane ∧ w'.vols self = some d ∧ w'.asks = w.asks := by
  induction rest generalizing w with
  | nil =>
    obtain rfl := Option.some.inj run
    exact ⟨sane, disk, rfl⟩
  | cons k rest ih =>
    simp only [scanTable, Option.bind_eq_bind, Option.bind_eq_some_iff] at run
    obtain ⟨w₁, entry, run⟩ := run
    obtain ⟨sane₁, disk₁, asks₁⟩ :=
      scanEntry_spec sane disk isDisk hdd (Nat.succ_ne_zero k) (table k).1.isLt (table k).2.isLt entry
    obtain ⟨sane₂, disk₂, asks₂⟩ := ih sane₁ disk₁ run
    exact ⟨sane₂, disk₂, asks₂.trans asks₁⟩

/-- The flags of a disk: it may use the cache, and it may use its host. -/
theorem Volume.IsDisk.routes {d : Volume} (isDisk : d.IsDisk) :
    d.flags &&& vfNocache = 0 ∧ d.flags &&& vfHostctrl ≠ 0 := by
  rw [isDisk.flags]
  unfold diskFlags
  split <;> decide

theorem cacheLoop_vols {self fuel bstart bcount offset rest done : Nat} {host : Host} {write : Bool}
    (run : cacheLoop sys self host write fuel bstart bcount offset rest done w = some (r, w')) : w'.vols = w.vols := by
  induction fuel generalizing bstart bcount offset rest done w with
  | zero =>
    simp only [cacheLoop, Option.some.injEq, Prod.mk.injEq] at run
    rw [← run.2]
  | succ fuel ih =>
    simp only [cacheLoop] at run
    split at run
    · split at run
      · simp only [Option.some.injEq, Prod.mk.injEq] at run
        rw [← run.2]
      · split at run
        · exact (ih run).trans rfl
        · cases run
    · simp only [Option.some.injEq, Prod.mk.injEq] at run
      rw [← run.2]

/-- A block of an ask. -/
def Ask.Touches (bs : Nat) (a : Ask) (b : Nat) : Prop := ∃ i, i < a.bsize ∧ (a.bstart * bs + a.boffset + i) / bs = b

/-- A read of the boot sector comes to it: there is no cache, or it has a chunk for the boot sector. -/
def Services.Boots (sys : Services) (asks : List Ask) (self : Nat) : Prop :=
  sys.cacheReady asks self = true → sys.lock asks self 0 ≠ none

/-- The first chunk starts at block 0, so a round there copies bytes. -/
theorem Host.copied_zero {host : Host} {rest : Nat} (chunk : 0 < host.chMax 0) (some : rest ≠ 0) : 0 < host.copied 0 rest := by
  have start : host.chunkStart 0 = 0 := by rw [Host.chunkStart, Nat.zero_div, Nat.zero_mul]
  have sectors : 0 < host.maxOpSectors := by
    rw [Host.chMax, start, Nat.zero_add] at chunk
    exact Nat.pos_of_ne_zero fun none => by rw [none] at chunk; exact absurd chunk (by decide)
  have bytes : host.maxOpSectors * host.blockSize < 2 ^ 16 * 2 ^ 16 := Nat.mul_lt_mul'' host.maxOp_lt host.small
  have reported : host.reported 0 = host.maxOpSectors := by
    rw [Host.reported, Host.chMax, start, Nat.zero_add, Nat.sub_zero]
    exact Nat.mod_eq_of_lt (Nat.lt_trans host.maxOp_lt (by decide))
  have product := Nat.mul_pos sectors host.positive
  rw [Host.copied, reported]
  omega

/-- One round for one block at block 0. -/
theorem cacheIo_boot (sys : Services) (self : Nat) (host : Host) (w : World) :
    cacheIo sys self host false 0 0 1 host.blockSize w =
      match sys.lock w.asks self 0 with
      | none => some (0, w)
      | some chunk =>
        if 0 < host.chMax 0 then
          some (host.copied 0 host.blockSize, { w with asks := w.asks ++ host.round false 0 0 host.blockSize chunk })
        else none := by
  have some : (1 : Nat) ≠ 0 ∧ host.blockSize ≠ 0 := ⟨Nat.one_ne_zero, Nat.pos_iff_ne_zero.mp host.positive⟩
  rw [cacheIo, Nat.zero_mod, cacheLoop, if_pos some]
  cases sys.lock w.asks self 0 with
  | none => rfl
  | some chunk => simp only [cacheLoop, Nat.zero_add]

/-- A read of the boot sector of a disk. -/
theorem bootRead_disk {self : Nat} {d : Volume} (isDisk : d.IsDisk)
    (run : blockIo sys up self d false 0 1 w = some (r, w')) :
    ∃ added, w' = { w with asks := w.asks ++ added } ∧
      (sys.Boots w.asks self → ∃ a ∈ added, a.Touches d.host.blockSize 0) ∧ (¬ sys.Boots w.asks self → added = [] ∧ r ≠ 1) := by
  obtain ⟨cached, hosted⟩ := isDisk.routes
  have base : (0 + d.offset) % 2 ^ 64 = 0 := by rw [isDisk.offset]; rfl
  have positive := d.host.positive
  have size : 1 * d.host.blockSize % 2 ^ 32 = d.host.blockSize := by
    have := d.host.small
    omega
  rw [blockIo, if_neg (not_not.mpr cached)] at run
  by_cases ready : sys.cacheReady w.asks self = true
  · simp only [if_pos ready, base, size, Option.bind_eq_bind, Option.bind_eq_some_iff, Option.some.injEq, Prod.mk.injEq] at run
    obtain ⟨⟨bytes, w₁⟩, run, rfl, rfl⟩ := run
    rw [cacheIo_boot] at run
    cases lock : sys.lock w.asks self 0 with
    | none =>
      simp only [lock, Option.some.injEq, Prod.mk.injEq] at run
      obtain ⟨rfl, rfl⟩ := run
      refine ⟨[], by rw [List.append_nil], fun boots => absurd lock (boots ready), fun _ => ⟨rfl, ?_⟩⟩
      rw [blocksOf, Nat.zero_div, Nat.zero_mod]
      decide
    | some chunk =>
      simp only [lock] at run
      by_cases inside : 0 < d.host.chMax 0
      · simp only [if_pos inside, Option.some.injEq, Prod.mk.injEq] at run
        obtain ⟨-, rfl⟩ := run
        refine ⟨_, rfl, fun _ => ?_, fun none => absurd (fun _ => by rw [lock]; exact nofun) none⟩
        exact ⟨_, List.mem_cons_of_mem _ List.mem_cons_self, 0, Host.copied_zero inside (Nat.pos_iff_ne_zero.mp positive),
          by simp⟩
      · simp [if_neg inside] at run
  · simp only [if_neg ready, directIo, if_pos hosted, base, World.ask, Option.some.injEq, Prod.mk.injEq] at run
    refine ⟨_, run.2.symm, fun _ => ⟨_, List.mem_singleton.mpr rfl, 0, ?_, by simp⟩, fun none => absurd (absurd · ready) none⟩
    exact Nat.mul_pos Nat.one_pos positive

/-- The loop reads the boot sector if it comes to it at all. -/
theorem readBoot_disk {self tmo t : Nat} {d : Volume} (isDisk : d.IsDisk)
    (run : readBoot (blockIo sys up self d false 0 1) tmo w = some (t, w')) :
    ∃ added, w' = { w with asks := w.asks ++ added } ∧
      (sys.Boots w.asks self → ∃ a ∈ added, a.Touches d.host.blockSize 0) ∧ (¬ sys.Boots w.asks self → added = []) := by
  induction tmo generalizing w with
  | zero =>
    simp only [readBoot, Option.bind_eq_bind, Option.bind_eq_some_iff, Option.some.injEq, Prod.mk.injEq] at run
    obtain ⟨⟨r, w₁⟩, read, -, rfl⟩ := run
    obtain ⟨added, rfl, touches, none⟩ := bootRead_disk isDisk read
    exact ⟨added, rfl, touches, fun missing => (none missing).1⟩
  | succ tmo ih =>
    simp only [readBoot, Option.bind_eq_bind, Option.bind_eq_some_iff] at run
    obtain ⟨⟨r, w₁⟩, read, run⟩ := run
    obtain ⟨added, rfl, touches, none⟩ := bootRead_disk isDisk read
    by_cases again : r ≠ 1
    · rw [if_pos again] at run
      obtain ⟨more, rfl, -, still⟩ := ih run
      refine ⟨added ++ more, by simp, fun boots => ?_, fun missing => ?_⟩
      · obtain ⟨a, member, touched⟩ := touches boots
        exact ⟨a, List.mem_append_left _ member, touched⟩
      · obtain rfl := (none missing).1
        exact still (by simpa using missing)
    · rw [if_neg again] at run
      simp only [Option.some.injEq, Prod.mk.injEq] at run
      exact ⟨added, run.2.symm, touches, fun missing => (none missing).1⟩

/-- A scan of a disk comes to the boot sector if it is a hard disk and there is memory, and else asks for nothing. -/
theorem scan_disk {self : Nat} {d : Volume} (sane : w.Sane) (disk : w.vols self = some d) (isDisk : d.IsDisk)
    (run : scan sys up self w = some w') :
    w'.Sane ∧ ∃ added, w'.asks = w.asks ++ added ∧
      (d.host.Hdd ∧ sys.bootMemory = true ∧ sys.Boots w.asks self → ∃ a ∈ added, a.Touches d.host.blockSize 0) ∧
      (¬ (d.host.Hdd ∧ sys.bootMemory = true ∧ sys.Boots w.asks self) → added = []) := by
  simp only [scan, disk, Option.bind_eq_bind, Option.bind_some] at run
  by_cases scanned : d.pidx = 0 ∧ d.host.driverClass = dclassHdd ∧ d.host.driverType = dtypeDev ∧
      d.host.driverMode = dmodeBlock ∧ sys.bootMemory = true
  · simp only [if_pos scanned, Option.bind_eq_some_iff] at run
    obtain ⟨⟨tmo, w₁⟩, booted, run⟩ := run
    obtain ⟨added, rfl, touches, none⟩ := readBoot_disk isDisk booted
    have sane₁ : ({ w with asks := w.asks ++ added } : World).Sane := sane.congr rfl
    have hdd : d.host.Hdd := ⟨scanned.2.1, scanned.2.2.1, scanned.2.2.2.1⟩
    have touched : d.host.Hdd ∧ sys.bootMemory = true ∧ sys.Boots w.asks self → ∃ a ∈ added, a.Touches d.host.blockSize 0 :=
      fun all => touches all.2.2
    have missed : ¬ (d.host.Hdd ∧ sys.bootMemory = true ∧ sys.Boots w.asks self) → added = [] :=
      fun missing => none fun boots => missing ⟨hdd, scanned.2.2.2.2, boots⟩
    simp only at run
    by_cases used : tmo ≠ 0
    · rw [if_pos used] at run
      obtain ⟨sane', -, asks⟩ :=
        scanTable_spec sane₁ disk isDisk hdd run
      exact ⟨sane', added, asks, touched, missed⟩
    · rw [if_neg used] at run
      obtain rfl := Option.some.inj run
      exact ⟨sane₁, added, rfl, touched, missed⟩
  · rw [if_neg scanned] at run
    obtain rfl := Option.some.inj run
    refine ⟨sane, [], (List.append_nil _).symm, fun all => ?_, fun _ => rfl⟩
    exact absurd ⟨isDisk.pidx, all.1.1, all.1.2.1, all.1.2.2, all.2.1⟩ scanned

/-- A partition has nothing to scan. -/
theorem scan_part {self : Nat} (found : w.vols self = some v) (part : v.pidx ≠ 0) (run : scan sys up self w = some w') :
    w' = w := by
  simp only [scan, found, Option.bind_eq_bind, Option.bind_some, part, false_and, if_false, Option.some.injEq] at run
  exact run.symm

/-- Whatever volume scans, the system stays sane. -/
theorem scan_keeps {self : Nat} (sane : w.Sane) (run : scan sys up self w = some w') : w'.Sane := by
  cases found : w.vols self with
  | none => simp [scan, found] at run
  | some v =>
    obtain isDisk | ⟨d, -, -, isPart⟩ := sane.kind self v found
    · exact (scan_disk sane found isDisk run).1
    · exact scan_part found isPart.pidx run ▸ sane

theorem rescan_keeps {self block : Nat} {write : Bool} (sane : w.Sane) (run : rescan sys up self write block w = some w') :
    w'.Sane := by
  unfold rescan at run
  split at run
  · exact scan_keeps sane run
  · exact Option.some.inj run ▸ sane

/-- The calls that keep the system sane. -/
structure Parent.Keeps (up : Parent) : Prop where
  ioctl : ∀ {cmd self : Nat} {dio dio' : DriverIo} {w w' : World}, dio.offset < 2 ^ 64 → w.Sane →
    up.ioctl cmd self dio w = some (dio', w') → w'.Sane
  fileIo : ∀ {write : Bool} {self offset sz r : Nat} {w w' : World}, w.Sane →
    up.fileIo write self offset sz w = some (r, w') → w'.Sane

theorem directIo_keeps {write : Bool} {block count : Nat} (keeps : up.Keeps) (sane : w.Sane)
    (run : directIo sys up v write block count w = some (r, w')) : w'.Sane := by
  simp only [directIo] at run
  split at run
  · simp only [World.ask, Option.some.injEq, Prod.mk.injEq] at run
    exact sane.congr (run.2 ▸ rfl)
  split at run
  · simp only [Option.bind_eq_bind, Option.bind_eq_some_iff, Option.some.injEq, Prod.mk.injEq] at run
    obtain ⟨⟨dio, w₁⟩, called, -, rfl⟩ := run
    exact keeps.ioctl (Nat.mod_lt _ (Nat.two_pow_pos 64)) sane called
  · simp only [Option.some.injEq, Prod.mk.injEq] at run
    exact run.2 ▸ sane

theorem blockIo_keeps {self block count : Nat} {write : Bool} (keeps : up.Keeps) (sane : w.Sane)
    (run : blockIo sys up self v write block count w = some (r, w')) : w'.Sane := by
  unfold blockIo at run
  split at run
  · exact directIo_keeps keeps sane run
  split at run
  · simp only [Option.bind_eq_bind, Option.bind_eq_some_iff, Option.some.injEq, Prod.mk.injEq] at run
    obtain ⟨⟨bytes, w₁⟩, run, -, rfl⟩ := run
    exact sane.congr (cacheLoop_vols run)
  · exact directIo_keeps keeps sane run

theorem volBlockIo_keeps {self block count : Nat} {write : Bool} (keeps : up.Keeps) (sane : w.Sane)
    (run : volBlockIo sys up self write block count w = some (r, w')) : w'.Sane := by
  simp only [volBlockIo, Option.bind_eq_bind, Option.bind_eq_some_iff] at run
  obtain ⟨v, -, run⟩ := run
  split at run
  · simp only [Option.some.injEq, Prod.mk.injEq] at run
    exact run.2 ▸ sane
  simp only [Option.bind_eq_some_iff, Option.some.injEq, Prod.mk.injEq] at run
  obtain ⟨⟨r', w₁⟩, transferred, w₂, scanned, -, rfl⟩ := run
  exact rescan_keeps (blockIo_keeps keeps sane transferred) scanned

theorem ncLoop_vols {host : Host} {write : Bool} {nblocks last rounds block done : Nat}
    (run : ncLoop sys host write nblocks last rounds block done w = some (r, w')) : w'.vols = w.vols := by
  induction rounds generalizing block done w with
  | zero =>
    simp only [ncLoop] at run
    split at run
    · exact absurd run (by simp)
    · simp only [Option.some.injEq, Prod.mk.injEq] at run
      rw [← run.2]
  | succ rounds ih =>
    simp only [ncLoop, World.ask] at run
    split at run
    · exact (ih run).trans rfl
    · simp only [Option.some.injEq, Prod.mk.injEq] at run
      rw [← run.2]

theorem volFileIo_keeps {self offset sz : Nat} {write : Bool} (keeps : up.Keeps) (sane : w.Sane)
    (run : volFileIo sys up write self offset sz w = some (r, w')) : w'.Sane := by
  simp only [volFileIo, Option.bind_eq_bind, Option.bind_eq_some_iff] at run
  obtain ⟨v, -, run⟩ := run
  split at run
  · simp only [Option.some.injEq, Prod.mk.injEq] at run
    exact run.2 ▸ sane
  split at run
  · split at run
    · simp only [Option.bind_eq_some_iff, Option.some.injEq, Prod.mk.injEq] at run
      obtain ⟨⟨r₁, w₁⟩, run, w₂, scanned, -, rfl⟩ := run
      exact rescan_keeps (sane.congr (cacheLoop_vols run)) scanned
    · simp only [Option.some.injEq, Prod.mk.injEq] at run
      exact run.2 ▸ sane
  split at run
  · exact keeps.fileIo sane run
  split at run
  · simp only [Option.bind_eq_some_iff] at run
    obtain ⟨⟨r₁, w₁⟩, loaded, run⟩ := run
    have sane₁ := sane.congr (ncLoop_vols loaded)
    split at run
    · exact sane₁.congr (ncLoop_vols run)
    · simp only [Option.some.injEq, Prod.mk.injEq] at run
      exact run.2 ▸ sane₁
  · simp only [Option.some.injEq, Prod.mk.injEq] at run
    exact run.2 ▸ sane

/-- `m_current_offset` is written. -/
theorem World.Sane.seek (sane : w.Sane) (found : w.vols p = some v) {offset : Nat} (small : offset < 2 ^ 64) :
    (w.put p { v with currentOffset := offset }).Sane := by
  refine sane.put_same found small ?_ ?_ rfl rfl
  · exact fun disk => ⟨disk.flags, disk.pidx, disk.offset, disk.pvd⟩
  · exact fun host part => { part with }

theorem volSerialIo_keeps {self sz : Nat} {write : Bool} (keeps : up.Keeps) (sane : w.Sane)
    (run : volSerialIo sys up write self sz w = some (r, w')) : w'.Sane := by
  simp only [volSerialIo, Option.bind_eq_bind, Option.bind_eq_some_iff, Option.some.injEq, Prod.mk.injEq] at run
  obtain ⟨v, -, ⟨r₁, w₁⟩, transferred, v₁, found, -, rfl⟩ := run
  exact (volFileIo_keeps keeps sane transferred).seek found (Nat.mod_lt _ (Nat.two_pow_pos 64))

theorem volCommand_keeps {cmd self : Nat} {dio : DriverIo} {answer : Option Nat} (keeps : up.Keeps)
    (typed : dio.offset < 2 ^ 64) (sane : w.Sane) (run : volCommand sys up cmd self dio w = some (answer, w')) :
    w'.Sane := by
  have mapped : ∀ {out : Option (Nat × World)}, (∀ r w', out = some (r, w') → w'.Sane) →
      out.map (Prod.map some id) = some (answer, w') → w'.Sane := by
    intro out kept run
    simp only [Option.map_eq_some_iff, Prod.map, id, Prod.mk.injEq] at run
    obtain ⟨⟨r, w₁⟩, done, -, rfl⟩ := run
    exact kept r w₁ done
  simp only [volCommand] at run
  repeat' split at run
  · simp only [Option.bind_eq_bind, Option.bind_eq_some_iff, Option.some.injEq, Prod.mk.injEq] at run
    obtain ⟨v, found, -, rfl⟩ := run
    exact sane.seek found typed
  · exact mapped (fun _ _ => volSerialIo_keeps keeps sane) run
  · exact mapped (fun _ _ => volSerialIo_keeps keeps sane) run
  · exact mapped (fun _ _ => volBlockIo_keeps keeps sane) run
  · exact mapped (fun _ _ => volBlockIo_keeps keeps sane) run
  · exact mapped (fun _ _ => volFileIo_keeps keeps sane) run
  · exact mapped (fun _ _ => volFileIo_keeps keeps sane) run
  · simp only [Option.some.injEq, Prod.mk.injEq] at run
    exact run.2 ▸ sane

theorem volIoctl_keeps {cmd self : Nat} {dio dio' : DriverIo} (keeps : up.Keeps) (typed : dio.offset < 2 ^ 64)
    (sane : w.Sane) (run : volIoctl sys up cmd self dio w = some (dio', w')) : w'.Sane := by
  simp only [volIoctl, Option.bind_eq_bind, Option.bind_eq_some_iff] at run
  obtain ⟨v, -, run⟩ := run
  split at run
  · simp only [Option.bind_eq_some_iff] at run
    obtain ⟨⟨answer, w₁⟩, done, run⟩ := run
    have typed₁ : ({ dio.setResult 0 with error := 0 } : DriverIo).offset < 2 ^ 64 := typed
    have sane₁ := volCommand_keeps keeps typed₁ sane done
    cases answer with
    | none =>
      simp only [Option.some.injEq, Prod.mk.injEq] at run
      exact run.2 ▸ sane₁
    | some r =>
      simp only [Option.some.injEq, Prod.mk.injEq] at run
      exact run.2 ▸ sane₁
  · simp only [Option.some.injEq, Prod.mk.injEq] at run
    exact run.2 ▸ sane

theorem volumes_keeps (sys : Services) (n : Nat) : (volumes sys n).Keeps := by
  induction n with
  | zero => exact ⟨fun _ _ run => absurd run (by simp [volumes]), fun _ run => absurd run (by simp [volumes])⟩
  | succ n ih => exact ⟨volIoctl_keeps ih, volFileIo_keeps ih⟩

/-- Every state of a system is sane. -/
theorem Reachable.sane (reached : Reachable sys w) : w.Sane := by
  induction reached with
  | empty => exact ⟨rfl, nofun, nofun⟩
  | @attach w w' p n host size _ real free run ih =>
    have added : (w.put p (diskVolume host size)).Sane :=
      ih.put_new real free (Nat.two_pow_pos 64) (.inl ⟨rfl, rfl, rfl, rfl⟩)
    have sane : ({ w.put p (diskVolume host size) with drivers := w.drivers ++ [p] } : World).Sane := added.congr rfl
    exact scan_keeps sane run
  | request _ typed run ih => exact (volumes_keeps sys _).ioctl typed ih run
  | @uninit w p v _ found ih =>
    have small : ({ v with ioEnable := false } : Volume).currentOffset < 2 ^ 64 := ih.offset_lt p v found
    refine ih.put_same found small ?_ ?_ rfl rfl
    · exact fun disk => ⟨disk.flags, disk.pidx, disk.offset, disk.pvd⟩
    · exact fun host part => { part with }

end Keeps

end PreTeO.Bdev.Vol
