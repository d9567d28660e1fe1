import PreTeO.Lib.Run
import PreTeO.Mgfs3.FileWrite

/-!
# Files as rows of bytes

Over calls of `mgfs_inode_read` and `mgfs_inode_write` that stay within the units, files are what their names say: each is a
row of bytes with a size, a read returns bytes of the row and a write replaces some. What was written is marked for writing.
-/

namespace PreTeO.Mgfs3
set_option autoImplicit false
open PreTeO.Lib

/-- A call for an open file. Its handle has the buffer of `unit`, in which the record is. -/
inductive InodeCall where
  | read (number unit offset size : Nat)
  | write (number unit offset size : Nat) (data : Nat → Byte)

/-- What a call returns: the bytes read, or the number of those written. -/
inductive InodeResult where
  | bytes (bytes : List Byte)
  | count (n : Nat)

/-- The call on the volume. -/
def Volume.call (hlock : Nat) (v : Volume) : InodeCall → Option (InodeResult × Volume)
  | .read number unit offset size =>
    ((mgfsInodeRead ⟨.file number, some unit⟩ offset size hlock).run v).toOption.map (Prod.map InodeResult.bytes id)
  | .write number unit offset size data =>
    ((mgfsInodeWrite ⟨.file number, some unit⟩ offset size data hlock).run v).toOption.map (Prod.map InodeResult.count id)

/-! ## Rows of bytes -/

/-- A file: the recorded size, and the bytes. -/
structure FileRow where
  sz : Nat
  bytes : Mem

/-- The call on files that have room for so many bytes. A read does not look at the recorded size. -/
def FileRow.call (room : Nat → Nat) (files : Nat → FileRow) : InodeCall → InodeResult × (Nat → FileRow)
  | .read number _ offset size =>
    (.bytes ((files number).bytes.bytes offset (min size (room number - offset))), files)
  | .write number _ offset size data =>
    (.count size, Function.update files number
      ⟨max (files number).sz (offset + size), (files number).bytes.blit offset size data⟩)

/-- The files of a volume. -/
def Volume.rows (v : Volume) (number : Nat) : FileRow := ⟨(v.inodes (.file number)).sz, v.fileBytes (.file number)⟩

/-- A call for one of the files; a write stays within its units. -/
def InodeCall.Inside (F : Nat → Prop) (room : Nat → Nat) : InodeCall → Prop
  | .read number _ _ _ => F number
  | .write number _ offset size _ => F number ∧ offset + size ≤ room number

/-- The files in `F` have all their blocks, each in a unit of its own, and no address unit of one of them is among the
units. -/
structure FilesOk (hlock : Nat) (F : Nat → Prop) (v : Volume) : Prop where
  ready : Ready hlock v
  reads : ∀ unit, v.reads unit = true
  whole : ∀ n, F n → Whole v (.file n)
  apart : ∀ n m, F n → F m → ∀ b < (v.inodes (.file n)).dunits, ∀ c < (v.inodes (.file m)).dunits,
    v.unitNo (.file m) c = v.unitNo (.file n) b → m = n ∧ c = b
  data : ∀ n m, F n → F m → ∀ b < (v.inodes (.file n)).dunits, ∀ c < (v.inodes (.file m)).dunits,
    v.unitNo (.file m) c ∉ addressesOf v.dev v.unitSize (v.inodes (.file n)) b

/-- The units of a file, and its record, were marked for writing since they changed. -/
def Volume.FileSaved (v : Volume) (number : Nat) : Prop :=
  (∀ b < (v.inodes (.file number)).dunits, v.Saved (v.unitNo (.file number) b)) ∧
    v.stored (.file number) = v.inodes (.file number)

/-- A volume that has the files, in the units of another. What was saved there is, and nothing else changed. -/
structure Has (hlock : Nat) (F : Nat → Prop) (v₀ v : Volume) (files : Nat → FileRow) : Prop where
  ok : FilesOk hlock F v
  same : ∀ n, F n → Same (.file n) v₀ v
  sz : ∀ n, F n → (v.inodes (.file n)).sz = (files n).sz
  bytes : ∀ n, F n → ∀ p < v₀.room (.file n), v.fileBytes (.file n) p = (files n).bytes p
  others : ∀ unit, (∀ n, F n → ∀ b < (v₀.inodes (.file n)).dunits, v₀.unitNo (.file n) b ≠ unit) → v.mem unit = v₀.mem unit
  marked : ∀ unit, v₀.Saved unit → v.Saved unit
  filed : ∀ n, F n → v₀.stored (.file n) = v₀.inodes (.file n) → v.stored (.file n) = v.inodes (.file n)

section Store
variable {hlock : Nat} {F : Nat → Prop} {v₀ v w : Volume} {files : Nat → FileRow} {number unit offset size : Nat}
  {data : Nat → Byte}

theorem FilesOk.distinct (ok : FilesOk hlock F v) (mine : F number) : Distinct v (.file number) :=
  ⟨fun b low c low' same => (ok.apart number number mine mine b low c low' same).2, ok.data number number mine mine⟩

/-- The files keep their units if no address unit of them changes. -/
theorem FilesOk.of_same (ok : FilesOk hlock F v) (ready : Ready hlock w) (reads : w.reads = v.reads)
    (same : ∀ n, F n → Same (.file n) v w) : FilesOk hlock F w := by
  refine ⟨ready, fun x => reads ▸ ok.reads x, fun n mine => (same n mine).whole (ok.whole n mine), ?_, ?_⟩
  · intro n m mine mine' b low c low'
    rw [(same n mine).dunits] at low
    rw [(same m mine').dunits] at low'
    rw [(same n mine).unitNo (ok.whole n mine) low, (same m mine').unitNo (ok.whole m mine') low']
    exact ok.apart n m mine mine' b low c low'
  · intro n m mine mine' b low c low'
    rw [(same n mine).dunits] at low
    rw [(same m mine').dunits] at low'
    rw [((same n mine).block (ok.whole n mine) low).2.1, (same m mine').unitNo (ok.whole m mine') low']
    exact ok.data n m mine mine' b low c low'

theorem Ticked.same (ticked : Ticked v w) (ref : Ref) : Same ref v w := by
  obtain ⟨t, rfl⟩ := ticked
  exact ⟨rfl, rfl, rfl, rfl, rfl, fun _ _ _ _ => rfl⟩

theorem Has.ticked (has : Has hlock F v₀ v files) (ticked : Ticked v w) : Has hlock F v₀ w files := by
  have ok := has.ok.of_same (ticked.ready has.ok.ready) (ticked.same (.file 0)).reads fun n _ => ticked.same (.file n)
  obtain ⟨t, rfl⟩ := ticked
  exact ⟨ok, fun n mine => { has.same n mine with }, has.sz, has.bytes, has.others, has.marked, has.filed⟩

/-- The files are in the units they were in. -/
theorem Has.unitNo (start : FilesOk hlock F v₀) (has : Has hlock F v₀ v files) (mine : F number) {b : Nat}
    (low : b < (v₀.inodes (.file number)).dunits) : v.unitNo (.file number) b = v₀.unitNo (.file number) b :=
  (has.same number mine).unitNo (start.whole number mine) low

/-- A read. -/
theorem Has.read (has : Has hlock F v₀ v files) (mine : F number) :
    ∃ w, v.call hlock (.read number unit offset size) =
      some (.bytes ((files number).bytes.bytes offset (min size (v₀.room (.file number) - offset))), w) ∧
      Has hlock F v₀ w files := by
  have valid : (⟨.file number, some unit⟩ : InodeHandle).hb ≠ none := Option.some_ne_none unit
  obtain ⟨w, run, ticked⟩ := @mgfsInodeRead_bytes hlock v ⟨.file number, some unit⟩ offset size has.ok.ready has.ok.reads
    (has.ok.whole number mine) valid
  refine ⟨w, ?_, has.ticked ticked⟩
  have bytes : (v.fileBytes (.file number)).bytes offset (min size (v.room (.file number) - offset)) =
      (files number).bytes.bytes offset (min size (v₀.room (.file number) - offset)) := by
    rw [(has.same number mine).room]
    exact Mem.bytes_congr fun p _ high => has.bytes number mine p (by omega)
  rw [Volume.call, run, ← bytes]
  rfl

/-- A write into a file leaves the others as they are. -/
theorem Has.write (start : FilesOk hlock F v₀) (has : Has hlock F v₀ v files) (mine : F number)
    (inside : offset + size ≤ v₀.room (.file number)) :
    ∃ w, v.call hlock (.write number unit offset size data) = some (.count size, w) ∧
      Has hlock F v₀ w (Function.update files number
        ⟨max (files number).sz (offset + size), (files number).bytes.blit offset size data⟩) := by
  have whole := has.ok.whole number mine
  have distinct := has.ok.distinct mine
  rw [← (has.same number mine).room] at inside
  obtain ⟨u, w, run, stored, ticked⟩ := @mgfsInodeWrite_stored (.file number) hlock data v unit offset size has.ok.ready
    has.ok.reads whole distinct inside
  refine ⟨w, by rw [Volume.call, run]; rfl, Has.ticked ?_ ticked⟩
  have same (n : Nat) (mine' : F n) : Same (.file n) v (u.recorded (.file number) unit (offset + size)) :=
    stored.keeps (has.ok.data n number mine' mine)
  have other {n : Nat} (ne : n ≠ number) : Ref.file n ≠ .file number := fun same => ne (Ref.file.inj same)
  refine ⟨has.ok.of_same (stored.ready has.ok.ready) (same number mine).reads same,
    fun n mine' => (has.same n mine').trans (start.whole n mine') (same n mine'), fun n mine' => ?_, fun n mine' p low => ?_,
    fun x none => ?_, fun x saved => stored.marked (has.marked x saved), fun n mine' first => ?_⟩
  · by_cases here : n = number
    · subst here
      rw [Function.update_self, stored.size, has.sz n mine]
    · rw [Function.update_of_ne here, stored.record (other here), has.sz n mine']
  · have low' := low
    rw [← (has.same n mine').room] at low'
    rw [(same n mine').fileBytes (has.ok.whole n mine') low']
    by_cases here : n = number
    · subst here
      rw [Function.update_self]
      exact (stored.bytes p low').trans (Mem.blit_at (has.bytes n mine p low))
    · rw [Function.update_of_ne here, ← has.bytes n mine' p low]
      -- the units of another file are no units of this one
      refine Mem.paged_congr (fun b bound => (stored.others _ fun c bound' same => here ?_).1) low'
      exact (has.ok.apart n number mine' mine b bound c bound' same).1.symm
  · refine (stored.others x fun b low => ?_).1.trans (has.others x none)
    rw [(has.same number mine).dunits] at low
    rw [has.unitNo start mine low]
    exact none number mine b low
  · exact stored.filed (has.filed n mine' first) (decide_eq_true rfl)

theorem Has.start (ok : FilesOk hlock F v) : Has hlock F v v v.rows :=
  ⟨ok, fun n _ => Same.refl (.file n) v, fun _ _ => rfl, fun _ _ _ _ => rfl, fun _ _ => rfl, fun _ saved => saved,
    fun _ _ filed => filed⟩

/-- The bytes of a saved file are on the disk. -/
theorem Has.disk (start : FilesOk hlock F v₀) (has : Has hlock F v₀ v files) (mine : F number) (saved : v₀.FileSaved number) :
    (v.stored (.file number)).sz = (files number).sz ∧ ∀ p < v₀.room (.file number),
      Mem.paged v.disk v.unitSize (v.unitNo (.file number)) p = (files number).bytes p := by
  refine ⟨by rw [has.filed number mine saved.2, has.sz number mine], fun p low => ?_⟩
  rw [← has.bytes number mine p low]
  rw [← (has.same number mine).room] at low
  refine Mem.paged_congr (fun b inside => ?_) low
  rw [(has.same number mine).dunits] at inside
  rw [has.unitNo start mine inside]
  exact (has.marked _ (saved.1 b inside)).2

/-- Over any calls that stay within the units the volume has the files that the rows become. -/
theorem Has.run (ok : FilesOk hlock F v₀) (calls : List InodeCall)
    (inside : ∀ call ∈ calls, call.Inside F fun n => v₀.room (.file n)) :
    ∃ v, outcome (Volume.call hlock) v₀ calls =
        some ((results (FileRow.call fun n => v₀.room (.file n)) v₀.rows calls).1, v) ∧
      Has hlock F v₀ v (results (FileRow.call fun n => v₀.room (.file n)) v₀.rows calls).2 := by
  have sim : ∀ v files call, Has hlock F v₀ v files → call.Inside F (fun n => v₀.room (.file n)) →
      ∃ w, v.call hlock call = some ((FileRow.call (fun n => v₀.room (.file n)) files call).1, w) ∧
        Has hlock F v₀ w (FileRow.call (fun n => v₀.room (.file n)) files call).2 := by
    intro v files call has inside
    cases call with
    | read number unit offset size => exact has.read inside
    | write number unit offset size data => exact has.write ok inside.1 inside.2
  exact simulation sim (Has.start ok) calls (Allowed.of_forall calls inside v₀)

/-- Over any calls that stay within the units a file is a row of bytes: the calls return what they return for rows, the
volume has the rows they leave, and so has the disk of those that were saved at first. -/
theorem files_refine (ok : FilesOk hlock F v₀) (calls : List InodeCall)
    (inside : ∀ call ∈ calls, call.Inside F fun n => v₀.room (.file n)) :
    ∃ v, outcome (Volume.call hlock) v₀ calls =
        some ((results (FileRow.call fun n => v₀.room (.file n)) v₀.rows calls).1, v) ∧
      ∀ n, F n → let file := (results (FileRow.call fun n => v₀.room (.file n)) v₀.rows calls).2 n
        (v.inodes (.file n)).sz = file.sz ∧ (∀ p < v₀.room (.file n), v.fileBytes (.file n) p = file.bytes p) ∧
        (v₀.FileSaved n → (v.stored (.file n)).sz = file.sz ∧ ∀ p < v₀.room (.file n),
          Mem.paged v.disk v.unitSize (v.unitNo (.file n)) p = file.bytes p) := by
  obtain ⟨v, returns, has⟩ := Has.run ok calls inside
  exact ⟨v, returns, fun n mine => ⟨has.sz n mine, has.bytes n mine, has.disk ok mine⟩⟩

end Store

/-! ## Two files -/

/-- The record of a file of `n` units from `first` on. -/
def rowInode (first n sz : Nat) : Inode := ⟨0, 0, n, 0, fun i => if i < n then first + i else invalidUnitNumber, sz, 0⟩

def twoInodes (ref : Ref) : Inode := if ref = .file 1 then rowInode 10 2 600 else rowInode 12 1 0

/-- A volume of zeros with a file of two units and one of a unit. -/
def twoFiles : Volume := { zeroVolume 512 with inodes := twoInodes, stored := twoInodes }

theorem twoFiles_ok : FilesOk 0 (fun n => n = 1 ∨ n = 2) twoFiles := by
  refine ⟨.inl rfl, fun _ => rfl, fun n mine => ⟨?_, ?_, ?_⟩, fun n m mine mine' => ?_, fun n m mine mine' b low c low' => ?_⟩
  · rcases mine with rfl | rfl <;> decide
  · rcases mine with rfl | rfl <;> decide
  · rcases mine with rfl | rfl <;> exact fun block low => ⟨low.trans (by decide), trivial⟩
  · rcases mine with rfl | rfl <;> rcases mine' with rfl | rfl <;> decide
  · rcases mine with rfl | rfl <;> exact List.not_mem_nil

/-- Four bytes are written over the end of a unit, another file is written, and the bytes are read. -/
theorem files_refine_two : ∃ v, outcome (Volume.call 0) twoFiles [.write 1 3 510 4 fun i => BitVec.ofNat 8 (i + 1),
      .write 2 3 0 1 fun _ => 9#8, .read 1 3 508 8] =
        some ([.count 4, .count 1, .bytes [0#8, 0#8, 1#8, 2#8, 3#8, 4#8, 0#8, 0#8]], v) ∧
    (v.inodes (.file 1)).sz = 600 ∧ v.fileBytes (.file 1) 512 = 3#8 := by
  obtain ⟨v, returns, files⟩ := files_refine twoFiles_ok [.write 1 3 510 4 fun i => BitVec.ofNat 8 (i + 1),
    .write 2 3 0 1 fun _ => 9#8, .read 1 3 508 8] (by
      rw [List.forall_mem_cons, List.forall_mem_cons, List.forall_mem_cons]
      exact ⟨⟨.inl rfl, by decide⟩, ⟨.inr rfl, by decide⟩, .inl rfl, List.forall_mem_nil _⟩)
  obtain ⟨sz, bytes, -⟩ := files 1 (.inl rfl)
  exact ⟨v, returns, sz, bytes 512 (by decide)⟩

end PreTeO.Mgfs3
