import PreTeO.Mgfs3.FileNames

/-!
# Soft links as operands

A soft link opens with a null inode. Which functions of `file.cpp`, and which requests on a handle of a link, look at the inode
nevertheless, depends on the operation and on where in it the link stands.
-/

namespace PreTeO.Mgfs3
set_option autoImplicit false
open PreTeO.Lib

/-- `name` is a soft link at `p` in the open directory `hdir` with the inode `n`. -/
structure SoftLink (v : Files) (hdir : FileHandle) (name : Nat → Byte) (n : Nat) (p : Position) : Prop where
  pInode : hdir.pInode = some n
  opened : hdir.opened = true
  dir : (v.inodes n).flags &&& mgfsDir ≠ 0
  found : (v.dirs n).open name = some (some p)
  link : (v.dirs n).flags p &&& dentryLink ≠ 0#8

/-- The handle of a soft link. -/
def linkHandle (n : Nat) (p : Position) : FileHandle := ⟨none, false, invalidInodeNumber, some (n, p)⟩

/-- The operations on a soft link, with their other operands: by its name, or on a handle opened on it. `moveInto` and `linkInto`
are an `FMOVE` and an `FLINK` of another file whose second handle is the link's. -/
inductive LinkUse where
  | open
  | delete
  | moveFrom (hdst : FileHandle) (dstname : Nat → Byte)
  | moveOnto (hsrc : FileHandle) (srcname : Nat → Byte)
  | hardLink (hdst : FileHandle) (linkName : Nat → Byte)
  | moveInto (hsrc : FileHandle) (srcname dstname : Nat → Byte)
  | linkInto (hsrc : FileHandle) (srcname linkName : Nat → Byte)
  | pmask
  | ioctl (position : Nat) (request : Request)

/-- What a call did, without its result. -/
def discard {A : Type} (m : FileM A) : FileM Unit := m >>= fun _ => pure ()

/-- The operation on the link `name` of `hdir` that `hlink` is opened on. -/
def LinkUse.run (calls : FileCalls) (hdir : FileHandle) (name : Nat → Byte) (hlink : FileHandle) : LinkUse → FileM Unit
  | .open => discard (mgfsFileOpen name hdir)
  | .delete => discard (mgfsFileDelete calls name hdir)
  | .moveFrom hdst dstname => discard (mgfsFileMove calls hdir name hdst dstname)
  | .moveOnto hsrc srcname => discard (mgfsFileMove calls hsrc srcname hdir name)
  | .hardLink hdst linkName => discard (mgfsFileCreateHardLink calls hdir name hdst linkName)
  | .moveInto hsrc srcname dstname => discard (mgfsFileMove calls hsrc srcname hlink dstname)
  | .linkInto hsrc srcname linkName => discard (mgfsFileCreateHardLink calls hsrc srcname hlink linkName)
  | .pmask => discard (mgfsPmask hlink)
  | .ioctl position request => discard (PreTeO.Mgfs3.ioctl calls hlink position request)

/-- What `mgfs_file_open` returns; it changes nothing. -/
def Files.opens (v : Files) (hdir : FileHandle) (name : Nat → Byte) : Except Fault (Option FileHandle) :=
  ((mgfsFileOpen name hdir).run v).map Prod.fst

/-- Nothing is different but the blocks of the directories `ks` and their modification times. -/
structure OnlyEntries (ks : List Nat) (v w : Files) : Prop where
  records : w.records = v.records
  inodes : ∀ k, { w.inodes k with mo := (v.inodes k).mo } = v.inodes k
  others : ∀ k, k ∉ ks → w.inodes k = v.inodes k ∧ w.dirs k = v.dirs k

/-- The directories that the deletion or the move of a link of the directory `n` is given. -/
def LinkUse.directories (v : Files) (n : Nat) : LinkUse → List Nat
  | .moveFrom hdst dstname =>
    match v.opens hdst dstname with
    | .ok (some hd) => n :: hd.pInode.toList
    | _ => n :: hdst.pInode.toList
  | _ => [n]

/-- The operation deletes or moves the link. -/
def LinkUse.TakesAway : LinkUse → Prop
  | .delete => True
  | .moveFrom _ _ => True
  | _ => False

/-- The operation uses no inode record that a link does not have, and if it deletes or moves the link, then it does so in the
directories only. -/
structure LinkUse.Safe (calls : FileCalls) (v : Files) (hdir : FileHandle) (name : Nat → Byte) (hlink : FileHandle) (n : Nat)
    (u : LinkUse) : Prop where
  access : (u.run calls hdir name hlink).run v ≠ .error .nullInode
  entries : u.TakesAway → ∀ w, (u.run calls hdir name hlink).run v = .ok ((), w) → OnlyEntries (u.directories v n) v w

/-- The directory takes a new entry. -/
def Files.Takes (calls : FileCalls) (v : Files) (h : FileHandle) (e : NewEntry) : Prop :=
  ∃ m d, h.pInode = some m ∧ h.opened = true ∧ (v.dirs m).createIn (calls.grows m v) e = some (true, d)

/-- The requests that never come to the inode. -/
def Request.Guarded (calls : FileCalls) (v : Files) : Request → Prop
  | .fopen _ _ | .fclose _ | .flink _ _ _ | .fmove _ _ _ | .fsize | .finfo _ | .other => True
  | .fcreate room _ _ _ => room = false
  | .fslink name path => calls.alloc ((strLen name + strLen path + 2) % 2 ^ 16) v = false
  | .fdelete _ | .serial _ _ | .block _ _ _ | .file _ _ _ | .fseek _ | .fpmask => False

/-- What is moved there is a link, and the heap has no memory for its new name. -/
def Files.StaysPut (calls : FileCalls) (v : Files) (hf : FileHandle) (name : Nat → Byte) : Prop :=
  ∃ k q, hf.pDentry = some (k, q) ∧ (v.dirs k).flags q &&& dentryLink ≠ 0#8 ∧
    calls.alloc (strLen name + 1 + strLen ((v.dirs k).linkName q) + 1) v = false

/-- The operation does not come to the inode of the link at `p` in `n`: a move finds no soft link at its destination, a move
onto the link finds no source, a hard link is not made, and nothing is put into the link. -/
def LinkUse.Guarded (calls : FileCalls) (v : Files) (n : Nat) (p : Position) : LinkUse → Prop
  | .open => True
  | .delete => False
  | .moveFrom hdst dstname =>
    match v.opens hdst dstname with
    | .ok (some hd) => hd.pInode ≠ none
    | .ok none =>
      hdst.pInode ≠ none ∨ calls.alloc (strLen dstname + 1 + strLen ((v.dirs n).linkName p) + 1) v = false
    | .error _ => True
  | .moveOnto hsrc srcname => ∀ hf, v.opens hsrc srcname ≠ .ok (some hf)
  | .hardLink hdst linkName => hdst.pInode ≠ none ∧
      ¬ v.Takes calls hdst ⟨linkName, strLen linkName + 1, (v.dirs n).inodeNumber p, 0#8⟩
  | .moveInto hsrc srcname dstname => ∀ hf, v.opens hsrc srcname = .ok (some hf) → v.StaysPut calls hf dstname
  | .linkInto hsrc srcname _ => ∀ hf, v.opens hsrc srcname ≠ .ok (some hf)
  | .pmask => False
  | .ioctl _ request => request.Guarded calls v

/-! ## Changes to directories only -/

section Entries
variable {calls : FileCalls} {v w x : Files} {ks : List Nat} {h hdir hsrc hdst : FileHandle} {n : Nat}

theorem OnlyEntries.refl (ks : List Nat) (v : Files) : OnlyEntries ks v v :=
  ⟨rfl, fun _ => rfl, fun _ _ => ⟨rfl, rfl⟩⟩

theorem OnlyEntries.trans (first : OnlyEntries ks v w) (second : OnlyEntries ks w x) : OnlyEntries ks v x := by
  refine ⟨second.records.trans first.records, fun k => ?_, fun k out => ?_⟩
  · have one := first.inodes k
    rw [← second.inodes k] at one
    exact one
  · exact ⟨((second.others k out).1).trans (first.others k out).1, ((second.others k out).2).trans (first.others k out).2⟩

theorem OnlyEntries.putDir (inside : n ∈ ks) (d : Directory) : OnlyEntries ks v (v.putDir n d) := by
  refine ⟨rfl, fun _ => rfl, fun k out => ⟨rfl, ?_⟩⟩
  exact Function.update_of_ne (fun same : k = n => out (same ▸ inside)) _ _

theorem OnlyEntries.touch (inside : n ∈ ks) (now : Nat) : OnlyEntries ks v (v.touch n now) := by
  refine ⟨rfl, fun k => ?_, fun k out => ⟨?_, rfl⟩⟩
  · by_cases here : k = n
    · subst here
      simp [Files.touch]
    · simp [Files.touch, here]
  · exact Function.update_of_ne (fun same : k = n => out (same ▸ inside)) _ _

/-- A new entry changes the directory it is made in. -/
theorem mgfsDentryCreate_entries (inside : ∀ m, h.pInode = some m → m ∈ ks) (e : NewEntry) :
    Along (OnlyEntries ks) (mgfsDentryCreate calls h e) := by
  unfold mgfsDentryCreate
  split
  · exact Along.stuck _
  · next m at_ =>
    have inside := inside m at_
    have trans : ∀ s t u, OnlyEntries ks s t → OnlyEntries ks t u → OnlyEntries ks s u := fun _ _ _ => OnlyEntries.trans
    refine Along.ite (fun _ => ?_) (fun _ => ?_)
    · unfold dentryCreate
      refine Along.bind trans (Along.get (OnlyEntries.refl ks)) fun v => ?_
      dsimp only
      split
      · refine Along.ite (fun _ => ?_) (fun _ => ?_)
        · refine Along.bind trans (Along.modify fun s => ?_) fun _ => Along.pure (OnlyEntries.refl ks) _
          exact ⟨rfl, fun _ => rfl, fun _ _ => ⟨rfl, rfl⟩⟩
        · refine Along.bind trans (Along.modify fun s => ?_) fun _ => Along.pure (OnlyEntries.refl ks) _
          split
          · exact (OnlyEntries.putDir inside _).trans (OnlyEntries.touch inside _)
          · exact OnlyEntries.putDir inside _
      · exact Along.stuck _
    · refine Along.bind trans (Along.get (OnlyEntries.refl ks)) fun v => Along.ite (fun _ => ?_) (fun _ => ?_)
      · exact Along.bind trans (Along.modify fun s => OnlyEntries.putDir inside _) fun _ =>
          Along.pure (OnlyEntries.refl ks) _
      · exact Along.pure (OnlyEntries.refl ks) _

/-- A deletion changes the directory it is made in. -/
theorem mgfsDentryDelete_entries (inside : ∀ m, h.pInode = some m → m ∈ ks) (name : Nat → Byte) :
    Along (OnlyEntries ks) (mgfsDentryDelete h name) := by
  have trans : ∀ s t u, OnlyEntries ks s t → OnlyEntries ks t u → OnlyEntries ks s u := fun _ _ _ => OnlyEntries.trans
  unfold mgfsDentryDelete
  refine Along.ite (fun _ => ?_) (fun _ => Along.pure (OnlyEntries.refl ks) _)
  split
  · exact Along.stuck _
  · next m place =>
    refine Along.bind trans (Along.get (OnlyEntries.refl ks)) fun v => ?_
    split
    · exact Along.stuck _
    · exact Along.bind trans (Along.modify fun s => OnlyEntries.putDir (inside m place) _) fun _ =>
        Along.pure (OnlyEntries.refl ks) _

theorem moveEntry_entries (src : ∀ m, hsrc.pInode = some m → m ∈ ks) (dst : ∀ m, hdst.pInode = some m → m ∈ ks)
    (srcname : Nat → Byte) (e : NewEntry) : Along (OnlyEntries ks) (moveEntry calls hsrc srcname hdst e) := by
  refine Along.bind (fun _ _ _ => OnlyEntries.trans) (mgfsDentryCreate_entries dst e) fun r => ?_
  cases r with
  | none => exact Along.pure (OnlyEntries.refl ks) _
  | some q => exact mgfsDentryDelete_entries src srcname

end Entries

/-! ## Where a null inode is used -/

section Access
variable {calls : FileCalls} {v w : Files} {h hdir hsrc hdst : FileHandle} {n : Nat} {p : Position} {name : Nat → Byte}
  {e : NewEntry}

theorem discard_error {A : Type} {m : FileM A} {f : Fault} : (discard m).run v = .error f ↔ m.run v = .error f := by
  unfold discard
  rw [Prog.run_bind]
  cases m.run v with
  | ok out => exact ⟨nofun, nofun⟩
  | error g => exact ⟨fun stops => congrArg _ (Except.error.inj stops), fun stops => congrArg _ (Except.error.inj stops)⟩

theorem discard_ok {A : Type} {m : FileM A} (run : (discard m).run v = .ok ((), w)) : ∃ a, m.run v = .ok (a, w) := by
  obtain ⟨a, t, first, last⟩ := Prog.bind_eq_ok run
  cases last
  exact ⟨a, first⟩

theorem record_null (null : h.pInode = none) : h.record = Prog.stuck .nullInode := by
  unfold FileHandle.record
  rw [null]

theorem record_run (real : h.pInode = some n) : h.record.run v = .ok (v.inodes n, v) := by
  unfold FileHandle.record
  rw [real]
  rfl

theorem mgfsDentryOpen_avoids (real : h.pInode ≠ none) (name : Nat → Byte) :
    Avoids .nullInode (mgfsDentryOpen h name) := by
  refine Avoids.ite (fun _ => ?_) (fun _ => Avoids.pure _)
  split
  · next null => exact absurd null real
  · refine Avoids.bind Avoids.get fun v => ?_
    split
    · exact Avoids.stuck nofun
    · exact Avoids.pure _

theorem mgfsFileOpen_avoids (name : Nat → Byte) (h : FileHandle) : Avoids .nullInode (mgfsFileOpen name h) := by
  unfold mgfsFileOpen
  split
  · exact Avoids.pure _
  · next n real =>
    refine Avoids.bind Avoids.get fun v => Avoids.ite (fun _ => ?_) fun _ => Avoids.pure _
    refine Avoids.bind (mgfsDentryOpen_avoids (by rw [real]; exact nofun) name) fun found => ?_
    cases found with
    | none => exact Avoids.pure _
    | some p => exact Avoids.bind Avoids.get fun _ => Avoids.pure _

theorem mgfsDentryCreate_null (null : h.pInode = none) : mgfsDentryCreate calls h e = Prog.stuck .nullInode := by
  unfold mgfsDentryCreate
  rw [null]

theorem mgfsDentryCreate_avoids (real : h.pInode ≠ none) (e : NewEntry) :
    Avoids .nullInode (mgfsDentryCreate calls h e) := by
  unfold mgfsDentryCreate
  split
  · next null => exact absurd null real
  · refine Avoids.ite (fun _ => ?_) (fun _ => ?_)
    · refine Avoids.bind Avoids.get fun v => ?_
      dsimp only
      split
      · refine Avoids.ite (fun _ => ?_) (fun _ => ?_)
        · exact Avoids.bind (Avoids.modify _) fun _ => Avoids.pure _
        · exact Avoids.bind (Avoids.modify _) fun _ => Avoids.pure _
      · exact Avoids.stuck nofun
    · refine Avoids.bind Avoids.get fun v => Avoids.ite (fun _ => ?_) (fun _ => Avoids.pure _)
      exact Avoids.bind (Avoids.modify _) fun _ => Avoids.pure _

theorem mgfsDentryDelete_avoids (real : h.pInode ≠ none) (name : Nat → Byte) :
    Avoids .nullInode (mgfsDentryDelete h name) := by
  refine Avoids.ite (fun _ => ?_) (fun _ => Avoids.pure _)
  split
  · next null => exact absurd null real
  · refine Avoids.bind Avoids.get fun v => ?_
    split
    · exact Avoids.stuck nofun
    · exact Avoids.bind (Avoids.modify _) fun _ => Avoids.pure _

theorem moveEntry_avoids (src : hsrc.pInode ≠ none) (dst : hdst.pInode ≠ none) (name : Nat → Byte) (e : NewEntry) :
    Avoids .nullInode (moveEntry calls hsrc name hdst e) := by
  refine Avoids.bind (mgfsDentryCreate_avoids dst e) fun r => ?_
  cases r with
  | none => exact Avoids.pure _
  | some q => exact mgfsDentryDelete_avoids src name

theorem moveEntry_null (dst : hdst.pInode = none) : (moveEntry calls hsrc name hdst e).run v = .error .nullInode := by
  unfold moveEntry
  exact Prog.bind_error (by rw [mgfsDentryCreate_null dst]; rfl)

/-- Opening changes nothing. -/
theorem mgfsFileOpen_same (name : Nat → Byte) (h : FileHandle) : Along Eq (mgfsFileOpen name h) := by
  have refl : ∀ s : Files, s = s := fun _ => rfl
  have trans : ∀ s t u : Files, s = t → t = u → s = u := fun _ _ _ => Eq.trans
  unfold mgfsFileOpen
  split
  · exact Along.pure refl _
  · refine Along.bind trans (Along.get refl) fun v => Along.ite (fun _ => ?_) fun _ => Along.pure refl _
    refine Along.bind trans ?_ fun found => ?_
    · unfold mgfsDentryOpen
      refine Along.ite (fun _ => ?_) (fun _ => Along.pure refl _)
      split
      · exact Along.stuck _
      · refine Along.bind trans (Along.get refl) fun v => ?_
        split
        · exact Along.stuck _
        · exact Along.pure refl _
    · cases found with
      | none => exact Along.pure refl _
      | some p => exact Along.bind trans (Along.get refl) fun _ => Along.pure refl _

theorem mgfsFileOpen_ok {r : Option FileHandle} : (mgfsFileOpen name h).run v = .ok (r, v) ↔ v.opens h name = .ok r := by
  unfold Files.opens
  cases run : (mgfsFileOpen name h).run v with
  | ok out =>
    obtain ⟨a, w⟩ := out
    obtain rfl := mgfsFileOpen_same name h v a w run
    simp [Except.map]
  | error f => exact ⟨nofun, nofun⟩

theorem mgfsFileOpen_error {f : Fault} : (mgfsFileOpen name h).run v = .error f ↔ v.opens h name = .error f := by
  unfold Files.opens
  cases run : (mgfsFileOpen name h).run v with
  | ok out => exact ⟨nofun, nofun⟩
  | error g => exact ⟨fun stops => congrArg _ (Except.error.inj stops), fun stops => congrArg _ (Except.error.inj stops)⟩

/-- A soft link opens without an inode. -/
theorem SoftLink.opens (link : SoftLink v hdir name n p) : v.opens hdir name = .ok (some (linkHandle n p)) := by
  refine mgfsFileOpen_ok.mp ?_
  unfold mgfsFileOpen mgfsDentryOpen
  rw [link.pInode]
  dsimp only
  rw [Prog.bind_ok (Prog.run_get v), if_pos link.dir, if_pos link.opened, Prog.bind_ok (a := some p) (t := v)]
  · dsimp only
    rw [Prog.bind_ok (Prog.run_get v)]
    simp only [Files.handleOf, if_pos link.link]
    rfl
  · rw [Prog.bind_ok (Prog.run_get v), link.found]
    rfl

/-- A name opens as an entry of a directory. -/
theorem opens_entry {hf : FileHandle} (opens : v.opens h name = .ok (some hf)) : ∃ place, hf.pDentry = some place := by
  have run := mgfsFileOpen_ok.mpr opens
  unfold mgfsFileOpen at run
  split at run
  · cases run
  · rw [Prog.bind_ok (Prog.run_get v)] at run
    split at run
    · obtain ⟨found, w, _, rest⟩ := Prog.bind_eq_ok run
      cases found with
      | none => cases rest
      | some p =>
        rw [Prog.bind_ok (Prog.run_get w)] at rest
        have made := congrArg Prod.fst (Except.ok.inj rest)
        dsimp only [Files.handleOf] at made
        split at made
        · exact ⟨_, by rw [← Option.some.inj made]⟩
        · split at made
          · exact ⟨_, by rw [← Option.some.inj made]⟩
          · cases made
    · cases run

/-- An entry is made where one is taken. -/
theorem mgfsDentryCreate_some : (∃ q w, (mgfsDentryCreate calls h e).run v = .ok (some q, w)) ↔ v.Takes calls h e := by
  unfold mgfsDentryCreate Files.Takes
  cases real : h.pInode with
  | none =>
    constructor
    · rintro ⟨q, w, run⟩
      cases run
    · rintro ⟨k, d, same, _⟩
      cases same
  | some m =>
    dsimp only
    by_cases opened : h.opened = true
    · rw [if_pos opened]
      unfold dentryCreate
      rw [Prog.bind_ok (Prog.run_get v)]
      dsimp only
      cases find : (v.dirs m).find e.name e.szName with
      | none =>
        constructor
        · rintro ⟨q, w, run⟩
          cases run
        · rintro ⟨k, d, same, _, made⟩
          obtain rfl := Option.some.inj same
          rw [Directory.createIn, find] at made
          cases made
      | some out =>
        cases create : (v.dirs m).createIn (calls.grows m v) e with
        | none =>
          constructor
          · rintro ⟨q, w, run⟩
            cases run
          · rintro ⟨k, d, same, _, made⟩
            obtain rfl := Option.some.inj same
            rw [create] at made
            cases made
        | some made =>
          obtain ⟨r, d⟩ := made
          dsimp only
          by_cases found : out.found = true
          · rw [if_pos found]
            constructor
            · rintro ⟨q, w, run⟩
              cases run
            · rintro ⟨k, d', same, _, made⟩
              obtain rfl := Option.some.inj same
              rw [Directory.createIn, find] at made
              dsimp only at made
              rw [if_pos found] at made
              cases made
          · rw [if_neg found]
            cases r with
            | false =>
              constructor
              · rintro ⟨q, w, run⟩
                cases run
              · rintro ⟨k, d', same, _, made⟩
                obtain rfl := Option.some.inj same
                rw [create] at made
                cases made
            | true => exact ⟨fun _ => ⟨m, d, rfl, opened, create⟩, fun _ => ⟨_, _, rfl⟩⟩
    · rw [if_neg opened]
      constructor
      · rintro ⟨q, w, run⟩
        rw [Prog.bind_ok (Prog.run_get v)] at run
        split at run
        · cases run
        · cases run
      · rintro ⟨_, _, _, yes, _⟩
        exact absurd yes opened

/-- A move that has its source open goes on with its destination. -/
theorem mgfsFileMove_run {hf : FileHandle} {name' : Nat → Byte} (opens : v.opens hsrc name = .ok (some hf))
    (place : hf.pDentry = some (n, p)) :
    (mgfsFileMove calls hsrc name hdst name').run v =
      (mgfsFileOpen name' hdst >>= fun found => match found with
        | some hfdst => hfdst.record >>= fun inode =>
          if inode.flags &&& mgfsDir ≠ 0 then
            moveEntry calls hsrc name hfdst ⟨(v.dirs n).name p, (v.dirs n).nameSize p, hf.number, (v.dirs n).flags p⟩
          else Prog.modify (fun v => { v with lastError := mgfsDentryExists }) >>= fun _ => pure false
        | none =>
          if (v.dirs n).flags p &&& dentryLink ≠ 0#8 then
            Prog.get >>= fun w =>
              if calls.alloc (strLen name' + 1 + strLen ((v.dirs n).linkName p) + 1) w then
                moveEntry calls hsrc name hdst ⟨joinNames name' ((v.dirs n).linkName p),
                  strLen name' + 1 + strLen ((v.dirs n).linkName p) + 1, hf.number, (v.dirs n).flags p⟩
              else pure false
          else moveEntry calls hsrc name hdst ⟨name', strLen name' + 1, hf.number, (v.dirs n).flags p⟩).run v := by
  unfold mgfsFileMove
  rw [Prog.bind_ok (mgfsFileOpen_ok.mpr opens)]
  have entry : hf.entry.run v = .ok ((n, p), v) := by
    unfold FileHandle.entry
    rw [place]
    rfl
  dsimp only
  rw [Prog.bind_ok entry]
  dsimp only
  exact Prog.bind_ok (Prog.run_get v)

end Access

/-! ## The operations -/

section Uses
variable {calls : FileCalls} {v w : Files} {hdir hlink hsrc hdst : FileHandle} {n : Nat} {p : Position}
  {name : Nat → Byte}

/-- The flags of the file are read before anything else is done. -/
theorem delete_link (link : SoftLink v hdir name n p) :
    (mgfsFileDelete calls name hdir).run v = .error .nullInode := by
  unfold mgfsFileDelete
  rw [Prog.bind_ok (record_run link.pInode), if_pos link.dir, Prog.bind_ok (mgfsFileOpen_ok.mpr link.opens)]
  dsimp only
  exact Prog.bind_error (by rw [record_null rfl]; rfl)

/-- A link is moved without its inode, unless the destination has none. -/
theorem move_link (link : SoftLink v hdir name n p) (dstname : Nat → Byte) :
    (mgfsFileMove calls hdir name hdst dstname).run v ≠ .error .nullInode ↔
      LinkUse.Guarded calls v n p (.moveFrom hdst dstname) := by
  have src : hdir.pInode ≠ none := by rw [link.pInode]; exact nofun
  rw [mgfsFileMove_run link.opens rfl]
  unfold LinkUse.Guarded
  dsimp only
  cases opens : v.opens hdst dstname with
  | error f =>
    have run := mgfsFileOpen_error.mpr opens
    rw [Prog.bind_error run]
    refine iff_of_true (fun stops => ?_) trivial
    cases stops
    exact mgfsFileOpen_avoids dstname hdst v run
  | ok found =>
    rw [Prog.bind_ok (mgfsFileOpen_ok.mpr opens)]
    cases found with
    | some hd =>
      dsimp only
      cases real : hd.pInode with
      | none => exact iff_of_false (fun avoids => avoids (Prog.bind_error (by rw [record_null real]; rfl))) fun h => h rfl
      | some m =>
        have dst : hd.pInode ≠ none := by rw [real]; exact nofun
        refine iff_of_true ?_ nofun
        rw [Prog.bind_ok (record_run real)]
        refine Avoids.ite (fun _ => moveEntry_avoids src dst _ _) (fun _ => ?_) v
        exact Avoids.bind (Avoids.modify _) fun _ => Avoids.pure _
    | none =>
      dsimp only
      rw [if_pos link.link, Prog.bind_ok (Prog.run_get v)]
      by_cases room : calls.alloc (strLen dstname + 1 + strLen ((v.dirs n).linkName p) + 1) v = true
      · rw [if_pos room]
        cases real : hdst.pInode with
        | none =>
          refine iff_of_false (fun avoids => avoids (moveEntry_null real)) ?_
          rintro (absent | full)
          · exact absent rfl
          · exact absurd (room.symm.trans full) nofun
        | some m => exact iff_of_true (moveEntry_avoids src (by rw [real]; exact nofun) _ _ v) (Or.inl nofun)
      · rw [if_neg room]
        exact iff_of_true nofun (Or.inr (Bool.eq_false_iff.mpr room))

/-- What the move of a link changes are directories. -/
theorem move_link_entries (link : SoftLink v hdir name n p) (dstname : Nat → Byte)
    {r : Bool} (run : (mgfsFileMove calls hdir name hdst dstname).run v = .ok (r, w)) :
    OnlyEntries (LinkUse.directories v n (.moveFrom hdst dstname)) v w := by
  have src : ∀ ks : List Nat, n ∈ ks → ∀ m, hdir.pInode = some m → m ∈ ks := by
    intro ks inside m real
    rw [link.pInode] at real
    exact Option.some.inj real ▸ inside
  have dst : ∀ h : FileHandle, ∀ m, h.pInode = some m → m ∈ n :: h.pInode.toList := by
    intro h m real
    rw [real]
    exact List.mem_cons_of_mem _ (List.mem_singleton.mpr rfl)
  rw [mgfsFileMove_run link.opens rfl] at run
  unfold LinkUse.directories
  dsimp only
  obtain ⟨found, u, opened, run⟩ := Prog.bind_eq_ok run
  obtain rfl := mgfsFileOpen_same dstname hdst v found u opened
  rw [mgfsFileOpen_ok.mp opened]
  cases found with
  | some hd =>
    dsimp only at run ⊢
    obtain ⟨inode, u, record, run⟩ := Prog.bind_eq_ok run
    cases real : hd.pInode with
    | none =>
      rw [record_null real] at record
      cases record
    | some m =>
      rw [record_run real] at record
      cases record
      rw [← real]
      split at run
      · exact moveEntry_entries (src _ List.mem_cons_self) (dst hd) name _ _ _ _ run
      · cases run
        exact ⟨rfl, fun _ => rfl, fun _ _ => ⟨rfl, rfl⟩⟩
  | none =>
    dsimp only at run ⊢
    rw [if_pos link.link, Prog.bind_ok (Prog.run_get v)] at run
    split at run
    · exact moveEntry_entries (src _ List.mem_cons_self) (dst hdst) name _ _ _ _ run
    · cases run
      exact OnlyEntries.refl _ _

/-- The destination's flags are read once the source is open. -/
theorem move_onto_link (link : SoftLink v hdir name n p) (srcname : Nat → Byte) :
    (mgfsFileMove calls hsrc srcname hdir name).run v ≠ .error .nullInode ↔
      ∀ hf, v.opens hsrc srcname ≠ .ok (some hf) := by
  cases opens : v.opens hsrc srcname with
  | error f =>
    have run := mgfsFileOpen_error.mpr opens
    refine iff_of_true (fun stops => ?_) nofun
    rw [mgfsFileMove, Prog.bind_error run] at stops
    cases stops
    exact mgfsFileOpen_avoids srcname hsrc v run
  | ok found =>
    cases found with
    | none =>
      refine iff_of_true ?_ nofun
      rw [mgfsFileMove, Prog.bind_ok (mgfsFileOpen_ok.mpr opens)]
      exact nofun
    | some hf =>
      obtain ⟨⟨k, q⟩, place⟩ := opens_entry opens
      refine iff_of_false (fun avoids => avoids ?_) fun absent => absent hf rfl
      rw [mgfsFileMove_run opens place, Prog.bind_ok (mgfsFileOpen_ok.mpr link.opens)]
      dsimp only
      exact Prog.bind_error (by rw [record_null rfl]; rfl)

/-- The link counter is counted up once the entry is made. -/
theorem hard_link_link (link : SoftLink v hdir name n p) (linkName : Nat → Byte) :
    (mgfsFileCreateHardLink calls hdir name hdst linkName).run v ≠ .error .nullInode ↔
      LinkUse.Guarded calls v n p (.hardLink hdst linkName) := by
  unfold mgfsFileCreateHardLink LinkUse.Guarded
  have entry : (linkHandle n p).entry.run v = .ok ((n, p), v) := rfl
  rw [Prog.bind_ok (mgfsFileOpen_ok.mpr link.opens)]
  dsimp only
  rw [Prog.bind_ok entry]
  dsimp only
  rw [Prog.bind_ok (Prog.run_get v)]
  rw [← mgfsDentryCreate_some]
  generalize (⟨linkName, strLen linkName + 1, (v.dirs n).inodeNumber p, 0#8⟩ : NewEntry) = e
  cases real : hdst.pInode with
  | none =>
    refine iff_of_false (fun avoids => avoids (Prog.bind_error ?_)) fun h => h.1 rfl
    rw [mgfsDentryCreate_null real]
    rfl
  | some m =>
    have dst : hdst.pInode ≠ none := by rw [real]; exact nofun
    cases run : (mgfsDentryCreate calls hdst e).run v with
    | error f =>
      rw [Prog.bind_error run]
      refine iff_of_true (fun stops => ?_) ⟨nofun, nofun⟩
      cases stops
      exact mgfsDentryCreate_avoids dst e v run
    | ok out =>
      obtain ⟨made, u⟩ := out
      rw [Prog.bind_ok run]
      cases made with
      | none => exact iff_of_true nofun ⟨nofun, fun ⟨_, _, made⟩ => by cases made⟩
      | some q =>
        refine iff_of_false (fun avoids => avoids ?_) fun h => h.2 ⟨q, u, rfl⟩
        exact Prog.bind_error (by rw [record_null rfl]; rfl)

/-- The name is not looked up where there is no inode, so the entry is to be made in the link's handle. -/
theorem move_into_link (srcname dstname : Nat → Byte) :
    (mgfsFileMove calls hsrc srcname (linkHandle n p) dstname).run v ≠ .error .nullInode ↔
      ∀ hf, v.opens hsrc srcname = .ok (some hf) → v.StaysPut calls hf dstname := by
  cases opens : v.opens hsrc srcname with
  | error f =>
    refine iff_of_true (fun stops => ?_) nofun
    rw [mgfsFileMove, Prog.bind_error (mgfsFileOpen_error.mpr opens)] at stops
    cases stops
    exact mgfsFileOpen_avoids srcname hsrc v (mgfsFileOpen_error.mpr opens)
  | ok found =>
    cases found with
    | none =>
      refine iff_of_true ?_ nofun
      rw [mgfsFileMove, Prog.bind_ok (mgfsFileOpen_ok.mpr opens)]
      exact nofun
    | some hf =>
      obtain ⟨⟨k, q⟩, place⟩ := opens_entry opens
      have absent : (mgfsFileOpen dstname (linkHandle n p)).run v = .ok (none, v) := rfl
      rw [mgfsFileMove_run opens place, Prog.bind_ok absent]
      dsimp only
      by_cases isLink : (v.dirs k).flags q &&& dentryLink ≠ 0#8
      · rw [if_pos isLink, Prog.bind_ok (Prog.run_get v)]
        by_cases room : calls.alloc (strLen dstname + 1 + strLen ((v.dirs k).linkName q) + 1) v = true
        · rw [if_pos room]
          refine iff_of_false (fun avoids => avoids (moveEntry_null rfl)) fun stays => ?_
          obtain ⟨k', q', same, _, full⟩ := stays hf rfl
          cases place.symm.trans same
          exact absurd (room.symm.trans full) nofun
        · rw [if_neg room]
          refine iff_of_true nofun fun hf' same => ?_
          cases same
          exact ⟨k, q, place, isLink, Bool.eq_false_iff.mpr room⟩
      · rw [if_neg isLink]
        refine iff_of_false (fun avoids => avoids (moveEntry_null rfl)) fun stays => ?_
        obtain ⟨k', q', same, isLink', _⟩ := stays hf rfl
        cases place.symm.trans same
        exact isLink isLink'

/-- A hard link to what opens is to be made in the link's handle. -/
theorem hard_link_into_link (srcname linkName : Nat → Byte) :
    (mgfsFileCreateHardLink calls hsrc srcname (linkHandle n p) linkName).run v ≠ .error .nullInode ↔
      ∀ hf, v.opens hsrc srcname ≠ .ok (some hf) := by
  unfold mgfsFileCreateHardLink
  cases opens : v.opens hsrc srcname with
  | error f =>
    have run := mgfsFileOpen_error.mpr opens
    refine iff_of_true (fun stops => ?_) nofun
    rw [Prog.bind_error run] at stops
    cases stops
    exact mgfsFileOpen_avoids srcname hsrc v run
  | ok found =>
    rw [Prog.bind_ok (mgfsFileOpen_ok.mpr opens)]
    cases found with
    | none => exact iff_of_true nofun nofun
    | some hf =>
      obtain ⟨place, at_⟩ := opens_entry opens
      have entry : hf.entry.run v = .ok (place, v) := by
        unfold FileHandle.entry
        rw [at_]
        rfl
      refine iff_of_false (fun avoids => avoids ?_) fun absent => absent hf rfl
      dsimp only
      rw [Prog.bind_ok entry]
      rw [Prog.bind_ok (Prog.run_get v)]
      exact Prog.bind_error (by rw [mgfsDentryCreate_null rfl]; rfl)

theorem mgfsPmask_link : (mgfsPmask (linkHandle n p)).run v = .error .nullInode := rfl

theorem transfer_link (position : Nat) (write always : Bool) (offset nbytes : Nat) :
    (transfer calls (linkHandle n p) position write always offset nbytes).run v = .error .nullInode :=
  Prog.bind_error mgfsPmask_link

/-- A request on the handle of a link, with or without a look at the inode. -/
theorem ioctl_link (position : Nat) (request : Request) :
    (ioctl calls (linkHandle n p) position request).run v ≠ .error .nullInode ↔ request.Guarded calls v := by
  cases request with
  | fopen room name =>
    refine iff_of_true (Avoids.ite (fun _ => ?_) (fun _ => Avoids.pure _) v) trivial
    refine Avoids.bind (mgfsFileOpen_avoids name _) fun found => ?_
    cases found with
    | none => exact Avoids.pure _
    | some hf => exact Avoids.pure _
  | fclose isRoot => exact iff_of_true nofun trivial
  | fcreate room name pmask owner =>
    cases room with
    | false => exact iff_of_true nofun rfl
    | true =>
      refine iff_of_false (fun avoids => avoids ?_) nofun
      exact Prog.bind_error (Prog.bind_error (by rw [record_null rfl]; rfl))
  | fdelete name =>
    refine iff_of_false (fun avoids => avoids ?_) id
    exact Prog.bind_error (Prog.bind_error (by rw [record_null rfl]; rfl))
  | flink name dest destName => cases dest with
    | none => exact iff_of_true nofun trivial
    | some hdst => exact iff_of_true nofun trivial
  | fslink name path =>
    unfold ioctl mgfsFileCreateSoftLink Request.Guarded
    by_cases room : calls.alloc ((strLen name + strLen path + 2) % 2 ^ 16) v = true
    · refine iff_of_false (fun avoids => avoids (Prog.bind_error ?_)) fun full => absurd (room.symm.trans full) nofun
      rw [Prog.bind_ok (Prog.run_get v), if_pos room]
      exact Prog.bind_error (by rw [mgfsDentryCreate_null rfl]; rfl)
    · refine iff_of_true (fun stops => ?_) (Bool.eq_false_iff.mpr room)
      rw [Prog.bind_ok (a := false) (t := v)] at stops
      · cases stops
      · rw [Prog.bind_ok (Prog.run_get v), if_neg room]
        rfl
  | fmove name dest destName => cases dest with
    | none => exact iff_of_true nofun trivial
    | some hdst => exact iff_of_true nofun trivial
  | serial write size => exact iff_of_false (fun avoids => avoids (transfer_link _ _ _ _ _)) id
  | block write lba count => exact iff_of_false (fun avoids => avoids (transfer_link _ _ _ _ _)) id
  | file write offset size => exact iff_of_false (fun avoids => avoids (transfer_link _ _ _ _ _)) id
  | fseek offset => exact iff_of_false (fun avoids => avoids (Prog.bind_error mgfsPmask_link)) id
  | fpmask => exact iff_of_false (fun avoids => avoids (Prog.bind_error mgfsPmask_link)) id
  | fsize => exact iff_of_true nofun trivial
  | finfo isFile => exact iff_of_true nofun trivial
  | other => exact iff_of_true nofun trivial

/-- An operation on a soft link is safe if and only if nothing in it comes to the inode that the link does not have. The handle
was opened on the link before, when the files may have been others. -/
theorem soft_link_safe_iff (calls : FileCalls) {v₀ : Files} {n₀ : Nat} {p₀ : Position} (link : SoftLink v hdir name n p)
    (before : SoftLink v₀ hdir name n₀ p₀) (handle : v₀.opens hdir name = .ok (some hlink)) (u : LinkUse) :
    u.Safe calls v hdir name hlink n ↔ u.Guarded calls v n p := by
  obtain rfl : linkHandle n₀ p₀ = hlink := Option.some.inj (Except.ok.inj (before.opens.symm.trans handle))
  have access : u.Safe calls v hdir name (linkHandle n₀ p₀) n ↔
      (u.run calls hdir name (linkHandle n₀ p₀)).run v ≠ .error .nullInode := by
    refine ⟨LinkUse.Safe.access, fun access => ⟨access, fun away w run => ?_⟩⟩
    cases u with
    | delete => exact absurd (discard_error.mpr (delete_link link)) access
    | moveFrom hdst dstname =>
      obtain ⟨r, run⟩ := discard_ok run
      exact move_link_entries link dstname run
    | «open» => exact away.elim
    | moveOnto => exact away.elim
    | hardLink => exact away.elim
    | moveInto => exact away.elim
    | linkInto => exact away.elim
    | pmask => exact away.elim
    | ioctl => exact away.elim
  rw [access]
  cases u with
  | «open» => exact iff_of_true (fun stops => mgfsFileOpen_avoids name hdir v (discard_error.mp stops)) trivial
  | delete => exact iff_of_false (fun avoids => avoids (discard_error.mpr (delete_link link))) id
  | moveFrom hdst dstname => exact (not_congr discard_error).trans (move_link link dstname)
  | moveOnto hsrc srcname => exact (not_congr discard_error).trans (move_onto_link link srcname)
  | hardLink hdst linkName => exact (not_congr discard_error).trans (hard_link_link link linkName)
  | moveInto hsrc srcname dstname => exact (not_congr discard_error).trans (move_into_link srcname dstname)
  | linkInto hsrc srcname linkName => exact (not_congr discard_error).trans (hard_link_into_link srcname linkName)
  | pmask => exact iff_of_false (fun avoids => avoids (discard_error.mpr mgfsPmask_link)) id
  | ioctl position request => exact (not_congr discard_error).trans (ioctl_link position request)

end Uses

/-! ## A directory with a link -/

/-- A volume with one directory, number 0, that has a file and a soft link to it. -/
def linked : Files where
  inodes n := ⟨if n = 0 then mgfsDir else 0, 0, 0, 0, 0⟩
  records := 2
  dirs n := if n = 0 then
      ((runAll Directory.step (fun d c => c.Fits d) (Directory.empty 512)
        [.create ⟨cString [102], 2, 1, 0#8⟩, .create ⟨cString [108, 0, 102], 4, invalidInodeNumber, dentryLink⟩]).getD
        (Directory.empty 512))
    else Directory.empty 512
  lastError := 0

def linkedRoot : FileHandle := ⟨some 0, true, 0, none⟩

/-- The functions of an inode file that is full. -/
def fullCalls : FileCalls where
  inodeCreate _ _ v := (none, v)
  inodeDelete _ v := v
  grows _ _ := false
  inodeIo _ _ _ _ v := (0, v)
  alloc _ _ := true
  timestamp _ := 0

theorem linked_link : SoftLink linked linkedRoot (cString [108]) 0 ⟨0, 476⟩ where
  pInode := rfl
  opened := rfl
  dir := by decide
  found := by decide +kernel
  link := by decide +kernel

/-- The link is moved onto a name that is not there. -/
theorem soft_link_moves :
    LinkUse.Safe fullCalls linked linkedRoot (cString [108]) (linkHandle 0 ⟨0, 476⟩) 0
      (.moveFrom linkedRoot (cString [109])) := by
  have absent : linked.opens linkedRoot (cString [109]) = .ok none := by
    have search : (linked.dirs 0).open (cString [109]) = some none := by decide +kernel
    refine mgfsFileOpen_ok.mp ?_
    unfold mgfsFileOpen mgfsDentryOpen linkedRoot
    dsimp only
    rw [Prog.bind_ok (Prog.run_get _), if_pos (by decide), if_pos rfl, Prog.bind_ok (a := none) (t := linked)]
    · rfl
    · rw [Prog.bind_ok (Prog.run_get _), search]
      rfl
  refine (soft_link_safe_iff fullCalls linked_link linked_link linked_link.opens _).mpr ?_
  unfold LinkUse.Guarded
  dsimp only
  rw [absent]
  exact Or.inl nofun

/-- Deleting a link reads the flags of an inode that it does not have. -/
theorem soft_link_deleted_unsafe : SoftLink linked linkedRoot (cString [108]) 0 ⟨0, 476⟩ ∧
    ¬ LinkUse.Safe fullCalls linked linkedRoot (cString [108]) (linkHandle 0 ⟨0, 476⟩) 0 .delete :=
  ⟨linked_link, fun safe => safe.access (discard_error.mpr (delete_link linked_link))⟩

end PreTeO.Mgfs3
