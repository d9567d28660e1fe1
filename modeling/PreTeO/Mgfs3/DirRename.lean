import PreTeO.Mgfs3.DirList

/-!
# Renaming an entry

`mgfs_dentry_rename` deletes the record of the old name and creates one of the new name. The name of a soft link is rebuilt in
memory of the heap, whose bytes are what they were. Whether the creation finds a place is only known when the old record is
gone; without memory the null pointer is passed to it as the name.
-/

namespace PreTeO.Mgfs3
set_option autoImplicit false
open PreTeO.Lib BinaryTree

/-! ## The code -/

/-- `mgfs_mem_alloc`: the bytes the memory holds, if there is any. -/
abbrev Alloc := Nat → Option (Nat → Byte)

/-- The name of a link as it is rebuilt: `str_len(new_name+1)` bytes of the new name, and the path. -/
def rebuiltName (heap new path : Nat → Byte) : Nat → Byte := fun i =>
  if strLen new + 1 ≤ i ∧ i < strLen new + 1 + (strLen path + 1) then path (i - (strLen new + 1))
  else if i < strLen (fun i => new (i + 1)) then new i
  else heap i

/-- The size of the name and, for a link, of its path. -/
def Directory.renamedSize (d : Directory) (p : Position) (new : Nat → Byte) : Nat :=
  if d.flags p &&& dentryLink ≠ 0#8 then strLen new + strLen (d.linkName p) + 2 else strLen new + 1

/-- The name that is passed to `mgfs_dentry_create`; without memory for the name of a link it is the null pointer. -/
def Directory.renamedName (d : Directory) (alloc : Alloc) (p : Position) (new : Nat → Byte) : Option (Nat → Byte) :=
  if d.flags p &&& dentryLink ≠ 0#8 then
    (alloc (d.renamedSize p new % 2 ^ 16)).map fun heap => rebuiltName heap new (d.linkName p)
  else some new

/-- The entry that takes the place of the record at `p`, with the name `given`. -/
def Directory.renamed (d : Directory) (p : Position) (new given : Nat → Byte) : NewEntry :=
  ⟨given, d.renamedSize p new % 2 ^ 16, d.inodeNumber p, d.flags p⟩

/-- The answer of a function called on `d`. If it does not return, there is none, and what is known is `d`. -/
def Directory.after (d : Directory) : Option (Bool × Directory) → Option Bool × Directory
  | none => (none, d)
  | some (r, d') => (some r, d')

/-- `mgfs_dentry_rename`. The second search goes on with the records the first one has noted. There is no answer if a search
does not return or the name is read at the null pointer; the directory is then as the last function that returned left it. -/
def Directory.rename (d : Directory) (space : Bool) (alloc : Alloc) (name new : Nat → Byte) : Option Bool × Directory :=
  match d.find new (strLen new) with
  | none => (none, d)
  | some out =>
    if out.found then (some false, d)
    else
      match d.findLoop name (strLen name) d.rounds ⟨0, 0⟩ out with
      | none => (none, d)
      | some out =>
        if out.found ∧ d.HasBlock out.last then
          match d.recordDelete out.last with
          | none => (none, d)
          | some (false, d') => (some false, d')
          | some (true, d') =>
            match d.renamedName alloc out.last new with
            | none => (none, d')
            | some given => d'.after (d'.createIn space (d.renamed out.last new given))
        else (some false, d)

/-! ## Searches -/

/-- The record that was found. -/
def Found.answer (out : Found) : Option Position := if out.found then some out.last else none

/-- What a search finds does not depend on the records it notes. -/
theorem Directory.findLoop_answer {d : Directory} {name : Nat → Byte} {szName szName' fuel : Nat} {p : Position}
    {out out' : Found} (no : out.found = false) (no' : out'.found = false) :
    (d.findLoop name szName fuel p out).map Found.answer = (d.findLoop name szName' fuel p out').map Found.answer := by
  induction fuel generalizing p out out' with
  | zero => rfl
  | succ fuel ih =>
    rw [findLoop, findLoop]
    have noted : (d.note szName p out).found = false := note_found.trans no
    have noted' : (d.note szName' p out').found = false := note_found.trans no'
    by_cases invalid : p.block = invalidBlockNumber
    · rw [if_pos invalid, if_pos invalid]
      simp [Found.answer, no, no']
    · rw [if_neg invalid, if_neg invalid]
      by_cases block : d.HasBlock p
      · rw [if_pos block, if_pos block]
        dsimp only
        by_cases same : strCmp name (d.name p) = 0
        · rw [if_pos same, if_pos same]
          by_cases dead : d.Deleted p
          · rw [if_pos dead, if_pos dead]
            exact ih noted noted'
          · rw [if_neg dead, if_neg dead]
            simp [Found.answer]
        · rw [if_neg same, if_neg same]
          split
          · exact ih noted noted'
          · exact ih noted noted'
      · rw [if_neg block, if_neg block]
        simp [Found.answer, no, no']

theorem Directory.open_answer (d : Directory) (name : Nat → Byte) (szName : Nat) :
    (d.find name szName).map Found.answer = d.open name := by
  have same : (d.find name szName).map Found.answer = (d.find name (strLen name + 1)).map Found.answer :=
    findLoop_answer rfl rfl
  rw [same, Directory.open]
  cases d.find name (strLen name + 1) <;> rfl

/-- A rename opens the new name, then the old one. -/
theorem Directory.rename_eq (d : Directory) (space : Bool) (alloc : Alloc) (name new : Nat → Byte) :
    d.rename space alloc name new =
      match d.open new, d.open name with
      | none, _ => (none, d)
      | some (some _), _ => (some false, d)
      | some none, none => (none, d)
      | some none, some none => (some false, d)
      | some none, some (some p) =>
        if d.HasBlock p then
          match d.recordDelete p with
          | none => (none, d)
          | some (false, d') => (some false, d')
          | some (true, d') =>
            match d.renamedName alloc p new with
            | none => (none, d')
            | some given => d'.after (d'.createIn space (d.renamed p new given))
        else (some false, d) := by
  rw [← d.open_answer new (strLen new), ← d.open_answer name (strLen name), Directory.rename]
  cases search : d.find new (strLen new) with
  | none => rfl
  | some out =>
    dsimp only [Option.map_some]
    by_cases found : out.found = true
    · rw [if_pos found]
      simp only [Found.answer, found, if_true]
    · rw [if_neg found]
      have missing := Bool.eq_false_iff.mpr found
      have second : (d.findLoop name (strLen name) d.rounds ⟨0, 0⟩ out).map Found.answer =
          (d.find name (strLen name)).map Found.answer := findLoop_answer missing rfl
      rw [← second]
      simp only [Found.answer, missing, Bool.false_eq_true, if_false]
      cases d.findLoop name (strLen name) d.rounds ⟨0, 0⟩ out with
      | none => rfl
      | some out =>
        dsimp only [Option.map_some]
        by_cases found : out.found = true
        · rw [show out.answer = some out.last from if_pos found]
          by_cases block : d.HasBlock out.last
          · rw [if_pos ⟨found, block⟩]
            exact (if_pos block).symm
          · rw [if_neg fun both => block both.2]
            exact (if_neg block).symm
        · rw [show out.answer = none from if_neg found, if_neg fun both => found both.1]

/-! ## Strings -/

theorem charsN_isString {s : Nat → Byte} {m : Nat} (short : (charsN m s).length < m) :
    IsString s ((charsN m s).length - 1) := by
  induction m generalizing s with
  | zero => omega
  | succ m ih =>
    rw [charsN] at short ⊢
    split at short
    · next zero =>
      rw [if_pos zero]
      exact ⟨fun i hi => absurd hi (Nat.not_lt_zero i), zero⟩
    · next more =>
      rw [if_neg more]
      rw [List.length_cons] at short ⊢
      have tail := ih (s := fun i => s (i + 1)) (by omega)
      have positive : 0 < (charsN m fun i => s (i + 1)).length := by
        cases m with
        | zero => omega
        | succ m =>
          rw [charsN]
          split
          · exact Nat.zero_lt_one
          · exact Nat.succ_pos _
      refine ⟨fun i hi => ?_, ?_⟩
      · cases i with
        | zero => exact more
        | succ i => exact tail.body i (by omega)
      · have last := tail.zero
        rwa [show (charsN m fun i => s (i + 1)).length - 1 + 1 = (charsN m fun i => s (i + 1)).length + 1 - 1 by omega] at last

/-- A string that is not too long ends where `str_len` says. -/
theorem strLen_isString {s : Nat → Byte} (short : strLen s + 1 < maxStr) : IsString s (strLen s) := by
  unfold strLen at short ⊢
  unfold chars at short ⊢
  exact charsN_isString (by omega)

theorem IsString.strLen {s : Nat → Byte} {n : Nat} (string : IsString s n) (short : n < maxStr) : strLen s = n := by
  unfold PreTeO.Mgfs3.strLen chars
  rw [charsN_length string short, Nat.add_sub_cancel]

/-- Strings are the same if their bytes are, the final zero included. -/
theorem chars_eq_iff {s t : Nat → Byte} {n : Nat} (string : IsString t n) (short : n + 1 < maxStr) :
    chars s = chars t ↔ ∀ i, i ≤ n → s i = t i := by
  constructor
  · intro same
    have body := eq_of_charsN_eq same string.body (by omega : n ≤ maxStr)
    have len : strLen s = n := (congrArg (fun l => l.length - 1) same).trans (string.strLen (by omega))
    have ends := (strLen_isString (s := s) (by omega)).zero
    intro i hi
    rcases Nat.lt_or_eq_of_le hi with inside | rfl
    · exact body i inside
    · rw [string.zero, ← ends, len]
  · intro same
    exact charsN_congr ⟨n, Nat.lt_succ_self n, string.zero⟩ (fun i hi => same i (by omega)) (by omega) (by omega)

/-! ## Entries -/

/-- What an entry leads to. -/
structure DirEntry where
  inodeNumber : Nat
  flags : Byte
  path : Option (List Int)
deriving DecidableEq

def Directory.entryAt (d : Directory) (p : Position) : DirEntry :=
  ⟨d.inodeNumber p, d.flags p, if d.flags p &&& dentryLink ≠ 0#8 then some (chars (d.linkName p)) else none⟩

/-- `name` denotes the entry. -/
def Directory.Denotes (d : Directory) (name : Nat → Byte) (data : DirEntry) : Prop :=
  (d.open name).map (Option.map d.entryAt) = some (some data)

instance (d : Directory) (name : Nat → Byte) (data : DirEntry) : Decidable (d.Denotes name data) :=
  inferInstanceAs (Decidable (_ = _))

/-- The path of a link ends in its record. -/
def Directory.PathAt (d : Directory) (x : Position) : Prop :=
  d.flags x &&& dentryLink ≠ 0#8 → Ends (d.linkName x) (d.nameSize x - (strLen (d.name x) + 1))

/-- A search tree of tiled records whose links have their paths. -/
structure Proper (d : Directory) (L : Layout) (t : BinaryTree Position) : Prop extends Indexed d L t where
  paths : ∀ x ∈ t.inorder, ¬ d.Deleted x → d.PathAt x

def Directory.WellFormed (d : Directory) : Prop := ∃ (L : Layout) (t : BinaryTree Position), Proper d L t

section Entries
variable {d d' : Directory} {L : Layout} {t : BinaryTree Position} {name : Nat → Byte} {x : Position} {data : DirEntry}

namespace Indexed

theorem denotes_iff (h : Indexed d L t) :
    d.Denotes name data ↔ ∃ x ∈ t.inorder, d.key x = chars name ∧ ¬ d.Deleted x ∧ d.entryAt x = data := by
  unfold Directory.Denotes
  constructor
  · intro denotes
    obtain ⟨o, opens, found⟩ := Option.map_eq_some_iff.mp denotes
    obtain ⟨x, rfl, entry⟩ := Option.map_eq_some_iff.mp found
    obtain ⟨hx, same, live⟩ := h.open_eq_some.mp opens
    exact ⟨x, hx, same, live, entry⟩
  · rintro ⟨x, hx, same, live, entry⟩
    rw [h.open_live hx same live, ← entry]
    rfl

end Indexed

/-- A record that says the same leads to the same. -/
theorem SameEntry.entryAt (same : SameEntry d d' x) (ends : Ends (d.name x) (d.nameSize x)) (path : d.PathAt x) :
    d'.entryAt x = d.entryAt x := by
  have key : strLen (d'.name x) = strLen (d.name x) := congrArg (fun l => l.length - 1) (same.key ends)
  unfold Directory.entryAt
  rw [same.inodeNumber, same.flags]
  by_cases link : d.flags x &&& dentryLink ≠ 0#8
  · have small := d.nameSize_lt x
    have chars : chars (d'.linkName x) = chars (d.linkName x) := by
      refine charsN_congr (path link) (fun i hi => ?_) (by unfold maxStr; omega) (by unfold maxStr; omega)
      unfold Directory.linkName
      rw [key]
      exact same.name _ (by omega)
    rw [chars]
  · rw [if_neg link, if_neg link]

/-- A record leads to what the entry it carries leads to. -/
theorem Carries.entryAt {e : NewEntry} (carries : Carries d x e) (path : e.HasPath) :
    d.entryAt x =
      ⟨e.inodeNumber, e.flags, if e.flags &&& dentryLink ≠ 0#8 then some (chars e.linkName) else none⟩ := by
  have calls : d.listed (fun _ => none) x = e.listed fun _ => none := carries.listed path
  have linkPath : (if d.flags x &&& dentryLink ≠ 0#8 then some (chars (d.linkName x)) else none) =
      if e.flags &&& dentryLink ≠ 0#8 then some (chars e.linkName) else none := congrArg Listed.linkPath calls
  unfold Directory.entryAt
  rw [linkPath, carries.inodeNumber, carries.flags]

end Entries

/-! ## The rebuilt name -/

/-- There is memory for the name of a link, and it happens to hold the bytes that are not copied. -/
def Directory.Rebuilt (d : Directory) (alloc : Alloc) (p : Position) (new : Nat → Byte) : Prop :=
  d.flags p &&& dentryLink ≠ 0#8 → ∃ heap, alloc (d.renamedSize p new % 2 ^ 16) = some heap ∧
    ∀ i, strLen (fun i => new (i + 1)) ≤ i → i ≤ strLen new → heap i = new i

section Rebuilt
variable {d : Directory} {alloc : Alloc} {p : Position} {new given : Nat → Byte}

theorem Directory.strLen_lt_renamedSize (d : Directory) (p : Position) (new : Nat → Byte) : strLen new < d.renamedSize p new := by
  unfold renamedSize
  split <;> omega

/-- The size of a link's name. -/
theorem Directory.renamedSize_link (link : d.flags p &&& dentryLink ≠ 0#8) :
    d.renamedSize p new = strLen new + strLen (d.linkName p) + 2 := if_pos link

theorem Directory.renamedName_link (link : d.flags p &&& dentryLink ≠ 0#8) (made : d.renamedName alloc p new = some given) :
    ∃ heap, alloc (d.renamedSize p new % 2 ^ 16) = some heap ∧ given = rebuiltName heap new (d.linkName p) := by
  rw [renamedName, if_pos link] at made
  obtain ⟨heap, found, built⟩ := Option.map_eq_some_iff.mp made
  exact ⟨heap, found, built.symm⟩

theorem Directory.renamedName_plain (plain : ¬ d.flags p &&& dentryLink ≠ 0#8) :
    d.renamedName alloc p new = some new := if_neg plain

/-- A name that is right is no null pointer. -/
theorem Directory.Rebuilt.named (rebuilt : d.Rebuilt alloc p new) : ∃ given, d.renamedName alloc p new = some given := by
  by_cases link : d.flags p &&& dentryLink ≠ 0#8
  · obtain ⟨heap, found, _⟩ := rebuilt link
    exact ⟨rebuiltName heap new (d.linkName p), by rw [renamedName, if_pos link, found]; rfl⟩
  · exact ⟨new, renamedName_plain link⟩

/-- The name that is passed ends within its size. -/
theorem Directory.renamedName_ends (small : d.renamedSize p new + 1 < maxStr) (made : d.renamedName alloc p new = some given) :
    Ends given (d.renamedSize p new) := by
  have below := d.strLen_lt_renamedSize p new
  by_cases link : d.flags p &&& dentryLink ≠ 0#8
  · obtain ⟨heap, _, rfl⟩ := renamedName_link link made
    have size : d.renamedSize p new = strLen new + strLen (d.linkName p) + 2 := renamedSize_link link
    have path := strLen_isString (s := d.linkName p) (by omega)
    refine ⟨strLen new + 1 + strLen (d.linkName p), by omega, ?_⟩
    rw [rebuiltName, if_pos ⟨by omega, by omega⟩, Nat.add_sub_cancel_left, path.zero]
  · rw [renamedName_plain link] at made
    cases made
    exact ⟨strLen new, below, (strLen_isString (by omega)).zero⟩

/-- The name is the new one if the bytes that are not copied are. -/
theorem chars_rebuiltName {heap path : Nat → Byte} (string : IsString new (strLen new)) (short : strLen new + 1 < maxStr) :
    chars (rebuiltName heap new path) = chars new ↔
      ∀ i, strLen (fun i => new (i + 1)) ≤ i → i ≤ strLen new → heap i = new i := by
  rw [chars_eq_iff string short]
  constructor
  · intro same i past inside
    have byte := same i inside
    rwa [rebuiltName, if_neg (by omega), if_neg (by omega)] at byte
  · intro same i inside
    rw [rebuiltName, if_neg (by omega)]
    split
    · rfl
    · next past => exact same i (by omega) inside

/-- The path is copied. -/
theorem rebuiltName_path {heap path : Nat → Byte} {i : Nat} (inside : i ≤ strLen path) :
    rebuiltName heap new path (strLen new + 1 + i) = path i := by
  rw [rebuiltName, if_pos ⟨by omega, by omega⟩, Nat.add_sub_cancel_left]

/-- The entry has the new name and the old path if the rebuilt name has. -/
theorem Directory.rebuilt_iff (small : d.renamedSize p new + 1 < maxStr) (made : d.renamedName alloc p new = some given) :
    d.Rebuilt alloc p new ↔ chars given = chars new ∧
      (d.flags p &&& dentryLink ≠ 0#8 → chars (d.renamed p new given).linkName = chars (d.linkName p)) := by
  have below := d.strLen_lt_renamedSize p new
  have string := strLen_isString (s := new) (by omega)
  unfold Rebuilt renamed NewEntry.linkName
  dsimp only
  by_cases link : d.flags p &&& dentryLink ≠ 0#8
  · obtain ⟨heap, found, rfl⟩ := renamedName_link link made
    have size : d.renamedSize p new = strLen new + strLen (d.linkName p) + 2 := renamedSize_link link
    have path := strLen_isString (s := d.linkName p) (by omega)
    have bytes : (∃ heap, alloc (d.renamedSize p new % 2 ^ 16) = some heap ∧
        ∀ i, strLen (fun i => new (i + 1)) ≤ i → i ≤ strLen new → heap i = new i) ↔
        ∀ i, strLen (fun i => new (i + 1)) ≤ i → i ≤ strLen new → heap i = new i := by
      rw [found]
      exact ⟨fun ⟨_, same, bytes⟩ => Option.some.inj same ▸ bytes, fun bytes => ⟨heap, rfl, bytes⟩⟩
    rw [forall_prop_of_true link, forall_prop_of_true link, bytes,
      ← @chars_rebuiltName new heap (d.linkName p) string (by omega)]
    refine ⟨fun same => ⟨same, ?_⟩, And.left⟩
    have len : strLen (rebuiltName heap new (d.linkName p)) = strLen new := congrArg (fun l => l.length - 1) same
    rw [chars_eq_iff path (by omega), len]
    exact fun i inside => rebuiltName_path inside
  · rw [renamedName_plain link] at made
    cases made
    exact ⟨fun _ => ⟨rfl, fun there => absurd there link⟩, fun _ there => absurd there link⟩

/-- Such an entry brings its path along. -/
theorem Directory.Rebuilt.hasPath (small : d.renamedSize p new + 1 < maxStr) (made : d.renamedName alloc p new = some given)
    (rebuilt : d.Rebuilt alloc p new) : (d.renamed p new given).HasPath := by
  intro link
  obtain ⟨name, paths⟩ := (Directory.rebuilt_iff small made).mp rebuilt
  have size : d.renamedSize p new = strLen new + strLen (d.linkName p) + 2 := Directory.renamedSize_link link
  have path := strLen_isString (s := d.linkName p) (by omega)
  have len : strLen (d.renamed p new given).name = strLen new := congrArg (fun l => l.length - 1) name
  have szName : (d.renamed p new given).szName = d.renamedSize p new := Nat.mod_eq_of_lt (by unfold maxStr at small; omega)
  refine ⟨strLen (d.linkName p), by omega, ?_⟩
  rw [(chars_eq_iff path (by omega)).mp (paths link) _ (Nat.le_refl _), path.zero]

/-- The entry fits if its name does. -/
theorem Directory.renamed_fits (small : d.unitSize < 2 ^ 16) (fits : szDirRecord + d.renamedSize p new ≤ d.unitSize)
    (live : ¬ d.Deleted p) (made : d.renamedName alloc p new = some given) : (d.renamed p new given).Fits d.unitSize := by
  have size : d.renamedSize p new % 2 ^ 16 = d.renamedSize p new := Nat.mod_eq_of_lt (by omega)
  refine ⟨?_, ?_, Mem.load_lt _ _ 4, not_not.mp live⟩
  · exact (congrArg (szDirRecord + ·) size).trans_le fits
  · unfold renamed
    dsimp only
    rw [size]
    exact renamedName_ends (by unfold szDirRecord at fits; unfold maxStr; omega) made

end Rebuilt

/-! ## All or nothing -/

/-- After a rename that succeeds, the new name denotes what the old one did, the old one is not found, and the other names
denote what they did; one that fails changes nothing. -/
def Directory.Moves (d d' : Directory) (name new : Nat → Byte) (r : Bool) : Prop :=
  if r then
    (∃ data, d.Denotes name data ∧ d'.Denotes new data) ∧ d'.open name = some none ∧
      ∀ other, chars other ≠ chars name → chars other ≠ chars new → ∀ data, d'.Denotes other data ↔ d.Denotes other data
  else ∀ other data, d'.Denotes other data ↔ d.Denotes other data

/-- A rename that gives no answer changes nothing either. -/
def Directory.AllOrNothing (d : Directory) (space : Bool) (alloc : Alloc) (name new : Nat → Byte) : Prop :=
  d.Moves (d.rename space alloc name new).2 name new ((d.rename space alloc name new).1.getD false)

/-- When the old record is gone, the name is rebuilt and right, there is a place for the record, and a marked record of the old
name is that place. -/
def Directory.RenameSafe (d : Directory) (space : Bool) (alloc : Alloc) (name new : Nat → Byte) : Prop :=
  ∀ p, d.open new = some none → d.open name = some (some p) → ∀ d', d.recordDelete p = some (true, d') →
    d.Rebuilt alloc p new ∧ ∀ given out, d.renamedName alloc p new = some given →
      d'.find given (d.renamedSize p new % 2 ^ 16) = some out → out.Admits space ∧ (p.offset = 0 → out.deleted = p)

section Moves
variable {d d₁ d' : Directory} {L L₁ L' : Layout} {t t₁ t' : BinaryTree Position} {alloc : Alloc} {p q : Position}
  {name new other given : Nat → Byte} {data : DirEntry} {out : Found}

/-- What a name denotes comes from a record that is still live. -/
theorem Proper.denotes_of_kept (proper : Proper d L t) (indexed : Indexed d' L' t') {x : Position} (hx : x ∈ t.inorder)
    (live : ¬ d.Deleted x) (hx' : x ∈ t'.inorder) (same : SameEntry d d' x) (named : d.key x = chars other) :
    d'.Denotes other (d.entryAt x) := by
  have ends := proper.laid.ends x (proper.nodes x hx)
  exact indexed.denotes_iff.mpr ⟨x, hx', (same.key ends).trans named, fun dead => live (same.deleted.mp dead),
    same.entryAt ends (proper.paths x hx live)⟩

/-- A name denotes what it did if its record stays and no other comes. -/
theorem Proper.denotes_iff_of_same (proper : Proper d L t) (indexed : Indexed d' L' t')
    (kept : ∀ x ∈ t.inorder, d.key x = chars other → ¬ d.Deleted x → x ∈ t'.inorder ∧ SameEntry d d' x)
    (old : ∀ x ∈ t'.inorder, d'.key x = chars other → ¬ d'.Deleted x → x ∈ t.inorder ∧ SameEntry d d' x) :
    d'.Denotes other data ↔ d.Denotes other data := by
  constructor
  · intro denotes
    obtain ⟨x, hx', named, live, rfl⟩ := indexed.denotes_iff.mp denotes
    obtain ⟨hx, same⟩ := old x hx' named live
    have ends := proper.laid.ends x (proper.nodes x hx)
    have alive : ¬ d.Deleted x := fun dead => live (same.deleted.mpr dead)
    rw [same.entryAt ends (proper.paths x hx alive)]
    exact proper.denotes_iff.mpr ⟨x, hx, (same.key ends).symm.trans named, alive, rfl⟩
  · intro denotes
    obtain ⟨x, hx, named, live, rfl⟩ := proper.denotes_iff.mp denotes
    obtain ⟨hx', same⟩ := kept x hx named live
    exact proper.denotes_of_kept indexed hx live hx' same named

/-- The name whose record was withdrawn denotes nothing, as long as no other record gets it. -/
theorem Withdrawn.lost (withdrawn : Withdrawn d d₁ t t₁ p) (h : Indexed d L t) (hp : p ∈ t.inorder) (named : d.key p = chars name)
    (indexed : Indexed d' L' t') (old : ∀ x ∈ t'.inorder, x ∈ t₁.inorder ∧ SameEntry d₁ d' x)
    (laid : ∀ x ∈ t₁.inorder, Ends (d₁.name x) (d₁.nameSize x)) : ¬ d'.Denotes name data := by
  intro denotes
  obtain ⟨x, hx', same, live, _⟩ := indexed.denotes_iff.mp denotes
  obtain ⟨hx₁, entry⟩ := old x hx'
  obtain ⟨hx, key⟩ := withdrawn.old x hx₁
  obtain rfl : x = p := h.ordered.key_inj hx hp <| by rw [named, ← same, entry.key (laid x hx₁), key]
  exact live (entry.deleted.mpr (withdrawn.dead hx₁))

/-- The path behind a name that a record carries. -/
theorem Carries.linkName_iff {e : NewEntry} (carries : Carries d q e) {path : Nat → Byte} {n : Nat} (string : IsString path n)
    (room : strLen e.name + 1 + n < e.szName) : chars (d.linkName q) = chars path ↔ chars e.linkName = chars path := by
  have small : e.szName < 2 ^ 16 := carries.nameSize ▸ d.nameSize_lt q
  have len : strLen (d.name q) = strLen e.name := congrArg (fun l => l.length - 1) carries.key
  rw [chars_eq_iff string (by unfold maxStr; omega), chars_eq_iff string (by unfold maxStr; omega)]
  refine forall₂_congr fun i inside => ?_
  unfold Directory.linkName NewEntry.linkName
  rw [len, carries.name _ (by omega)]

/-- The new record leads to what the old one did if and only if the rebuilt name is right. -/
theorem Directory.rebuilt_iff_entryAt (carries : Carries d' q (d.renamed p new given))
    (small : d.renamedSize p new + 1 < maxStr) (made : d.renamedName alloc p new = some given) :
    d.Rebuilt alloc p new ↔ d'.key q = chars new ∧ d'.entryAt q = d.entryAt p := by
  rw [carries.key]
  constructor
  · intro rebuilt
    obtain ⟨name, path⟩ := (rebuilt_iff small made).mp rebuilt
    refine ⟨name, ?_⟩
    rw [carries.entryAt (rebuilt.hasPath small made), entryAt]
    unfold renamed at path ⊢
    dsimp only
    split
    · next link => rw [path link]
    · rfl
  · rintro ⟨name, entry⟩
    refine (rebuilt_iff small made).mpr ⟨name, fun link => ?_⟩
    have len : strLen (d.renamed p new given).name = strLen new := congrArg (fun l => l.length - 1) name
    have size : d.renamedSize p new = strLen new + strLen (d.linkName p) + 2 := renamedSize_link link
    have path := strLen_isString (s := d.linkName p) (by omega)
    have szName : (d.renamed p new given).szName = d.renamedSize p new :=
      Nat.mod_eq_of_lt (by unfold maxStr at small; omega)
    have paths := congrArg DirEntry.path entry
    have flags : d'.flags q = d.flags p := carries.flags
    unfold entryAt at paths
    dsimp only at paths
    rw [flags, if_pos link, if_pos link] at paths
    exact (carries.linkName_iff path (by omega)).mp (Option.some.inj paths)

/-- A record that was put in for one that was withdrawn. -/
theorem Proper.moves_iff (proper : Proper d L t) (hp : p ∈ t.inorder) (named : d.key p = chars name) (live : ¬ d.Deleted p)
    (missing : ∀ x ∈ t.inorder, d.key x ≠ chars new) (small : d.renamedSize p new + 1 < maxStr)
    (withdrawn : Withdrawn d d₁ t t₁ p) (between : Indexed d₁ L₁ t₁) (added : Added d₁ d' t₁ t' q (d.renamed p new given))
    (made : d.renamedName alloc p new = some given) (indexed : Indexed d' L' t') :
    d.Moves d' name new true ↔ d.Rebuilt alloc p new ∧ (p ∈ t₁.inorder → q = p) := by
  have key : ∀ x ∈ t₁.inorder, x ≠ q → d'.key x = d.key x := fun x hx ne =>
    (between.laid.key (between.nodes x hx) (added.old x hx ne)).trans (withdrawn.old x hx).2
  have same : ∀ x ∈ t₁.inorder, x ≠ q → x ≠ p → SameEntry d d' x := fun x hx ne other =>
    (withdrawn.entry x hx other).trans (added.old x hx ne)
  have new_of : ∀ x ∈ t'.inorder, d'.key x = chars new → x = q := by
    intro x hx' newly
    by_contra ne
    have hx := ((added.mem x).mp hx').resolve_right ne
    exact missing x (withdrawn.old x hx).1 ((key x hx ne).symm.trans newly)
  rw [Directory.Moves, if_pos rfl, Directory.rebuilt_iff_entryAt added.toCarries small made]
  constructor
  · rintro ⟨⟨data, before, after⟩, gone, _⟩
    obtain ⟨y, hy, namedY, _, rfl⟩ := proper.denotes_iff.mp before
    obtain rfl : y = p := proper.ordered.key_inj hy hp (namedY.trans named.symm)
    obtain ⟨x, hx', newly, _, entry⟩ := indexed.denotes_iff.mp after
    obtain rfl := new_of x hx' newly
    refine ⟨⟨newly, entry⟩, fun there => ?_⟩
    by_contra ne
    have dead := (added.old y there (Ne.symm ne)).deleted.mpr (withdrawn.dead there)
    have stuck := indexed.open_dead ((added.mem y).mpr (Or.inl there)) ((key y there (Ne.symm ne)).trans named) dead
    rw [stuck] at gone
    cases gone
  · rintro ⟨⟨newly, entry⟩, reused⟩
    have hq : q ∈ t'.inorder := (added.mem q).mpr (Or.inr rfl)
    have alive : ¬ d'.Deleted q := by
      unfold Directory.Deleted
      rw [added.flags]
      exact live
    have other_of : ∀ x ∈ t'.inorder, d'.key x ≠ chars new → x ∈ t₁.inorder ∧ x ≠ q ∧ x ≠ p := by
      intro x hx' other
      have ne : x ≠ q := fun here => other (here ▸ newly)
      have hx := ((added.mem x).mp hx').resolve_right ne
      exact ⟨hx, ne, fun here => ne ((reused (here ▸ hx)).trans here.symm).symm⟩
    refine ⟨⟨_, proper.denotes_iff.mpr ⟨p, hp, named, live, rfl⟩, indexed.denotes_iff.mpr ⟨q, hq, newly, alive, entry⟩⟩,
      indexed.open_missing fun x hx' called => ?_, fun other notName notNew data => ?_⟩
    · have fresh : chars name ≠ chars new := fun equal => missing p hp (named.trans equal)
      obtain ⟨hx, ne, left⟩ := other_of x hx' fun newly => fresh (called.symm.trans newly)
      exact left (proper.ordered.key_inj (withdrawn.old x hx).1 hp <| by rw [← key x hx ne, called, named])
    · refine proper.denotes_iff_of_same indexed (fun x hx called aliveX => ?_) fun x hx' called _ => ?_
      · have ne : x ≠ p := fun here => notName (by rw [← called, here, named])
        have hx₁ := withdrawn.kept x hx ne
        have fresh : x ≠ q := by
          rintro rfl
          exact aliveX ((withdrawn.entry x hx₁ ne).deleted.mp (added.reused hx₁))
        exact ⟨(added.mem x).mpr (Or.inl hx₁), same x hx₁ fresh ne⟩
      · obtain ⟨hx, ne, left⟩ := other_of x hx' fun newly => notNew (called.symm.trans newly)
        exact ⟨(withdrawn.old x hx).1, same x hx ne left⟩

/-- Renaming goes on to the creation if the new name is free and the old one is there. -/
theorem Indexed.rename_eq (h : Indexed d L t) (space : Bool) (alloc : Alloc) (free : d.open new = some none)
    (there : d.open name = some (some p)) (deleted : d.recordDelete p = some (true, d₁)) :
    d.rename space alloc name new =
      match d.renamedName alloc p new with
      | none => (none, d₁)
      | some given => d₁.after (d₁.createIn space (d.renamed p new given)) := by
  have block := h.laid.hasBlock (h.nodes p (h.open_eq_some.mp there).1)
  rw [d.rename_eq, free, there]
  dsimp only
  rw [if_pos block, deleted]

end Moves

/-! ## When it holds -/

section Safe
variable {d : Directory} {L : Layout} {t : BinaryTree Position} {space : Bool} {alloc : Alloc} {p : Position}
  {name new : Nat → Byte}

/-- A rename that does not touch the directory. -/
theorem Directory.allOrNothing_of_refused {r : Option Bool} (no : r.getD false = false)
    (refused : d.rename space alloc name new = (r, d)) : d.AllOrNothing space alloc name new := by
  unfold Directory.AllOrNothing
  rw [refused, no]
  exact fun _ _ => Iff.rfl

/-- What is left to say when the old record is gone. -/
theorem Directory.renameSafe_iff {d₁ : Directory} {given : Nat → Byte} (free : d.open new = some none)
    (there : d.open name = some (some p)) (deleted : d.recordDelete p = some (true, d₁))
    (made : d.renamedName alloc p new = some given) :
    d.RenameSafe space alloc name new ↔ d.Rebuilt alloc p new ∧ ∀ out,
      d₁.find given (d.renamedSize p new % 2 ^ 16) = some out → out.Admits space ∧ (p.offset = 0 → out.deleted = p) := by
  constructor
  · intro safe
    obtain ⟨rebuilt, place⟩ := safe p free there d₁ deleted
    exact ⟨rebuilt, fun out => place given out made⟩
  · intro safe p' _ there' d₁' deleted'
    obtain rfl : p' = p := Option.some.inj (Option.some.inj (there'.symm.trans there))
    obtain rfl : d₁' = d₁ := congrArg Prod.snd (Option.some.inj (deleted'.symm.trans deleted))
    refine ⟨safe.1, fun given' out made' => ?_⟩
    obtain rfl : given' = given := Option.some.inj (made'.symm.trans made)
    exact safe.2 out

/-- A rename whose old record was deleted. -/
theorem Proper.rename_safe_iff (proper : Proper d L t) (left : space = true → d.dunits < invalidBlockNumber)
    (free : d.open new = some none) (there : d.open name = some (some p))
    (fits : szDirRecord + d.renamedSize p new ≤ d.unitSize) :
    d.AllOrNothing space alloc name new ↔ d.RenameSafe space alloc name new := by
  have missing := proper.open_eq_none.mp free
  obtain ⟨hp, named, live⟩ := proper.open_eq_some.mp there
  have small : d.renamedSize p new + 1 < maxStr := by
    have := proper.small
    unfold szDirRecord at fits
    unfold maxStr
    omega
  obtain ⟨d₁, L₁, t₁, deleted, between, withdrawn, first, inner⟩ := proper.recordDelete_gone hp
  have ends : ∀ x ∈ t₁.inorder, Ends (d₁.name x) (d₁.nameSize x) := fun x hx => between.laid.ends x (between.nodes x hx)
  have fails : ∀ {d' L' t'}, Indexed d' L' t' → Stays d₁ d' t₁ t' → ¬ d.Moves d' name new false := by
    intro d' L' t' indexed stays moves
    have before : d.Denotes name (d.entryAt p) := proper.denotes_iff.mpr ⟨p, hp, named, live, rfl⟩
    exact withdrawn.lost proper.toIndexed hp named indexed stays.old ends ((moves name _).mpr before)
  rw [Directory.AllOrNothing, proper.toIndexed.rename_eq space alloc free there deleted]
  cases made : d.renamedName alloc p new with
  | none =>
    refine iff_of_false (fails between (Stays.refl d₁ t₁)) fun safe => ?_
    obtain ⟨given, some⟩ := (safe p free there d₁ deleted).1.named
    cases made.symm.trans some
  | some given =>
    rw [Directory.renameSafe_iff free there deleted made]
    dsimp only
    by_cases taken : ∃ x ∈ t₁.inorder, d₁.key x = chars given
    · obtain ⟨x, hx, same⟩ := taken
      refine iff_of_false ?_ fun safe => ?_
      · cases call : d₁.createIn space (d.renamed p new given) with
        | none => exact fails between (Stays.refl d₁ t₁)
        | some out =>
          obtain ⟨r, d'⟩ := out
          obtain ⟨_, rfl, rfl⟩ := between.createIn_taken hx same call
          exact fails between (Stays.refl d' t₁)
      · have name := ((Directory.rebuilt_iff small made).mp safe.1).1
        obtain ⟨old, key⟩ := withdrawn.old x hx
        exact missing x old (key.symm.trans (same.trans name))
    · have fresh : ∀ x ∈ t₁.inorder, d₁.key x ≠ chars (d.renamed p new given).name := fun x hx same => taken ⟨x, hx, same⟩
      obtain ⟨out, r, d', L', t', found, created, indexed, success, failure, admits, noted⟩ := between.createIn_missing
        (fun room => withdrawn.dunits.symm ▸ left room)
        (withdrawn.unitSize.symm ▸ Directory.renamed_fits proper.small fits live made) fresh
      have search : (∀ out', d₁.find given (d.renamedSize p new % 2 ^ 16) = some out' →
          out'.Admits space ∧ (p.offset = 0 → out'.deleted = p)) ↔ out.Admits space ∧ (p.offset = 0 → out.deleted = p) := by
        constructor
        · exact fun all => all out found
        · intro safe out' found'
          obtain rfl := Option.some.inj (found.symm.trans found')
          exact safe
      rw [search, created]
      dsimp only [Directory.after, Option.getD_some]
      cases r with
      | false => exact iff_of_false (fails indexed (failure rfl)) fun safe => Bool.false_ne_true (admits.mpr safe.2.1)
      | true =>
        obtain ⟨q, added, place⟩ := success rfl
        rw [proper.moves_iff hp named live missing small withdrawn between added made indexed, and_iff_right (admits.mp rfl)]
        refine and_congr_right' ?_
        have mem : p ∈ t₁.inorder ↔ p.offset = 0 := by
          refine ⟨fun there => ?_, fun zero => (first zero).1.symm ▸ hp⟩
          by_contra other
          exact inner other there
        rw [mem]
        refine forall_congr' fun zero => ?_
        by_cases reuse : out.deleted.block ≠ invalidBlockNumber
        · rw [if_pos reuse] at place
          rw [place]
        · rw [if_neg reuse] at place
          refine iff_of_false (fun equal => place (equal ▸ mem.mpr zero)) fun equal => reuse ?_
          have block := proper.laid.block_lt (proper.nodes p hp)
          exact equal.symm ▸ Nat.ne_of_lt block

end Safe

/-- In every directory, renaming is all or nothing if and only if the old record is given up safely. -/
theorem rename_all_or_nothing_iff {d : Directory} (wf : d.WellFormed) {space : Bool}
    (left : space = true → d.dunits < invalidBlockNumber) (alloc : Alloc) {name new : Nat → Byte}
    (fits : ∀ p, d.open name = some (some p) → szDirRecord + d.renamedSize p new ≤ d.unitSize) :
    d.AllOrNothing space alloc name new ↔ d.RenameSafe space alloc name new := by
  obtain ⟨L, t, proper⟩ := wf
  by_cases both : ∃ p, d.open new = some none ∧ d.open name = some (some p)
  · obtain ⟨p, free, there⟩ := both
    exact proper.rename_safe_iff left free there (fits p there)
  · refine iff_of_true ?_ fun p free there => absurd ⟨p, free, there⟩ both
    have refused := d.rename_eq space alloc name new
    split at refused
    · exact Directory.allOrNothing_of_refused rfl refused
    · exact Directory.allOrNothing_of_refused rfl refused
    · exact Directory.allOrNothing_of_refused rfl refused
    · exact Directory.allOrNothing_of_refused rfl refused
    · next free there => exact absurd ⟨_, free, there⟩ both

/-- The directory of a run is well formed. -/
theorem ListRun.Tracked.wellFormed {h : ListRun} (tracked : h.Tracked) : h.dir.WellFormed := by
  obtain ⟨L, t, tracks⟩ := tracked
  refine ⟨L, t, tracks.toIndexed, fun x hx live link => ?_⟩
  obtain ⟨e, entry⟩ := Option.ne_none_iff_exists'.mp (tracks.alive x hx live)
  obtain ⟨y, hy, _, key, carries, path⟩ := tracks.live _ e entry
  obtain rfl := tracks.ordered.key_inj hy hx key
  obtain ⟨k, inside, zero⟩ := path (carries.flags ▸ link)
  have len : strLen (h.dir.name y) = strLen e.name := congrArg (fun s => s.length - 1) carries.key
  rw [carries.nameSize, len]
  refine ⟨k, inside, ?_⟩
  unfold Directory.linkName
  rw [len, carries.name _ (by omega)]
  exact zero

/-- The heap holds zeros. -/
def zeroAlloc : Alloc := fun _ => some fun _ => 0#8

/-- The second of two files gets a new name. -/
theorem rename_all_or_nothing_file : ∃ h, Reach ListRun.step (fun h c => c.Proper h.dir) (ListRun.start 512) h ∧
    h.dir.open (cString [98]) = some (some ⟨0, 478⟩) ∧ h.dir.AllOrNothing true zeroAlloc (cString [98]) (cString [99]) := by
  have run : (runAll ListRun.step (fun h c => c.Proper h.dir) (ListRun.start 512) listedCalls).map
      (fun h => decide (h.dir.open (cString [98]) = some (some ⟨0, 478⟩) ∧ h.dir.flags ⟨0, 478⟩ = 0#8 ∧
        h.dir.unitSize = 512 ∧ h.dir.dunits = 1 ∧ szDirRecord + h.dir.renamedSize ⟨0, 478⟩ (cString [99]) ≤ 512 ∧
        ((h.dir.recordDelete ⟨0, 478⟩).all fun gone =>
          (gone.2.find (cString [99]) (h.dir.renamedSize ⟨0, 478⟩ (cString [99]) % 2 ^ 16)).all fun out =>
              decide (out.deleted.block = invalidBlockNumber)) = true)) = some true := by
    decide +kernel
  obtain ⟨h, reached, facts⟩ := Option.map_eq_some_iff.mp run
  obtain ⟨there, flags, unitSize, dunits, fits, unused⟩ := of_decide_eq_true facts
  have reach := Reach.of_runAll _ reached
  have plain : ¬ h.dir.flags ⟨0, 478⟩ &&& dentryLink ≠ 0#8 := not_not.mpr (congrArg (· &&& dentryLink) flags)
  refine ⟨h, reach, there, (rename_all_or_nothing_iff (ListRun.tracked (by decide) reach).wellFormed
    (fun _ => dunits ▸ by decide) zeroAlloc fun p opened => ?_).mpr fun p _ opened d' deleted => ?_⟩
  · rw [there] at opened
    cases opened
    rw [unitSize]
    exact fits
  · rw [there] at opened
    cases opened
    refine ⟨fun link => absurd link plain, fun given out made found => ⟨?_, fun first => absurd first (by decide)⟩⟩
    rw [Directory.renamedName_plain plain] at made
    cases made
    rw [deleted, Option.all_some] at unused
    dsimp only at unused
    rw [found, Option.all_some] at unused
    unfold Found.Admits
    rw [if_neg (not_not.mpr (of_decide_eq_true unused))]
    exact Or.inr rfl

/-- A file and a link to the path `t`. -/
def linkCalls : List DirCall :=
  [.create ⟨cString [102], 2, 5, 0#8⟩, .create ⟨cString [108, 0, 116], 4, 6, dentryLink⟩]

/-- A link with a name of one character is to have one of two, and gets the first of them. -/
theorem link_renamed_wrong : ∃ h, Reach ListRun.step (fun h c => c.Proper h.dir) (ListRun.start 512) h ∧
    ¬ h.dir.AllOrNothing true zeroAlloc (cString [108]) (cString [109, 109]) := by
  have run : (runAll ListRun.step (fun h c => c.Proper h.dir) (ListRun.start 512) linkCalls).map
      (fun h => decide (h.dir.open (cString [109, 109]) = some none ∧ h.dir.open (cString [108]) = some (some ⟨0, 476⟩) ∧
        h.dir.flags ⟨0, 476⟩ &&& dentryLink ≠ 0#8 ∧ h.dir.unitSize = 512 ∧ h.dir.dunits = 1 ∧
        szDirRecord + h.dir.renamedSize ⟨0, 476⟩ (cString [109, 109]) ≤ 512)) = some true := by
    decide +kernel
  obtain ⟨h, reached, facts⟩ := Option.map_eq_some_iff.mp run
  obtain ⟨free, there, link, unitSize, dunits, fits⟩ := of_decide_eq_true facts
  have reach := Reach.of_runAll _ reached
  refine ⟨h, reach, fun all => ?_⟩
  have wf := (ListRun.tracked (by decide) reach).wellFormed
  have safe := (rename_all_or_nothing_iff wf (fun _ => dunits ▸ by decide) zeroAlloc fun p opened => by
    rw [there] at opened
    cases opened
    rw [unitSize]
    exact fits).mp all
  obtain ⟨L, t, proper⟩ := wf
  obtain ⟨d', L', t', deleted, _⟩ := proper.recordDelete_gone (proper.open_eq_some.mp there).1
  obtain ⟨heap, zeros, bytes⟩ := (safe _ free there d' deleted).1 link
  cases zeros
  exact absurd (bytes 1 (by decide +kernel) (by decide +kernel)) (by decide)

end PreTeO.Mgfs3
