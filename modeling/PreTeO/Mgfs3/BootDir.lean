import PreTeO.Mgfs3.DirRun

/-!
# The directory search of the boot loader (`boot2/fs/mgfs3.c`)

The boot loader knows nothing of the tree: `find_dentry` scans the records of all blocks one after
another and takes the first one whose name starts with the bytes it looks for. `none` as a whole result
is a call that does not return.
-/

namespace PreTeO.Mgfs3
set_option autoImplicit false
open PreTeO.Lib BinaryTree

/-- `mem_cmp`: how many bytes are left at the first difference. -/
def memCmp (p1 p2 : Nat → Byte) : Nat → Nat
  | 0 => 0
  | n + 1 => if p1 0 ≠ p2 0 then n + 1 else memCmp (fun i => p1 (i + 1)) (fun i => p2 (i + 1)) n

/-- The inner loop of `find_dentry` in block `b` from offset `o` on. -/
def Directory.scanBlock (d : Directory) (fname : Nat → Byte) (szFname b : Nat) : Nat → Nat → Option (Option Position)
  | 0, _ => none
  | fuel + 1, o =>
    if o < d.unitSize % 2 ^ 16 then
      if memCmp (d.name ⟨b, o⟩) fname szFname = 0 then some (some ⟨b, o⟩)
      else Directory.scanBlock d fname szFname b fuel (o + d.recordSize ⟨b, o⟩)
    else some none

/-- The outer loop: a record found sets `block` to the number of blocks before it is incremented. -/
def Directory.scanBlocks (d : Directory) (fname : Nat → Byte) (szFname : Nat) :
    Nat → Nat → Option Position → Option (Option Position)
  | 0, _, _ => none
  | fuel + 1, block, r =>
    if block < d.dunits then
      match d.scanBlock fname szFname block (d.unitSize + 1) 0 with
      | none => none
      | some none => Directory.scanBlocks d fname szFname fuel ((block + 1) % 2 ^ 32) r
      | some (some p) => Directory.scanBlocks d fname szFname fuel ((d.dunits + 1) % 2 ^ 32) (some p)
    else some r

/-- `find_dentry`. -/
def Directory.findDentry (d : Directory) (fname : Nat → Byte) (szFname : Nat) : Option (Option Position) :=
  d.scanBlocks fname szFname (d.dunits + 2) 0 none

/-- A character that ends a component of a path. -/
def Separator (c : Byte) : Prop := c = 0x2f#8 ∨ c = 0#8 ∨ c.toInt < 0x20

instance (c : Byte) : Decidable (Separator c) := inferInstanceAs (Decidable (_ ∨ _ ∨ _))

/-- The loop of `get_dentry_inode_number`; `getInode` is the directory behind an inode number. -/
def lookupLoop (getInode : Nat → Option Directory) (fpath : Nat → Byte) (szPath : Nat) :
    Nat → Nat → Nat → Directory → Nat → Option Nat
  | 0, _, _, _, _ => none
  | fuel + 1, i, j, inode, number =>
    if i < szPath then
      if Separator (fpath i) then
        if i - j ≠ 0 then
          match inode.findDentry (fun k => fpath (j + k)) (i - j) with
          | none => none
          | some none => some invalidInodeNumber
          | some (some p) =>
            match getInode (inode.inodeNumber p) with
            | none => some invalidInodeNumber
            | some next => lookupLoop getInode fpath szPath fuel (i + 1) (i + 1) next (inode.inodeNumber p)
        else lookupLoop getInode fpath szPath fuel (i + 1) (i + 1) inode number
      else lookupLoop getInode fpath szPath fuel (i + 1) j inode number
    else some number

/-- `get_dentry_inode_number`. -/
def getDentryInodeNumber (getInode : Nat → Option Directory) (fpath : Nat → Byte) (root : Directory) : Option Nat :=
  lookupLoop getInode fpath ((strLen fpath + 1) % 2 ^ 16) (strLen fpath + 2) 0 0 root invalidInodeNumber

/-! ## What the scan finds -/

/-- The name of the record starts with the first `n` bytes of `name`. -/
def Directory.Begins (d : Directory) (p : Position) (name : Nat → Byte) (n : Nat) : Prop :=
  ∀ i, i < n → d.name p i = name i

theorem memCmp_eq_zero {p1 p2 : Nat → Byte} {n : Nat} : memCmp p1 p2 n = 0 ↔ ∀ i, i < n → p1 i = p2 i := by
  induction n generalizing p1 p2 with
  | zero => simp [memCmp]
  | succ n ih =>
    rw [memCmp]
    split
    · next differ =>
      refine ⟨fun zero => absurd zero (Nat.succ_ne_zero n), fun same => ?_⟩
      exact absurd (same 0 (by omega)) differ
    · next head =>
      rw [ih]
      constructor
      · intro tail i hi
        cases i with
        | zero => exact not_not.mp head
        | succ i => exact tail i (by omega)
      · exact fun same i hi => same (i + 1) (by omega)

/-- The order of the scan. -/
def Position.Before (p q : Position) : Prop := p.block < q.block ∨ p.block = q.block ∧ p.offset < q.offset

section Scan

variable {d : Directory} {L : Layout} {name : Nat → Byte} {n : Nat}

theorem Directory.scanBlock_spec (name : Nat → Byte) (n : Nat) (small : d.unitSize < 2 ^ 16) {b a fuel : Nat}
    {l : List Nat}
    (tiles : Tiles (fun o => d.recordSize ⟨b, o⟩) a d.unitSize l) (enough : l.length < fuel) :
    (d.scanBlock name n b fuel a = some none ∧ ∀ o ∈ l, ¬ d.Begins ⟨b, o⟩ name n) ∨
    ∃ o ∈ l, d.scanBlock name n b fuel a = some (some ⟨b, o⟩) ∧ d.Begins ⟨b, o⟩ name n ∧
      ∀ x ∈ l, x < o → ¬ d.Begins ⟨b, x⟩ name n := by
  induction l generalizing a fuel with
  | nil =>
    obtain ⟨fuel, rfl⟩ : ∃ m, fuel = m + 1 := ⟨fuel - 1, by omega⟩
    have stop : a = d.unitSize := tiles
    refine Or.inl ⟨?_, nofun⟩
    rw [scanBlock, if_neg]
    rw [Nat.mod_eq_of_lt small]
    omega
  | cons o l ih =>
    rw [List.length_cons] at enough
    obtain ⟨fuel, rfl⟩ : ∃ m, fuel = m + 1 := ⟨fuel - 1, by omega⟩
    have ascending := tiles.sorted
    have bound := (tiles.bounds List.mem_cons_self).2
    obtain ⟨rfl, positive, rest⟩ := tiles
    rw [scanBlock, if_pos (by rw [Nat.mod_eq_of_lt small]; omega)]
    by_cases here : d.Begins ⟨b, o⟩ name n
    · rw [if_pos (memCmp_eq_zero.mpr here)]
      refine Or.inr ⟨o, List.mem_cons_self, rfl, here, fun x hx less => ?_⟩
      rcases List.mem_cons.mp hx with rfl | there
      · omega
      · have := (List.pairwise_cons.mp ascending).1 x there
        omega
    · rw [if_neg fun zero => here (memCmp_eq_zero.mp zero)]
      rcases ih rest (show l.length < fuel by omega) with ⟨scan, none⟩ | ⟨x, hx, scan, begins, first⟩
      · refine Or.inl ⟨scan, fun y hy => ?_⟩
        rcases List.mem_cons.mp hy with rfl | there
        · exact here
        · exact none y there
      · refine Or.inr ⟨x, List.mem_cons_of_mem o hx, scan, begins, fun y hy less => ?_⟩
        rcases List.mem_cons.mp hy with rfl | there
        · exact here
        · exact first y there less

/-- A record found ends the scan. -/
theorem Directory.scanBlocks_stop {fuel block : Nat} {r : Option Position} (past : d.dunits ≤ block) :
    d.scanBlocks name n (fuel + 1) block r = some r := by
  rw [scanBlocks, if_neg (by omega)]

theorem Laid.scanBlocks_spec (laid : Laid d L) (small : d.unitSize < 2 ^ 16) (few : d.dunits < invalidBlockNumber)
    {block fuel : Nat} (inside : block ≤ d.dunits) (enough : d.dunits - block + 2 ≤ fuel)
    (behind : ∀ p, L.Has p → p.block < block → ¬ d.Begins p name n) :
    (d.scanBlocks name n fuel block none = some none ∧ ∀ p, L.Has p → ¬ d.Begins p name n) ∨
    ∃ p, d.scanBlocks name n fuel block none = some (some p) ∧ L.Has p ∧ d.Begins p name n ∧
      ∀ q, L.Has q → q.Before p → ¬ d.Begins q name n := by
  unfold invalidBlockNumber at few
  obtain ⟨rest, total⟩ : ∃ m, d.dunits = block + m := ⟨d.dunits - block, by omega⟩
  induction rest generalizing block fuel with
  | zero =>
    obtain ⟨fuel, rfl⟩ : ∃ m, fuel = m + 1 := ⟨fuel - 1, by omega⟩
    refine Or.inl ⟨Directory.scanBlocks_stop (by omega), fun p hp => behind p hp ?_⟩
    have := laid.hasBlock hp
    unfold Directory.HasBlock at this
    omega
  | succ rest ih =>
    obtain ⟨fuel, rfl⟩ : ∃ m, fuel = m + 1 := ⟨fuel - 1, by omega⟩
    have more : block < d.dunits := by omega
    have tiles := laid.tiles block more
    have count := tiles.length_le
    rw [Directory.scanBlocks, if_pos more]
    rcases Directory.scanBlock_spec name n small tiles
      (show (L block).length < d.unitSize + 1 by omega) with ⟨scan, none⟩ | ⟨o, ho, scan, begins, first⟩
    · rw [scan]
      simp only []
      rw [Nat.mod_eq_of_lt (show block + 1 < 2 ^ 32 by omega)]
      refine ih (by omega) (by omega) (fun p hp less => ?_) (by omega)
      rcases Nat.lt_succ_iff_lt_or_eq.mp less with less | equal
      · exact behind p hp less
      · subst equal
        exact none p.offset hp
    · have hp : L.Has ⟨block, o⟩ := ho
      rw [scan]
      simp only []
      obtain ⟨fuel, rfl⟩ : ∃ m, fuel = m + 1 := ⟨fuel - 1, by omega⟩
      rw [Nat.mod_eq_of_lt (show d.dunits + 1 < 2 ^ 32 by omega), Directory.scanBlocks_stop (by omega)]
      refine Or.inr ⟨⟨block, o⟩, rfl, hp, begins, fun q hq before => ?_⟩
      rcases before with less | ⟨equal, less⟩
      · exact behind q hq less
      · have equal : q.block = block := equal
        subst equal
        exact first q.offset hq less

/-- `find_dentry` returns the first record that begins with the name. -/
theorem Laid.findDentry_spec (laid : Laid d L) (small : d.unitSize < 2 ^ 16) (few : d.dunits < invalidBlockNumber)
    (name : Nat → Byte) (n : Nat) :
    (d.findDentry name n = some none ∧ ∀ p, L.Has p → ¬ d.Begins p name n) ∨
    ∃ p, d.findDentry name n = some (some p) ∧ L.Has p ∧ d.Begins p name n ∧
      ∀ q, L.Has q → q.Before p → ¬ d.Begins q name n :=
  laid.scanBlocks_spec small few (Nat.zero_le _) (by omega) fun _ _ less => absurd less (Nat.not_lt_zero _)

end Scan

/-! ## Agreement with the kernel -/

/-- The records of the directory, block by block. -/
inductive Directory.IsRecord (d : Directory) : Position → Prop
  | first {b : Nat} (inside : b < d.dunits) : d.IsRecord ⟨b, 0⟩
  | next {p : Position} (before : d.IsRecord p) (inside : p.offset + d.recordSize p < d.unitSize) :
      d.IsRecord ⟨p.block, p.offset + d.recordSize p⟩

/-- Both searches return, and with the same inode number or both without an entry. -/
def Directory.SearchesAgree (d : Directory) (name : Nat → Byte) (n : Nat) : Prop :=
  ∃ r r', d.findDentry name n = some r ∧ d.open name = some r' ∧ r.map d.inodeNumber = r'.map d.inodeNumber

/-- The first record that begins with the name, deleted or not, has the inode number of a live entry with
exactly that name. -/
def Directory.FirstIsLive (d : Directory) (name : Nat → Byte) (n : Nat) : Prop :=
  ∀ p, d.IsRecord p → d.Begins p name n → (∀ q, d.IsRecord q → q.Before p → ¬ d.Begins q name n) →
    ∃ x, d.InTree x ∧ ¬ d.Deleted x ∧ d.key x = chars name ∧ d.inodeNumber x = d.inodeNumber p

namespace Indexed

variable {d : Directory} {L : Layout} {t : BinaryTree Position} {name : Nat → Byte} {n : Nat}

theorem isRecord_iff (h : Indexed d L t) {p : Position} : d.IsRecord p ↔ L.Has p := by
  constructor
  · intro record
    induction record with
    | @first b inside =>
      have root := h.root
      rw [if_neg (by omega)] at root
      have top := h.laid.inside (h.nodes _ (root?_mem root))
      have header := h.laid.header (h.nodes _ (root?_mem root))
      have tiles := h.laid.tiles b inside
      unfold szDirRecord at header
      cases list : L b with
      | nil =>
        rw [list] at tiles
        have stop : 0 = d.unitSize := tiles
        omega
      | cons o rest =>
        rw [list] at tiles
        have start : o = 0 := tiles.1
        unfold Layout.Has
        rw [list, start]
        exact List.mem_cons_self
    | @next p _ inside ih => exact (h.laid.tiles p.block (h.laid.hasBlock ih)).next ih inside
  · intro has
    have inside := h.laid.hasBlock has
    exact (h.laid.tiles p.block inside).forall_of_next (P := fun o => d.IsRecord ⟨p.block, o⟩)
      (fun _ => .first inside) (fun o record more => .next record more) p.offset has

/-- What opening found is a live entry with the name. -/
theorem live_of_open (h : Indexed d L t) {x : Position} (found : d.open name = some (some x)) :
    x ∈ t.inorder ∧ ¬ d.Deleted x ∧ d.key x = chars name := by
  obtain ⟨hx, same, live⟩ := h.open_eq_some.mp found
  exact ⟨hx, live, same⟩

theorem begins_of_key (string : IsString name n) (short : n < maxStr) {x : Position} (same : d.key x = chars name) :
    d.Begins x name n := eq_of_charsN_eq same string.body (Nat.le_of_lt short)

/-- The two searches agree exactly if the first record that begins with the name is the right one. -/
theorem searchesAgree_iff (h : Indexed d L t) (few : d.dunits < invalidBlockNumber) (string : IsString name n)
    (short : n < maxStr) : d.SearchesAgree name n ↔ d.FirstIsLive name n := by
  constructor
  · rintro ⟨r, r', scan, opened, equal⟩ p record begins first
    rcases h.laid.findDentry_spec h.small few name n with ⟨scan', none⟩ | ⟨p', scan', has', begins', first'⟩
    · exact absurd begins (none p (h.isRecord_iff.mp record))
    · -- both are the first record in the order of the scan
      have same : p' = p := by
        by_contra differ
        have order : p'.Before p ∨ p.Before p' := by
          unfold Position.Before
          have : ¬ (p'.block = p.block ∧ p'.offset = p.offset) := fun both => differ (by
            cases p
            cases p'
            simp_all)
          omega
        rcases order with before | before
        · exact first p' (h.isRecord_iff.mpr has') before begins'
        · exact first' p (h.isRecord_iff.mp record) before begins
      subst same
      cases scan.symm.trans scan'
      cases r' with
      | none => cases equal
      | some x =>
        obtain ⟨hx, live, key⟩ := h.live_of_open opened
        exact ⟨x, h.inTree_iff.mpr hx, live, key, (Option.some.inj equal).symm⟩
  · intro good
    rcases h.laid.findDentry_spec h.small few name n with ⟨scan, absent⟩ | ⟨p, scan, has, begins, first⟩
    · refine ⟨none, none, scan, h.open_missing fun x hx same => ?_, rfl⟩
      exact absent x (h.nodes x hx) (begins_of_key string short same)
    · obtain ⟨x, tree, live, key, inode⟩ := good p (h.isRecord_iff.mpr has) begins
        fun q record before => first q (h.isRecord_iff.mp record) before
      exact ⟨some p, some x, scan, h.open_live (h.inTree_iff.mp tree) key live, by simp [inode]⟩

end Indexed

/-- The loop of `get_dentry_inode_number` runs to the end of a plain name. -/
theorem lookupLoop_name {getInode : Nat → Option Directory} {name : Nat → Byte} {n i fuel number : Nat} {d : Directory}
    (plain : ∀ k, k < n → ¬ Separator (name k)) (inside : i ≤ n) :
    lookupLoop getInode name (n + 1) (fuel + (n - i)) i 0 d number = lookupLoop getInode name (n + 1) fuel n 0 d number := by
  obtain ⟨rest, total⟩ : ∃ m, n = i + m := ⟨n - i, by omega⟩
  induction rest generalizing i with
  | zero =>
    have stop : i = n := by omega
    rw [stop, Nat.sub_self, Nat.add_zero fuel]
  | succ rest ih =>
    rw [show fuel + (n - i) = fuel + (n - (i + 1)) + 1 by omega, lookupLoop, if_pos (by omega),
      if_neg (plain i (by omega))]
    exact ih (by omega) (by omega)

/-- A plain name is one component: the number of the record found, if its inode can be read. -/
theorem getDentryInodeNumber_name {getInode : Nat → Option Directory} {name : Nat → Byte} {n : Nat} {d : Directory}
    (string : IsString name n) (short : n + 1 < 2 ^ 16) (positive : 0 < n) (plain : ∀ k, k < n → ¬ Separator (name k))
    {r : Option Position} (scan : d.findDentry name n = some r)
    (readable : ∀ p, r = some p → (getInode (d.inodeNumber p)).isSome) :
    getDentryInodeNumber getInode name d = some ((r.map d.inodeNumber).getD invalidInodeNumber) := by
  have length : strLen name = n := by
    unfold strLen chars
    rw [charsN_length string (by unfold maxStr; omega), Nat.add_sub_cancel]
  have stop : Separator (name n) := Or.inr (Or.inl string.zero)
  unfold getDentryInodeNumber
  rw [length, Nat.mod_eq_of_lt short, show n + 2 = 1 + 1 + (n - 0) by omega, lookupLoop_name plain (Nat.zero_le n),
    lookupLoop, if_pos (Nat.lt_succ_self n), if_pos stop, if_pos (by omega)]
  simp only [Nat.zero_add, Nat.sub_zero, scan]
  cases r with
  | none => rfl
  | some p =>
    obtain ⟨next, read⟩ := Option.isSome_iff_exists.mp (readable p rfl)
    simp only [read]
    rw [lookupLoop, if_neg (Nat.lt_irrefl _)]
    rfl

end PreTeO.Mgfs3
