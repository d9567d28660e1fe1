import PreTeO.Mgfs3.DirLinks

/-!
# Searching a directory

`dentry_find` walks down the search tree of the records. It ends at the record with the name, or at a
free link; at a deleted record of the same name it stays forever.
-/

namespace PreTeO.Mgfs3
set_option autoImplicit false
open PreTeO.Lib BinaryTree

/-- The records linked into the tree make a search tree whose root is the first record of the first
block; only first records of a block are marked as deleted. -/
structure Indexed (d : Directory) (L : Layout) (t : BinaryTree Position) : Prop where
  small : d.unitSize < 2 ^ 16
  laid : Laid d L
  nodes : ∀ x ∈ t.inorder, L.Has x
  linked : t.Linked d.links none
  ordered : t.Ordered d.key
  root : t.root? = if d.dunits = 0 then none else some ⟨0, 0⟩
  sized : d.sz = d.dunits * d.unitSize
  tombs : ∀ x ∈ t.inorder, d.Deleted x → x.offset = 0

/-- What `dentry_find` says about records to reuse. -/
structure Noted (d : Directory) (szName : Nat) (t : BinaryTree Position) (out : Found) : Prop where
  deleted : out.deleted.block ≠ invalidBlockNumber →
    out.deleted ∈ t.inorder ∧ d.Deleted out.deleted ∧ szDirRecord + szName ≤ d.recordSize out.deleted
  inplace : out.inplace.block ≠ invalidBlockNumber →
    out.inplace ∈ t.inorder ∧ szDirRecord + szName ≤ d.slack out.inplace

section Loop

variable {d : Directory} {L : Layout} {name : Nat → Byte} {szName fuel : Nat} {p : Position} {out : Found}

@[simp] theorem Directory.note_last : (d.note szName p out).last = p := by
  unfold note
  dsimp only
  split <;> split <;> rfl

@[simp] theorem Directory.note_found : (d.note szName p out).found = out.found := by
  unfold note
  dsimp only
  split <;> split <;> rfl

theorem Noted.note {t : BinaryTree Position} (noted : Noted d szName t out) (hp : p ∈ t.inorder) :
    Noted d szName t (d.note szName p out) := by
  unfold Directory.note
  dsimp only
  split
  · next reuse =>
    split
    · next room => exact ⟨fun _ => ⟨hp, reuse.1, reuse.2.2⟩, fun _ => ⟨hp, room.1⟩⟩
    · exact ⟨fun _ => ⟨hp, reuse.1, reuse.2.2⟩, noted.inplace⟩
  · split
    · next room => exact ⟨noted.deleted, fun _ => ⟨hp, room.1⟩⟩
    · exact ⟨noted.deleted, noted.inplace⟩

theorem Directory.findLoop_invalid (h : p.block = invalidBlockNumber) :
    d.findLoop name szName (fuel + 1) p out = some out := by
  rw [findLoop, if_pos h]

/-- One round at a record with another name. -/
theorem Directory.findLoop_ne (laid : Laid d L) (hp : L.Has p) (ne : chars name ≠ d.key p) :
    d.findLoop name szName (fuel + 1) p out = d.findLoop name szName fuel
      (d.link (if chars name < d.key p then .left else .right) p) (d.note szName p out) := by
  have differs : strCmp name (d.name p) ≠ 0 := fun zero => ne ((laid.cmp_eq_zero hp name).mp zero)
  rw [findLoop, if_neg (Nat.ne_of_lt (laid.block_lt hp)), if_pos (laid.hasBlock hp)]
  simp only [if_neg differs, laid.cmp_lt_zero hp]
  split <;> rfl

/-- One round at a record with the name. -/
theorem Directory.findLoop_eq (laid : Laid d L) (hp : L.Has p) (same : chars name = d.key p) :
    d.findLoop name szName (fuel + 1) p out =
      if d.Deleted p then d.findLoop name szName fuel p { d.note szName p out with deleted := p }
      else some { d.note szName p out with found := true } := by
  have zero : strCmp name (d.name p) = 0 := (laid.cmp_eq_zero hp name).mpr same
  rw [findLoop, if_neg (Nat.ne_of_lt (laid.block_lt hp)), if_pos (laid.hasBlock hp)]
  simp only [if_pos zero]

/-- A deleted record of the same name is never left. -/
theorem Directory.findLoop_stuck (laid : Laid d L) (hp : L.Has p) (same : chars name = d.key p)
    (deleted : d.Deleted p) (fuel : Nat) (out : Found) : d.findLoop name szName fuel p out = none := by
  induction fuel generalizing out with
  | zero => rfl
  | succ fuel ih => rw [findLoop_eq laid hp same, if_pos deleted, ih]

/-- The walk from the root of a subtree: it gets to the record with the name, or to a free link. -/
theorem Directory.findLoop_walk (laid : Laid d L) {t whole : BinaryTree Position} {q : Option Position}
    (linked : t.Linked d.links q) (nodes : ∀ x ∈ t.inorder, L.Has x) (ordered : t.Ordered d.key)
    (inside : ∀ x ∈ t.inorder, x ∈ whole.inorder) (root : p.target = t.root?) :
    (∃ x ∈ t.inorder, d.key x = chars name ∧ ∃ n out', n < t.inorder.length ∧
      ∀ fuel, d.findLoop name szName (fuel + n) p out = d.findLoop name szName fuel x out') ∨
    ((∀ x ∈ t.inorder, d.key x ≠ chars name) ∧ ∃ n out' p', n ≤ t.inorder.length ∧
      p'.block = invalidBlockNumber ∧
      (∀ fuel, d.findLoop name szName (fuel + n) p out = d.findLoop name szName fuel p' out') ∧
      out'.found = out.found ∧ out'.last = (t.path d.key (chars name)).getLast?.getD out.last ∧
      (Noted d szName whole out → Noted d szName whole out')) := by
  induction t generalizing q p out with
  | nil =>
    refine Or.inr ⟨fun x hx => (by cases hx), 0, out, p, Nat.zero_le _, Position.target_eq_none root, ?_⟩
    exact ⟨fun _ => rfl, rfl, rfl, id⟩
  | node a l r ihl ihr =>
    obtain ⟨rfl, _⟩ := Position.target_eq_some root
    obtain ⟨left, right, _, linkedL, linkedR⟩ := linked
    obtain ⟨orderedL, orderedR, below, above⟩ := ordered_node.mp ordered
    have memA : p ∈ (node p l r).inorder := root?_mem rfl
    have memL : ∀ x ∈ l.inorder, x ∈ (node p l r).inorder := fun x hx => mem_inorder_node.mpr (Or.inl hx)
    have memR : ∀ x ∈ r.inorder, x ∈ (node p l r).inorder := fun x hx => mem_inorder_node.mpr (Or.inr (Or.inr hx))
    have hp := nodes p memA
    have length : (node p l r).inorder.length = l.inorder.length + (r.inorder.length + 1) := by
      rw [inorder, List.length_append, List.length_cons]
    by_cases same : chars name = d.key p
    · exact Or.inl ⟨p, memA, same.symm, 0, out, by omega, fun _ => rfl⟩
    · have step : ∀ fuel, d.findLoop name szName (fuel + 1) p out = d.findLoop name szName fuel
          (d.link (if chars name < d.key p then .left else .right) p) (d.note szName p out) :=
        fun fuel => findLoop_ne laid hp same
      by_cases less : chars name < d.key p
      · simp only [if_pos less] at step
        rcases ihl linkedL (fun x hx => nodes x (memL x hx)) orderedL
          (fun x hx => inside x (memL x hx)) left with found | missed
        · obtain ⟨x, hx, key, n, out', short, walk⟩ := found
          refine Or.inl ⟨x, memL x hx, key, n + 1, out', by omega, fun fuel => ?_⟩
          rw [← Nat.add_assoc, step]
          exact walk fuel
        · obtain ⟨missing, n, out', p', short, invalid, walk, found, last, noted⟩ := missed
          refine Or.inr ⟨fun x hx => ?_, n + 1, out', p', by omega, invalid, fun fuel => ?_, ?_, ?_, ?_⟩
          · rcases mem_inorder_node.mp hx with here | rfl | here
            · exact missing x here
            · exact fun h => same h.symm
            · exact (less.trans (above x here)).ne'
          · rw [← Nat.add_assoc, step]
            exact walk fuel
          · rw [found, note_found]
          · rw [last, note_last, path, if_neg same, if_pos less, List.getLast?_cons, Option.getD_some]
          · exact fun h => noted (h.note (inside p memA))
      · have more : d.key p < chars name := lt_of_le_of_ne (not_lt.mp less) fun h => same h.symm
        simp only [if_neg less] at step
        rcases ihr linkedR (fun x hx => nodes x (memR x hx)) orderedR
          (fun x hx => inside x (memR x hx)) right with found | missed
        · obtain ⟨x, hx, key, n, out', short, walk⟩ := found
          refine Or.inl ⟨x, memR x hx, key, n + 1, out', by omega, fun fuel => ?_⟩
          rw [← Nat.add_assoc, step]
          exact walk fuel
        · obtain ⟨missing, n, out', p', short, invalid, walk, found, last, noted⟩ := missed
          refine Or.inr ⟨fun x hx => ?_, n + 1, out', p', by omega, invalid, fun fuel => ?_, ?_, ?_, ?_⟩
          · rcases mem_inorder_node.mp hx with here | rfl | here
            · exact ((below x here).trans more).ne
            · exact fun h => same h.symm
            · exact missing x here
          · rw [← Nat.add_assoc, step]
            exact walk fuel
          · rw [found, note_found]
          · rw [last, note_last, path, if_neg same, if_neg less, List.getLast?_cons, Option.getD_some]
          · exact fun h => noted (h.note (inside p memA))

/-- A call that returns does so with any larger number of rounds. -/
theorem Directory.findLoop_mono {result : Found} (h : d.findLoop name szName fuel p out = some result) (more : Nat) :
    d.findLoop name szName (fuel + more) p out = some result := by
  induction fuel generalizing p out with
  | zero => cases h
  | succ fuel ih =>
    rw [Nat.add_right_comm, findLoop]
    rw [findLoop] at h
    split
    · next invalid => rwa [if_pos invalid] at h
    · next valid =>
      rw [if_neg valid] at h
      split
      · next has =>
        rw [if_pos has] at h
        dsimp only at h ⊢
        split
        · next zero =>
          rw [if_pos zero] at h
          split
          · next deleted =>
            rw [if_pos deleted] at h
            exact ih h
          · next live => rwa [if_neg live] at h
        · next other =>
          rw [if_neg other] at h
          split
          · next less =>
            rw [if_pos less] at h
            exact ih h
          · next less =>
            rw [if_neg less] at h
            exact ih h
      · next none => rwa [if_neg none] at h

end Loop

/-! ## The whole search -/

/-- `dentry_find` returns, whatever the number of rounds it needs. -/
def Directory.Returns (d : Directory) (name : Nat → Byte) (szName : Nat) : Prop :=
  ∃ fuel out, d.findLoop name szName fuel ⟨0, 0⟩ ⟨false, .invalid, .invalid, .invalid⟩ = some out

namespace Indexed

variable {d : Directory} {L : Layout} {t : BinaryTree Position} {name : Nat → Byte} {szName : Nat} {x : Position}

theorem noted_start (d : Directory) (szName : Nat) (t : BinaryTree Position) :
    Noted d szName t ⟨false, .invalid, .invalid, .invalid⟩ :=
  ⟨fun h => absurd rfl h, fun h => absurd rfl h⟩

/-- The walk from the first record of the first block. -/
theorem walk (h : Indexed d L t) (name : Nat → Byte) (szName : Nat) :
    (∃ x ∈ t.inorder, d.key x = chars name ∧ ∃ n out, n + 2 ≤ d.rounds ∧ ∀ fuel,
      d.findLoop name szName (fuel + n) ⟨0, 0⟩ ⟨false, .invalid, .invalid, .invalid⟩ =
        d.findLoop name szName fuel x out) ∨
    ((∀ x ∈ t.inorder, d.key x ≠ chars name) ∧ ∃ out, d.find name szName = some out ∧ out.found = false ∧
      out.last = (t.path d.key (chars name)).getLast?.getD .invalid ∧ Noted d szName t out) := by
  have rounds := h.laid.length_le h.nodes h.ordered.nodup
  by_cases empty : d.dunits = 0
  · -- there is no first record
    have root := h.root
    rw [if_pos empty] at root
    have none : t = .nil := by
      cases t with
      | nil => rfl
      | node => cases root
    subst none
    refine Or.inr ⟨fun x hx => (by cases hx), ⟨false, .invalid, .invalid, .invalid⟩, ?_, rfl, rfl, noted_start ..⟩
    have without : ¬ d.HasBlock ⟨0, 0⟩ := by
      unfold Directory.HasBlock
      omega
    unfold Directory.find Directory.rounds
    rw [Directory.findLoop, if_neg (by decide), if_neg without]
  · have root := h.root
    rw [if_neg empty] at root
    have start : Position.target ⟨0, 0⟩ = t.root? := by
      rw [root]
      rfl
    rcases Directory.findLoop_walk h.laid h.linked h.nodes h.ordered (fun x hx => hx) start with
      ⟨x, hx, key, n, out, short, walk⟩ | ⟨missing, n, out, p, short, invalid, walk, found, last, noted⟩
    · exact Or.inl ⟨x, hx, key, n, out, by omega, walk⟩
    · refine Or.inr ⟨missing, out, ?_, found, last, noted (noted_start ..)⟩
      unfold Directory.find
      obtain ⟨rest, enough⟩ : ∃ m, d.rounds = m + 1 + n := ⟨d.rounds - n - 1, by omega⟩
      rw [enough, walk, Directory.findLoop_invalid invalid]

/-- A live record is found. -/
theorem find_live (h : Indexed d L t) (szName : Nat) (hx : x ∈ t.inorder) (same : d.key x = chars name) (live : ¬ d.Deleted x) :
    ∃ out, d.find name szName = some out ∧ out.found = true ∧ out.last = x := by
  rcases h.walk name szName with ⟨y, hy, key, n, out, short, walk⟩ | ⟨missing, _⟩
  · cases h.ordered.key_inj hy hx (key.trans same.symm)
    refine ⟨{ d.note szName x out with found := true }, ?_, rfl, Directory.note_last⟩
    obtain ⟨rest, enough⟩ : ∃ m, d.rounds = m + 1 + n := ⟨d.rounds - n - 1, by omega⟩
    rw [Directory.find, enough, walk, Directory.findLoop_eq h.laid (h.nodes x hx) same.symm, if_neg live]
  · exact absurd same (missing x hx)

/-- The search for the name of a deleted record never returns. -/
theorem not_returns (h : Indexed d L t) (hx : x ∈ t.inorder) (same : d.key x = chars name) (deleted : d.Deleted x) :
    ¬ d.Returns name szName := by
  rintro ⟨fuel, result, returns⟩
  rcases h.walk name szName with ⟨y, hy, key, n, out, _, walk⟩ | ⟨missing, _⟩
  · cases h.ordered.key_inj hy hx (key.trans same.symm)
    have longer := Directory.findLoop_mono returns n
    rw [walk, Directory.findLoop_stuck h.laid (h.nodes x hx) same.symm deleted] at longer
    cases longer
  · exact absurd same (missing x hx)

theorem find_dead (h : Indexed d L t) (szName : Nat) (hx : x ∈ t.inorder) (same : d.key x = chars name)
    (deleted : d.Deleted x) : d.find name szName = none := by
  cases find : d.find name szName with
  | none => rfl
  | some out => exact absurd ⟨_, out, find⟩ (h.not_returns hx same deleted)

/-- A name that no record has. -/
theorem find_missing (h : Indexed d L t) (szName : Nat)
    (missing : ∀ x ∈ t.inorder, d.key x ≠ chars name) :
    ∃ out, d.find name szName = some out ∧ out.found = false ∧
      out.last = (t.path d.key (chars name)).getLast?.getD .invalid ∧ Noted d szName t out := by
  rcases h.walk name szName with ⟨y, hy, key, _⟩ | ⟨_, found⟩
  · exact absurd key (missing y hy)
  · exact found

/-- The search ends unless a deleted record in the tree has the name. -/
theorem returns_iff (h : Indexed d L t) :
    d.Returns name szName ↔ ∀ x ∈ t.inorder, d.key x = chars name → ¬ d.Deleted x := by
  constructor
  · exact fun returns x hx same deleted => h.not_returns hx same deleted returns
  · intro live
    by_cases exists_ : ∃ x ∈ t.inorder, d.key x = chars name
    · obtain ⟨x, hx, same⟩ := exists_
      obtain ⟨out, found, _⟩ := h.find_live szName hx same (live x hx same)
      exact ⟨_, out, found⟩
    · obtain ⟨out, found, _⟩ := h.find_missing szName fun x hx same => exists_ ⟨x, hx, same⟩
      exact ⟨_, out, found⟩

/-! ## Opening -/

theorem open_live (h : Indexed d L t) (hx : x ∈ t.inorder) (same : d.key x = chars name) (live : ¬ d.Deleted x) :
    d.open name = some (some x) := by
  obtain ⟨out, find, found, last⟩ := h.find_live (strLen name + 1) hx same live
  rw [Directory.open, find]
  simp only [found, last, if_true]

theorem open_dead (h : Indexed d L t) (hx : x ∈ t.inorder) (same : d.key x = chars name) (dead : d.Deleted x) :
    d.open name = none := by
  rw [Directory.open, h.find_dead _ hx same dead]

theorem open_missing (h : Indexed d L t) (missing : ∀ x ∈ t.inorder, d.key x ≠ chars name) : d.open name = some none := by
  obtain ⟨out, find, found, _⟩ := h.find_missing (strLen name + 1) missing
  rw [Directory.open, find]
  simp only [found, Bool.false_eq_true, if_false]

/-- A name opens as the live record that has it. -/
theorem open_eq_some (h : Indexed d L t) :
    d.open name = some (some x) ↔ x ∈ t.inorder ∧ d.key x = chars name ∧ ¬ d.Deleted x := by
  constructor
  · intro opens
    by_cases there : ∃ y ∈ t.inorder, d.key y = chars name
    · obtain ⟨y, hy, same⟩ := there
      by_cases dead : d.Deleted y
      · rw [h.open_dead hy same dead] at opens
        cases opens
      · rw [h.open_live hy same dead] at opens
        obtain rfl : y = x := Option.some.inj (Option.some.inj opens)
        exact ⟨hy, same, dead⟩
    · rw [h.open_missing fun y hy same => there ⟨y, hy, same⟩] at opens
      cases opens
  · exact fun ⟨hx, same, live⟩ => h.open_live hx same live

theorem open_eq_none (h : Indexed d L t) : d.open name = some none ↔ ∀ x ∈ t.inorder, d.key x ≠ chars name := by
  constructor
  · intro opens x hx same
    by_cases dead : d.Deleted x
    · rw [h.open_dead hx same dead] at opens
      cases opens
    · rw [h.open_live hx same dead] at opens
      cases opens
  · exact h.open_missing

end Indexed

end PreTeO.Mgfs3
