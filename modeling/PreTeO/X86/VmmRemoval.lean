import PreTeO.X86.VmmUnmap

/-!
# What the loops of `_unmap` remove

A loop comes to the numbers of its table in order, so a number cuts those that it came to from the others. Tables and
pages that leave the store are those that are given back.
-/

namespace PreTeO.X86
set_option autoImplicit false

open Lib (Cell digit nextBlock trail missing Below Graded Unshared Grows Alters Rooted Prunes)

/-! ## The pages that `_unmap` comes to -/

/-- The page that the last entry of a trail names. -/
def leafTable (leaves : Option (List Entry)) : Nat := ((leaves.bind List.getLast?).map Entry.table).getD 0

/-- No table is without entries, but for the root and maybe for one more. -/
def Filled (root : Nat) (lvl : Nat → Option Nat) (mem : Tables) (but : Nat) : Prop :=
  ∀ n l, lvl n = some l → n ≠ root → n ≠ but → ∃ j < 512, mem n j ≠ Entry.empty

section Removal
variable (before : Tables) (lvl₀ : Nat → Option Nat) (root v vaddrEnd : Nat)

/-- The pages that `_unmap` is asked to remove; the first one is removed in any case. -/
def InRange (w : Nat) : Prop := v ≤ w ∧ (w = v ∨ pageAddr w < vaddrEnd)

instance (w : Nat) : Decidable (InRange v vaddrEnd w) := inferInstanceAs (Decidable (_ ∧ (_ ∨ _)))

/-- `_unmap` ends at the number: it has no PDP, or a large page. -/
def Blocked (w : Nat) : Prop :=
  missing view 512 before 3 root w = 3 ∨ ∃ leaves, trail view 512 before 3 root w = some leaves ∧ leaves.length < 4

/-- Of the 1G blocks from the one of `v` on, none before that of the number has a PD. -/
def NoPd (w : Nat) : Prop := ∀ x, v ≤ x → x / 512 ^ 2 < w / 512 ^ 2 → missing view 512 before 3 root x = 2

/-- `ipt` still has the index of the first page when the first PD is entered, unless that is the PD of the first page. -/
def Spared (w : Nat) : Prop := v / 512 ^ 2 < w / 512 ^ 2 ∧ w % 512 ^ 2 < v % 512 ∧ NoPd before root v w

/-- The pages that `_unmap` comes to, if nothing ends it. -/
def Visited (w : Nat) : Prop := InRange v vaddrEnd w ∧ ¬ Spared before root v w

/-- The pages that were given back are the tables that left the store and those of the numbers that lost their leaf. -/
def Accounted (lvl : Nat → Option Nat) (mem : Tables) (freed : List Nat) : Prop :=
  ∃ tables gone : Finset Nat, (∀ n, n ∈ tables ↔ lvl₀ n ≠ none ∧ lvl n = none) ∧
    (∀ w, w ∈ gone ↔ w < 512 ^ 4 ∧ trail view 512 mem 3 root w ≠ trail view 512 before 3 root w) ∧
    (freed : Multiset Nat) = tables.val + gone.val.map fun w => leafTable (trail view 512 before 3 root w)

/-- After the pages before the number `u`. -/
structure Unmapping (lvl : Nat → Option Nat) (mem : Tables) (freed : List Nat) (u : Nat) : Prop where
  tabled : Tabled mem lvl
  rooted : Rooted view 512 mem lvl 3 root
  shrinks : Grows view 512 mem lvl before lvl₀
  same : ∀ w < 512 ^ 4, ¬ (w < u ∧ Visited before root v vaddrEnd w) →
    trail view 512 mem 3 root w = trail view 512 before 3 root w
  removed : ∀ w < 512 ^ 4, w < u → Visited before root v vaddrEnd w →
    trail view 512 mem 3 root w = none ∧ ¬ Blocked before root w
  later : ∀ w < 512 ^ 4, u ≤ w → missing view 512 mem 3 root w = missing view 512 before 3 root w
  accounted : Accounted before lvl₀ root lvl mem freed

variable {before lvl₀ root v vaddrEnd} {lvl : Nat → Option Nat} {mem : Tables} {freed : List Nat} {u u' w l page i : Nat}
  {path : List Entry}

theorem NoPd.mono (none : NoPd before root v w) (le : u ≤ w) : NoPd before root v u :=
  fun x from_v less => none x from_v (less.trans_le (Nat.div_le_div_right le))

theorem noPd_self : NoPd before root v v := fun _ from_v less => absurd (Nat.div_le_div_right from_v) (Nat.not_le.mpr less)

theorem not_spared_self : ¬ Spared before root v v := fun h => absurd h.1 (lt_irrefl _)

theorem Unmapping.start (tabled : Tabled before lvl₀) (rooted : Rooted view 512 before lvl₀ 3 root) :
    Unmapping before lvl₀ root v vaddrEnd lvl₀ before [] v := by
  refine ⟨tabled, rooted, .refl, fun _ _ _ => rfl, fun w _ less visited => absurd less (Nat.not_lt.mpr visited.1.1),
    fun _ _ _ => rfl, ∅, ∅, fun n => ?_, fun w => ?_, rfl⟩
  · exact iff_of_false (Finset.notMem_empty n) fun h => h.1 h.2
  · exact iff_of_false (Finset.notMem_empty w) fun h => h.2 rfl

/-- A later number has the trail that it had. -/
theorem Unmapping.ahead (unmapping : Unmapping before lvl₀ root v vaddrEnd lvl mem freed u) (small : w < 512 ^ 4)
    (le : u ≤ w) : trail view 512 mem 3 root w = trail view 512 before 3 root w :=
  unmapping.same w small fun h => absurd h.1 (Nat.not_lt.mpr le)

/-- A number that leads to a table lacks at most the ones below it. -/
theorem Unmapping.entered (unmapping : Unmapping before lvl₀ root v vaddrEnd lvl mem freed u)
    (below : Below view 512 mem w 3 root path l page) : missing view 512 before 3 root w ≤ l := by
  rw [(below.grows unmapping.shrinks unmapping.rooted.graded (by decide) unmapping.rooted.start).missing]
  exact Lib.missing_le _ _ _ _

/-- The numbers up to a later one that `_unmap` comes to have no leaf. -/
theorem Unmapping.advance (unmapping : Unmapping before lvl₀ root v vaddrEnd lvl mem freed u) (le : u ≤ u')
    (passed : ∀ w < 512 ^ 4, u ≤ w → w < u' → Visited before root v vaddrEnd w →
      trail view 512 mem 3 root w = none ∧ ¬ Blocked before root w) :
    Unmapping before lvl₀ root v vaddrEnd lvl mem freed u' := by
  refine { unmapping with
    same := fun w small out => ?_
    removed := fun w small less visited => ?_
    later := fun w small high => unmapping.later w small (le.trans high) }
  · rcases Nat.lt_or_ge w u with old | new
    · exact unmapping.same w small fun h => out ⟨h.1.trans_le le, h.2⟩
    · exact unmapping.ahead small new
  · rcases Nat.lt_or_ge w u with old | new
    · exact unmapping.removed w small old visited
    · exact passed w small new less visited

/-- The numbers of a block lead to the same tables down to the level of the block. -/
theorem block_eq {x : Nat} (le : u ≤ x) (less : x < nextBlock 512 l u) : u / 512 ^ l = x / 512 ^ l := by
  have low := Nat.div_le_div_right (c := 512 ^ l) le
  have high := (Nat.div_lt_iff_lt_mul (pow_pos (by decide) l)).mpr less
  omega

theorem block_above {x : Nat} (same : u / 512 ^ l = x / 512 ^ l) : u / 512 ^ (l + 1) = x / 512 ^ (l + 1) := by
  rw [pow_succ, ← Nat.div_div_eq_div_mul, ← Nat.div_div_eq_div_mul, same]

theorem lt_nextBlock (l u : Nat) : u < nextBlock 512 l u := by
  have := Nat.lt_div_mul_add (pow_pos (a := 512) (by decide) l) (a := u)
  rw [nextBlock, Nat.add_mul, Nat.one_mul]
  exact this

/-- An empty entry is passed by with all the numbers of its block. -/
theorem Unmapping.pass (unmapping : Unmapping before lvl₀ root v vaddrEnd lvl mem freed u) (inner : l < 3)
    (below : Below view 512 mem u 3 root path l page) (empty : mem page (digit 512 l u) = Entry.empty) :
    Unmapping before lvl₀ root v vaddrEnd lvl mem freed (nextBlock 512 l u) := by
  refine unmapping.advance (lt_nextBlock l u).le fun w small le less _ => ?_
  have block := block_eq le less
  have below' := below.prefix_eq (block_above block)
  have none : trail view 512 mem 3 root w = none := by
    rw [below'.trail, ← Option.map_none]
    congr 1
    rw [Lib.digit_eq block le_rfl] at empty
    cases l with
    | zero => rw [trail, empty, view_empty]
    | succ l => rw [trail, empty, view_empty]
  refine ⟨none, not_or.mpr ⟨?_, ?_⟩⟩
  · have := unmapping.entered below'
    omega
  · rintro ⟨leaves, found, -⟩
    rw [← unmapping.ahead small le, none] at found
    cases found

/-! ## Steps -/

/-- A store in which fewer entries are left is in order. -/
theorem Tabled.shrink {mem' : Tables} {lvl' : Nat → Option Nat} (tabled : Tabled mem lvl) (graded : Graded view 512 mem' lvl')
    (shrinks : Grows view 512 mem' lvl' mem lvl) : Tabled mem' lvl' := by
  refine ⟨graded, fun n l i level inside => ?_, fun n l i m level inside node => ?_⟩
  · by_cases empty : mem' n i = Entry.empty
    · exact .inl empty
    · rw [← shrinks.kept n l i level inside (view_eq_empty.not.mpr empty)]
      exact tabled.sound n l i (shrinks.level n l level) inside
  · have used : view l (mem' n i) ≠ .empty := by
      rw [node]
      intro same
      cases same
    have kept := shrinks.kept n l i level inside used
    rw [← kept] at node ⊢
    exact tabled.node n l i m (shrinks.level n l level) inside node

/-- The page of a number is removed. -/
theorem Unmapping.clear (unmapping : Unmapping before lvl₀ root v vaddrEnd lvl mem freed u) (small : u < 512 ^ 4)
    (visited : Visited before root v vaddrEnd u) (alone : Unshared view 512 mem 3 root u)
    (below : Below view 512 mem u 3 root path 0 page) (some : mem page (digit 512 0 u) ≠ Entry.empty) :
    Unmapping before lvl₀ root v vaddrEnd lvl (mem.set page (digit 512 0 u) Entry.empty)
      ((mem page (digit 512 0 u)).table :: freed) (u + 1) := by
  have positive : 0 < 512 := by decide
  set i := digit 512 0 u with index
  set mem' := mem.set page i Entry.empty
  have graded := unmapping.rooted.graded
  have start := unmapping.rooted.start
  have level := below.level graded positive start
  have alters : Alters mem lvl mem' page i := ⟨level, fun n j other => if_neg other⟩
  have empty : view 0 (mem' page i) = .empty := by
    rw [show mem' page i = Entry.empty from if_pos ⟨rfl, rfl⟩, view_empty]
  have shrinks : Grows view 512 mem' lvl mem lvl := alters.shrinks empty
  have removed : trail view 512 mem' 3 root u = none := alters.trail_empty graded positive start below index.symm empty
  have others (w : Nat) (small_w : w < 512 ^ 4) (other : w ≠ u) :
      trail view 512 mem' 3 root w = trail view 512 mem 3 root w :=
    alters.trail_ne graded positive start alone below index.symm small_w other
  have leaves : trail view 512 before 3 root u = Option.some (path ++ [mem page i]) := by
    rw [← unmapping.ahead small le_rfl, below.trail, trail, ← index, view_zero some]
    rfl
  have four : (path ++ [mem page i]).length = 4 := by
    have := (unmapping.tabled.links below start).1
    rw [List.length_append, List.length_singleton]
    omega
  refine ⟨unmapping.tabled.shrink (alters.graded graded) shrinks, alters.rooted unmapping.rooted,
    shrinks.trans unmapping.shrinks, fun w small_w out => ?_, fun w small_w less visited_w => ?_, fun w small_w high => ?_, ?_⟩
  · rw [others w small_w fun same => out ⟨same ▸ Nat.lt_succ_self u, same ▸ visited⟩]
    exact unmapping.same w small_w fun h => out ⟨Nat.lt_succ_of_lt h.1, h.2⟩
  · rcases Nat.lt_or_eq_of_le (Nat.le_of_lt_succ less) with old | rfl
    · rw [others w small_w old.ne]
      exact unmapping.removed w small_w old visited_w
    · refine ⟨removed, not_or.mpr ⟨?_, ?_⟩⟩
      · have := unmapping.entered below
        omega
      · rintro ⟨leaves', found, short⟩
        rw [leaves] at found
        cases found
        omega
  · rw [alters.missing graded positive start]
    exact unmapping.later w small_w (Nat.le_of_succ_le high)
  · obtain ⟨tables, gone, left, lost, freed_eq⟩ := unmapping.accounted
    have new : u ∉ gone := fun member => ((lost u).mp member).2 (unmapping.ahead small le_rfl)
    refine ⟨tables, insert u gone, left, fun w => ?_, ?_⟩
    · rw [Finset.mem_insert, lost w]
      rcases eq_or_ne w u with rfl | other
      · refine iff_of_true (.inl rfl) ⟨small, ?_⟩
        rw [removed, leaves]
        exact (Option.some_ne_none _).symm
      · rw [or_iff_right other]
        exact and_congr_right fun small_w => by rw [others w small_w other]
    · rw [← Multiset.cons_coe, freed_eq, Finset.insert_val_of_notMem new, Multiset.map_cons, leaves, Multiset.add_cons]
      congr 1
      rw [leafTable, Option.bind_some, List.getLast?_concat]
      rfl

/-- A table without entries, and the entry that named it emptied. -/
theorem Tables.prunes_set {t f k : Nat} (level : lvl t = some (k + 1)) (inside : i < 512)
    (node : view (k + 1) (mem t i) = .node f) (blank : ∀ j < 512, mem f j = Entry.empty) :
    Prunes view 512 mem lvl (mem.set t i Entry.empty) (fun n => if n = f then none else lvl n) k t i f :=
  { level := level
    inside := inside
    before := node
    blank := fun j low => (congrArg (view k) (blank j low)).trans view_empty
    after := (congrArg (view (k + 1)) (if_pos ⟨rfl, rfl⟩)).trans view_empty
    same := fun _ _ other => if_neg other
    gone := if_pos rfl
    levels := fun _ other => if_neg other }

/-- A table that has no entries is taken out. -/
theorem Unmapping.prune {t f k : Nat} (unmapping : Unmapping before lvl₀ root v vaddrEnd lvl mem freed (nextBlock 512 (k + 1) u))
    (below : Below view 512 mem u 3 root path (k + 1) t) (index : digit 512 (k + 1) u = i)
    (node : view (k + 1) (mem t i) = .node f) (blank : ∀ j < 512, mem f j = Entry.empty)
    (alone : Unshared view 512 mem 3 root u) :
    Unmapping before lvl₀ root v vaddrEnd (fun n => if n = f then none else lvl n) (mem.set t i Entry.empty)
      ((mem t i).table :: freed) (nextBlock 512 (k + 1) u) := by
  have positive : 0 < 512 := by decide
  have rooted := unmapping.rooted
  have level := below.level rooted.graded positive rooted.start
  have inside : i < 512 := index ▸ Lib.digit_lt positive _ _
  set mem' := mem.set t i Entry.empty
  set lvl' := fun n => if n = f then none else lvl n
  have prunes : Prunes view 512 mem lvl mem' lvl' k t i f := Tables.prunes_set level inside node blank
  have trails (w : Nat) : trail view 512 mem' 3 root w = trail view 512 mem 3 root w :=
    prunes.trail rooted.graded positive rooted.start
  refine ⟨unmapping.tabled.shrink (prunes.graded rooted below index alone) prunes.grows,
    prunes.rooted rooted below index alone, prunes.grows.trans unmapping.shrinks, fun w small out => ?_,
    fun w small less visited => ?_, fun w small high => ?_, ?_⟩
  · rw [trails]
    exact unmapping.same w small out
  · rw [trails]
    exact unmapping.removed w small less visited
  · rw [prunes.missing_other rooted.graded positive rooted.start ?_]
    · exact unmapping.later w small high
    rintro ⟨⟨path', below'⟩, index'⟩
    have upper := alone w small _ _ _ _ below below'
    have block : u / 512 ^ (k + 1) = w / 512 ^ (k + 1) := by
      rw [Lib.div_pow_eq 512 (k + 1) u, Lib.div_pow_eq 512 (k + 1) w, upper, index, index']
    have := (Nat.le_div_iff_mul_le (pow_pos positive (k + 1))).mpr high
    omega
  · obtain ⟨tables, gone, left, lost, freed_eq⟩ := unmapping.accounted
    have level_f := rooted.graded.down _ _ _ _ level inside node
    have new : f ∉ tables := by
      intro member
      have := ((left f).mp member).2
      rw [level_f] at this
      cases this
    refine ⟨insert f tables, gone, fun n => ?_, fun w => by rw [lost w, trails], ?_⟩
    · rw [Finset.mem_insert, left n]
      rcases eq_or_ne n f with rfl | other
      · refine iff_of_true (.inl rfl) ⟨?_, if_pos rfl⟩
        rw [unmapping.shrinks.level _ _ level_f]
        exact Option.some_ne_none k
      · rw [or_iff_right other, prunes.levels n other]
    · rw [← Multiset.cons_coe, freed_eq, Finset.insert_val_of_notMem new, Multiset.cons_add, (view_node node).2]

end Removal

end PreTeO.X86
