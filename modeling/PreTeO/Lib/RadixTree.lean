import PreTeO.Lib.Radix

/-!
# Taking tables out of a radix table

In a store whose tables in use are those that numbers lead to, one entry names a table that is led to by the numbers of one
block. If the table has no entries it can be taken out, and no number leads to another leaf then.
-/

namespace PreTeO.Lib
set_option autoImplicit false

/-- A number with another digit at a level, and the same ones above it. -/
theorem exists_digit {d l top v i : Nat} (inside : i < d) (level : l ≤ top) (small : v < d ^ (top + 1)) :
    ∃ w < d ^ (top + 1), w / d ^ (l + 1) = v / d ^ (l + 1) ∧ digit d l w = i := by
  have positive : 0 < d := by omega
  set q := v / d ^ (l + 1)
  have quotient : (q * d + i) * d ^ l / d ^ l = q * d + i := Nat.mul_div_cancel _ (pow_pos positive l)
  have upper : (q * d + i) * d ^ l / d ^ (l + 1) = q := by
    rw [pow_succ, ← Nat.div_div_eq_div_mul, quotient, Nat.mul_comm, Nat.mul_add_div positive, Nat.div_eq_of_lt inside,
      Nat.add_zero]
  refine ⟨(q * d + i) * d ^ l, ?_, upper, ?_⟩
  · have whole : d ^ (top + 1) = d ^ (top - l) * d ^ (l + 1) := by
      rw [← pow_add]
      congr 1
      omega
    rw [whole, ← Nat.div_lt_iff_lt_mul (pow_pos positive _)] at small ⊢
    rw [upper]
    exact small
  · rw [digit, quotient, Nat.mul_comm, Nat.mul_add_mod, Nat.mod_eq_of_lt inside]

/-- The blocks of a level are inside those of the next one. -/
theorem nextBlock_le {d : Nat} (positive : 0 < d) (l v : Nat) : nextBlock d l v ≤ nextBlock d (l + 1) v := by
  unfold nextBlock
  rw [pow_succ, ← Nat.mul_assoc, Nat.mul_right_comm, ← Nat.div_div_eq_div_mul]
  refine Nat.mul_le_mul_right _ ?_
  rw [Nat.add_mul, Nat.one_mul]
  exact Nat.succ_le_of_lt (Nat.lt_div_mul_add positive)

section Radix
variable {N E : Type*} {view : Nat → E → Cell N} {d : Nat} {mem mem' : N → Nat → E} {lvl lvl' : N → Option Nat}
  {v l l' top k i : Nat} {n n' root t f : N} {path : List E}

/-! ## Paths -/

/-- A number leads to one table of a level. -/
theorem Below.unique {path' : List E} {n'' : N} (below : Below view d mem v l n path l' n')
    (other : Below view d mem v l n path' l' n'') : n' = n'' := by
  induction below generalizing path' with
  | refl =>
    cases other with
    | refl => rfl
    | step _ rest => exact absurd rest.le (Nat.not_succ_le_self _)
  | step node rest ih =>
    cases other with
    | refl => exact absurd rest.le (Nat.not_succ_le_self _)
    | step node' rest' =>
      rw [node] at node'
      cases node'
      exact ih rest'

/-- A store in which fewer entries are left has no new paths. -/
theorem Unshared.of_grows (grows : Grows view d mem' lvl' mem lvl) (graded : Graded view d mem' lvl') (positive : 0 < d)
    (start : lvl' root = some top) (unshared : Unshared view d mem top root v) : Unshared view d mem' top root v := by
  intro w small path path' l n below other
  exact unshared w small _ _ _ _ (below.grows grows graded positive start) (other.grows grows graded positive start)

/-- No more tables are needed than there are levels below the first one, for each number. -/
theorem needed_le (mem : N → Nat → E) (l : Nat) (n : N) (v k : Nat) : needed view d mem l n v k ≤ l * (k + 1) := by
  induction k with
  | zero =>
    rw [Nat.zero_add, Nat.mul_one]
    exact missing_le mem l n v
  | succ k ih =>
    have few : missingNew view d mem l n (v + (k + 1)) ≤ l :=
      List.countP_le_length.trans (List.length_range.le.trans (missing_le _ _ _ _))
    rw [needed, Nat.mul_succ]
    exact Nat.add_le_add ih few

/-! ## Stores that agree on the tables in use -/

section Agreeing
variable (same : ∀ n l, lvl n = some l → ∀ i, mem' n i = mem n i)
include same

theorem Graded.of_same (graded : Graded view d mem lvl) : Graded view d mem' lvl := by
  refine ⟨fun n l i m level inside node => ?_⟩
  rw [same n (l + 1) level] at node
  exact graded.down n l i m level inside node

theorem Grows.of_same : Grows view d mem lvl mem' lvl :=
  ⟨fun _ _ level => level, fun n l i level _ _ => same n l level i⟩

theorem trail_of_same (graded : Graded view d mem lvl) (positive : 0 < d) (start : lvl n = some l) :
    trail view d mem' l n v = trail view d mem l n v :=
  trail_congr fun _ _ m below => same m _ (below.level graded positive start) _

end Agreeing

/-! ## Tables that numbers lead to -/

/-- Some number leads to the table. -/
def Leads (view : Nat → E → Cell N) (d : Nat) (mem : N → Nat → E) (top : Nat) (root n : N) : Prop :=
  ∃ v < d ^ (top + 1), ∃ path l, Below view d mem v top root path l n

/-- The tables in use are those that numbers lead to. -/
structure Rooted (view : Nat → E → Cell N) (d : Nat) (mem : N → Nat → E) (lvl : N → Option Nat) (top : Nat) (root : N) :
    Prop where
  graded : Graded view d mem lvl
  start : lvl root = some top
  led : ∀ n l, lvl n = some l → ∃ v < d ^ (top + 1), ∃ path, Below view d mem v top root path l n

theorem Rooted.positive (rooted : Rooted view d mem lvl top root) : 0 < d := by
  obtain ⟨v, small, -⟩ := rooted.led root top rooted.start
  rcases Nat.eq_zero_or_pos d with rfl | positive
  · rw [zero_pow (Nat.succ_ne_zero top)] at small
    exact absurd small (Nat.not_lt_zero v)
  · exact positive

/-- A number that leads to an entry of a table in use. -/
theorem Rooted.exists_entry (rooted : Rooted view d mem lvl top root) (level : lvl t = some l) (inside : i < d) :
    ∃ v < d ^ (top + 1), digit d l v = i ∧ ∃ path, Below view d mem v top root path l t := by
  obtain ⟨v, small, path, below⟩ := rooted.led t l level
  obtain ⟨w, small', upper, index⟩ := exists_digit inside below.le small
  exact ⟨w, small', index, path, below.prefix_eq upper.symm⟩

theorem Rooted.leads_iff (rooted : Rooted view d mem lvl top root) : Leads view d mem top root n ↔ lvl n ≠ none := by
  constructor
  · rintro ⟨v, -, path, l, below⟩
    rw [below.level rooted.graded rooted.positive rooted.start]
    exact Option.some_ne_none l
  · intro some
    obtain ⟨l, level⟩ := Option.ne_none_iff_exists'.mp some
    obtain ⟨v, small, path, below⟩ := rooted.led n l level
    exact ⟨v, small, path, l, below⟩

/-- One entry names the table that a number leads to, if the numbers that lead to it are all of one block. -/
theorem Rooted.parent (rooted : Rooted view d mem lvl top root) {t' : N} {i' k' : Nat}
    (below : Below view d mem v top root path (k + 1) t) (node : view (k + 1) (mem t (digit d (k + 1) v)) = .node f)
    (alone : Unshared view d mem top root v) (level' : lvl t' = some (k' + 1)) (inside' : i' < d)
    (node' : view (k' + 1) (mem t' i') = .node f) : t = t' ∧ digit d (k + 1) v = i' := by
  have positive := rooted.positive
  have level := below.level rooted.graded positive rooted.start
  have below_f := rooted.graded.down _ _ _ _ level (digit_lt positive _ _) node
  have below_f' := rooted.graded.down _ _ _ _ level' inside' node'
  obtain rfl : k = k' := Option.some.inj (below_f.symm.trans below_f')
  obtain ⟨w, small', rfl, path', below'⟩ := rooted.exists_entry level' inside'
  have same := alone w small' _ _ _ _ (below.snoc node) (below'.snoc node')
  have upper : v / d ^ (k + 1 + 1) = w / d ^ (k + 1 + 1) := by
    rw [pow_succ d (k + 1), ← Nat.div_div_eq_div_mul, ← Nat.div_div_eq_div_mul, same]
  exact ⟨below.unique (below'.prefix_eq upper.symm), digit_eq same le_rfl⟩

open Classical in
/-- The levels of the tables that numbers lead to. -/
noncomputable def ledLevel (view : Nat → E → Cell N) (d : Nat) (mem : N → Nat → E) (lvl : N → Option Nat) (top : Nat)
    (root n : N) : Option Nat :=
  if Leads view d mem top root n then lvl n else none

theorem ledLevel_eq_some : ledLevel view d mem lvl top root n = some l ↔ Leads view d mem top root n ∧ lvl n = some l := by
  unfold ledLevel
  split_ifs with leads
  · exact (and_iff_right leads).symm
  · exact ⟨False.elim, fun h => absurd h.1 leads⟩

/-- Only the tables that numbers lead to need to be in use. -/
theorem Rooted.of_graded (graded : Graded view d mem lvl) (positive : 0 < d) (start : lvl root = some top) :
    Rooted view d mem (ledLevel view d mem lvl top root) top root := by
  have led : ∀ n l, ledLevel view d mem lvl top root n = some l → lvl n = some l ∧
      ∃ v < d ^ (top + 1), ∃ path, Below view d mem v top root path l n := by
    intro n l level
    obtain ⟨⟨v, small, path, l', below⟩, level⟩ := ledLevel_eq_some.mp level
    obtain rfl := below.level_eq graded positive start level
    exact ⟨level, v, small, path, below⟩
  refine ⟨⟨fun n l i m level inside node => ?_⟩, ?_, fun n l level => (led n l level).2⟩
  · obtain ⟨level, v, small, path, below⟩ := led n (l + 1) level
    obtain ⟨w, small', upper, rfl⟩ := exists_digit inside below.le small
    exact ledLevel_eq_some.mpr
      ⟨⟨w, small', _, l, (below.prefix_eq upper.symm).snoc node⟩, graded.down _ _ _ _ level inside node⟩
  · exact ledLevel_eq_some.mpr ⟨⟨0, pow_pos positive _, [], top, .refl _ _⟩, start⟩

/-! ## Taking an empty table out -/

/-- An empty table `f` is taken out of a store, and the entry of the table `t` that named it is empty then. -/
structure Prunes (view : Nat → E → Cell N) (d : Nat) (mem : N → Nat → E) (lvl : N → Option Nat) (mem' : N → Nat → E)
    (lvl' : N → Option Nat) (k : Nat) (t : N) (i : Nat) (f : N) : Prop where
  level : lvl t = some (k + 1)
  inside : i < d
  before : view (k + 1) (mem t i) = .node f
  blank : ∀ j < d, view k (mem f j) = .empty
  after : view (k + 1) (mem' t i) = .empty
  same : ∀ n j, ¬ (n = t ∧ j = i) → mem' n j = mem n j
  gone : lvl' f = none
  levels : ∀ n, n ≠ f → lvl' n = lvl n

section Pruning
variable (prunes : Prunes view d mem lvl mem' lvl' k t i f)
include prunes

theorem Prunes.used {m : N} {j : Nat} (level : lvl' m = some j) : m ≠ f := by
  rintro rfl
  rw [prunes.gone] at level
  cases level

theorem Prunes.grows : Grows view d mem' lvl' mem lvl := by
  refine ⟨fun n l level => (prunes.levels n (prunes.used level)).symm.trans level, fun n l j level inside some => ?_⟩
  refine (prunes.same n j ?_).symm
  rintro ⟨rfl, rfl⟩
  rw [prunes.levels n (prunes.used level), prunes.level] at level
  cases level
  exact some prunes.after

theorem Prunes.graded (rooted : Rooted view d mem lvl top root) (below : Below view d mem v top root path (k + 1) t)
    (index : digit d (k + 1) v = i) (alone : Unshared view d mem top root v) : Graded view d mem' lvl' := by
  refine ⟨fun n l j m level inside node => ?_⟩
  have elsewhere : ¬ (n = t ∧ j = i) := by
    rintro ⟨rfl, rfl⟩
    have old := prunes.grows.level _ _ level
    rw [prunes.level] at old
    cases old
    rw [prunes.after] at node
    cases node
  rw [prunes.same n j elsewhere] at node
  have old := prunes.grows.level _ _ level
  have kept : m ≠ f := by
    rintro rfl
    obtain ⟨rfl, rfl⟩ := rooted.parent below (index ▸ prunes.before) alone old inside node
    exact elsewhere ⟨rfl, index⟩
  rw [prunes.levels m kept]
  exact rooted.graded.down _ _ _ _ old inside node

/-- The paths to the other tables stay. -/
theorem Prunes.below (graded : Graded view d mem lvl) (positive : 0 < d) (start : lvl n = some l)
    (below : Below view d mem v l n path l' n') (other : n' ≠ f) : Below view d mem' v l n path l' n' := by
  induction below with
  | refl => exact .refl _ _
  | @step l l' n m n' path node rest ih =>
    have inside := digit_lt positive (l + 1) v
    have elsewhere : ¬ (n = t ∧ digit d (l + 1) v = i) := by
      rintro ⟨rfl, rfl⟩
      rw [prunes.level] at start
      cases start
      rw [prunes.before] at node
      cases node
      cases rest with
      | refl => exact other rfl
      | step deeper _ =>
        rw [prunes.blank _ (digit_lt positive _ _)] at deeper
        cases deeper
    have down := ih (graded.down _ _ _ _ start inside node) other
    have here := prunes.same n _ elsewhere
    rw [← here] at node ⊢
    exact .step node down

/-- No trail changes. -/
theorem Prunes.trail (graded : Graded view d mem lvl) (positive : 0 < d) (start : lvl n = some l) :
    trail view d mem' l n v = Lib.trail view d mem l n v := by
  induction l generalizing n with
  | zero =>
    have other : ¬ (n = t ∧ digit d 0 v = i) := by
      rintro ⟨rfl, -⟩
      rw [prunes.level] at start
      cases start
    rw [Lib.trail, Lib.trail, prunes.same n _ other]
  | succ l ih =>
    by_cases here : n = t ∧ digit d (l + 1) v = i
    · obtain ⟨rfl, rfl⟩ := here
      rw [prunes.level] at start
      cases start
      have blank := prunes.blank _ (digit_lt positive k v)
      have none : Lib.trail view d mem k f v = none := by
        cases k with
        | zero => rw [Lib.trail, blank]
        | succ k => rw [Lib.trail, blank]
      rw [Lib.trail, Lib.trail, prunes.before, prunes.after]
      dsimp only
      rw [none, Option.map_none]
    · rw [Lib.trail, Lib.trail, prunes.same n _ here]
      cases node : view (l + 1) (mem n (digit d (l + 1) v)) with
      | empty => rfl
      | leaf => rfl
      | node m =>
        dsimp only
        rw [ih (graded.down _ _ _ _ start (digit_lt positive _ _) node)]

/-- A number that does not lead to the entry lacks what it lacked. -/
theorem Prunes.missing_other (graded : Graded view d mem lvl) (positive : 0 < d) (start : lvl n = some l)
    (elsewhere : ¬ ((∃ path, Below view d mem v l n path (k + 1) t) ∧ digit d (k + 1) v = i)) :
    missing view d mem' l n v = missing view d mem l n v := by
  induction l generalizing n with
  | zero => rfl
  | succ l ih =>
    have other : ¬ (n = t ∧ digit d (l + 1) v = i) := by
      rintro ⟨rfl, index⟩
      have level := prunes.level
      rw [start] at level
      cases level
      exact elsewhere ⟨⟨[], .refl _ _⟩, index⟩
    rw [missing, missing, prunes.same n _ other]
    cases node : view (l + 1) (mem n (digit d (l + 1) v)) with
    | empty => rfl
    | leaf => rfl
    | node m =>
      refine ih (graded.down _ _ _ _ start (digit_lt positive _ _) node) ?_
      rintro ⟨⟨path, below⟩, index⟩
      exact elsewhere ⟨⟨_, .step node below⟩, index⟩

theorem Prunes.rooted (rooted : Rooted view d mem lvl top root) (below : Below view d mem v top root path (k + 1) t)
    (index : digit d (k + 1) v = i) (alone : Unshared view d mem top root v) : Rooted view d mem' lvl' top root := by
  have start : lvl' root = some top := by
    rw [prunes.levels root ?_]
    · exact rooted.start
    rintro rfl
    have level := rooted.graded.down _ _ _ _ prunes.level prunes.inside prunes.before
    rw [rooted.start] at level
    cases level
    exact absurd below.le (Nat.not_succ_le_self _)
  refine ⟨prunes.graded rooted below index alone, start, fun n l level => ?_⟩
  obtain ⟨v, small, path, below⟩ := rooted.led n l (prunes.grows.level n l level)
  exact ⟨v, small, path, prunes.below rooted.graded rooted.positive rooted.start below (prunes.used level)⟩

end Pruning

/-! ## Entries of the last level -/

theorem Alters.rooted (alters : Alters mem lvl mem' t i) (rooted : Rooted view d mem lvl top root) :
    Rooted view d mem' lvl top root := by
  have positive := rooted.positive
  refine ⟨alters.graded rooted.graded, rooted.start, fun n l level => ?_⟩
  obtain ⟨v, small, path, below⟩ := rooted.led n l level
  exact ⟨v, small, path, (alters.below rooted.graded positive rooted.start).mpr below⟩

/-- The number of an entry that is empty has no leaf. -/
theorem Alters.trail_empty (alters : Alters mem lvl mem' t i) (graded : Graded view d mem lvl) (positive : 0 < d)
    (start : lvl n = some l) (below : Below view d mem v l n path 0 t) (index : digit d 0 v = i)
    (empty : view 0 (mem' t i) = .empty) : Lib.trail view d mem' l n v = none := by
  rw [((alters.below graded positive start).mpr below).trail, Lib.trail, index, empty]
  rfl

/-- An entry that is emptied. -/
theorem Alters.shrinks (alters : Alters mem lvl mem' t i) (empty : view 0 (mem' t i) = .empty) :
    Grows view d mem' lvl mem lvl := by
  refine ⟨fun _ _ h => h, fun n l j level _ some => (alters.same n j ?_).symm⟩
  rintro ⟨rfl, rfl⟩
  rw [alters.level] at level
  cases level
  exact some empty

end Radix

end PreTeO.Lib
