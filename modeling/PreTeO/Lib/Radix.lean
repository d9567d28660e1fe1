import Mathlib.Algebra.Order.Ring.Nat
import Mathlib.Data.Nat.Log

/-!
# Radix tables

A table of level `l` has `d` entries, and the entry for a number `v` is at the digit of `v` at level `l`. An entry is
empty, a leaf, or names a table of the next lower level. Tables live in a store under names, so that two entries may name
the same one; a grading gives every table in use its level, and a table without a level is not in use.
-/

namespace PreTeO.Lib
set_option autoImplicit false

/-- What an entry is. -/
inductive Cell (N : Type*) where
  | empty
  | leaf
  | node (n : N)
deriving DecidableEq

/-- The digit of a number at a level. -/
def digit (d l v : Nat) : Nat := v / d ^ l % d

theorem digit_lt {d : Nat} (positive : 0 < d) (l v : Nat) : digit d l v < d := Nat.mod_lt _ positive

/-- A number without its last digits, by the digit before them. -/
theorem div_pow_eq (d l v : Nat) : v / d ^ l = v / d ^ (l + 1) * d + digit d l v := by
  unfold digit
  rw [pow_succ, ← Nat.div_div_eq_div_mul]
  have := Nat.div_add_mod (v / d ^ l) d
  rw [Nat.mul_comm] at this
  exact this.symm

/-- Numbers that agree above a level have the same digits there. -/
theorem digit_eq {d l k v w : Nat} (same : v / d ^ l = w / d ^ l) (above : l ≤ k) : digit d k v = digit d k w := by
  unfold digit
  obtain ⟨j, rfl⟩ := Nat.exists_eq_add_of_le above
  rw [pow_add, ← Nat.div_div_eq_div_mul, ← Nat.div_div_eq_div_mul, same]

/-- The first number that differs from `v` above its last `l` digits. -/
def nextBlock (d l v : Nat) : Nat := (v / d ^ l + 1) * d ^ l

@[simp] theorem nextBlock_zero (d v : Nat) : nextBlock d 0 v = v + 1 := by simp [nextBlock]

theorem nextBlock_digit {d : Nat} (positive : 0 < d) {j l : Nat} (low : j < l) (v : Nat) :
    digit d j (nextBlock d l v) = 0 := by
  obtain ⟨k, rfl⟩ := Nat.exists_eq_add_of_lt low
  unfold digit nextBlock
  have pow : d ^ (j + k + 1) = d ^ k * d * d ^ j := by
    rw [← pow_succ, ← pow_add]
    congr 1
    omega
  rw [pow, ← Nat.mul_assoc, Nat.mul_div_cancel _ (pow_pos positive j), ← Nat.mul_assoc, Nat.mul_mod_left]

/-- At the end of a block, the next one starts a block of the level above. -/
theorem nextBlock_full {d l v : Nat} (last : digit d l v + 1 = d) : nextBlock d l v = nextBlock d (l + 1) v := by
  unfold nextBlock
  rw [div_pow_eq d l v, pow_succ, Nat.add_assoc, last, ← Nat.succ_mul, Nat.mul_assoc, Nat.mul_comm d]

/-- Inside a block, the digit goes up and the ones above it stay. -/
theorem nextBlock_inner {d l v : Nat} (inner : digit d l v + 1 < d) :
    digit d l (nextBlock d l v) = digit d l v + 1 ∧ nextBlock d l v / d ^ (l + 1) = v / d ^ (l + 1) := by
  have positive : 0 < d := by omega
  have quotient : nextBlock d l v / d ^ l = v / d ^ (l + 1) * d + (digit d l v + 1) := by
    unfold nextBlock
    rw [Nat.mul_div_cancel _ (pow_pos positive l), div_pow_eq d l v, Nat.add_assoc]
  constructor
  · unfold digit at quotient inner ⊢
    rw [quotient, Nat.mul_comm, Nat.mul_add_mod, Nat.mod_eq_of_lt inner]
  · rw [pow_succ, ← Nat.div_div_eq_div_mul, quotient, Nat.mul_comm, Nat.mul_add_div positive, Nat.div_eq_of_lt inner,
      Nat.add_zero, ← pow_succ]

/-- A digit is one of the number's last digits. -/
theorem digit_low {d j l : Nat} (low : j ≤ l) (v : Nat) : digit d j v = digit d j (v % d ^ (l + 1)) := by
  obtain ⟨k, rfl⟩ := Nat.exists_eq_add_of_le low
  have pow : d ^ (j + k + 1) = d ^ j * (d * d ^ k) := by
    rw [Nat.add_assoc, pow_add, pow_succ, Nat.mul_comm (d ^ k)]
  unfold digit
  rw [pow, Nat.mod_mul_right_div_self, Nat.mod_mul_right_mod]

section Radix
variable {N E : Type*} (view : Nat → E → Cell N) (d : Nat)

/-- The entries from a table of a level to the leaf of a number. -/
def trail (mem : N → Nat → E) : Nat → N → Nat → Option (List E)
  | 0, n, v =>
    match view 0 (mem n (digit d 0 v)) with
    | .leaf => some [mem n (digit d 0 v)]
    | _ => none
  | l + 1, n, v =>
    match view (l + 1) (mem n (digit d (l + 1) v)) with
    | .empty => none
    | .leaf => some [mem n (digit d (l + 1) v)]
    | .node m => (trail mem l m v).map (mem n (digit d (l + 1) v) :: ·)

/-- The tables that are missing for a leaf at level 0. -/
def missing (mem : N → Nat → E) : Nat → N → Nat → Nat
  | 0, _, _ => 0
  | l + 1, n, v =>
    match view (l + 1) (mem n (digit d (l + 1) v)) with
    | .empty => l + 1
    | .leaf => 0
    | .node m => missing mem l m v

/-- The tables that are missing for a number and were not so for the one before it. -/
def missingNew (mem : N → Nat → E) (l : Nat) (n : N) (v : Nat) : Nat :=
  (List.range (missing view d mem l n v)).countP fun j => d ^ (j + 1) ∣ v

/-- The tables that are missing for the numbers from `v` to `v + k`. -/
def needed (mem : N → Nat → E) (l : Nat) (n : N) (v : Nat) : Nat → Nat
  | 0 => missing view d mem l n v
  | k + 1 => needed mem l n v k + missingNew view d mem l n (v + (k + 1))

/-- The entries `path` lead from a table down to another one. -/
inductive Below (mem : N → Nat → E) (v : Nat) : Nat → N → List E → Nat → N → Prop
  | refl (l : Nat) (n : N) : Below mem v l n [] l n
  | step {l l' : Nat} {n m n' : N} {path : List E} (node : view (l + 1) (mem n (digit d (l + 1) v)) = .node m)
      (rest : Below mem v l m path l' n') : Below mem v (l + 1) n (mem n (digit d (l + 1) v) :: path) l' n'

/-- Every table in use has a level, one above the tables it names. -/
structure Graded (mem : N → Nat → E) (lvl : N → Option Nat) : Prop where
  down : ∀ n l i m, lvl n = some (l + 1) → i < d → view (l + 1) (mem n i) = .node m → lvl m = some l

/-- No number with another beginning leads to a table of the number. -/
def Unshared (mem : N → Nat → E) (top : Nat) (root : N) (v : Nat) : Prop :=
  ∀ w < d ^ (top + 1), ∀ path path' l n, Below view d mem v top root path l n → Below view d mem w top root path' l n →
    v / d ^ (l + 1) = w / d ^ (l + 1)

variable {view d} {mem mem' : N → Nat → E} {lvl : N → Option Nat} {v w l l' top : Nat} {n n' root : N} {path : List E}

/-! ## Paths -/

theorem Below.le (below : Below view d mem v l n path l' n') : l' ≤ l := by
  induction below with
  | refl => exact le_refl _
  | step _ _ ih => exact Nat.le_succ_of_le ih

theorem Below.snoc {m : N} (below : Below view d mem v l n path (l' + 1) n')
    (node : view (l' + 1) (mem n' (digit d (l' + 1) v)) = .node m) :
    Below view d mem v l n (path ++ [mem n' (digit d (l' + 1) v)]) l' m := by
  generalize level : l' + 1 = k at below
  induction below with
  | refl =>
    subst level
    exact .step node (.refl _ _)
  | step first _ ih => exact .step first (ih node level)

/-- The trail goes on from where a path leads. -/
theorem Below.trail (below : Below view d mem v l n path l' n') :
    trail view d mem l n v = (Lib.trail view d mem l' n' v).map (path ++ ·) := by
  induction below with
  | refl => simp
  | step node _ ih =>
    rw [Lib.trail, node]
    dsimp only
    rw [ih, Option.map_map]
    rfl

theorem Below.missing (below : Below view d mem v l n path l' n') :
    missing view d mem l n v = Lib.missing view d mem l' n' v := by
  induction below with
  | refl => rfl
  | step node _ ih =>
    rw [Lib.missing, node]
    exact ih

/-- The path depends only on what is above its end. -/
theorem Below.prefix_eq (below : Below view d mem v l n path l' n') (same : v / d ^ (l' + 1) = w / d ^ (l' + 1)) :
    Below view d mem w l n path l' n' := by
  induction below with
  | refl => exact .refl _ _
  | @step l l' n m n' path node rest ih =>
    have index : digit d (l + 1) v = digit d (l + 1) w := digit_eq same (Nat.succ_le_succ rest.le)
    rw [index] at node ⊢
    exact .step node (ih same)

theorem Below.level (graded : Graded view d mem lvl) (positive : 0 < d) (below : Below view d mem v l n path l' n')
    (start : lvl n = some l) : lvl n' = some l' := by
  induction below with
  | refl => exact start
  | step node _ ih => exact ih (graded.down _ _ _ _ start (digit_lt positive _ _) node)

/-- A table is on a path at one level only. -/
theorem Below.level_eq (graded : Graded view d mem lvl) (positive : 0 < d) (below : Below view d mem v l n path l' n')
    (start : lvl n = some l) {k : Nat} (other : lvl n' = some k) : l' = k := by
  have level := below.level graded positive start
  rw [other] at level
  exact (Option.some.inj level).symm

/-- Below a table, numbers with the same last digits have the same trail. -/
theorem trail_low (same : v % d ^ (l + 1) = w % d ^ (l + 1)) : trail view d mem l n v = trail view d mem l n w := by
  induction l generalizing n with
  | zero => rw [trail, trail, digit_low le_rfl v, digit_low le_rfl w, same]
  | succ l ih =>
    have lower : v % d ^ (l + 1) = w % d ^ (l + 1) := by
      rw [← Nat.mod_mod_of_dvd v (pow_dvd_pow d (Nat.le_succ (l + 1))), same,
        Nat.mod_mod_of_dvd _ (pow_dvd_pow d (Nat.le_succ _))]
    rw [trail, trail, digit_low le_rfl v, digit_low le_rfl w, same]
    simp only [ih lower]

/-- Numbers with the same last digits that lead to the same table have leaves together. -/
theorem Below.alias {path' : List E} (below : Below view d mem v l n path l' n') (other : Below view d mem w l n path' l' n')
    (same : v % d ^ (l' + 1) = w % d ^ (l' + 1)) :
    (Lib.trail view d mem l n v).isSome = (Lib.trail view d mem l n w).isSome := by
  rw [below.trail, other.trail, trail_low same, Option.isSome_map, Option.isSome_map]

/-! ## Missing tables -/

theorem missing_le (mem : N → Nat → E) (l : Nat) (n : N) (v : Nat) : missing view d mem l n v ≤ l := by
  induction l generalizing n with
  | zero => exact le_rfl
  | succ l ih =>
    rw [missing]
    split
    · exact le_rfl
    · exact Nat.zero_le _
    · exact Nat.le_succ_of_le (ih _)

theorem missing_trail (found : (trail view d mem l n v).isSome = true) : missing view d mem l n v = 0 := by
  induction l generalizing n with
  | zero => rfl
  | succ l ih =>
    rw [trail] at found
    rw [missing]
    cases node : view (l + 1) (mem n (digit d (l + 1) v)) with
    | empty =>
      rw [node] at found
      cases found
    | leaf => rfl
    | node m =>
      rw [node] at found
      exact ih (by simpa using found)

/-- Numbers of one block have the tables above it in common. -/
theorem missing_block {j : Nat} (same : v / d ^ (j + 1) = w / d ^ (j + 1)) (few : missing view d mem l n w ≤ j) :
    missing view d mem l n v ≤ j := by
  induction l generalizing n with
  | zero => exact Nat.zero_le _
  | succ l ih =>
    rcases Nat.lt_or_ge j (l + 1) with lower | high
    · rw [missing] at few ⊢
      rw [digit_eq same lower]
      cases node : view (l + 1) (mem n (digit d (l + 1) w)) with
      | empty =>
        rw [node] at few
        exact absurd few (Nat.not_le.mpr lower)
      | leaf => exact Nat.zero_le _
      | node m =>
        rw [node] at few
        exact ih few
    · exact (missing_le mem (l + 1) n v).trans high

/-- The first table that a number lacks after one that lacks none starts with it. -/
theorem missing_first {j : Nat} (before : missing view d mem l n v = 0) (after : missing view d mem l n (v + 1) = j + 1) :
    d ^ (j + 1) ∣ v + 1 := by
  by_contra other
  have same : (v + 1) / d ^ (j + 1) = v / d ^ (j + 1) := by
    rw [Nat.succ_div, if_neg other, Nat.add_zero]
  have few : missing view d mem l n (v + 1) ≤ j := missing_block same (before.le.trans (Nat.zero_le j))
  omega

theorem missingNew_full (fulls : ∀ j < missing view d mem l n v, d ^ (j + 1) ∣ v) :
    missingNew view d mem l n v = missing view d mem l n v := by
  unfold missingNew
  rw [List.countP_eq_length.mpr fun j member => decide_eq_true (fulls j (List.mem_range.mp member)), List.length_range]

/-- For numbers that lack nothing, nothing is needed. -/
theorem needed_zero {k : Nat} (full : ∀ i ≤ k, missing view d mem l n (v + i) = 0) : needed view d mem l n v k = 0 := by
  induction k with
  | zero => exact full 0 le_rfl
  | succ k ih =>
    rw [needed, ih fun i low => full i (Nat.le_succ_of_le low), missingNew, full (k + 1) le_rfl]
    rfl

/-- After numbers that lack nothing, the next one needs all that it lacks. -/
theorem needed_last {k : Nat} (full : ∀ i < k, missing view d mem l n (v + i) = 0) :
    needed view d mem l n v k = missing view d mem l n (v + k) := by
  cases k with
  | zero => rfl
  | succ k =>
    rw [needed, needed_zero fun i low => full i (Nat.lt_succ_of_le low), Nat.zero_add]
    refine missingNew_full fun j low => ?_
    obtain ⟨m, lack⟩ := Nat.exists_eq_succ_of_ne_zero (Nat.ne_of_gt (Nat.zero_lt_of_lt low))
    have first : d ^ (m + 1) ∣ v + k + 1 := missing_first (full k (Nat.lt_succ_self k)) lack
    exact (pow_dvd_pow d (by omega)).trans first

theorem needed_mono {j k : Nat} (le : j ≤ k) : needed view d mem l n v j ≤ needed view d mem l n v k := by
  induction le with
  | refl => exact le_rfl
  | step _ ih => exact ih.trans (Nat.le_add_right _ _)

/-! ## Stores that agree on a path -/

theorem Below.congr (below : Below view d mem v l n path l' n')
    (same : ∀ p k m, Below view d mem v l n p k m → l' < k → mem' m (digit d k v) = mem m (digit d k v)) :
    Below view d mem' v l n path l' n' := by
  induction below with
  | refl => exact .refl _ _
  | @step l l' n m n' path node rest ih =>
    have here := same [] (l + 1) n (.refl _ _) (Nat.lt_succ_of_le rest.le)
    rw [← here] at node ⊢
    refine .step node (ih fun p k m' below lower => same _ k m' (.step (here ▸ node) below) lower)

/-- A trail does not change with what is not on it. -/
theorem trail_congr (same : ∀ p k m, Below view d mem v l n p k m → mem' m (digit d k v) = mem m (digit d k v)) :
    trail view d mem' l n v = trail view d mem l n v := by
  induction l generalizing n with
  | zero => rw [trail, trail, same [] 0 n (.refl _ _)]
  | succ l ih =>
    rw [trail, trail, same [] (l + 1) n (.refl _ _)]
    cases node : view (l + 1) (mem n (digit d (l + 1) v)) with
    | empty => rfl
    | leaf => rfl
    | node m =>
      dsimp only
      rw [ih fun p k m' below => same _ k m' (.step node below)]

/-! ## Stores that grow -/

/-- Tables keep their level and their entries that are not empty. -/
structure Grows (view : Nat → E → Cell N) (d : Nat) (mem : N → Nat → E) (lvl : N → Option Nat) (mem' : N → Nat → E)
    (lvl' : N → Option Nat) : Prop where
  level : ∀ n l, lvl n = some l → lvl' n = some l
  kept : ∀ n l i, lvl n = some l → i < d → view l (mem n i) ≠ .empty → mem' n i = mem n i

section Growth
variable {lvl' lvl'' : N → Option Nat} {mem'' : N → Nat → E}

theorem Grows.refl : Grows view d mem lvl mem lvl := ⟨fun _ _ h => h, fun _ _ _ _ _ _ => rfl⟩

theorem Grows.trans (first : Grows view d mem lvl mem' lvl') (second : Grows view d mem' lvl' mem'' lvl'') :
    Grows view d mem lvl mem'' lvl'' := by
  refine ⟨fun n l h => second.level n l (first.level n l h), fun n l i level inside some => ?_⟩
  have here := first.kept n l i level inside some
  rw [second.kept n l i (first.level n l level) inside (here.symm ▸ some), here]

theorem Below.grows (grows : Grows view d mem lvl mem' lvl') (graded : Graded view d mem lvl) (positive : 0 < d)
    (start : lvl n = some l) (below : Below view d mem v l n path l' n') : Below view d mem' v l n path l' n' := by
  induction below with
  | refl => exact .refl _ _
  | @step l l' n m n' path node rest ih =>
    have inside := digit_lt positive (l + 1) v
    have here := grows.kept n (l + 1) _ start inside (by rw [node]; exact nofun)
    have next := ih (graded.down _ _ _ _ start inside node)
    rw [← here] at node ⊢
    exact .step node next

/-- A number that has a leaf keeps it. -/
theorem Grows.trail (grows : Grows view d mem lvl mem' lvl') (graded : Graded view d mem lvl) (positive : 0 < d)
    (start : lvl n = some l) {leaves : List E} (found : trail view d mem l n v = some leaves) :
    Lib.trail view d mem' l n v = some leaves := by
  rw [← found]
  induction l generalizing n leaves with
  | zero =>
    have some : view 0 (mem n (digit d 0 v)) ≠ .empty := by
      intro empty
      rw [Lib.trail, empty] at found
      cases found
    rw [Lib.trail, Lib.trail, grows.kept n 0 _ start (digit_lt positive _ _) some]
  | succ l ih =>
    have some : view (l + 1) (mem n (digit d (l + 1) v)) ≠ .empty := by
      intro empty
      rw [Lib.trail, empty] at found
      cases found
    rw [Lib.trail, Lib.trail, grows.kept n (l + 1) _ start (digit_lt positive _ _) some]
    cases node : view (l + 1) (mem n (digit d (l + 1) v)) with
    | empty => rfl
    | leaf => rfl
    | node m =>
      rw [Lib.trail, node] at found
      obtain ⟨rest, found', -⟩ := Option.map_eq_some_iff.mp found
      dsimp only
      rw [ih (graded.down _ _ _ _ start (digit_lt positive _ _) node) found']

end Growth

/-! ## Linking an empty table -/

/-- An empty table `f` that was not in use is linked at an empty entry of the table `t`. -/
structure Links (view : Nat → E → Cell N) (d : Nat) (mem : N → Nat → E) (lvl : N → Option Nat) (mem' : N → Nat → E)
    (lvl' : N → Option Nat) (k : Nat) (t : N) (i : Nat) (f : N) : Prop where
  level : lvl t = some (k + 1)
  inside : i < d
  before : view (k + 1) (mem t i) = .empty
  after : view (k + 1) (mem' t i) = .node f
  fresh : lvl f = none
  blank : ∀ j, view k (mem' f j) = .empty
  same : ∀ n j, n ≠ f → ¬ (n = t ∧ j = i) → mem' n j = mem n j
  levels : ∀ n, n ≠ f → lvl' n = lvl n
  new : lvl' f = some k

section Linking
variable {lvl' : N → Option Nat} {k i : Nat} {t f : N} (links : Links view d mem lvl mem' lvl' k t i f)
include links

theorem Links.used {m : N} {j : Nat} (level : lvl m = some j) : m ≠ f := by
  rintro rfl
  rw [links.fresh] at level
  cases level

theorem Links.grows : Grows view d mem lvl mem' lvl' := by
  refine ⟨fun n l h => (links.levels n (links.used h)).trans h, fun n l j level inside some => ?_⟩
  refine links.same n j (links.used level) ?_
  rintro ⟨rfl, rfl⟩
  rw [links.level] at level
  cases level
  exact some links.before

theorem Links.graded (graded : Graded view d mem lvl) : Graded view d mem' lvl' := by
  refine ⟨fun n l j m level inside node => ?_⟩
  by_cases new : n = f
  · subst new
    rw [links.new] at level
    cases level
    rw [links.blank] at node
    cases node
  by_cases here : n = t ∧ j = i
  · obtain ⟨rfl, rfl⟩ := here
    rw [links.levels n new, links.level] at level
    cases level
    rw [links.after] at node
    cases node
    exact links.new
  · rw [links.same n j new here] at node
    rw [links.levels n new] at level
    have below := graded.down n l j m level inside node
    rw [links.levels m (links.used below)]
    exact below

/-- No trail changes. -/
theorem Links.trail (graded : Graded view d mem lvl) (positive : 0 < d) (start : lvl n = some l) :
    trail view d mem' l n v = Lib.trail view d mem l n v := by
  induction l generalizing n with
  | zero =>
    have other : ¬ (n = t ∧ digit d 0 v = i) := by
      rintro ⟨rfl, -⟩
      rw [links.level] at start
      cases start
    rw [Lib.trail, Lib.trail, links.same n _ (links.used start) other]
  | succ l ih =>
    by_cases here : n = t ∧ digit d (l + 1) v = i
    · obtain ⟨rfl, rfl⟩ := here
      rw [links.level] at start
      cases start
      rw [Lib.trail, Lib.trail, links.before, links.after]
      cases k with
      | zero => simp [Lib.trail, links.blank]
      | succ k => simp [Lib.trail, links.blank]
    · rw [Lib.trail, Lib.trail, links.same n _ (links.used start) here]
      cases node : view (l + 1) (mem n (digit d (l + 1) v)) with
      | empty => rfl
      | leaf => rfl
      | node m =>
        dsimp only
        rw [ih (graded.down _ _ _ _ start (digit_lt positive _ _) node)]

/-- A path leads where it led, or through the entry to the new table. -/
theorem Links.below (graded : Graded view d mem lvl) (positive : 0 < d) (start : lvl n = some l)
    (below : Below view d mem' v l n path l' n') :
    (∃ path, Below view d mem v l n path l' n') ∨
      n' = f ∧ l' = k ∧ digit d (k + 1) v = i ∧ ∃ path, Below view d mem v l n path (k + 1) t := by
  induction below with
  | refl => exact Or.inl ⟨_, .refl _ _⟩
  | @step l l' n m n' path node rest ih =>
    by_cases here : n = t ∧ digit d (l + 1) v = i
    · obtain ⟨rfl, index⟩ := here
      rw [links.level] at start
      cases start
      rw [index, links.after] at node
      cases node
      refine Or.inr ?_
      cases rest with
      | refl => exact ⟨rfl, rfl, index, _, .refl _ _⟩
      | step deeper _ =>
        rw [links.blank] at deeper
        cases deeper
    · rw [links.same n _ (links.used start) here] at node
      rcases ih (graded.down _ _ _ _ start (digit_lt positive _ _) node) with ⟨_, old⟩ | ⟨rfl, rfl, index, _, old⟩
      · exact Or.inl ⟨_, .step node old⟩
      · exact Or.inr ⟨rfl, rfl, index, _, .step node old⟩

theorem Links.unshared (graded : Graded view d mem lvl) (positive : 0 < d) (start : lvl root = some top)
    (unshared : Unshared view d mem top root v) : Unshared view d mem' top root v := by
  intro w small path path' l n below other
  have level (p : List E) (j : Nat) (old : Below view d mem w top root p j n) : n ≠ f :=
    links.used (old.level graded positive start)
  rcases links.below graded positive start below with ⟨_, old⟩ | ⟨rfl, rfl, index, _, old⟩ <;>
    rcases links.below graded positive start other with ⟨_, old'⟩ | ⟨new, same, index', _, old'⟩
  · exact unshared w small _ _ _ _ old old'
  · subst new
    exact absurd rfl (links.used (old.level graded positive start))
  · exact absurd rfl (level _ _ old')
  · have prefixes := unshared w small _ _ _ _ old old'
    rw [div_pow_eq d (l + 1) v, div_pow_eq d (l + 1) w, prefixes, index, index']

/-- The path goes on to the new table. -/
theorem Links.reach (graded : Graded view d mem lvl) (positive : 0 < d) (start : lvl n = some l)
    (below : Below view d mem v l n path (k + 1) t) (index : digit d (k + 1) v = i) :
    Below view d mem' v l n (path ++ [mem' t i]) k f := by
  have old := below.grows links.grows graded positive start
  have := old.snoc (m := f) (by rw [index]; exact links.after)
  rwa [index] at this

/-- There is one table less missing. -/
theorem Links.missing (graded : Graded view d mem lvl) (positive : 0 < d) (start : lvl n = some l)
    (below : Below view d mem v l n path (k + 1) t) (index : digit d (k + 1) v = i) :
    missing view d mem l n v = Lib.missing view d mem' l n v + 1 := by
  rw [below.missing, (links.reach graded positive start below index).missing, Lib.missing, index, links.before]
  cases k with
  | zero => rfl
  | succ k => rw [Lib.missing, links.blank]

/-- A number that does not lead to the entry lacks what it lacked. -/
theorem Links.missing_other (graded : Graded view d mem lvl) (positive : 0 < d) (start : lvl n = some l)
    (elsewhere : ¬ ((∃ path, Below view d mem v l n path (k + 1) t) ∧ digit d (k + 1) v = i)) :
    Lib.missing view d mem' l n v = Lib.missing view d mem l n v := by
  induction l generalizing n with
  | zero => rfl
  | succ l ih =>
    have other : ¬ (n = t ∧ digit d (l + 1) v = i) := by
      rintro ⟨rfl, index⟩
      have level := links.level
      rw [start] at level
      cases level
      exact elsewhere ⟨⟨[], .refl _ _⟩, index⟩
    rw [Lib.missing, Lib.missing, links.same n _ (links.used start) other]
    cases node : view (l + 1) (mem n (digit d (l + 1) v)) with
    | empty => rfl
    | leaf => rfl
    | node m =>
      refine ih (graded.down _ _ _ _ start (digit_lt positive _ _) node) ?_
      rintro ⟨⟨path, below⟩, index⟩
      exact elsewhere ⟨⟨_, .step node below⟩, index⟩

/-- For every number that lacked tables before, the new table is the last that counts for it. -/
theorem Links.missingNew_later (graded : Graded view d mem lvl) (positive : 0 < d) (start : lvl root = some top)
    (unshared : Unshared view d mem top root v) (below : Below view d mem v top root path (k + 1) t)
    (index : digit d (k + 1) v = i) (small : w < d ^ (top + 1)) (later : v < w) :
    missingNew view d mem' top root w = missingNew view d mem top root w := by
  by_cases here : (∃ path, Below view d mem w top root path (k + 1) t) ∧ digit d (k + 1) w = i
  · obtain ⟨⟨path', below'⟩, index'⟩ := here
    have fewer := links.missing graded positive start below' index'
    have block : v / d ^ (k + 1) = w / d ^ (k + 1) := by
      rw [div_pow_eq d (k + 1) v, div_pow_eq d (k + 1) w, unshared w small _ _ _ _ below below', index, index']
    have lacks : Lib.missing view d mem' top root w = k := by
      rw [(links.reach graded positive start below' index').missing]
      cases k with
      | zero => rfl
      | succ k => rw [Lib.missing, links.blank]
    -- the number is not the first of its block, since `v` is before it
    have inner : ¬ d ^ (k + 1) ∣ w := by
      rintro ⟨q, rfl⟩
      rw [Nat.mul_div_cancel_left _ (pow_pos positive _)] at block
      have := Nat.div_mul_le_self v (d ^ (k + 1))
      have bound := Nat.div_add_mod v (d ^ (k + 1))
      rw [block] at this
      rw [Nat.mul_comm] at later
      omega
    unfold missingNew
    rw [fewer, lacks, List.range_succ, List.countP_append, List.countP_singleton, if_neg (by simpa using inner),
      Nat.add_zero]
  · unfold missingNew
    rw [links.missing_other graded positive start here]

/-- One table less is needed for the numbers from the first one that is not complete. -/
theorem Links.needed {j r : Nat} (graded : Graded view d mem lvl) (positive : 0 < d) (start : lvl root = some top)
    (below : Below view d mem (v + r) top root path (k + 1) t) (index : digit d (k + 1) (v + r) = i)
    (full : ∀ j < r, Lib.missing view d mem top root (v + j) = 0)
    (full' : ∀ j < r, Lib.missing view d mem' top root (v + j) = 0) (le : r ≤ j)
    (unshared : r < j → Unshared view d mem top root (v + r)) (small : v + j < d ^ (top + 1)) :
    needed view d mem top root v j = Lib.needed view d mem' top root v j + 1 := by
  induction j, le using Nat.le_induction with
  | base => rw [needed_last full, needed_last full', links.missing graded positive start below index]
  | succ j le ih =>
    have alone := unshared (by omega)
    rw [Lib.needed, Lib.needed, ih (fun _ => alone) (by omega),
      links.missingNew_later graded positive start alone below index small (by omega)]
    omega

end Linking

/-! ## Entries of the last level -/

/-- An entry of a table of level 0 changes. -/
structure Alters (mem : N → Nat → E) (lvl : N → Option Nat) (mem' : N → Nat → E) (t : N) (i : Nat) : Prop where
  level : lvl t = some 0
  same : ∀ n j, ¬ (n = t ∧ j = i) → mem' n j = mem n j

section Altering
variable {t : N} {i : Nat} (alters : Alters mem lvl mem' t i)
include alters

theorem Alters.inner {m : N} (level : lvl m = some (l + 1)) (j : Nat) : mem' m j = mem m j := by
  refine alters.same m j ?_
  rintro ⟨rfl, -⟩
  rw [alters.level] at level
  cases level

theorem Alters.graded (graded : Graded view d mem lvl) : Graded view d mem' lvl := by
  refine ⟨fun n l j m level inside node => ?_⟩
  rw [alters.inner level] at node
  exact graded.down n l j m level inside node

theorem Alters.below (graded : Graded view d mem lvl) (positive : 0 < d) (start : lvl n = some l) :
    Below view d mem' v l n path l' n' ↔ Below view d mem v l n path l' n' := by
  constructor
  · intro below
    induction below with
    | refl => exact .refl _ _
    | step node _ ih =>
      rw [alters.inner start] at node ⊢
      exact .step node (ih (graded.down _ _ _ _ start (digit_lt positive _ _) node))
  · intro below
    induction below with
    | refl => exact .refl _ _
    | step node _ ih =>
      have next := ih (graded.down _ _ _ _ start (digit_lt positive _ _) node)
      rw [← alters.inner start] at node ⊢
      exact .step node next

theorem Alters.unshared (graded : Graded view d mem lvl) (positive : 0 < d) (start : lvl root = some top)
    (unshared : Unshared view d mem top root v) : Unshared view d mem' top root v := by
  intro w small path path' l n below other
  exact unshared w small _ _ _ _ ((alters.below graded positive start).mp below)
    ((alters.below graded positive start).mp other)

theorem Alters.missing (graded : Graded view d mem lvl) (positive : 0 < d) (start : lvl n = some l) :
    missing view d mem' l n v = Lib.missing view d mem l n v := by
  induction l generalizing n with
  | zero => rfl
  | succ l ih =>
    rw [Lib.missing, Lib.missing, alters.inner start]
    cases node : view (l + 1) (mem n (digit d (l + 1) v)) with
    | empty => rfl
    | leaf => rfl
    | node m => exact ih (graded.down _ _ _ _ start (digit_lt positive _ _) node)

theorem Alters.needed (graded : Graded view d mem lvl) (positive : 0 < d) (start : lvl n = some l) (k : Nat) :
    needed view d mem' l n v k = Lib.needed view d mem l n v k := by
  induction k with
  | zero => exact alters.missing graded positive start
  | succ k ih => rw [Lib.needed, Lib.needed, ih, missingNew, missingNew, alters.missing graded positive start]

/-- Only the numbers that lead to the entry see the change. -/
theorem Alters.trail (graded : Graded view d mem lvl) (positive : 0 < d) (start : lvl n = some l)
    (elsewhere : ¬ ((∃ path, Below view d mem v l n path 0 t) ∧ digit d 0 v = i)) :
    Lib.trail view d mem' l n v = Lib.trail view d mem l n v := by
  refine trail_congr fun p k m below => alters.same m _ ?_
  rintro ⟨rfl, index⟩
  have same := below.level_eq graded positive start alters.level
  subst same
  exact elsewhere ⟨⟨p, below⟩, index⟩

/-- A number keeps what it leads to, unless it is the one the entry is for. -/
theorem Alters.trail_ne (graded : Graded view d mem lvl) (positive : 0 < d) (start : lvl root = some top)
    (unshared : Unshared view d mem top root v) (below : Below view d mem v top root path 0 t) (index : digit d 0 v = i)
    (small : w < d ^ (top + 1)) (other : w ≠ v) : Lib.trail view d mem' top root w = Lib.trail view d mem top root w := by
  refine alters.trail graded positive start ?_
  rintro ⟨⟨p, below'⟩, index'⟩
  have prefixes := unshared w small _ _ _ _ below below'
  have v_eq := div_pow_eq d 0 v
  have w_eq := div_pow_eq d 0 w
  rw [prefixes, index] at v_eq
  rw [index', ← v_eq, pow_zero, Nat.div_one, Nat.div_one] at w_eq
  exact other w_eq

/-- The number that the entry is for leads to the new entry. -/
theorem Alters.trail_self (graded : Graded view d mem lvl) (positive : 0 < d) (start : lvl n = some l)
    (below : Below view d mem v l n path 0 t) (index : digit d 0 v = i) (leaf : view 0 (mem' t i) = .leaf) :
    Lib.trail view d mem' l n v = some (path ++ [mem' t i]) := by
  rw [((alters.below graded positive start).mpr below).trail, Lib.trail, index, leaf]
  rfl

/-- An entry that was empty takes nothing from another one. -/
theorem Alters.grows (empty : view 0 (mem t i) = .empty) : Grows view d mem lvl mem' lvl := by
  refine ⟨fun _ _ h => h, fun n l j level _ some => alters.same n j ?_⟩
  rintro ⟨rfl, rfl⟩
  rw [alters.level] at level
  cases level
  exact some empty

end Altering

end Radix

end PreTeO.Lib
