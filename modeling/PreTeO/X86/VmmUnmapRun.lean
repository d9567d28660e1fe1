import PreTeO.X86.VmmRemoval

/-!
# The loops of `_unmap`

What becomes of an entry of a level is known from the loop of the level below, and what becomes of a table from its
entries. When a loop is left, the indices below its own have started again; only `ipt` has not as long as there was no PD.
-/

namespace PreTeO.X86
set_option autoImplicit false

open Lib (Cell digit nextBlock trail missing Below Graded Unshared Grows Alters Rooted Prunes)

section Loops
variable (before : Tables) (lvl₀ : Nat → Option Nat) (root v vaddrEnd : Nat)

/-- The state before an entry of a table of a level, or before the loop over it. -/
structure Removing (l page u : Nat) (s : UnmapRun) (lvl : Nat → Option Nat) : Prop where
  unmapping : Unmapping before lvl₀ root v vaddrEnd lvl s.mem s.freed u
  running : s.done = false
  small : u < 512 ^ 4
  visited : Visited before root v vaddrEnd u
  idx : ∀ j ≤ 3, s.idx j = digit 512 j u
  kept : 2 ≤ l → NoPd before root v u ∧ u % 512 = v % 512 ∨ ¬ NoPd before root v u ∧ u % 512 = 0
  below : ∃ path, Below view 512 s.mem u 3 root path l page
  alone : ∀ w < 512 ^ 4, InRange v vaddrEnd w → Unshared view 512 before 3 root w
  filled : Filled root lvl₀ before root → Filled root lvl s.mem page

/-- `_unmap` has ended before a page that it comes to and cannot remove. -/
def Ended (lvl : Nat → Option Nat) (s : UnmapRun) : Prop :=
  ∃ stop < 512 ^ 4, Visited before root v vaddrEnd stop ∧ Blocked before root stop ∧
    Unmapping before lvl₀ root v vaddrEnd lvl s.mem s.freed stop ∧ (Filled root lvl₀ before root → Filled root lvl s.mem root)

/-- The indices below a level before the number `u`, unless that is past the end. -/
structure Left (l u : Nat) (s : UnmapRun) : Prop where
  zero : ∀ j < l, 0 < j → s.idx j = 0
  low : 0 < l → s.idx 0 < 512
  kept : 0 < l → vaddrEnd ≤ pageAddr u ∨ NoPd before root v u ∧ s.idx 0 = v % 512 ∨ ¬ NoPd before root v u ∧ s.idx 0 = 0

/-- What becomes of an entry of a table of a level. -/
structure Stepped (l page u : Nat) (s : UnmapRun) (lvl : Nat → Option Nat) (s' : UnmapRun) (lvl' : Nat → Option Nat) : Prop
    where
  shrinks : Grows view 512 s'.mem lvl' s.mem lvl
  above : ∀ n k j, lvl n = some k → l ≤ k → ¬ (n = page ∧ j = s.idx l) → s'.mem n j = s.mem n j
  levels : ∀ n k, lvl n = some k → l ≤ k → lvl' n = some k
  upper : ∀ j, l ≤ j → s'.idx j = s.idx j
  stop : s'.done = true → Ended before lvl₀ root v vaddrEnd lvl' s'
  go : s'.done = false → Unmapping before lvl₀ root v vaddrEnd lvl' s'.mem s'.freed (nextBlock 512 l u) ∧
    Left before root v vaddrEnd (l - 1) (nextBlock 512 l u) s' ∧ (Filled root lvl₀ before root → Filled root lvl' s'.mem page)

/-- What a loop of a level does, up to the end of its table. -/
structure Removes (l page u : Nat) (s : UnmapRun) (lvl : Nat → Option Nat) (s' : UnmapRun) (lvl' : Nat → Option Nat) : Prop
    where
  shrinks : Grows view 512 s'.mem lvl' s.mem lvl
  above : ∀ n k j, lvl n = some k → l < k → s'.mem n j = s.mem n j
  levels : ∀ n k, lvl n = some k → l ≤ k → lvl' n = some k
  upper : ∀ j, l < j → s'.idx j = s.idx j
  stop : s'.done = true → Ended before lvl₀ root v vaddrEnd lvl' s'
  go : s'.done = false → Unmapping before lvl₀ root v vaddrEnd lvl' s'.mem s'.freed (nextBlock 512 (l + 1) u) ∧
    Left before root v vaddrEnd l (nextBlock 512 (l + 1) u) s' ∧ (Filled root lvl₀ before root → Filled root lvl' s'.mem page)

/-- The entries of a table of a level. -/
def Steps (l page : Nat) (f : UnmapRun → UnmapRun) : Prop :=
  ∀ u s lvl, Removing before lvl₀ root v vaddrEnd l page u s lvl →
    ∃ lvl', Stepped before lvl₀ root v vaddrEnd l page u s lvl (f s) lvl'

/-- The loop of a level. -/
def RemovesAll (l : Nat) (f : Nat → UnmapRun → UnmapRun) : Prop :=
  ∀ page u s lvl, Removing before lvl₀ root v vaddrEnd l page u s lvl →
    ∃ lvl', Removes before lvl₀ root v vaddrEnd l page u s lvl (f page s) lvl'

variable {before lvl₀ root v vaddrEnd} {l page u fuel : Nat} {s : UnmapRun} {lvl : Nat → Option Nat}

theorem Removing.unshared (ready : Removing before lvl₀ root v vaddrEnd l page u s lvl) :
    Unshared view 512 s.mem 3 root u :=
  (ready.alone u ready.small ready.visited.1).of_grows ready.unmapping.shrinks ready.unmapping.rooted.graded
    (by decide) ready.unmapping.rooted.start

/-- The entry ends `_unmap`. -/
theorem Stepped.removes_stop {s₁ : UnmapRun} {lvl₁ : Nat → Option Nat}
    (step : Stepped before lvl₀ root v vaddrEnd l page u s lvl s₁ lvl₁) (level : lvl page = some l) (stop : s₁.done = true) :
    Removes before lvl₀ root v vaddrEnd l page u s lvl s₁ lvl₁ := by
  refine ⟨step.shrinks, fun n k j level_n high => ?_, step.levels, fun j high => step.upper j high.le, step.stop,
    fun running => absurd (running.symm.trans stop) Bool.false_ne_true⟩
  refine step.above n k j level_n high.le ?_
  rintro ⟨rfl, -⟩
  rw [level] at level_n
  cases level_n
  exact absurd high (lt_irrefl _)

/-- The loop goes on from a later number of the same table. -/
theorem Removes.of_step {s₁ s₂ s' : UnmapRun} {lvl₁ lvl' : Nat → Option Nat} {u' : Nat}
    (step : Stepped before lvl₀ root v vaddrEnd l page u s lvl s₁ lvl₁) (mem : s₂.mem = s₁.mem)
    (upper : ∀ j, l < j → s₂.idx j = s₁.idx j) (level : lvl page = some l)
    (same : u' / 512 ^ (l + 1) = u / 512 ^ (l + 1)) (rest : Removes before lvl₀ root v vaddrEnd l page u' s₂ lvl₁ s' lvl') :
    Removes before lvl₀ root v vaddrEnd l page u s lvl s' lvl' := by
  refine ⟨?_, fun n k j level_n high => ?_, fun n k level_n high => ?_, fun j high => ?_, rest.stop, fun running => ?_⟩
  · exact rest.shrinks.trans (mem ▸ step.shrinks)
  · rw [rest.above n k j (step.levels n k level_n high.le) high, mem]
    refine step.above n k j level_n high.le ?_
    rintro ⟨rfl, -⟩
    rw [level] at level_n
    cases level_n
    exact absurd high (lt_irrefl _)
  · exact rest.levels n k (step.levels n k level_n high) high
  · rw [rest.upper j high, upper j high, step.upper j high.le]
  · have block : nextBlock 512 (l + 1) u' = nextBlock 512 (l + 1) u := by rw [nextBlock, same, nextBlock]
    exact block ▸ rest.go running

theorem unmapLoop_idle {entry : UnmapRun → UnmapRun} (stop : maxPtIndex < s.idx l) :
    unmapLoop vaddrEnd l entry fuel s = s := by
  cases fuel with
  | zero => rfl
  | succ fuel => exact if_neg (Nat.not_le.mpr stop)

/-- The loop ends after the entry. -/
theorem Removes.of_end {s₁ : UnmapRun} {lvl₁ : Nat → Option Nat}
    (step : Stepped before lvl₀ root v vaddrEnd l page u s lvl s₁ lvl₁) (running : s₁.done = false)
    (level : lvl page = some l)
    (ends : Unmapping before lvl₀ root v vaddrEnd lvl₁ s₁.mem s₁.freed (nextBlock 512 (l + 1) u))
    (left : Left before root v vaddrEnd l (nextBlock 512 (l + 1) u) (s₁.next l)) :
    Removes before lvl₀ root v vaddrEnd l page u s lvl (s₁.next l) lvl₁ := by
  obtain ⟨-, -, filled⟩ := step.go running
  refine ⟨step.shrinks, fun n k j level_n high => ?_, step.levels, fun j high => ?_, fun stop => absurd (running.symm.trans stop)
    Bool.false_ne_true, fun _ => ⟨ends, left, filled⟩⟩
  · refine step.above n k j level_n high.le ?_
    rintro ⟨rfl, -⟩
    rw [level] at level_n
    cases level_n
    exact absurd high (lt_irrefl _)
  · rw [s₁.next_upper high, step.upper j high.le]

/-- The next number of a table, where the lowest index may be kept. -/
theorem next_digits {t : Nat} (level : l ≤ 3) (inner : digit 512 l u + 1 < 512) (small : u < 512 ^ 4)
    (low : t = 0 ∨ 0 < l ∧ t < 512) :
    nextBlock 512 l u + t < 512 ^ 4 ∧ (nextBlock 512 l u + t) / 512 ^ (l + 1) = u / 512 ^ (l + 1) ∧
      digit 512 l (nextBlock 512 l u + t) = digit 512 l u + 1 ∧
      ∀ j < l, digit 512 j (nextBlock 512 l u + t) = if j = 0 then t else 0 := by
  have pow : 0 < 512 ^ l := pow_pos (by decide) l
  have small_t : t < 512 ^ l := by
    rcases low with rfl | ⟨some, less⟩
    · exact pow
    · exact less.trans_le (Nat.le_self_pow some.ne' 512)
  obtain ⟨up, same⟩ := Lib.nextBlock_inner inner
  have quotient : (nextBlock 512 l u + t) / 512 ^ l = nextBlock 512 l u / 512 ^ l := by
    rw [nextBlock, Nat.mul_div_cancel _ pow, Nat.mul_comm, Nat.mul_add_div pow, Nat.div_eq_of_lt small_t, Nat.add_zero]
  have block : (nextBlock 512 l u + t) / 512 ^ (l + 1) = u / 512 ^ (l + 1) := by
    rw [← same, pow_succ, ← Nat.div_div_eq_div_mul, ← Nat.div_div_eq_div_mul, quotient]
  refine ⟨?_, block, (Lib.digit_eq quotient le_rfl).trans up, fun j below => ?_⟩
  · have whole : 512 ^ 4 = 512 ^ (3 - l) * 512 ^ (l + 1) := by
      rw [← pow_add]
      congr 1
      omega
    rw [whole, ← Nat.div_lt_iff_lt_mul (pow_pos (by decide) _)] at small ⊢
    rw [block]
    exact small
  · have rest : (nextBlock 512 l u + t) % 512 ^ l = t := by
      rw [nextBlock, Nat.mul_comm, Nat.mul_add_mod, Nat.mod_eq_of_lt small_t]
    obtain ⟨k, rfl⟩ : ∃ k, l = k + 1 := ⟨l - 1, by omega⟩
    rw [Lib.digit_low (Nat.le_of_lt_succ below), rest]
    have less : t < 512 := low.elim (fun zero => zero ▸ by decide) And.right
    split_ifs with zero
    · rw [zero, digit, pow_zero, Nat.div_one, Nat.mod_eq_of_lt less]
    · rw [digit, Nat.div_eq_of_lt (less.trans_le (Nat.le_self_pow zero 512)), Nat.zero_mod]

/-! ## The next number -/

theorem Left.next_zero {w : Nat} (left : Left before root v vaddrEnd (l - 1) w s) {j : Nat} (low : j < l) (some : 0 < j) :
    (s.next l).idx j = 0 := by
  rcases Nat.lt_or_eq_of_le (Nat.succ_le_of_lt low) with lower | rfl
  · rw [s.next_lowest lower]
    exact left.zero j (by omega) some
  · exact s.next_lower j

theorem Left.next_low {w : Nat} (left : Left before root v vaddrEnd (l - 1) w s) (some : 0 < l) : (s.next l).idx 0 < 512 := by
  rcases Nat.lt_or_eq_of_le (Nat.succ_le_of_lt some) with more | rfl
  · rw [s.next_lowest more]
    exact left.low (by omega)
  · rw [s.next_lower 0]
    decide

theorem Left.next_kept {w : Nat} (left : Left before root v vaddrEnd (l - 1) w s) (two : 2 ≤ l) :
    vaddrEnd ≤ pageAddr w ∨ NoPd before root v w ∧ (s.next l).idx 0 = v % 512 ∨
      ¬ NoPd before root v w ∧ (s.next l).idx 0 = 0 := by
  rw [s.next_lowest two]
  exact left.kept (by omega)

/-- A table below a PD has a PD. -/
theorem Removing.present (ready : Removing before lvl₀ root v vaddrEnd l page u s lvl) (low : l ≤ 1) :
    ¬ NoPd before root v (nextBlock 512 2 u) := by
  intro none
  obtain ⟨path, below⟩ := ready.below
  have lacks := none u ready.visited.1.1 (by rw [nextBlock, Nat.mul_div_cancel _ (pow_pos (by decide) 2)]; exact Nat.lt_succ_self _)
  have := ready.unmapping.entered below
  omega

/-- The pages between the next block and the next number are those that `ipt` passes over. -/
theorem Removing.spared {t : Nat} (ready : Removing before lvl₀ root v vaddrEnd l page u s lvl) (two : 2 ≤ l)
    (none : NoPd before root v (nextBlock 512 l u)) (kept : t = v % 512) {w : Nat} (from_next : nextBlock 512 l u ≤ w)
    (less : w < nextBlock 512 l u + t) : Spared before root v w := by
  obtain ⟨c, block⟩ : 512 ^ 2 ∣ nextBlock 512 l u := (pow_dvd_pow 512 two).mul_left _
  have up := (lt_nextBlock l u).trans_le' ready.visited.1.1
  have same : w / 512 ^ 2 = nextBlock 512 l u / 512 ^ 2 := by omega
  refine ⟨by omega, by omega, fun x from_v less => none x from_v (same ▸ less)⟩

theorem Removing.next_visited {t : Nat} (ready : Removing before lvl₀ root v vaddrEnd l page u s lvl)
    (inner : digit 512 l u + 1 < 512) (below : pageAddr (nextBlock 512 l u + t) < vaddrEnd) (low : l < 2 → t = 0)
    (kept : 2 ≤ l → NoPd before root v (nextBlock 512 l u) ∧ t = v % 512 ∨ ¬ NoPd before root v (nextBlock 512 l u) ∧ t = 0) :
    Visited before root v vaddrEnd (nextBlock 512 l u + t) ∧
      (2 ≤ l → NoPd before root v (nextBlock 512 l u + t) ∧ (nextBlock 512 l u + t) % 512 = v % 512 ∨
        ¬ NoPd before root v (nextBlock 512 l u + t) ∧ (nextBlock 512 l u + t) % 512 = 0) := by
  have from_v := ready.visited.1.1
  have up := lt_nextBlock l u
  have range : InRange v vaddrEnd (nextBlock 512 l u + t) := ⟨by omega, .inr below⟩
  rcases Nat.lt_or_ge l 2 with low' | two
  · refine ⟨⟨range, fun spared => ready.visited.2 ?_⟩, fun two => absurd two (Nat.not_le.mpr low')⟩
    obtain ⟨later, offset, none⟩ := spared
    obtain rfl := low low'
    rw [Nat.add_zero] at later offset none
    have same : nextBlock 512 l u / 512 ^ 2 = u / 512 ^ 2 ∧ (u % 512 ^ 2 < nextBlock 512 l u % 512 ^ 2) := by
      unfold nextBlock digit at *
      obtain rfl | rfl : l = 0 ∨ l = 1 := by omega
      · omega
      · omega
    exact ⟨same.1 ▸ later, by omega, fun x from_v less => none x from_v (same.1 ▸ less)⟩
  · obtain ⟨c, block⟩ : 512 ^ 2 ∣ nextBlock 512 l u := (pow_dvd_pow 512 two).mul_left _
    have less : t < 512 := by
      rcases kept two with ⟨-, rfl⟩ | ⟨-, rfl⟩
      · exact Nat.mod_lt _ (by decide)
      · decide
    have same : (nextBlock 512 l u + t) / 512 ^ 2 = nextBlock 512 l u / 512 ^ 2 := by omega
    have iff : NoPd before root v (nextBlock 512 l u + t) ↔ NoPd before root v (nextBlock 512 l u) := by
      unfold NoPd
      rw [same]
    rw [iff]
    rcases kept two with ⟨none, rfl⟩ | ⟨some, rfl⟩
    · exact ⟨⟨range, fun spared => by have := spared.2.1; omega⟩, fun _ => .inl ⟨none, by omega⟩⟩
    · exact ⟨⟨range, fun spared => some (iff.mp spared.2.2)⟩, fun _ => .inr ⟨some, by omega⟩⟩

theorem unmapLoop_removes {entry : UnmapRun → UnmapRun} (steps : Steps before lvl₀ root v vaddrEnd l page entry)
    (level : l ≤ 3) (enough : 512 ≤ fuel + s.idx l) (ready : Removing before lvl₀ root v vaddrEnd l page u s lvl) :
    ∃ lvl', Removes before lvl₀ root v vaddrEnd l page u s lvl (unmapLoop vaddrEnd l entry fuel s) lvl' := by
  have positive : 0 < 512 := by decide
  induction fuel generalizing s lvl u with
  | zero =>
    have := ready.idx l level
    have := Lib.digit_lt positive l u
    omega
  | succ fuel ih =>
    have index := ready.idx l level
    have inside := Lib.digit_lt positive l u
    rw [unmapLoop, if_pos (by rw [maxPtIndex]; omega)]
    obtain ⟨lvl₁, step⟩ := steps u s lvl ready
    obtain ⟨path, below⟩ := ready.below
    have graded := ready.unmapping.rooted.graded
    have start := ready.unmapping.rooted.start
    have level_page := below.level graded positive start
    set s₁ := entry s
    dsimp only
    by_cases stop : s₁.done = true
    · rw [if_pos stop]
      exact ⟨lvl₁, step.removes_stop level_page stop⟩
    rw [if_neg stop]
    have running : s₁.done = false := Bool.eq_false_iff.mpr stop
    obtain ⟨unmapping, left, filled⟩ := step.go running
    have from_v := ready.visited.1.1
    have up := lt_nextBlock l u
    have index₂ : (s₁.next l).idx l = digit 512 l u + 1 := by rw [s₁.next_idx, step.upper l le_rfl, index]
    by_cases full : digit 512 l u + 1 = 512
    · rw [unmapLoop_idle (by rw [index₂, full]; decide), ite_self]
      have block := Lib.nextBlock_full full
      refine ⟨lvl₁, .of_end step running level_page (block ▸ unmapping)
        ⟨fun j low some => left.next_zero low some, fun some => left.next_low some, fun some => ?_⟩⟩
      rcases Nat.lt_or_ge l 2 with low | two
      · obtain rfl : l = 1 := by omega
        exact .inr (.inr ⟨ready.present le_rfl, s₁.next_lower 0⟩)
      · exact block ▸ left.next_kept two
    -- the next number of the table, with the index that `ipt` has
    set t := if l = 0 then 0 else (s₁.next l).idx 0 with t_eq
    have kept : t = 0 ∨ 0 < l ∧ t < 512 := by
      rcases Nat.eq_zero_or_pos l with zero | some
      · exact .inl (if_pos zero)
      · rw [t_eq, if_neg some.ne']
        exact .inr ⟨some, left.next_low some⟩
    have low (few : l < 2) : t = 0 := by
      rw [t_eq]
      split_ifs with zero
      · rfl
      · obtain rfl : l = 1 := by omega
        exact s₁.next_lower 0
    obtain ⟨small', same, digit_l, digit_low⟩ := next_digits level (Nat.lt_of_le_of_ne inside full) ready.small kept
    have idx : ∀ j ≤ 3, (s₁.next l).idx j = digit 512 j (nextBlock 512 l u + t) := by
      intro j le
      rcases Nat.lt_trichotomy j l with lower | rfl | high
      · rw [digit_low j lower]
        split_ifs with zero
        · rw [t_eq, if_neg (by omega), zero]
        · exact left.next_zero lower (Nat.pos_of_ne_zero zero)
      · rw [digit_l, index₂]
      · rw [s₁.next_upper high, step.upper j high.le, ready.idx j le, Lib.digit_eq same.symm high]
    have vaddr : (s₁.next l).vaddr = pageAddr (nextBlock 512 l u + t) := by
      rw [UnmapRun.vaddr, idx 0 (by decide), idx 1 (by decide), idx 2 (by decide), idx 3 le_rfl, mkVaddr4k_digits small']
    have two_kept (two : 2 ≤ l) : vaddrEnd ≤ pageAddr (nextBlock 512 l u) ∨ NoPd before root v (nextBlock 512 l u) ∧ t = v % 512 ∨
        ¬ NoPd before root v (nextBlock 512 l u) ∧ t = 0 := by
      rw [t_eq, if_neg (by omega)]
      exact left.next_kept two
    have passed (w : Nat) (from_next : nextBlock 512 l u ≤ w) (less : w < nextBlock 512 l u + t) :
        ¬ Visited before root v vaddrEnd w := by
      intro visited
      have two : 2 ≤ l := by
        by_contra few
        have := low (Nat.lt_of_not_le few)
        omega
      rcases two_kept two with past | ⟨none, kept⟩ | ⟨-, zero⟩
      · have addr := visited.1.2.resolve_left (by omega)
        exact absurd (past.trans (pageAddr_mono from_next)) (Nat.not_le.mpr addr)
      · exact visited.2 (ready.spared two none kept from_next less)
      · omega
    by_cases past : vaddrEnd ≤ (s₁.next l).vaddr
    · rw [if_pos past]
      rw [vaddr] at past
      have inner : nextBlock 512 l u + t ≤ nextBlock 512 (l + 1) u := by
        show _ ≤ (u / 512 ^ (l + 1) + 1) * 512 ^ (l + 1)
        rw [← same]
        exact (lt_nextBlock (l + 1) _).le
      refine ⟨lvl₁, .of_end step running level_page (unmapping.advance (Lib.nextBlock_le positive l u) ?_)
        ⟨fun j lower some => left.next_zero lower some, fun some => left.next_low some,
          fun _ => .inl (past.trans (pageAddr_mono inner))⟩⟩
      intro w _ from_next _ visited
      refine absurd visited (passed w from_next ?_)
      have addr := visited.1.2.resolve_left (by omega)
      by_contra more
      exact absurd (addr.trans_le past) (Nat.not_lt.mpr (pageAddr_mono (Nat.le_of_not_lt more)))
    · rw [if_neg past]
      rw [vaddr] at past
      have not_past : ¬ vaddrEnd ≤ pageAddr (nextBlock 512 l u) := fun le => past (le.trans (pageAddr_mono (Nat.le_add_right _ _)))
      obtain ⟨visited, kept'⟩ := ready.next_visited (Nat.lt_of_le_of_ne inside full) (Nat.lt_of_not_le past) low
        fun two => (two_kept two).resolve_left not_past
      have ready' : Removing before lvl₀ root v vaddrEnd l page (nextBlock 512 l u + t) (s₁.next l) lvl₁ := by
        refine ⟨unmapping.advance (Nat.le_add_right _ _) fun w _ from_next less visited => absurd visited (passed w from_next less),
          running, small', visited, idx, kept', ⟨path, ?_⟩, ready.alone, filled⟩
        refine (below.congr fun p k m below_m high => ?_).prefix_eq same.symm
        have level_m := below_m.level graded positive start
        refine step.above m k _ level_m high.le ?_
        rintro ⟨rfl, -⟩
        rw [level_page] at level_m
        cases level_m
        exact absurd high (lt_irrefl _)
      obtain ⟨lvl', rest⟩ := ih (by omega) ready'
      exact ⟨lvl', rest.of_step step (s₁.next_mem l) (fun j high => s₁.next_upper high) level_page same⟩

/-! ## The entries -/

/-- Entries of level 0 that are emptied. -/
theorem Tables.shrinks_set {mem : Tables} {i : Nat} (level : lvl page = some 0) :
    Grows view 512 (mem.set page i Entry.empty) lvl mem lvl := by
  have alters : Alters mem lvl (mem.set page i Entry.empty) page i := ⟨level, fun n j other => if_neg other⟩
  refine alters.shrinks ?_
  rw [show mem.set page i Entry.empty page i = Entry.empty from if_pos ⟨rfl, rfl⟩, view_empty]

theorem unmapPage_steps : Steps before lvl₀ root v vaddrEnd 0 page (unmapPage page) := by
  intro u s lvl ready
  obtain ⟨path, below⟩ := ready.below
  have level := below.level ready.unmapping.rooted.graded (by decide) ready.unmapping.rooted.start
  have index := ready.idx 0 (by decide)
  have left : Left before root v vaddrEnd (0 - 1) (nextBlock 512 0 u) (unmapPage page s) :=
    ⟨fun j low => absurd low (Nat.not_lt_zero j), fun some => absurd some (lt_irrefl 0), fun some => absurd some (lt_irrefl 0)⟩
  have running : (unmapPage page s).done = false := (s.giveBack_done page _).trans ready.running
  refine ⟨lvl, ?_⟩
  by_cases empty : s.mem page (s.idx 0) = Entry.empty
  · have kept : s.giveBack page (s.idx 0) = s := if_neg (not_not.mpr empty)
    have mem : (unmapPage page s).mem = s.mem := by rw [unmapPage, kept]
    have freed : (unmapPage page s).freed = s.freed := by rw [unmapPage, kept]
    refine ⟨mem ▸ .refl, fun _ _ _ _ _ _ => by rw [mem], fun _ _ h _ => h, fun j _ => congrFun (s.giveBack_idx page _) j,
      fun stop => absurd (running.symm.trans stop) Bool.false_ne_true, fun _ => ⟨?_, left, mem ▸ ready.filled⟩⟩
    rw [mem, freed]
    exact ready.unmapping.pass (by decide) below (index ▸ empty)
  · have given : s.giveBack page (s.idx 0) =
        { s with freed := (s.mem page (s.idx 0)).table :: s.freed, mem := s.mem.set page (s.idx 0) Entry.empty } := if_pos empty
    have mem : (unmapPage page s).mem = s.mem.set page (s.idx 0) Entry.empty := congrArg UnmapRun.mem given
    have freed : (unmapPage page s).freed = (s.mem page (s.idx 0)).table :: s.freed := congrArg UnmapRun.freed given
    refine ⟨mem ▸ Tables.shrinks_set level, fun n k j _ _ other => ?_, fun _ _ h _ => h,
      fun j _ => congrFun (s.giveBack_idx page _) j, fun stop => absurd (running.symm.trans stop) Bool.false_ne_true,
      fun _ => ⟨?_, left, fun before n k level_n not_root other => ?_⟩⟩
    · rw [mem]
      exact if_neg other
    · rw [mem, freed, index, Lib.nextBlock_zero]
      exact ready.unmapping.clear ready.small ready.visited ready.unshared below (index ▸ empty)
    · obtain ⟨j, inside, some⟩ := ready.filled before n k level_n not_root other
      refine ⟨j, inside, ?_⟩
      rw [mem, show s.mem.set page (s.idx 0) Entry.empty n j = s.mem n j from if_neg fun h => other h.1]
      exact some

section Entries
variable {skips large : Bool} {sub : Nat → UnmapRun → UnmapRun}

/-- `_unmap` ends before the number. -/
theorem Removing.ended (ready : Removing before lvl₀ root v vaddrEnd l page u s lvl) (blocked : Blocked before root u)
    (some : page ≠ root → ∃ j < 512, s.mem page j ≠ Entry.empty) :
    Ended before lvl₀ root v vaddrEnd lvl { s with done := true } := by
  refine ⟨u, ready.small, ready.visited, blocked, ready.unmapping, fun filled n k level not_root _ => ?_⟩
  by_cases here : n = page
  · subst here
    exact some not_root
  · exact ready.filled filled n k level not_root here

/-- An empty entry of a table of tables. -/
theorem Removing.absent (ready : Removing before lvl₀ root v vaddrEnd (l + 1) page u s lvl) (level : l + 1 ≤ 3)
    (only : skips = true ↔ l + 1 < 3) (empty : s.mem page (s.idx (l + 1)) = Entry.empty) :
    Stepped before lvl₀ root v vaddrEnd (l + 1) page u s lvl (if skips = true then s else { s with done := true }) lvl := by
  obtain ⟨path, below⟩ := ready.below
  have index := ready.idx (l + 1) level
  rw [index] at empty
  have lacks : missing view 512 before 3 root u = l + 1 := by
    rw [← ready.unmapping.later u ready.small le_rfl, below.missing, missing, empty, view_empty]
  split_ifs with skip
  · refine ⟨.refl, fun _ _ _ _ _ _ => rfl, fun _ _ h _ => h, fun _ _ => rfl,
      fun stop => absurd (ready.running.symm.trans stop) Bool.false_ne_true,
      fun _ => ⟨ready.unmapping.pass (only.mp skip) below empty,
        ⟨fun j low some => ?_, fun _ => ?_, fun some => .inr ?_⟩, ready.filled⟩⟩
    · have := only.mp skip
      omega
    · rw [ready.idx 0 (by decide)]
      exact Lib.digit_lt (by decide) _ _
    · have one : l = 1 := by
        have := only.mp skip
        omega
      subst one
      rw [ready.idx 0 (by decide), digit, pow_zero, Nat.div_one]
      rcases ready.kept le_rfl with ⟨none, kept⟩ | ⟨some, zero⟩
      · refine .inl ⟨fun x from_v less => ?_, kept⟩
        rcases Nat.lt_or_ge (x / 512 ^ 2) (u / 512 ^ 2) with before_u | here
        · exact none x from_v before_u
        · -- the block of `u` has no PD either
          have block : x / 512 ^ (1 + 1) = u / 512 ^ (1 + 1) := by
            rw [nextBlock, Nat.mul_div_cancel _ (pow_pos (by decide) 2)] at less
            omega
          refine Nat.le_antisymm (Lib.missing_block (block_above block) lacks.le) (Nat.le_of_not_lt fun few => ?_)
          have := Lib.missing_block block.symm (Nat.le_of_lt_succ few)
          omega
      · exact .inr ⟨fun none => some (none.mono (lt_nextBlock _ u).le), zero⟩
  · have top : l + 1 = 3 := by
      have := only.not.mp skip
      omega
    refine ⟨.refl, fun _ _ _ _ _ _ => rfl, fun _ _ h _ => h, fun _ _ => rfl, fun _ => ?_, fun running => Bool.noConfusion running⟩
    have here : page = root := by
      rw [top] at below
      exact below.unique (.refl _ _)
    exact ready.ended (.inl (lacks.trans top)) fun other => absurd here other

/-- A large page. -/
theorem Removing.largePage (ready : Removing before lvl₀ root v vaddrEnd (l + 1) page u s lvl) (level : l + 1 ≤ 3)
    (leaf : view (l + 1) (s.mem page (s.idx (l + 1))) = .leaf) :
    Stepped before lvl₀ root v vaddrEnd (l + 1) page u s lvl { s with done := true } lvl := by
  obtain ⟨path, below⟩ := ready.below
  have index := ready.idx (l + 1) level
  refine ⟨.refl, fun _ _ _ _ _ _ => rfl, fun _ _ h _ => h, fun _ _ => rfl, fun _ => ?_, fun running => Bool.noConfusion running⟩
  rw [index] at leaf
  refine ready.ended (.inr ⟨path ++ [s.mem page (digit 512 (l + 1) u)], ?_, ?_⟩) fun _ => ⟨_, Lib.digit_lt (by decide) (l + 1) u, ?_⟩
  · rw [← ready.unmapping.ahead ready.small le_rfl, below.trail, trail, leaf]
    rfl
  · have := (ready.unmapping.tabled.links below ready.unmapping.rooted.start).1
    rw [List.length_append, List.length_singleton]
    omega
  · intro empty
    rw [empty, view_empty] at leaf
    cases leaf

/-- The loop over the table of an entry. -/
theorem Removing.enter {table : Nat} (ready : Removing before lvl₀ root v vaddrEnd (l + 1) page u s lvl) (level : l + 1 ≤ 3)
    (node : view (l + 1) (s.mem page (s.idx (l + 1))) = .node table) :
    Removing before lvl₀ root v vaddrEnd l table u s lvl := by
  obtain ⟨path, below⟩ := ready.below
  have index := ready.idx (l + 1) level
  refine { ready with
    kept := fun two => ready.kept (Nat.le_succ_of_le two)
    below := ⟨_, below.snoc (index ▸ node)⟩
    filled := fun before n k level_n not_root _ => ?_ }
  by_cases here : n = page
  · subst here
    exact ⟨s.idx (l + 1), index ▸ Lib.digit_lt (by decide) _ _, (view_node node).1⟩
  · exact ready.filled before n k level_n not_root here

/-- A table of tables after the loop over the table of an entry. -/
theorem Removing.released {table : Nat} {s₁ : UnmapRun} {lvl₁ : Nat → Option Nat}
    (ready : Removing before lvl₀ root v vaddrEnd (l + 1) page u s lvl) (level : l + 1 ≤ 3)
    (node : view (l + 1) (s.mem page (s.idx (l + 1))) = .node table)
    (removes : Removes before lvl₀ root v vaddrEnd l table u s lvl s₁ lvl₁) (running : s₁.done = false) :
    ∃ lvl', Stepped before lvl₀ root v vaddrEnd (l + 1) page u s lvl (s₁.release page (s₁.idx (l + 1)) table) lvl' := by
  obtain ⟨path, below⟩ := ready.below
  have index := ready.idx (l + 1) level
  have inside : s.idx (l + 1) < 512 := index ▸ Lib.digit_lt (by decide) _ _
  have level_page := below.level ready.unmapping.rooted.graded (by decide) ready.unmapping.rooted.start
  have level_table := ready.unmapping.rooted.graded.down _ _ _ _ level_page inside node
  have other : page ≠ table := by
    rintro rfl
    rw [level_page] at level_table
    exact Nat.succ_ne_self l (Option.some.inj level_table)
  obtain ⟨unmapping, left, filled⟩ := removes.go running
  rw [removes.upper (l + 1) (Nat.lt_succ_self l)]
  have entry : s₁.mem page (s.idx (l + 1)) = s.mem page (s.idx (l + 1)) :=
    removes.above page (l + 1) _ level_page (Nat.lt_succ_self l)
  rcases s₁.release_eq page (s.idx (l + 1)) table with ⟨same, some⟩ | ⟨given, blank⟩
  · rw [same]
    refine ⟨lvl₁, removes.shrinks, fun n k j level_n high _ => removes.above n k j level_n high,
      fun n k level_n high => removes.levels n k level_n (Nat.le_of_succ_le high), fun j high => removes.upper j high,
      removes.stop, fun _ => ⟨unmapping, left, fun before n k level_n not_root _ => ?_⟩⟩
    by_cases here : n = table
    · rw [here]
      exact some
    · exact filled before n k level_n not_root here
  · have full : s₁.mem page (s.idx (l + 1)) ≠ Entry.empty := entry ▸ (view_node node).1
    have after : s₁.giveBack page (s.idx (l + 1)) = { s₁ with
        freed := (s₁.mem page (s.idx (l + 1))).table :: s₁.freed, mem := s₁.mem.set page (s.idx (l + 1)) Entry.empty } :=
      if_pos full
    rw [given, after]
    have level_page₁ := removes.levels page (l + 1) level_page (Nat.le_succ l)
    have node₁ := node
    rw [← entry] at node₁
    have prunes := Tables.prunes_set level_page₁ inside node₁ blank
    have below₁ : Below view 512 s₁.mem u 3 root path (l + 1) page := below.congr fun p k m below_m high =>
      removes.above m k _ (below_m.level ready.unmapping.rooted.graded (by decide) ready.unmapping.rooted.start)
        (Nat.lt_of_succ_lt high)
    have alone := (ready.alone u ready.small ready.visited.1).of_grows unmapping.shrinks unmapping.rooted.graded
      (by decide) unmapping.rooted.start
    have pruned := unmapping.prune below₁ index.symm node₁ blank alone
    refine ⟨_, prunes.grows.trans removes.shrinks, fun n k j level_n high elsewhere => ?_, fun n k level_n high => ?_,
      fun j high => removes.upper j high, fun stop => absurd (running.symm.trans stop) Bool.false_ne_true,
      fun _ => ⟨pruned, ⟨left.zero, left.low, left.kept⟩, fun before n k level_n not_root not_page => ?_⟩⟩
    · exact (prunes.same n j elsewhere).trans (removes.above n k j level_n high)
    · refine (prunes.levels n ?_).trans (removes.levels n k level_n (Nat.le_of_succ_le high))
      rintro rfl
      rw [level_table] at level_n
      cases level_n
      exact absurd high (Nat.not_succ_le_self l)
    · have kept := prunes.used level_n
      obtain ⟨j, inside_j, some⟩ := filled before n k (prunes.grows.level n k level_n) not_root kept
      exact ⟨j, inside_j, fun empty => some ((prunes.same n j fun h => not_page h.1).symm.trans empty)⟩

theorem unmapEntry_steps (level : l + 1 ≤ 3) (only : skips = true ↔ l + 1 < 3)
    (leaf : ∀ e, e ≠ Entry.empty → (large = true ∧ e.ps = true ↔ view (l + 1) e = .leaf))
    (removes : RemovesAll before lvl₀ root v vaddrEnd l sub) :
    Steps before lvl₀ root v vaddrEnd (l + 1) page (unmapEntry (l + 1) skips large sub page) := by
  intro u s lvl ready
  unfold unmapEntry
  dsimp only
  by_cases empty : s.mem page (s.idx (l + 1)) = Entry.empty
  · rw [if_pos empty]
    exact ⟨lvl, ready.absent level only empty⟩
  rw [if_neg empty]
  by_cases at_leaf : large = true ∧ (s.mem page (s.idx (l + 1))).ps = true
  · rw [if_pos at_leaf]
    exact ⟨lvl, ready.largePage level ((leaf _ empty).mp at_leaf)⟩
  rw [if_neg at_leaf]
  have node : view (l + 1) (s.mem page (s.idx (l + 1))) = .node (s.mem page (s.idx (l + 1))).table := by
    cases cell : view (l + 1) (s.mem page (s.idx (l + 1))) with
    | empty => exact absurd (view_eq_empty.mp cell) empty
    | leaf => exact absurd ((leaf _ empty).mpr cell) at_leaf
    | node m => rw [(view_node cell).2]
  obtain ⟨lvl₁, inner⟩ := removes _ u s lvl (ready.enter level node)
  by_cases stop : (sub (s.mem page (s.idx (l + 1))).table s).done = true
  · rw [if_pos stop]
    exact ⟨lvl₁, inner.shrinks, fun n k j level_n high _ => inner.above n k j level_n high,
      fun n k level_n high => inner.levels n k level_n (Nat.le_of_succ_le high), fun j high => inner.upper j high, inner.stop,
      fun running => absurd (running.symm.trans stop) Bool.false_ne_true⟩
  · rw [if_neg stop]
    exact ready.released level node inner (Bool.eq_false_iff.mpr stop)

end Entries

end Loops

end PreTeO.X86
