import Mathlib.Data.List.Infix
import PreTeO.Lib.Bytes

/-!
# Wildcards (`core/common/lib/str.cpp`)

A pointer into a string is what the string has from there on, without the final zero: reading it gives the first
character or the zero, and it cannot move past the zero. `wildcmp` remembers one place to come back to, behind the last
star. That is enough, because an earlier star could only leave less of the string for what follows the last one.
-/

namespace PreTeO.Common
set_option autoImplicit false

open Lib (Byte)

/-- The characters of a string that ends with a zero. -/
abbrev Str := { chars : List Byte // 0 ∉ chars }

def starChar : Byte := 0x2a
def anyChar : Byte := 0x3f

/-- `*p`. -/
def deref : List Byte → Byte
  | [] => 0
  | c :: _ => c

/-- `p + 1`. Behind the zero there is nothing to read. -/
def next : List Byte → Option (List Byte)
  | [] => none
  | _ :: p => some p

/-- What a call does: it is still running, it read outside of a string, or it returned. -/
inductive Outcome where
  | running
  | fault
  | returns (r : Nat)
deriving DecidableEq

/-- `while (*wild == '*') wild++; return !*wild`. -/
def wildTail : List Byte → Outcome
  | [] => .returns 1
  | c :: wild => if c = starChar then wildTail wild else .returns 0

/-- The second loop. -/
def wildLoop : Nat → List Byte → List Byte → Option (List Byte) → Option (List Byte) → Outcome
  | 0, _, _, _, _ => .running
  | _ + 1, [], wild, _, _ => wildTail wild
  | fuel + 1, c :: string, wild, mp, cp =>
    if deref wild = starChar then
      match next wild with
      | none => .fault
      | some wild => if deref wild = 0 then .returns 1 else wildLoop fuel (c :: string) wild (some wild) (next (c :: string))
    else if deref wild = c ∨ deref wild = anyChar then
      match next wild with
      | none => .fault
      | some wild => wildLoop fuel string wild mp cp
    else
      match mp, cp with
      | some wild, some string => wildLoop fuel string wild mp (next string)
      | _, _ => .fault

/-- `wildcmp`, from the first loop on. -/
def wildcmp (fuel : Nat) : List Byte → List Byte → Outcome
  | [], wild => wildLoop fuel [] wild none none
  | c :: string, wild =>
    if deref wild ≠ starChar then
      if deref wild ≠ c ∧ deref wild ≠ anyChar then .returns 0
      else
        match next wild with
        | none => .fault
        | some wild => wildcmp fuel string wild
    else wildLoop fuel (c :: string) wild none none

/-! ## What a pattern matches -/

/-- A star matches any sequence, a question mark any character, and every other character itself. -/
def Matches : List Byte → List Byte → Prop
  | [], s => s = []
  | p :: w, s =>
    if p = starChar then ∃ rest, rest <:+ s ∧ Matches w rest
    else ∃ c rest, s = c :: rest ∧ (p = c ∨ p = anyChar) ∧ Matches w rest

section Matches
variable {p c : Byte} {w s : List Byte}

theorem matches_star : Matches (starChar :: w) s ↔ ∃ rest, rest <:+ s ∧ Matches w rest := by
  rw [Matches, if_pos rfl]

theorem matches_cons (plain : p ≠ starChar) : Matches (p :: w) (c :: s) ↔ (p = c ∨ p = anyChar) ∧ Matches w s := by
  rw [Matches, if_neg plain]
  constructor
  · rintro ⟨c', rest, same, char, match_rest⟩
    obtain ⟨rfl, rfl⟩ := List.cons.inj same
    exact ⟨char, match_rest⟩
  · rintro ⟨char, match_rest⟩
    exact ⟨c, s, rfl, char, match_rest⟩

theorem not_matches_nil (plain : p ≠ starChar) : ¬ Matches (p :: w) [] := by
  rw [Matches, if_neg plain]
  rintro ⟨c, rest, same, -⟩
  cases same

/-- A star may also match one character more. -/
theorem matches_star_cons : Matches (starChar :: w) (c :: s) ↔ Matches w (c :: s) ∨ Matches (starChar :: w) s := by
  rw [matches_star, matches_star]
  constructor
  · rintro ⟨rest, suffix, match_rest⟩
    rcases List.suffix_cons_iff.mp suffix with rfl | suffix
    · exact Or.inl match_rest
    · exact Or.inr ⟨rest, suffix, match_rest⟩
  · rintro (here | ⟨rest, suffix, match_rest⟩)
    · exact ⟨_, List.suffix_refl _, here⟩
    · exact ⟨rest, suffix.trans (List.suffix_cons c s), match_rest⟩

theorem matches_star_nil : Matches (starChar :: w) [] ↔ Matches w [] := by
  rw [matches_star]
  constructor
  · rintro ⟨rest, suffix, match_rest⟩
    rwa [List.suffix_nil.mp suffix] at match_rest
  · exact fun match_nil => ⟨[], List.suffix_refl _, match_nil⟩

/-- Characters without a star before a star take as many characters of the string. -/
theorem matches_prefix {u : List Byte} (plain : starChar ∉ u) (found : Matches (u ++ w) s) :
    ∃ v rest, s = v ++ rest ∧ v.length = u.length ∧ Matches w rest := by
  induction u generalizing s with
  | nil => exact ⟨[], s, rfl, rfl, found⟩
  | cons p u ih =>
    rw [List.mem_cons, not_or] at plain
    have char : p ≠ starChar := fun h => plain.1 h.symm
    cases s with
    | nil => exact absurd found (not_matches_nil char)
    | cons c s =>
      obtain ⟨v, rest, rfl, length, match_rest⟩ := ih plain.2 ((matches_cons char).mp found).2
      exact ⟨c :: v, rest, rfl, by simp [length], match_rest⟩

end Matches

/-- The characters `u`, none of them a star, take the characters `v` one by one. -/
def Takes (u v : List Byte) : Prop := List.Forall₂ (fun p c => p ≠ starChar ∧ (p = c ∨ p = anyChar)) u v

namespace Takes
variable {u v w s : List Byte} {p c : Byte}

theorem plain (taken : Takes u v) : starChar ∉ u := by
  induction taken with
  | nil => exact List.not_mem_nil
  | cons head _ ih => exact List.not_mem_cons_of_ne_of_not_mem head.1.symm ih

theorem append_one (taken : Takes u v) (plain : p ≠ starChar) (char : p = c ∨ p = anyChar) :
    Takes (u ++ [p]) (v ++ [c]) :=
  List.rel_append taken (List.Forall₂.cons ⟨plain, char⟩ List.Forall₂.nil)

theorem matches_iff (taken : Takes u v) : Matches (u ++ w) (v ++ s) ↔ Matches w s := by
  induction taken with
  | nil => exact Iff.rfl
  | cons head _ ih =>
    rw [List.cons_append, List.cons_append, matches_cons head.1, and_iff_right head.2]
    exact ih

theorem star_here (taken : Takes u v) (here : Matches w s) : Matches (starChar :: (u ++ w)) (v ++ s) :=
  matches_star.mpr ⟨_, List.suffix_refl _, taken.matches_iff.mpr here⟩

/-- After a star, what `u` leaves of the string for the rest of the pattern lies behind `v`. -/
theorem star_rest (taken : Takes u v) (found : Matches (starChar :: (u ++ w)) (v ++ s)) :
    ∃ rest, rest <:+ s ∧ Matches w rest := by
  obtain ⟨start, suffix, match_start⟩ := matches_star.mp found
  obtain ⟨v', rest, rfl, length, match_rest⟩ := matches_prefix taken.plain match_start
  have behind : rest <:+ v ++ s := (List.suffix_append v' rest).trans suffix
  have short : rest.length ≤ s.length := by
    have bound := suffix.length_le
    rw [List.length_append, List.length_append, length, List.Forall₂.length_eq taken] at bound
    omega
  exact ⟨rest, List.suffix_of_suffix_length_le behind (List.suffix_append v s) short, match_rest⟩

/-- The last star is the only one that matters. -/
theorem star_star (taken : Takes u v) :
    Matches (starChar :: (u ++ starChar :: w)) (v ++ s) ↔ Matches (starChar :: w) s := by
  refine ⟨fun found => ?_, taken.star_here⟩
  obtain ⟨rest, behind, match_rest⟩ := taken.star_rest found
  obtain ⟨last, suffix, match_last⟩ := matches_star.mp match_rest
  exact matches_star.mpr ⟨last, suffix.trans behind, match_last⟩

theorem star_nil (taken : Takes u v) : Matches (starChar :: (u ++ w)) (v ++ []) ↔ Matches w [] := by
  refine ⟨fun found => ?_, taken.star_here⟩
  obtain ⟨rest, behind, match_rest⟩ := taken.star_rest found
  rwa [List.suffix_nil.mp behind] at match_rest

end Takes

/-! ## The loops -/

/-- The call returns, and not with zero exactly when the pattern matches. -/
def Answers (w s : List Byte) (outcome : Outcome) : Prop := ∃ r, outcome = .returns r ∧ (r ≠ 0 ↔ Matches w s)

theorem Answers.congr {w w' s s' : List Byte} {outcome : Outcome} (answer : Answers w s outcome)
    (same : Matches w s ↔ Matches w' s') : Answers w' s' outcome := by
  obtain ⟨r, returned, iff⟩ := answer
  exact ⟨r, returned, iff.trans same⟩

theorem answers_true {w s : List Byte} (found : Matches w s) : Answers w s (.returns 1) :=
  ⟨1, rfl, iff_of_true one_ne_zero found⟩

theorem answers_false {w s : List Byte} (missing : ¬ Matches w s) : Answers w s (.returns 0) :=
  ⟨0, rfl, iff_of_false (fun h => h rfl) missing⟩

theorem wildTail_answers (w : List Byte) : Answers w [] (wildTail w) := by
  induction w with
  | nil => exact answers_true rfl
  | cons p w ih =>
    rw [wildTail]
    by_cases star : p = starChar
    · subst star
      rw [if_pos rfl]
      exact ih.congr matches_star_nil.symm
    · rw [if_neg star]
      exact answers_false (not_matches_nil star)

/-- The place to come back to: behind the last star stands `u ++ wild`, of which `u` took the characters `v`, and the next
attempt begins one character later. -/
structure Retry (string wild : List Byte) (mp cp : Option (List Byte)) (u v : List Byte) : Prop where
  mp : mp = some (u ++ wild)
  cp : cp = next (v ++ string)
  taken : Takes u v
  characters : 0 ∉ u ++ wild
  text : 0 ∉ v ++ string

/-- What decreases with every round: the string from the last attempt on, then the pattern. -/
def rounds (bound : Nat) (string wild v : List Byte) : Nat := (v ++ string).length * (bound + 1) + wild.length

section rounds
variable {bound : Nat} {c p : Byte} {string wild v m rest : List Byte}

theorem rounds_star : rounds bound string wild [] < rounds bound string (p :: wild) v := by
  unfold rounds
  have shorter : ([] ++ string).length * (bound + 1) ≤ (v ++ string).length * (bound + 1) :=
    Nat.mul_le_mul_right _ (by simp)
  rw [List.length_cons]
  omega

theorem rounds_char : rounds bound string wild (v ++ [c]) < rounds bound (c :: string) (p :: wild) v := by
  unfold rounds
  rw [List.append_assoc, List.singleton_append, List.length_cons]
  omega

theorem rounds_back (base : v ++ string = c :: rest) (fits : m.length ≤ bound) :
    rounds bound rest m [] < rounds bound string wild v := by
  unfold rounds
  rw [base, List.nil_append, List.length_cons, Nat.succ_mul]
  omega

end rounds

theorem wildLoop_star {fuel : Nat} {c : Byte} {string wild : List Byte} {mp cp : Option (List Byte)} :
    wildLoop (fuel + 1) (c :: string) (starChar :: wild) mp cp =
      if deref wild = 0 then .returns 1 else wildLoop fuel (c :: string) wild (some wild) (some string) := by
  rw [wildLoop.eq_def]
  exact if_pos rfl

theorem wildLoop_char {fuel : Nat} {c p : Byte} {string wild : List Byte} {mp cp : Option (List Byte)} (plain : p ≠ starChar)
    (char : p = c ∨ p = anyChar) :
    wildLoop (fuel + 1) (c :: string) (p :: wild) mp cp = wildLoop fuel string wild mp cp := by
  rw [wildLoop.eq_def]
  exact (if_neg plain).trans (if_pos char)

theorem wildLoop_back {fuel : Nat} {c : Byte} {string wild m s : List Byte} (plain : deref wild ≠ starChar)
    (other : ¬ (deref wild = c ∨ deref wild = anyChar)) :
    wildLoop (fuel + 1) (c :: string) wild (some m) (some s) = wildLoop fuel s m (some m) (next s) := by
  rw [wildLoop.eq_def]
  exact (if_neg plain).trans (if_neg other)

/-- What the pattern has to take next does not take the character. -/
theorem not_matches_of_deref {c : Byte} {string wild : List Byte} (plain : deref wild ≠ starChar)
    (other : ¬ (deref wild = c ∨ deref wild = anyChar)) : ¬ Matches wild (c :: string) := by
  cases wild with
  | nil => exact List.cons_ne_nil c string
  | cons p wild => exact fun found => other ((matches_cons plain).mp found).1

theorem deref_ne_zero {wild : List Byte} (characters : 0 ∉ wild) (some_left : wild ≠ []) : deref wild ≠ 0 := by
  cases wild with
  | nil => exact absurd rfl some_left
  | cons p wild => exact fun zero => characters (List.mem_cons.mpr (Or.inl zero.symm))

namespace Retry
variable {c p : Byte} {string wild u v : List Byte} {mp cp : Option (List Byte)}

/-- Behind a star. -/
theorem fresh (characters : 0 ∉ wild) (text : 0 ∉ string) : Retry string wild (some wild) (next string) [] [] where
  mp := rfl
  cp := rfl
  taken := List.Forall₂.nil
  characters := characters
  text := text

theorem char (retry : Retry (c :: string) (p :: wild) mp cp u v) (plain : p ≠ starChar) (char : p = c ∨ p = anyChar) :
    Retry string wild mp cp (u ++ [p]) (v ++ [c]) where
  mp := by rw [List.append_assoc]; exact retry.mp
  cp := by rw [List.append_assoc]; exact retry.cp
  taken := retry.taken.append_one plain char
  characters := by rw [List.append_assoc]; exact retry.characters
  text := by rw [List.append_assoc]; exact retry.text

theorem left (retry : Retry string wild mp cp u v) : 0 ∉ wild :=
  fun mem => retry.characters (List.mem_append_right u mem)

/-- There is a character to skip before the next attempt. -/
theorem base (retry : Retry (c :: string) wild mp cp u v) :
    ∃ first rest, v ++ c :: string = first :: rest ∧ cp = some rest := by
  have place := retry.cp
  cases v with
  | nil => exact ⟨c, string, rfl, place⟩
  | cons first v => exact ⟨first, v ++ c :: string, rfl, place⟩

end Retry

/-- A star that is the last character of the pattern matches what is left, and any other one is a place to come back to. -/
theorem star_answers {fuel : Nat} {c : Byte} {string wild : List Byte} {mp cp : Option (List Byte)} (characters : 0 ∉ wild)
    (more : Answers (starChar :: wild) (c :: string) (wildLoop fuel (c :: string) wild (some wild) (some string))) :
    Answers (starChar :: wild) (c :: string) (wildLoop (fuel + 1) (c :: string) (starChar :: wild) mp cp) := by
  rw [wildLoop_star]
  by_cases last : deref wild = 0
  · obtain rfl : wild = [] := by_contra fun some_left => deref_ne_zero characters some_left last
    rw [if_pos last]
    exact answers_true (matches_star.mpr ⟨[], List.nil_suffix, rfl⟩)
  · rw [if_neg last]
    exact more

/-- The pattern has a character that takes the character of the string. -/
theorem takes_of_deref {c : Byte} {string wild : List Byte} (text : 0 ∉ c :: string)
    (char : deref wild = c ∨ deref wild = anyChar) : ∃ p rest, wild = p :: rest ∧ (p = c ∨ p = anyChar) := by
  cases wild with
  | nil =>
    rcases char with zero | any
    · exact absurd (List.mem_cons.mpr (Or.inl zero)) text
    · exact absurd any (by decide)
  | cons p rest => exact ⟨p, rest, rfl, char⟩

/-- The second loop from a place to come back to. -/
theorem wildLoop_answers {bound fuel : Nat} {string wild u v : List Byte} {mp cp : Option (List Byte)}
    (retry : Retry string wild mp cp u v) (fits : (u ++ wild).length ≤ bound) (enough : rounds bound string wild v < fuel) :
    Answers (starChar :: (u ++ wild)) (v ++ string) (wildLoop fuel string wild mp cp) := by
  induction fuel generalizing string wild u v mp cp with
  | zero => exact absurd enough (Nat.not_lt_zero _)
  | succ fuel ih =>
    cases string with
    | nil =>
      rw [wildLoop]
      exact (wildTail_answers wild).congr retry.taken.star_nil.symm
    | cons c string =>
      by_cases star : deref wild = starChar
      · obtain ⟨wild, rfl⟩ : ∃ rest, wild = starChar :: rest := by
          cases wild with
          | nil => cases star
          | cons p rest => exact ⟨rest, by rw [show p = starChar from star]⟩
        have left : 0 ∉ wild := fun mem => retry.left (List.mem_cons_of_mem _ mem)
        have text : 0 ∉ c :: string := fun mem => retry.text (List.mem_append_right v mem)
        refine Answers.congr (star_answers left ?_) retry.taken.star_star.symm
        refine ih (Retry.fresh left text) ?_ (rounds_star.trans_le (Nat.le_of_lt_succ enough))
        rw [List.length_append, List.length_cons] at fits
        rw [List.nil_append]
        omega
      · by_cases char : deref wild = c ∨ deref wild = anyChar
        · obtain ⟨p, wild, rfl, char⟩ := takes_of_deref (fun mem => retry.text (List.mem_append_right v mem)) char
          rw [wildLoop_char (p := p) star char]
          have after := ih (retry.char star char) (by rwa [List.append_assoc])
            (rounds_char.trans_le (Nat.le_of_lt_succ enough))
          rwa [List.append_assoc, List.append_assoc] at after
        · -- the last attempt fails here, and the next one begins one character later
          obtain ⟨first, rest, base, place⟩ := retry.base
          have failed : ¬ Matches (u ++ wild) (first :: rest) := by
            rw [← base, retry.taken.matches_iff]
            exact not_matches_of_deref star char
          rw [retry.mp, place, wildLoop_back star char, base]
          refine Answers.congr ?_ (matches_star_cons.trans (or_iff_right failed)).symm
          have text : 0 ∉ rest := fun mem => retry.text (by rw [base]; exact List.mem_cons_of_mem first mem)
          exact ih (Retry.fresh retry.characters text) fits ((rounds_back base fits).trans_le (Nat.le_of_lt_succ enough))

/-- The second loop at the first star. -/
theorem wildLoop_first {fuel : Nat} {string wild : List Byte} {mp cp : Option (List Byte)} (text : 0 ∉ string)
    (characters : 0 ∉ wild) (enough : rounds wild.length string wild [] < fuel) :
    Answers (starChar :: wild) string (wildLoop (fuel + 1) string (starChar :: wild) mp cp) := by
  cases string with
  | nil =>
    rw [wildLoop]
    exact wildTail_answers (starChar :: wild)
  | cons c string => exact star_answers characters (wildLoop_answers (Retry.fresh characters text) le_rfl enough)

/-- The first loop compares up to the first star, and needs the same rounds for any longer string. -/
theorem wildcmp_answers {fuel : Nat} {string wild : List Byte} (text : 0 ∉ string) (characters : 0 ∉ wild)
    (enough : string.length * (wild.length + 1) + wild.length + 1 < fuel) :
    Answers wild string (wildcmp fuel string wild) := by
  induction string generalizing wild with
  | nil =>
    obtain ⟨fuel, rfl⟩ : ∃ left, fuel = left + 1 := ⟨fuel - 1, by omega⟩
    rw [wildcmp, wildLoop]
    exact wildTail_answers wild
  | cons c string ih =>
    rw [wildcmp]
    by_cases star : deref wild = starChar
    · rw [if_neg (not_not_intro star)]
      cases wild with
      | nil => cases star
      | cons p wild =>
        obtain rfl : p = starChar := star
        obtain ⟨fuel, rfl⟩ : ∃ left, fuel = left + 1 := ⟨fuel - 1, by omega⟩
        refine wildLoop_first text (fun mem => characters (List.mem_cons_of_mem _ mem)) ?_
        unfold rounds
        rw [List.nil_append]
        rw [show (starChar :: wild).length = wild.length + 1 from rfl, Nat.mul_succ] at enough
        omega
    · rw [if_pos star]
      by_cases char : deref wild = c ∨ deref wild = anyChar
      · rw [if_neg (fun differs => char.elim differs.1 differs.2)]
        obtain ⟨p, wild, rfl, char⟩ := takes_of_deref text char
        have shorter : string.length * (wild.length + 1) ≤ (string.length + 1) * (wild.length + 1 + 1) :=
          Nat.mul_le_mul (Nat.le_succ _) (Nat.le_succ _)
        have after : Answers wild string (wildcmp fuel string wild) := by
          refine ih (fun mem => text (List.mem_cons_of_mem _ mem)) (fun mem => characters (List.mem_cons_of_mem _ mem)) ?_
          rw [List.length_cons, List.length_cons] at enough
          omega
        exact after.congr ((matches_cons star).trans (and_iff_right char)).symm
      · rw [if_pos (not_or.mp char)]
        exact answers_false (not_matches_of_deref star char)

/-- Both strings end with a zero: the call returns without reading behind either of them, and not with zero exactly when
the string matches the pattern. -/
theorem wildcmp_matches (string wild : Str) :
    ∃ bound, ∀ fuel, bound ≤ fuel →
      ∃ r, wildcmp fuel string.1 wild.1 = .returns r ∧ (r ≠ 0 ↔ Matches wild.1 string.1) :=
  ⟨string.1.length * (wild.1.length + 1) + wild.1.length + 2,
    fun _ enough => wildcmp_answers string.2 wild.2 enough⟩

/-- Two stars need one place to come back to: `"*ab*b"` on `"aabcab"`. -/
example : wildcmp 40 [0x61, 0x61, 0x62, 0x63, 0x61, 0x62] [0x2a, 0x61, 0x62, 0x2a, 0x62] = .returns 1 := by decide

end PreTeO.Common
