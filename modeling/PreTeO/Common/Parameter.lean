import Mathlib.Data.List.TakeWhile
import PreTeO.Common.Str

/-!
# Named parameters (`core/common/lib/karg_parser.cpp`, `ext/init/lib/xml.cpp`)

`parameter` looks for a name in a text of pairs `name="value"`. The kernel's arguments and the parameters of an XML tag are
read by one and the same scanner. It remembers the separator that it saw last, where the name and the value begin, and a
flag that every closed value turns over: while the flag is off, `=` is a separator in a value as well.
-/

namespace PreTeO.Common.Parameter
set_option autoImplicit false

open Lib (Byte)

def blank : Byte := 0x20
def tab : Byte := 0x09
def quote : Byte := 0x22
def equals : Byte := 0x3d

/-- `*(p + i) < ' ' && *(p + i) != '\t'`. -/
def Skipped (c : Byte) : Prop := c.toInt < blank.toInt ∧ c ≠ tab

instance (c : Byte) : Decidable (Skipped c) := inferInstanceAs (Decidable (_ ∧ _))

/-- The local variables. -/
structure Scan where
  pvs : Nat
  pv : Option Nat
  pn : Option Nat
  pns : Nat
  div : Byte
  bo : Bool

def Scan.start : Scan := { pvs := 0, pv := none, pn := none, pns := 0, div := blank, bo := false }

/-- A character of the value: the first one, or one more. -/
def Scan.value (s : Scan) (i : Nat) : Scan :=
  match s.pv with
  | some _ => { s with pvs := s.pvs + 1 }
  | none => { s with pv := some i, pvs := 1 }

/-- A character of the name. -/
def Scan.name (s : Scan) (i : Nat) : Scan :=
  match s.pn with
  | some _ => { s with pns := s.pns + 1 }
  | none => { s with pn := some i, pns := 1 }

/-- The body of the loop, at the character `c` with index `i`. `true` is `i = l`, the end of the loop. -/
def turn (p name : Nat → Byte) (i : Nat) (c : Byte) (s : Scan) : Bool × Scan :=
  if Skipped c then (false, { s with pvs := s.pvs + 1 })
  else if c = blank ∨ c = tab then
    if s.div = quote then (false, s.value i) else (false, { s with pv := none, pn := none, div := blank })
  else if c = quote then
    if s.div = quote then
      match s.pn with
      | some pn =>
        if memCmp name (fun j => p (pn + j)) s.pns = 0 then (true, s)
        else (false, { s with pv := none, div := blank, bo := !s.bo })
      | none => (false, { s with div := blank, bo := !s.bo })
    else (false, { s with div := quote })
  else if c = equals then
    if s.bo = false then (false, { s with pv := none, div := equals }) else (false, { s with pvs := s.pvs + 1 })
  else if s.div = equals then (false, s)
  else if s.div = quote then (false, s.value i)
  else if s.div = blank ∨ s.div = tab then (false, s.name i)
  else (false, s)

/-- The loop over the characters that are left, of which the first has the index `i`. -/
def scan (p name : Nat → Byte) : List Byte → Nat → Scan → Bool × Scan
  | [], _, s => (false, s)
  | c :: rest, i, s =>
    match turn p name i c s with
    | (true, s) => (true, s)
    | (false, s) => scan p name rest (i + 1) s

/-- The text of which `l` bytes are scanned: the index of the value, and `*sz`. An index of 32 bits is behind the last
character as long as `l` is less than 2^32 - 1. -/
def lookup (text name : List Byte) (l : Nat) : Option Nat × Nat :=
  let s := (scan (fun i => text.getD i 0) (fun i => name.getD i 0) (text.take l) 0 Scan.start).2
  (s.pv, s.pvs)

/-- `parameter` of `karg_parser.cpp`. -/
def parameter (args name : List Byte) : Option Nat × Nat := lookup args name (args.length % 2 ^ 32)

/-- `cXMLTag::parameter`, with the memory from `m_p_par` on and `m_sz_par`. -/
def tagParameter (mPPar : List Byte) (mSzPar : Nat) (name : List Byte) : Option Nat × Nat := lookup mPPar name mSzPar

/-! ## Pairs -/

/-- The blanks before a pair, its name and its value. -/
structure Pair where
  gap : List Byte
  name : List Byte
  value : List Byte

def Pair.text (p : Pair) : List Byte := p.gap ++ (p.name ++ equals :: quote :: (p.value ++ [quote]))

def IsBlank (c : Byte) : Prop := c = blank ∨ c = tab

/-- No blank, `=` or quote. -/
def NameChar (c : Byte) : Prop := c ≠ 0 ∧ ¬ IsBlank c ∧ c ≠ equals ∧ c ≠ quote

/-- A printable character, but not the quote. -/
def ValueChar (c : Byte) : Prop := 0x20 ≤ c.toNat ∧ c.toNat ≤ 0x7e ∧ c ≠ quote

structure Pair.Formed (p : Pair) : Prop where
  gap : ∀ c ∈ p.gap, IsBlank c
  name : ∀ c ∈ p.name, NameChar c
  value : ∀ c ∈ p.value, ValueChar c
  nonempty : p.value ≠ []

/-- A list of pairs with blanks between them. -/
structure Formed (pairs : List Pair) (tail : List Byte) : Prop where
  each : ∀ p ∈ pairs, p.Formed
  tail : ∀ c ∈ tail, IsBlank c
  apart : ∀ p ∈ pairs.tail, p.gap ≠ []

def argsOf (pairs : List Pair) (tail : List Byte) : List Byte := pairs.flatMap Pair.text ++ tail

/-- Where the value of the first pair with the name is, and its length. -/
def firstValue (name : List Byte) : Nat → List Pair → Option (Nat × Nat)
  | _, [] => none
  | off, p :: ps =>
    if p.name = name then some (off + p.gap.length + p.name.length + 2, p.value.length)
    else firstValue name (off + p.text.length) ps

/-- The result is the value of the first pair with the name, or nothing if there is none. -/
def Right (result : Option Nat × Nat) (name : List Byte) (pairs : List Pair) : Prop :=
  (result.1.map fun pv => (pv, result.2)) = firstValue name 0 pairs

/-- What is compared of a name: from its first character that is not skipped, as many as are not skipped. -/
def key (name : List Byte) : List Byte :=
  (name.dropWhile fun c => decide (Skipped c)).take (name.countP fun c => decide (¬ Skipped c))

/-- The name that is looked for begins with the name of the pair. -/
def Pair.Begins (p : Pair) (name : List Byte) : Prop := key p.name <+: name

instance (p : Pair) (name : List Byte) : Decidable (p.Begins name) := inferInstanceAs (Decidable (_ <+: _))

/-- Up to the pair that the scanner stops at, every name has a character that is not skipped, and the value of every other
pair, the first one included, has no `=`. -/
def InStep (name : List Byte) : Bool → List Pair → Prop
  | _, [] => True
  | bo, p :: ps =>
    key p.name ≠ [] ∧ (bo = false → equals ∉ p.value) ∧ (¬ p.Begins name → InStep name (!bo) ps)

instance InStep.decidable (name : List Byte) : (bo : Bool) → (pairs : List Pair) → Decidable (InStep name bo pairs)
  | _, [] => isTrue trivial
  | bo, p :: ps =>
    have := InStep.decidable name (!bo) ps
    inferInstanceAs (Decidable
      (key p.name ≠ [] ∧ (bo = false → equals ∉ p.value) ∧ (¬ p.Begins name → InStep name (!bo) ps)))

/-- The scanner stops at a pair with the name, and its value does not begin with `=` where that is not a separator, or it
does not stop and there is no pair with the name. (A value of `=` alone is lost, which is right of a pair with another name
if there is none with the name.) -/
def Decided (name : List Byte) : Bool → List Pair → Prop
  | _, [] => True
  | bo, p :: ps =>
    if p.Begins name then
      if p.name = name then bo = true → p.value.head? ≠ some equals
      else bo = true ∧ (∀ c ∈ p.value, c = equals) ∧ ∀ q ∈ ps, q.name ≠ name
    else p.name ≠ name ∧ Decided name (!bo) ps

instance Decided.decidable (name : List Byte) : (bo : Bool) → (pairs : List Pair) → Decidable (Decided name bo pairs)
  | _, [] => isTrue trivial
  | bo, p :: ps =>
    have := Decided.decidable name (!bo) ps
    inferInstanceAs (Decidable (if p.Begins name then
        if p.name = name then bo = true → p.value.head? ≠ some equals
        else bo = true ∧ (∀ c ∈ p.value, c = equals) ∧ ∀ q ∈ ps, q.name ≠ name
      else p.name ≠ name ∧ Decided name (!bo) ps))

section Segments
variable {p n : Nat → Byte} {i : Nat} {s : Scan}

theorem scan_cons {c : Byte} {s' : Scan} {rest : List Byte} (step : turn p n i c s = (false, s')) :
    scan p n (c :: rest) i s = scan p n rest (i + 1) s' := by
  rw [scan, step]

theorem scan_append {u v : List Byte} {s' : Scan} (first : scan p n u i s = (false, s')) :
    scan p n (u ++ v) i s = scan p n v (i + u.length) s' := by
  induction u generalizing i s with
  | nil =>
    cases first
    rfl
  | cons c rest ih =>
    rw [scan] at first
    rw [List.cons_append, scan]
    rcases step : turn p n i c s with ⟨last, s₁⟩
    rw [step] at first
    cases last with
    | true => cases first
    | false =>
      have shift : i + (c :: rest).length = i + 1 + rest.length := by rw [List.length_cons]; omega
      rw [shift]
      exact ih first

theorem scan_append_stop {u v : List Byte} {s' : Scan} (first : scan p n u i s = (true, s')) :
    scan p n (u ++ v) i s = (true, s') := by
  induction u generalizing i s with
  | nil => cases first
  | cons c rest ih =>
    rw [scan] at first
    rw [List.cons_append, scan]
    rcases step : turn p n i c s with ⟨last, s₁⟩
    rw [step] at first
    cases last with
    | true => exact first
    | false => exact ih first

/-- A blank outside a value. -/
theorem turn_blank {c : Byte} (isBlank : IsBlank c) (outside : s.div ≠ quote) :
    turn p n i c s = (false, { s with pv := none, pn := none, div := blank }) := by
  have seen : ¬ Skipped c := by
    rcases isBlank with rfl | rfl <;> decide
  have isBlank' : c = blank ∨ c = tab := isBlank
  rw [turn, if_neg seen, if_pos isBlank', if_neg outside]

theorem scan_blanks {u : List Byte} (blanks : ∀ c ∈ u, IsBlank c) (some : u ≠ []) (outside : s.div ≠ quote) :
    scan p n u i s = (false, { s with pv := none, pn := none, div := blank }) := by
  induction u generalizing i s with
  | nil => exact absurd rfl some
  | cons c rest ih =>
    rw [scan_cons (turn_blank (blanks c (.head _)) outside)]
    by_cases last : rest = []
    · rw [last, scan]
    · exact ih (fun d mem => blanks d (.tail _ mem)) last (show blank ≠ quote by decide)

/-- A character of a name, where a name may be. -/
theorem turn_name {c : Byte} (ok : NameChar c) (outside : s.div = blank) :
    turn p n i c s = (false, if Skipped c then { s with pvs := s.pvs + 1 } else s.name i) := by
  obtain ⟨-, notBlank, notEquals, notQuote⟩ := ok
  have notBlank' : ¬ (c = blank ∨ c = tab) := notBlank
  by_cases skip : Skipped c
  · rw [turn, if_pos skip, if_pos skip]
  · have neither : blank ≠ equals ∧ blank ≠ quote := by decide
    rw [turn, if_neg skip, if_neg notBlank', if_neg notQuote, if_neg notEquals, outside, if_neg neither.1, if_neg neither.2,
      if_pos (.inl rfl), if_neg skip]

/-- The rest of a name. -/
theorem scan_name_rest {u : List Byte} (ok : ∀ c ∈ u, NameChar c) (outside : s.div = blank) {pn : Nat}
    (begun : s.pn = some pn) :
    ∃ v, scan p n u i s =
      (false, { s with pvs := v, pns := s.pns + u.countP fun c => decide (¬ Skipped c) }) := by
  induction u generalizing i s with
  | nil => exact ⟨s.pvs, rfl⟩
  | cons c rest ih =>
    rw [scan_cons (turn_name (ok c (.head _)) outside)]
    by_cases skip : Skipped c
    · rw [if_pos skip, List.countP_cons_of_neg (by simpa using skip)]
      exact ih (fun d mem => ok d (.tail _ mem)) outside begun
    · rw [if_neg skip, List.countP_cons_of_pos (by simpa using skip)]
      have one : s.name i = { s with pns := s.pns + 1 } := by rw [Scan.name, begun]
      rw [one]
      obtain ⟨v, run⟩ := ih (i := i + 1) (s := { s with pns := s.pns + 1 }) (fun d mem => ok d (.tail _ mem)) outside begun
      refine ⟨v, run.trans ?_⟩
      dsimp only
      rw [Nat.add_right_comm, Nat.add_assoc]

/-- A name with a character that is not skipped. -/
theorem scan_name {u : List Byte} (ok : ∀ c ∈ u, NameChar c) (outside : s.div = blank) (fresh : s.pn = none)
    (seen : key u ≠ []) :
    ∃ v, scan p n u i s = (false, { s with
      pvs := v
      pn := some (i + (u.takeWhile fun c => decide (Skipped c)).length)
      pns := u.countP fun c => decide (¬ Skipped c) }) := by
  induction u generalizing i s with
  | nil => exact absurd rfl seen
  | cons c rest ih =>
    have others : ∀ d ∈ rest, NameChar d := fun d mem => ok d (.tail _ mem)
    rw [scan_cons (turn_name (ok c (.head _)) outside)]
    by_cases skip : Skipped c
    · have dropped : key (c :: rest) = key rest := by
        rw [key, key, List.dropWhile_cons_of_pos (by simpa using skip), List.countP_cons_of_neg (by simpa using skip)]
      rw [if_pos skip, List.countP_cons_of_neg (by simpa using skip), List.takeWhile_cons_of_pos (by simpa using skip)]
      obtain ⟨v, run⟩ := ih (i := i + 1) (s := { s with pvs := s.pvs + 1 }) others outside fresh (dropped ▸ seen)
      refine ⟨v, run.trans ?_⟩
      rw [List.length_cons, Nat.add_assoc, Nat.add_comm 1]
    · rw [if_neg skip, List.countP_cons_of_pos (by simpa using skip), List.takeWhile_cons_of_neg (by simpa using skip)]
      have one : s.name i = { s with pn := some i, pns := 1 } := by rw [Scan.name, fresh]
      rw [one]
      obtain ⟨v, run⟩ := scan_name_rest (p := p) (n := n) (i := i + 1) (s := { s with pn := some i, pns := 1 }) others
        outside rfl
      refine ⟨v, run.trans ?_⟩
      rw [List.length_nil, Nat.add_zero, Nat.add_comm 1]

theorem turn_quote (outside : s.div ≠ quote) : turn p n i quote s = (false, { s with div := quote }) := by
  rw [turn, if_neg (by decide), if_neg (by decide), if_pos rfl, if_neg outside]

/-- `="` after a name. -/
theorem scan_equals_quote (noValue : s.pv = none) (outside : s.div = blank) :
    ∃ v, scan p n [equals, quote] i s = (false, { s with pvs := v, div := quote }) := by
  have separator : turn p n i equals s =
      if s.bo = false then (false, { s with pv := none, div := equals }) else (false, { s with pvs := s.pvs + 1 }) := by
    rw [turn, if_neg (by decide), if_neg (by decide), if_neg (by decide), if_pos rfl]
  by_cases off : s.bo = false
  · rw [if_pos off] at separator
    rw [scan_cons separator, scan_cons (turn_quote (show equals ≠ quote by decide)), ← noValue]
    exact ⟨s.pvs, rfl⟩
  · rw [if_neg off] at separator
    rw [scan_cons separator, scan_cons (turn_quote (outside ▸ show blank ≠ quote by decide))]
    exact ⟨s.pvs + 1, rfl⟩

/-- A character of a value: where `=` is not a separator, it does not begin a value. -/
theorem turn_value {c : Byte} (ok : ValueChar c) (inside : s.div = quote) (flag : s.bo = false → c ≠ equals) :
    turn p n i c s = (false, if c = equals then { s with pvs := s.pvs + 1 } else s.value i) := by
  obtain ⟨low, high, notQuote⟩ := ok
  have seen : ¬ Skipped c := by
    rintro ⟨less, -⟩
    rw [BitVec.toInt_eq_toNat_of_lt (by omega)] at less
    have twenty : blank.toInt = 32 := by decide
    omega
  rw [turn, if_neg seen]
  by_cases isBlank : c = blank ∨ c = tab
  · have notEquals : c ≠ equals := by
      rintro rfl
      exact absurd isBlank (by decide)
    rw [if_pos isBlank, if_pos inside, if_neg notEquals]
  · rw [if_neg isBlank, if_neg notQuote]
    by_cases isEquals : c = equals
    · rw [if_pos isEquals, if_pos isEquals, if_neg fun off => flag off isEquals]
    · rw [if_neg isEquals, if_neg isEquals, inside, if_neg (by decide), if_pos rfl]

theorem scan_value_rest {u : List Byte} (ok : ∀ c ∈ u, ValueChar c) (inside : s.div = quote)
    (flag : s.bo = false → equals ∉ u) {pv : Nat} (begun : s.pv = some pv) :
    scan p n u i s = (false, { s with pvs := s.pvs + u.length }) := by
  induction u generalizing i s with
  | nil => rfl
  | cons c rest ih =>
    have one : (if c = equals then { s with pvs := s.pvs + 1 } else s.value i) = { s with pvs := s.pvs + 1 } := by
      split_ifs
      · rfl
      · rw [Scan.value, begun]
    rw [scan_cons (turn_value (ok c (.head _)) inside fun off same => flag off (same ▸ List.mem_cons_self)), one,
      ih (s := { s with pvs := s.pvs + 1 }) (fun d mem => ok d (.tail _ mem)) inside
        (fun off mem => flag off (.tail _ mem)) begun, List.length_cons, Nat.add_assoc, Nat.add_comm 1]

end Segments

/-- The result of a scan. -/
def Scan.result (s : Scan) : Option (Nat × Nat) := s.pv.map fun pv => (pv, s.pvs)

/-- What the scanner keeps of a value that begins at `i`. -/
def kept (i : Nat) (value : List Byte) : Option (Nat × Nat) :=
  let rest := value.dropWhile (· = equals)
  if rest = [] then none else some (i + (value.length - rest.length), rest.length)

section Segments
variable {p n : Nat → Byte} {i : Nat} {s : Scan}

theorem scan_value {u : List Byte} (ok : ∀ c ∈ u, ValueChar c) (inside : s.div = quote)
    (flag : s.bo = false → equals ∉ u) (fresh : s.pv = none) :
    ∃ s', scan p n u i s = (false, s') ∧ s'.result = kept i u ∧ s' = { s with pv := s'.pv, pvs := s'.pvs } := by
  induction u generalizing i s with
  | nil => exact ⟨s, rfl, by rw [Scan.result, fresh]; rfl, rfl⟩
  | cons c rest ih =>
    have others : ∀ d ∈ rest, ValueChar d := fun d mem => ok d (.tail _ mem)
    have flags : s.bo = false → equals ∉ rest := fun off mem => flag off (.tail _ mem)
    rw [scan_cons (turn_value (ok c (.head _)) inside fun off same => flag off (same ▸ List.mem_cons_self))]
    by_cases isEquals : c = equals
    · rw [if_pos isEquals]
      obtain ⟨s', run, result, others⟩ := ih (i := i + 1) (s := { s with pvs := s.pvs + 1 }) others inside flags fresh
      refine ⟨s', run, result.trans ?_, others⟩
      have shorter := List.length_dropWhile_le (fun c => decide (c = equals)) rest
      rw [kept, kept, List.dropWhile_cons_of_pos (by simpa using isEquals), List.length_cons]
      split_ifs
      · rfl
      · congr 2
        omega
    · have one : s.value i = { s with pv := some i, pvs := 1 } := by rw [Scan.value, fresh]
      rw [if_neg isEquals, one,
        scan_value_rest (s := { s with pv := some i, pvs := 1 }) others inside flags rfl]
      refine ⟨_, rfl, ?_, rfl⟩
      rw [kept, List.dropWhile_cons_of_neg (by simpa using isEquals), if_neg (List.cons_ne_nil c rest), Nat.sub_self,
        Scan.result, List.length_cons, Nat.add_comm 1]
      rfl

/-- The quote behind a value, with the name that is compared. -/
theorem scan_close (inside : s.div = quote) {pn : Nat} (begun : s.pn = some pn) :
    scan p n [quote] i s =
      if memCmp n (fun j => p (pn + j)) s.pns = 0 then (true, s)
      else (false, { s with pv := none, div := blank, bo := !s.bo }) := by
  have step : turn p n i quote s =
      if memCmp n (fun j => p (pn + j)) s.pns = 0 then (true, s)
      else (false, { s with pv := none, div := blank, bo := !s.bo }) := by
    rw [turn, if_neg (by decide), if_neg (by decide), if_pos rfl, if_pos inside, begun]
  rw [scan, step]
  split_ifs <;> rfl

end Segments

/-! ## Names -/

theorem count_le_length_dropWhile (u : List Byte) :
    u.countP (fun c => decide (¬ Skipped c)) ≤ (u.dropWhile fun c => decide (Skipped c)).length := by
  induction u with
  | nil => exact le_rfl
  | cons c rest ih =>
    by_cases skip : Skipped c
    · rw [List.countP_cons_of_neg (by simpa using skip), List.dropWhile_cons_of_pos (by simpa using skip)]
      exact ih
    · rw [List.dropWhile_cons_of_neg (by simpa using skip)]
      exact List.countP_le_length

/-- The name that is compared is the key of the pair's. -/
theorem compare_iff {u name : List Byte} (noZero : 0 ∉ u) :
    (∀ j, j < u.countP (fun c => decide (¬ Skipped c)) →
        name.getD j 0 = u.getD ((u.takeWhile fun c => decide (Skipped c)).length + j) 0) ↔ key u <+: name := by
  set front := u.takeWhile fun c => decide (Skipped c)
  set back := u.dropWhile fun c => decide (Skipped c)
  have split : front ++ back = u := List.takeWhile_append_dropWhile
  have enough : u.countP (fun c => decide (¬ Skipped c)) ≤ back.length := count_le_length_dropWhile u
  have length : (key u).length = u.countP fun c => decide (¬ Skipped c) := by
    rw [key, List.length_take, Nat.min_eq_left enough]
  have char (j : Nat) : u.getD (front.length + j) 0 = back.getD j 0 := by
    rw [← split, List.getD_append_right _ _ _ _ (Nat.le_add_right _ _), Nat.add_sub_cancel_left]
  rw [List.prefix_iff_getElem]
  constructor
  · intro same
    have within : (key u).length ≤ name.length := by
      by_contra longer
      have less : name.length < u.countP fun c => decide (¬ Skipped c) := by omega
      have zero := same name.length less
      rw [List.getD_eq_default _ _ le_rfl, char, List.getD_eq_getElem _ _ (by omega)] at zero
      refine noZero ?_
      rw [zero]
      exact (List.dropWhile_sublist _).mem (List.getElem_mem _)
    refine ⟨within, fun j less => ?_⟩
    have here := same j (by omega)
    rw [char, List.getD_eq_getElem _ _ (by omega), List.getD_eq_getElem _ _ (by omega)] at here
    rw [here]
    exact List.getElem_take
  · rintro ⟨within, same⟩ j less
    have here := same j (by omega)
    rw [char, List.getD_eq_getElem _ _ (by omega), List.getD_eq_getElem _ _ (by omega), ← here]
    exact List.getElem_take

/-! ## Pairs -/

/-- Between pairs: nothing is kept, and a blank is the last separator. -/
structure Between (bo : Bool) (s : Scan) : Prop where
  pv : s.pv = none
  div : s.div = blank
  bo : s.bo = bo

theorem Pair.text_length (q : Pair) :
    q.text.length = q.gap.length + q.name.length + 2 + q.value.length + 1 := by
  simp only [Pair.text, List.length_append, List.length_cons, List.length_nil]
  omega

section Pairs
variable {p n : Nat → Byte} {i : Nat} {s : Scan} {bo : Bool}

/-- The blanks, the name and the opening quote. -/
theorem scan_front {q : Pair} (formed : q.Formed) (between : Between bo s) (fresh : q.gap = [] → s.pn = none)
    (seen : key q.name ≠ []) :
    ∃ s', scan p n (q.gap ++ (q.name ++ [equals, quote])) i s = (false, s') ∧ s'.pv = none ∧ s'.div = quote ∧ s'.bo = bo ∧
      s'.pn = some (i + q.gap.length + (q.name.takeWhile fun c => decide (Skipped c)).length) ∧
      s'.pns = q.name.countP fun c => decide (¬ Skipped c) := by
  have blanks : ∃ s₁, scan p n q.gap i s = (false, s₁) ∧ Between bo s₁ ∧ s₁.pn = none := by
    by_cases empty : q.gap = []
    · rw [empty]
      exact ⟨s, rfl, between, fresh empty⟩
    · exact ⟨_, scan_blanks formed.gap empty (between.div ▸ by decide), ⟨rfl, rfl, between.bo⟩, rfl⟩
  obtain ⟨s₁, gap, ⟨noValue, outside, flag⟩, noName⟩ := blanks
  obtain ⟨v, run⟩ := scan_name (p := p) (n := n) (i := i + q.gap.length) formed.name outside noName seen
  obtain ⟨w, equalsQuote⟩ := scan_equals_quote (p := p) (n := n) (i := i + q.gap.length + q.name.length)
    (s := { s₁ with
      pvs := v
      pn := some (i + q.gap.length + (q.name.takeWhile fun c => decide (Skipped c)).length)
      pns := q.name.countP fun c => decide (¬ Skipped c) }) noValue outside
  refine ⟨_, ((scan_append gap).trans (scan_append run)).trans equalsQuote, noValue, rfl, flag, rfl, rfl⟩

/-- A pair, of which the name in the text is compared with the one that is looked for. -/
theorem scan_pair (asked : List Byte) {q : Pair} (formed : q.Formed) (between : Between bo s)
    (fresh : q.gap = [] → s.pn = none)
    (seen : key q.name ≠ []) (flag : bo = false → equals ∉ q.value)
    (text : ∀ j, j < q.name.length → p (i + q.gap.length + j) = q.name.getD j 0) :
    if q.Begins asked then
      ∃ s', scan p (fun j => asked.getD j 0) q.text i s = (true, s') ∧
        s'.result = kept (i + q.gap.length + q.name.length + 2) q.value
    else ∃ s', scan p (fun j => asked.getD j 0) q.text i s = (false, s') ∧ Between (!bo) s' := by
  obtain ⟨s₁, front, noValue, inside, flag₁, pn, pns⟩ :=
    scan_front (p := p) (n := fun j => asked.getD j 0) (i := i) formed between fresh seen
  have shape : q.text = (q.gap ++ (q.name ++ [equals, quote])) ++ (q.value ++ [quote]) := by
    simp only [Pair.text, List.append_assoc, List.cons_append, List.nil_append]
  have length : i + (q.gap ++ (q.name ++ [equals, quote])).length = i + q.gap.length + q.name.length + 2 := by
    simp only [List.length_append, List.length_cons, List.length_nil]
    omega
  obtain ⟨s₂, value, result, same⟩ :=
    scan_value (p := p) (n := fun j => asked.getD j 0) (i := i + q.gap.length + q.name.length + 2) formed.value inside
      (fun off => flag (flag₁ ▸ off)) noValue
  have inside₂ : s₂.div = quote := by rw [same]; exact inside
  have pn₂ : s₂.pn = some (i + q.gap.length + (q.name.takeWhile fun c => decide (Skipped c)).length) := by
    rw [same]; exact pn
  have pns₂ : s₂.pns = q.name.countP fun c => decide (¬ Skipped c) := by rw [same]; exact pns
  have bo₂ : s₂.bo = bo := by rw [same]; exact flag₁
  have close := scan_close (p := p) (n := fun j => asked.getD j 0)
    (i := i + q.gap.length + q.name.length + 2 + q.value.length) inside₂ pn₂
  have run : scan p (fun j => asked.getD j 0) q.text i s =
      scan p (fun j => asked.getD j 0) [quote] (i + q.gap.length + q.name.length + 2 + q.value.length) s₂ := by
    rw [shape, scan_append front, length, scan_append value]
  have noZero : 0 ∉ q.name := fun mem => (formed.name 0 mem).1 rfl
  have compare : memCmp (fun j => asked.getD j 0)
      (fun j => p (i + q.gap.length + (q.name.takeWhile fun c => decide (Skipped c)).length + j)) s₂.pns = 0 ↔
      q.Begins asked := by
    rw [memCmp_eq_zero, Pair.Begins, ← compare_iff noZero, pns₂]
    have enough := count_le_length_dropWhile q.name
    have lengths := congrArg List.length (List.takeWhile_append_dropWhile (p := fun c => decide (Skipped c)) (l := q.name))
    rw [List.length_append] at lengths
    refine forall₂_congr fun j less => ?_
    rw [Nat.add_assoc (i + q.gap.length), text _ (by omega)]
  rw [run, close]
  by_cases begins : q.Begins asked
  · rw [if_pos begins, if_pos (compare.mpr begins)]
    exact ⟨s₂, rfl, result⟩
  · rw [if_neg begins, if_neg fun zero => begins (compare.mp zero)]
    exact ⟨_, rfl, rfl, rfl, congrArg not bo₂⟩

/-- What the scanner finds. -/
def found (name : List Byte) : Nat → List Pair → Option (Nat × Nat)
  | _, [] => none
  | off, q :: qs =>
    if q.Begins name then kept (off + q.gap.length + q.name.length + 2) q.value else found name (off + q.text.length) qs

theorem Between.result (between : Between bo s) : s.result = none := by
  rw [Scan.result, between.pv, Option.map_none]

/-- The scanner over a list of pairs with which it is in step. -/
theorem scan_pairs {asked : List Byte} {pairs : List Pair} {tail : List Byte} (formed : Formed pairs tail)
    (step : InStep asked bo pairs)
    (between : Between bo s) (fresh : (∃ q ∈ pairs.head?, q.gap = []) → s.pn = none)
    (text : ∀ j, j < (argsOf pairs tail).length → p (i + j) = (argsOf pairs tail).getD j 0) :
    (scan p (fun j => asked.getD j 0) (argsOf pairs tail) i s).2.result = found asked i pairs := by
  induction pairs generalizing i s bo with
  | nil =>
    rw [argsOf, List.flatMap_nil, List.nil_append, found]
    by_cases empty : tail = []
    · rw [empty]
      exact between.result
    · rw [scan_blanks formed.tail empty (between.div ▸ by decide)]
      rfl
  | cons q qs ih =>
    obtain ⟨seen, flag, after⟩ := step
    have shape : argsOf (q :: qs) tail = q.text ++ argsOf qs tail := by
      rw [argsOf, argsOf, List.flatMap_cons, List.append_assoc]
    have length := q.text_length
    rw [shape] at text ⊢
    have name (j : Nat) (less : j < q.name.length) : p (i + q.gap.length + j) = q.name.getD j 0 := by
      rw [Nat.add_assoc, text (q.gap.length + j) (by rw [List.length_append]; omega),
        List.getD_append _ _ _ _ (by omega), Pair.text,
        List.getD_append_right _ _ _ _ (Nat.le_add_right _ _), Nat.add_sub_cancel_left, List.getD_append _ _ _ _ less]
    have one := scan_pair asked (formed.each q (.head _)) between (fun empty => fresh ⟨q, rfl, empty⟩) seen flag name
    rw [found]
    by_cases begins : q.Begins asked
    · rw [if_pos begins] at one ⊢
      obtain ⟨s', run, result⟩ := one
      rw [scan_append_stop run]
      exact result
    · rw [if_neg begins] at one ⊢
      obtain ⟨s', run, between'⟩ := one
      rw [scan_append run]
      refine ih ⟨fun r mem => formed.each r (.tail _ mem), formed.tail,
        fun r mem => formed.apart r (List.mem_of_mem_tail mem)⟩
        (after begins) between' ?_ ?_
      · rintro ⟨r, first, empty⟩
        exact absurd empty (formed.apart r (List.mem_of_mem_head? first))
      · intro j less
        rw [Nat.add_assoc, text _ (by rw [List.length_append]; omega),
          List.getD_append_right _ _ _ _ (Nat.le_add_right _ _), Nat.add_sub_cancel_left]

end Pairs

section Decision
variable {name : List Byte}

/-- The value of a later pair is behind the offset. -/
theorem firstValue_above {pairs : List Pair} {off a b : Nat} (first : firstValue name off pairs = some (a, b)) :
    off ≤ a := by
  induction pairs generalizing off with
  | nil => cases first
  | cons q qs ih =>
    rw [firstValue] at first
    split_ifs at first
    · cases first
      omega
    · exact (Nat.le_add_right _ _).trans (ih first)

theorem firstValue_eq_none {pairs : List Pair} {off : Nat} :
    firstValue name off pairs = none ↔ ∀ q ∈ pairs, q.name ≠ name := by
  induction pairs generalizing off with
  | nil => simp [firstValue]
  | cons q qs ih =>
    rw [firstValue, List.forall_mem_cons]
    by_cases same : q.name = name
    · rw [if_pos same]
      exact ⟨fun nothing => (by cases nothing), fun h => absurd same h.1⟩
    · rw [if_neg same, ih]
      exact (and_iff_right same).symm

theorem kept_eq_none {value : List Byte} {i : Nat} : kept i value = none ↔ ∀ c ∈ value, c = equals := by
  rw [kept, ite_eq_left_iff]
  simp [List.dropWhile_eq_nil_iff]

/-- A value is kept as a whole if it does not begin with `=`. -/
theorem kept_eq_iff {value : List Byte} {i : Nat} (nonempty : value ≠ []) :
    kept i value = some (i, value.length) ↔ value.head? ≠ some equals := by
  obtain ⟨c, rest, rfl⟩ := List.exists_cons_of_ne_nil nonempty
  rw [kept]
  by_cases first : c = equals
  · have shorter := List.length_dropWhile_le (fun c => decide (c = equals)) rest
    rw [List.dropWhile_cons_of_pos (by simpa using first), first]
    refine ⟨fun h => ?_, fun h => absurd rfl h⟩
    split_ifs at h
    have lengths := congrArg (fun r => r.map Prod.snd) h
    simp only [Option.map_some, Option.some.injEq, List.length_cons] at lengths
    omega
  · rw [List.dropWhile_cons_of_neg (by simpa using first), if_neg (List.cons_ne_nil c rest), Nat.sub_self]
    exact ⟨fun _ same => first (Option.some.inj same), fun _ => rfl⟩

/-- What is kept of a value is in it. -/
theorem kept_within {value : List Byte} {i a b : Nat} (found : kept i value = some (a, b)) :
    i ≤ a ∧ a ≤ i + value.length := by
  rw [kept] at found
  split_ifs at found
  cases found
  omega

theorem found_above {pairs : List Pair} {off a b : Nat} (found : found name off pairs = some (a, b)) : off ≤ a := by
  induction pairs generalizing off with
  | nil => cases found
  | cons q qs ih =>
    rw [Parameter.found] at found
    split_ifs at found
    · exact (by omega : off ≤ off + q.gap.length + q.name.length + 2).trans (kept_within found).1
    · exact (Nat.le_add_right _ _).trans (ih found)

theorem found_iff {pairs : List Pair} {bo : Bool} {off : Nat} (formed : ∀ q ∈ pairs, q.Formed)
    (step : InStep name bo pairs) :
    found name off pairs = firstValue name off pairs ↔ Decided name bo pairs := by
  induction pairs generalizing bo off with
  | nil => exact ⟨fun _ => trivial, fun _ => rfl⟩
  | cons q qs ih =>
    obtain ⟨seen, flag, after⟩ := step
    have nonempty := (formed q (.head _)).nonempty
    have noSeparator (off : bo = false) : q.value.head? ≠ some equals := fun first =>
      flag off (List.mem_of_mem_head? first)
    rw [found, firstValue, Decided]
    by_cases begins : q.Begins name
    · rw [if_pos begins, if_pos begins]
      by_cases same : q.name = name
      · rw [if_pos same, if_pos same, kept_eq_iff nonempty]
        cases bo with
        | false => exact ⟨fun _ on => (by cases on), fun _ => noSeparator rfl⟩
        | true => exact ⟨fun h _ => h, fun h => h rfl⟩
      · rw [if_neg same, if_neg same]
        -- the value of a later pair is elsewhere, so that both are nothing
        have nothing : kept (off + q.gap.length + q.name.length + 2) q.value = firstValue name (off + q.text.length) qs ↔
            kept (off + q.gap.length + q.name.length + 2) q.value = none ∧
              firstValue name (off + q.text.length) qs = none := by
          constructor
          · intro equal
            cases first : firstValue name (off + q.text.length) qs with
            | none => exact ⟨equal.trans first, rfl⟩
            | some at' =>
              have above := firstValue_above first
              have below := (kept_within (equal.trans first)).2
              rw [q.text_length] at above
              omega
          · rintro ⟨left, right⟩
            rw [left, right]
        rw [nothing, kept_eq_none, firstValue_eq_none]
        refine ⟨fun h => ⟨?_, h⟩, fun h => h.2⟩
        by_contra off
        have noEquals := noSeparator (Bool.eq_false_iff.mpr off)
        obtain ⟨c, rest, shape⟩ := List.exists_cons_of_ne_nil nonempty
        exact noEquals (by rw [shape, List.head?_cons, h.1 c (shape ▸ .head _)])
    · rw [if_neg begins, if_neg begins]
      by_cases same : q.name = name
      · rw [if_pos same]
        refine ⟨fun equal => ?_, fun h => absurd same h.1⟩
        have above := found_above equal
        rw [q.text_length] at above
        have nonzero := List.length_pos_iff.mpr nonempty
        omega
      · rw [if_neg same, ih (fun r mem => formed r (.tail _ mem)) (after begins)]
        exact (and_iff_right same).symm

end Decision

/-! ## Results -/

/-- The scanner finds what it finds in the pairs, whatever is behind the text. -/
theorem lookup_eq {pairs : List Pair} {tail name rest : List Byte} (formed : Formed pairs tail)
    (step : InStep name false pairs) :
    let result := lookup (argsOf pairs tail ++ rest) name (argsOf pairs tail).length
    (result.1.map fun pv => (pv, result.2)) = found name 0 pairs := by
  dsimp only
  rw [lookup, List.take_left]
  refine scan_pairs formed step ⟨rfl, rfl, rfl⟩ (fun _ => rfl) fun j less => ?_
  rw [Nat.zero_add]
  exact List.getD_append _ _ _ _ less

theorem lookup_right_iff {pairs : List Pair} {tail name : List Byte} (formed : Formed pairs tail)
    (step : InStep name false pairs)
    (rest : List Byte) :
    Right (lookup (argsOf pairs tail ++ rest) name (argsOf pairs tail).length) name pairs ↔ Decided name false pairs := by
  rw [Right, lookup_eq formed step]
  exact found_iff formed.each step

theorem parameter_right_iff {pairs : List Pair} {tail name : List Byte} (formed : Formed pairs tail)
    (short : (argsOf pairs tail).length + 1 < 2 ^ 32) (step : InStep name false pairs) :
    Right (parameter (argsOf pairs tail) name) name pairs ↔ Decided name false pairs := by
  have all := lookup_right_iff formed step []
  rw [List.append_nil] at all
  rw [parameter, Nat.mod_eq_of_lt (by omega)]
  exact all

/-- Where the scanner is in step, both lookups give the value of the first pair with the name, or nothing if there is none,
exactly if it stops at that pair and keeps the value. -/
theorem right_iff {pairs : List Pair} {tail name : List Byte} (formed : Formed pairs tail)
    (short : (argsOf pairs tail).length + 1 < 2 ^ 32) (step : InStep name false pairs) :
    (Right (parameter (argsOf pairs tail) name) name pairs ↔ Decided name false pairs) ∧
      ∀ rest : List Byte, Right (tagParameter (argsOf pairs tail ++ rest) (argsOf pairs tail).length name) name pairs ↔
        Decided name false pairs :=
  ⟨parameter_right_iff formed short step, lookup_right_iff formed step⟩

/-- `a="1" b="2"`, and `b` is looked for. -/
theorem right_iff_second :
    let pairs : List Pair := [⟨[], [0x61], [0x31]⟩, ⟨[blank], [0x62], [0x32]⟩]
    Right (parameter (argsOf pairs []) [0x62]) [0x62] pairs := by
  intro pairs
  have formed : Formed pairs [] := by
    refine ⟨fun q mem => ?_, fun c mem => (by cases mem), fun q mem => ?_⟩
    · rcases List.mem_pair.mp mem with rfl | rfl <;> refine ⟨?_, ?_, ?_, ?_⟩ <;>
        simp [IsBlank, NameChar, ValueChar] <;> decide
    · rw [List.mem_singleton.mp mem]
      decide
  exact (right_iff formed (by decide +kernel) (by decide +kernel)).1.mpr (by decide +kernel)

/-- `a="x=y"`, and `a` is looked for. -/
theorem separator_in_value :
    let pairs : List Pair := [⟨[], [0x61], [0x78, equals, 0x79]⟩]
    ¬ Right (parameter (argsOf pairs []) [0x61]) [0x61] pairs := by
  intro pairs right
  revert right
  rw [Right]
  decide +kernel

end PreTeO.Common.Parameter
