import PreTeO.Lib.Bytes

/-!
# Parsing XML (`ext/init/lib/xml.cpp`)

`parse` reads the tags of a buffer and calls itself for a tag inside a tag; `_parse` reads a comment or another package. Here
a call of `parse` is a frame on a stack, and a round of its loop is a step. A step that reads a byte outside the buffer has
no result. The tags that are put in a storage are collected in one list, whichever storage it is.
-/

namespace PreTeO.Ext.XmlParse
set_option autoImplicit false

open Lib (Byte)

def chLt : Byte := 0x3c
def chGt : Byte := 0x3e
def chSlash : Byte := 0x2f
def chSpace : Byte := 0x20
def chQuestion : Byte := 0x3f
def chBang : Byte := 0x21
def chDash : Byte := 0x2d

/-- `m_p_content`, and the `m_size` bytes there. -/
structure Doc where
  base : Nat
  bytes : List Byte
  small : bytes.length < 2 ^ 32

namespace Doc

def size (d : Doc) : Nat := d.bytes.length

/-- The address behind the buffer. -/
def finish (d : Doc) : Nat := d.base + d.size

/-- `*p`: nothing if `p` is outside the buffer. -/
def read (d : Doc) (p : Nat) : Option Byte := if d.base ≤ p then d.bytes[p - d.base]? else none

/-- `(_u32)(_p - m_p_content)`. -/
def offset (d : Doc) (p : Nat) : Nat := (((p : Int) - d.base) % 2 ^ 32).toNat

end Doc

/-- `cXMLTag`, without the storage of its children. -/
structure Tag where
  pName : Option Nat
  szName : Nat
  pContent : Option Nat
  szContent : Nat
  pPar : Option Nat
  szPar : Nat

/-- `init_tag`. -/
def Tag.init : Tag := ⟨none, 0, none, 0, none, 0⟩

/-- The local variables of a call of `parse`: `_p`, the status `_s`, and `_t`. -/
structure Frame where
  p : Nat
  fBo : Bool
  fTo : Bool
  fTc : Bool
  fTp : Bool
  fTn : Bool
  t : Tag

def Frame.start (p : Nat) : Frame := ⟨p, false, false, false, false, false, Tag.init⟩

/-- The calls that have not returned, the last one first, and the tags that were added. -/
structure Parser where
  frames : List Frame
  added : List Tag

/-! ## The source -/

section Source
variable (d : Doc)

/-- `mem_cmp(p, pat, n) == 0`. It reads up to the first difference. -/
def matchAt : List Byte → Nat → Option Bool
  | [], _ => some true
  | c :: pat, p => (d.read p).bind fun x => if x = c then matchAt pat (p + 1) else some false

/-- From `p` on, to the next place with the characters. -/
def scanFor (pat : List Byte) : Nat → Nat → Option Nat
  | 0, _ => none
  | left + 1, p => (matchAt d pat p).bind fun found => if found then some p else scanFor pat left (p + 1)

/-- No scan has more rounds than this before it leaves the buffer. -/
def scan (pat : List Byte) (p : Nat) : Option Nat := scanFor d pat (d.size + 1) p

/-- `_parse` at a `?`: the name up to a blank, and the rest up to `?>`. -/
def parseQuestion (p : Nat) : Option (Nat × Tag) :=
  (scan d [chSpace] (p + 1)).bind fun par =>
    (scan d [chQuestion, chGt] (par + 1)).bind fun q =>
      some (q + 1, {
        pName := some (p + 1), szName := par - (p + 1)
        pContent := some par, szContent := q - par
        pPar := some par, szPar := q - par })

/-- `_parse` at a `!`: a comment, or everything up to `>`. -/
def parseBang (p : Nat) : Option (Nat × Tag) :=
  (matchAt d [chBang, chDash, chDash] p).bind fun comment =>
    if comment then
      (scan d [chDash, chDash, chGt] (p + 1)).bind fun q =>
        some (q + 2, { Tag.init with pContent := some (p + 1), szContent := q + 2 - p - 1 })
    else
      (scan d [chGt] p).bind fun q => some (q, { Tag.init with szPar := q - p - 1 })

/-- `_parse`, called behind a `<`: where it stops, and the tag that it adds. -/
def parsePackage (c : Byte) (p : Nat) : Option (Nat × Tag) := if c = chQuestion then parseQuestion d p else parseBang d p

/-- What a round of the loop does: it goes on, calls `parse` at the same `<`, or returns. -/
inductive Turn where
  | next (f : Frame) (added : List Tag)
  | call (f : Frame)
  | ret (p : Nat) (added : List Tag)

/-- `case '<'`. -/
def turnLt (f : Frame) : Option Turn :=
  (d.read (f.p + 1)).bind fun n =>
    let f := { f with fBo := true, fTp := false }
    if n ≠ chSlash then
      if f.fTo then some (.call f)
      else some (.next { f with p := f.p + 1, fTn := true, t := { f.t with pName := some (f.p + 1), szName := 0 } } [])
    else some (.next { f with p := f.p + 1 } [])

/-- `case '>'`. -/
def turnGt (f : Frame) : Option Turn :=
  let f := { f with fBo := false, fTn := false, fTp := false }
  if f.fTc then some (.ret f.p [f.t])
  else
    some (.next { f with p := f.p + 1, fTo := true, fTc := false
                         t := { f.t with szContent := 0, pContent := some (f.p + 1) } } [])

/-- `if(*(_p+1) == '>' || *(_p-1) == '<')`. -/
def closes (p : Nat) : Option Bool :=
  (d.read (p + 1)).bind fun n => if n = chGt then some true else (d.read (p - 1)).map fun b => decide (b = chLt)

/-- `case '/'`. -/
def turnSlash (f : Frame) : Option Turn :=
  (if f.fBo then closes d f.p else some false).map fun closing =>
    let f := if closing then { f with fTn := false, fTp := false, fTc := true, fTo := false } else f
    let szPar := f.t.szPar + (f.fBo && f.fTp).toNat
    let szContent := f.t.szContent + f.fTo.toNat
    .next { f with p := f.p + 1, t := { f.t with szPar := szPar, szContent := szContent } } []

/-- `case ' '`. -/
def turnSpace (f : Frame) : Turn :=
  if f.fBo ∧ ¬ f.fTo then
    let t := { f.t with szPar := f.t.szPar + f.fTp.toNat }
    if f.fTn then
      .next { f with p := f.p + 1, fTn := false, fTp := true, t := { t with pPar := some (f.p + 1), szPar := 0 } } []
    else .next { f with p := f.p + 1, t := t } []
  else .next { f with p := f.p + 1, t := { f.t with szContent := f.t.szContent + f.fTo.toNat } } []

/-- `case '?'` and `case '!'`, with `_to` of the caller's status. -/
def turnPackage (callerTo : Bool) (c : Byte) (f : Frame) : Option Turn :=
  (if f.fBo then (d.read (f.p - 1)).map fun b => decide (b = chLt) else some false).bind fun opens =>
    if opens then
      (parsePackage d c f.p).map fun (q, tag) =>
        if callerTo then .ret q [tag]
        else .next { f with p := q + 1, t := { f.t with szContent := f.t.szContent + (q - f.p) } } [tag]
    else some (.next { f with p := f.p + 1 } [])

/-- `default`. -/
def turnOther (f : Frame) : Turn :=
  .next { f with
    p := f.p + 1
    t := { f.t with
      szContent := f.t.szContent + f.fTo.toNat
      szName := f.t.szName + f.fTn.toNat
      szPar := f.t.szPar + f.fTp.toNat } } []

/-- The body of the loop. -/
def turn (callerTo : Bool) (f : Frame) : Option Turn :=
  (d.read f.p).bind fun c =>
    if c = chLt then turnLt d f
    else if c = chGt then turnGt f
    else if c = chSlash then turnSlash d f
    else if c = chSpace then some (turnSpace f)
    else if c = chQuestion ∨ c = chBang then turnPackage d callerTo c f
    else some (turnOther f)

/-- `__s.f._to`: the status of the caller, or of `parse(void)`. -/
def callerTo : List Frame → Bool
  | [] => false
  | g :: _ => g.fTo

/-- The caller goes on behind what the call has read. -/
def resume (q : Nat) : List Frame → List Frame
  | [] => []
  | g :: rest => { g with p := q + 1, t := { g.t with szContent := g.t.szContent + (q - g.p) } } :: rest

/-- The caller of a call that returns null: `_p` is 0, and then 1. -/
def resumeNull : List Frame → List Frame
  | [] => []
  | g :: rest => { g with p := 1 } :: rest

/-- The parser after a round of the last call. -/
def Parser.turned (s : Parser) (callers : List Frame) : Turn → Parser
  | .next f added => { frames := f :: callers, added := s.added ++ added }
  | .call f => { frames := Frame.start f.p :: f :: callers, added := s.added }
  | .ret q added => { frames := resume q callers, added := s.added ++ added }

/-- A round of the loop of the last call, or its end. -/
def step (s : Parser) : Option Parser :=
  match s.frames with
  | [] => some s
  | f :: callers =>
    if d.offset f.p < d.size then (turn d (callerTo callers) f).map (s.turned callers)
    else some { frames := resumeNull callers, added := s.added }

/-- `parse(void)`. -/
def start : Parser := { frames := if d.base = 0 then [] else [Frame.start d.base], added := [] }

/-- The parser after a number of steps: nothing if a byte outside the buffer was read. -/
def run : Nat → Parser → Option Parser
  | 0, s => some s
  | n + 1, s => (step d s).bind (run n)

end Source

/-! ## What is to be shown -/

section Claims
variable (d : Doc)

/-- A range in the buffer, or none. -/
def RangeIn (p : Option Nat) (sz : Nat) : Prop :=
  match p with
  | none => sz = 0
  | some a => d.base ≤ a ∧ a + sz ≤ d.finish

structure TagIn (t : Tag) : Prop where
  name : RangeIn d t.pName t.szName
  content : RangeIn d t.pContent t.szContent
  par : RangeIn d t.pPar t.szPar

/-- The parser returns, has read only bytes of the buffer, and every tag has its ranges there. -/
def Parses : Prop := ∃ n s, run d n (start d) = some s ∧ s.frames = [] ∧ ∀ t ∈ s.added, TagIn d t

/-- The characters are in the buffer at `p`. -/
def Has (pat : List Byte) (p : Nat) : Prop := ∀ i (less : i < pat.length), d.read (p + i) = some pat[i]

/-- A package at `p` has an end in the buffer. Without the dashes of a comment, there is nothing in it: its parameters have a
size, but no place. -/
structure Ends (c : Byte) (p : Nat) : Prop where
  question : c = chQuestion → ∃ j k, p < j ∧ j < k ∧ d.read j = some chSpace ∧ Has d [chQuestion, chGt] k
  comment : c = chBang → Has d [chBang, chDash, chDash] p → ∃ k, p < k ∧ Has d [chDash, chDash, chGt] k
  bang : c = chBang → ¬ Has d [chBang, chDash, chDash] p → d.read (p + 1) = some chGt

/-- The condition on a round of the loop at the character `c`: a `<`, or in a tag a `/`, is not the last byte; a tag that
ends and that has no content has no size of it either, which it has from a package before it; and a package ends. -/
structure TurnOk (c : Byte) (f : Frame) : Prop where
  lt : c = chLt → (d.read (f.p + 1)).isSome
  slash : c = chSlash → f.fBo → (d.read (f.p + 1)).isSome
  gt : c = chGt → f.fTc → f.t.pContent = none → f.t.szContent = 0
  package : c = chQuestion ∨ c = chBang → f.fBo → d.read (f.p - 1) = some chLt → Ends d c f.p

/-- The condition on a step. At the end of the buffer, the call has no caller, or the address 1 is not taken for one of the
buffer. -/
def StepOk (s : Parser) : Prop :=
  match s.frames with
  | [] => True
  | f :: callers =>
    if d.offset f.p < d.size then ∀ c, d.read f.p = some c → TurnOk d c f
    else callers ≠ [] → d.size ≤ d.offset 1

/-- Every step of the parser meets the condition. -/
def EachOk : Prop := ∀ n s, run d n (start d) = some s → StepOk d s

end Claims

/-! ## Scanning -/

section Scan
variable {d : Doc} {pat : List Byte} {p q : Nat}

theorem read_bounds {c : Byte} (read : d.read p = some c) : d.base ≤ p ∧ p < d.finish := by
  rw [Doc.read] at read
  split_ifs at read with low
  have := (List.getElem?_eq_some_iff.mp read).1
  rw [Doc.finish, Doc.size]
  omega

theorem read_some (low : d.base ≤ p) (high : p < d.finish) : ∃ c, d.read p = some c := by
  rw [Doc.finish, Doc.size] at high
  have less : p - d.base < d.bytes.length := by omega
  exact ⟨_, by rw [Doc.read, if_pos low, List.getElem?_eq_getElem less]⟩

theorem offset_eq (low : d.base ≤ p) (high : p ≤ d.finish) : d.offset p = p - d.base := by
  have small := d.small
  rw [Doc.finish, Doc.size] at high
  rw [Doc.offset, Int.emod_eq_of_lt (by omega) (by omega)]
  omega

theorem has_cons {c : Byte} : Has d (c :: pat) p ↔ d.read p = some c ∧ Has d pat (p + 1) := by
  constructor
  · intro all
    refine ⟨all 0 (Nat.zero_lt_succ _), fun i less => ?_⟩
    have next := all (i + 1) (Nat.succ_lt_succ less)
    rwa [Nat.add_assoc, Nat.add_comm 1]
  · rintro ⟨first, rest⟩ i less
    cases i with
    | zero => exact first
    | succ i =>
      have next := rest i (Nat.lt_of_succ_lt_succ less)
      rwa [Nat.add_assoc, Nat.add_comm 1] at next

theorem Has.within (has : Has d pat p) (nonempty : pat ≠ []) : d.base ≤ p ∧ p + pat.length ≤ d.finish := by
  have length := List.length_pos_iff.mpr nonempty
  have first := read_bounds (has 0 length)
  have last := read_bounds (has (pat.length - 1) (by omega))
  omega

/-- The comparison tells if the characters are there, or the buffer ends before that is known. -/
theorem matchAt_spec (pat : List Byte) (low : d.base ≤ p) (high : p ≤ d.finish) :
    (∃ b, matchAt d pat p = some b ∧ (b = true ↔ Has d pat p)) ∨ matchAt d pat p = none ∧ d.finish < p + pat.length := by
  induction pat generalizing p with
  | nil => exact .inl ⟨true, rfl, iff_of_true rfl fun i less => by cases less⟩
  | cons c pat ih =>
    rw [matchAt, has_cons]
    by_cases inside : p < d.finish
    · obtain ⟨x, read⟩ := read_some low inside
      rw [read, Option.bind_some]
      by_cases same : x = c
      · rw [if_pos same]
        rcases ih (p := p + 1) (by omega) (by omega) with ⟨b, result, iff⟩ | ⟨result, past⟩
        · exact .inl ⟨b, result, iff.trans (and_iff_right (congrArg some same)).symm⟩
        · refine .inr ⟨result, ?_⟩
          rw [List.length_cons]
          omega
      · rw [if_neg same]
        exact .inl ⟨false, rfl, iff_of_false Bool.false_ne_true fun both => same (Option.some.inj both.1)⟩
    · have outside : d.read p = none := by
        cases read : d.read p with
        | none => rfl
        | some x => exact absurd (read_bounds read).2 inside
      rw [outside, Option.bind_none]
      refine .inr ⟨rfl, ?_⟩
      rw [List.length_cons]
      omega

theorem scanFor_sound {left : Nat} (low : d.base ≤ p) (high : p ≤ d.finish) (nonempty : pat ≠ [])
    (found : scanFor d pat left p = some q) : p ≤ q ∧ Has d pat q := by
  induction left generalizing p with
  | zero => cases found
  | succ left ih =>
    rw [scanFor] at found
    rcases matchAt_spec pat low high with ⟨b, result, iff⟩ | ⟨result, past⟩
    · rw [result, Option.bind_some] at found
      cases b with
      | true =>
        cases found
        exact ⟨le_rfl, iff.mp rfl⟩
      | false =>
        have inside : p < d.finish := by
          by_contra beyond
          cases left with
          | zero => cases found
          | succ left =>
            obtain ⟨c, rest, rfl⟩ := List.exists_cons_of_ne_nil nonempty
            rw [matchAt] at result
            cases read : d.read p with
            | none =>
              rw [read] at result
              cases result
            | some x => exact beyond (read_bounds read).2
        have rest := ih (p := p + 1) (by omega) (by omega) found
        exact ⟨by omega, rest.2⟩
    · rw [result] at found
      cases found

theorem scanFor_complete {left : Nat} (low : d.base ≤ p) (nonempty : pat ≠ []) (has : Has d pat q) (le : p ≤ q)
    (enough : q - p < left) : ∃ q', scanFor d pat left p = some q' ∧ q' ≤ q := by
  induction left generalizing p with
  | zero => omega
  | succ left ih =>
    have within := has.within nonempty
    have length := List.length_pos_iff.mpr nonempty
    rw [scanFor]
    rcases matchAt_spec pat low (by omega) with ⟨b, result, iff⟩ | ⟨-, past⟩
    · rw [result, Option.bind_some]
      cases b with
      | true => exact ⟨p, rfl, le⟩
      | false =>
        have other : p ≠ q := fun same => Bool.false_ne_true (iff.mpr (same ▸ has))
        exact ih (by omega) (by omega) (by omega)
    · omega

/-- A scan ends at the next place with the characters. -/
theorem scan_spec (low : d.base ≤ p) (high : p ≤ d.finish) (nonempty : pat ≠ []) :
    (∀ q, scan d pat p = some q → p ≤ q ∧ Has d pat q) ∧
      ∀ q, p ≤ q → Has d pat q → ∃ q', scan d pat p = some q' ∧ q' ≤ q := by
  refine ⟨fun q found => scanFor_sound low high nonempty found, fun q le has => scanFor_complete low nonempty has le ?_⟩
  have within := has.within nonempty
  have length := List.length_pos_iff.mpr nonempty
  rw [Doc.finish] at within
  omega

end Scan

/-! ## Packages -/

section Package
variable {d : Doc} {c : Byte} {p q : Nat} {tag : Tag}

theorem has_one : Has d [c] p ↔ d.read p = some c := by
  rw [has_cons]
  exact and_iff_left fun i less => by cases less

theorem parseQuestion_some (read : d.read p = some chQuestion) (parsed : parseQuestion d p = some (q, tag)) :
    (p ≤ q ∧ q < d.finish) ∧ TagIn d tag ∧ Ends d chQuestion p := by
  have bounds := read_bounds read
  rw [parseQuestion] at parsed
  obtain ⟨par, blank, parsed⟩ := Option.bind_eq_some_iff.mp parsed
  obtain ⟨q', closing, parsed⟩ := Option.bind_eq_some_iff.mp parsed
  cases parsed
  obtain ⟨le, hasBlank⟩ := (scan_spec (by omega) (by omega) (by simp)).1 _ blank
  have within := hasBlank.within (by simp)
  rw [List.length_singleton] at within
  obtain ⟨le', hasClosing⟩ := (scan_spec (by omega) (by omega) (by simp)).1 _ closing
  have within' : d.base ≤ q' ∧ q' + 2 ≤ d.finish := hasClosing.within (by simp)
  have name : RangeIn d (some (p + 1)) (par - (p + 1)) := ⟨by omega, by omega⟩
  have content : RangeIn d (some par) (q' - par) := ⟨by omega, by omega⟩
  refine ⟨⟨by omega, by omega⟩, ⟨name, content, content⟩,
    ⟨fun _ => ⟨par, q', le, le', has_one.mp hasBlank, hasClosing⟩, ?_, ?_⟩⟩
  · exact fun same => absurd same (by decide)
  · exact fun same => absurd same (by decide)

theorem parseQuestion_of_ends (read : d.read p = some chQuestion) (ends : Ends d chQuestion p) :
    ∃ q tag, parseQuestion d p = some (q, tag) := by
  have bounds := read_bounds read
  obtain ⟨j, k, lt, lt', blank, closing⟩ := ends.question rfl
  obtain ⟨par, found, le⟩ := (scan_spec (d := d) (p := p + 1) (by omega) (by omega) (by simp)).2 j lt (has_one.mpr blank)
  have par' := ((scan_spec (by omega) (by omega) (by simp)).1 _ found).1
  have within : d.base ≤ k ∧ k + 2 ≤ d.finish := closing.within (by simp)
  obtain ⟨q', found', -⟩ := (scan_spec (d := d) (p := par + 1) (by omega) (by omega) (by simp)).2 k (by omega) closing
  exact ⟨_, _, by rw [parseQuestion, found, Option.bind_some, found']; rfl⟩

theorem parseBang_some (read : d.read p = some chBang) (parsed : parseBang d p = some (q, tag)) :
    (p ≤ q ∧ q < d.finish) ∧ (TagIn d tag ↔ Ends d chBang p) := by
  have bounds := read_bounds read
  rw [parseBang] at parsed
  rcases matchAt_spec [chBang, chDash, chDash] bounds.1 (by omega) with ⟨b, result, iff⟩ | ⟨result, -⟩
  · rw [result, Option.bind_some] at parsed
    cases b with
    | true =>
      obtain ⟨q', closing, parsed⟩ := Option.bind_eq_some_iff.mp parsed
      cases parsed
      obtain ⟨le, has⟩ := (scan_spec (by omega) (by omega) (by simp)).1 _ closing
      have within : d.base ≤ q' ∧ q' + 3 ≤ d.finish := has.within (by simp)
      have content : RangeIn d (some (p + 1)) (q' + 2 - p - 1) := ⟨by omega, by omega⟩
      refine ⟨⟨by omega, by omega⟩, iff_of_true ⟨rfl, content, rfl⟩ ⟨?_, fun _ _ => ⟨q', le, has⟩, ?_⟩⟩
      · exact fun same => absurd same (by decide)
      · exact fun _ none => absurd (iff.mp rfl) none
    | false =>
      have notComment : ¬ Has d [chBang, chDash, chDash] p := fun has => Bool.false_ne_true (iff.mpr has)
      obtain ⟨q', closing, parsed⟩ := Option.bind_eq_some_iff.mp parsed
      cases parsed
      obtain ⟨sound, complete⟩ := scan_spec (d := d) (p := p) (by omega) (by omega) (List.cons_ne_nil chGt [])
      obtain ⟨le, has⟩ := sound _ closing
      have close := has_one.mp has
      have other : q ≠ p := by
        rintro rfl
        rw [read] at close
        exact absurd (Option.some.inj close) (by decide)
      refine ⟨⟨le, (read_bounds close).2⟩, ?_⟩
      constructor
      · intro inside
        have none : q - p - 1 = 0 := inside.par
        have next : q = p + 1 := by omega
        refine ⟨fun same => absurd same (by decide), fun _ has => absurd has notComment, fun _ _ => next ▸ close⟩
      · intro ends
        obtain ⟨q', found, le'⟩ := complete (p + 1) (by omega) (has_one.mpr (ends.bang rfl notComment))
        rw [closing] at found
        cases found
        have none : q - p - 1 = 0 := by omega
        exact ⟨rfl, rfl, none⟩
  · rw [result] at parsed
    cases parsed

theorem parseBang_of_ends (read : d.read p = some chBang) (ends : Ends d chBang p) :
    ∃ q tag, parseBang d p = some (q, tag) := by
  have bounds := read_bounds read
  by_cases comment : Has d [chBang, chDash, chDash] p
  · have within : d.base ≤ p ∧ p + 3 ≤ d.finish := comment.within (by simp)
    obtain ⟨k, lt, has⟩ := ends.comment rfl comment
    obtain ⟨q', found, -⟩ := (scan_spec (d := d) (p := p + 1) (by omega) (by omega) (by simp)).2 k lt has
    rcases matchAt_spec [chBang, chDash, chDash] bounds.1 (by omega) with ⟨b, result, iff⟩ | ⟨-, past⟩
    · rw [iff.mpr comment] at result
      exact ⟨_, _, by rw [parseBang, result, Option.bind_some, if_pos rfl, found]; rfl⟩
    · have three : [chBang, chDash, chDash].length = 3 := rfl
      omega
  · have close := ends.bang rfl comment
    have result : matchAt d [chBang, chDash, chDash] p = some false := by
      rw [matchAt, read, Option.bind_some, if_pos rfl, matchAt, close, Option.bind_some, if_neg (by decide)]
    obtain ⟨q', found, -⟩ :=
      (scan_spec (d := d) (p := p) (by omega) (by omega) (by simp)).2 (p + 1) (by omega) (has_one.mpr close)
    exact ⟨_, _, by rw [parseBang, result, Option.bind_some, if_neg Bool.false_ne_true, found]; rfl⟩

/-- A package is parsed inside the buffer, and its tag has its ranges there, exactly if it ends. -/
theorem parsePackage_some (kind : c = chQuestion ∨ c = chBang) (read : d.read p = some c)
    (parsed : parsePackage d c p = some (q, tag)) : (p ≤ q ∧ q < d.finish) ∧ (TagIn d tag ↔ Ends d c p) := by
  rcases kind with rfl | rfl
  · rw [parsePackage, if_pos rfl] at parsed
    obtain ⟨bounds, inside, ends⟩ := parseQuestion_some read parsed
    exact ⟨bounds, iff_of_true inside ends⟩
  · rw [parsePackage, if_neg (by decide)] at parsed
    exact parseBang_some read parsed

theorem parsePackage_of_ends (kind : c = chQuestion ∨ c = chBang) (read : d.read p = some c) (ends : Ends d c p) :
    ∃ q tag, parsePackage d c p = some (q, tag) := by
  rcases kind with rfl | rfl
  · rw [parsePackage, if_pos rfl]
    exact parseQuestion_of_ends read ends
  · rw [parsePackage, if_neg (by decide)]
    exact parseBang_of_ends read ends

end Package

/-! ## Rounds of the loop -/

section Rounds
variable (d : Doc)

/-- A range of the buffer before `p`, or none. -/
def Before (ptr : Option Nat) (sz p : Nat) : Prop :=
  match ptr with
  | none => sz = 0
  | some a => d.base ≤ a ∧ a + sz ≤ p

/-- A range of the buffer before `p`, if it has a place. -/
def Content (ptr : Option Nat) (sz p : Nat) : Prop := ∀ a, ptr = some a → d.base ≤ a ∧ a + sz ≤ p

/-- What holds of a call: it is in the buffer, behind its first byte if it has seen a `<` or `>`, and so are its ranges
before it. -/
structure FrameOk (f : Frame) : Prop where
  low : d.base ≤ f.p
  high : f.p ≤ d.finish
  behind : f.fBo = true ∨ f.fTo = true → d.base < f.p
  name : Before d f.t.pName f.t.szName f.p
  par : Before d f.t.pPar f.t.szPar f.p
  content : Content d f.t.pContent f.t.szContent f.p
  tn : f.fTn = true → f.t.pName ≠ none
  tp : f.fTp = true → f.t.pPar ≠ none

/-- What a round does to the call. -/
def TurnGood (f : Frame) : Turn → Prop
  | .next f' _ => FrameOk d f' ∧ f.p < f'.p
  | .call f' => FrameOk d f' ∧ f'.p = f.p ∧ f'.fTo = true ∧ f.fTo = true
  | .ret q _ => f.p ≤ q ∧ q < d.finish

def Turn.added : Turn → List Tag
  | .next _ added => added
  | .call _ => []
  | .ret _ added => added

end Rounds

section RoundLemmas
variable {d : Doc} {f : Frame} {c : Byte} {ptr : Option Nat} {sz p p' : Nat} {r : Turn} {caller : Bool}

theorem Before.mono (before : Before d ptr sz p) (le : p ≤ p') : Before d ptr sz p' := by
  cases ptr with
  | none => exact before
  | some a => exact ⟨before.1, before.2.trans le⟩

/-- One more character, if it counts. -/
theorem Before.more (before : Before d ptr sz p) {flag : Bool} (place : flag = true → ptr ≠ none) :
    Before d ptr (sz + flag.toNat) (p + 1) := by
  cases ptr with
  | none =>
    have off : flag = false := Bool.eq_false_iff.mpr fun on => place on rfl
    rw [off]
    exact before
  | some a =>
    have one := flag.toNat_le
    exact ⟨before.1, by have := before.2; omega⟩

theorem Content.mono (content : Content d ptr sz p) (le : p ≤ p') : Content d ptr sz p' := fun a place =>
  ⟨(content a place).1, (content a place).2.trans le⟩

theorem Content.add (content : Content d ptr sz p) {n : Nat} (le : p + n ≤ p') : Content d ptr (sz + n) p' := fun a place =>
  ⟨(content a place).1, by have := (content a place).2; omega⟩

theorem Content.more (content : Content d ptr sz p) (flag : Bool) : Content d ptr (sz + flag.toNat) (p + 1) :=
  content.add (by have := flag.toNat_le; omega)

theorem Before.rangeIn (before : Before d ptr sz p) (high : p ≤ d.finish) : RangeIn d ptr sz := by
  cases ptr with
  | none => exact before
  | some a => exact ⟨before.1, before.2.trans high⟩

/-- A round that goes on at the next character. -/
theorem FrameOk.advance (ok : FrameOk d f) (high : f.p < d.finish) {f' : Frame} {added : List Tag} (next : f'.p = f.p + 1)
    (name : Before d f'.t.pName f'.t.szName (f.p + 1)) (par : Before d f'.t.pPar f'.t.szPar (f.p + 1))
    (content : Content d f'.t.pContent f'.t.szContent (f.p + 1)) (tn : f'.fTn = true → f'.t.pName ≠ none)
    (tp : f'.fTp = true → f'.t.pPar ≠ none) : TurnGood d f (.next f' added) := by
  have low := ok.low
  rw [← next] at name par content
  exact ⟨⟨by omega, by omega, fun _ => by omega, name, par, content, tn, tp⟩, by omega⟩

theorem turnLt_some (ok : FrameOk d f) (high : f.p < d.finish) (done : turnLt d f = some r) :
    (d.read (f.p + 1)).isSome ∧ TurnGood d f r ∧ r.added = [] := by
  rw [turnLt] at done
  obtain ⟨n, next, done⟩ := Option.bind_eq_some_iff.mp done
  refine ⟨by rw [next]; rfl, ?_⟩
  have low := ok.low
  have name : Before d (some (f.p + 1)) 0 (f.p + 1) := ⟨by omega, le_rfl⟩
  dsimp only at done
  split_ifs at done with slash inner
  · cases done
    refine ⟨⟨⟨ok.low, ok.high, fun _ => ok.behind (.inr inner), ok.name, ok.par, ok.content, ok.tn, ?_⟩, rfl, inner,
      inner⟩, rfl⟩
    exact fun on => by cases on
  · cases done
    exact ⟨ok.advance high rfl name (ok.par.mono (Nat.le_succ _)) (ok.content.mono (Nat.le_succ _))
      (fun _ => Option.some_ne_none _) (fun on => by cases on), rfl⟩
  · cases done
    exact ⟨ok.advance high rfl (ok.name.mono (Nat.le_succ _)) (ok.par.mono (Nat.le_succ _))
      (ok.content.mono (Nat.le_succ _)) ok.tn (fun on => by cases on), rfl⟩

theorem turnLt_of_read (next : (d.read (f.p + 1)).isSome) : ∃ r, turnLt d f = some r := by
  obtain ⟨n, next⟩ := Option.isSome_iff_exists.mp next
  rw [turnLt, next, Option.bind_some]
  dsimp only
  split_ifs <;> exact ⟨_, rfl⟩

theorem turnGt_some (ok : FrameOk d f) (high : f.p < d.finish) (done : turnGt f = some r) :
    TurnGood d f r ∧ ((∀ t ∈ r.added, TagIn d t) ↔ (f.fTc = true → f.t.pContent = none → f.t.szContent = 0)) := by
  rw [turnGt] at done
  dsimp only at done
  have low := ok.low
  split_ifs at done with closing
  · cases done
    refine ⟨⟨le_rfl, high⟩, ?_⟩
    rw [Turn.added, List.forall_mem_singleton]
    constructor
    · intro inside _ none
      have content := inside.content
      rw [none] at content
      exact content
    · intro empty
      refine ⟨ok.name.rangeIn ok.high, ?_, ok.par.rangeIn ok.high⟩
      cases place : f.t.pContent with
      | none => exact empty closing place
      | some a => exact ⟨(ok.content a place).1, (ok.content a place).2.trans ok.high⟩
  · cases done
    have content : Content d (some (f.p + 1)) 0 (f.p + 1) := by
      rintro a place
      cases place
      exact ⟨by omega, le_rfl⟩
    refine ⟨ok.advance high rfl (ok.name.mono (Nat.le_succ _)) (ok.par.mono (Nat.le_succ _)) content
      (fun on => by cases on) (fun on => by cases on), ?_⟩
    exact iff_of_true (fun t mem => by cases mem) fun on => absurd on closing

theorem turnSlash_some (ok : FrameOk d f) (high : f.p < d.finish) (done : turnSlash d f = some r) :
    (f.fBo = true → (d.read (f.p + 1)).isSome) ∧ TurnGood d f r ∧ r.added = [] := by
  rw [turnSlash] at done
  obtain ⟨closing, close, done⟩ := Option.map_eq_some_iff.mp done
  refine ⟨fun inTag => ?_, ?_⟩
  · rw [if_pos inTag, closes] at close
    obtain ⟨n, next, -⟩ := Option.bind_eq_some_iff.mp close
    rw [next]
    rfl
  · subst done
    cases closing with
    | true =>
      refine ⟨ok.advance high rfl (ok.name.mono (Nat.le_succ _)) ?_ (ok.content.mono (Nat.le_succ _))
        (fun on => by cases on) (fun on => by cases on), rfl⟩
      exact ok.par.more fun on : (f.fBo && false) = true => by simp at on
    | false =>
      refine ⟨ok.advance high rfl (ok.name.mono (Nat.le_succ _)) ?_ (ok.content.more f.fTo) ok.tn ok.tp, rfl⟩
      exact ok.par.more fun on => ok.tp (Bool.and_eq_true_iff.mp on).2

theorem turnSlash_of_read (ok : FrameOk d f) (next : f.fBo = true → (d.read (f.p + 1)).isSome) :
    ∃ r, turnSlash d f = some r := by
  have close : ∃ closing, (if f.fBo then closes d f.p else some false) = some closing := by
    by_cases inTag : f.fBo = true
    · obtain ⟨n, next⟩ := Option.isSome_iff_exists.mp (next inTag)
      have behind := ok.behind (.inl inTag)
      have high := ok.high
      obtain ⟨b, previous⟩ := read_some (d := d) (p := f.p - 1) (by omega) (by omega)
      rw [if_pos inTag, closes, next, Option.bind_some, previous]
      split_ifs <;> exact ⟨_, rfl⟩
    · rw [if_neg inTag]
      exact ⟨false, rfl⟩
  obtain ⟨closing, close⟩ := close
  exact ⟨_, by rw [turnSlash, close]; rfl⟩

theorem turnSpace_good (ok : FrameOk d f) (high : f.p < d.finish) :
    TurnGood d f (turnSpace f) ∧ (turnSpace f).added = [] := by
  have low := ok.low
  have par : Before d (some (f.p + 1)) 0 (f.p + 1) := ⟨by omega, le_rfl⟩
  rw [turnSpace]
  dsimp only
  split_ifs with inTag name
  · exact ⟨ok.advance high rfl (ok.name.mono (Nat.le_succ _)) par (ok.content.mono (Nat.le_succ _))
      (fun on => by cases on) fun _ => Option.some_ne_none _, rfl⟩
  · exact ⟨ok.advance high rfl (ok.name.mono (Nat.le_succ _)) (ok.par.more ok.tp) (ok.content.mono (Nat.le_succ _))
      ok.tn ok.tp, rfl⟩
  · exact ⟨ok.advance high rfl (ok.name.mono (Nat.le_succ _)) (ok.par.mono (Nat.le_succ _)) (ok.content.more f.fTo)
      ok.tn ok.tp, rfl⟩

theorem turnOther_good (ok : FrameOk d f) (high : f.p < d.finish) : TurnGood d f (turnOther f) ∧ (turnOther f).added = [] :=
  ⟨ok.advance high rfl (ok.name.more ok.tn) (ok.par.more ok.tp) (ok.content.more f.fTo) ok.tn ok.tp, rfl⟩

theorem turnPackage_some (ok : FrameOk d f) (high : f.p < d.finish) (kind : c = chQuestion ∨ c = chBang)
    (read : d.read f.p = some c) (done : turnPackage d caller c f = some r) :
    TurnGood d f r ∧ ((∀ t ∈ r.added, TagIn d t) ↔ (f.fBo = true → d.read (f.p - 1) = some chLt → Ends d c f.p)) := by
  rw [turnPackage] at done
  obtain ⟨opens, opening, done⟩ := Option.bind_eq_some_iff.mp done
  cases opens with
  | true =>
    rw [if_pos rfl] at done
    have place : f.fBo = true ∧ d.read (f.p - 1) = some chLt := by
      by_cases inTag : f.fBo = true
      · rw [if_pos inTag] at opening
        obtain ⟨b, previous, same⟩ := Option.map_eq_some_iff.mp opening
        rw [decide_eq_true_iff.mp same] at previous
        exact ⟨inTag, previous⟩
      · rw [if_neg inTag] at opening
        cases opening
    obtain ⟨⟨q, tag⟩, parsed, done⟩ := Option.map_eq_some_iff.mp done
    obtain ⟨⟨le, lt⟩, inside⟩ := parsePackage_some kind read parsed
    dsimp only at done
    have tags : (∀ t ∈ [tag], TagIn d t) ↔ (f.fBo = true → d.read (f.p - 1) = some chLt → Ends d c f.p) := by
      rw [List.forall_mem_singleton, inside]
      exact ⟨fun ends _ _ => ends, fun ends => ends place.1 place.2⟩
    split_ifs at done
    · subst done
      exact ⟨⟨le, lt⟩, tags⟩
    · subst done
      have low := ok.low
      refine ⟨⟨⟨?_, lt, fun _ => ?_, ok.name.mono ?_, ok.par.mono ?_, ok.content.add ?_, ok.tn, ok.tp⟩, ?_⟩, tags⟩ <;>
        dsimp only <;> omega
  | false =>
    rw [if_neg Bool.false_ne_true] at done
    cases done
    refine ⟨ok.advance high rfl (ok.name.mono (Nat.le_succ _)) (ok.par.mono (Nat.le_succ _))
      (ok.content.mono (Nat.le_succ _)) ok.tn ok.tp, ?_⟩
    refine iff_of_true (fun t mem => by cases mem) fun inTag previous => ?_
    rw [if_pos inTag, previous] at opening
    exact absurd (Option.some.inj opening) (by decide)

theorem turnPackage_of_ends (ok : FrameOk d f) (kind : c = chQuestion ∨ c = chBang) (read : d.read f.p = some c)
    (ends : f.fBo = true → d.read (f.p - 1) = some chLt → Ends d c f.p) : ∃ r, turnPackage d caller c f = some r := by
  rw [turnPackage]
  by_cases inTag : f.fBo = true
  · have behind := ok.behind (.inl inTag)
    have high := ok.high
    obtain ⟨b, previous⟩ := read_some (d := d) (p := f.p - 1) (by omega) (by omega)
    rw [if_pos inTag, previous, Option.map_some, Option.bind_some]
    by_cases opening : b = chLt
    · obtain ⟨q, tag, parsed⟩ := parsePackage_of_ends kind read (ends inTag (opening ▸ previous))
      rw [if_pos (decide_eq_true opening), parsed]
      exact ⟨_, rfl⟩
    · rw [if_neg (by simpa using opening)]
      exact ⟨_, rfl⟩
  · rw [if_neg inTag, Option.bind_some, if_neg Bool.false_ne_true]
    exact ⟨_, rfl⟩

/-- The condition at each kind of character. -/
theorem turnOk_lt : TurnOk d chLt f ↔ (d.read (f.p + 1)).isSome :=
  ⟨fun ok => ok.lt rfl, fun next => ⟨fun _ => next, fun same => absurd same (by decide), fun same => absurd same (by decide),
    fun kind => absurd kind (by decide)⟩⟩

theorem turnOk_gt : TurnOk d chGt f ↔ (f.fTc = true → f.t.pContent = none → f.t.szContent = 0) :=
  ⟨fun ok => ok.gt rfl, fun empty => ⟨fun same => absurd same (by decide), fun same => absurd same (by decide),
    fun _ => empty, fun kind => absurd kind (by decide)⟩⟩

theorem turnOk_slash : TurnOk d chSlash f ↔ (f.fBo = true → (d.read (f.p + 1)).isSome) :=
  ⟨fun ok => ok.slash rfl, fun next => ⟨fun same => absurd same (by decide), fun _ => next,
    fun same => absurd same (by decide), fun kind => absurd kind (by decide)⟩⟩

theorem turnOk_package (kind : c = chQuestion ∨ c = chBang) :
    TurnOk d c f ↔ (f.fBo = true → d.read (f.p - 1) = some chLt → Ends d c f.p) := by
  refine ⟨fun ok => ok.package kind, fun ends => ⟨?_, ?_, ?_, fun _ => ends⟩⟩ <;> rcases kind with rfl | rfl <;>
    exact fun same => absurd same (by decide)

theorem turnOk_other (lt : c ≠ chLt) (gt : c ≠ chGt) (slash : c ≠ chSlash) (package : ¬ (c = chQuestion ∨ c = chBang)) :
    TurnOk d c f :=
  ⟨fun same => absurd same lt, fun same => absurd same slash, fun same => absurd same gt, fun kind => absurd kind package⟩

/-- A round that reads only bytes of the buffer keeps the call as it should be, and the tags that it adds have their ranges
in the buffer exactly if it meets the condition. -/
theorem turn_some (ok : FrameOk d f) (read : d.read f.p = some c) (done : turn d caller f = some r) :
    TurnGood d f r ∧ ((∀ t ∈ r.added, TagIn d t) ↔ TurnOk d c f) := by
  have high := (read_bounds read).2
  have nothing (added : r.added = []) : ∀ t ∈ r.added, TagIn d t := fun t mem => by rw [added] at mem; cases mem
  rw [turn, read, Option.bind_some] at done
  split_ifs at done with lt gt slash space package
  · obtain ⟨next, good, added⟩ := turnLt_some ok high done
    exact ⟨good, iff_of_true (nothing added) (lt ▸ turnOk_lt.mpr next)⟩
  · obtain ⟨good, tags⟩ := turnGt_some ok high done
    exact ⟨good, tags.trans (gt ▸ turnOk_gt.symm)⟩
  · obtain ⟨next, good, added⟩ := turnSlash_some ok high done
    exact ⟨good, iff_of_true (nothing added) (slash ▸ turnOk_slash.mpr next)⟩
  · cases done
    obtain ⟨good, added⟩ := turnSpace_good ok high
    exact ⟨good, iff_of_true (nothing added) (turnOk_other lt gt slash (by rw [space]; decide))⟩
  · obtain ⟨good, tags⟩ := turnPackage_some ok high package read done
    exact ⟨good, tags.trans (turnOk_package package).symm⟩
  · cases done
    obtain ⟨good, added⟩ := turnOther_good ok high
    exact ⟨good, iff_of_true (nothing added) (turnOk_other lt gt slash package)⟩

/-- A round that meets the condition reads only bytes of the buffer. -/
theorem turn_of_ok (caller : Bool) (ok : FrameOk d f) (read : d.read f.p = some c) (turnOk : TurnOk d c f) :
    ∃ r, turn d caller f = some r := by
  rw [turn, read, Option.bind_some]
  split_ifs with lt gt slash space package
  · exact turnLt_of_read (turnOk.lt lt)
  · rw [turnGt]
    dsimp only
    split_ifs <;> exact ⟨_, rfl⟩
  · exact turnSlash_of_read ok (turnOk.slash slash)
  · exact ⟨_, rfl⟩
  · exact turnPackage_of_ends ok package read (turnOk.package package)
  · exact ⟨_, rfl⟩

end RoundLemmas

/-! ## Steps -/

section Steps
variable (d : Doc)

/-- The calls of a parser: the last one and its callers are as they should be, and the callers have seen a `>` and are not
ahead of it; or the last one is at the end, and only returns are left. -/
def FramesOk : List Frame → Prop
  | [] => True
  | f :: callers =>
    FrameOk d f ∧ (∀ g ∈ callers, FrameOk d g ∧ g.p ≤ f.p ∧ g.fTo = true) ∨ d.size ≤ d.offset f.p

structure ParserOk (s : Parser) : Prop where
  frames : FramesOk d s.frames
  added : ∀ t ∈ s.added, TagIn d t

/-- It gets smaller with every step: by what is left of the buffer, then by a call that is made where a tag was opened, and
at the end of the buffer by the calls that return. -/
def rank : List Frame → Nat
  | [] => 0
  | f :: callers =>
    if d.offset f.p < d.size then 4 * (d.finish - f.p) + 2 * f.fTo.toNat + (callers.length + 1) else callers.length + 1

end Steps

section StepLemmas
variable {d : Doc} {s : Parser} {f : Frame} {callers : List Frame} {q : Nat}

theorem rank_le (f : Frame) (callers : List Frame) :
    rank d (f :: callers) ≤ 4 * (d.finish - f.p) + 2 * f.fTo.toNat + (callers.length + 1) := by
  rw [rank]
  split_ifs <;> omega

/-- The rank behind a byte that was read. -/
theorem rank_lt {g : Frame} {rest : List Frame} {n p : Nat} (ahead : p < g.p) (high : p < d.finish)
    (fewer : rest.length ≤ n) :
    rank d (g :: rest) < 4 * (d.finish - p) + (n + 1) := by
  have flag := g.fTo.toNat_le
  by_cases inside : g.p < d.finish
  · have le := rank_le (d := d) g rest
    omega
  · have le := rank_le (d := d) g rest
    have left : d.finish - g.p = 0 := by omega
    rw [left] at le
    omega

theorem start_ok (low : d.base ≤ q) (high : q ≤ d.finish) : FrameOk d (Frame.start q) where
  low := low
  high := high
  behind := fun on => by rcases on with on | on <;> cases on
  name := rfl
  par := rfl
  content := fun a place => by cases place
  tn := fun on => by cases on
  tp := fun on => by cases on

/-- The calls after a call has returned at `q`. -/
theorem resume_ok (ahead : ∀ g ∈ callers, FrameOk d g ∧ g.p ≤ q ∧ g.fTo = true) (high : q < d.finish) :
    FramesOk d (resume q callers) := by
  cases callers with
  | nil => trivial
  | cons g rest =>
    obtain ⟨ok, le, opened⟩ := ahead g (.head _)
    have low := ok.low
    refine .inl ⟨⟨?_, high, fun _ => ?_, ok.name.mono ?_, ok.par.mono ?_, ok.content.add ?_, ok.tn, ok.tp⟩, fun g' mem => ?_⟩
    · dsimp only
      omega
    · dsimp only
      omega
    · dsimp only
      omega
    · dsimp only
      omega
    · dsimp only
      omega
    · obtain ⟨ok', le', opened'⟩ := ahead g' (.tail _ mem)
      exact ⟨ok', le'.trans (Nat.le_succ _), opened'⟩

theorem rank_resume {n p : Nat} (le : p ≤ q) (high : q < d.finish) (fewer : callers.length ≤ n) :
    rank d (resume q callers) < 4 * (d.finish - p) + (n + 1) := by
  cases callers with
  | nil =>
    rw [resume, rank]
    omega
  | cons g rest =>
    rw [List.length_cons] at fewer
    exact rank_lt (show p < q + 1 by omega) (by omega) (by omega)

/-- What a step that has read only bytes of the buffer does, where its tags have their ranges there. -/
theorem step_good {caller : Bool} {r : Turn} {c : Byte} (frames : s.frames = f :: callers) (ok : FrameOk d f)
    (ahead : ∀ g ∈ callers, FrameOk d g ∧ g.p ≤ f.p ∧ g.fTo = true) (inside : d.offset f.p < d.size)
    (read : d.read f.p = some c) (done : turn d caller f = some r) (same : caller = callerTo callers) :
    ∃ s', step d s = some s' ∧ s'.added = s.added ++ r.added ∧ FramesOk d s'.frames ∧
      rank d s'.frames < rank d s.frames := by
  have high := (read_bounds read).2
  obtain ⟨good, -⟩ := turn_some ok read done
  have before : rank d s.frames = 4 * (d.finish - f.p) + 2 * f.fTo.toNat + (callers.length + 1) := by
    rw [frames, rank, if_pos inside]
  rw [same] at done
  have stepped : step d s = some (s.turned callers r) := by
    rw [step, frames]
    dsimp only
    rw [if_pos inside, done, Option.map_some]
  refine ⟨_, stepped, ?_⟩
  rw [before]
  cases r with
  | next f' added =>
    obtain ⟨ok', less⟩ := good
    refine ⟨rfl, .inl ⟨ok', fun g mem => ?_⟩, ?_⟩
    · obtain ⟨okG, le, opened⟩ := ahead g mem
      exact ⟨okG, le.trans less.le, opened⟩
    · have smaller : rank d (s.turned callers (.next f' added)).frames < 4 * (d.finish - f.p) + (callers.length + 1) :=
        rank_lt less high le_rfl
      omega
  | call f' =>
    obtain ⟨ok', at', opened', opened⟩ := good
    refine ⟨(List.append_nil s.added).symm, .inl ⟨start_ok ok'.low ok'.high, fun g mem => ?_⟩, ?_⟩
    · rcases List.mem_cons.mp mem with rfl | later
      · exact ⟨ok', le_rfl, opened'⟩
      · obtain ⟨okG, le, openedG⟩ := ahead g later
        exact ⟨okG, le.trans at'.ge, openedG⟩
    · have le := rank_le (d := d) (Frame.start f'.p) (f' :: callers)
      rw [opened, Parser.turned]
      dsimp only
      have place : (Frame.start f'.p).p = f.p := at'
      have closed : (Frame.start f'.p).fTo.toNat = 0 := rfl
      rw [place, closed, List.length_cons] at le
      have one : true.toNat = 1 := rfl
      omega
  | ret q added =>
    refine ⟨rfl, resume_ok (fun g mem => ?_) good.2, ?_⟩
    · obtain ⟨okG, le, opened⟩ := ahead g mem
      exact ⟨okG, le.trans good.1, opened⟩
    · have smaller : rank d (s.turned callers (.ret q added)).frames < 4 * (d.finish - f.p) + (callers.length + 1) :=
        rank_resume good.1 good.2 le_rfl
      omega

/-- The call at the end of the buffer returns null. -/
theorem step_end (frames : s.frames = f :: callers) (beyond : ¬ d.offset f.p < d.size) :
    step d s = some { frames := resumeNull callers, added := s.added } := by
  rw [step, frames]
  dsimp only
  rw [if_neg beyond]

/-- A step that meets the condition is done, and there are fewer left. -/
theorem step_of_ok (ok : ParserOk d s) (running : s.frames ≠ []) (stepOk : StepOk d s) :
    ∃ s', step d s = some s' ∧ ParserOk d s' ∧ rank d s'.frames < rank d s.frames := by
  obtain ⟨f, callers, frames⟩ := List.exists_cons_of_ne_nil running
  have framesOk := ok.frames
  rw [StepOk, frames] at stepOk
  rw [frames, FramesOk] at framesOk
  dsimp only at stepOk
  by_cases inside : d.offset f.p < d.size
  · rw [if_pos inside] at stepOk
    obtain ⟨okF, ahead⟩ := framesOk.resolve_right (by omega)
    have low := okF.low
    have high : f.p < d.finish := by
      rw [offset_eq okF.low okF.high] at inside
      rw [Doc.finish]
      omega
    obtain ⟨c, read⟩ := read_some okF.low high
    obtain ⟨r, done⟩ := turn_of_ok (callerTo callers) okF read (stepOk c read)
    obtain ⟨s', stepped, added, good, less⟩ := step_good frames okF ahead inside read done rfl
    have tags := (turn_some okF read done).2.mpr (stepOk c read)
    refine ⟨s', stepped, ⟨good, fun t mem => ?_⟩, less⟩
    rw [added] at mem
    exact (List.mem_append.mp mem).elim (ok.added t) (tags t)
  · rw [if_neg inside] at stepOk
    refine ⟨_, step_end frames inside, ⟨?_, ok.added⟩, ?_⟩
    · cases callers with
      | nil => trivial
      | cons g rest => exact .inr (stepOk (List.cons_ne_nil g rest))
    · rw [frames, rank, if_neg inside]
      cases callers with
      | nil => exact Nat.zero_lt_succ _
      | cons g rest =>
        have next : ¬ d.offset 1 < d.size := Nat.not_lt.mpr (stepOk (List.cons_ne_nil g rest))
        rw [resumeNull, rank, if_neg next, List.length_cons]
        omega

/-- It comes to an end. -/
theorem halts_of_ok {n : Nat} (ok : ParserOk d s) (bound : rank d s.frames ≤ n)
    (each : ∀ k t, run d k s = some t → StepOk d t) :
    ∃ k t, run d k s = some t ∧ t.frames = [] ∧ ∀ t' ∈ t.added, TagIn d t' := by
  induction n generalizing s with
  | zero =>
    refine ⟨0, s, rfl, ?_, ok.added⟩
    cases frames : s.frames with
    | nil => rfl
    | cons f callers =>
      rw [frames, rank] at bound
      split_ifs at bound <;> omega
  | succ n ih =>
    by_cases running : s.frames = []
    · exact ⟨0, s, rfl, running, ok.added⟩
    · obtain ⟨s', stepped, ok', less⟩ := step_of_ok ok running (each 0 s rfl)
      obtain ⟨k, t, done, ended, tags⟩ := ih ok' (by omega) fun k t done => each (k + 1) t (by
        rw [run, stepped]
        exact done)
      exact ⟨k + 1, t, by rw [run, stepped]; exact done, ended, tags⟩

/-! ## Runs -/

/-- It ends in a state in which every tag has its ranges in the buffer. -/
def Halts (d : Doc) (s : Parser) : Prop := ∃ n t, run d n s = some t ∧ t.frames = [] ∧ ∀ t' ∈ t.added, TagIn d t'

theorem Halts.step (halts : Halts d s) (running : s.frames ≠ []) :
    ∃ s', XmlParse.step d s = some s' ∧ Halts d s' := by
  obtain ⟨n, t, done, ended, tags⟩ := halts
  cases n with
  | zero =>
    cases done
    exact absurd ended running
  | succ n =>
    rw [run] at done
    obtain ⟨s', stepped, rest⟩ := Option.bind_eq_some_iff.mp done
    exact ⟨s', stepped, n, t, rest, ended, tags⟩

/-- A tag stays where it was added. -/
theorem step_added {s' : Parser} (stepped : step d s = some s') : s.added ⊆ s'.added := by
  cases frames : s.frames with
  | nil =>
    rw [step, frames] at stepped
    cases stepped
    exact fun t mem => mem
  | cons f callers =>
    rw [step, frames] at stepped
    dsimp only at stepped
    split_ifs at stepped
    · obtain ⟨r, -, done⟩ := Option.map_eq_some_iff.mp stepped
      subst done
      cases r with
      | next f added => exact List.subset_append_left _ _
      | call f => exact fun t mem => mem
      | ret q added => exact List.subset_append_left _ _
    · cases stepped
      exact fun t mem => mem

theorem Halts.added (halts : Halts d s) : ∀ t ∈ s.added, TagIn d t := by
  obtain ⟨n, e, done, -, tags⟩ := halts
  induction n generalizing s with
  | zero =>
    cases done
    exact tags
  | succ n ih =>
    rw [run] at done
    obtain ⟨s', stepped, rest⟩ := Option.bind_eq_some_iff.mp done
    exact fun t mem => ih rest t (step_added stepped mem)

theorem read_one (base : 2 ≤ d.base) : d.read 1 = none := by
  rw [Doc.read, if_neg (by omega)]

/-- A step of a parser that ends well meets the condition. -/
theorem stepOk_of_halts (base : 2 ≤ d.base) (ok : ParserOk d s) (halts : Halts d s) : StepOk d s := by
  rw [StepOk]
  cases frames : s.frames with
  | nil => trivial
  | cons f callers =>
    have framesOk := ok.frames
    rw [frames, FramesOk] at framesOk
    have running : s.frames ≠ [] := by rw [frames]; exact List.cons_ne_nil _ _
    obtain ⟨s', stepped, halts'⟩ := halts.step running
    dsimp only
    split_ifs with inside
    · intro c read
      obtain ⟨okF, ahead⟩ := framesOk.resolve_right (by omega)
      obtain ⟨r, done⟩ : ∃ r, turn d (callerTo callers) f = some r := by
        rw [step, frames] at stepped
        dsimp only at stepped
        rw [if_pos inside] at stepped
        obtain ⟨r, done, -⟩ := Option.map_eq_some_iff.mp stepped
        exact ⟨r, done⟩
      obtain ⟨s'', stepped', added, -⟩ := step_good frames okF ahead inside read done rfl
      rw [stepped] at stepped'
      cases stepped'
      refine (turn_some okF read done).2.mp fun t mem => halts'.added t ?_
      rw [added]
      exact List.mem_append_right _ mem
    · intro some
      by_contra taken
      obtain ⟨g, rest, rfl⟩ := List.exists_cons_of_ne_nil some
      rw [step_end frames inside] at stepped
      cases stepped
      obtain ⟨s'', stepped', -⟩ := halts'.step (List.cons_ne_nil _ _)
      have one : d.offset 1 < d.size := Nat.not_le.mp taken
      have outside := read_one base
      rw [XmlParse.step] at stepped'
      dsimp only [resumeNull] at stepped'
      rw [if_pos one, turn] at stepped'
      dsimp only at stepped'
      rw [outside] at stepped'
      cases stepped'

theorem run_ok {n : Nat} {t : Parser} (base : 2 ≤ d.base) (ok : ParserOk d s) (halts : Halts d s)
    (done : run d n s = some t) :
    ParserOk d t ∧ Halts d t := by
  induction n generalizing s with
  | zero =>
    cases done
    exact ⟨ok, halts⟩
  | succ n ih =>
    rw [run] at done
    obtain ⟨s', stepped, rest⟩ := Option.bind_eq_some_iff.mp done
    by_cases ended : s.frames = []
    · have same : s' = s := by
        rw [step, ended] at stepped
        exact (Option.some.inj stepped).symm
      rw [same] at rest
      exact ih ok halts rest
    · obtain ⟨s₁, stepped₁, halts₁⟩ := halts.step ended
      obtain ⟨s₂, stepped₂, ok₂, -⟩ := step_of_ok ok ended (stepOk_of_halts base ok halts)
      rw [stepped] at stepped₁ stepped₂
      cases stepped₁
      cases stepped₂
      exact ih ok₂ halts₁ rest

theorem parserOk_start (d : Doc) : ParserOk d (start d) := by
  refine ⟨?_, fun t mem => by cases mem⟩
  rw [start]
  dsimp only
  split_ifs
  · trivial
  · exact .inl ⟨start_ok le_rfl (Nat.le_add_right _ _), fun g mem => by cases mem⟩

end StepLemmas

/-- The parser returns, has read only bytes of the buffer, and every tag has its ranges there, if every step meets the
condition; and only then, but for a buffer at the address 1, where a call that returns null starts the parser anew. -/
theorem parses_iff_eachOk (d : Doc) : (EachOk d → Parses d) ∧ (d.base ≠ 1 → Parses d → EachOk d) := by
  refine ⟨fun each => halts_of_ok (parserOk_start d) le_rfl each, fun other halts n s done => ?_⟩
  by_cases null : d.base = 0
  · have idle : (start d).frames = [] := by rw [start, if_pos null]
    have same : s = start d := by
      clear halts
      induction n with
      | zero => exact (Option.some.inj done).symm
      | succ n ih =>
        rw [run, step, idle] at done
        exact ih done
    rw [same, StepOk, idle]
    trivial
  · obtain ⟨ok, halts'⟩ := run_ok (by omega) (parserOk_start d) halts done
    exact stepOk_of_halts (by omega) ok halts'

/-- `<a><?x y?><b/></a>`. -/
def nestedDoc : Doc :=
  ⟨16, [chLt, 0x61, chGt, chLt, chQuestion, 0x78, chSpace, 0x79, chQuestion, chGt, chLt, 0x62, chSlash, chGt, chLt, chSlash,
    0x61, chGt], by decide⟩

/-- The package, the inner tag and the outer one. -/
def nestedTags : List Tag :=
  [⟨some 21, 1, some 22, 2, some 22, 2⟩, ⟨some 27, 1, none, 0, none, 0⟩, ⟨some 17, 1, some 19, 9, none, 0⟩]

theorem parses_iff_eachOk_nested_tag : EachOk nestedDoc ∧ Parses nestedDoc := by
  have inside : ∀ t ∈ nestedTags, TagIn nestedDoc t := by
    intro t mem
    simp only [nestedTags, List.mem_cons, List.not_mem_nil, or_false] at mem
    rcases mem with rfl | rfl | rfl
    · exact ⟨⟨by decide, by decide⟩, ⟨by decide, by decide⟩, ⟨by decide, by decide⟩⟩
    · exact ⟨⟨by decide, by decide⟩, rfl, rfl⟩
    · exact ⟨⟨by decide, by decide⟩, ⟨by decide, by decide⟩, rfl⟩
  have parses : Parses nestedDoc := ⟨15, ⟨[], nestedTags⟩, rfl, rfl, inside⟩
  have each := (parses_iff_eachOk nestedDoc).2 (by decide) parses
  exact ⟨each, (parses_iff_eachOk nestedDoc).1 each⟩

/-- `<?a`: the blank behind the name of the package is looked for behind the buffer. -/
theorem package_scanned_past_end : ¬ Parses ⟨16, [chLt, chQuestion, 0x61], by decide⟩ := by
  rintro ⟨n, s, done, ended, -⟩
  match n with
  | 0 =>
    cases done
    exact absurd ended (List.cons_ne_nil _ _)
  | 1 =>
    cases done
    exact absurd ended (List.cons_ne_nil _ _)
  | n + 2 => cases done

end PreTeO.Ext.XmlParse
