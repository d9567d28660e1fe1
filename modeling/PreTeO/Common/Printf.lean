import PreTeO.Common.Numeral

/-!
# Formatted output (`core/common/lib/str.cpp`, `core/sys/syslog.cpp`)

`_vsnprintf` writes a format into a buffer of some size. The conversions copy at most what is left of the buffer; plain
characters, characters of arguments and unknown conversions are written without a look at the size. A run ends at the first
access outside of the buffer.
-/

namespace PreTeO.Common
set_option autoImplicit false

open Lib (Byte)

/-! ## The buffer -/

/-- `buf[i] = c`. -/
def put (buf : List Byte) (i : Nat) (c : Byte) : Option (List Byte) :=
  if i < buf.length then some (buf.set i c) else none

/-- `mem_cpy` to `buf + i`. -/
def putAll (buf : List Byte) : Nat → List Byte → Option (List Byte)
  | _, [] => some buf
  | i, c :: s => (put buf i c).bind fun buf => putAll buf (i + 1) s

/-- `str_len`. Its counter has 32 bits, and a longer string has no end. -/
def strLen (s : List Byte) : Option Nat := if s.length < 2 ^ 32 then some s.length else none

def upper (c : Byte) : Byte := if 0x61#8 ≤ c ∧ c ≤ 0x7a#8 then c - 32#8 else c

/-- `_toupper(buf + i)`. -/
def toupperFrom : Nat → List Byte → Nat → Option (List Byte)
  | 0, _, _ => none
  | left + 1, buf, i =>
    match buf[i]? with
    | none => none
    | some c => if c = 0 then some buf else toupperFrom left (buf.set i (upper c)) (i + 1)

/-- What the conversions of strings and numbers have in common: at most `size - 1 - r` characters are copied, and a zero is
written behind them. -/
def printText (big : Bool) (buf : List Byte) (r : Nat) (s : List Byte) : Option (List Byte × Nat) :=
  (strLen s).bind fun len =>
    let left := (buf.length + 2 ^ 32 - 1 - r) % 2 ^ 32
    let n := if left < len then left else len
    (putAll buf r (s.take n)).bind fun buf =>
      (put buf ((r + n) % 2 ^ 32) 0).bind fun buf =>
        (if big then toupperFrom (buf.length + 1) buf r else some buf).map fun buf => (buf, (r + n) % 2 ^ 32)

/-! ## The conversions -/

/-- An argument: 32 bits, 64 bits, or what lies before a zero at a pointer. -/
inductive Arg where
  | word (n : BitVec 32)
  | quad (n : BitVec 64)
  | str (s : List Byte)
deriving DecidableEq, Repr

/-- The cases of the switch. -/
inductive Conversion where
  | c | s | bigS | d | u | l | x | bigX | h | bigH | b
deriving DecidableEq, Repr

namespace Conversion

def ofChar (c : Byte) : Option Conversion :=
  match c.toNat with
  | 0x63 => some .c
  | 0x73 => some .s
  | 0x53 => some .bigS
  | 0x64 => some .d
  | 0x75 => some .u
  | 0x6c => some .l
  | 0x78 => some .x
  | 0x58 => some .bigX
  | 0x68 => some .h
  | 0x48 => some .bigH
  | 0x62 => some .b
  | _ => none

/-- The string that a conversion copies, for an argument of the type that it takes. `%l` keeps its argument in 32 bits. -/
def text (outside : Int → Byte) : Conversion → Arg → Option (List Byte)
  | .s, .str p => some (cString p)
  | .bigS, .str p => some (cString p)
  | .d, .word n => itoa outside n 10
  | .u, .word n => uitoa outside n 10
  | .l, .quad n => ulltoa outside ((n.setWidth 32).setWidth 64) 10
  | .x, .word n => uitoa outside n 16
  | .bigX, .word n => uitoa outside n 16
  | .h, .quad n => ulltoa outside n 16
  | .bigH, .quad n => ulltoa outside n 16
  | .b, .quad n => ulltoa outside n 2
  | _, _ => none

def big : Conversion → Bool
  | .bigS | .bigX | .bigH => true
  | _ => false

/-- One case of the switch: the buffer and the new `r`. -/
def run (outside : Int → Byte) (k : Conversion) (arg : Arg) (buf : List Byte) (r : Nat) : Option (List Byte × Nat) :=
  match k, arg with
  | .c, .word n => (put buf r (n.setWidth 8)).map fun buf => (buf, (r + 1) % 2 ^ 32)
  | k, arg => (k.text outside arg).bind (printText k.big buf r)

end Conversion

/-- The loop over the format; `t` is the character at `tp` while a conversion is expected. -/
def printLoop (outside : Int → Byte) : List Byte → Option Byte → List Arg → List Byte → Nat → Option (List Byte × Nat)
  | [], _, _, buf, r => some (buf, r)
  | c :: fmt, none, args, buf, r =>
    if c = 0x25 then printLoop outside fmt (some c) args buf r
    else
      (put buf r c).bind fun buf =>
        (put buf ((r + 1) % 2 ^ 32) 0).bind fun buf => printLoop outside fmt none args buf ((r + 1) % 2 ^ 32)
  | c :: fmt, some t, args, buf, r =>
    match Conversion.ofChar c, args with
    | some k, arg :: args =>
      (k.run outside arg buf r).bind fun out => printLoop outside fmt none args out.1 out.2
    | some _, [] => none
    | none, args =>
      (put buf r t).bind fun buf =>
        (put buf ((r + 1) % 2 ^ 32) c).bind fun buf =>
          (put buf ((r + 2) % 2 ^ 32) 0).bind fun buf => printLoop outside fmt none args buf ((r + 2) % 2 ^ 32)

/-- `_vsnprintf` on a buffer of `size` bytes: its contents afterwards and the result. -/
def vsnprintf (outside : Int → Byte) (buf fmt : List Byte) (args : List Arg) : Option (List Byte × Nat) :=
  (strLen (cString fmt)).bind fun _ => printLoop outside (cString fmt) none args buf 0

/-- `FMT_BUFFER_SIZE` of `cSysLog`. -/
def fmtBufferSize : Nat := 1024

/-! ## A format as a sequence of items -/

/-- A plain character, the character of an argument, an unknown conversion, or the text of a conversion. -/
inductive Directive where
  | plain (c : Byte)
  | char (c : Byte)
  | unknown (t c : Byte)
  | text (big : Bool) (s : List Byte)
deriving DecidableEq, Repr

namespace Directive

/-- The number of characters of an item that is not cut off. -/
def length : Directive → Nat
  | .plain _ => 1
  | .char _ => 1
  | .unknown _ _ => 2
  | .text _ s => s.length

/-- Behind `p` characters there is room for the item and a zero; a text is cut off where there is not. -/
def Fits (size p : Nat) : Directive → Prop
  | .text _ s => s.length < 2 ^ 32
  | item => p + item.length < size

def print : Directive → List Byte → Nat → Option (List Byte × Nat)
  | .plain c, buf, r =>
    (put buf r c).bind fun buf => (put buf ((r + 1) % 2 ^ 32) 0).map fun buf => (buf, (r + 1) % 2 ^ 32)
  | .char c, buf, r => (put buf r c).map fun buf => (buf, (r + 1) % 2 ^ 32)
  | .unknown t c, buf, r =>
    (put buf r t).bind fun buf =>
      (put buf ((r + 1) % 2 ^ 32) c).bind fun buf =>
        (put buf ((r + 2) % 2 ^ 32) 0).map fun buf => (buf, (r + 2) % 2 ^ 32)
  | .text big s, buf, r => printText big buf r s

end Directive

/-- The item of a conversion, if the argument has the type that it takes. -/
def Conversion.item (outside : Int → Byte) : Conversion → Arg → Option Directive
  | .c, .word n => some (.char (n.setWidth 8))
  | k, arg => (k.text outside arg).map (.text k.big)

/-- The items of a format and its arguments; nothing if the arguments do not match the conversions. -/
def items (outside : Int → Byte) : List Byte → Option Byte → List Arg → Option (List Directive)
  | [], _, _ => some []
  | c :: fmt, none, args =>
    if c = 0x25 then items outside fmt (some c) args else (items outside fmt none args).map (.plain c :: ·)
  | c :: fmt, some t, args =>
    match Conversion.ofChar c, args with
    | some k, arg :: args => (k.item outside arg).bind fun item => (items outside fmt none args).map (item :: ·)
    | some _, [] => none
    | none, args => (items outside fmt none args).map (.unknown t c :: ·)

def printItems : List Directive → List Byte → Nat → Option (List Byte × Nat)
  | [], buf, r => some (buf, r)
  | item :: its, buf, r => (item.print buf r).bind fun out => printItems its out.1 out.2

/-- The number of characters of all items. -/
def total (its : List Directive) : Nat := (its.map Directive.length).sum

/-- Every item has room behind the items before it. -/
def Fits (size : Nat) : Nat → List Directive → Prop
  | _, [] => True
  | p, item :: its => item.Fits size p ∧ Fits size (p + item.length) its

theorem run_item {outside : Int → Byte} {k : Conversion} {arg : Arg} {item : Directive}
    (typed : k.item outside arg = some item) (buf : List Byte) (r : Nat) : k.run outside arg buf r = item.print buf r := by
  by_cases char : k = .c ∧ ∃ n, arg = .word n
  · obtain ⟨rfl, n, rfl⟩ := char
    cases typed
    rfl
  · have item_eq : k.item outside arg = (k.text outside arg).map (.text k.big) := by
      cases k <;> cases arg <;> first | rfl | exact absurd ⟨rfl, _, rfl⟩ char
    have run_eq : k.run outside arg buf r = (k.text outside arg).bind (printText k.big buf r) := by
      cases k <;> cases arg <;> first | rfl | exact absurd ⟨rfl, _, rfl⟩ char
    rw [item_eq] at typed
    obtain ⟨s, text, rfl⟩ := Option.map_eq_some_iff.mp typed
    rw [run_eq, text]
    rfl

theorem printLoop_eq {outside : Int → Byte} {fmt : List Byte} {t : Option Byte} {args : List Arg} {its : List Directive}
    (matching : items outside fmt t args = some its) (buf : List Byte) (r : Nat) :
    printLoop outside fmt t args buf r = printItems its buf r := by
  induction fmt generalizing t args its buf r with
  | nil =>
    cases matching
    rfl
  | cons c fmt ih =>
    unfold items at matching
    unfold printLoop
    cases t with
    | none =>
      simp only at matching ⊢
      by_cases percent : c = 0x25
      · rw [if_pos percent] at matching ⊢
        exact ih matching buf r
      · rw [if_neg percent] at matching ⊢
        obtain ⟨rest, later, rfl⟩ := Option.map_eq_some_iff.mp matching
        simp only [ih later, printItems, Directive.print, Option.bind_assoc, Option.bind_map, Function.comp_def]
    | some t =>
      cases kind : Conversion.ofChar c with
      | none =>
        simp only [kind] at matching ⊢
        obtain ⟨rest, later, rfl⟩ := Option.map_eq_some_iff.mp matching
        simp only [ih later, printItems, Directive.print, Option.bind_assoc, Option.bind_map, Function.comp_def]
      | some k =>
        cases args with
        | nil =>
          simp only [kind] at matching
          cases matching
        | cons arg args =>
          simp only [kind] at matching ⊢
          obtain ⟨item, typed, matching⟩ := Option.bind_eq_some_iff.mp matching
          obtain ⟨rest, later, rfl⟩ := Option.map_eq_some_iff.mp matching
          simp only [ih later, printItems, run_item typed]

/-! ## Writing into the buffer -/

section put
variable {buf buf' : List Byte} {i j : Nat} {c : Byte} {s : List Byte}

theorem put_some (inside : i < buf.length) : put buf i c = some (buf.set i c) := if_pos inside

theorem put_none (outside : buf.length ≤ i) : put buf i c = none := if_neg (Nat.not_lt_of_le outside)

/-- `mem_cpy` of what fits: the characters lie there, and the rest of the buffer is unchanged. -/
theorem putAll_some (inside : i + s.length ≤ buf.length) :
    ∃ buf', putAll buf i s = some buf' ∧ buf'.length = buf.length ∧
      ∀ j, buf'.getD j 0 = if i ≤ j ∧ j < i + s.length then s.getD (j - i) 0 else buf.getD j 0 := by
  induction s generalizing buf i with
  | nil => exact ⟨buf, rfl, rfl, fun j => by rw [if_neg (by simp)]⟩
  | cons c s ih =>
    rw [List.length_cons] at inside
    have first : i < buf.length := by omega
    obtain ⟨buf', written, length, bytes⟩ : ∃ buf', putAll (buf.set i c) (i + 1) s = some buf' ∧ _ :=
      ih (by rw [List.length_set]; omega)
    refine ⟨buf', ?_, length.trans List.length_set, fun j => ?_⟩
    · rw [putAll, put_some first, Option.bind_some, written]
    · rw [bytes, getD_set c first, List.length_cons]
      by_cases here : j = i
      · subst here
        rw [if_neg (by omega), if_pos rfl, if_pos (by omega), Nat.sub_self, List.getD_cons_zero]
      · rw [if_neg here]
        by_cases between : i + 1 ≤ j ∧ j < i + 1 + s.length
        · rw [if_pos between, if_pos (by omega), show j - i = j - (i + 1) + 1 by omega, List.getD_cons_succ]
        · rw [if_neg between, if_neg (by omega)]

theorem putAll_none (first : buf.length ≤ i) (some_char : s ≠ []) : putAll buf i s = none := by
  cases s with
  | nil => exact absurd rfl some_char
  | cons c s => rw [putAll, put_none first, Option.bind_none]

/-- `_toupper` changes nothing from a zero on. -/
theorem toupperFrom_some {left z : Nat} (lower : i ≤ z) (inside : z < buf.length) (zero : buf.getD z 0 = 0)
    (enough : z < i + left) :
    ∃ buf', toupperFrom left buf i = some buf' ∧ buf'.length = buf.length ∧ ∀ j, z ≤ j → buf'.getD j 0 = buf.getD j 0 := by
  induction left generalizing buf i with
  | zero => omega
  | succ left ih =>
    have here : buf[i]? = some (buf.getD i 0) := by
      rw [List.getD_eq_getElem _ _ (by omega), List.getElem?_eq_getElem (by omega)]
    rw [toupperFrom, here]
    simp only
    by_cases last : buf.getD i 0 = 0
    · rw [if_pos last]
      exact ⟨buf, rfl, rfl, fun _ _ => rfl⟩
    · rw [if_neg last]
      have before : i ≠ z := fun same => last (same ▸ zero)
      have kept : ∀ j, z ≤ j → (buf.set i (upper (buf.getD i 0))).getD j 0 = buf.getD j 0 := fun j le => by
        rw [getD_set _ (by omega), if_neg (by omega)]
      obtain ⟨buf', run, length, same⟩ :
          ∃ buf', toupperFrom left (buf.set i (upper (buf.getD i 0))) (i + 1) = some buf' ∧ _ :=
        ih (by omega) (by rwa [List.length_set]) ((kept z le_rfl).trans zero) (by omega)
      exact ⟨buf', run, length.trans List.length_set, fun j le => (same j le).trans (kept j le)⟩

/-- A conversion that begins inside of the buffer stays inside and leaves a zero. -/
theorem printText_some {big : Bool} {r n : Nat} (width : buf.length < 2 ^ 32) (short : s.length < 2 ^ 32)
    (inside : r < buf.length) (cut : n = min s.length (buf.length - 1 - r)) :
    ∃ buf', printText big buf r s = some (buf', r + n) ∧ buf'.length = buf.length ∧ buf'.getD (r + n) 0 = 0 ∧
      (∀ j, r + n < j → buf'.getD j 0 = buf.getD j 0) ∧
      (big = false → ∀ k, k < n → buf'.getD (r + k) 0 = s.getD k 0) := by
  have room : (buf.length + 2 ^ 32 - 1 - r) % 2 ^ 32 = buf.length - 1 - r := by omega
  have taken : (if buf.length - 1 - r < s.length then buf.length - 1 - r else s.length) = n := by
    split <;> omega
  have size : (s.take n).length = n := by
    rw [List.length_take]
    omega
  obtain ⟨b₁, copied, length₁, bytes₁⟩ : ∃ b₁, putAll buf r (s.take n) = some b₁ ∧ _ := putAll_some (by omega)
  rw [size] at bytes₁
  have last : r + n < b₁.length := by omega
  have zero : (b₁.set (r + n) 0).getD (r + n) 0 = 0 := by rw [getD_set 0 last, if_pos rfl]
  have above : ∀ j, r + n < j → (b₁.set (r + n) 0).getD j 0 = buf.getD j 0 := fun j lt => by
    rw [getD_set 0 last, if_neg (by omega), bytes₁, if_neg (by omega)]
  have text : ∀ k, k < n → (b₁.set (r + n) 0).getD (r + k) 0 = s.getD k 0 := fun k lt => by
    rw [getD_set 0 last, if_neg (by omega), bytes₁, if_pos (by omega), Nat.add_sub_cancel_left, List.getD_eq_getElem?_getD,
      List.getElem?_take_of_lt lt, ← List.getD_eq_getElem?_getD]
  have run : printText big buf r s =
      (if big then toupperFrom (b₁.length + 1) (b₁.set (r + n) 0) r else some (b₁.set (r + n) 0)).map fun b =>
        (b, r + n) := by
    simp only [printText, strLen, if_pos short, Option.bind_some, room, taken, copied]
    rw [Nat.mod_eq_of_lt (by omega), put_some last, Option.bind_some, List.length_set]
  cases big with
  | false => exact ⟨_, run, List.length_set.trans length₁, zero, above, fun _ => text⟩
  | true =>
    obtain ⟨b₂, uppered, length₂, same⟩ :
        ∃ b₂, toupperFrom (b₁.length + 1) (b₁.set (r + n) 0) r = some b₂ ∧ _ :=
      toupperFrom_some (Nat.le_add_right r n) (by rwa [List.length_set]) zero (by omega)
    refine ⟨b₂, ?_, ?_, (same _ le_rfl).trans zero, fun j lt => (same j lt.le).trans (above j lt), fun h => by cases h⟩
    · rw [run, if_pos rfl, uppered]
      rfl
    · rw [length₂, List.length_set, length₁]

/-- Behind the buffer every conversion writes outside. -/
theorem printText_none {big : Bool} (width : buf.length < 2 ^ 32) : printText big buf buf.length s = none := by
  have room : (buf.length + 2 ^ 32 - 1 - buf.length) % 2 ^ 32 = 2 ^ 32 - 1 := by omega
  simp only [printText, strLen]
  split
  · next short =>
    rw [Option.bind_some, room, if_neg (by omega), List.take_length]
    by_cases empty : s = []
    · subst empty
      simp only [putAll, Option.bind_some, List.length_nil, Nat.add_zero]
      rw [Nat.mod_eq_of_lt width, put_none le_rfl, Option.bind_none]
    · rw [putAll_none le_rfl empty, Option.bind_none]
  · rfl

end put

/-! ## What is written -/

def Directive.isChar : Directive → Bool
  | .char _ => true
  | _ => false

section items
variable {buf : List Byte} {item : Directive} {its : List Directive} {p r e : Nat}

/-- An item that has room. -/
theorem print_fits (width : buf.length < 2 ^ 32) (some_room : 0 < buf.length) (fits : item.Fits buf.length p)
    (here : r = min p (buf.length - 1)) (after : e = min (p + item.length) (buf.length - 1)) :
    ∃ buf', item.print buf r = some (buf', e) ∧ buf'.length = buf.length ∧ (∀ j, e < j → buf'.getD j 0 = buf.getD j 0) ∧
      buf'.getD e 0 = if item.isChar then buf.getD e 0 else 0 := by
  cases item with
  | plain c =>
    simp only [Directive.Fits, Directive.length] at fits after
    obtain rfl : r = p := by omega
    obtain rfl : e = r + 1 := by omega
    have last : r + 1 < (buf.set r c).length := by rwa [List.length_set]
    refine ⟨(buf.set r c).set (r + 1) 0, ?_, by rw [List.length_set, List.length_set], fun j lt => ?_, ?_⟩
    · rw [Directive.print, put_some (by omega), Option.bind_some, Nat.mod_eq_of_lt (by omega), put_some last,
        Option.map_some]
    · rw [getD_set 0 last, if_neg (by omega), getD_set c (by omega), if_neg (by omega)]
    · rw [getD_set 0 last, if_pos rfl]
      rfl
  | char c =>
    simp only [Directive.Fits, Directive.length] at fits after
    obtain rfl : r = p := by omega
    obtain rfl : e = r + 1 := by omega
    have above : ∀ j, r < j → (buf.set r c).getD j 0 = buf.getD j 0 := fun j lt => by
      rw [getD_set c (by omega), if_neg (by omega)]
    refine ⟨buf.set r c, ?_, List.length_set, fun j lt => above j (by omega), above _ (Nat.lt_succ_self r)⟩
    rw [Directive.print, put_some (by omega), Option.map_some, Nat.mod_eq_of_lt (by omega)]
  | unknown t c =>
    simp only [Directive.Fits, Directive.length] at fits after
    obtain rfl : r = p := by omega
    obtain rfl : e = r + 2 := by omega
    have next : r + 1 < (buf.set r t).length := by
      rw [List.length_set]
      omega
    have last : r + 2 < ((buf.set r t).set (r + 1) c).length := by rwa [List.length_set, List.length_set]
    refine ⟨((buf.set r t).set (r + 1) c).set (r + 2) 0, ?_, by simp only [List.length_set], fun j lt => ?_, ?_⟩
    · rw [Directive.print, put_some (by omega), Option.bind_some, Nat.mod_eq_of_lt (by omega), put_some next,
        Option.bind_some,
        Nat.mod_eq_of_lt (by omega), put_some last, Option.map_some]
    · rw [getD_set 0 last, if_neg (by omega), getD_set c next, if_neg (by omega), getD_set t (by omega), if_neg (by omega)]
    · rw [getD_set 0 last, if_pos rfl]
      rfl
  | text big s =>
    simp only [Directive.Fits, Directive.length] at fits after
    obtain ⟨buf', run, length, zero, above, -⟩ :
        ∃ buf', printText big buf r s = some (buf', r + (e - r)) ∧ _ :=
      printText_some width fits (by omega) (by omega)
    rw [show r + (e - r) = e by omega] at run zero above
    exact ⟨buf', run, length, above, zero⟩

/-- Behind the buffer everything is written outside. -/
theorem print_full (width : buf.length < 2 ^ 32) : item.print buf buf.length = none := by
  cases item with
  | plain c => rw [Directive.print, put_none le_rfl, Option.bind_none]
  | char c => rw [Directive.print, put_none le_rfl, Option.map_none]
  | unknown t c => rw [Directive.print, put_none le_rfl, Option.bind_none]
  | text big s => exact printText_none width

/-- An item that has no room writes outside of the buffer or is a character in its last place. -/
theorem print_misfit (width : buf.length < 2 ^ 32) (some_room : 0 < buf.length) (misfit : ¬ item.Fits buf.length p)
    (here : r = min p (buf.length - 1)) :
    item.print buf r = none ∨
      item.isChar = true ∧ ∃ buf', item.print buf r = some (buf', buf.length) ∧ buf'.length = buf.length := by
  cases item with
  | plain c =>
    simp only [Directive.Fits, Directive.length] at misfit
    left
    rw [Directive.print, put_some (by omega), Option.bind_some, Nat.mod_eq_of_lt (by omega),
      put_none (by rw [List.length_set]; omega), Option.map_none]
  | char c =>
    simp only [Directive.Fits, Directive.length] at misfit
    right
    refine ⟨rfl, buf.set r c, ?_, List.length_set⟩
    rw [Directive.print, put_some (by omega), Option.map_some, Nat.mod_eq_of_lt (by omega), show r + 1 = buf.length by omega]
  | unknown t c =>
    simp only [Directive.Fits, Directive.length] at misfit
    left
    rw [Directive.print, put_some (by omega), Option.bind_some, Nat.mod_eq_of_lt (by omega)]
    by_cases second : r + 1 < buf.length
    · rw [put_some (by rwa [List.length_set]), Option.bind_some, Nat.mod_eq_of_lt (by omega),
        put_none (by rw [List.length_set, List.length_set]; omega), Option.map_none]
    · rw [put_none (by rw [List.length_set]; omega), Option.bind_none]
  | text big s =>
    have long : ¬ s.length < 2 ^ 32 := misfit
    left
    rw [Directive.print, printText, strLen, if_neg long, Option.bind_none]

theorem printItems_append (its' : List Directive) :
    printItems (its ++ its') buf r = (printItems its buf r).bind fun out => printItems its' out.1 out.2 := by
  induction its generalizing buf r with
  | nil => rfl
  | cons item its ih => simp only [List.cons_append, printItems, ih, Option.bind_assoc]

theorem total_cons : total (item :: its) = item.length + total its := rfl

theorem total_append (its' : List Directive) : total (its ++ its') = total its + total its' := by
  rw [total, List.map_append, List.sum_append]
  rfl

theorem fits_append {size : Nat} (its' : List Directive) :
    Fits size p (its ++ its') ↔ Fits size p its ∧ Fits size (p + total its) its' := by
  induction its generalizing p with
  | nil => exact (and_iff_right trivial).symm
  | cons item its ih => rw [List.cons_append, Fits, Fits, ih, and_assoc, total_cons, ← Nat.add_assoc]

/-- Items that have room: the result is their size or that of the buffer, less one, and nothing is written behind it. -/
theorem printItems_fits (width : buf.length < 2 ^ 32) (some_room : 0 < buf.length) (fits : Fits buf.length p its)
    (here : r = min p (buf.length - 1)) :
    ∃ buf', printItems its buf r = some (buf', min (p + total its) (buf.length - 1)) ∧ buf'.length = buf.length ∧
      ∀ j, min (p + total its) (buf.length - 1) < j → buf'.getD j 0 = buf.getD j 0 := by
  induction its generalizing buf p r with
  | nil => exact ⟨buf, by rw [here]; rfl, rfl, fun _ _ => rfl⟩
  | cons item its ih =>
    obtain ⟨b₁, printed, length₁, above₁, -⟩ := print_fits width some_room fits.1 here rfl
    rw [← length₁] at width some_room
    obtain ⟨b₂, run, length₂, above₂⟩ := ih width some_room (length₁ ▸ fits.2) (by rw [length₁])
    rw [total_cons, ← Nat.add_assoc]
    rw [length₁] at run length₂ above₂
    refine ⟨b₂, ?_, length₂, fun j lt => (above₂ j lt).trans (above₁ j ?_)⟩
    · rw [printItems, printed, Option.bind_some, run]
    · omega

/-- Items of which one has no room write outside of the buffer, or the last one is a character in the last place. -/
theorem printItems_misfit (width : buf.length < 2 ^ 32) (some_room : 0 < buf.length) (misfit : ¬ Fits buf.length p its)
    (here : r = min p (buf.length - 1)) :
    printItems its buf r = none ∨
      (∃ init c, its = init ++ [Directive.char c] ∧ Fits buf.length p init) ∧
        ∃ buf', printItems its buf r = some (buf', buf.length) := by
  induction its generalizing buf p r with
  | nil => exact absurd trivial misfit
  | cons item its ih =>
    by_cases fits : item.Fits buf.length p
    · obtain ⟨b₁, printed, length₁, -, -⟩ := print_fits width some_room fits here rfl
      have later : ¬ Fits b₁.length (p + item.length) its := fun rest => misfit ⟨fits, length₁ ▸ rest⟩
      rw [printItems, printed, Option.bind_some]
      simp only
      rw [← length₁] at width some_room
      rcases ih width some_room later (by rw [length₁]) with stopped | ⟨⟨init, c, rfl, room⟩, b₂, run⟩
      · exact Or.inl stopped
      · exact Or.inr ⟨⟨item :: init, c, rfl, fits, length₁ ▸ room⟩, b₂, by rw [run, length₁]⟩
    · rcases print_misfit width some_room fits here with stopped | ⟨char, b₁, printed, length₁⟩
      · exact Or.inl (by rw [printItems, stopped, Option.bind_none])
      · cases item with
        | char c =>
          rw [printItems, printed, Option.bind_some]
          cases its with
          | nil => exact Or.inr ⟨⟨[], c, rfl, trivial⟩, b₁, rfl⟩
          | cons item its =>
            left
            simp only
            rw [printItems, ← length₁, print_full (length₁ ▸ width), Option.bind_none]
        | plain c => cases char
        | unknown t c => cases char
        | text big s => cases char

/-- The zero behind what is written: after any item but a character, or from before. -/
def Closed (buf : List Byte) (its : List Directive) : Prop :=
  (∃ init item, its = init ++ [item] ∧ item.isChar = false) ∨ buf.getD (total its) 0 = 0

theorem closed_nil : Closed buf [] ↔ buf.getD 0 0 = 0 := by
  refine or_iff_right ?_
  rintro ⟨init, item, empty, -⟩
  exact List.append_ne_nil_of_right_ne_nil init (List.cons_ne_nil item []) empty.symm

theorem closed_concat {init : List Directive} :
    Closed buf (init ++ [item]) ↔ item.isChar = false ∨ buf.getD (total (init ++ [item])) 0 = 0 := by
  refine or_congr_left ⟨?_, fun other => ⟨init, item, rfl, other⟩⟩
  rintro ⟨init', item', same, other⟩
  obtain ⟨-, same⟩ := List.append_inj' same rfl
  rw [List.singleton_inj.mp same]
  exact other

theorem printItems_closed_iff (width : buf.length < 2 ^ 32) (some_room : 0 < buf.length) :
    (∃ buf' r, printItems its buf 0 = some (buf', r) ∧ r < buf.length ∧ buf'.getD r 0 = 0) ↔
      Fits buf.length 0 its ∧ Closed buf its := by
  by_cases fits : Fits buf.length 0 its
  · rw [and_iff_right fits]
    have first : 0 = min 0 (buf.length - 1) := (Nat.zero_min _).symm
    obtain rfl | ⟨init, item, rfl⟩ := its.eq_nil_or_concat'
    · rw [closed_nil]
      constructor
      · rintro ⟨buf', r, run, -, zero⟩
        obtain ⟨rfl, rfl⟩ := Prod.mk.inj (Option.some.inj run)
        exact zero
      · exact fun zero => ⟨buf, 0, rfl, some_room, zero⟩
    · obtain ⟨fits_init, fits_item, -⟩ := (fits_append [item]).mp fits
      obtain ⟨b₁, run, length₁, above₁⟩ := printItems_fits width some_room fits_init first
      rw [← length₁] at width some_room fits_item
      obtain ⟨b₂, printed, length₂, -, last⟩ := print_fits width some_room fits_item (by rw [length₁]) rfl
      have result : printItems (init ++ [item]) buf 0 =
          some (b₂, min (0 + total init + item.length) (b₁.length - 1)) := by
        rw [printItems_append, run, Option.bind_some, printItems, printed]
        rfl
      have zero_iff : (∃ buf' r, printItems (init ++ [item]) buf 0 = some (buf', r) ∧ r < buf.length ∧ buf'.getD r 0 = 0) ↔
          b₂.getD (min (0 + total init + item.length) (b₁.length - 1)) 0 = 0 := by
        constructor
        · rintro ⟨buf', r, run', -, zero⟩
          obtain ⟨rfl, rfl⟩ := Prod.mk.inj (Option.some.inj (result.symm.trans run'))
          exact zero
        · exact fun zero => ⟨b₂, _, result, by omega, zero⟩
      rw [zero_iff, last, closed_concat, total_append]
      cases item with
      | char c =>
        have room : 0 + total init + 1 < b₁.length := fits_item
        have one : total [Directive.char c] = 1 := rfl
        have place : min (0 + total init + 1) (b₁.length - 1) = total init + 1 := by omega
        have char : (Directive.char c).isChar = true := rfl
        rw [if_pos char, one, show (Directive.char c).length = 1 from rfl, place, above₁ _ (by omega), char]
        exact (or_iff_right Bool.noConfusion).symm
      | plain c => exact iff_of_true rfl (Or.inl rfl)
      | unknown t c => exact iff_of_true rfl (Or.inl rfl)
      | text big s => exact iff_of_true rfl (Or.inl rfl)
  · refine iff_of_false ?_ (fun both => fits both.1)
    rintro ⟨buf', r, run, inside, -⟩
    rcases printItems_misfit width some_room fits (Nat.zero_min _).symm with stopped | ⟨-, b, out⟩
    · rw [stopped] at run
      cases run
    · obtain ⟨rfl, rfl⟩ := Prod.mk.inj (Option.some.inj (out.symm.trans run))
      exact Nat.lt_irrefl _ inside

end items

/-- The arguments match the conversions of the format. Then the call stays inside of the buffer, leaves a zero there and
returns the number of characters before it, if and only if every item but the texts has room behind the full length of the
items before it, the last item is no character of an argument or the byte behind it was zero before, and the format and the
texts are shorter than `2 ^ 32`. The log stays inside of its line buffer also when a character of an argument comes last,
without room. -/
theorem vsnprintf_bounded_iff {outside : Int → Byte} {buf fmt : List Byte} {args : List Arg} {its : List Directive}
    (some_room : 0 < buf.length) (width : buf.length < 2 ^ 32)
    (matching : items outside (cString fmt) none args = some its) :
    ((∃ buf' r, vsnprintf outside buf fmt args = some (buf', r) ∧ r < buf.length ∧ buf'.getD r 0 = 0) ↔
        (cString fmt).length < 2 ^ 32 ∧ Fits buf.length 0 its ∧ Closed buf its) ∧
      ∀ lb : List Byte, lb.length = fmtBufferSize → ((∃ out, vsnprintf outside lb fmt args = some out) ↔
        (cString fmt).length < 2 ^ 32 ∧
          (Fits fmtBufferSize 0 its ∨ ∃ init c, its = init ++ [.char c] ∧ Fits fmtBufferSize 0 init)) := by
  have run : ∀ b, vsnprintf outside b fmt args = if (cString fmt).length < 2 ^ 32 then printItems its b 0 else none := by
    intro b
    rw [vsnprintf, strLen]
    split
    · rw [Option.bind_some, printLoop_eq matching]
    · rfl
  simp only [run]
  by_cases short : (cString fmt).length < 2 ^ 32
  · simp only [if_pos short, and_iff_right short]
    refine ⟨printItems_closed_iff width some_room, fun lb size => ?_⟩
    have line : lb.length < 2 ^ 32 ∧ 0 < lb.length := by rw [size]; decide
    have first : 0 = min 0 (lb.length - 1) := (Nat.zero_min _).symm
    rw [← size]
    by_cases fits : Fits lb.length 0 its
    · obtain ⟨b, out, -⟩ := printItems_fits line.1 line.2 fits first
      exact iff_of_true ⟨_, out⟩ (Or.inl fits)
    · rw [or_iff_right fits]
      rcases printItems_misfit line.1 line.2 fits first with stopped | ⟨last, b, out⟩
      · refine iff_of_false (by rw [stopped]; simp) ?_
        rintro ⟨init, c, rfl, room⟩
        obtain ⟨b, out, length, -⟩ := printItems_fits line.1 line.2 room first
        rw [printItems_append, out, Option.bind_some, printItems, Directive.print,
          put_some (by rw [length]; omega)] at stopped
        cases stopped
      · exact iff_of_true ⟨_, out⟩ last
  · simp only [if_neg short]
    refine ⟨iff_of_false (by simp) fun both => short both.1, fun lb _ => iff_of_false (by simp) fun both => short both.1⟩

/-- `"%d"` with 7 in four bytes. -/
theorem vsnprintf_bounded_iff_seven :
    ((∃ buf' r, vsnprintf (fun _ => 0) [1, 1, 1, 1] [0x25, 0x64] [.word 7#32] = some (buf', r) ∧ r < 4 ∧ buf'.getD r 0 = 0) ↔
        (cString [0x25, 0x64]).length < 2 ^ 32 ∧ Fits 4 0 [.text false [0x37]] ∧ Closed [1, 1, 1, 1] [.text false [0x37]]) ∧
      ∀ lb : List Byte, lb.length = fmtBufferSize →
        ((∃ out, vsnprintf (fun _ => 0) lb [0x25, 0x64] [.word 7#32] = some out) ↔
          (cString [0x25, 0x64]).length < 2 ^ 32 ∧ (Fits fmtBufferSize 0 [.text false [0x37]] ∨
            ∃ init c, [.text false [0x37]] = init ++ [Directive.char c] ∧ Fits fmtBufferSize 0 init)) :=
  vsnprintf_bounded_iff (by decide) (by decide) (by decide)

/-- One plain character in one byte: the zero is written behind the buffer. -/
theorem plain_character_overflows :
    ¬ ∀ (outside : Int → Byte) (buf fmt : List Byte) (args : List Arg) (its : List Directive), 0 < buf.length →
      buf.length < 2 ^ 32 → items outside (cString fmt) none args = some its →
      ∃ buf' r, vsnprintf outside buf fmt args = some (buf', r) ∧ r < buf.length ∧ buf'.getD r 0 = 0 := by
  intro all
  obtain ⟨buf', r, run, -⟩ := all (fun _ => 0) [0] [0x61] [] [.plain 0x61] (by decide) (by decide) (by decide)
  have stopped : vsnprintf (fun _ => 0) [0] [0x61] [] = none := by decide
  rw [stopped] at run
  cases run

/-! ## The numerals that conversions print -/

/-- At any place of a buffer that has room for it, the conversion prints the text and a zero. -/
def Prints (outside : Int → Byte) (k : Conversion) (arg : Arg) (t : List Byte) : Prop :=
  ∀ (buf : List Byte) (r : Nat), buf.length < 2 ^ 32 → r + t.length < buf.length →
    ∃ b, k.run outside arg buf r = some (b, r + t.length) ∧ cString (b.drop r) = t

theorem cString_of_getD {t l : List Byte} (plain : 0 ∉ t) (same : ∀ k, k < t.length → l.getD k 0 = t.getD k 0)
    (zero : l.getD t.length 0 = 0) : cString l = t := by
  induction t generalizing l with
  | nil =>
    cases l with
    | nil => rfl
    | cons d l =>
      obtain rfl : d = 0 := zero
      rfl
  | cons c t ih =>
    obtain ⟨char, plain'⟩ := not_or.mp (mt List.mem_cons.mpr plain)
    have first := same 0 (Nat.succ_pos _)
    cases l with
    | nil => exact absurd first char
    | cons d l =>
      obtain rfl : d = c := first
      have rest : cString l = t := ih plain' (fun k lt => same (k + 1) (Nat.succ_lt_succ lt)) zero
      have kept : cString (d :: l) = d :: cString l := List.takeWhile_cons_of_pos (decide_eq_true (Ne.symm char))
      rw [kept, rest]

section Prints
variable {outside : Int → Byte} {k : Conversion} {arg : Arg} {t t' : List Byte}

theorem prints_text (number : k ≠ .c) (small : k.big = false) (text : k.text outside arg = some t) (plain : 0 ∉ t) :
    Prints outside k arg t := by
  intro buf r width room
  obtain ⟨b, printed, length, zero, -, bytes⟩ :
      ∃ b, printText false buf r t = some (b, r + t.length) ∧ _ :=
    printText_some width (by omega) (by omega) (by omega)
  refine ⟨b, ?_, ?_⟩
  · have run : k.run outside arg buf r = (k.text outside arg).bind (printText k.big buf r) := by
      cases k <;> first | rfl | exact absurd rfl number
    rw [run, text, Option.bind_some, small, printed]
  · have drop : ∀ j, (b.drop r).getD j 0 = b.getD (r + j) 0 := fun j => by
      rw [List.getD_eq_getElem?_getD, List.getElem?_drop, ← List.getD_eq_getElem?_getD]
    exact cString_of_getD plain (fun k lt => (drop k).trans (bytes rfl k lt)) ((drop _).trans zero)

theorem prints_iff (number : k ≠ .c) (small : k.big = false) (text : k.text outside arg = some t') (plain : 0 ∉ t')
    (short : t.length < 2 ^ 16) (short' : t'.length < 2 ^ 16) : Prints outside k arg t ↔ t' = t := by
  constructor
  · intro prints
    have size : (List.replicate (2 ^ 17) (0 : Byte)).length = 2 ^ 17 := List.length_replicate
    obtain ⟨b, run, read⟩ := prints (List.replicate (2 ^ 17) 0) 0 (by rw [size]; decide) (by rw [size]; omega)
    obtain ⟨b', run', read'⟩ :=
      prints_text number small text plain (List.replicate (2 ^ 17) 0) 0 (by rw [size]; decide) (by rw [size]; omega)
    obtain ⟨rfl, -⟩ := Prod.mk.inj (Option.some.inj (run.symm.trans run'))
    rw [← read, ← read']
  · rintro rfl
    exact prints_text number small text plain

theorem prints_numeral {b n : Nat} (base : 2 ≤ b) (table : b ≤ 36) (number : k ≠ .c) (small : k.big = false)
    (text : k.text outside arg = some (numeral b n)) : Prints outside k arg (numeral b n) :=
  prints_text number small text (zero_notMem_numeral base table)

theorem length_numeral_short {b n : Nat} (base : 2 ≤ b) (width : n < 2 ^ 64) : (numeral b n).length < 2 ^ 16 :=
  (length_numeral_le base (by decide) (fits_rounds base width)).trans_lt (by decide)

/-- `%l` prints what 32 bits hold of its argument. -/
theorem prints_l_iff (n : BitVec 64) : Prints outside .l (.quad n) (numeral 10 n.toNat) ↔ n.toNat < 2 ^ 32 := by
  have kept : ((n.setWidth 32).setWidth 64).toNat = n.toNat % 2 ^ 32 := by
    rw [BitVec.toNat_setWidth, BitVec.toNat_setWidth]
    omega
  have text : Conversion.text outside .l (.quad n) = some (numeral 10 (n.toNat % 2 ^ 32)) := by
    rw [Conversion.text, ulltoa_eq (by decide) (by decide), kept]
  rw [prints_iff (by decide) rfl text (zero_notMem_numeral (by decide) (by decide)) (length_numeral_short (by decide) n.isLt)
    (length_numeral_short (by decide) (by omega))]
  refine ⟨fun same => ?_, fun small => by rw [Nat.mod_eq_of_lt small]⟩
  have := numeral_inj (by decide) (by decide) same
  omega

theorem zero_notMem_intNumeral {b : Nat} (base : 2 ≤ b) (table : b ≤ 36) (n : Int) : 0 ∉ intNumeral b n := by
  have plain : 0 ∉ numeral b n.natAbs := zero_notMem_numeral base table
  rw [intNumeral]
  split
  · exact List.not_mem_cons_of_ne_of_not_mem (by decide) plain
  · exact plain

/-- `%d` prints its argument but for the least number. -/
theorem prints_d_iff (n : BitVec 32) : Prints outside .d (.word n) (intNumeral 10 n.toInt) ↔ n ≠ BitVec.intMin 32 := by
  constructor
  · rintro prints rfl
    obtain ⟨s, written, short, plain⟩ : ∃ s, itoa outside (BitVec.intMin 32) 10 = some s ∧ _ := itoa_intMin
    have long := length_intNumeral_intMin (b := 10) (by decide) (by decide)
    have text : Conversion.text outside .d (.word (BitVec.intMin 32)) = some s := written
    have same := (prints_iff (by decide) rfl text plain (by decide) (by omega)).mp prints
    rw [← same] at long
    omega
  · intro negates
    exact prints_text (by decide) rfl (itoa_eq (by decide) (by decide) negates)
      (zero_notMem_intNumeral (by decide) (by decide) _)

end Prints

/-- For each base the three functions write the numeral of their argument, `_itoa` of all but the least number; `str2i`
reads the numeral of any number; and the conversions print the value of their argument, `%d` of all but the least number,
and `%l` of the numbers of 32 bits. -/
theorem numerals_iff (outside : Int → Byte) :
    (∀ b, 2 ≤ b → b ≤ 36 →
      (∀ n : BitVec 32, itoa outside n b = some (intNumeral b n.toInt) ↔ n ≠ BitVec.intMin 32) ∧
        (∀ n : BitVec 32, uitoa outside n b = some (numeral b n.toNat)) ∧
        ∀ n : BitVec 64, ulltoa outside n b = some (numeral b n.toNat)) ∧
      (∀ n : BitVec 32, str2i (numeral 10 n.toNat) (numeral 10 n.toNat).length = n) ∧
      (∀ n : BitVec 32, (Prints outside .d (.word n) (intNumeral 10 n.toInt) ↔ n ≠ BitVec.intMin 32) ∧
        Prints outside .u (.word n) (numeral 10 n.toNat) ∧ Prints outside .x (.word n) (numeral 16 n.toNat)) ∧
      ∀ n : BitVec 64, (Prints outside .l (.quad n) (numeral 10 n.toNat) ↔ n.toNat < 2 ^ 32) ∧
        Prints outside .h (.quad n) (numeral 16 n.toNat) ∧ Prints outside .b (.quad n) (numeral 2 n.toNat) := by
  refine ⟨fun b base table => ⟨itoa_eq_iff base table, uitoa_eq base table, ulltoa_eq base table⟩, str2i_numeral, ?_, ?_⟩
  · intro n
    exact ⟨prints_d_iff n, prints_numeral (by decide) (by decide) (by decide) rfl (uitoa_eq (by decide) (by decide) n),
      prints_numeral (by decide) (by decide) (by decide) rfl (uitoa_eq (by decide) (by decide) n)⟩
  · intro n
    exact ⟨prints_l_iff n, prints_numeral (by decide) (by decide) (by decide) rfl (ulltoa_eq (by decide) (by decide) n),
      prints_numeral (by decide) (by decide) (by decide) rfl (ulltoa_eq (by decide) (by decide) n)⟩

/-- `_itoa` of the least number, and `%l` with `2 ^ 32`. -/
theorem numerals_cut :
    (¬ ∀ (outside : Int → Byte) (b : Nat) (n : BitVec 32), 2 ≤ b → b ≤ 36 →
        itoa outside n b = some (intNumeral b n.toInt)) ∧
      ¬ ∀ (outside : Int → Byte) (n : BitVec 64), Prints outside .l (.quad n) (numeral 10 n.toNat) := by
  constructor
  · intro all
    exact (itoa_eq_iff (by decide) (by decide) _).mp (all (fun _ => 0) 10 (BitVec.intMin 32) (by decide) (by decide)) rfl
  · intro all
    exact absurd ((prints_l_iff _).mp (all (fun _ => 0) (BitVec.ofNat 64 (2 ^ 32)))) (by decide)

end PreTeO.Common
