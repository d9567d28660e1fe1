import Mathlib.Data.List.GetD
import PreTeO.Lib.Bytes

/-!
# The boot menu (`boot2/menu.c`)

A line of the configuration is split into items by the characters of a mask. `menu` copies two items of the selected line,
each up to the capacity of its buffer. Of the file name it reports what it copied, but of the arguments the larger of their
size and the capacity.
-/

namespace PreTeO.Boot
set_option autoImplicit false

open Lib (Byte)

def maxItems : Nat := 6
def maxCfgLines : Nat := 16

/-- `str_mask`, "=;;;;;". -/
def strMask : List Byte := [0x3d, 0x3b, 0x3b, 0x3b, 0x3b, 0x3b]

/-- An item: where it begins in the text, and its length. -/
structure Item where
  p : Option Nat
  sz : Nat
deriving DecidableEq, Repr

/-- `_cfg_t`. -/
abbrev Cfg := List Item

inductive Parsed where
  | ok
  | incomplete
  | commentLine
  | emptyLine
deriving DecidableEq, Repr

/-- `get_line`: the size of the line that the text begins with. -/
def getLine : List Byte → Nat
  | [] => 0
  | c :: rest => if c = 0x0a then 1 else getLine rest + 1

/-- `_cfg_item[li].sz = sz`. -/
def Cfg.setSz (cfg : Cfg) (li sz : Nat) : Cfg := cfg.modify li fun item => { item with sz := sz }

/-- The loop of `parse_line` over the characters that are left, of which the first is at `at`. -/
def parseLoop (mask : List Byte) : List Byte → (pos mi li ci : Nat) → Parsed → Cfg → Parsed × Cfg
  | [], _, _, _, _, r, cfg => (r, cfg)
  | c :: rest, pos, mi, li, ci, r, cfg =>
    if c = 0x23 then (.commentLine, cfg)
    else if c = 0x0d then parseLoop mask rest (pos + 1) mi li ci r cfg
    else if c = 0x0a then (r, cfg.setSz li ci)
    else if c = mask.getD mi 0 then
      let cfg := cfg.setSz li ci
      if mi + 1 ≥ mask.length then (.ok, cfg)
      else if li + 1 < maxItems then
        parseLoop mask rest (pos + 1) (mi + 1) (li + 1) 0 .incomplete (cfg.set (li + 1) ⟨some (pos + 1), 0⟩)
      else (.incomplete, cfg)
    else parseLoop mask rest (pos + 1) mi li ((ci + 1) % 2 ^ 16) r cfg

/-- `parse_line` of the `sz` characters from `offset` on. -/
def parseLine (text : List Byte) (offset sz : Nat) (mask : List Byte) : Parsed × Cfg :=
  parseLoop mask ((text.drop offset).take sz) offset 0 0 0 .emptyLine
    (⟨some offset, 0⟩ :: List.replicate (maxItems - 1) ⟨none, 0⟩)

/-- The loop of `menu` over the lines: the lines that are kept. Each round takes a character at least. -/
def menuLines (text mask : List Byte) : (rounds offset ci : Nat) → List Cfg
  | 0, _, _ => []
  | rounds + 1, offset, ci =>
    if offset < text.length then
      let l := getLine (text.drop offset)
      let parsed := parseLine text offset l mask
      if parsed.1 = .ok ∨ parsed.1 = .incomplete then
        parsed.2 :: if ci + 1 = maxCfgLines then [] else menuLines text mask rounds (offset + l) (ci + 1)
      else menuLines text mask rounds (offset + l) ci
    else []

/-- The lines of `menu`. -/
def menuCfg (text : List Byte) : List Cfg := menuLines text strMask text.length 0 0

def Cfg.exec (cfg : Cfg) : Item := cfg.getD 4 ⟨none, 0⟩
def Cfg.params (cfg : Cfg) : Item := cfg.getD 5 ⟨none, 0⟩

/-- The bytes that `mem_cpy` takes from an item. -/
def Item.bytes (item : Item) (text : List Byte) (n : Nat) : List Byte := (text.drop (item.p.getD 0)).take n

/-- What `menu` stores in the buffers, and the sizes that it reports. -/
structure MenuResult where
  fileName : List Byte
  args : List Byte
  nameSz : Nat
  argsSz : Nat
deriving DecidableEq, Repr

/-- `menu`, with the selection of `show_menu`. -/
def menu (text : List Byte) (nameSz argsSz : Nat) (select : (cfg : List Cfg) → Option (Fin cfg.length)) : MenuResult :=
  match select (menuCfg text) with
  | none => ⟨[], [], nameSz, argsSz⟩
  | some i =>
    let exec := ((menuCfg text).get i).exec
    let args := ((menuCfg text).get i).params
    { fileName := exec.bytes text (if exec.sz < nameSz then exec.sz else nameSz)
      args := args.bytes text (if args.sz < argsSz then args.sz else argsSz)
      nameSz := if exec.sz < nameSz then exec.sz else nameSz
      argsSz := if args.sz > argsSz then args.sz else argsSz }

/-! ## Items -/

/-- The item is a range of a text of `n` characters; an item without a place is empty. -/
def Item.Inside (item : Item) (n : Nat) : Prop :=
  match item.p with
  | none => item.sz = 0
  | some p => p + item.sz ≤ n

theorem Item.Inside.length {item : Item} {text : List Byte} (inside : item.Inside text.length) {k : Nat} (le : k ≤ item.sz) :
    (item.bytes text k).length = k := by
  obtain ⟨_ | p, sz⟩ := item
  · have zero : sz = 0 := inside
    rw [zero] at le
    rw [Nat.le_zero.mp le]
    rfl
  · have range : p + sz ≤ text.length := inside
    have less : k ≤ sz := le
    rw [Item.bytes, List.length_take, List.length_drop, Option.getD_some]
    omega

def Cfg.Inside (cfg : Cfg) (n : Nat) : Prop := ∀ item ∈ cfg, item.Inside n

section Parse
variable {mask : List Byte} {n : Nat}

/-- What the loop keeps: the items are inside, and the open one ends before the next character. -/
structure Open (cfg : Cfg) (li ci pos n : Nat) : Prop where
  inside : cfg.Inside n
  start : ∃ p, cfg[li]? = some ⟨some p, 0⟩ ∧ p + ci ≤ pos

theorem Open.setSz {cfg : Cfg} {li ci pos : Nat} (state : Open cfg li ci pos n) (le : pos ≤ n) :
    (cfg.setSz li ci).Inside n := by
  obtain ⟨p, item, range⟩ := state.start
  intro i member
  obtain ⟨k, k_less, rfl⟩ := List.getElem_of_mem member
  have less : k < cfg.length := by simpa [Cfg.setSz] using k_less
  simp only [Cfg.setSz, List.getElem_modify]
  split_ifs with same
  · subst same
    obtain ⟨_, item_eq⟩ := List.getElem?_eq_some_iff.mp item
    rw [item_eq]
    exact range.trans le
  · exact state.inside _ (List.getElem_mem less)

theorem parseLoop_inside (line : List Byte) {pos mi li ci : Nat} {r : Parsed} {cfg : Cfg} (state : Open cfg li ci pos n)
    (size : cfg.length = maxItems) (fits : pos + line.length ≤ n) :
    (parseLoop mask line pos mi li ci r cfg).2.Inside n := by
  induction line generalizing pos mi li ci r cfg with
  | nil => exact state.inside
  | cons c rest ih =>
    rw [List.length_cons] at fits
    obtain ⟨p, item, range⟩ := state.start
    rw [parseLoop]
    split_ifs with comment carriage feed match_mask last next
    · exact state.inside
    · exact ih ⟨state.inside, p, item, by omega⟩ size (by omega)
    · exact state.setSz (by omega)
    · exact state.setSz (by omega)
    · -- the next item begins behind the character of the mask
      have closed := state.setSz (by omega)
      have length : (cfg.setSz li ci).length = maxItems := by simp [Cfg.setSz, size]
      refine ih ⟨fun i member => ?_, pos + 1, ?_, by omega⟩ (by simp [length]) (by omega)
      · rcases List.mem_or_eq_of_mem_set member with old | new
        · exact closed i old
        · rw [new]
          show pos + 1 + 0 ≤ n
          omega
      · rw [List.getElem?_set_self (by omega)]
    · exact state.setSz (by omega)
    · have wrapped := Nat.mod_le (ci + 1) (2 ^ 16)
      exact ih ⟨state.inside, p, item, by omega⟩ size (by omega)

theorem parseLine_inside (text mask : List Byte) {offset sz : Nat} (fits : offset + sz ≤ text.length) :
    (parseLine text offset sz mask).2.Inside text.length := by
  refine parseLoop_inside _ ⟨fun item member => ?_, offset, rfl, le_rfl⟩ rfl ?_
  · rcases List.mem_cons.mp member with rfl | rest
    · show offset + 0 ≤ text.length
      omega
    · rw [List.eq_of_mem_replicate rest]
      rfl
  · rw [List.length_take, List.length_drop]
    omega

theorem getLine_le (text : List Byte) : getLine text ≤ text.length := by
  induction text with
  | nil => exact le_rfl
  | cons c rest ih =>
    rw [getLine, List.length_cons]
    split_ifs <;> omega

theorem menuLines_inside (text mask : List Byte) {rounds offset ci : Nat} :
    ∀ cfg ∈ menuLines text mask rounds offset ci, cfg.Inside text.length := by
  induction rounds generalizing offset ci with
  | zero => simp [menuLines]
  | succ rounds ih =>
    rw [menuLines]
    dsimp only
    by_cases more : offset < text.length
    · rw [if_pos more]
      have line := getLine_le (text.drop offset)
      rw [List.length_drop] at line
      have parsed : (parseLine text offset (getLine (text.drop offset)) mask).2.Inside text.length :=
        parseLine_inside text mask (by omega)
      by_cases kept : (parseLine text offset (getLine (text.drop offset)) mask).1 = .ok ∨
          (parseLine text offset (getLine (text.drop offset)) mask).1 = .incomplete
      · rw [if_pos kept]
        refine List.forall_mem_cons.mpr ⟨parsed, ?_⟩
        split_ifs
        · exact List.forall_mem_nil _
        · exact ih
      · rw [if_neg kept]
        exact ih
    · rw [if_neg more]
      exact List.forall_mem_nil _

/-- More rounds than there are characters make no difference. -/
theorem menuLines_rounds (text mask : List Byte) {rounds offset ci : Nat} (enough : text.length ≤ offset + rounds) :
    menuLines text mask (rounds + 1) offset ci = menuLines text mask rounds offset ci := by
  induction rounds generalizing offset ci with
  | zero =>
    rw [menuLines, menuLines, if_neg (by omega)]
  | succ rounds ih =>
    rw [menuLines, menuLines.eq_2]
    by_cases more : offset < text.length
    · have line : 0 < getLine (text.drop offset) := by
        rw [List.drop_eq_getElem_cons more, getLine]
        split_ifs <;> omega
      rw [if_pos more, if_pos more]
      have rest (ci : Nat) : menuLines text mask (rounds + 1) (offset + getLine (text.drop offset)) ci =
          menuLines text mask rounds (offset + getLine (text.drop offset)) ci := ih (by omega)
      simp only [rest]
    · rw [if_neg more, if_neg more]

end Parse

/-! ## The report -/

/-- No more is stored than there is room, all items are ranges of the text, and what is reported is what was stored. -/
structure MenuRight (text : List Byte) (nameSz argsSz : Nat) (result : MenuResult) : Prop where
  name : result.fileName.length ≤ nameSz
  args : result.args.length ≤ argsSz
  items : ∀ cfg ∈ menuCfg text, cfg.Inside text.length
  nameSz : result.nameSz = result.fileName.length
  argsSz : result.argsSz = result.args.length

/-- What is selected has arguments that fill their buffer, or nothing is selected and there is no room. -/
def ArgsFill (text : List Byte) (nameSz argsSz : Nat) (select : (cfg : List Cfg) → Option (Fin cfg.length)) : Prop :=
  match select (menuCfg text) with
  | none => nameSz = 0 ∧ argsSz = 0
  | some i => ((menuCfg text).get i).params.sz = argsSz

theorem Cfg.Inside.getD {cfg : Cfg} {n : Nat} (inside : cfg.Inside n) (k : Nat) : (List.getD cfg k ⟨none, 0⟩).Inside n := by
  by_cases less : k < cfg.length
  · rw [List.getD_eq_getElem _ _ less]
    exact inside _ (List.getElem_mem less)
  · rw [List.getD_eq_default _ _ (by omega)]
    rfl

/-- `menu` reports what it has stored exactly if the arguments fill their buffer. -/
theorem menuRight_iff (text : List Byte) (nameSz argsSz : Nat) (select : (cfg : List Cfg) → Option (Fin cfg.length)) :
    MenuRight text nameSz argsSz (menu text nameSz argsSz select) ↔ ArgsFill text nameSz argsSz select := by
  have items : ∀ cfg ∈ menuCfg text, cfg.Inside text.length := menuLines_inside text strMask
  rw [menu, ArgsFill]
  dsimp only
  cases select (menuCfg text) with
  | none =>
    dsimp only
    exact ⟨fun right => ⟨right.nameSz, right.argsSz⟩, fun ⟨name, args⟩ => ⟨Nat.zero_le _, Nat.zero_le _, items, name, args⟩⟩
  | some i =>
    dsimp only
    have inside := items _ (List.get_mem _ i)
    have exec : ((menuCfg text).get i).exec.Inside text.length := inside.getD 4
    have params : ((menuCfg text).get i).params.Inside text.length := inside.getD 5
    generalize ((menuCfg text).get i).exec = name at exec
    generalize ((menuCfg text).get i).params = args at params
    have name_length := exec.length (k := if name.sz < nameSz then name.sz else nameSz) (by split_ifs <;> omega)
    have args_length := params.length (k := if args.sz < argsSz then args.sz else argsSz) (by split_ifs <;> omega)
    constructor
    · intro right
      have report := right.argsSz
      dsimp only at report
      rw [args_length] at report
      split_ifs at report <;> omega
    · intro fill
      refine ⟨?_, ?_, items, name_length.symm, ?_⟩
      · dsimp only
        rw [name_length]
        split_ifs <;> omega
      · dsimp only
        rw [args_length]
        split_ifs <;> omega
      · dsimp only
        rw [args_length]
        split_ifs <;> omega

/-- The line "k=t;1;1;/k;x;" and its end, selected with room for 4 characters of arguments. -/
theorem args_not_reported :
    ¬ MenuRight [0x6b, 0x3d, 0x74, 0x3b, 0x31, 0x3b, 0x31, 0x3b, 0x2f, 0x6b, 0x3b, 0x78, 0x3b, 0x0a] 8 4
    (menu [0x6b, 0x3d, 0x74, 0x3b, 0x31, 0x3b, 0x31, 0x3b, 0x2f, 0x6b, 0x3b, 0x78, 0x3b, 0x0a] 8 4
      fun cfg => if some : 0 < cfg.length then Option.some ⟨0, some⟩ else none) := by
  intro right
  have report := right.argsSz
  revert report
  decide +kernel

end PreTeO.Boot
