import PreTeO.Common.Str

/-!
# The system log buffer (`core/sys/syslog.cpp`)

`write` scrolls the buffer to the next line start until the text has room, and then appends it. A text that does not fit in
the empty buffer never gets room: an empty buffer is not scrolled, and the loop goes on.
-/

namespace PreTeO.Sys
set_option autoImplicit false

open Lib (Mem Byte)
open Common (memCpy memSet strCpy givenText copyOf)

/-- `m_p_console`: the number of bytes of a text that it writes. -/
structure Console where
  write : List Byte → Nat
  write_le : ∀ text, write text ≤ text.length

/-- `cSysLog`, with the memory that its buffer is in. -/
structure SysLog where
  pBuffer : Nat
  szBuffer : Nat
  cpos : Nat
  opos : Nat
  mem : Mem

/-- A call of `write`: the text, and the console, if there is one and the output is enabled. -/
structure LogWrite where
  text : List Byte
  noZero : 0 ∉ text
  console : Option Console

/-- The string at an address, of which `n` characters are looked at. -/
def textFrom (m : Mem) : Nat → Nat → List Byte
  | _, 0 => []
  | p, n + 1 => if m p = 0 then [] else m p :: textFrom m (p + 1) n

namespace SysLog

/-- The log after `object_init`. -/
def start (m : Mem) (pBuffer szBuffer : Nat) : SysLog := ⟨pBuffer, szBuffer, 0, 0, memSet m pBuffer 0 szBuffer⟩

/-- The loop of `scroll_buffer`: over the line ends to the next line start, or over everything. -/
def scrollLoop (s : SysLog) : Nat → Nat → Bool → Nat
  | 0, bscroll, _ => bscroll
  | left + 1, bscroll, blspc =>
    if (s.mem (s.pBuffer + bscroll)).toInt < 0x20 then s.scrollLoop left (bscroll + 1) true
    else if blspc then bscroll
    else s.scrollLoop left (bscroll + 1) blspc

/-- `scroll_buffer`. -/
def scrollBuffer (s : SysLog) : SysLog :=
  if s.cpos ≠ 0 then
    let bscroll := s.scrollLoop s.cpos 0 false
    let mem := memCpy s.mem s.pBuffer (s.pBuffer + bscroll) (s.szBuffer - bscroll)
    { s with
      mem := memSet mem (s.pBuffer + s.szBuffer - bscroll) 0 bscroll
      cpos := s.cpos - bscroll
      opos := if s.opos ≥ bscroll then s.opos - bscroll else 0 }
  else s

/-- The loop of `write`, for a number of rounds. -/
def makeRoom (len : Nat) : Nat → SysLog → Option SysLog
  | 0, _ => none
  | fuel + 1, s =>
    if (s.szBuffer + 2 ^ 32 - s.cpos - 1) % 2 ^ 32 < len then makeRoom len fuel s.scrollBuffer else some s

/-- What the console is given after the text is copied. -/
def output (s : SysLog) : Option Console → SysLog
  | none => s
  | some console =>
    { s with opos := s.opos + console.write (textFrom s.mem (s.pBuffer + s.opos) (s.szBuffer - s.opos)) }

/-- `write`. -/
def write (fuel : Nat) (s : SysLog) (w : LogWrite) : Option SysLog :=
  (makeRoom w.text.length fuel s).map fun s =>
    let copied := strCpy s.mem (s.pBuffer + s.cpos) (givenText w.text) (s.szBuffer - s.cpos)
    let s := output { s with mem := copied.2 } w.console
    { s with cpos := s.cpos + copied.1 }

/-- A sequence of calls. -/
def writes (fuel : Nat) : SysLog → List LogWrite → Option SysLog
  | s, [] => some s
  | s, w :: ws => (s.write fuel w).bind fun t => writes fuel t ws

/-- The text in the buffer. -/
def content (s : SysLog) : List Byte := (List.range s.cpos).map fun i => s.mem (s.pBuffer + i)

/-- The positions are in the buffer, and its text is the end of what was written. -/
structure Good (s : SysLog) (written : List Byte) : Prop where
  opos : s.opos ≤ s.cpos
  cpos : s.cpos < s.szBuffer
  zero : s.mem (s.pBuffer + s.cpos) = 0
  suffix : s.content <:+ written

/-- Every call of the sequence returns, and leaves the buffer good. -/
def Works (s : SysLog) (ws : List LogWrite) : Prop :=
  ∀ n, ∃ fuel t, writes fuel s (ws.take n) = some t ∧ Good t ((ws.take n).flatMap LogWrite.text)

/-! ## Scrolling -/

section Scroll
variable {s t : SysLog} {written : List Byte}

theorem scrollLoop_bounds (s : SysLog) (left bscroll : Nat) (blspc : Bool) :
    bscroll ≤ s.scrollLoop left bscroll blspc ∧ s.scrollLoop left bscroll blspc ≤ bscroll + left := by
  induction left generalizing bscroll blspc with
  | zero => exact ⟨le_rfl, le_rfl⟩
  | succ left ih =>
    rw [scrollLoop]
    split_ifs
    · have := ih (bscroll + 1) true
      omega
    · omega
    · have := ih (bscroll + 1) blspc
      omega

/-- Something is scrolled. -/
theorem scrollLoop_pos (s : SysLog) {left : Nat} (some : left ≠ 0) : 0 < s.scrollLoop left 0 false := by
  obtain ⟨left, rfl⟩ := Nat.exists_eq_succ_of_ne_zero some
  rw [Nat.succ_eq_add_one, scrollLoop]
  by_cases control : (s.mem (s.pBuffer + 0)).toInt < 0x20
  · rw [if_pos control]
    exact (scrollLoop_bounds s left 1 true).1
  · rw [if_neg control, if_neg Bool.false_ne_true]
    exact (scrollLoop_bounds s left 1 false).1

/-- What holds between the calls. The text has no zero. -/
structure Inv (s : SysLog) (written : List Byte) : Prop extends Good s written where
  small : s.szBuffer < 2 ^ 32
  chars : ∀ i, i < s.cpos → s.mem (s.pBuffer + i) ≠ 0

/-- Scrolling moves the text down by some characters, if there are any. -/
theorem Inv.scrollBuffer (inv : Inv s written) : Inv s.scrollBuffer written ∧ s.scrollBuffer.szBuffer = s.szBuffer ∧
    (s.cpos ≠ 0 → s.scrollBuffer.cpos < s.cpos) := by
  by_cases some : s.cpos ≠ 0
  swap
  · rw [SysLog.scrollBuffer, if_neg some]
    exact ⟨inv, rfl, fun h => absurd h some⟩
  have pos := scrollLoop_pos s some
  have le := (scrollLoop_bounds s s.cpos 0 false).2
  rw [SysLog.scrollBuffer, if_pos some]
  generalize s.scrollLoop s.cpos 0 false = b at pos le
  have inside := inv.cpos
  obtain ⟨moved, -⟩ := Common.memCpy_moves s.mem s.pBuffer (s.pBuffer + b) (s.szBuffer - b)
  have byte (i : Nat) (less : i + b ≤ s.cpos) :
      memSet (memCpy s.mem s.pBuffer (s.pBuffer + b) (s.szBuffer - b)) (s.pBuffer + s.szBuffer - b) 0 b (s.pBuffer + i) =
        s.mem (s.pBuffer + (b + i)) := by
    rw [memSet, Mem.blit_out (by omega), moved i (by omega), Nat.add_assoc]
  refine ⟨⟨⟨?_, ?_, ?_, ?_⟩, inv.small, ?_⟩, rfl, fun _ => ?_⟩
  · have := inv.opos
    dsimp only
    split_ifs <;> omega
  · dsimp only
    omega
  · dsimp only
    rw [byte _ (by omega), Nat.add_sub_cancel' (by omega)]
    exact inv.zero
  · refine List.IsSuffix.trans ?_ inv.suffix
    have dropped : content { s with
        mem := memSet (memCpy s.mem s.pBuffer (s.pBuffer + b) (s.szBuffer - b)) (s.pBuffer + s.szBuffer - b) 0 b
        cpos := s.cpos - b
        opos := if s.opos ≥ b then s.opos - b else 0 } = s.content.drop b := by
      refine List.ext_getElem (by simp [content]) fun i first second => ?_
      simp only [content, List.length_map, List.length_range] at first
      simp only [content, List.getElem_map, List.getElem_range, List.getElem_drop]
      exact byte i (by omega)
    rw [dropped]
    exact List.drop_suffix b _
  · intro i less
    dsimp only at less ⊢
    rw [byte i (by omega)]
    exact inv.chars _ (by omega)
  · dsimp only
    omega

theorem Inv.room (inv : Inv s written) : (s.szBuffer + 2 ^ 32 - s.cpos - 1) % 2 ^ 32 = s.szBuffer - s.cpos - 1 := by
  have := inv.cpos
  have := inv.small
  omega

/-- A text that fits in the buffer gets room, once the buffer is empty at the latest. -/
theorem Inv.makeRoom {len fuel : Nat} (inv : Inv s written) (fits : len < s.szBuffer) (enough : s.cpos < fuel) :
    ∃ t, makeRoom len fuel s = some t := by
  induction fuel generalizing s with
  | zero => omega
  | succ fuel ih =>
    rw [SysLog.makeRoom, inv.room]
    split_ifs with full
    · obtain ⟨next, same, less⟩ := inv.scrollBuffer
      have some : s.cpos ≠ 0 := by omega
      exact ih next (by omega) (by have := less some; omega)
    · exact ⟨s, rfl⟩

/-- If there is room in the end, then the text fits. -/
theorem Inv.made {len fuel : Nat} (inv : Inv s written) (made : SysLog.makeRoom len fuel s = some t) :
    Inv t written ∧ t.szBuffer = s.szBuffer ∧ t.cpos + len < t.szBuffer := by
  induction fuel generalizing s with
  | zero => cases made
  | succ fuel ih =>
    rw [SysLog.makeRoom, inv.room] at made
    split_ifs at made with full
    · obtain ⟨next, same, -⟩ := inv.scrollBuffer
      obtain ⟨after, size, room⟩ := ih next made
      exact ⟨after, size.trans same, room⟩
    · cases made
      have := inv.cpos
      exact ⟨inv, rfl, by omega⟩

end Scroll

/-! ## Writing -/

section Write
variable {s t : SysLog} {written : List Byte} {w : LogWrite}

theorem textFrom_length_le {m : Mem} {p n k : Nat} (zero : m (p + k) = 0) : (textFrom m p n).length ≤ k := by
  induction n generalizing p k with
  | zero => exact Nat.zero_le k
  | succ n ih =>
    rw [textFrom]
    split_ifs with ends
    · exact Nat.zero_le k
    · obtain ⟨k, rfl⟩ : ∃ j, k = j + 1 := Nat.exists_eq_succ_of_ne_zero fun h => ends (by rwa [h] at zero)
      exact Nat.succ_le_succ (ih (by rwa [Nat.add_assoc, Nat.add_comm 1 k]))

/-- The console writes no more than there is up to the zero. -/
theorem output_spec (s : SysLog) (console : Option Console) {k : Nat} (zero : s.mem (s.pBuffer + k) = 0) (low : s.opos ≤ k) :
    ∃ opos, output s console = { s with opos := opos } ∧ opos ≤ k := by
  cases console with
  | none => exact ⟨s.opos, rfl, low⟩
  | some console =>
    refine ⟨_, rfl, ?_⟩
    have written := console.write_le (textFrom s.mem (s.pBuffer + s.opos) (s.szBuffer - s.opos))
    have place : s.pBuffer + s.opos + (k - s.opos) = s.pBuffer + k := by omega
    have length := textFrom_length_le (n := s.szBuffer - s.opos) (place ▸ zero)
    omega

/-- A text that has room is appended. -/
theorem Inv.append (inv : Inv s written) (room : s.cpos + w.text.length < s.szBuffer) :
    let copied := strCpy s.mem (s.pBuffer + s.cpos) (givenText w.text) (s.szBuffer - s.cpos)
    let u := output { s with mem := copied.2 } w.console
    Inv { u with cpos := u.cpos + copied.1 } (written ++ w.text) ∧ u.szBuffer = s.szBuffer := by
  have small := inv.small
  have low : s.opos ≤ s.cpos + w.text.length := inv.opos.trans (Nat.le_add_right _ _)
  have copied : 1 ≤ s.szBuffer - s.cpos ∧ s.szBuffer - s.cpos < 2 ^ 32 := by omega
  have spec := Common.strCpy_spec (m := s.mem) w.noZero (Common.steady_given (s.pBuffer + s.cpos) w.text)
    (fun _ _ _ => rfl) copied.1 copied.2
  rw [Nat.min_eq_left (by omega)] at spec
  dsimp only
  rw [spec]
  dsimp only
  -- the bytes of the buffer up to the new end
  have old (i : Nat) (less : i < s.cpos) : copyOf w.text (s.pBuffer + s.cpos) 0 w.text.length s.mem (s.pBuffer + i) =
      s.mem (s.pBuffer + i) := by
    rw [Common.copyOf_at (Nat.zero_le _), if_neg (by omega)]
  have new (i : Nat) (less : i < w.text.length) :
      copyOf w.text (s.pBuffer + s.cpos) 0 w.text.length s.mem (s.pBuffer + (s.cpos + i)) = w.text.getD i 0 := by
    have offset : s.pBuffer + (s.cpos + i) - (s.pBuffer + s.cpos) = i := by omega
    rw [Common.copyOf_at (Nat.zero_le _), if_pos (by omega), if_pos (by omega), offset]
  have zero : copyOf w.text (s.pBuffer + s.cpos) 0 w.text.length s.mem (s.pBuffer + (s.cpos + w.text.length)) = 0 := by
    rw [Common.copyOf_at (Nat.zero_le _), if_pos (by omega), if_neg (by omega)]
  generalize copyOf w.text (s.pBuffer + s.cpos) 0 w.text.length s.mem = m at old new zero
  obtain ⟨opos, same, le⟩ := output_spec { s with mem := m } w.console (k := s.cpos + w.text.length) zero low
  rw [same]
  refine ⟨⟨⟨le, room, zero, ?_⟩, small, fun i less => ?_⟩, rfl⟩
  · have appended : content { s with mem := m, opos := opos, cpos := s.cpos + w.text.length } = s.content ++ w.text := by
      refine List.ext_getElem (by simp [content]) fun i first second => ?_
      simp only [content, List.length_map, List.length_range] at first
      simp only [content, List.getElem_map, List.getElem_range]
      by_cases before : i < s.cpos
      · rw [List.getElem_append_left (by simpa [content] using before)]
        simpa [content] using old i before
      · have index : s.cpos + (i - s.cpos) = i := by omega
        have char := new (i - s.cpos) (by omega)
        rw [index, List.getD_eq_getElem _ _ (by omega)] at char
        rw [List.getElem_append_right (by simpa [content] using before), char]
        simp
    obtain ⟨before, split⟩ := inv.suffix
    exact ⟨before, by rw [appended, ← split, List.append_assoc]⟩
  · dsimp only at less ⊢
    by_cases before : i < s.cpos
    · rw [old i before]
      exact inv.chars i before
    · have index : s.cpos + (i - s.cpos) = i := by omega
      have char := new (i - s.cpos) (by omega)
      rw [index] at char
      rw [char]
      exact Common.getD_ne_zero w.noZero (by omega)

/-- A call that returns: the text fits. -/
theorem Inv.write {fuel : Nat} (inv : Inv s written) (returns : s.write fuel w = some t) :
    Inv t (written ++ w.text) ∧ t.szBuffer = s.szBuffer ∧ w.text.length < s.szBuffer := by
  obtain ⟨u, made, rfl⟩ := Option.map_eq_some_iff.mp returns
  obtain ⟨after, size, room⟩ := inv.made made
  obtain ⟨appended, same⟩ := after.append room
  exact ⟨appended, same.trans size, by omega⟩

theorem Inv.write_returns (inv : Inv s written) (fits : w.text.length < s.szBuffer) :
    ∃ t, s.write s.szBuffer w = some t := by
  obtain ⟨t, made⟩ := inv.makeRoom fits inv.cpos
  exact ⟨_, by rw [SysLog.write, made, Option.map_some]⟩

theorem Inv.writes {fuel : Nat} {ws : List LogWrite} (inv : Inv s written) (returns : SysLog.writes fuel s ws = some t) :
    Inv t (written ++ ws.flatMap LogWrite.text) ∧ ∀ w ∈ ws, w.text.length < s.szBuffer := by
  induction ws generalizing s written with
  | nil =>
    cases returns
    rw [List.flatMap_nil, List.append_nil]
    exact ⟨inv, by simp⟩
  | cons w ws ih =>
    obtain ⟨u, first, rest⟩ := Option.bind_eq_some_iff.mp returns
    obtain ⟨after, size, fits⟩ := inv.write first
    obtain ⟨all, fit⟩ := ih after rest
    rw [List.flatMap_cons, ← List.append_assoc]
    exact ⟨all, List.forall_mem_cons.mpr ⟨fits, size ▸ fit⟩⟩

theorem Inv.writes_return {ws : List LogWrite} (inv : Inv s written) (fit : ∀ w ∈ ws, w.text.length < s.szBuffer) :
    ∃ t, SysLog.writes s.szBuffer s ws = some t := by
  induction ws generalizing s written with
  | nil => exact ⟨s, rfl⟩
  | cons w ws ih =>
    obtain ⟨fits, rest⟩ := List.forall_mem_cons.mp fit
    obtain ⟨u, first⟩ := inv.write_returns fits
    obtain ⟨after, size, -⟩ := inv.write first
    obtain ⟨t, returns⟩ := ih after (size ▸ rest)
    rw [size] at returns
    exact ⟨t, by rw [SysLog.writes, first, Option.bind_some, returns]⟩

end Write

theorem start_inv (m : Mem) (pBuffer : Nat) {szBuffer : Nat} (some : 0 < szBuffer) (small : szBuffer < 2 ^ 32) :
    Inv (start m pBuffer szBuffer) [] where
  opos := le_rfl
  cpos := some
  zero := by
    have byte : memSet m pBuffer 0 szBuffer (pBuffer + 0) = 0 := Mem.blit_in (Nat.le_add_right _ _) (by omega)
    exact byte
  suffix := List.suffix_refl []
  small := small
  chars i less := absurd less (Nat.not_lt_zero i)

/-- The log works for a sequence of texts exactly if each of them is shorter than the buffer. -/
theorem works_iff (m : Mem) (pBuffer : Nat) {szBuffer : Nat} (some : 0 < szBuffer) (small : szBuffer < 2 ^ 32)
    (ws : List LogWrite) : Works (start m pBuffer szBuffer) ws ↔ ∀ w ∈ ws, w.text.length < szBuffer := by
  have inv := start_inv m pBuffer some small
  constructor
  · intro works
    obtain ⟨fuel, t, returns, -⟩ := works ws.length
    rw [List.take_length] at returns
    exact (inv.writes returns).2
  · intro fit n
    have prefixes : ∀ w ∈ ws.take n, w.text.length < szBuffer := fun w member => fit w (List.mem_of_mem_take member)
    obtain ⟨t, returns⟩ := inv.writes_return prefixes
    exact ⟨_, t, returns, (inv.writes returns).1.toGood⟩

/-- A console that writes every text. -/
def wholeConsole : Console := ⟨List.length, fun _ => le_rfl⟩

/-- Five texts of 3 characters in a buffer of 8 bytes, with a console. -/
theorem works_iff_eight :
    Works (start (fun _ => 0x20) 64 8) (List.replicate 5 ⟨[0x61, 0x62, 0x0a], by decide, some wholeConsole⟩) := by
  refine (works_iff _ _ (by decide) (by decide) _).mpr fun w mem => ?_
  rw [List.eq_of_mem_replicate mem]
  decide

/-- A text as long as the buffer is waited for forever. -/
theorem long_text_never_written : ¬ Works (start (fun _ => 0x20) 64 4) [⟨[0x61, 0x62, 0x63, 0x64], by decide, none⟩] := by
  intro works
  obtain ⟨fuel, t, returns, -⟩ := works 1
  have inv := start_inv (fun _ => 0x20) 64 (show 0 < 4 by decide) (by decide)
  have fits := (inv.writes returns).2 _ List.mem_cons_self
  exact absurd fits (by decide)

end SysLog

end PreTeO.Sys
