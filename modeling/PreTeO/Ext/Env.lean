import Mathlib.Data.List.Forall2
import PreTeO.Common.Str
import PreTeO.Lib.Run

/-!
# The environment (`ext/init/lib/env.cpp`)

A variable is an entry of a vector with a buffer `name=value`. The length of the name has 8 bits, the sizes of the value and
of the buffer have 16. `set` looks for the entry: it makes a new one, or gives the one it has found another value, but of
that it never reports success. A buffer is its size and its bytes; the heap and the vector may fail, and what a new buffer has in
it is not known.
-/

namespace PreTeO.Ext.Env
set_option autoImplicit false

open Lib (Mem Byte Reach)
open Common

def equals : Byte := 0x3d

/-- What the heap gives: the size that was asked for, and the bytes. -/
structure Buffer where
  size : Nat
  mem : Mem

/-- `_env_entry_t`. The data are `none` if the pointer is null. -/
structure EnvEntry where
  szVname : Nat
  szValue : Nat
  szVdata : Nat
  data : Option Buffer

/-- `m_p_vector`. -/
abbrev Entries := List EnvEntry

/-- A byte that is written: its offset in a buffer, and the size of the buffer. -/
structure Write where
  offset : Nat
  size : Nat

/-- A call of `set`, with what the heap has in a new buffer (`none` if it has none), and if the vector takes an entry. -/
structure SetCall where
  var : List Byte
  val : List Byte
  alloc : Option Mem
  added : Bool
  noZero : 0 ∉ var
  short : var.length + 1 < 2 ^ 32
  szVal : val.length < 2 ^ 16

/-- `alloc_var_buffer`: `*sz_buffer`, the buffer, and the bytes that are written. -/
def allocVarBuffer (vname val : List Byte) (szVal : Nat) (alloc : Option Mem) : Nat × Option Buffer × List Write :=
  let szBuffer := (vname.length + szVal + 2) % 2 ^ 16
  match alloc with
  | none => (szBuffer, none, [])
  | some r =>
    let r := memSet r 0 0 szBuffer
    let copied := strCpy r 0 (givenText vname) (vname.length + 1)
    let r := Function.update copied.2 copied.1 equals
    let bidx := copied.1 + 1
    let r := Mem.blit r bidx szVal fun i => val.getD i 0
    (szBuffer, some ⟨szBuffer, r⟩, (List.range szBuffer ++ List.range (bidx + szVal)).map (⟨·, szBuffer⟩))

/-- `get(vname)` over the entries that are left, of which the first has the index `i`. `none` is a null pointer that is
followed. -/
def find (vname : List Byte) : Entries → Nat → Option (Option (Nat × EnvEntry))
  | [], _ => some none
  | r :: rest, i =>
    if vname.length = r.szVname then
      match r.data with
      | none => if r.szVname = 0 then some (some (i, r)) else none
      | some data =>
        if memCmp (fun j => vname.getD j 0) data.mem r.szVname = 0 then some (some (i, r)) else find vname rest (i + 1)
    else find vname rest (i + 1)

/-- `get(var, &val, &sz_val)`, with the bytes that `val` points to. -/
def get (env : Entries) (var : List Byte) : Option (Option (List Byte)) :=
  (find var env 0).bind fun found =>
    match found with
    | none => some none
    | some (_, p) => p.data.map fun data => some ((List.range p.szValue).map fun i => data.mem (p.szVname + 1 + i))

/-- What `set` leaves: the entries, its result, and the bytes of buffers that it has written. -/
structure SetOut where
  env : Entries
  ret : Bool
  writes : List Write

/-- `set`. -/
def set (env : Entries) (c : SetCall) : Option SetOut :=
  match find c.var env 0 with
  | none => none
  | some (some (i, p)) =>
    if p.szValue < c.val.length then
      let (szVdata, data, writes) := allocVarBuffer c.var c.val (c.val.length % 2 ^ 16) c.alloc
      some {
        env := env.set i { p with szValue := c.val.length % 2 ^ 16, szVdata := szVdata, data := data }
        ret := false
        writes := writes }
    else
      p.data.map fun data =>
        let r := memSet data.mem (p.szVname + 1) 0 p.szValue
        let r := Mem.blit r (p.szVname + 1) c.val.length fun i => c.val.getD i 0
        { env := env.set i { p with szValue := c.val.length % 2 ^ 16, data := some { data with mem := r } }
          ret := false
          writes := (List.range p.szValue ++ List.range c.val.length).map fun i => ⟨p.szVname + 1 + i, data.size⟩ }
  | some none =>
    let (szVdata, data, writes) := allocVarBuffer c.var c.val (c.val.length % 2 ^ 16) c.alloc
    match data with
    | none => some { env := env, ret := false, writes := writes }
    | some data =>
      if c.added then
        let envNew := {
          szVname := c.var.length % 2 ^ 8
          szValue := c.val.length % 2 ^ 16
          szVdata := szVdata
          data := some data }
        some { env := env ++ [envNew], ret := true, writes := writes }
      else some { env := env, ret := false, writes := writes }

/-- A call of the interface. -/
inductive Call where
  | set (c : SetCall)
  | get (var : List Byte)
  | clr

/-- The entries after a call. -/
def step (env : Entries) : Call → Option Entries
  | .set c => (set env c).map SetOut.env
  | .get var => (get env var).map fun _ => env
  | .clr => some []

/-! ## What a call should do -/

/-- `set` returns true exactly if `get` then gives the value, the other variables are as they were, a failure leaves the
value that was there, and only bytes of buffers are written. -/
structure Sets (env : Entries) (c : SetCall) (out : SetOut) : Prop where
  ret : out.ret = true ↔ get out.env c.var = some (some c.val)
  others : ∀ w, w ≠ c.var → get out.env w = get env w
  failed : out.ret = false → get out.env c.var = get env c.var
  inside : ∀ w ∈ out.writes, w.offset < w.size

def SetRight (env : Entries) (c : SetCall) : Prop := ∃ out, set env c = some out ∧ Sets env c out

/-- The variable is a new one, and there is no buffer for it, or it has a size of 16 bits, and the vector does not take the
entry, or the length of the name has 8 bits. -/
def CanSet (env : Entries) (c : SetCall) : Prop :=
  get env c.var = some none ∧
    (c.alloc = none ∨ c.var.length + c.val.length + 2 < 2 ^ 16 ∧ (c.added = false ∨ c.var.length < 2 ^ 8))

/-- The condition on a call. -/
def Call.Ok (env : Entries) : Call → Prop
  | .set c => CanSet env c
  | .get _ => True
  | .clr => True

/-! ## Entries that hold a variable -/

/-- The entry holds the name and the value. -/
structure Holds (e : EnvEntry) (v : List Byte × List Byte) : Prop where
  szVname : e.szVname = v.1.length
  szValue : e.szValue = v.2.length
  data : ∃ b, e.data = some b ∧ (∀ i, i < v.1.length → b.mem i = v.1.getD i 0) ∧
    (∀ i, i < v.2.length → b.mem (v.1.length + 1 + i) = v.2.getD i 0) ∧ v.1.length + 1 + v.2.length ≤ b.size

/-- The variables that the entries hold. -/
abbrev Represents (env : Entries) (vs : List (List Byte × List Byte)) : Prop := List.Forall₂ Holds env vs

section Lookup
variable {env es : Entries} {e : EnvEntry} {vs : List (List Byte × List Byte)} {v : List Byte × List Byte}
    {w : List Byte} {i : Nat}

/-- An entry is found by its own name. -/
theorem find_here (holds : Holds e v) (same : v.1 = w) : find w (e :: es) i = some (some (i, e)) := by
  obtain ⟨b, data, name, -⟩ := holds.data
  rw [find, if_pos (by rw [holds.szVname, same]), data]
  refine if_pos (memCmp_eq_zero.mpr fun j less => ?_)
  rw [holds.szVname] at less
  rw [name j less, same]

/-- The bytes that are compared are the names. -/
theorem find_other (holds : Holds e v) (other : v.1 ≠ w) : find w (e :: es) i = find w es (i + 1) := by
  obtain ⟨b, data, name, -⟩ := holds.data
  rw [find]
  by_cases length : w.length = e.szVname
  · rw [if_pos length, data]
    refine if_neg fun zero => other ?_
    have chars := memCmp_eq_zero.mp zero
    rw [holds.szVname] at chars length
    refine List.ext_getElem length.symm fun j less less' => ?_
    have char := chars j less
    rw [name j less, List.getD_eq_getElem _ _ less, List.getD_eq_getElem _ _ less'] at char
    exact char.symm
  · rw [if_neg length]

theorem find_append (rep : Represents env vs) (none : ∀ v ∈ vs, v.1 ≠ w) :
    find w (env ++ es) i = find w es (i + env.length) := by
  induction rep generalizing i with
  | nil => rfl
  | cons holds _ ih =>
    rw [List.forall_mem_cons] at none
    rw [List.cons_append, find_other holds none.1, ih none.2, List.length_cons, Nat.add_assoc, Nat.add_comm 1]

/-- The first entry with the name. -/
theorem split_at (rep : Represents env vs) (w : List Byte) :
    (∀ v ∈ vs, v.1 ≠ w) ∨ ∃ es₁ e es₂ vs₁ v vs₂, env = es₁ ++ e :: es₂ ∧ vs = vs₁ ++ v :: vs₂ ∧ Represents es₁ vs₁ ∧
      Holds e v ∧ Represents es₂ vs₂ ∧ v.1 = w ∧ ∀ v ∈ vs₁, v.1 ≠ w := by
  induction rep with
  | nil => exact .inl fun v mem => by cases mem
  | @cons e v es vs holds rest ih =>
    by_cases same : v.1 = w
    · exact .inr ⟨[], e, es, [], v, vs, rfl, rfl, .nil, holds, rest, same, fun v mem => by cases mem⟩
    · rcases ih with none | ⟨es₁, e', es₂, vs₁, v', vs₂, rfl, rfl, rep₁, holds', rep₂, same', others⟩
      · exact .inl (List.forall_mem_cons.mpr ⟨same, none⟩)
      · exact .inr ⟨e :: es₁, e', es₂, v :: vs₁, v', vs₂, rfl, rfl, .cons holds rep₁, holds', rep₂, same',
          List.forall_mem_cons.mpr ⟨same, others⟩⟩

theorem get_none (rep : Represents env vs) (none : ∀ v ∈ vs, v.1 ≠ w) : get env w = some Option.none := by
  have found : find w (env ++ []) 0 = find w [] (0 + env.length) := find_append rep none
  rw [List.append_nil] at found
  rw [get, found]
  rfl

/-- The value of the first entry with the name. -/
theorem get_here {es₁ : Entries} {vs₁ : List (List Byte × List Byte)} (rep : Represents es₁ vs₁)
    (none : ∀ v ∈ vs₁, v.1 ≠ w) (holds : Holds e v) (same : v.1 = w) : get (es₁ ++ e :: es) w = some (some v.2) := by
  obtain ⟨b, data, -, value, -⟩ := holds.data
  rw [get, find_append rep none, find_here holds same, Option.bind_some]
  dsimp only
  rw [data, Option.map_some, holds.szValue, holds.szVname]
  congr 2
  refine List.ext_getElem (by rw [List.length_map, List.length_range]) fun j less less' => ?_
  rw [List.getElem_map, List.getElem_range, value j less', List.getD_eq_getElem _ _ less']

/-- `get` gives the value of the first variable with the name. -/
theorem get_eq (rep : Represents env vs) :
    get env w = some ((vs.find? fun v => v.1 = w).map Prod.snd) := by
  rcases split_at rep w with none | ⟨es₁, e, es₂, vs₁, v, vs₂, rfl, rfl, rep₁, holds, -, same, others⟩
  · rw [get_none rep none, List.find?_eq_none.mpr fun v mem => by simpa using none v mem]
    rfl
  · have first : (vs₁ ++ v :: vs₂).find? (fun v => v.1 = w) = some v :=
      List.find?_eq_some_iff_append.mpr ⟨by simpa using same, vs₁, vs₂, rfl, fun v mem => by simpa using others v mem⟩
    rw [get_here rep₁ others holds same, first]
    rfl

end Lookup

/-! ## New buffers -/

section Alloc
variable {var val : List Byte} {szVal : Nat} {r : Mem}

theorem strCpy_var (noZero : 0 ∉ var) (short : var.length + 1 < 2 ^ 32) (m : Mem) :
    strCpy m 0 (givenText var) (var.length + 1) = (var.length, copyOf var 0 0 var.length m) := by
  have copied := strCpy_spec (m := m) noZero (steady_given 0 var) (fun _ _ _ => rfl) (Nat.le_add_left 1 _) short
  rwa [Nat.add_sub_cancel, Nat.min_self] at copied

/-- The buffer holds the name and the value if its size has 16 bits. -/
theorem allocVarBuffer_holds (noZero : 0 ∉ var) (short : var.length + 1 < 2 ^ 32)
    (fits : var.length + val.length + 2 < 2 ^ 16) :
    ∃ size b writes, allocVarBuffer var val (val.length % 2 ^ 16) (some r) = (size, some b, writes) ∧
      (∀ w ∈ writes, w.offset < w.size) ∧
      ∀ e : EnvEntry, e.szVname = var.length → e.szValue = val.length → e.data = some b → Holds e (var, val) := by
  have sz : val.length % 2 ^ 16 = val.length := Nat.mod_eq_of_lt (by omega)
  have size : (var.length + val.length + 2) % 2 ^ 16 = var.length + val.length + 2 := Nat.mod_eq_of_lt fits
  rw [allocVarBuffer]
  simp only [sz, size, strCpy_var noZero short]
  refine ⟨_, _, _, rfl, fun w mem => ?_, fun e szVname szValue data =>
    ⟨szVname, szValue, _, data, fun i less => ?_, fun i less => ?_, ?_⟩⟩
  · obtain ⟨o, inside, rfl⟩ := List.mem_map.mp mem
    rcases List.mem_append.mp inside with h | h <;> have := List.mem_range.mp h <;> dsimp only <;> omega
  · dsimp only at less ⊢
    rw [Mem.blit_out (by omega), Function.update_of_ne (by omega), copyOf_at (Nat.zero_le _), if_pos (by omega),
      if_pos (by omega), Nat.sub_zero]
  · dsimp only at less ⊢
    rw [Mem.blit_in (by omega) (by omega), Nat.add_sub_cancel_left]
  · dsimp only
    omega

/-- With a larger size, the last byte of the value or the `=` is written behind the buffer. -/
theorem allocVarBuffer_outside (noZero : 0 ∉ var) (short : var.length + 1 < 2 ^ 32) (szVal : val.length < 2 ^ 16)
    (large : ¬ var.length + val.length + 2 < 2 ^ 16) :
    ∃ size b writes, allocVarBuffer var val (val.length % 2 ^ 16) (some r) = (size, some b, writes) ∧
      ¬ ∀ w ∈ writes, w.offset < w.size := by
  rw [allocVarBuffer]
  simp only [Nat.mod_eq_of_lt szVal, strCpy_var noZero short]
  refine ⟨_, _, _, rfl, fun inside => ?_⟩
  have last := inside ⟨var.length + val.length, (var.length + val.length + 2) % 2 ^ 16⟩
    (List.mem_map.mpr ⟨_, List.mem_append_right _ (List.mem_range.mpr (by omega)), rfl⟩)
  dsimp only at last
  omega

end Alloc

/-! ## Setting -/

section Set
variable {env es₁ es₂ : Entries} {e : EnvEntry} {vs vs₁ : List (List Byte × List Byte)} {v : List Byte × List Byte}
    {c : SetCall}

theorem find_none (rep : Represents env vs) {w : List Byte} (none : ∀ v ∈ vs, v.1 ≠ w) :
    find w env 0 = some Option.none := by
  have all : find w (env ++ []) 0 = find w [] (0 + env.length) := find_append rep none
  rwa [List.append_nil] at all

/-- What `set` does with a new variable that there is no room for, or enough: nothing, or a new entry. -/
theorem set_new (rep : Represents env vs) (none : ∀ v ∈ vs, v.1 ≠ c.var)
    (can : c.alloc = Option.none ∨ c.var.length + c.val.length + 2 < 2 ^ 16 ∧ (c.added = false ∨ c.var.length < 2 ^ 8)) :
    ∃ out, set env c = some out ∧ (∀ w ∈ out.writes, w.offset < w.size) ∧
      (out.ret = false ∧ out.env = env ∨ out.ret = true ∧ ∃ e, out.env = env ++ [e] ∧ Holds e (c.var, c.val)) := by
  rw [set, find_none rep none]
  dsimp only
  rcases mem : c.alloc with - | r
  · exact ⟨_, rfl, fun w mem => (by cases mem), .inl ⟨rfl, rfl⟩⟩
  · obtain ⟨fits, short⟩ := can.resolve_left (by simp [mem])
    obtain ⟨size, b, writes, alloc, inside, holds⟩ := allocVarBuffer_holds (r := r) c.noZero c.short fits
    simp only [alloc]
    cases add : c.added with
    | false => exact ⟨_, rfl, inside, .inl ⟨rfl, rfl⟩⟩
    | true =>
      have small := short.resolve_left (by simp [add])
      exact ⟨_, rfl, inside, .inr ⟨rfl, _, rfl, holds _ (Nat.mod_eq_of_lt small) (Nat.mod_eq_of_lt c.szVal) rfl⟩⟩

/-- A new entry gives its variable the value, and no other one. -/
theorem sets_new {out : SetOut} {e : EnvEntry} (rep : Represents env vs) (none : ∀ v ∈ vs, v.1 ≠ c.var)
    (inside : ∀ w ∈ out.writes, w.offset < w.size) (ret : out.ret = true) (added : out.env = env ++ [e])
    (holds : Holds e (c.var, c.val)) : Sets env c out where
  ret := by
    rw [added]
    exact iff_of_true ret (get_here rep none holds rfl)
  others := by
    intro w other
    have rep' : Represents (env ++ [e]) (vs ++ [(c.var, c.val)]) := List.rel_append rep (.cons holds .nil)
    have notHere : [(c.var, c.val)].find? (fun v => v.1 = w) = Option.none := by
      rw [List.find?_cons_of_neg (by simpa using Ne.symm other), List.find?_nil]
    rw [added, get_eq rep', get_eq rep, List.find?_append, notHere, Option.or_none]
  failed := fun no => absurd (ret.symm.trans no) (by decide)
  inside := inside

/-- A new variable whose size or name is too long, for which there is room. -/
theorem not_setRight_new (rep : Represents env vs) (none : ∀ v ∈ vs, v.1 ≠ c.var) {r : Mem} (mem : c.alloc = some r)
    (cannot : ¬ (c.var.length + c.val.length + 2 < 2 ^ 16 ∧ (c.added = false ∨ c.var.length < 2 ^ 8))) :
    ¬ SetRight env c := by
  rintro ⟨out, done, sets⟩
  rw [set, find_none rep none] at done
  simp only [mem] at done
  by_cases fits : c.var.length + c.val.length + 2 < 2 ^ 16
  · obtain ⟨size, b, writes, alloc, -⟩ := allocVarBuffer_holds (r := r) c.noZero c.short fits
    have late : c.added = true ∧ ¬ c.var.length < 2 ^ 8 := by simpa using fun h => cannot ⟨fits, h⟩
    simp only [alloc, late.1, if_true] at done
    cases done
    have value := sets.ret.mp rfl
    have shorter : c.var.length ≠ c.var.length % 2 ^ 8 := by omega
    rw [get, find_append rep none, find, if_neg shorter] at value
    cases value
  · obtain ⟨size, b, writes, alloc, outside⟩ := allocVarBuffer_outside (r := r) c.noZero c.short c.szVal fits
    simp only [alloc] at done
    split_ifs at done <;> cases done <;> exact outside sets.inside

theorem setRight_new (rep : Represents env vs) (none : ∀ v ∈ vs, v.1 ≠ c.var) : SetRight env c ↔ CanSet env c := by
  have before := get_none rep none
  rw [CanSet, and_iff_right before]
  constructor
  · intro right
    rcases mem : c.alloc with - | r
    · exact .inl rfl
    · by_contra cannot
      exact not_setRight_new rep none mem (fun can => cannot (.inr can)) right
  · intro can
    obtain ⟨out, done, inside, ⟨ret, same⟩ | ⟨ret, e, added, holds⟩⟩ := set_new rep none can
    · refine ⟨out, done, ?_, fun _ _ => by rw [same], fun _ => by rw [same], inside⟩
      rw [ret, same, before]
      exact iff_of_false Bool.false_ne_true (by simp)
    · exact ⟨out, done, sets_new rep none inside ret added holds⟩

/-- A variable that is there: the result is false, whatever is done. -/
theorem not_setRight_here (rep₁ : Represents es₁ vs₁) (none : ∀ v ∈ vs₁, v.1 ≠ c.var) (holds : Holds e v)
    (same : v.1 = c.var) :
    ¬ SetRight (es₁ ++ e :: es₂) c := by
  rintro ⟨out, done, sets⟩
  have before : get (es₁ ++ e :: es₂) c.var = some (some v.2) := get_here rep₁ none holds same
  have found : find c.var (es₁ ++ e :: es₂) 0 = some (some (es₁.length, e)) := by
    rw [find_append rep₁ none, find_here holds same, Nat.zero_add]
  have put (e' : EnvEntry) : (es₁ ++ e :: es₂).set es₁.length e' = es₁ ++ e' :: es₂ := by
    rw [List.set_append_right _ _ le_rfl, Nat.sub_self, List.set_cons_zero]
  have length : e.szVname = c.var.length := by rw [holds.szVname, same]
  have szVal := Nat.mod_eq_of_lt c.szVal
  -- an entry that holds the value is found, and the result is false
  have noneHolds (e' : EnvEntry) (env' : out.env = es₁ ++ e' :: es₂) (ret : out.ret = false)
      (new : Holds e' (c.var, c.val)) :
      False := by
    have value := sets.ret
    rw [env', get_here rep₁ none new rfl, ret] at value
    exact Bool.false_ne_true (value.mpr rfl)
  rw [set, found] at done
  dsimp only at done
  by_cases grows : e.szValue < c.val.length
  · rw [if_pos grows] at done
    rcases mem : c.alloc with - | r
    · simp only [mem, allocVarBuffer, put] at done
      cases done
      have lost := sets.failed rfl
      rw [before, get, find_append rep₁ none, find, if_pos length.symm] at lost
      dsimp only at lost
      split_ifs at lost <;> cases lost
    · rw [mem] at done
      by_cases fits : c.var.length + c.val.length + 2 < 2 ^ 16
      · obtain ⟨size, b, writes, alloc, -, new⟩ := allocVarBuffer_holds (r := r) c.noZero c.short fits
        simp only [alloc, put] at done
        cases done
        exact noneHolds _ rfl rfl (new _ length szVal rfl)
      · obtain ⟨size, b, writes, alloc, outside⟩ := allocVarBuffer_outside (r := r) c.noZero c.short c.szVal fits
        simp only [alloc] at done
        cases done
        exact outside sets.inside
  · rw [if_neg grows] at done
    obtain ⟨b, data, name, -, room⟩ := holds.data
    simp only [data, Option.map_some, put] at done
    cases done
    refine noneHolds _ rfl rfl ⟨length, szVal, _, rfl, fun i less => ?_, fun i less => ?_, ?_⟩
    · dsimp only at less ⊢
      rw [Mem.blit_out (by omega), memSet, Mem.blit_out (by omega), name i (by rw [same]; exact less), same]
    · dsimp only at less ⊢
      rw [length, Mem.blit_in (by omega) (by omega), Nat.add_sub_cancel_left]
    · have size := holds.szValue
      rw [same] at room
      dsimp only
      omega

theorem setRight_iff (rep : Represents env vs) : SetRight env c ↔ CanSet env c := by
  rcases split_at rep c.var with none | ⟨es₁, e, es₂, vs₁, v, vs₂, rfl, rfl, rep₁, holds, -, same, others⟩
  · exact setRight_new rep none
  · refine iff_of_false (not_setRight_here rep₁ others holds same) fun can => ?_
    have absent := can.1
    rw [get_here rep₁ others holds same] at absent
    cases absent

/-- The entries hold variables after every call that meets the condition. -/
theorem step_represents {env' : Entries} {call : Call} (rep : Represents env vs) (ok : call.Ok env)
    (next : step env call = some env') : ∃ vs', Represents env' vs' := by
  cases call with
  | set c =>
    have none : ∀ v ∈ vs, v.1 ≠ c.var := by
      have absent := ok.1
      rw [get_eq rep, Option.some.injEq, Option.map_eq_none_iff, List.find?_eq_none] at absent
      exact fun v mem => by simpa using absent v mem
    obtain ⟨out, done, -, ⟨-, same⟩ | ⟨-, e, added, holds⟩⟩ := set_new rep none ok.2
    · rw [step, done] at next
      cases next
      exact ⟨vs, same ▸ rep⟩
    · rw [step, done] at next
      cases next
      have rep' : Represents (env ++ [e]) (vs ++ [(c.var, c.val)]) := List.rel_append rep (.cons holds .nil)
      exact ⟨_, added ▸ rep'⟩
  | get var =>
    obtain ⟨_, -, rfl⟩ := Option.map_eq_some_iff.mp next
    exact ⟨vs, rep⟩
  | clr =>
    cases next
    exact ⟨[], .nil⟩

theorem reach_represents (run : Reach step (fun env call => call.Ok env) [] env) : ∃ vs, Represents env vs := by
  apply run.invariant
  · exact ⟨[], .nil⟩
  · rintro env call env' ⟨vs, rep⟩ ok next
    exact step_represents rep ok next

end Set

/-- After a run of calls that meet the condition, a call of `set` does what it should exactly if it meets the condition too,
`get` gives a value or nothing, and `clr` leaves no variable. -/
theorem setRight_iff_canSet {env : Entries} (run : Reach step (fun env call => call.Ok env) [] env) :
    (∀ c, SetRight env c ↔ CanSet env c) ∧ (∀ var, get env var ≠ none) ∧
      ∀ env', step env .clr = some env' → ∀ var, get env' var = some none := by
  obtain ⟨vs, rep⟩ := reach_represents run
  refine ⟨fun c => setRight_iff rep, fun var => ?_, fun env' next var => ?_⟩
  · rw [get_eq rep]
    exact Option.some_ne_none _
  · cases next
    rfl

/-- `PATH=a` and `LANG=b`. -/
def path : SetCall := ⟨[0x50, 0x41, 0x54, 0x48], [0x61], some fun _ => 0, true, by decide, by decide, by decide⟩

def lang : SetCall := ⟨[0x4c, 0x41, 0x4e, 0x47], [0x62], some fun _ => 0, true, by decide, by decide, by decide⟩

theorem setRight_iff_canSet_lang : ∃ env, step [] (.set path) = some env ∧ SetRight env lang := by
  obtain ⟨env, next⟩ : ∃ env, step [] (.set path) = some env := ⟨_, rfl⟩
  have can : CanSet [] path := ⟨rfl, .inr ⟨by decide, .inr (by decide)⟩⟩
  have fresh : Reach step (fun env call => call.Ok env) [] [] := Reach.refl []
  have run := fresh.snoc (a := Call.set path) can next
  refine ⟨env, next, ((setRight_iff_canSet run).1 lang).mpr ⟨?_, .inr ⟨by decide, .inr (by decide)⟩⟩⟩
  cases next
  decide +kernel

/-- The value of a variable that is there is set, and the result is false. -/
theorem set_again_not_right : ∃ env, step [] (.set path) = some env ∧ ¬ SetRight env { path with val := [0x63] } := by
  obtain ⟨env, next⟩ : ∃ env, step [] (.set path) = some env := ⟨_, rfl⟩
  refine ⟨env, next, ?_⟩
  rintro ⟨out, done, sets⟩
  cases next
  have ret := sets.ret
  cases done
  revert ret
  decide +kernel

end PreTeO.Ext.Env
