import PreTeO.Lib.SearchTree

/-!
# The binary tree of `ext/init/lib/btree.cpp`

A record has two children, a parent, a key and the data behind its header; the key is computed from the data by a hash.
A record is deleted by hanging its two subtrees into the tree again, each where the search for its root ends. The lock
and the case of a tree without a heap are left out.

A step is `none` when it follows a pointer that is null or leads to a record that is not allocated.
-/

namespace PreTeO.Ext
set_option autoImplicit false

/-- `_bth_t` with the data that follow it; `dsize` is their length. -/
structure Bth where
  pl : Option Nat
  pr : Option Nat
  pp : Option Nat
  key : Nat
  data : List Nat
deriving DecidableEq, Repr

/-- `cBTree`: `m_p_first` and the records on its heap. -/
structure BTree where
  first : Option Nat
  live : List Nat
  cell : Nat → Bth

namespace BTree

/-- The record a pointer leads to. -/
def deref (t : BTree) (p : Nat) : Option Bth := if p ∈ t.live then some (t.cell p) else none

/-- A write through a pointer. -/
def write (t : BTree) (p : Nat) (f : Bth → Bth) : Option BTree :=
  if p ∈ t.live then some { t with cell := Function.update t.cell p (f (t.cell p)) } else none

/-- The loop of `find`. -/
def findLoop (t : BTree) (key : Nat) : Nat → Nat → Option (Bool × Nat)
  | 0, _ => none
  | n + 1, pc => do
    let c ← t.deref pc
    if key = c.key then some (true, pc)
    else
      match if key < c.key then c.pl else c.pr with
      | none => some (false, pc)
      | some next => t.findLoop key n next

/-- `find`: whether the key is there, and `*pp_last`. -/
def find (t : BTree) (key : Nat) (begin : Option Nat) : Option (Bool × Option Nat) :=
  match begin.or t.first with
  | none => some (false, none)
  | some p => (t.findLoop key t.live.length p).map fun (found, last) => (found, some last)

/-- `attach`. -/
def attach (t : BTree) (rec : Nat) (parent : Option Nat) : Option BTree := do
  let r ← t.deref rec
  match ← t.find r.key parent with
  | (false, some ppr) => do
    let c ← t.deref ppr
    let t ← if r.key < c.key then t.write ppr fun c => { c with pl := some rec }
      else t.write ppr fun c => { c with pr := some rec }
    t.write rec fun r => { r with pp := some ppr }
  | _ => some t

/-- `add`; `mem` is what the heap returns. -/
def add (makeKey : List Nat → Nat) (t : BTree) (data : List Nat) (mem : Option Nat) : Option (Nat × BTree) := do
  let key := makeKey data
  match ← t.find key none with
  | (true, some rec) => do
    let c ← t.deref rec
    some (c.key, t)
  | (_, last) =>
    match mem with
    | none => some (0, t)
    | some new =>
      let t := { t with live := new :: t.live, cell := Function.update t.cell new ⟨none, none, none, key, data⟩ }
      match last with
      | some rec => (t.attach new (some rec)).map fun t => (key, t)
      | none => some (key, { t with first := some new })

/-- `get`: the data with their size, or null. -/
def get (t : BTree) (key : Nat) : Option (Option (List Nat)) := do
  match ← t.find key none with
  | (true, some rec) => do
    let c ← t.deref rec
    some (some c.data)
  | _ => some none

/-- The first part of `del`: what is left of the pointers to the two children after the record at `p` was cut off. -/
def cut (t : BTree) (p : Nat) (r : Bth) : Option (Option Nat × Option Nat × BTree) :=
  match r.pp with
  | some pp => do
    let c ← t.deref pp
    let t ← if c.pl = some p then t.write pp fun c => { c with pl := none }
      else if c.pr = some p then t.write pp fun c => { c with pr := none }
      else some t
    some (r.pl, r.pr, t)
  | none =>
    if t.first = some p then
      match r.pr with
      | some pr => do
        let t ← t.write pr fun c => { c with pp := none }
        some (r.pl, none, { t with first := some pr })
      | none => do
        -- `pl->pp = 0` without a test
        let pl ← r.pl
        let t ← t.write pl fun c => { c with pp := none }
        some (none, none, { t with first := some pl })
    else some (r.pl, r.pr, t)

/-- `if(p) attach(p)`. -/
def attachIf (t : BTree) : Option Nat → Option BTree
  | none => some t
  | some p => t.attach p none

/-- `del`. -/
def del (t : BTree) (key : Nat) : Option BTree := do
  match ← t.find key none with
  | (true, some p) => do
    let r ← t.deref p
    let (pl, pr, t) ← t.cut p r
    let t ← t.attachIf pl
    let t ← t.attachIf pr
    some { t with live := t.live.erase p }
  | _ => some t

end BTree

/-- The calls of `iBTree`. -/
inductive BTreeCall where
  | add (data : List Nat) (mem : Option Nat)
  | get (key : Nat)
  | del (key : Nat)
deriving DecidableEq, Repr

inductive BTreeRet where
  | key (k : Nat)
  | data (d : Option (List Nat))
  | void
deriving DecidableEq, Repr

/-- One call. -/
def BTree.step (makeKey : List Nat → Nat) (t : BTree) : BTreeCall → Option (BTreeRet × BTree)
  | .add data mem => (t.add makeKey data mem).map fun (k, t) => (.key k, t)
  | .get key => (t.get key).map fun d => (.data d, t)
  | .del key => (t.del key).map fun t => (.void, t)

end PreTeO.Ext
