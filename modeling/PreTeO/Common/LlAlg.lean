import Mathlib.Algebra.Group.Nat.Defs
import Mathlib.Logic.Function.Basic

/-!
# Linked lists with columns

The list of `ll_alg.cpp`. A context has a row of columns, each with pointers to its first, last and current item, a
counter, and the index of the current item; the items lie in memory and point to each other. `none` is the result of a
call that follows a null pointer, a pointer to memory that was given back, or reads a column that is not there. Locks are
left out, `p_free` is there, and `mem` is what `p_alloc` returns, which is 0 if it fails.
-/

namespace PreTeO.Common
set_option autoImplicit false

inductive Mode where
  | vector
  | queue
deriving DecidableEq, Repr

/-- The link that only the ring of queue mode has: `p`, and null in vector mode. -/
def Mode.ring : Mode → Nat → Nat
  | .queue, p => p
  | .vector, _ => 0

/-- `_ll_item_hdr_t`, and the user data behind it. -/
structure Item (α : Type) where
  cxt : Nat
  col : Nat
  prev : Nat
  next : Nat
  data : α
deriving DecidableEq, Repr

/-- `_ll_state_t`. -/
structure Col where
  pCurrent : Nat
  pFirst : Nat
  pLast : Nat
  count : Nat
  current : Nat
deriving DecidableEq, Repr

/-- `_ll_context_t` at address `self`, with the columns `state` points to, and the memory of the items. -/
structure Context (α : Type) where
  self : Nat
  mode : Mode
  ccol : Nat
  ncol : Nat
  pState : Nat
  state : List Col
  heap : Nat → Option (Item α)

/-- `sizeof(_ll_item_hdr_t)`: a pointer to the user data is a pointer to the item plus this. -/
def hdrSize : Nat := 25

/-- A column that was never used. -/
def Col.zero : Col := ⟨0, 0, 0, 0, 0⟩

/-- `++` and `--` of a `_u32`. -/
def incr (n : Nat) : Nat := (n + 1) % 2 ^ 32
def decr (n : Nat) : Nat := (n + (2 ^ 32 - 1)) % 2 ^ 32

/-- The column that an item with the links `prev` and `next` left, in `ll_mov`. -/
def Col.unlink (c : Col) (p prev next : Nat) : Col :=
  let pFirst := if c.pFirst = p then next else c.pFirst
  let pLast := if c.pLast = p then prev else c.pLast
  let pCurrent :=
    if c.pCurrent = p then if next ≠ 0 then next else if prev ≠ 0 then prev else pFirst else c.pCurrent
  { c with pFirst := pFirst, pLast := pLast, pCurrent := pCurrent, count := decr c.count }

variable {α : Type}

namespace Context

/-! ## Memory -/

/-- The item a pointer points to. -/
def item (s : Context α) (p : Nat) : Option (Item α) := if p = 0 then none else s.heap p

/-- The whole item is written. -/
def put (s : Context α) (p : Nat) (it : Item α) : Context α := { s with heap := Function.update s.heap p (some it) }

/-- The memory of the item is given back. -/
def free (s : Context α) (p : Nat) : Context α := { s with heap := Function.update s.heap p none }

/-- `p->next = v`. -/
def setNext (s : Context α) (p v : Nat) : Option (Context α) := (s.item p).map fun it => s.put p { it with next := v }

/-- `p->prev = v`. -/
def setPrev (s : Context α) (p v : Nat) : Option (Context α) := (s.item p).map fun it => s.put p { it with prev := v }

/-- `setNext` under `if(p)`. -/
def setNextIf (s : Context α) (p v : Nat) : Option (Context α) := if p = 0 then some s else s.setNext p v

/-- `setPrev` under `if(p)`. -/
def setPrevIf (s : Context α) (p v : Nat) : Option (Context α) := if p = 0 then some s else s.setPrev p v

/-- A change of a column. -/
def modCol (s : Context α) (c : Nat) (f : Col → Col) : Context α := { s with state := s.state.modify c f }

/-- The pointer to the user data of an item, null for null. -/
def dataOf (p : Nat) : Nat := if p = 0 then 0 else p + hdrSize

/-! ## Start and end -/

/-- `ll_init`, with what the allocated memory holds. -/
def init (s : Context α) (ncol mem : Nat) (junk : List Col) : Context α :=
  if s.pState = 0 then { s with ncol := ncol, ccol := 0, pState := mem, state := if mem = 0 then [] else junk.take ncol }
  else s

/-- `ll_uninit`. -/
def uninit (s : Context α) : Context α :=
  if s.pState = 0 then s else { s with pState := 0, state := [], ncol := 0, ccol := 0 }

/-! ## Access -/

/-- `ll_cnt`. -/
def cnt (s : Context α) : Option Nat := s.state[s.ccol]?.map fun c => c.count

/-- The loop of `_get`, from item `p` with index `i`. Every iteration brings `i` one nearer to `index`, so that there are
no more of them than the distance. -/
def seek (s : Context α) (index count : Nat) : Nat → Nat → Nat → Option (Nat × Nat)
  | 0, p, i => some (p, i)
  | n + 1, p, i =>
    if i ≠ index ∧ i < count then
      match s.item p with
      | none => none
      | some it =>
        if index < i then
          if i - 1 = 0 then some (it.prev, i - 1) else s.seek index count n it.prev (i - 1)
        else s.seek index count n it.next (i + 1)
    else some (p, i)

/-- `_get`. -/
def getHdr (s : Context α) (index : Nat) : Option (Nat × Context α) := do
  let c ← s.state[s.ccol]?
  if index < c.count ∧ c.pCurrent ≠ 0 then
    let (p, i) ← s.seek index c.count (c.current - index + (index - c.current)) c.pCurrent c.current
    if i = index then some (p, s.modCol s.ccol fun c => { c with current := i, pCurrent := p }) else some (p, s)
  else some (0, s)

/-- `ll_get`. -/
def get (s : Context α) (index : Nat) : Option (Nat × Context α) := (s.getHdr index).map fun (p, s) => (dataOf p, s)

/-! ## Items come in -/

/-- `ll_add`. -/
def add (s : Context α) (data : α) (mem : Nat) : Option (Nat × Context α) :=
  if mem = 0 then some (0, s)
  else do
    let c ← s.state[s.ccol]?
    let s := s.put mem ⟨s.self, s.ccol, 0, 0, data⟩
    let s ← s.setNextIf c.pLast mem
    let s := s.put mem ⟨s.self, s.ccol, c.pLast, s.mode.ring c.pFirst, data⟩
    let s := s.modCol s.ccol fun c =>
      { pLast := mem, pCurrent := mem, pFirst := if c.pFirst = 0 then mem else c.pFirst, current := c.count,
        count := incr c.count }
    some (mem + hdrSize, s)

/-- The part of `ll_ins` that reaches from the item before; without one the new item is the first. -/
def linkBefore (s : Context α) (index mem : Nat) : Option (Nat × Context α) :=
  if 0 < index then do
    let (pPrev, s) ← s.getHdr (index - 1)
    let s ← s.setNextIf pPrev mem
    some (pPrev, s)
  else some (0, s.modCol s.ccol fun c => { c with pFirst := mem })

/-- `ll_ins`. -/
def ins (s : Context α) (index : Nat) (data : α) (mem : Nat) : Option (Nat × Context α) := do
  let c ← s.state[s.ccol]?
  if index < c.count then
    let (pCur, s) ← s.getHdr index
    if pCur = 0 ∨ mem = 0 then some (0, s)
    else
      let s := s.put mem ⟨s.self, s.ccol, 0, 0, data⟩
      let (pPrev, s) ← s.linkBefore index mem
      let s ← s.setPrev mem pPrev
      let s ← s.setNext mem pCur
      let s ← s.setPrev pCur mem
      let s := s.modCol s.ccol fun c => { c with pCurrent := mem, current := index, count := incr c.count }
      some (mem + hdrSize, s)
  else some (0, s)

/-! ## Items go out -/

/-- The part of `ll_del` that is done if the item is the first. -/
def dropFirst (s : Context α) (pCur next : Nat) : Option (Context α) := do
  let c ← s.state[s.ccol]?
  if pCur = c.pFirst then
    let s := s.modCol s.ccol fun c => { c with pCurrent := next, pFirst := next }
    match s.mode with
    | .vector => some s
    | .queue => s.setNext c.pLast next
  else some s

/-- The part of `ll_del` that is done if the item is the last. -/
def dropLast (s : Context α) (pCur prev : Nat) : Option (Context α) := do
  let c ← s.state[s.ccol]?
  if pCur = c.pLast then
    let s := s.modCol s.ccol fun c => { c with pCurrent := prev, pLast := prev, current := decr c.current }
    match s.mode with
    | .vector => some s
    | .queue => s.setNext prev c.pFirst
  else some s

/-- The cursor goes to the next item, if there is one. -/
def passCursor (s : Context α) (next : Nat) : Context α :=
  if next = 0 then s else s.modCol s.ccol fun c => { c with pCurrent := next }

/-- The body that both `ll_del` have. No write before the last use of the links of the item changes them. -/
def delItem (s : Context α) (pCur : Nat) : Option (Context α) := do
  let it ← s.item pCur
  let s ← s.setNextIf it.prev it.next
  let s ← (s.passCursor it.next).setPrevIf it.next it.prev
  let s ← s.dropFirst pCur it.next
  let s ← s.dropLast pCur it.prev
  let s := s.modCol s.ccol fun c => { c with count := decr c.count }
  some (s.free pCur)

/-- `ll_del` of an index. -/
def delAt (s : Context α) (index : Nat) : Option (Context α) := do
  let (p, s) ← s.getHdr index
  if p = 0 then some s else s.delItem p

/-- `ll_del` of the current item. -/
def del (s : Context α) : Option (Context α) := do
  let c ← s.state[s.ccol]?
  if c.pCurrent = 0 then some s else s.delItem c.pCurrent

/-- The loop of `ll_clr`, with `n` iterations left. -/
def clrLoop : Nat → Nat → Context α → Option (Context α)
  | 0, _, s => some s
  | n + 1, p, s =>
    if p = 0 then some s
    else
      match s.item p with
      | none => none
      | some it => clrLoop n it.next ((s.free p).modCol s.ccol fun c => { c with pFirst := it.next })

/-- `ll_clr`. -/
def clr (s : Context α) : Option (Context α) := do
  let c ← s.state[s.ccol]?
  let s ← clrLoop c.count c.pFirst s
  some (s.modCol s.ccol fun _ => Col.zero)

/-! ## Columns -/

/-- `ll_col`. -/
def col (s : Context α) (ccol : Nat) : Context α := if ccol < s.ncol then { s with ccol := ccol } else s

/-- `ll_sel`. -/
def sel (s : Context α) (pData : Nat) : Option (Bool × Context α) := do
  let it ← s.item (pData - hdrSize)
  if it.cxt = s.self then
    let _ ← s.state[it.col]?
    some (true, s.modCol it.col fun c => { c with pCurrent := pData - hdrSize })
  else some (false, s)

/-- The part of `ll_mov` that links the item into the destination column, and whether it did. -/
def link (s : Context α) (p col : Nat) (d : Col) : Option (Bool × Context α) :=
  if d.count ≠ 0 then
    if d.pLast ≠ 0 then do
      let s ← s.setNext d.pLast p
      let s ← s.setPrev p d.pLast
      let s ← s.setNext p (s.mode.ring d.pFirst)
      some (true, s.modCol col fun d => { d with pLast := p })
    else if d.pFirst ≠ 0 then do
      let s ← s.setPrev d.pFirst p
      let s ← s.setNext p d.pFirst
      let s ← s.setPrev p (s.mode.ring d.pLast)
      some (true, s.modCol col fun d => { d with pFirst := p })
    else some (false, s)
  else do
    let s := s.modCol col fun d => { d with pFirst := p, pLast := p, pCurrent := p }
    match s.mode with
    | .queue => do
      let s ← s.setNext p p
      some (true, s)
    | .vector => do
      let s ← s.setNext p 0
      let s ← s.setPrev p 0
      some (true, s)

/-- `ll_mov`. -/
def mov (s : Context α) (pData col : Nat) : Option (Bool × Context α) := do
  let p := pData - hdrSize
  let it ← s.item p
  if it.cxt = s.self ∧ col ≠ it.col ∧ col < s.ncol then
    let s ← s.setNextIf it.prev it.next
    let s ← s.setPrevIf it.next it.prev
    let _ ← s.state[it.col]?
    let s := s.modCol it.col fun c => c.unlink p it.prev it.next
    let d ← s.state[col]?
    let (linked, s) ← s.link p col d
    if linked then
      let moved ← s.item p
      let s := s.put p { moved with col := col }
      some (true, s.modCol col fun d => { d with count := incr d.count })
    else some (false, s)
  else some (false, s)

/-! ## The cursor -/

/-- `ll_roll`. -/
def roll (s : Context α) : Option (Context α) :=
  match s.mode with
  | .vector => some s
  | .queue => do
    let c ← s.state[s.ccol]?
    let it ← s.item c.pFirst
    if c.pFirst = c.pLast then some s
    else
      let s := s.modCol s.ccol fun c => { c with pCurrent := it.next, pFirst := it.next }
      let s ← s.setNext c.pLast c.pFirst
      let s ← s.setPrev c.pFirst c.pLast
      let s ← s.setNext c.pFirst it.next
      let s ← s.setPrev it.next c.pLast
      some (s.modCol s.ccol fun d => { d with pLast := c.pFirst })

/-- `ll_next`. -/
def next (s : Context α) : Option (Nat × Context α) := do
  let c ← s.state[s.ccol]?
  if c.pCurrent = 0 then some (0, s)
  else
    let it ← s.item c.pCurrent
    if it.next = 0 then some (0, s)
    else some (it.next + hdrSize, s.modCol s.ccol fun c => { c with pCurrent := it.next, current := incr c.current })

/-- `ll_prev`. -/
def prev (s : Context α) : Option (Nat × Context α) := do
  let c ← s.state[s.ccol]?
  if c.pCurrent = 0 then some (0, s)
  else
    let it ← s.item c.pCurrent
    if it.prev = 0 then some (0, s)
    else some (it.prev + hdrSize, s.modCol s.ccol fun c => { c with pCurrent := it.prev, current := decr c.current })

/-- `ll_current`. -/
def current (s : Context α) : Option Nat := s.state[s.ccol]?.map fun c => dataOf c.pCurrent

/-- `ll_first`. -/
def first (s : Context α) : Option (Nat × Context α) := do
  let c ← s.state[s.ccol]?
  if c.pFirst = 0 then some (0, s)
  else some (c.pFirst + hdrSize, s.modCol s.ccol fun c => { c with pCurrent := c.pFirst, current := 0 })

/-- `ll_last`. -/
def last (s : Context α) : Option (Nat × Context α) := do
  let c ← s.state[s.ccol]?
  if c.pLast = 0 then some (0, s)
  else some (c.pLast + hdrSize, s.modCol s.ccol fun c => { c with pCurrent := c.pLast, current := decr c.count })

end Context

/-! ## Calls -/

/-- The calls, with what `p_alloc` returns to them, and for `ll_init` what the memory holds. -/
inductive Call (α : Type) where
  | init (ncol mem : Nat) (junk : List Col)
  | uninit
  | cnt
  | get (index : Nat)
  | add (data : α) (mem : Nat)
  | ins (index : Nat) (data : α) (mem : Nat)
  | delAt (index : Nat)
  | del
  | clr
  | col (ccol : Nat)
  | sel (pData : Nat)
  | mov (pData col : Nat)
  | roll
  | next
  | prev
  | current
  | first
  | last

/-- What a call returns. -/
inductive Ret where
  | void
  | num (n : Nat)
  | ptr (p : Nat)
  | flag (b : Bool)
deriving DecidableEq, Repr

/-- One call. -/
def Context.step (s : Context α) : Call α → Option (Ret × Context α)
  | .init ncol mem junk => some (.void, s.init ncol mem junk)
  | .uninit => some (.void, s.uninit)
  | .cnt => s.cnt.map fun n => (.num n, s)
  | .get index => (s.get index).map fun (p, s) => (.ptr p, s)
  | .add data mem => (s.add data mem).map fun (p, s) => (.ptr p, s)
  | .ins index data mem => (s.ins index data mem).map fun (p, s) => (.ptr p, s)
  | .delAt index => (s.delAt index).map fun s => (.void, s)
  | .del => s.del.map fun s => (.void, s)
  | .clr => s.clr.map fun s => (.void, s)
  | .col ccol => some (.void, s.col ccol)
  | .sel pData => (s.sel pData).map fun (b, s) => (.flag b, s)
  | .mov pData col => (s.mov pData col).map fun (b, s) => (.flag b, s)
  | .roll => s.roll.map fun s => (.void, s)
  | .next => s.next.map fun (p, s) => (.ptr p, s)
  | .prev => s.prev.map fun (p, s) => (.ptr p, s)
  | .current => s.current.map fun p => (.ptr p, s)
  | .first => s.first.map fun (p, s) => (.ptr p, s)
  | .last => s.last.map fun (p, s) => (.ptr p, s)

end PreTeO.Common
