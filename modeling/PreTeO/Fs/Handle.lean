import PreTeO.Common.LlAlg

/-!
# File-system handles

The handle table of `vfs_handle.cpp`: a vector of two columns whose items are the handle records. A handle that is removed
goes to the column of inactive records, and the next handle takes the first record there. The lock of the vector is left
out, and so are the other messages.
-/

namespace PreTeO.Fs
set_option autoImplicit false
open PreTeO.Common

def handleMagic : Nat := 0xcda5
def colActive : Nat := 0
def colInactive : Nat := 1
def fsMaxHandleData : Nat := 64
def msgDriverUninit : Nat := 104

def htypeDevice : Nat := 1
def htypeVolume : Nat := 2
def htypeFscontext : Nat := 3
def htypeFile : Nat := 4

def dtypeDev : Nat := 3
def dtypeVol : Nat := 4
def dclassFsc : Nat := 22

/-- `_fs_handle_info_t`. -/
structure HandleInfo where
  type : Nat
  state : Nat
  driver : Nat
  user : Nat
  magic : Nat
  data : List Nat
deriving DecidableEq, Repr

/-- A pointer to an `iDriverBase`, with what it says of itself. -/
structure Driver where
  self : Nat
  driverType : Nat
  driverClass : Nat
deriving DecidableEq, Repr

/-- The handle table: `m_p_vhandle`. -/
abbrev HandleTable : Type := Context HandleInfo

/-- The part of `create` that sets a record that was used before. -/
def HandleInfo.reuse (hi : HandleInfo) (drv : Driver) (user type : Nat) (data : Option (List Nat)) : HandleInfo :=
  { hi with driver := drv.self, user := user, type := type, state := 0, data := data.getD hi.data }

/-- The part of `create` that makes a new record. -/
def HandleInfo.new (drv : Driver) (user type : Nat) (data : Option (List Nat)) : HandleInfo :=
  ⟨type, 0, drv.self, user, handleMagic, data.getD (List.replicate fsMaxHandleData 0)⟩

/-- What `remove` and the message handler write to a record before they move it. -/
def HandleInfo.clear (hi : HandleInfo) : HandleInfo := { hi with type := 0, state := 0, driver := 0 }

/-- The `switch` of `create`: no handle of the type is for the driver. -/
def Driver.refuses (drv : Driver) (type : Nat) : Bool :=
  if type = htypeDevice then drv.driverType ≠ dtypeDev
  else if type = htypeVolume then drv.driverType ≠ dtypeVol
  else if type = htypeFile ∨ type = htypeFscontext then drv.driverClass ≠ dclassFsc
  else false

namespace HandleTable

/-- The record that a handle points to. -/
def info (s : HandleTable) (h : Nat) : Option HandleInfo := (s.item (h - hdrSize)).map fun it => it.data

/-- The fields of the record that a handle points to are written. -/
def write (s : HandleTable) (h : Nat) (f : HandleInfo → HandleInfo) : Option HandleTable :=
  (s.item (h - hdrSize)).map fun it => s.put (h - hdrSize) { it with data := f it.data }

/-- `create`, with what `p_alloc` returns if there is no record to use again. -/
def create (s : HandleTable) (drv : Driver) (user type : Nat) (data : Option (List Nat)) (mem : Nat) :
    Option (Nat × HandleTable) :=
  if drv.self = 0 then some (0, s)
  else if drv.refuses type then some (0, s)
  else do
    let (r, s) ← (s.col colInactive).first
    if r ≠ 0 then
      let s ← write s r fun hi => hi.reuse drv user type data
      let (moved, s) ← s.mov r colActive
      some (if moved then r else 0, s.col colActive)
    else (s.col colActive).add (HandleInfo.new drv user type data) mem

/-- `validate`. -/
def validate (s : HandleTable) (h : Nat) : Option Bool :=
  if h = 0 then some false else (info s h).map fun hi => hi.magic = handleMagic

/-- A field of the record that a handle points to; `invalid` if the handle is not valid. -/
def read {β : Type} (s : HandleTable) (h : Nat) (invalid : β) (field : HandleInfo → β) : Option β := do
  if ← validate s h then (info s h).map field else some invalid

/-- `state`. -/
def stateOf (s : HandleTable) (h : Nat) : Option Nat := read s h 0 fun hi => hi.state

/-- `type`. -/
def typeOf (s : HandleTable) (h : Nat) : Option Nat := read s h 0 fun hi => hi.type

/-- `driver`. -/
def driverOf (s : HandleTable) (h : Nat) : Option Nat := read s h 0 fun hi => hi.driver

/-- `data`; `none` inside is the null pointer. -/
def dataOf (s : HandleTable) (h : Nat) : Option (Option (List Nat)) := read s h none fun hi => some hi.data

/-- `update_state`. -/
def updateState (s : HandleTable) (h state : Nat) : Option HandleTable := do
  if ← validate s h then write s h fun hi => { hi with state := state } else some s

/-- `remove`. -/
def remove (s : HandleTable) (h : Nat) : Option HandleTable := do
  if ← validate s h then
    let s ← write s h HandleInfo.clear
    let (_, s) ← s.mov h colInactive
    some s
  else some s

/-- The loop of `msg_handler`, from the record `hi` on, with `n` rounds left. -/
def uninitLoop (drv : Nat) : Nat → Nat → HandleTable → Option HandleTable
  | 0, _, _ => none
  | n + 1, hi, s => do
    let record ← info s hi
    if drv = record.driver then
      let s ← write s hi HandleInfo.clear
      let (_, s) ← s.mov hi colInactive
      let cur ← s.current
      if cur ≠ 0 then uninitLoop drv n cur s
      else
        let (hi, s) ← s.next
        if hi ≠ 0 then uninitLoop drv n hi s else some s
    else
      let (hi, s) ← s.next
      if hi ≠ 0 then uninitLoop drv n hi s else some s

/-- `msg_handler`. Every round takes a record out or goes on to the next one, but for the round after the last record is
taken out, which tests the one before it again. -/
def msgHandler (s : HandleTable) (msg data : Nat) : Option HandleTable :=
  if msg = msgDriverUninit then do
    let (hi, s) ← (s.col colActive).first
    if hi ≠ 0 then
      let n ← s.cnt
      uninitLoop data (n + 1) hi s
    else some s
  else some s

end HandleTable

/-- The calls, with what `p_alloc` returns to `create`. -/
inductive HandleCall where
  | create (drv : Driver) (user type : Nat) (data : Option (List Nat)) (mem : Nat)
  | remove (h : Nat)
  | msgHandler (msg data : Nat)

/-- One call, and the handle it returns, if it returns any. -/
def HandleTable.step (s : HandleTable) : HandleCall → Option (Nat × HandleTable)
  | .create drv user type data mem => HandleTable.create s drv user type data mem
  | .remove h => (HandleTable.remove s h).map fun s => (0, s)
  | .msgHandler msg data => (HandleTable.msgHandler s msg data).map fun s => (0, s)

end PreTeO.Fs
