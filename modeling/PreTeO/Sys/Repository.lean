import Mathlib.Algebra.Group.Nat.Defs
import Mathlib.Data.List.Count
import Mathlib.Data.List.Nodup
import PreTeO.Lib.Run

/-!
# The object repository (`core/sys/repository3.cpp`)

Objects are registered in storages, and each registered object has a counter of its references. A request returns the
registered object itself or a clone of it; a clone whose initialisation fails is released at once.

The heap and the broadcast object that the repository keeps for itself are requested like any others, and so are the
objects that `object_init` and `object_destroy` request and release; these requests are calls of their own. The lock is
left out.
-/

namespace PreTeO.Sys
set_option autoImplicit false
open PreTeO.Lib

/-- What the virtual functions of an object say. -/
structure ObjectClass where
  name : String
  interface : String
  pinterface : String
deriving DecidableEq, Repr

/-- `_object_t`; `RY_CLONE`, `RY_STANDALONE` and `RY_DELETED` are the flags that are read. -/
structure RegObject where
  clone : Bool
  standalone : Bool
  deleted : Bool
  id : Nat
  obj : Option Nat
  refCnt : Nat
deriving DecidableEq, Repr

/-- `_so_storage_t`, with its address. -/
structure SoStorage where
  so : Nat
  objects : List RegObject
deriving DecidableEq, Repr

/-- `_object_request_t`: the fields that `r_flags` names, and `ORF_CMP_OR`. -/
structure ObjectRequest where
  cmpOr : Bool
  name : Option String
  interface : Option String
  pinterface : Option String
  id : Option Nat
deriving DecidableEq, Repr

/-- A registered object: the address of its storage and its index there. -/
abbrev Loc : Type := Nat × Nat

/-- The repository. The heap has the clones `onHeap`; `out` are the references that are handed out, each with the
registered object that it was requested from. -/
structure Repository where
  main : SoStorage
  vso : List SoStorage
  cls : Nat → ObjectClass
  onHeap : List Nat
  out : List (Loc × Nat)

def ryNoObjectId : Nat := 0

namespace Repository

/-- `object_compare`. -/
def objectCompare (s : Repository) (r : ObjectRequest) (po : RegObject) : Bool :=
  match po.obj with
  | none => false
  | some p =>
    let c := s.cls p
    let sameId := fun id => po.id ≠ ryNoObjectId ∧ id ≠ ryNoObjectId ∧ id = po.id
    if po.deleted then false
    else if r.cmpOr then
      r.name.any (· = c.name) || r.interface.any (· = c.interface) || r.pinterface.any (· = c.pinterface) ||
        r.id.any fun id => sameId id
    else
      r.name.all (· = c.name) && r.interface.all (· = c.interface) && r.pinterface.all (· = c.pinterface) &&
        r.id.all fun id => sameId id

def storages (s : Repository) : List SoStorage := s.main :: s.vso

/-- `object_request`: the first object that matches, in the main storage or in the vector. -/
def objectRequest (s : Repository) (r : ObjectRequest) : Option Loc :=
  s.storages.findSome? fun st => (st.objects.findIdx? fun po => s.objectCompare r po).map fun i => (st.so, i)

/-- The registered object at a place. -/
def objectAt (s : Repository) (loc : Loc) : Option RegObject :=
  (s.storages.find? fun st => st.so = loc.1).bind fun st => st.objects[loc.2]?

/-- A change of one counter. -/
def setCnt (s : Repository) (loc : Loc) (f : Nat → Nat) : Repository :=
  let change := fun st : SoStorage =>
    if st.so = loc.1 then { st with objects := st.objects.modify loc.2 fun po => { po with refCnt := f po.refCnt } }
    else st
  { s with main := change s.main, vso := s.vso.map change }

/-- `ref_cnt++`, a number of 16 bits. -/
def incr (n : Nat) : Nat := (n + 1) % 2 ^ 16

/-- `if(p->ref_cnt) p->ref_cnt--`. -/
def decr (n : Nat) : Nat := if n ≠ 0 then n - 1 else n

/-- The request of `release_object`. -/
def nameRequest (s : Repository) (p : Nat) : ObjectRequest :=
  ⟨false, some (s.cls p).name, some (s.cls p).interface, none, none⟩

/-- `release_object`. -/
def releaseObject (s : Repository) (p : Nat) : Repository :=
  let s := match s.objectRequest (s.nameRequest p) with
    | some loc => s.setCnt loc decr
    | none => s
  { s with onHeap := s.onHeap.erase p }

/-- `get_object`: `mem` is what the heap returns for a clone, `init` what its `object_init` returns. -/
def getObject (s : Repository) (r : ObjectRequest) (clone standalone : Bool) (mem : Option Nat) (init : Bool) :
    Option Nat × Repository :=
  match s.objectRequest r with
  | none => (none, s)
  | some loc =>
    match s.objectAt loc with
    | none => (none, s)
    | some po =>
      match po.obj with
      | none => (none, s)
      | some obj =>
        if clone && po.clone then
          match mem with
          | none => (none, s)
          | some p =>
            let s := { s with cls := Function.update s.cls p (s.cls obj), onHeap := p :: s.onHeap }
            if init then
              let s := s.setCnt loc incr
              (some p, { s with out := (loc, p) :: s.out })
            else (none, s.releaseObject p)
        else if standalone && po.standalone then
          let s := s.setCnt loc incr
          (some obj, { s with out := (loc, obj) :: s.out })
        else (none, s)

/-- `remove_so_storage`: the main storage itself stays. -/
def removeSoStorage (s : Repository) (so : Nat) : Bool × Repository :=
  match s.storages.find? fun st => st.so = so with
  | none => (false, s)
  | some st =>
    if st.objects.all fun po => po.refCnt = 0 then
      if so = s.main.so then (true, s) else (true, { s with vso := s.vso.filter fun st => st.so ≠ so })
    else (false, s)

end Repository

/-- The calls; a reference that is released is named with the object it was requested from. -/
inductive RepositoryCall where
  | get (r : ObjectRequest) (clone standalone : Bool) (mem : Option Nat) (init : Bool)
  | release (loc : Loc) (p : Nat)
  | remove (so : Nat)

/-- One call. -/
def Repository.step (s : Repository) : RepositoryCall → Option Repository
  | .get r clone standalone mem init => some (s.getObject r clone standalone mem init).2
  | .release loc p => some (Repository.releaseObject { s with out := s.out.erase (loc, p) } p)
  | .remove so => some (s.removeSoStorage so).2

end PreTeO.Sys
