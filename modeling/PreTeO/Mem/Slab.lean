import PreTeO.Mem.SlabSize
import PreTeO.Lib.Bytes

/-!
# The slab allocator (`core/mem/slab.cpp`)

A node has seven pointers. At level 0 they are to data pages, which hold objects of one size; above it they are to index
pages, which hold nodes. A free object has one of two words in its first 8 bytes. Pages come from `p_mem_alloc`, which is a
parameter; what it gives has no byte in common with what it gave and was not given back, so that what a pointer is to is
part of the node. What an index page holds is never the word of a free object: the upper half of each word there at a
multiple of 16 is the lower half of a pointer to pages.
-/

namespace PreTeO.Mem.Slab
set_option autoImplicit false

open Lib.Mem (Apart)

def slabNodes : Nat := 7
def defaultSlabLimit : Nat := 0xffffffffffffffff
def slabPattern : Nat := 0xcacacacacacacaca
def slabPattern2 : Nat := 0xdadadadadadadada

/-- The word is one of a free object. -/
def IsFree (word : Nat) : Prop := word = slabPattern ∨ word = slabPattern2

instance (word : Nat) : Decidable (IsFree word) := inferInstanceAs (Decidable (_ ∨ _))

/-- `_slab_t`. -/
structure Node (K : Type) where
  osz : Nat
  ptr : List K
  level : Nat
  count : Nat

/-- What a pointer is to: an index page, or data pages, of which the first words of the objects are kept. -/
inductive Chunk (K : Type) where
  | null
  | index (addr : Nat) (nodes : List (Node K))
  | data (addr : Nat) (words : List Nat)

/-- What the nodes of a tree point to, by the depth of the tree. -/
def Kind : Nat → Type
  | 0 => Empty
  | d + 1 => Chunk (Kind d)

/-! ## The page allocator -/

/-- A call of `p_mem_alloc` and its answer. -/
structure Call where
  npages : Nat
  limit : Nat
  addr : Nat
deriving DecidableEq, Repr

/-- Pages that were obtained together: the address and the number. -/
abbrev Group := Nat × Nat

/-- `p_mem_alloc`, which may know the calls so far and what is held. It gives whole pages, and none that is held. -/
structure PageSource (pageSize : Nat) where
  give : (calls : List Call) → (held : List Group) → (npages limit : Nat) → Nat
  aligned : ∀ calls held npages limit, pageSize ∣ give calls held npages limit
  apart : ∀ calls held npages limit, give calls held npages limit ≠ 0 → ∀ g, g ∈ held →
    Apart (give calls held npages limit) (npages * pageSize) g.1 (g.2 * pageSize)
  inside : ∀ calls held npages limit, give calls held npages limit ≠ 0 →
    give calls held npages limit + npages * pageSize ≤ 2 ^ 64

/-- The page allocator, the calls of it so far, what it gave that is held, and what was given back, each the newest first;
for reference, the object sizes that were recorded and the object sizes that were divided by. -/
structure World (pageSize : Nat) where
  source : PageSource pageSize
  calls : List Call
  held : List Group
  freed : List Group
  sizes : List Nat
  divisors : List Nat

variable {pageSize : Nat}

namespace World

/-- `p_mem_alloc`. -/
def memAlloc (w : World pageSize) (npages limit : Nat) : Nat × World pageSize :=
  let p := w.source.give w.calls w.held npages limit
  (p, { w with calls := ⟨npages, limit, p⟩ :: w.calls, held := if p ≠ 0 then (p, npages) :: w.held else w.held })

/-- `p_mem_free`. -/
def memFree (w : World pageSize) (p npages : Nat) : World pageSize :=
  { w with held := w.held.erase (p, npages), freed := (p, npages) :: w.freed }

def recorded (w : World pageSize) (osz : Nat) : World pageSize := { w with sizes := osz :: w.sizes }
def divided (w : World pageSize) (osz : Nat) : World pageSize := { w with divisors := osz :: w.divisors }

/-- The groups that were given. -/
def obtained (w : World pageSize) : List Group :=
  w.calls.filterMap fun call => if call.addr ≠ 0 then some (call.addr, call.npages) else none

end World

/-! ## Pages -/

/-- The pages of a pointer at level 0. -/
def dataPages (osz pageSize : Nat) : Nat := if osz > pageSize then osz / pageSize else 1

/-- The objects in them. -/
def nobjs (osz pageSize : Nat) : Nat := dataPages osz pageSize * pageSize / osz

/-- The pointers of a node after `mem_set`. -/
def Kind.nulls : (d : Nat) → List (Kind d)
  | 0 => []
  | _ + 1 => List.replicate slabNodes Chunk.null

def Node.zero (d : Nat) : Node (Kind d) := { osz := 0, ptr := Kind.nulls d, level := 0, count := 0 }

/-! ## Allocation -/

section Alloc
variable {K : Type}

/-- The loop over the objects of data pages: the first that was never used, else the first that was freed. -/
def freeSlot (n : Nat) (words : List Nat) : Option Nat :=
  match (List.range n).find? fun j => words.getD j 0 = slabPattern with
  | some j => some j
  | none => (List.range n).find? fun j => words.getD j 0 = slabPattern2

/-- The loop over the nodes of an index page. -/
def allocNodes (sub : Node K → World pageSize → Option Nat × Node K × World pageSize) (size : Nat) :
    List (Node K) → World pageSize → Option Nat × List (Node K) × World pageSize
  | [], w => (none, [], w)
  | ps :: rest, w =>
    let w := if ps.osz = 0 then w.recorded size else w
    let ps := if ps.osz = 0 then { ps with osz := size } else ps
    if ps.osz = size then
      let t := sub ps w
      if t.1.isSome then (t.1, t.2.1 :: rest, t.2.2)
      else
        let u := allocNodes sub size rest t.2.2
        (u.1, t.2.1 :: u.2.1, u.2.2)
    else
      let u := allocNodes sub size rest w
      (u.1, ps :: u.2.1, u.2.2)

/-- An object from what a pointer is to. -/
def enterChunk (sub : Node K → World pageSize → Option Nat × Node K × World pageSize) (osz level size limit : Nat)
    (c : Chunk K) (w : World pageSize) : Option Nat × Chunk K × World pageSize :=
  match c with
  | .null => (none, .null, w)
  | .index a nodes =>
    if level ≠ 0 then
      let t := allocNodes sub size nodes w
      (t.1, .index a t.2.1, t.2.2)
    else (none, .index a nodes, if (a + size) % 2 ^ 64 < limit then w.divided osz else w)
  | .data a words =>
    if level ≠ 0 then (none, .data a words, w)
    else if (a + size) % 2 ^ 64 < limit then
      match freeSlot (nobjs osz pageSize) words with
      | some j => (some (a + j * osz), .data a (words.set j 0), w.divided osz)
      | none => (none, .data a words, w.divided osz)
    else (none, .data a words, w)

/-- Pages for a null pointer. -/
def newChunk (zero : Node K) (osz level limit : Nat) (w : World pageSize) : Option (Chunk K) × World pageSize :=
  if level = 0 then
    let p := w.memAlloc (dataPages osz pageSize) limit
    if p.1 ≠ 0 then (some (.data p.1 (List.replicate (nobjs osz pageSize) slabPattern)), p.2.divided osz)
    else (none, p.2)
  else
    let p := w.memAlloc 1 defaultSlabLimit
    if p.1 ≠ 0 then (some (.index p.1 (List.replicate (pageSize / slabSz) zero)), p.2) else (none, p.2)

/-- What a pointer is to after its pages are allocated, if it is null. -/
def openChunk (new : World pageSize → Option (Chunk K) × World pageSize) : Chunk K → World pageSize →
    Option (Chunk K) × World pageSize
  | .null, w => new w
  | .index a nodes, w => (some (.index a nodes), w)
  | .data a words, w => (some (.data a words), w)

/-- The loop of `_slab_alloc` over the pointers. After pages are allocated, `goto` comes back to the same pointer. -/
def allocChunks (enter : Chunk K → World pageSize → Option Nat × Chunk K × World pageSize)
    (new : World pageSize → Option (Chunk K) × World pageSize) :
    List (Chunk K) → World pageSize → Option Nat × List (Chunk K) × World pageSize
  | [], w => (none, [], w)
  | c :: rest, w =>
    let opened := openChunk new c w
    match opened.1 with
    | none => (none, c :: rest, opened.2)
    | some c =>
      let t := enter c opened.2
      if t.1.isSome then (t.1, t.2.1 :: rest, t.2.2)
      else
        let u := allocChunks enter new rest t.2.2
        (u.1, t.2.1 :: u.2.1, u.2.2)

/-- `_slab_alloc` of a node, with `sub` for the nodes below it. -/
def allocNode (zero : Node K) (sub : Node K → World pageSize → Option Nat × Node K × World pageSize) (size limit : Nat)
    (n : Node (Chunk K)) (w : World pageSize) : Option Nat × Node (Chunk K) × World pageSize :=
  let t := allocChunks (enterChunk sub n.osz n.level size limit) (newChunk zero n.osz n.level limit) n.ptr w
  (t.1, { n with ptr := t.2.1, count := if n.level = 0 ∧ t.1.isSome then (n.count + 1) % 2 ^ 28 else n.count }, t.2.2)

end Alloc

/-- `_slab_alloc`. -/
def slabAllocAt (size limit : Nat) : (d : Nat) → Node (Kind d) → World pageSize → Option Nat × Node (Kind d) × World pageSize
  | 0 => fun n w => (none, n, w)
  | d + 1 => allocNode (Node.zero d) (slabAllocAt size limit d) size limit

/-! ## Verification and freeing -/

/-- What is done at the object that `_slab_verify` finds: to its pages and to the count of its node. -/
structure Action (pageSize : Nat) where
  slot : (osz a : Nat) → (words : List Nat) → (j : Nat) → World pageSize → Option (List Nat) × World pageSize
  count : Nat → Nat

/-- `slab_verify` does nothing. -/
def Action.keep : Action pageSize := { slot := fun _ _ words _ w => (some words, w), count := fun n => n }

/-- `slab_free`. A big object that is at the start of its pages takes them with it. -/
def Action.release : Action pageSize :=
  { slot := fun osz a words j w =>
      if osz ≥ pageSize ∧ j = 0 then (none, w.memFree a (osz / pageSize + if osz % pageSize ≠ 0 then 1 else 0))
      else (some (words.set j slabPattern2), w)
    count := fun n => n - 1 }

section Visit
variable {K : Type} (act : Action pageSize)

/-- The loop over the nodes of an index page. -/
def visitNodes (sub : Node K → World pageSize → Bool × Node K × World pageSize) :
    List (Node K) → World pageSize → Bool × List (Node K) × World pageSize
  | [], w => (false, [], w)
  | ps :: rest, w =>
    if ps.count ≠ 0 ∧ ps.osz ≠ 0 then
      let t := sub ps w
      if t.1 then (true, t.2.1 :: rest, t.2.2)
      else
        let u := visitNodes sub rest t.2.2
        (u.1, t.2.1 :: u.2.1, u.2.2)
    else
      let u := visitNodes sub rest w
      (u.1, ps :: u.2.1, u.2.2)

/-- The object of some pages that is at an address. -/
def slotAt (osz n a ptr : Nat) : Option Nat := (List.range n).find? fun j => a + j * osz = ptr

/-- What `_slab_verify` does for a pointer, and how its loop ends there, if it does. It also ends at a free object. -/
def visitChunk (sub : Node K → World pageSize → Bool × Node K × World pageSize) (osz level ptr : Nat) (c : Chunk K)
    (w : World pageSize) : Option Bool × Chunk K × World pageSize :=
  match c with
  | .null => (none, .null, w)
  | .index a nodes =>
    if level ≠ 0 then
      let t := visitNodes sub nodes w
      (if t.1 then some true else none, .index a t.2.1, t.2.2)
    else ((slotAt osz (nobjs osz pageSize) a ptr).map fun _ => true, .index a nodes, w.divided osz)
  | .data a words =>
    if level ≠ 0 then (none, .data a words, w)
    else
      match slotAt osz (nobjs osz pageSize) a ptr with
      | none => (none, .data a words, w.divided osz)
      | some j =>
        if IsFree (words.getD j 0) then (some false, .data a words, w.divided osz)
        else
          let u := act.slot osz a words j (w.divided osz)
          (some true, (u.1.map fun words => .data a words).getD .null, u.2)

/-- The loop of `_slab_verify` over the pointers. -/
def visitChunks (sub : Node K → World pageSize → Bool × Node K × World pageSize) (osz level ptr : Nat) :
    List (Chunk K) → World pageSize → Bool × List (Chunk K) × World pageSize
  | [], w => (false, [], w)
  | c :: rest, w =>
    let t := visitChunk act sub osz level ptr c w
    match t.1 with
    | some b => (b, t.2.1 :: rest, t.2.2)
    | none =>
      let u := visitChunks sub osz level ptr rest t.2.2
      (u.1, t.2.1 :: u.2.1, u.2.2)

/-- `_slab_verify` of a node. -/
def visitNode (sub : Node K → World pageSize → Bool × Node K × World pageSize) (ptr : Nat) (n : Node (Chunk K))
    (w : World pageSize) : Bool × Node (Chunk K) × World pageSize :=
  let t := visitChunks act sub n.osz n.level ptr n.ptr w
  (t.1, { n with ptr := t.2.1, count := if n.level = 0 ∧ t.1 then act.count n.count else n.count }, t.2.2)

end Visit

/-- `_slab_verify`. -/
def slabVisitAt (act : Action pageSize) (ptr : Nat) :
    (d : Nat) → Node (Kind d) → World pageSize → Bool × Node (Kind d) × World pageSize
  | 0 => fun n w => (false, n, w)
  | d + 1 => visitNode act (slabVisitAt act ptr d) ptr

/-! ## Status -/

/-- `_slab_status_t`. -/
structure Status where
  naobj : Nat
  nrobj : Nat
  ndpg : Nat
  nspg : Nat
deriving DecidableEq, Repr

instance : Add Status := ⟨fun s t => ⟨s.naobj + t.naobj, s.nrobj + t.nrobj, s.ndpg + t.ndpg, s.nspg + t.nspg⟩⟩
instance : Zero Status := ⟨⟨0, 0, 0, 0⟩⟩

section Status
variable {K : Type}

/-- What `_slab_status` adds for data pages. An object of an index page counts as allocated. -/
def slotStatus (osz pageSize : Nat) (words : List Nat) : Status :=
  { naobj := (List.range (nobjs osz pageSize)).countP fun j => ¬ IsFree (words.getD j 0)
    nrobj := nobjs osz pageSize
    ndpg := dataPages osz pageSize
    nspg := 0 }

/-- The loop over the nodes of an index page. -/
def statusNodes (sub : Node K → Status × List Nat) : List (Node K) → Status × List Nat
  | [] => (0, [])
  | ps :: rest =>
    let u := statusNodes sub rest
    if ps.osz ≠ 0 then ((sub ps).1 + u.1, (sub ps).2 ++ u.2) else u

/-- The loop of `_slab_status` over the pointers, which ends at the first null pointer, with what it divides by. -/
def statusChunks (pageSize : Nat) (sub : Node K → Status × List Nat) (osz level : Nat) : List (Chunk K) → Status × List Nat
  | [] => (0, [])
  | .null :: _ => (0, [])
  | .index _ nodes :: rest =>
    let u := statusChunks pageSize sub osz level rest
    if level ≠ 0 then (⟨0, 0, 0, 1⟩ + (statusNodes sub nodes).1 + u.1, (statusNodes sub nodes).2 ++ u.2)
    else (slotStatus osz pageSize [] + u.1, osz :: u.2)
  | .data _ words :: rest =>
    let u := statusChunks pageSize sub osz level rest
    if level ≠ 0 then (⟨0, 0, 0, 1⟩ + u.1, u.2) else (slotStatus osz pageSize words + u.1, osz :: u.2)

end Status

/-- `_slab_status`. -/
def slabStatusAt (pageSize : Nat) : (d : Nat) → Node (Kind d) → Status × List Nat
  | 0 => fun _ => (0, [])
  | d + 1 => fun n => statusChunks pageSize (slabStatusAt pageSize d) n.osz n.level n.ptr

/-! ## Destruction -/

section Destroy
variable {K : Type}

/-- What `_destroy_slab` gives back for a pointer. -/
def destroyChunk (sub : Node K → World pageSize → World pageSize) (osz level : Nat) :
    Chunk K → World pageSize → World pageSize
  | .null, w => w
  | .index a nodes, w =>
    if level ≠ 0 then (nodes.foldl (fun w ps => sub ps w) w).memFree a 1 else w.memFree a (dataPages osz pageSize)
  | .data a _, w => if level ≠ 0 then w.memFree a 1 else w.memFree a (dataPages osz pageSize)

end Destroy

/-- `_destroy_slab`, after which the node is zero. -/
def slabDestroyAt : (d : Nat) → Node (Kind d) → World pageSize → World pageSize
  | 0 => fun _ w => w
  | d + 1 => fun n w => n.ptr.foldl (fun w c => destroyChunk (slabDestroyAt d) n.osz n.level c w) w

/-! ## The owners -/

/-- The words of data pages after a word was stored at an address. -/
def storeWords (p v osz a : Nat) (words : List Nat) : List Nat :=
  words.mapIdx fun j word => if a + j * osz = p then v else word

/-- An owner stores a word at the start of the object at `p`. -/
def storeAt (p v : Nat) : (d : Nat) → Node (Kind d) → Node (Kind d)
  | 0 => fun n => n
  | d + 1 => fun n =>
    { n with ptr := n.ptr.map fun c : Chunk (Kind d) =>
        match c with
        | .null => .null
        | .index a nodes => .index a (nodes.map (storeAt p v d))
        | .data a words => .data a (storeWords p v n.osz a words) }

/-! ## The context -/

/-- The tree of a size class. -/
structure Root where
  depth : Nat
  node : Node (Kind depth)

/-- The node of a class that is not in use. -/
def Root.zero : Root := ⟨1, Node.zero 1⟩

/-- `_slab_context_t`: the page size, the address of `p_slab` and the nodes of the classes there, and the world. -/
structure Context (pageSize : Nat) where
  pSlab : Nat
  slab : List Root
  world : World pageSize

namespace Context

/-- `slab_init`. -/
def init (w : World pageSize) : Option (Context pageSize) :=
  if pageSize ≥ slabMinPage then
    let p := w.memAlloc 1 defaultSlabLimit
    if p.1 ≠ 0 then some { pSlab := p.1, slab := List.replicate (pageSize / slabSz) Root.zero, world := p.2 }
    else none
  else none

/-- `slab_entry`: the class, in use from now on, with its node. -/
def entry (s : Context pageSize) (size : Nat) : Option (Nat × Root × World pageSize) :=
  (slabClass size pageSize).bind fun p =>
    s.slab[p]?.map fun root =>
      if root.node.osz = 0 then
        let osz := allign size pageSize % 2 ^ 32
        (p, ⟨1, { Node.zero 1 with osz := osz }⟩, s.world.recorded osz)
      else (p, root, s.world)

/-- `slab_inc_rec_level`: the node moves to a new index page, and points to that page alone. -/
def incRecLevel (root : Root) (w : World pageSize) : Bool × Root × World pageSize :=
  let p := w.memAlloc 1 defaultSlabLimit
  if p.1 ≠ 0 then
    let nodes := root.node :: List.replicate (pageSize / slabSz - 1) (Node.zero root.depth)
    let ptr : List (Chunk (Kind root.depth)) := .index p.1 nodes :: List.replicate (slabNodes - 1) .null
    (true, ⟨root.depth + 1, { osz := root.node.osz, ptr := ptr, level := (root.node.level + 1) % 2 ^ 4, count := 0 }⟩, p.2)
  else (false, root, p.2)

/-- The first push of `slab_alloc`: a class at level 0 gets objects of a second size. -/
def deepen (size : Nat) (root : Root) (w : World pageSize) : Root × World pageSize :=
  let sz := allign size pageSize
  if root.node.level = 0 ∧ sz > pageSize ∧ sz ≠ root.node.osz then (incRecLevel root w).2 else (root, w)

/-- `_slab_alloc` of the node of a class. -/
def allocIn (size limit : Nat) (root : Root) (w : World pageSize) : Option Nat × Root × World pageSize :=
  let t := slabAllocAt (allign size pageSize % 2 ^ 32) limit root.depth root.node w
  (t.1, ⟨root.depth, t.2.1⟩, t.2.2)

/-- `slab_alloc` of the node of a class, after `slab_entry`. -/
def allocRoot (size limit : Nat) (root : Root) (w : World pageSize) : Option Nat × Root × World pageSize :=
  let first := deepen size root w
  let t := allocIn size limit first.1 first.2
  if t.1.isSome then t
  else
    let inc := incRecLevel t.2.1 t.2.2
    if inc.1 then allocIn size limit inc.2.1 inc.2.2 else (none, inc.2)

/-- `slab_alloc`. -/
def alloc (s : Context pageSize) (size limit : Nat) : Option Nat × Context pageSize :=
  match s.entry size with
  | none => (none, s)
  | some (p, root, w) =>
    let t := allocRoot size limit root w
    (t.1, { s with slab := s.slab.set p t.2.1, world := t.2.2 })

/-- `_slab_verify` of the node of a class. -/
def visitRoot (act : Action pageSize) (ptr : Nat) (root : Root) (w : World pageSize) : Bool × Root × World pageSize :=
  let t := slabVisitAt act ptr root.depth root.node w
  (t.1, ⟨root.depth, t.2.1⟩, t.2.2)

/-- `slab_verify` and `slab_free` with a size. -/
def visitSized (s : Context pageSize) (act : Action pageSize) (ptr size : Nat) : Bool × Context pageSize :=
  match s.entry size with
  | none => (false, s)
  | some (p, root, w) =>
    let t := visitRoot act ptr root w
    (t.1, { s with slab := s.slab.set p t.2.1, world := t.2.2 })

/-- The loop of `slab_verify` and `slab_free` over the classes. -/
def visitRoots (act : Action pageSize) (ptr : Nat) : List Root → World pageSize → Bool × List Root × World pageSize
  | [], w => (false, [], w)
  | root :: rest, w =>
    let t := visitRoot act ptr root w
    if t.1 then (true, t.2.1 :: rest, t.2.2)
    else
      let u := visitRoots act ptr rest t.2.2
      (u.1, t.2.1 :: u.2.1, u.2.2)

/-- `slab_verify` and `slab_free` without a size. -/
def visit (s : Context pageSize) (act : Action pageSize) (ptr : Nat) : Bool × Context pageSize :=
  let t := visitRoots act ptr s.slab s.world
  (t.1, { s with slab := t.2.1, world := t.2.2 })

/-- `slab_status`, with what it divides by. -/
def status (s : Context pageSize) : Status × List Nat :=
  let sum := s.slab.foldr (fun root sum =>
    let t := slabStatusAt pageSize root.depth root.node
    (t.1 + sum.1, t.2 ++ sum.2)) (0, [])
  (⟨sum.1.naobj % 2 ^ 32, sum.1.nrobj % 2 ^ 32, sum.1.ndpg % 2 ^ 32, (1 + sum.1.nspg) % 2 ^ 32⟩, sum.2)

/-- `slab_destroy`: the world afterwards. -/
def destroy (s : Context pageSize) : World pageSize :=
  (s.slab.foldl (fun w root => slabDestroyAt root.depth root.node w) s.world).memFree s.pSlab 1

/-- What an owner stores. -/
def store (s : Context pageSize) (p v : Nat) : Context pageSize :=
  { s with slab := s.slab.map fun root => ⟨root.depth, storeAt p v root.depth root.node⟩ }

end Context

/-- An object that was given to an owner: its address, and the size that was asked for. -/
structure Obj where
  addr : Nat
  size : Nat
deriving DecidableEq, Repr

/-- A call of the slab allocator, or what an owner stores at the start of an object. -/
inductive Op where
  | alloc (size limit : Nat)
  | free (ptr : Nat)
  | freeSized (ptr size : Nat)
  | verify (ptr : Nat)
  | verifySized (ptr size : Nat)
  | status
  | store (ptr v : Nat)

/-- The context, and the objects that were given to owners and not freed by them, newest first. -/
structure State (pageSize : Nat) where
  ctx : Context pageSize
  live : List Obj

namespace State

def step (s : State pageSize) : Op → State pageSize
  | .alloc size limit =>
    let t := s.ctx.alloc size limit
    { ctx := t.2, live := (t.1.map fun a => ⟨a, size⟩).toList ++ s.live }
  | .free ptr => { ctx := (s.ctx.visit .release ptr).2, live := s.live.filter fun o => o.addr ≠ ptr }
  | .freeSized ptr size =>
    { ctx := (s.ctx.visitSized .release ptr size).2, live := s.live.filter fun o => o.addr ≠ ptr }
  | .verify ptr => { s with ctx := (s.ctx.visit .keep ptr).2 }
  | .verifySized ptr size => { s with ctx := (s.ctx.visitSized .keep ptr size).2 }
  | .status => { s with ctx := { s.ctx with world :=
      { s.ctx.world with divisors := s.ctx.status.2 ++ s.ctx.world.divisors } } }
  | .store ptr v => { s with ctx := s.ctx.store ptr v }

/-- The states after a run from `slab_init`. -/
def run (s : State pageSize) (ops : List Op) : State pageSize := ops.foldl step s

end State

end PreTeO.Mem.Slab
