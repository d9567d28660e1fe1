import PreTeO.Lib.Tiling
import PreTeO.Mgfs3.Dentry

/-!
# The records of a directory

What the accessors read after a write: a write inside the slot of one record is not seen by another
record, and a write to the links of a record is not seen by its other members.
-/

namespace PreTeO.Mgfs3
set_option autoImplicit false
open PreTeO.Lib

/-- The key a record is searched by. -/
def Directory.key (d : Directory) (p : Position) : List Int := chars (d.name p)

/-- The number in the `n` bytes from byte `i` of a record on. -/
def Directory.read (d : Directory) (p : Position) (i n : Nat) : Nat := (d.blocks p.block).load (p.offset + i) n

theorem Directory.nameSize_eq (d : Directory) (p : Position) : d.nameSize p = d.read p 0 2 := rfl
theorem Directory.recordSize_eq (d : Directory) (p : Position) : d.recordSize p = d.read p 2 2 := rfl
theorem Directory.inodeNumber_eq (d : Directory) (p : Position) : d.inodeNumber p = d.read p 5 4 := rfl

theorem Directory.link_eq (d : Directory) (l : Link) (p : Position) :
    d.link l p = ⟨d.read p l.place 4, d.read p (l.place + 4) 2⟩ := rfl

theorem Directory.nameSize_lt (d : Directory) (p : Position) : d.nameSize p < 2 ^ 16 := Mem.load_lt _ _ 2
theorem Directory.recordSize_lt (d : Directory) (p : Position) : d.recordSize p < 2 ^ 16 := Mem.load_lt _ _ 2

/-! ## Reading after writing -/

/-- The `k` bytes at byte `j` of the record at `q` have nothing in common with the `n` bytes at byte
`i` of the record at `p`. -/
def Off (p : Position) (i n : Nat) (q : Position) (j k : Nat) : Prop :=
  q.block ≠ p.block ∨ Mem.Apart (q.offset + j) k (p.offset + i) n

theorem Off.self {p : Position} {i n j k : Nat} (h : Mem.Apart j k i n) : Off p i n p j k := by
  right
  rcases h with h | h
  · left
    omega
  · right
    omega

/-- Parts of ranges without a common byte. -/
theorem Off.sub {p q : Position} {i n j k a m b r : Nat} (off : Off p i n q j k) (lowP : i ≤ a)
    (highP : a + m ≤ i + n) (lowQ : j ≤ b) (highQ : b + r ≤ j + k) : Off p a m q b r := by
  rcases off with other | apart | apart
  · exact Or.inl other
  · exact Or.inr (Or.inl (by omega))
  · exact Or.inr (Or.inr (by omega))

/-- A place in the middle of a record. -/
theorem Off.shift {p q : Position} {i n j k w : Nat} (off : Off p (w + i) n q j k) :
    Off ⟨p.block, p.offset + w⟩ i n q j k := by
  rcases off with other | apart | apart
  · exact Or.inl other
  · exact Or.inr (Or.inl (by simp only; omega))
  · exact Or.inr (Or.inr (by simp only; omega))

section Write

variable {d : Directory} {p q : Position} {i n j k v : Nat} {f : Nat → Byte}

theorem Directory.blocks_write_self : (d.write p i n f).blocks p.block = (d.blocks p.block).blit (p.offset + i) n f :=
  Function.update_self _ _ _

theorem Directory.blocks_write_of_ne {b : Nat} (other : b ≠ p.block) : (d.write p i n f).blocks b = d.blocks b :=
  Function.update_of_ne other _ _

theorem Directory.byte_write_out (off : Off p i n q j 1) : (d.write p i n f).byte q j = d.byte q j := by
  unfold byte
  by_cases same : q.block = p.block
  · rw [same, blocks_write_self]
    apply Mem.blit_out
    rcases off with other | apart | apart
    · exact absurd same other
    · omega
    · omega
  · rw [blocks_write_of_ne same]

theorem Directory.byte_write_in (low : i ≤ j) (high : j < i + n) : (d.write p i n f).byte p j = f (j - i) := by
  unfold byte
  rw [blocks_write_self, Mem.blit_in (by omega) (by omega)]
  exact congrArg f (by omega)

theorem Directory.read_write_out (off : Off p i n q j k) : (d.write p i n f).read q j k = d.read q j k := by
  unfold read
  by_cases same : q.block = p.block
  · rcases off with other | apart
    · exact absurd same other
    · rw [same, blocks_write_self, Mem.load_blit_out apart]
  · rw [blocks_write_of_ne same]

theorem Directory.read_store_out (off : Off p i n q j k) : (d.store p i n v).read q j k = d.read q j k :=
  read_write_out off

theorem Directory.read_store (small : v < 256 ^ n) : (d.store p i n v).read p i n = v := by
  unfold read store
  rw [blocks_write_self]
  exact Mem.load_store_of_lt small

@[simp] theorem Directory.write_unitSize : (d.write p i n f).unitSize = d.unitSize := rfl
@[simp] theorem Directory.write_dunits : (d.write p i n f).dunits = d.dunits := rfl
@[simp] theorem Directory.write_sz : (d.write p i n f).sz = d.sz := rfl
@[simp] theorem Directory.store_unitSize : (d.store p i n v).unitSize = d.unitSize := rfl
@[simp] theorem Directory.store_dunits : (d.store p i n v).dunits = d.dunits := rfl
@[simp] theorem Directory.store_sz : (d.store p i n v).sz = d.sz := rfl

theorem Directory.write_top {m : Nat} (top : d.top ≤ m) (inside : p.offset + i + n ≤ m) :
    (d.write p i n f).top ≤ m := Nat.max_le.mpr ⟨top, inside⟩

end Write

/-! ## What a record says -/

/-- The two directories have the same bytes in the first `n` of the record at `p`. -/
def SameBytes (d d' : Directory) (p : Position) (lo hi : Nat) : Prop :=
  ∀ i, lo ≤ i → i < hi → d'.byte p i = d.byte p i

/-- The record says the same in both directories, its size and its links apart. -/
structure SameEntry (d d' : Directory) (p : Position) : Prop where
  nameSize : d'.nameSize p = d.nameSize p
  flags : d'.flags p = d.flags p
  inodeNumber : d'.inodeNumber p = d.inodeNumber p
  name : ∀ i, i < d.nameSize p → d'.name p i = d.name p i

section Same

variable {d d' d'' : Directory} {p : Position}

theorem SameBytes.mono {lo hi lo' hi' : Nat} (h : SameBytes d d' p lo hi) (low : lo ≤ lo') (high : hi' ≤ hi) :
    SameBytes d d' p lo' hi' := fun i hlo hhi => h i (by omega) (by omega)

theorem SameBytes.read {lo hi i n : Nat} (h : SameBytes d d' p lo hi) (low : lo ≤ i) (high : i + n ≤ hi) :
    d'.read p i n = d.read p i n := by
  apply Mem.load_congr
  intro x hlo hhi
  have := h (x - p.offset) (by omega) (by omega)
  unfold Directory.byte at this
  rwa [show p.offset + (x - p.offset) = x by omega] at this

theorem SameEntry.refl (d : Directory) (p : Position) : SameEntry d d p := ⟨rfl, rfl, rfl, fun _ _ => rfl⟩

theorem SameEntry.trans (h : SameEntry d d' p) (h' : SameEntry d' d'' p) : SameEntry d d'' p where
  nameSize := h'.nameSize.trans h.nameSize
  flags := h'.flags.trans h.flags
  inodeNumber := h'.inodeNumber.trans h.inodeNumber
  name i hi := (h'.name i (h.nameSize ▸ hi)).trans (h.name i hi)

/-- A record whose bytes outside its links are the same says the same. -/
theorem SameEntry.of_bytes (sizes : SameBytes d d' p 0 2) (body : SameBytes d d' p 4 9)
    (name : SameBytes d d' p szDirRecord (szDirRecord + d.nameSize p)) : SameEntry d d' p where
  nameSize := sizes.read (Nat.le_refl 0) (Nat.le_refl 2)
  flags := body 4 (by omega) (by omega)
  inodeNumber := body.read (by omega) (by omega)
  name i hi := name (szDirRecord + i) (by omega) (by omega)

theorem SameEntry.deleted (h : SameEntry d d' p) : d'.Deleted p ↔ d.Deleted p := by
  unfold Directory.Deleted
  rw [h.flags]

theorem SameEntry.ends (h : SameEntry d d' p) (ends : Ends (d.name p) (d.nameSize p)) :
    Ends (d'.name p) (d'.nameSize p) := by
  obtain ⟨k, hk, zero⟩ := ends
  exact ⟨k, h.nameSize ▸ hk, (h.name k hk).trans zero⟩

/-- A name that ends in its record is a proper string. -/
theorem Directory.ends_maxStr (ends : Ends (d.name p) (d.nameSize p)) : Ends (d.name p) maxStr :=
  ends.mono (Nat.le_of_lt (d.nameSize_lt p))

theorem SameEntry.key (h : SameEntry d d' p) (ends : Ends (d.name p) (d.nameSize p)) : d'.key p = d.key p := by
  have small := Nat.le_of_lt (d.nameSize_lt p)
  exact charsN_congr ends h.name small small

end Same

/-! ## Layouts -/

/-- The offsets of the records of every block. -/
abbrev Layout := Nat → List Nat

def Layout.Has (L : Layout) (p : Position) : Prop := p.offset ∈ L p.block

/-- The records of every block of the directory lie end to end at offsets that are valid, and no byte was ever
written past the end of a block. -/
structure Tiled (d : Directory) (L : Layout) : Prop where
  starts : ∀ p, L.Has p → p.offset < invalidBlockOffset
  few : d.dunits ≤ invalidBlockNumber
  outside : ∀ b, d.dunits ≤ b → L b = []
  tiles : ∀ b, b < d.dunits → Tiles (fun o => d.recordSize ⟨b, o⟩) 0 d.unitSize (L b)
  top : d.top ≤ d.unitSize

/-- Every record has room for its header and its name, which ends in the record. -/
structure Laid (d : Directory) (L : Layout) : Prop extends Tiled d L where
  room : ∀ p, L.Has p → szDirRecord + d.nameSize p ≤ d.recordSize p
  ends : ∀ p, L.Has p → Ends (d.name p) (d.nameSize p)

namespace Tiled

variable {d : Directory} {L : Layout} {p q : Position}

theorem hasBlock (tiled : Tiled d L) (hp : L.Has p) : d.HasBlock p := by
  by_contra none
  have empty := tiled.outside p.block (Nat.not_lt.mp none)
  unfold Layout.Has at hp
  rw [empty] at hp
  cases hp

theorem inside (tiled : Tiled d L) (hp : L.Has p) : p.offset + d.recordSize p ≤ d.unitSize :=
  ((tiled.tiles p.block (tiled.hasBlock hp)).bounds hp).2.2

/-- Different records have no byte in common. -/
theorem off (tiled : Tiled d L) (hp : L.Has p) (hq : L.Has q) (ne : q ≠ p) {i n j k : Nat}
    (insideP : i + n ≤ d.recordSize p) (insideQ : j + k ≤ d.recordSize q) : Off p i n q j k := by
  by_cases same : q.block = p.block
  · have differ : q.offset ≠ p.offset := fun h => ne (by cases p; cases q; simp_all)
    unfold Layout.Has at hq
    rw [same] at hq
    have apart := (tiled.tiles p.block (tiled.hasBlock hp)).apart hq hp differ
    rw [show (⟨p.block, q.offset⟩ : Position) = q by rw [← same]] at apart
    right
    rcases apart with h | h
    · left
      omega
    · right
      have : p.offset + d.recordSize p ≤ q.offset := h
      omega
  · exact Or.inl same

end Tiled

namespace Laid

variable {d d' : Directory} {L : Layout} {p : Position}

theorem header (laid : Laid d L) (hp : L.Has p) : szDirRecord ≤ d.recordSize p := by
  have := laid.room p hp
  omega

theorem block_lt (laid : Laid d L) (hp : L.Has p) : p.block < invalidBlockNumber :=
  Nat.lt_of_lt_of_le (laid.hasBlock hp) laid.few

theorem offset_lt (laid : Laid d L) (hp : L.Has p) : p.offset < invalidBlockOffset := laid.starts p hp

theorem key (laid : Laid d L) (hp : L.Has p) (same : SameEntry d d' p) : d'.key p = d.key p :=
  same.key (laid.ends p hp)

theorem cmp_eq_zero (laid : Laid d L) (hp : L.Has p) (s : Nat → Byte) :
    strCmp s (d.name p) = 0 ↔ chars s = d.key p :=
  strCmp_eq_zero (Or.inr (Directory.ends_maxStr (laid.ends p hp)))

theorem cmp_lt_zero (laid : Laid d L) (hp : L.Has p) (s : Nat → Byte) :
    strCmp s (d.name p) < 0 ↔ chars s < d.key p :=
  strCmp_lt_zero (Or.inr (Directory.ends_maxStr (laid.ends p hp)))

end Laid

/-- A change that keeps the layout and what the records say. -/
structure Relinked (L : Layout) (d d' : Directory) : Prop where
  unitSize : d'.unitSize = d.unitSize
  dunits : d'.dunits = d.dunits
  sz : d'.sz = d.sz
  top : d.top ≤ d.unitSize → d'.top ≤ d.unitSize
  recordSize : ∀ p, L.Has p → d'.recordSize p = d.recordSize p
  entry : ∀ p, L.Has p → SameEntry d d' p

namespace Relinked

variable {d d' d'' : Directory} {L : Layout} {p : Position}

theorem refl (L : Layout) (d : Directory) : Relinked L d d :=
  ⟨rfl, rfl, rfl, id, fun _ _ => rfl, fun p _ => SameEntry.refl d p⟩

theorem trans (h : Relinked L d d') (h' : Relinked L d' d'') : Relinked L d d'' where
  unitSize := h'.unitSize.trans h.unitSize
  dunits := h'.dunits.trans h.dunits
  sz := h'.sz.trans h.sz
  top le := h.unitSize ▸ h'.top (h.unitSize.symm ▸ h.top le)
  recordSize p hp := (h'.recordSize p hp).trans (h.recordSize p hp)
  entry p hp := (h.entry p hp).trans (h'.entry p hp)

theorem laid (h : Relinked L d d') (laid : Laid d L) : Laid d' L where
  starts := laid.starts
  few := h.dunits ▸ laid.few
  outside b hb := laid.outside b (h.dunits ▸ hb)
  tiles b hb := by
    rw [h.unitSize]
    exact (laid.tiles b (h.dunits ▸ hb)).congr fun o ho => h.recordSize ⟨b, o⟩ ho
  room p hp := by
    rw [(h.entry p hp).nameSize, h.recordSize p hp]
    exact laid.room p hp
  ends p hp := (h.entry p hp).ends (laid.ends p hp)
  top := h.unitSize ▸ h.top laid.top

end Relinked

end PreTeO.Mgfs3
