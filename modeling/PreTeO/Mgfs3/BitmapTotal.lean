import PreTeO.Mgfs3.BitmapAlloc

/-!
# The number of set bits of a bitmap file

The counters of the records add up to the number of bits that are set, and the counter of the whole file is to be that number.
-/

namespace PreTeO.Mgfs3
set_option autoImplicit false
open PreTeO.Lib

/-- The bits that are set. -/
def setBits (recs : List BitmapRec) : Finset Nat :=
  (Finset.range (maxBitmapBits * recs.length)).filter fun n => bitOf recs n = true

/-- The counters of the records, added up. -/
def usedSum (recs : List BitmapRec) : Nat := (recs.map BitmapRec.used).sum

section Records
variable {recs recs' : List BitmapRec} {new : List Nat} {n : Nat}

theorem bitOf_lt (set : bitOf recs n = true) : n < maxBitmapBits * recs.length := by
  unfold bitOf at set
  split at set
  · cases set
  · next r get =>
    have index := (List.getElem?_eq_some_iff.mp get).1
    rw [Nat.mul_comm]
    exact (Nat.div_lt_iff_lt_mul (by decide)).mp index

theorem mem_setBits : n ∈ setBits recs ↔ bitOf recs n = true := by
  unfold setBits
  rw [Finset.mem_filter, Finset.mem_range]
  exact ⟨And.right, fun set => ⟨bitOf_lt set, set⟩⟩

theorem card_setBits_le (recs : List BitmapRec) : (setBits recs).card ≤ maxBitmapBits * recs.length := by
  have := Finset.card_filter_le (Finset.range (maxBitmapBits * recs.length)) fun n => bitOf recs n = true
  rwa [Finset.card_range] at this

/-- The bits of the first record and of those behind it. -/
theorem bitOf_cons (r : BitmapRec) (rest : List BitmapRec) (n : Nat) :
    bitOf (r :: rest) n = if n < maxBitmapBits then r.bits.getLsbD n else bitOf rest (n - maxBitmapBits) := by
  unfold bitOf
  split_ifs with first
  · rw [Nat.div_eq_of_lt first, Nat.mod_eq_of_lt first]
    rfl
  · obtain ⟨m, rfl⟩ := Nat.exists_eq_add_of_le (Nat.le_of_not_lt first)
    rw [Nat.add_div_left m (by decide), Nat.add_mod_left, Nat.add_sub_cancel_left, List.getElem?_cons_succ]

theorem setBits_cons (r : BitmapRec) (rest : List BitmapRec) :
    (setBits (r :: rest)).card = ones r.bits + (setBits rest).card := by
  have parts : setBits (r :: rest) = (Finset.range maxBitmapBits).filter (fun j => r.bits.getLsbD j = true) ∪
      (setBits rest).image (· + maxBitmapBits) := by
    ext n
    rw [mem_setBits, bitOf_cons, Finset.mem_union, Finset.mem_filter, Finset.mem_range, Finset.mem_image]
    split_ifs with first
    · refine ⟨fun set => Or.inl ⟨first, set⟩, ?_⟩
      rintro (set | ⟨m, _, rfl⟩)
      · exact set.2
      · exact absurd first (Nat.not_lt.mpr (Nat.le_add_left _ _))
    · constructor
      · exact fun set => Or.inr ⟨_, mem_setBits.mpr set, Nat.sub_add_cancel (Nat.le_of_not_lt first)⟩
      · rintro (set | ⟨m, set, rfl⟩)
        · exact absurd set.1 first
        · rw [Nat.add_sub_cancel]
          exact mem_setBits.mp set
  rw [parts, Finset.card_union_of_disjoint,
    Finset.card_image_of_injective _ fun _ _ => Nat.add_right_cancel]
  · rfl
  · rw [Finset.disjoint_left]
    intro n first later
    obtain ⟨m, _, rfl⟩ := Finset.mem_image.mp later
    have := Finset.mem_range.mp (Finset.mem_filter.mp first).1
    omega

/-- With right counters in the records, their sum is the number of set bits. -/
theorem CountedFile.sum (counted : CountedFile recs) : usedSum recs = (setBits recs).card := by
  unfold usedSum
  induction recs with
  | nil => rfl
  | cons r rest ih =>
    rw [setBits_cons, List.map_cons, List.sum_cons, ih fun r' member => counted r' (List.mem_cons_of_mem _ member)]
    exact congrArg (· + (setBits rest).card) (counted r List.mem_cons_self)

theorem Took.setBits (took : Took recs recs' new) : setBits recs' = setBits recs ∪ new.toFinset := by
  ext n
  rw [Finset.mem_union, List.mem_toFinset, mem_setBits, mem_setBits, took.bits n]
  simp

theorem Took.card (took : Took recs recs' new) :
    (PreTeO.Mgfs3.setBits recs').card = (PreTeO.Mgfs3.setBits recs).card + new.length := by
  rw [took.setBits, Finset.card_union_of_disjoint, List.toFinset_card_of_nodup took.nodup]
  rw [Finset.disjoint_left]
  intro n set member
  have clear := (took.clear n (List.mem_toFinset.mp member)).2
  rw [mem_setBits.mp set] at clear
  cases clear

end Records

/-- The counter of a bitmap file is the number of its set bits. -/
structure Volume.Totalled (v : Volume) (ref : Ref) : Prop where
  short : maxBitmapBits * (v.bits ref.idx).length ≤ 2 ^ 32
  total : (v.inodes ref).nused = (setBits (v.bits ref.idx)).card

section File
variable {v w : Volume} {ref : Ref} {new : List Nat}

/-- There are always fewer than 32 bits can count. -/
theorem card_lt {recs : List BitmapRec} (short : maxBitmapBits * recs.length ≤ 2 ^ 32) : (setBits recs).card < 2 ^ 32 := by
  have most := card_setBits_le recs
  unfold maxBitmapBits at short most
  omega

theorem Frozen.totalled (frozen : Frozen v w) (totalled : v.Totalled ref) : w.Totalled ref := by
  obtain ⟨short, total⟩ := totalled
  rw [← frozen.bits] at short total
  rw [← frozen.inodes] at total
  exact ⟨short, total⟩

theorem TookBits.totalled (took : TookBits v w ref new) (totalled : v.Totalled ref) : w.Totalled ref := by
  obtain ⟨recs, bits, took'⟩ := took.bits
  obtain ⟨n, inodes, counts⟩ := took.nused
  have here : w.bits ref.idx = recs := by rw [bits, Function.update_self]
  have short : maxBitmapBits * recs.length ≤ 2 ^ 32 := took'.length ▸ totalled.short
  have card := took'.card
  have few := card_lt short
  refine ⟨here ▸ short, ?_⟩
  rw [here, inodes, Function.update_self, card]
  dsimp only
  rw [counts (by rw [totalled.total]; omega), totalled.total]

end File

end PreTeO.Mgfs3
