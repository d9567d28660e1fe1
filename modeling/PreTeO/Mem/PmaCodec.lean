import PreTeO.Mem.PmaParts

/-!
# Pages and positions

`address_to_position` gives the position of a page in two forms: the index of the block and that of the record, and
pointers in their place. `position_to_address` is there for each form. For indices it multiplies in 64 bits. For pointers
it looks for the record with a counter of 32 bits, and its products have 32 bits as well, so that the addresses of a block
come round again after 4 GiB.
-/

namespace PreTeO.Mem
set_option autoImplicit false

/-- The allocator with `p_rec` of every member of `m_ram`, the address of its first record. -/
structure Records where
  pma : Pma
  pRec : Nat → Nat

/-- What `address_to_position` stores. The pointer to a block is the index of the member of `m_ram` it points to. -/
structure Place where
  pBlock : Nat
  blockIdx : Nat
  pRec : Nat
  recIdx : Nat
  bit : Nat
deriving DecidableEq, Repr

/-- The position in indices. -/
def Place.position (place : Place) : Position := ⟨place.blockIdx, place.recIdx, place.bit⟩

/-- `&p_rec[index]` of a block. A record takes four bytes. -/
def Records.recAddr (s : Records) (block index : Nat) : Nat := (s.pRec block + index * 4) % 2 ^ 64

/-- Both forms of a position. -/
def Records.place (s : Records) (p : Position) : Place :=
  ⟨p.block, p.block, s.recAddr p.block p.index, p.index, p.bit⟩

/-- `address_to_position` with all it stores. -/
def Records.addressToPosition (s : Records) (addr : Nat) : Option Place := (s.pma.addressToPosition addr).map s.place

/-- The address at the index `i` of the loop. `i` is a `_u32`, so the products have 32 bits; the sums have 64. -/
def Ram.addressAt (b : Ram) (pageSize i bit : Nat) : Nat :=
  let base := (b.addr + (i * maxRecAmount % 2 ^ 32) * pageSize % 2 ^ 32) % 2 ^ 64
  (base + bit * pageSize) % 2 ^ 64

/-- The loop over the records from the index `i`, for a number of turns; `first` is the address of the first record. -/
def Ram.seek (b : Ram) (pageSize first pRec bit : Nat) : Nat → Nat → Option Nat
  | 0, _ => none
  | turns + 1, i =>
    if i < b.recs.length then
      if (first + i * 4) % 2 ^ 64 = pRec then some (b.addressAt pageSize i bit)
      else b.seek pageSize first pRec bit turns (up 32 i)
    else some 0

/-- `position_to_address` for pointers. After `2 ^ 32` turns the index is 0 again and the loop has no end: `none`. -/
def Records.positionToAddress (s : Records) (pBlock pRec bit : Nat) : Option Nat :=
  match s.pma.ram[pBlock]? with
  | none => none
  | some b => b.seek s.pma.pageSize (s.pRec pBlock) pRec bit (2 ^ 32) 0

/-- The blocks lie in the address space page by page and share no byte. A block may be without records. -/
structure Pma.BlocksApart (s : Pma) : Prop where
  positive : 0 < s.pageSize
  aligned : ∀ b ∈ s.ram, s.pageSize ∣ b.addr
  inSpace : ∀ b ∈ s.ram, b.addr + b.npages * s.pageSize ≤ 2 ^ 64
  apart : ∀ (i j : Nat) (b b' : Ram), s.ram[i]? = some b → s.ram[j]? = some b' → i ≠ j →
    Disjoint (b.area s.pageSize) (b'.area s.pageSize)

/-- The conversions are inverse to each other on pages, those from the two forms agree, and an address outside all blocks
has no position. -/
structure Records.CodecOk (s : Records) : Prop where
  page : ∀ (i q : Nat) (b : Ram), s.pma.ram[i]? = some b → q < b.npages →
    ∃ place, s.addressToPosition (b.addr + q * s.pma.pageSize) = some place ∧ place.blockIdx = i ∧
      s.pma.positionToAddress place.position = b.addr + q * s.pma.pageSize ∧
      s.positionToAddress place.pBlock place.pRec place.bit = some (b.addr + q * s.pma.pageSize)
  position : ∀ (p : Position) (b : Ram), s.pma.At p b →
    s.addressToPosition (s.pma.positionToAddress p) = some (s.place p) ∧
      (s.positionToAddress p.block (s.recAddr p.block p.index) p.bit).bind s.addressToPosition = some (s.place p)
  outside : ∀ addr, (∀ b ∈ s.pma.ram, addr ∉ b.area s.pma.pageSize) → s.addressToPosition addr = none
  agree : ∀ (p : Position) (b : Ram), s.pma.At p b →
    s.positionToAddress p.block (s.recAddr p.block p.index) p.bit = some (s.pma.positionToAddress p)

/-- Of a block with records: it ends below the top of the address space, and the pages of its last record begin less than
4 GiB behind its own beginning. -/
def Records.InReach (s : Records) : Prop := ∀ b ∈ s.pma.ram, b.recs ≠ [] →
  b.addr + b.npages * s.pma.pageSize < 2 ^ 64 ∧ (b.recs.length - 1) * maxRecAmount * s.pma.pageSize < 2 ^ 32

/-! ## The loop over the records -/

section Seek
variable {b : Ram} {pageSize first bit k : Nat}

/-- The loop stops at the record the pointer points to, if its index is a `_u32`. -/
theorem Ram.seek_eq (inside : k < b.recs.length) (low : k < 2 ^ 32) (d turns i : Nat) (left : i + d = k)
    (enough : d < turns) :
    b.seek pageSize first ((first + k * 4) % 2 ^ 64) bit turns i = some (b.addressAt pageSize k bit) := by
  induction d generalizing turns i with
  | zero =>
    obtain ⟨turns, rfl⟩ := Nat.exists_eq_succ_of_ne_zero (Nat.ne_of_gt enough)
    rw [Nat.add_zero] at left
    rw [Ram.seek, if_pos (left ▸ inside), if_pos (by rw [left]), left]
  | succ d ih =>
    obtain ⟨turns, rfl⟩ := Nat.exists_eq_succ_of_ne_zero (Nat.ne_of_gt (Nat.zero_lt_of_lt enough))
    -- two records with indices of 32 bits have different addresses
    have differ : (first + i * 4) % 2 ^ 64 ≠ (first + k * 4) % 2 ^ 64 := by omega
    rw [Ram.seek, if_pos (by omega), if_neg differ, up_eq (by omega)]
    exact ih turns (i + 1) (by omega) (by omega)

/-- The address the loop computes is that of the page if the product before it has 32 bits, and only then. -/
theorem Ram.addressAt_eq_iff (fits : b.addr + k * maxRecAmount * pageSize + bit * pageSize < 2 ^ 64) :
    b.addressAt pageSize k bit = b.addr + k * maxRecAmount * pageSize + bit * pageSize ↔
      k * maxRecAmount * pageSize < 2 ^ 32 := by
  unfold Ram.addressAt
  rw [Nat.mod_mul_mod]
  generalize k * maxRecAmount * pageSize = offset at fits ⊢
  have less := Nat.mod_le offset (2 ^ 32)
  dsimp only
  rw [Nat.mod_eq_of_lt (a := b.addr + offset % 2 ^ 32) (by omega), Nat.mod_eq_of_lt (by omega)]
  omega

end Seek

/-! ## The conversions -/

theorem Pma.Blocks.blocksApart {s : Pma} (blocks : s.Blocks) : s.BlocksApart :=
  ⟨blocks.positive, blocks.aligned, blocks.inSpace, fun _ _ _ _ get get' differ => blocks.apart get get' differ⟩

section Init
variable {pageSize : Nat}

/-- The block of a part ends where the part does, or before. -/
theorem RamPart.block_end_le (positive : 0 < pageSize) (part : RamPart) (large : pageSize ≤ part.size) :
    (part.block pageSize).addr + (part.block pageSize).npages * pageSize ≤ part.addr + part.size := by
  have pages := Nat.mul_le_mul_right pageSize (part.pages_le positive)
  have whole := Nat.div_mul_le_self (part.size - (pageSize - part.addr % pageSize)) pageSize
  have offset := Nat.mod_lt part.addr positive
  rw [Nat.add_mul] at pages
  simp only [RamPart.block, Ram.npages, List.length_replicate, RamPart.aligned, maxRecAmount]
  omega

/-- `init` makes blocks that are apart of parts that are. -/
theorem blocksApart_of_init {parts : List RamPart} {s : Pma} (positive : 0 < pageSize)
    (inSpace : ∀ part ∈ parts, part.addr + part.size ≤ 2 ^ 64)
    (apart : parts.Pairwise fun x y => Disjoint x.extent y.extent) (made : Pma.init parts pageSize = some s) :
    s.BlocksApart := by
  rw [Pma.init, initRamBlock_parts parts [] (Nat.zero_le _), List.nil_append] at made
  split at made
  · cases made
    have large : ∀ part ∈ parts.filter fun part => part.Accepted pageSize, part ∈ parts ∧ pageSize ≤ part.size := by
      intro part member
      obtain ⟨given, accepted⟩ := List.mem_filter.mp member
      have long : (24 + 1) * pageSize < part.size := of_decide_eq_true accepted
      exact ⟨given, by omega⟩
    have pairs : ((parts.filter fun part => part.Accepted pageSize).map (·.block pageSize)).Pairwise
        fun b b' => Disjoint (b.area pageSize) (b'.area pageSize) := by
      rw [List.pairwise_map]
      refine (apart.filter _).imp_of_mem fun {x y} memX memY disjoint => ?_
      exact disjoint.mono (x.block_inside positive (large x memX).2) (y.block_inside positive (large y memY).2)
    refine ⟨positive, fun b member => ?_, fun b member => ?_, fun i j b b' get get' differ => ?_⟩
    · obtain ⟨part, -, rfl⟩ := List.mem_map.mp member
      exact part.block_aligned positive
    · obtain ⟨part, accepted, rfl⟩ := List.mem_map.mp member
      obtain ⟨given, long⟩ := large part accepted
      exact le_trans (part.block_end_le positive long) (inSpace part given)
    · obtain ⟨bound, rfl⟩ := List.getElem?_eq_some_iff.mp get
      obtain ⟨bound', rfl⟩ := List.getElem?_eq_some_iff.mp get'
      rcases Nat.lt_or_gt_of_ne differ with less | less
      · exact List.pairwise_iff_getElem.mp pairs i j bound bound' less
      · exact (List.pairwise_iff_getElem.mp pairs j i bound' bound less).symm
  · cases made

end Init

section Pages
variable {s : Pma} {p : Position} {b : Ram}

/-- The address of a position, by its page. -/
theorem Pma.At.address (at_b : s.At p b) : s.positionToAddress p = b.addr + p.page * s.pageSize := by
  unfold Pma.positionToAddress
  rw [at_b.block]
  dsimp only
  rw [if_pos at_b.index, Position.page, Nat.add_mul, Nat.mul_comm 24, ← Nat.add_assoc]
  rfl

/-- The page of a block has a position in it. -/
theorem Pma.at_page {i q : Nat} (get : s.ram[i]? = some b) (inside : q < b.npages) :
    s.At ⟨i, q / maxRecAmount, q % maxRecAmount⟩ b ∧ Position.page ⟨i, q / maxRecAmount, q % maxRecAmount⟩ = q := by
  rw [Arena.npages_eq] at inside
  refine ⟨⟨get, ?_, Nat.mod_lt _ (by decide)⟩, Nat.div_add_mod _ _⟩
  exact Nat.div_lt_of_lt_mul inside

/-- The page of a position leads back to it, if its block ends below the top of the address space. -/
theorem Pma.BlocksApart.addressToPosition (blocks : s.BlocksApart) (at_b : s.At p b)
    (fits : b.addr + b.npages * s.pageSize < 2 ^ 64) : s.addressToPosition (b.addr + p.page * s.pageSize) = some p := by
  have inside := Arena.At.page_lt at_b
  have apart : ∀ (j : Nat) (b' : Ram), s.ram[j]? = some b' → j < p.block →
      Disjoint (b'.area s.pageSize) (b.area s.pageSize) :=
    fun j b' get' earlier => blocks.apart j p.block b' b get' at_b.block (Nat.ne_of_lt earlier)
  rw [Pma.addressToPosition_page blocks.positive at_b.block (blocks.aligned b (List.mem_of_getElem? at_b.block)) fits
    apart inside]
  have small := at_b.bit
  have index : p.page / maxRecAmount = p.index := by
    unfold Position.page maxRecAmount
    omega
  have bit : p.page % maxRecAmount = p.bit := by
    unfold Position.page maxRecAmount
    omega
  rw [index, bit]

/-- A page with a position lies in a block, and so does an address in it. -/
theorem Pma.BlocksApart.outside (blocks : s.BlocksApart) {addr : Nat} (out : ∀ b ∈ s.ram, addr ∉ b.area s.pageSize) :
    s.addressToPosition addr = none := by
  rw [Option.eq_none_iff_forall_ne_some]
  intro p found
  obtain ⟨b, at_b, low, high, -⟩ := Pma.addressToPosition_at blocks.positive found
  have member := List.mem_of_getElem? at_b.block
  obtain ⟨k, start⟩ := blocks.aligned b member
  refine out b member ⟨by omega, ?_⟩
  -- the end of the block is at a page as well
  have below : addr - addr % s.pageSize < b.addr + b.npages * s.pageSize := lt_of_lt_of_le high (Nat.mod_le _ _)
  have page : addr - addr % s.pageSize = addr / s.pageSize * s.pageSize := Arena.pageOf_eq _ _
  rw [page, start, Nat.mul_comm s.pageSize, ← Nat.add_mul] at below
  have less := Nat.lt_of_mul_lt_mul_right below
  rw [start, Nat.mul_comm s.pageSize, ← Nat.add_mul]
  exact (Nat.div_lt_iff_lt_mul blocks.positive).mp less

end Pages

section Codec
variable {s : Records} {p : Position} {b : Ram}

theorem Records.positionToAddress_eq (at_b : s.pma.At p b) (low : p.index < 2 ^ 32) :
    s.positionToAddress p.block (s.recAddr p.block p.index) p.bit =
      some (b.addressAt s.pma.pageSize p.index p.bit) := by
  unfold Records.positionToAddress
  rw [at_b.block]
  exact Ram.seek_eq at_b.index low p.index _ 0 (Nat.zero_add _) low

/-- The conversions from the two forms of a position agree if the product has 32 bits, and only then. -/
theorem Records.agree_iff (blocks : s.pma.BlocksApart) (at_b : s.pma.At p b) (low : p.index < 2 ^ 32) :
    s.positionToAddress p.block (s.recAddr p.block p.index) p.bit = some (s.pma.positionToAddress p) ↔
      p.index * maxRecAmount * s.pma.pageSize < 2 ^ 32 := by
  have split : b.addr + p.page * s.pma.pageSize =
      b.addr + p.index * maxRecAmount * s.pma.pageSize + p.bit * s.pma.pageSize := by
    rw [Position.page, Nat.add_mul, Nat.mul_comm 24, ← Nat.add_assoc]
    rfl
  have fits : b.addr + p.page * s.pma.pageSize < 2 ^ 64 := by
    have inSpace := blocks.inSpace b (List.mem_of_getElem? at_b.block)
    have less := Nat.mul_lt_mul_of_pos_right (Arena.At.page_lt at_b) blocks.positive
    omega
  rw [Records.positionToAddress_eq at_b low, at_b.address, Option.some_inj, split]
  exact Ram.addressAt_eq_iff (split ▸ fits)

/-- A record in reach has an index of 32 bits. -/
theorem Records.InReach.offset (reach : s.InReach) (at_b : s.pma.At p b) :
    p.index * maxRecAmount * s.pma.pageSize < 2 ^ 32 := by
  have inside := at_b.index
  have records : b.recs ≠ [] := List.ne_nil_of_length_pos (Nat.zero_lt_of_lt inside)
  have last := (reach b (List.mem_of_getElem? at_b.block) records).2
  have less : p.index * maxRecAmount * s.pma.pageSize ≤ (b.recs.length - 1) * maxRecAmount * s.pma.pageSize :=
    Nat.mul_le_mul_right _ (Nat.mul_le_mul_right _ (by omega))
  exact Nat.lt_of_le_of_lt less last

theorem index_le_offset {pageSize : Nat} (positive : 0 < pageSize) (index : Nat) :
    index ≤ index * maxRecAmount * pageSize := by
  rw [Nat.mul_assoc]
  exact Nat.le_mul_of_pos_right _ (Nat.mul_pos (by decide) positive)

/-- Where every block is in reach, the conversions are right. -/
theorem Records.InReach.codecOk (reach : s.InReach) (blocks : s.pma.BlocksApart) : s.CodecOk := by
  have agree : ∀ (p : Position) (b : Ram), s.pma.At p b →
      s.positionToAddress p.block (s.recAddr p.block p.index) p.bit = some (s.pma.positionToAddress p) := by
    intro p b at_b
    have offset := reach.offset at_b
    have low := Nat.lt_of_le_of_lt (index_le_offset blocks.positive p.index) offset
    exact (Records.agree_iff blocks at_b low).mpr offset
  have back : ∀ (p : Position) (b : Ram), s.pma.At p b →
      s.addressToPosition (s.pma.positionToAddress p) = some (s.place p) := by
    intro p b at_b
    have records : b.recs ≠ [] := List.ne_nil_of_length_pos (Nat.zero_lt_of_lt at_b.index)
    have fits := (reach b (List.mem_of_getElem? at_b.block) records).1
    rw [Records.addressToPosition, at_b.address, blocks.addressToPosition at_b fits]
    rfl
  refine ⟨?_, ?_, ?_, agree⟩
  · intro i q b get inside
    obtain ⟨at_b, page⟩ := Pma.at_page get inside
    have address := at_b.address
    rw [page] at address
    refine ⟨s.place ⟨i, q / maxRecAmount, q % maxRecAmount⟩, ?_, rfl, address, ?_⟩
    · rw [← address]
      exact back _ b at_b
    · rw [← address]
      exact agree _ b at_b
  · intro p b at_b
    refine ⟨back p b at_b, ?_⟩
    rw [agree p b at_b]
    exact back p b at_b
  · intro addr out
    rw [Records.addressToPosition, blocks.outside out]
    rfl

/-- A block whose pages lead back to their positions ends below the top of the address space. -/
theorem Records.CodecOk.below (ok : s.CodecOk) (blocks : s.pma.BlocksApart) (at_b : s.pma.At p b) :
    b.addr + b.npages * s.pma.pageSize < 2 ^ 64 := by
  have inSpace := blocks.inSpace b (List.mem_of_getElem? at_b.block)
  have back := (ok.position p b at_b).1
  obtain ⟨p', found, same⟩ := Option.map_eq_some_iff.mp back
  obtain ⟨b', at_b', -, high, -⟩ := Pma.addressToPosition_at blocks.positive found
  have block : p'.block = p.block := congrArg Place.pBlock same
  have member := at_b'.block
  rw [block, at_b.block] at member
  cases member
  by_contra past
  have top : b.blockEnd s.pma.pageSize = 0 := by
    rw [Ram.blockEnd, show b.addr + b.npages * s.pma.pageSize = 2 ^ 64 by omega, Nat.mod_self]
  rw [top] at high
  exact Nat.not_lt_zero _ high

/-- If the two addresses of every page agree, no record begins 4 GiB behind its block: the two of the first that did would
differ, and its index has 32 bits. -/
theorem Records.CodecOk.offset (ok : s.CodecOk) (blocks : s.pma.BlocksApart) (at_b : s.pma.At p b) :
    p.index * maxRecAmount * s.pma.pageSize < 2 ^ 32 := by
  by_contra far
  rw [Nat.mul_assoc] at far
  have unit : 24 ≤ maxRecAmount * s.pma.pageSize := Nat.le_mul_of_pos_right _ blocks.positive
  have quotient : 2 ^ 32 / (maxRecAmount * s.pma.pageSize) ≤ 2 ^ 32 / 24 := Nat.div_le_div_left unit (by decide)
  have behind := Nat.lt_div_mul_add (a := 2 ^ 32) (Nat.lt_of_lt_of_le (by decide) unit)
  generalize offsets : maxRecAmount * s.pma.pageSize = size at far quotient behind
  obtain ⟨k, le, low, past⟩ : ∃ k ≤ p.index, k < 2 ^ 32 ∧ 2 ^ 32 ≤ k * size := by
    rcases Nat.lt_or_ge (2 ^ 32 / size) p.index with less | more
    · refine ⟨2 ^ 32 / size + 1, less, by omega, ?_⟩
      rw [Nat.add_mul, Nat.one_mul]
      exact Nat.le_of_lt behind
    · exact ⟨p.index, le_refl _, by omega, Nat.not_lt.mp far⟩
  have at_k : s.pma.At ⟨p.block, k, 0⟩ b := ⟨at_b.block, Nat.lt_of_le_of_lt le at_b.index, Nat.zero_lt_succ _⟩
  have less := (Records.agree_iff blocks at_k low).mp (ok.agree _ b at_k)
  rw [Nat.mul_assoc, offsets] at less
  exact absurd less (Nat.not_lt.mpr past)

/-- The conversions are right exactly if every block with records ends below the top of the address space, and its last
record begins less than 4 GiB behind it. -/
theorem codec_ok_iff (blocks : s.pma.BlocksApart) : s.CodecOk ↔ s.InReach := by
  refine ⟨fun ok b member records => ?_, fun reach => reach.codecOk blocks⟩
  obtain ⟨i, get⟩ := List.mem_iff_getElem?.mp member
  have last : s.pma.At ⟨i, b.recs.length - 1, 0⟩ b :=
    ⟨get, Nat.sub_lt (List.length_pos_of_ne_nil records) Nat.one_pos, Nat.zero_lt_succ _⟩
  have offset := ok.offset blocks last
  dsimp only at offset
  exact ⟨ok.below blocks last, offset⟩

/-- Two small blocks, with their records in the pages before them. -/
theorem codec_ok_twoBlocks :
    Records.CodecOk ⟨twoBlocks, fun i => if i = 0 then 0xff000 else 0xfff000⟩ := by
  refine (codec_ok_iff twoBlocks_blocks.blocksApart).mpr ?_
  unfold Records.InReach
  decide

end Codec

/-- A part of 5 GiB that begins at 4 GiB. -/
def highPart : RamPart := ⟨0x100000000, 0x140000000⟩

/-- What `init_ram_block` makes of it: `p_rec` is the aligned address. -/
def highRecords : Records := ⟨⟨4096, [highPart.block 4096]⟩, fun _ => highPart.aligned 4096⟩

theorem highRecords_length : (highPart.block 4096).recs.length = 54611 := List.length_replicate

theorem highRecords_made : Pma.init [highPart] 4096 = some highRecords.pma := by
  rfl

theorem highRecords_apart : highRecords.pma.BlocksApart := by
  have inSpace : ∀ part ∈ [highPart], part.addr + part.size ≤ 2 ^ 64 := by decide
  exact blocksApart_of_init (by decide) inSpace (List.pairwise_singleton _ _) highRecords_made

/-- A page of the block and its position. -/
theorem highRecords_page {index bit : Nat} (inside : index < 54611) (small : bit < 24) :
    highRecords.pma.At ⟨0, index, bit⟩ (highPart.block 4096) ∧
      highRecords.addressToPosition (0x100037000 + (24 * index + bit) * 4096) =
        some (highRecords.place ⟨0, index, bit⟩) := by
  have at_b : highRecords.pma.At ⟨0, index, bit⟩ (highPart.block 4096) :=
    ⟨rfl, highRecords_length ▸ inside, small⟩
  have addr : (highPart.block 4096).addr = 0x100037000 := by decide
  have fits : (highPart.block 4096).addr + (highPart.block 4096).npages * highRecords.pma.pageSize < 2 ^ 64 := by
    rw [Ram.npages, highRecords_length]
    decide
  have back := highRecords_apart.addressToPosition at_b fits
  rw [addr] at back
  exact ⟨at_b, congrArg (Option.map highRecords.place) back⟩

/-- The pages of the record 43691 begin 32 KiB over 4 GiB behind the block. Its index gives their address. The pointer to
it gives an address 32 KiB behind the block, and that is a page of the first record. -/
theorem pointer_address_short : Pma.init [highPart] 4096 = some highRecords.pma ∧ highRecords.pma.BlocksApart ∧
    highRecords.addressToPosition 0x20003F000 = some ⟨0, 0, 0x10002BAAC, 43691, 0⟩ ∧
    highRecords.pma.positionToAddress ⟨0, 43691, 0⟩ = 0x20003F000 ∧
    highRecords.positionToAddress 0 0x10002BAAC 0 = some 0x10003F000 ∧
    highRecords.addressToPosition 0x10003F000 = some ⟨0, 0, 0x100001000, 0, 8⟩ ∧ ¬ highRecords.CodecOk := by
  obtain ⟨at_far, far⟩ := highRecords_page (show 43691 < 54611 by decide) (show 0 < 24 by decide)
  obtain ⟨-, near⟩ := highRecords_page (show 0 < 54611 by decide) (show 8 < 24 by decide)
  have pointer : highRecords.recAddr 0 43691 = 0x10002BAAC := by decide
  have address : highRecords.pma.positionToAddress ⟨0, 43691, 0⟩ = 0x20003F000 := at_far.address.trans (by decide)
  have wraps : (highPart.block 4096).addressAt highRecords.pma.pageSize 43691 0 = 0x10003F000 := by decide
  have short := Records.positionToAddress_eq at_far (show 43691 < 2 ^ 32 by decide)
  dsimp only at short
  rw [pointer, wraps] at short
  refine ⟨highRecords_made, highRecords_apart, far, address, short, near, fun ok => ?_⟩
  have agree := ok.agree _ _ at_far
  dsimp only at agree
  rw [pointer, short, address, Option.some_inj] at agree
  omega

end PreTeO.Mem
