import PreTeO.Lib.Bits
import PreTeO.Mgfs3.Passes

/-!
# What allocation does to a bitmap file

`Took` says that some clear bits were set, each once, and nothing else changed; it composes, and every loop of
`mgfs_bitmap_alloc` is a composition of single bits. An allocation that comes back with fewer bits than it was asked for
leaves no bit clear.
-/

namespace PreTeO.Mgfs3
set_option autoImplicit false
open PreTeO.Lib

/-- The counter of a record is right. -/
def BitmapRec.Counted (r : BitmapRec) : Prop := r.used = ones r.bits

/-- Every counter is right. -/
def CountedFile (recs : List BitmapRec) : Prop := ∀ r ∈ recs, r.Counted

/-- The bit of a bitmap file. -/
def bitOf (recs : List BitmapRec) (n : Nat) : Bool :=
  match recs[n / maxBitmapBits]? with
  | none => false
  | some r => r.bits.getLsbD (n % maxBitmapBits)

theorem Volume.bit_eq (v : Volume) (ref : Ref) (n : Nat) : v.bit ref n = bitOf (v.bits ref.idx) n := rfl

/-- The bits `new` were clear and are set now. -/
structure Took (recs recs' : List BitmapRec) (new : List Nat) : Prop where
  length : recs'.length = recs.length
  nodup : new.Nodup
  clear : ∀ n ∈ new, n < maxBitmapBits * recs.length ∧ bitOf recs n = false
  bits : ∀ n, bitOf recs' n = (bitOf recs n || decide (n ∈ new))
  counted : CountedFile recs → CountedFile recs'

theorem Took.set {recs recs' : List BitmapRec} {new : List Nat} (took : Took recs recs' new) {n : Nat}
    (set : bitOf recs n = true) : bitOf recs' n = true := by
  rw [took.bits n, set, Bool.true_or]

theorem Took.refl (recs : List BitmapRec) : Took recs recs [] := by
  refine ⟨rfl, List.nodup_nil, ?_, ?_, fun counted => counted⟩
  · intro n member
    cases member
  · intro n
    simp

theorem Took.trans {a b c : List BitmapRec} {x y : List Nat} (first : Took a b x) (second : Took b c y) :
    Took a c (x ++ y) := by
  refine ⟨second.length.trans first.length, ?_, ?_, ?_, fun counted => second.counted (first.counted counted)⟩
  · rw [List.nodup_append]
    refine ⟨first.nodup, second.nodup, ?_⟩
    rintro n early m late rfl
    -- a bit of the second allocation was clear after the first
    have clear := (second.clear n late).2
    rw [first.bits n] at clear
    simp [early] at clear
  · intro n member
    rcases List.mem_append.mp member with early | late
    · exact first.clear n early
    · obtain ⟨bound, clear⟩ := second.clear n late
      rw [first.length] at bound
      rw [first.bits n, Bool.or_eq_false_iff] at clear
      exact ⟨bound, clear.1⟩
  · intro n
    rw [second.bits n, first.bits n, Bool.or_assoc]
    simp

/-! ## One bit -/

theorem put_bit (r : BitmapRec) {bit j : Nat} (state : Bool) (small : bit < maxBitmapBits) (bound : j < maxBitmapBits) :
    (r.put bit state).bits.getLsbD j = if j = bit then state else r.bits.getLsbD j := by
  have mask := getLsbD_mask (j := j) small
  unfold BitmapRec.put
  cases state with
  | true =>
    rw [if_pos rfl, BitVec.getLsbD_or, mask]
    by_cases here : j = bit <;> simp [here]
  | false =>
    rw [if_neg Bool.false_ne_true, BitVec.getLsbD_and, BitVec.getLsbD_not, mask]
    by_cases here : j = bit <;> simp [here, bound]

theorem put_counted {r : BitmapRec} {bit : Nat} {state : Bool} (small : bit < maxBitmapBits) (counted : r.Counted)
    (differ : r.bits.getLsbD bit = !state) : (r.put bit state).Counted := by
  have same : SameBut bit r.bits (r.put bit state).bits := by
    intro j bound other
    rw [put_bit r state small bound, if_neg other]
  have here : (r.put bit state).bits.getLsbD bit = state := by
    rw [put_bit r state small small, if_pos rfl]
  have most := ones_le r.bits
  have most' := ones_le (r.put bit state).bits
  have limit : maxBitmapBits = 248 := rfl
  unfold BitmapRec.Counted at counted ⊢
  cases state with
  | true =>
    have more := ones_set small same differ here
    have used : (r.put bit true).used = (r.used + 1) % 2 ^ 8 := rfl
    omega
  | false =>
    have fewer := ones_set small (fun j bound other => (same j bound other).symm) here differ
    have used : (r.put bit false).used = (r.used + (2 ^ 8 - 1)) % 2 ^ 8 := rfl
    omega

theorem allocBit_some {r r' : BitmapRec} {bit : Nat} (found : r.allocBit = some (bit, r')) :
    bit < maxBitmapBits ∧ r.bits.getLsbD bit = false ∧ r' = r.put bit true ∧
      ∀ j, j < bit → r.bits.getLsbD j = true := by
  unfold BitmapRec.allocBit at found
  split at found
  · split at found
    · cases found
    · next bit' search =>
      cases found
      refine ⟨List.mem_range.mp (List.mem_of_find?_eq_some search), by simpa using List.find?_some search, rfl, ?_⟩
      intro j below
      obtain ⟨_, i, bound, here, before⟩ := List.find?_eq_some_iff_getElem.mp search
      rw [List.getElem_range] at here
      subst here
      simpa using before j below
  · cases found

theorem allocBit_none {r : BitmapRec} (counted : r.Counted) (none : r.allocBit = none) : ones r.bits = maxBitmapBits := by
  have most := ones_le r.bits
  by_contra fewer
  have less : ones r.bits < maxBitmapBits := by omega
  obtain ⟨j, bound, clear⟩ := (ones_lt_iff r.bits).mp less
  unfold BitmapRec.allocBit at none
  rw [if_pos (by rw [show r.used = ones r.bits from counted]; exact less)] at none
  split at none
  · next search =>
    have := List.find?_eq_none.mp search j (List.mem_range.mpr bound)
    simp [clear] at this
  · cases none

theorem div_maxBitmapBits {k bit : Nat} (small : bit < maxBitmapBits) :
    (k * maxBitmapBits + bit) / maxBitmapBits = k ∧ (k * maxBitmapBits + bit) % maxBitmapBits = bit := by
  unfold maxBitmapBits at small ⊢
  omega

/-- One bit of a record of the file. -/
theorem Took.one {recs : List BitmapRec} {k bit : Nat} {r : BitmapRec} (get : recs[k]? = some r)
    (small : bit < maxBitmapBits) (clear : r.bits.getLsbD bit = false) :
    Took recs (recs.set k (r.put bit true)) [k * maxBitmapBits + bit] := by
  obtain ⟨bound, same⟩ := List.getElem?_eq_some_iff.mp get
  obtain ⟨index, place⟩ := div_maxBitmapBits (k := k) small
  refine ⟨List.length_set, List.nodup_singleton _, ?_, ?_, ?_⟩
  · intro n member
    rw [List.mem_singleton] at member
    subst member
    refine ⟨?_, ?_⟩
    · unfold maxBitmapBits at small ⊢
      omega
    · rw [bitOf, index, place, get]
      exact clear
  · intro n
    unfold bitOf
    rw [List.getElem?_set]
    by_cases here : k = n / maxBitmapBits
    · subst here
      rw [if_pos rfl, if_pos bound, get]
      have inside : n % maxBitmapBits < maxBitmapBits := Nat.mod_lt _ (by decide)
      dsimp only
      rw [put_bit r true small inside]
      have whole := Nat.div_add_mod n maxBitmapBits
      rw [Nat.mul_comm] at whole
      by_cases hit : n % maxBitmapBits = bit
      · have : n = n / maxBitmapBits * maxBitmapBits + bit := by omega
        rw [if_pos hit]
        simp [← this]
      · have : n ≠ n / maxBitmapBits * maxBitmapBits + bit := by omega
        simp [hit, this]
    · rw [if_neg here]
      have : n ≠ k * maxBitmapBits + bit := by
        rintro rfl
        exact here index.symm
      simp [this]
  · intro counted r' member
    rcases List.mem_or_eq_of_mem_set member with old | rfl
    · exact counted r' old
    · exact put_counted small (counted r (List.mem_of_getElem? get)) (by simpa using clear)

/-! ## The loops -/

/-- The bits taken lie in the file, and no bit from `low` to one of them is left clear. -/
def Lowest (sz low : Nat) (recs : List BitmapRec) (new : List Nat) : Prop :=
  ∀ n ∈ new, szBitmapRec * (n / maxBitmapBits) < sz ∧ ∀ m, low ≤ m → m < n → bitOf recs m = true

theorem Lowest.nil (sz low : Nat) (recs : List BitmapRec) : Lowest sz low recs [] := nofun

/-- A search goes on from `high`; what it finds is in the file, so the bits it passed over are too. -/
theorem Lowest.append {sz low high : Nat} {recs recs' : List BitmapRec} {x y : List Nat}
    (first : Lowest sz low recs x) (second : Lowest sz high recs' y)
    (stay : ∀ n, bitOf recs n = true → bitOf recs' n = true)
    (between : ∀ m, low ≤ m → m < high → y ≠ [] → szBitmapRec * (m / maxBitmapBits) < sz → bitOf recs' m = true) :
    Lowest sz low recs' (x ++ y) := by
  intro n member
  rcases List.mem_append.mp member with early | late
  · obtain ⟨inside, set⟩ := first n early
    exact ⟨inside, fun m above below => stay m (set m above below)⟩
  · obtain ⟨inside, set⟩ := second n late
    refine ⟨inside, fun m above below => ?_⟩
    rcases Nat.lt_or_ge m high with under | beyond
    · apply between m above under (List.ne_nil_of_mem late)
      exact Nat.lt_of_le_of_lt (Nat.mul_le_mul_left _ (Nat.div_le_div_right below.le)) inside
    · exact set m beyond below

/-- The record is full. -/
def FullAt (recs : List BitmapRec) (k : Nat) : Prop := ∀ r, recs[k]? = some r → ones r.bits = maxBitmapBits

theorem FullAt.bit {recs : List BitmapRec} {n : Nat} (full : FullAt recs (n / maxBitmapBits))
    (inside : n / maxBitmapBits < recs.length) : bitOf recs n = true := by
  have get := List.getElem?_eq_getElem inside
  have ones := full _ get
  rw [bitOf, get]
  dsimp only
  by_contra clear
  have fewer := (ones_lt_iff recs[n / maxBitmapBits].bits).mpr
    ⟨n % maxBitmapBits, Nat.mod_lt _ (by decide), by simpa using clear⟩
  omega

/-- One bit of a record, the lowest that was clear. -/
theorem Lowest.one {recs : List BitmapRec} {k bit sz : Nat} {r : BitmapRec} (get : recs[k]? = some r)
    (small : bit < maxBitmapBits) (lower : ∀ j, j < bit → r.bits.getLsbD j = true) (inside : szBitmapRec * k < sz) :
    Lowest sz (k * maxBitmapBits) recs [k * maxBitmapBits + bit] := by
  intro n member
  rw [List.mem_singleton] at member
  subst member
  refine ⟨by rwa [(div_maxBitmapBits small).1], ?_⟩
  intro m above below
  obtain ⟨j, rfl⟩ := Nat.exists_eq_add_of_le above
  have under : j < bit := by omega
  obtain ⟨index, place⟩ := div_maxBitmapBits (k := k) (Nat.lt_trans under small)
  rw [bitOf, index, place, get]
  exact lower j under

/-- Bits are taken in records that change. -/
theorem Took.past {recs recs' : List BitmapRec} {new : List Nat} {low : Nat} (took : Took recs recs' new)
    (same : ∀ j, j < low → recs'[j]? = recs[j]?) : ∀ n ∈ new, low * maxBitmapBits ≤ n := by
  intro n member
  by_contra before
  have index : n / maxBitmapBits < low := (Nat.div_lt_iff_lt_mul (by decide)).mpr (Nat.lt_of_not_le before)
  have set := took.bits n
  have equal : bitOf recs' n = bitOf recs n := by
    unfold bitOf
    rw [same _ index]
  rw [equal, (took.clear n member).2] at set
  simp [member] at set

/-- The lowest bits first, then others. -/
theorem Took.ascending {a b c : List BitmapRec} {x y : List Nat} {sz low : Nat} (first : Took a b x) (second : Took b c y)
    (lowest : Lowest sz low b x) (past : ∀ n ∈ y, low ≤ n) (up : x.Pairwise (· < ·)) (up' : y.Pairwise (· < ·)) :
    (x ++ y).Pairwise (· < ·) := by
  refine List.pairwise_append.mpr ⟨up, up', fun e early n late => ?_⟩
  have clear := (second.clear n late).2
  by_contra before
  rcases Nat.lt_or_eq_of_le (Nat.le_of_not_lt before) with less | rfl
  · rw [(lowest e early).2 n (past n late) less] at clear
    cases clear
  · rw [first.bits n] at clear
    simp [early] at clear

theorem allocBits_spec {recs : List BitmapRec} {k : Nat} (count fuel : Nat) {r : BitmapRec} (out : List Nat)
    (get : recs[k]? = some r) (short : maxBitmapBits * recs.length ≤ 2 ^ 32) :
    ∃ r' new, allocBits (k * maxBitmapBits) count fuel r out = (r', out ++ new) ∧ Took recs (recs.set k r') new ∧
      (out.length ≤ count → (out ++ new).length ≤ count) ∧
      (r.Counted → maxBitmapBits ≤ ones r.bits + fuel → (out ++ new).length < count → ones r'.bits = maxBitmapBits) ∧
      (∀ sz, szBitmapRec * k < sz → Lowest sz (k * maxBitmapBits) (recs.set k r') new) ∧ (new = [] → r' = r) ∧
      new.Pairwise (· < ·) := by
  obtain ⟨bound, same⟩ := List.getElem?_eq_some_iff.mp get
  have unchanged : recs.set k r = recs := by
    rw [← same, List.set_getElem_self]
  have stays : Took recs (recs.set k r) [] := by
    rw [unchanged]
    exact Took.refl recs
  have none : ∀ sz, szBitmapRec * k < sz → Lowest sz (k * maxBitmapBits) (recs.set k r) [] :=
    fun _ _ => Lowest.nil _ _ _
  induction fuel generalizing recs r out with
  | zero =>
    refine ⟨r, [], by simp [allocBits], stays, by simp, ?_, none, fun _ => rfl, List.Pairwise.nil⟩
    intro _ enough _
    have := ones_le r.bits
    omega
  | succ fuel ih =>
    unfold allocBits
    by_cases more : out.length < count
    · rw [if_pos more]
      cases search : r.allocBit with
      | none =>
        exact ⟨r, [], by simp, stays, by simp, fun counted _ _ => allocBit_none counted search, none, fun _ => rfl,
          List.Pairwise.nil⟩
      | some found =>
        obtain ⟨bit, r₁⟩ := found
        obtain ⟨small, clear, rfl, lower⟩ := allocBit_some search
        have took := Took.one get small clear
        have number : (k * maxBitmapBits + bit) % 2 ^ 32 = k * maxBitmapBits + bit := by
          have limit : maxBitmapBits = 248 := rfl
          rw [limit] at small short ⊢
          apply Nat.mod_eq_of_lt
          omega
        dsimp only
        rw [number]
        have get₁ : (recs.set k (r.put bit true))[k]? = some (r.put bit true) := by simp [bound]
        obtain ⟨r', new, run, took', least, full, low, -, up⟩ := ih (out ++ [k * maxBitmapBits + bit]) get₁
          (by rwa [List.length_set]) (by simpa using bound) (by simp) (by simp) (by simpa using Took.refl _)
          (fun _ _ => Lowest.nil _ _ _)
        rw [List.set_set] at took' low
        refine ⟨r', (k * maxBitmapBits + bit) :: new, ?_, took.trans took', ?_, ?_, ?_, by simp, ?_⟩
        · rw [run, List.append_assoc]
          rfl
        · intro _
          have := least (by rw [List.length_append, List.length_singleton]; omega)
          simpa using this
        · intro counted enough fewer
          have counted₁ : (r.put bit true).Counted := put_counted small counted (by simpa using clear)
          have same₁ : SameBut bit r.bits (r.put bit true).bits := by
            intro j bound other
            rw [put_bit r true small bound, if_neg other]
          have grew := ones_set small same₁ clear (by rw [put_bit r true small small, if_pos rfl])
          exact full counted₁ (by omega) (by simpa using fewer)
        · intro sz inside
          have whole := took.trans took'
          apply Lowest.append (Lowest.one get small lower inside) (low sz inside) (fun _ => whole.set)
          intro m above under
          omega
        · have first : Lowest (szBitmapRec * k + 1) (k * maxBitmapBits) (recs.set k (r.put bit true))
              [k * maxBitmapBits + bit] := by
            have lowest := Lowest.one get small lower (Nat.lt_succ_self (szBitmapRec * k))
            intro n member
            exact ⟨(lowest n member).1, fun m above below => took.set ((lowest n member).2 m above below)⟩
          refine took.ascending took' first (took'.past fun j below => ?_) (List.pairwise_singleton _ _) up
          rw [List.getElem?_set_ne (by omega), List.getElem?_set_ne (by omega)]
    · rw [if_neg more]
      exact ⟨r, [], by simp, stays, by simp, fun _ _ fewer => absurd (by simpa using fewer) more, none, fun _ => rfl,
        List.Pairwise.nil⟩

/-- The loop over the records of a block. With bits left to give, every record it came to is full. -/
theorem allocRecords_spec (count sz n k offset : Nat) {recs : List BitmapRec} (out : List Nat)
    (short : maxBitmapBits * recs.length ≤ 2 ^ 32) (inside : k + n ≤ recs.length) :
    ∃ recs' new offset', allocRecords count sz n k offset recs out = (recs', out ++ new, offset') ∧ Took recs recs' new ∧
      (out.length ≤ count → (out ++ new).length ≤ count) ∧
      ((out ++ new).length < count →
        offset' = offset + szBitmapRec * n ∨ sz ≤ offset' ∧ offset' ≤ offset + szBitmapRec * n) ∧
      (CountedFile recs → (out ++ new).length < count →
        ∀ j, j < n → offset + szBitmapRec * j < sz → FullAt recs' (k + j)) ∧
      (CountedFile recs → offset = szBitmapRec * k → Lowest sz (k * maxBitmapBits) recs' new) ∧
      (∀ j, j < k → recs'[j]? = recs[j]?) ∧ (new = [] → recs' = recs) ∧ new.Pairwise (· < ·) := by
  induction n generalizing k offset recs out with
  | zero =>
    refine ⟨recs, [], offset, by simp [allocRecords], Took.refl recs, by simp, by simp, ?_,
      fun _ _ => Lowest.nil _ _ _, by simp, fun _ => rfl, List.Pairwise.nil⟩
    intro _ _ j none
    exact absurd none (Nat.not_lt_zero j)
  | succ n ih =>
    unfold allocRecords
    by_cases more : out.length < count ∧ offset < sz
    · rw [if_pos more]
      have bound : k < recs.length := by omega
      have get := List.getElem?_eq_getElem bound
      obtain ⟨r', new₁, run₁, took₁, least₁, full₁, low₁, same₁, up₁⟩ := allocBits_spec count maxBitmapBits out get short
      have length : (recs.set k r').length = recs.length := List.length_set
      obtain ⟨recs', new₂, offset', run₂, took₂, least₂, ends₂, full₂, low₂, below₂, same₂, up₂⟩ :=
        ih (k + 1) (offset + szBitmapRec) (out ++ new₁) (by rw [length]; exact short) (by rw [length]; omega)
      -- the record of this round is not touched any more
      have here : CountedFile recs → (out ++ new₁).length < count → FullAt recs' k := by
        intro counted fewer r there
        rw [below₂ k (by omega), List.getElem?_set_self (by omega)] at there
        cases there
        exact full₁ (counted _ (List.mem_of_getElem? get)) (by omega) fewer
      refine ⟨recs', new₁ ++ new₂, offset', ?_, took₁.trans took₂, ?_, ?_, ?_, ?_, ?_, ?_, ?_⟩
      · rw [get]
        dsimp only
        rw [run₁]
        dsimp only
        rw [run₂, List.append_assoc]
      · intro least
        rw [← List.append_assoc]
        exact least₂ (least₁ least)
      · intro fewer
        rw [← List.append_assoc] at fewer
        rw [Nat.mul_add]
        rcases ends₂ fewer with ended | ended
        · exact Or.inl (by omega)
        · exact Or.inr ⟨ended.1, by omega⟩
      · intro counted fewer j below room
        rw [← List.append_assoc] at fewer
        cases j with
        | zero =>
          apply here counted
          rw [List.length_append] at fewer
          omega
        | succ j =>
          have := full₂ (took₁.counted counted) fewer j (by omega) (by rw [Nat.mul_add] at room; omega)
          rwa [show k + (j + 1) = k + 1 + j by omega]
      · intro counted start
        have next : offset + szBitmapRec = szBitmapRec * (k + 1) := by rw [start, Nat.mul_add, Nat.mul_one]
        apply Lowest.append (low₁ sz (by omega)) (low₂ (took₁.counted counted) next) (fun _ => took₂.set)
        intro m above under some _
        have index : m / maxBitmapBits = k := by
          rw [Nat.div_eq_iff (by decide)]
          rw [Nat.succ_mul] at under
          unfold maxBitmapBits at above under ⊢
          omega
        have fewer : (out ++ new₁).length < count := by
          have := least₂ (least₁ (by omega))
          rw [List.length_append] at this
          have := List.length_pos_iff.mpr some
          omega
        apply FullAt.bit
        · rw [index]
          exact here counted fewer
        · rw [index, took₂.length, length]
          exact bound
      · intro j below
        rw [below₂ j (by omega), List.getElem?_set_ne (by omega)]
      · intro none
        obtain ⟨none₁, none₂⟩ := List.append_eq_nil_iff.mp none
        rw [same₂ none₂, same₁ none₁, List.set_getElem_self]
      · refine took₁.ascending took₂ (low₁ _ (Nat.lt_succ_self _)) (fun n member => ?_) up₁ up₂
        have := took₂.past below₂ n member
        rw [Nat.succ_mul] at this
        omega
    · rw [if_neg more]
      refine ⟨recs, [], offset, by simp, Took.refl recs, by simp, ?_, ?_, fun _ _ => Lowest.nil _ _ _, by simp,
        fun _ => rfl, List.Pairwise.nil⟩
      · intro fewer
        rw [List.append_nil] at fewer
        exact Or.inr ⟨by omega, by omega⟩
      · intro _ fewer j _ room
        rw [List.append_nil] at fewer
        omega

/-! ## The file -/

/-- A bitmap file whose blocks can all be read and whose counters are right. -/
structure Volume.BitmapOk (v : Volume) (ref : Ref) : Prop where
  length : (v.bits ref.idx).length = (v.inodes ref).dunits * (v.unitSize / szBitmapRec)
  short : maxBitmapBits * (v.bits ref.idx).length ≤ 2 ^ 32
  size : (v.inodes ref).sz ≤ szBitmapRec * (v.bits ref.idx).length
  counted : CountedFile (v.bits ref.idx)
  readable : ∀ block, block < (v.inodes ref).dunits → (v.blockUnit ref block).isSome

/-- The counter of used bits after `n` more. -/
def Counted (nused n nused' : Nat) : Prop := nused + n < 2 ^ 32 → nused' = nused + n

/-- The bits `new` of a bitmap file were taken. -/
structure TookBits (v w : Volume) (ref : Ref) (new : List Nat) : Prop extends Calm v w where
  bits : ∃ recs, w.bits = Function.update v.bits ref.idx recs ∧ Took (v.bits ref.idx) recs new
  nused : ∃ n, w.inodes = Function.update v.inodes ref { v.inodes ref with nused := n } ∧
    Counted (v.inodes ref).nused new.length n

/-- Records in a block. -/
def Volume.nbrec (v : Volume) : Nat := v.unitSize / szBitmapRec

/-- What a search for `count` bits that stood at `offset` found in a block. If that was not enough, the records of the
block are full. -/
structure BlockGave (v w : Volume) (ref : Ref) (count block offset : Nat) (out new : List Nat) (offset' : Nat) :
    Prop where
  took : TookBits v w ref new
  least : out.length ≤ count → (out ++ new).length ≤ count
  ends : (out ++ new).length < count → offset' = offset + szBitmapRec * v.nbrec ∨
    (v.inodes ref).sz ≤ offset' ∧ offset' ≤ offset + szBitmapRec * v.nbrec
  full : (out ++ new).length < count → ∀ j, j < v.nbrec → offset + szBitmapRec * j < (v.inodes ref).sz →
    FullAt (w.bits ref.idx) (block * v.nbrec + j)
  lowest : offset = szBitmapRec * (block * v.nbrec) →
    Lowest (v.inodes ref).sz (block * v.nbrec * maxBitmapBits) (w.bits ref.idx) new
  below : ∀ j, j < block * v.nbrec → (w.bits ref.idx)[j]? = (v.bits ref.idx)[j]?

theorem allocBlock_run {v : Volume} {h : InodeHandle} {lock : Nat} (ready : Ready lock v) (ok : v.BitmapOk h.ref)
    (count : Nat) {block : Nat} (hb offset : Nat) (out : List Nat) (inside : block < (v.inodes h.ref).dunits) :
    ∃ w new offset', (allocBlock h count block hb offset out lock).run (v.holding [hb]) = .ok ((out ++ new, offset'), w) ∧
      BlockGave v w h.ref count block offset out new offset' ∧ new.Pairwise (· < ·) := by
  have room : block * v.nbrec + v.nbrec ≤ (v.bits h.ref.idx).length := by
    rw [ok.length, ← Nat.succ_mul]
    exact Nat.mul_le_mul_right _ inside
  obtain ⟨recs, new, offset', alloc, took, least, ends, full, low, below, same, up⟩ :=
    allocRecords_spec count (v.inodes h.ref).sz v.nbrec (block * v.nbrec) offset out ok.short room
  have held : ∀ {u : Volume}, Ready lock u → ∃ w, (mgfsBufferFree hb lock).run (u.holding [hb]) = .ok ((), w) ∧ Frozen u w := by
    intro u ready
    obtain ⟨_, w, run, frozen⟩ := free_passes frozen_frames hb u ready
    exact ⟨w, run, by simpa using frozen⟩
  unfold allocBlock
  rw [Prog.bind_ok (Prog.run_get _)]
  dsimp only [Volume.holding]
  rw [show v.unitSize / szBitmapRec = v.nbrec from rfl, alloc]
  dsimp only
  by_cases none : new = []
  · subst none
    rw [List.append_nil, if_neg (by simp)]
    obtain ⟨w, free, frozen⟩ := held ready
    have full' := full ok.counted
    rw [same rfl] at full'
    refine ⟨w, [], offset', ?_, ⟨⟨frozen.calm, ⟨v.bits h.ref.idx, ?_, Took.refl _⟩, (v.inodes h.ref).nused, ?_, ?_⟩,
      least, ends, ?_, fun _ => Lowest.nil _ _ _, ?_⟩, List.Pairwise.nil⟩
    · refine (Prog.bind_ok free).trans ?_
      rw [List.append_nil]
      rfl
    · rw [frozen.bits, Function.update_eq_self]
    · rw [frozen.inodes]
      simp
    · intro _
      rfl
    · rw [frozen.bits]
      exact full'
    · rw [frozen.bits]
      exact fun _ _ => rfl
  · rw [if_pos (by simpa using none)]
    -- the state with the bits set
    let u : Volume := { v with
      bits := Function.update v.bits h.ref.idx recs
      inodes := Function.update v.inodes h.ref
        { v.inodes h.ref with
          nused := ((v.inodes h.ref).nused + ((out ++ new).length - out.length)) % 2 ^ 32 } }
    obtain ⟨_, w₁, write, frozen₁⟩ := (write_passes frozen_frames hb).beside [hb] u ready
    obtain ⟨u₁, rfl, frozen⟩ := Passes.unhold frozen_frames frozen₁
    obtain ⟨w, free, frozen'⟩ := held ((frozen.toHold).ready ready)
    have whole := frozen_frames.trans _ _ _ frozen frozen'
    refine ⟨w, new, offset', ?_, ⟨⟨?_, ⟨recs, ?_, took⟩, (u.inodes h.ref).nused, ?_, ?_⟩, least, ends, ?_, ?_, ?_⟩, up⟩
    · change (do
        mgfsBufferWrite hb lock
        mgfsBufferFree hb lock
        pure (out ++ new, offset') : M (List Nat × Nat)).run (u.holding [hb]) = _
      exact (Prog.bind_ok write).trans ((Prog.bind_ok free).trans rfl)
    · exact calm_frames.trans _ _ _ ((calm_tallies h.ref).count v _ _) whole.calm
    · rw [whole.bits]
    · rw [whole.inodes]
      simp [u]
    · intro bound
      simp only [u, Function.update_self, List.length_append, Nat.add_sub_cancel_left]
      exact Nat.mod_eq_of_lt bound
    · rw [whole.bits]
      simpa [u] using full ok.counted
    · rw [whole.bits]
      simpa [u] using low ok.counted
    · rw [whole.bits]
      simpa [u] using below

theorem TookBits.ok {v w : Volume} {ref : Ref} {new : List Nat} (took : TookBits v w ref new) (ok : v.BitmapOk ref) :
    w.BitmapOk ref := by
  obtain ⟨recs, bits, took'⟩ := took.bits
  obtain ⟨n, inodes, -⟩ := took.nused
  have here : w.bits ref.idx = recs := by simp [bits]
  have record : w.inodes ref = { v.inodes ref with nused := n } := by simp [inodes]
  have same : ∀ block, w.blockUnit ref block = v.blockUnit ref block := by
    intro block
    have dev : w.dev = v.dev := by
      funext unit
      simp [Volume.dev, took.reads, took.mem]
    unfold Volume.blockUnit
    rw [dev, took.unitSize, took.reads, record]
    rfl
  refine ⟨?_, ?_, ?_, ?_, ?_⟩
  · rw [here, took'.length, ok.length, record, took.unitSize]
  · rw [here, took'.length]
    exact ok.short
  · rw [here, took'.length, record]
    exact ok.size
  · rw [here]
    exact took'.counted ok.counted
  · intro block inside
    rw [same]
    rw [record] at inside
    exact ok.readable block inside

theorem TookBits.refl (v : Volume) (ref : Ref) : TookBits v v ref [] := by
  refine ⟨calm_frames.refl v, ⟨v.bits ref.idx, ?_, Took.refl _⟩, (v.inodes ref).nused, ?_, fun _ => rfl⟩
  · rw [Function.update_eq_self]
  · simp

theorem TookBits.trans {u v w : Volume} {ref : Ref} {x y : List Nat} (first : TookBits u v ref x)
    (second : TookBits v w ref y) : TookBits u w ref (x ++ y) := by
  obtain ⟨recs, bits, took⟩ := first.bits
  obtain ⟨n, inodes, counted⟩ := first.nused
  obtain ⟨recs', bits', took'⟩ := second.bits
  obtain ⟨n', inodes', counted'⟩ := second.nused
  have here : v.bits ref.idx = recs := by simp [bits]
  have record : v.inodes ref = { u.inodes ref with nused := n } := by simp [inodes]
  rw [here] at took'
  refine ⟨calm_frames.trans _ _ _ first.toCalm second.toCalm, ⟨recs', ?_, took.trans took'⟩, n', ?_, ?_⟩
  · rw [bits', bits, Function.update_idem]
  · rw [inodes', inodes, Function.update_idem, Function.update_self]
  · intro bound
    rw [List.length_append] at bound ⊢
    have step := counted (by omega)
    rw [record] at counted'
    have := counted' (by dsimp only; omega)
    dsimp only at this
    omega

theorem TookBits.bit {v w : Volume} {ref : Ref} {new : List Nat} (took : TookBits v w ref new) (n : Nat) :
    w.bit ref n = (v.bit ref n || decide (n ∈ new)) := by
  obtain ⟨recs, bits, took'⟩ := took.bits
  rw [Volume.bit_eq, Volume.bit_eq, bits, Function.update_self]
  exact took'.bits n

theorem TookBits.frozen {u v w : Volume} {ref : Ref} {new : List Nat} (frozen : Frozen u v)
    (took : TookBits v w ref new) : TookBits u w ref new := by
  refine ⟨calm_frames.trans _ _ _ frozen.calm took.toCalm, ?_, ?_⟩
  · rw [← frozen.bits]
    exact took.bits
  · rw [← frozen.inodes]
    exact took.nused

theorem TookBits.lock {v w : Volume} {ref : Ref} {new : List Nat} {held : Option Lock} {t : Nat}
    (took : TookBits { v with held := held, tickets := t } w ref new) : TookBits v { w with held := v.held } ref new :=
  ⟨calm_frames.lock { v with held := held, tickets := t } w v.held v.tickets w.tickets took.toCalm, took.bits, took.nused⟩

theorem Volume.BitmapOk.lock {v : Volume} {ref : Ref} (ok : v.BitmapOk ref) (held : Option Lock) (t : Nat) :
    Volume.BitmapOk { v with held := held, tickets := t } ref :=
  ⟨ok.length, ok.short, ok.size, ok.counted, ok.readable⟩

theorem Frozen.ok {v w : Volume} {ref : Ref} (frozen : Frozen v w) (ok : v.BitmapOk ref) : w.BitmapOk ref :=
  (TookBits.frozen frozen (TookBits.refl w ref)).ok ok

theorem allocBlock_locked {u : Volume} {h : InodeHandle} {hlock : Nat} (ready : Ready hlock u) (ok : u.BitmapOk h.ref)
    (count : Nat) {block : Nat} (hb offset : Nat) (out : List Nat) (inside : block < (u.inodes h.ref).dunits) :
    ∃ a w, (locked hlock (allocBlock h count block hb offset out)).run (u.holding [hb]) = .ok (a, w) ∧
      ∃ new, a.1 = out ++ new ∧ BlockGave u w h.ref count block offset out new a.2 ∧ new.Pairwise (· < ·) := by
  refine locked_run (v := u.holding [hb]) ready ?_
  intro g depth t
  obtain ⟨w, new, offset', run, gave, up⟩ := allocBlock_run
    (v := { u with held := some ⟨g, depth + 1⟩, tickets := t }) (Or.inr ⟨depth, rfl⟩) (ok.lock _ _) count hb offset out inside
  exact ⟨(out ++ new, offset'), w, run, gave.took.held, new, rfl, ⟨gave.took.lock, gave.least, gave.ends, gave.full,
    gave.lowest, gave.below⟩, up⟩

/-- What the search found from a block on. -/
structure FileGave (v w : Volume) (ref : Ref) (count n block offset : Nat) (out new : List Nat) : Prop where
  took : TookBits v w ref new
  least : out.length ≤ count → (out ++ new).length ≤ count
  full : (out ++ new).length < count → offset < (v.inodes ref).sz → ∀ k, block * v.nbrec ≤ k → k < (block + n) * v.nbrec →
    szBitmapRec * k < (v.inodes ref).sz → FullAt (w.bits ref.idx) k
  lowest : Lowest (v.inodes ref).sz (block * v.nbrec * maxBitmapBits) (w.bits ref.idx) new
  below : ∀ j, j < block * v.nbrec → (w.bits ref.idx)[j]? = (v.bits ref.idx)[j]?

/-- The loop over the blocks. -/
theorem allocBlocks_run {v : Volume} {h : InodeHandle} {hlock : Nat} (ready : Ready hlock v) (ok : v.BitmapOk h.ref)
    (count n block offset : Nat) (out : List Nat) (inside : block + n ≤ (v.inodes h.ref).dunits)
    (reached : out.length < count → offset = szBitmapRec * (block * v.nbrec) ∨ (v.inodes h.ref).sz ≤ offset) :
    ∃ w new, (allocBlocks h count hlock n block offset out).run v = .ok (out ++ new, w) ∧
      FileGave v w h.ref count n block offset out new ∧ new.Pairwise (· < ·) := by
  induction n generalizing v block offset out with
  | zero =>
    refine ⟨v, [], by simp [allocBlocks], ⟨TookBits.refl v h.ref, by simp, ?_, Lowest.nil _ _ _, fun _ _ => rfl⟩,
      List.Pairwise.nil⟩
    intro _ _ k low high
    rw [Nat.add_zero] at high
    omega
  | succ n ih =>
    have bound : block < (v.inodes h.ref).dunits := by omega
    unfold allocBlocks
    rw [Prog.bind_ok (Prog.run_get v)]
    by_cases more : out.length < count ∧ offset < (v.inodes h.ref).sz
    · rw [if_pos more]
      have at_block : offset = szBitmapRec * (block * v.nbrec) := (reached more.1).resolve_right (by omega)
      obtain ⟨w₁, read, frozen₁⟩ := readBlock_run ready h.ref block
      obtain ⟨hb, is_some⟩ := Option.isSome_iff_exists.mp (ok.readable block bound)
      rw [is_some] at read frozen₁
      rw [Option.toList_some] at frozen₁
      obtain ⟨u, rfl, frozen⟩ := Passes.unhold frozen_frames frozen₁
      have same_inode : u.inodes h.ref = v.inodes h.ref := by rw [frozen.inodes]
      have same_size : u.nbrec = v.nbrec := by rw [Volume.nbrec, Volume.nbrec, frozen.unitSize]
      obtain ⟨⟨out₁, offset₁⟩, w₂, locks, new₁, value, gave, up₁⟩ := allocBlock_locked (frozen.toHold.ready ready)
        (frozen.ok ok) count hb offset out (by rw [same_inode]; exact bound)
      dsimp only at value gave
      subst value
      have took₁ : TookBits v w₂ h.ref new₁ := TookBits.frozen frozen gave.took
      have size₂ : w₂.nbrec = v.nbrec := by rw [Volume.nbrec, Volume.nbrec, took₁.unitSize]
      obtain ⟨n₂, same₂⟩ := took₁.inodes h.ref
      have sz₂ : (w₂.inodes h.ref).sz = (v.inodes h.ref).sz := by rw [same₂]
      have next : (block + 1) * v.nbrec = block * v.nbrec + v.nbrec := Nat.succ_mul _ _
      obtain ⟨w, new₂, rest, gave₂, up₂⟩ := ih (took₁.toHold.ready ready) (took₁.ok ok) (block + 1) offset₁ (out ++ new₁)
        (by rw [same₂]; dsimp only; omega) (by
          intro fewer
          rw [size₂, sz₂, next, Nat.mul_add, ← at_block, ← same_size, ← same_inode]
          exact (gave.ends fewer).imp id And.left)
      -- the records of this block are not touched any more, and full if they did not give enough
      have here : (out ++ new₁).length < count → ∀ k, block * v.nbrec ≤ k → k < (block + 1) * v.nbrec →
          szBitmapRec * k < (v.inodes h.ref).sz → FullAt (w.bits h.ref.idx) k := by
        intro fewer k low high room r there
        rw [gave₂.below k (by rw [size₂]; exact high)] at there
        have full := gave.full fewer (k - block * v.nbrec) (by rw [same_size]; omega)
          (by rw [same_inode, at_block, ← Nat.mul_add, Nat.add_sub_cancel' low]; exact room)
        rw [same_size, Nat.add_sub_cancel' low] at full
        exact full r there
      obtain ⟨recs₂, bits₂, took₂⟩ := gave₂.took.bits
      have after : w.bits h.ref.idx = recs₂ := by rw [bits₂, Function.update_self]
      refine ⟨w, new₁ ++ new₂, ?_, ⟨took₁.trans gave₂.took, ?_, ?_, ?_, ?_⟩, ?_⟩
      · rw [Prog.bind_ok read]
        dsimp only
        rw [Prog.bind_ok locks]
        dsimp only
        rw [rest, List.append_assoc]
      · intro least
        rw [← List.append_assoc]
        exact gave₂.least (gave.least least)
      · intro fewer _ k low high room
        rw [← List.append_assoc] at fewer
        have fewer₁ : (out ++ new₁).length < count := by
          rw [List.length_append] at fewer
          omega
        by_cases within : k < (block + 1) * v.nbrec
        · exact here fewer₁ k low within room
        · have start : offset₁ < (w₂.inodes h.ref).sz := by
            have ends := gave.ends fewer₁
            rw [same_size, same_inode, at_block, ← Nat.mul_add, ← next] at ends
            have := Nat.mul_le_mul_left szBitmapRec (Nat.le_of_not_lt within)
            rw [sz₂]
            omega
          have full := gave₂.full fewer start k
          rw [size₂, sz₂] at full
          apply full (by omega) _ room
          rwa [show block + 1 + n = block + (n + 1) by omega]
      · have low₁ := gave.lowest (by rw [at_block, same_size])
        have low₂ := gave₂.lowest
        rw [same_inode, same_size] at low₁
        rw [sz₂, size₂] at low₂
        refine low₁.append low₂ (fun _ => ?_) ?_
        · rw [after]
          exact took₂.set
        · intro m above under some inside
          have fewer₁ : (out ++ new₁).length < count := by
            have := gave₂.least (gave.least (by omega))
            rw [List.length_append] at this
            have := List.length_pos_iff.mpr some
            omega
          have low : block * v.nbrec ≤ m / maxBitmapBits := (Nat.le_div_iff_mul_le (by decide)).mpr above
          have high : m / maxBitmapBits < (block + 1) * v.nbrec := (Nat.div_lt_iff_lt_mul (by decide)).mpr under
          apply FullAt.bit (here fewer₁ _ low high inside)
          obtain ⟨recs, bits, took⟩ := (took₁.trans gave₂.took).bits
          rw [bits, Function.update_self, took.length, ok.length]
          exact Nat.lt_of_lt_of_le high (Nat.mul_le_mul_right _ bound)
      · intro j below
        rw [gave₂.below j (by rw [size₂]; omega), gave.below j (by rw [same_size]; exact below), frozen.bits]
      · obtain ⟨recs₁, bits₁, tookBits⟩ := took₁.bits
        have between : w₂.bits h.ref.idx = recs₁ := by rw [bits₁, Function.update_self]
        have low := gave.lowest (by rw [at_block, same_size])
        have below := gave₂.below
        rw [between] at took₂ low below
        rw [after, size₂] at below
        refine tookBits.ascending took₂ low (fun n member => ?_) up₁ up₂
        have := took₂.past below n member
        rw [same_size]
        exact (Nat.mul_le_mul_right _ (by omega)).trans this
    · rw [if_neg more]
      refine ⟨v, [], by simp, ⟨TookBits.refl v h.ref, by simp, ?_, Lowest.nil _ _ _, fun _ _ => rfl⟩, List.Pairwise.nil⟩
      intro fewer room
      rw [List.append_nil] at fewer
      exact absurd ⟨fewer, room⟩ more

/-- The bit belongs to a record the file has in use. -/
def Volume.InFile (v : Volume) (ref : Ref) (n : Nat) : Prop := szBitmapRec * (n / maxBitmapBits) < (v.inodes ref).sz

/-- What `mgfs_bitmap_alloc` gave: clear bits of the file, the lowest ones, and if they are fewer than asked for then none
is clear any more. -/
structure Gave (v w : Volume) (ref : Ref) (count : Nat) (new : List Nat) : Prop extends TookBits v w ref new where
  least : new.length ≤ count
  inside : ∀ n ∈ new, v.InFile ref n
  lowest : ∀ n ∈ new, ∀ m, m < n → w.bit ref m = true
  full : new.length < count → ∀ n, v.InFile ref n → w.bit ref n = true

/-- The bits come in ascending order. -/
theorem mgfsBitmapAlloc_ascending {v : Volume} {h : InodeHandle} {hlock : Nat} (ready : Ready hlock v)
    (ok : v.BitmapOk h.ref) (count : Nat) :
    ∃ w new, (mgfsBitmapAlloc count h hlock).run v = .ok (new, w) ∧ Gave v w h.ref count new ∧ new.Pairwise (· < ·) := by
  obtain ⟨w₁, new, blocks, gave, up⟩ := allocBlocks_run ready ok count (v.inodes h.ref).dunits 0 0 [] (by omega)
    (fun _ => Or.inl (by simp))
  rw [List.nil_append] at blocks
  have full : ∀ {w : Volume}, w.bits = w₁.bits → new.length < count → ∀ n, v.InFile h.ref n → w.bit h.ref n = true := by
    intro w same fewer n inside
    have room := ok.size
    have index : n / maxBitmapBits < (v.bits h.ref.idx).length := by
      unfold Volume.InFile at inside
      exact Nat.lt_of_mul_lt_mul_left (Nat.lt_of_lt_of_le inside room)
    have start : 0 < (v.inodes h.ref).sz := Nat.lt_of_le_of_lt (Nat.zero_le _) inside
    have at_n := gave.full (by simpa using fewer) start (n / maxBitmapBits) (by simp)
      (by rw [Nat.zero_add]; rw [ok.length] at index; exact index) inside
    obtain ⟨recs, bits, took⟩ := gave.took.bits
    rw [Volume.bit_eq, same]
    apply FullAt.bit at_n
    rw [bits, Function.update_self, took.length]
    exact index
  have least := gave.least (Nat.zero_le _)
  rw [List.nil_append] at least
  unfold mgfsBitmapAlloc
  rw [Prog.bind_ok (Prog.run_get v), Prog.bind_ok blocks]
  by_cases none : new = []
  · subst none
    exact ⟨w₁, [], rfl, ⟨gave.took, least, nofun, nofun, full rfl⟩, up⟩
  · obtain ⟨_, w, update, frozen⟩ := update_passes frozen_frames h w₁ (gave.took.toHold.ready ready)
    rw [holding_nil] at update frozen
    have low : ∀ n ∈ new, v.InFile h.ref n ∧ ∀ m, m < n → w.bit h.ref m = true := by
      intro n member
      obtain ⟨inside, set⟩ := gave.lowest n member
      refine ⟨inside, fun m below => ?_⟩
      rw [Volume.bit_eq, frozen.bits]
      exact set m (by simp) below
    refine ⟨w, new, ?_, ⟨?_, least, fun n member => (low n member).1, fun n member => (low n member).2,
      full frozen.bits⟩, up⟩
    · rw [if_pos none, Prog.bind_ok update]
      rfl
    · have took := gave.took.trans (TookBits.frozen frozen (TookBits.refl w h.ref))
      rwa [List.append_nil] at took

end PreTeO.Mgfs3
