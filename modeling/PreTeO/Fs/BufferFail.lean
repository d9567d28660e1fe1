import PreTeO.Fs.BufferRun

/-!
# Buffers when callbacks fail

A buffer is faithful when it holds what its callers last put into it, and otherwise what the device holds for its
unit. The failure paths of `alloc` break this: the record that is to be taken for another unit still names its old
unit while its buffer is read into, and the search for a free record is repeated without end when the map cannot
grow. The condition `Guarded` names the calls that stay clear of both.
-/

namespace PreTeO.Fs
set_option autoImplicit false
open PreTeO.Lib

variable {B : Type} {s t : Buffers B} {answers : Answers B} {pending : Nat → Option B}

/-- What is owed after the transfers in `new`. -/
def clear (pending : Nat → Option B) (new : List (Nat × Nat)) : Nat → Option B :=
  fun u => if new.any (·.1 == u) then none else pending u

theorem clear_nil (pending : Nat → Option B) : clear pending [] = pending := rfl

theorem clear_append (pending : Nat → Option B) (new new' : List (Nat × Nat)) :
    clear (clear pending new) new' = clear pending (new ++ new') := by
  funext u
  unfold clear
  rw [List.any_append]
  cases new.any (·.1 == u) <;> cases new'.any (·.1 == u) <;> rfl

/-- The unit is one of the volume, and its sector number fits 32 bits. -/
def FsInfo.Low (info : FsInfo) (u : Nat) : Prop := u < info.nunits ∧ u * info.unitSize < 2 ^ 32

/-- Such units start at distinct sectors. -/
theorem FsInfo.Low.sector_injective {info : FsInfo} (positive : 0 < info.unitSize) {u v : Nat} (low : info.Low u)
    (low' : info.Low v) (same : info.sector u = info.sector v) : u = v := by
  unfold FsInfo.sector at same
  rw [Nat.mod_eq_of_lt low.2, Nat.mod_eq_of_lt low'.2] at same
  exact Nat.eq_of_mul_eq_mul_right positive same

/-- Every record that names a unit has a buffer of its own that holds the bytes of the unit. -/
structure Faithful (s : Buffers B) (pending : Nat → Option B) : Prop where
  ordered : Ordered s.map
  positive : 0 < s.next
  sectors : ∀ u v, s.info.Low u → s.info.Low v → s.info.sector u = s.info.sector v → u = v
  units : ∀ (j : Nat) (r : Record), s.map[j]? = some r → r.Named → s.info.Low r.unitNumber
  quiet : ∀ (j : Nat) (r : Record), s.map[j]? = some r → ¬ r.Named → r.Idle
  blocks : ∀ (j : Nat) (r : Record), s.map[j]? = some r → r.pBuffer < s.next
  separate : ∀ (i j : Nat) (r r' : Record), s.map[i]? = some r → s.map[j]? = some r' → r.pBuffer ≠ 0 →
    r.pBuffer = r'.pBuffer → i = j
  content : ∀ (j : Nat) (r : Record), s.map[j]? = some r → r.Named →
    s.mem r.pBuffer = (pending r.unitNumber).getD (s.dev (s.info.sector r.unitNumber))
  owed : ∀ (j : Nat) (r : Record), s.map[j]? = some r → r.Named → r.wf = true →
    pending r.unitNumber = some (s.mem r.pBuffer)
  gone : ∀ u, u ≠ invalidUnitNumber → Absent s.map u → pending u = none

namespace Faithful

/-- A context before its first call. -/
theorem start (writeBack : Bool) {info : FsInfo} (dev mem : Nat → B) (positive : 0 < info.unitSize) :
    Faithful (Buffers.start writeBack info dev mem) fun _ => none := by
  refine ⟨Ordered.nil, Nat.zero_lt_one, fun _ _ low low' => low.sector_injective positive low', ?_, ?_, ?_, ?_, ?_, ?_,
    fun _ _ _ => rfl⟩ <;>
    simp [Buffers.start]

/-- A record that waits to be written names a unit. -/
theorem named_of_wf (faithful : Faithful s pending) {j : Nat} {r : Record} (get : s.map[j]? = some r)
    (wf : r.wf = true) : r.Named := by
  by_contra unnamed
  have := (faithful.quiet j r get unnamed).2
  rw [this] at wf
  cases wf

/-- Counters and flags of one record change. -/
theorem recount (faithful : Faithful s pending) (i : Nat) {f : Record → Record}
    (keeps : ∀ r, (f r).unitNumber = r.unitNumber ∧ (f r).pBuffer = r.pBuffer)
    (idle : ∀ r, s.map[i]? = some r → ¬ r.Named → (f r).Idle)
    (marks : ∀ r, s.map[i]? = some r → (f r).wf = true → r.wf = true ∨ pending r.unitNumber = some (s.mem r.pBuffer)) :
    Faithful (s.modify i f) pending := by
  have back : ∀ {j : Nat} {r' : Record}, (s.modify i f).map[j]? = some r' →
      ∃ r, s.map[j]? = some r ∧ r'.unitNumber = r.unitNumber ∧ r'.pBuffer = r.pBuffer ∧
        (¬ r.Named → r'.Idle) ∧ (r'.wf = true → r.wf = true ∨ pending r.unitNumber = some (s.mem r.pBuffer)) := by
    intro j r' get'
    obtain ⟨r, get, rfl⟩ := Buffers.modify_back get'
    refine ⟨r, get, ?_⟩
    split
    · next here =>
      subst here
      exact ⟨(keeps r).1, (keeps r).2, idle r get, marks r get⟩
    · exact ⟨rfl, rfl, faithful.quiet j r get, Or.inl⟩
  refine ⟨faithful.ordered.modify_names i keeps, faithful.positive, faithful.sectors, ?_, ?_, ?_, ?_, ?_, ?_, ?_⟩
  · intro j r' get' named
    obtain ⟨r, get, unit, -⟩ := back get'
    rw [unit]
    unfold Record.Named at named
    rw [unit] at named
    exact faithful.units j r get named
  · intro j r' get' unnamed
    obtain ⟨r, get, unit, -, quiet, -⟩ := back get'
    refine quiet ?_
    unfold Record.Named at unnamed ⊢
    rwa [unit] at unnamed
  · intro j r' get'
    obtain ⟨r, get, -, buffer, -⟩ := back get'
    rw [buffer]
    exact faithful.blocks j r get
  · intro a b r' r'' get' get'' present same
    obtain ⟨r, get, -, buffer, -⟩ := back get'
    obtain ⟨r₁, get₁, -, buffer₁, -⟩ := back get''
    rw [buffer] at present same
    rw [buffer₁] at same
    exact faithful.separate a b r r₁ get get₁ present same
  · intro j r' get' named
    obtain ⟨r, get, unit, buffer, -⟩ := back get'
    unfold Record.Named at named
    rw [unit] at named
    rw [unit, buffer]
    exact faithful.content j r get named
  · intro j r' get' named wf
    obtain ⟨r, get, unit, buffer, -, marked⟩ := back get'
    unfold Record.Named at named
    rw [unit] at named
    rw [unit, buffer]
    rcases marked wf with old | new
    · exact faithful.owed j r get named old
    · exact new
  · intro u valid absent
    refine faithful.gone u valid fun j r get same => ?_
    obtain ⟨r', get', unit, -⟩ := s.modify_sameNames i keeps j r get
    exact absent j r' get' (unit.trans same)

/-- The write back of a record. -/
theorem flushRecord (faithful : Faithful s pending) (answers : Answers B) (i : Nat) :
    ∃ new, (s.flushRecord answers i).log = s.log ++ new ∧
      Faithful (s.flushRecord answers i) (clear pending new) := by
  rcases Buffers.flushRecord_cases s answers i with same | ⟨r, b, at_i, wf, failed⟩ | ⟨r, at_i, wf, inside, done⟩
  · rw [same]
    exact ⟨[], by simp, faithful⟩
  · have named := faithful.named_of_wf at_i wf
    rw [failed]
    refine ⟨[], by simp, { faithful with content := ?_ }⟩
    intro j r' get named'
    simp only [clear_nil]
    by_cases same : r'.unitNumber = r.unitNumber
    · rw [faithful.content j r' get named', same, faithful.owed i r at_i named wf]
      rfl
    · have differ : s.info.sector r'.unitNumber ≠ s.info.sector r.unitNumber := fun equal =>
        same (faithful.sectors _ _ (faithful.units j r' get named') (faithful.units i r at_i named) equal)
      rw [Function.update_of_ne differ]
      exact faithful.content j r' get named'
  · have named := faithful.named_of_wf at_i wf
    have cleaned : Faithful (s.modify i Record.clean) pending := by
      refine faithful.recount i (fun r => ⟨rfl, rfl⟩) (fun r get unnamed => ?_) (fun r get marked => by cases marked)
      exact ⟨(faithful.quiet i r get unnamed).1, rfl⟩
    have owes : ∀ u, clear pending [(r.unitNumber, r.pBuffer)] u = if r.unitNumber = u then none else pending u := by
      intro u
      simp [clear]
    rw [done]
    refine ⟨_, rfl, { cleaned with content := ?_, owed := ?_, gone := ?_ }⟩
    · intro j r' get named'
      change (s.modify i Record.clean).map[j]? = some r' at get
      dsimp only
      by_cases same : r.unitNumber = r'.unitNumber
      · -- the record of the unit is the one that was transferred
        obtain ⟨r₀, get₀, change⟩ := Buffers.modify_back get
        have unit : r₀.unitNumber = r'.unitNumber := by
          rw [change]
          split <;> rfl
        have place := faithful.ordered.once i j r r₀ at_i get₀ named (same.trans unit.symm)
        subst place
        rw [at_i] at get₀
        cases get₀
        rw [owes, if_pos same, ← same, Function.update_self, change, if_pos rfl]
        rfl
      · have differ : s.info.sector r'.unitNumber ≠ s.info.sector r.unitNumber := fun equal =>
          same (faithful.sectors _ _ (cleaned.units j r' get named') (faithful.units i r at_i named) equal).symm
        rw [owes, if_neg same, Function.update_of_ne differ]
        exact cleaned.content j r' get named'
    · intro j r' get named' marked
      change (s.modify i Record.clean).map[j]? = some r' at get
      have differ : r.unitNumber ≠ r'.unitNumber := by
        intro same
        have here := cleaned.ordered.once i j r.clean r' (Buffers.modify_get at_i |>.trans (by simp)) get named same
        subst here
        rw [Buffers.modify_get at_i] at get
        cases get
        simp [Record.clean] at marked
      rw [owes, if_neg differ]
      exact cleaned.owed j r' get named' marked
    · intro u valid absent
      rw [owes]
      split
      · rfl
      · exact cleaned.gone u valid absent

/-- The loop of `flush`. -/
theorem flushFrom (faithful : Faithful s pending) (answers : Answers B) (n i : Nat) :
    ∃ new, (Buffers.flushFrom answers n i s).log = s.log ++ new ∧
      Faithful (Buffers.flushFrom answers n i s) (clear pending new) := by
  induction n generalizing s pending i with
  | zero => exact ⟨[], by simp [Buffers.flushFrom], faithful⟩
  | succ n ih =>
    obtain ⟨new, log, once⟩ := faithful.flushRecord answers i
    obtain ⟨new', log', later⟩ := ih once (i + 1)
    refine ⟨new ++ new', ?_, ?_⟩
    · rw [Buffers.flushFrom, log', log, List.append_assoc]
    · rw [← clear_append]
      exact later

theorem flush (faithful : Faithful s pending) (answers : Answers B) (hb : Option Nat) :
    ∃ new, (s.flush answers hb).log = s.log ++ new ∧ Faithful (s.flush answers hb) (clear pending new) := by
  cases hb with
  | none => exact faithful.flushFrom answers _ _
  | some hb => exact faithful.flushRecord answers hb

/-- `free` of a handle. -/
theorem free (faithful : Faithful s pending) (answers : Answers B) (hb : Nat) :
    ∃ new, (s.free answers hb).log = s.log ++ new ∧ Faithful (s.free answers hb) (clear pending new) := by
  have counted : ∀ {t : Buffers B} {p : Nat → Option B}, Faithful t p → Faithful (t.modify hb Record.release) p := by
    intro t p faithful
    refine faithful.recount hb (fun r => ⟨rfl, rfl⟩) (fun r get unnamed => ?_) (fun r get marked => Or.inl marked)
    have := faithful.quiet hb r get unnamed
    exact ⟨by simp [Record.release, this.1], this.2⟩
  unfold Buffers.free
  split
  · exact ⟨[], by simp, faithful⟩
  · split
    · exact ⟨[], by simp, faithful⟩
    · dsimp only
      split
      · exact ⟨[], by simp [Buffers.modify], counted faithful⟩
      · obtain ⟨new, log, once⟩ := faithful.flushRecord answers hb
        exact ⟨new, log, counted once⟩

/-- The bytes in the buffer of a unit may be owed to it. -/
theorem owe (faithful : Faithful s pending) {i : Nat} {r : Record} (at_i : s.map[i]? = some r) (named : r.Named) :
    Faithful s (Function.update pending r.unitNumber (some (s.mem r.pBuffer))) := by
  have other : ∀ {j : Nat} {r' : Record}, s.map[j]? = some r' → r'.Named → r'.unitNumber = r.unitNumber →
      r' = r := by
    intro j r' get named' same
    have place := faithful.ordered.once i j r r' at_i get named same.symm
    subst place
    rw [at_i] at get
    cases get
    rfl
  refine { faithful with content := ?_, owed := ?_, gone := ?_ }
  · intro j r' get named'
    by_cases same : r'.unitNumber = r.unitNumber
    · rw [other get named' same, Function.update_self]
      rfl
    · rw [Function.update_of_ne same]
      exact faithful.content j r' get named'
  · intro j r' get named' wf
    by_cases same : r'.unitNumber = r.unitNumber
    · rw [other get named' same, Function.update_self]
    · rw [Function.update_of_ne same]
      exact faithful.owed j r' get named' wf
  · intro u valid absent
    rw [Function.update_of_ne (fun same => absent i r at_i same.symm)]
    exact faithful.gone u valid absent

/-- `write` of the handle of a record that names a unit. -/
theorem write (faithful : Faithful s pending) (answers : Answers B) {hb : Nat} {r : Record}
    (get : s.map[hb]? = some r) (named : r.Named) :
    ∃ new, (s.write answers hb).log = s.log ++ new ∧
      Faithful (s.write answers hb) (clear (Function.update pending r.unitNumber (some (s.mem r.pBuffer))) new) := by
  have marked : Faithful (s.modify hb Record.mark) (Function.update pending r.unitNumber (some (s.mem r.pBuffer))) := by
    refine (faithful.owe get named).recount hb (fun r => ⟨rfl, rfl⟩) ?_ ?_
    · intro r' get' unnamed
      rw [get] at get'
      cases get'
      exact absurd named unnamed
    · intro r' get' _
      rw [get] at get'
      cases get'
      exact Or.inr (Function.update_self ..)
  simp only [Buffers.write, get]
  split
  · exact ⟨[], by simp [Buffers.modify], marked⟩
  · exact marked.flushRecord answers hb

/-- The owner of a handle changes the bytes of the buffer. -/
theorem store (faithful : Faithful s pending) (hb : Nat) (b : B) :
    Faithful (s.store hb b)
      (if s.ptr hb = 0 then pending else Function.update pending (s.name hb).1 (some b)) := by
  unfold Buffers.store
  split
  · exact faithful
  · next present =>
    obtain ⟨r, at_hb⟩ : ∃ r, s.map[hb]? = some r := by
      cases get : s.map[hb]? with
      | none => simp [Buffers.ptr, get] at present
      | some r => exact ⟨r, rfl⟩
    have pointer : s.ptr hb = r.pBuffer := by simp [Buffers.ptr, at_hb]
    rw [pointer] at present ⊢
    rw [Buffers.name_of_get at_hb]
    have mine : ∀ {j : Nat} {r' : Record}, s.map[j]? = some r' → r'.Named → r'.unitNumber = r.unitNumber →
        r'.pBuffer = r.pBuffer := by
      intro j r' get named same
      have place := faithful.ordered.once j hb r' r get at_hb named same
      subst place
      rw [at_hb] at get
      cases get
      rfl
    have others : ∀ {j : Nat} {r' : Record}, s.map[j]? = some r' → r'.unitNumber ≠ r.unitNumber →
        r'.pBuffer ≠ r.pBuffer := by
      intro j r' get differ same
      have place := faithful.separate hb j r r' at_hb get present same.symm
      subst place
      rw [at_hb] at get
      cases get
      exact differ rfl
    refine { faithful with content := ?_, owed := ?_, gone := ?_ }
    · intro j r' get named
      dsimp only
      by_cases same : r'.unitNumber = r.unitNumber
      · rw [same, mine get named same, Function.update_self, Function.update_self]
        rfl
      · rw [Function.update_of_ne same, Function.update_of_ne (others get same)]
        exact faithful.content j r' get named
    · intro j r' get named wf
      dsimp only
      by_cases same : r'.unitNumber = r.unitNumber
      · rw [same, mine get named same, Function.update_self, Function.update_self]
      · rw [Function.update_of_ne same, Function.update_of_ne (others get same)]
        exact faithful.owed j r' get named wf
    · intro u valid absent
      dsimp only
      rw [Function.update_of_ne (fun same => absent hb r at_hb same.symm)]
      exact faithful.gone u valid absent

/-! ## `alloc` -/

/-- Unused records are faithful. -/
theorem grown (faithful : Faithful s pending) (grown : s.Grown t) : Faithful t pending := by
  have old : ∀ {j : Nat} {r : Record}, t.map[j]? = some r → r.Named → s.map[j]? = some r := by
    intro j r get named
    rcases grown.back get with old | ⟨-, rfl⟩
    · exact old
    · exact absurd rfl named
  refine ⟨grown.ordered faithful.ordered, lt_of_lt_of_le faithful.positive grown.next, ?_, ?_, ?_, ?_, ?_, ?_, ?_, ?_⟩
  · rw [grown.info]
    exact faithful.sectors
  · intro j r get named
    rw [grown.info]
    exact faithful.units j r (old get named) named
  · intro j r get unnamed
    rcases grown.back get with old | ⟨-, rfl⟩
    · exact faithful.quiet j r old unnamed
    · exact ⟨rfl, rfl⟩
  · intro j r get
    refine lt_of_lt_of_le ?_ grown.next
    rcases grown.back get with old | ⟨-, rfl⟩
    · exact faithful.blocks j r old
    · exact faithful.positive
  · intro i j r r' get get' present same
    rcases grown.back get with old | ⟨-, rfl⟩
    · rcases grown.back get' with old' | ⟨-, rfl⟩
      · exact faithful.separate i j r r' old old' present same
      · exact absurd same present
    · exact absurd rfl present
  · intro j r get named
    rw [grown.mem, grown.info, grown.dev]
    exact faithful.content j r (old get named) named
  · intro j r get named wf
    rw [grown.mem]
    exact faithful.owed j r (old get named) named wf
  · intro u valid absent
    exact faithful.gone u valid fun j r get => absent j r (grown.get get)

/-- A new buffer for a record that names no unit. -/
theorem prepared (faithful : Faithful s pending) {i block : Nat} {r : Record} (at_i : s.map[i]? = some r)
    (prepared : s.Prepared i r block t) : Faithful t pending := by
  cases prepared with
  | own _ => exact faithful
  | fresh missing =>
    have unnamed : ¬ r.Named := fun named => faithful.ordered.buffered i r at_i named missing
    have ordered := faithful.ordered.buffer_unnamed at_i unnamed s.next
    have back : ∀ {j : Nat} {r' : Record}, (s.map.modify i fun r => { r with pBuffer := s.next })[j]? = some r' →
        (j = i ∧ r' = { r with pBuffer := s.next }) ∨ (j ≠ i ∧ s.map[j]? = some r') := by
      intro j r' get
      rw [List.getElem?_modify] at get
      obtain ⟨r₀, get, change⟩ := Option.map_eq_some_iff.mp get
      split at change
      · next here =>
        subst here
        rw [at_i] at get
        cases get
        exact Or.inl ⟨rfl, change.symm⟩
      · next differ =>
        cases change
        exact Or.inr ⟨fun same => differ same.symm, get⟩
    have old : ∀ {j : Nat} {r' : Record}, (s.map.modify i fun r => { r with pBuffer := s.next })[j]? = some r' →
        r'.Named → s.map[j]? = some r' := by
      intro j r' get named
      rcases back get with ⟨-, rfl⟩ | ⟨-, old⟩
      · exact absurd named unnamed
      · exact old
    refine ⟨ordered, Nat.succ_pos _, faithful.sectors, ?_, ?_, ?_, ?_, ?_, ?_, ?_⟩
    · intro j r' get named
      exact faithful.units j r' (old get named) named
    · intro j r' get named
      rcases back get with ⟨-, rfl⟩ | ⟨-, old⟩
      · exact faithful.quiet i r at_i unnamed
      · exact faithful.quiet j r' old named
    · intro j r' get
      rcases back get with ⟨-, rfl⟩ | ⟨-, old⟩
      · exact Nat.lt_succ_self _
      · exact Nat.lt_succ_of_lt (faithful.blocks j r' old)
    · intro a b r' r'' get get' present same
      rcases back get with ⟨here, rfl⟩ | ⟨-, old⟩ <;> rcases back get' with ⟨here', rfl⟩ | ⟨-, old'⟩
      · exact here.trans here'.symm
      · exact absurd same (Nat.ne_of_gt (faithful.blocks b r'' old'))
      · exact absurd same (Nat.ne_of_lt (faithful.blocks a r' old))
      · exact faithful.separate a b r' r'' old old' present same
    · intro j r' get named
      exact faithful.content j r' (old get named) named
    · intro j r' get named wf
      exact faithful.owed j r' (old get named) named wf
    · intro u valid absent
      refine faithful.gone u valid fun j r' get same => ?_
      by_cases here : j = i
      · subst here
        rw [at_i] at get
        cases get
        refine absent j { r with pBuffer := s.next } ?_ same
        simp [at_i]
      · refine absent j r' ?_ same
        simp [get, Ne.symm here]

/-- The buffer of a record that names no unit may hold anything. -/
theorem scribble (faithful : Faithful s pending) {i : Nat} {r : Record} (at_i : s.map[i]? = some r)
    (unnamed : ¬ r.Named) (present : r.pBuffer ≠ 0) (b : B) :
    Faithful { s with mem := Function.update s.mem r.pBuffer b } pending := by
  have others : ∀ {j : Nat} {r' : Record}, s.map[j]? = some r' → r'.Named → r'.pBuffer ≠ r.pBuffer := by
    intro j r' get named same
    have place := faithful.separate i j r r' at_i get present same.symm
    subst place
    rw [at_i] at get
    cases get
    exact unnamed named
  refine { faithful with content := ?_, owed := ?_ }
  · intro j r' get named
    dsimp only
    rw [Function.update_of_ne (others get named)]
    exact faithful.content j r' get named
  · intro j r' get named wf
    dsimp only
    rw [Function.update_of_ne (others get named)]
    exact faithful.owed j r' get named wf

/-- What is owed after the record of unit `v` was given to unit `u`. -/
def passOn (pending : Nat → Option B) (v u : Nat) : Nat → Option B :=
  if v = u then pending else Function.update pending v none

/-- An idle record takes a unit of the volume that no record names, and its buffer the bytes of the unit. -/
theorem take (faithful : Faithful s pending) {u i : Nat} {r : Record} (at_i : s.map[i]? = some r) (idle : r.Idle)
    (before : Buffers.NamedBefore s.map i) (absent : Absent s.map u) (valid : u ≠ invalidUnitNumber)
    (inside : s.info.Low u) (present : r.pBuffer ≠ 0) :
    Faithful
      (Buffers.modify { s with mem := Function.update s.mem r.pBuffer (s.dev (s.info.sector u)) } i
        fun r => Record.retain { r with unitNumber := u })
      (passOn pending r.unitNumber u) := by
  have differ : r.unitNumber ≠ u := absent i r at_i
  have back : ∀ {j : Nat} {r' : Record}, (s.map.modify i fun r => Record.retain { r with unitNumber := u })[j]? = some r' →
      (j = i ∧ r' = Record.retain { r with unitNumber := u }) ∨ (j ≠ i ∧ s.map[j]? = some r') := by
    intro j r' get
    rw [List.getElem?_modify] at get
    obtain ⟨r₀, get, change⟩ := Option.map_eq_some_iff.mp get
    split at change
    · next here =>
      subst here
      rw [at_i] at get
      cases get
      exact Or.inl ⟨rfl, change.symm⟩
    · next elsewhere =>
      cases change
      exact Or.inr ⟨fun same => elsewhere same.symm, get⟩
  have block : ∀ {j : Nat} {r' : Record}, j ≠ i → s.map[j]? = some r' → r'.pBuffer ≠ r.pBuffer :=
    fun elsewhere get same => elsewhere (faithful.separate i _ r _ at_i get present same.symm).symm
  -- a unit that another record names owes what it owed
  have owes : ∀ {j : Nat} {r' : Record}, j ≠ i → s.map[j]? = some r' → r'.Named →
      passOn pending r.unitNumber u r'.unitNumber = pending r'.unitNumber := by
    intro j r' elsewhere get named
    unfold passOn
    rw [if_neg differ, Function.update_of_ne]
    exact fun same => elsewhere (faithful.ordered.once j i r' r get at_i named same)
  have ordered := faithful.ordered.take (i := i) (u := u) (f := fun r => Record.retain { r with unitNumber := u })
    absent valid before present (fun r' get => by rw [at_i] at get; cases get; exact ⟨rfl, rfl⟩)
  refine ⟨ordered, faithful.positive, faithful.sectors, ?_, ?_, ?_, ?_, ?_, ?_, ?_⟩
  · intro j r' get named
    rcases back get with ⟨-, rfl⟩ | ⟨-, old⟩
    · exact inside
    · exact faithful.units j r' old named
  · intro j r' get unnamed
    rcases back get with ⟨-, rfl⟩ | ⟨-, old⟩
    · exact absurd valid unnamed
    · exact faithful.quiet j r' old unnamed
  · intro j r' get
    rcases back get with ⟨-, rfl⟩ | ⟨-, old⟩
    · exact faithful.blocks i r at_i
    · exact faithful.blocks j r' old
  · intro a b r' r'' get get' present' same
    rcases back get with ⟨here, rfl⟩ | ⟨elsewhere, old⟩ <;> rcases back get' with ⟨here', rfl⟩ | ⟨elsewhere', old'⟩
    · exact here.trans here'.symm
    · exact absurd same.symm (block elsewhere' old')
    · exact absurd same (block elsewhere old)
    · exact faithful.separate a b r' r'' old old' present' same
  · intro j r' get named
    rcases back get with ⟨-, rfl⟩ | ⟨elsewhere, old⟩
    · have none : passOn pending r.unitNumber u u = none := by
        unfold passOn
        rw [if_neg differ, Function.update_of_ne (Ne.symm differ)]
        exact faithful.gone u valid absent
      simp only [Record.retain, Buffers.modify, Function.update_self, none, Option.getD_none]
    · simp only [Buffers.modify]
      rw [owes elsewhere old named, Function.update_of_ne (block elsewhere old)]
      exact faithful.content j r' old named
  · intro j r' get named wf
    rcases back get with ⟨-, rfl⟩ | ⟨elsewhere, old⟩
    · have : r.wf = true := wf
      rw [idle.2] at this
      cases this
    · simp only [Buffers.modify]
      rw [owes elsewhere old named, Function.update_of_ne (block elsewhere old)]
      exact faithful.owed j r' old named wf
  · intro v valid' absent'
    unfold passOn
    rw [if_neg differ]
    by_cases same : v = r.unitNumber
    · rw [same, Function.update_self]
    · rw [Function.update_of_ne same]
      refine faithful.gone v valid' fun j r' get unit => ?_
      by_cases here : j = i
      · subst here
        rw [at_i] at get
        cases get
        exact same unit.symm
      · refine absent' j r' ?_ unit
        simp [Buffers.modify, get, Ne.symm here]

/-- The last pass of `alloc`, if a failed read leaves the buffer of a named record alone. -/
theorem allocated (faithful : Faithful s pending) {u : Nat} (valid : u ≠ invalidUnitNumber)
    (low : u < s.info.nunits → u * s.info.unitSize < 2 ^ 32) {result : Option Nat}
    (done : Buffers.Allocated answers u s result t)
    (harmless : ∀ (i : Nat) (r : Record), s.map[i]? = some r → Buffers.scan u s.map 0 none = .missing (some i) → r.Named →
      u < s.info.nunits → answers.read = none ∨ answers.read = some (s.mem r.pBuffer)) :
    Faithful t (match result with
      | none => pending
      | some hb => passOn pending (s.name hb).1 u) := by
  cases done with
  | empty _ => exact faithful
  | starved => exact { faithful with }
  | @found i r at_i same =>
    have named : r.Named := by
      unfold Record.Named
      rwa [same]
    simp only [Buffers.name_of_get at_i, same, passOn, if_true]
    refine faithful.recount i (fun r => ⟨rfl, rfl⟩) (fun r' get unnamed => ?_) (fun r' get wf => Or.inl wf)
    rw [at_i] at get
    cases get
    exact absurd named unnamed
  | @filled i block r t₀ _ _ at_i idle before absent miss prepared fill =>
    have ready := faithful.prepared at_i prepared
    have present := prepared.block_ne faithful.positive
    have at_i' : t₀.map[i]? = some { r with pBuffer := block } := by
      rw [prepared.get at_i, if_pos rfl]
    have info := prepared.frame.1
    unfold Buffers.fillFree Buffers.fsUnitRead at fill
    by_cases inside : u < t₀.info.nunits
    · cases read : answers.read with
      | none =>
        simp only [if_pos inside, read, Prod.mk.injEq] at fill
        obtain ⟨rfl, rfl⟩ := fill
        simp only [Buffers.name_of_get at_i]
        have inside' : t₀.info.Low u := by
          rw [info] at inside ⊢
          exact ⟨inside, low inside⟩
        exact ready.take at_i' idle (prepared.namedBefore at_i before) (prepared.absent at_i absent) valid inside' present
      | some b =>
        simp only [if_pos inside, read, Prod.mk.injEq] at fill
        obtain ⟨rfl, rfl⟩ := fill
        by_cases named : r.Named
        · -- a record that names a unit has its own buffer, and the read left it alone
          cases prepared with
          | fresh missing => exact absurd missing (faithful.ordered.buffered i r at_i named)
          | own _ =>
            rcases harmless i r at_i miss named inside with fine | same
            · rw [fine] at read
              cases read
            · rw [same] at read
              cases read
              simp only [Function.update_eq_self]
              exact { faithful with }
        · exact { ready.scribble at_i' named present b with }
    · simp only [if_neg inside, Prod.mk.injEq] at fill
      obtain ⟨rfl, rfl⟩ := fill
      exact { ready with }

/-- Without a free record every record names a unit. -/
theorem all_named (faithful : Faithful s pending) {u : Nat} (full : Buffers.scan u s.map 0 none = .missing none) (n : Nat) :
    Buffers.NamedBefore s.map n := by
  induction n with
  | zero => exact Buffers.namedBefore_zero _
  | succ n ih =>
    intro l r below get
    rcases Nat.lt_succ_iff_lt_or_eq.mp below with lower | rfl
    · exact ih l r lower get
    · by_contra unnamed
      exact (Buffers.scan_full full).2 l r get ih (faithful.quiet l r get unnamed)

/-- A map that has grown has a free record. -/
theorem not_full_of_grown (faithful : Faithful s pending) {u size : Nat} (full : Buffers.scan u s.map 0 none = .missing none)
    (grows : s.initBufferMap true (s.map.length + (size + 1)) = some t) : Buffers.scan u t.map 0 none ≠ .missing none := by
  intro full'
  have map : t.map = s.map ++ List.replicate (size + 1) Record.unused := by
    unfold Buffers.initBufferMap at grows
    split at grows
    · cases grows
      simp
    · cases grows
  refine (Buffers.scan_full full').2 s.map.length Record.unused ?_ ?_ ⟨rfl, rfl⟩
  · rw [map, List.getElem?_append_right (le_refl _)]
    simp
  · intro l r below get
    rw [map, List.getElem?_append_left below] at get
    exact faithful.all_named full _ l r below get

end Faithful

/-- `alloc` returns a handle only if nothing failed in its last pass. -/
theorem Buffers.Allocated.failures {u hb : Nat} (done : Buffers.Allocated answers u s (some hb) t) :
    t.failures = s.failures := by
  generalize result : some hb = given at done
  cases done with
  | empty _ | starved => cases result
  | found _ _ => rfl
  | @filled i block r t₀ _ _ at_i idle before absent miss prepared fill =>
    have same : t₀.failures = s.failures := by
      cases prepared <;> rfl
    subst result
    unfold Buffers.fillFree Buffers.fsUnitRead at fill
    by_cases inside : u < t₀.info.nunits
    · cases read : answers.read with
      | none =>
        simp only [if_pos inside, read, Prod.mk.injEq] at fill
        obtain ⟨-, rfl⟩ := fill
        exact same
      | some b => simp [if_pos inside, read] at fill
    · simp [if_neg inside] at fill

namespace History

variable {h h' : History B}

/-- The calls that stay clear of the failure paths: the number that stands for no unit is not asked for, nor a unit whose
sector number does not fit 32 bits, the map can grow where it has to, a read that fails has not touched the buffer of a record
that names a unit, and only handles of records that name a unit are marked. -/
def Guarded (h : History B) (answers : Answers B) : Request B → Prop
  | .alloc u _ => u ≠ invalidUnitNumber ∧ (u < h.bufs.info.nunits → u * h.bufs.info.unitSize < 2 ^ 32) ∧
    (h.bufs.map ≠ [] → Buffers.scan u h.bufs.map 0 none = .missing none →
      answers.memory 0 = true ∧ (h.bufs.map.length + firstMapSize) * 16 < 2 ^ 32) ∧
    (∀ (i : Nat) (r : Record), h.bufs.map[i]? = some r → Buffers.scan u h.bufs.map 0 none = .missing (some i) → r.Named →
      u < h.bufs.info.nunits → answers.read = none ∨ answers.read = some (h.bufs.mem r.pBuffer))
  | .write hb => ∀ r, h.bufs.map[hb]? = some r → r.Named
  | _ => True

/-- `alloc` of a unit is safe: it returns, with no handle if a request failed, and a handle it returns leads to the
bytes of the unit. -/
structure AllocSafe (h : History B) (answers : Answers B) (u : Nat) : Prop where
  returns : ∃ result s, (∀ n, h.bufs.alloc answers u (n + 2) = some (result, s)) ∧
    (h.bufs.failures < s.failures → result = none)
  bytes : ∀ passes hb s, h.bufs.alloc answers u passes = some (some hb, s) →
    ∃ r, s.map[hb]? = some r ∧ r.unitNumber = u ∧
      s.mem r.pBuffer = ((h.given s u hb).pending u).getD (s.dev (s.info.sector u))

/-- The state is faithful to the bytes its callers and the device have for the units. -/
def IsFaithful (h : History B) : Prop := Faithful h.bufs h.pending

/-- The unit of a record is the same after the map has grown. -/
theorem name_of_grown (grown : s.Grown t) {hb : Nat} {r : Record} (get : t.map[hb]? = some r) :
    (t.name hb).1 = (s.name hb).1 := by
  rw [Buffers.name_of_get get]
  rcases grown.back get with old | ⟨outside, rfl⟩
  · rw [Buffers.name_of_get old]
  · simp [Buffers.name, List.getElem?_eq_none_iff.mpr outside, Record.unused]

/-- `alloc` under the guard leaves a faithful state. -/
theorem IsFaithful.alloc (faithful : h.IsFaithful) {u passes : Nat} {result : Option Nat}
    (guarded : h.Guarded answers (.alloc u passes)) (returns : h.bufs.alloc answers u passes = some (result, s)) :
    Faithful s (match result with
      | none => h.pending
      | some hb => (h.given s u hb).pending) := by
  obtain ⟨valid, low, -, harmless⟩ := guarded
  obtain ⟨t, grown, fresh, done⟩ := Buffers.alloc_cases faithful.ordered valid returns
  have ready := Faithful.grown faithful grown
  have taken := ready.allocated valid (grown.info ▸ low) done (fun i r get miss named inside => by
    rcases fresh with rfl | full
    · exact harmless i r get miss named inside
    · -- a record of the full map is not free, and the new ones name no unit
      exfalso
      rcases Buffers.scan_free miss with noted | ⟨n, r', place, get', idle, before⟩
      · cases noted
      rw [Nat.zero_add] at place
      subst place
      rw [get] at get'
      cases get'
      rcases grown.back get with old | ⟨-, rfl⟩
      · rcases full with none | full
        · rw [none] at old
          cases old
        · exact (Buffers.scan_full full).2 i r old (faithful.all_named full i) idle
      · exact named rfl)
  cases result with
  | none => exact taken
  | some hb =>
    obtain ⟨r, get⟩ := done.index rfl
    have unit := name_of_grown grown get
    simp only [unit] at taken
    exact taken

/-- A handle that `alloc` returns is the index of a record that names the unit. -/
theorem IsFaithful.alloc_unit (faithful : h.IsFaithful) {u passes hb : Nat} (valid : u ≠ invalidUnitNumber)
    (returns : h.bufs.alloc answers u passes = some (some hb, s)) : ∃ r, s.map[hb]? = some r ∧ r.unitNumber = u := by
  obtain ⟨t, -, -, done⟩ := Buffers.alloc_cases faithful.ordered valid returns
  obtain ⟨r, get⟩ := done.index rfl
  obtain ⟨r', get', -, -, -, unit, -⟩ := done.record get
  exact ⟨r', get', unit rfl⟩

/-- The map grows when its memory is granted and the request fits 32 bits. -/
theorem initBufferMap_granted (s : Buffers B) {size : Nat} (fits : size * 16 < 2 ^ 32) :
    ∃ t, s.initBufferMap true size = some t ∧
      t.map = s.map ++ List.replicate (size - s.map.length) Record.unused ∧ t.failures = s.failures := by
  have grows : s.initBufferMap true size = some { s with
      map := s.map ++ List.replicate (size - s.map.length) Record.unused
      next := s.next + 1 } := by
    simp only [Buffers.initBufferMap, if_pos fits, if_true]
  exact ⟨_, grows, rfl, rfl⟩

/-- A pass over a map that is not full is the last one. -/
theorem last_pass (ordered : Ordered t.map) {u : Nat} (valid : u ≠ invalidUnitNumber) (present : t.map ≠ [])
    (free : Buffers.scan u t.map 0 none ≠ .missing none) (answers : Answers B) (k : Nat) :
    ∃ result s, (∀ n, Buffers.allocLoop answers u (n + 1) t k = some (result, s)) ∧ Buffers.Allocated answers u t result s := by
  cases found : Buffers.scan u t.map 0 none with
  | found i =>
    refine ⟨_, _, fun n => ?_, Buffers.allocFound_allocated answers k ordered valid found⟩
    simp only [Buffers.allocLoop, if_neg present, found]
  | missing hfree =>
    cases hfree with
    | none => exact absurd found free
    | some i =>
      refine ⟨_, _, fun n => ?_, Buffers.allocFree_allocated answers k ordered valid found⟩
      simp only [Buffers.allocLoop, if_neg present, found]

/-- Under the guard two passes are enough, and a failed request leaves no handle. -/
theorem IsFaithful.alloc_returns (faithful : h.IsFaithful) {u passes : Nat}
    (guarded : h.Guarded answers (.alloc u passes)) :
    ∃ result s, (∀ n, h.bufs.alloc answers u (n + 2) = some (result, s)) ∧
      (h.bufs.failures < s.failures → result = none) := by
  obtain ⟨valid, -, room, -⟩ := guarded
  -- what a last pass on a state without new failures gives
  have finish : ∀ {t s : Buffers B} {result : Option Nat}, t.failures = h.bufs.failures →
      Buffers.Allocated answers u t result s → h.bufs.failures < s.failures → result = none := by
    intro t s result same done more
    cases result with
    | none => rfl
    | some hb =>
      have := done.failures
      omega
  by_cases empty : h.bufs.map = []
  · cases memory : answers.memory 0 with
    | false =>
      refine ⟨none, h.bufs.fail, fun n => ?_, fun _ => rfl⟩
      have refused : h.bufs.initBufferMap false firstMapSize = some h.bufs.fail := rfl
      simp only [Buffers.alloc, if_pos empty, memory, refused, Option.bind_some]
      rw [Buffers.allocLoop, if_pos (show h.bufs.fail.map = [] from empty)]
    | true =>
      obtain ⟨t, grows, map, same⟩ := initBufferMap_granted h.bufs (show firstMapSize * 16 < 2 ^ 32 by decide)
      rw [empty, List.nil_append] at map
      have grown := Buffers.initBufferMap_grown grows
      have free : Buffers.scan u t.map 0 none ≠ .missing none := by
        intro full
        refine (Buffers.scan_full full).2 0 Record.unused ?_ (Buffers.namedBefore_zero _) ⟨rfl, rfl⟩
        rw [map]
        rfl
      have present : t.map ≠ [] := by
        rw [map]
        exact List.cons_ne_nil _ _
      obtain ⟨result, s, returns, done⟩ := last_pass (grown.ordered faithful.ordered) valid present free answers 1
      refine ⟨result, s, fun n => ?_, finish same done⟩
      simp only [Buffers.alloc, if_pos empty, memory, grows, Option.bind_some]
      exact returns (n + 1)
  · by_cases full : Buffers.scan u h.bufs.map 0 none = .missing none
    · obtain ⟨memory, fits⟩ := room empty full
      obtain ⟨t, grows, -, same⟩ := initBufferMap_granted h.bufs fits
      have grown := Buffers.initBufferMap_grown grows
      have present : t.map ≠ [] := by
        intro none
        have := grown.length
        rw [none] at this
        exact empty (List.length_eq_zero_iff.mp (Nat.le_zero.mp this))
      obtain ⟨result, s, returns, done⟩ := last_pass (grown.ordered faithful.ordered) valid present
        (Faithful.not_full_of_grown faithful full grows) answers 1
      refine ⟨result, s, fun n => ?_, finish same done⟩
      simp only [Buffers.alloc, if_neg empty]
      rw [Buffers.allocLoop, if_neg empty, full, memory]
      simp only [grows, Option.bind_some]
      exact returns n
    · obtain ⟨result, s, returns, done⟩ := last_pass faithful.ordered valid empty full answers 0
      refine ⟨result, s, fun n => ?_, finish rfl done⟩
      simp only [Buffers.alloc, if_neg empty]
      exact returns (n + 1)

/-- `alloc` under the guard is safe. -/
theorem IsFaithful.allocSafe (faithful : h.IsFaithful) {u passes : Nat}
    (guarded : h.Guarded answers (.alloc u passes)) : h.AllocSafe answers u := by
  refine ⟨faithful.alloc_returns guarded, fun passes' hb s returns => ?_⟩
  obtain ⟨r, get, unit⟩ := faithful.alloc_unit guarded.1 returns
  have again : h.Guarded answers (.alloc u passes') := guarded
  have after : Faithful s (h.given s u hb).pending := faithful.alloc again returns
  have named : r.Named := by
    unfold Record.Named
    rw [unit]
    exact guarded.1
  have bytes := after.content hb r get named
  rw [unit] at bytes
  exact ⟨r, get, unit, bytes⟩

theorem settle_pending (h : History B) {new : List (Nat × Nat)} (log : s.log = h.bufs.log ++ new) :
    (h.settle s).pending = clear h.pending new := by
  simp only [settle, transfers, log, List.drop_left]
  rfl

theorem IsFaithful.settle {new : List (Nat × Nat)} (log : s.log = h.bufs.log ++ new)
    (after : Faithful s (clear h.pending new)) : (h.settle s).IsFaithful := by
  unfold IsFaithful
  rw [settle_pending h log]
  exact after

/-- Every guarded call leaves a faithful state. -/
theorem IsFaithful.step (faithful : h.IsFaithful) {request : Request B} (guarded : h.Guarded answers request)
    (returns : step answers h request = some h') : h'.IsFaithful := by
  cases request with
  | alloc u passes =>
    simp only [History.step] at returns
    split at returns
    · cases returns
    · next call =>
      cases returns
      exact faithful.alloc guarded call
    · next call =>
      cases returns
      exact faithful.alloc guarded call
  | free hb =>
    cases returns
    obtain ⟨new, log, after⟩ := Faithful.free faithful answers hb
    exact IsFaithful.settle log after
  | write hb =>
    cases returns
    cases get : h.bufs.map[hb]? with
    | none =>
      have same : h.bufs.write answers hb = h.bufs := by simp only [Buffers.write, get]
      have unmarked : h.mark hb = h := by
        unfold History.mark
        rw [if_neg (Nat.not_lt.mpr (List.getElem?_eq_none_iff.mp get))]
      rw [same, unmarked]
      exact IsFaithful.settle (show h.bufs.log = h.bufs.log ++ [] by simp) faithful
    | some r =>
      have inside := (List.getElem?_eq_some_iff.mp get).1
      obtain ⟨new, log, after⟩ := Faithful.write faithful answers get (guarded r get)
      have marked : h.mark hb = { h with
          unwritten := Function.update h.unwritten hb true
          pending := Function.update h.pending r.unitNumber (some (h.bufs.mem r.pBuffer)) } := by
        unfold History.mark
        rw [if_pos inside, Buffers.name_of_get get]
        simp [Buffers.ptr, get]
      rw [marked]
      exact IsFaithful.settle log after
  | flush hb =>
    cases returns
    obtain ⟨new, log, after⟩ := Faithful.flush faithful answers hb
    exact IsFaithful.settle log after
  | store hb b =>
    cases returns
    exact Faithful.store faithful hb b

/-- In every run of guarded calls, whatever the callbacks answer, a guarded `alloc` is safe. -/
theorem alloc_safe (writeBack : Bool) (info : FsInfo) (dev mem : Nat → B) (positive : 0 < info.unitSize)
    (run : Reach (fun h (call : Request B × Answers B) => step call.2 h call.1) (fun h call => h.Guarded call.2 call.1)
      (start writeBack info dev mem) h) (answers : Answers B) (u : Nat) (guarded : h.Guarded answers (.alloc u 0)) :
    h.AllocSafe answers u := by
  have first : (start writeBack info dev mem).IsFaithful := Faithful.start writeBack dev mem positive
  have faithful : h.IsFaithful := run.invariant first fun _ _ _ before guarded returns => before.step guarded returns
  exact faithful.allocSafe guarded

/-- A volume of two units; the content of a unit is its number. -/
def numbered : History Nat := start false ⟨512, 1, 2⟩ (fun sector => sector) fun _ => 7

/-- A read that fails and leaves 99 in the buffer. -/
def badRead : Answers Nat := ⟨fun _ => true, some 99, fun _ => none⟩

/-- A read that fails into the buffer of an unused record does no harm. -/
theorem alloc_safe_after_one :
    ∃ h : History Nat, Reach (fun h (call : Request Nat × Answers Nat) => step call.2 h call.1)
      (fun h call => h.Guarded call.2 call.1) numbered h ∧ h.bufs.map ≠ [] ∧ h.AllocSafe badRead 1 := by
  have run : (step Answers.fine numbered (.alloc 0 1)).map (fun h => decide (h.bufs.map ≠ [] ∧
      Buffers.scan 1 h.bufs.map 0 none = .missing (some 1) ∧ h.bufs.map[1]? = some Record.unused ∧
      1 * h.bufs.info.unitSize < 2 ^ 32)) = some true := by
    decide +kernel
  obtain ⟨h, returns, facts⟩ := Option.map_eq_some_iff.mp run
  obtain ⟨present, miss, second, low⟩ := of_decide_eq_true facts
  have first : numbered.Guarded Answers.fine (.alloc 0 1) := by
    refine ⟨by decide, fun _ => by decide, fun present => absurd rfl present, fun i r get => ?_⟩
    cases get
  have reach : Reach (fun h (call : Request Nat × Answers Nat) => step call.2 h call.1)
      (fun h call => h.Guarded call.2 call.1) numbered h := (Reach.refl numbered).snoc (a := (.alloc 0 1, Answers.fine)) first returns
  have guarded : h.Guarded badRead (.alloc 1 0) := by
    refine ⟨by decide, fun _ => low, fun _ full => ?_, fun i r get free named => ?_⟩
    · rw [miss] at full
      cases full
    · rw [miss] at free
      cases free
      rw [second] at get
      cases get
      exact absurd rfl named
  exact ⟨h, reach, present, alloc_safe false ⟨512, 1, 2⟩ _ _ (by decide) reach badRead 1 guarded⟩

/-- A unit is taken and given back, the read of another one fails: the buffer of the first unit has other bytes than
the device, and nothing is owed to it. -/
theorem failed_read_is_returned :
    ∃ h : History Nat, Reach (fun h (call : Request Nat × Answers Nat) => step call.2 h call.1) (fun _ _ => True) numbered h ∧
      ¬ h.AllocSafe Answers.fine 0 := by
  have run : (runAll (fun h (call : Request Nat × Answers Nat) => step call.2 h call.1) (fun _ _ => True) numbered
      [(.alloc 0 1, Answers.fine), (.free 0, Answers.fine), (.alloc 1 1, badRead)]).map (fun h =>
        (h.bufs.alloc Answers.fine 0 1).any fun out => decide (out.1 = some 0 ∧
          out.2.map[0]? = some ⟨2, 0, 1, false⟩ ∧ out.2.mem 2 = 99 ∧
          (h.given out.2 0 0).pending 0 = none ∧ out.2.dev (out.2.info.sector 0) = 0)) = some true := by decide +kernel
  obtain ⟨h, reached, facts⟩ := Option.map_eq_some_iff.mp run
  refine ⟨h, Reach.of_runAll _ reached, fun safe => ?_⟩
  obtain ⟨⟨hb, s⟩, call, facts⟩ := (Option.any_eq_true _ _).mp facts
  obtain ⟨first, record, bytes, nothing, unit⟩ := of_decide_eq_true facts
  cases first
  obtain ⟨r, get, -, same⟩ := safe.bytes 1 0 s call
  rw [record] at get
  cases get
  rw [bytes, nothing, unit] at same
  cases same

/-- While no memory is granted a full map is searched again without end. -/
theorem alloc_hangs {u : Nat} (present : s.map ≠ []) (full : Buffers.scan u s.map 0 none = .missing none)
    (refused : ∀ k, answers.memory k = false) (passes : Nat) : s.alloc answers u passes = none := by
  have loop : ∀ (passes : Nat) (t : Buffers B) (k : Nat), t.map = s.map → Buffers.allocLoop answers u passes t k = none := by
    intro passes
    induction passes with
    | zero => exact fun _ _ _ => rfl
    | succ passes ih =>
      intro t k same
      simp only [Buffers.allocLoop, same, if_neg present, full, refused, Buffers.initBufferMap]
      split
      · exact ih t.fail (k + 1) same
      · rfl
  unfold Buffers.alloc
  rw [if_neg present]
  exact loop passes s 0 rfl

end History

end PreTeO.Fs
