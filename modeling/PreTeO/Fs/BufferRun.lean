import PreTeO.Fs.BufferAlloc

/-!
# Runs of buffer calls

The callers of `cFSBuffer` are kept track of with history variables: how often each handle was given out and
given back, which records were marked by `write` and not yet transferred to the device, and what bytes each
unit owes to its callers. Whole runs of calls are looked at, with every memory request and every transfer
succeeding.
-/

namespace PreTeO.Fs
set_option autoImplicit false
open PreTeO.Lib

variable {B : Type}

/-- A context together with what its callers did. -/
structure History (B : Type) where
  bufs : Buffers B
  allocs : Nat → Nat
  frees : Nat → Nat
  unwritten : Nat → Bool
  pending : Nat → Option B

/-- The calls; `store` is the change a caller makes through the pointer of a handle. -/
inductive Request (B : Type) where
  | alloc (unitNumber passes : Nat)
  | free (hb : Nat)
  | write (hb : Nat)
  | flush (hb : Option Nat)
  | store (hb : Nat) (b : B)

/-- The unit and the heap block of a record. -/
def Buffers.name (s : Buffers B) (hb : Nat) : Nat × Nat :=
  match s.map[hb]? with
  | some r => (r.unitNumber, r.pBuffer)
  | none => (invalidUnitNumber, 0)

namespace History

/-- Nothing was called yet. -/
def start (writeBack : Bool) (info : FsInfo) (dev mem : Nat → B) : History B :=
  ⟨Buffers.start writeBack info dev mem, fun _ => 0, fun _ => 0, fun _ => false, fun _ => none⟩

/-- The transfers made since. -/
def transfers (h : History B) (s : Buffers B) : List (Nat × Nat) := s.log.drop h.bufs.log.length

/-- After a call that may have written records back: what reached the device is owed no longer. -/
def settle (h : History B) (s : Buffers B) : History B :=
  { h with
    bufs := s
    unwritten := fun hb => h.unwritten hb && !(h.transfers s).contains (s.name hb)
    pending := fun u => if (h.transfers s).any (·.1 == u) then none else h.pending u }

/-- A record is marked: its bytes are owed to its unit. -/
def mark (h : History B) (hb : Nat) : History B :=
  if hb < h.bufs.map.length then
    { h with
      unwritten := Function.update h.unwritten hb true
      pending := Function.update h.pending (h.bufs.name hb).1 (some (h.bufs.mem (h.bufs.ptr hb))) }
  else h

/-- A handle was given out. The bytes of the unit its record named before, if another, are gone. -/
def given (h : History B) (s : Buffers B) (u hb : Nat) : History B :=
  { h with
    bufs := s
    allocs := Function.update h.allocs hb (h.allocs hb + 1)
    pending := if (h.bufs.name hb).1 = u then h.pending else Function.update h.pending (h.bufs.name hb).1 none }

/-- One call, with the answers its callbacks get. -/
def step (answers : Answers B) (h : History B) : Request B → Option (History B)
  | .alloc u passes =>
    match h.bufs.alloc answers u passes with
    | none => none
    | some (none, s) => some { h with bufs := s }
    | some (some hb, s) => some (h.given s u hb)
  | .free hb =>
    some { h.settle (h.bufs.free answers hb) with frees := Function.update h.frees hb (h.frees hb + 1) }
  | .write hb => some ((h.mark hb).settle (h.bufs.write answers hb))
  | .flush hb => some (h.settle (h.bufs.flush answers hb))
  | .store hb b =>
    some { h with
      bufs := h.bufs.store hb b
      pending := if h.bufs.ptr hb = 0 then h.pending else Function.update h.pending (h.bufs.name hb).1 (some b) }

/-- Units lie in the volume, and no unit is taken while its usage counter stands at its last value. -/
def Counted (h : History B) : Request B → Prop
  | .alloc u _ => u < h.bufs.info.nunits ∧ ∀ r ∈ h.bufs.map, r.unitNumber = u → r.uc + 1 < 2 ^ 31
  | _ => True

instance (h : History B) (request : Request B) : Decidable (h.Counted request) :=
  match request with
  | .alloc _ _ => inferInstanceAs (Decidable (_ ∧ _))
  | .free _ | .write _ | .flush _ | .store _ _ => .isTrue trivial

/-- The handle is held: it was given out more often than given back. -/
def Held (h : History B) (hb : Nat) : Prop := h.frees hb < h.allocs hb

instance (h : History B) (hb : Nat) : Decidable (h.Held hb) := inferInstanceAs (Decidable (_ < _))

/-- What holds in a state: the records are in order, and a held handle is what `alloc` returns for its unit. -/
structure Orderly (h : History B) : Prop where
  ordered : Ordered h.bufs.map
  held : ∀ hb, h.Held hb → ∃ r, h.bufs.map[hb]? = some r ∧ r.Named ∧
    ∀ passes, ∃ s, h.bufs.alloc Answers.fine r.unitNumber (passes + 1) = some (some hb, s)

/-- What holds across a call: a held handle keeps its unit and its buffer, and a record that was marked and not
transferred since keeps its unit. -/
structure Keeps (h h' : History B) : Prop where
  held : ∀ hb r, h.Held hb → h.bufs.map[hb]? = some r →
    ∃ r', h'.bufs.map[hb]? = some r' ∧ r'.unitNumber = r.unitNumber ∧ r'.pBuffer = r.pBuffer
  marked : ∀ hb r, h.unwritten hb = true → h.bufs.map[hb]? = some r →
    ∃ r', h'.bufs.map[hb]? = some r' ∧ r'.unitNumber = r.unitNumber

end History

/-! ## Writing back -/

namespace Buffers

variable {s t : Buffers B} {answers : Answers B}

/-- Some records were written back: a mark is gone only where a transfer was made. -/
structure Written (s s' : Buffers B) : Prop where
  length : s'.map.length = s.map.length
  records : ∀ (j : Nat) (r : Record), s.map[j]? = some r →
    ∃ r', s'.map[j]? = some r' ∧ r'.unitNumber = r.unitNumber ∧ r'.pBuffer = r.pBuffer ∧ r'.uc = r.uc
  log : ∃ new, s'.log = s.log ++ new ∧ ∀ (j : Nat) (r r' : Record), s.map[j]? = some r → s'.map[j]? = some r' →
    r.wf = true → r'.wf = true ∨ (r.unitNumber, r.pBuffer) ∈ new
  info : s'.info = s.info
  next : s'.next = s.next

theorem Written.refl (s : Buffers B) : Written s s := by
  refine ⟨rfl, fun j r get => ⟨r, get, rfl, rfl, rfl⟩, ⟨[], by simp, ?_⟩, rfl, rfl⟩
  intro j r r' get get' marked
  rw [get] at get'
  cases get'
  exact Or.inl marked

theorem Written.trans {v : Buffers B} (first : Written s t) (second : Written t v) : Written s v := by
  obtain ⟨new, log, cleared⟩ := first.log
  obtain ⟨new', log', cleared'⟩ := second.log
  refine ⟨second.length.trans first.length, ?_, ⟨new ++ new', by rw [log', log, List.append_assoc], ?_⟩,
    second.info.trans first.info, second.next.trans first.next⟩
  · intro j r get
    obtain ⟨r₁, get, unit, buffer, uses⟩ := first.records j r get
    obtain ⟨r₂, get, unit', buffer', uses'⟩ := second.records j r₁ get
    exact ⟨r₂, get, unit'.trans unit, buffer'.trans buffer, uses'.trans uses⟩
  · intro j r r' get get' marked
    obtain ⟨r₁, between, unit, buffer, -⟩ := first.records j r get
    rcases cleared j r r₁ get between marked with still | gone
    · rcases cleared' j r₁ r' between get' still with still | gone
      · exact Or.inl still
      · rw [unit, buffer] at gone
        exact Or.inr (List.mem_append_right _ gone)
    · exact Or.inr (List.mem_append_left _ gone)

/-- Names and counters of a record are those it had before. -/
theorem Written.back (written : Written s t) {j : Nat} {r' : Record} (get' : t.map[j]? = some r') :
    ∃ r, s.map[j]? = some r ∧ r'.unitNumber = r.unitNumber ∧ r'.pBuffer = r.pBuffer ∧ r'.uc = r.uc := by
  have bound := (List.getElem?_eq_some_iff.mp get').1
  rw [written.length] at bound
  obtain ⟨r₁, found, names⟩ := written.records j _ (List.getElem?_eq_getElem bound)
  rw [get'] at found
  cases found
  exact ⟨_, List.getElem?_eq_getElem bound, names⟩

theorem Written.ordered (written : Written s t) (ordered : Ordered s.map) : Ordered t.map := by
  refine ordered.congr fun j r' get' => ?_
  obtain ⟨r, get, unit, buffer, -⟩ := written.back get'
  exact ⟨r, get, unit, buffer⟩

/-- The write back of one record does nothing, fails, or transfers the buffer and clears the mark. -/
theorem flushRecord_cases (s : Buffers B) (answers : Answers B) (i : Nat) :
    s.flushRecord answers i = s ∨
      (∃ r b, s.map[i]? = some r ∧ r.wf = true ∧
        s.flushRecord answers i = { s with dev := Function.update s.dev (s.info.sector r.unitNumber) b }) ∨
      (∃ r, s.map[i]? = some r ∧ r.wf = true ∧ r.unitNumber < s.info.nunits ∧
        s.flushRecord answers i = { s with
          map := s.map.modify i Record.clean
          dev := Function.update s.dev (s.info.sector r.unitNumber) (s.mem r.pBuffer)
          log := s.log ++ [(r.unitNumber, r.pBuffer)] }) := by
  unfold flushRecord
  cases get : s.map[i]? with
  | none => exact Or.inl rfl
  | some r =>
    by_cases marked : r.wf = true
    · simp only [marked, if_true, fsUnitWrite]
      by_cases inside : r.unitNumber < s.info.nunits
      · simp only [if_pos inside]
        cases answers.write r.unitNumber with
        | none => exact Or.inr (Or.inr ⟨r, rfl, marked, inside, rfl⟩)
        | some b => exact Or.inr (Or.inl ⟨r, b, rfl, marked, rfl⟩)
      · simp only [if_neg inside]
        exact Or.inl trivial
    · simp only [if_neg marked]
      exact Or.inl trivial

theorem flushRecord_written (s : Buffers B) (answers : Answers B) (i : Nat) : Written s (s.flushRecord answers i) := by
  rcases flushRecord_cases s answers i with same | ⟨r, b, -, -, failed⟩ | ⟨r, at_i, -, -, done⟩
  · rw [same]
    exact Written.refl s
  · rw [failed]
    exact ⟨rfl, (Written.refl s).records, (Written.refl s).log, rfl, rfl⟩
  · rw [done]
    refine ⟨List.length_modify .., ?_, ⟨_, rfl, ?_⟩, rfl, rfl⟩
    · intro j r' get
      simp only [List.getElem?_modify, get]
      split
      · exact ⟨r'.clean, rfl, rfl, rfl, rfl⟩
      · exact ⟨r', rfl, rfl, rfl, rfl⟩
    · intro j r₀ r' get get' marked
      simp only [List.getElem?_modify, get] at get'
      split at get'
      · next here =>
        subst here
        rw [at_i] at get
        cases get
        exact Or.inr (List.mem_singleton.mpr rfl)
      · cases get'
        exact Or.inl marked

theorem flushFrom_written (answers : Answers B) (n i : Nat) (s : Buffers B) : Written s (flushFrom answers n i s) := by
  induction n generalizing i s with
  | zero => exact Written.refl s
  | succ n ih => exact (flushRecord_written s answers i).trans (ih (i + 1) _)

theorem flush_written (s : Buffers B) (answers : Answers B) (hb : Option Nat) : Written s (s.flush answers hb) := by
  cases hb with
  | none => exact flushFrom_written answers _ _ s
  | some hb => exact flushRecord_written s answers hb

theorem modify_get {i j : Nat} {f : Record → Record} {r : Record} (get : s.map[j]? = some r) :
    (s.modify i f).map[j]? = some (if i = j then f r else r) := by
  simp only [modify, List.getElem?_modify, get]
  split <;> rfl

theorem modify_back {i j : Nat} {f : Record → Record} {r' : Record} (get : (s.modify i f).map[j]? = some r') :
    ∃ r, s.map[j]? = some r ∧ r' = if i = j then f r else r := by
  simp only [modify, List.getElem?_modify] at get
  obtain ⟨r, get, change⟩ := Option.map_eq_some_iff.mp get
  refine ⟨r, get, ?_⟩
  rw [← change]

/-- Counters and flags are not part of a name. -/
theorem name_modify (s : Buffers B) (i : Nat) {f : Record → Record}
    (keeps : ∀ r, (f r).unitNumber = r.unitNumber ∧ (f r).pBuffer = r.pBuffer) : (s.modify i f).name = s.name := by
  funext j
  simp only [name, modify, List.getElem?_modify]
  cases s.map[j]? with
  | none => rfl
  | some r =>
    by_cases here : i = j
    · simp [here, (keeps r).1, (keeps r).2]
    · simp [here]

/-- The records stay in place with their units and buffers. -/
def SameNames (s t : Buffers B) : Prop := ∀ (j : Nat) (r : Record), s.map[j]? = some r →
  ∃ r', t.map[j]? = some r' ∧ r'.unitNumber = r.unitNumber ∧ r'.pBuffer = r.pBuffer

theorem SameNames.trans {v : Buffers B} (first : SameNames s t) (second : SameNames t v) : SameNames s v := by
  intro j r get
  obtain ⟨r₁, get, unit, buffer⟩ := first j r get
  obtain ⟨r₂, get, unit', buffer'⟩ := second j r₁ get
  exact ⟨r₂, get, unit'.trans unit, buffer'.trans buffer⟩

theorem Written.names (written : Written s t) : SameNames s t := by
  intro j r get
  obtain ⟨r', get', unit, buffer, -⟩ := written.records j r get
  exact ⟨r', get', unit, buffer⟩

theorem modify_sameNames (s : Buffers B) (i : Nat) {f : Record → Record}
    (keeps : ∀ r, (f r).unitNumber = r.unitNumber ∧ (f r).pBuffer = r.pBuffer) : SameNames s (s.modify i f) := by
  intro j r get
  refine ⟨_, modify_get get, ?_⟩
  split
  · exact keeps r
  · exact ⟨rfl, rfl⟩

/-- `free` of a handle is a write back, then the counter. -/
theorem free_eq (s : Buffers B) (answers : Answers B) (hb : Nat) :
    ∃ t, s.Written t ∧ (s.free answers hb = t.modify hb Record.release) := by
  unfold free
  split
  · next outside =>
    refine ⟨s, Written.refl s, ?_⟩
    unfold modify
    rw [List.modify_eq_self (List.getElem?_eq_none_iff.mp outside)]
  · next r get =>
    split
    · next idle =>
      refine ⟨s, Written.refl s, ?_⟩
      have unchanged : s.map.modify hb Record.release = s.map := by
        refine List.ext_getElem? fun j => ?_
        rw [List.getElem?_modify]
        split
        · next here =>
          subst here
          have same : r.release = r := by
            cases r
            simp_all [Record.release]
          simp [get, same]
        · simp
      unfold modify
      rw [unchanged]
    · refine ⟨_, ?_, rfl⟩
      split
      · exact Written.refl s
      · exact flushRecord_written s answers hb

/-- `write` of a handle is the mark, then a write back. -/
theorem write_written (s : Buffers B) (answers : Answers B) (hb : Nat) :
    (s.modify hb Record.mark).Written (s.write answers hb) := by
  unfold write
  split
  · next outside =>
    have : s.modify hb Record.mark = s := by
      unfold modify
      rw [List.modify_eq_self (List.getElem?_eq_none_iff.mp outside)]
    rw [this]
    exact Written.refl s
  · dsimp only
    split
    · exact Written.refl _
    · exact flushRecord_written _ answers hb

theorem name_of_get {j : Nat} {r : Record} (get : s.map[j]? = some r) : s.name j = (r.unitNumber, r.pBuffer) := by
  simp [name, get]

end Buffers

/-! ## The invariant of a run -/

namespace History

variable {h h' : History B} {s : Buffers B} {answers : Answers B}

/-- Every handle that is out is counted by its record, and every mark is still on its record. -/
structure Tracked (h : History B) : Prop where
  ordered : Ordered h.bufs.map
  positive : 0 < h.bufs.next
  bounded : h.bufs.info.nunits < 2 ^ 32
  counted : ∀ (j : Nat) (r : Record), h.bufs.map[j]? = some r → h.allocs j ≤ h.frees j + r.uc
  beyond : ∀ j, h.bufs.map.length ≤ j → h.allocs j ≤ h.frees j
  used : ∀ (j : Nat) (r : Record), h.bufs.map[j]? = some r → r.uc ≠ 0 → r.Named
  marked : ∀ j, h.unwritten j = true → ∃ r, h.bufs.map[j]? = some r ∧ r.wf = true

theorem tracked_start (writeBack : Bool) {info : FsInfo} (dev mem : Nat → B) (bounded : info.nunits < 2 ^ 32) :
    (start writeBack info dev mem).Tracked := by
  refine ⟨Ordered.nil, Nat.zero_lt_one, bounded, ?_, fun _ _ => le_refl _, ?_, ?_⟩
  · intro j r get
    cases get
  · intro j r get
    cases get
  · intro j marked
    cases marked

/-- A write back keeps the handles tracked. -/
theorem Tracked.settle (tracked : h.Tracked) (written : h.bufs.Written s) : (h.settle s).Tracked := by
  obtain ⟨new, log, cleared⟩ := written.log
  refine ⟨written.ordered tracked.ordered, ?_, ?_, ?_, ?_, ?_, ?_⟩
  · change 0 < s.next
    rw [written.next]
    exact tracked.positive
  · change s.info.nunits < 2 ^ 32
    rw [written.info]
    exact tracked.bounded
  · intro j r' get'
    obtain ⟨r, get, -, -, uses⟩ := written.back get'
    rw [uses]
    exact tracked.counted j r get
  · intro j outside
    change s.map.length ≤ j at outside
    rw [written.length] at outside
    exact tracked.beyond j outside
  · intro j r' get' inUse
    obtain ⟨r, get, unit, -, uses⟩ := written.back get'
    unfold Record.Named
    rw [unit]
    exact tracked.used j r get (by rwa [← uses])
  · intro j owed
    simp only [History.settle, transfers, log, List.drop_left, Bool.and_eq_true, Bool.not_eq_true'] at owed
    obtain ⟨r, get, wf⟩ := tracked.marked j owed.1
    obtain ⟨r', get', unit, buffer, -⟩ := written.records j r get
    refine ⟨r', get', ?_⟩
    rcases cleared j r r' get get' wf with still | gone
    · exact still
    · have missed := owed.2
      rw [Buffers.name_of_get get', unit, buffer] at missed
      rw [List.contains_iff_mem.mpr gone] at missed
      cases missed

/-- Nothing moves when the records keep their units and buffers. -/
theorem Keeps.of_names (names : h.bufs.SameNames h'.bufs) : Keeps h h' := by
  constructor
  · intro hb r held get
    exact names hb r get
  · intro hb r owed get
    obtain ⟨r', get', unit, -⟩ := names hb r get
    exact ⟨r', get', unit⟩

/-- Settling looks at the names and the log only. -/
theorem settle_modify (h : History B) (s : Buffers B) (i : Nat) {f : Record → Record}
    (keeps : ∀ r, (f r).unitNumber = r.unitNumber ∧ (f r).pBuffer = r.pBuffer) :
    h.settle (s.modify i f) = { h.settle s with bufs := s.modify i f } := by
  unfold History.settle
  rw [Buffers.name_modify s i keeps]
  rfl

/-- A mark on one record. -/
theorem Tracked.mark (tracked : h.Tracked) (hb : Nat) :
    Tracked { h.mark hb with bufs := h.bufs.modify hb Record.mark } := by
  have counts : (h.mark hb).allocs = h.allocs ∧ (h.mark hb).frees = h.frees := by
    unfold History.mark
    split <;> exact ⟨rfl, rfl⟩
  refine ⟨tracked.ordered.modify_names hb (fun r => ⟨rfl, rfl⟩), tracked.positive, tracked.bounded, ?_, ?_, ?_, ?_⟩
  · intro j r' get'
    obtain ⟨r, get, rfl⟩ := Buffers.modify_back get'
    have := tracked.counted j r get
    simp only [counts.1, counts.2]
    split <;> exact this
  · intro j outside
    simp only [counts.1, counts.2]
    exact tracked.beyond j (by simpa [Buffers.modify] using outside)
  · intro j r' get' inUse
    obtain ⟨r, get, rfl⟩ := Buffers.modify_back get'
    have := tracked.used j r get
    split at inUse <;> simp_all [Record.Named, Record.mark]
  · intro j owed
    have kept : ∀ {r : Record}, h.bufs.map[j]? = some r → (hb ≠ j → r.wf = true) →
        ∃ r', (h.bufs.modify hb Record.mark).map[j]? = some r' ∧ r'.wf = true := by
      intro r get wf
      refine ⟨_, Buffers.modify_get get, ?_⟩
      split
      · rfl
      · next differ => exact wf differ
    by_cases here : j = hb
    · subst here
      simp only [History.mark] at owed
      split at owed
      · next inside => exact kept (List.getElem?_eq_getElem inside) (fun differ => absurd rfl differ)
      · obtain ⟨r, get, wf⟩ := tracked.marked j owed
        exact kept get fun _ => wf
    · have before : h.unwritten j = true := by
        unfold History.mark at owed
        split at owed
        · simpa [Function.update, here] using owed
        · exact owed
      obtain ⟨r, get, wf⟩ := tracked.marked j before
      exact kept get fun _ => wf

theorem mark_log (h : History B) (hb : Nat) : (h.mark hb).bufs = h.bufs := by
  unfold History.mark
  split <;> rfl

/-- `write` keeps the handles tracked. -/
theorem Tracked.write (tracked : h.Tracked) (answers : Answers B) (hb : Nat) :
    ((h.mark hb).settle (h.bufs.write answers hb)).Tracked := by
  have marked := tracked.mark hb
  have same : ∀ s : Buffers B, (h.mark hb).settle s =
      History.settle { h.mark hb with bufs := h.bufs.modify hb Record.mark } s := by
    intro s
    simp only [History.settle, transfers, mark_log]
    rfl
  rw [same]
  exact marked.settle (Buffers.write_written h.bufs answers hb)

/-- A user less on one record, and one more that was given back. -/
theorem Tracked.release (tracked : h.Tracked) (hb : Nat) :
    Tracked { h with
      bufs := h.bufs.modify hb Record.release
      frees := Function.update h.frees hb (h.frees hb + 1) } := by
  have more : ∀ j, h.frees j ≤ Function.update h.frees hb (h.frees hb + 1) j := by
    intro j
    by_cases here : j = hb
    · subst here
      simp
    · simp [here]
  refine ⟨tracked.ordered.modify_names hb (fun r => ⟨rfl, rfl⟩), tracked.positive, tracked.bounded, ?_, ?_, ?_, ?_⟩
  · intro j r' get'
    obtain ⟨r, get, rfl⟩ := Buffers.modify_back get'
    have := tracked.counted j r get
    by_cases here : hb = j
    · subst here
      simp only [if_true, Function.update_self, Record.release]
      omega
    · simp only [if_neg here, Function.update_of_ne (Ne.symm here)]
      exact this
  · intro j outside
    exact (tracked.beyond j (by simpa [Buffers.modify] using outside)).trans (more j)
  · intro j r' get' inUse
    obtain ⟨r, get, rfl⟩ := Buffers.modify_back get'
    have named := tracked.used j r get
    by_cases here : hb = j
    · simp only [if_pos here] at inUse ⊢
      exact named fun zero => inUse (by simp [Record.release, zero])
    · simp only [if_neg here] at inUse ⊢
      exact named inUse
  · intro j owed
    obtain ⟨r, get, wf⟩ := tracked.marked j owed
    refine ⟨_, Buffers.modify_get get, ?_⟩
    split <;> exact wf

/-- `free` keeps the handles tracked. -/
theorem Tracked.free (tracked : h.Tracked) (answers : Answers B) (hb : Nat) :
    Tracked { h.settle (h.bufs.free answers hb) with frees := Function.update h.frees hb (h.frees hb + 1) } := by
  obtain ⟨t, written, same⟩ := Buffers.free_eq h.bufs answers hb
  rw [same, settle_modify h t hb (f := Record.release) (fun r => ⟨rfl, rfl⟩)]
  exact (tracked.settle written).release hb

/-- A unit of the volume is not the number that stands for none. -/
theorem Tracked.valid (tracked : h.Tracked) {u : Nat} (inside : u < h.bufs.info.nunits) : u ≠ invalidUnitNumber := by
  have := tracked.bounded
  unfold invalidUnitNumber
  omega

/-- `alloc` of a unit of the volume keeps the handles tracked. -/
theorem Tracked.alloc (tracked : h.Tracked) {u passes : Nat} (inside : u < h.bufs.info.nunits)
    (room : ∀ r ∈ h.bufs.map, r.unitNumber = u → r.uc + 1 < 2 ^ 31) {result : Option Nat} {s : Buffers B}
    (returns : h.bufs.alloc answers u passes = some (result, s)) {pending : Nat → Option B} {allocs : Nat → Nat}
    (given : ∀ j, allocs j = h.allocs j + if result = some j then 1 else 0) :
    Tracked { h with bufs := s, allocs := allocs, pending := pending } := by
  have valid := tracked.valid inside
  obtain ⟨t, grown, -, done⟩ := Buffers.alloc_cases tracked.ordered valid returns
  have positive : 0 < t.next := lt_of_lt_of_le tracked.positive grown.next
  refine ⟨done.ordered (grown.ordered tracked.ordered) valid positive, ?_, ?_, ?_, ?_, ?_, ?_⟩
  · exact lt_of_lt_of_le positive done.next
  · rw [done.info, grown.info]
    exact tracked.bounded
  · intro j r' get'
    obtain ⟨r, get⟩ := done.back get'
    obtain ⟨r₁, found, -, uses, -, -, hit⟩ := done.record get
    rw [get'] at found
    cases found
    change allocs j ≤ h.frees j + r'.uc
    rw [given, uses]
    rcases grown.back get with old | ⟨outside, rfl⟩
    · have := tracked.counted j r old
      split
      · next here =>
        rcases hit here with same | idle
        · have := room r (List.mem_of_getElem? old) same
          rw [Nat.mod_eq_of_lt this]
          omega
        · rw [idle.1] at this ⊢
          omega
      · omega
    · have := tracked.beyond j outside
      split
      · rw [Nat.mod_eq_of_lt (by decide)]
        omega
      · omega
  · intro j outside
    change s.map.length ≤ j at outside
    have other : result ≠ some j := by
      rintro rfl
      obtain ⟨r, get⟩ := done.index rfl
      have := (List.getElem?_eq_some_iff.mp get).1
      rw [← done.length] at this
      omega
    change allocs j ≤ h.frees j
    rw [given, if_neg other]
    refine tracked.beyond j (le_trans ?_ outside)
    rw [done.length]
    exact grown.length
  · intro j r' get' inUse
    obtain ⟨r, get⟩ := done.back get'
    obtain ⟨r₁, found, -, uses, names, unit, -⟩ := done.record get
    rw [get'] at found
    cases found
    unfold Record.Named
    by_cases here : result = some j
    · rw [unit here]
      exact valid
    · rw [uses, if_neg here] at inUse
      rw [(names fun idle => inUse idle.1).1]
      rcases grown.back get with old | ⟨-, rfl⟩
      · exact tracked.used j r old inUse
      · exact absurd rfl inUse
  · intro j owed
    obtain ⟨r, get, wf⟩ := tracked.marked j owed
    obtain ⟨r', get', same, -⟩ := done.record (grown.get get)
    exact ⟨r', get', same.trans wf⟩

/-- A held handle has a record with users. -/
theorem Tracked.held (tracked : h.Tracked) {hb : Nat} (held : h.Held hb) :
    ∃ r, h.bufs.map[hb]? = some r ∧ r.uc ≠ 0 := by
  unfold Held at held
  cases get : h.bufs.map[hb]? with
  | none =>
    have := tracked.beyond hb (List.getElem?_eq_none_iff.mp get)
    omega
  | some r =>
    have := tracked.counted hb r get
    exact ⟨r, rfl, by omega⟩

/-- A tracked state is orderly. -/
theorem Tracked.orderly (tracked : h.Tracked) : h.Orderly := by
  refine ⟨tracked.ordered, fun hb held => ?_⟩
  obtain ⟨r, get, inUse⟩ := tracked.held held
  have named := tracked.used hb r get inUse
  refine ⟨r, get, named, fun passes => ?_⟩
  have some : h.bufs.map ≠ [] := by
    intro none
    rw [none] at get
    cases get
  refine ⟨h.bufs.modify hb Record.retain, ?_⟩
  simp only [Buffers.alloc, if_neg some, Buffers.allocLoop, Buffers.scan_named tracked.ordered get named,
    Buffers.allocFound, get, if_neg (tracked.ordered.buffered hb r get named)]

/-- `alloc` moves no record that is in use or waits to be written. -/
theorem Tracked.alloc_keeps (tracked : h.Tracked) {u passes : Nat} (inside : u < h.bufs.info.nunits)
    {result : Option Nat} {s : Buffers B} (returns : h.bufs.alloc answers u passes = some (result, s))
    (same : h'.bufs = s) : Keeps h h' := by
  obtain ⟨t, grown, -, done⟩ := Buffers.alloc_cases tracked.ordered (tracked.valid inside) returns
  subst same
  constructor
  · intro hb r held get
    obtain ⟨r₀, get₀, inUse⟩ := tracked.held held
    rw [get] at get₀
    cases get₀
    obtain ⟨r', get', -, -, names, -⟩ := done.record (grown.get get)
    exact ⟨r', get', names fun idle => inUse idle.1⟩
  · intro hb r owed get
    obtain ⟨r₀, get₀, wf⟩ := tracked.marked hb owed
    rw [get] at get₀
    cases get₀
    obtain ⟨r', get', -, -, names, -⟩ := done.record (grown.get get)
    refine ⟨r', get', (names fun idle => ?_).1⟩
    rw [idle.2] at wf
    cases wf

/-- Every call keeps the handles tracked and in place. -/
theorem Tracked.step (tracked : h.Tracked) {request : Request B} (counted : h.Counted request)
    (returns : step answers h request = some h') : h'.Tracked ∧ Keeps h h' := by
  cases request with
  | alloc u passes =>
    obtain ⟨inside, room⟩ := counted
    simp only [History.step] at returns
    split at returns
    · cases returns
    · next call =>
      cases returns
      exact ⟨tracked.alloc inside room call (fun j => by simp), tracked.alloc_keeps inside call rfl⟩
    · next hb s call =>
      cases returns
      refine ⟨tracked.alloc inside room call (fun j => ?_), tracked.alloc_keeps inside call rfl⟩
      by_cases here : j = hb
      · subst here
        simp
      · simp [here, Ne.symm here]
  | free hb =>
    cases returns
    obtain ⟨t, written, same⟩ := Buffers.free_eq h.bufs answers hb
    refine ⟨tracked.free answers hb, Keeps.of_names ?_⟩
    change h.bufs.SameNames (h.bufs.free answers hb)
    rw [same]
    exact written.names.trans (t.modify_sameNames hb fun r => ⟨rfl, rfl⟩)
  | write hb =>
    cases returns
    refine ⟨tracked.write answers hb, Keeps.of_names ?_⟩
    exact (h.bufs.modify_sameNames hb (f := Record.mark) fun r => ⟨rfl, rfl⟩).trans (h.bufs.write_written answers hb).names
  | flush hb =>
    cases returns
    have written := Buffers.flush_written h.bufs answers hb
    exact ⟨tracked.settle written, Keeps.of_names written.names⟩
  | store hb b =>
    cases returns
    have frame : (h.bufs.store hb b).map = h.bufs.map ∧ (h.bufs.store hb b).next = h.bufs.next ∧
        (h.bufs.store hb b).info = h.bufs.info := by
      unfold Buffers.store
      split <;> exact ⟨rfl, rfl, rfl⟩
    obtain ⟨map, next, info⟩ := frame
    refine ⟨?_, Keeps.of_names ?_⟩
    · constructor
      · rw [map]
        exact tracked.ordered
      · rw [next]
        exact tracked.positive
      · rw [info]
        exact tracked.bounded
      · rw [map]
        exact tracked.counted
      · rw [map]
        exact tracked.beyond
      · rw [map]
        exact tracked.used
      · rw [map]
        exact tracked.marked
    · intro j r get
      exact ⟨r, by rw [map]; exact get, rfl, rfl⟩

/-- The buffer map in every run of calls on units of the volume, with or without write back: the records are in
order, a handle that is out keeps its unit and its buffer and is what `alloc` returns for that unit, and a marked
record is not given to another unit before its buffer was transferred, as long as no usage counter overflows. -/
theorem handles_stay (writeBack : Bool) (info : FsInfo) (dev mem : Nat → B) (bounded : info.nunits < 2 ^ 32)
    (run : Reach (step Answers.fine) Counted (start writeBack info dev mem) h) :
    h.Orderly ∧ ∀ request h', h.Counted request → step Answers.fine h request = some h' → Keeps h h' := by
  have tracked : h.Tracked := run.invariant (tracked_start writeBack dev mem bounded)
    fun _ _ _ before counted returns => (before.step counted returns).1
  exact ⟨tracked.orderly, fun request h' counted returns => (tracked.step counted returns).2⟩

/-- A volume of two units of one sector, without content. -/
def twoUnits : FsInfo := ⟨512, 1, 2⟩

/-- Two units taken, the first one marked and given back: the second handle is still out. -/
theorem handles_stay_second :
    ∃ h : History Unit, Reach (step Answers.fine) Counted (start true twoUnits (fun _ => ()) fun _ => ()) h ∧
      h.Held 1 ∧ h.Orderly ∧
        ∀ request h', h.Counted request → step Answers.fine h request = some h' → Keeps h h' := by
  have run : (runAll (step Answers.fine) Counted (start true twoUnits (fun _ => ()) fun _ => ())
      [.alloc 0 1, .alloc 1 1, .write 0, .free 0]).map
        (fun h => decide (h.Held 1)) = some true := by decide +kernel
  obtain ⟨h, reached, held⟩ := Option.map_eq_some_iff.mp run
  have reach := Reach.of_runAll _ reached
  exact ⟨h, reach, of_decide_eq_true held, handles_stay true twoUnits _ _ (by decide) reach⟩

/-- Units lie in the volume. -/
def InVolume (h : History B) : Request B → Prop
  | .alloc u _ => u < h.bufs.info.nunits
  | _ => True

instance (h : History B) (request : Request B) : Decidable (h.InVolume request) :=
  match request with
  | .alloc _ _ => inferInstanceAs (Decidable (_ < _))
  | .free _ | .write _ | .flush _ | .store _ _ => .isTrue trivial

/-- `n + 1` calls of `alloc` for unit 0 and nothing else. -/
theorem allocs_of_one_unit (n : Nat) :
    ∃ h : History Unit, Reach (step Answers.fine) InVolume (start false twoUnits (fun _ => ()) fun _ => ()) h ∧
      (∃ rest, h.bufs.map = ⟨2, 0, (n + 1) % 2 ^ 31, false⟩ :: Record.unused :: rest) ∧
      h.bufs.info = twoUnits ∧ h.allocs 0 = n + 1 ∧ h.frees 0 = 0 := by
  induction n with
  | zero =>
    have run : (runAll (step Answers.fine) InVolume (start false twoUnits (fun _ => ()) fun _ => ()) [.alloc 0 1]).map
        (fun h => decide (h.bufs.map = ⟨2, 0, 1, false⟩ :: Record.unused :: List.replicate 254 Record.unused ∧
          h.bufs.info = twoUnits ∧ h.allocs 0 = 1 ∧ h.frees 0 = 0)) = some true := by decide +kernel
    obtain ⟨h, reached, facts⟩ := Option.map_eq_some_iff.mp run
    obtain ⟨map, others⟩ := of_decide_eq_true facts
    exact ⟨h, Reach.of_runAll _ reached, ⟨_, map⟩, others⟩
  | succ n ih =>
    obtain ⟨h, reach, ⟨rest, map⟩, info, allocs, frees⟩ := ih
    have call : h.bufs.alloc Answers.fine 0 1 = some (some 0, h.bufs.modify 0 Record.retain) := by
      simp [Buffers.alloc, Buffers.allocLoop, map, Buffers.scan, Buffers.allocFound]
    have returns : step Answers.fine h (.alloc 0 1) = some (h.given (h.bufs.modify 0 Record.retain) 0 0) := by
      simp only [step, call]
    have inside : h.InVolume (.alloc 0 1) := by
      change 0 < h.bufs.info.nunits
      rw [info]
      decide
    refine ⟨_, reach.snoc inside returns, ⟨rest, ?_⟩, info, ?_, frees⟩
    · simp [given, Buffers.modify, map, Record.retain, Nat.add_assoc]
    · simp [given, allocs]

/-- After 2^31 calls of `alloc` for one unit its counter is back at zero, and the next unit takes its record. -/
theorem counter_overflows :
    ∃ (h h' : History Unit) (request : Request Unit),
      Reach (step Answers.fine) InVolume (start false twoUnits (fun _ => ()) fun _ => ()) h ∧ h.InVolume request ∧
        step Answers.fine h request = some h' ∧ ¬ Keeps h h' := by
  obtain ⟨h, reach, ⟨rest, map⟩, info, allocs, frees⟩ := allocs_of_one_unit (2 ^ 31 - 1)
  have idle : (2 ^ 31 - 1 + 1) % 2 ^ 31 = 0 := by norm_num
  rw [idle] at map
  have free : Buffers.scan 1 h.bufs.map 0 none = .missing (some 0) := by
    rw [map]
    rfl
  have call : ∃ s : Buffers Unit, h.bufs.alloc Answers.fine 1 1 = some (some 0, s) ∧
      s.map[0]? = some ⟨2, 1, 1, false⟩ := by
    refine ⟨(h.bufs.fillFree Answers.fine 1 0 2).2, ?_, ?_⟩
    · have present : h.bufs.map ≠ [] := by simp [map]
      have first : h.bufs.map[0]? = some ⟨2, 0, 0, false⟩ := by simp [map]
      simp only [Buffers.alloc, Buffers.allocLoop, if_neg present, free, Buffers.allocFree, first]
      simp [Buffers.fillFree, Buffers.fsUnitRead, info, twoUnits, Answers.fine]
    · simp [Buffers.fillFree, Buffers.fsUnitRead, info, twoUnits, Answers.fine, Buffers.modify, map, Record.retain]
  obtain ⟨s, call, taken⟩ := call
  refine ⟨h, h.given s 1 0, .alloc 1 1, reach, ?_, by simp only [step, call], fun keeps => ?_⟩
  · change 1 < h.bufs.info.nunits
    rw [info]
    decide
  · obtain ⟨r', get', unit, -⟩ := keeps.held 0 ⟨2, 0, 0, false⟩ (by unfold Held; rw [allocs, frees]; decide) (by rw [map]; rfl)
    change s.map[0]? = some r' at get'
    rw [taken] at get'
    cases get'
    cases unit

end History

end PreTeO.Fs
