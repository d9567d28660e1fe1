import PreTeO.Fs.BufferMap
import Mathlib.Data.List.Basic

/-!
# What `alloc` does to the buffer map

The scan of `alloc` stops at the first record that names no unit. It finds a unit, or tells that the unit has
no record, because the records are in order: each unit is named once and the unnamed records come last
(`Ordered`). `alloc_cases` says once what a returning call can do; every invariant is derived from it.
-/

namespace PreTeO.Fs
set_option autoImplicit false

variable {B : Type} {s t : Buffers B} {answers : Answers B} {u k : Nat}

/-- A record without users and without a pending write. -/
def Record.Idle (r : Record) : Prop := r.uc = 0 ∧ r.wf = false

instance (r : Record) : Decidable r.Idle := inferInstanceAs (Decidable (_ ∧ _))

/-- The record names a unit. -/
def Record.Named (r : Record) : Prop := r.unitNumber ≠ invalidUnitNumber

instance (r : Record) : Decidable r.Named := inferInstanceAs (Decidable (_ ≠ _))

/-- The order of the records. -/
structure Ordered (m : List Record) : Prop where
  once : ∀ (i j : Nat) (r r' : Record), m[i]? = some r → m[j]? = some r' → r.Named → r.unitNumber = r'.unitNumber → i = j
  last : ∀ (i j : Nat) (r r' : Record), m[i]? = some r → m[j]? = some r' → i ≤ j → r'.Named → r.Named
  buffered : ∀ (i : Nat) (r : Record), m[i]? = some r → r.Named → r.pBuffer ≠ 0

/-- No record names the unit. -/
def Absent (m : List Record) (u : Nat) : Prop := ∀ (i : Nat) (r : Record), m[i]? = some r → r.unitNumber ≠ u

/-! ## Ordered maps -/

namespace Ordered

variable {m : List Record}

theorem nil : Ordered [] := by
  constructor <;> simp

/-- Unused records at the end do not disturb the order. -/
theorem append_unused (ordered : Ordered m) (n : Nat) : Ordered (m ++ List.replicate n Record.unused) := by
  have inside : ∀ {i : Nat} {r : Record}, (m ++ List.replicate n Record.unused)[i]? = some r → r.Named → m[i]? = some r := by
    intro i r get named
    rw [List.getElem?_append] at get
    split at get
    · exact get
    · rw [List.getElem?_replicate] at get
      split at get
      · cases get
        exact absurd rfl named
      · cases get
  constructor
  · intro i j r r' first second named same
    have named' : r'.Named := by
      unfold Record.Named at named ⊢
      rwa [← same]
    exact ordered.once i j r r' (inside first named) (inside second named') named same
  · intro i j r r' first second below named
    have second := inside second named
    have bound := (List.getElem?_eq_some_iff.mp second).1
    rw [List.getElem?_append_left (by omega)] at first
    exact ordered.last i j r r' first second below named
  · intro i r get named
    exact ordered.buffered i r (inside get named) named

/-- The order depends on the units and the buffers of the records only. -/
theorem congr {m' : List Record} (ordered : Ordered m) (names : ∀ (j : Nat) (r : Record), m'[j]? = some r →
    ∃ r₀, m[j]? = some r₀ ∧ r.unitNumber = r₀.unitNumber ∧ r.pBuffer = r₀.pBuffer) : Ordered m' := by
  constructor
  · intro a b r r' first second named same
    obtain ⟨r₀, first, unit, -⟩ := names a r first
    obtain ⟨r₁, second, unit', -⟩ := names b r' second
    unfold Record.Named at named
    exact ordered.once a b r₀ r₁ first second (by rwa [unit] at named) (by rw [← unit, ← unit', same])
  · intro a b r r' first second below named
    obtain ⟨r₀, first, unit, -⟩ := names a r first
    obtain ⟨r₁, second, unit', -⟩ := names b r' second
    unfold Record.Named at named ⊢
    rw [unit]
    exact ordered.last a b r₀ r₁ first second below (by rwa [unit'] at named)
  · intro a r get named
    obtain ⟨r₀, get, unit, buffer⟩ := names a r get
    unfold Record.Named at named
    rw [buffer]
    exact ordered.buffered a r₀ get (by rwa [unit] at named)

/-- A change of counters and flags leaves the order as it is. -/
theorem modify_names (ordered : Ordered m) (i : Nat) {f : Record → Record}
    (keeps : ∀ r, (f r).unitNumber = r.unitNumber ∧ (f r).pBuffer = r.pBuffer) : Ordered (m.modify i f) := by
  refine ordered.congr fun j r get => ?_
  rw [List.getElem?_modify] at get
  obtain ⟨r₀, old, change⟩ := Option.map_eq_some_iff.mp get
  refine ⟨r₀, old, ?_⟩
  split at change
  · rw [← change]
    exact keeps r₀
  · rw [← change]
    exact ⟨rfl, rfl⟩

/-- A record takes a unit that no record names, with a buffer, when the records before it name units. -/
theorem take (ordered : Ordered m) {i block : Nat} (absent : Absent m u) (valid : u ≠ invalidUnitNumber)
    (earlier : ∀ (j : Nat) (r : Record), j < i → m[j]? = some r → r.Named) (block_ne : block ≠ 0) {f : Record → Record}
    (names : ∀ r, m[i]? = some r → (f r).unitNumber = u ∧ (f r).pBuffer = block) : Ordered (m.modify i f) := by
  have cases : ∀ {j : Nat} {r : Record}, (m.modify i f)[j]? = some r →
      (j = i ∧ r.unitNumber = u ∧ r.pBuffer = block) ∨ (j ≠ i ∧ m[j]? = some r) := by
    intro j r get
    rw [List.getElem?_modify] at get
    obtain ⟨r₀, old, change⟩ := Option.map_eq_some_iff.mp get
    split at change
    · next same =>
      rw [← change]
      exact Or.inl ⟨same.symm, names r₀ (by rw [same, old])⟩
    · next differ =>
      rw [← change]
      exact Or.inr ⟨fun same => differ same.symm, old⟩
  constructor
  · intro a b r r' first second named same
    rcases cases first with ⟨here, unit, -⟩ | ⟨-, old⟩ <;> rcases cases second with ⟨here', unit', -⟩ | ⟨-, old'⟩
    · exact here.trans here'.symm
    · exact absurd (same.symm.trans unit) (absent b r' old')
    · exact absurd (same.trans unit') (absent a r old)
    · exact ordered.once a b r r' old old' named same
  · intro a b r r' first second below named
    rcases cases first with ⟨-, unit, -⟩ | ⟨elsewhere, old⟩
    · unfold Record.Named
      rwa [unit]
    · rcases cases second with ⟨here, -, -⟩ | ⟨-, old'⟩
      · exact earlier a r (by omega) old
      · exact ordered.last a b r r' old old' below named
  · intro a r get named
    rcases cases get with ⟨-, -, buffer⟩ | ⟨-, get⟩
    · rw [buffer]
      exact block_ne
    · exact ordered.buffered a r get named

/-- An unnamed record may get a buffer. -/
theorem buffer_unnamed (ordered : Ordered m) {i : Nat} {r : Record} (get : m[i]? = some r) (unnamed : ¬ r.Named)
    (block : Nat) : Ordered (m.modify i fun r => { r with pBuffer := block }) := by
  have cases : ∀ {j : Nat} {r' : Record}, (m.modify i fun r => { r with pBuffer := block })[j]? = some r' →
      r'.Named → m[j]? = some r' := by
    intro j r' get' named
    rw [List.getElem?_modify] at get'
    obtain ⟨r₀, old, change⟩ := Option.map_eq_some_iff.mp get'
    split at change
    · next same =>
      subst same
      rw [get] at old
      cases old
      rw [← change] at named
      exact absurd named unnamed
    · rw [← change]
      exact old
  constructor
  · intro a b r r' first second named same
    have named' : r'.Named := by
      unfold Record.Named at named ⊢
      rwa [← same]
    exact ordered.once a b r r' (cases first named) (cases second named') named same
  · intro a b r r' first second below named
    have second := cases second named
    rw [List.getElem?_modify] at first
    obtain ⟨r₀, old, change⟩ := Option.map_eq_some_iff.mp first
    have := ordered.last a b r₀ r' old second below named
    split at change
    · rw [← change]
      exact this
    · rw [← change]
      exact this
  · intro a r get named
    exact ordered.buffered a r (cases get named) named

end Ordered

/-! ## The scan -/

namespace Buffers

/-- Every record before index `n` names a unit. -/
def NamedBefore (m : List Record) (n : Nat) : Prop := ∀ (l : Nat) (r : Record), l < n → m[l]? = some r → r.Named

theorem namedBefore_zero (m : List Record) : NamedBefore m 0 := fun _ _ below _ => absurd below (Nat.not_lt_zero _)

theorem namedBefore_cons {m : List Record} {r : Record} {n : Nat} :
    NamedBefore (r :: m) (n + 1) ↔ r.Named ∧ NamedBefore m n := by
  constructor
  · intro before
    exact ⟨before 0 r (by omega) rfl, fun l r' below get => before (l + 1) r' (by omega) get⟩
  · rintro ⟨named, before⟩ l r' below get
    cases l with
    | zero =>
      cases get
      exact named
    | succ l => exact before l r' (by omega) get

theorem note_some {r : Record} {i j : Nat} {hfree : Option Nat} (noted : note r i hfree = some j) :
    hfree = some j ∨ (j = i ∧ r.Idle) := by
  unfold note at noted
  split at noted
  · next idle =>
    cases noted
    exact Or.inr ⟨rfl, idle.1, idle.2.1⟩
  · exact Or.inl noted

theorem note_none {r : Record} {i : Nat} {hfree : Option Nat} (noted : note r i hfree = none) :
    hfree = none ∧ ¬ r.Idle := by
  unfold note at noted
  split at noted
  · cases noted
  · next busy => exact ⟨noted, fun idle => busy ⟨idle.1, idle.2, noted⟩⟩

/-- A hit is a record that names the unit. -/
theorem scan_found {m : List Record} {i j : Nat} {hfree : Option Nat} (hit : scan u m i hfree = .found j) :
    ∃ n r, j = i + n ∧ m[n]? = some r ∧ r.unitNumber = u := by
  induction m generalizing i hfree with
  | nil => cases hit
  | cons r rest ih =>
    unfold scan at hit
    split at hit
    · next same =>
      cases hit
      exact ⟨0, r, rfl, rfl, same⟩
    · split at hit
      · cases hit
      · obtain ⟨n, r', place, get, same⟩ := ih hit
        exact ⟨n + 1, r', by omega, get, same⟩

/-- After a miss no record up to the first unnamed one names the unit. -/
theorem scan_missing {m : List Record} {i : Nat} {hfree h : Option Nat} (miss : scan u m i hfree = .missing h) :
    ∀ (n : Nat) (r : Record), m[n]? = some r → NamedBefore m n → r.unitNumber ≠ u := by
  induction m generalizing i hfree with
  | nil =>
    intro n r get
    cases get
  | cons r rest ih =>
    intro n r' get before
    unfold scan at miss
    split at miss
    · cases miss
    · next other =>
      cases n with
      | zero =>
        cases get
        exact other
      | succ n =>
        obtain ⟨named, before⟩ := namedBefore_cons.mp before
        rw [if_neg named] at miss
        exact ih miss n r' get before

/-- The free record of a miss is the one noted before or an idle one up to the first unnamed record. -/
theorem scan_free {m : List Record} {i j : Nat} {hfree : Option Nat} (miss : scan u m i hfree = .missing (some j)) :
    hfree = some j ∨ ∃ n r, j = i + n ∧ m[n]? = some r ∧ r.Idle ∧ NamedBefore m n := by
  induction m generalizing i hfree with
  | nil =>
    cases miss
    exact Or.inl rfl
  | cons r rest ih =>
    unfold scan at miss
    split at miss
    · cases miss
    · have first : ∀ {j}, note r i hfree = some j →
          hfree = some j ∨ ∃ n r', j = i + n ∧ (r :: rest)[n]? = some r' ∧ r'.Idle ∧ NamedBefore (r :: rest) n := by
        intro j noted
        rcases note_some noted with old | ⟨rfl, idle⟩
        · exact Or.inl old
        · exact Or.inr ⟨0, r, rfl, rfl, idle, namedBefore_zero _⟩
      split at miss
      · injection miss with noted
        exact first noted
      · next named =>
        rcases ih miss with noted | ⟨n, r', place, get, idle, before⟩
        · exact first noted
        · exact Or.inr ⟨n + 1, r', by omega, get, idle, namedBefore_cons.mpr ⟨named, before⟩⟩

/-- Without a free record every record up to the first unnamed one is in use or waits to be written. -/
theorem scan_full {m : List Record} {i : Nat} {hfree : Option Nat} (miss : scan u m i hfree = .missing none) :
    hfree = none ∧ ∀ (n : Nat) (r : Record), m[n]? = some r → NamedBefore m n → ¬ r.Idle := by
  induction m generalizing i hfree with
  | nil =>
    cases miss
    exact ⟨rfl, fun n r get => by cases get⟩
  | cons r rest ih =>
    unfold scan at miss
    split at miss
    · cases miss
    · split at miss
      · next unnamed =>
        injection miss with noted
        obtain ⟨old, busy⟩ := note_none noted
        refine ⟨old, fun n r' get before => ?_⟩
        cases n with
        | zero =>
          cases get
          exact busy
        | succ n => exact absurd unnamed (namedBefore_cons.mp before).1
      · obtain ⟨noted, later⟩ := ih miss
        obtain ⟨old, busy⟩ := note_none noted
        refine ⟨old, fun n r' get before => ?_⟩
        cases n with
        | zero =>
          cases get
          exact busy
        | succ n => exact later n r' get (namedBefore_cons.mp before).2

/-- The scan of an ordered map finds a unit that a record names, and finds it there. -/
theorem scan_named {m : List Record} (ordered : Ordered m) {i : Nat} {r : Record} (get : m[i]? = some r)
    (named : r.Named) : scan r.unitNumber m 0 none = .found i := by
  cases result : scan r.unitNumber m 0 none with
  | found j =>
    obtain ⟨n, r', place, get', same⟩ := scan_found result
    have := ordered.once i n r r' get get' named same.symm
    simp [place, this]
  | missing h =>
    have before : NamedBefore m i := fun l r' below get' => ordered.last l i r' r get' get (by omega) named
    exact absurd rfl (scan_missing result i r get before)

/-- A miss in an ordered map tells that no record names the unit. -/
theorem scan_absent {m : List Record} (ordered : Ordered m) (valid : u ≠ invalidUnitNumber) {h : Option Nat}
    (miss : scan u m 0 none = .missing h) : Absent m u := by
  intro i r get same
  have named : r.Named := by
    unfold Record.Named
    rwa [same]
  rw [← same, scan_named ordered get named] at miss
  cases miss

/-! ## The calls of `alloc` that return -/

/-- The map may have got more records; nothing else has changed. -/
structure Grown (s t : Buffers B) : Prop where
  map : ∃ n, t.map = s.map ++ List.replicate n Record.unused
  writeBack : t.writeBack = s.writeBack
  info : t.info = s.info
  dev : t.dev = s.dev
  mem : t.mem = s.mem
  log : t.log = s.log
  next : s.next ≤ t.next
  failures : s.failures ≤ t.failures

theorem Grown.refl (s : Buffers B) : Grown s s := ⟨⟨0, by simp⟩, rfl, rfl, rfl, rfl, rfl, le_refl _, le_refl _⟩

theorem Grown.trans {v : Buffers B} (first : Grown s t) (second : Grown t v) : Grown s v := by
  obtain ⟨n, map⟩ := first.map
  obtain ⟨n', map'⟩ := second.map
  refine ⟨⟨n + n', ?_⟩, second.writeBack.trans first.writeBack, second.info.trans first.info, second.dev.trans first.dev,
    second.mem.trans first.mem, second.log.trans first.log, first.next.trans second.next,
    first.failures.trans second.failures⟩
  rw [map', map, List.append_assoc, List.replicate_append_replicate]

theorem Grown.ordered (grown : Grown s t) (ordered : Ordered s.map) : Ordered t.map := by
  obtain ⟨n, map⟩ := grown.map
  rw [map]
  exact ordered.append_unused n

/-- Records stay where they are when the map grows. -/
theorem Grown.get (grown : Grown s t) {i : Nat} {r : Record} (get : s.map[i]? = some r) : t.map[i]? = some r := by
  obtain ⟨n, map⟩ := grown.map
  rw [map, List.getElem?_append_left (List.getElem?_eq_some_iff.mp get).1, get]

/-- A record of the grown map is an old one or unused. -/
theorem Grown.back (grown : Grown s t) {i : Nat} {r : Record} (get : t.map[i]? = some r) :
    s.map[i]? = some r ∨ (s.map.length ≤ i ∧ r = Record.unused) := by
  obtain ⟨n, map⟩ := grown.map
  rw [map, List.getElem?_append] at get
  split at get
  · exact Or.inl get
  · next outside =>
    rw [List.getElem?_replicate] at get
    split at get
    · cases get
      exact Or.inr ⟨by omega, rfl⟩
    · cases get

theorem Grown.length (grown : Grown s t) : s.map.length ≤ t.map.length := by
  obtain ⟨n, map⟩ := grown.map
  rw [map, List.length_append]
  omega

theorem initBufferMap_grown {answer : Bool} {size : Nat} (returns : s.initBufferMap answer size = some t) :
    Grown s t := by
  unfold initBufferMap at returns
  split at returns
  · split at returns
    · cases returns
      exact ⟨⟨_, rfl⟩, rfl, rfl, rfl, rfl, rfl, Nat.le_succ _, le_refl _⟩
    · cases returns
      exact ⟨⟨0, by simp [fail]⟩, rfl, rfl, rfl, rfl, rfl, le_refl _, Nat.le_succ _⟩
  · cases returns

/-- The record `r` at index `i` has a buffer, its own or a new one. -/
inductive Prepared (s : Buffers B) (i : Nat) (r : Record) : Nat → Buffers B → Prop where
  | own (present : r.pBuffer ≠ 0) : Prepared s i r r.pBuffer s
  | fresh (missing : r.pBuffer = 0) :
    Prepared s i r s.next { s with map := s.map.modify i (fun r => { r with pBuffer := s.next }), next := s.next + 1 }

/-- What the last pass of `alloc` does to the map it scans. -/
inductive Allocated (answers : Answers B) (u : Nat) (s : Buffers B) : Option Nat → Buffers B → Prop where
  | empty (no_map : s.map = []) : Allocated answers u s none s
  | found {i : Nat} {r : Record} (get : s.map[i]? = some r) (same : r.unitNumber = u) :
    Allocated answers u s (some i) (s.modify i Record.retain)
  | starved : Allocated answers u s none s.fail
  | filled {i block : Nat} {r : Record} {t s' : Buffers B} {result : Option Nat} (get : s.map[i]? = some r)
    (idle : r.Idle) (before : NamedBefore s.map i) (absent : Absent s.map u)
    (miss : scan u s.map 0 none = .missing (some i)) (prepared : Prepared s i r block t)
    (fill : t.fillFree answers u i block = (result, s')) : Allocated answers u s result s'

theorem allocFound_allocated (answers : Answers B) (k : Nat) (ordered : Ordered s.map) (valid : u ≠ invalidUnitNumber) {i : Nat}
    (hit : scan u s.map 0 none = .found i) :
    Allocated answers u s (s.allocFound answers u k i).1 (s.allocFound answers u k i).2 := by
  obtain ⟨n, r, rfl, get, same⟩ := scan_found hit
  have named : r.Named := by
    unfold Record.Named
    rwa [same]
  rw [Nat.zero_add]
  simp only [allocFound, get, if_neg (ordered.buffered n r get named)]
  exact Allocated.found get same

theorem allocFree_allocated (answers : Answers B) (k : Nat) (ordered : Ordered s.map) (valid : u ≠ invalidUnitNumber) {i : Nat}
    (miss : scan u s.map 0 none = .missing (some i)) :
    Allocated answers u s (s.allocFree answers u k i).1 (s.allocFree answers u k i).2 := by
  have absent := scan_absent ordered valid miss
  rcases scan_free miss with noted | ⟨n, r, rfl, get, idle, before⟩
  · cases noted
  rw [Nat.zero_add]
  simp only [allocFree, get]
  split
  · next missing =>
    unfold newBuffer
    cases answers.memory k with
    | false => exact Allocated.starved
    | true => exact Allocated.filled get idle before absent (by simpa using miss) (Prepared.fresh missing) rfl
  · next present => exact Allocated.filled get idle before absent (by simpa using miss) (Prepared.own present) rfl

/-- The scan finds neither the unit nor a free record. -/
def Full (s : Buffers B) (u : Nat) : Prop := s.map = [] ∨ scan u s.map 0 none = .missing none

theorem allocLoop_cases (ordered : Ordered s.map) (valid : u ≠ invalidUnitNumber) {passes : Nat} {result : Option Nat}
    {s' : Buffers B} (returns : allocLoop answers u passes s k = some (result, s')) :
    ∃ t, Grown s t ∧ (t = s ∨ s.Full u) ∧ Allocated answers u t result s' := by
  induction passes generalizing s k with
  | zero => cases returns
  | succ passes ih =>
    unfold allocLoop at returns
    split at returns
    · next no_map =>
      cases returns
      exact ⟨_, Grown.refl _, Or.inl rfl, Allocated.empty no_map⟩
    · split at returns
      · next hit =>
        have := allocFound_allocated answers k ordered valid hit
        injection returns with returns
        rw [returns] at this
        exact ⟨s, Grown.refl s, Or.inl rfl, this⟩
      · next miss =>
        have := allocFree_allocated answers k ordered valid miss
        injection returns with returns
        rw [returns] at this
        exact ⟨s, Grown.refl s, Or.inl rfl, this⟩
      · next full =>
        obtain ⟨t, grows, returns⟩ := Option.bind_eq_some_iff.mp returns
        have grown := initBufferMap_grown grows
        obtain ⟨v, later, -, done⟩ := ih (grown.ordered ordered) returns
        exact ⟨v, grown.trans later, Or.inr (Or.inr full), done⟩

/-- A call of `alloc` that returns has grown the map, and then taken one of the ways of its last pass. -/
theorem alloc_cases (ordered : Ordered s.map) (valid : u ≠ invalidUnitNumber) {passes : Nat} {result : Option Nat}
    {s' : Buffers B} (returns : s.alloc answers u passes = some (result, s')) :
    ∃ t, Grown s t ∧ (t = s ∨ s.Full u) ∧ Allocated answers u t result s' := by
  unfold alloc at returns
  split at returns
  · next no_map =>
    obtain ⟨t, grows, returns⟩ := Option.bind_eq_some_iff.mp returns
    have grown := initBufferMap_grown grows
    obtain ⟨v, later, -, done⟩ := allocLoop_cases (grown.ordered ordered) valid returns
    exact ⟨v, grown.trans later, Or.inr (Or.inl no_map), done⟩
  · exact allocLoop_cases ordered valid returns

/-! ## What becomes of the records -/

/-- The read of a unit changes no record. -/
theorem fsUnitRead_map (s : Buffers B) (answers : Answers B) (u block : Nat) :
    (s.fsUnitRead answers u block).2.map = s.map := by
  unfold fsUnitRead
  split
  · split <;> rfl
  · rfl

/-- The record is filled, or it stays as it was prepared. -/
theorem fillFree_map {i block : Nat} {result : Option Nat} {s' : Buffers B}
    (fill : t.fillFree answers u i block = (result, s')) :
    (result = none ∧ s'.map = t.map) ∨
      (result = some i ∧ s'.map = t.map.modify i fun r => Record.retain { r with unitNumber := u }) := by
  have same := fsUnitRead_map t answers u block
  unfold fillFree at fill
  split at fill
  · next read =>
    rw [read] at same
    cases fill
    exact Or.inl ⟨rfl, same⟩
  · next read =>
    rw [read] at same
    cases fill
    exact Or.inr ⟨rfl, by rw [← same]; rfl⟩

theorem Prepared.block_ne {i block : Nat} {r : Record} (prepared : Prepared s i r block t) (positive : 0 < s.next) :
    block ≠ 0 := by
  cases prepared with
  | own present => exact present
  | fresh _ => exact Nat.pos_iff_ne_zero.mp positive

/-- Only the record itself is prepared, and only its buffer changes. -/
theorem Prepared.get {i block : Nat} {r : Record} (prepared : Prepared s i r block t) (at_i : s.map[i]? = some r)
    (j : Nat) : t.map[j]? = if j = i then some { r with pBuffer := block } else s.map[j]? := by
  cases prepared with
  | own present =>
    split
    · next same =>
      rw [same, at_i]
    · rfl
  | fresh _ =>
    simp only [List.getElem?_modify]
    by_cases same : j = i
    · simp [same, at_i]
    · simp [same, Ne.symm same]

theorem Prepared.absent {i block : Nat} {r : Record} (prepared : Prepared s i r block t) (at_i : s.map[i]? = some r)
    (absent : Absent s.map u) : Absent t.map u := by
  intro j r' get
  rw [prepared.get at_i] at get
  split at get
  · cases get
    exact absent i r at_i
  · exact absent j r' get

theorem Prepared.namedBefore {i block : Nat} {r : Record} (prepared : Prepared s i r block t)
    (at_i : s.map[i]? = some r) (before : NamedBefore s.map i) : NamedBefore t.map i := by
  intro j r' below get
  rw [prepared.get at_i, if_neg (Nat.ne_of_lt below)] at get
  exact before j r' below get

theorem Prepared.ordered {i block : Nat} {r : Record} (prepared : Prepared s i r block t) (ordered : Ordered s.map)
    (at_i : s.map[i]? = some r) : Ordered t.map := by
  cases prepared with
  | own _ => exact ordered
  | fresh missing => exact ordered.buffer_unnamed at_i (fun named => ordered.buffered i r at_i named missing) _

/-- The last pass of `alloc` leaves the records in order. -/
theorem Allocated.ordered {result : Option Nat} {s' : Buffers B} (done : Allocated answers u s result s')
    (ordered : Ordered s.map) (valid : u ≠ invalidUnitNumber) (positive : 0 < s.next) : Ordered s'.map := by
  cases done with
  | empty _ => exact ordered
  | found get same => exact ordered.modify_names _ (fun r => ⟨rfl, rfl⟩)
  | starved => exact ordered
  | @filled i block r t _ _ get idle before absent _ prepared fill =>
    rcases fillFree_map fill with ⟨-, map⟩ | ⟨-, map⟩
    · rw [map]
      exact prepared.ordered ordered get
    · rw [map]
      refine (prepared.ordered ordered get).take (prepared.absent get absent) valid (prepared.namedBefore get before)
        (prepared.block_ne positive) ?_
      intro r' get'
      rw [prepared.get get, if_pos rfl] at get'
      cases get'
      exact ⟨rfl, rfl⟩

/-- What the last pass of `alloc` does to one record: the one it returns counts one user more, a record in use or
waiting to be written keeps its unit and its buffer. -/
theorem Allocated.record {result : Option Nat} {s' : Buffers B} (done : Allocated answers u s result s')
    {j : Nat} {r : Record} (get : s.map[j]? = some r) :
    ∃ r', s'.map[j]? = some r' ∧ r'.wf = r.wf ∧
      r'.uc = (if result = some j then (r.uc + 1) % 2 ^ 31 else r.uc) ∧
      (¬ r.Idle → r'.unitNumber = r.unitNumber ∧ r'.pBuffer = r.pBuffer) ∧
      (result = some j → r'.unitNumber = u) ∧ (result = some j → r.unitNumber = u ∨ r.Idle) := by
  cases done with
  | empty _ => exact ⟨r, get, rfl, by simp, fun _ => ⟨rfl, rfl⟩, by simp, by simp⟩
  | starved => exact ⟨r, get, rfl, by simp, fun _ => ⟨rfl, rfl⟩, by simp, by simp⟩
  | @found i r₀ at_i same =>
    simp only [Buffers.modify, List.getElem?_modify, get]
    by_cases here : i = j
    · subst here
      rw [get] at at_i
      cases at_i
      exact ⟨r.retain, by simp, rfl, by simp [Record.retain], fun _ => ⟨rfl, rfl⟩, fun _ => same, fun _ => Or.inl same⟩
    · exact ⟨r, by simp [here], rfl, by simp [here], fun _ => ⟨rfl, rfl⟩, by simp [here], by simp [here]⟩
  | @filled i block r₀ t _ _ at_i idle before absent _ prepared fill =>
    have get' := prepared.get at_i j
    rcases fillFree_map fill with ⟨rfl, map⟩ | ⟨rfl, map⟩
    · rw [map, get']
      by_cases here : j = i
      · subst here
        rw [get] at at_i
        cases at_i
        exact ⟨{ r with pBuffer := block }, by simp, rfl, by simp, fun busy => absurd idle busy, by simp, by simp⟩
      · exact ⟨r, by simp [here, get], rfl, by simp, fun _ => ⟨rfl, rfl⟩, by simp, by simp⟩
    · rw [map, List.getElem?_modify, get']
      by_cases here : j = i
      · subst here
        rw [get] at at_i
        cases at_i
        refine ⟨Record.retain ⟨block, u, r.uc, r.wf⟩, by simp, rfl, by simp [Record.retain], fun busy => absurd idle busy, ?_⟩
        exact ⟨fun _ => rfl, fun _ => Or.inr idle⟩
      · exact ⟨r, by simp [here, Ne.symm here, get], rfl, by simp [Ne.symm here], fun _ => ⟨rfl, rfl⟩,
          by simp [Ne.symm here], by simp [Ne.symm here]⟩

/-- The last pass of `alloc` moves nothing but one record, its buffer and the memory behind it. -/
theorem fsUnitRead_frame (s : Buffers B) (answers : Answers B) (u block : Nat) :
    (s.fsUnitRead answers u block).2.info = s.info ∧ (s.fsUnitRead answers u block).2.next = s.next := by
  unfold fsUnitRead
  split
  · split <;> exact ⟨rfl, rfl⟩
  · exact ⟨rfl, rfl⟩

theorem fillFree_frame {i block : Nat} {result : Option Nat} {s' : Buffers B}
    (fill : t.fillFree answers u i block = (result, s')) : s'.info = t.info ∧ s'.next = t.next := by
  have frame := fsUnitRead_frame t answers u block
  unfold fillFree at fill
  split at fill <;> (next read => rw [read] at frame; cases fill; exact frame)

theorem Prepared.frame {i block : Nat} {r : Record} (prepared : Prepared s i r block t) :
    t.info = s.info ∧ s.next ≤ t.next ∧ t.map.length = s.map.length := by
  cases prepared with
  | own _ => exact ⟨rfl, le_refl _, rfl⟩
  | fresh _ => exact ⟨rfl, Nat.le_succ _, List.length_modify ..⟩

variable {result : Option Nat} {s' : Buffers B}

theorem Allocated.info (done : Allocated answers u s result s') : s'.info = s.info := by
  cases done with
  | empty _ | found _ _ | starved => rfl
  | filled _ _ _ _ _ prepared fill => rw [(fillFree_frame fill).1, prepared.frame.1]

theorem Allocated.next (done : Allocated answers u s result s') : s.next ≤ s'.next := by
  cases done with
  | empty _ | found _ _ | starved => exact le_refl _
  | filled _ _ _ _ _ prepared fill =>
    rw [(fillFree_frame fill).2]
    exact prepared.frame.2.1

theorem Allocated.length (done : Allocated answers u s result s') : s'.map.length = s.map.length := by
  cases done with
  | empty _ | starved => rfl
  | found _ _ => exact List.length_modify ..
  | filled _ _ _ _ _ prepared fill =>
    rcases fillFree_map fill with ⟨-, map⟩ | ⟨-, map⟩
    · rw [map, prepared.frame.2.2]
    · rw [map, List.length_modify, prepared.frame.2.2]

theorem Allocated.back (done : Allocated answers u s result s') {j : Nat} {r' : Record}
    (get' : s'.map[j]? = some r') : ∃ r, s.map[j]? = some r := by
  have bound := (List.getElem?_eq_some_iff.mp get').1
  rw [done.length] at bound
  exact ⟨_, List.getElem?_eq_getElem bound⟩

/-- The handle returned is the index of a record. -/
theorem Allocated.index (done : Allocated answers u s result s') {j : Nat} (given : result = some j) :
    ∃ r, s.map[j]? = some r := by
  cases done with
  | empty _ | starved => cases given
  | found get _ =>
    cases given
    exact ⟨_, get⟩
  | filled get _ _ _ _ _ fill =>
    rcases fillFree_map fill with ⟨none, -⟩ | ⟨some, -⟩
    · rw [none] at given
      cases given
    · rw [some] at given
      cases given
      exact ⟨_, get⟩

end Buffers

end PreTeO.Fs
