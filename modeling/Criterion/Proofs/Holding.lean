import Mathlib.Data.List.Forall2
import Criterion.Memory.Sitting
import Criterion.Proofs.Sites

/-!
# What a memory tells

While lists are only added to a memory, each list lies behind the lists in it, and what is held is a value that can
be read from the memory at any time after.

* `Memory.Grows`: lists have been added, and no list has changed.
* `Memory.Holds`: what is held, and the value that it is.
* `Memory.Holds.value`, `Memory.Holds.mono`: the value is read, and stays the same.
* `Memory.hold_tells`: a value without tests can be held.
-/

namespace Criterion

/-- No list, context or test, and no function of a list: such a value is held as it is. -/
def Value.isListless : Value → Bool
  | .list _ | .context _ | .probe _ | .method (.list _) _ => false
  | _ => true

namespace Memory

/-! ## Growing -/

/-- Lists have been added behind those of a memory. -/
def Grows (m m' : Memory) : Prop := m.places <+: m'.places

theorem Grows.refl (m : Memory) : m.Grows m := List.prefix_refl _

theorem Grows.trans {m₁ m₂ m₃ : Memory} (h : m₁.Grows m₂) (h' : m₂.Grows m₃) : m₁.Grows m₃ :=
  List.IsPrefix.trans h h'

theorem Grows.length_le {m m' : Memory} (h : m.Grows m') : m.places.length ≤ m'.places.length :=
  List.IsPrefix.length_le h

theorem Grows.get {m m' : Memory} (h : m.Grows m') {place : Nat} {hs : List Held}
    (hplace : m.places[place]? = some hs) : m'.places[place]? = some hs := by
  obtain ⟨added, hadded⟩ := h
  obtain ⟨hlt, -⟩ := List.getElem?_eq_some_iff.1 hplace
  rw [← hadded, List.getElem?_append_left hlt, hplace]

theorem grows_alloc (m : Memory) (hs : List Held) : m.Grows (m.alloc hs).1 := List.prefix_append _ _

/-! ## Holding -/

/-- The value that is held: its lists stand at places below a bound, and each list behind the ones in it. -/
inductive Holds (m : Memory) : Nat → Held → Value → Prop where
  | plain {bound : Nat} {v : Value} : v.isListless = true → Holds m bound (.plain v) v
  | list {bound place : Nat} {hs : List Held} {vs : List Value} :
    place < bound → m.places[place]? = some hs → hs.length = vs.length →
      (∀ p ∈ hs.zip vs, Holds m place p.1 p.2) → Holds m bound (.list place) (.list vs)
  | function {bound place : Nat} {name : String} {hs : List Held} {vs : List Value} :
    place < bound → m.places[place]? = some hs → hs.length = vs.length →
      (∀ p ∈ hs.zip vs, Holds m place p.1 p.2) →
        Holds m bound (.function place name) (.method (.list vs) name)
  | context {bound : Nat} {fields : List (String × Held)} {entries : List (String × Value)} :
    fields.length = entries.length →
      (∀ p ∈ fields.zip entries, p.1.1 = p.2.1) →
      (∀ p ∈ fields.zip entries, Holds m bound p.1.2 p.2.2) → Holds m bound (.context fields) (.context entries)

/-- The values that are held in turn. -/
def HoldsAll (m : Memory) (bound : Nat) : List Held → List Value → Prop := List.Forall₂ (m.Holds bound)

/-- Named values that are held in turn. -/
def HoldsFields (m : Memory) (bound : Nat) : HeldFields → Fields → Prop :=
  List.Forall₂ fun p q => p.1 = q.1 ∧ m.Holds bound p.2 q.2

variable {m m' : Memory} {bound bound' : Nat} {h : Held} {v : Value} {hs : List Held} {vs : List Value}
  {fields : HeldFields} {entries : Fields}

theorem holdsAll_iff : m.HoldsAll bound hs vs ↔
    hs.length = vs.length ∧ ∀ p ∈ hs.zip vs, m.Holds bound p.1 p.2 := by
  unfold HoldsAll
  rw [List.forall₂_iff_zip]
  exact and_congr_right fun _ => ⟨fun h p hp => h hp, fun h a b hp => h (a, b) hp⟩

theorem holdsFields_iff : m.HoldsFields bound fields entries ↔ fields.length = entries.length ∧
    (∀ p ∈ fields.zip entries, p.1.1 = p.2.1) ∧ ∀ p ∈ fields.zip entries, m.Holds bound p.1.2 p.2.2 := by
  unfold HoldsFields
  rw [List.forall₂_iff_zip]
  refine and_congr_right fun _ => ⟨fun h => ⟨fun p hp => (h hp).1, fun p hp => (h hp).2⟩, ?_⟩
  rintro ⟨hkeys, hheld⟩ a b hp
  exact ⟨hkeys (a, b) hp, hheld (a, b) hp⟩

theorem holds_list {place : Nat} : m.Holds bound (.list place) v ↔
    place < bound ∧ ∃ hs vs, m.places[place]? = some hs ∧ m.HoldsAll place hs vs ∧ v = .list vs := by
  constructor
  · rintro (_ | ⟨hlt, hplace, hlength, hall⟩)
    exact ⟨hlt, _, _, hplace, holdsAll_iff.2 ⟨hlength, hall⟩, rfl⟩
  · rintro ⟨hlt, hs, vs, hplace, hall, rfl⟩
    exact .list hlt hplace (holdsAll_iff.1 hall).1 (holdsAll_iff.1 hall).2

theorem holds_function {place : Nat} {name : String} : m.Holds bound (.function place name) v ↔
    place < bound ∧ ∃ hs vs, m.places[place]? = some hs ∧ m.HoldsAll place hs vs ∧
      v = .method (.list vs) name := by
  constructor
  · rintro (_ | _ | ⟨hlt, hplace, hlength, hall⟩)
    exact ⟨hlt, _, _, hplace, holdsAll_iff.2 ⟨hlength, hall⟩, rfl⟩
  · rintro ⟨hlt, hs, vs, hplace, hall, rfl⟩
    exact .function hlt hplace (holdsAll_iff.1 hall).1 (holdsAll_iff.1 hall).2

theorem holds_context : m.Holds bound (.context fields) v ↔
    ∃ entries, m.HoldsFields bound fields entries ∧ v = .context entries := by
  constructor
  · rintro (_ | _ | _ | ⟨hlength, hkeys, hheld⟩)
    exact ⟨_, holdsFields_iff.2 ⟨hlength, hkeys, hheld⟩, rfl⟩
  · rintro ⟨entries, hentries, rfl⟩
    obtain ⟨hlength, hkeys, hheld⟩ := holdsFields_iff.1 hentries
    exact .context hlength hkeys hheld

theorem held_of_listless (h' : m.Holds bound h v) (hlistless : v.isListless = true) : h = .plain v := by
  cases h' with
  | plain => rfl
  | list | function | context => cases hlistless

theorem held_of_list (h' : m.Holds bound h (.list vs)) : ∃ place, h = .list place := by
  cases h' with
  | plain hlistless => cases hlistless
  | list => exact ⟨_, rfl⟩

theorem held_of_context (h' : m.Holds bound h (.context entries)) : ∃ fields, h = .context fields := by
  cases h' with
  | plain hlistless => cases hlistless
  | context => exact ⟨_, rfl⟩

/-- What is held stays held. -/
theorem Holds.mono (h' : m.Holds bound h v) (hgrows : m.Grows m') (hbound : bound ≤ bound') :
    m'.Holds bound' h v := by
  induction h' generalizing bound' with
  | plain hlistless => exact .plain hlistless
  | list hlt hplace hlength _ ih =>
    exact .list (Nat.lt_of_lt_of_le hlt hbound) (hgrows.get hplace) hlength fun p hp => ih p hp (Nat.le_refl _)
  | function hlt hplace hlength _ ih =>
    exact .function (Nat.lt_of_lt_of_le hlt hbound) (hgrows.get hplace) hlength fun p hp => ih p hp (Nat.le_refl _)
  | context hlength hkeys _ ih => exact .context hlength hkeys fun p hp => ih p hp hbound

/-! ## Reading -/

theorem valuesBy_zip {list : Nat → Except Failure Value} (hlength : hs.length = vs.length)
    (hall : ∀ p ∈ hs.zip vs, p.1.valueBy list = .ok p.2) : Held.valuesBy list hs = .ok vs := by
  have hpairs : List.Forall₂ (fun h v => Held.valueBy list h = .ok v) hs vs :=
    List.forall₂_iff_zip.2 ⟨hlength, fun {a b} hp => hall (a, b) hp⟩
  clear hlength hall
  induction hpairs with
  | nil => rfl
  | cons hv _ ih =>
    unfold Held.valuesBy
    rw [hv, ih]
    rfl

theorem fieldsBy_zip {list : Nat → Except Failure Value} (hlength : fields.length = entries.length)
    (hkeys : ∀ p ∈ fields.zip entries, p.1.1 = p.2.1)
    (hall : ∀ p ∈ fields.zip entries, p.1.2.valueBy list = .ok p.2.2) :
    Held.fieldsBy list fields = .ok entries := by
  have hpairs : List.Forall₂ (fun p q => p.1 = q.1 ∧ Held.valueBy list p.2 = .ok q.2) fields entries :=
    List.forall₂_iff_zip.2 ⟨hlength, fun {a b} hp => ⟨hkeys (a, b) hp, hall (a, b) hp⟩⟩
  clear hlength hkeys hall
  induction hpairs with
  | nil => rfl
  | @cons p q _ _ hp _ ih =>
    obtain ⟨key, h⟩ := p
    obtain ⟨key', v⟩ := q
    obtain ⟨rfl, hv⟩ := hp
    unfold Held.fieldsBy
    rw [hv, ih]
    rfl

theorem list_succ {place depth : Nat} (hplace : m.places[place]? = some hs)
    (hvalues : Held.valuesBy (m.list depth) hs = .ok vs) : m.list (depth + 1) place = .ok (.list vs) := by
  rw [Memory.list, hplace]
  dsimp only
  rw [hvalues]
  rfl

/-- **What is held is read**, if the lists are read deep enough. -/
theorem Holds.valueBy (h' : m.Holds bound h v) {depth : Nat} (hdepth : bound ≤ depth) :
    h.valueBy (m.list depth) = .ok v := by
  induction h' generalizing depth with
  | plain => rfl
  | list hlt hplace hlength _ ih =>
    obtain ⟨depth, rfl⟩ : ∃ d, depth = d + 1 := ⟨depth - 1, by omega⟩
    exact list_succ hplace (valuesBy_zip hlength fun p hp => ih p hp (by omega))
  | @function bound place name hs vs hlt hplace hlength _ ih =>
    obtain ⟨depth, rfl⟩ : ∃ d, depth = d + 1 := ⟨depth - 1, by omega⟩
    show (do return Value.method (← m.list (depth + 1) place) name) = _
    rw [list_succ hplace (valuesBy_zip hlength fun p hp => ih p hp (by omega))]
    rfl
  | context hlength hkeys _ ih =>
    have hfields := fieldsBy_zip hlength hkeys fun p hp => ih p hp hdepth
    show (do return Value.context (← Held.fieldsBy (m.list depth) _)) = _
    rw [hfields]
    rfl

/-- What the memory tells: its value stands for what is held. -/
abbrev Tells (m : Memory) (h : Held) (v : Value) : Prop := m.Holds m.places.length h v

abbrev TellsAll (m : Memory) (hs : List Held) (vs : List Value) : Prop := m.HoldsAll m.places.length hs vs

abbrev TellsFields (m : Memory) (fields : HeldFields) (entries : Fields) : Prop :=
  m.HoldsFields m.places.length fields entries

theorem Holds.value (h' : m.Tells h v) : m.value h = .ok v := h'.valueBy (Nat.le_refl _)

theorem Holds.grows (h' : m.Tells h v) (hgrows : m.Grows m') : m'.Tells h v := h'.mono hgrows hgrows.length_le

theorem HoldsAll.mono (hall : m.HoldsAll bound hs vs) (hgrows : m.Grows m') (hbound : bound ≤ bound') :
    m'.HoldsAll bound' hs vs :=
  List.Forall₂.imp (fun _ _ h' => h'.mono hgrows hbound) hall

theorem HoldsAll.grows (hall : m.TellsAll hs vs) (hgrows : m.Grows m') : m'.TellsAll hs vs :=
  hall.mono hgrows hgrows.length_le

theorem HoldsFields.grows (hall : m.TellsFields fields entries) (hgrows : m.Grows m') :
    m'.TellsFields fields entries :=
  List.Forall₂.imp (fun _ _ h' => ⟨h'.1, h'.2.grows hgrows⟩) hall

theorem HoldsAll.values (hall : m.TellsAll hs vs) : m.values hs = .ok vs := by
  obtain ⟨hlength, hheld⟩ := holdsAll_iff.1 hall
  exact valuesBy_zip hlength fun p hp => (hheld p hp).valueBy (Nat.le_refl _)

/-- The elements of a list that is held. -/
theorem tells_list {place : Nat} (h' : m.Tells (.list place) v) : ∃ vs, v = .list vs ∧
    m.TellsAll (m.items place) vs := by
  obtain ⟨hlt, hs, vs, hplace, hall, rfl⟩ := holds_list.1 h'
  refine ⟨vs, rfl, ?_⟩
  unfold Memory.items
  rw [hplace]
  exact hall.mono (.refl m) (Nat.le_of_lt hlt)

/-- A new list of what is held. -/
theorem holds_alloc (hall : m.TellsAll hs vs) : m.places.length < (m.alloc hs).1.places.length ∧
    (m.alloc hs).1.places[m.places.length]? = some hs ∧ (m.alloc hs).1.HoldsAll m.places.length hs vs := by
  refine ⟨?_, List.getElem?_concat_length, hall.mono (grows_alloc m hs) (Nat.le_refl _)⟩
  show m.places.length < (m.places ++ [hs]).length
  rw [List.length_append]
  exact Nat.lt_succ_self _

theorem tells_alloc (hall : m.TellsAll hs vs) : (m.alloc hs).1.Tells (m.alloc hs).2 (.list vs) := by
  obtain ⟨hlt, hplace, hheld⟩ := holds_alloc hall
  exact holds_list.2 ⟨hlt, hs, vs, hplace, hheld, rfl⟩

/-! ## Outlines -/

/-- The value and its outline are of one kind, both empty or not, and both true or not. -/
theorem Holds.outline (h' : m.Tells h v) : (m.outline h).kind = v.kind ∧
    (m.outline h).isNonzero = v.isNonzero ∧ (m.outline h).isTrue = v.isTrue := by
  cases h with
  | plain w =>
    cases h'
    exact ⟨rfl, rfl, rfl⟩
  | list place =>
    obtain ⟨vs, rfl, hall⟩ := tells_list h'
    refine ⟨rfl, ?_, rfl⟩
    dsimp only [Memory.outline, Value.isNonzero]
    generalize m.items place = hs at hall
    cases hall <;> rfl
  | function place name =>
    obtain ⟨-, hs, vs, -, -, rfl⟩ := holds_function.1 h'
    exact ⟨rfl, rfl, rfl⟩
  | context fields =>
    obtain ⟨entries, hall, rfl⟩ := holds_context.1 h'
    refine ⟨rfl, ?_, rfl⟩
    dsimp only [Memory.outline, Value.isNonzero]
    cases hall <;> rfl
  | relation serial op operand layers => cases h'
  | interval serial bounds layers => cases h'

/-! ## Putting values into memory -/

mutual

/-- A value without tests can be held: lists are added to the memory, which then tells the value. -/
theorem hold_tells : ∀ (v : Value) (m : Memory), v.probeFree = true →
    m.Grows (m.hold v).1 ∧ (m.hold v).1.Tells (m.hold v).2 v
  | .list items, m, h => by
    obtain ⟨hgrows, hall⟩ := holdItems_tells items m h
    exact ⟨hgrows.trans (grows_alloc _ _), tells_alloc hall⟩
  | .context entries, m, h => by
    obtain ⟨hgrows, hall⟩ := holdFields_tells entries m h
    exact ⟨hgrows, holds_context.2 ⟨entries, hall, rfl⟩⟩
  | .method (.list items) name, m, h => by
    obtain ⟨hgrows, hall⟩ := holdItems_tells items m h
    obtain ⟨hlt, hplace, hheld⟩ := holds_alloc hall
    exact ⟨hgrows.trans (grows_alloc _ _), holds_function.2 ⟨hlt, _, items, hplace, hheld, rfl⟩⟩
  | .method .null _, m, _ | .method (.boolean _) _, m, _ | .method (.number _) _, m, _
  | .method (.text _) _, m, _ | .method (.date _) _, m, _ | .method (.time _) _, m, _
  | .method (.moment _) _, m, _ | .method (.duration _) _, m, _ | .method (.zone _) _, m, _
  | .method (.context _) _, m, _ | .method (.function _) _, m, _ | .method (.method ..) _, m, _
  | .method (.probe _) _, m, _ | .method .procedure _, m, _ => ⟨.refl m, .plain rfl⟩
  | .probe p, m, h => by cases h
  | .null, m, _ | .boolean _, m, _ | .number _, m, _ | .text _, m, _ | .date _, m, _ | .time _, m, _
  | .moment _, m, _ | .duration _, m, _ | .zone _, m, _ | .function _, m, _ | .procedure, m, _ =>
    ⟨.refl m, .plain rfl⟩

theorem holdItems_tells : ∀ (items : List Value) (m : Memory), Value.probeFreeItems items = true →
    m.Grows (m.holdItems items).1 ∧ (m.holdItems items).1.TellsAll (m.holdItems items).2 items
  | [], m, _ => ⟨.refl m, .nil⟩
  | v :: rest, m, h => by
    obtain ⟨hv, hrest⟩ := Bool.and_eq_true_iff.1 h
    obtain ⟨hfirst, htells⟩ := hold_tells v m hv
    obtain ⟨hnext, hall⟩ := holdItems_tells rest (m.hold v).1 hrest
    exact ⟨hfirst.trans hnext, .cons (htells.grows hnext) hall⟩

theorem holdFields_tells : ∀ (entries : List (String × Value)) (m : Memory),
    Value.probeFreeFields entries = true →
      m.Grows (m.holdFields entries).1 ∧ (m.holdFields entries).1.TellsFields (m.holdFields entries).2 entries
  | [], m, _ => ⟨.refl m, .nil⟩
  | (key, v) :: rest, m, h => by
    obtain ⟨hv, hrest⟩ := Bool.and_eq_true_iff.1 h
    obtain ⟨hfirst, htells⟩ := hold_tells v m hv
    obtain ⟨hnext, hall⟩ := holdFields_tells rest (m.hold v).1 hrest
    exact ⟨hfirst.trans hnext, .cons ⟨rfl, htells.grows hnext⟩ hall⟩

end

end Memory

end Criterion
