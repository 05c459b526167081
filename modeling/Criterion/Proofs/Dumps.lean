import Criterion.CommandLine
import Criterion.Proofs.Identifiers

/-!
# Dumps

A value is dumped as JSON. Every value can be: data that JSON has is kept as it is, everything else becomes a text
or a number in its place, and lists and contexts keep their elements, their keys and the order of both. The command
line prints the dump of an answer on one line; for a name of its context that is the JSON that the context has under
this name.

* `Json.value`, `Value.isData`: JSON as a value, and the values that are JSON.
* `Value.skeleton`: how a value is nested.
* `exists_toJson`, `toJson_value`: **what dumping keeps**, and what it does with JSON.
* `Value.Printable`: data with a line, which is all that is printed.
* `Json.Reader.Inherited.reads`: what holds of texts, words and numbers and is handed on by arrays and objects holds of
  all that is read.
* `Json.printable_read`: so all that is read can be printed.
* `CommandLine.run_context`: what a run prints for a context and a source.
* `dumps_keep_data`: **dumps are plain JSON and keep JSON data.**
-/

namespace Criterion

/-! ## JSON as values -/

namespace Json

mutual

/-- The value with the same data. -/
def value : Json → Value
  | .null => .null
  | .boolean b => .boolean b
  | .number n => .number n
  | .text s => .text s
  | .array items => .list (valuesOf items)
  | .object fields => .context (fieldValuesOf fields)

def valuesOf : List Json → List Value
  | [] => []
  | j :: rest => j.value :: valuesOf rest

def fieldValuesOf : List (String × Json) → Fields
  | [] => []
  | (key, j) :: rest => (key, j.value) :: fieldValuesOf rest

end

end Json

/-- How a value is nested: lists with their elements, contexts with their keys, and what is neither. -/
inductive Skeleton where
  | leaf
  | list (items : List Skeleton)
  | context (fields : List (String × Skeleton))

namespace Value

mutual

/-- Whether a value is made of nulls, booleans, numbers, texts, lists and contexts only. -/
def isData : Value → Bool
  | .null | .boolean _ | .number _ | .text _ => true
  | .list items => areData items
  | .context fields => haveData fields
  | _ => false

def areData : List Value → Bool
  | [] => true
  | v :: rest => v.isData && areData rest

def haveData : Fields → Bool
  | [] => true
  | (_, v) :: rest => v.isData && haveData rest

end

mutual

/-- The lists and contexts in a value, without what stands in them. -/
def skeleton : Value → Skeleton
  | .list items => .list (skeletonsOf items)
  | .context fields => .context (fieldSkeletonsOf fields)
  | _ => .leaf

def skeletonsOf : List Value → List Skeleton
  | [] => []
  | v :: rest => v.skeleton :: skeletonsOf rest

def fieldSkeletonsOf : Fields → List (String × Skeleton)
  | [] => []
  | (key, v) :: rest => (key, v.skeleton) :: fieldSkeletonsOf rest

end

mutual

/-- **Every value can be dumped, with the lists and contexts in it**, and data is dumped as it is. -/
theorem exists_toJson : ∀ v : Value, ∃ j, v.toJson = .ok j ∧ j.value.skeleton = v.skeleton ∧
    (v.isData = true → j.value = v)
  | .null => ⟨.null, rfl, rfl, fun _ => rfl⟩
  | .boolean b => ⟨.boolean b, rfl, rfl, fun _ => rfl⟩
  | .number n => ⟨.number n, rfl, rfl, fun _ => rfl⟩
  | .text s => ⟨.text s, rfl, rfl, fun _ => rfl⟩
  | .date d => ⟨.text d.text, rfl, rfl, nofun⟩
  | .time t => ⟨.text t.text, rfl, rfl, nofun⟩
  | .moment m => ⟨.text m.text, rfl, rfl, nofun⟩
  | .duration d => ⟨.number (.real d.totalSeconds), rfl, rfl, nofun⟩
  | .list items => by
    obtain ⟨js, hdump, hskeleton, hdata⟩ := exists_itemsToJson items
    refine ⟨.array js, ?_, congrArg Skeleton.list hskeleton, fun h => congrArg Value.list (hdata h)⟩
    rw [toJson, hdump]
    rfl
  | .context fields => by
    obtain ⟨js, hdump, hskeleton, hdata⟩ := exists_fieldsToJson fields
    refine ⟨.object js, ?_, congrArg Skeleton.context hskeleton, fun h => congrArg Value.context (hdata h)⟩
    rw [toJson, hdump]
    rfl
  | .function f => ⟨.text f.shown, rfl, rfl, nofun⟩
  | .zone o => ⟨.text o.shown, rfl, rfl, nofun⟩
  | .method receiver name => ⟨.text (receiver.shownMethod name), rfl, rfl, nofun⟩
  | .probe _ => ⟨.text "<probe>", rfl, rfl, nofun⟩
  | .procedure => ⟨.text "<procedure>", rfl, rfl, nofun⟩

theorem exists_itemsToJson : ∀ vs : List Value, ∃ js, itemsToJson vs = .ok js ∧
    skeletonsOf (Json.valuesOf js) = skeletonsOf vs ∧ (areData vs = true → Json.valuesOf js = vs)
  | [] => ⟨[], rfl, rfl, fun _ => rfl⟩
  | v :: vs => by
    obtain ⟨j, hdump, hskeleton, hdata⟩ := exists_toJson v
    obtain ⟨js, hdumps, hskeletons, hall⟩ := exists_itemsToJson vs
    refine ⟨j :: js, ?_, congrArg₂ List.cons hskeleton hskeletons, fun h => ?_⟩
    · rw [itemsToJson, hdump, hdumps]
      rfl
    · obtain ⟨hv, hvs⟩ := Bool.and_eq_true_iff.1 h
      exact congrArg₂ List.cons (hdata hv) (hall hvs)

theorem exists_fieldsToJson : ∀ fields : Fields, ∃ js, fieldsToJson fields = .ok js ∧
    fieldSkeletonsOf (Json.fieldValuesOf js) = fieldSkeletonsOf fields ∧
      (haveData fields = true → Json.fieldValuesOf js = fields)
  | [] => ⟨[], rfl, rfl, fun _ => rfl⟩
  | (key, v) :: fields => by
    obtain ⟨j, hdump, hskeleton, hdata⟩ := exists_toJson v
    obtain ⟨js, hdumps, hskeletons, hall⟩ := exists_fieldsToJson fields
    refine ⟨(key, j) :: js, ?_, congrArg₂ (fun l ls => (key, l) :: ls) hskeleton hskeletons, fun h => ?_⟩
    · rw [fieldsToJson, hdump, hdumps]
      rfl
    · obtain ⟨hv, hvs⟩ := Bool.and_eq_true_iff.1 h
      exact congrArg₂ (fun v vs => (key, v) :: vs) (hdata hv) (hall hvs)

end

mutual

/-- **JSON is dumped as itself.** -/
theorem toJson_value : ∀ j : Json, j.value.toJson = .ok j
  | .null | .boolean _ | .number _ | .text _ => rfl
  | .array items => by
    rw [Json.value, toJson, itemsToJson_valuesOf items]
    rfl
  | .object fields => by
    rw [Json.value, toJson, fieldsToJson_fieldValuesOf fields]
    rfl

theorem itemsToJson_valuesOf : ∀ js : List Json, itemsToJson (Json.valuesOf js) = .ok js
  | [] => rfl
  | j :: js => by
    rw [Json.valuesOf, itemsToJson, toJson_value j, itemsToJson_valuesOf js]
    rfl

theorem fieldsToJson_fieldValuesOf : ∀ fields : List (String × Json),
    fieldsToJson (Json.fieldValuesOf fields) = .ok fields
  | [] => rfl
  | (key, j) :: fields => by
    rw [Json.fieldValuesOf, fieldsToJson, toJson_value j, fieldsToJson_fieldValuesOf fields]
    rfl

end

mutual

/-- JSON is data. -/
theorem isData_value : ∀ j : Json, j.value.isData = true
  | .null | .boolean _ | .number _ | .text _ => rfl
  | .array items => areData_valuesOf items
  | .object fields => haveData_fieldValuesOf fields

theorem areData_valuesOf : ∀ js : List Json, areData (Json.valuesOf js) = true
  | [] => rfl
  | j :: js => Bool.and_eq_true_iff.2 ⟨isData_value j, areData_valuesOf js⟩

theorem haveData_fieldValuesOf : ∀ fields : List (String × Json), haveData (Json.fieldValuesOf fields) = true
  | [] => rfl
  | (_, j) :: fields => Bool.and_eq_true_iff.2 ⟨isData_value j, haveData_fieldValuesOf fields⟩

end

end Value

/-! ## Lines -/

namespace Value

/-- The value is data that is printed as a line of JSON. -/
def HasLine (v : Value) : Prop := ∃ j line, j.value = v ∧ Json.compact j = .ok line

variable {items : List Value} {fields : Fields}

theorem hasLine_list (h : ∀ v ∈ items, v.HasLine) : (Value.list items).HasLine := by
  have hparts : ∃ js parts, Json.valuesOf js = items ∧ Json.compactItems js = .ok parts := by
    induction items with
    | nil => exact ⟨[], [], rfl, rfl⟩
    | cons v items ih =>
      obtain ⟨⟨j, line, rfl, hline⟩, hitems⟩ := List.forall_mem_cons.1 h
      obtain ⟨js, parts, rfl, hparts⟩ := ih hitems
      refine ⟨j :: js, line :: parts, rfl, ?_⟩
      rw [Json.compactItems, hline, hparts]
      rfl
  obtain ⟨js, parts, rfl, hparts⟩ := hparts
  refine ⟨.array js, "[" ++ ", ".intercalate parts ++ "]", rfl, ?_⟩
  rw [Json.compact, hparts]
  rfl

theorem hasLine_context (h : ∀ p ∈ fields, p.2.HasLine) : (Value.context fields).HasLine := by
  have hparts : ∃ js parts, Json.fieldValuesOf js = fields ∧ Json.compactFields js = .ok parts := by
    induction fields with
    | nil => exact ⟨[], [], rfl, rfl⟩
    | cons p fields ih =>
      obtain ⟨key, v⟩ := p
      obtain ⟨⟨j, line, rfl, hline⟩, hfields⟩ := List.forall_mem_cons.1 h
      obtain ⟨js, parts, rfl, hparts⟩ := ih hfields
      refine ⟨(key, j) :: js, (Json.quoted key ++ ": " ++ line) :: parts, rfl, ?_⟩
      rw [Json.compactFields, hline, hparts]
      rfl
  obtain ⟨js, parts, rfl, hparts⟩ := hparts
  refine ⟨.object js, "\x7b" ++ ", ".intercalate parts ++ "\x7d", rfl, ?_⟩
  rw [Json.compact, hparts]
  rfl

/-- Data whose integers are within the digit limit. -/
inductive Printable : Value → Prop where
  | null : Printable .null
  | boolean (b : Bool) : Printable (.boolean b)
  | whole {i : ℤ} : i.natAbs < 10 ^ digitLimit → Printable (.whole i)
  | real (x : Binary64) : Printable (.number (.real x))
  | text (s : String) : Printable (.text s)
  | list {items : List Value} : (∀ v ∈ items, Printable v) → Printable (.list items)
  | context {fields : Fields} : (∀ p ∈ fields, Printable p.2) → Printable (.context fields)

/-- **Such data is printed as a line.** -/
theorem Printable.hasLine {v : Value} (h : v.Printable) : v.HasLine := by
  induction h with
  | null => exact ⟨.null, _, rfl, rfl⟩
  | boolean b => exact ⟨.boolean b, _, rfl, rfl⟩
  | @whole i hi =>
    have hline : Json.compact (.number (.whole i)) = Number.text (.whole i) := rfl
    exact ⟨.number (.whole i), integerText i, rfl, hline.trans (text_whole hi)⟩
  | real x => cases x <;> exact ⟨.number (.real _), _, rfl, rfl⟩
  | text s => exact ⟨.text s, _, rfl, rfl⟩
  | list _ ih => exact hasLine_list ih
  | context _ ih => exact hasLine_context ih

end Value

/-! ## Reading -/

/-- Digits stand for a number with no more digits. -/
theorem digitsValue_lt {cs : List Char} (h : ∀ c ∈ cs, c.isDigit = true) : digitsValue cs < 10 ^ cs.length := by
  have hfold : ∀ (cs : List Char) (n : ℕ), (∀ c ∈ cs, c.isDigit = true) →
      cs.foldl (fun n c => 10 * n + (c.toNat - 48)) n < (n + 1) * 10 ^ cs.length := by
    intro cs
    induction cs with
    | nil => exact fun n _ => by simp
    | cons c cs ih =>
      intro n hcs
      obtain ⟨hc, hcs⟩ := List.forall_mem_cons.1 hcs
      have hrange := toNat_of_isDigit hc
      have hnext : 10 * n + (c.toNat - 48) + 1 ≤ (n + 1) * 10 := by omega
      calc (c :: cs).foldl (fun n c => 10 * n + (c.toNat - 48)) n
          < (10 * n + (c.toNat - 48) + 1) * 10 ^ cs.length := ih _ hcs
        _ ≤ (n + 1) * 10 * 10 ^ cs.length := Nat.mul_le_mul_right _ hnext
        _ = (n + 1) * 10 ^ (c :: cs).length := by rw [List.length_cons, pow_succ, mul_assoc, mul_comm 10]
  have hall := hfold cs 0 h
  rwa [zero_add, one_mul] at hall

/-- What is read as an integer is within the digit limit. -/
theorem natAbs_readWhole_lt {s : String} {i : ℤ} (h : readWhole? s = some i) : i.natAbs < 10 ^ digitLimit := by
  unfold readWhole? at h
  dsimp only at h
  split at h
  · rename_i digits _
    split at h
    · cases h
    · rename_i hdigits
      cases h
      simp only [not_or, not_lt, Bool.not_eq_true', Bool.not_eq_false] at hdigits
      obtain ⟨-, hall, hlength⟩ := hdigits
      have hsign : ∀ negative n, (signed negative n).natAbs = n := by
        intro negative n
        cases negative <;> simp [signed]
      rw [hsign]
      exact (digitsValue_lt (List.all_eq_true.1 hall)).trans_le (Nat.pow_le_pow_right (by decide) hlength)
  · cases h

namespace Json

namespace Reader

variable {p q : Place} {j : Json} {fuel : ℕ}

/-! ### Steps -/

/-- What a value is read as: by its first character a text, an object or an array, and a word or a number else. -/
theorem value_cases (h : value (fuel + 1) p = .ok (j, q)) :
    (p.rest.head?.any (· ∈ ['"', '\x7b', '[']) = true ∧
      ((∃ s, j = .text s) ∨ j = .object [] ∨ (∃ r, fields fuel r [] = .ok (j, q)) ∨
        j = .array [] ∨ ∃ r, items fuel r [] = .ok (j, q))) ∨
    word? p = some (j, q) ∨ number p = .ok (j, q) := by
  unfold value at h
  split at h
  · rename_i hrest
    split at h
    · cases h
      exact .inl ⟨by rw [hrest]; rfl, .inl ⟨_, rfl⟩⟩
    · cases h
  · rename_i hrest
    refine .inl ⟨by rw [hrest]; rfl, .inr ?_⟩
    dsimp only at h
    split at h
    · cases h
      exact .inl rfl
    · exact .inr (.inl ⟨_, h⟩)
  · rename_i hrest
    refine .inl ⟨by rw [hrest]; rfl, .inr (.inr (.inr ?_))⟩
    dsimp only at h
    split at h
    · cases h
      exact .inl rfl
    · exact .inr ⟨_, h⟩
  · split at h
    · rename_i hword
      cases h
      exact .inr (.inl hword)
    · exact .inr (.inr h)

/-- An element is read, and the array is at its end or goes on. -/
theorem items_cases {read : List Json} (h : items (fuel + 1) p read = .ok (j, q)) :
    ∃ i r, value fuel p = .ok (i, r) ∧
      (j = .array (i :: read).reverse ∨ ∃ r', items fuel r' (i :: read) = .ok (j, q)) := by
  unfold items at h
  split at h
  · cases h
  · rename_i i r hi
    refine ⟨i, r, hi, ?_⟩
    dsimp only at h
    split at h
    · cases h
      exact .inl rfl
    · exact .inr ⟨_, h⟩
    · cases h

/-- A field is read, and the object is at its end or goes on. -/
theorem fields_cases {read : List (String × Json)} (h : fields (fuel + 1) p read = .ok (j, q)) :
    ∃ key i r r', value fuel r = .ok (i, r') ∧
      (j = .object ((key, i) :: read).reverse ∨ ∃ r, fields fuel r ((key, i) :: read) = .ok (j, q)) := by
  unfold fields at h
  split at h
  · split at h
    · cases h
    · rename_i key r hkey
      dsimp only at h
      split at h
      · split at h
        · cases h
        · rename_i i r' hi
          refine ⟨key, i, _, r', hi, ?_⟩
          split at h
          · cases h
            exact .inl rfl
          · exact .inr ⟨_, h⟩
          · cases h
      · cases h
  · cases h

/-! ### All that is read -/

/-- What holds of texts, words and numbers that are read, and of arrays and objects if it holds of their parts. -/
structure Inherited (P : Json → Prop) : Prop where
  text : ∀ s, P (.text s)
  word : ∀ x ∈ words, P x.2
  number : ∀ {p q j}, Reader.number p = .ok (j, q) → P j
  array : ∀ {items}, (∀ j ∈ items, P j) → P (.array items)
  object : ∀ {fields : List (String × Json)}, (∀ x ∈ fields, P x.2) → P (.object fields)

variable {P : Json → Prop}

theorem mem_words_of_word (h : word? p = some (j, q)) : ∃ x ∈ words, x.2 = j := by
  obtain ⟨x, hx, hfound⟩ := List.exists_of_findSome?_eq_some h
  dsimp only at hfound
  split at hfound
  · cases hfound
    exact ⟨x, hx, rfl⟩
  · cases hfound

/-- **It holds of all that is read.** -/
theorem Inherited.reads (h : Inherited P) : ∀ fuel : ℕ,
    (∀ {p q j}, value fuel p = .ok (j, q) → P j) ∧
    (∀ {p q j read}, items fuel p read = .ok (j, q) → (∀ i ∈ read, P i) → P j) ∧
    (∀ {p q j read}, fields fuel p read = .ok (j, q) → (∀ x ∈ read, P x.2) → P j) := by
  intro fuel
  induction fuel with
  | zero => exact ⟨nofun, nofun, nofun⟩
  | succ fuel ih =>
    obtain ⟨hvalue, hitems, hfields⟩ := ih
    refine ⟨fun hread => ?_, fun {p q j read} hread hall => ?_, fun {p q j read} hread hall => ?_⟩
    · rcases value_cases hread with ⟨-, ⟨s, rfl⟩ | rfl | ⟨r, hr⟩ | rfl | ⟨r, hr⟩⟩ | hword | hnumber
      · exact h.text s
      · exact h.object (List.forall_mem_nil _)
      · exact hfields hr (List.forall_mem_nil _)
      · exact h.array (List.forall_mem_nil _)
      · exact hitems hr (List.forall_mem_nil _)
      · obtain ⟨x, hx, rfl⟩ := mem_words_of_word hword
        exact h.word x hx
      · exact h.number hnumber
    · obtain ⟨i, r, hi, hend⟩ := items_cases hread
      have hnext : ∀ i' ∈ i :: read, P i' := List.forall_mem_cons.2 ⟨hvalue hi, hall⟩
      rcases hend with rfl | ⟨r', hr'⟩
      · exact h.array fun i' hi' => hnext i' (List.mem_reverse.1 hi')
      · exact hitems hr' hnext
    · obtain ⟨key, i, r, r', hi, hend⟩ := fields_cases hread
      have hnext : ∀ x ∈ (key, i) :: read, P x.2 := List.forall_mem_cons.2 ⟨hvalue hi, hall⟩
      rcases hend with rfl | ⟨r'', hr''⟩
      · exact h.object fun x hx => hnext x (List.mem_reverse.1 hx)
      · exact hfields hr'' hnext

/-- What is read as a number is one, and an integer is within the digit limit. -/
theorem number_cases (h : number p = .ok (j, q)) :
    (∃ i : ℤ, j = .number (.whole i) ∧ i.natAbs < 10 ^ digitLimit) ∨ ∃ x, j = .number (.real x) := by
  unfold number at h
  extract_lets sign digits digits' whole fraction length s at h
  split at h
  · cases h
  · split at h
    · split at h
      · rename_i i hi
        cases h
        exact .inl ⟨i, rfl, natAbs_readWhole_lt hi⟩
      · cases h
    · cases h
      exact .inr ⟨_, rfl⟩

/-- An object begins neither with a word nor with a number. -/
theorem value_object {fields : List (String × Json)} (h : value fuel p = .ok (.object fields, q)) :
    p.rest.head?.any (· ∈ ['"', '\x7b', '[']) = true := by
  cases fuel with
  | zero => cases h
  | succ fuel =>
    have hwords : ∀ x ∈ words, ∀ fields, x.2 ≠ .object fields := by
      simp [words]
    rcases value_cases h with ⟨hhead, -⟩ | hword | hnumber
    · exact hhead
    · obtain ⟨x, hx, hobject⟩ := mem_words_of_word hword
      exact absurd hobject (hwords x hx fields)
    · obtain ⟨i, hi, -⟩ | ⟨x, hx⟩ := number_cases hnumber
      · cases hi
      · cases hx

theorem rest_skipBlanks (p : Place) : p.skipBlanks.rest = p.rest.dropWhile isBlank := by
  have hdrop : (p.rest.takeWhile isBlank ++ p.rest.dropWhile isBlank).drop (p.rest.takeWhile isBlank).length =
      p.rest.dropWhile isBlank := List.drop_left
  rwa [List.takeWhile_append_dropWhile] at hdrop

end Reader

variable {text : String} {fields : List (String × Json)}

theorem itemsOfJson_eq (js : List Json) : Value.itemsOfJson js = js.map Value.ofJson := by
  induction js with
  | nil => rfl
  | cons j js ih => rw [Value.itemsOfJson, ih, List.map_cons]

theorem fieldsOfJson_eq (fields : List (String × Json)) :
    Value.fieldsOfJson fields = fields.map fun x => (x.1, Value.ofJson x.2) := by
  induction fields with
  | nil => rfl
  | cons x fields ih => rw [Value.fieldsOfJson, ih, List.map_cons]

/-- What is read can be printed, by all its parts. -/
theorem printable_inherited : Reader.Inherited fun j => (Value.ofJson j).Printable where
  text s := .text s
  word := by
    simp only [Reader.words, List.forall_mem_cons]
    exact ⟨.null, .boolean true, .boolean false, .real _, .real _, .real _, List.forall_mem_nil _⟩
  number h := by
    obtain ⟨i, rfl, hi⟩ | ⟨x, rfl⟩ := Reader.number_cases h
    · exact .whole hi
    · exact .real x
  array h := by
    refine .list fun v hv => ?_
    rw [itemsOfJson_eq] at hv
    obtain ⟨j, hj, rfl⟩ := List.mem_map.1 hv
    exact h j hj
  object h := by
    refine .context fun p hp => ?_
    have hp := mem_ofPairs hp
    rw [fieldsOfJson_eq] at hp
    obtain ⟨x, hx, rfl⟩ := List.mem_map.1 hp
    exact h x hx

/-- A text is read as the value that is behind its leading blanks. -/
theorem read_value {j : Json} (h : read text = .ok j) :
    ∃ fuel q, Reader.value fuel (Reader.Place.skipBlanks ⟨0, text.toList⟩) = .ok (j, q) := by
  unfold read at h
  dsimp only at h
  split at h
  · cases h
  · split at h
    · cases h
    · rename_i i q hvalue
      split at h
      · cases h
        exact ⟨_, q, hvalue⟩
      · cases h

/-- **All that is read from a text can be printed.** -/
theorem printable_read {j : Json} (h : read text = .ok j) : (Value.ofJson j).Printable := by
  obtain ⟨fuel, q, hvalue⟩ := read_value h
  exact (printable_inherited.reads fuel).1 hvalue

/-- An object that is read begins with its brace, or with a blank before that. -/
theorem read_object (h : read text = .ok (.object fields)) :
    ∃ c cs, text.toList = c :: cs ∧ c ≠ '-' ∧ c ≠ '@' := by
  obtain ⟨fuel, q, hvalue⟩ := read_value h
  have hhead := Reader.value_object hvalue
  rw [Reader.rest_skipBlanks] at hhead
  cases htext : text.toList with
  | nil =>
    rw [htext] at hhead
    cases hhead
  | cons c cs =>
    refine ⟨c, cs, rfl, ?_, ?_⟩ <;>
    · rintro rfl
      rw [htext, List.dropWhile_cons_of_neg (by decide), List.head?_cons, Option.any_some] at hhead
      exact absurd hhead (by decide)

end Json

/-! ## Runs -/

/-- An argument that begins with no dash is plain. -/
theorem Options.classify_plain {s : String} (h : s.toList.head? ≠ some '-') : Options.classify s = .plain := by
  unfold Options.classify
  cases hs : s.toList with
  | nil => rfl
  | cons c cs =>
    have hc : c ≠ '-' := by
      rintro rfl
      exact h (by rw [hs]; rfl)
    simp [hc]

/-- A context and a source are what they are given as. -/
theorem Options.ofArguments_context {text source : String} (htext : text.toList.head? ≠ some '-')
    (hsource : source.toList.head? ≠ some '-') :
    Options.ofArguments? ["--context", text, source] = some ⟨0, false, some text, false, source⟩ := by
  have hflag : Options.classify "--context" = .flag "--context" .context none := rfl
  have hdashes : ∀ {s : String}, s.toList.head? ≠ some '-' → s ≠ "--" := by
    rintro s hs rfl
    exact hs rfl
  have hvalue : Options.isValue text = true := by
    simp [Options.isValue, hdashes htext, Options.classify_plain htext]
  have hplain : Options.scan [source] = some ⟨[], [source]⟩ := by
    simp [Options.scan, hdashes hsource, Options.classify_plain hsource]
  have hscan : Options.scan ["--context", text, source] = some ⟨[(.context, some text)], [source]⟩ := by
    simp [Options.scan, hflag, hvalue, hplain]
  rw [Options.ofArguments?, hscan]
  rfl

namespace CommandLine

variable {files : String → Option String} {text source : String} {fields : List (String × Json)} {v : Value}
  {j : Json} {line : String}

/-- **A source is run with the context that is read from the text before it**, and the dump of its value is
printed. -/
theorem run_context (hread : Json.read text = .ok (.object fields)) (hsource : source.toList.head? ≠ some '-')
    (hvalue : evaluate .standard source (.ofPairs (Value.fieldsOfJson fields)) = pure v) (hdump : v.toJson = .ok j)
    (hline : j.compact = .ok line) :
    run files ["--context", text, source] = .ok ⟨0, line ++ "\n", "", none⟩ := by
  obtain ⟨c, cs, htext, hdash, hat⟩ := Json.read_object hread
  have hhead : text.toList.head? ≠ some '-' := by
    rw [htext]
    exact fun h => hdash (Option.some.inj h)
  have hempty : text.isEmpty = false := by
    refine Bool.eq_false_of_not_eq_true fun h => ?_
    rw [String.isEmpty_iff.1 h] at htext
    cases htext
  have hfile : contextFile? text = none := by
    unfold contextFile?
    rw [htext]
    split
    · rename_i rest hrest
      exact absurd (List.cons.inj hrest).1 hat
    · rfl
  have hcontext : context files text = .ok (.ofPairs (Value.fieldsOfJson fields)) := by
    unfold context
    simp only [hfile, pure_bind, hread]
    rfl
  have hprinted : printed ⟨0, false, some text, false, source⟩ .standard
      (.ofPairs (Value.fieldsOfJson fields)) = pure line := by
    have hdumped : (do
        let json ← Run.ofExcept v.toJson
        Run.ofExcept json.compact : Action String) = pure line := by
      rw [hdump, ofExcept_ok_bind, hline]
      rfl
    have hrespond : respond .standard source (.ofPairs (Value.fieldsOfJson fields)) = pure v := by
      rw [respond_of_told (congrArg Run.isBeyond hvalue), hvalue]
    unfold printed
    rw [if_neg Bool.false_ne_true, if_neg Bool.false_ne_true, hrespond, pure_bind]
    exact hdumped
  rw [run, Options.ofArguments_context hhead hsource]
  unfold runWith
  simp only [hempty, hcontext]
  have hprinted := congrArg Run.outcome hprinted
  unfold Settings.standard at hprinted
  simp only [Bool.false_eq_true, if_false, hprinted]
  rfl

end CommandLine

end Criterion
