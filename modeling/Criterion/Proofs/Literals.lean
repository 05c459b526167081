import Criterion.Proofs.Spelling
import Criterion.Value.Shown

/-!
# Data as literals

Null, booleans, integers, text, and lists and contexts of such data are written as they are: digits,
text in quotes, elements and entries between brackets. What the quotes hold is one token, whatever it
looks like, and all other tokens end where the next one begins.

* `Value.HasLiteral`, `Value.literal`: the data that can be written so, and how.
* `numberLiteral_ascii`, `numberLiteral_naturalText`: digits are read as the integer they stand for.
* `Lexes`: the tokens of a text in front of what may follow it.
* `lexes_string`, `lexes_natural`, `lexes_enclosed`: **the tokens of literals.**
-/

namespace Criterion

open Lexer
open scoped Computability

/-! ## Literals -/

/-- Text without quotes and backslashes. -/
def Unescaped (s : String) : Prop := ∀ c ∈ s.toList, c ≠ '"' ∧ c ≠ '\\'

instance (s : String) : Decidable (Unescaped s) :=
  List.decidableBAll (fun c => c ≠ '"' ∧ c ≠ '\\') s.toList

/-- Text that can stand between quotes: a backslash takes the next character with it, which is no line break. -/
def Quotable (s : String) : Prop := s.toList ∈ stringPart∗

theorem Unescaped.quotable {s : String} (h : Unescaped s) : Quotable s := by
  refine Language.mem_kstar.2 ⟨s.toList.map ([·]), ?_, fun part hpart => ?_⟩
  · rw [← List.flatMap_def, List.flatMap_singleton']
  · obtain ⟨c, hc, rfl⟩ := List.mem_map.1 hpart
    exact .inl ⟨c, rfl, decide_eq_true (h c hc)⟩

/-- Text between quotes. -/
def enquoted (s : String) : String := "\"" ++ s ++ "\""

namespace Value

/-- Data that have a literal. Each key of a context is there once. -/
inductive HasLiteral : Value → Prop where
  | null : HasLiteral .null
  | boolean (b : Bool) : HasLiteral (.boolean b)
  | whole {i : Int} : i.natAbs < 10 ^ digitLimit → HasLiteral (.number (.whole i))
  | text {s : String} : Unescaped s → HasLiteral (.text s)
  | list {items : List Value} : (∀ v ∈ items, HasLiteral v) → HasLiteral (.list items)
  | context {fields : Fields} : (fields.map (·.1)).Nodup → (∀ p ∈ fields, Unescaped p.1) →
    (∀ p ∈ fields, HasLiteral p.2) → HasLiteral (.context fields)

mutual

/-- The literal of data; other values have none. -/
def literal : Value → String
  | .null => "null"
  | .boolean b => if b then "true" else "false"
  | .number (.whole i) => integerText i
  | .text s => enquoted s
  | .list items => "[" ++ commaSeparated (literalItems items) ++ "]"
  | .context fields => "\x7b" ++ commaSeparated (literalEntries fields) ++ "\x7d"
  | _ => ""

/-- The literals of the elements of a list. -/
def literalItems : List Value → List String
  | [] => []
  | v :: rest => v.literal :: literalItems rest

/-- The entries of a context: a key in quotes and the literal of its value. -/
def literalEntries : Fields → List String
  | [] => []
  | (key, v) :: rest => (enquoted key ++ ": " ++ v.literal) :: literalEntries rest

end

theorem literalItems_eq (items : List Value) : literalItems items = items.map literal := by
  induction items with
  | nil => rfl
  | cons v rest ih => rw [literalItems, ih, List.map_cons]

theorem literalEntries_eq (fields : Fields) :
    literalEntries fields = fields.map fun p => enquoted p.1 ++ ": " ++ p.2.literal := by
  induction fields with
  | nil => rfl
  | cons p rest ih => rw [literalEntries, ih, List.map_cons]

end Value

/-! ## Digits -/

theorem isDigit_of_ascii {c : Char} (h : c.isDigit = true) : Text.isDigit c = true := by
  unfold Text.isDigit Text.digitValue?
  rw [Option.isSome_map, List.find?_isSome]
  refine ⟨48, by decide, ?_⟩
  rw [Bool.and_eq_true, decide_eq_true_eq, decide_eq_true_eq]
  exact toNat_of_isDigit h

theorem isDigit_toDigits {n : ℕ} {c : Char} (h : c ∈ Nat.toDigits 10 n) : c.isDigit = true :=
  Nat.isDigit_of_mem_toDigits (by omega) le_rfl h

theorem isDigit_naturalText {n : ℕ} {c : Char} (h : c ∈ (naturalText n).toList) :
    c.isDigit = true := by
  rw [naturalText, String.toList_ofList] at h
  exact isDigit_toDigits h

theorem length_toDigits_le_digitLimit {n : ℕ} :
    (Nat.toDigits 10 n).length ≤ digitLimit ↔ n < 10 ^ digitLimit :=
  Nat.length_toDigits_le_iff (by omega) (by decide)

theorem digitsValue_eq (v : List Char) : digitsValue v = Nat.ofDigitChars 10 v 0 :=
  Nat.ofDigitChars_eq_foldl.symm

/-- **Digits are read as the integer that they stand for**, up to the digit limit. -/
theorem numberLiteral_ascii {v : List Char} (hv : ∀ c ∈ v, c.isDigit = true) (hne : v ≠ [])
    (hlength : v.length ≤ digitLimit) :
    numberLiteral (String.ofList v) = .ok (.number (.whole (Nat.ofDigitChars 10 v 0))) := by
  -- ASCII digits are seen as they are
  have hsame : v.map numeralChar = v := by
    conv_rhs => rw [← List.map_id v]
    refine List.map_congr_left fun c hc => ?_
    have hrange := toNat_of_isDigit (hv c hc)
    exact if_pos (.inl (by omega))
  rw [numberLiteral_digits (fun c hc => isDigit_of_ascii (hv c hc)) hne, if_neg (Nat.not_lt.2 hlength),
    hsame, digitsValue_eq]

/-- An integer is read from its digits, up to the digit limit. -/
theorem numberLiteral_naturalText {n : ℕ} (h : n < 10 ^ digitLimit) :
    numberLiteral (naturalText n) = .ok (.number (.whole n)) := by
  rw [naturalText, numberLiteral_ascii (fun c hc => isDigit_toDigits hc) Nat.toDigits_ne_nil
    (length_toDigits_le_digitLimit.2 h), Nat.ofDigitChars_ten_toDigits]

/-! ## Tokens -/

section Scanning

variable {unary : Bool} {position : ℕ} {cs v w rest : List Char} {t : Terminal} {ls : List Lexeme}

/-- What follows a literal: nothing, or what ends an element of a list or of a context. -/
def Closed (rest : List Char) : Prop := ∀ c ∈ rest.head?, c ∈ [',', ']', '\x7d']

theorem scans_of_scan (h : scan? unary (v ++ w) = some (t, v.length)) : Scans unary v w t := by
  obtain ⟨v', w', hcs, hlength, hscans⟩ := scan_eq_some_iff.1 h
  obtain ⟨rfl, rfl⟩ := List.append_inj hcs hlength.symm
  exact hscans

/-- No builtin name of several words starts where no word does. -/
theorem phrases_missed {c : Char} (h : isWordStart c = false) (rest : List Char) :
    (phrases.findSome? fun (t, first, more) => (phrase? first more (c :: rest)).map fun n => (t, n)) =
      none := by
  have hstart : ∀ x ∈ phrases, ∃ d word, x.2.1.toList = d :: word ∧ isWordStart d = true := by
    intro x hx
    have hhead : ∀ x ∈ phrases, x.2.1.toList.head?.any isWordStart = true := by decide
    have hany := hhead x hx
    cases hword : x.2.1.toList with
    | nil => rw [hword] at hany; cases hany
    | cons d word => rw [hword] at hany; exact ⟨d, word, rfl, hany⟩
  refine List.findSome?_eq_none_iff.2 fun x hx => ?_
  obtain ⟨d, word, hword, hd⟩ := hstart x hx
  have hne : (d == c) = false := by
    rw [beq_eq_false_iff_ne]
    rintro rfl
    rw [hd] at h
    cases h
  dsimp only [phrase?]
  rw [hword, List.isPrefixOf?, hne]
  rfl

/-- What may follow a number: neither a digit nor a point comes next. -/
def Numberless (rest : List Char) : Prop := ∀ c ∈ rest.head?, Text.isDigit c = false ∧ c ≠ '.'

theorem Closed.numberless (h : Closed rest) : Numberless rest := by
  intro c hc
  have hcloser := h c hc
  simp only [List.mem_cons, List.not_mem_nil, or_false] at hcloser
  rcases hcloser with rfl | rfl | rfl <;> exact ⟨rfl, by decide⟩

theorem scan_number (hv : ∀ c ∈ v, c.isDigit = true) (hne : v ≠ []) (h : Numberless rest) :
    scan? unary (v ++ rest) = some (.number, v.length) := by
  have hdigits : ∀ c ∈ v, Text.isDigit c = true := fun c hc => isDigit_of_ascii (hv c hc)
  have hnone : rest.takeWhile Text.isDigit = [] := by
    cases rest with
    | nil => rfl
    | cons c rest => exact List.takeWhile_cons_of_neg (by simp [(h c rfl).1])
  have htake : (v ++ rest).takeWhile Text.isDigit = v := by
    rw [List.takeWhile_append_of_pos hdigits, hnone, List.append_nil]
  have hdrop : (v ++ rest).dropWhile Text.isDigit = rest := by
    have hsplit := List.takeWhile_append_dropWhile (p := Text.isDigit) (l := v ++ rest)
    rw [htake] at hsplit
    exact List.append_cancel_left hsplit
  have hfraction : fractionAt rest = [] := by
    unfold fractionAt
    split
    · exact absurd rfl (h '.' rfl).2
    · rfl
  have hnumber : number? (v ++ rest) = some v.length := by
    rw [number?_eq, htake, hdrop, hfraction, if_neg (by simp), if_pos hne]
  cases v with
  | nil => exact absurd rfl hne
  | cons c v =>
    -- a digit starts no word
    have hstart : isWordStart c = false := by
      by_contra hstart
      have hdigit := isDigit_of_wordStart (Bool.eq_true_of_not_eq_false hstart)
      rw [hdigits c List.mem_cons_self] at hdigit
      cases hdigit
    rw [List.cons_append] at hnumber ⊢
    unfold scan? word?
    rw [phrases_missed hstart, hnumber]
    rfl

/-- **What stands between quotes is one token.** -/
theorem scan_string (hv : v ∈ stringPart∗) (rest : List Char) :
    scan? unary ('"' :: (v ++ '"' :: rest)) = some (.string, v.length + 2) := by
  have hclosing : closing? (v ++ '"' :: rest) = some (v.length + 1) := by
    have hquoted : v ++ ['"'] ∈ stringPart∗ * spelled "\"" := ⟨v, hv, ['"'], rfl, rfl⟩
    have hread := closing?_append hquoted rest
    rwa [List.append_assoc, List.singleton_append, List.length_append, List.length_singleton] at hread
  have hquote : scan? unary ('"' :: (v ++ '"' :: rest)) =
      (((closing? (v ++ '"' :: rest)).map fun n => (.string, n + 1)).or
        (comment? ('"' :: (v ++ '"' :: rest)))).or (symbol? ('"' :: (v ++ '"' :: rest))) := rfl
  rw [hquote, hclosing]
  rfl

/-- One blank before what is no blank is left out. -/
theorem tokens_blank {c : Char} (hc : isSpace c = false) (h : Tokens unary (position + 1) (c :: rest) ls) :
    Tokens unary position (' ' :: c :: rest) ls := by
  have hscan : scan? unary ([' '] ++ c :: rest) = some (.blank, 1) := by
    have hrun : scan? unary (' ' :: c :: rest) =
        some (.blank, ((' ' :: c :: rest).takeWhile isSpace).length) := rfl
    rw [List.singleton_append, hrun, List.takeWhile_cons_of_pos (by decide),
      List.takeWhile_cons_of_neg (by rw [hc]; decide)]
    rfl
  exact .trivia (v := [' ']) (scans_of_scan hscan) rfl h

end Scanning

/-! ## Literals and their tokens -/

/-- In front of all that may follow it, a text has tokens of a certain form. -/
structure Lexes (unary : Bool) (cs : List Char) (I : List Lexeme → Prop) : Prop where
  starts : ∃ c tail, cs = c :: tail ∧ isSpace c = false
  tokens : ∀ {position : ℕ} {rest : List Char} {ls : List Lexeme}, Closed rest →
    Tokens unary (position + cs.length) rest ls →
      ∃ w, Tokens unary position (cs ++ rest) (w ++ ls) ∧ I w

/-- Items with a comma before each. -/
inductive Commas {α : Type} (I : α → List Lexeme → Prop) : List α → List Lexeme → Prop where
  | nil : Commas I [] []
  | cons {l : Lexeme} {a : α} {as : List α} {w u : List Lexeme} : l.kind = .comma → I a w →
    Commas I as u → Commas I (a :: as) (l :: (w ++ u))

/-- Items between brackets, with commas between them. -/
inductive Enclosed {α : Type} (I : α → List Lexeme → Prop) (opening closing : Terminal) :
    List α → List Lexeme → Prop where
  | empty {l m : Lexeme} : l.kind = opening → m.kind = closing → Enclosed I opening closing [] [l, m]
  | items {l m : Lexeme} {a : α} {as : List α} {w u : List Lexeme} : l.kind = opening → I a w →
    Commas I as u → m.kind = closing → Enclosed I opening closing (a :: as) (l :: (w ++ (u ++ [m])))

section Literals

variable {unary : Bool} {cs : List Char} {t : Terminal} {I J : List Lexeme → Prop} {α : Type}

theorem Lexes.mono (h : Lexes unary cs I) (hIJ : ∀ w, I w → J w) : Lexes unary cs J := by
  refine ⟨h.starts, fun hrest htokens => ?_⟩
  obtain ⟨w, hw, hI⟩ := h.tokens hrest htokens
  exact ⟨w, hw, hIJ w hI⟩

/-- A text that is one token. -/
theorem Lexes.single (hstarts : ∃ c tail, cs = c :: tail ∧ isSpace c = false)
    (hscans : ∀ rest, Closed rest → Scans unary cs rest t)
    (ht : t.isTrivia = false) (hI : ∀ start stop, I [⟨t, String.ofList cs, start, stop⟩]) :
    Lexes unary cs I :=
  ⟨hstarts, fun hrest h => ⟨_, .token (hscans _ hrest) ht h, hI _ _⟩⟩

theorem tokens_scanned {v w : List Char} {position : ℕ} {ls : List Lexeme} (hscans : Scans unary v w t)
    (ht : t.isTrivia = false) (h : Tokens unary (position + v.length) w ls) : ∃ l : Lexeme,
      l.kind = t ∧ l.text = String.ofList v ∧ Tokens unary position (v ++ w) (l :: ls) :=
  ⟨_, rfl, rfl, .token hscans ht h⟩

/-- A sign or a bracket that is a token by itself, whatever follows it. -/
theorem tokens_symbol {c : Char} {position : ℕ} {rest : List Char} {ls : List Lexeme}
    (hscan : scan? unary (c :: rest) = some (t, 1)) (ht : t.isTrivia = false)
    (h : Tokens unary (position + 1) rest ls) : ∃ l : Lexeme, l.kind = t ∧
      l.text = String.ofList [c] ∧ Tokens unary position (c :: rest) (l :: ls) :=
  tokens_scanned (v := [c]) (scans_of_scan hscan) ht h

theorem lexes_word {word : String} {k : Keyword}
    (hword : (word, k) ∈ [("null", .nullWord), ("true", .trueWord), ("false", .falseWord)])
    (hI : ∀ start stop, I [⟨.keyword k, word, start, stop⟩]) : Lexes unary word.toList I := by
  have hscans : ∀ rest, Closed rest → Scans unary word.toList rest (.keyword k) := by
    intro rest hrest
    refine scans_of_scan ?_
    have hends : rest = [] ∨ ∃ c more, rest = c :: more ∧ (c = ',' ∨ c = ']' ∨ c = '\x7d') := by
      cases rest with
      | nil => exact .inl rfl
      | cons c more => exact .inr ⟨c, more, rfl, by simpa using hrest c rfl⟩
    simp only [List.mem_cons, Prod.mk.injEq, List.not_mem_nil, or_false] at hword
    rcases hword with ⟨rfl, rfl⟩ | ⟨rfl, rfl⟩ | ⟨rfl, rfl⟩ <;>
      rcases hends with rfl | ⟨c, more, rfl, rfl | rfl | rfl⟩ <;> rfl
  refine .single ?_ hscans rfl fun start stop => ?_
  · simp only [List.mem_cons, Prod.mk.injEq, List.not_mem_nil, or_false] at hword
    rcases hword with ⟨rfl, rfl⟩ | ⟨rfl, rfl⟩ | ⟨rfl, rfl⟩ <;> exact ⟨_, _, rfl, rfl⟩
  · rw [String.ofList_toList]
    exact hI start stop

theorem isSpace_cases {c : Char} (hc : isSpace c = true) :
    c = ' ' ∨ c = '\t' ∨ c = '\x0c' ∨ c = '\r' ∨ c = '\n' := by
  simpa only [isSpace, Bool.or_eq_true, beq_iff_eq, or_assoc] using hc

/-- A digit is no blank. -/
theorem isSpace_of_isDigit {c : Char} (hc : c.isDigit = true) : isSpace c = false := by
  refine Bool.eq_false_of_not_eq_true fun hspace => ?_
  rcases isSpace_cases hspace with rfl | rfl | rfl | rfl | rfl <;> exact absurd hc (by decide)

theorem lexes_natural {n : ℕ} (hI : ∀ start stop, I [⟨.number, naturalText n, start, stop⟩]) :
    Lexes unary (naturalText n).toList I := by
  have hne : (naturalText n).toList ≠ [] := by
    rw [naturalText, String.toList_ofList]
    exact Nat.toDigits_ne_nil
  have hscans : ∀ rest, Closed rest → Scans unary (naturalText n).toList rest .number :=
    fun rest hrest =>
      scans_of_scan (scan_number (fun c hc => isDigit_naturalText hc) hne hrest.numberless)
  refine .single ?_ hscans rfl ?_
  · cases htext : (naturalText n).toList with
    | nil => exact absurd htext hne
    | cons c tail =>
      have hc : c.isDigit = true := isDigit_naturalText (by rw [htext]; exact List.mem_cons_self)
      exact ⟨c, tail, rfl, isSpace_of_isDigit hc⟩
  · intro start stop
    rw [String.ofList_toList]
    exact hI start stop

theorem enquoted_toList (s : String) : (enquoted s).toList = '"' :: (s.toList ++ ['"']) := by
  unfold enquoted
  rw [String.toList_append, String.toList_append]
  rfl

/-- **Text in quotes is one token.** -/
theorem scans_string {s : String} (hs : Quotable s) (rest : List Char) :
    Scans unary (enquoted s).toList rest .string := by
  refine scans_of_scan ?_
  rw [enquoted_toList, List.cons_append, List.append_assoc, List.singleton_append, scan_string hs]
  simp

theorem lexes_string {s : String} (hs : Quotable s)
    (hI : ∀ start stop, I [⟨.string, enquoted s, start, stop⟩]) :
    Lexes unary (enquoted s).toList I := by
  refine .single ⟨'"', _, enquoted_toList s, rfl⟩ (fun rest _ => scans_string hs rest) rfl ?_
  intro start stop
  rw [String.ofList_toList]
  exact hI start stop

theorem lexes_minus (h : Lexes unary cs I)
    (hJ : ∀ l w, l.kind = .minus → l.text = "-" → I w → J (l :: w)) : Lexes unary ('-' :: cs) J := by
  refine ⟨⟨'-', cs, rfl, rfl⟩, fun {position rest ls} hrest htokens => ?_⟩
  rw [List.length_cons, Nat.add_comm cs.length, ← Nat.add_assoc] at htokens
  obtain ⟨w, hw, hI⟩ := h.tokens hrest htokens
  obtain ⟨l, hl, htext, hminus⟩ := tokens_symbol (t := .minus) (c := '-') rfl rfl hw
  exact ⟨l :: w, hminus, hJ l w hl htext hI⟩

/-- A blank before a literal is left out. -/
theorem Lexes.tokens_behind_blank (h : Lexes unary cs I) {position : ℕ} {rest : List Char}
    {ls : List Lexeme} (hrest : Closed rest)
    (htokens : Tokens unary (position + (' ' :: cs).length) rest ls) :
    ∃ w, Tokens unary position (' ' :: cs ++ rest) (w ++ ls) ∧ I w := by
  rw [List.length_cons, Nat.add_comm cs.length, ← Nat.add_assoc] at htokens
  obtain ⟨w, hw, hI⟩ := h.tokens hrest htokens
  obtain ⟨c, tail, rfl, hc⟩ := h.starts
  exact ⟨w, tokens_blank hc hw, hI⟩

/-- A key in quotes, a colon and a literal. -/
theorem lexes_entry {key : String} (hkey : Quotable key) (h : Lexes unary cs I)
    (hJ : ∀ l m w, l.kind = .string → l.text = enquoted key → m.kind = .colon → I w → J (l :: m :: w)) :
    Lexes unary ((enquoted key).toList ++ ':' :: ' ' :: cs) J := by
  refine ⟨⟨'"', _, by rw [enquoted_toList]; rfl, rfl⟩, fun {position rest ls} hrest htokens => ?_⟩
  have hlength : position + ((enquoted key).toList ++ ':' :: ' ' :: cs).length =
      position + (enquoted key).toList.length + 1 + (' ' :: cs).length := by
    simp only [List.length_append, List.length_cons]
    omega
  rw [hlength] at htokens
  obtain ⟨w, hw, hI⟩ := h.tokens_behind_blank hrest htokens
  obtain ⟨m, hm, -, hcolon⟩ := tokens_symbol (t := .colon) (c := ':') rfl rfl hw
  obtain ⟨l, hl, htext, hall⟩ := tokens_scanned (scans_string hkey _) rfl hcolon
  rw [String.ofList_toList] at htext
  refine ⟨l :: m :: w, ?_, hJ l m w hl htext hm hI⟩
  rw [List.append_assoc]
  exact hall

/-! ### Items between brackets -/

/-- The texts of items, a comma and a blank before each. -/
def behindCommas (text : α → String) (as : List α) : List Char :=
  as.flatMap fun a => ',' :: ' ' :: (text a).toList

variable {text : α → String} {Item : α → List Lexeme → Prop}

theorem commaSeparated_toList (text : α → String) (as : List α) : ∀ a : α,
    (commaSeparated ((a :: as).map text)).toList = (text a).toList ++ behindCommas text as := by
  unfold commaSeparated
  induction as with
  | nil =>
    intro a
    rw [List.map_singleton, String.intercalate_singleton]
    exact (List.append_nil _).symm
  | cons b as ih =>
    intro a
    have hb := ih b
    rw [List.map_cons] at hb
    rw [List.map_cons, List.map_cons, String.intercalate_cons_cons, String.toList_append,
      String.toList_append, hb]
    simp [behindCommas]

/-- What follows an item is the next comma, or what follows all items. -/
theorem closed_behindCommas {rest : List Char} (hrest : Closed rest) {as : List α} :
    Closed (behindCommas text as ++ rest) := by
  cases as with
  | nil => exact hrest
  | cons b as =>
    intro c hc
    cases hc
    decide

theorem tokens_commas {as : List α} (h : ∀ a ∈ as, Lexes unary (text a).toList (Item a)) :
    ∀ {position : ℕ} {rest : List Char} {ls : List Lexeme}, Closed rest →
      Tokens unary (position + (behindCommas text as).length) rest ls →
        ∃ u, Tokens unary position (behindCommas text as ++ rest) (u ++ ls) ∧ Commas Item as u := by
  induction as with
  | nil => exact fun _ htokens => ⟨[], htokens, .nil⟩
  | cons a as ih =>
    intro position rest ls hrest htokens
    obtain ⟨ha, has⟩ := List.forall_mem_cons.1 h
    have hlength : position + (behindCommas text (a :: as)).length =
        position + 1 + (' ' :: (text a).toList).length + (behindCommas text as).length := by
      simp only [behindCommas, List.flatMap_cons, List.length_append, List.length_cons]
      omega
    rw [hlength] at htokens
    obtain ⟨u, hu, hcommas⟩ := ih has hrest htokens
    obtain ⟨w, hw, hitem⟩ := ha.tokens_behind_blank (closed_behindCommas hrest) hu
    obtain ⟨l, hl, -, hall⟩ := tokens_symbol (t := .comma) (c := ',') rfl rfl hw
    refine ⟨l :: (w ++ u), ?_, .cons hl hitem hcommas⟩
    simpa [behindCommas] using hall

/-- **Items between brackets.** -/
theorem lexes_enclosed {o c : Char} {opening closing : Terminal}
    (ho : ∀ rest, scan? unary (o :: rest) = some (opening, 1)) (hopening : opening.isTrivia = false)
    (hspace : isSpace o = false) (hc : ∀ rest, scan? unary (c :: rest) = some (closing, 1))
    (hclosing : closing.isTrivia = false) (hcloses : c ∈ [',', ']', '\x7d']) {as : List α}
    (h : ∀ a ∈ as, Lexes unary (text a).toList (Item a)) :
    Lexes unary (o :: ((commaSeparated (as.map text)).toList ++ [c]))
      (Enclosed Item opening closing as) := by
  refine ⟨⟨o, _, rfl, hspace⟩, fun {position rest ls} hrest htokens => ?_⟩
  cases as with
  | nil =>
    have htokens : Tokens unary (position + 1 + 1) rest ls := htokens
    obtain ⟨m, hm, -, hlast⟩ := tokens_symbol (hc rest) hclosing htokens
    obtain ⟨l, hl, -, hall⟩ := tokens_symbol (ho _) hopening hlast
    exact ⟨[l, m], hall, .empty hl hm⟩
  | cons a as =>
    obtain ⟨ha, has⟩ := List.forall_mem_cons.1 h
    rw [commaSeparated_toList] at htokens ⊢
    have hlength : position + (o :: ((text a).toList ++ behindCommas text as ++ [c])).length =
        position + 1 + (text a).toList.length + (behindCommas text as).length + 1 := by
      simp only [List.length_append, List.length_cons, List.length_nil]
      omega
    rw [hlength] at htokens
    obtain ⟨m, hm, -, hlast⟩ := tokens_symbol (hc rest) hclosing htokens
    have hclosed : Closed (c :: rest) := by
      intro d hd
      cases hd
      exact hcloses
    obtain ⟨u, hu, hcommas⟩ := tokens_commas has hclosed hlast
    obtain ⟨w, hw, hitem⟩ := ha.tokens (closed_behindCommas hclosed) hu
    obtain ⟨l, hl, -, hall⟩ := tokens_symbol (ho _) hopening hw
    refine ⟨l :: (w ++ (u ++ [m])), ?_, .items hl hitem hcommas hm⟩
    simpa using hall

end Literals

end Criterion
