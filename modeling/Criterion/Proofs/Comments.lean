import Criterion.Proofs.Respacing

/-!
# Comments as blanks

A comment that is skipped stands for a blank. The one exception is a place inside a builtin name of several
words, or between such a name and its arguments: only white space may stand there.

* `tokens_comment_as_space`: the tokens around a comment, with a blank in its place.
* `parse_comment_as_space`: **a blank in place of a comment leaves the tree as it is**, and a source without a
  tree stays one, unless a builtin name of several words comes to reach over the place.
* `comment_inside_name`: there a comment is no blank.
-/

namespace Criterion

open Lexer

variable {unary : Bool} {position : ℕ} {before comment after : List Char} {t : Terminal} {ls : List Lexeme}

/-- A comment begins with a slash. -/
theorem comment_slash (h : Scans unary comment after t) (ht : t = .blockComment ∨ t = .lineComment) :
    ∃ r, comment = '/' :: r := by
  obtain ⟨p, -, rfl | rfl, hp⟩ := wins_of_comment h ht
  · obtain ⟨u, hu⟩ := mem_blockComment.1 hp.takes.fits.text
    exact ⟨_, hu⟩
  · obtain ⟨u, hu, -⟩ := mem_lineComment.1 hp.takes.fits.text
    exact ⟨_, hu⟩

/-- The same text has the same tokens at each place, as far from its start. -/
theorem Tokens.elsewhere {cs : List Char} (h : Tokens unary position cs ls) (place : ℕ) :
    ∃ ls', Tokens unary place cs ls' ∧
      List.Forall₂ (fun l l' => l'.face = l.face ∧ l'.start + position = l.start + place) ls ls' := by
  induction h generalizing place with
  | done => exact ⟨[], .done, .nil⟩
  | @trivia _ v _ _ _ hscan ht _ ih =>
    obtain ⟨ls', htokens, hpairs⟩ := ih (place + v.length)
    exact ⟨ls', .trivia hscan ht htokens, hpairs.imp fun _ _ ⟨hface, hstart⟩ => ⟨hface, by omega⟩⟩
  | @token position v _ _ _ hscan ht _ ih =>
    obtain ⟨ls', htokens, hpairs⟩ := ih (place + v.length)
    refine ⟨_, .token hscan ht htokens, .cons ⟨rfl, Nat.add_comm place position⟩ ?_⟩
    exact hpairs.imp fun _ _ ⟨hface, hstart⟩ => ⟨hface, by omega⟩

/-- Tokens that look alike one by one. -/
theorem faces_of_forall₂ {R : Lexeme → Lexeme → Prop} {ls ls' : List Lexeme}
    (hR : ∀ l l', R l l' → l'.face = l.face) (h : List.Forall₂ R ls ls') :
    ls'.map Lexeme.face = ls.map Lexeme.face := by
  induction h with
  | nil => rfl
  | cons hl _ ih => rw [List.map_cons, List.map_cons, hR _ _ hl, ih]

/-- **The tokens around a comment**, with a blank in its place, if there are tokens at all. -/
theorem tokens_comment_as_space (hbefore : Leading unary (comment ++ after) 0 before ls)
    (hcomment : Scans unary comment after t) (ht : t = .blockComment ∨ t = .lineComment)
    (hno : ¬ Straddles unary before (' ' :: after)) (faces : List (Terminal × String)) :
    (∃ ls', Tokens unary 0 (before ++ ' ' :: after) ls' ∧ ls'.map Lexeme.face = faces) ↔
      ∃ ls', Tokens unary 0 (before ++ (comment ++ after)) ls' ∧ ls'.map Lexeme.face = faces := by
  have htrivia : t.isTrivia = true := by rcases ht with rfl | rfl <;> rfl
  have hspace : isSpace ' ' = true := rfl
  obtain ⟨r, rfl⟩ := comment_slash hcomment ht
  -- no end of a comment begins with the blank
  have hclose : Closes (' ' :: after) → Closes ('/' :: (r ++ after)) := by
    rintro ⟨a, b, hab⟩
    cases a with
    | nil => cases hab
    | cons c a =>
      obtain ⟨-, rfl⟩ := List.cons.inj hab
      exact ⟨'/' :: (r ++ a), b, by simp⟩
  have hbefore' := hbefore.respaced hspace hclose hno
  have hbehind : ∀ {position place : ℕ} {ls₂ : List Lexeme}, Tokens unary position after ls₂ →
      (ls ++ ls₂).map Lexeme.face = faces →
        ∃ ls₂', Tokens unary place after ls₂' ∧ (ls ++ ls₂').map Lexeme.face = faces := by
    intro position place ls₂ h hfaces
    obtain ⟨ls₂', h', hpairs⟩ := h.elsewhere place
    have hfaces' := faces_of_forall₂ (fun _ _ hl => hl.1) hpairs
    exact ⟨ls₂', h', by rw [← hfaces, List.map_append, List.map_append, hfaces']⟩
  constructor
  · rintro ⟨ls', htokens, hfaces⟩
    obtain ⟨ls₂, rfl, h⟩ := hbefore'.tokens_iff.1 htokens
    obtain ⟨ls₂', h', hfaces'⟩ := hbehind ((tokens_space_iff hspace).1 h) hfaces
    exact ⟨ls ++ ls₂', hbefore.tokens_iff.2 ⟨ls₂', rfl, .trivia hcomment htrivia h'⟩, hfaces'⟩
  · rintro ⟨ls', htokens, hfaces⟩
    obtain ⟨ls₂, rfl, h⟩ := hbefore.tokens_iff.1 htokens
    rw [tokens_append_iff hcomment, if_pos htrivia] at h
    obtain ⟨ls₂', h', hfaces'⟩ := hbehind h hfaces
    exact ⟨ls ++ ls₂', hbefore'.tokens_iff.2 ⟨ls₂', rfl, (tokens_space_iff hspace).2 h'⟩, hfaces'⟩

/-- A source without tokens has no tree. -/
theorem parse_of_no_tokens {source : String} (h : ¬ ∃ ls, Tokens unary 0 source.toList ls) :
    (parse unary source).toOption = none := by
  cases hparse : parse unary source with
  | error e => rfl
  | ok t =>
    obtain ⟨ls, htokens, -⟩ := tells_of_parse hparse
    exact absurd ⟨ls, htokens⟩ h

/-- **A blank in place of a comment leaves the tree as it is**: the rules, and the kinds and texts of the tokens. A
source that has no tree still has none. The exception are places that a builtin name of several words reaches over
when the blank stands there, from its first word to the parenthesis behind it. -/
theorem parse_comment_as_space {source source' : String} (hsource : source.toList = before ++ (comment ++ after))
    (hbefore : Leading unary (comment ++ after) 0 before ls) (hcomment : Scans unary comment after t)
    (ht : t = .blockComment ∨ t = .lineComment) (hsource' : source'.toList = before ++ ' ' :: after)
    (hno : ¬ Straddles unary before (' ' :: after)) :
    (parse unary source').toOption.map Tree.unplaced = (parse unary source).toOption.map Tree.unplaced := by
  have hiff := tokens_comment_as_space hbefore hcomment ht hno
  rw [← hsource, ← hsource'] at hiff
  by_cases htokens : ∃ ls, Tokens unary 0 source.toList ls
  · obtain ⟨ls, htokens⟩ := htokens
    obtain ⟨ls', htokens', hfaces⟩ := (hiff _).2 ⟨ls, htokens, rfl⟩
    exact parse_unplaced htokens htokens' hfaces
  · have htokens' : ¬ ∃ ls', Tokens unary 0 source'.toList ls' := by
      rintro ⟨ls', htokens'⟩
      obtain ⟨ls, h, -⟩ := (hiff _).1 ⟨ls', htokens', rfl⟩
      exact htokens ⟨ls, h⟩
    rw [parse_of_no_tokens htokens, parse_of_no_tokens htokens']

theorem parse_comment_as_space_in_sum : ∃ before comment after ls,
    "1/* one */+2".toList = before ++ (comment ++ after) ∧ Leading false (comment ++ after) 0 before ls ∧
      Scans false comment after .blockComment ∧ "1 +2".toList = before ++ ' ' :: after ∧
      ¬ Straddles false before (' ' :: after) ∧
      (parse false "1 +2").toOption.map Tree.unplaced = (parse false "1/* one */+2").toOption.map Tree.unplaced := by
  have hbefore : Leading false ("/* one */".toList ++ "+2".toList) 0 ("1".toList ++ []) _ :=
    .token (t := .number) rfl (scans_of_scan (by decide)) .done
  have hcomment : Scans false "/* one */".toList "+2".toList .blockComment := scans_of_scan (by decide)
  have hno : ¬ Straddles false "1".toList (' ' :: "+2".toList) := by
    -- no parenthesis is there for a name to reach to
    rintro ⟨a, u, blanks, more, ls, hsplit, -⟩
    have hmem : '(' ∈ "1".toList ++ ' ' :: "+2".toList := by
      rw [hsplit]
      simp
    exact absurd hmem (by decide)
  exact ⟨_, _, _, _, rfl, hbefore, hcomment, rfl, hno,
    parse_comment_as_space rfl hbefore hcomment (.inl rfl) rfl hno⟩

/-- Inside a builtin name of several words a comment is no blank. -/
theorem comment_inside_name : ∃ before comment after ls,
    "string /**/length(\"x\")".toList = before ++ (comment ++ after) ∧
      Leading false (comment ++ after) 0 before ls ∧ Scans false comment after .blockComment ∧
      "string  length(\"x\")".toList = before ++ ' ' :: after ∧
      (parse false "string /**/length(\"x\")").toOption.isNone = true ∧
      (parse false "string  length(\"x\")").toOption.isSome = true := by
  have hbefore : Leading false ("/**/".toList ++ "length(\"x\")".toList) 0 ("string".toList ++ [' ']) _ :=
    .token (t := .identifier) rfl (scans_of_scan (by decide)) (.blank rfl .done)
  have hcomment : Scans false "/**/".toList "length(\"x\")".toList .blockComment := scans_of_scan (by decide)
  exact ⟨_, _, _, _, rfl, hbefore, hcomment, rfl, by decide +kernel, by decide +kernel⟩

end Criterion
