import CssColor.Proofs.Token.Spelling
import Mathlib.Data.List.DropRight

/-!
# Blanks around texts

A text holds tokens (`Token.Holds`) if it is split into them in front of a blank and of a closing
parenthesis, but for the blanks around them. Two texts that hold tokens can be joined by an operator
between blanks, which takes in the blanks around it (`Token.Holds.join`).
-/

namespace CssColor.Token

variable {K : Type} {tokens tokens' rest : List (Token K)}

/-! ## Collapsed lists -/

/-- Lists are collapsed one by one, unless they meet in two blanks. -/
theorem collapse_append (h : tokens.getLast? = some whitespace → rest.head? ≠ some whitespace) :
    collapse (tokens ++ rest) = collapse tokens ++ collapse rest := by
  induction tokens using collapse.induct with
  | case1 tail ih =>
    rw [collapse_blanks, List.cons_append, List.cons_append, collapse_blanks]
    exact ih (by rwa [List.getLast?_cons_cons] at h)
  | case2 first tail hblanks ih =>
    have hstays : collapse (first :: tail) = first :: collapse tail := by
      rw [collapse]
      exact hblanks
    rw [hstays, List.cons_append, collapse]
    · rw [ih, List.cons_append]
      intro htail
      refine h ?_
      rw [List.getLast?_cons, htail]
      rfl
    · intro rest' hfirst hrest
      cases tail with
      | nil =>
        rw [List.nil_append] at hrest
        rw [hfirst, hrest] at h
        exact h rfl rfl
      | cons second tail =>
        rw [List.cons_append, List.cons.injEq] at hrest
        exact hblanks tail hfirst (congrArg (· :: tail) hrest.1)
  | case3 => rfl

/-- A blank takes in those behind it. -/
theorem collapse_cons_whitespace (tokens : List (Token K)) :
    collapse (whitespace :: tokens) = whitespace :: (collapse tokens).dropWhile isWhitespace := by
  induction tokens with
  | nil => rfl
  | cons token rest ih =>
    cases htoken : token.isWhitespace with
    | true =>
      rw [eq_whitespace htoken, collapse_blanks, ih, List.dropWhile_cons_of_pos rfl]
      congr 1
      exact (List.dropWhile_idempotent isWhitespace _).symm
    | false =>
      rw [collapse_cons_of_not_isWhitespace htoken, List.dropWhile_cons_of_neg (by simp [htoken]),
        collapse, collapse_cons_of_not_isWhitespace htoken]
      rintro rest' - heq
      rw [(List.cons.inj heq).1] at htoken
      cases htoken

/-- Lists that are collapsed already do not matter. -/
theorem collapse_collapse_append (tokens rest : List (Token K)) :
    collapse (collapse tokens ++ rest) = collapse (tokens ++ rest) := by
  induction tokens using collapse.induct with
  | case1 tail ih =>
    rw [collapse_blanks, List.cons_append, List.cons_append, collapse_blanks]
    exact ih
  | case2 first tail hblanks ih =>
    have hstays : collapse (first :: tail) = first :: collapse tail := by
      rw [collapse]
      exact hblanks
    rw [hstays, List.cons_append, List.cons_append]
    cases hfirst : first.isWhitespace with
    | true =>
      rw [eq_whitespace hfirst, collapse_cons_whitespace, collapse_cons_whitespace, ih]
    | false =>
      rw [collapse_cons_of_not_isWhitespace hfirst, collapse_cons_of_not_isWhitespace hfirst, ih]
  | case3 => rfl

/-- Collapsing blanks adds no tokens. -/
theorem length_collapse_le (tokens : List (Token K)) :
    (collapse tokens).length ≤ tokens.length := by
  induction tokens using collapse.induct with
  | case1 tail ih =>
    rw [collapse_blanks]
    exact ih.trans (Nat.le_succ _)
  | case2 first tail hblanks ih =>
    rw [collapse]
    · exact Nat.succ_le_succ ih
    · exact hblanks
  | case3 => exact le_rfl

/-- A part of a collapsed list in front of a token that is no blank is collapsed, too. -/
theorem collapse_eq_of_append (h : tokens.getLast? = some whitespace → rest.head? ≠ some whitespace)
    (hall : collapse (tokens ++ rest) = tokens ++ rest) : collapse tokens = tokens := by
  rw [collapse_append h] at hall
  have hlength := congrArg List.length hall
  rw [List.length_append, List.length_append] at hlength
  have htokens := length_collapse_le tokens
  have hrest := length_collapse_le rest
  exact List.append_inj_left hall (by omega)

/-- A blank takes in those in front of it. -/
theorem collapse_blanks_append {after : List (Token K)} (hafter : AreBlank after) :
    collapse (after ++ whitespace :: rest) = collapse (whitespace :: rest) := by
  induction after with
  | nil => rfl
  | cons token after ih =>
    obtain ⟨htoken, hrest⟩ := List.forall_mem_cons.1 hafter
    rw [eq_whitespace htoken, List.cons_append, collapse_cons_whitespace, ih hrest,
      collapse_cons_whitespace, List.dropWhile_cons_of_pos rfl, List.dropWhile_idempotent]

variable [Number K]

/-- No comment starts with another character than a slash. -/
theorem next?_of_not_slash {c : Char} (h : c ≠ '/') (rest : List Char) :
    next? (c :: rest) = some (takeAfter c rest : Token K × List Char) := by
  unfold next?
  rw [skipComments_of_not_slash h rest]

/-- A blank takes all the blanks behind it. -/
theorem scan_blank (rest : List Char) :
    (scan (' ' :: rest) : List (Token K)) = whitespace :: scan (rest.dropWhile isBlank) :=
  scan_of_next?_some rfl

/-- A blank in a text takes in those behind it. -/
theorem collapse_scan_cons_blank (rest : List Char) : collapse (scan (' ' :: rest)) =
    (whitespace :: (collapse (scan rest)).dropWhile isWhitespace : List (Token K)) := by
  rw [scan_blank, collapse_cons_whitespace]
  congr 1
  cases rest with
  | nil => rfl
  | cons c rest =>
    -- More blanks are taken in with the first one, and anything else starts a token of its own.
    cases hc : isBlank c with
    | true =>
      have hfirst : next? (c :: rest) =
          some ((whitespace, rest.dropWhile isBlank) : Token K × List Char) := by
        have hslash : c ≠ '/' := by
          rintro rfl
          cases hc
        rw [next?_of_not_slash hslash, takeAfter, if_pos hc]
      rw [List.dropWhile_cons_of_pos hc, scan_of_next?_some hfirst, collapse_cons_whitespace,
        List.dropWhile_cons_of_pos rfl, List.dropWhile_idempotent isWhitespace]
    | false => rw [List.dropWhile_cons_of_neg (by simp [hc])]

/-- An operator in a text takes in the blanks around it. -/
theorem collapse_scan_operator {sign : Char} (hblank : isBlank sign = false)
    (hsign : ∀ rest, next? (sign :: ' ' :: rest) =
      some ((delim sign, ' ' :: rest) : Token K × List Char)) (rest : List Char) :
    collapse (scan (' ' :: sign :: ' ' :: rest)) =
      [whitespace, delim sign, whitespace] ++
        (collapse (scan rest)).dropWhile (isWhitespace : Token K → Bool) := by
  rw [scan_blank, List.dropWhile_cons_of_neg (by simp [hblank]), scan_of_next?_some (hsign rest),
    collapse_cons_whitespace, collapse_cons_of_not_isWhitespace rfl,
    List.dropWhile_cons_of_neg (by exact Bool.false_ne_true), collapse_scan_cons_blank]
  rfl

/-! ## Texts with blanks around them -/

/-- The first token is no blank. -/
def StartsSolid (tokens : List (Token K)) : Prop :=
  ∃ token rest, tokens = token :: rest ∧ token.isWhitespace = false

omit [Number K] in
/-- Only the blanks in front of the tokens are dropped. -/
theorem dropWhile_blanks {before : List (Token K)} (hbefore : AreBlank before)
    (htokens : StartsSolid tokens) (rest : List (Token K)) :
    (before ++ tokens ++ rest).dropWhile isWhitespace = tokens ++ rest := by
  obtain ⟨token, tail, rfl, htoken⟩ := htokens
  rw [List.append_assoc, List.dropWhile_append_of_pos hbefore, List.cons_append,
    List.dropWhile_cons_of_neg (by simp [htoken])]

/-- A text that is split into the tokens, and blanks around them, where a blank or a closing
parenthesis follows it. -/
structure Holds (text : String) (tokens : List (Token K)) : Prop where
  solid : StartsSolid tokens
  spelled : ∃ before after, AreBlank before ∧ AreBlank after ∧
    Spells (StartsWith ' ') text (before ++ tokens) ∧
    Spells (StartsWith ')') text (before ++ tokens ++ after)

variable {text text' : String}

/-- A text that forms tokens holds them without blanks around them. -/
theorem Forms.holds (h : Forms text tokens) : Holds text tokens := by
  refine ⟨?_, [], [], areBlank_nil, areBlank_nil, h.startsWith (.inl rfl), ?_⟩
  · have hsolid := h.solid
    have htokens := h.spells.collapse_scan rfl
    cases hchars : text.toList with
    | nil =>
      rw [hchars] at hsolid
      cases hsolid
    | cons c rest =>
      rw [hchars] at hsolid htokens
      -- The first character is neither a blank nor the start of a comment, so it starts a token.
      rw [IsSolid, Bool.and_eq_true, Bool.not_eq_true', bne_iff_ne] at hsolid
      obtain ⟨hblank, hslash⟩ := hsolid
      have htoken := not_isWhitespace_takeAfter (K := K) hblank rest
      have hfirst := next?_of_not_slash (K := K) hslash rest
      obtain ⟨⟨token, after⟩, htake⟩ :
        ∃ taken : Token K × List Char, takeAfter c rest = taken := ⟨_, rfl⟩
      rw [htake] at hfirst htoken
      rw [scan_of_next?_some hfirst, collapse_cons_of_not_isWhitespace htoken] at htokens
      exact ⟨_, _, htokens.symm, htoken⟩
  · rw [List.append_nil]
    exact h.startsWith (.inr rfl)

/-- Two texts with an operator between them. -/
theorem Holds.join {separator : String} {sign : Char}
    (hseparator : separator.toList = [' ', sign, ' ']) (hblank : isBlank sign = false)
    (hsign : ∀ rest, next? (sign :: ' ' :: rest) =
      some ((delim sign, ' ' :: rest) : Token K × List Char))
    (h : Holds text tokens) (h' : Holds text' tokens') :
    Holds (text ++ separator ++ text')
      (tokens ++ [whitespace, delim sign, whitespace] ++ tokens') := by
  obtain ⟨hsolid, before, after, hbefore, -, hspells, -⟩ := h
  obtain ⟨hsolid', before', after', hbefore', hafter', hspells', hcloses'⟩ := h'
  -- Whatever the second text is split into behind a blank, it is behind the operator.
  have hjoin : ∀ {Follows : List Char → Prop} {after' : List (Token K)},
      Spells Follows text' (before' ++ tokens' ++ after') →
      Spells Follows (text ++ separator ++ text')
        (before ++ tokens ++ [whitespace, delim sign, whitespace] ++ tokens' ++ after') := by
    intro Follows after' hsecond rest hrest
    have hblanks := hspells (separator.toList ++ (text'.toList ++ rest)) (by rw [hseparator]; rfl)
    rw [String.toList_append, String.toList_append, List.append_assoc, List.append_assoc, hblanks,
      hseparator]
    show _ ++ collapse (scan (' ' :: sign :: ' ' :: (text'.toList ++ rest))) = _
    rw [collapse_scan_operator hblank hsign, hsecond rest hrest, List.append_assoc _ after',
      dropWhile_blanks hbefore' hsolid']
    simp only [List.append_assoc]
  refine ⟨?_, before, after', hbefore, hafter', ?_, ?_⟩
  · obtain ⟨token, tail, rfl, htoken⟩ := hsolid
    exact ⟨token, _, rfl, htoken⟩
  · rw [← List.append_nil (before' ++ tokens')] at hspells'
    simpa only [List.append_assoc, List.append_nil] using hjoin hspells'
  · simpa only [List.append_assoc] using hjoin hcloses'

/-! ## Texts that stand alone -/

variable (K) in
/-- A blank or a closing parenthesis that follows the text takes part in none of its tokens. -/
def StandsAlone (text : String) : Prop :=
  ∀ rest, StartsWith ' ' rest ∨ StartsWith ')' rest →
    collapse (scan (text.toList ++ rest)) =
      collapse (scan text.toList ++ scan rest : List (Token K))

/-- A text that stands alone is split into its tokens in front of a closing parenthesis. -/
theorem StandsAlone.spells (h : StandsAlone K text) :
    Spells (StartsWith ')') text (collapse (scan text.toList) : List (Token K)) := by
  intro rest hrest
  rw [h rest (.inr hrest)]
  cases rest with
  | nil => cases hrest
  | cons c rest =>
    cases hrest
    have hclose : scan (')' :: rest) = (closeParen :: scan rest : List (Token K)) :=
      scan_of_next?_some rfl
    rw [hclose]
    exact collapse_append fun _ h => nomatch h

/-- A text that stands alone holds its tokens but for the blanks around them. -/
theorem StandsAlone.holds (h : StandsAlone K text) {before after : List (Token K)}
    (hbefore : AreBlank before) (hafter : AreBlank after) (hsolid : StartsSolid tokens)
    (hends : tokens.getLast? ≠ some whitespace)
    (htext : collapse (scan text.toList) = before ++ tokens ++ after) : Holds text tokens := by
  have hlast : (before ++ tokens).getLast? ≠ some whitespace := by
    obtain ⟨token, rest, rfl, -⟩ := hsolid
    rwa [List.getLast?_append_of_ne_nil _ (List.cons_ne_nil _ _)]
  have hall : collapse (before ++ tokens ++ after) = before ++ tokens ++ after := by
    rw [← htext, collapse_collapse]
  have hcollapse := collapse_eq_of_append (fun h => absurd h hlast) hall
  refine ⟨hsolid, before, after, hbefore, hafter, fun rest hrest => ?_, htext ▸ h.spells⟩
  -- What follows starts with a blank, which is one with the blanks at the end of the text.
  rw [h rest (.inl hrest)]
  cases rest with
  | nil => cases hrest
  | cons c rest =>
    cases hrest
    rw [← collapse_collapse_append, htext, scan_blank, List.append_assoc _ after,
      collapse_append fun h => absurd h hlast, hcollapse, collapse_blanks_append hafter]

/-- A text whose tokens can stand behind a blank and in front of the end of a word stands alone. -/
theorem Forms.standsAlone (h : Forms text tokens) (hends : tokens.getLast? ≠ some whitespace) :
    StandsAlone K text := by
  intro rest hrest
  have htokens := h.spells.collapse_scan rfl
  rw [← collapse_collapse_append, htokens, collapse_append fun h => absurd h hends, ← htokens,
    collapse_collapse, htokens]
  rcases hrest with hrest | hrest
  · exact h.startsWith (.inl rfl) rest hrest
  · exact h.startsWith (.inr rfl) rest hrest

end CssColor.Token
