import CssColor.Token.Rule
import Mathlib.Data.List.TakeWhile
import Mathlib.Tactic.Common

/-!
# What rules read

When one rule after the other has a value, and which values a rule can have at all (`Rule.Yields`).
The rules for tokens drop the blanks in front of a token, and blanks are all that may be left at the
end of a list.
-/

namespace CssColor.Token

variable {K : Type} {tokens : List (Token K)}

/-- A list of nothing but blanks. -/
def AreBlank (tokens : List (Token K)) : Prop := ∀ token ∈ tokens, token.isWhitespace = true

/-- No tokens are blanks. -/
theorem areBlank_nil : AreBlank ([] : List (Token K)) := fun _ h => nomatch h

/-- Only one token is a blank. -/
theorem eq_whitespace {token : Token K} (h : token.isWhitespace = true) : token = whitespace := by
  cases token with
  | whitespace => rfl
  | _ => cases h

/-- Collapsing blanks takes in no new tokens. -/
theorem mem_of_mem_collapse {token : Token K} (h : token ∈ collapse tokens) : token ∈ tokens := by
  induction tokens using collapse.induct with
  | case1 rest ih =>
    rw [collapse] at h
    exact List.mem_cons_of_mem _ (ih h)
  | case2 first rest hblanks ih =>
    -- The token stays: it is not a blank in front of another one.
    rw [collapse] at h
    · rcases List.mem_cons.1 h with rfl | h
      · exact List.mem_cons_self
      · exact List.mem_cons_of_mem _ (ih h)
    · exact hblanks
  | case3 => exact h

/-- A token that is not a blank stays in front. -/
theorem collapse_cons_of_not_isWhitespace {token : Token K} (h : token.isWhitespace = false)
    (rest : List (Token K)) : collapse (token :: rest) = token :: collapse rest := by
  rw [collapse]
  rintro rest' rfl
  cases h

/-- Two blanks in a row are as good as one. -/
theorem collapse_blanks (rest : List (Token K)) :
    collapse (whitespace :: whitespace :: rest) = collapse (whitespace :: rest) := by
  rw [collapse]

/-- Collapsing blanks loses no other tokens. -/
theorem mem_collapse {token : Token K} (hsolid : token.isWhitespace = false) (h : token ∈ tokens) :
    token ∈ collapse tokens := by
  induction tokens using collapse.induct with
  | case1 rest ih =>
    rw [collapse_blanks]
    -- One of two blanks is dropped, and the token is neither.
    refine ih (List.mem_of_ne_of_mem ?_ h)
    rintro rfl
    cases hsolid
  | case2 first rest hblanks ih =>
    rw [collapse]
    · rcases List.mem_cons.1 h with rfl | h
      · exact List.mem_cons_self
      · exact List.mem_cons_of_mem _ (ih h)
    · exact hblanks
  | case3 => exact h

/-- Tokens without two blanks in a row stay as they are. -/
theorem collapse_collapse (tokens : List (Token K)) :
    collapse (collapse tokens) = collapse tokens := by
  induction tokens using collapse.induct with
  | case1 rest ih =>
    rw [collapse_blanks]
    exact ih
  | case2 first rest hblanks ih =>
    -- What follows a blank that stays is no blank, neither before nor after the collapse.
    have hstays : ∀ rest', first = whitespace → collapse rest = whitespace :: rest' → False := by
      rintro rest' hfirst hrest
      cases rest with
      | nil => cases hrest
      | cons second rest =>
        cases hsecond : second.isWhitespace with
        | true =>
          cases second with
          | whitespace => exact hblanks rest hfirst rfl
          | _ => cases hsecond
        | false =>
          rw [collapse_cons_of_not_isWhitespace hsecond] at hrest
          rw [(List.cons.inj hrest).1] at hsecond
          cases hsecond
    have hcons : collapse (first :: rest) = first :: collapse rest := by
      rw [collapse]
      exact hblanks
    rw [hcons, collapse, ih]
    exact hstays
  | case3 => rfl

/-- The blanks in front of a token, if it is there. -/
theorem dropWhile_eq_cons_iff {token : Token K} {rest : List (Token K)} :
    tokens.dropWhile isWhitespace = token :: rest ↔ token.isWhitespace = false ∧
      ∃ before, AreBlank before ∧ tokens = before ++ token :: rest := by
  constructor
  · intro h
    -- What is dropped is what is taken while it is blank.
    refine ⟨?_, tokens.takeWhile isWhitespace, fun _ => List.mem_takeWhile_imp, ?_⟩
    · have hhead := List.head?_dropWhile_not isWhitespace tokens
      rw [h] at hhead
      exact hhead
    · rw [← h, List.takeWhile_append_dropWhile]
  · rintro ⟨hsolid, before, hbefore, rfl⟩
    rw [List.dropWhile_append_of_pos hbefore, List.dropWhile_cons_of_neg]
    rw [hsolid]
    exact Bool.false_ne_true

end CssColor.Token

namespace CssColor.Rule

open Token

variable {K α β : Type} {r : Rule K α} {tokens rest : List (Token K)}

/-- A rule that has found its value goes on with the next one. -/
theorem bind_of_some {a : α} {next : α → Rule K β} (h : r tokens = (some a, rest)) :
    (r >>= next) tokens = next a rest := by
  show Rule.bind r next tokens = next a rest
  unfold Rule.bind
  rw [h]

/-- A rule that has failed does not go on. -/
theorem bind_of_none {next : α → Rule K β} (h : r tokens = (none, rest)) :
    (r >>= next) tokens = (none, rest) := by
  show Rule.bind r next tokens = (none, rest)
  unfold Rule.bind
  rw [h]

/-- A value of one rule after the other comes from a value of the first. -/
theorem bind_eq_some_iff {next : α → Rule K β} {b : β} : (r >>= next) tokens = (some b, rest) ↔
    ∃ a left, r tokens = (some a, left) ∧ next a left = (some b, rest) := by
  rcases hr : r tokens with ⟨_ | a, left⟩
  · rw [bind_of_none hr]
    constructor
    · intro h
      cases h
    · rintro ⟨a, left', h, -⟩
      cases h
  · rw [bind_of_some hr]
    constructor
    · intro h
      exact ⟨a, left, rfl, h⟩
    · rintro ⟨a', left', h, hnext⟩
      cases h
      exact hnext

/-- Three rules one after the other, in either grouping. -/
theorem bind_assoc {γ : Type} (r : Rule K α) (f : α → Rule K β) (g : β → Rule K γ) :
    r >>= f >>= g = r >>= fun a => f a >>= g := by
  funext tokens
  rcases hr : r tokens with ⟨_ | a, rest⟩
  · rw [bind_of_none hr, bind_of_none (bind_of_none hr)]
  · have hf : (r >>= f) tokens = f a rest := bind_of_some hr
    rw [bind_of_some hr]
    rcases hfa : f a rest with ⟨_ | b, left⟩
    · rw [bind_of_none (hf.trans hfa), bind_of_none hfa]
    · rw [bind_of_some (hf.trans hfa), bind_of_some hfa]

/-- A value that is not missing, which takes nothing. -/
theorem ofOption_eq_some_iff {value : Option α} {a : α} :
    ofOption value tokens = (some a, rest) ↔ value = some a ∧ tokens = rest := by
  cases value with
  | none =>
    constructor
    · intro h
      cases h
    · rintro ⟨h, -⟩
      cases h
  | some b =>
    constructor
    · intro h
      cases h
      exact ⟨rfl, rfl⟩
    · rintro ⟨h, rfl⟩
      cases h
      rfl

/-- All values of a rule have the property `P`. -/
def Yields (P : α → Prop) (r : Rule K α) : Prop :=
  ∀ tokens a rest, r tokens = (some a, rest) → P a

section Yields

variable {P : α → Prop} {Q : β → Prop}

/-- All values of a rule that goes on with the values of another. -/
theorem Yields.bind {next : α → Rule K β} (h : Yields P r) (hnext : ∀ a, P a → Yields Q (next a)) :
    Yields Q (r >>= next) := by
  intro tokens b rest hb
  obtain ⟨a, left, ha, hlast⟩ := bind_eq_some_iff.1 hb
  exact hnext a (h tokens a left ha) left b rest hlast

/-- Any value will do. -/
theorem yields_true : Yields (fun _ => True) r := fun _ _ _ _ => trivial

/-- All values of a rule that goes on in one way after any value of another. -/
theorem Yields.after {next : α → Rule K β} (hnext : ∀ a, Yields Q (next a)) :
    Yields Q (r >>= next) :=
  yields_true.bind fun a _ => hnext a

/-- A value that is given has its own properties. -/
theorem Yields.pure {a : α} (h : P a) : Yields P (pure a : Rule K α) := by
  intro tokens b rest hb
  cases hb
  exact h

/-- A rule that fails yields nothing. -/
theorem Yields.fail : Yields P (fail : Rule K α) := by
  intro tokens a rest h
  cases h

/-- A value that may be missing, if it has the property where it is there. -/
theorem Yields.ofOption {value : Option α} (h : ∀ a ∈ value, P a) :
    Yields P (ofOption value : Rule K α) := by
  cases value with
  | none => exact Yields.fail
  | some a => exact Yields.pure (h a rfl)

/-- Both branches of a choice have to yield such values. -/
theorem Yields.ite {condition : Prop} [Decidable condition] {r' : Rule K α}
    (h : condition → Yields P r) (h' : ¬ condition → Yields P r') :
    Yields P (if condition then r else r') := by
  split
  · next hcondition => exact h hcondition
  · next hcondition => exact h' hcondition

/-- An optional part yields a value with the property or none. -/
theorem Yields.optional (h : Yields P r) : Yields (fun value => ∀ a ∈ value, P a) (optional r) := by
  intro tokens value rest hvalue a ha
  cases ha
  unfold Rule.optional at hvalue
  rcases hr : r tokens with ⟨_ | b, left⟩
  · rw [hr] at hvalue
    cases hvalue
  · rw [hr] at hvalue
    cases hvalue
    exact h tokens a _ hr

/-- All values of a part that is repeated have the property. -/
theorem Yields.many (h : Yields P r) : Yields (fun values => ∀ a ∈ values, P a) (many r) := by
  -- The induction is on the run of the repetition.
  have hrepeated : ∀ tokens, ∀ a ∈ (r.repeated tokens).1, P a := by
    intro tokens
    induction tokens using repeated.induct r with
    | case1 tokens first rest hfirst hlength as left hrest ih =>
      intro a ha
      rw [repeated, hfirst] at ha
      dsimp only at ha
      rw [if_pos hlength, hrest] at ha
      rcases List.mem_cons.1 ha with rfl | ha
      · exact h tokens _ _ hfirst
      · rw [hrest] at ih
        exact ih a ha
    | case2 tokens first rest hfirst hlength =>
      intro a ha
      rw [repeated, hfirst] at ha
      dsimp only at ha
      rw [if_neg hlength] at ha
      cases ha
    | case3 tokens rest hnone =>
      intro a ha
      rw [repeated, hnone] at ha
      cases ha
  intro tokens values rest hvalues
  cases hvalues
  exact hrepeated tokens

end Yields

/-- The next token that is not blank. -/
theorem nextSolid_eq_some_iff {token : Token K} : nextSolid tokens = (some token, rest) ↔
    token.isWhitespace = false ∧ ∃ before, AreBlank before ∧ tokens = before ++ token :: rest := by
  rw [← dropWhile_eq_cons_iff]
  have hsolid : nextSolid tokens = next (tokens.dropWhile isWhitespace) := rfl
  rw [hsolid]
  cases tokens.dropWhile isWhitespace with
  | nil =>
    constructor
    · intro h
      cases h
    · intro h
      cases h
  | cons first left =>
    constructor
    · intro h
      cases h
      rfl
    · intro h
      cases h
      rfl

/-- Blanks in front of an identifier are skipped. -/
theorem identifier_eq_some_iff {name : String} : identifier tokens = (some name, rest) ↔
    ∃ before, AreBlank before ∧ tokens = before ++ ident name :: rest := by
  unfold identifier
  rw [bind_eq_some_iff]
  constructor
  · rintro ⟨token, left, hsolid, hname⟩
    obtain ⟨-, hbefore⟩ := nextSolid_eq_some_iff.1 hsolid
    cases token with
    | ident name' =>
      cases hname
      exact hbefore
    | _ => cases hname
  · intro hbefore
    exact ⟨ident name, rest, nextSolid_eq_some_iff.2 ⟨rfl, hbefore⟩, rfl⟩

/-- Blanks in front of a comma are skipped. -/
theorem comma_eq_some_iff : comma tokens = (some (), rest) ↔
    ∃ before, AreBlank before ∧ tokens = before ++ Token.comma :: rest := by
  unfold comma nextWith
  rw [bind_eq_some_iff]
  constructor
  · rintro ⟨token, left, hsolid, hcomma⟩
    obtain ⟨-, hbefore⟩ := nextSolid_eq_some_iff.1 hsolid
    cases token with
    | comma =>
      cases hcomma
      exact hbefore
    | _ => cases hcomma
  · intro hbefore
    exact ⟨Token.comma, rest, nextSolid_eq_some_iff.2 ⟨rfl, hbefore⟩, rfl⟩

/-- Only blanks are left if there is no first token among the others. -/
theorem isExhausted_eq (tokens : List (Token K)) :
    isExhausted tokens = (some (tokens.all isWhitespace), tokens) := by
  have hfirst : (tokens.filter fun token => !token.isWhitespace)[0]?.isNone =
      tokens.all isWhitespace := by
    induction tokens with
    | nil => rfl
    | cons token rest ih =>
      cases h : token.isWhitespace with
      | false => simp [h]
      | true => simpa [h] using ih
  rw [← hfirst]
  rfl

/-- The blanks at the end are all that is taken after the last value. -/
theorem exhausted_eq_some_iff : (exhausted tokens).1 = some () ↔ AreBlank tokens := by
  unfold AreBlank
  rw [← List.dropWhile_eq_nil_iff]
  have hsolid : nextSolid tokens = next (tokens.dropWhile isWhitespace) := rfl
  unfold exhausted
  rw [hsolid]
  cases tokens.dropWhile isWhitespace with
  | nil => exact ⟨fun _ => rfl, fun _ => rfl⟩
  | cons token rest =>
    constructor
    · intro h
      cases h
    · intro h
      cases h

/-- A rule reads a whole list if it leaves nothing but blanks of it. -/
theorem parse_eq_some_iff {a : α} : r.parse tokens = some a ↔
    ∃ rest, r (collapse tokens) = (some a, rest) ∧ AreBlank rest := by
  unfold Rule.parse Rule.complete
  rcases hr : r (collapse tokens) with ⟨_ | b, rest⟩
  · rw [bind_of_none hr]
    constructor
    · intro h
      cases h
    · rintro ⟨_, h, _⟩
      cases h
  · -- The value stands if nothing but blanks follows it.
    rw [bind_of_some hr]
    have hblanks : (exhausted rest).1 = some () ↔ AreBlank rest := exhausted_eq_some_iff
    rcases hexhausted : exhausted rest with ⟨_ | _, left⟩
    · rw [bind_of_none hexhausted]
      rw [hexhausted] at hblanks
      constructor
      · intro h
        cases h
      · rintro ⟨rest', h, hrest⟩
        cases h
        cases hblanks.2 hrest
    · rw [bind_of_some hexhausted]
      rw [hexhausted] at hblanks
      constructor
      · intro h
        cases h
        exact ⟨rest, rfl, hblanks.1 rfl⟩
      · rintro ⟨rest', h, _⟩
        cases h
        rfl

end CssColor.Rule
