import CssColor.Proofs.Token.Reading

/-!
# Rules that agree

Two rules agree between the properties `P` and `Q` of token lists if they do the same on every list
with `P`, and what is left after a value has `Q` (`Rule.Agree`). The rule combinators keep this, so
two grammars that differ only in the rules for nested blocks agree wherever those rules do.

The properties come in families: `P levels` speaks of what is left where `levels` further blocks may
be opened. `Levelled` says that taking a token keeps such a family, where a token that opens a block
costs a level and one that closes a block gives it back.
-/

namespace CssColor.Rule

variable {K α β : Type}

/-- Two rules do the same on `tokens`, and what is left after a value has the property `Q`. -/
structure AgreeAt (Q : List (Token K) → Prop) (r s : Rule K α) (tokens : List (Token K)) :
    Prop where
  same : r tokens = s tokens
  leaves : ∀ {a rest}, r tokens = (some a, rest) → Q rest

/-- Two rules agree on all token lists with the property `P`. -/
def Agree (P Q : List (Token K) → Prop) (r s : Rule K α) : Prop :=
  ∀ tokens, P tokens → AgreeAt Q r s tokens

section Combinators

variable {P Q R : List (Token K) → Prop} {r s : Rule K α} {tokens rest : List (Token K)}

/-- One rule after the other, at one list. -/
theorem AgreeAt.bind {k k' : α → Rule K β} (h : AgreeAt Q r s tokens)
    (hk : ∀ a rest, r tokens = (some a, rest) → Q rest → AgreeAt R (k a) (k' a) rest) :
    AgreeAt R (r >>= k) (s >>= k') tokens := by
  rcases hr : r tokens with ⟨_ | a, rest⟩
  · -- Both fail in the first part.
    have hs : s tokens = (none, rest) := by rw [← h.same, hr]
    constructor
    · rw [bind_of_none hr, bind_of_none hs]
    · intro b left hb
      rw [bind_of_none hr] at hb
      cases hb
  · have hs : s tokens = (some a, rest) := by rw [← h.same, hr]
    have hnext := hk a rest hr (h.leaves hr)
    constructor
    · rw [bind_of_some hr, bind_of_some hs, hnext.same]
    · intro b left hb
      rw [bind_of_some hr] at hb
      exact hnext.leaves hb

/-- One rule after the other. -/
theorem Agree.bind {k k' : α → Rule K β} (h : Agree P Q r s) (hk : ∀ a, Agree Q R (k a) (k' a)) :
    Agree P R (r >>= k) (s >>= k') := fun tokens htokens =>
  (h tokens htokens).bind fun a rest _ hrest => hk a rest hrest

/-- Rules that give the same value and take nothing, at one list. -/
theorem AgreeAt.pure {a : α} (h : P tokens) : AgreeAt P (pure a) (pure a) tokens := by
  refine ⟨rfl, fun {b rest} hb => ?_⟩
  cases hb
  exact h

/-- Rules that give the same value and take nothing. -/
theorem Agree.pure (a : α) : Agree P P (pure a) (pure a) := fun _ h => AgreeAt.pure h

/-- Rules that fail, at one list. -/
theorem AgreeAt.fail : AgreeAt Q (fail : Rule K α) fail tokens := by
  refine ⟨rfl, fun {a rest} h => ?_⟩
  cases h

/-- Rules that fail. -/
theorem Agree.fail : Agree P Q (fail : Rule K α) fail := fun _ _ => AgreeAt.fail

/-- A value that is there or not. -/
theorem Agree.ofOption (value : Option α) : Agree P P (ofOption value) (ofOption value) := by
  cases value with
  | none => exact Agree.fail
  | some a => exact Agree.pure a

/-- Looking ahead takes nothing. -/
theorem Agree.peekAt (n : ℕ) : Agree P P (peekAt n) (peekAt n) := by
  intro tokens htokens
  refine ⟨rfl, fun {a rest} h => ?_⟩
  cases h
  exact htokens

/-- Looking ahead for a function takes nothing. -/
theorem Agree.isCalling (name : String) : Agree P P (isCalling name) (isCalling name) :=
  (Agree.peekAt 0).bind fun _ => Agree.pure _

/-- Looking ahead for a name takes nothing. -/
theorem Agree.isNaming (name : String) : Agree P P (isNaming name) (isNaming name) :=
  (Agree.peekAt 0).bind fun _ => Agree.pure _

/-- Both branches of a choice have to agree. -/
theorem Agree.ite {condition : Prop} [Decidable condition] {r' s' : Rule K α}
    (h : Agree P Q r s) (h' : Agree P Q r' s') :
    Agree P Q (if condition then r else r') (if condition then s else s') := by
  split
  · exact h
  · exact h'

/-- A failing rule puts back what it has taken, so only its values matter. -/
theorem Agree.optional (h : Agree P P r s) : Agree P P (optional r) (optional s) := by
  intro tokens htokens
  have hat := h tokens htokens
  unfold Rule.optional
  constructor
  · rw [hat.same]
  · intro a rest ha
    rcases hr : r tokens with ⟨_ | b, left⟩
    · -- What is left is the list itself, which has `P`.
      rw [hr] at ha
      cases ha
      exact htokens
    · rw [hr] at ha
      cases ha
      exact hat.leaves hr

/-- Going on after a rule that may fail: a failing rule puts back what it has taken. -/
theorem Agree.optional_bind {k k' : Option α → Rule K β} (h : Agree P Q r s)
    (hsome : ∀ a, Agree Q R (k (some a)) (k' (some a))) (hnone : Agree P R (k none) (k' none)) :
    Agree P R (Rule.optional r >>= k) (Rule.optional s >>= k') := by
  intro tokens htokens
  have hat := h tokens htokens
  rcases hr : r tokens with ⟨_ | a, left⟩
  · -- Both go on from where they started.
    have hoptional : Rule.optional r tokens = (some none, tokens) := by rw [Rule.optional, hr]
    have hoptional' : Rule.optional s tokens = (some none, tokens) := by
      rw [Rule.optional, ← hat.same, hr]
    have hnext := hnone tokens htokens
    constructor
    · rw [bind_of_some hoptional, bind_of_some hoptional', hnext.same]
    · intro b rest hb
      rw [bind_of_some hoptional] at hb
      exact hnext.leaves hb
  · have hoptional : Rule.optional r tokens = (some (some a), left) := by rw [Rule.optional, hr]
    have hoptional' : Rule.optional s tokens = (some (some a), left) := by
      rw [Rule.optional, ← hat.same, hr]
    have hnext := hsome a left (hat.leaves hr)
    constructor
    · rw [bind_of_some hoptional, bind_of_some hoptional', hnext.same]
    · intro b rest hb
      rw [bind_of_some hoptional] at hb
      exact hnext.leaves hb

/-- Repeating two rules that agree gives the same values, and leaves the same. -/
theorem repeated_eq (h : Agree P P r s) (tokens : List (Token K)) (htokens : P tokens) :
    repeated r tokens = repeated s tokens ∧ P (repeated r tokens).2 := by
  induction hlength : tokens.length using Nat.strongRecOn generalizing tokens with
  | _ n ih =>
    -- Each round takes a token at least, so the induction is on their number.
    have hat := h tokens htokens
    rw [repeated.eq_def r, repeated.eq_def s, ← hat.same]
    rcases hr : r tokens with ⟨_ | a, rest⟩
    · exact ⟨rfl, htokens⟩
    · dsimp only
      split
      · next hlt =>
        obtain ⟨hsame, hleft⟩ := ih rest.length (by omega) rest (hat.leaves hr) rfl
        rw [← hsame]
        exact ⟨rfl, hleft⟩
      · exact ⟨rfl, htokens⟩

/-- A part that is repeated, as often on both sides. -/
theorem Agree.many (h : Agree P P r s) : Agree P P (many r) (many s) := by
  intro tokens htokens
  obtain ⟨hsame, hleft⟩ := repeated_eq h tokens htokens
  unfold Rule.many
  constructor
  · rw [hsame]
  · intro as rest has
    cases has
    exact hleft

end Combinators

/-! ## Taking tokens -/

/-- A family of properties that taking tokens keeps, for up to `top` levels. -/
structure Levelled (top : ℕ) (P : ℕ → List (Token K) → Prop) : Prop where
  plain : ∀ {levels token rest}, token.opensBlock = false → token.closesBlock = false →
    P levels (token :: rest) → P levels rest
  opens : ∀ {levels token rest}, token.opensBlock = true → P (levels + 1) (token :: rest) →
    P levels rest
  closes : ∀ {levels token rest}, levels < top → token.closesBlock = true →
    P levels (token :: rest) → P (levels + 1) rest

section Tokens

variable {P : ℕ → List (Token K) → Prop} {Q : List (Token K) → Prop} {top levels : ℕ}

/-- Dropping blanks keeps a levelled property. -/
theorem Levelled.dropWhile (hP : Levelled top P) {tokens : List (Token K)} (h : P levels tokens) :
    P levels (tokens.dropWhile Token.isWhitespace) := by
  induction tokens with
  | nil => exact h
  | cons token rest ih =>
    rw [List.dropWhile_cons]
    split
    · next hblank =>
      -- A blank neither opens nor closes a block.
      cases token <;> cases hblank
      exact ih (hP.plain rfl rfl h)
    · exact h

/-- A rule that goes on with the next token. -/
theorem Agree.next_bind {k k' : Token K → Rule K β}
    (h : ∀ token rest, P levels (token :: rest) → AgreeAt Q (k token) (k' token) rest) :
    Agree (P levels) Q (next >>= k) (next >>= k') := by
  intro tokens htokens
  cases tokens with
  | nil =>
    refine ⟨rfl, fun {a rest} h => ?_⟩
    cases h
  | cons token rest =>
    obtain ⟨hsame, hleaves⟩ := h token rest htokens
    exact ⟨hsame, hleaves⟩

/-- A rule that goes on with the next token that is not blank. -/
theorem Agree.nextSolid_bind (hP : Levelled top P) {k k' : Token K → Rule K β}
    (h : ∀ token rest, P levels (token :: rest) → AgreeAt Q (k token) (k' token) rest) :
    Agree (P levels) Q (nextSolid >>= k) (nextSolid >>= k') := by
  intro tokens htokens
  obtain ⟨hsame, hleaves⟩ := Agree.next_bind h _ (hP.dropWhile htokens)
  exact ⟨hsame, hleaves⟩

/-- A token that neither opens nor closes a block leaves the levels as they are. -/
theorem Agree.nextWith (hP : Levelled top P) {accepts : Token K → Bool}
    (haccepts : ∀ token, accepts token = true →
      token.opensBlock = false ∧ token.closesBlock = false) :
    Agree (P levels) (P levels) (nextWith accepts) (nextWith accepts) := by
  refine Agree.nextSolid_bind hP fun token rest htoken => ?_
  cases h : accepts token with
  | false => exact AgreeAt.fail
  | true =>
    obtain ⟨hopens, hcloses⟩ := haccepts token h
    exact AgreeAt.pure (hP.plain hopens hcloses htoken)

/-- A closing parenthesis gives a level back. -/
theorem Agree.closeParen (hP : Levelled top P) (hlevels : levels < top) :
    Agree (P levels) (P (levels + 1)) closeParen closeParen := by
  refine Agree.nextSolid_bind hP fun token rest htoken => ?_
  cases h : token.closesBlock with
  | false => exact AgreeAt.fail
  | true => exact AgreeAt.pure (hP.closes hlevels h htoken)

/-- A keyword is a plain token. -/
theorem Agree.keyword (hP : Levelled top P) (name : String) :
    Agree (P levels) (P levels) (keyword name) (keyword name) := by
  refine Agree.nextWith hP fun token h => ?_
  cases token with
  | ident => exact ⟨rfl, rfl⟩
  | _ => contradiction

/-- A comma is a plain token. -/
theorem Agree.comma (hP : Levelled top P) : Agree (P levels) (P levels) comma comma := by
  refine Agree.nextWith hP fun token h => ?_
  cases token with
  | comma => exact ⟨rfl, rfl⟩
  | _ => contradiction

/-- A character that stands for itself is a plain token. -/
theorem Agree.delim (hP : Levelled top P) (char : Char) :
    Agree (P levels) (P levels) (Rule.nextWith (Token.isDelim char))
      (Rule.nextWith (Token.isDelim char)) := by
  refine Agree.nextWith hP fun token h => ?_
  cases token with
  | delim => exact ⟨rfl, rfl⟩
  | _ => contradiction

/-- An identifier is a plain token. -/
theorem Agree.identifier (hP : Levelled top P) :
    Agree (P levels) (P levels) identifier identifier := by
  refine Agree.nextSolid_bind hP fun token rest htoken => ?_
  cases token <;> first | exact AgreeAt.fail | exact AgreeAt.pure (hP.plain rfl rfl htoken)

/-- A blank is a plain token. -/
theorem Agree.blank (hP : Levelled top P) : Agree (P levels) (P levels) blank blank := by
  refine Agree.next_bind fun token rest htoken => ?_
  cases token <;> first | exact AgreeAt.fail | exact AgreeAt.pure (hP.plain rfl rfl htoken)

end Tokens

/-! ## Blocks -/

/-- What is left after an opening token of a list with the property `P`. -/
def Opened (P : List (Token K) → Prop) (rest : List (Token K)) : Prop :=
  ∃ token : Token K, token.opensBlock = true ∧ P (token :: rest)

section Blocks

variable {P : ℕ → List (Token K) → Prop} {top levels : ℕ} {r s : Rule K α}

/-- An opening token takes a level, and a rule that gives one back may read what follows. -/
theorem Agree.opened (hP : Levelled top P) (h : Agree (P levels) (P (levels + 1)) r s) :
    Agree (Opened (P (levels + 1))) (P (levels + 1)) r s := by
  rintro rest ⟨token, hopens, hrest⟩
  exact h rest (hP.opens hopens hrest)

/-- Where no opening token can come next, all rules for what follows it agree. -/
theorem Agree.of_not_opened
    (h : ∀ token rest, token.opensBlock = true → ¬ P levels (token :: rest)) :
    Agree (Opened (P levels)) (P levels) r s := by
  rintro rest ⟨token, hopens, hrest⟩
  exact absurd hrest (h token rest hopens)

/-- Taking a token that opens a block. -/
theorem Agree.nextWith_opened (hP : Levelled top P) {accepts : Token K → Bool}
    (haccepts : ∀ token, accepts token = true → token.opensBlock = true) :
    Agree (P levels) (Opened (P levels)) (Rule.nextWith accepts) (Rule.nextWith accepts) := by
  refine Agree.nextSolid_bind hP fun token rest htoken => ?_
  cases h : accepts token with
  | false => exact AgreeAt.fail
  | true => exact AgreeAt.pure ⟨token, haccepts token h, htoken⟩

end Blocks

end CssColor.Rule
