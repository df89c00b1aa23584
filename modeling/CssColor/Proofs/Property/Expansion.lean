import CssColor.Property
import CssColor.Proofs.Token.Balance

/-!
# What references to custom properties stand for

`Expansion` says what a list of tokens becomes when each reference in it is replaced by the
expansion of what it stands for, with no bound and no check for cycles. It tells how deep references
are nested in one another and how many there are.

`Reached` are the lists that are expanded on the way, with the properties around them. A reference
to one of these properties has no expansion (`not_expansion_of_mem_active`): it would be an
expansion of a list around the reference, with more references than it has itself.
-/

namespace CssColor.Property

open Token

variable {K : Type}

/-- The arguments of `var()`: a name that starts with two dashes, and after a comma a fallback. -/
inductive Reference.Written : List (Token K) → Reference K → Prop
  | bare {before after : List (Token K)} {name : String} (hbefore : AreBlank before)
      (hname : name.startsWith "--" = true) (hafter : AreBlank after) :
      Written (before ++ ident name :: after) ⟨name, none⟩
  | withFallback {before between fallback : List (Token K)} {name : String}
      (hbefore : AreBlank before) (hname : name.startsWith "--" = true)
      (hbetween : AreBlank between) :
      Written (before ++ ident name :: (between ++ comma :: fallback)) ⟨name, some fallback⟩

/-- The rule for the arguments of `var()` reads what they write. -/
theorem Reference.rule_eq_some_iff {tokens : List (Token K)} {reference : Reference K} :
    (Reference.rule tokens).1 = some reference ↔ Reference.Written tokens reference := by
  constructor
  · intro h
    obtain ⟨rest, hrule⟩ : ∃ rest, Reference.rule tokens = (some reference, rest) :=
      ⟨_, Prod.ext h rfl⟩
    obtain ⟨name, left, hname, hnext⟩ := Rule.bind_eq_some_iff.1 hrule
    obtain ⟨before, hbefore, rfl⟩ := Rule.identifier_eq_some_iff.1 hname
    split at hnext
    · -- The name starts with two dashes, and a fallback may follow.
      next hdashes =>
      obtain ⟨exhausted, left', hexhausted, hnext⟩ := Rule.bind_eq_some_iff.1 hnext
      rw [Rule.isExhausted_eq] at hexhausted
      cases hexhausted
      split at hnext
      · next hblank =>
        cases hnext
        exact Written.bare hbefore hdashes (List.all_eq_true.1 hblank)
      · obtain ⟨_, left', hcomma, hlast⟩ := Rule.bind_eq_some_iff.1 hnext
        obtain ⟨between, hbetween, rfl⟩ := Rule.comma_eq_some_iff.1 hcomma
        obtain rfl := Option.some.inj (Prod.mk.inj hlast).1
        exact Written.withFallback hbefore hdashes hbetween
    · cases hnext
  · intro h
    cases h with
    | @bare before after name hbefore hname hafter =>
      have hrule : Reference.rule (before ++ ident name :: after) = (some ⟨name, none⟩, after) := by
        refine Rule.bind_eq_some_iff.2
          ⟨name, after, Rule.identifier_eq_some_iff.2 ⟨before, hbefore, rfl⟩, ?_⟩
        rw [if_pos hname]
        refine Rule.bind_eq_some_iff.2 ⟨true, after, ?_, rfl⟩
        rw [Rule.isExhausted_eq, List.all_eq_true.2 hafter]
      rw [hrule]
    | @withFallback before between fallback name hbefore hname hbetween =>
      have hrule : Reference.rule (before ++ ident name :: (between ++ comma :: fallback)) =
          (some ⟨name, some fallback⟩, []) := by
        refine Rule.bind_eq_some_iff.2
          ⟨name, _, Rule.identifier_eq_some_iff.2 ⟨before, hbefore, rfl⟩, ?_⟩
        rw [if_pos hname]
        refine Rule.bind_eq_some_iff.2 ⟨false, between ++ comma :: fallback, ?_, ?_⟩
        · rw [Rule.isExhausted_eq, List.all_append, List.all_cons]
          simp [isWhitespace]
        · exact Rule.bind_eq_some_iff.2
            ⟨(), fallback, Rule.comma_eq_some_iff.2 ⟨between, hbetween, rfl⟩, rfl⟩
      rw [hrule]

variable [Number K]

/-- What a reference stands for: the value of its property, or the fallback if there is none. -/
def Reference.replacement? (properties : Lookup String) (reference : Reference K) :
    Option (List (Token K)) :=
  match value? properties reference.name with
  | some value => some (scan value.toList)
  | none => reference.fallback

/-- `Spliced properties tokens depth references output` says that `output` are the tokens with the
references replaced. They are nested `depth` deep, and `references` of them are replaced. -/
inductive Spliced (properties : Lookup String) :
    List (Token K) → ℕ → ℕ → List (Token K) → Prop
  | nil : Spliced properties [] 0 0 []
  | copy {token : Token K} {rest output : List (Token K)} {depth references : ℕ}
      (hvar : token.isFunction "var" = false)
      (hrest : Spliced properties rest depth references output) :
      Spliced properties (token :: rest) depth references (token :: output)
  | reference {token : Token K} {arguments after replacement output output' : List (Token K)}
      {reference : Reference K} {depth references depth' references' : ℕ}
      (hvar : token.isFunction "var" = true) (harguments : Balanced arguments)
      (hwritten : Reference.Written (collapse arguments) reference)
      (hreplacement : reference.replacement? properties = some replacement)
      (hinner : Spliced properties (collapse replacement) depth references output)
      (hafter : Spliced properties after depth' references' output') :
      Spliced properties (token :: (arguments ++ closeParen :: after)) (max (depth + 1) depth')
        (references + 1 + references') (output ++ output')

/-- What a list of tokens becomes when its blanks are collapsed and its references replaced. -/
def Expansion (properties : Lookup String) (tokens : List (Token K)) (depth references : ℕ)
    (output : List (Token K)) : Prop :=
  Spliced properties (collapse tokens) depth references output

section Spliced

variable {properties : Lookup String} {token : Token K} {rest output : List (Token K)}
  {depth references : ℕ}

/-- The expansion of no tokens is empty. -/
theorem Spliced.of_nil (h : Spliced properties ([] : List (Token K)) depth references output) :
    depth = 0 ∧ references = 0 ∧ output = [] := by
  cases h
  exact ⟨rfl, rfl, rfl⟩

/-- What becomes of a list in front of which a token is copied. -/
theorem Spliced.of_copy (hvar : token.isFunction "var" = false)
    (h : Spliced properties (token :: rest) depth references output) :
    ∃ output', Spliced properties rest depth references output' ∧ output = token :: output' := by
  generalize htokens : token :: rest = tokens at h
  cases h with
  | nil => cases htokens
  | copy _ hrest =>
    cases htokens
    exact ⟨_, hrest, rfl⟩
  | reference hvar' =>
    cases htokens
    rw [hvar] at hvar'
    cases hvar'

/-- What becomes of a list in front of which a reference is replaced. -/
theorem Spliced.of_reference {arguments after : List (Token K)}
    (hvar : token.isFunction "var" = true) (harguments : Balanced arguments)
    (h : Spliced properties (token :: (arguments ++ closeParen :: after)) depth references output) :
    ∃ reference replacement depth₁ references₁ output₁ depth₂ references₂ output₂,
      Reference.Written (collapse arguments) reference ∧
      reference.replacement? properties = some replacement ∧
      Spliced properties (collapse replacement) depth₁ references₁ output₁ ∧
      Spliced properties after depth₂ references₂ output₂ ∧
      depth = max (depth₁ + 1) depth₂ ∧ references = references₁ + 1 + references₂ ∧
      output = output₁ ++ output₂ := by
  generalize htokens : token :: (arguments ++ closeParen :: after) = tokens at h
  cases h with
  | nil => cases htokens
  | copy hvar' =>
    obtain ⟨rfl, -⟩ := List.cons.inj htokens
    rw [hvar] at hvar'
    cases hvar'
  | reference _ harguments' hwritten hreplacement hinner hafter =>
    -- Only one of the closing parentheses leaves a balanced list in front of it.
    obtain ⟨-, htail⟩ := List.cons.inj htokens
    obtain ⟨rfl, rfl⟩ := Rule.balanced_content_unique harguments harguments' htail
    exact ⟨_, _, _, _, _, _, _, _, hwritten, hreplacement, hinner, hafter, rfl, rfl, rfl⟩

/-- References have at most one replacement for each list. -/
theorem Spliced.unique {tokens output' : List (Token K)} {depth' references' : ℕ}
    (h : Spliced properties tokens depth references output)
    (h' : Spliced properties tokens depth' references' output') :
    depth = depth' ∧ references = references' ∧ output = output' := by
  induction h generalizing depth' references' output' with
  | nil =>
    obtain ⟨rfl, rfl, rfl⟩ := h'.of_nil
    exact ⟨rfl, rfl, rfl⟩
  | copy hvar _ ih =>
    obtain ⟨_, hrest, rfl⟩ := h'.of_copy hvar
    obtain ⟨rfl, rfl, rfl⟩ := ih hrest
    exact ⟨rfl, rfl, rfl⟩
  | reference hvar harguments hwritten hreplacement _ _ ihinner ihafter =>
    -- The block, the reference in it and its replacement are determined by the list.
    obtain ⟨reference, replacement, _, _, _, _, _, _, hwritten', hreplacement', hinner, hafter, rfl,
      rfl, rfl⟩ := h'.of_reference hvar harguments
    rw [← Reference.rule_eq_some_iff] at hwritten hwritten'
    obtain rfl := Option.some.inj (hwritten.symm.trans hwritten')
    obtain rfl := Option.some.inj (hreplacement.symm.trans hreplacement')
    obtain ⟨rfl, rfl, rfl⟩ := ihinner hinner
    obtain ⟨rfl, rfl, rfl⟩ := ihafter hafter
    exact ⟨rfl, rfl, rfl⟩

/-- No reference is left. -/
theorem Spliced.not_isFunction_var {tokens : List (Token K)}
    (h : Spliced properties tokens depth references output) :
    ∀ token ∈ output, token.isFunction "var" = false := by
  induction h with
  | nil => exact fun _ htoken => absurd htoken List.not_mem_nil
  | copy hvar _ ih =>
    intro token htoken
    rcases List.mem_cons.1 htoken with rfl | htoken
    · exact hvar
    · exact ih token htoken
  | reference _ _ _ _ _ _ ihinner ihafter =>
    intro token htoken
    rcases List.mem_append.1 htoken with htoken | htoken
    · exact ihinner token htoken
    · exact ihafter token htoken

end Spliced

/-! ## Cycles -/

/-- The references in a list of tokens, those in the arguments of others apart. -/
inductive Mentions : List (Token K) → Reference K → Prop
  | here {token : Token K} {arguments after : List (Token K)} {reference : Reference K}
      (hvar : token.isFunction "var" = true) (harguments : Balanced arguments)
      (hwritten : Reference.Written (collapse arguments) reference) :
      Mentions (token :: (arguments ++ closeParen :: after)) reference
  | afterToken {token : Token K} {rest : List (Token K)} {reference : Reference K}
      (hvar : token.isFunction "var" = false) (hrest : Mentions rest reference) :
      Mentions (token :: rest) reference
  | afterReference {token : Token K} {arguments after : List (Token K)} {reference : Reference K}
      (hvar : token.isFunction "var" = true) (harguments : Balanced arguments)
      (hafter : Mentions after reference) :
      Mentions (token :: (arguments ++ closeParen :: after)) reference

/-- The properties that are being expanded within a reference. -/
def Reference.inside (properties : Lookup String) (active : List String) (reference : Reference K) :
    List String :=
  if (value? properties reference.name).isSome then reference.name :: active else active

/-- The lists of tokens that are expanded in the course of the expansion of `start`, each with the
properties that are being expanded around it. -/
inductive Reached (properties : Lookup String) (start : List (Token K)) :
    List String → List (Token K) → Prop
  | start : Reached properties start [] start
  | inside {active : List String} {tokens replacement : List (Token K)} {reference : Reference K}
      (htokens : Reached properties start active tokens)
      (hmentions : Mentions (collapse tokens) reference) (hname : reference.name ∉ active)
      (hreplacement : reference.replacement? properties = some replacement) :
      Reached properties start (reference.inside properties active) replacement

section Cycles

variable {properties : Lookup String} {start tokens : List (Token K)} {active : List String}
  {reference : Reference K}

/-- A reference in a list that has an expansion has one too, with fewer references. -/
theorem Spliced.of_mentions {depth references : ℕ} {output : List (Token K)}
    (h : Spliced properties tokens depth references output)
    (hmentions : Mentions tokens reference) :
    ∃ replacement depth' references' output', reference.replacement? properties = some replacement ∧
      Expansion properties replacement depth' references' output' ∧ references' < references := by
  induction hmentions generalizing depth references output with
  | here hvar harguments hwritten =>
    obtain ⟨reference', replacement, depth₁, references₁, output₁, _, references₂, _, hwritten',
      hreplacement, hinner, -, -, rfl, -⟩ := h.of_reference hvar harguments
    -- Both are read from the arguments, so this is the reference that is mentioned.
    rw [← Reference.rule_eq_some_iff] at hwritten hwritten'
    obtain rfl := Option.some.inj (hwritten.symm.trans hwritten')
    exact ⟨replacement, depth₁, references₁, output₁, hreplacement, hinner, by omega⟩
  | afterToken hvar _ ih =>
    obtain ⟨_, hrest, -⟩ := h.of_copy hvar
    exact ih hrest
  | afterReference hvar harguments _ ih =>
    obtain ⟨_, _, _, references₁, _, _, references₂, _, -, -, -, hafter, -, rfl, -⟩ :=
      h.of_reference hvar harguments
    obtain ⟨replacement, depth', references', output', hreplacement, hexpansion, hlt⟩ := ih hafter
    exact ⟨replacement, depth', references', output', hreplacement, hexpansion, by omega⟩

/-- If a property that is being expanded has an expansion at all, so has the list that has been
reached, with no more references. -/
theorem Reached.expansion_of_mem_active {name : String}
    (h : Reached properties start active tokens) (hname : name ∈ active) :
    ∃ value, value? properties name = some value ∧
      ∀ {depth references output}, Expansion properties (scan value.toList : List (Token K)) depth
        references output → ∃ depth' references' output',
          Expansion properties tokens depth' references' output' ∧ references' ≤ references := by
  induction h with
  | start => exact absurd hname List.not_mem_nil
  | @inside active tokens replacement reference htokens hmentions _ hreplacement ih =>
    -- For the properties around the list that mentions the reference, there is one step more.
    have hactive (hname : name ∈ active) : ∃ value, value? properties name = some value ∧
        ∀ {depth references output}, Expansion properties (scan value.toList : List (Token K)) depth
          references output → ∃ depth' references' output',
            Expansion properties replacement depth' references' output' ∧
              references' ≤ references := by
      obtain ⟨value, hvalue, hexpansion⟩ := ih hname
      refine ⟨value, hvalue, fun h => ?_⟩
      obtain ⟨_, _, _, htokens, hle⟩ := hexpansion h
      obtain ⟨_, depth', references', output', hreplacement', hinner, hlt⟩ :=
        htokens.of_mentions hmentions
      obtain rfl := Option.some.inj (hreplacement.symm.trans hreplacement')
      exact ⟨depth', references', output', hinner, by omega⟩
    unfold Reference.inside at hname
    unfold Reference.replacement? at hreplacement
    cases hvalue : value? properties reference.name with
    | none =>
      rw [hvalue] at hname
      exact hactive hname
    | some value =>
      rw [hvalue] at hname hreplacement
      cases hreplacement
      rcases List.mem_cons.1 hname with rfl | hname
      · exact ⟨value, hvalue, fun h => ⟨_, _, _, h, le_rfl⟩⟩
      · exact hactive hname

/-- A reference to a property that is being expanded has no expansion. -/
theorem Reached.not_expansion_of_mem_active (h : Reached properties start active tokens)
    (hmentions : Mentions (collapse tokens) reference) (hname : reference.name ∈ active)
    {replacement output : List (Token K)} {depth references : ℕ}
    (hreplacement : reference.replacement? properties = some replacement) :
    ¬ Expansion properties replacement depth references output := by
  intro hexpansion
  obtain ⟨value, hvalue, haround⟩ := h.expansion_of_mem_active hname
  have hscan : reference.replacement? properties = some (scan value.toList) := by
    unfold Reference.replacement?
    rw [hvalue]
  obtain rfl := Option.some.inj (hscan.symm.trans hreplacement)
  -- The list around the reference has an expansion, so the reference has a smaller one.
  obtain ⟨_, _, _, htokens, hle⟩ := haround hexpansion
  obtain ⟨_, _, _, _, hreplacement', hinner, hlt⟩ := htokens.of_mentions hmentions
  obtain rfl := Option.some.inj (hscan.symm.trans hreplacement')
  obtain ⟨-, rfl, -⟩ := hinner.unique hexpansion
  omega

end Cycles

end CssColor.Property
