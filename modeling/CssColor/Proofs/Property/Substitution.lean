import CssColor.Proofs.Property.Expansion

/-!
# Substitution of custom properties

`Property.substitute` checks for cycles and bounds the depth of the references and the size of the
value. It gives the expansion of a value if there is one within the bounds
(`substitute_eq_some_iff`), so the check for cycles takes away nothing.
-/

namespace CssColor.Property

open Token

variable {K : Type}

/-! ## Steps -/

section Steps

variable {α β : Type} {token : Token K} {rest output : List (Token K)} {size size' : ℕ}
  {expand : List (Token K) → Counted (List (Token K))}

/-- A counted step goes on from the size that the one before it has left. -/
theorem counted_bind_eq_some_iff {x : Counted α} {next : α → Counted β} {b : β} :
    (x >>= next) size = some (b, size') ↔
      ∃ a between, x size = some (a, between) ∧ next a between = some (b, size') := by
  have hbind : (x >>= next) size = (x size).bind fun (a, between) => next a between := rfl
  rw [hbind, Option.bind_eq_some_iff]
  constructor
  · rintro ⟨⟨a, between⟩, hx, hnext⟩
    exact ⟨a, between, hx, hnext⟩
  · rintro ⟨a, between, hx, hnext⟩
    exact ⟨⟨a, between⟩, hx, hnext⟩

/-- A value that is there is not counted. -/
theorem counted_liftM_eq_some_iff {value : Option α} {a : α} :
    (liftM value : Counted α) size = some (a, size') ↔ value = some a ∧ size' = size := by
  cases value with
  | none =>
    constructor
    · intro h
      cases h
    · rintro ⟨h, -⟩
      cases h
  | some b =>
    constructor
    · intro h
      cases h
      exact ⟨rfl, rfl⟩
    · rintro ⟨h, rfl⟩
      cases h
      rfl

/-- A token is counted while there is room for it. -/
theorem count_eq_some_iff : count size = some ((), size') ↔ size < maxSize ∧ size' = size + 1 := by
  unfold count
  split
  · next hlt =>
    constructor
    · intro h
      cases h
      exact ⟨hlt, rfl⟩
    · rintro ⟨-, rfl⟩
      rfl
  · next hge =>
    constructor
    · intro h
      cases h
    · rintro ⟨hlt, -⟩
      exact absurd hlt hge

/-- Nothing is written for no tokens. -/
theorem substituteWith_nil_eq_some_iff :
    substituteWith expand [] size = some (output, size') ↔ output = [] ∧ size' = size := by
  rw [substituteWith]
  constructor
  · intro h
    cases h
    exact ⟨rfl, rfl⟩
  · rintro ⟨rfl, rfl⟩
    rfl

/-- A token that is not a reference is counted and copied. -/
theorem substituteWith_copy_eq_some_iff (hvar : token.isFunction "var" = false) :
    substituteWith expand (token :: rest) size = some (output, size') ↔
      size < maxSize ∧ ∃ output', substituteWith expand rest (size + 1) = some (output', size') ∧
        output = token :: output' := by
  have hbranch : ¬ token.isFunction "var" = true := by
    rw [hvar]
    exact Bool.false_ne_true
  rw [substituteWith, counted_bind_eq_some_iff, if_neg hbranch]
  constructor
  · rintro ⟨_, between, hcount, hnext⟩
    obtain ⟨hlt, rfl⟩ := count_eq_some_iff.1 hcount
    obtain ⟨output', _, hrest, hlast⟩ := counted_bind_eq_some_iff.1 hnext
    cases hlast
    exact ⟨hlt, output', hrest, rfl⟩
  · rintro ⟨hlt, output', hrest, rfl⟩
    exact ⟨(), size + 1, count_eq_some_iff.2 ⟨hlt, rfl⟩,
      counted_bind_eq_some_iff.2 ⟨output', size', hrest, rfl⟩⟩

/-- The step for a reference, in terms of its block. -/
theorem substituteWith_of_block (hvar : token.isFunction "var" = true) :
    substituteWith expand (token :: rest) = (count >>= fun _ =>
      match Rule.block rest with
      | (some arguments, after) => expand arguments >>= fun expanded =>
        substituteWith expand after >>= fun output => pure (expanded ++ output)
      | (none, _) => failure) := by
  rw [substituteWith, if_pos hvar]
  congr 1
  funext _
  split
  · next hblock => rw [hblock]
  · next hblock => rw [hblock]

/-- A reference is counted and replaced by what its arguments expand to. -/
theorem substituteWith_reference_eq_some_iff (hvar : token.isFunction "var" = true) :
    substituteWith expand (token :: rest) size = some (output, size') ↔
      size < maxSize ∧ ∃ arguments after output₁ between output₂,
        rest = arguments ++ closeParen :: after ∧ Balanced arguments ∧
        expand arguments (size + 1) = some (output₁, between) ∧
        substituteWith expand after between = some (output₂, size') ∧
        output = output₁ ++ output₂ := by
  rw [substituteWith_of_block hvar, counted_bind_eq_some_iff]
  constructor
  · rintro ⟨_, between, hcount, hnext⟩
    obtain ⟨hlt, rfl⟩ := count_eq_some_iff.1 hcount
    -- The arguments go up to the parenthesis that closes the block.
    rcases hblock : Rule.block rest with ⟨_ | arguments, after⟩
    · rw [hblock] at hnext
      cases hnext
    · rw [hblock] at hnext
      obtain ⟨hrest, harguments⟩ := Rule.block_eq_some_iff.1 hblock
      obtain ⟨output₁, between, hexpand, hnext⟩ := counted_bind_eq_some_iff.1 hnext
      obtain ⟨output₂, _, hafter, hlast⟩ := counted_bind_eq_some_iff.1 hnext
      cases hlast
      exact ⟨hlt, arguments, after, output₁, between, output₂, hrest, harguments, hexpand, hafter,
        rfl⟩
  · rintro ⟨hlt, arguments, after, output₁, between, output₂, hrest, harguments, hexpand, hafter,
      rfl⟩
    refine ⟨(), size + 1, count_eq_some_iff.2 ⟨hlt, rfl⟩, ?_⟩
    rw [Rule.block_eq_some_iff.2 ⟨hrest, harguments⟩]
    exact counted_bind_eq_some_iff.2 ⟨output₁, between, hexpand,
      counted_bind_eq_some_iff.2 ⟨output₂, size', hafter, rfl⟩⟩

end Steps

variable [Number K] {properties : Lookup String} {levels : ℕ} {active : List String}

/-- What the arguments of a reference expand to, where `levels` references may be nested in one
another and the properties `active` are being expanded. -/
def expandArguments (properties : Lookup String) (levels : ℕ) (active : List String)
    (arguments : List (Token K)) : Counted (List (Token K)) := do
  let reference ← liftM (Reference.rule (collapse arguments)).1
  if active.contains reference.name then failure
  else
    match levels with
    | 0 => failure
    | levels + 1 =>
      match reference.replacement? properties with
      | some replacement =>
        substituteTokens properties levels (reference.inside properties active) replacement
      | none => failure

/-- The substitution goes on with the replacement of a reference. -/
theorem substituteTokens_eq (tokens : List (Token K)) :
    substituteTokens properties levels active tokens =
      substituteWith (expandArguments properties levels active) (collapse tokens) := by
  rw [substituteTokens.eq_def]
  congr 1
  funext arguments
  unfold expandArguments
  congr 1
  funext reference
  congr 1
  -- The two sides choose the replacement in the same way, one of them before going on.
  cases levels with
  | zero => rfl
  | succ levels =>
    unfold Reference.replacement? Reference.inside
    cases value? properties reference.name with
    | some value => rfl
    | none =>
      cases reference.fallback with
      | some fallback => rfl
      | none => rfl

/-- A reference expands to what its replacement does, unless its property is being expanded. -/
theorem expandArguments_eq_some_iff {arguments output : List (Token K)} {size size' : ℕ} :
    expandArguments properties levels active arguments size = some (output, size') ↔
      ∃ reference replacement inner, Reference.Written (collapse arguments) reference ∧
        reference.name ∉ active ∧ levels = inner + 1 ∧
        reference.replacement? properties = some replacement ∧
        substituteTokens properties inner (reference.inside properties active) replacement size =
          some (output, size') := by
  unfold expandArguments
  rw [counted_bind_eq_some_iff]
  constructor
  · rintro ⟨reference, _, hreference, hnext⟩
    obtain ⟨hrule, rfl⟩ := counted_liftM_eq_some_iff.1 hreference
    split at hnext
    · cases hnext
    · next hname =>
      rw [List.contains_iff_mem] at hname
      cases levels with
      | zero => cases hnext
      | succ inner =>
        cases hreplacement : reference.replacement? properties with
        | none =>
          rw [hreplacement] at hnext
          cases hnext
        | some replacement =>
          rw [hreplacement] at hnext
          exact ⟨reference, replacement, inner, Reference.rule_eq_some_iff.1 hrule, hname, rfl,
            hreplacement, hnext⟩
  · rintro ⟨reference, replacement, inner, hwritten, hname, rfl, hreplacement, hinner⟩
    refine ⟨reference, size, counted_liftM_eq_some_iff.2
      ⟨Reference.rule_eq_some_iff.2 hwritten, rfl⟩, ?_⟩
    rw [if_neg (by rwa [List.contains_iff_mem]), hreplacement]
    exact hinner

/-! ## Soundness -/

/-- The output is that of a list of tokens, within the bounds, and `size'` counts it in. -/
def Accounted (properties : Lookup String) (levels size : ℕ) (tokens output : List (Token K))
    (size' : ℕ) : Prop :=
  ∃ depth references, Spliced properties tokens depth references output ∧ depth ≤ levels ∧
    size' = size + output.length + references ∧ (size ≤ maxSize → size' ≤ maxSize)

/-- If references expand to their replacements, lists of tokens do. -/
theorem substituteWith_accounted {expand : List (Token K) → Counted (List (Token K))}
    (hexpand : ∀ {arguments output size size'}, expand arguments size = some (output, size') →
      ∃ reference replacement inner, Reference.Written (collapse arguments) reference ∧
        levels = inner + 1 ∧ reference.replacement? properties = some replacement ∧
        Accounted properties inner size (collapse replacement) output size')
    {tokens output : List (Token K)} {size size' : ℕ}
    (h : substituteWith expand tokens size = some (output, size')) :
    Accounted properties levels size tokens output size' := by
  -- A reference is followed by what comes after its block, so the induction is on the length.
  induction hlength : tokens.length using Nat.strongRecOn generalizing tokens output size with
  | _ length ih =>
    cases tokens with
    | nil =>
      obtain ⟨rfl, rfl⟩ := substituteWith_nil_eq_some_iff.1 h
      exact ⟨0, 0, Spliced.nil, Nat.zero_le levels, rfl, id⟩
    | cons token rest =>
      rw [List.length_cons] at hlength
      cases hvar : token.isFunction "var" with
      | false =>
        -- Every other token is counted once, and appears in the output.
        obtain ⟨hlt, output', hrest, rfl⟩ := (substituteWith_copy_eq_some_iff hvar).1 h
        obtain ⟨depth, references, hspliced, hdepth, hsize, hmax⟩ :=
          ih rest.length (by omega) hrest rfl
        refine ⟨depth, references, Spliced.copy hvar hspliced, hdepth, ?_, fun _ => hmax hlt⟩
        rw [List.length_cons]
        omega
      | true =>
        -- A reference is counted once, and so are the tokens of its replacement and those behind
        -- it.
        obtain ⟨hlt, arguments, after, output₁, between, output₂, rfl, harguments, hexpanded,
          hafter, rfl⟩ := (substituteWith_reference_eq_some_iff hvar).1 h
        obtain ⟨reference, replacement, inner, hwritten, rfl, hreplacement, depth₁, references₁,
          hspliced₁, hdepth₁, hsize₁, hmax₁⟩ := hexpand hexpanded
        have hshorter : after.length < length := by
          rw [← hlength, List.length_append, List.length_cons]
          omega
        obtain ⟨depth₂, references₂, hspliced₂, hdepth₂, hsize₂, hmax₂⟩ :=
          ih after.length hshorter hafter rfl
        refine ⟨_, _, Spliced.reference hvar harguments hwritten hreplacement hspliced₁ hspliced₂,
          by omega, ?_, fun _ => hmax₂ (hmax₁ hlt)⟩
        rw [List.length_append]
        omega

/-- What the substitution gives is the expansion, within the bounds. -/
theorem substituteTokens_accounted {tokens output : List (Token K)} {size size' : ℕ}
    (h : substituteTokens properties levels active tokens size = some (output, size')) :
    Accounted properties levels size (collapse tokens) output size' := by
  induction levels generalizing active tokens output size size' with
  | zero =>
    rw [substituteTokens_eq] at h
    refine substituteWith_accounted (fun hexpand => ?_) h
    obtain ⟨_, _, _, _, _, hlevels, _⟩ := expandArguments_eq_some_iff.1 hexpand
    cases hlevels
  | succ levels ih =>
    rw [substituteTokens_eq] at h
    refine substituteWith_accounted (fun hexpand => ?_) h
    obtain ⟨reference, replacement, inner, hwritten, -, hlevels, hreplacement, hinner⟩ :=
      expandArguments_eq_some_iff.1 hexpand
    cases hlevels
    exact ⟨reference, replacement, levels, hwritten, rfl, hreplacement, ih hinner⟩

/-! ## Completeness -/

/-- In a list with an expansion no property that is being expanded is referred to, and what its
references stand for is reached in turn. -/
theorem Reached.of_expansion {start tokens output : List (Token K)} {depth references : ℕ}
    (h : Reached properties start active tokens)
    (hexpansion : Expansion properties tokens depth references output) {reference : Reference K}
    (hmentions : Mentions (collapse tokens) reference) :
    reference.name ∉ active ∧ ∀ replacement, reference.replacement? properties = some replacement →
      Reached properties start (reference.inside properties active) replacement := by
  have hname : reference.name ∉ active := by
    intro hname
    obtain ⟨_, _, _, _, hreplacement, hinner, -⟩ := hexpansion.of_mentions hmentions
    exact h.not_expansion_of_mem_active hmentions hname hreplacement hinner
  exact ⟨hname, fun _ hreplacement => Reached.inside h hmentions hname hreplacement⟩

/-- An expansion within the bounds is found, if no reference on the way is to a property that is
being expanded. -/
theorem Spliced.substituteWith_eq {start tokens output : List (Token K)} {depth references : ℕ}
    (h : Spliced properties tokens depth references output) (levels size : ℕ)
    (active : List String) (hdepth : depth ≤ levels)
    (hreached : ∀ {reference}, Mentions tokens reference → reference.name ∉ active ∧
      ∀ replacement, reference.replacement? properties = some replacement →
        Reached properties start (reference.inside properties active) replacement)
    (hsize : size + output.length + references ≤ maxSize) :
    substituteWith (expandArguments properties levels active) tokens size =
      some (output, size + output.length + references) := by
  induction h generalizing levels active size with
  | nil => exact substituteWith_nil_eq_some_iff.2 ⟨rfl, rfl⟩
  | @copy token rest output depth references hvar _ ih =>
    -- The token is in the output, so the size leaves room to count it.
    rw [List.length_cons] at hsize
    have hrest := ih levels (size + 1) active hdepth
      (fun hmentions => hreached (Mentions.afterToken hvar hmentions)) (by omega)
    refine (substituteWith_copy_eq_some_iff hvar).2 ⟨by omega, output, ?_, rfl⟩
    rw [hrest, List.length_cons]
    congr 2
    omega
  | @reference token arguments after replacement output output' reference depth references depth'
      references' hvar harguments hwritten hreplacement hinner _ ihinner ihafter =>
    rw [List.length_append] at hsize
    -- The reference takes a level and is counted before its replacement is.
    obtain ⟨inner, rfl⟩ : ∃ inner, levels = inner + 1 := ⟨levels - 1, by omega⟩
    obtain ⟨hname, hinside⟩ := hreached (Mentions.here hvar harguments hwritten)
    have hexpanded := ihinner inner (size + 1) _ (by omega)
      ((hinside replacement hreplacement).of_expansion hinner) (by omega)
    have hafter := ihafter (inner + 1) (size + 1 + output.length + references) active (by omega)
      (fun hmentions => hreached (Mentions.afterReference hvar harguments hmentions)) (by omega)
    refine (substituteWith_reference_eq_some_iff hvar).2 ⟨by omega, arguments, after, output,
      size + 1 + output.length + references, output', rfl, harguments, ?_, ?_, rfl⟩
    · refine expandArguments_eq_some_iff.2
        ⟨reference, replacement, inner, hwritten, hname, rfl, hreplacement, ?_⟩
      rw [substituteTokens_eq]
      exact hexpanded
    · rw [hafter, List.length_append]
      congr 2
      omega

/-! ## Whole values -/

/-- The substitution in a list of tokens, as its expansion. -/
theorem substituteTokens_eq_some_iff {tokens output : List (Token K)} {size : ℕ} :
    substituteTokens properties levels [] tokens 0 = some (output, size) ↔
      ∃ depth references, Expansion properties tokens depth references output ∧ depth ≤ levels ∧
        size = output.length + references ∧ size ≤ maxSize := by
  constructor
  · intro h
    obtain ⟨depth, references, hspliced, hdepth, hsize, hmax⟩ := substituteTokens_accounted h
    exact ⟨depth, references, hspliced, hdepth, by omega, hmax (Nat.zero_le maxSize)⟩
  · rintro ⟨depth, references, hexpansion, hdepth, rfl, hmax⟩
    rw [substituteTokens_eq]
    have hsubstitute := hexpansion.substituteWith_eq levels 0 [] hdepth
      (Reached.start.of_expansion hexpansion) (by omega)
    rwa [Nat.zero_add] at hsubstitute

/-- The tokens that a value stands for: its own if it holds no reference, and otherwise those of its
expansion, if that is within the bounds. Blanks are collapsed. -/
def Substituted (properties : Lookup String) (value tokens : List (Token K)) : Prop :=
  value.any (isFunction "var") = false ∧ tokens = collapse value ∨
    value.any (isFunction "var") = true ∧ ∃ depth references output,
      Expansion properties value depth references output ∧ depth ≤ maxBlockDepth ∧
        output.length + references ≤ maxSize ∧ tokens = collapse output

/-- A value is substituted exactly if it has such an expansion. -/
theorem substitute_eq_some_iff {value : String} {tokens : List (Token K)} :
    substitute properties value = some tokens ↔
      Substituted properties (scan value.toList) tokens := by
  unfold substitute Substituted
  dsimp only
  cases hvar : (scan value.toList : List (Token K)).any (isFunction "var") with
  | false =>
    constructor
    · intro h
      cases h
      exact Or.inl ⟨rfl, rfl⟩
    · rintro (⟨-, rfl⟩ | ⟨h, -⟩)
      · rfl
      · cases h
  | true =>
    rw [if_pos rfl, Option.map_eq_some_iff]
    constructor
    · rintro ⟨⟨output, size⟩, h, rfl⟩
      obtain ⟨depth, references, hexpansion, hdepth, rfl, hmax⟩ :=
        substituteTokens_eq_some_iff.1 h
      exact Or.inr ⟨rfl, depth, references, output, hexpansion, hdepth, hmax, rfl⟩
    · rintro (⟨h, -⟩ | ⟨-, depth, references, output, hexpansion, hdepth, hmax, rfl⟩)
      · cases h
      · exact ⟨(output, output.length + references),
          substituteTokens_eq_some_iff.2 ⟨depth, references, hexpansion, hdepth, rfl, hmax⟩, rfl⟩

/-- No reference is left after the substitution. -/
theorem Substituted.not_isFunction_var {value tokens : List (Token K)}
    (h : Substituted properties value tokens) :
    ∀ token ∈ tokens, token.isFunction "var" = false := by
  intro token htoken
  rcases h with ⟨hnone, rfl⟩ | ⟨-, _, _, _, hexpansion, -, -, rfl⟩
  · rw [List.any_eq_false] at hnone
    exact Bool.eq_false_of_not_eq_true (hnone token (mem_of_mem_collapse htoken))
  · exact hexpansion.not_isFunction_var token (mem_of_mem_collapse htoken)

/-- The substitution in a value succeeds if and only if the value holds no reference, or has an
expansion with references nested at most `maxBlockDepth` deep and at most `maxSize` tokens and
references. It gives the tokens of the value or of that expansion, with no reference among them. The
check for cycles only ever rejects references that have no expansion. -/
theorem substitute_eq_expansion (properties : Lookup String) (value : String) :
    (∀ tokens : List (Token K), substitute properties value = some tokens ↔
      Substituted properties (scan value.toList) tokens) ∧
    (∀ tokens ∈ (substitute properties value : Option (List (Token K))), ∀ token ∈ tokens,
      token.isFunction "var" = false) ∧
    ¬ ∃ active tokens reference replacement depth references output,
      Reached properties (scan value.toList : List (Token K)) active tokens ∧
      Mentions (collapse tokens) reference ∧ reference.name ∈ active ∧
      reference.replacement? properties = some replacement ∧
      Expansion properties replacement depth references output := by
  refine ⟨fun tokens => substitute_eq_some_iff, fun tokens htokens => ?_, ?_⟩
  · exact (substitute_eq_some_iff.1 htokens).not_isFunction_var
  · rintro ⟨_, _, _, _, _, _, _, hreached, hmentions, hname, hreplacement, hexpansion⟩
    exact hreached.not_expansion_of_mem_active hmentions hname hreplacement hexpansion

end CssColor.Property
