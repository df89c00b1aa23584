import CssColor.Proofs.Token.Nesting

/-!
# Balanced blocks

A list of tokens is balanced if each block that it opens is closed in it, and no front part of it
closes more blocks than it opens. `Rule.block` takes exactly the balanced list up to the parenthesis
that closes a block.
-/

namespace CssColor.Token

variable {K : Type}

/-- How many more blocks a list of tokens opens than it closes. -/
def surplus : List (Token K) → ℤ
  | [] => 0
  | token :: rest =>
    if token.opensBlock then surplus rest + 1
    else if token.closesBlock then surplus rest - 1
    else surplus rest

/-- Where `depth` blocks are open before a list of tokens, none is open after it, and it closes no
others. -/
structure BalancedFrom (depth : ℕ) (tokens : List (Token K)) : Prop where
  settled : depth + surplus tokens = 0
  sane : ∀ front, front <+: tokens → 0 ≤ depth + surplus front

/-- Each block that a list of tokens opens is closed in it, and it closes no others. -/
def Balanced (tokens : List (Token K)) : Prop := BalancedFrom 0 tokens

section Surplus

variable {token : Token K} {tokens : List (Token K)}

/-- A token that opens a block adds one to the surplus. -/
theorem surplus_of_opens (h : token.opensBlock = true) :
    surplus (token :: tokens) = surplus tokens + 1 := by
  rw [surplus, if_pos h]

/-- A parenthesis takes one off the surplus. -/
theorem surplus_of_closes (h : token.closesBlock = true) :
    surplus (token :: tokens) = surplus tokens - 1 := by
  rw [surplus, if_neg (not_opens_of_closes h), if_pos h]

/-- Any other token leaves the surplus as it is. -/
theorem surplus_of_plain (hopens : token.opensBlock = false) (hcloses : token.closesBlock = false) :
    surplus (token :: tokens) = surplus tokens := by
  rw [surplus, hopens, hcloses]
  rfl

/-- The surplus of two lists in a row. -/
theorem surplus_append (tokens tokens' : List (Token K)) :
    surplus (tokens ++ tokens') = surplus tokens + surplus tokens' := by
  induction tokens with
  | nil => simp [surplus]
  | cons token rest ih =>
    rw [List.cons_append]
    rcases opens_or_closes_or_plain token with h | h | ⟨hopens, hcloses⟩
    · rw [surplus_of_opens h, surplus_of_opens h]
      omega
    · rw [surplus_of_closes h, surplus_of_closes h]
      omega
    · rw [surplus_of_plain hopens hcloses, surplus_of_plain hopens hcloses]
      exact ih

end Surplus

/-- Nothing is balanced where no block is open. -/
theorem balancedFrom_nil_iff {depth : ℕ} :
    BalancedFrom depth ([] : List (Token K)) ↔ depth = 0 := by
  constructor
  · intro h
    have hsettled := h.settled
    unfold surplus at hsettled
    omega
  · rintro rfl
    refine ⟨rfl, fun front hfront => ?_⟩
    rw [List.prefix_nil.1 hfront]
    exact le_rfl

section Steps

variable {token : Token K} {rest : List (Token K)} {depth : ℕ}

/-- A token before a list that moves the number of open blocks by `change`. -/
theorem balancedFrom_cons_iff {depth' : ℕ} {change : ℤ} (hdepth : (depth' : ℤ) = depth + change)
    (hsurplus : ∀ tokens, surplus (token :: tokens) = surplus tokens + change) :
    BalancedFrom depth (token :: rest) ↔ BalancedFrom depth' rest := by
  constructor
  · rintro ⟨hsettled, hsane⟩
    refine ⟨?_, fun front hfront => ?_⟩
    · rw [hsurplus] at hsettled
      omega
    · have hle := hsane (token :: front) (List.cons_prefix_cons.2 ⟨rfl, hfront⟩)
      rw [hsurplus] at hle
      omega
  · rintro ⟨hsettled, hsane⟩
    -- A front part of the longer list is empty or has the token in front.
    refine ⟨?_, fun front hfront => ?_⟩
    · rw [hsurplus]
      omega
    · rcases List.prefix_cons_iff.1 hfront with rfl | ⟨front', rfl, hfront'⟩
      · exact Int.add_nonneg (Int.natCast_nonneg depth) le_rfl
      · have hle := hsane front' hfront'
        rw [hsurplus]
        omega

/-- Behind a token that opens a block one more block is open. -/
theorem balancedFrom_of_opens (h : token.opensBlock = true) :
    BalancedFrom depth (token :: rest) ↔ BalancedFrom (depth + 1) rest :=
  balancedFrom_cons_iff (Int.natCast_succ depth) fun _ => surplus_of_opens h

/-- Behind a parenthesis one block less is open. -/
theorem balancedFrom_of_closes (h : token.closesBlock = true) :
    BalancedFrom (depth + 1) (token :: rest) ↔ BalancedFrom depth rest := by
  have hdepth : (depth : ℤ) = (depth + 1 : ℕ) + (-1) := by omega
  exact balancedFrom_cons_iff hdepth fun _ => surplus_of_closes h

/-- A parenthesis that closes nothing is not balanced. -/
theorem not_balancedFrom_of_closes (h : token.closesBlock = true) :
    ¬ BalancedFrom 0 (token :: rest) := by
  intro hbalanced
  have hle := hbalanced.sane [token] (List.cons_prefix_cons.2 ⟨rfl, List.nil_prefix⟩)
  rw [surplus_of_closes h] at hle
  cases hle

/-- Behind any other token as many blocks are open as before. -/
theorem balancedFrom_of_plain (hopens : token.opensBlock = false)
    (hcloses : token.closesBlock = false) :
    BalancedFrom depth (token :: rest) ↔ BalancedFrom depth rest := by
  refine balancedFrom_cons_iff (Int.add_zero _).symm fun tokens => ?_
  rw [surplus_of_plain hopens hcloses, Int.add_zero]

end Steps

end CssColor.Token

namespace CssColor.Rule

open Token

variable {K : Type} {token : Token K} {tokens content rest after : List (Token K)}

/-- The only token that closes a block. -/
theorem eq_closeParen_of_closes (h : token.closesBlock = true) : token = Token.closeParen := by
  cases token with
  | closeParen => rfl
  | _ => contradiction

section Steps

variable {depth : ℕ}

/-- The block goes on behind a token that opens one inside of it. -/
theorem blockFrom_of_opens (h : token.opensBlock = true) : blockFrom depth (token :: rest) =
    ((blockFrom (depth + 1) rest).1.map (token :: ·), (blockFrom (depth + 1) rest).2) := by
  rw [blockFrom.eq_def]
  exact if_pos h

/-- The block ends at the parenthesis that closes it. -/
theorem blockFrom_zero_of_closes (h : token.closesBlock = true) :
    blockFrom 0 (token :: rest) = (some [], rest) := by
  rw [blockFrom.eq_def]
  exact (if_neg (not_opens_of_closes h)).trans (if_pos h)

/-- The block goes on behind the parenthesis that closes one inside of it. -/
theorem blockFrom_succ_of_closes (h : token.closesBlock = true) :
    blockFrom (depth + 1) (token :: rest) =
      ((blockFrom depth rest).1.map (token :: ·), (blockFrom depth rest).2) := by
  rw [blockFrom.eq_def]
  exact (if_neg (not_opens_of_closes h)).trans (if_pos h)

/-- The block goes on behind any other token. -/
theorem blockFrom_of_plain (hopens : token.opensBlock = false)
    (hcloses : token.closesBlock = false) :
    blockFrom depth (token :: rest) =
      ((blockFrom depth rest).1.map (token :: ·), (blockFrom depth rest).2) := by
  rw [blockFrom.eq_def]
  dsimp only
  rw [hopens, hcloses]
  rfl

/-- A token that does not close the block is the first of the content, and the rest of the content
is found after it. -/
theorem cons_content_iff {depth' : ℕ} (hfirst : token.closesBlock = true → depth ≠ 0)
    (ih : ∀ inner, blockFrom depth' rest = (some inner, after) ↔
      rest = inner ++ Token.closeParen :: after ∧ BalancedFrom depth' inner)
    (hbalanced : ∀ inner, BalancedFrom depth (token :: inner) ↔ BalancedFrom depth' inner) :
    ((blockFrom depth' rest).1.map (token :: ·), (blockFrom depth' rest).2) =
        (some content, after) ↔
      token :: rest = content ++ Token.closeParen :: after ∧ BalancedFrom depth content := by
  constructor
  · intro h
    obtain ⟨hmap, hafter⟩ := Prod.mk.inj h
    obtain ⟨inner, hinner, rfl⟩ := Option.map_eq_some_iff.1 hmap
    obtain ⟨hrest, hdepth⟩ := (ih inner).1 (Prod.ext hinner hafter)
    exact ⟨by rw [hrest, List.cons_append], (hbalanced inner).2 hdepth⟩
  · rintro ⟨htokens, hdepth⟩
    cases content with
    | nil =>
      -- The token would be the parenthesis that closes the block.
      obtain ⟨rfl, -⟩ := List.cons.inj htokens
      exact absurd (balancedFrom_nil_iff.1 hdepth) (hfirst rfl)
    | cons first inner =>
      obtain ⟨rfl, hrest⟩ := List.cons.inj htokens
      rw [(ih inner).2 ⟨hrest, (hbalanced inner).1 hdepth⟩]
      rfl

end Steps

/-- The content that is found for `depth` further open blocks closes them all, and the parenthesis
that closes the block follows. -/
theorem blockFrom_eq_some_iff (depth : ℕ) :
    blockFrom depth tokens = (some content, after) ↔
      tokens = content ++ Token.closeParen :: after ∧ BalancedFrom depth content := by
  -- The induction is on the tokens, for any number of blocks that are open in front of them.
  induction tokens generalizing depth content with
  | nil =>
    constructor
    · intro h
      cases h
    · rintro ⟨h, _⟩
      cases content <;> cases h
  | cons token rest ih =>
    rcases opens_or_closes_or_plain token with h | h | ⟨hopens, hcloses⟩
    · rw [blockFrom_of_opens h]
      exact cons_content_iff (fun hcloses => absurd h (not_opens_of_closes hcloses))
        (fun _ => ih (depth + 1)) fun _ => balancedFrom_of_opens h
    · cases depth with
      | succ depth =>
        rw [blockFrom_succ_of_closes h]
        exact cons_content_iff (fun _ => Nat.succ_ne_zero depth) (fun _ => ih depth)
          fun _ => balancedFrom_of_closes h
      | zero =>
        -- This is the parenthesis that closes the block.
        rw [blockFrom_zero_of_closes h]
        constructor
        · intro hblock
          cases hblock
          rw [eq_closeParen_of_closes h]
          exact ⟨rfl, balancedFrom_nil_iff.2 rfl⟩
        · rintro ⟨htokens, hbalanced⟩
          cases content with
          | nil =>
            cases htokens
            rfl
          | cons first inner =>
            cases htokens
            exact absurd hbalanced (not_balancedFrom_of_closes h)
    · rw [blockFrom_of_plain hopens hcloses]
      refine cons_content_iff (fun h => ?_) (fun _ => ih depth)
        fun _ => balancedFrom_of_plain hopens hcloses
      rw [hcloses] at h
      cases h

/-- The content of a block is the balanced list in front of the parenthesis that closes it. -/
theorem block_eq_some_iff : block tokens = (some content, after) ↔
    tokens = content ++ Token.closeParen :: after ∧ Balanced content :=
  blockFrom_eq_some_iff 0

/-- A block has one content. -/
theorem balanced_content_unique {content' after' : List (Token K)} (h : Balanced content)
    (h' : Balanced content')
    (heq : content ++ Token.closeParen :: after = content' ++ Token.closeParen :: after') :
    content = content' ∧ after = after' := by
  have hblock := block_eq_some_iff.2 ⟨heq, h'⟩
  rw [block_eq_some_iff.2 ⟨rfl, h⟩] at hblock
  cases hblock
  exact ⟨rfl, rfl⟩

end CssColor.Rule
