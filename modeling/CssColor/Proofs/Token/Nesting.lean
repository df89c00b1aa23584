import CssColor.Proofs.Token.Agreement
import Mathlib.Algebra.Order.Group.Nat

/-!
# Nesting of blocks

Functions and opening parentheses open a block, and a closing parenthesis closes the innermost open
one; where none is open it closes nothing. `nesting` is the largest number of blocks that are open
at once.

`NestedWithin` and `SplitWithin` are the levelled families that tie it to the levels of a grammar:
the first looks at the tokens that are left, the second at those that have been taken.
`LengthWithin` is the one of a grammar that has as many levels as there are tokens.
-/

namespace CssColor.Token

variable {K : Type}

/-- The number of open blocks after a list of tokens, where `depth` are open before it. -/
def depthAfter (depth : ℕ) : List (Token K) → ℕ
  | [] => depth
  | token :: rest =>
    if token.opensBlock then depthAfter (depth + 1) rest
    else if token.closesBlock then depthAfter (depth - 1) rest
    else depthAfter depth rest

/-- The largest number of blocks that are open at once in a list of tokens, where `depth` are open
before it. -/
def nestingFrom (depth : ℕ) : List (Token K) → ℕ
  | [] => depth
  | token :: rest =>
    if token.opensBlock then nestingFrom (depth + 1) rest
    else if token.closesBlock then max depth (nestingFrom (depth - 1) rest)
    else nestingFrom depth rest

/-- How many functions and parentheses are nested in one another in a list of tokens. -/
def nesting (tokens : List (Token K)) : ℕ := nestingFrom 0 tokens

section Steps

variable {token : Token K} {rest : List (Token K)} {depth : ℕ}

/-- Behind a token that opens a block one more block is open. -/
theorem depthAfter_of_opens (h : token.opensBlock = true) :
    depthAfter depth (token :: rest) = depthAfter (depth + 1) rest := by
  rw [depthAfter, if_pos h]

/-- The nesting behind a token that opens a block is counted from one block more. -/
theorem nestingFrom_of_opens (h : token.opensBlock = true) :
    nestingFrom depth (token :: rest) = nestingFrom (depth + 1) rest := by
  rw [nestingFrom, if_pos h]

/-- No token both opens and closes a block. -/
theorem not_opens_of_closes (h : token.closesBlock = true) : ¬ token.opensBlock = true := by
  cases token with
  | closeParen => exact Bool.false_ne_true
  | _ => contradiction

/-- Behind a parenthesis one block less is open. -/
theorem depthAfter_of_closes (h : token.closesBlock = true) :
    depthAfter depth (token :: rest) = depthAfter (depth - 1) rest := by
  rw [depthAfter, if_neg (not_opens_of_closes h), if_pos h]

/-- The nesting behind a parenthesis is counted from one block less. -/
theorem nestingFrom_of_closes (h : token.closesBlock = true) :
    nestingFrom depth (token :: rest) = max depth (nestingFrom (depth - 1) rest) := by
  rw [nestingFrom, if_neg (not_opens_of_closes h), if_pos h]

/-- Behind any other token as many blocks are open as before. -/
theorem depthAfter_of_plain (hopens : token.opensBlock = false)
    (hcloses : token.closesBlock = false) :
    depthAfter depth (token :: rest) = depthAfter depth rest := by
  rw [depthAfter, hopens, hcloses]
  rfl

/-- The nesting behind any other token is counted as before. -/
theorem nestingFrom_of_plain (hopens : token.opensBlock = false)
    (hcloses : token.closesBlock = false) :
    nestingFrom depth (token :: rest) = nestingFrom depth rest := by
  rw [nestingFrom, hopens, hcloses]
  rfl

end Steps

/-- A token opens a block, closes one or does neither. -/
theorem opens_or_closes_or_plain (token : Token K) : token.opensBlock = true ∨
    token.closesBlock = true ∨ token.opensBlock = false ∧ token.closesBlock = false := by
  cases token with
  | function => exact Or.inl rfl
  | openParen => exact Or.inl rfl
  | closeParen => exact Or.inr (Or.inl rfl)
  | _ => exact Or.inr (Or.inr ⟨rfl, rfl⟩)

/-- The blocks that are open before a list count. -/
theorem le_nestingFrom (depth : ℕ) (tokens : List (Token K)) :
    depth ≤ nestingFrom depth tokens := by
  induction tokens generalizing depth with
  | nil => exact le_refl depth
  | cons token rest ih =>
    rcases opens_or_closes_or_plain token with h | h | ⟨hopens, hcloses⟩
    · rw [nestingFrom_of_opens h]
      exact (Nat.le_succ depth).trans (ih (depth + 1))
    · rw [nestingFrom_of_closes h]
      exact le_max_left _ _
    · rw [nestingFrom_of_plain hopens hcloses]
      exact ih depth

/-- With more blocks open before a list, as many or more are open in it. -/
theorem nestingFrom_mono {depth depth' : ℕ} (h : depth ≤ depth') (tokens : List (Token K)) :
    nestingFrom depth tokens ≤ nestingFrom depth' tokens := by
  induction tokens generalizing depth depth' with
  | nil => exact h
  | cons token rest ih =>
    rcases opens_or_closes_or_plain token with ht | ht | ⟨hopens, hcloses⟩
    · rw [nestingFrom_of_opens ht, nestingFrom_of_opens ht]
      exact ih (Nat.add_le_add_right h 1)
    · rw [nestingFrom_of_closes ht, nestingFrom_of_closes ht]
      exact max_le_max h (ih (Nat.sub_le_sub_right h 1))
    · rw [nestingFrom_of_plain hopens hcloses, nestingFrom_of_plain hopens hcloses]
      exact ih h

/-- A token that opens no block is no function. -/
theorem isFunction_of_not_opens {token : Token K} (h : token.opensBlock = false) (name : String) :
    token.isFunction name = false := by
  cases token with
  | function name => cases h
  | _ => rfl

/-- Without a token that opens a block, nothing is nested. -/
theorem nestingFrom_of_not_opens {tokens : List (Token K)}
    (h : ∀ token ∈ tokens, token.opensBlock = false) (depth : ℕ) :
    nestingFrom depth tokens = depth := by
  induction tokens generalizing depth with
  | nil => rfl
  | cons token rest ih =>
    have hrest := ih fun token htoken => h token (List.mem_cons_of_mem _ htoken)
    rcases opens_or_closes_or_plain token with hopens | hcloses | ⟨hopens, hcloses⟩
    · rw [h token List.mem_cons_self] at hopens
      cases hopens
    · rw [nestingFrom_of_closes hcloses, hrest]
      exact max_eq_left (Nat.sub_le depth 1)
    · rw [nestingFrom_of_plain hopens hcloses, hrest]

/-- The open blocks after two lists in a row. -/
theorem depthAfter_append (depth : ℕ) (tokens tokens' : List (Token K)) :
    depthAfter depth (tokens ++ tokens') = depthAfter (depthAfter depth tokens) tokens' := by
  induction tokens generalizing depth with
  | nil => rfl
  | cons token rest ih =>
    rw [List.cons_append]
    rcases opens_or_closes_or_plain token with h | h | ⟨hopens, hcloses⟩
    · rw [depthAfter_of_opens h, depthAfter_of_opens h, ih]
    · rw [depthAfter_of_closes h, depthAfter_of_closes h, ih]
    · rw [depthAfter_of_plain hopens hcloses, depthAfter_of_plain hopens hcloses, ih]

/-- The nesting of two lists in a row. -/
theorem nestingFrom_append (depth : ℕ) (tokens tokens' : List (Token K)) :
    nestingFrom depth (tokens ++ tokens') =
      max (nestingFrom depth tokens) (nestingFrom (depthAfter depth tokens) tokens') := by
  induction tokens generalizing depth with
  | nil => exact (max_eq_right (le_nestingFrom depth tokens')).symm
  | cons token rest ih =>
    rw [List.cons_append]
    rcases opens_or_closes_or_plain token with h | h | ⟨hopens, hcloses⟩
    · rw [nestingFrom_of_opens h, nestingFrom_of_opens h, depthAfter_of_opens h, ih]
    · rw [nestingFrom_of_closes h, nestingFrom_of_closes h, depthAfter_of_closes h, ih, max_assoc]
    · rw [nestingFrom_of_plain hopens hcloses, nestingFrom_of_plain hopens hcloses,
        depthAfter_of_plain hopens hcloses, ih]

/-- Blanks nest nothing. -/
theorem nestingFrom_blanks (depth : ℕ) {tokens : List (Token K)}
    (h : AreBlank tokens) : nestingFrom depth tokens = depth := by
  induction tokens with
  | nil => rfl
  | cons token rest ih =>
    cases token with
    | whitespace =>
      rw [nestingFrom_of_plain rfl rfl]
      exact ih fun token htoken => h token (List.mem_cons_of_mem _ htoken)
    | _ => exact absurd (h _ List.mem_cons_self) Bool.false_ne_true

/-- Collapsing blanks leaves the nesting as it is. -/
theorem nestingFrom_collapse (depth : ℕ) (tokens : List (Token K)) :
    nestingFrom depth (collapse tokens) = nestingFrom depth tokens := by
  induction tokens using collapse.induct generalizing depth with
  | case1 rest ih =>
    rw [collapse, ih, nestingFrom_of_plain rfl rfl]
    rfl
  | case2 token rest hblanks ih =>
    rw [collapse]
    · -- The token stays, and the depth after it is the same on both sides.
      unfold nestingFrom
      simp only [ih]
    · exact hblanks
  | case3 => rfl

end CssColor.Token

namespace CssColor.Rule

open Token

variable {K : Type}

/-- Of the tokens that are left, none is nested in more than `limit` blocks, where `levels` of them
may still be opened. -/
def NestedWithin (limit levels : ℕ) (tokens : List (Token K)) : Prop :=
  nestingFrom (limit - levels) tokens ≤ limit

/-- The tokens of `all` are taken up to `rest`. None of those taken is nested in more than `limit`
blocks, and `levels` may still be opened. -/
def SplitWithin (limit : ℕ) (all : List (Token K)) (levels : ℕ) (rest : List (Token K)) : Prop :=
  ∃ taken, all = taken ++ rest ∧ depthAfter 0 taken + levels = limit ∧ nesting taken ≤ limit

/-- At most `levels` tokens are left, so no more than `levels` blocks can be opened. -/
def LengthWithin (levels : ℕ) (tokens : List (Token K)) : Prop := tokens.length ≤ levels

/-- Taking a token leaves the rest within the limit, if the levels count the open blocks. -/
theorem levelled_nestedWithin (limit : ℕ) :
    Levelled limit (NestedWithin limit : ℕ → List (Token K) → Prop) := by
  constructor
  · intro levels token rest hopens hcloses h
    unfold NestedWithin at h ⊢
    rwa [nestingFrom_of_plain hopens hcloses] at h
  · intro levels token rest hopens h
    unfold NestedWithin at h ⊢
    rw [nestingFrom_of_opens hopens] at h
    exact (nestingFrom_mono (by omega) rest).trans h
  · intro levels token rest hlevels hcloses h
    -- Below `limit` levels a block is open, and this token closes it.
    unfold NestedWithin at h ⊢
    rw [nestingFrom_of_closes hcloses] at h
    have hdepth : limit - levels - 1 = limit - (levels + 1) := by omega
    rw [hdepth] at h
    exact (le_max_right _ _).trans h

/-- Where no block may be opened, none comes next. -/
theorem not_nestedWithin_zero (limit : ℕ) (token : Token K) (rest : List (Token K))
    (hopens : token.opensBlock = true) : ¬ NestedWithin limit 0 (token :: rest) := by
  intro h
  unfold NestedWithin at h
  rw [nestingFrom_of_opens hopens] at h
  have hle := le_nestingFrom (limit - 0 + 1) rest
  omega

/-- Taking a token moves it to those that are taken. -/
theorem levelled_splitWithin (limit : ℕ) (all : List (Token K)) :
    Levelled limit (SplitWithin limit all) := by
  -- In all cases the token goes over to those that are taken.
  constructor
  · rintro levels token rest hopens hcloses ⟨taken, hall, hdepth, hnesting⟩
    refine ⟨taken ++ [token], by rw [hall, List.append_assoc, List.singleton_append], ?_, ?_⟩
    · rw [depthAfter_append, depthAfter_of_plain hopens hcloses]
      exact hdepth
    · unfold nesting at hnesting ⊢
      rw [nestingFrom_append, nestingFrom_of_plain hopens hcloses, nestingFrom]
      exact max_le hnesting (by omega)
  · rintro levels token rest hopens ⟨taken, hall, hdepth, hnesting⟩
    refine ⟨taken ++ [token], by rw [hall, List.append_assoc, List.singleton_append], ?_, ?_⟩
    · rw [depthAfter_append, depthAfter_of_opens hopens, depthAfter]
      omega
    · unfold nesting at hnesting ⊢
      rw [nestingFrom_append, nestingFrom_of_opens hopens, nestingFrom]
      exact max_le hnesting (by omega)
  · rintro levels token rest hlevels hcloses ⟨taken, hall, hdepth, hnesting⟩
    refine ⟨taken ++ [token], by rw [hall, List.append_assoc, List.singleton_append], ?_, ?_⟩
    · rw [depthAfter_append, depthAfter_of_closes hcloses, depthAfter]
      omega
    · unfold nesting at hnesting ⊢
      rw [nestingFrom_append, nestingFrom_of_closes hcloses, nestingFrom]
      exact max_le hnesting (max_le (by omega) (by omega))

/-- A list of which nothing is taken. -/
theorem splitWithin_self (limit : ℕ) (all : List (Token K)) : SplitWithin limit all limit all :=
  ⟨[], rfl, Nat.zero_add limit, Nat.zero_le limit⟩

/-- A list that is taken up to blanks. -/
theorem SplitWithin.nesting_le {limit levels : ℕ} {all rest : List (Token K)}
    (h : SplitWithin limit all levels rest) (hrest : AreBlank rest) : nesting all ≤ limit := by
  obtain ⟨taken, rfl, hdepth, hnesting⟩ := h
  unfold nesting at hnesting ⊢
  rw [nestingFrom_append, nestingFrom_blanks _ hrest]
  exact max_le hnesting (by omega)

/-- Each token that opens a block is one of those that the levels are counted from. -/
theorem levelled_lengthWithin (top : ℕ) :
    Levelled top (LengthWithin : ℕ → List (Token K) → Prop) := by
  unfold LengthWithin
  constructor
  · intro levels token rest _ _ h
    exact (Nat.le_succ _).trans h
  · intro levels token rest _ h
    exact Nat.le_of_succ_le_succ h
  · intro levels token rest _ _ h
    rw [List.length_cons] at h
    omega

/-- A list with an opening token is not empty. -/
theorem not_lengthWithin_zero (token : Token K) (rest : List (Token K))
    (_ : token.opensBlock = true) : ¬ LengthWithin 0 (token :: rest) := Nat.not_succ_le_zero _

end CssColor.Rule
