import CssColor.Proofs.Cursor.Locality

/-!
# Blocks at a cursor

A cursor that stands behind the token that opens a block reads the content of the block, the tokens
up to the parenthesis that closes it. `Cursor.HasContent` says which tokens these are: every block
that they open is closed among them (`Token.IsWellNested`), and a closing parenthesis comes next.

Main statement (`Command.run_block`): what is read is the content, there is no more than one, and
the cursor moves behind the parenthesis. Where there is no content, the reading fails at the end of
the tokens. It rests on `Rule.block_eq_some_iff`, which says the same of balanced lists: to be
balanced is a condition on numbers of blocks, and `IsWellNested` one on each block.
-/

namespace CssColor.Token

open Rule

variable {K : Type} {token : Token K} {tokens front back : List (Token K)}

/-- Every block that is opened in a list of tokens is closed in it, by a parenthesis up to which as
many further blocks are closed as are opened, and no front part of the list closes more blocks than
it opens. -/
structure IsWellNested (tokens : List (Token K)) : Prop where
  closed : ∀ front opening back, tokens = front ++ opening :: back → opening.opensBlock = true →
    ∃ inner after, back = inner ++ closeParen :: after ∧ surplus inner = 0
  sane : ∀ front, front <+: tokens → 0 ≤ surplus front

/-- Behind a front part of a balanced list, the blocks that are open there are closed. -/
theorem BalancedFrom.of_append {depth : ℕ} (h : BalancedFrom depth (front ++ back)) :
    ∃ depth' : ℕ, BalancedFrom depth' back := by
  have hopen : 0 ≤ depth + surplus front := h.sane front (List.prefix_append front back)
  obtain ⟨depth', hdepth'⟩ := Int.eq_ofNat_of_zero_le hopen
  refine ⟨depth', ?_, fun tokens htokens => ?_⟩
  · have hsettled := h.settled
    rw [surplus_append] at hsettled
    omega
  · have hsane := h.sane (front ++ tokens) ((List.prefix_append_right_inj front).2 htokens)
    rw [surplus_append] at hsane
    omega

/-- A list that closes more than `inner` open blocks has a parenthesis in it that closes one of the
others, and up to there it closes just the `inner` ones. -/
theorem BalancedFrom.exists_close {others inner : ℕ}
    (h : BalancedFrom (others + 1 + inner) tokens) :
    ∃ before after, tokens = before ++ closeParen :: after ∧ BalancedFrom inner before := by
  induction tokens generalizing inner with
  | nil =>
    have hdepth := balancedFrom_nil_iff.1 h
    omega
  | cons token rest ih =>
    rcases opens_or_closes_or_plain token with hopens | hcloses | ⟨hopens, hcloses⟩
    · have hrest : BalancedFrom (others + 1 + (inner + 1)) rest :=
        (balancedFrom_of_opens hopens).1 h
      obtain ⟨before, after, rfl, hbefore⟩ := ih hrest
      exact ⟨token :: before, after, rfl, (balancedFrom_of_opens hopens).2 hbefore⟩
    · cases inner with
      | zero =>
        -- This is the parenthesis.
        rw [eq_closeParen_of_closes hcloses]
        exact ⟨[], rest, rfl, balancedFrom_nil_iff.2 rfl⟩
      | succ inner =>
        obtain ⟨before, after, rfl, hbefore⟩ := ih ((balancedFrom_of_closes hcloses).1 h)
        exact ⟨token :: before, after, rfl, (balancedFrom_of_closes hcloses).2 hbefore⟩
    · obtain ⟨before, after, rfl, hbefore⟩ := ih ((balancedFrom_of_plain hopens hcloses).1 h)
      exact ⟨token :: before, after, rfl, (balancedFrom_of_plain hopens hcloses).2 hbefore⟩

/-- Balanced tokens are well nested. -/
theorem Balanced.isWellNested (h : Balanced tokens) : IsWellNested tokens := by
  constructor
  · rintro front opening back rfl hopens
    obtain ⟨depth, hdepth⟩ := BalancedFrom.of_append h
    have hback : BalancedFrom (depth + 1 + 0) back := (balancedFrom_of_opens hopens).1 hdepth
    obtain ⟨inner, after, rfl, hinner⟩ := hback.exists_close
    have hsettled := hinner.settled
    exact ⟨inner, after, rfl, by omega⟩
  · intro front hfront
    have hsane := h.sane front hfront
    omega

namespace IsWellNested

/-- Behind a front part that closes what it opens, a well-nested list is well nested. -/
theorem drop (front : List (Token K)) (h : IsWellNested (front ++ back))
    (hfront : surplus front = 0) : IsWellNested back := by
  constructor
  · rintro before opening after rfl hopens
    exact h.closed (front ++ before) opening after (List.append_assoc _ _ _).symm hopens
  · intro before hbefore
    have hsane := h.sane (front ++ before) ((List.prefix_append_right_inj front).2 hbefore)
    rw [surplus_append] at hsane
    omega

/-- A well-nested list closes as many blocks as it opens. -/
theorem surplus_eq_zero (h : IsWellNested tokens) : surplus tokens = 0 := by
  induction hlength : tokens.length using Nat.strong_induction_on generalizing tokens with
  | _ length ih =>
    subst hlength
    cases tokens with
    | nil => rfl
    | cons token rest =>
      rcases opens_or_closes_or_plain token with hopens | hcloses | ⟨hopens, hcloses⟩
      · -- The list is a block and what comes after it.
        obtain ⟨inner, after, rfl, hinner⟩ := h.closed [] token rest rfl hopens
        have hblock : surplus (token :: inner ++ [closeParen]) = 0 := by
          rw [List.cons_append, surplus_of_opens hopens, surplus_append, surplus_of_closes rfl,
            hinner]
          rfl
        have hsplit : token :: (inner ++ closeParen :: after) =
            (token :: inner ++ [closeParen]) ++ after := by simp
        rw [hsplit] at h
        have hafter := ih after.length (by simp; omega) (IsWellNested.drop _ h hblock) rfl
        rw [hsplit, surplus_append, hblock, hafter]
        rfl
      · -- The parenthesis would close a block that is not opened.
        have hsane := h.sane [token] (List.prefix_append [token] rest)
        rw [surplus_of_closes hcloses, surplus] at hsane
        omega
      · have htoken : surplus [token] = 0 := surplus_of_plain hopens hcloses
        rw [surplus_of_plain hopens hcloses]
        exact ih rest.length (Nat.lt_succ_self _) (IsWellNested.drop [token] h htoken) rfl

/-- Well nested tokens are balanced. -/
theorem balanced (h : IsWellNested tokens) : Balanced tokens := by
  refine ⟨?_, fun front hfront => ?_⟩
  · rw [h.surplus_eq_zero]
    rfl
  · have hsane := h.sane front hfront
    omega

end IsWellNested

end CssColor.Token

namespace CssColor

open Token

variable {K : Type}

/-- A block that is not closed takes all of the tokens. -/
theorem Rule.blockFrom_of_none {tokens : List (Token K)} (depth : ℕ)
    (h : (blockFrom depth tokens).1 = none) : (blockFrom depth tokens).2 = [] := by
  induction tokens generalizing depth with
  | nil => rfl
  | cons token rest ih =>
    -- The blocks that are open are counted along the tokens.
    rcases opens_or_closes_or_plain token with hopens | hcloses | ⟨hopens, hcloses⟩
    · rw [blockFrom_of_opens hopens] at h ⊢
      exact ih (depth + 1) (Option.map_eq_none_iff.1 h)
    · cases depth with
      | zero =>
        rw [blockFrom_zero_of_closes hcloses] at h
        cases h
      | succ depth =>
        rw [blockFrom_succ_of_closes hcloses] at h ⊢
        exact ih depth (Option.map_eq_none_iff.1 h)
    · rw [blockFrom_of_plain hopens hcloses] at h ⊢
      exact ih depth (Option.map_eq_none_iff.1 h)

/-- Where a block is not closed, everything is taken. -/
theorem Rule.eq_nil_of_block {tokens left : List (Token K)} (h : block tokens = (none, left)) :
    left = [] := by
  have hnone := blockFrom_of_none 0 (congrArg Prod.fst h)
  exact (congrArg Prod.snd h).symm.trans hnone

/-- The tokens from the position of the cursor on are `content`, a closing parenthesis and what
comes after it, and `content` closes exactly the blocks that it opens. -/
def Cursor.HasContent (cursor : Cursor K) (content : List (Token K)) : Prop :=
  IsWellNested content ∧ ∃ left, cursor.rest = content ++ Token.closeParen :: left

namespace Command

variable [Scalar K] {cursor : Cursor K} {content : List (Token K)}

/-- The content of a block is read, and the cursor moves behind the parenthesis. -/
theorem run_block_of_hasContent (h : cursor.HasContent content) :
    run cursor (.step .block) = (some (.tokens content),
      { cursor with position := cursor.position + content.length + 1 }) := by
  obtain ⟨hnested, left, hrest⟩ := h
  have hreads : Rule.Reads Rule.block (content ++ [Token.closeParen]) content := by
    intro after
    refine Rule.block_eq_some_iff.2 ⟨?_, hnested.balanced⟩
    simp
  have hused : cursor.rest = content ++ [Token.closeParen] ++ left := by simp [hrest]
  have happly := Cursor.apply_of_reads (hreads.map Reply.tokens) hused
  rw [List.length_append, List.length_singleton, ← Nat.add_assoc] at happly
  exact happly

/-- Where there is no content, reading a block fails at the end of the tokens. -/
theorem run_block_of_not_hasContent (h : ∀ content, ¬ cursor.HasContent content) :
    run cursor (.step .block) =
      (none, { cursor with position := max cursor.position cursor.tokens.length }) := by
  rcases hblock : Rule.block cursor.rest with ⟨_ | content, left⟩
  · obtain rfl := Rule.eq_nil_of_block hblock
    have hrun : (Step.block.rule (maxBlockDepth - cursor.depth)).run cursor.rest =
        ((none, []) : Option (Reply K) × List (Token K)) := Rule.bind_of_none hblock
    have hend : cursor.position + (cursor.rest.length - 0) =
        max cursor.position cursor.tokens.length := by
      rw [Cursor.rest, List.length_drop]
      omega
    unfold run Cursor.apply
    rw [hrun]
    dsimp only
    rw [List.length_nil, hend]
  · -- What has been taken would be the content.
    obtain ⟨hrest, hbalanced⟩ := Rule.block_eq_some_iff.1 hblock
    exact absurd ⟨hbalanced.isWellNested, left, hrest⟩ (h content)

/-- At a cursor behind the token that opens a block, exactly the content of the block is read, and
the cursor moves behind the parenthesis that closes it. A block has no more than one content. If it
has none, reading it fails, with the cursor at the end of the tokens, or where it was if that is
behind the end. -/
theorem run_block (cursor : Cursor K) :
    (∀ content after, run cursor (.step .block) = (some (.tokens content), after) ↔
      cursor.HasContent content ∧
        after = { cursor with position := cursor.position + content.length + 1 }) ∧
    {content | cursor.HasContent content}.Subsingleton ∧
    (run cursor (.step .block) =
        (none, { cursor with position := max cursor.position cursor.tokens.length }) ↔
      ∀ content, ¬ cursor.HasContent content) := by
  refine ⟨fun content after => ⟨fun h => ?_, ?_⟩, ?_, fun h content hcontent => ?_,
    run_block_of_not_hasContent⟩
  · -- Either there is a content, which the cursor finds, or there is none, and it fails.
    by_cases hex : ∃ content', cursor.HasContent content'
    · obtain ⟨content', hcontent'⟩ := hex
      rw [run_block_of_hasContent hcontent'] at h
      cases h
      exact ⟨hcontent', rfl⟩
    · rw [run_block_of_not_hasContent (not_exists.1 hex)] at h
      cases h
  · rintro ⟨hcontent, rfl⟩
    exact run_block_of_hasContent hcontent
  · -- Two contents start at the same place and end at the first parenthesis that closes the block.
    rintro content ⟨hnested, left, hrest⟩ content' ⟨hnested', left', hrest'⟩
    exact (Rule.balanced_content_unique hnested.balanced hnested'.balanced
      (hrest.symm.trans hrest')).1
  · rw [run_block_of_hasContent hcontent] at h
    cases h

end Command

end CssColor
