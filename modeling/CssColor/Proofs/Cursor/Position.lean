import CssColor.Proofs.Cursor.Block
import CssColor.Proofs.Value.Formers

/-!
# What rules leave

A rule takes tokens off the front of a list. What it leaves is an end of the list, also where it
fails in the middle of a value (`Rule.TakesFront`). The rule formers keep this
(`Rule.keptByFormers_takesFront`), so it holds for expressions, for colour values and for every step
of a cursor (`Step.takesFront_rule`).

The position of a cursor is moved by a number of tokens. `Cursor.rest_apply` says that what a rule
leaves are the tokens from the new position on, and `Cursor.position_apply_le` that this position is
not behind the end of the tokens.
-/

namespace CssColor

variable {K α β : Type}

namespace Rule

/-- What the rule leaves is an end of the list that it is given, also where it fails. -/
def TakesFront (r : Rule K α) : Prop := ∀ tokens, (r.run tokens).2 <:+ tokens

namespace TakesFront

variable {r : Rule K α}

/-! ## Rule formers -/

/-- Without a rule, everything is left. -/
protected theorem pure (a : α) : TakesFront (pure a : Rule K α) := List.suffix_refl

/-- The rule that fails leaves everything. -/
theorem fail : TakesFront (fail : Rule K α) := List.suffix_refl

/-- An end of an end of the list is an end of the list. -/
theorem bind {next : α → Rule K β} (h : TakesFront r) (hnext : ∀ a, TakesFront (next a)) :
    TakesFront (r >>= next) := by
  intro tokens
  have hr : (r tokens).2 <:+ tokens := h tokens
  unfold run
  rcases hvalue : r tokens with ⟨_ | a, rest⟩
  · rw [bind_of_none hvalue]
    rwa [hvalue] at hr
  · rw [bind_of_some hvalue]
    rw [hvalue] at hr
    exact (hnext a rest).trans hr

/-- A failing rule is put back, and then everything is left. -/
theorem optional (h : TakesFront r) : TakesFront (optional r) := by
  intro tokens
  have hr : (r tokens).2 <:+ tokens := h tokens
  unfold run Rule.optional
  rcases hvalue : r tokens with ⟨_ | a, rest⟩
  · exact List.suffix_refl tokens
  · rwa [hvalue] at hr

/-- What is left after repeating a rule is an end of what each repetition has left. -/
theorem repeated_suffix (h : TakesFront r) (tokens : List (Token K)) :
    (repeated r tokens).2 <:+ tokens := by
  induction hlength : tokens.length using Nat.strong_induction_on generalizing tokens with
  | _ length ih =>
    -- The rule is repeated on what it leaves, which is shorter.
    subst hlength
    have hr : (r tokens).2 <:+ tokens := h tokens
    rw [repeated]
    rcases hvalue : r tokens with ⟨_ | a, rest⟩
    · exact List.suffix_refl tokens
    · dsimp only
      rw [hvalue] at hr
      split
      · next hshorter => exact (ih rest.length hshorter rest rfl).trans hr
      · exact List.suffix_refl tokens

/-- A repeated rule takes from the front as often as it succeeds. -/
theorem many (h : TakesFront r) : TakesFront (many r) := h.repeated_suffix

/-! ## Tokens -/

/-- The next token is the first of the list. -/
theorem next : TakesFront (next : Rule K (Token K)) := by
  intro tokens
  cases tokens with
  | nil => exact List.suffix_refl []
  | cons token rest => exact List.suffix_cons token rest

/-- Blanks are dropped from the front. -/
theorem skipBlanks : TakesFront (skipBlanks : Rule K Unit) := fun _ => List.dropWhile_suffix _

/-- Blanks and the token behind them are dropped from the front. -/
theorem nextSolid : TakesFront (nextSolid : Rule K (Token K)) :=
  TakesFront.skipBlanks.bind fun _ => TakesFront.next

/-- Looking ahead takes nothing. -/
theorem peek : TakesFront (peek : Rule K (Option (Token K))) := List.suffix_refl

/-- Looking further ahead takes nothing either. -/
theorem peekAt (n : ℕ) : TakesFront (peekAt n : Rule K (Option (Token K))) := List.suffix_refl

/-- The end is looked for without taking anything. -/
theorem isExhausted : TakesFront (isExhausted : Rule K Bool) :=
  (TakesFront.peekAt 0).bind fun _ => TakesFront.pure _

/-- What is left at the end is nothing, or what follows the token that is in the way. -/
theorem exhausted : TakesFront (exhausted : Rule K Unit) := by
  intro tokens
  have hsolid : (Rule.nextSolid tokens).2 <:+ tokens := TakesFront.nextSolid tokens
  unfold run Rule.exhausted
  rcases hvalue : Rule.nextSolid tokens with ⟨_ | token, rest⟩ <;> rwa [hvalue] at hsolid

/-- If everything is taken, the empty list is left. -/
theorem remaining : TakesFront (remaining : Rule K (List (Token K))) :=
  fun _ => List.nil_suffix

/-- A block leaves what follows its closing parenthesis. One that is not closed takes everything. -/
theorem block : TakesFront (block : Rule K (List (Token K))) := by
  intro tokens
  unfold run
  rcases hvalue : Rule.block tokens with ⟨_ | content, rest⟩
  · obtain rfl := eq_nil_of_block hvalue
    exact List.nil_suffix
  · obtain ⟨rfl, -⟩ := block_eq_some_iff.1 hvalue
    exact ⟨content ++ [Token.closeParen], by simp⟩

end TakesFront

/-- What rules leave is an end of the list, for any number of levels. -/
theorem keptByFormers_takesFront :
    KeptByFormers fun n r => ∀ levels ≤ n, TakesFront (r levels : Rule K _) where
  pure a _ _ := TakesFront.pure a
  fail _ _ := TakesFront.fail
  bind h hnext levels hlevels := (h levels hlevels).bind fun a => hnext a levels hlevels
  optional h levels hlevels := (h levels hlevels).optional
  many h levels hlevels := (h levels hlevels).many
  next _ _ := TakesFront.next
  skipBlanks _ _ := TakesFront.skipBlanks
  peekAt index _ _ := TakesFront.peekAt index
  nested {_ _ r} h levels hlevels := by
    cases levels with
    | zero => exact TakesFront.fail
    | succ levels => exact h levels hlevels levels le_rfl

end Rule

open Rule

/-! ## Cursors -/

/-- What a step leaves is an end of the tokens in front of it. -/
theorem Step.takesFront_rule [Scalar K] (reading : Step K) (levels : ℕ) :
    TakesFront (reading.rule levels) := by
  have hP : KeptByFormers fun n r => ∀ levels ≤ n, TakesFront (r levels : Rule K _) :=
    keptByFormers_takesFront
  -- Only the value of the rule is changed into a reply.
  have hmap {α : Type} {r : Rule K α} (h : TakesFront r) (f : α → Reply K) :
      TakesFront (r >>= fun a => Pure.pure (f a)) := h.bind fun _ => TakesFront.pure _
  cases reading with
  | next => exact hmap TakesFront.next.optional _
  | nextSolid => exact TakesFront.skipBlanks.bind fun _ => hmap TakesFront.next.optional _
  | peek => exact hmap TakesFront.peek _
  | peekAt index => exact hmap (TakesFront.peekAt index) _
  | token expected => exact hmap (hP.nextWith _ levels le_rfl) _
  | keyword name => exact hmap (hP.nextWith _ levels le_rfl) _
  | identifier => exact hmap (hP.identifier levels le_rfl) _
  | blank => exact hmap (hP.blank levels le_rfl) _
  | skipBlanks => exact hmap TakesFront.skipBlanks _
  | isExhausted => exact hmap TakesFront.isExhausted _
  | exhausted => exact hmap TakesFront.exhausted _
  | remaining => exact hmap TakesFront.remaining _
  | block => exact hmap TakesFront.block _
  | expression => exact hmap (hP.expression levels levels le_rfl) _
  | color => exact hmap (hP.color levels levels le_rfl) _

namespace Cursor

variable {r : Rule K α} {cursor : Cursor K}

/-- What a rule leaves are the tokens from the position on to which it moves the cursor. -/
theorem rest_apply (h : TakesFront r) : (cursor.apply r).2.rest = (r.run cursor.rest).2 := by
  have hleft := List.suffix_iff_eq_drop.1 (h cursor.rest)
  rw [hleft]
  unfold apply rest
  dsimp only
  rw [List.drop_drop]

/-- A rule does not move a cursor behind the end of the tokens. -/
theorem position_apply_le (r : Rule K α) (h : cursor.position ≤ cursor.tokens.length) :
    (cursor.apply r).2.position ≤ cursor.tokens.length := by
  have hrest : cursor.rest.length = cursor.tokens.length - cursor.position := List.length_drop
  unfold apply
  dsimp only
  omega

end Cursor

end CssColor
