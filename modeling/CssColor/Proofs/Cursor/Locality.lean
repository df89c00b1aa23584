import CssColor.Cursor
import CssColor.Number.Double
import CssColor.Proofs.Value.Confinement
import Mathlib

/-!
# Cursors after a value

Where a colour value or an expression is read at a cursor, the cursor moves behind it. Nothing else
of the cursor changes, the blocks in the tokens that it has passed are balanced, and the value does
not depend on any other token (`Command.run_of_same_tokens`). So a caller that reads on resumes at
the right token, however the grammar has looked ahead.
-/

namespace CssColor

open Token Rule

variable {K α β : Type}

/-- A value that is changed after a self-contained rule. -/
theorem Rule.IsSelfContained.map {r : Rule K α} (h : IsSelfContained r) (f : α → β) :
    IsSelfContained (r >>= fun a => Pure.pure (f a)) := by
  intro tokens b rest hr
  obtain ⟨a, left, hvalue, hpure⟩ := bind_eq_some_iff.1 hr
  cases hpure
  obtain ⟨used, hused, htokens, hbalanced, hreads⟩ := h tokens a rest hvalue
  exact ⟨used, hused, htokens, hbalanced, hreads.map f⟩

namespace Cursor

variable {r : Rule K α} {cursor after : Cursor K} {a : α}

/-- The tokens between the position and one in front of which a list of tokens ends. -/
theorem extract_of_rest {used left : List (Token K)} (h : cursor.rest = used ++ left) :
    cursor.tokens.extract cursor.position (cursor.position + used.length) = used := by
  rw [List.extract_eq_take_drop, Nat.add_sub_cancel_left]
  exact (congrArg (List.take used.length) h).trans List.take_left

/-- A rule that takes exactly the given tokens moves the cursor behind them. -/
theorem apply_of_reads {used left : List (Token K)} (hreads : Reads r used a)
    (hrest : cursor.rest = used ++ left) :
    cursor.apply r = (some a, { cursor with position := cursor.position + used.length }) := by
  have hrun : r.run cursor.rest = (some a, left) := by
    rw [hrest]
    exact hreads left
  have hlength : cursor.rest.length - left.length = used.length := by
    rw [hrest, List.length_append, Nat.add_sub_cancel_right]
  unfold apply
  rw [hrun]
  dsimp only
  rw [hlength]

/-- What a self-contained rule reads at a cursor is some tokens in front of which the cursor is. -/
theorem exists_used (hr : IsSelfContained r) (h : cursor.apply r = (some a, after)) :
    ∃ used left, used ≠ [] ∧ cursor.rest = used ++ left ∧ Balanced used ∧ Reads r used a ∧
      after = { cursor with position := cursor.position + used.length } := by
  rcases hrun : r cursor.rest with ⟨value, left⟩
  have hvalue : value = some a := by
    have hfst := congrArg Prod.fst h
    unfold apply run at hfst
    rw [hrun] at hfst
    exact hfst
  rw [hvalue] at hrun
  obtain ⟨used, hused, hrest, hbalanced, hreads⟩ := hr _ a left hrun
  refine ⟨used, left, hused, hrest, hbalanced, hreads, ?_⟩
  rw [apply_of_reads hreads hrest] at h
  exact (congrArg Prod.snd h).symm

/-- After a self-contained rule, only the position of the cursor has changed. The tokens that it has
passed are balanced, and a cursor before the same tokens, whatever stands around them, gives the
same. -/
theorem apply_of_same_tokens (hr : IsSelfContained r) (h : cursor.apply r = (some a, after)) :
    after = { cursor with position := after.position } ∧ cursor.position < after.position ∧
      after.position ≤ cursor.tokens.length ∧
      Balanced (cursor.tokens.extract cursor.position after.position) ∧
      ∀ other : Cursor K, other.position = cursor.position →
        other.tokens.extract cursor.position after.position =
          cursor.tokens.extract cursor.position after.position →
        other.apply r = (some a, { other with position := after.position }) := by
  obtain ⟨used, left, hused, hrest, hbalanced, hreads, rfl⟩ := exists_used hr h
  have hextract := extract_of_rest hrest
  have hpositive : 0 < used.length := List.length_pos_iff.2 hused
  have hlength : cursor.tokens.length - cursor.position = used.length + left.length := by
    have hlength' := congrArg List.length hrest
    rwa [rest, List.length_drop, List.length_append] at hlength'
  dsimp only
  rw [hextract]
  refine ⟨rfl, by omega, by omega, hbalanced, fun other hposition hsame => ?_⟩
  -- The other cursor has the same tokens in front of it, with others behind them.
  have htake : other.rest.take used.length = used := by
    rw [List.extract_eq_take_drop, Nat.add_sub_cancel_left] at hsame
    rw [rest, hposition]
    exact hsame
  have hrest' : other.rest = used ++ other.rest.drop used.length := by
    conv_lhs => rw [← List.take_append_drop used.length other.rest, htake]
  rw [apply_of_reads hreads hrest', hposition]

end Cursor

variable [Scalar K]

/-- Steps that read a colour value or an expression. -/
theorem Step.isSelfContained_rule {reading : Step K}
    (h : reading = .color ∨ reading = .expression) (levels : ℕ) :
    IsSelfContained (reading.rule levels) := by
  rcases h with rfl | rfl
  · exact (ColorValue.isSelfContained_rule levels).map Reply.color
  · exact (Expression.isSelfContained_rule levels).map Reply.expression

namespace Command

/-- Where a colour value or an expression is read at a cursor, the cursor moves forward over tokens
whose blocks are balanced, and as many blocks as before are open after it. Where the same tokens
stand at the same place among others, and as many blocks are open, the same is read, and the cursor
stops at the same place. -/
theorem run_of_same_tokens {reading : Step K} {cursor after : Cursor K} {reply : Reply K}
    (hreading : reading = .color ∨ reading = .expression)
    (h : run cursor (.step reading) = (some reply, after)) :
    after = { cursor with position := after.position } ∧ cursor.position < after.position ∧
      after.position ≤ cursor.tokens.length ∧
      Balanced (cursor.tokens.extract cursor.position after.position) ∧
      ∀ other : Cursor K, other.position = cursor.position → other.depth = cursor.depth →
        other.tokens.extract cursor.position after.position =
          cursor.tokens.extract cursor.position after.position →
        run other (.step reading) = (some reply, { other with position := after.position }) := by
  -- The rule for the levels that are left is self-contained, and only those depend on the depth.
  obtain ⟨hafter, hlt, hle, hbalanced, hsame⟩ :=
    Cursor.apply_of_same_tokens (Step.isSelfContained_rule hreading _) h
  refine ⟨hafter, hlt, hle, hbalanced, fun other hposition hdepth htokens => ?_⟩
  have hrun := hsame other hposition htokens
  rw [← hdepth] at hrun
  exact hrun

/-- A colour with an origin between other tokens, inside of a block. -/
def amongOthers : Cursor Double where
  tokens := [.comma, .function "rgb", .ident "from", .ident "currentcolor", .whitespace,
    .ident "none", .ident "none", .ident "none", .closeParen, .closeParen, .comma]
  position := 1
  depth := 1

/-- The same tokens are read in the same way at the end of a list, after another token. -/
theorem run_of_same_tokens_amongOthers :
    run amongOthers (.step .color) = (some (.color (.relative .currentColor .rgb
        ⟨⟨.missing, .missing, .missing⟩, none⟩)), { amongOthers with position := 9 }) ∧
      run { amongOthers with tokens := .whitespace :: amongOthers.tokens.extract 1 9 }
          (.step .color) =
        (some (.color (.relative .currentColor .rgb ⟨⟨.missing, .missing, .missing⟩, none⟩)),
          ⟨.whitespace :: amongOthers.tokens.extract 1 9, 9, 1⟩) := by
  have h : run amongOthers (.step .color) = (some (.color (.relative .currentColor .rgb
      ⟨⟨.missing, .missing, .missing⟩, none⟩)), { amongOthers with position := 9 }) := by cbv
  obtain ⟨-, -, -, -, hsame⟩ := run_of_same_tokens (.inl rfl) h
  exact ⟨h, hsame _ rfl rfl rfl⟩

end Command

end CssColor
