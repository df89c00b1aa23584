import CssColor.Proofs.Token.Balance
import CssColor.Proofs.Token.Recognition

/-!
# Rules inside of blocks

What a rule does inside of a block does not depend on the tokens behind the parenthesis that closes
the block. A list of tokens closes a number of open blocks if it goes up to that parenthesis
(`Token.Closes`), and a rule is confined to such lists (`Rule.Confined`) if it gives the same value
whatever follows them, or fails whatever follows them. Failures count: a rule may go on in another
way after a part of it has failed.

A rule that reads from the token that opens a block up to the one that closes it is self-contained
(`Rule.IsSelfContained`). The blocks in what it takes are balanced, and it takes the same off any
list that starts with the same tokens.
-/

namespace CssColor.Token

variable {K : Type}

/-- The list closes as many blocks as are open in front of it, the last one with its last token. -/
inductive Closes : ℕ → List (Token K) → Prop
  | nil : Closes 0 []
  | opens {depth token rest} : token.opensBlock = true → Closes (depth + 2) rest →
      Closes (depth + 1) (token :: rest)
  | closes {depth token rest} : token.closesBlock = true → Closes depth rest →
      Closes (depth + 1) (token :: rest)
  | plain {depth token rest} : token.opensBlock = false → token.closesBlock = false →
      Closes (depth + 1) rest → Closes (depth + 1) (token :: rest)

namespace Closes

variable {depth : ℕ} {token : Token K} {tokens rest : List (Token K)}

/-- A list that closes no block ends where it starts. -/
theorem eq_nil (h : Closes 0 tokens) : tokens = [] := by
  cases h
  rfl

/-- Behind a token that opens a block there is one more block to close. -/
theorem of_opens (hopens : token.opensBlock = true) (h : Closes (depth + 1) (token :: rest)) :
    Closes (depth + 2) rest := by
  cases h with
  | opens _ h => exact h
  | closes hcloses => exact absurd hopens (not_opens_of_closes hcloses)
  | plain hplain => cases hopens.symm.trans hplain

/-- Behind a parenthesis there is one block less to close. -/
theorem of_closes (hcloses : token.closesBlock = true) (h : Closes (depth + 1) (token :: rest)) :
    Closes depth rest := by
  cases h with
  | opens hopens => exact absurd hopens (not_opens_of_closes hcloses)
  | closes _ h => exact h
  | plain _ hplain => cases hcloses.symm.trans hplain

/-- Any other token leaves the number of blocks to close as it is. -/
theorem of_plain (hopens : token.opensBlock = false) (hcloses : token.closesBlock = false)
    (h : Closes (depth + 1) (token :: rest)) : Closes (depth + 1) rest := by
  cases h with
  | opens h => cases hopens.symm.trans h
  | closes h => cases hcloses.symm.trans h
  | plain _ _ h => exact h

/-- The blocks that are open in front of the list are closed in it, and so are those that it opens
itself. -/
theorem balancedFrom (h : Closes depth tokens) : BalancedFrom depth tokens := by
  induction h with
  | nil => exact balancedFrom_nil_iff.2 rfl
  | opens hopens _ ih => exact (balancedFrom_of_opens hopens).2 ih
  | closes hcloses _ ih => exact (balancedFrom_of_closes hcloses).2 ih
  | plain hopens hcloses _ ih => exact (balancedFrom_of_plain hopens hcloses).2 ih

/-- Inside of a block there is a token that is not blank: at least the one that closes it. -/
theorem exists_solid (h : Closes (depth + 1) tokens) : ∃ before token left, AreBlank before ∧
    tokens = before ++ token :: left ∧ token.isWhitespace = false ∧
      Closes (depth + 1) (token :: left) := by
  induction tokens with
  | nil => cases h
  | cons token rest ih =>
    cases hblank : token.isWhitespace with
    | false => exact ⟨[], token, rest, areBlank_nil, rfl, hblank, h⟩
    | true =>
      obtain rfl := eq_whitespace hblank
      obtain ⟨before, first, left, hbefore, rfl, hfirst⟩ := ih (h.of_plain rfl rfl)
      exact ⟨whitespace :: before, first, left, List.forall_mem_cons.2 ⟨rfl, hbefore⟩, rfl, hfirst⟩

end Closes

/-- A front part of the list closes as many blocks as are open in front of it. -/
def Closable (depth : ℕ) (tokens : List (Token K)) : Prop :=
  ∃ front rest, tokens = front ++ rest ∧ Closes depth front

/-- Where no block is open, none has to be closed. -/
theorem closable_zero (tokens : List (Token K)) : Closable 0 tokens := ⟨[], tokens, rfl, .nil⟩

end CssColor.Token

namespace CssColor.Rule

open Token

variable {K α β : Type}

/-! ## Confined rules -/

/-- Whatever follows `front`, the rule takes the same tokens off it, up to a list that closes
`after` blocks, and gives the same value; or it fails whatever follows. -/
def ConfinedAt (after : ℕ) (r : Rule K α) (front : List (Token K)) : Prop :=
  (∃ a left, Closes after left ∧ ∀ rest, r (front ++ rest) = (some a, left ++ rest)) ∨
    ∀ rest, (r (front ++ rest)).1 = none

/-- The rule looks at no more than the tokens up to the parenthesis that closes the outermost of
`before` open blocks, and leaves `after` of them open. -/
def Confined (before after : ℕ) (r : Rule K α) : Prop :=
  ∀ front, Closes before front → ConfinedAt after r front

section Combinators

variable {before after last : ℕ} {r r' : Rule K α} {front left : List (Token K)}

/-- A rule that goes on like another one after some tokens. -/
theorem ConfinedAt.of_eq (heq : ∀ rest, r (front ++ rest) = r' (left ++ rest))
    (h : ConfinedAt after r' left) : ConfinedAt after r front := by
  rcases h with ⟨a, left', hleft', hr⟩ | hr
  · exact .inl ⟨a, left', hleft', fun rest => (heq rest).trans (hr rest)⟩
  · exact .inr fun rest => (congrArg Prod.fst (heq rest)).trans (hr rest)

/-- A confined rule in front of rules that are confined to what it leaves. -/
theorem ConfinedAt.bind {next : α → Rule K β} (h : ConfinedAt after r front)
    (hnext : ∀ a, Confined after last (next a)) : ConfinedAt last (r >>= next) front := by
  rcases h with ⟨a, left, hleft, hr⟩ | hr
  · exact (hnext a left hleft).of_eq fun rest => bind_of_some (hr rest)
  · exact .inr fun rest => bind_fst_eq_none (hr rest)

/-- One rule after the other. -/
theorem Confined.bind {next : α → Rule K β} (h : Confined before after r)
    (hnext : ∀ a, Confined after last (next a)) : Confined before last (r >>= next) :=
  fun front hfront => (h front hfront).bind hnext

/-- A rule that takes nothing is confined. -/
theorem Confined.pure (a : α) : Confined before before (pure a : Rule K α) :=
  fun front hfront => .inl ⟨a, front, hfront, fun _ => rfl⟩

/-- A rule that fails whatever follows is confined. -/
theorem Confined.fail : Confined before after (fail : Rule K α) := fun _ _ => .inr fun _ => rfl

/-- A value that is there or not, whatever follows. -/
theorem Confined.ofOption (value : Option α) :
    Confined before before (ofOption value : Rule K α) := by
  cases value with
  | none => exact Confined.fail
  | some a => exact Confined.pure a

/-- Both branches of a choice have to be confined. -/
theorem Confined.ite {condition : Prop} [Decidable condition] (h : Confined before after r)
    (h' : Confined before after r') : Confined before after (if condition then r else r') := by
  split
  · exact h
  · exact h'

/-- Going on after a rule that may fail. That it fails does not depend on what follows either. -/
theorem Confined.optional_bind {next : Option α → Rule K β} (h : Confined before after r)
    (hsome : ∀ a, Confined after last (next (some a))) (hnone : Confined before last (next none)) :
    Confined before last (Rule.optional r >>= next) := by
  intro front hfront
  rcases h front hfront with ⟨a, left, hleft, hr⟩ | hr
  · refine (hsome a left hleft).of_eq fun rest => bind_of_some ?_
    rw [Rule.optional, hr rest]
  · exact (hnone front hfront).of_eq fun rest => bind_of_some (optional_of_fails (hr rest))

/-- An optional part is read or left out whatever follows. If the part fails, no token is taken. -/
theorem Confined.optional (h : Confined before before r) :
    Confined before before (optional r) := by
  intro front hfront
  rcases h front hfront with ⟨a, left, hleft, hr⟩ | hr
  · refine .inl ⟨some a, left, hleft, fun rest => ?_⟩
    rw [Rule.optional, hr rest]
  · exact .inl ⟨none, front, hfront, fun rest => optional_of_fails (hr rest)⟩

/-- A rule is repeated as often, and with the same values, whatever follows. -/
theorem exists_repeated (h : Confined before before r) (hfront : Closes before front) :
    ∃ as left, Closes before left ∧ ∀ rest, repeated r (front ++ rest) = (as, left ++ rest) := by
  induction hlength : front.length using Nat.strong_induction_on generalizing front with
  | _ length ih =>
    subst hlength
    rcases h front hfront with ⟨a, left, hleft, hr⟩ | hr
    · -- Whether the rule has taken a token is seen inside of the block, too.
      have hcount : ∀ rest : List (Token K),
          (left ++ rest).length < (front ++ rest).length ↔ left.length < front.length := by
        intro rest
        rw [List.length_append, List.length_append, Nat.add_lt_add_iff_right]
      by_cases hlt : left.length < front.length
      · obtain ⟨as, left', hleft', hrepeated⟩ := ih left.length hlt hleft rfl
        refine ⟨a :: as, left', hleft', fun rest => ?_⟩
        rw [repeated, hr rest]
        dsimp only
        rw [if_pos ((hcount rest).2 hlt), hrepeated]
      · refine ⟨[], front, hfront, fun rest => ?_⟩
        rw [repeated, hr rest]
        dsimp only
        rw [if_neg fun hlt' => hlt ((hcount rest).1 hlt')]
    · exact ⟨[], front, hfront, fun rest => repeated_of_fails (hr rest)⟩

/-- A part that is repeated stops inside of the block. -/
theorem Confined.many (h : Confined before before r) : Confined before before (many r) := by
  intro front hfront
  obtain ⟨as, left, hleft, hrepeated⟩ := exists_repeated h hfront
  refine .inl ⟨as, left, hleft, fun rest => ?_⟩
  rw [Rule.many, hrepeated rest]

end Combinators

/-! ## Tokens -/

section Tokens

variable {depth last : ℕ}

/-- A rule that goes on with the next token. There is one inside of a block. -/
theorem Confined.next_bind {next : Token K → Rule K α}
    (h : ∀ token rest, Closes (depth + 1) (token :: rest) → ConfinedAt last (next token) rest) :
    Confined (depth + 1) last (Rule.next >>= next) := by
  intro front hfront
  cases front with
  | nil => cases hfront
  | cons token rest => exact (h token rest hfront).of_eq fun _ => rfl

/-- A rule that goes on with the next token that is not blank. -/
theorem Confined.nextSolid_bind {next : Token K → Rule K α}
    (h : ∀ token rest, Closes (depth + 1) (token :: rest) → ConfinedAt last (next token) rest) :
    Confined (depth + 1) last (nextSolid >>= next) := by
  intro front hfront
  obtain ⟨before, token, left, hbefore, rfl, hsolid, hleft⟩ := hfront.exists_solid
  refine (h token left hleft).of_eq fun rest => bind_of_some ?_
  exact nextSolid_eq_some_iff.2
    ⟨hsolid, before, hbefore, List.append_assoc before (token :: left) rest⟩

/-- A token that neither opens nor closes a block. -/
theorem Confined.nextWith {accepts : Token K → Bool} (haccepts : ∀ token, accepts token = true →
    token.opensBlock = false ∧ token.closesBlock = false) :
    Confined (depth + 1) (depth + 1) (Rule.nextWith accepts) := by
  refine Confined.nextSolid_bind fun token rest htoken => ?_
  cases h : accepts token with
  | false => exact .inr fun _ => rfl
  | true =>
    obtain ⟨hopens, hcloses⟩ := haccepts token h
    exact Confined.pure () rest (htoken.of_plain hopens hcloses)

/-- A token that opens a block. -/
theorem Confined.nextWith_opens {accepts : Token K → Bool}
    (haccepts : ∀ token, accepts token = true → token.opensBlock = true) :
    Confined (depth + 1) (depth + 2) (Rule.nextWith accepts) := by
  refine Confined.nextSolid_bind fun token rest htoken => ?_
  cases h : accepts token with
  | false => exact .inr fun _ => rfl
  | true => exact Confined.pure () rest (htoken.of_opens (haccepts token h))

/-- The parenthesis that closes the block is the last token that the rule may take. -/
theorem Confined.closeParen : Confined (depth + 1) depth (closeParen : Rule K Unit) := by
  refine Confined.nextSolid_bind fun token rest htoken => ?_
  cases h : token.closesBlock with
  | false => exact .inr fun _ => rfl
  | true => exact .inl ⟨(), rest, htoken.of_closes h, fun _ => rfl⟩

/-- A keyword does not leave the block. -/
theorem Confined.keyword (name : String) :
    Confined (depth + 1) (depth + 1) (keyword name : Rule K Unit) := by
  refine Confined.nextWith fun token h => ?_
  cases token with
  | ident => exact ⟨rfl, rfl⟩
  | _ => contradiction

/-- A comma does not leave the block. -/
theorem Confined.comma : Confined (depth + 1) (depth + 1) (comma : Rule K Unit) := by
  refine Confined.nextWith fun token h => ?_
  cases token with
  | comma => exact ⟨rfl, rfl⟩
  | _ => contradiction

/-- A character that stands for itself does not leave the block. -/
theorem Confined.delim (char : Char) :
    Confined (depth + 1) (depth + 1) (Rule.nextWith (isDelim char) : Rule K Unit) := by
  refine Confined.nextWith fun token h => ?_
  cases token with
  | delim => exact ⟨rfl, rfl⟩
  | _ => contradiction

/-- Any identifier will do, and none leaves the block. -/
theorem Confined.identifier :
    Confined (depth + 1) (depth + 1) (identifier : Rule K String) := by
  refine Confined.nextSolid_bind fun token rest htoken => ?_
  cases token with
  | ident name => exact Confined.pure name rest (htoken.of_plain rfl rfl)
  | _ => exact .inr fun _ => rfl

/-- The blank that a sum asks for around its sign is the next token itself. -/
theorem Confined.blank : Confined (depth + 1) (depth + 1) (blank : Rule K Unit) := by
  refine Confined.next_bind fun token rest htoken => ?_
  cases token with
  | whitespace => exact Confined.pure () rest (htoken.of_plain rfl rfl)
  | _ => exact .inr fun _ => rfl

/-- The first token that is not blank is one of those inside of the block. -/
theorem Confined.peekAt_zero :
    Confined (depth + 1) (depth + 1) (peekAt 0 : Rule K (Option (Token K))) := by
  intro front hfront
  obtain ⟨before, token, left, hbefore, rfl, hsolid, -⟩ := hfront.exists_solid
  refine .inl ⟨some token, _, hfront, fun rest => ?_⟩
  rw [List.append_assoc, List.cons_append]
  exact peekAt_zero_append hbefore hsolid (left ++ rest)

/-- Looking ahead for a function stays inside of the block. -/
theorem Confined.isCalling (name : String) :
    Confined (depth + 1) (depth + 1) (isCalling name : Rule K Bool) :=
  Confined.peekAt_zero.bind fun _ => Confined.pure _

/-- Looking ahead for a name stays inside of the block. -/
theorem Confined.isNaming (name : String) :
    Confined (depth + 1) (depth + 1) (isNaming name : Rule K Bool) :=
  Confined.peekAt_zero.bind fun _ => Confined.pure _

end Tokens

/-! ## Self-contained rules -/

/-- Blanks in front of a balanced list. -/
theorem balanced_blanks_append {before tokens : List (Token K)} (hbefore : AreBlank before)
    (h : Balanced tokens) : Balanced (before ++ tokens) := by
  induction before with
  | nil => exact h
  | cons token before ih =>
    obtain ⟨htoken, hbefore'⟩ := List.forall_mem_cons.1 hbefore
    obtain rfl := eq_whitespace htoken
    exact (balancedFrom_of_plain rfl rfl).2 (ih hbefore')

/-- What the rule takes is balanced, and it takes the same off any list that starts with it. -/
def IsSelfContained (r : Rule K α) : Prop :=
  ∀ tokens a rest, r tokens = (some a, rest) →
    ∃ used, used ≠ [] ∧ tokens = used ++ rest ∧ Balanced used ∧ Reads r used a

/-- A rule that goes on with the next token that is not blank. The blanks in front of it are taken,
too. -/
theorem IsSelfContained.nextSolid_bind {next : Token K → Rule K α}
    (h : ∀ token tokens a rest, next token tokens = (some a, rest) →
      ∃ used, tokens = used ++ rest ∧ Balanced (token :: used) ∧ Reads (next token) used a) :
    IsSelfContained (nextSolid >>= next) := by
  intro tokens a rest hr
  obtain ⟨token, left, htoken, hnext⟩ := bind_eq_some_iff.1 hr
  obtain ⟨hsolid, before, hbefore, rfl⟩ := nextSolid_eq_some_iff.1 htoken
  obtain ⟨used, rfl, hused, hreads⟩ := h token left a rest hnext
  have hreads' : Reads (nextSolid >>= next) (token :: used) a :=
    (reads_nextSolid hsolid).bind hreads
  refine ⟨before ++ token :: used, by simp, by simp, balanced_blanks_append hbefore hused, ?_⟩
  intro after
  rw [List.append_assoc, skipsBlank_nextSolid.bind.append hbefore]
  exact hreads' after

/-- That a front part of what is left closes the open blocks is kept when a token is taken, in the
direction from the end to the start: what follows from it at the start follows from it later. -/
theorem levelled_closable (top : ℕ) (goal : Prop) : Levelled top
    (fun levels (tokens : List (Token K)) => Closable (top - levels) tokens → goal) := by
  constructor
  · -- A token that neither opens nor closes a block extends the front part.
    intro levels token rest hopens hcloses hgoal hclosable
    refine hgoal ?_
    cases hdepth : top - levels with
    | zero => exact closable_zero _
    | succ depth =>
      rw [hdepth] at hclosable
      obtain ⟨front, left, rfl, hfront⟩ := hclosable
      exact ⟨token :: front, left, rfl, .plain hopens hcloses hfront⟩
  · -- A token that opens a block needs one more that is closed, and so one level less is left.
    intro levels token rest hopens hgoal hclosable
    refine hgoal ?_
    cases hdepth : top - (levels + 1) with
    | zero => exact closable_zero _
    | succ depth =>
      have hdepth' : top - levels = depth + 2 := by omega
      rw [hdepth'] at hclosable
      obtain ⟨front, left, rfl, hfront⟩ := hclosable
      exact ⟨token :: front, left, rfl, .opens hopens hfront⟩
  · -- A parenthesis that closes a block uses up the level that its block took.
    intro levels token rest hlevels hcloses hgoal hclosable
    refine hgoal ?_
    have hdepth : top - levels = top - (levels + 1) + 1 := by omega
    obtain ⟨front, left, rfl, hfront⟩ := hclosable
    rw [hdepth]
    exact ⟨token :: front, left, rfl, .closes hcloses hfront⟩

variable {r : Rule K α} {tokens rest : List (Token K)} {a : α}

/-- A rule for the content of a block that takes tokens one by one closes the block where it has a
value. -/
theorem closable_of_agree {levels : ℕ}
    (hagree : ∀ {P : ℕ → List (Token K) → Prop}, Levelled (levels + 1) P →
      Agree (P levels) (P (levels + 1)) r r) (h : r tokens = (some a, rest)) :
    Closable 1 tokens := by
  have hleaves := (hagree (levelled_closable (levels + 1) (Closable 1 tokens)) tokens (by
    rw [Nat.add_sub_cancel_left]
    exact id)).leaves h
  rw [Nat.sub_self] at hleaves
  exact hleaves (closable_zero rest)

/-- A rule for the content of a block takes exactly what closes the block. -/
theorem Confined.exists_content {levels : ℕ} {token : Token K} (h : Confined 1 0 r)
    (hagree : ∀ {P : ℕ → List (Token K) → Prop}, Levelled (levels + 1) P →
      Agree (P levels) (P (levels + 1)) r r)
    (hopens : token.opensBlock = true) (hr : r tokens = (some a, rest)) :
    ∃ used, tokens = used ++ rest ∧ Balanced (token :: used) ∧ Reads r used a := by
  obtain ⟨used, left, rfl, hused⟩ := closable_of_agree hagree hr
  rcases h used hused with ⟨b, after, hafter, hreads⟩ | hfails
  · obtain rfl := hafter.eq_nil
    rw [hreads left] at hr
    cases hr
    exact ⟨used, rfl, (balancedFrom_of_opens hopens).2 hused.balancedFrom, hreads⟩
  · have hnone := hfails left
    rw [hr] at hnone
    cases hnone

end CssColor.Rule
