import CssColor.Token.Lexer

/-!
# Grammar rules

A rule reads tokens from the front of a list. It gives a value or fails, and in both cases it leaves
the tokens that it has not taken; only `optional` and `many` put back what a failing rule has taken.
Functions and parentheses may be nested in one another to the depth `maxBlockDepth`; rules that read
blocks take the number of further levels that are allowed.
-/

namespace CssColor

/-- A rule: a value or a failure, and the tokens that are left. -/
def Rule (K α : Type) : Type := List (Token K) → Option α × List (Token K)

/-- How many functions and parentheses may be nested in one another. -/
def maxBlockDepth : Nat := 64

namespace Rule

variable {K α β : Type}

/-- The value of a rule on a list of tokens, and the tokens that are left. -/
def run (rule : Rule K α) (tokens : List (Token K)) : Option α × List (Token K) := rule tokens

/-- The rule that takes nothing. -/
protected def pure (a : α) : Rule K α := fun tokens => (some a, tokens)

/-- One rule after the other. -/
protected def bind (rule : Rule K α) (next : α → Rule K β) : Rule K β := fun tokens =>
  match rule tokens with
  | (some a, rest) => next a rest
  | (none, rest) => (none, rest)

instance : Monad (Rule K) where
  pure := Rule.pure
  bind := Rule.bind

/-- The rule that fails and takes nothing. -/
def fail : Rule K α := fun tokens => (none, tokens)

/-- A value that may be missing, as a rule that takes nothing. -/
def ofOption : Option α → Rule K α
  | some a => pure a
  | none => fail

/-- The first token that a rule finds, if any, without taking it. -/
def peek : Rule K (Option (Token K)) := fun tokens => (some tokens.head?, tokens)

/-- The `n`-th token that is not blank, if any, without taking anything. -/
def peekAt (n : Nat) : Rule K (Option (Token K)) := fun tokens =>
  (some (tokens.filter fun token => !token.isWhitespace)[n]?, tokens)

/-- Takes the next token. -/
def next : Rule K (Token K) := fun tokens =>
  match tokens with
  | token :: rest => (some token, rest)
  | [] => (none, [])

/-- Takes the blanks in front. -/
def skipBlanks : Rule K Unit := fun tokens => (some (), tokens.dropWhile Token.isWhitespace)

/-- Takes the next token that is not blank. -/
def nextSolid : Rule K (Token K) := do
  skipBlanks
  next

/-- Takes the next token that is not blank, which has to satisfy `accepts`. -/
def nextWith (accepts : Token K → Bool) : Rule K Unit := do
  if accepts (← nextSolid) then pure () else fail

/-- Takes the given token. -/
def token [BEq K] (expected : Token K) : Rule K Unit := nextWith (· == expected)

/-- Takes the given identifier in any case. -/
def keyword (name : String) : Rule K Unit := nextWith (Token.isIdent name)

/-- Takes an identifier. -/
def identifier : Rule K String := do
  match ← nextSolid with
  | .ident name => pure name
  | _ => fail

/-- Takes a comma. -/
def comma : Rule K Unit := nextWith fun
  | .comma => true
  | _ => false

/-- Takes a closing parenthesis. -/
def closeParen : Rule K Unit := nextWith Token.closesBlock

/-- Takes a blank. -/
def blank : Rule K Unit := do
  if (← next).isWhitespace then pure () else fail

/-- Whether only blanks are left. -/
def isExhausted : Rule K Bool := return (← peekAt 0).isNone

/-- Takes the blanks that are left, and fails if another token follows, which is taken too. -/
def exhausted : Rule K Unit := fun tokens =>
  match nextSolid tokens with
  | (none, rest) => (some (), rest)
  | (some _, rest) => (none, rest)

/-- Whether a call of the given function comes next. -/
def isCalling (name : String) : Rule K Bool := return (← peekAt 0).any (Token.isFunction name)

/-- Whether the given identifier comes next. -/
def isNaming (name : String) : Rule K Bool := return (← peekAt 0).any (Token.isIdent name)

/-- The value of a rule, or nothing where it fails. A failing rule takes nothing. -/
def optional (rule : Rule K α) : Rule K (Option α) := fun tokens =>
  match rule tokens with
  | (some a, rest) => (some (some a), rest)
  | (none, _) => (some none, tokens)

/-- The values of a rule that is repeated until it fails or takes nothing. -/
def repeated (rule : Rule K α) (tokens : List (Token K)) : List α × List (Token K) :=
  match rule tokens with
  | (some a, rest) =>
    if rest.length < tokens.length then
      let (as, left) := repeated rule rest
      (a :: as, left)
    else ([], tokens)
  | (none, _) => ([], tokens)
termination_by tokens.length

/-- The values of a rule that is repeated until it fails or takes nothing. The last attempt takes
nothing. -/
def many (rule : Rule K α) : Rule K (List α) := fun tokens =>
  let (as, left) := repeated rule tokens
  (some as, left)

/-- A rule for a block with `levels` further levels allowed; with none allowed it fails. -/
def nested (levels : Nat) (rule : Nat → Rule K α) : Rule K α :=
  match levels with
  | 0 => fail
  | levels + 1 => rule levels

/-- The value of a rule that has to take all tokens. -/
def complete (rule : Rule K α) : Rule K α := do
  let a ← rule
  exhausted
  return a

/-- The value of a rule on all tokens of a list, blanks collapsed. -/
def parse (rule : Rule K α) (tokens : List (Token K)) : Option α :=
  (rule.complete (Token.collapse tokens)).1

/-- The content of a block whose opening token has been taken with `depth` further ones, up to the
closing parenthesis, and the tokens after that. Without one, everything is taken. -/
def blockFrom (depth : Nat) : List (Token K) → Option (List (Token K)) × List (Token K)
  | [] => (none, [])
  | token :: rest =>
    if token.opensBlock then
      let (content, left) := blockFrom (depth + 1) rest
      (content.map (token :: ·), left)
    else if token.closesBlock then
      match depth with
      | 0 => (some [], rest)
      | depth + 1 =>
        let (content, left) := blockFrom depth rest
        (content.map (token :: ·), left)
    else
      let (content, left) := blockFrom depth rest
      (content.map (token :: ·), left)

/-- Takes the content of a block whose opening token has been taken, and the parenthesis that closes
it. -/
def block : Rule K (List (Token K)) := blockFrom 0

/-- Takes all tokens that are left. -/
def remaining : Rule K (List (Token K)) := fun tokens => (some tokens, [])

end Rule

end CssColor
