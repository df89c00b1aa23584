import CssColor.Value.Grammar

/-!
# Cursors

A `Cursor` is a position in a list of tokens and the number of blocks that are open there. It serves
callers that read a value step by step: a `Step` runs one grammar rule at the cursor, and a
`Command` is a step, a move, or a list of commands that may fail or that is read inside of blocks.
-/

namespace CssColor

/-- A position in a list of tokens, where `depth` blocks are open. -/
structure Cursor (K : Type) where
  tokens : List (Token K)
  position : Nat
  depth : Nat

/-- What a single step reads. -/
inductive Step (K : Type) where
  /-- The next token. -/
  | next
  /-- The next token that is not blank. -/
  | nextSolid
  /-- The next token, which is left in place. -/
  | peek
  /-- The token at an index among those that are not blank, which is left in place. -/
  | peekAt (index : Nat)
  /-- The given token. -/
  | token (expected : Token K)
  /-- The given identifier in any case. -/
  | keyword (name : String)
  /-- Any identifier. -/
  | identifier
  /-- A blank. -/
  | blank
  /-- Blanks, if there are any. -/
  | skipBlanks
  /-- Whether only blanks are left. -/
  | isExhausted
  /-- Nothing but blanks up to the end. -/
  | exhausted
  /-- All tokens that are left. -/
  | remaining
  /-- The content of a block and the parenthesis that closes it. -/
  | block
  /-- A call of `calc()`. -/
  | expression
  /-- A colour value. -/
  | color

/-- What a command gives. -/
inductive Reply (K : Type) where
  | nothing
  | flag (value : Bool)
  | token (value : Token K)
  | name (value : String)
  | tokens (values : List (Token K))
  | expression (value : Expression K)
  | color (value : ColorValue K)
  | replies (values : List (Reply K))

/-- What can be done with a cursor. -/
inductive Command (K : Type) where
  | step (reading : Step K)
  /-- Moves to a position. -/
  | moveTo (position : Nat)
  /-- Commands that move the cursor back if one of them fails. -/
  | optional (commands : List (Command K))
  /-- Commands inside of further blocks, which fail if too many blocks are open. -/
  | nested (blocks : Nat) (commands : List (Command K))

namespace Reply

variable {K : Type}

/-- The reply of a token that may be missing. -/
def ofToken? : Option (Token K) → Reply K
  | some value => token value
  | none => nothing

end Reply

variable {K : Type} [Scalar K]

/-- The grammar rule of a step where `levels` further blocks may be opened. -/
def Step.rule (levels : Nat) : Step K → Rule K (Reply K)
  | next => return .ofToken? (← Rule.optional Rule.next)
  | nextSolid => do
    Rule.skipBlanks
    return .ofToken? (← Rule.optional Rule.next)
  | peek => return .ofToken? (← Rule.peek)
  | peekAt index => return .ofToken? (← Rule.peekAt index)
  | token expected => do
    Rule.token expected
    return .flag true
  | keyword name => do
    Rule.keyword name
    return .flag true
  | identifier => return .name (← Rule.identifier)
  | blank => do
    Rule.blank
    return .flag true
  | skipBlanks => do
    Rule.skipBlanks
    return .nothing
  | isExhausted => return .flag (← Rule.isExhausted)
  | exhausted => do
    Rule.exhausted
    return .flag true
  | remaining => return .tokens (← Rule.remaining)
  | block => return .tokens (← Rule.block)
  | expression => return .expression (← Expression.rule levels)
  | color => return .color (← ColorValue.rule levels)

namespace Cursor

omit [Scalar K] in
/-- The cursor at the start of tokens, whose blanks are collapsed. -/
def ofTokens (tokens : List (Token K)) : Cursor K := ⟨Token.collapse tokens, 0, 0⟩

/-- The cursor at the start of the tokens of a text. -/
def ofText (text : String) : Cursor K := ofTokens (Token.scan text.toList)

omit [Scalar K] in
/-- The tokens from the position on. -/
def rest (cursor : Cursor K) : List (Token K) := cursor.tokens.drop cursor.position

omit [Scalar K] in
/-- The value of a rule at the cursor, and the cursor after the tokens that the rule has taken. -/
def apply {α : Type} (cursor : Cursor K) (rule : Rule K α) : Option α × Cursor K :=
  let (value, left) := rule.run cursor.rest
  (value, { cursor with position := cursor.position + (cursor.rest.length - left.length) })

end Cursor

namespace Command

mutual

/-- The reply to a command, or none if it fails, and the cursor after it. -/
def run (cursor : Cursor K) : Command K → Option (Reply K) × Cursor K
  | step reading => cursor.apply (reading.rule (maxBlockDepth - cursor.depth))
  | moveTo position => (some .nothing, { cursor with position })
  | optional commands =>
    match runAll cursor commands with
    | (some replies, after) => (some (.replies replies), after)
    | (none, after) => (some .nothing, { after with position := cursor.position })
  | nested blocks commands =>
    if cursor.depth + blocks ≤ maxBlockDepth then
      let (replies, after) := runAll { cursor with depth := cursor.depth + blocks } commands
      (replies.map .replies, { after with depth := after.depth - blocks })
    else (none, cursor)

/-- The replies to commands, or none as soon as one of them fails, and the cursor after the last one
that was run. -/
def runAll (cursor : Cursor K) : List (Command K) → Option (List (Reply K)) × Cursor K
  | [] => (some [], cursor)
  | command :: commands =>
    match run cursor command with
    | (some reply, after) =>
      let (replies, last) := runAll after commands
      (replies.map (reply :: ·), last)
    | (none, after) => (none, after)

end

end Command

end CssColor
