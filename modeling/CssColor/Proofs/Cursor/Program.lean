import CssColor.Proofs.Cursor.Position

/-!
# Programs on a cursor

A `Program` is what a caller may do with a cursor: operations one after the other, each chosen by
what those before it have given, and among them programs that are put back where they fail and
programs inside of a further block. The commands of a cursor are programs (`Program.run_ofCommand`),
so what holds of programs holds of them (`Program.run_command_keeps`).

`Program.events` are the operations that a run performs. A caller may move the cursor back, but only
to positions that it has asked for (`Event.MovesBack`). Then every operation of the run is orderly
(`Program.events_orderly`): it keeps the tokens, it starts and ends at a position of the tokens, it
leaves as many blocks open as before, and where it is optional and fails, it changes nothing.

A colour or an expression is read by one operation, whose blocks are no operations of their own.
`Step.exists_program` shows that such an operation does what operations do that open the blocks one
by one, and that those are orderly too.

The proof is by induction on the program. That the tokens and the number of open blocks are kept
holds of every run (`run_keeps`). The bound on the position needs more: it is the invariant that all
positions that have been asked for are positions of the tokens (`run_orderly`).
-/

namespace CssColor

/-- A program for a cursor, which gives a value or fails. -/
inductive Program (K : Type) : Type → Type 1 where
  /-- Does nothing and has the given result. -/
  | done {α : Type} (result : Option α) : Program K α
  | step (reading : Step K) : Program K (Reply K)
  /-- Asks for the position of the cursor. -/
  | ask : Program K ℕ
  | moveTo (position : ℕ) : Program K Unit
  /-- A program that moves the cursor back if it fails. -/
  | optional {α : Type} (inner : Program K α) : Program K (Option α)
  /-- A program inside of a further block, which fails if too many blocks are open. -/
  | nested {α : Type} (inner : Program K α) : Program K α
  /-- A program and what follows it, which may depend on its result and also follows a failure. -/
  | andThen {α β : Type} (first : Program K α) (next : Option α → Program K β) : Program K β

namespace Program

/-- What a program does with a cursor. -/
inductive Operation (K : Type) where
  | step (reading : Step K)
  | ask
  | moveTo (position : ℕ)
  | optional
  | nested

/-- An operation that has been performed: the cursor before it and after it, and whether it has
given a value. -/
structure Event (K : Type) where
  operation : Operation K
  before : Cursor K
  after : Cursor K
  hasValue : Bool

variable {K α β : Type}

namespace Event

/-- The event of an operation with the given outcome. -/
def of (operation : Operation K) (before : Cursor K) (outcome : Option α × Cursor K) : Event K :=
  ⟨operation, before, outcome.2, outcome.1.isSome⟩

/-- The position that has been asked for. -/
def asked (event : Event K) : Set ℕ :=
  {position | event.operation = .ask ∧ event.before.position = position}

/-- Where the operations move the cursor, they move it to one of the positions that are known, or to
one that has been asked for since. -/
def MovesBack (known : Set ℕ) : List (Event K) → Prop
  | [] => True
  | event :: later =>
    (∀ position, event.operation = .moveTo position → position ∈ known) ∧
      MovesBack (known ∪ event.asked) later

/-- An operation that has been performed on a cursor over the given tokens, and that has kept the
tokens and the blocks that are open, and has not left the tokens. -/
structure IsOrderly (tokens : List (Token K)) [Scalar K] (event : Event K) : Prop where
  tokens_before : event.before.tokens = tokens
  tokens_after : event.after.tokens = tokens
  position_before : event.before.position ≤ tokens.length
  position_after : event.after.position ≤ tokens.length
  /-- As many blocks are open as before, also where the operation has failed. -/
  depth : event.after.depth = event.before.depth
  /-- An optional program that fails is undone. -/
  undone : event.operation = .optional → event.hasValue = false → event.after = event.before
  /-- The position after a step is the place of the tokens that the step has left. -/
  left : ∀ reading, event.operation = .step reading → event.after.rest =
    ((reading.rule (maxBlockDepth - event.before.depth)).run event.before.rest).2

/-- Of operations in a row that move back, the later ones move back to what was known before, or to
what the earlier ones have asked for. -/
theorem MovesBack.of_append {known : Set ℕ} {earlier later : List (Event K)}
    (h : MovesBack known (earlier ++ later)) : MovesBack known earlier ∧ ∃ known',
      MovesBack known' later ∧
        ∀ position ∈ known', position ∈ known ∨ ∃ event ∈ earlier, position ∈ event.asked := by
  induction earlier generalizing known with
  | nil => exact ⟨trivial, known, h, fun position => Or.inl⟩
  | cons event rest ih =>
    obtain ⟨hevent, hrest⟩ := h
    obtain ⟨hmoves, known', hlater, hknown'⟩ := ih hrest
    refine ⟨⟨hevent, hmoves⟩, known', hlater, fun position hposition => ?_⟩
    rcases hknown' position hposition with (hknown | hasked) | ⟨event', hevent', hasked⟩
    · exact Or.inl hknown
    · exact Or.inr ⟨event, List.mem_cons_self, hasked⟩
    · exact Or.inr ⟨event', List.mem_cons_of_mem event hevent', hasked⟩

end Event

variable [Scalar K]

/-- The value of a program, or none if it fails, and the cursor after it. -/
def run {α : Type} (cursor : Cursor K) : Program K α → Option α × Cursor K
  | done result => (result, cursor)
  | step reading => Command.run cursor (.step reading)
  | ask => (some cursor.position, cursor)
  | moveTo position => (some (), { cursor with position })
  | optional inner =>
    let (result, after) := run cursor inner
    (some result, if result.isSome then after else { after with position := cursor.position })
  | nested inner =>
    if cursor.depth < maxBlockDepth then
      let (result, after) := run { cursor with depth := cursor.depth + 1 } inner
      (result, { after with depth := after.depth - 1 })
    else (none, cursor)
  | andThen first next =>
    let (result, after) := run cursor first
    run after (next result)

/-- The operations that a program performs. Those inside of an operation come before it. -/
def events {α : Type} (cursor : Cursor K) : Program K α → List (Event K)
  | done _ => []
  | step reading => [.of (.step reading) cursor (run cursor (.step reading))]
  | ask => [.of .ask cursor (run cursor .ask)]
  | moveTo position => [.of (.moveTo position) cursor (run cursor (.moveTo position))]
  | optional inner =>
    events cursor inner ++
      [.of .optional cursor ((run cursor inner).1, (run cursor (.optional inner)).2)]
  | nested inner =>
    (if cursor.depth < maxBlockDepth then
      events { cursor with depth := cursor.depth + 1 } inner
    else []) ++ [.of .nested cursor (run cursor (.nested inner))]
  | andThen first next =>
    events cursor first ++ events (run cursor first).2 (next (run cursor first).1)

/-! ## Commands -/

/-- A program inside of several further blocks. -/
def nestedTimes : ℕ → Program K α → Program K α
  | 0, program => program
  | blocks + 1, program => nested (nestedTimes blocks program)

mutual

/-- A command as a program. -/
def ofCommand : Command K → Program K (Reply K)
  | .step reading => step reading
  | .moveTo position => andThen (moveTo position) fun _ => done (some .nothing)
  | .optional commands =>
    andThen (optional (ofCommands commands)) fun
      | some (some replies) => done (some (.replies replies))
      | _ => done (some .nothing)
  | .nested blocks commands =>
    andThen (nestedTimes blocks (ofCommands commands)) fun replies => done (replies.map .replies)

/-- Commands in a row as a program, which ends as soon as one of them fails. -/
def ofCommands : List (Command K) → Program K (List (Reply K))
  | [] => done (some [])
  | command :: commands =>
    andThen (ofCommand command) fun
      | some reply =>
        andThen (ofCommands commands) fun replies => done (replies.map (reply :: ·))
      | none => done none

end

/-! ## What a run changes -/

/-- A run keeps the tokens, and leaves as many blocks open as before. -/
theorem run_keeps (cursor : Cursor K) (program : Program K α) :
    (run cursor program).2.tokens = cursor.tokens ∧
      (run cursor program).2.depth = cursor.depth := by
  induction program generalizing cursor with
  | done result => exact ⟨rfl, rfl⟩
  | step reading => exact ⟨rfl, rfl⟩
  | ask => exact ⟨rfl, rfl⟩
  | moveTo position => exact ⟨rfl, rfl⟩
  | optional inner ih =>
    obtain ⟨htokens, hdepth⟩ := ih cursor
    dsimp only [run]
    split
    · exact ⟨htokens, hdepth⟩
    · exact ⟨htokens, hdepth⟩
  | nested inner ih =>
    obtain ⟨htokens, hdepth⟩ := ih { cursor with depth := cursor.depth + 1 }
    unfold run
    split
    · -- The block that was opened for the inner program is still open after it.
      dsimp only at htokens hdepth ⊢
      exact ⟨htokens, by omega⟩
    · exact ⟨rfl, rfl⟩
  | andThen first next ihfirst ihnext =>
    obtain ⟨htokens, hdepth⟩ := ihfirst cursor
    obtain ⟨htokens', hdepth'⟩ := ihnext (run cursor first).1 (run cursor first).2
    exact ⟨htokens'.trans htokens, hdepth'.trans hdepth⟩

/-- An optional program that fails changes nothing. -/
theorem run_optional_of_fails {cursor : Cursor K} {inner : Program K α}
    (h : (run cursor inner).1 = none) : (run cursor (optional inner)).2 = cursor := by
  obtain ⟨htokens, hdepth⟩ := run_keeps cursor inner
  have hundone : (run cursor (optional inner)).2 =
      ⟨(run cursor inner).2.tokens, cursor.position, (run cursor inner).2.depth⟩ := by
    dsimp only [run]
    rw [h]
    rfl
  rw [hundone, htokens, hdepth]

/-- A program inside of several further blocks runs if so many may be opened. -/
theorem run_nestedTimes (blocks : ℕ) (program : Program K α) (cursor : Cursor K)
    (hdepth : cursor.depth ≤ maxBlockDepth) : run cursor (nestedTimes blocks program) =
      if cursor.depth + blocks ≤ maxBlockDepth then
        let (result, after) := run { cursor with depth := cursor.depth + blocks } program
        (result, { after with depth := after.depth - blocks })
      else (none, cursor) := by
  induction blocks generalizing cursor with
  | zero => exact (if_pos hdepth).symm
  | succ blocks ih =>
    rw [nestedTimes, run]
    -- With room for one block, the others are opened inside of it.
    by_cases hroom : cursor.depth < maxBlockDepth
    · have hinner := ih { cursor with depth := cursor.depth + 1 } hroom
      rw [if_pos hroom, hinner]
      dsimp only
      rw [Nat.add_right_comm, Nat.add_assoc cursor.depth]
      split
      · dsimp only
        rw [Nat.sub_sub]
      · rfl
    · rw [if_neg hroom, if_neg (by omega)]

mutual

/-- A command does what it does as a program. -/
theorem run_ofCommand (command : Command K) (cursor : Cursor K)
    (hdepth : cursor.depth ≤ maxBlockDepth) :
    run cursor (ofCommand command) = Command.run cursor command := by
  cases command with
  | step reading => rfl
  | moveTo position => rfl
  | optional commands =>
    have hinner := run_ofCommands commands cursor hdepth
    dsimp only [ofCommand, run]
    rw [hinner, Command.run]
    rcases Command.runAll cursor commands with ⟨_ | replies, after⟩ <;> rfl
  -- Several blocks are opened one inside of the other.
  | nested blocks commands =>
    dsimp only [ofCommand, run]
    rw [run_nestedTimes blocks _ cursor hdepth, Command.run]
    split
    · next hroom =>
      have hinner :=
        run_ofCommands commands { cursor with depth := cursor.depth + blocks } hroom
      rw [hinner]
    · rfl

/-- Commands in a row do what they do as a program. -/
theorem run_ofCommands (commands : List (Command K)) (cursor : Cursor K)
    (hdepth : cursor.depth ≤ maxBlockDepth) :
    run cursor (ofCommands commands) = Command.runAll cursor commands := by
  cases commands with
  | nil => rfl
  | cons command commands =>
    have hfirst := run_ofCommand command cursor hdepth
    have hkept := (run_keeps cursor (ofCommand command)).2
    rw [hfirst] at hkept
    dsimp only [ofCommands, run]
    rw [hfirst, Command.runAll]
    rcases hrun : Command.run cursor command with ⟨_ | reply, after⟩
    · -- The row ends here on both sides.
      rfl
    · rw [hrun] at hkept
      have hrest := run_ofCommands commands after (hkept.trans_le hdepth)
      dsimp only [run]
      rw [hrest]

end

/-! ## Orderly operations -/

variable {tokens : List (Token K)}

/-- Whether an operation is orderly is seen from its outcome. Whether it is undone is a question for
optional programs only, and what it leaves is one for steps. -/
theorem Event.isOrderly_of {operation : Operation K} {cursor : Cursor K}
    {outcome : Option α × Cursor K}
    (htokens : cursor.tokens = tokens) (hposition : cursor.position ≤ tokens.length)
    (hkeeps : outcome.2.tokens = cursor.tokens ∧ outcome.2.depth = cursor.depth)
    (hafter : outcome.2.position ≤ tokens.length)
    (hundone : operation = .optional → outcome.1 = none → outcome.2 = cursor)
    (hleft : ∀ reading, operation = .step reading → outcome.2.rest =
      ((reading.rule (maxBlockDepth - cursor.depth)).run cursor.rest).2) :
    IsOrderly tokens (Event.of operation cursor outcome) where
  tokens_before := htokens
  tokens_after := hkeeps.1.trans htokens
  position_before := hposition
  position_after := hafter
  depth := hkeeps.2
  undone := fun hoptional hfails =>
    hundone hoptional (Option.isNone_iff_eq_none.1 (Option.isSome_eq_false_iff.1 hfails))
  left := hleft

/-- A run that moves back only to positions that were known or that it has asked for ends at a
position of the tokens, and all its operations are orderly. -/
theorem run_orderly (program : Program K α) (cursor : Cursor K) {known : Set ℕ}
    (htokens : cursor.tokens = tokens)
    (hposition : cursor.position ≤ tokens.length)
    (hknown : ∀ position ∈ known, position ≤ tokens.length)
    (hmoves : Event.MovesBack known (events cursor program)) :
    (run cursor program).2.position ≤ tokens.length ∧
      ∀ event ∈ events cursor program, event.IsOrderly tokens := by
  induction program generalizing cursor known with
  | done result =>
    refine ⟨hposition, fun event hevent => ?_⟩
    cases hevent
  | step reading =>
    have hafter : (run cursor (step reading)).2.position ≤ tokens.length := by
      rw [← htokens] at hposition ⊢
      exact Cursor.position_apply_le _ hposition
    refine ⟨hafter, List.forall_mem_singleton.2 ?_⟩
    refine Event.isOrderly_of htokens hposition (run_keeps cursor _) hafter nofun ?_
    intro reading' h
    cases h
    exact Cursor.rest_apply (Step.takesFront_rule reading _)
  | ask =>
    refine ⟨hposition, List.forall_mem_singleton.2 ?_⟩
    exact Event.isOrderly_of htokens hposition ⟨rfl, rfl⟩ hposition nofun nofun
  | moveTo position =>
    -- The position is a known one.
    have hafter : position ≤ tokens.length := hknown position (hmoves.1 position rfl)
    refine ⟨hafter, List.forall_mem_singleton.2 ?_⟩
    exact Event.isOrderly_of htokens hposition ⟨rfl, rfl⟩ hafter nofun nofun
  | optional inner ih =>
    obtain ⟨hinner, hevents⟩ := ih cursor htokens hposition hknown hmoves.of_append.1
    have hafter : (run cursor (optional inner)).2.position ≤ tokens.length := by
      dsimp only [run]
      split
      · exact hinner
      · exact hposition
    refine ⟨hafter, List.forall_mem_append.2 ⟨hevents, List.forall_mem_singleton.2 ?_⟩⟩
    exact Event.isOrderly_of htokens hposition (run_keeps cursor (optional inner)) hafter
      (fun _ => run_optional_of_fails) nofun
  | nested inner ih =>
    have hevent (hafter : (run cursor (nested inner)).2.position ≤ tokens.length) :
        Event.IsOrderly tokens (Event.of .nested cursor (run cursor (nested inner))) :=
      Event.isOrderly_of htokens hposition (run_keeps cursor (nested inner)) hafter nofun nofun
    by_cases hroom : cursor.depth < maxBlockDepth
    · have hmoves' := hmoves.of_append.1
      rw [if_pos hroom] at hmoves'
      obtain ⟨hinner, hevents⟩ :=
        ih { cursor with depth := cursor.depth + 1 } htokens hposition hknown hmoves'
      have hafter : (run cursor (nested inner)).2.position ≤ tokens.length := by
        rw [run, if_pos hroom]
        exact hinner
      refine ⟨hafter, ?_⟩
      rw [events, if_pos hroom]
      exact List.forall_mem_append.2 ⟨hevents, List.forall_mem_singleton.2 (hevent hafter)⟩
    · -- Too many blocks are open, and nothing is done.
      have hafter : (run cursor (nested inner)).2.position ≤ tokens.length := by
        rw [run, if_neg hroom]
        exact hposition
      refine ⟨hafter, ?_⟩
      rw [events, if_neg hroom]
      exact List.forall_mem_singleton.2 (hevent hafter)
  | andThen first next ihfirst ihnext =>
    obtain ⟨hfirst, known', hnext, hknown'⟩ := hmoves.of_append
    obtain ⟨hafter, hevents⟩ := ihfirst cursor htokens hposition hknown hfirst
    have htokens' := (run_keeps cursor first).1.trans htokens
    -- What the first program has asked for are positions of the tokens.
    have hbound : ∀ position ∈ known', position ≤ tokens.length := by
      intro position hmem
      rcases hknown' position hmem with hmem | ⟨event, hevent, -, rfl⟩
      · exact hknown position hmem
      · exact (hevents event hevent).position_before
    obtain ⟨hlast, hevents'⟩ := ihnext _ _ htokens' hafter hbound hnext
    exact ⟨hlast, List.forall_mem_append.2 ⟨hevents, hevents'⟩⟩

/-- A command keeps the tokens and leaves as many blocks open as before, also where it fails. If it
moves back only to known positions, it ends at a position of the tokens. -/
theorem run_command_keeps (command : Command K) {cursor : Cursor K} {known : Set ℕ}
    (hdepth : cursor.depth ≤ maxBlockDepth) (hposition : cursor.position ≤ cursor.tokens.length)
    (hknown : ∀ position ∈ known, position ≤ cursor.tokens.length) :
    (Command.run cursor command).2.tokens = cursor.tokens ∧
      (Command.run cursor command).2.depth = cursor.depth ∧
      (Event.MovesBack known (events cursor (ofCommand command)) →
        (Command.run cursor command).2.position ≤ cursor.tokens.length) := by
  rw [← run_ofCommand command cursor hdepth]
  obtain ⟨htokens, hopen⟩ := run_keeps cursor (ofCommand command)
  refine ⟨htokens, hopen, fun hmoves => ?_⟩
  exact (run_orderly (ofCommand command) cursor rfl hposition hknown hmoves).1

/-- Where a run moves the cursor back only to positions that were known before or that it has asked
for, all its operations are orderly, however they are nested in one another and wherever they fail:
each keeps the tokens, starts and ends at a position of the tokens and leaves as many blocks open as
before, and an optional program that fails changes nothing. The run as a whole is no exception. -/
theorem events_orderly (program : Program K α) {cursor : Cursor K} {known : Set ℕ}
    (hposition : cursor.position ≤ cursor.tokens.length)
    (hknown : ∀ position ∈ known, position ≤ cursor.tokens.length)
    (hmoves : Event.MovesBack known (events cursor program)) :
    (∀ event ∈ events cursor program, event.IsOrderly cursor.tokens) ∧
      (run cursor program).2.tokens = cursor.tokens ∧
      (run cursor program).2.position ≤ cursor.tokens.length ∧
      (run cursor program).2.depth = cursor.depth := by
  obtain ⟨hafter, hevents⟩ := run_orderly program cursor rfl hposition hknown hmoves
  obtain ⟨htokens, hdepth⟩ := run_keeps cursor program
  exact ⟨hevents, htokens, hafter, hdepth⟩

/-- Looks for a name and a comma inside of a further block, reads on and goes back to the start. -/
def lookingAhead : Program Double Unit :=
  andThen ask fun start =>
    andThen (optional (nested (andThen (step .next) fun _ => step (.token .comma)))) fun _ =>
      andThen (step .nextSolid) fun _ =>
        match start with
        | some position => moveTo position
        | none => done none

/-- The attempt fails behind the second token, and the program goes back to where it has started. -/
theorem events_orderly_lookingAhead :
    Command.amongOthers.position ≤ Command.amongOthers.tokens.length ∧
      Event.MovesBack ∅ (events Command.amongOthers lookingAhead) ∧
      (∀ event ∈ events Command.amongOthers lookingAhead,
        event.IsOrderly Command.amongOthers.tokens) ∧
      (run Command.amongOthers lookingAhead).2.position = 1 := by
  have hposition : Command.amongOthers.position ≤ Command.amongOthers.tokens.length := by decide
  have hmoves : Event.MovesBack ∅ (events Command.amongOthers lookingAhead) := by
    refine ⟨nofun, nofun, nofun, nofun, nofun, nofun, fun position h => ?_, trivial⟩
    -- The position is the one that the first operation has asked for.
    cases h
    simp [Event.asked, Event.of]
  exact ⟨hposition, hmoves, (events_orderly lookingAhead hposition (by simp) hmoves).1, rfl⟩

end Program

end CssColor
