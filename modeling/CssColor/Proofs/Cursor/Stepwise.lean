import CssColor.Proofs.Cursor.Program

/-!
# Blocks that are opened one by one

The rules for expressions and colours take the number of levels that blocks may be nested in one
another, and a step of a cursor runs them with the number of blocks that may still be opened there.
This module shows what the levels stand for. `Program.OpensOneByOne` are the programs that notice
only by `Program.nested` how many blocks are open, as their steps read the same at every depth.
Whatever a step reads, one such program does the same at every depth (`Step.exists_program`), so the
bound of the grammar is the one on blocks that are opened one after the other, and a step leaves as
many blocks open as before because each of the blocks that it opens is closed again, also where it
fails inside of one.

Programs have no loops, so the program for a rule that is repeated depends on a bound on the number
of tokens that are left (`Program.repeatedly`). The proof follows the rule formers:
`Program.Performs` says that a program does what a rule does, and `Rule.keptByFormers_isStepwise`
that there is such a program for every rule that the formers make.
-/

namespace CssColor

open Rule

variable {K α β : Type}

/-! ## Rules one after the other -/

namespace Cursor

variable {r : Rule K α} {cursor after : Cursor K} {a : α}

/-- The outcome of a rule at a cursor, from its outcome on the tokens. -/
theorem apply_of_run {value : Option α} {left : List (Token K)}
    (h : r cursor.rest = (value, left)) : cursor.apply r = (value,
      { cursor with position := cursor.position + (cursor.rest.length - left.length) }) := by
  unfold apply run
  rw [h]

/-- A rule that takes nothing leaves the cursor where it is. -/
theorem apply_of_run_rest {value : Option α} (h : r cursor.rest = (value, cursor.rest)) :
    cursor.apply r = (value, cursor) := by
  rw [apply_of_run h, Nat.sub_self, Nat.add_zero]

/-- The outcome of a rule on the tokens, from its outcome at a cursor: what is left are the tokens
from the new position on, and they are no more than before. -/
theorem run_of_apply {value : Option α} (htakes : TakesFront r)
    (h : cursor.apply r = (value, after)) : r cursor.rest = (value, after.rest) ∧
      after.rest.length ≤ cursor.rest.length ∧ after =
        { cursor with
          position := cursor.position + (cursor.rest.length - after.rest.length) } := by
  -- The cursor moves behind what the rule takes, whether it gives a value or fails.
  have hrest : (cursor.apply r).2.rest = (r.run cursor.rest).2 := rest_apply htakes
  have hlength := (htakes cursor.rest).length_le
  rw [← hrest, h] at hlength
  rcases hr : r cursor.rest with ⟨value', left⟩
  have hleft : after.rest = left := by
    rw [h] at hrest
    exact hrest.trans (congrArg Prod.snd hr)
  rw [apply_of_run hr, ← hleft] at h
  obtain ⟨rfl, hafter⟩ := Prod.mk.inj h
  exact ⟨by rw [hleft], hlength, hafter.symm⟩

/-- Tokens that are taken after a rule are counted together with those that the rule has taken. -/
theorem move_of_apply {value : Option α} {left : List (Token K)} (htakes : TakesFront r)
    (h : cursor.apply r = (value, after)) (hlength : left.length ≤ after.rest.length) :
    { after with position := after.position + (after.rest.length - left.length) } =
      { cursor with position := cursor.position + (cursor.rest.length - left.length) } := by
  obtain ⟨-, hshorter, hafter⟩ := run_of_apply htakes h
  have hposition : after.position = cursor.position + (cursor.rest.length - after.rest.length) :=
    congrArg Cursor.position hafter
  have hsum : after.position + (after.rest.length - left.length) =
      cursor.position + (cursor.rest.length - left.length) := by omega
  rw [hsum, congrArg Cursor.tokens hafter, congrArg Cursor.depth hafter]

/-- A rule that fails is not followed by another. -/
theorem apply_bind_of_none {next : α → Rule K β} (h : cursor.apply r = (none, after)) :
    cursor.apply (r >>= next) = (none, after) := by
  rcases hr : r cursor.rest with ⟨value, left⟩
  rw [apply_of_run hr] at h
  cases h
  exact apply_of_run (bind_of_none hr)

/-- After a rule, the next one is applied at the cursor that the rule has left. -/
theorem apply_bind_of_some {next : α → Rule K β} (htakes : TakesFront r)
    (hnext : TakesFront (next a)) (h : cursor.apply r = (some a, after)) :
    cursor.apply (r >>= next) = after.apply (next a) := by
  have hr := (run_of_apply htakes h).1
  rcases hlast : next a after.rest with ⟨value, left⟩
  have hlength : left.length ≤ after.rest.length := by
    have hsuffix := (hnext after.rest).length_le
    rwa [run, hlast] at hsuffix
  rw [apply_of_run ((bind_of_some hr).trans hlast), apply_of_run hlast,
    move_of_apply htakes h hlength]

/-- A rule that fails is put back where it is optional. -/
theorem apply_optional_of_none (h : cursor.apply r = (none, after)) :
    cursor.apply (Rule.optional r) = (some none, cursor) := by
  rcases hr : r cursor.rest with ⟨value, left⟩
  rw [apply_of_run hr] at h
  cases h
  have hoptional : Rule.optional r cursor.rest = (some none, cursor.rest) := by
    unfold Rule.optional
    rw [hr]
  exact apply_of_run_rest hoptional

/-- A rule that succeeds may be optional. -/
theorem apply_optional_of_some (h : cursor.apply r = (some a, after)) :
    cursor.apply (Rule.optional r) = (some (some a), after) := by
  rcases hr : r cursor.rest with ⟨value, left⟩
  rw [apply_of_run hr] at h
  cases h
  have hoptional : Rule.optional r cursor.rest = (some (some a), left) := by
    unfold Rule.optional
    rw [hr]
  exact apply_of_run hoptional

/-- A rule moves the cursor forward, so there are no more tokens left than before. -/
theorem length_rest_apply_le (htakes : TakesFront r) :
    (cursor.apply r).2.rest.length ≤ cursor.rest.length := by
  rw [rest_apply htakes]
  exact (htakes cursor.rest).length_le

/-- Fewer tokens are left where the cursor has been moved forward. -/
theorem length_rest_lt_of_progress (htakes : TakesFront r) (h : cursor.apply r = (some a, after))
    (hprogress : cursor.position < after.position) : after.rest.length < cursor.rest.length := by
  obtain ⟨-, -, hafter⟩ := run_of_apply htakes h
  have hposition := congrArg Cursor.position hafter
  dsimp only at hposition
  omega

/-- A rule is not repeated where it fails or takes nothing. -/
theorem apply_many_of_stuck (htakes : TakesFront r)
    (h : ∀ a after, cursor.apply r = (some a, after) → after.position ≤ cursor.position) :
    cursor.apply (many r) = (some [], cursor) := by
  have hmany : many r cursor.rest = (some [], cursor.rest) := by
    unfold many
    rw [repeated]
    rcases hr : r cursor.rest with ⟨_ | a, left⟩
    · rfl
    · have hposition := h a _ (apply_of_run hr)
      have hlength := (htakes cursor.rest).length_le
      rw [run, hr] at hlength
      dsimp only at hposition hlength ⊢
      rw [if_neg (by omega)]
  exact apply_of_run_rest hmany

/-- Where a rule takes something, it is repeated on what it leaves. -/
theorem apply_many_of_progress (htakes : TakesFront r) (h : cursor.apply r = (some a, after))
    (hprogress : cursor.position < after.position) : cursor.apply (many r) =
      ((after.apply (many r)).1.map (a :: ·), (after.apply (many r)).2) := by
  have hr := (run_of_apply htakes h).1
  have hless := length_rest_lt_of_progress htakes h hprogress
  -- The rest of the repetition is read from where the first run has stopped.
  rcases hlast : repeated r after.rest with ⟨as, left⟩
  have hlength : left.length ≤ after.rest.length := by
    have hsuffix := (htakes.repeated_suffix after.rest).length_le
    rwa [hlast] at hsuffix
  have hmany : many r cursor.rest = (some (a :: as), left) := by
    unfold many
    rw [repeated, hr]
    dsimp only
    rw [if_pos hless, hlast]
  have hmany' : many r after.rest = (some as, left) := by
    unfold many
    rw [hlast]
  rw [apply_of_run hmany, apply_of_run hmany', move_of_apply htakes h hlength]
  rfl

end Cursor

/-! ## Programs that open blocks one by one -/

variable [Scalar K]

/-- The step reads the same wherever it is, however many blocks are open there. -/
def Step.IgnoresDepth (reading : Step K) : Prop :=
  ∀ levels levels', reading.rule levels = reading.rule levels'

namespace Program

/-- The steps of the program do not depend on the number of open blocks, so that the program opens
blocks one by one, and it moves the cursor back only where something optional fails. -/
def OpensOneByOne {α : Type} : Program K α → Prop
  | done _ => True
  | step reading => reading.IgnoresDepth
  | ask => True
  | moveTo _ => False
  | optional inner => OpensOneByOne inner
  | nested inner => OpensOneByOne inner
  | andThen first next => OpensOneByOne first ∧ ∀ result, OpensOneByOne (next result)

/-- The program does what the rules do with the levels that are left at a cursor, if there are no
more than `n` levels and no more than `limit` tokens. -/
def Performs (program : Program K α) (limit n : ℕ) (r : ℕ → Rule K α) : Prop :=
  ∀ cursor : Cursor K, cursor.depth ≤ maxBlockDepth → maxBlockDepth - cursor.depth ≤ n →
    cursor.rest.length ≤ limit →
      run cursor program = cursor.apply (r (maxBlockDepth - cursor.depth))

/-- The next token, or a failure at the end. -/
def takeNext : Program K (Token K) :=
  andThen (step .next) fun
    | some (.token token) => done (some token)
    | _ => done none

/-- The blanks in front. -/
def takeBlanks : Program K Unit := andThen (step .skipBlanks) fun _ => done (some ())

/-- A token further ahead, if there is one. -/
def lookAhead (index : ℕ) : Program K (Option (Token K)) :=
  andThen (step (.peekAt index)) fun
    | some (.token token) => done (some (some token))
    | _ => done (some none)

/-- One program after the other, which ends where the first one fails. -/
def sequence (first : Program K α) (next : α → Program K β) : Program K β :=
  andThen first fun
    | some a => next a
    | none => done none

/-- A program that fails if it does not move the cursor forward. -/
def progressing (inner : Program K α) : Program K α :=
  sequence ask fun start => sequence inner fun a => sequence ask fun stop =>
    done (if start < stop then some a else none)

/-- A program that is repeated until it fails or does not move the cursor forward, `n` times at
most. -/
def repeatedly (inner : Program K α) : ℕ → Program K (List α)
  | 0 => done (some [])
  | n + 1 => sequence (optional (progressing inner)) fun
    | some a => sequence (repeatedly inner n) fun as => done (some (a :: as))
    | none => done (some [])

namespace OpensOneByOne

/-- Programs that open blocks one by one may be put one after the other. -/
theorem sequence {first : Program K α} {next : α → Program K β} (h : OpensOneByOne first)
    (hnext : ∀ a, OpensOneByOne (next a)) : OpensOneByOne (sequence first next) := by
  refine ⟨h, fun result => ?_⟩
  cases result with
  | none => trivial
  | some a => exact hnext a

/-- A program that opens blocks one by one may be repeated. -/
theorem repeatedly {inner : Program K α} (h : OpensOneByOne inner) (n : ℕ) :
    OpensOneByOne (repeatedly inner n) := by
  induction n with
  | zero => trivial
  | succ n ih =>
    have hask : OpensOneByOne (ask : Program K ℕ) := trivial
    have hprogressing : OpensOneByOne (progressing inner) :=
      hask.sequence fun _ => h.sequence fun _ => hask.sequence fun _ => trivial
    refine OpensOneByOne.sequence hprogressing fun first => ?_
    cases first with
    | none => trivial
    | some a => exact ih.sequence fun _ => trivial

/-- A single token is read at any depth. -/
theorem takeNext : OpensOneByOne (takeNext : Program K (Token K)) := by
  refine ⟨fun _ _ => rfl, fun result => ?_⟩
  dsimp only
  split <;> trivial

/-- Blanks are passed over at any depth. -/
theorem takeBlanks : OpensOneByOne (takeBlanks : Program K Unit) :=
  ⟨fun _ _ => rfl, fun _ => trivial⟩

/-- One may look ahead at any depth. -/
theorem lookAhead (index : ℕ) :
    OpensOneByOne (lookAhead index : Program K (Option (Token K))) := by
  refine ⟨fun _ _ => rfl, fun result => ?_⟩
  dsimp only
  split <;> trivial

/-- No operation of such a program moves the cursor to a position. -/
theorem operation_ne_moveTo {program : Program K α} (h : OpensOneByOne program)
    (cursor : Cursor K) {event : Event K} (hevent : event ∈ events cursor program)
    (position : ℕ) : event.operation ≠ .moveTo position := by
  induction program generalizing cursor with
  | done result => cases hevent
  | step reading =>
    obtain rfl := List.mem_singleton.1 hevent
    exact nofun
  | ask =>
    obtain rfl := List.mem_singleton.1 hevent
    exact nofun
  | moveTo position => exact h.elim
  -- The events of what is tried come first, and the attempt itself is the last one.
  | optional inner ih =>
    rcases List.mem_append.1 hevent with hinner | hlast
    · exact ih h cursor hinner
    · obtain rfl := List.mem_singleton.1 hlast
      exact nofun
  | nested inner ih =>
    rcases List.mem_append.1 hevent with hinner | hlast
    · split at hinner
      · exact ih h _ hinner
      · cases hinner
    · obtain rfl := List.mem_singleton.1 hlast
      exact nofun
  | andThen first next ihfirst ihnext =>
    rcases List.mem_append.1 hevent with hfirst | hnext
    · exact ihfirst h.1 cursor hfirst
    · exact ihnext _ (h.2 _) _ hnext

end OpensOneByOne

omit [Scalar K] in
/-- Operations that do not move to a position move back to known positions only. -/
theorem Event.movesBack_of_forall {operations : List (Event K)} (known : Set ℕ)
    (h : ∀ event ∈ operations, ∀ position, event.operation ≠ .moveTo position) :
    MovesBack known operations := by
  induction operations generalizing known with
  | nil => trivial
  | cons event later ih =>
    refine ⟨fun position hposition => ?_, ih _ fun event' hevent' => ?_⟩
    · exact absurd hposition (h event List.mem_cons_self position)
    · exact h event' (List.mem_cons_of_mem event hevent')

variable {limit n : ℕ} {cursor : Cursor K}

/-- What follows a failure of the first program is not run. -/
theorem run_sequence_of_none {first : Program K α} {next : α → Program K β} {after : Cursor K}
    (h : run cursor first = (none, after)) : run cursor (sequence first next) = (none, after) := by
  dsimp only [sequence, run]
  rw [h]
  rfl

/-- What follows a value of the first program is run at the cursor that is left. -/
theorem run_sequence_of_some {first : Program K α} {next : α → Program K β} {after : Cursor K}
    {a : α} (h : run cursor first = (some a, after)) :
    run cursor (sequence first next) = run after (next a) := by
  dsimp only [sequence, run]
  rw [h]

/-- An optional program that fails gives nothing and is put back. -/
theorem run_optional_of_none {inner : Program K α} {after : Cursor K}
    (h : run cursor inner = (none, after)) :
    run cursor (optional inner) = (some none, cursor) := by
  refine Prod.ext ?_ (run_optional_of_fails (congrArg Prod.fst h))
  dsimp only [run]
  rw [h]

/-- An optional program that gives a value is not put back. -/
theorem run_optional_of_some {inner : Program K α} {after : Cursor K} {a : α}
    (h : run cursor inner = (some a, after)) :
    run cursor (optional inner) = (some (some a), after) := by
  dsimp only [run]
  rw [h]
  rfl

/-- Whether a program has moved the cursor forward is seen from the positions that are asked for
before and after it. -/
theorem run_progressing {inner : Program K α} {value : Option α} {after : Cursor K}
    (h : run cursor inner = (value, after)) : run cursor (progressing inner) =
      (if cursor.position < after.position then value else none, after) := by
  have hask : run cursor ask = (some cursor.position, cursor) := rfl
  have hask' : run after ask = (some after.position, after) := rfl
  unfold progressing
  rw [run_sequence_of_some hask]
  cases value with
  | none => rw [run_sequence_of_none h, ite_self]
  | some a =>
    rw [run_sequence_of_some h, run_sequence_of_some hask']
    rfl

namespace Performs

variable {r : ℕ → Rule K α}

/-- One rule after the other is one program after the other. -/
theorem sequence {first : Program K α} {following : α → Program K β} {next : ℕ → α → Rule K β}
    (htakes : ∀ levels ≤ n, TakesFront (r levels))
    (hnext : ∀ a, ∀ levels ≤ n, TakesFront (next levels a)) (h : Performs first limit n r)
    (hfollowing : ∀ a, Performs (following a) limit n fun levels => next levels a) :
    Performs (sequence first following) limit n fun levels => r levels >>= next levels := by
  intro cursor hdepth hlevels hlength
  have hfirst := h cursor hdepth hlevels hlength
  have hshorter := (Cursor.length_rest_apply_le (htakes _ hlevels)).trans hlength
  -- If the first rule fails, nothing more is done.
  rcases hvalue : cursor.apply (r (maxBlockDepth - cursor.depth)) with ⟨_ | a, after⟩
  · rw [hvalue] at hfirst
    rw [run_sequence_of_none hfirst, Cursor.apply_bind_of_none hvalue]
  · -- Otherwise the second one starts at the same depth, with the levels that it had.
    have hkept : after.depth = cursor.depth := by
      rw [← congrArg (fun outcome => outcome.2.depth) hvalue]
      rfl
    rw [hvalue] at hfirst hshorter
    have hlast := hfollowing a after (by omega) (by omega) hshorter
    rw [hkept] at hlast
    rw [run_sequence_of_some hfirst, hlast,
      Cursor.apply_bind_of_some (htakes _ hlevels) (hnext a _ hlevels) hvalue]

/-- What is optional is put back by the program as by the rule. -/
theorem optional {inner : Program K α} (h : Performs inner limit n r) :
    Performs (optional inner) limit n fun levels => Rule.optional (r levels) := by
  intro cursor hdepth hlevels hlength
  have hinner := h cursor hdepth hlevels hlength
  rcases hvalue : cursor.apply (r (maxBlockDepth - cursor.depth)) with ⟨_ | a, after⟩
  · rw [hvalue] at hinner
    rw [Cursor.apply_optional_of_none hvalue, run_optional_of_none hinner]
  · rw [hvalue] at hinner
    rw [Cursor.apply_optional_of_some hvalue, run_optional_of_some hinner]

/-- What a program does, it also does under a smaller bound on the tokens. -/
theorem mono {program : Program K α} {limit' : ℕ} (h : Performs program limit n r)
    (hlimit : limit' ≤ limit) : Performs program limit' n r :=
  fun cursor hdepth hlevels hlength => h cursor hdepth hlevels (hlength.trans hlimit)

/-- A rule takes a token whenever it is repeated, so as many repetitions as there are tokens are
enough. -/
theorem repeatedly {inner : Program K α} (htakes : ∀ levels ≤ n, TakesFront (r levels))
    (h : Performs inner limit n r) :
    Performs (repeatedly inner limit) limit n fun levels => many (r levels) := by
  induction limit with
  | zero =>
    intro cursor hdepth hlevels hlength
    refine (Cursor.apply_many_of_stuck (htakes _ hlevels) fun a after hvalue => ?_).symm
    by_contra hprogress
    have hless := Cursor.length_rest_lt_of_progress (htakes _ hlevels) hvalue (by omega)
    omega
  | succ limit ih =>
    intro cursor hdepth hlevels hlength
    have hinner := h cursor hdepth hlevels hlength
    rcases hvalue : cursor.apply (r (maxBlockDepth - cursor.depth)) with ⟨value, after⟩
    rw [hvalue] at hinner
    have hattempt := run_progressing hinner
    have hkept : after.depth = cursor.depth := by
      have hdepth' := (run_keeps cursor inner).2
      rwa [hinner] at hdepth'
    by_cases hfirst : cursor.position < after.position ∧ ∃ a, value = some a
    · -- The rule has taken something, and is repeated on less.
      obtain ⟨hprogress, a, rfl⟩ := hfirst
      rw [if_pos hprogress] at hattempt
      have hless := Cursor.length_rest_lt_of_progress (htakes _ hlevels) hvalue hprogress
      have hrest := ih (h.mono limit.le_succ) after (by omega) (by omega) (by omega)
      rw [Program.repeatedly, run_sequence_of_some (run_optional_of_some hattempt),
        Cursor.apply_many_of_progress (htakes _ hlevels) hvalue hprogress, ← hkept, ← hrest]
      rcases hlast : run after (Program.repeatedly inner limit) with ⟨_ | as, last⟩
      · exact run_sequence_of_none hlast
      · exact run_sequence_of_some hlast
    · -- It fails, or it is stuck and counts as if it had failed.
      have hnone : (if cursor.position < after.position then value else none) = none := by
        split
        · next hprogress =>
          refine Option.eq_none_iff_forall_ne_some.2 fun a ha => ?_
          exact hfirst ⟨hprogress, a, ha⟩
        · rfl
      rw [hnone] at hattempt
      have hstuck := Cursor.apply_many_of_stuck (htakes _ hlevels) fun a after' hvalue' => by
        rw [hvalue] at hvalue'
        cases hvalue'
        by_contra hprogress
        exact hfirst ⟨by omega, a, rfl⟩
      rw [Program.repeatedly, run_sequence_of_some (run_optional_of_none hattempt), hstuck]
      rfl

/-- A block uses up one of the levels of the rule, and is one more open block for the program. With
no levels left, both fail. -/
theorem nested {inner : Program K α} (h : 0 < n → Performs inner limit (n - 1) r) :
    Performs (nested inner) limit n fun levels => Rule.nested levels r := by
  intro cursor hdepth hlevels hlength
  rcases hroom : maxBlockDepth - cursor.depth with _ | levels
  · rw [run, if_neg (by omega)]
    exact (Cursor.apply_of_run_rest rfl).symm
  · have hinner := h (by omega) { cursor with depth := cursor.depth + 1 } (by dsimp only; omega)
      (by dsimp only; omega) hlength
    have hlevel : maxBlockDepth - (cursor.depth + 1) = levels := by omega
    rw [run, if_pos (by omega), hinner]
    dsimp only
    rw [hlevel]
    rfl

/-- A value that is given without reading anything. -/
theorem pure (a : α) : Performs (done (some a)) limit n fun _ => (Pure.pure a : Rule K α) :=
  fun _ _ _ _ => (Cursor.apply_of_run_rest rfl).symm

/-- A failure that takes nothing. -/
theorem fail : Performs (done none) limit n fun _ => (Rule.fail : Rule K α) :=
  fun _ _ _ _ => (Cursor.apply_of_run_rest rfl).symm

/-- The step for the next token gives it, or nothing at the end. -/
theorem takeNext : Performs (takeNext : Program K (Token K)) limit n fun _ => Rule.next := by
  intro cursor _ _ _
  obtain ⟨levels, hlevels⟩ : ∃ levels, maxBlockDepth - cursor.depth = levels := ⟨_, rfl⟩
  -- At the end of the tokens the step replies that there is none, and the program fails.
  rcases hrest : cursor.rest with _ | ⟨token, rest⟩
  · have hstep : cursor.apply (Step.next.rule levels) = (some .nothing, cursor) :=
      Cursor.apply_of_run_rest (by rw [hrest]; rfl)
    have hnext : cursor.apply (Rule.next : Rule K (Token K)) = (none, cursor) :=
      Cursor.apply_of_run_rest (by rw [hrest]; rfl)
    rw [hnext]
    dsimp only [Program.takeNext, run, Command.run]
    rw [hlevels, hstep]
    rfl
  · have hstep : Step.next.rule levels cursor.rest = (some (.token token), rest) := by
      rw [hrest]
      rfl
    have hnext : (Rule.next : Rule K (Token K)) cursor.rest = (some token, rest) := by
      rw [hrest]
      rfl
    rw [Cursor.apply_of_run hnext]
    dsimp only [Program.takeNext, run, Command.run]
    rw [hlevels, Cursor.apply_of_run hstep]
    rfl

/-- The step for blanks gives no value. -/
theorem takeBlanks : Performs (takeBlanks : Program K Unit) limit n fun _ => Rule.skipBlanks :=
  fun _ _ _ _ => rfl

/-- The step for a token further ahead gives it, or nothing if there are too few of them. -/
theorem lookAhead (index : ℕ) :
    Performs (lookAhead index : Program K _) limit n fun _ => Rule.peekAt index := by
  intro cursor _ _ _
  obtain ⟨levels, hlevels⟩ : ∃ levels, maxBlockDepth - cursor.depth = levels := ⟨_, rfl⟩
  obtain ⟨token, htoken⟩ : ∃ token : Option (Token K),
      (cursor.rest.filter fun token => !token.isWhitespace)[index]? = token := ⟨_, rfl⟩
  -- Looking ahead leaves the cursor where it is, so only the reply has to be compared.
  have hpeek : (Rule.peekAt index : Rule K _) cursor.rest = (some token, cursor.rest) := by
    rw [← htoken]
    rfl
  have hstep : cursor.apply ((Step.peekAt index).rule levels) =
      (some (.ofToken? token), cursor) :=
    Cursor.apply_of_run_rest (bind_of_some hpeek)
  rw [Cursor.apply_of_run_rest hpeek]
  dsimp only [Program.lookAhead, run, Command.run]
  rw [hlevels, hstep]
  cases token <;> rfl

end Performs

end Program

/-! ## Rules -/

/-- The rules leave an end of the list, and there is a program that opens blocks one by one and does
what they do, for up to `n` levels and for any number of tokens. -/
structure Rule.IsStepwise (n : ℕ) (r : ℕ → Rule K α) : Prop where
  takesFront : ∀ levels ≤ n, TakesFront (r levels)
  exists_program : ∀ limit, ∃ program : Program K α,
    program.OpensOneByOne ∧ program.Performs limit n r

open Program in
/-- There is a program for each rule that the formers make. -/
theorem Rule.keptByFormers_isStepwise :
    KeptByFormers fun n r => IsStepwise n (r : ℕ → Rule K _) where
  pure a := ⟨keptByFormers_takesFront.pure a, fun _ => ⟨done (some a), trivial, .pure a⟩⟩
  fail := ⟨keptByFormers_takesFront.fail, fun _ => ⟨done none, trivial, .fail⟩⟩
  -- A rule after another one is a program after another one, chosen by the value in between.
  bind {_ α β r next} h hnext := by
    have htakes := fun a => (hnext a).takesFront
    refine ⟨keptByFormers_takesFront.bind h.takesFront htakes, fun limit => ?_⟩
    obtain ⟨first, hfirst, hperforms⟩ := h.exists_program limit
    choose following hfollowing hperforms' using fun a => (hnext a).exists_program limit
    exact ⟨sequence first following, hfirst.sequence hfollowing,
      hperforms.sequence h.takesFront htakes hperforms'⟩
  optional h := by
    refine ⟨keptByFormers_takesFront.optional h.takesFront, fun limit => ?_⟩
    obtain ⟨inner, hinner, hperforms⟩ := h.exists_program limit
    exact ⟨.optional inner, hinner, hperforms.optional⟩
  -- A repetition takes at most as many runs as there are tokens.
  many h := by
    refine ⟨keptByFormers_takesFront.many h.takesFront, fun limit => ?_⟩
    obtain ⟨inner, hinner, hperforms⟩ := h.exists_program limit
    exact ⟨repeatedly inner limit, hinner.repeatedly limit, hperforms.repeatedly h.takesFront⟩
  next := ⟨keptByFormers_takesFront.next, fun _ => ⟨takeNext, .takeNext, .takeNext⟩⟩
  skipBlanks :=
    ⟨keptByFormers_takesFront.skipBlanks, fun _ => ⟨takeBlanks, .takeBlanks, .takeBlanks⟩⟩
  peekAt index := ⟨keptByFormers_takesFront.peekAt index,
    fun _ => ⟨lookAhead index, .lookAhead index, .lookAhead index⟩⟩
  -- A block is opened by the program itself; at the last level there is none to open.
  nested {n _ r} h := by
    refine ⟨keptByFormers_takesFront.nested fun m hm => (h m hm).takesFront, fun limit => ?_⟩
    cases n with
    | zero => exact ⟨.nested (done none), trivial, Performs.nested nofun⟩
    | succ n =>
      obtain ⟨inner, hinner, hperforms⟩ := (h n n.lt_succ_self).exists_program limit
      exact ⟨.nested inner, hinner, Performs.nested fun _ => hperforms⟩

/-- Whatever a step reads, a program that opens blocks one by one does the same, at every depth and
for up to `limit` tokens. It is the same program at every depth: that a block may not be opened it
finds out where it opens it. All operations that make up the step are orderly, so in particular each
of them leaves as many blocks open as before, also where it fails. -/
theorem Step.exists_program (reading : Step K) (limit : ℕ) :
    ∃ program : Program K (Reply K), program.OpensOneByOne ∧
      ∀ cursor : Cursor K, cursor.depth ≤ maxBlockDepth → cursor.rest.length ≤ limit →
        Program.run cursor program = Command.run cursor (.step reading) ∧
          (cursor.position ≤ cursor.tokens.length →
            ∀ event ∈ Program.events cursor program, event.IsOrderly cursor.tokens) := by
  have hP : KeptByFormers fun n r => IsStepwise n (r : ℕ → Rule K _) := keptByFormers_isStepwise
  -- A rule whose value is a part of the reply.
  have hmap {α : Type} {r : ℕ → Rule K α} (h : IsStepwise maxBlockDepth r) (f : α → Reply K) :
      ∃ program : Program K (Reply K), program.OpensOneByOne ∧
        program.Performs limit maxBlockDepth fun levels => r levels >>= fun a => Pure.pure (f a) :=
    (hP.bind h fun a => hP.pure (f a)).exists_program limit
  have hstep (hsame : reading.IgnoresDepth) :
      ∃ program : Program K (Reply K), program.OpensOneByOne ∧
        program.Performs limit maxBlockDepth fun levels => reading.rule levels :=
    ⟨.step reading, hsame, fun _ _ _ _ => rfl⟩
  obtain ⟨program, hprogram, hperforms⟩ : ∃ program : Program K (Reply K),
      program.OpensOneByOne ∧
        program.Performs limit maxBlockDepth fun levels => reading.rule levels := by
    cases reading with
    | expression => exact hmap (hP.expression maxBlockDepth) _
    | color => exact hmap (hP.color maxBlockDepth) _
    | _ => exact hstep fun _ _ => rfl
  refine ⟨program, hprogram, fun cursor hdepth hlength =>
    ⟨hperforms cursor hdepth (Nat.sub_le _ _) hlength, fun hposition => ?_⟩⟩
  -- The program asks for no position to which it would move the cursor back.
  have hmoves : Program.Event.MovesBack ∅ (Program.events cursor program) :=
    Program.Event.movesBack_of_forall ∅ fun _ => hprogram.operation_ne_moveTo cursor
  exact (Program.run_orderly program cursor rfl hposition (by simp) hmoves).2

end CssColor
