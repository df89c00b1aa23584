import CssColor.Proofs.Token.Reading

/-!
# Rules that recognise tokens

A rule recognises tokens (`Rule.Reads`) if it takes exactly them off any list that they are in front
of. Most rules drop blanks in front of what they recognise (`Rule.SkipsBlank`). For each way to make
a rule out of others there is a lemma that puts together what it recognises.

A rule that repeats another one goes on as far as it can. What it recognises depends on what follows
(`Rule.ReadsBefore`), and its repetitions are put together with `Rule.Repeats`.
-/

namespace CssColor.Rule

open Token

variable {K α β : Type}

/-- The rule takes exactly the given tokens, whatever follows them. -/
def Reads (r : Rule K α) (tokens : List (Token K)) (a : α) : Prop :=
  ∀ rest, r (tokens ++ rest) = (some a, rest)

/-- A blank in front makes no difference to the rule. -/
def SkipsBlank (r : Rule K α) : Prop := ∀ tokens, r (whitespace :: tokens) = r tokens

section Reads

variable {r : Rule K α} {next : α → Rule K β} {tokens tokens' : List (Token K)} {a : α} {b : β}

/-- A blank may stand in front of what a rule reads, if the rule skips it. -/
theorem Reads.blank (h : Reads r tokens a) (hskip : SkipsBlank r) :
    Reads r (whitespace :: tokens) a := fun rest => (hskip _).trans (h rest)

/-- Rules one after the other read tokens one after the other. -/
theorem Reads.bind (h : Reads r tokens a) (hnext : Reads (next a) tokens' b) :
    Reads (r >>= next) (tokens ++ tokens') b := by
  intro rest
  rw [List.append_assoc, bind_of_some (h _)]
  exact hnext rest

/-- A rule that takes its tokens in front of the token that comes next. -/
theorem Reads.bind_before {token : Token K}
    (h : ∀ rest, r (tokens ++ token :: rest) = (some a, token :: rest))
    (hnext : Reads (next a) (token :: tokens') b) :
    Reads (r >>= next) (tokens ++ token :: tokens') b := by
  intro rest
  rw [List.append_assoc, List.cons_append, bind_of_some (h _)]
  exact hnext rest

/-- A rule that looks at the tokens and leaves them in place. -/
theorem Reads.after_look (h : ∀ rest, r (tokens ++ rest) = (some a, tokens ++ rest))
    (hnext : Reads (next a) tokens b) : Reads (r >>= next) tokens b := by
  intro rest
  rw [bind_of_some (h rest)]
  exact hnext rest

/-- A value that is given without reading anything. -/
theorem Reads.pure (a : α) : Reads (pure a : Rule K α) [] a := fun _ => rfl

/-- The value of a rule may be changed. -/
theorem Reads.map (h : Reads r tokens a) (f : α → β) :
    Reads (r >>= fun a => Pure.pure (f a)) tokens (f a) := by
  intro rest
  rw [bind_of_some (h rest)]
  rfl

/-- What a rule reads is read where it is optional. -/
theorem Reads.optional (h : Reads r tokens a) : Reads (optional r) tokens (some a) := by
  intro rest
  unfold Rule.optional
  rw [h rest]

/-- An optional rule that fails gives nothing and is put back. -/
theorem optional_of_fails (h : (r tokens).1 = none) :
    optional r tokens = (some none, tokens) := by
  unfold Rule.optional
  rcases hr : r tokens with ⟨_ | a, rest⟩
  · rfl
  · rw [hr] at h
    cases h

/-- A rule that fails is not repeated. -/
theorem repeated_of_fails (h : (r tokens).1 = none) : repeated r tokens = ([], tokens) := by
  rw [repeated]
  rcases hr : r tokens with ⟨_ | a, rest⟩
  · rfl
  · rw [hr] at h
    cases h

/-- A rule fails if its first part does. -/
theorem bind_fst_eq_none (h : (r tokens).1 = none) : ((r >>= next) tokens).1 = none := by
  rcases hr : r tokens with ⟨_ | a, rest⟩
  · rw [bind_of_none hr]
  · rw [hr] at h
    cases h

end Reads

/-! ## Blanks -/

section Blanks

variable {r : Rule K α} {next : α → Rule K β}

/-- No number of blanks in front makes a difference. -/
theorem SkipsBlank.append (h : SkipsBlank r) {before : List (Token K)} (hbefore : AreBlank before)
    (tokens : List (Token K)) : r (before ++ tokens) = r tokens := by
  induction before with
  | nil => rfl
  | cons token before ih =>
    rw [eq_whitespace (hbefore token List.mem_cons_self), List.cons_append, h]
    exact ih fun other hother => hbefore other (List.mem_cons_of_mem _ hother)

/-- A rule skips a blank if its first part does. -/
theorem SkipsBlank.bind (h : SkipsBlank r) : SkipsBlank (r >>= next) := by
  intro tokens
  show Rule.bind r next _ = Rule.bind r next _
  unfold Rule.bind
  rw [h tokens]

/-- The next token that is not blank is looked for behind blanks. -/
theorem skipsBlank_nextSolid : SkipsBlank (nextSolid : Rule K (Token K)) := fun _ => rfl

/-- A token of some kind is looked for behind blanks. -/
theorem skipsBlank_nextWith (accepts : Token K → Bool) : SkipsBlank (nextWith accepts) :=
  skipsBlank_nextSolid.bind

/-- An identifier is looked for behind blanks. -/
theorem skipsBlank_identifier : SkipsBlank (identifier : Rule K String) :=
  skipsBlank_nextSolid.bind

/-- A rule that chooses by what comes next skips a blank if its choices do. -/
theorem SkipsBlank.isCalling_bind {name : String} {next : Bool → Rule K β}
    (h : ∀ isCalling, SkipsBlank (next isCalling)) :
    SkipsBlank (isCalling name >>= next) := fun tokens => h _ tokens

/-- An optional rule that skips a blank, in front of rules that skip one too. -/
theorem SkipsBlank.optional_bind {next : Option α → Rule K β} (h : SkipsBlank r)
    (hnext : ∀ value, SkipsBlank (next value)) : SkipsBlank (optional r >>= next) := by
  intro tokens
  show Rule.bind (optional r) next _ = Rule.bind (optional r) next _
  unfold Rule.bind Rule.optional
  rw [h tokens]
  rcases r tokens with ⟨_ | a, rest⟩
  · exact hnext _ tokens
  · rfl

end Blanks

/-! ## Repetitions -/

/-- The rule takes exactly the given tokens in front of lists with the property `Follows`. -/
def ReadsBefore (Follows : List (Token K) → Prop) (r : Rule K α) (tokens : List (Token K))
    (a : α) : Prop := ∀ rest, Follows rest → r (tokens ++ rest) = (some a, rest)

/-- The repeated rule takes the given tokens and goes on with what follows. The property `Follows`
holds in front of the tokens, too, so that repetitions can stand in a row. -/
def Repeats (Follows : List (Token K) → Prop) (r : Rule K α) (tokens : List (Token K))
    (as : List α) : Prop := ∀ rest, Follows rest → Follows (tokens ++ rest) ∧
  r.repeated (tokens ++ rest) = (as ++ (r.repeated rest).1, (r.repeated rest).2)

section Repetitions

variable {Follows : List (Token K) → Prop} {r : Rule K α} {tokens tokens' : List (Token K)} {a : α}
  {as as' : List α}

/-- What is read in front of anything is read in front of some texts. -/
theorem Reads.before (h : Reads r tokens a) : ReadsBefore Follows r tokens a := fun rest _ => h rest

/-- A rule that is not repeated reads nothing. -/
theorem Repeats.nil : Repeats Follows r [] [] := fun _ h => ⟨h, rfl⟩

/-- Repetitions one after the other. -/
theorem Repeats.append (h : Repeats Follows r tokens as) (h' : Repeats Follows r tokens' as') :
    Repeats Follows r (tokens ++ tokens') (as ++ as') := by
  intro rest hrest
  obtain ⟨hfollows', heq'⟩ := h' rest hrest
  obtain ⟨hfollows, heq⟩ := h _ hfollows'
  rw [List.append_assoc]
  refine ⟨hfollows, ?_⟩
  rw [heq, heq', List.append_assoc]

/-- A rule that reads something once is repeated once. -/
theorem ReadsBefore.repeats (h : ReadsBefore Follows r tokens a) (htokens : tokens ≠ [])
    (hfollows : ∀ rest, Follows (tokens ++ rest)) : Repeats Follows r tokens [a] := by
  intro rest hrest
  refine ⟨hfollows rest, ?_⟩
  have hlength : rest.length < (tokens ++ rest).length := by
    rw [List.length_append]
    exact Nat.lt_add_of_pos_left (List.length_pos_iff.2 htokens)
  rw [Rule.repeated, h rest hrest]
  dsimp only
  rw [if_pos hlength]
  rfl

/-- Repetitions end where the rule fails. -/
theorem Repeats.many (h : Repeats Follows r tokens as) {rest : List (Token K)}
    (hrest : Follows rest) (hends : (r rest).1 = none) :
    many r (tokens ++ rest) = (some as, rest) := by
  obtain ⟨-, heq⟩ := h rest hrest
  unfold Rule.many
  rw [heq, repeated_of_fails hends, List.append_nil]

end Repetitions

/-! ## Tokens -/

section Tokens

variable {token : Token K}

/-- A token that is not blank is read as the next one. -/
theorem reads_nextSolid (h : token.isWhitespace = false) : Reads nextSolid [token] token := by
  intro rest
  show Rule.next ((token :: rest).dropWhile isWhitespace) = _
  rw [List.dropWhile_cons_of_neg (by simp [h])]
  rfl

/-- A token of the right kind is read. -/
theorem reads_nextWith {accepts : Token K → Bool} (h : token.isWhitespace = false)
    (haccepts : accepts token = true) : Reads (nextWith accepts) [token] () := by
  intro rest
  unfold nextWith
  rw [bind_of_some (reads_nextSolid h rest), haccepts]
  rfl

/-- A closing parenthesis is read. -/
theorem reads_closeParen : Reads (closeParen : Rule K Unit) [Token.closeParen] () :=
  reads_nextWith rfl rfl

/-- A comma is read. -/
theorem reads_comma : Reads (comma : Rule K Unit) [Token.comma] () := reads_nextWith rfl rfl

/-- A keyword is read. -/
theorem reads_keyword (name : String) : Reads (keyword name : Rule K Unit) [ident name] () :=
  reads_nextWith rfl (beq_self_eq_true _)

/-- An identifier is read. -/
theorem reads_identifier (name : String) : Reads (identifier : Rule K String) [ident name] name :=
  fun _ => rfl

/-- The first token that is not blank is found behind blanks. -/
theorem peekAt_zero_append {before : List (Token K)} (hbefore : AreBlank before)
    (h : token.isWhitespace = false) (rest : List (Token K)) :
    peekAt 0 (before ++ token :: rest) = (some (some token), before ++ token :: rest) := by
  have hnone : before.filter (fun token => !token.isWhitespace) = [] :=
    List.filter_eq_nil_iff.2 fun token htoken => by simp [hbefore token htoken]
  have hfirst : ((before ++ token :: rest).filter fun token => !token.isWhitespace)[0]? =
      some token := by
    rw [List.filter_append, hnone, List.filter_cons_of_pos (by simp [h])]
    rfl
  rw [peekAt, hfirst]

/-- Whether a function is called is seen from the first token that is not blank. -/
theorem isCalling_append {before : List (Token K)} (hbefore : AreBlank before)
    (h : token.isWhitespace = false) (name : String) (rest : List (Token K)) :
    isCalling name (before ++ token :: rest) =
      (some (token.isFunction name), before ++ token :: rest) :=
  bind_of_some (peekAt_zero_append hbefore h rest)

/-- Blanks in front are looked past for a name. -/
theorem isNaming_append {before : List (Token K)} (hbefore : AreBlank before)
    (h : token.isWhitespace = false) (name : String) (rest : List (Token K)) :
    isNaming name (before ++ token :: rest) =
      (some (token.isIdent name), before ++ token :: rest) :=
  bind_of_some (peekAt_zero_append hbefore h rest)

/-- Without blanks in front, the first token tells which function is called. -/
theorem isCalling_cons (h : token.isWhitespace = false) (name : String) (rest : List (Token K)) :
    isCalling name (token :: rest) = (some (token.isFunction name), token :: rest) :=
  isCalling_append areBlank_nil h name rest

/-- Without blanks in front, the first token tells which name comes next. -/
theorem isNaming_cons (h : token.isWhitespace = false) (name : String) (rest : List (Token K)) :
    isNaming name (token :: rest) = (some (token.isIdent name), token :: rest) :=
  isNaming_append areBlank_nil h name rest

end Tokens

end CssColor.Rule
