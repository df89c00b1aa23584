import CssColor.Token.Lexer
import Mathlib.Data.List.Infix

/-!
# Comments

What `Token.skipComments` drops are closed comments one after the other
(`Token.exists_skipComments`), and a last one that may be left open. So a text has no token exactly
where it is made of comments (`Token.next?_eq_none_iff`).
-/

namespace CssColor.Token

/-- A text that a comment can hold: it does not hold the comment's end. -/
def IsCommentBody (body : List Char) : Prop := ¬ ['*', '/'] <:+: body

/-- The closed comment with the given body. -/
def comment (body : List Char) : List Char := '/' :: '*' :: (body ++ ['*', '/'])

/-- Closed comments one after the other. -/
inductive AreComments : List Char → Prop where
  | nil : AreComments []
  | cons {body rest : List Char} (hbody : IsCommentBody body) (hrest : AreComments rest) :
      AreComments (comment body ++ rest)

/-- Nothing but comments, the last of which may be left open. -/
inductive IsCommentary : List Char → Prop where
  | nil : IsCommentary []
  | closed {body rest : List Char} (hbody : IsCommentBody body) (hrest : IsCommentary rest) :
      IsCommentary (comment body ++ rest)
  | unclosed {body : List Char} (hbody : IsCommentBody body) : IsCommentary ('/' :: '*' :: body)

variable {c : Char} {text body rest : List Char}

/-! ## The body of a comment -/

/-- A comment may be empty. -/
theorem isCommentBody_nil : IsCommentBody [] := by
  rintro ⟨before, after, h⟩
  simp at h

/-- A comment does not end where it starts, nor further on. -/
theorem isCommentBody_cons_iff : IsCommentBody (c :: body) ↔
    ¬ (c = '*' ∧ body.head? = some '/') ∧ IsCommentBody body := by
  have hprefix : ['*', '/'] <+: c :: body ↔ c = '*' ∧ body.head? = some '/' := by
    rw [List.cons_prefix_cons, eq_comm]
    refine and_congr_right fun _ => ?_
    cases body with
    | nil => simp
    | cons c' body => simp [List.cons_prefix_cons, eq_comm]
  rw [IsCommentBody, List.infix_cons_iff, hprefix, not_or]
  exact Iff.rfl

/-- A comment is dropped with its body up to the first end. -/
theorem skipComment_append (h : IsCommentBody body) (rest : List Char) :
    skipComment (body ++ '*' :: '/' :: rest) = skipComments rest := by
  induction body with
  | nil => rfl
  | cons c body ih =>
    obtain ⟨hfirst, hbody⟩ := isCommentBody_cons_iff.1 h
    rw [List.cons_append, skipComment, ih hbody]
    rintro rest' rfl heq
    refine hfirst ⟨rfl, ?_⟩
    cases body with
    | nil => cases (List.cons.inj heq).1
    | cons c' body => exact congrArg some (List.cons.inj heq).1

/-- A comment that is not closed takes the rest of the text. -/
theorem skipComment_of_isCommentBody (h : IsCommentBody text) : skipComment text = [] := by
  induction text with
  | nil => rfl
  | cons c text ih =>
    obtain ⟨hfirst, hbody⟩ := isCommentBody_cons_iff.1 h
    rw [skipComment, ih hbody]
    rintro rest rfl rfl
    exact hfirst ⟨rfl, rfl⟩

/-- An open comment is closed by the first end in the text, or it is not closed at all. -/
theorem isCommentBody_or (text : List Char) : IsCommentBody text ∨
    ∃ body rest, IsCommentBody body ∧ text = body ++ '*' :: '/' :: rest := by
  induction text with
  | nil => exact .inl isCommentBody_nil
  | cons c text ih =>
    by_cases hfirst : c = '*' ∧ text.head? = some '/'
    · -- Here the comment is closed by the first two characters.
      obtain ⟨rfl, hhead⟩ := hfirst
      obtain ⟨rest, rfl⟩ := List.head?_eq_some_iff.1 hhead
      exact .inr ⟨[], rest, isCommentBody_nil, rfl⟩
    rcases ih with htext | ⟨body, rest, hbody, rfl⟩
    · exact .inl (isCommentBody_cons_iff.2 ⟨hfirst, htext⟩)
    · refine .inr ⟨c :: body, rest, isCommentBody_cons_iff.2 ⟨?_, hbody⟩, rfl⟩
      rintro ⟨rfl, hhead⟩
      refine hfirst ⟨rfl, ?_⟩
      rw [List.head?_append, hhead]
      rfl

/-! ## Comments in front of a text -/

/-- An open comment does not stay. -/
theorem skipComments_ne (text : List Char) :
    skipComments ('/' :: '*' :: text) ≠ '/' :: '*' :: text := by
  rw [skipComments]
  rcases isCommentBody_or text with hbody | ⟨body, rest, hbody, rfl⟩
  · rw [skipComment_of_isCommentBody hbody]
    exact (List.cons_ne_nil _ _).symm
  · rw [skipComment_append hbody]
    intro heq
    have hlength := skipComments_length_le rest
    rw [heq] at hlength
    simp only [List.length_cons, List.length_append] at hlength
    omega

/-- A closed comment in front of a text is skipped. -/
theorem skipComments_comment_append (h : IsCommentBody body) (rest : List Char) :
    skipComments (comment body ++ rest) = skipComments rest := by
  rw [comment, List.cons_append, List.cons_append, List.append_assoc, skipComments]
  exact skipComment_append h rest

/-- Any number of closed comments in front of a text are skipped. -/
theorem skipComments_append {comments : List Char} (h : AreComments comments) (rest : List Char) :
    skipComments (comments ++ rest) = skipComments rest := by
  induction h with
  | nil => rfl
  | cons hbody _ ih => rw [List.append_assoc, skipComments_comment_append hbody, ih]

/-- Closed comments in front of commentary are commentary. -/
theorem AreComments.isCommentary_append {comments : List Char} (h : AreComments comments)
    (hrest : IsCommentary rest) : IsCommentary (comments ++ rest) := by
  induction h with
  | nil => exact hrest
  | cons hbody _ ih =>
    rw [List.append_assoc]
    exact .closed hbody ih

/-- What is dropped in front of a text are closed comments, unless one of them is left open. -/
theorem exists_skipComments (text : List Char) :
    (∃ comments, AreComments comments ∧ text = comments ++ skipComments text) ∨
      skipComments text = [] ∧ IsCommentary text := by
  obtain ⟨n, hn⟩ : ∃ n, text.length = n := ⟨_, rfl⟩
  induction n using Nat.strong_induction_on generalizing text with
  | h n ih =>
    by_cases hcomment : ∃ rest, text = '/' :: '*' :: rest
    · obtain ⟨rest, rfl⟩ := hcomment
      have hskip : skipComments ('/' :: '*' :: rest) = skipComment rest := by rw [skipComments]
      rw [hskip]
      -- The comment goes on to the end of the text, or another part follows that is shorter.
      rcases isCommentBody_or rest with hbody | ⟨body, rest, hbody, rfl⟩
      · exact .inr ⟨skipComment_of_isCommentBody hbody, .unclosed hbody⟩
      have htext : '/' :: '*' :: (body ++ '*' :: '/' :: rest) = comment body ++ rest := by
        rw [comment]
        simp only [List.cons_append, List.append_assoc, List.nil_append]
      have hlength := congrArg List.length htext
      rw [List.length_append, comment] at hlength
      simp only [List.length_cons] at hn hlength
      rw [skipComment_append hbody, htext]
      rcases ih rest.length (by omega) rest rfl with ⟨comments, hcomments, heq⟩ | ⟨hnil, hrest⟩
      · refine .inl ⟨comment body ++ comments, .cons hbody hcomments, ?_⟩
        rw [List.append_assoc, ← heq]
      · exact .inr ⟨hnil, .closed hbody hrest⟩
    · have hskip : skipComments text = text := by
        rw [skipComments]
        rintro rest rfl
        exact hcomment ⟨rest, rfl⟩
      rw [hskip]
      exact .inl ⟨[], .nil, rfl⟩

/-- Nothing is left of a text exactly if it is commentary. -/
theorem skipComments_eq_nil_iff : skipComments text = [] ↔ IsCommentary text := by
  constructor
  · intro h
    rcases exists_skipComments text with ⟨comments, hcomments, heq⟩ | ⟨-, hcommentary⟩
    · rw [heq, h]
      exact hcomments.isCommentary_append .nil
    · exact hcommentary
  · intro h
    induction h with
    | nil => rfl
    | closed hbody _ ih => rw [skipComments_comment_append hbody, ih]
    | unclosed hbody =>
      rw [skipComments]
      exact skipComment_of_isCommentBody hbody

/-- A text has no token exactly where nothing but comments is left. -/
theorem next?_eq_none_iff {K : Type} [Number K] :
    next? text = (none : Option (Token K × List Char)) ↔ IsCommentary text := by
  rw [← skipComments_eq_nil_iff, next?]
  split
  · next heq => exact iff_of_true rfl heq
  · next heq =>
    refine iff_of_false (Option.some_ne_none _) ?_
    rw [heq]
    exact List.cons_ne_nil _ _

end CssColor.Token
