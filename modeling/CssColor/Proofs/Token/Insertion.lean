import CssColor.Proofs.Token.Blanks
import CssColor.Proofs.Token.Comments
import CssColor.Proofs.Token.Interruption

/-!
# Comments that are put into a text

The tokens of a text stand in it one after the other, with comments between them (`Token.spans`). A
closed comment may be put in where one of them starts or ends, or among blanks: the tokens stay the
same, blanks collapsed, unless a token that ends only because of what comes behind it ends there
(`Token.collapse_scan_insert_comment`).
-/

namespace CssColor.Token

/-! ## Where tokens stand -/

/-- A token with its place in a text: the characters that it is read from, and how many stand in
front of them. -/
structure Span (K : Type) where
  token : Token K
  start : ℕ
  source : List Char

namespace Span

variable {K : Type}

/-- The place behind the token. -/
def stop (span : Span K) : ℕ := span.start + span.source.length

/-- Whether a place is the start or the end of the token, or lies in a run of blanks. -/
def Meets (span : Span K) (n : ℕ) : Prop :=
  n = span.start ∨ n = span.stop ∨ span.token = whitespace ∧ span.start ≤ n ∧ n ≤ span.stop

/-- A place that meets a token lies between its two ends. -/
theorem Meets.bounds {span : Span K} {n : ℕ} (h : span.Meets n) :
    span.start ≤ n ∧ n ≤ span.stop := by
  rcases h with rfl | rfl | ⟨-, hbounds⟩
  · exact ⟨le_rfl, Nat.le_add_right _ _⟩
  · exact ⟨Nat.le_add_right _ _, le_rfl⟩
  · exact hbounds

end Span

section Spans

variable {K : Type} [Number K] {c : Char} {text gap part rest : List Char} {token : Token K}
  {span : Span K} {offset : ℕ}

/-- The tokens of a text that starts at the given place, each with its own. -/
def spansFrom (offset : ℕ) (text : List Char) : List (Span K) :=
  match _h : next? text with
  | none => []
  | some (token, rest) =>
    let solid := skipComments text
    ⟨token, offset + (text.length - solid.length), solid.take (solid.length - rest.length)⟩ ::
      spansFrom (offset + (text.length - rest.length)) rest
termination_by text.length
decreasing_by exact next?_length_lt (by assumption)

/-- The tokens of a text, each with its place. -/
def spans (text : List Char) : List (Span K) := spansFrom 0 text

/-- The start and the end of the tokens of a text, and the places in its runs of blanks. -/
def IsSeam (K : Type) [Number K] (text : List Char) (n : ℕ) : Prop :=
  ∃ span ∈ (spans text : List (Span K)), span.Meets n

/-- A token in front of `rest`, read from the character `c` and those of `part`, with nothing but
closed comments before it. -/
structure IsFirst (token : Token K) (gap : List Char) (c : Char) (part rest : List Char) :
    Prop where
  gap : AreComments gap
  solid : skipComments (c :: part ++ rest) = c :: part ++ rest
  take : takeAfter c (part ++ rest) = (token, rest)

/-- The first token of a text stands behind comments, and has at least one character. -/
theorem exists_isFirst (h : next? text = some (token, rest)) : ∃ gap c part,
    text = gap ++ (c :: part ++ rest) ∧ IsFirst token gap c part rest := by
  unfold next? at h
  split at h
  · cases h
  next c tail hskip =>
  have hsuffix := takeAfter_suffix (K := K) c tail
  rw [Option.some.inj h] at hsuffix
  obtain ⟨part, rfl⟩ := hsuffix
  -- A token follows, so the text is not all commentary.
  rcases exists_skipComments text with ⟨gap, hgap, htext⟩ | ⟨hnil, -⟩
  · rw [hskip] at htext
    refine ⟨gap, c, part, htext, hgap, ?_, Option.some.inj h⟩
    rw [htext, skipComments_append hgap] at hskip
    exact hskip
  · cases hskip.symm.trans hnil

namespace IsFirst

/-- What is left when the comments in front are skipped starts with the token. -/
theorem skipComments_eq (h : IsFirst token gap c part rest) :
    skipComments (gap ++ (c :: part ++ rest)) = c :: part ++ rest :=
  (skipComments_append h.gap _).trans h.solid

/-- The first token is the next one. -/
theorem next?_eq (h : IsFirst token gap c part rest) :
    next? (gap ++ (c :: part ++ rest)) = some (token, rest) := by
  unfold next?
  rw [h.skipComments_eq]
  exact congrArg some h.take

/-- The tokens of the text are the first token and those of the rest. -/
theorem scan_eq (h : IsFirst token gap c part rest) :
    scan (gap ++ (c :: part ++ rest)) = token :: scan rest :=
  scan_of_next?_some h.next?_eq

/-- The places of the tokens are that of the first token and those in the rest. -/
theorem spansFrom_eq (h : IsFirst token gap c part rest) (offset : ℕ) :
    spansFrom offset (gap ++ (c :: part ++ rest)) = ⟨token, offset + gap.length, c :: part⟩ ::
      spansFrom (offset + gap.length + (c :: part).length) rest := by
  have hgap : (gap ++ (c :: part ++ rest)).length - (c :: part ++ rest).length = gap.length := by
    rw [List.length_append, Nat.add_sub_cancel]
  have hsource : (c :: part ++ rest).length - rest.length = (c :: part).length := by
    rw [List.length_append, Nat.add_sub_cancel]
  have hstop : (gap ++ (c :: part ++ rest)).length - rest.length =
      gap.length + (c :: part).length := by
    rw [← List.append_assoc, List.length_append, Nat.add_sub_cancel, List.length_append]
  rw [spansFrom.eq_def]
  split
  · next heq => cases h.next?_eq.symm.trans heq
  · next heq =>
    cases h.next?_eq.symm.trans heq
    dsimp only
    rw [h.skipComments_eq, hgap, hsource, hstop, List.take_left, Nat.add_assoc]

end IsFirst

/-- A text without a token has no places of tokens. -/
theorem spansFrom_of_next?_none (h : next? text = (none : Option (Token K × List Char))) :
    spansFrom offset text = ([] : List (Span K)) := by
  rw [spansFrom.eq_def]
  split
  · rfl
  · next heq => cases h.symm.trans heq

/-- The places of tokens lie in the text. -/
theorem bounds_of_mem_spansFrom (h : span ∈ spansFrom offset text) :
    offset ≤ span.start ∧ span.stop ≤ offset + text.length := by
  induction text using scan.induct (K := K) generalizing offset with
  | case1 text hnone =>
    rw [spansFrom_of_next?_none hnone] at h
    cases h
  | case2 text token rest hsome ih =>
    obtain ⟨gap, c, part, htext, hfirst⟩ := exists_isFirst hsome
    rw [htext, hfirst.spansFrom_eq] at h
    rw [htext, List.length_append, List.length_append]
    rcases List.mem_cons.1 h with rfl | h
    · refine ⟨Nat.le_add_right _ _, ?_⟩
      show offset + gap.length + (c :: part).length ≤ _
      omega
    · obtain ⟨hstart, hstop⟩ := ih h
      omega

/-- A string that its quote does not close is cut off by the end of the text. -/
theorem stop_eq_of_endsOpen {value : String} (h : span ∈ spansFrom offset text)
    (hstring : span.token = string value) (hopen : endsOpen span.token span.source = true) :
    span.stop = offset + text.length := by
  induction text using scan.induct (K := K) generalizing offset with
  | case1 text hnone =>
    rw [spansFrom_of_next?_none hnone] at h
    cases h
  | case2 text token rest hsome ih =>
    obtain ⟨gap, c, part, htext, hfirst⟩ := exists_isFirst hsome
    rw [htext, hfirst.spansFrom_eq] at h
    rw [htext, List.length_append, List.length_append]
    rcases List.mem_cons.1 h with rfl | h
    · -- The string is open, so nothing is left of the text behind it.
      obtain rfl : token = string value := hstring
      rw [eq_nil_of_endsOpen rfl hfirst.take hopen]
      exact Nat.add_assoc _ _ _
    · rw [ih h]
      omega

/-- The tokens that stand in a text are those of the text. -/
theorem map_token_spansFrom (offset : ℕ) (text : List Char) :
    (spansFrom offset text).map Span.token = (scan text : List (Token K)) := by
  induction text using scan.induct (K := K) generalizing offset with
  | case1 text hnone =>
    rw [spansFrom_of_next?_none hnone, scan_of_next?_none hnone]
    rfl
  | case2 text token rest hsome ih =>
    obtain ⟨gap, c, part, rfl, hfirst⟩ := exists_isFirst hsome
    rw [hfirst.scan_eq, hfirst.spansFrom_eq, List.map_cons, ih]

/-- The source of a token stands at its start. -/
theorem take_drop_of_mem_spansFrom (before : List Char) (h : span ∈ spansFrom before.length text) :
    ((before ++ text).drop span.start).take span.source.length = span.source := by
  induction text using scan.induct (K := K) generalizing before with
  | case1 text hnone =>
    rw [spansFrom_of_next?_none hnone] at h
    cases h
  | case2 text token rest hsome ih =>
    obtain ⟨gap, c, part, rfl, hfirst⟩ := exists_isFirst hsome
    rw [hfirst.spansFrom_eq, ← List.length_append] at h
    rw [← List.append_assoc]
    rcases List.mem_cons.1 h with rfl | h
    · dsimp only
      rw [List.drop_left, List.take_left]
    · -- The text in front now holds the first token as well.
      rw [← List.length_append] at h
      rw [← List.append_assoc]
      exact ih (before ++ gap ++ (c :: part)) h

end Spans

/-! ## Comments between tokens -/

/-- Lists that are the same but for their blanks are so behind another token. -/
theorem collapse_cons_congr {K : Type} {tokens tokens' : List (Token K)} (token : Token K)
    (h : collapse tokens = collapse tokens') :
    collapse (token :: tokens) = collapse (token :: tokens') := by
  cases htoken : token.isWhitespace with
  | true => rw [eq_whitespace htoken, collapse_cons_whitespace, collapse_cons_whitespace, h]
  | false =>
    rw [collapse_cons_of_not_isWhitespace htoken, collapse_cons_of_not_isWhitespace htoken, h]

section Insertion

variable {K : Type} [Number K] {c : Char} {token : Token K} {offset : ℕ}
  {text gap part rest rest' before after body kept dropped : List Char}

/-- Texts have the same tokens if only comments in front of them differ. -/
theorem scan_congr {text' : List Char} (h : skipComments text = skipComments text') :
    (scan text : List (Token K)) = scan text' := by
  have hnext : (next? text : Option (Token K × List Char)) = next? text' := by
    unfold next?
    rw [h]
  rw [scan, scan, hnext]

/-- Comments in front of a text have no tokens. -/
theorem scan_append (hgap : AreComments gap) (text : List Char) :
    (scan (gap ++ text) : List (Token K)) = scan text :=
  scan_congr (skipComments_append hgap text)

/-- A comment in front of a text has no tokens. -/
theorem scan_comment_append (hbody : IsCommentBody body) (text : List Char) :
    (scan (comment body ++ text) : List (Token K)) = scan text :=
  scan_congr (skipComments_comment_append hbody text)

/-- A token is the first one in front of another text too, unless that goes on with it. -/
theorem IsFirst.calm (h : IsFirst token gap c part rest) (hcalm : IsCalm rest rest')
    (hopen : endsOpen token (c :: part) = true → rest'.head? = rest.head?) :
    IsFirst token gap c part rest' where
  gap := h.gap
  solid := by
    -- A slash could only open a comment with the star behind the token.
    have hhead : c = '/' → (part ++ rest).head? ≠ some '*' := by
      rintro rfl hhead
      obtain ⟨tail, htail⟩ := List.head?_eq_some_iff.1 hhead
      have hsolid := h.solid
      rw [List.cons_append, htail] at hsolid
      exact skipComments_ne tail hsolid
    rw [List.cons_append, skipComments]
    intro tail heq
    obtain ⟨rfl, htail⟩ := List.cons.inj heq
    have hhead' := (hcalm.head.append part).head?_ne (by decide) (hhead rfl)
    rw [htail] at hhead'
    exact hhead' rfl
  take := takeAfter_calm hcalm hopen h.take

/-! ### Among blanks -/

/-- A run of blanks is one token. -/
theorem scan_blanks (hpart : part ≠ []) (hblank : ∀ c ∈ part, isBlank c = true)
    (hrest : rest.head?.any isBlank = false) :
    (scan (part ++ rest) : List (Token K)) = whitespace :: scan rest := by
  obtain ⟨c, part, rfl⟩ := List.exists_cons_of_ne_nil hpart
  obtain ⟨hc, hpart⟩ := List.forall_mem_cons.1 hblank
  refine IsFirst.scan_eq ⟨.nil, skipComments_of_not_slash ?_ _, ?_⟩
  · rintro rfl
    cases hc
  · rw [takeAfter, if_pos hc, dropWhile_isBlank_eq_iff.2 ⟨hpart, hrest⟩]

/-- What is taken as a blank are blanks, and no blank follows them. -/
theorem IsFirst.isBlank (h : IsFirst (whitespace : Token K) gap c part rest) :
    (∀ c' ∈ c :: part, isBlank c' = true) ∧ rest.head?.any isBlank = false := by
  have htake := h.take
  have hc : Token.isBlank c = true := by
    by_contra hc
    have hsolid :=
      not_isWhitespace_takeAfter (K := K) (Bool.eq_false_of_not_eq_true hc) (part ++ rest)
    rw [htake] at hsolid
    cases hsolid
  rw [takeAfter, if_pos hc] at htake
  obtain ⟨hpart, hrest⟩ := dropWhile_isBlank_eq_iff.1 (Prod.mk.inj htake).2
  exact ⟨List.forall_mem_cons.2 ⟨hc, hpart⟩, hrest⟩

/-- A comment splits a run of blanks in two, which collapse again. -/
theorem collapse_scan_split_blanks {left right : List Char} (hbody : IsCommentBody body)
    (hleft : left ≠ []) (hright : right ≠ []) (hblank : ∀ c ∈ left ++ right, isBlank c = true)
    (hrest : rest.head?.any isBlank = false) :
    collapse (scan (left ++ (comment body ++ (right ++ rest))) : List (Token K)) =
      collapse (scan (left ++ (right ++ rest))) := by
  have hwhole : left ++ right ≠ [] := List.append_ne_nil_of_left_ne_nil hleft right
  have hcomment : (comment body ++ (right ++ rest)).head?.any isBlank = false := rfl
  rw [← List.append_assoc left right, scan_blanks hwhole hblank hrest,
    scan_blanks hleft (fun c hc => hblank c (List.mem_append_left right hc)) hcomment,
    scan_comment_append hbody,
    scan_blanks hright (fun c hc => hblank c (List.mem_append_right left hc)) hrest,
    collapse_blanks]

/-- A comment inside of a run of blanks makes two runs of it, which collapse to one. -/
theorem IsFirst.collapse_scan_inside (h : IsFirst (whitespace : Token K) gap c part rest)
    (hbody : IsCommentBody body) (htext : before ++ after = gap ++ (c :: part ++ rest))
    (hstart : gap.length < before.length)
    (hstop : before.length < gap.length + (c :: part).length) :
    collapse (scan (before ++ (comment body ++ after)) : List (Token K)) =
      collapse (scan (before ++ after)) := by
  -- The comment stands behind what comes before the run, with blanks of the run on both sides.
  obtain ⟨left, rfl⟩ : gap <+: before :=
    List.prefix_of_prefix_length_le ⟨_, rfl⟩ ⟨after, htext⟩ hstart.le
  rw [List.length_append] at hstart hstop
  rw [List.append_assoc] at htext
  have htail := List.append_cancel_left htext
  obtain ⟨right, hsource⟩ : left <+: c :: part :=
    List.prefix_of_prefix_length_le ⟨after, htail⟩ ⟨rest, rfl⟩ (by omega)
  obtain ⟨hblank, hrest⟩ := h.isBlank
  have hleft : left ≠ [] := by
    rintro rfl
    exact Nat.lt_irrefl _ hstart
  have hright : right ≠ [] := by
    rintro rfl
    rw [List.append_nil] at hsource
    rw [hsource] at hstop
    exact Nat.lt_irrefl _ hstop
  rw [← hsource] at hblank htail
  obtain rfl : after = right ++ rest := by
    rw [List.append_assoc] at htail
    exact List.append_cancel_left htail
  rw [List.append_assoc, List.append_assoc, scan_append h.gap, scan_append h.gap,
    collapse_scan_split_blanks hbody hleft hright hblank hrest]

/-! ### Behind a token -/

/-- A backslash or a dash in front of what starts no escape is a token. -/
theorem spansFrom_of_not_isEscapeTail (h : isEscapeTail dropped = false) (offset : ℕ) :
    (spansFrom offset ('\\' :: dropped) : List (Span K)) =
        ⟨delim '\\', offset, ['\\']⟩ :: spansFrom (offset + 1) dropped ∧
      (spansFrom offset ('-' :: '\\' :: dropped) : List (Span K)) =
        ⟨delim '-', offset, ['-']⟩ :: spansFrom (offset + 1) ('\\' :: dropped) := by
  have hfirst : ∀ (c : Char) (rest : List Char), c ≠ '/' → IsSign K c →
      runsIntoSign c rest = false → IsFirst (delim c : Token K) [] c [] rest :=
    fun c rest hc hsign hruns => ⟨.nil, skipComments_of_not_slash hc rest,
      takeAfter_eq_delim_iff.2 ⟨rfl, rfl, hsign, hruns⟩⟩
  have hback := hfirst '\\' dropped (by decide) ⟨rfl, by decide, rfl, by decide, rfl⟩ h
  have hdash := hfirst '-' ('\\' :: dropped) (by decide) ⟨rfl, by decide, rfl, by decide, rfl⟩ h
  exact ⟨hback.spansFrom_eq offset, hdash.spansFrom_eq offset⟩

/-- Where a text is broken off behind a backslash, an escape goes on, or else the backslash is a
token that ends there. -/
theorem isEscapeTail_of_endsOpen (hkept : kept = ['\\'] ∨ kept = ['-', '\\'])
    (h : ∀ span ∈ (spansFrom offset (kept ++ dropped) : List (Span K)),
      span.stop = offset + kept.length → endsOpen span.token span.source = false) :
    isEscapeTail dropped = true := by
  by_contra hescape
  have hspans := spansFrom_of_not_isEscapeTail (K := K) (Bool.eq_false_of_not_eq_true hescape)
  -- A backslash that starts no escape is a delimiter, and that one ends open.
  rcases hkept with rfl | rfl
  · have hspan := h ⟨delim '\\', offset, ['\\']⟩ (by
      rw [List.singleton_append, (hspans offset).1]
      exact List.mem_cons_self) rfl
    cases hspan
  · have hspan := h ⟨delim '\\', offset + 1, ['\\']⟩ (by
      show _ ∈ spansFrom offset ('-' :: '\\' :: dropped)
      rw [(hspans offset).2, (hspans (offset + 1)).1]
      exact List.mem_cons_of_mem _ List.mem_cons_self) rfl
    cases hspan

/-- The first token stays where a comment is put in right behind it or further on: it sees what is
kept in between and then the slash of the comment. -/
theorem IsFirst.insert (h : IsFirst token gap c part (kept ++ after))
    (hends : kept = [] → endsOpen token (c :: part) = false)
    (hopen : ∀ span ∈ (spansFrom offset (kept ++ after) : List (Span K)),
      span.stop = offset + kept.length → endsOpen span.token span.source = false) :
    IsFirst token gap c part (kept ++ (Token.comment body ++ after)) := by
  refine h.calm (isCalm_slash fun hkept => isEscapeTail_of_endsOpen hkept hopen) ?_
  intro htoken
  cases kept with
  | nil =>
    rw [hends rfl] at htoken
    cases htoken
  | cons c' kept => rfl

/-- A comment between the tokens of a text that starts at the given place. -/
theorem collapse_scan_insert (hbody : IsCommentBody body) (offset : ℕ)
    (hseam : ∃ span ∈ (spansFrom offset (before ++ after) : List (Span K)),
      span.Meets (offset + before.length))
    (hopen : ∀ span ∈ (spansFrom offset (before ++ after) : List (Span K)),
      span.stop = offset + before.length → endsOpen span.token span.source = false) :
    collapse (scan (before ++ (comment body ++ after)) : List (Token K)) =
      collapse (scan (before ++ after)) := by
  obtain ⟨text, htext⟩ : ∃ text, before ++ after = text := ⟨_, rfl⟩
  rw [htext] at hseam hopen
  -- The induction is on the tokens. It ends where the comment stands in front of the first one or
  -- among its blanks; otherwise the first one stays and the comment stands in the text behind it.
  induction text using scan.induct (K := K) generalizing offset before after with
  | case1 text hnone =>
    obtain ⟨span, hspan, -⟩ := hseam
    rw [spansFrom_of_next?_none hnone] at hspan
    cases hspan
  | case2 text token rest hsome ih =>
    obtain ⟨gap, c, part, rfl, hfirst⟩ := exists_isFirst hsome
    rw [hfirst.spansFrom_eq] at hseam hopen
    have hlater : gap.length + (c :: part).length ≤ before.length →
        collapse (scan (before ++ (comment body ++ after)) : List (Token K)) =
          collapse (scan (before ++ after)) := by
      intro hlength
      -- The first token stays as it is if the comment stands behind it.
      obtain ⟨kept, rfl⟩ : gap ++ c :: part <+: before :=
        List.prefix_of_prefix_length_le ⟨rest, by rw [List.append_assoc]⟩ ⟨after, htext⟩
          (by rwa [List.length_append])
      obtain rfl : kept ++ after = rest := by
        rw [List.append_assoc, List.append_assoc] at htext
        exact List.append_cancel_left (List.append_cancel_left htext)
      have hplace : offset + (gap ++ c :: part ++ kept).length =
          offset + gap.length + (c :: part).length + kept.length := by
        rw [List.length_append, List.length_append]
        omega
      rw [hplace] at hseam hopen
      have hopen' := fun span hspan => hopen span (List.mem_cons_of_mem _ hspan)
      have hfirst' : IsFirst token gap c part (kept ++ (comment body ++ after)) := by
        refine hfirst.insert ?_ hopen'
        rintro rfl
        exact hopen _ List.mem_cons_self rfl
      -- Where the comment stands directly behind the token, it is skipped in front of the rest.
      rw [htext, List.append_assoc, List.append_assoc, hfirst'.scan_eq, hfirst.scan_eq]
      refine collapse_cons_congr token ?_
      cases kept with
      | nil => rw [List.nil_append, List.nil_append, scan_comment_append hbody]
      | cons c' kept =>
        refine ih _ hopen' ?_ rfl
        obtain ⟨span, hspan, hmeets⟩ := hseam
        rcases List.mem_cons.1 hspan with rfl | hspan
        · have hle : _ ≤ offset + gap.length + (c :: part).length := hmeets.bounds.2
          have hpos : 0 < (c' :: kept).length := Nat.succ_pos _
          omega
        · exact ⟨span, hspan, hmeets⟩
    obtain ⟨span, hspan, hmeets⟩ := hseam
    rcases List.mem_cons.1 hspan with rfl | hspan
    · have hbounds : offset + gap.length ≤ offset + before.length ∧
          offset + before.length ≤ offset + gap.length + (c :: part).length := hmeets.bounds
      -- The seam is that of the first token: in front of it, behind it, or among its blanks.
      by_cases hstart : before.length = gap.length
      · obtain ⟨rfl, rfl⟩ := List.append_inj htext hstart
        rw [scan_append hfirst.gap, scan_append hfirst.gap, scan_comment_append hbody]
      by_cases hstop : before.length = gap.length + (c :: part).length
      · exact hlater hstop.ge
      rcases hmeets with heq | heq | ⟨rfl, -⟩
      · exact absurd (Nat.add_left_cancel heq) hstart
      · exact absurd (Nat.add_left_cancel (heq.trans (Nat.add_assoc _ _ _))) hstop
      · exact hfirst.collapse_scan_inside hbody htext (by omega) (by omega)
    · have hle := (bounds_of_mem_spansFrom hspan).1.trans hmeets.bounds.1
      exact hlater (by omega)

/-- A closed comment may be put in at the start or the end of any token and in any run of blanks,
unless a token ends there only because of what comes behind it: the tokens stay the same. -/
theorem collapse_scan_insert_comment {n : ℕ} (hbody : IsCommentBody body) (hseam : IsSeam K text n)
    (hopen : ∀ span ∈ (spans text : List (Span K)), span.stop = n →
      endsOpen span.token span.source = false) :
    collapse (scan (text.take n ++ (comment body ++ text.drop n)) : List (Token K)) =
      collapse (scan text) := by
  -- The seam is where a token starts or stops, so it is within the text.
  have hlength : (text.take n).length = n := by
    obtain ⟨span, hspan, hmeets⟩ := hseam
    have hle := hmeets.bounds.2.trans (bounds_of_mem_spansFrom hspan).2
    rw [Nat.zero_add] at hle
    exact List.length_take_of_le hle
  rw [collapse_scan_insert hbody 0, List.take_append_drop]
  · rw [List.take_append_drop, hlength, Nat.zero_add]
    exact hseam
  · rw [List.take_append_drop, hlength, Nat.zero_add]
    exact hopen

end Insertion

/-- Two blanks in parentheses are one token, and a comment between them is none. -/
theorem collapse_scan_insert_comment_blanks :
    (IsCommentBody ['*'] ∧ IsSeam Double "(  )".toList 2 ∧
      ∀ span ∈ (spans "(  )".toList : List (Span Double)), span.stop = 2 →
        endsOpen span.token span.source = false) ∧
    collapse (scan "( /***/ )".toList : List (Token Double)) = collapse (scan "(  )".toList) := by
  have hbody : IsCommentBody ['*'] := by
    unfold IsCommentBody
    decide
  -- The tokens and their places are found one after the other.
  have hspans : (spans "(  )".toList : List (Span Double)) =
      [⟨openParen, 0, ['(']⟩, ⟨whitespace, 1, [' ', ' ']⟩, ⟨closeParen, 3, [')']⟩] := by
    have hopenParen : IsFirst (openParen : Token Double) [] '(' [] [' ', ' ', ')'] :=
      ⟨.nil, rfl, rfl⟩
    have hblanks : IsFirst (whitespace : Token Double) [] ' ' [' '] [')'] := ⟨.nil, rfl, rfl⟩
    have hcloseParen : IsFirst (closeParen : Token Double) [] ')' [] [] := ⟨.nil, rfl, rfl⟩
    refine (hopenParen.spansFrom_eq 0).trans (congrArg _ ?_)
    refine (hblanks.spansFrom_eq 1).trans (congrArg _ ?_)
    refine (hcloseParen.spansFrom_eq 3).trans (congrArg _ ?_)
    exact spansFrom_of_next?_none rfl
  have hseam : IsSeam Double "(  )".toList 2 := by
    refine ⟨⟨whitespace, 1, [' ', ' ']⟩, ?_, .inr (.inr ⟨rfl, by decide, by decide⟩)⟩
    rw [hspans]
    exact List.mem_cons_of_mem _ List.mem_cons_self
  -- No token but the blanks has the seam inside of it.
  have hopen : ∀ span ∈ (spans "(  )".toList : List (Span Double)), span.stop = 2 →
      endsOpen span.token span.source = false := by
    rw [hspans]
    intro span hspan hstop
    simp only [List.mem_cons, List.not_mem_nil, or_false] at hspan
    rcases hspan with rfl | rfl | rfl
    all_goals exact absurd hstop (by decide)
  exact ⟨⟨hbody, hseam, hopen⟩, collapse_scan_insert_comment hbody hseam hopen⟩

end CssColor.Token
