import CssColor.Proofs.Number.LongestNumeral
import CssColor.Proofs.Token.Neighbours

/-!
# Texts that are broken off by a slash

A token is told from the characters that it takes and from those right behind it. It stays the same
where another text stands behind it that goes on with nothing more (`Token.takeAfter_calm`), and so
where a slash comes in (`Token.isCalm_slash`): no name, numeral, escape or run of blanks goes on
with one. Only strings that are not closed and a backslash that starts no escape end by what comes
next and by nothing else (`Token.endsOpen`).
-/

namespace CssColor.Token

variable {c : Char} {text part rest rest' kept dropped more : List Char}

/-! ## The first character -/

/-- Whatever the first character of `rest` is not, that of `rest'` is not either, slashes apart. -/
def CalmHead (rest rest' : List Char) : Prop :=
  ∀ test : Char → Bool, test '/' = false → rest.head?.any test = false →
    rest'.head?.any test = false

/-- Texts with the same first character are told apart by no test. -/
theorem calmHead_of_head?_eq (h : rest'.head? = rest.head?) : CalmHead rest rest' := by
  intro test _ hrest
  rw [h]
  exact hrest

/-- A character other than a slash that does not come first in `rest` does not come first in
`rest'`. -/
theorem CalmHead.head?_ne (h : CalmHead rest rest') (hc : c ≠ '/') (hrest : rest.head? ≠ some c) :
    rest'.head? ≠ some c := by
  intro hhead
  have hany := h (· == c) (beq_eq_false_iff_ne.2 hc.symm) (by
    rw [Bool.eq_false_iff, Ne, Option.any_eq_true]
    rintro ⟨c', hc', heq⟩
    rw [eq_of_beq heq] at hc'
    exact hrest hc')
  rw [hhead, Option.any_some, beq_self_eq_true] at hany
  cases hany

/-- Behind a common part nothing changes at the first character. -/
theorem CalmHead.append (h : CalmHead rest rest') (part : List Char) :
    CalmHead (part ++ rest) (part ++ rest') := by
  cases part with
  | nil => exact h
  | cons c part => exact calmHead_of_head?_eq rfl

/-- A slash stands in for whatever came before. -/
theorem calmHead_slash (kept dropped more : List Char) :
    CalmHead (kept ++ dropped) (kept ++ '/' :: more) := by
  cases kept with
  | nil =>
    intro test hslash _
    exact hslash
  | cons c kept => exact calmHead_of_head?_eq rfl

/-! ## Escapes -/

/-- The hexadecimal digits of an escape stop where there are enough of them, or where another
character comes. -/
theorem exists_hexDigits (n : ℕ) (text : List Char) : ∃ digits rest, text = digits ++ rest ∧
    (text.take n).takeWhile isHexDigit = digits ∧ (∀ c ∈ digits, isHexDigit c = true) ∧
    digits.length ≤ n ∧ (digits.length = n ∨ rest.head?.any isHexDigit = false) := by
  induction n generalizing text with
  | zero => exact ⟨[], text, rfl, rfl, List.forall_mem_nil _, le_rfl, .inl rfl⟩
  | succ n ih =>
    cases text with
    | nil => exact ⟨[], [], rfl, rfl, List.forall_mem_nil _, Nat.zero_le _, .inr rfl⟩
    | cons c text =>
      by_cases hc : isHexDigit c = true
      · -- The character is one more digit.
        obtain ⟨digits, rest, rfl, htake, hdigits, hlength, hstop⟩ := ih text
        refine ⟨c :: digits, rest, rfl, ?_, List.forall_mem_cons.2 ⟨hc, hdigits⟩, ?_, ?_⟩
        · rw [List.take_succ_cons, List.takeWhile_cons_of_pos hc, htake]
        · exact Nat.succ_le_succ hlength
        · exact hstop.imp_left (congrArg Nat.succ)
      · -- The digits stop here.
        refine ⟨[], c :: text, rfl, ?_, List.forall_mem_nil _, Nat.zero_le _, .inr ?_⟩
        · rw [List.take_succ_cons, List.takeWhile_cons_of_neg hc]
        · simpa using hc

/-- As many hexadecimal digits are taken as there are, up to `n`. -/
theorem takeWhile_take_append {n : ℕ} {digits : List Char}
    (hdigits : ∀ c ∈ digits, isHexDigit c = true) (hlength : digits.length ≤ n)
    (hstop : digits.length = n ∨ rest.head?.any isHexDigit = false) :
    ((digits ++ rest).take n).takeWhile isHexDigit = digits := by
  rw [List.take_append, List.take_of_length_le hlength, List.takeWhile_append_of_pos hdigits]
  have hnone : (rest.take (n - digits.length)).takeWhile isHexDigit = [] := by
    -- There are as many digits as are taken.
    rcases hstop with rfl | hstop
    · rw [Nat.sub_self]
      rfl
    · cases rest with
      | nil => rw [List.take_nil, List.takeWhile_nil]
      | cons c rest =>
        cases n - digits.length with
        | zero => rfl
        | succ m =>
          rw [List.take_succ_cons, List.takeWhile_cons_of_neg]
          simpa using hstop
  rw [hnone, List.append_nil]

/-- An escape takes a character at least. -/
theorem takeEscape_length_lt (h : text ≠ []) : (takeEscape text).2.length < text.length := by
  obtain ⟨digits, rest, htext, htake, -⟩ := exists_hexDigits 6 text
  unfold takeEscape
  dsimp only
  rw [htake]
  -- Without a digit one character is taken, unless the text is at its end.
  cases digits with
  | nil =>
    cases text with
    | nil => exact absurd rfl h
    | cons c text => exact Nat.lt_succ_self _
  | cons c digits =>
    have hle := dropBlank_length_le (text.drop (digits.length + 1))
    rw [List.length_drop] at hle
    have hlength := congrArg List.length htext
    rw [List.length_append, List.length_cons] at hlength
    show (dropBlank (text.drop (digits.length + 1))).length < text.length
    omega

/-- Either a blank is dropped, or there is none and nothing is dropped. -/
theorem dropBlank_cases (text : List Char) :
    (∃ blank, isBlank blank = true ∧ text = blank :: dropBlank text) ∨
      dropBlank text = text ∧ text.head?.any isBlank = false := by
  cases text with
  | nil => exact .inr ⟨rfl, rfl⟩
  | cons c text =>
    rw [dropBlank]
    split
    · next hblank => exact .inl ⟨c, hblank, rfl⟩
    · next hblank => exact .inr ⟨rfl, by simpa using hblank⟩

/-- Without a blank in front, nothing is dropped. -/
theorem dropBlank_eq_self (h : text.head?.any isBlank = false) : dropBlank text = text := by
  rcases dropBlank_cases text with ⟨blank, hblank, htext⟩ | ⟨heq, -⟩
  · rw [htext] at h
    exact absurd (hblank.symm.trans h) (by decide)
  · exact heq

/-- The digits of an escape give its character, and a blank behind them is dropped. -/
theorem takeEscape_append {digits : List Char} (hnonempty : digits ≠ [])
    (hdigits : ∀ c ∈ digits, isHexDigit c = true) (hlength : digits.length ≤ 6)
    (hstop : digits.length = 6 ∨ rest.head?.any isHexDigit = false) :
    takeEscape (digits ++ rest) = (escapedChar (hexNumber digits), dropBlank rest) := by
  unfold takeEscape
  dsimp only
  rw [takeWhile_take_append hdigits hlength hstop, List.drop_left,
    if_neg (by simpa using hnonempty)]

/-- An escape ends by the characters that it takes and the first one behind it. -/
theorem takeEscape_calm {e : Char} (hcalm : CalmHead rest rest') (hpart : part ≠ [])
    (h : takeEscape (part ++ rest) = (e, rest)) : takeEscape (part ++ rest') = (e, rest') := by
  obtain ⟨digits, tail, htext, htake, hdigits, hlength, hstop⟩ := exists_hexDigits 6 (part ++ rest)
  cases digits with
  | nil =>
    -- Without digits the next character stands for itself, whatever comes behind it.
    obtain ⟨c, part, rfl⟩ := List.exists_cons_of_ne_nil hpart
    have hc : isHexDigit c = false := by
      by_contra hc
      rw [List.cons_append, List.take_succ_cons, List.takeWhile_cons_of_pos (by simpa using hc)]
        at htake
      cases htake
    have hsingle : ∀ rest, takeEscape (c :: rest) = (c, rest) := by
      intro rest
      unfold takeEscape
      rw [List.take_succ_cons, List.takeWhile_cons_of_neg (by simp [hc])]
      rfl
    rw [List.cons_append, hsingle] at h
    obtain ⟨rfl, hrest⟩ := Prod.mk.inj h
    obtain rfl : part = [] := by
      have hempty := congrArg List.length hrest
      rw [List.length_append] at hempty
      exact List.length_eq_zero_iff.1 (by omega)
    exact hsingle rest'
  | cons c digits =>
    rw [htext, takeEscape_append (List.cons_ne_nil c digits) hdigits hlength hstop] at h
    obtain ⟨hvalue, hrest⟩ := Prod.mk.inj h
    -- A blank behind the digits ends the escape; without one the character behind it does.
    rcases dropBlank_cases tail with ⟨blank, hblank, htail⟩ | ⟨htail, hhead⟩
    · rw [hrest] at htail
      subst htail
      obtain rfl : part = c :: digits ++ [blank] :=
        List.append_cancel_right (by rw [htext, List.append_assoc]; rfl)
      have hstop' : (c :: digits).length = 6 ∨ (blank :: rest').head?.any isHexDigit = false :=
        hstop
      rw [List.append_assoc, List.singleton_append,
        takeEscape_append (List.cons_ne_nil c digits) hdigits hlength hstop', hvalue]
      exact congrArg (Prod.mk e) (if_pos hblank)
    · rw [htail] at hrest
      subst hrest
      obtain rfl : part = c :: digits := List.append_cancel_right htext
      have hstop' := hstop.imp_right (hcalm isHexDigit rfl)
      rw [takeEscape_append (List.cons_ne_nil c digits) hdigits hlength hstop', hvalue,
        dropBlank_eq_self (hcalm isBlank rfl hhead)]

/-- A blank is dropped from the front. -/
theorem dropBlank_suffix (text : List Char) : dropBlank text <:+ text := by
  rcases dropBlank_cases text with ⟨blank, -, htext⟩ | ⟨htext, -⟩
  · exact ⟨[blank], htext.symm⟩
  · rw [htext]

/-- An escape is taken off the front. -/
theorem takeEscape_suffix (text : List Char) : (takeEscape text).2 <:+ text := by
  unfold takeEscape
  dsimp only
  split
  · cases text with
    | nil => exact List.nil_suffix
    | cons c rest => exact List.suffix_cons c rest
  · exact (dropBlank_suffix _).trans (List.drop_suffix _ _)

/-- An escape takes a part of a text, and the same part in front of other texts. -/
theorem exists_takeEscape (h : text ≠ []) : ∃ part, part ≠ [] ∧
    text = part ++ (takeEscape text).2 ∧ ∀ rest', CalmHead (takeEscape text).2 rest' →
      takeEscape (part ++ rest') = ((takeEscape text).1, rest') := by
  obtain ⟨part, htext⟩ := takeEscape_suffix text
  have hpart : part ≠ [] := by
    rintro rfl
    have hlength := takeEscape_length_lt h
    rw [List.nil_append] at htext
    rw [htext] at hlength
    exact Nat.lt_irrefl _ hlength
  refine ⟨part, hpart, htext.symm, fun rest' hcalm => takeEscape_calm hcalm hpart ?_⟩
  rw [htext]

/-! ## Names -/

/-- Whether an escape is complete depends on the character behind the backslash only. -/
theorem isEscapeTail_append (h : part ≠ []) (rest : List Char) :
    isEscapeTail (part ++ rest) = isEscapeTail part := by
  cases part with
  | nil => exact absurd rfl h
  | cons c part => rfl

/-- A name ends by the characters that it takes and where the text goes on with no name. -/
theorem exists_takeName (text : List Char) : ∃ part, text = part ++ (takeName text).2 ∧
    ∀ rest', CalmHead (takeName text).2 rest' → continuesName rest' = false →
      takeName (part ++ rest') = ((takeName text).1, rest') := by
  fun_induction takeName text with
  | case1 => exact ⟨[], rfl, fun rest' _ hname => takeName_append (List.forall_mem_nil _) hname⟩
  | case2 c rest hchar name after htake ih =>
    -- The character is put in front of the part that is taken.
    obtain ⟨part, htext, hpart⟩ := ih
    rw [htake] at htext hpart
    refine ⟨c :: part, congrArg (c :: ·) htext, fun rest' hcalm hname => ?_⟩
    rw [List.cons_append, takeName_of_isNameChar hchar, hpart rest' hcalm hname]
  | case3 c rest hchar hescape escape name after htake ih =>
    -- The escape is put in front of it; it takes the same characters in front of the other text.
    obtain ⟨part, htext, hpart⟩ := ih
    rw [htake] at htext hpart
    obtain ⟨hback, htail⟩ := (Bool.and_eq_true _ _).mp hescape
    have hrest : rest ≠ [] := by
      rintro rfl
      cases htail
    obtain ⟨taken, htaken, hsplit, htake'⟩ := exists_takeEscape hrest
    change (takeEscape rest).2 = part ++ after at htext
    rw [htext] at hsplit htake'
    refine ⟨c :: (taken ++ part), ?_, fun rest' hcalm hname => ?_⟩
    · show c :: rest = c :: (taken ++ part ++ after)
      rw [List.append_assoc, ← hsplit]
    have hescape' : (c == '\\' && isEscapeTail (taken ++ (part ++ rest'))) = true := by
      rw [hback, isEscapeTail_append htaken, ← isEscapeTail_append htaken (part ++ after), ← hsplit,
        htail]
      rfl
    rw [List.cons_append, List.append_assoc,
      takeName_of_startsEscape (Bool.eq_false_of_not_eq_true hchar) hescape',
      htake' _ (hcalm.append part), hpart rest' hcalm hname]
  | case4 c rest =>
    exact ⟨[], rfl, fun rest' _ hname => takeName_append (List.forall_mem_nil _) hname⟩

/-- A name is taken off the front. -/
theorem takeName_suffix (text : List Char) : (takeName text).2 <:+ text := by
  obtain ⟨part, htext, -⟩ := exists_takeName text
  exact ⟨part, htext.symm⟩

/-- A name ends in front of the other text too, if no name goes on there. -/
theorem takeName_calm {name : List Char} (hcalm : CalmHead rest rest')
    (hname : continuesName rest' = false) (h : takeName (part ++ rest) = (name, rest)) :
    takeName (part ++ rest') = (name, rest') := by
  obtain ⟨part', htext, hpart⟩ := exists_takeName (part ++ rest)
  rw [h] at htext hpart
  obtain rfl : part = part' := List.append_cancel_right htext
  exact hpart rest' hcalm hname

/-- A name leaves a text that does not go on with it. -/
theorem not_continuesName_takeName (text : List Char) :
    continuesName (takeName text).2 = false := by
  fun_induction takeName text with
  | case1 => rfl
  | case2 c rest _ name after htake ih =>
    rw [htake] at ih
    exact ih
  | case3 c rest _ _ escape name after htake ih =>
    rw [htake] at ih
    exact ih
  | case4 c rest hchar hescape =>
    refine continuesName_of_takeName ?_
    rw [takeName_of_not_starts (by simpa using hchar) (by simpa using hescape)]

/-- Where no name goes on, none starts. -/
theorem not_startsName_of_not_continuesName (h : continuesName text = false) :
    startsName text = false := by
  by_contra hname
  rw [Bool.not_eq_false] at hname
  have hlength : (takeName text).2.length < text.length := takeName_length_lt (by simp [hname])
  cases text with
  | nil => cases hname
  | cons c rest =>
    have htake : takeName ([] ++ c :: rest) = ([], c :: rest) :=
      takeName_append (List.forall_mem_nil _) h
    rw [List.nil_append] at htake
    rw [htake] at hlength
    exact Nat.lt_irrefl _ hlength

section Names

variable {name : List Char}

/-- A name is taken up to where no name goes on. -/
theorem not_continuesName_of_takeName (h : takeName (part ++ rest) = (name, rest)) :
    continuesName rest = false := by
  have hrest := not_continuesName_takeName (part ++ rest)
  rwa [h] at hrest

/-- A text goes on with a name if and only if some of it is taken. -/
theorem continuesName_eq_of_takeName (h : takeName (part ++ rest) = (name, rest)) :
    continuesName (part ++ rest) = !part.isEmpty := by
  cases part with
  | nil => exact not_continuesName_of_takeName h
  | cons c part =>
    by_contra hname
    rw [List.isEmpty_cons, Bool.not_false, Bool.not_eq_true] at hname
    have htake : takeName ([] ++ (c :: part ++ rest)) = ([], c :: part ++ rest) :=
      takeName_append (List.forall_mem_nil _) hname
    rw [List.nil_append, h] at htake
    have hlength := congrArg List.length (Prod.mk.inj htake).2
    rw [List.length_append, List.length_cons] at hlength
    omega

/-- Whether a text starts with a name is told by the part of it that is taken. -/
theorem startsName_eq_of_takeName (h : takeName (part ++ rest) = (name, rest)) :
    startsName (part ++ rest) = startsName part := by
  induction part generalizing name with
  | nil => exact not_startsName_of_not_continuesName (not_continuesName_of_takeName h)
  | cons c part ih =>
    rw [List.cons_append] at h ⊢
    by_cases hback : c = '\\'
    · -- A backslash alone is no name, so the escape is complete within the part.
      subst hback
      refine isEscapeTail_append ?_ rest
      rintro rfl
      have hlength := congrArg List.length (Prod.mk.inj h).2
      by_cases htail : isEscapeTail rest = true
      · have hrest : rest ≠ [] := by
          rintro rfl
          cases htail
        rw [takeName_of_startsEscape (by decide) (by simpa using htail)] at hlength
        exact absurd hlength
          ((takeName_length_le _).trans_lt (takeEscape_length_lt hrest)).ne
      · rw [takeName_of_not_starts (by decide) (by simpa using htail)] at hlength
        exact absurd hlength (Nat.succ_ne_self _)
    by_cases hdash : c = '-'
    · -- The name goes on behind the dash.
      subst hdash
      rw [takeName_of_isNameChar (by decide)] at h
      obtain ⟨-, hrest⟩ := Prod.mk.inj h
      rw [startsName_dash_eq, startsName_dash_eq, ih (Prod.ext rfl hrest)]
      cases part with
      | nil =>
        have htake : takeName ([] ++ rest) = ((takeName rest).1, rest) := Prod.ext rfl hrest
        have hname := not_continuesName_of_takeName htake
        rw [continuesName_eq, Bool.or_eq_false_iff] at hname
        have hhead : (rest.head? == some '-') = false := beq_eq_false_iff_ne.2 fun heq => by
          rw [heq] at hname
          cases hname.1
        rw [List.nil_append, hhead]
        rfl
      | cons c' part => rfl
    rw [startsName_of_ne hdash hback, startsName_of_ne hdash hback]

end Names

/-! ## Texts behind a token -/

/-- Behind a token `rest'` goes on with no more than `rest` does: with no character, name or numeral
that `rest` does not go on with. -/
structure IsCalm (rest rest' : List Char) : Prop where
  head : CalmHead rest rest'
  name : startsName rest = false → startsName rest' = false
  numeral : ∀ part numeral : List Char, Decimal.IsNumeral numeral → numeral <+: part ++ rest' →
    numeral <+: part ++ rest

namespace IsCalm

/-- Where no name goes on in `rest`, none goes on in `rest'`. -/
theorem continuesName (hcalm : IsCalm rest rest') (h : continuesName rest = false) :
    Token.continuesName rest' = false := by
  rw [continuesName_eq, Bool.or_eq_false_iff, Bool.and_eq_false_iff, beq_eq_false_iff_ne] at h ⊢
  exact ⟨hcalm.head isNameChar rfl h.1, h.2.imp (hcalm.head.head?_ne (by decide)) hcalm.name⟩

/-- Names are taken in front of both texts, and none starts or goes on in front of only one. -/
theorem takeName {name : List Char} (hcalm : IsCalm rest rest')
    (h : takeName (part ++ rest) = (name, rest)) :
    Token.takeName (part ++ rest') = (name, rest') ∧
      Token.continuesName (part ++ rest') = Token.continuesName (part ++ rest) ∧
      startsName (part ++ rest') = startsName (part ++ rest) := by
  have htake := takeName_calm hcalm.head (hcalm.continuesName (not_continuesName_of_takeName h)) h
  refine ⟨htake, ?_, ?_⟩
  · rw [continuesName_eq_of_takeName htake, continuesName_eq_of_takeName h]
  · rw [startsName_eq_of_takeName htake, startsName_eq_of_takeName h]

/-- Where no numeral starts in front of `rest`, none starts in front of `rest'`. -/
theorem startsNumeral (hcalm : IsCalm rest rest') (part : List Char)
    (h : Decimal.startsNumeral (part ++ rest) = false) :
    Decimal.startsNumeral (part ++ rest') = false := by
  by_contra hstart
  obtain ⟨numeral, hnumeral, hprefix⟩ := Decimal.startsNumeral_iff.1 (Bool.of_not_eq_false hstart)
  rw [Decimal.startsNumeral_iff.2 ⟨numeral, hnumeral, hcalm.numeral part numeral hnumeral hprefix⟩]
    at h
  cases h

/-- A backslash apart, no character starts a name with `rest'` that starts none with `rest`. -/
theorem startsName_cons (hcalm : IsCalm rest rest') (hback : c = '\\' → rest'.head? = rest.head?)
    (h : startsName (c :: rest) = false) : startsName (c :: rest') = false := by
  by_cases hc : c = '\\'
  · subst hc
    replace h : isEscapeTail rest = false := h
    show isEscapeTail rest' = false
    rw [isEscapeTail_eq] at h ⊢
    rw [hback rfl, h]
  by_cases hdash : c = '-'
  · subst hdash
    rw [startsName_dash_eq, Bool.or_eq_false_iff, beq_eq_false_iff_ne] at h ⊢
    exact ⟨hcalm.head.head?_ne (by decide) h.1, hcalm.name h.2⟩
  · rw [startsName_of_ne hdash hc] at h ⊢
    exact h

/-- A sign that does not run into `rest` does not run into `rest'`. -/
theorem runsIntoSign (hcalm : IsCalm rest rest') (hback : c = '\\' → rest'.head? = rest.head?)
    (h : runsIntoSign c rest = false) : Token.runsIntoSign c rest' = false := by
  simp only [Token.runsIntoSign, Bool.or_eq_false_iff, Bool.and_eq_false_iff] at h ⊢
  obtain ⟨⟨⟨hhash, hat⟩, hnumeral⟩, hname⟩ := h
  exact ⟨⟨⟨hhash.imp_right hcalm.continuesName, hat.imp_right hcalm.name⟩,
    hcalm.startsNumeral [c] hnumeral⟩, hcalm.startsName_cons hback hname⟩

end IsCalm

/-! ## A slash behind a token -/

/-- A part without some character is in front of a text up to where that character stands. -/
theorem prefix_of_not_mem (h : part <+: text ++ c :: rest) (hc : c ∉ part) : part <+: text := by
  by_contra hnot
  have hlength : (text ++ [c]).length ≤ part.length := by
    rw [List.length_append, List.length_singleton]
    by_contra hle
    exact hnot (List.prefix_of_prefix_length_le h (List.prefix_append text _) (by omega))
  have hsplit : text ++ c :: rest = text ++ [c] ++ rest := by rw [List.append_assoc]; rfl
  have hlonger : text ++ [c] <+: part :=
    List.prefix_of_prefix_length_le (hsplit ▸ List.prefix_append _ rest) h hlength
  exact hc (hlonger.subset (by simp))

/-- There is no slash in a numeral. -/
theorem slash_not_mem_of_isNumeral {numeral : List Char} (h : Decimal.IsNumeral numeral) :
    '/' ∉ numeral := by
  have hdigits : ∀ {digits : List Char}, Decimal.AreDigits digits → '/' ∉ digits :=
    -- Neither digits nor signs are slashes.
    fun h hslash => absurd (h.isDigit _ hslash) (by decide)
  have hsign : ∀ {sign : List Char}, Decimal.IsSign sign → '/' ∉ sign := by
    rintro _ (_ | _ | _) <;> decide
  obtain ⟨hs, hmagnitude, hexponent⟩ := h
  next sign magnitude exponent =>
  rw [List.mem_append, List.mem_append, not_or, not_or]
  refine ⟨hsign hs, ?_, ?_⟩
  · cases hmagnitude with
    | whole h => exact hdigits h
    | places h h' => simp [hdigits h, hdigits h']
    | fraction h => simp [hdigits h]
  · cases hexponent with
    | none => exact List.not_mem_nil
    | some hletter hs h =>
      rcases hletter with rfl | rfl <;> simp [hsign hs, hdigits h]

/-- Where no name starts, none starts if the text is broken off by a slash. -/
theorem startsName_slash
    (hescape : kept = ['\\'] ∨ kept = ['-', '\\'] → isEscapeTail dropped = true)
    (h : startsName (kept ++ dropped) = false) : startsName (kept ++ '/' :: more) = false := by
  induction kept with
  | nil => rfl
  | cons c kept ih =>
    rw [List.cons_append] at h ⊢
    by_cases hback : c = '\\'
    · -- The escape may lose its character to the slash, so it has to be complete.
      subst hback
      replace h : isEscapeTail (kept ++ dropped) = false := h
      cases kept with
      | nil => exact absurd ((hescape (.inl rfl)).symm.trans h) (by decide)
      | cons c' kept => exact h
    by_cases hdash : c = '-'
    · -- What follows the dash counts.
      subst hdash
      rw [startsName_dash_eq, Bool.or_eq_false_iff] at h ⊢
      refine ⟨?_, ih ?_ h.2⟩
      · cases kept with
        | nil => rfl
        | cons c' kept => exact h.1
      · rintro (rfl | rfl)
        · exact hescape (.inr rfl)
        · cases h.1
    · rw [startsName_of_ne hdash hback] at h ⊢
      exact h

/-- A slash is calm where it cuts off no escape. -/
theorem isCalm_slash
    (hescape : kept = ['\\'] ∨ kept = ['-', '\\'] → isEscapeTail dropped = true) :
    IsCalm (kept ++ dropped) (kept ++ '/' :: more) where
  head := calmHead_slash kept dropped more
  name := startsName_slash hescape
  numeral part numeral hnumeral hprefix := by
    rw [← List.append_assoc] at hprefix ⊢
    exact (prefix_of_not_mem hprefix (slash_not_mem_of_isNumeral hnumeral)).trans
      (List.prefix_append _ _)

/-! ## Numerals -/

/-- A numeral ends by the characters that it takes and where the text goes on with no longer one. -/
theorem scan_calm {d : Decimal} (hlonger : ∀ numeral : List Char, Decimal.IsNumeral numeral →
      numeral <+: part ++ rest' → numeral <+: part ++ rest)
    (hstart : Decimal.startsNumeral (part ++ rest) = true)
    (h : Decimal.scan (part ++ rest) = (d, rest)) :
    Decimal.startsNumeral (part ++ rest') = true ∧ Decimal.scan (part ++ rest') = (d, rest') := by
  obtain ⟨numeral, hlongest, htext, hscan⟩ := Decimal.exists_isLongestNumeral hstart
  rw [h] at htext hscan
  obtain rfl : part = numeral := List.append_cancel_right htext
  have hstart' : Decimal.startsNumeral (part ++ rest') = true :=
    Decimal.startsNumeral_iff.2 ⟨part, hlongest.isNumeral, List.prefix_append _ _⟩
  obtain ⟨numeral', hlongest', htext', hscan'⟩ := Decimal.exists_isLongestNumeral hstart'
  -- Each of the two is a numeral in front of both texts, so none is the longer one.
  obtain rfl : numeral' = part := by
    have hle := hlongest.longest numeral' hlongest'.isNumeral
      (hlonger numeral' hlongest'.isNumeral hlongest'.isPrefix)
    have hge := hlongest'.longest part hlongest.isNumeral (List.prefix_append _ _)
    exact hle.eq_of_length_le hge.length_le
  have hrest := List.append_cancel_left htext'
  rw [hscan] at hscan'
  exact ⟨hstart', Prod.ext (Prod.mk.inj hscan').1.symm hrest.symm⟩

/-! ## Strings -/

/-- Whether the text behind an opening quote holds the quote that closes the string. -/
def closesString (quote : Char) : List Char → Bool
  | [] => false
  | c :: rest =>
    if c == quote then true
    else if c == '\n' then false
    else if c == '\\' then
      match rest with
      | [] => false
      | '\n' :: after => closesString quote after
      | next :: after => closesString quote (takeEscape (next :: after)).2
    else closesString quote rest
termination_by text => text.length
decreasing_by
  · simp only [List.length_cons]
    omega
  · have := takeEscape_length_le (next :: after)
    simp only [List.length_cons] at this ⊢
    omega
  · simp

/-- A string ends by its quote, or else by a line break behind it or with the text. -/
theorem exists_takeString (quote : Char) (text : List Char) : ∃ part,
    text = part ++ (takeString quote text).2 ∧
    (closesString quote part = false → (takeString quote text).1.2 = true →
      (takeString quote text).2 = []) ∧
    ∀ rest', CalmHead (takeString quote text).2 rest' →
      (closesString quote part = false → rest'.head? = (takeString quote text).2.head?) →
      takeString quote (part ++ rest') = ((takeString quote text).1, rest') := by
  fun_induction takeString quote text with
  | case1 =>
    -- The text ends in the string, so the other text has to be empty.
    refine ⟨[], rfl, fun _ _ => rfl, fun rest' _ hhead => ?_⟩
    obtain rfl : rest' = [] := List.head?_eq_none_iff.1 (hhead (by rw [closesString]))
    rw [List.nil_append, takeString]
  | case2 c rest hc =>
    -- The quote closes the string, whatever follows.
    have hcloses : closesString quote [c] = true := by
      rw [closesString.eq_def]
      exact if_pos hc
    refine ⟨[c], rfl, fun hopen => absurd (hopen.symm.trans hcloses) (by decide),
      fun rest' _ _ => ?_⟩
    rw [List.singleton_append, takeString.eq_def]
    exact if_pos hc
  | case3 c rest hc hbreak =>
    -- The string is broken off by the end of the line, so the other text has to start with it too.
    refine ⟨[], rfl, fun _ hwhole => absurd hwhole Bool.false_ne_true, fun rest' _ hhead => ?_⟩
    obtain ⟨rest', rfl⟩ := List.head?_eq_some_iff.1 (hhead (by rw [closesString]))
    rw [List.nil_append, takeString.eq_def]
    dsimp only
    rw [if_neg hc, if_pos hbreak]
  | case4 c hc hbreak hback =>
    -- The text ends behind a backslash.
    refine ⟨[c], rfl, fun _ _ => rfl, fun rest' _ hhead => ?_⟩
    obtain rfl : rest' = [] := List.head?_eq_none_iff.1 (hhead (by
      rw [closesString.eq_def]
      dsimp only
      rw [if_neg hc, if_neg hbreak, if_pos hback]))
    rw [List.append_nil, takeString.eq_def]
    dsimp only
    rw [if_neg hc, if_neg hbreak, if_pos hback]
  | case5 c hc hbreak hback after ih =>
    -- A line break behind a backslash is taken with it.
    obtain ⟨part, htext, hend, hpart⟩ := ih
    have hcloses : closesString quote (c :: '\n' :: part) = closesString quote part := by
      rw [closesString.eq_def]
      dsimp only
      rw [if_neg hc, if_neg hbreak, if_pos hback]
      rfl
    refine ⟨c :: '\n' :: part, congrArg (c :: '\n' :: ·) htext, hcloses ▸ hend,
      fun rest' hcalm hhead => ?_⟩
    rw [← hpart rest' hcalm (hcloses ▸ hhead), List.cons_append, List.cons_append,
      takeString.eq_def]
    dsimp only
    rw [if_neg hc, if_neg hbreak, if_pos hback]
    rfl
  | case6 c hc hbreak hback next after hnext escape content isWhole left htake ih =>
    -- An escape is taken as in front of the other text.
    obtain ⟨part, htext, hend, hpart⟩ := ih
    rw [htake] at htext hend hpart
    obtain ⟨taken, htaken, hsplit, hescape⟩ := exists_takeEscape (List.cons_ne_nil next after)
    obtain ⟨first, taken, rfl⟩ := List.exists_cons_of_ne_nil htaken
    obtain rfl : next = first := (List.cons.inj hsplit).1
    change (takeEscape (next :: after)).2 = part ++ left at htext
    rw [htext] at hsplit hescape
    have hcloses : closesString quote (c :: (next :: taken ++ part)) = closesString quote part := by
      have hcalm : CalmHead (part ++ left) part := by
        cases part with
        | nil => exact fun _ _ _ => rfl
        | cons c part => exact calmHead_of_head?_eq rfl
      rw [List.cons_append, closesString.eq_4 _ _ _ _ hnext, ← List.cons_append,
        hescape part hcalm, if_neg hc, if_neg hbreak, if_pos hback]
    refine ⟨c :: (next :: taken ++ part), ?_, hcloses ▸ hend, fun rest' hcalm hhead => ?_⟩
    · show c :: next :: after = c :: (next :: taken ++ part ++ left)
      rw [hsplit, List.append_assoc]
    rw [List.cons_append, List.cons_append, List.cons_append, takeString.eq_4 _ _ _ _ hnext,
      ← List.cons_append, ← List.cons_append, List.append_assoc, hescape _ (hcalm.append part),
      if_neg hc, if_neg hbreak, if_pos hback]
    dsimp only
    rw [hpart rest' hcalm (hcloses ▸ hhead)]
  | case7 c rest hc hbreak hback content isWhole left htake ih =>
    -- Any other character is taken.
    obtain ⟨part, htext, hend, hpart⟩ := ih
    rw [htake] at htext hend hpart
    have hcloses : closesString quote (c :: part) = closesString quote part := by
      rw [closesString.eq_def]
      dsimp only
      rw [if_neg hc, if_neg hbreak, if_neg hback]
    refine ⟨c :: part, congrArg (c :: ·) htext, hcloses ▸ hend, fun rest' hcalm hhead => ?_⟩
    rw [List.cons_append, takeString.eq_def]
    dsimp only
    rw [if_neg hc, if_neg hbreak, if_neg hback, hpart rest' hcalm (hcloses ▸ hhead)]

/-! ## Tokens -/

/-- Whether a token ends only because of what comes behind it: a backslash that starts no escape, or
a string that is not closed by its quote. -/
def endsOpen {K : Type} : Token K → List Char → Bool
  | delim c, _ => c == '\\'
  | badString _, _ => true
  | string _, quote :: content => !closesString quote content
  | _, _ => false

section Tokens

variable {K : Type} {token : Token K}

/-- Of a text exactly the blanks in front are dropped. -/
theorem dropWhile_isBlank_eq_iff : (part ++ rest).dropWhile isBlank = rest ↔
    (∀ c ∈ part, isBlank c = true) ∧ rest.head?.any isBlank = false := by
  constructor
  · -- What is dropped is the longest front part of blanks.
    intro h
    have hpart : (part ++ rest).takeWhile isBlank = part := by
      have hsplit := List.takeWhile_append_dropWhile (p := isBlank) (l := part ++ rest)
      rw [h] at hsplit
      exact List.append_cancel_right hsplit
    refine ⟨fun c hc => List.mem_takeWhile_imp (hpart.symm ▸ hc), ?_⟩
    have hhead := List.head?_dropWhile_not isBlank (part ++ rest)
    rw [h] at hhead
    cases rest with
    | nil => rfl
    | cons c rest => exact hhead
  · rintro ⟨hpart, hhead⟩
    rw [List.dropWhile_append_of_pos hpart]
    cases rest with
    | nil => rfl
    | cons c rest => exact List.dropWhile_cons_of_neg (by simpa using hhead)

/-- A string ends in front of the other text too. If it was left open, the first character has to be
the same. -/
theorem takeQuoted_calm {quote : Char} (hcalm : CalmHead rest rest')
    (hopen : endsOpen token (quote :: part) = true → rest'.head? = rest.head?)
    (h : takeQuoted quote (part ++ rest) = (token, rest)) :
    takeQuoted quote (part ++ rest') = (token, rest') := by
  obtain ⟨part', htext, -, htake'⟩ := exists_takeString quote (part ++ rest)
  obtain ⟨⟨⟨content, isWhole⟩, left⟩, htake⟩ : ∃ taken, takeString quote (part ++ rest) = taken :=
    ⟨_, rfl⟩
  rw [htake] at htext htake'
  unfold takeQuoted at h ⊢
  rw [htake] at h
  cases isWhole with
  | true =>
    -- A string that its quote closes is whole in front of any text.
    obtain ⟨rfl, rfl⟩ := Prod.mk.inj h
    obtain rfl : part = part' := List.append_cancel_right htext
    rw [htake' rest' hcalm fun hcloses => hopen (congrArg not hcloses)]
  | false =>
    -- One that is broken off ends in front of the same character.
    obtain ⟨rfl, rfl⟩ := Prod.mk.inj h
    obtain rfl : part = part' := List.append_cancel_right htext
    rw [htake' rest' hcalm fun _ => hopen rfl]

/-- A unit or a percent sign ends by its own characters and where the text is calm. -/
theorem exists_takeUnit (x : K) (text : List Char) : ∃ part, text = part ++ (takeUnit x text).2 ∧
    ∀ rest', IsCalm (takeUnit x text).2 rest' →
      takeUnit x (part ++ rest') = ((takeUnit x text).1, rest') := by
  by_cases hname : startsName text = true
  · -- The unit is a name.
    rw [takeUnit_of_startsName x hname]
    obtain ⟨part, htext⟩ := takeName_suffix text
    have htake : takeName (part ++ (takeName text).2) = ((takeName text).1, (takeName text).2) := by
      rw [htext]
    refine ⟨part, htext.symm, fun rest' hcalm => ?_⟩
    obtain ⟨htake', -, hname'⟩ := hcalm.takeName htake
    rw [htext, hname] at hname'
    rw [takeUnit_of_startsName x hname', htake']
  · rw [Bool.not_eq_true] at hname
    -- Otherwise it is a percent sign or nothing.
    by_cases hpercent : text.head? = some '%'
    · obtain ⟨tail, rfl⟩ := List.head?_eq_some_iff.1 hpercent
      exact ⟨['%'], rfl, fun _ _ => rfl⟩
    · rw [takeUnit_of_not hname hpercent]
      exact ⟨[], rfl, fun rest' hcalm => takeUnit_of_not (hcalm.name hname)
        (hcalm.head.head?_ne (by decide) hpercent)⟩

/-- A name is taken off the front, with the parenthesis of a function. -/
theorem takeNamed_suffix (text : List Char) :
    (takeNamed text : Token K × List Char).2 <:+ text := by
  have hname := takeName_suffix text
  unfold takeNamed
  split
  · next htake =>
    rw [htake] at hname
    exact (List.suffix_cons _ _).trans hname
  · next htake =>
    rwa [htake] at hname

/-- A name gives the same token in front of the other text. -/
theorem takeNamed_calm (hcalm : IsCalm rest rest') (hstart : startsName (part ++ rest) = true)
    (h : takeNamed (part ++ rest) = (token, rest)) :
    startsName (part ++ rest') = true ∧ takeNamed (part ++ rest') = (token, rest') := by
  unfold takeNamed at h ⊢
  split at h
  · next name left htake =>
    -- The parenthesis of the function belongs to the part that is taken.
    obtain ⟨rfl, rfl⟩ := Prod.mk.inj h
    obtain ⟨chars, htext⟩ := takeName_suffix (part ++ left)
    rw [htake] at htext
    obtain rfl : part = chars ++ ['('] := by
      have hsplit : chars ++ ['('] ++ left = part ++ left := by
        rw [List.append_assoc]
        exact htext
      exact (List.append_cancel_right hsplit).symm
    rw [List.append_assoc] at htake hstart ⊢
    have hparen : CalmHead ('(' :: left) ('(' :: rest') := calmHead_of_head?_eq rfl
    have htake' := takeName_calm hparen rfl htake
    rw [startsName_eq_of_takeName htake] at hstart
    refine ⟨(startsName_eq_of_takeName htake').trans hstart, ?_⟩
    rw [List.singleton_append, htake']
    rfl
  · next name left hparen htake =>
    -- No parenthesis follows, and none comes with the other text.
    obtain ⟨rfl, rfl⟩ := Prod.mk.inj h
    obtain ⟨htake', -, hname⟩ := hcalm.takeName htake
    refine ⟨hname.trans hstart, ?_⟩
    have hhead : left.head? ≠ some '(' := by
      intro hhead
      obtain ⟨after, rfl⟩ := List.head?_eq_some_iff.1 hhead
      exact hparen after rfl
    have hhead' := hcalm.head.head?_ne (by decide) hhead
    rw [htake']
    split
    · next heq =>
      rw [(Prod.mk.inj heq).2] at hhead'
      exact absurd rfl hhead'
    · next heq =>
      obtain ⟨rfl, rfl⟩ := Prod.mk.inj heq
      rfl

variable [Number K]

/-- A numeral gives the same token in front of the other text. -/
theorem takeNumeric_calm (hcalm : IsCalm rest rest')
    (hstart : Decimal.startsNumeral (part ++ rest) = true)
    (h : takeNumeric (part ++ rest) = ((token, rest) : Token K × List Char)) :
    Decimal.startsNumeral (part ++ rest') = true ∧
      takeNumeric (part ++ rest') = ((token, rest') : Token K × List Char) := by
  obtain ⟨numeral, -, htext, -⟩ := Decimal.exists_isLongestNumeral hstart
  obtain ⟨⟨d, left⟩, hscan⟩ : ∃ taken, Decimal.scan (part ++ rest) = taken := ⟨_, rfl⟩
  change takeUnit (Decimal.scan (part ++ rest)).1.toNumber (Decimal.scan (part ++ rest)).2 = _ at h
  rw [hscan] at h htext
  obtain ⟨unit, hleft, hunit⟩ := exists_takeUnit (d.toNumber : K) left
  rw [h] at hleft hunit
  dsimp only at htext hleft
  subst hleft
  -- The part is a numeral with its unit.
  obtain rfl : part = numeral ++ unit := by
    rw [← List.append_assoc] at htext
    exact List.append_cancel_right htext
  rw [List.append_assoc] at hstart hscan ⊢
  have hlonger : ∀ other, Decimal.IsNumeral other → other <+: numeral ++ (unit ++ rest') →
      other <+: numeral ++ (unit ++ rest) := by
    intro other hother hprefix
    rw [← List.append_assoc] at hprefix ⊢
    exact hcalm.numeral _ other hother hprefix
  obtain ⟨hstart', hscan'⟩ := scan_calm hlonger hstart hscan
  refine ⟨hstart', ?_⟩
  show takeUnit (Decimal.scan _).1.toNumber (Decimal.scan _).2 = _
  rw [hscan']
  exact hunit rest' hcalm

/-- A numeral is taken off the front, with its unit. -/
theorem takeNumeric_suffix (h : Decimal.startsNumeral text = true) :
    (takeNumeric text : Token K × List Char).2 <:+ text := by
  obtain ⟨numeral, -, htext, -⟩ := Decimal.exists_isLongestNumeral h
  obtain ⟨unit, hunit, -⟩ :=
    exists_takeUnit ((Decimal.scan text).1.toNumber : K) (Decimal.scan text).2
  have hleft : (Decimal.scan text).2 <:+ text := ⟨numeral, htext.symm⟩
  exact List.IsSuffix.trans ⟨unit, hunit.symm⟩ hleft

/-- Whatever the first character is, the rest of a token is taken off the front. -/
theorem takeAfter_suffix (c : Char) (text : List Char) :
    (takeAfter c text : Token K × List Char).2 <:+ text := by
  -- A name or a numeral may start with the character, which is then taken with it.
  have htail : ∀ {rest : List Char}, rest <:+ c :: text → rest.length < (c :: text).length →
      rest <:+ text := fun hrest hlength =>
    (List.suffix_cons_iff.1 hrest).resolve_left fun heq => hlength.ne (congrArg List.length heq)
  unfold takeAfter
  split
  · exact List.dropWhile_suffix isBlank
  split
  · obtain ⟨part, hpart, -⟩ := exists_takeString c text
    unfold takeQuoted
    split
    all_goals
      next htake =>
      rw [htake] at hpart
      exact ⟨part, hpart.symm⟩
  split
  · exact takeName_suffix text
  split
  · exact takeName_suffix text
  split
  · next hnumeral => exact htail (takeNumeric_suffix hnumeral) (takeNumeric_length_lt hnumeral)
  split
  · next hname => exact htail (takeNamed_suffix _) (takeNamed_length_lt hname)
  · exact List.suffix_rfl

/-- A token is the same where another text stands behind it, unless that goes on with the token. -/
theorem takeAfter_calm (hcalm : IsCalm rest rest')
    (hopen : endsOpen token (c :: part) = true → rest'.head? = rest.head?)
    (h : takeAfter c (part ++ rest) = ((token, rest) : Token K × List Char)) :
    takeAfter c (part ++ rest') = ((token, rest') : Token K × List Char) := by
  -- Delimiters are the tokens that end before something else could have been read.
  by_cases hdelim : ∃ c', token = delim c'
  · obtain ⟨c', rfl⟩ := hdelim
    obtain ⟨rfl, hrest, hsign, hruns⟩ := takeAfter_eq_delim_iff.1 h
    obtain rfl : part = [] := List.append_left_eq_self.1 hrest.symm
    refine takeAfter_eq_delim_iff.2 ⟨rfl, rfl, hsign, hcalm.runsIntoSign ?_ hruns⟩
    exact fun hback => hopen (beq_iff_eq.2 hback)
  cases hpunctuation : (ofPunctuation? c : Option (Token K)) with
  | some token' =>
    rw [takeAfter_of_ofPunctuation? hpunctuation] at h ⊢
    obtain ⟨rfl, hrest⟩ := Prod.mk.inj h
    rw [List.append_left_eq_self.1 hrest]
    rfl
  | none =>
  by_cases hblank : isBlank c = true
  · -- Blanks.
    rw [takeAfter, if_pos hblank] at h ⊢
    obtain ⟨rfl, hrest⟩ := Prod.mk.inj h
    obtain ⟨hpart, hhead⟩ := dropWhile_isBlank_eq_iff.1 hrest
    rw [dropWhile_isBlank_eq_iff.2 ⟨hpart, hcalm.head isBlank rfl hhead⟩]
  by_cases hquote : (c == '"' || c == '\x27') = true
  · -- A string.
    rw [takeAfter, if_neg hblank, if_pos hquote] at h ⊢
    exact takeQuoted_calm hcalm.head hopen h
  by_cases hhash : c = '#'
  · subst hhash
    rw [takeAfter_hash] at h ⊢
    by_cases hname : continuesName (part ++ rest) = true
    · rw [if_pos hname, if_pos hname] at h
      obtain ⟨rfl, hrest⟩ := Prod.mk.inj h
      obtain ⟨htake, hcontinues, hstarts⟩ := hcalm.takeName (Prod.ext rfl hrest)
      rw [hcontinues, if_pos hname, if_pos hname, hstarts, htake]
    · rw [if_neg hname] at h
      exact absurd ⟨'#', (Prod.mk.inj h).1.symm⟩ hdelim
  by_cases hat : c = '@'
  · subst hat
    rw [takeAfter_at] at h ⊢
    by_cases hname : startsName (part ++ rest) = true
    · rw [if_pos hname] at h
      obtain ⟨rfl, hrest⟩ := Prod.mk.inj h
      obtain ⟨htake, -, hstarts⟩ := hcalm.takeName (Prod.ext rfl hrest)
      rw [hstarts, if_pos hname, htake]
    · rw [if_neg hname] at h
      exact absurd ⟨'@', (Prod.mk.inj h).1.symm⟩ hdelim
  -- Here the character is taken once more, as the first one of a numeral or a name.
  rw [takeAfter_of_ne hblank hquote hhash hat hpunctuation, ← List.cons_append] at h ⊢
  by_cases hnumeral : Decimal.startsNumeral (c :: part ++ rest) = true
  · rw [if_pos hnumeral] at h
    obtain ⟨hnumeral', htake⟩ := takeNumeric_calm hcalm hnumeral h
    rw [if_pos hnumeral', htake]
  rw [if_neg hnumeral] at h
  rw [hcalm.startsNumeral _ (Bool.eq_false_of_not_eq_true hnumeral), if_neg Bool.false_ne_true]
  by_cases hname : startsName (c :: part ++ rest) = true
  · rw [if_pos hname] at h
    obtain ⟨hname', htake⟩ := takeNamed_calm hcalm hname h
    rw [if_pos hname', htake]
  · rw [if_neg hname] at h
    exact absurd ⟨c, (Prod.mk.inj h).1.symm⟩ hdelim

/-- A string that its quote does not close is cut off by the end of the text. -/
theorem eq_nil_of_endsOpen {value : String} (htext : text = part ++ rest)
    (h : takeAfter c text = ((string value, rest) : Token K × List Char))
    (hopen : endsOpen (string value : Token K) (c :: part) = true) : rest = [] := by
  obtain ⟨part', htext', hend, -⟩ := exists_takeString c text
  cases taken_of_takeAfter h with
  | string _ htake =>
    rw [htake] at htext' hend
    obtain rfl : part = part' := List.append_cancel_right (htext.symm.trans htext')
    exact hend (by simpa [endsOpen] using hopen) rfl
  | punctuation htoken =>
    unfold ofPunctuation? at htoken
    split at htoken <;> cases htoken

end Tokens

end CssColor.Token
