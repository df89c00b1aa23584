import CssColor.Proofs.Number.Exact

/-!
# The longest numeral

`Decimal.IsNumeral` is the grammar of numerals. A numeral starts a text exactly where one of the
grammar does (`Decimal.startsNumeral_iff`). Of these `Decimal.scan` takes the longest
(`Decimal.exists_isLongestNumeral`), and `Scalar.ofText` reads what was taken as the same number
(`Scalar.ofText_of_scan`).
-/

namespace CssColor.Decimal

/-! ## The grammar -/

/-- A run of digits, one at least. -/
structure AreDigits (text : List Char) : Prop where
  ne_nil : text ≠ []
  isDigit : ∀ c ∈ text, c.isDigit = true

/-- An optional sign. -/
inductive IsSign : List Char → Prop where
  | none : IsSign []
  | plus : IsSign ['+']
  | minus : IsSign ['-']

/-- Digits with an optional point followed by digits, or a point followed by digits. -/
inductive IsMagnitude : List Char → Prop where
  | whole {digits : List Char} (hdigits : AreDigits digits) : IsMagnitude digits
  | places {digits fraction : List Char} (hdigits : AreDigits digits)
      (hfraction : AreDigits fraction) : IsMagnitude (digits ++ '.' :: fraction)
  | fraction {fraction : List Char} (hfraction : AreDigits fraction) :
      IsMagnitude ('.' :: fraction)

/-- An optional exponent: a letter `e`, an optional sign and digits. -/
inductive IsExponent : List Char → Prop where
  | none : IsExponent []
  | some {letter : Char} {sign digits : List Char} (hletter : letter = 'e' ∨ letter = 'E')
      (hsign : IsSign sign) (hdigits : AreDigits digits) : IsExponent (letter :: (sign ++ digits))

/-- A numeral: an optional sign, a magnitude and an optional exponent. -/
inductive IsNumeral : List Char → Prop where
  | mk {sign magnitude exponent : List Char} (hsign : IsSign sign)
      (hmagnitude : IsMagnitude magnitude) (hexponent : IsExponent exponent) :
      IsNumeral (sign ++ (magnitude ++ exponent))

/-- Digits start with a digit whatever follows them. -/
theorem AreDigits.startsWithDigit {digits : List Char} (h : AreDigits digits) (rest : List Char) :
    startsWithDigit (digits ++ rest) = true := by
  cases digits with
  | nil => exact absurd rfl h.ne_nil
  | cons c digits => exact h.isDigit c List.mem_cons_self

/-- A magnitude starts with a digit or with the point. -/
theorem IsMagnitude.exists_cons {magnitude : List Char} (h : IsMagnitude magnitude) :
    ∃ c rest, magnitude = c :: rest ∧ (c.isDigit = true ∨ c = '.') := by
  -- Digits start with a digit.
  have hfirst : ∀ {digits : List Char}, AreDigits digits →
      ∃ c rest, digits = c :: rest ∧ c.isDigit = true := by
    intro digits hdigits
    cases digits with
    | nil => exact absurd rfl hdigits.ne_nil
    | cons c digits => exact ⟨c, digits, rfl, hdigits.isDigit c List.mem_cons_self⟩
  cases h with
  | whole hdigits =>
    obtain ⟨c, rest, rfl, hc⟩ := hfirst hdigits
    exact ⟨c, rest, rfl, .inl hc⟩
  | places hdigits _ =>
    obtain ⟨c, rest, rfl, hc⟩ := hfirst hdigits
    exact ⟨c, _, rfl, .inl hc⟩
  | fraction _ => exact ⟨'.', _, rfl, .inr rfl⟩

/-! ## Taking parts

Each part is taken off a text in one piece. It would be taken in the same way if less of the text
were left behind it. -/

/-- A sign is taken from any text that goes on with a magnitude. -/
theorem takeSign_append {sign magnitude : List Char} (hsign : IsSign sign)
    (hmagnitude : IsMagnitude magnitude) (rest : List Char) :
    (takeSign (sign ++ (magnitude ++ rest))).2 = magnitude ++ rest := by
  obtain ⟨c, tail, rfl, hc⟩ := hmagnitude.exists_cons
  cases hsign with
  -- A digit and the point are no signs.
  | none =>
    have hplus : c ≠ '+' := by
      rintro rfl
      rcases hc with hc | hc <;> cases hc
    have hminus : c ≠ '-' := by
      rintro rfl
      rcases hc with hc | hc <;> cases hc
    rw [List.nil_append, List.cons_append, takeSign_of_ne hplus hminus]
  | plus => rfl
  | minus => rfl

/-- Where a text does not start with a digit, neither does a piece of its front. -/
theorem startsWithDigit_of_isPrefix {text left : List Char} (h : left <+: text)
    (htext : startsWithDigit text = false) : startsWithDigit left = false := by
  obtain ⟨rest, rfl⟩ := h
  cases left with
  | nil => rfl
  | cons c left => exact htext

/-- The sign is taken off in the same way if less of the text follows it. -/
theorem exists_takeSign (text : List Char) : ∃ sign, IsSign sign ∧
    text = sign ++ (takeSign text).2 ∧
    ∀ left, left <+: (takeSign text).2 → takeSign (sign ++ left) = ((takeSign text).1, left) := by
  cases text with
  | nil =>
    refine ⟨[], .none, rfl, fun left hleft => ?_⟩
    rw [List.prefix_nil.1 hleft]
    rfl
  | cons c rest =>
    -- There is one of the two signs, or none.
    by_cases hplus : c = '+'
    · subst hplus
      exact ⟨['+'], .plus, rfl, fun left _ => rfl⟩
    by_cases hminus : c = '-'
    · subst hminus
      exact ⟨['-'], .minus, rfl, fun left _ => rfl⟩
    rw [takeSign_of_ne hplus hminus]
    refine ⟨[], .none, rfl, fun left hleft => ?_⟩
    cases left with
    | nil => rfl
    | cons c' left =>
      obtain ⟨rfl, -⟩ := List.cons_prefix_cons.1 hleft
      exact takeSign_of_ne hplus hminus left

/-- The digits and what is left make up the text. -/
theorem takeDigits_eq (text : List Char) : text = (takeDigits text).1 ++ (takeDigits text).2 :=
  List.takeWhile_append_dropWhile.symm

/-- Only digits are taken. -/
theorem isDigit_of_mem_takeDigits {text : List Char} {c : Char} (h : c ∈ (takeDigits text).1) :
    c.isDigit = true := by
  simpa using List.mem_takeWhile_imp h

/-- No digit is left in front. -/
theorem not_startsWithDigit_takeDigits (text : List Char) :
    startsWithDigit (takeDigits text).2 = false := by
  rw [takeDigits]
  induction text with
  | nil => rfl
  | cons c rest ih =>
    dsimp only at ih ⊢
    by_cases hc : c.isDigit = true
    · rw [List.dropWhile_cons_of_pos hc]
      exact ih
    · rw [List.dropWhile_cons_of_neg hc]
      exact Bool.not_eq_true _ ▸ hc

/-- Where the text starts with a digit, there are digits to take. -/
theorem areDigits_takeDigits {text : List Char} (h : startsWithDigit text = true) :
    AreDigits (takeDigits text).1 where
  ne_nil hnil := by
    have htext := takeDigits_eq text
    rw [hnil, List.nil_append] at htext
    rw [htext, not_startsWithDigit_takeDigits] at h
    cases h
  isDigit _ := isDigit_of_mem_takeDigits

/-- The same digits are taken if less of the text follows them. -/
theorem takeDigits_of_isPrefix {text left : List Char} (hleft : left <+: (takeDigits text).2) :
    takeDigits ((takeDigits text).1 ++ left) = ((takeDigits text).1, left) :=
  takeDigits_append (fun _ => isDigit_of_mem_takeDigits)
    (startsWithDigit_of_isPrefix hleft (not_startsWithDigit_takeDigits text))

/-- No digits are taken in front of the point. -/
theorem takeDigits_point (rest : List Char) : takeDigits ('.' :: rest) = ([], '.' :: rest) := rfl

/-- A point without a digit behind it is left, and so is anything else. -/
theorem takeFraction_of_not {text : List Char}
    (h : ∀ rest, text = '.' :: rest → startsWithDigit rest = false) :
    takeFraction text = ([], text) := by
  unfold takeFraction
  split
  · next rest => rw [h rest rfl, if_neg Bool.false_ne_true]
  · rfl

/-- A fraction is a point and digits, or nothing. -/
theorem exists_takeFraction (text : List Char) : ∃ fraction,
    (fraction = [] ∧ (takeFraction text).1 = [] ∨
      AreDigits (takeFraction text).1 ∧ fraction = '.' :: (takeFraction text).1) ∧
    text = fraction ++ (takeFraction text).2 ∧
    ∀ left, left <+: (takeFraction text).2 →
      takeFraction (fraction ++ left) = ((takeFraction text).1, left) := by
  -- Either there is a point with a digit behind it, or there is no fraction.
  by_cases h : ∃ rest, text = '.' :: rest ∧ startsWithDigit rest = true
  · obtain ⟨rest, rfl, hrest⟩ := h
    have htake : takeFraction ('.' :: rest) = takeDigits rest := if_pos hrest
    rw [htake]
    refine ⟨_, .inr ⟨areDigits_takeDigits hrest, rfl⟩,
      congrArg (List.cons '.') (takeDigits_eq rest), fun left hleft => ?_⟩
    rw [List.cons_append, takeFraction,
      if_pos ((areDigits_takeDigits hrest).startsWithDigit left)]
    exact takeDigits_of_isPrefix hleft
  · have hnot : ∀ rest, text = '.' :: rest → startsWithDigit rest = false := by
      intro rest htext
      by_contra hrest
      exact h ⟨rest, htext, by simpa using hrest⟩
    rw [takeFraction_of_not hnot]
    refine ⟨[], .inl ⟨rfl, rfl⟩, rfl, fun left hleft => takeFraction_of_not ?_⟩
    -- Less of the text cannot bring a digit behind the point.
    rintro rest rfl
    obtain ⟨more, htext⟩ := hleft
    exact startsWithDigit_of_isPrefix ⟨more, rfl⟩ (hnot (rest ++ more) htext.symm)

/-- A letter without a digit behind it is left, and so is anything else. -/
theorem takeExponent_of_not {text : List Char} (h : ∀ c rest, text = c :: rest →
    ((c == 'e' || c == 'E') && startsWithDigit (takeSign rest).2) = false) :
    takeExponent text = (0, text) := by
  unfold takeExponent
  split
  · next c rest =>
    dsimp only
    rw [h c rest rfl, if_neg Bool.false_ne_true]
  · rfl

/-- Where no digit follows the sign, none does if less of the text is there. -/
theorem startsWithDigit_takeSign_of_isPrefix {text left : List Char} (h : left <+: text)
    (htext : startsWithDigit (takeSign text).2 = false) :
    startsWithDigit (takeSign left).2 = false := by
  cases left with
  | nil => rfl
  | cons c left =>
    obtain ⟨rest, rfl⟩ := h
    rw [List.cons_append] at htext
    -- A sign is taken off both texts, if there is one.
    by_cases hplus : c = '+'
    · subst hplus
      exact startsWithDigit_of_isPrefix (List.prefix_append left rest) htext
    by_cases hminus : c = '-'
    · subst hminus
      exact startsWithDigit_of_isPrefix (List.prefix_append left rest) htext
    rw [takeSign_of_ne hplus hminus] at htext ⊢
    exact htext

/-- The exponent is taken off in the same way if less of the text follows it. -/
theorem exists_takeExponent (text : List Char) : ∃ exponent, IsExponent exponent ∧
    text = exponent ++ (takeExponent text).2 ∧
    ∀ left, left <+: (takeExponent text).2 →
      takeExponent (exponent ++ left) = ((takeExponent text).1, left) := by
  by_cases h : ∃ c rest, text = c :: rest ∧
      ((c == 'e' || c == 'E') && startsWithDigit (takeSign rest).2) = true
  · obtain ⟨c, rest, rfl, hrest⟩ := h
    obtain ⟨hletter, hdigit⟩ := (Bool.and_eq_true _ _).mp hrest
    obtain ⟨sign, hsign, htext, hleft⟩ := exists_takeSign rest
    have hdigits := areDigits_takeDigits hdigit
    have htake : takeExponent (c :: rest) =
        (if (takeSign rest).1 then -(ofDigits (takeDigits (takeSign rest).2).1 : ℤ)
          else ofDigits (takeDigits (takeSign rest).2).1, (takeDigits (takeSign rest).2).2) := by
      rw [takeExponent]
      dsimp only
      rw [if_pos hrest]
    rw [htake]
    refine ⟨c :: (sign ++ (takeDigits (takeSign rest).2).1),
      .some (by simpa using hletter) hsign hdigits, ?_, fun left hprefix => ?_⟩
    · rw [List.cons_append, List.append_assoc, ← takeDigits_eq, ← htext]
    · -- The sign of the exponent is read in front of its digits and a piece of what followed them.
      have hafter := hleft ((takeDigits (takeSign rest).2).1 ++ left) (by
        conv_rhs => rw [takeDigits_eq (takeSign rest).2]
        exact (List.prefix_append_right_inj _).2 hprefix)
      rw [List.cons_append, List.append_assoc, takeExponent, hafter]
      dsimp only
      rw [hletter, hdigits.startsWithDigit, Bool.and_self, if_pos rfl,
        takeDigits_of_isPrefix hprefix]
  · -- Without an exponent, less of the text does not make one.
    have hnot : ∀ c rest, text = c :: rest →
        ((c == 'e' || c == 'E') && startsWithDigit (takeSign rest).2) = false := by
      intro c rest htext
      by_contra hrest
      exact h ⟨c, rest, htext, by simpa using hrest⟩
    rw [takeExponent_of_not hnot]
    refine ⟨[], .none, rfl, fun left hleft => takeExponent_of_not ?_⟩
    rintro c rest rfl
    obtain ⟨more, htext⟩ := hleft
    have hfalse := hnot c (rest ++ more) htext.symm
    rw [Bool.and_eq_false_iff] at hfalse ⊢
    exact hfalse.imp_right (startsWithDigit_takeSign_of_isPrefix (List.prefix_append rest more))

/-! ## Taking numerals -/

/-- Past its sign a numeral is a magnitude and an exponent. -/
theorem isMagnitude_of_startsNumeral {text fraction : List Char} (h : startsNumeral text = true)
    (hfraction : fraction = [] ∧ (takeFraction (takeDigits (takeSign text).2).2).1 = [] ∨
      AreDigits (takeFraction (takeDigits (takeSign text).2).2).1 ∧
        fraction = '.' :: (takeFraction (takeDigits (takeSign text).2).2).1) :
    IsMagnitude ((takeDigits (takeSign text).2).1 ++ fraction) := by
  -- Digits in front of the point make a magnitude with or without a fraction.
  by_cases hdigit : startsWithDigit (takeSign text).2 = true
  · have hwhole := areDigits_takeDigits hdigit
    rcases hfraction with ⟨rfl, -⟩ | ⟨hdigits, rfl⟩
    · rw [List.append_nil]
      exact .whole hwhole
    · exact .places hwhole hdigits
  · -- Without them a digit has to stand behind the point.
    obtain ⟨rest, hrest, hstart⟩ : ∃ rest, (takeSign text).2 = '.' :: rest ∧
        startsWithDigit rest = true := by
      unfold startsNumeral at h
      split at h
      · next rest heq => exact ⟨rest, heq, h⟩
      · exact absurd h hdigit
    have htake : takeFraction ('.' :: rest) = takeDigits rest := if_pos hstart
    rw [hrest, takeDigits_point, htake] at hfraction
    rw [hrest, takeDigits_point]
    rcases hfraction with ⟨-, hnone⟩ | ⟨hdigits, rfl⟩
    · exact absurd hnone (areDigits_takeDigits hstart).ne_nil
    · exact .fraction hdigits

/-- What is taken off a text is a numeral of the grammar, and on its own the same decimal. -/
theorem exists_scan {text : List Char} (h : startsNumeral text = true) : ∃ numeral,
    IsNumeral numeral ∧ text = numeral ++ (scan text).2 ∧ scan numeral = ((scan text).1, []) := by
  obtain ⟨sign, hsign, htext, htakeSign⟩ := exists_takeSign text
  -- The parts are taken off one after the other.
  have hwhole := takeDigits_eq (takeSign text).2
  obtain ⟨fraction, hfraction, hafterWhole, htakeFraction⟩ :=
    exists_takeFraction (takeDigits (takeSign text).2).2
  obtain ⟨exponent, hexponent, hafterFraction, htakeExponent⟩ :=
    exists_takeExponent (takeFraction (takeDigits (takeSign text).2).2).2
  have hmagnitude := isMagnitude_of_startsNumeral h hfraction
  refine ⟨sign ++ ((takeDigits (takeSign text).2).1 ++ fraction ++ exponent),
    .mk hsign hmagnitude hexponent, ?_, ?_⟩
  · show text = _ ++ (takeExponent (takeFraction (takeDigits (takeSign text).2).2).2).2
    simp only [List.append_assoc]
    rw [← hafterFraction, ← hafterWhole, ← hwhole, ← htext]
  · -- Behind each part stands a piece of what stood there in the text.
    have hexponentPrefix :
        exponent <+: (takeFraction (takeDigits (takeSign text).2).2).2 := ⟨_, hafterFraction.symm⟩
    have hfractionPrefix : fraction ++ exponent <+: (takeDigits (takeSign text).2).2 := by
      conv_rhs => rw [hafterWhole]
      exact (List.prefix_append_right_inj _).2 hexponentPrefix
    have hwholePrefix : (takeDigits (takeSign text).2).1 ++ (fraction ++ exponent) <+:
        (takeSign text).2 := by
      conv_rhs => rw [hwhole]
      exact (List.prefix_append_right_inj _).2 hfractionPrefix
    have hexponentAlone := htakeExponent [] List.nil_prefix
    rw [List.append_nil] at hexponentAlone
    rw [List.append_assoc]
    unfold scan
    simp only [htakeSign _ hwholePrefix, takeDigits_of_isPrefix hfractionPrefix,
      htakeFraction _ hexponentPrefix, hexponentAlone]

/-! ## The longest numeral -/

/-- Digits in front of a text are taken together with the digits it starts with. -/
theorem takeDigits_digits_append {digits : List Char} (hdigits : AreDigits digits)
    (rest : List Char) :
    takeDigits (digits ++ rest) = (digits ++ (takeDigits rest).1, (takeDigits rest).2) := by
  rw [takeDigits, takeDigits, List.takeWhile_append_of_pos hdigits.isDigit,
    List.dropWhile_append_of_pos hdigits.isDigit]

/-- What is left behind a fraction is what is left behind the digits that follow it. -/
theorem takeFraction_append {fraction : List Char} (hfraction : AreDigits fraction)
    (rest : List Char) :
    (takeFraction ('.' :: (fraction ++ rest))).2 = (takeDigits rest).2 := by
  rw [takeFraction, if_pos (hfraction.startsWithDigit rest), takeDigits_digits_append hfraction]

/-- Past an exponent nothing in front of the text after it is left. -/
theorem length_takeExponent_le {exponent : List Char} (hexponent : IsExponent exponent)
    (rest : List Char) :
    (takeExponent (takeDigits (exponent ++ rest)).2).2.length ≤ rest.length ∧
      (takeExponent (takeFraction (takeDigits (exponent ++ rest)).2).2).2.length ≤
        rest.length := by
  -- Without an exponent more of the text may belong to the numeral. An exponent stops both the
  -- digits and the fraction at its letter.
  cases hexponent with
  | none =>
    have hdigits := takeDigits_length_le rest
    have hfraction := takeFraction_length_le (takeDigits rest).2
    exact ⟨(takeExponent_length_le _).trans hdigits,
      (takeExponent_length_le _).trans (hfraction.trans hdigits)⟩
  | @some letter sign digits hletter hsign hdigits =>
    have hsigned := takeSign_append hsign (.whole hdigits) rest
    have hnot : letter.isDigit = false ∧ letter ≠ '.' := by
      rcases hletter with rfl | rfl <;> decide
    have hwhole : takeDigits (letter :: (sign ++ digits) ++ rest) =
        ([], letter :: (sign ++ digits) ++ rest) := by
      rw [List.cons_append, takeDigits, List.takeWhile_cons_of_neg (by simp [hnot.1]),
        List.dropWhile_cons_of_neg (by simp [hnot.1])]
    have hfraction : takeFraction (letter :: (sign ++ digits) ++ rest) =
        ([], letter :: (sign ++ digits) ++ rest) :=
      takeFraction_of_not fun _ heq => absurd (List.cons.inj heq).1 hnot.2
    -- The letter, the sign and the digits are an exponent, and it may go on with more digits.
    have hexponent : (takeExponent (letter :: (sign ++ digits) ++ rest)).2 =
        (takeDigits rest).2 := by
      have hstart : ((letter == 'e' || letter == 'E') &&
          startsWithDigit (digits ++ rest)) = true := by
        rw [Bool.and_eq_true]
        exact ⟨by simpa using hletter, hdigits.startsWithDigit rest⟩
      rw [List.cons_append, List.append_assoc, takeExponent]
      dsimp only
      rw [hsigned, if_pos hstart, takeDigits_digits_append hdigits]
    rw [hwhole]
    dsimp only
    rw [hfraction]
    dsimp only
    rw [hexponent]
    exact ⟨takeDigits_length_le rest, takeDigits_length_le rest⟩

/-- Of a text that starts with a numeral of the grammar no more is left than what follows it. -/
theorem length_scan_le {numeral : List Char} (h : IsNumeral numeral) (rest : List Char) :
    (scan (numeral ++ rest)).2.length ≤ rest.length := by
  obtain ⟨hsign, hmagnitude, hexponent⟩ := h
  next sign magnitude exponent =>
  obtain ⟨hafterFraction, hafterWhole⟩ := length_takeExponent_le hexponent rest
  -- The sign is taken first, and the parts of the magnitude then take what is theirs.
  have hsigned := takeSign_append hsign hmagnitude (exponent ++ rest)
  unfold scan
  dsimp only
  rw [List.append_assoc, List.append_assoc, hsigned]
  cases hmagnitude with
  | whole hdigits =>
    rw [takeDigits_digits_append hdigits]
    exact hafterWhole
  | places hdigits hfraction =>
    rw [List.append_assoc, takeDigits_digits_append hdigits, List.cons_append, takeDigits_point]
    dsimp only
    rw [takeFraction_append hfraction]
    exact hafterFraction
  | fraction hfraction =>
    rw [List.cons_append, takeDigits_point]
    dsimp only
    rw [takeFraction_append hfraction]
    exact hafterFraction

/-- No numeral of the grammar in front of a text is longer than the one that is taken. -/
theorem prefix_of_isNumeral {text numeral other : List Char}
    (htext : text = numeral ++ (scan text).2) (hother : IsNumeral other) (h : other <+: text) :
    other <+: numeral := by
  refine List.prefix_of_prefix_length_le h ⟨_, htext.symm⟩ ?_
  obtain ⟨rest, rfl⟩ := h
  have hlength := length_scan_le hother rest
  have htotal := congrArg List.length htext
  rw [List.length_append, List.length_append] at htotal
  omega

/-- Of the numerals of the grammar in front of a text the longest, which all others start. -/
structure IsLongestNumeral (numeral text : List Char) : Prop where
  isNumeral : IsNumeral numeral
  isPrefix : numeral <+: text
  longest : ∀ other, IsNumeral other → other <+: text → other <+: numeral

/-- The longest numeral is taken off a text, and on its own it is the same decimal. -/
theorem exists_isLongestNumeral {text : List Char} (h : startsNumeral text = true) :
    ∃ numeral, IsLongestNumeral numeral text ∧ text = numeral ++ (scan text).2 ∧
      scan numeral = ((scan text).1, []) := by
  obtain ⟨numeral, hnumeral, htext, hscan⟩ := exists_scan h
  exact ⟨numeral, ⟨hnumeral, ⟨_, htext.symm⟩, fun other => prefix_of_isNumeral htext⟩, htext, hscan⟩

/-- Digits start a numeral. -/
theorem startsNumeral_of_areDigits {digits : List Char} (hdigits : AreDigits digits)
    (rest : List Char) : (match digits ++ rest with
      | '.' :: rest => startsWithDigit rest
      | rest => startsWithDigit rest) = true := by
  cases digits with
  | nil => exact absurd rfl hdigits.ne_nil
  | cons c digits =>
    have hc := hdigits.isDigit c List.mem_cons_self
    split
    · next heq =>
      rw [(List.cons.inj heq).1] at hc
      cases hc
    · exact hc

/-- A numeral starts a text exactly where one of the grammar stands in front of it. -/
theorem startsNumeral_iff {text : List Char} :
    startsNumeral text = true ↔ ∃ numeral, IsNumeral numeral ∧ numeral <+: text := by
  constructor
  · intro h
    obtain ⟨numeral, hnumeral, htext, -⟩ := exists_scan h
    exact ⟨numeral, hnumeral, _, htext.symm⟩
  · -- The sign of the numeral is taken, and its magnitude starts with what is looked for.
    rintro ⟨-, ⟨hsign, hmagnitude, hexponent⟩, rest, rfl⟩
    next sign magnitude exponent =>
    have hsigned := takeSign_append hsign hmagnitude (exponent ++ rest)
    rw [startsNumeral, List.append_assoc, List.append_assoc, hsigned]
    cases hmagnitude with
    | whole hdigits => exact startsNumeral_of_areDigits hdigits _
    | places hdigits _ =>
      rw [List.append_assoc]
      exact startsNumeral_of_areDigits hdigits _
    | fraction hfraction => exact hfraction.startsWithDigit _

/-! ## Reading what was taken -/

/-- A text that is a numeral to its end is read as the decimal that is taken off it. -/
theorem ofText?_of_scan {text : List Char} {d : Decimal} (h : startsNumeral text = true)
    (hscan : scan text = (d, [])) : ofText? text = some d := by
  obtain ⟨part, hpart, -, -⟩ := exists_takeFraction (takeDigits (takeSign text).2).2
  have hmagnitude := isMagnitude_of_startsNumeral h hpart
  -- The parts are named, so that what is left of the text is seen to be nothing.
  obtain ⟨⟨negative, afterSign⟩, hsign⟩ : ∃ taken, takeSign text = taken := ⟨_, rfl⟩
  obtain ⟨⟨whole, afterWhole⟩, hwhole⟩ : ∃ taken, takeDigits afterSign = taken := ⟨_, rfl⟩
  obtain ⟨⟨fraction, afterFraction⟩, hfraction⟩ : ∃ taken, takeFraction afterWhole = taken :=
    ⟨_, rfl⟩
  obtain ⟨⟨exponent, rest⟩, hexponent⟩ : ∃ taken, takeExponent afterFraction = taken := ⟨_, rfl⟩
  simp only [scan, hsign, hwhole, hfraction, hexponent, Prod.mk.injEq] at hscan
  simp only [hsign, hwhole, hfraction] at hpart hmagnitude
  obtain ⟨hd, rfl⟩ := hscan
  -- A magnitude has digits in front of the point or behind it.
  have hnonempty : (whole.isEmpty && fraction.isEmpty) = false := by
    rw [Bool.and_eq_false_iff, List.isEmpty_eq_false_iff, List.isEmpty_eq_false_iff]
    rcases hpart with ⟨rfl, -⟩ | ⟨hdigits, -⟩
    · obtain ⟨c, tail, heq, -⟩ := hmagnitude.exists_cons
      rw [List.append_nil] at heq
      exact .inl (heq ▸ List.cons_ne_nil c tail)
    · exact .inr hdigits.ne_nil
  have hdecimal : (if ([] : List Char).isEmpty && !(whole.isEmpty && fraction.isEmpty) then
      some (⟨negative, ofDigits (whole ++ fraction), exponent - fraction.length⟩ : Decimal)
      else none) = some d := by
    rw [hnonempty, hd]
    rfl
  unfold ofText?
  simp only [hsign, hwhole]
  split
  · -- Nothing is left, so the point has digits behind it.
    next after =>
    by_cases hdigit : startsWithDigit after = true
    · rw [takeFraction, if_pos hdigit] at hfraction
      rw [hfraction]
      dsimp only
      rw [hexponent]
      exact hdecimal
    · rw [takeFraction, if_neg hdigit] at hfraction
      obtain ⟨rfl, rfl⟩ := Prod.mk.inj hfraction
      cases hexponent
  · next hnot =>
    rw [takeFraction_of_not fun after heq => absurd heq (hnot after)] at hfraction
    obtain ⟨rfl, rfl⟩ := Prod.mk.inj hfraction
    rw [hexponent]
    exact hdecimal

end CssColor.Decimal

namespace CssColor.Scalar

open Decimal

variable {K : Type} [Scalar K]

/-- A text that is a numeral to its end is read as a number: it is not the name of a non-finite
value. -/
theorem ofText_of_scan {text : List Char} {d : Decimal} (h : startsNumeral text = true)
    (hscan : scan text = (d, [])) : ofText (String.ofList text) = .ok (d.toNumber : K) := by
  have hdecimal := ofText?_of_scan h hscan
  obtain ⟨⟨negative, afterSign⟩, hsign⟩ : ∃ taken, takeSign text = taken := ⟨_, rfl⟩
  -- Behind the sign stands a digit or the point.
  obtain ⟨c, tail, rfl, hc⟩ : ∃ c tail, afterSign = c :: tail ∧ (c.isDigit = true ∨ c = '.') := by
    rw [startsNumeral, hsign] at h
    cases afterSign with
    | nil => cases h
    | cons c tail =>
      refine ⟨c, tail, rfl, ?_⟩
      dsimp only at h
      split at h
      · next heq => exact .inr (List.cons.inj heq).1
      · exact .inl h
  have hlower : c.toLower = c := by
    rcases hc with hc | rfl
    · exact Token.toLower_of_isDigit hc
    · rfl
  -- The names of the values that are not finite start with letters.
  have hname : ∀ {name : String} {first : Char}, name.toList.head? = some first →
      first.isDigit = false → first ≠ '.' →
      String.ofList ((c :: tail).map Char.toLower) ≠ name := by
    rintro name first hfirst hletter hpoint rfl
    rw [String.toList_ofList, List.map_cons, List.head?_cons, Option.some.injEq, hlower] at hfirst
    subst hfirst
    rcases hc with hc | hc
    · rw [hc] at hletter
      cases hletter
    · exact hpoint hc
  unfold ofText
  rw [String.toList_ofList, hsign, hdecimal]
  dsimp only
  split
  · next heq => exact absurd heq (hname rfl rfl (by decide))
  · next heq => exact absurd heq (hname rfl rfl (by decide))
  · next heq => exact absurd heq (hname rfl rfl (by decide))
  · rfl

end CssColor.Scalar
