import CssColor.Number.Decimal
import Mathlib.Tactic.Ring

/-!
# Numerals that are read back

The text of a decimal is a numeral that reads as the same decimal (`Decimal.scan_text`), whatever
follows it, unless that could go on with the numeral (`Decimal.EndsNumeral`).
-/

namespace CssColor.Decimal

/-! ## Digits -/

/-- Digits are read as the library reads them. -/
theorem ofDigits_eq (digits : List Char) : ofDigits digits = Nat.ofDigitChars 10 digits 0 := by
  rw [Nat.ofDigitChars_eq_foldl, ofDigits]
  simp only [Nat.mul_comm]

/-- Digits with more digits behind them. -/
theorem ofDigits_append (whole fraction : List Char) :
    ofDigits (whole ++ fraction) = ofDigits whole * 10 ^ fraction.length + ofDigits fraction := by
  rw [ofDigits_eq, ofDigits_eq, ofDigits_eq, Nat.ofDigitChars_append,
    Nat.ofDigitChars_eq_ofDigitChars_zero, Nat.mul_comm]

/-- The digits of a number are read as the number. -/
theorem ofDigits_toDigits (n : ℕ) : ofDigits (Nat.toDigits 10 n) = n := by
  rw [ofDigits_eq, Nat.ofDigitChars_ten_toDigits]

/-- Zeros in front of the digits do not count. -/
theorem ofDigits_leftpad (places n : ℕ) :
    ofDigits ((Nat.toDigits 10 n).leftpad places '0') = n := by
  rw [ofDigits_eq, List.leftpad, Nat.ofDigitChars_append, Nat.ofDigitChars_replicate_zero,
    Nat.mul_zero, Nat.ofDigitChars_ten_toDigits]

/-- The digits of a number are digits. -/
theorem isDigit_of_mem_toDigits {n : ℕ} {c : Char} (h : c ∈ Nat.toDigits 10 n) :
    c.isDigit = true :=
  Nat.isDigit_of_mem_toDigits (Nat.succ_pos 9) le_rfl h

/-- So are the zeros in front of them. -/
theorem isDigit_of_mem_leftpad {places n : ℕ} {c : Char}
    (h : c ∈ (Nat.toDigits 10 n).leftpad places '0') : c.isDigit = true := by
  rcases List.mem_append.1 h with h | h
  · rw [List.eq_of_mem_replicate h]
    rfl
  · exact isDigit_of_mem_toDigits h

/-- A number has at least one digit. -/
theorem exists_toDigits_eq_cons (n : ℕ) :
    ∃ c digits, Nat.toDigits 10 n = c :: digits ∧ c.isDigit = true := by
  cases h : Nat.toDigits 10 n with
  | nil => exact absurd h Nat.toDigits_ne_nil
  | cons c digits => exact ⟨c, digits, rfl, isDigit_of_mem_toDigits (h ▸ List.mem_cons_self)⟩

/-- Digits are taken up to what is not a digit. -/
theorem takeDigits_append {digits rest : List Char} (hdigits : ∀ c ∈ digits, c.isDigit = true)
    (hrest : startsWithDigit rest = false) : takeDigits (digits ++ rest) = (digits, rest) := by
  have hstop : rest.takeWhile Char.isDigit = [] ∧ rest.dropWhile Char.isDigit = rest := by
    cases rest with
    | nil => exact ⟨rfl, rfl⟩
    | cons c rest =>
      have hc : c.isDigit = false := hrest
      exact ⟨List.takeWhile_cons_of_neg (by simp [hc]), List.dropWhile_cons_of_neg (by simp [hc])⟩
  rw [takeDigits, List.takeWhile_append_of_pos hdigits, List.dropWhile_append_of_pos hdigits,
    hstop.1, hstop.2, List.append_nil]

/-! ## Numerals -/

/-- A text that does not go on with the numeral in front of it. -/
structure EndsNumeral (rest : List Char) : Prop where
  digit : startsWithDigit rest = false
  fraction : takeFraction rest = ([], rest)
  exponent : takeExponent rest = (0, rest)

/-- Only two characters are signs. -/
theorem takeSign_of_ne {c : Char} (hplus : c ≠ '+') (hdash : c ≠ '-') (rest : List Char) :
    takeSign (c :: rest) = (false, c :: rest) := by
  rw [takeSign]
  · rintro rest' heq
    exact hplus (List.cons.inj heq).1
  · rintro rest' heq
    exact hdash (List.cons.inj heq).1

/-- A digit is not a sign. -/
theorem takeSign_of_isDigit {c : Char} (h : c.isDigit = true) (rest : List Char) :
    takeSign (c :: rest) = (false, c :: rest) := by
  refine takeSign_of_ne ?_ ?_ rest
  · rintro rfl
    cases h
  · rintro rfl
    cases h

/-- The magnitude of a decimal is written as a whole number, or as a whole number and a fraction. -/
theorem magnitudeText_eq {d : Decimal} (h : d.exponent ≤ 0) :
    (d.exponent = 0 ∧ d.magnitudeText.toList = Nat.toDigits 10 d.digits) ∨
      ∃ whole fraction, fraction ≠ [] ∧ (∀ c ∈ fraction, c.isDigit = true) ∧
        d.magnitudeText.toList = Nat.toDigits 10 whole ++ '.' :: fraction ∧
        whole * 10 ^ fraction.length + ofDigits fraction = d.digits ∧
        d.exponent = -(fraction.length : ℤ) := by
  obtain ⟨negative, digits, exponent⟩ := d
  obtain ⟨places, rfl⟩ : ∃ places : ℕ, exponent = -places :=
    ⟨exponent.natAbs, by dsimp at h; omega⟩
  cases places with
  -- Without places the digits are written as they are.
  | zero =>
    refine .inl ⟨rfl, ?_⟩
    show (Nat.repr (digits * Nat.pow 10 0)).toList = _
    rw [Nat.pow_eq, pow_zero, mul_one, Nat.repr, String.toList_ofList]
  | succ n =>
    -- The digits are split where the point stands, and those behind it are filled up with zeros.
    obtain ⟨unit, hunit⟩ : ∃ unit, unit = 10 ^ (n + 1) := ⟨_, rfl⟩
    have hlt : digits % unit < 10 ^ (n + 1) := by
      rw [hunit]
      exact Nat.mod_lt _ (Nat.pow_pos (Nat.succ_pos 9))
    have hlength : ((Nat.toDigits 10 (digits % unit)).leftpad (n + 1) '0').length = n + 1 := by
      rw [List.length_leftpad, max_eq_left]
      exact (Nat.length_toDigits_le_iff (Nat.lt_of_sub_eq_succ rfl) (Nat.succ_pos n)).2 hlt
    refine .inr ⟨digits / unit, (Nat.toDigits 10 (digits % unit)).leftpad (n + 1) '0', ?_,
      fun c => isDigit_of_mem_leftpad, ?_, ?_, ?_⟩
    · refine List.ne_nil_of_length_pos ?_
      rw [hlength]
      exact Nat.succ_pos n
    · show (Nat.repr (digits / Nat.pow 10 (n + 1)) ++ "." ++
        placesText (n + 1) (digits % Nat.pow 10 (n + 1))).toList = _
      simp only [String.toList_append, Nat.repr, placesText, String.toList_ofList, Nat.pow_eq,
        ← hunit, List.append_assoc]
      rfl
    · rw [hlength, ofDigits_leftpad, ← hunit]
      exact Nat.div_add_mod' digits unit
    · rw [hlength]

/-- The digits and places of a decimal are read back from its magnitude. -/
theorem takeMagnitude_text {d : Decimal} (h : d.exponent ≤ 0) {rest : List Char}
    (hrest : EndsNumeral rest) :
    ∃ whole fraction after, takeDigits (d.magnitudeText.toList ++ rest) = (whole, after) ∧
      takeFraction after = (fraction, rest) ∧ ofDigits (whole ++ fraction) = d.digits ∧
      d.exponent = -(fraction.length : ℤ) := by
  -- The text of a magnitude is an integer, or has a point with digits on both sides.
  rcases magnitudeText_eq h with
    ⟨hexponent, htext⟩ | ⟨whole, fraction, hne, hfraction, htext, hdigits, hexponent⟩
  · refine ⟨Nat.toDigits 10 d.digits, [], rest, ?_, hrest.fraction, ?_, hexponent⟩
    · rw [htext]
      exact takeDigits_append (fun c => isDigit_of_mem_toDigits) hrest.digit
    · rw [List.append_nil, ofDigits_toDigits]
  · refine ⟨Nat.toDigits 10 whole, fraction, '.' :: (fraction ++ rest), ?_, ?_, ?_, hexponent⟩
    · rw [htext, List.append_assoc]
      exact takeDigits_append (fun c => isDigit_of_mem_toDigits) rfl
    · have hstart : startsWithDigit (fraction ++ rest) = true := by
        cases fraction with
        | nil => exact absurd rfl hne
        | cons c fraction => exact hfraction c List.mem_cons_self
      rw [takeFraction, if_pos hstart, takeDigits_append hfraction hrest.digit]
    · rw [ofDigits_append, ofDigits_toDigits, hdigits]

/-- The text of a magnitude starts with a digit. -/
theorem exists_magnitudeText_eq_cons {d : Decimal} (h : d.exponent ≤ 0) :
    ∃ c text, d.magnitudeText.toList = c :: text ∧ c.isDigit = true := by
  rcases magnitudeText_eq h with ⟨-, htext⟩ | ⟨whole, fraction, -, -, htext, -, -⟩
  · rw [htext]
    exact exists_toDigits_eq_cons _
  · obtain ⟨c, digits, hwhole, hc⟩ := exists_toDigits_eq_cons whole
    rw [htext, hwhole]
    exact ⟨c, _, rfl, hc⟩

/-- The sign of a decimal is read back. -/
theorem takeSign_text {d : Decimal} (h : d.exponent ≤ 0) (rest : List Char) :
    takeSign (d.text.toList ++ rest) = (d.negative, d.magnitudeText.toList ++ rest) := by
  obtain ⟨c, text, htext, hc⟩ := exists_magnitudeText_eq_cons h
  unfold Decimal.text
  cases hsign : d.negative with
  | true =>
    rw [if_pos rfl, String.toList_append]
    rfl
  | false =>
    rw [if_neg Bool.false_ne_true, htext, List.cons_append]
    exact takeSign_of_isDigit hc _

/-- The text of a decimal reads as the decimal. -/
theorem scan_text {d : Decimal} (h : d.exponent ≤ 0) {rest : List Char} (hrest : EndsNumeral rest) :
    scan (d.text.toList ++ rest) = (d, rest) := by
  obtain ⟨whole, fraction, after, hwhole, hfraction, hdigits, hexponent⟩ :=
    takeMagnitude_text h hrest
  unfold scan
  simp only [takeSign_text h, hwhole, hfraction, hrest.exponent, hdigits]
  rw [zero_sub, ← hexponent]

/-- The text of a decimal starts a numeral, whatever follows it. -/
theorem startsNumeral_text {d : Decimal} (h : d.exponent ≤ 0) (rest : List Char) :
    startsNumeral (d.text.toList ++ rest) = true := by
  obtain ⟨c, text, htext, hc⟩ := exists_magnitudeText_eq_cons h
  unfold startsNumeral
  rw [takeSign_text h, htext, List.cons_append]
  split
  · next heq =>
    obtain ⟨rfl, -⟩ := List.cons.inj heq
    cases hc
  · exact hc

end CssColor.Decimal
