import CssColor.Proofs.Number.Exact
import CssColor.Proofs.Value.FixedPoint
import CssColor.Proofs.Value.LetterCase

/-!
# Hexadecimal digits and texts of four bytes

A colour that stands for four bytes (`Color.StandsFor`) is written with the digits of the bytes, and
its text in the legacy notation is read as a colour that stands for the same bytes, since the
alpha is written with as many places as its byte needs. So hexadecimal digits come back from the
text of their colour, in lower case and in their full length (`resolve_hexDigits`). Numbers are
exact.
-/

namespace CssColor

open Token Rule Extended

/-! ## Digits -/

/-- The hexadecimal digits, letters in both cases. -/
def Token.hexDigits : List Char := "0123456789abcdefABCDEF".toList

/-- The hexadecimal digits are listed. -/
theorem Token.mem_hexDigits {c : Char} (h : isHexDigit c = true) : c ∈ hexDigits := by
  have hall : ∀ n < 128, isHexDigit (Char.ofNat n) = true → Char.ofNat n ∈ hexDigits := by
    decide +kernel
  have hbound : c.toNat < 128 := by
    unfold isHexDigit hexValue? at h
    by_contra hlarge
    have hnone : c.isDigit = false ∧ ('a' ≤ c && c ≤ 'f') = false ∧
        ('A' ≤ c && c ≤ 'F') = false := by
      simp [Char.isDigit, Char.le_def, UInt32.le_iff_toNat_le, ← Char.toNat_val] at hlarge ⊢
      omega
    rw [hnone.1, hnone.2.1, hnone.2.2] at h
    cases h
  rw [← Char.ofNat_toNat c] at h ⊢
  exact hall c.toNat hbound h

/-- A check of every digit is a check of the character. -/
theorem Token.of_all_hexDigits {P : Char → Bool} (hall : hexDigits.all P = true) {c : Char}
    (h : isHexDigit c = true) : P c = true :=
  List.all_eq_true.1 hall c (mem_hexDigits h)

/-- The eight digits that three, four, six or eight digits stand for. In the short forms each digit
stands for two, and without an alpha the colour is opaque. -/
def fullDigits? : List Char → Option (List Char)
  | [r, g, b] => some [r, r, g, g, b, b, 'f', 'f']
  | [r, g, b, a] => some [r, r, g, g, b, b, a, a]
  | [r, r', g, g', b, b'] => some [r, r', g, g', b, b', 'f', 'f']
  | [r, r', g, g', b, b', a, a'] => some [r, r', g, g', b, b', a, a']
  | _ => none

/-- The text of four bytes. -/
def Rgba.text (digits : Rgba) : String :=
  "#" ++ hexByte digits.red ++ hexByte digits.green ++ hexByte digits.blue ++ hexByte digits.alpha

namespace ColorValue

/-- Two digits are the digits of their byte, but for their case. -/
theorem hexByte_byteOfDigits {high low : Char} (hhigh : isHexDigit high = true)
    (hlow : isHexDigit low = true) :
    hexByte (byteOfDigits high low) = String.ofList (foldCase [high, low]) := by
  have hall : (hexDigits.all fun high => hexDigits.all fun low => decide
      ((Nat.toDigits 16 (byteOfDigits high low).toNat).leftpad 2 '0' = foldCase [high, low])) =
        true := by
    decide +kernel
  exact congrArg String.ofList (of_decide_eq_true
    (of_all_hexDigits (of_all_hexDigits hall hhigh) hlow))

/-- The digits of a colour are read as bytes that are written with the same digits in full. -/
theorem exists_ofHexDigits? {digits full : List Char} (hdigits : ∀ c ∈ digits, isHexDigit c = true)
    (hfull : fullDigits? digits = some full) :
    ∃ bytes, ofHexDigits? digits = some bytes ∧
      bytes.text = String.ofList ('#' :: foldCase full) := by
  have hbyte : ∀ high ∈ digits, ∀ low ∈ digits,
      hexByte (byteOfDigits high low) = String.ofList (foldCase [high, low]) :=
    fun high hhigh low hlow => hexByte_byteOfDigits (hdigits high hhigh) (hdigits low hlow)
  have hopaque : hexByte 255 = String.ofList (foldCase ['f', 'f']) := rfl
  unfold ofHexDigits? Rgba.text
  rw [if_pos (List.all_eq_true.2 hdigits)]
  unfold fullDigits? at hfull
  -- Three, four, six or eight digits.
  split at hfull
  all_goals cases hfull
  all_goals
    refine ⟨_, rfl, ?_⟩
    rw [← String.toList_inj]
    simp [hbyte, hopaque]

section Reading

variable {K : Type} [Scalar K] {digits : List Char} {bytes : Rgba}

/-- Digits behind a hash are read as a colour. -/
theorem exists_writes_hex (h : ofHexDigits? digits = some bytes) :
    ∃ kind, Writes (String.ofList ('#' :: digits)) [Token.hash (String.ofList digits) kind]
      (hex bytes : ColorValue K) := by
  -- Only digits are read as bytes, and they are name characters.
  have hdigits : ∀ c ∈ digits, isHexDigit c = true := by
    unfold ofHexDigits? at h
    split at h
    · next hall => exact List.all_eq_true.1 hall
    · cases h
  have hname : ∀ c ∈ digits, isNameChar c = true := fun c hc =>
    of_all_hexDigits (by decide) (hdigits c hc)
  cases digits with
  | nil => cases h
  | cons c digits =>
    -- A digit is neither a hyphen nor an escape, so the kind of the name is known from it alone.
    have hc : c ≠ '-' ∧ c ≠ '\\' := of_decide_eq_true
      (of_all_hexDigits (P := fun c => decide (c ≠ '-' ∧ c ≠ '\\')) (by decide)
        (hdigits c List.mem_cons_self))
    have hstarts : ∀ rest, startsName (c :: rest) = isNameStart c := fun rest =>
      startsName.eq_5 _ _ (fun _ h => absurd h hc.1) (fun _ h => absurd h hc.1)
        (fun _ _ h => absurd h hc.1) hc.2
    obtain ⟨kind, hkind⟩ : ∃ kind : HashKind, kind = if isNameStart c then .id else .unrestricted :=
      ⟨_, rfl⟩
    refine ⟨kind, ⟨?_, by rw [String.toList_ofList]; rfl⟩, ?_, ?_⟩
    · refine spells_of_next? rfl fun rest hrest => ?_
      rw [String.toList_ofList]
      have htake := takeName_append hname (continuesName_of_endsWord hrest)
      have hcontinues : continuesName (c :: digits ++ rest) = true := by
        rw [List.cons_append, continuesName, hname c List.mem_cons_self]
        rfl
      show some (takeAfter '#' (c :: digits ++ rest)) = _
      unfold takeAfter
      rw [hcontinues, htake, List.cons_append, hstarts, hkind]
      rfl
    · rw [unlimitedRule_eq]
      have htoken : Reads nextSolid [(Token.hash (String.ofList (c :: digits)) kind : Token K)] _ :=
        reads_nextSolid rfl
      refine htoken.bind (?_ : Reads _ [] _)
      intro rest
      show (do return hex (← Rule.ofOption (ofHexDigits? (String.ofList (c :: digits)).toList)) :
        Rule K (ColorValue K)) rest = _
      rw [String.toList_ofList, h]
      rfl
    · intro token htoken
      rw [List.mem_singleton.1 htoken]
      rfl

/-- A value that is a hash with such digits is the colour. -/
theorem ofValue?_hex (h : ofHexDigits? digits = some bytes) (properties : Lookup String) :
    ofValue? properties (String.ofList ('#' :: digits)) = some (hex bytes : ColorValue K) := by
  obtain ⟨kind, hwrites⟩ := exists_writes_hex (K := K) h
  exact hwrites.ofValue?_eq (Nat.zero_le _) properties

end Reading

end ColorValue

/-! ## Bytes -/

namespace Extended

variable (byte : UInt8)

/-- A byte is at most 255. -/
theorem byte_le : (byte.toNat : ℚ) ≤ 255 := by
  have hlt := byte.toNat_lt
  exact_mod_cast Nat.le_of_lt_succ hlt

/-- A byte is finite. -/
theorem toFinite_byte : Scalar.toFinite (rational byte.toNat) = rational byte.toNat := by
  have hlow : (0 : ℚ) ≤ byte.toNat := Nat.cast_nonneg _
  have hhigh := byte_le byte
  exact toFinite_rational (by linarith) (by linarith)

/-- A byte lies within the range that bytes are clamped to. -/
theorem clamp_byte : Number.clamp 0.0 255.0 (rational byte.toNat) = rational byte.toNat := by
  rw [zero_eq, byteMax_eq]
  exact clamp_eq_self (Nat.cast_nonneg _) (byte_le byte)

/-- A byte is an integer. -/
theorem round_byte : Scalar.round (rational byte.toNat) = rational byte.toNat :=
  Extended.round_eq (Nat.cast_nonneg _) (by rw [sub_self, abs_zero]; norm_num)

/-- A byte is found again from its number. -/
theorem toByte_byte : Scalar.toByte (rational byte.toNat) = byte := by
  have hsign : decide ((byte.toNat : ℚ) < 0) = false :=
    decide_eq_false (not_lt.2 (Nat.cast_nonneg _))
  show (if decide ((byte.toNat : ℚ) < 0) then 0
    else UInt8.ofNat (Nat.min 255 (⌊|(byte.toNat : ℚ)|⌋).toNat)) = byte
  rw [hsign, if_neg Bool.false_ne_true, abs_of_nonneg (Nat.cast_nonneg _), Int.floor_natCast,
    Int.toNat_natCast, show Nat.min 255 byte.toNat = byte.toNat from
      min_eq_right (Nat.le_of_lt_succ byte.toNat_lt), UInt8.ofNat_toNat]

/-- A byte has few enough digits to be printed exactly. -/
theorem isPrintable_byte : IsPrintable byte.toNat := by
  have hlt := byte.toNat_lt
  exact ⟨byte.toNat, 0, by omega, by omega, by rw [zpow_zero, mul_one, Nat.abs_cast]⟩

/-- An alpha that is left out is one. -/
theorem eq_one_of_text {b : ℚ} (hb : IsPrintable b)
    (h : Scalar.text (rational b) = "1") : b = 1 := by
  have hread := Scalar.ofText_text (isFinite_rational (a := b))
  have hone : (Scalar.ofText "1" : Except NumeralError Extended) = .ok (rational 1) := by decide +kernel
  rw [h, hone, printed_rational hb, Except.ok.injEq, rational.injEq] at hread
  exact hread.symm

end Extended

/-! ## Colours of four bytes -/

section Colours

variable [Elementary Extended] {color : Color Extended} {bytes : Rgba}

/-- The color is the legacy colour of four bytes, with an alpha that is rounded to its byte. -/
def Color.StandsFor (color : Color Extended) (bytes : Rgba) : Prop :=
  ∃ a, color = .ofValues .rgb ⟨rational bytes.red.toNat, rational bytes.green.toNat,
    rational bytes.blue.toNat⟩ (rational a) ∧ 0 ≤ a ∧ a ≤ 1 ∧
      Scalar.round (rational a * 255.0) = rational bytes.alpha.toNat

omit [Elementary Extended] in
/-- The colour that four bytes resolve to stands for them. -/
theorem standsFor_ofRgba (bytes : Rgba) :
    (Resolved.ofRgba bytes : Resolved Extended).color.StandsFor bytes := by
  have hlow : (0 : ℚ) ≤ bytes.alpha.toNat := Nat.cast_nonneg _
  have hhigh := byte_le bytes.alpha
  have halpha : (Scalar.ofByte bytes.alpha / 255.0 : Extended) =
      rational (bytes.alpha.toNat / 255) := by
    rw [byteMax_eq]
    exact rational_div (by norm_num)
  refine ⟨bytes.alpha.toNat / 255, ?_, by positivity, (div_le_one (by norm_num)).2 hhigh, ?_⟩
  · unfold Resolved.ofRgba
    rw [halpha]
    rfl
  · rw [byteMax_eq, rational_mul, div_mul_cancel₀ _ (by norm_num), round_byte]

namespace Color.StandsFor

omit [Elementary Extended] in
/-- A colour of bytes is a legacy one. -/
theorem isLegacy (h : color.StandsFor bytes) : color.space.isLegacy = true := by
  obtain ⟨a, rfl, -⟩ := h
  rfl

omit [Elementary Extended] in
/-- A colour of bytes has no numbers that are not finite. -/
theorem toFinite_eq (h : color.StandsFor bytes) : color.toFinite = color := by
  obtain ⟨a, rfl, hlow, hhigh, -⟩ := h
  show ofValues .rgb ⟨Scalar.toFinite (rational bytes.red.toNat),
    Scalar.toFinite (rational bytes.green.toNat), Scalar.toFinite (rational bytes.blue.toNat)⟩
      (Scalar.toFinite (rational a)) = _
  rw [toFinite_byte, toFinite_byte, toFinite_byte, toFinite_rational (by linarith) (by linarith)]

/-- A colour of bytes is not converted, and no component of it is missing. -/
theorem legacyValues_eq (h : color.StandsFor bytes) : color.legacyValues = color := by
  have hfinite := h.toFinite_eq
  obtain ⟨a, rfl, -⟩ := h
  exact hfinite

/-- A colour that stands for four bytes is written with their digits. -/
theorem hex?_eq (h : color.StandsFor bytes) : color.hex? true = some bytes.text := by
  have hvalues := h.legacyValues_eq
  obtain ⟨a, rfl, hlow, hhigh, halpha⟩ := h
  unfold hex? hex
  rw [hvalues]
  show some ("#" ++ hexByte (Scalar.toByte (Scalar.round (Number.clamp 0.0 255.0
      (rational bytes.red.toNat))))
    ++ hexByte (Scalar.toByte (Scalar.round (Number.clamp 0.0 255.0
      (rational bytes.green.toNat))))
    ++ hexByte (Scalar.toByte (Scalar.round (Number.clamp 0.0 255.0
      (rational bytes.blue.toNat))))
    ++ hexByte (Scalar.toByte (Scalar.round
      (Number.clamp 0.0 1.0 (rational a) * 255.0)))) = _
  rw [clamp_byte, clamp_byte, clamp_byte, round_byte, round_byte, round_byte, toByte_byte,
    toByte_byte, toByte_byte, zero_eq, one_eq, clamp_eq_self hlow hhigh, halpha, toByte_byte]
  rfl

/-- The numbers in the text are the bytes. -/
theorem bytes_eq (h : color.StandsFor bytes) : color.bytes =
    ⟨rational bytes.red.toNat, rational bytes.green.toNat, rational bytes.blue.toNat⟩ := by
  unfold Color.bytes
  rw [h.legacyValues_eq]
  obtain ⟨a, rfl, -⟩ := h
  show (⟨Scalar.round (Number.clamp 0.0 255.0 (rational bytes.red.toNat)),
    Scalar.round (Number.clamp 0.0 255.0 (rational bytes.green.toNat)),
    Scalar.round (Number.clamp 0.0 255.0 (rational bytes.blue.toNat))⟩ : Triple Extended) = _
  rw [clamp_byte, clamp_byte, clamp_byte, round_byte, round_byte, round_byte]

/-- The numbers in the text are finite. -/
theorem isFinite_bytes (h : color.StandsFor bytes) (index : Index) :
    Scalar.isFinite (color.bytes.get index) = true := by
  rw [h.bytes_eq]
  cases index <;> exact isFinite_rational

/-- The alpha in the text is rounded to the same byte. -/
theorem exists_byteAlpha_eq (h : color.StandsFor bytes) : ∃ b : ℚ, color.byteAlpha = rational b ∧
    0 ≤ b ∧ b ≤ 1 ∧ IsPrintable b ∧
      Scalar.round (rational b * 255.0) = rational bytes.alpha.toNat := by
  have hbyte : bytes.alpha.toNat ≤ 255 := Nat.le_of_lt_succ bytes.alpha.toNat_lt
  obtain ⟨k, j, hj, hk, hvalue, hround⟩ := exists_alphaOfByte hbyte
  refine ⟨k / 10 ^ j, ?_, by positivity, hk, isPrintable_places hj hk, hround⟩
  unfold Color.byteAlpha
  rw [h.legacyValues_eq]
  obtain ⟨a, rfl, hlow, hhigh, halpha⟩ := h
  show alphaOfByte (Scalar.round (Number.clamp 0.0 1.0 (rational a) * 255.0)) = _
  rw [zero_eq, one_eq, clamp_eq_self hlow hhigh, halpha, hvalue]

/-- The alpha in the text is finite. -/
theorem isFinite_byteAlpha (h : color.StandsFor bytes) :
    Scalar.isFinite color.byteAlpha = true := by
  obtain ⟨b, hvalue, -⟩ := h.exists_byteAlpha_eq
  rw [hvalue]
  exact isFinite_rational

/-- The text of the colour is read as a colour that stands for the same bytes. -/
theorem rereadLegacy (h : color.StandsFor bytes) : color.rereadLegacy.StandsFor bytes := by
  have hbyte : ∀ byte : UInt8, Scalar.toFinite (Scalar.printed (rational byte.toNat)) =
      rational byte.toNat := fun byte => by
    rw [printed_rational (isPrintable_byte byte), toFinite_byte]
  -- The alpha is left out only where it is one.
  obtain ⟨b, hvalue, hlow, hhigh, hprintable, hround⟩ := h.exists_byteAlpha_eq
  have halpha : color.rereadLegacy.alpha = some (rational b) := by
    unfold Color.rereadLegacy writtenByteAlpha
    rw [hvalue]
    by_cases hopaque : Scalar.text (rational b) = "1"
    · rw [if_pos hopaque, eq_one_of_text hprintable hopaque, ← one_eq]
      rfl
    · rw [if_neg hopaque]
      show some (Number.clamp 0.0 1.0 (Scalar.toFinite (Scalar.printed (rational b)))) = _
      rw [printed_rational hprintable, toFinite_rational (by linarith) (by linarith), zero_eq,
        one_eq, clamp_eq_self hlow hhigh]
  refine ⟨b, ?_, hlow, hhigh, hround⟩
  -- The other components are read back as the bytes they were.
  rw [ofValues, ← halpha]
  unfold Color.rereadLegacy
  rw [h.bytes_eq]
  show (⟨.rgb, ⟨some (Scalar.toFinite (Scalar.printed (rational bytes.red.toNat))),
    some (Scalar.toFinite (Scalar.printed (rational bytes.green.toNat))),
    some (Scalar.toFinite (Scalar.printed (rational bytes.blue.toNat)))⟩, _⟩ : Color Extended) = _
  rw [hbyte, hbyte, hbyte]
  rfl

end Color.StandsFor

/-! ## Texts -/

/-- A value that resolves to a colour of four bytes gives their digits, and a text that stands for
the same bytes. -/
theorem Color.StandsFor.resolve_eq {value : String} {tree : ColorValue Extended}
    {legacy : Bool} {options : Options Extended} (h : color.StandsFor bytes)
    (hvalue : ColorValue.ofValue? options.properties value = some tree)
    (hkeyword : tree.isCurrentColor = false)
    (hresolved : tree.resolve options = some ⟨color, legacy⟩) :
    (options.format = .hexAlpha → (resolve value options).asText? = some bytes.text) ∧
      (options.format = .computed → (resolve value options).asText? = some color.legacyText) := by
  -- The colour is not the current one, so it is the format that tells what comes out.
  have houtput : resolveUnkeyed value options =
      (options.format.output? options tree).getD options.format.placeholder := by
    unfold resolveUnkeyed
    rw [hvalue]
    dsimp only
    rw [hkeyword]
    rfl
  rw [asText?_resolve, houtput]
  constructor
  · intro hformat
    rw [hformat]
    show (((tree.resolve options).map fun resolved =>
      Output.ofText? (resolved.color.hex? true)).getD _).asText? = _
    rw [hresolved, Option.map_some, h.hex?_eq]
    rfl
  · intro hformat
    rw [hformat]
    show (((tree.resolve options).map fun resolved =>
      Output.text resolved.color.text).getD _).asText? = _
    rw [hresolved, Option.map_some, Color.text_of_isLegacy h.isLegacy, h.toFinite_eq]
    rfl

/-- Hexadecimal digits come back from the text of their colour, in lower case and in their full
length, and directly; and what is written of an alpha is rounded to the byte of the alpha. -/
theorem resolve_hexDigits :
    (∀ (digits full : List Char) (options : Options Extended),
      (∀ c ∈ digits, isHexDigit c = true) → fullDigits? digits = some full →
      (resolve (String.ofList ('#' :: digits)) { options with format := .hexAlpha }).asText? =
        some (String.ofList ('#' :: foldCase full)) ∧
      ∃ text, (resolve (String.ofList ('#' :: digits))
          { options with format := .computed }).asText? = some text ∧
        (resolve text { options with format := .hexAlpha }).asText? =
          some (String.ofList ('#' :: foldCase full))) ∧
    ∀ alpha : ℚ, ∃ reread : ℚ,
      Scalar.ofText (legacyAlphaText (rational alpha)) = .ok (rational reread) ∧
      Token.scan (legacyAlphaText (rational alpha)).toList = [Token.number (rational reread)] ∧
      Scalar.round (rational reread * 255.0) =
        Scalar.round (Number.clamp 0.0 1.0 (rational alpha) * 255.0) := by
  constructor
  · intro digits full options hdigits hfull
    obtain ⟨bytes, hbytes, htext⟩ := ColorValue.exists_ofHexDigits? hdigits hfull
    have hvalue : ∀ format : Format, ColorValue.ofValue?
        ({ options with format := format } : Options Extended).properties
          (String.ofList ('#' :: digits)) = some (.hex bytes : ColorValue Extended) :=
      fun _ => ColorValue.ofValue?_hex hbytes _
    have hstands := standsFor_ofRgba bytes
    rw [← htext]
    refine ⟨(hstands.resolve_eq (hvalue .hexAlpha) rfl rfl).1 rfl, _,
      (hstands.resolve_eq (hvalue .computed) rfl rfl).2 rfl, ?_⟩
    -- The computed text is read back as a colour that stands for the same bytes.
    obtain ⟨htree, hcolor⟩ := resolve_of_writes
      (ColorValue.writes_legacyText hstands.isFinite_bytes hstands.isFinite_byteAlpha)
      (by rw [nesting_legacyCall]; decide)
      (Arguments.resolve_legacyArguments _ []
        ({ options with format := .hexAlpha } : Options Extended).dimensions)
    exact (hstands.rereadLegacy.resolve_eq htree rfl hcolor).1 rfl
  · -- The alpha is printed as a short decimal, which is rounded to its byte again.
    intro alpha
    obtain ⟨n, hn, hbyte⟩ := exists_byte_of_alpha alpha
    obtain ⟨k, j, hj, hk, hvalue, hround⟩ := exists_alphaOfByte hn
    rw [legacyAlphaText_eq, hbyte, hvalue]
    have hread := Scalar.ofText_text (isFinite_rational (a := k / 10 ^ j))
    have hscan := Token.scan_text (isFinite_rational (a := k / 10 ^ j))
    rw [printed_rational (isPrintable_places hj hk)] at hread hscan
    exact ⟨k / 10 ^ j, hread, hscan, hround⟩

end Colours

/-- Three digits in different cases. No power, root or angle is needed. -/
theorem resolve_hexDigits_short :
    let _ : Elementary Extended := ⟨fun _ _ => .nan, fun _ => .nan, fun _ _ => .nan,
      fun _ _ => .nan, fun _ => .nan, fun _ => .nan⟩
    (∀ c ∈ ['F', '0', 'a'], isHexDigit c = true) ∧
      fullDigits? ['F', '0', 'a'] = some ['F', 'F', '0', '0', 'a', 'a', 'f', 'f'] ∧
      (resolve "#F0a" ({ format := .hexAlpha } : Options Extended)).asText? = some "#ff00aaff" ∧
      ∃ text, (resolve "#F0a" ({} : Options Extended)).asText? = some text ∧
        (resolve text ({ format := .hexAlpha } : Options Extended)).asText? =
          some "#ff00aaff" := by
  intro _
  have hdigits : ∀ c ∈ ['F', '0', 'a'], isHexDigit c = true := List.all_eq_true.1 rfl
  exact ⟨hdigits, rfl, resolve_hexDigits.1 ['F', '0', 'a'] _ {} hdigits rfl⟩

end CssColor
