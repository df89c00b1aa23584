import CssColor.Proofs.Number.Literal
import CssColor.Proofs.Token.Offsets

/-!
# Numerals in a text

Where a numeral starts, the longest one is taken off the text, between its offsets, and read as a
number (`Reader.takeNumeral_longest`). The values of all tokens of a text are decimals that were
read (`exists_decimal_of_mem_scan`), so that none of them is undefined.
-/

namespace CssColor.Token

/-- The value of a number, a percentage or a dimension. -/
def value? {K : Type} : Token K → Option K
  | number x => some x
  | percentage x => some x
  | dimension x _ => some x
  | _ => none

section Values

variable {K : Type} [Number K] {c : Char} {x : K} {text rest : List Char} {token : Token K}

/-- Only numerals have values. -/
theorem exists_decimal_of_takeAfter (h : takeAfter c text = (token, rest))
    (hx : token.value? = some x) : ∃ d : Decimal, x = d.toNumber := by
  cases taken_of_takeAfter h with
  | number => exact ⟨_, (Option.some.inj hx).symm⟩
  | percentage => exact ⟨_, (Option.some.inj hx).symm⟩
  | dimension => exact ⟨_, (Option.some.inj hx).symm⟩
  | punctuation htoken =>
    unfold ofPunctuation? at htoken
    split at htoken <;> cases htoken <;> cases hx
  | _ => cases hx

/-- The value of a token is that of a decimal. -/
theorem exists_decimal_of_mem_scan (h : token ∈ scan text) (hx : token.value? = some x) :
    ∃ d : Decimal, x = d.toNumber := by
  induction text using scan.induct (K := K) with
  | case1 text hnone =>
    rw [scan_of_next?_none hnone] at h
    cases h
  | case2 text first rest hsome ih =>
    rw [scan_of_next?_some hsome] at h
    rcases List.mem_cons.1 h with rfl | h
    · unfold next? at hsome
      split at hsome
      · cases hsome
      · exact exists_decimal_of_takeAfter (Option.some.inj hsome) hx
    · exact ih h

end Values

namespace Reader

/-- Where a numeral starts, the reader takes exactly the longest one. Its text can be read, so that
the reader does not fall back on what is not a number, and neither it nor any token has such a
value. -/
theorem takeNumeral_longest (before text : String) :
    (Decimal.startsNumeral text.toList = true → ∃ (numeral rest : String) (x : Double),
      text = numeral ++ rest ∧ Decimal.IsLongestNumeral numeral.toList text.toList ∧
      Scalar.ofText numeral = .ok x ∧ Number.isNaN x = false ∧
      (takeNumeral (before ++ text)).run before.utf8ByteSize =
        some (x, (before ++ numeral).utf8ByteSize) ∧
      (Decimal.scan text.toList).1.toNumber = x ∧ (Decimal.scan text.toList).2 = rest.toList) ∧
    ∀ token ∈ (scan text.toList : List (Token Double)), ∀ x, token.value? = some x →
      Number.isNaN x = false := by
  constructor
  · intro h
    obtain ⟨numeral, hlongest, htext, hscan⟩ := Decimal.exists_isLongestNumeral h
    have hstart : Decimal.startsNumeral numeral = true :=
      Decimal.startsNumeral_iff.2 ⟨numeral, hlongest.isNumeral, List.prefix_rfl⟩
    have hsuffix : text.toList <:+ (before ++ text).toList :=
      ⟨before.toList, String.toList_append.symm⟩
    have hrun := (reads_takeNumeral (K := Double) hsuffix h).run_eq
    have hsplit : text = String.ofList numeral ++ String.ofList (Decimal.scan text.toList).2 := by
      rw [← String.ofList_append, ← htext, String.ofList_toList]
    -- Where the reader stops is counted in bytes, and the numeral is what it has passed.
    have hstop : offsetOf (before ++ text) (Decimal.scan text.toList).2 =
        (before ++ String.ofList numeral).utf8ByteSize := by
      have hoffset := offsetOf_append_right (before ++ String.ofList numeral)
        (String.ofList (Decimal.scan text.toList).2)
      rwa [String.append_assoc, ← hsplit, String.toList_ofList] at hoffset
    rw [offsetOf_append_right, hstop] at hrun
    refine ⟨String.ofList numeral, String.ofList (Decimal.scan text.toList).2, _, hsplit, ?_,
      Scalar.ofText_of_scan hstart hscan, Double.isNaN_toNumber _, hrun, rfl, ?_⟩
    · rw [String.toList_ofList]
      exact hlongest
    · rw [String.toList_ofList]
  · intro token htoken x hx
    obtain ⟨d, rfl⟩ := exists_decimal_of_mem_scan htoken hx
    exact Double.isNaN_toNumber d

/-- The letter is left where no exponent follows it. -/
theorem takeNumeral_longest_unit : Decimal.startsNumeral "1.5e+px".toList = true ∧
    ∃ x : Double, (takeNumeral ("é" ++ "1.5e+px")).run 2 = some (x, 5) := by
  have hstart : Decimal.startsNumeral "1.5e+px".toList = true := by decide
  obtain ⟨numeral, rest, x, htext, -, -, -, hrun, -, hrest⟩ :=
    (takeNumeral_longest "é" "1.5e+px").1 hstart
  have hscan : (Decimal.scan "1.5e+px".toList).2 = "e+px".toList := by decide
  obtain rfl : rest = "e+px" := String.toList_injective (hrest.symm.trans hscan)
  have hnumeral : numeral = "1.5" := by
    have hchars : "1.5".toList ++ "e+px".toList = numeral.toList ++ "e+px".toList :=
      (congrArg String.toList htext).trans String.toList_append
    exact String.toList_injective (List.append_cancel_right hchars).symm
  have hsizes : "é".utf8ByteSize = 2 ∧ ("é" ++ numeral).utf8ByteSize = 5 := by
    rw [hnumeral]
    decide
  rw [hsizes.1, hsizes.2] at hrun
  exact ⟨hstart, x, hrun⟩

end Reader

end CssColor.Token
