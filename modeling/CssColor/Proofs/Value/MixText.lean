import CssColor.Proofs.Calc.Texts
import CssColor.Proofs.Value.Parsed
import CssColor.Proofs.Value.Reading
import CssColor.Value.Specified

/-!
# Texts of mixes

The text of a mix is read as a mix, if the texts of its colours are read as colours
(`ColorValue.Writes.mix`). A percentage behind a colour is read together with the colour. In front
of a colour none is read, since no colour starts with one.
-/

namespace CssColor

open Token Rule

variable {K : Type}

/-- Whether a function is called is seen from the first token that is not blank. -/
theorem Rule.isCalling_of_nextSolid {tokens rest : List (Token K)} {token : Token K}
    (h : nextSolid tokens = (some token, rest)) (name : String) :
    isCalling name tokens = (some (token.isFunction name), tokens) := by
  obtain ⟨hsolid, before, hbefore, rfl⟩ := nextSolid_eq_some_iff.1 h
  have hblank : before.filter (fun token => !token.isWhitespace) = [] := by
    rw [List.filter_eq_nil_iff]
    intro token htoken
    rw [hbefore token htoken]
    exact Bool.false_ne_true
  show (some (((before ++ token :: rest).filter fun token => !token.isWhitespace)[0]?.any
    (isFunction name)), before ++ token :: rest) = _
  rw [List.filter_append, hblank, List.nil_append, List.filter_cons_of_pos (by simp [hsolid])]
  rfl

namespace HueArc

/-- The name of an arc is a word. -/
theorem isWord_name (arc : HueArc) : IsWord arc.name = true := by cases arc <;> rfl

/-- An arc is found under its own name. -/
theorem ofName?_name (arc : HueArc) : ofName? arc.name = some arc := by
  cases arc <;> cbv

end HueArc

/-- A space for mixing is found under its own name. -/
theorem Space.ofInterpolationName?_name {space : Space}
    (h : ∃ name, Space.ofInterpolationName? name = some space) :
    Space.ofInterpolationName? space.name = some space := by
  have hlegacy : ∀ name, Space.ofInterpolationName? name ≠ some .rgb := by
    intro name
    unfold Space.ofInterpolationName? Space.ofPredefinedName?
    split <;> first | decide | skip
    split <;> decide
  obtain ⟨name, hname⟩ := h
  cases space with
  | rgb => exact absurd hname (hlegacy name)
  | _ => decide +kernel

namespace ColorValue

variable [Scalar K] {expression : Rule K (Expression K)} {color : Rule K (ColorValue K)}
  {tokens : List (Token K)} {value : ColorValue K}

/-! ## Percentages -/

/-- Blanks in front of a share are skipped. -/
theorem skipsBlank_shareRule (h : SkipsBlank expression) : SkipsBlank (shareRule expression) := by
  refine SkipsBlank.isCalling_bind fun isCalling => ?_
  cases isCalling with
  | true => exact h.bind
  | false => exact skipsBlank_nextSolid.bind

/-- A percentage within its range is read as a share. -/
theorem reads_shareRule {share : K} (h : Number.isBetween 0.0 100.0 share = true) :
    Reads (shareRule expression) [.percentage share] share := by
  refine Reads.after_look (fun rest => isCalling_cons rfl "calc" rest) ?_
  intro rest
  show (if Number.isBetween 0.0 100.0 share = true then pure share else Rule.fail : Rule K K) rest = _
  rw [if_pos h]
  rfl

/-- A function that gives a colour is not `calc`. -/
theorem not_calc_of_callRule {name : String}
    (h : (callRule expression color name tokens).1.isSome = true) :
    (Token.function name : Token K).isFunction "calc" = false := by
  rw [Token.isFunction, beq_eq_false_iff_ne]
  intro hcalc
  have hlower : name.toLower = "calc" := hcalc.trans (by cbv)
  -- The name `calc` is neither that of a mix nor that of a colour.
  have hmix : Text.sameIgnoringCase name "color-mix" = false := by
    rw [Text.sameIgnoringCase, hlower]
    cbv
  have hfunction : FunctionName.ofText? name = none := by
    unfold FunctionName.ofText?
    rw [hlower]
    rfl
  unfold callRule functionRule at h
  rw [hmix, hfunction] at h
  cases h

/-- No percentage is read where a colour is. -/
theorem shareRule_of_reads (h : Reads unlimitedRule tokens value) (rest : List (Token K)) :
    (shareRule expression (tokens ++ rest)).1 = none := by
  have hcolor := h rest
  rw [unlimitedRule_eq] at hcolor
  obtain ⟨token, left, hsolid, hcolor⟩ := bind_eq_some_iff.1 hcolor
  -- A share starts with `calc` or is a percentage, and no colour starts with either.
  have hcalling : token.isFunction "calc" = false := by
    cases token with
    | function name =>
      exact not_calc_of_callRule (Option.isSome_of_mem (congrArg Prod.fst hcolor))
    | _ => rfl
  have hlook := isCalling_of_nextSolid hsolid "calc"
  rw [hcalling] at hlook
  unfold shareRule
  rw [bind_of_some hlook, if_neg Bool.false_ne_true, bind_of_some hsolid]
  cases token with
  | percentage share => cases hcolor
  | _ => rfl

/-! ## Colours with a percentage -/

/-- The tokens of a percentage behind a colour. -/
def shareTokens : Option K → List (Token K)
  | some share => [.whitespace, .percentage (Scalar.printed share)]
  | none => []

/-- Blanks in front of a colour of a mix are skipped, and so are those in front of its share. -/
theorem skipsBlank_ingredientRule (hskip : SkipsBlank expression) (hcolor : SkipsBlank color) :
    SkipsBlank (ingredientRule expression color) :=
  (skipsBlank_shareRule hskip).optional_bind fun _ => hcolor.bind

/-- A colour and its percentage are read in front of a token that starts no percentage. -/
theorem reads_ingredientRule {share : Option K} {token : Token K} (hskip : SkipsBlank expression)
    (hvalue : Reads unlimitedRule tokens value) (hshare : ShareBetween (share.map Scalar.printed))
    (hends : ∀ rest, (shareRule expression (token :: rest)).1 = none) (rest : List (Token K)) :
    ingredientRule expression unlimitedRule (tokens ++ shareTokens share ++ token :: rest) =
      (some (value, share.map Scalar.printed), token :: rest) := by
  unfold ingredientRule
  rw [List.append_assoc, bind_of_some (optional_of_fails (shareRule_of_reads hvalue _)),
    bind_of_some (hvalue _)]
  cases share with
  | none => exact bind_of_some (optional_of_fails (hends rest))
  | some share =>
    have hpercentage : Reads (shareRule expression) [.percentage (Scalar.printed share)]
        (Scalar.printed share) := reads_shareRule (hshare _ rfl)
    exact bind_of_some ((hpercentage.blank (skipsBlank_shareRule hskip)).optional _)

/-! ## Mixes -/

/-- The tokens that name an arc, after the space of a mix. -/
def arcTokens : Option HueArc → List (Token K)
  | some arc => [.whitespace, .ident arc.name, .whitespace, .ident "hue"]
  | none => []

omit [Scalar K] in
/-- An arc is read from its name and the keyword behind it. -/
theorem reads_arcRule (arc : HueArc) :
    Reads (optional arcRule : Rule K (Option HueArc)) (arcTokens (some arc)) (some arc) := by
  have hname : Reads (identifier : Rule K String) [whitespace, ident arc.name] arc.name :=
    (reads_identifier arc.name).blank skipsBlank_identifier
  have hhue : Reads (keyword "hue" : Rule K Unit) [whitespace, ident "hue"] () :=
    (reads_keyword "hue").blank (skipsBlank_nextWith _)
  refine Reads.optional ?_
  show Reads arcRule ([whitespace, ident arc.name] ++ [whitespace, ident "hue"]) arc
  refine hname.bind ?_
  rw [HueArc.ofName?_name]
  exact hhue.map fun _ => arc

/-- The tokens of the content of a mix. -/
def mixTokens (space : Space) (arc : Option HueArc) (first : List (Token K))
    (firstShare : Option K) (second : List (Token K)) (secondShare : Option K) : List (Token K) :=
  [.ident "in", .whitespace, .ident space.name] ++ arcTokens arc ++ [.comma, .whitespace]
    ++ (first ++ shareTokens firstShare) ++ [.comma, .whitespace]
    ++ (second ++ shareTokens secondShare)

section Mix

variable {space : Space} {arc : Option HueArc} {first second : ColorValue K}
  {firstShare secondShare : Option K} {firstTokens secondTokens : List (Token K)}

/-- A mix is read from its tokens: the space with its arc, then both colours with their shares. -/
theorem reads_mixRule (hskip : SkipsBlank expression)
    (hspace : Space.ofInterpolationName? space.name = some space)
    (harc : arc.isSome = true → space.isPolar = true)
    (hfirst : Reads unlimitedRule firstTokens first)
    (hfirstShare : ShareBetween (firstShare.map Scalar.printed))
    (hsecond : Reads unlimitedRule secondTokens second)
    (hsecondShare : ShareBetween (secondShare.map Scalar.printed)) :
    Reads (mixRule expression unlimitedRule)
      (mixTokens space arc firstTokens firstShare secondTokens secondShare ++ [.closeParen])
      (mix space arc first (firstShare.map Scalar.printed) second
        (secondShare.map Scalar.printed)) := by
  have htokens : mixTokens space arc firstTokens firstShare secondTokens secondShare
      ++ [Token.closeParen] = [ident "in"] ++ ([whitespace, ident space.name] ++ (arcTokens arc ++
        ([Token.comma] ++ whitespace :: (firstTokens ++ shareTokens firstShare ++
          Token.comma :: whitespace :: (secondTokens ++ shareTokens secondShare ++
            Token.closeParen :: []))))) := by
    simp only [mixTokens, List.append_assoc, List.cons_append, List.nil_append]
  -- Blanks stand in front of the space and of each of the two colours.
  have hingredient : SkipsBlank (ingredientRule expression unlimitedRule) :=
    skipsBlank_ingredientRule hskip skipsBlank_unlimitedRule
  -- Only a polar space may have an arc.
  have hpolar : ¬ (arc.isSome && !space.isPolar) = true := by
    cases hsome : arc.isSome with
    | true =>
      rw [harc hsome]
      exact Bool.false_ne_true
    | false => exact Bool.false_ne_true
  -- Where no arc is written, the comma shows that there is none.
  have harcRule : ∀ rest : List (Token K), optional arcRule (arcTokens arc ++ .comma :: rest) =
      (some arc, .comma :: rest) := by
    intro rest
    cases arc with
    | none => exact optional_of_fails rfl
    | some arc => exact reads_arcRule arc _
  rw [htokens]
  refine (reads_keyword "in").bind
    (((reads_identifier space.name).blank skipsBlank_identifier).bind ?_)
  rw [hspace]
  show Reads (optional arcRule >>= _) _ _
  refine Reads.bind_before harcRule ?_
  rw [if_neg hpolar]
  refine reads_comma.bind (Reads.blank ?_ hingredient.bind)
  refine Reads.bind_before (reads_ingredientRule hskip hfirst hfirstShare fun _ => rfl) ?_
  refine reads_comma.bind (Reads.blank ?_ hingredient.bind)
  refine Reads.bind_before (reads_ingredientRule hskip hsecond hsecondShare fun _ => rfl) ?_
  exact reads_closeParen.map fun _ => _

variable (K space arc) in
/-- The text of the space with its arc is split into their tokens. -/
theorem forms_arcText : Forms (K := K) ("in" ++ " " ++ space.name ++ arcText arc)
    ([ident "in", whitespace, ident space.name] ++ arcTokens arc) := by
  have hblank : ∀ rest, EndsWord (" ".toList ++ rest) = true := fun _ => rfl
  have hin : Forms (K := K) "in" [ident "in"] := forms_word rfl
  have hname := hin.separated spells_blank hblank (forms_word space.isWord_name)
  -- The method is written with its keyword, and left out if there is none.
  cases arc with
  | none =>
    rw [arcText, String.append_empty]
    exact hname
  | some arc =>
    have hhue : Forms (K := K) "hue" [.ident "hue"] := forms_word rfl
    have harc := (hname.separated spells_blank hblank (forms_word arc.isWord_name)).separated
      spells_blank hblank hhue
    rw [arcText, show " hue" = " " ++ "hue" from rfl]
    simpa only [String.append_assoc, List.append_assoc, List.cons_append, List.nil_append, arcTokens]
      using harc

/-- The text of a share behind a colour is split into its tokens. -/
theorem forms_shareText {text : String} {share : Option K} (h : Forms text tokens)
    (hfinite : ∀ value ∈ share, Scalar.isFinite value = true) :
    Forms (text ++ shareText share) (tokens ++ shareTokens share) := by
  cases share with
  | none =>
    rw [shareText, String.append_empty, shareTokens, List.append_nil]
    exact h
  | some share =>
    have hshare := h.separated spells_blank (fun _ => rfl) (forms_percentage (hfinite share rfl))
    rw [shareText]
    simpa only [String.append_assoc, List.append_assoc, List.cons_append, List.nil_append,
      shareTokens] using hshare

/-- There is no reference in a mix if there is none in its colours. -/
theorem refersToNone_mixTokens (hfirst : RefersToNone firstTokens)
    (hsecond : RefersToNone secondTokens) :
    RefersToNone (mixTokens space arc firstTokens firstShare secondTokens secondShare) := by
  have hcomma : RefersToNone [(.comma : Token K), .whitespace] :=
    RefersToNone.cons rfl (RefersToNone.singleton rfl)
  have hname : RefersToNone [(.ident "in" : Token K), .whitespace, .ident space.name] :=
    RefersToNone.cons rfl (RefersToNone.cons rfl (RefersToNone.singleton rfl))
  have harc : RefersToNone (arcTokens arc : List (Token K)) := by
    cases arc with
    | none => exact fun _ h => absurd h List.not_mem_nil
    | some arc =>
      exact RefersToNone.cons rfl (RefersToNone.cons rfl (RefersToNone.cons rfl
        (RefersToNone.singleton rfl)))
  have hshare : ∀ share : Option K, RefersToNone (shareTokens share) := by
    intro share
    cases share with
    | none => exact fun _ h => absurd h List.not_mem_nil
    | some share => exact RefersToNone.cons rfl (RefersToNone.singleton rfl)
  exact ((((hname.append harc).append hcomma).append (hfirst.append (hshare _))).append
    hcomma).append (hsecond.append (hshare _))

/-- The text of a mix is read as a mix. -/
theorem Writes.mix {firstText secondText : String}
    (hspace : ∃ name, Space.ofInterpolationName? name = some space)
    (harc : arc.isSome = true → space.isPolar = true)
    (hfirst : Writes firstText firstTokens first)
    (hfirstFinite : ∀ share ∈ firstShare, Scalar.isFinite share = true)
    (hfirstShare : ShareBetween (firstShare.map Scalar.printed))
    (hsecond : Writes secondText secondTokens second)
    (hsecondFinite : ∀ share ∈ secondShare, Scalar.isFinite share = true)
    (hsecondShare : ShareBetween (secondShare.map Scalar.printed)) :
    Writes ("color-mix(in " ++ space.name ++ arcText arc ++ ", " ++ firstText
        ++ shareText firstShare ++ ", " ++ secondText ++ shareText secondShare ++ ")")
      (Token.function "color-mix" ::
        (mixTokens space arc firstTokens firstShare secondTokens secondShare ++ [.closeParen]))
      (.mix space arc first (firstShare.map Scalar.printed) second
        (secondShare.map Scalar.printed)) where
  -- The parts are separated by commas, each of which ends the part before it.
  forms := by
    have hcomma : ∀ rest, EndsWord (", ".toList ++ rest) = true := fun _ => rfl
    have hlist := ((forms_arcText K space arc).separated spells_comma hcomma
      (forms_shareText hfirst.forms hfirstFinite)).separated spells_comma hcomma
      (forms_shareText hsecond.forms hsecondFinite)
    have hcall := hlist.call (show IsWord "color-mix" = true from rfl)
    have hopen : "color-mix(in " = "color-mix" ++ "(" ++ "in" ++ " " := rfl
    rw [hopen]
    simpa only [String.append_assoc, mixTokens] using hcall
  reads := by
    refine reads_call ?_
    have hmix : Text.sameIgnoringCase "color-mix" "color-mix" = true := beq_self_eq_true _
    unfold callRule
    rw [hmix]
    exact reads_mixRule skipsBlank_callRule (Space.ofInterpolationName?_name hspace) harc
      hfirst.reads hfirstShare hsecond.reads hsecondShare
  no_reference :=
    RefersToNone.cons (by cbv)
      ((refersToNone_mixTokens hfirst.no_reference hsecond.no_reference).append
        (RefersToNone.singleton rfl))

end Mix

end ColorValue

end CssColor
