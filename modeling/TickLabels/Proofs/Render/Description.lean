import TickLabels.Proofs.Pattern.Commas
import TickLabels.Proofs.Pattern.Factors
import TickLabels.Proofs.Render.Order
import TickLabels.Proofs.Render.Sign
/-!
# What metadata says of a section

The metadata of a section is read off its tokens, and the section is rendered by its items.
Both know the same percent signs, the same commas that scale and the same decimals
(`Section.describesItems_iff`). There is one exception: a point behind an exponent marker
is none among the items, but the placeholders behind it are counted as decimals
(`Token.CountsBehindMarker`).
-/

namespace TickLabels

/-! ## Decimals among the tokens -/

namespace Token

/-- The tokens between the first point and the next exponent marker. -/
def behindPoint (tokens : List Token) : List Token :=
  ((tokens.dropWhile (· ≠ .point)).drop 1).takeWhile (!·.isExponent)

/-- **Placeholders behind the marker are counted**: the first point stands behind an exponent
marker, with placeholders between it and the next marker. -/
def CountsBehindMarker (tokens : List Token) : Prop :=
  (∃ t ∈ tokens.takeWhile (· ≠ .point), t.isExponent) ∧ ∃ t ∈ behindPoint tokens, t.isDigit

instance (tokens : List Token) : Decidable (CountsBehindMarker tokens) :=
  inferInstanceAs (Decidable (_ ∧ _))

theorem length_places (tokens : List Token) : (places tokens).length = tokens.countP isDigit := by
  induction tokens with
  | nil => rfl
  | cons t ts ih =>
    rw [List.countP_cons, ← ih]
    cases t <;> rfl

/-- Before the marker there is a fraction only if no marker stands before the point. -/
theorem dropWhile_mantissa (tokens : List Token) :
    (tokens.takeWhile (!·.isExponent)).dropWhile (· ≠ .point) =
      if (tokens.takeWhile (· ≠ .point)).any isExponent then []
      else (tokens.dropWhile (· ≠ .point)).takeWhile (!·.isExponent) := by
  induction tokens with
  | nil => rfl
  | cons t ts ih =>
    cases t with
    | point | exponent => simp [isExponent]
    | _ => simpa [isExponent] using ih

/-- The point itself is no placeholder. -/
theorem countP_behindPoint (tokens : List Token) :
    ((tokens.dropWhile (· ≠ .point)).takeWhile (!·.isExponent)).countP isDigit =
      (behindPoint tokens).countP isDigit := by
  unfold behindPoint
  cases hfraction : tokens.dropWhile (· ≠ .point) with
  | nil => rfl
  | cons t ts =>
    obtain rfl : t = .point := by
      have hhead := List.head?_dropWhile_not (fun u : Token => decide (u ≠ .point)) tokens
      rw [hfraction] at hhead
      simpa using hhead
    rfl

/-- No decimals are counted if there is no placeholder behind the point. -/
theorem fractionDigits_eq_zero_iff {tokens : List Token} :
    fractionDigits tokens = 0 ↔ ¬ ∃ t ∈ behindPoint tokens, t.isDigit := by
  change min precisionCap ((behindPoint tokens).countP isDigit) = 0 ↔ _
  rw [Nat.min_eq_zero_iff, or_iff_right (by decide), List.countP_eq_zero, not_exists]
  simp

end Token

namespace Section

/-! ## Decimals among the items -/

/-- How many placeholders there are behind the point, up to the exponent marker if it is not
ignored. -/
def fractionCount (s : Section) (plain : Bool) : ℕ :=
  (Item.fractionPlaceholders (if plain then s.items else s.mantissa)).length

/-- What a section shows with `count` decimals. -/
def textTo (s : Section) (c : Culture) (plain : Bool) (count : ℕ) (scaled : Float) : Text :=
  match s.exponentParts? plain with
  | some (mantissa, marker, rest) =>
    (exponentContributions c mantissa marker rest
      ((Digits.ofFloat scaled).scientific count)).text (mantissa.any Item.isNumberPart)
  | none =>
    ((s.plainSupply c ((Digits.ofFloat scaled).plain count)).contributions c false s.items).flatten

theorem mantissa_of_atMarker?_eq_some {s : Section} {mantissa rest : List Item}
    {marker : ExponentMarker} (h : atMarker? s.items = some (mantissa, marker, rest)) :
    s.mantissa = mantissa := by
  obtain ⟨hitems, hmantissa⟩ := eq_of_atMarker? h
  rw [Section.mantissa, hitems]
  exact (cut_append (fun item hitem => by simp [hmantissa item hitem]) (by simp [Item.isMarker])).1

theorem mantissa_of_atMarker?_eq_none {s : Section} (h : atMarker? s.items = none) :
    s.mantissa = s.items :=
  List.takeWhile_eq_self_iff.2 fun item hitem => by
    simp [isMarker_of_atMarker?_eq_none h item hitem]

/-- **A number is rendered with the decimals of its section.** -/
theorem text_render (s : Section) (c : Culture) (plain : Bool) (magnitude : Float) :
    (s.render c plain magnitude).text none =
      s.textTo c plain (s.fractionCount plain) (magnitude * s.scale) := by
  rw [render_eq, textTo]
  cases plain with
  | true => exact text_renderPlain s c _
  | false =>
    rw [show s.exponentParts? false = atMarker? s.items from rfl, fractionCount,
      if_neg Bool.false_ne_true]
    cases hparts : atMarker? s.items with
    | some parts =>
      obtain ⟨mantissa, marker, rest⟩ := parts
      rw [mantissa_of_atMarker?_eq_some hparts]
      exact text_exponentContributions c mantissa marker rest _ rfl
    | none =>
      rw [mantissa_of_atMarker?_eq_none hparts]
      exact text_renderPlain s c _

/-- The decimals among the items are those among the tokens, if no marker stands before the
point. -/
theorem fractionCount_ofText (source : Text) :
    (ofText source).fractionCount false =
      if ((lex source).takeWhile (· ≠ .point)).any Token.isExponent then 0
      else (Token.behindPoint (lex source)).countP Token.isDigit := by
  rw [fractionCount, if_neg Bool.false_ne_true, fractionPlaceholders_eq, Token.length_places,
    Token.dropWhile_mantissa]
  split
  · rfl
  · exact Token.countP_behindPoint _

/-! ## The description -/

/-- **The metadata of a section accounts for its items**, apart from the decimals. -/
structure AccountsForItems (s : Section) : Prop where
  hasPercent : s.metadata.hasPercent ↔ .percent ∈ s.items
  hasPermille : s.metadata.hasPermille ↔ .permille ∈ s.items
  percentFactor : s.metadata.percentFactor = some (Item.percentFactor s.items)
  /-- A hundred for each percent sign and a thousand for each permille sign, as long as a
  double can be. -/
  exactValue_percentFactor : exactValue (Item.percentFactor s.items) =
      100 ^ s.items.count .percent * 1000 ^ s.items.count .permille ↔
    2 * s.items.count .percent + 3 * s.items.count .permille ≤ 22
  /-- There is one division by a thousand for each comma that scales. -/
  scale : ∃ start count,
    (∀ i, Item.ScalesAt s.integerItems i ↔ start ≤ i ∧ i < start + count) ∧
      s.metadata.scale = some (Item.percentFactor s.items / power 1000.0 count)
  groupsDigits : s.groupsDigits ↔ ∃ i, Item.GroupsAt s.integerItems i
  notBoth : ∀ i, Item.GroupsAt s.integerItems i → ¬ Item.ScalesAt s.integerItems i
  /-- A number is shown with as many decimals as there are placeholders for them. -/
  text_render : ∀ (c : Culture) (plain : Bool) (magnitude : Float),
    (s.render c plain magnitude).text none =
      s.textTo c plain (s.fractionCount plain) (magnitude * s.scale)

/-- **The metadata of a section describes its items**: it accounts for them, and its precision
is the number of decimals, up to 19. -/
structure DescribesItems (s : Section) : Prop extends AccountsForItems s where
  precision : s.metadata.precision = some (min 19 (s.fractionCount false))

variable {source : Text}

theorem metadata_ofText (h : .semicolon ∉ lex source) :
    (ofText source).metadata = .ofRun source (lex source) .all :=
  Metadata.ofFormat_eq_ofRun h .all

/-- The commas that scale are those that are counted. -/
theorem commasBehind_integerItems (source : Text) :
    Item.commasBehind (ofText source).integerItems = Token.scalingCommas (lex source) := by
  have hregular := Anatomy.regular_ofTokens (lex source)
  have htokens := Anatomy.tokens_ofTokens (lex source)
  rw [integerItems_ofText hregular htokens.symm, Item.commasBehind_ofTokens hregular.integer,
    ← scalingCommas_eq hregular, htokens]

theorem accountsForItems_ofText (h : .semicolon ∉ lex source) :
    (ofText source).AccountsForItems where
  hasPercent := by
    rw [metadata_ofText h, ofText, Item.percent_mem_ofTokens_iff]
    simp [Metadata.ofRun, Metadata.ofTokens]
  hasPermille := by
    rw [metadata_ofText h, ofText, Item.permille_mem_ofTokens_iff]
    simp [Metadata.ofRun, Metadata.ofTokens]
  percentFactor := by
    rw [metadata_ofText h]
    exact congrArg some (Item.percentFactor_ofTokens false false _).symm
  exactValue_percentFactor := Item.exactValue_percentFactor_iff _
  scale := by
    obtain ⟨start, hstart⟩ := Item.exists_scalesAt_iff (ofText source).integerItems
    refine ⟨start, _, hstart, ?_⟩
    rw [metadata_ofText h, commasBehind_integerItems, ofText, Item.percentFactor_ofTokens]
    rfl
  groupsDigits := Item.separatesDigits_iff _
  notBoth _ := Item.not_scalesAt_of_groupsAt
  text_render := text_render _

/-- **Metadata describes the items** if and only if it counts no placeholders behind the
marker. Where it does, the section has no decimals, and its precision says that it has. -/
theorem describesItems_iff (h : .semicolon ∉ lex source) :
    let s := ofText source
    s.AccountsForItems ∧
      (s.DescribesItems ↔ ¬ Token.CountsBehindMarker (lex source)) ∧
      (Token.CountsBehindMarker (lex source) →
        s.fractionCount false = 0 ∧ s.metadata.precision ≠ some 0) := by
  intro s
  have haccounts : s.AccountsForItems := accountsForItems_ofText h
  have hprecision : s.metadata.precision = some (Token.fractionDigits (lex source)) := by
    rw [metadata_ofText h]
    rfl
  have hdescribes : s.DescribesItems ↔
      Token.fractionDigits (lex source) = min 19 (s.fractionCount false) := by
    rw [← Option.some.injEq, ← hprecision]
    exact ⟨fun hs => hs.precision, fun hs => ⟨haccounts, hs⟩⟩
  have hcount := fractionCount_ofText source
  rw [hdescribes, hprecision, Ne, Option.some.injEq]
  refine ⟨haccounts, ?_⟩
  split at hcount
  · next hmarker =>
    -- What is behind the point is behind the marker, too.
    have hbehind : Token.CountsBehindMarker (lex source) ↔
        Token.fractionDigits (lex source) ≠ 0 := by
      rw [Token.CountsBehindMarker, and_iff_right (List.any_eq_true.1 hmarker), Ne,
        Token.fractionDigits_eq_zero_iff, not_not]
    rw [hcount, hbehind, not_not]
    exact ⟨Iff.rfl, fun hne => ⟨rfl, hne⟩⟩
  · next hmarker =>
    have hnot : ¬ Token.CountsBehindMarker (lex source) := fun hbehind =>
      hmarker (List.any_eq_true.2 hbehind.1)
    rw [hcount]
    exact ⟨iff_of_true rfl hnot, fun hbehind => absurd hbehind hnot⟩

/-- A format with a comma of either kind, and a point behind its marker that is left out. -/
theorem describesItems_iff_thousands :
    let format := "#,##0,.0#%E+0.0".toList
    .semicolon ∉ lex format ∧ ¬ Token.CountsBehindMarker (lex format) ∧
      (ofText format).AccountsForItems ∧ (ofText format).DescribesItems := by
  intro format
  have hlex : lex format = [.hash, .comma, .hash, .hash, .zero, .comma, .point, .zero, .hash,
      .percent, .exponent ⟨true, some '+', 1⟩, .point, .zero] := by
    have hfirst : Token.first 'E' "+0.0".toList =
        (.exponent ⟨true, some '+', 1⟩, ".0".toList) := by decide
    have hrest : lex ".0".toList = [.point, .zero] :=
      lex_of_readAlone (List.all_eq_true.1 (by decide))
    have hfront : lex ("#,##0,.0#%".toList ++ "E+0.0".toList) = _ :=
      lex_append_of_readAlone (List.all_eq_true.1 (by decide)) "E+0.0".toList
    rw [show lex "E+0.0".toList = _ from lex_cons 'E' "+0.0".toList, hfirst, hrest] at hfront
    exact hfront
  have hsemicolon : .semicolon ∉ lex format := by
    rw [hlex]
    decide
  have hbehind : ¬ Token.CountsBehindMarker (lex format) := by
    rw [hlex]
    decide
  obtain ⟨haccounts, hdescribes, -⟩ := describesItems_iff hsemicolon
  exact ⟨hsemicolon, hbehind, haccounts, hdescribes.2 hbehind⟩

/-- **Two decimals that are never shown**: the point stands behind the marker, so that there
is none among the items. -/
theorem not_describesItems_marker :
    let s := ofText "0E+0.00".toList
    .semicolon ∉ lex "0E+0.00".toList ∧
      s.items = [.zero, .exponent ⟨true, some '+', 1⟩, .zero, .zero] ∧
      s.fractionCount false = 0 ∧ (s.render .enUS false 1234.5).text none = "1E+3".toList ∧
      s.metadata.precision = some 2 ∧ ¬ s.DescribesItems := by
  intro s
  have hlex : lex "0E+0.00".toList =
      [.zero, .exponent ⟨true, some '+', 1⟩, .point, .zero, .zero] := by
    have hzero : Token.first '0' "E+0.00".toList = (.zero, "E+0.00".toList) := by decide
    have hmarker : Token.first 'E' "+0.00".toList =
        (.exponent ⟨true, some '+', 1⟩, ".00".toList) := by decide
    have hrest : lex ".00".toList = [.point, .zero, .zero] :=
      lex_of_readAlone (List.all_eq_true.1 (by decide))
    have hbehind := lex_cons 'E' "+0.00".toList
    rw [hmarker, hrest] at hbehind
    exact (lex_cons '0' "E+0.00".toList).trans (by rw [hzero]; exact congrArg _ hbehind)
  have hsemicolon : .semicolon ∉ lex "0E+0.00".toList := by
    rw [hlex]
    decide
  have hitems : s.items = [.zero, .exponent ⟨true, some '+', 1⟩, .zero, .zero] := by
    change Item.ofTokens false false (lex "0E+0.00".toList) = _
    rw [hlex]
    rfl
  have hcount : s.fractionCount false = 0 := by
    rw [fractionCount, if_neg Bool.false_ne_true, mantissa, hitems]
    rfl
  have hprecision : s.metadata.precision = some 2 := by
    rw [metadata_ofText hsemicolon, hlex]
    rfl
  have hscale : s.scale = 1.0 := scale_eq_one fun t ht hmem => by
    rw [hlex] at hmem
    revert t
    decide
  have htext : (s.render .enUS false 1234.5).text none = "1E+3".toList := by
    rw [text_render, hcount, hscale, textTo, exponentParts?, if_neg Bool.false_ne_true, hitems]
    decide +kernel
  refine ⟨hsemicolon, hitems, hcount, htext, hprecision, fun hdescribes => ?_⟩
  have h := hdescribes.precision
  rw [hprecision, hcount] at h
  contradiction

end Section

end TickLabels
