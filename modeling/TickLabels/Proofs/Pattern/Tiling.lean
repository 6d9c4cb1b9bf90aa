import Mathlib.Data.List.Chain
import TickLabels.Pattern.Span
import TickLabels.Proofs.Pattern.Relexing

/-!
# Spans tile a format

The spans of a format follow one another without a gap, from its first byte to its last,
and every one of them lies between two characters. So the stretches they cut out, one
after the other, are the format (`Span.tiles_ofTokens`). What stands at a span is read off
the single step that gave it (`Span.exists_step_of_mem`): an exponent marker takes in all
the zeros there are, and a letter `e` stands for itself only where no zero follows.
-/

namespace TickLabels

/-! ## Cutting a text at a byte -/

/-- The text cut at a byte. A byte within a character cuts nothing. -/
def cutAt? : Nat → Text → Option (Text × Text)
  | 0, text => some ([], text)
  | _ + 1, [] => none
  | position + 1, c :: text =>
    if c.utf8Size ≤ position + 1 then
      (cutAt? (position + 1 - c.utf8Size) text).map fun (front, back) => (c :: front, back)
    else none

/-- The stretch of a text from byte `start` to byte `stop`, if both lie between two
characters. -/
def slice? (text : Text) (start stop : Nat) : Option Text :=
  match cutAt? start text with
  | none => none
  | some (_, back) => if stop < start then none else (cutAt? (stop - start) back).map Prod.fst

theorem cutAt?_append (front back : Text) :
    cutAt? (utf8Length front) (front ++ back) = some (front, back) := by
  induction front with
  | nil => cases back <;> rfl
  | cons c front ih =>
    have hpos := Char.utf8Size_pos c
    obtain ⟨position, hposition⟩ : ∃ n, utf8Length (c :: front) = n + 1 :=
      ⟨utf8Length (c :: front) - 1, by simp only [utf8Length_cons]; omega⟩
    have hrest : position + 1 - c.utf8Size = utf8Length front := by
      simp only [utf8Length_cons] at hposition
      omega
    have hfits : c.utf8Size ≤ position + 1 := by
      simp only [utf8Length_cons] at hposition
      omega
    rw [hposition, List.cons_append, cutAt?, if_pos hfits, hrest, ih]
    rfl

/-- **The cut is where the bytes are.** -/
theorem cutAt?_eq_some_iff {position : Nat} {text front back : Text} :
    cutAt? position text = some (front, back) ↔
      text = front ++ back ∧ position = utf8Length front := by
  refine ⟨fun h => ?_, ?_⟩
  · fun_induction cutAt? position text generalizing front with
    | case1 =>
      obtain ⟨rfl, rfl⟩ := Prod.mk.inj (Option.some.inj h)
      exact ⟨rfl, rfl⟩
    | case2 => contradiction
    | case3 position c text hfits ih =>
      obtain ⟨⟨front', back'⟩, hcut, heq⟩ := Option.map_eq_some_iff.1 h
      obtain ⟨rfl, rfl⟩ := Prod.mk.inj heq
      obtain ⟨rfl, hrest⟩ := ih hcut
      exact ⟨rfl, by simp only [utf8Length_cons]; omega⟩
    | case4 => contradiction
  · rintro ⟨rfl, rfl⟩
    exact cutAt?_append front back

theorem slice?_append (front text back : Text) :
    slice? (front ++ (text ++ back)) (utf8Length front) (utf8Length (front ++ text)) =
      some text := by
  have hlength : utf8Length (front ++ text) - utf8Length front = utf8Length text := by
    rw [utf8Length_append]
    omega
  rw [slice?, cutAt?_append]
  dsimp only
  rw [if_neg (by simp), hlength, cutAt?_append]
  rfl

/-! ## Spans one after the other -/

/-- **Spans tile a format**: they lie next to one another, each on a stretch of the format
that is not empty, and the empty span at the end closes them. -/
structure Tiles (format : Text) (spans : List Span) : Prop where
  /-- The first span starts at the first byte, -/
  head : spans.head?.map Span.start = some 0
  /-- each next one starts where the one before it stops, -/
  isChain : spans.IsChain fun s next => next.start = s.stop
  /-- all of them but the last hold a token and a byte or more, -/
  dropLast : ∀ s ∈ spans.dropLast, s.token?.isSome ∧ s.start < s.stop
  /-- and the last is the empty one. -/
  getLast? : spans.getLast? = some (.atEnd (utf8Length format))
  /-- They lie between characters, and nothing of the format is lost. -/
  texts : ∃ texts : List Text,
    spans.map (fun s => slice? format s.start s.stop) = texts.map some ∧ texts.flatten = format

namespace Span

variable (position : Nat) (tokens : List Token)

theorem head?_ofTokens : (ofTokens position tokens).head?.map Span.start = some position := by
  cases tokens <;> rfl

theorem isChain_ofTokens :
    (ofTokens position tokens).IsChain fun s next => next.start = s.stop := by
  induction tokens generalizing position with
  | nil => exact .singleton _
  | cons t ts ih =>
    rw [ofTokens, List.isChain_cons]
    refine ⟨fun next hnext => ?_, ih _⟩
    have hhead := head?_ofTokens (position + utf8Length t.source) ts
    rw [Option.mem_def.1 hnext] at hhead
    exact Option.some.inj hhead

theorem lt_of_mem_ofTokens :
    ∀ s ∈ (ofTokens position tokens).dropLast, s.token?.isSome ∧ s.start < s.stop := by
  induction tokens generalizing position with
  | nil => exact List.forall_mem_nil _
  | cons t ts ih =>
    have hne : ofTokens (position + utf8Length t.source) ts ≠ [] := by cases ts <;> simp [ofTokens]
    have hpos : utf8Length t.source ≠ 0 := mt utf8Length_eq_zero_iff.1 t.source_ne_nil
    rw [ofTokens, List.dropLast_cons_of_ne_nil hne]
    refine List.forall_mem_cons.2 ⟨⟨rfl, ?_⟩, ih _⟩
    change position < position + utf8Length t.source
    omega

theorem getLast?_ofTokens : (ofTokens position tokens).getLast? =
    some (.atEnd (position + utf8Length (Token.sources tokens))) := by
  induction tokens generalizing position with
  | nil => rfl
  | cons t ts ih =>
    have hne : ofTokens (position + utf8Length t.source) ts ≠ [] := by cases ts <;> simp [ofTokens]
    rw [ofTokens, List.getLast?_cons_of_ne_nil hne, ih, Token.sources_cons, utf8Length_append,
      Nat.add_assoc]

/-- Each span cuts out its token, as it is written. -/
theorem map_slice?_ofTokens (front : Text) :
    (ofTokens (utf8Length front) tokens).map
        (fun s => slice? (front ++ Token.sources tokens) s.start s.stop) =
      (tokens.map Token.source ++ [[]]).map some := by
  induction tokens generalizing front with
  | nil =>
    have hempty := slice?_append front [] []
    rw [List.append_nil front] at hempty
    exact congrArg ([·]) hempty
  | cons t ts ih =>
    have hrest := ih (front ++ t.source)
    rw [List.append_assoc, utf8Length_append] at hrest
    rw [ofTokens, List.map_cons, Token.sources_cons, hrest, List.map_cons, List.cons_append,
      List.map_cons]
    refine congrArg (· :: _) ?_
    rw [ofToken, ← utf8Length_append]
    exact slice?_append front t.source (Token.sources ts)

/-- **The spans of tokens tile what is written.** -/
theorem tiles_ofTokens : Tiles (Token.sources tokens) (ofTokens 0 tokens) where
  head := head?_ofTokens 0 tokens
  isChain := isChain_ofTokens 0 tokens
  dropLast := lt_of_mem_ofTokens 0 tokens
  getLast? := by rw [getLast?_ofTokens, Nat.zero_add]
  texts := ⟨tokens.map Token.source ++ [[]], map_slice?_ofTokens tokens [], by
    simp [Token.sources, List.flatMap_def]⟩

/-- **A span is the end, or what one step reads there.** -/
theorem exists_step_of_mem (front rest : Text) {s : Span}
    (h : s ∈ ofTokens (utf8Length front) (lex rest)) :
    s = atEnd (utf8Length (front ++ rest)) ∨
      ∃ front' c rest', front ++ rest = front' ++ c :: rest' ∧
        s = ofToken (utf8Length front') (Token.first c rest').1 := by
  fun_induction lex rest generalizing front with
  | case1 =>
    rw [List.append_nil]
    exact .inl (List.mem_singleton.1 h)
  | case2 c rest ih =>
    rcases List.mem_cons.1 h with rfl | h
    · exact .inr ⟨front, c, rest, rfl, rfl⟩
    · rw [← utf8Length_append] at h
      have hrest := ih (front ++ (Token.first c rest).1.source) h
      rwa [List.append_assoc, Token.source_first] at hrest

end Span

/-! ## Markers and the letters that are none -/

/-- An optional sign and a zero stand at the head of the text. -/
def ZerosFollow (rest : Text) : Prop :=
  ∃ sign : Option Char, (∀ c ∈ sign, c = '+' ∨ c = '-') ∧ sign.toList ++ ['0'] <+: rest

theorem zerosFollow_iff {rest : Text} : ZerosFollow rest ↔ Token.opensExponent rest := by
  constructor
  · rintro ⟨sign, hsign, after, rfl⟩
    rw [List.append_assoc, Token.opensExponent, Token.leadingSign_append hsign rfl]
    rfl
  · intro h
    obtain ⟨after, hafter⟩ : ∃ after, (Token.leadingSign rest).2 = '0' :: after := by
      obtain ⟨c, after, hcons⟩ := List.exists_cons_of_ne_nil (l := (Token.leadingSign rest).2)
        fun hnil => by simp [Token.opensExponent, hnil] at h
      rw [Token.opensExponent, hcons] at h
      obtain rfl : c = '0' := Option.some.inj h
      exact ⟨after, hcons⟩
    refine ⟨(Token.leadingSign rest).1, ?_, after, ?_⟩
    · unfold Token.leadingSign
      split <;> simp
    · have hsource := Token.source_leadingSign rest
      rw [hafter] at hsource
      rw [List.append_assoc]
      exact hsource

/-- **The marker as it stands in a format**: a letter, a sign or none, and all the zeros
that follow. -/
structure ExponentMarker.StandsAt (m : ExponentMarker) (format : Text) (s : Span) : Prop where
  sign : ∀ c ∈ m.sign, c = '+' ∨ c = '-'
  asksForPlus : m.asksForPlus = true ↔ m.sign = some '+'
  zeros : 0 < m.zeros
  text : slice? format s.start s.stop =
    some ((if m.upper then 'E' else 'e') :: (m.sign.toList ++ List.replicate m.zeros '0'))
  maximal : ∃ front rest, cutAt? s.stop format = some (front, rest) ∧ rest.head? ≠ some '0'

namespace Token

/-- A step that reads a marker reads all of it. -/
theorem standsAt_of_first {c : Char} {rest : Text} {m : ExponentMarker}
    (h : (first c rest).1 = exponent m) (front : Text) :
    m.StandsAt (front ++ c :: rest) (Span.ofToken (utf8Length front) (exponent m)) := by
  have hsource := source_first c rest
  have hfits := fits_first c rest
  rw [h] at hsource hfits
  obtain ⟨hzeros, hsign, hmaximal⟩ := hfits
  rw [← hsource]
  refine ⟨hsign, decide_eq_true_iff, Nat.pos_of_ne_zero hzeros, ?_, ?_⟩
  · have hslice := slice?_append front (exponent m).source (first c rest).2
    rw [utf8Length_append] at hslice
    exact hslice
  · refine ⟨front ++ (exponent m).source, (first c rest).2, ?_, hmaximal⟩
    rw [← List.append_assoc, Span.ofToken, ← utf8Length_append]
    exact cutAt?_append _ _

/-- A letter `e` stands for itself where no zero follows. -/
theorem first_eq_literal_iff {c : Char} (h : c = 'e' ∨ c = 'E') (rest : Text) :
    (first c rest).1 = literal c ↔ ¬ ZerosFollow rest := by
  have hmarker : first c rest = marker c rest := by
    rcases h with rfl | rfl <;> rfl
  rw [hmarker, zerosFollow_iff, not_opensExponent_iff]
  unfold marker
  dsimp only
  split
  · next hzeros => exact iff_of_true rfl hzeros
  · next hzeros => exact iff_of_false (by simp) hzeros

end Token

/-! ## The whole format -/

/-- **Lexing is lossless and ends.** The spans tile the format. An exponent marker stands
on its letter, its sign and all its zeros, and a letter `e` between two tokens stands for
itself if and only if no marker starts there. A scanner hands out the spans, one by one,
and then the empty one at the end for as long as it is asked. -/
theorem spans_tile_format (format : Text) :
    Tiles format (spans format) ∧
    (∀ s ∈ spans format, ∀ m, s.token? = some (.exponent m) → m.StandsAt format s) ∧
    (∀ s ∈ spans format, ∀ front c rest, cutAt? s.start format = some (front, c :: rest) →
      c = 'e' ∨ c = 'E' → (s.token? = some (.literal c) ↔ ¬ ZerosFollow rest)) ∧
    ∀ extra, (Scanner.ofFormat format).take ((spans format).length + extra) =
      spans format ++ List.replicate extra (.atEnd (utf8Length format)) := by
  have hstep {s : Span} (hs : s ∈ spans format) := Span.exists_step_of_mem [] format hs
  refine ⟨?_, fun s hs m hm => ?_, fun s hs front c rest hcut hc => ?_, fun extra => ?_⟩
  · have htiles := Span.tiles_ofTokens (lex format)
    rwa [sources_lex] at htiles
  · rcases hstep hs with rfl | ⟨front, c, rest, rfl, rfl⟩
    · contradiction
    · have hfirst : (Token.first c rest).1 = .exponent m := Option.some.inj hm
      rw [hfirst]
      exact Token.standsAt_of_first hfirst front
  · rcases hstep hs with rfl | ⟨front', c', rest', rfl, rfl⟩
    · -- Behind the last byte there is no character.
      obtain ⟨hformat, hlength⟩ := cutAt?_eq_some_iff.1 hcut
      have hpos := c.utf8Size_pos
      change utf8Length format = utf8Length front at hlength
      rw [hformat, utf8Length_append, utf8Length_cons] at hlength
      omega
    · have hsame := Option.some.inj ((cutAt?_append front' (c' :: rest')).symm.trans hcut)
      obtain ⟨-, hrest⟩ := Prod.mk.inj hsame
      obtain ⟨rfl, rfl⟩ := List.cons.inj hrest
      rw [← Token.first_eq_literal_iff hc]
      exact Option.some_inj
  · have htake := Scanner.take_eq_ofTokens format 0 extra
    rwa [Nat.zero_add] at htake

/-- Two letters `e` with a sign of three bytes between them: the first stands for itself,
the second marks an exponent. -/
theorem spans_tile_format_permille :
    let format := "E‰e-00".toList
    let marker : ExponentMarker := ⟨false, some '-', 2⟩
    spans format = [⟨some (.literal 'E'), 0, 1⟩, ⟨some .permille, 1, 4⟩,
        ⟨some (.exponent marker), 4, 8⟩, .atEnd 8] ∧
      Tiles format (spans format) ∧ marker.StandsAt format ⟨some (.exponent marker), 4, 8⟩ ∧
      ¬ ZerosFollow "‰e-00".toList ∧
      (Scanner.ofFormat format).take 5 = spans format ++ [.atEnd 8] := by
  intro format marker
  have hlex : lex format = [.literal 'E', .permille, .exponent marker] := by
    have hletter : Token.first 'E' "‰e-00".toList = (.literal 'E', "‰e-00".toList) := by decide
    have hsign : Token.first '‰' "e-00".toList = (.permille, "e-00".toList) := by decide
    have hmarker : Token.first 'e' "-00".toList = (.exponent marker, []) := by decide
    change lex ('E' :: "‰e-00".toList) = _
    rw [lex_cons, hletter]
    change .literal 'E' :: lex ('‰' :: "e-00".toList) = _
    rw [lex_cons, hsign]
    change .literal 'E' :: .permille :: lex ('e' :: "-00".toList) = _
    rw [lex_cons, hmarker, lex_nil]
  have hspans : spans format = [⟨some (.literal 'E'), 0, 1⟩, ⟨some .permille, 1, 4⟩,
      ⟨some (.exponent marker), 4, 8⟩, .atEnd 8] := by
    rw [spans, hlex]
    decide
  obtain ⟨htiles, hmarkers, hletters, htake⟩ := spans_tile_format format
  have hletter := hletters ⟨some (.literal 'E'), 0, 1⟩ (by rw [hspans]; simp) [] 'E'
    "‰e-00".toList (by decide) (.inr rfl)
  refine ⟨hspans, htiles, hmarkers _ (by rw [hspans]; simp) marker rfl, hletter.1 rfl, ?_⟩
  have hnext := htake 1
  rw [hspans] at hnext ⊢
  exact hnext

end TickLabels
