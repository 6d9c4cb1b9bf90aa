import TickLabels.Pattern.Lexer
/-!
# Reading written tokens again

Tokens that are written one after the other are not always read again as they
were: a letter `e` in front of a zero becomes an exponent marker, and a quote that
is never closed takes in all that follows. `Token.Fits` says what a token needs of
the text behind it, and tokens that all have what they need are legible. What
lexing gives is legible (`Token.legible_lex`), and what is legible is read again as
it is (`Token.lex_sources`). So a change of tokens is a change of the format as soon
as it keeps them legible.
-/

namespace TickLabels

namespace Token

/-- A letter `e` in front of the text is an exponent marker. -/
def opensExponent (rest : Text) : Prop :=
  (leadingSign rest).2.head? = some '0'

/-- **The token is read again** when it is written in front of `rest`. -/
def Fits (rest : Text) : Token → Prop
  | literal c =>
    ofChar c = literal c ∧ isQuote c = false ∧ (c = '\\' → rest = []) ∧
      (c = 'e' ∨ c = 'E' → ¬ opensExponent rest)
  | quoted quote text closed =>
    isQuote quote = true ∧ quote ∉ text ∧ (closed = false → rest = [])
  | exponent marker =>
    marker.zeros ≠ 0 ∧ (∀ c ∈ marker.sign, c = '+' ∨ c = '-') ∧ rest.head? ≠ some '0'
  | _ => True

/-- Tokens each of which fits what is written behind it. -/
def Legible : List Token → Prop
  | [] => True
  | t :: ts => t.Fits (sources ts) ∧ Legible ts

/-! ## What lexing gives -/

theorem not_opensExponent_iff {rest : Text} :
    ¬ opensExponent rest ↔ (leadingSign rest).2.takeWhile (· == '0') = [] := by
  unfold opensExponent
  cases (leadingSign rest).2 with
  | nil => simp
  | cons c digits => simp [List.takeWhile_cons]

/-- A character that is read alone and stands for itself has no other meaning. -/
theorem ofChar_eq_literal {c d : Char} (h : ofChar c = literal d) : c = d := by
  have hsource := source_ofChar c
  rw [h] at hsource
  exact (List.singleton_inj.1 hsource).symm

theorem fits_quotation {quote : Char} (hquote : isQuote quote = true) (rest : Text) :
    (quotation quote rest).1.Fits (quotation quote rest).2 := by
  have hnotMem : quote ∉ rest.takeWhile (· != quote) := fun hmem => by
    have := List.all_eq_true.1 (List.all_takeWhile (p := (· != quote)) (l := rest)) quote hmem
    simp at this
  unfold quotation
  dsimp only
  split
  · exact ⟨hquote, hnotMem, fun _ => rfl⟩
  · exact ⟨hquote, hnotMem, by simp⟩

theorem fits_escape (rest : Text) : (escape rest).1.Fits (escape rest).2 := by
  cases rest with
  | nil => exact ⟨rfl, rfl, fun _ => rfl, fun h => by rcases h with h | h <;> simp at h⟩
  | cons c after => trivial

theorem fits_marker {letter : Char} (h : letter = 'e' ∨ letter = 'E') (rest : Text) :
    (marker letter rest).1.Fits (marker letter rest).2 := by
  unfold marker
  dsimp only
  split
  · next hzeros =>
    have hescape : letter ≠ '\\' := by rcases h with rfl | rfl <;> decide
    refine ⟨?_, ?_, fun hc => absurd hc hescape, fun _ => not_opensExponent_iff.2 hzeros⟩ <;>
      rcases h with rfl | rfl <;> rfl
  · next hzeros =>
    refine ⟨fun hlength => hzeros (List.length_eq_zero_iff.1 hlength), ?_, fun hhead => ?_⟩
    · unfold leadingSign
      split <;> simp
    · have hstop := List.head?_dropWhile_not (· == '0') (leadingSign rest).2
      rw [hhead] at hstop
      simp at hstop

theorem fits_ofChar {c : Char} (hquote : isQuote c = false) (hescape : c ≠ '\\')
    (hletter : ¬(c = 'e' ∨ c = 'E')) (rest : Text) : (ofChar c).Fits rest := by
  cases htoken : ofChar c with
  | literal d =>
    obtain rfl := ofChar_eq_literal htoken
    exact ⟨htoken, hquote, fun h => absurd h hescape, fun h => absurd h hletter⟩
  | quoted | exponent =>
    unfold ofChar at htoken
    split at htoken <;> contradiction
  | _ => trivial

/-- **A step gives a token that fits what is left.** -/
theorem fits_first (c : Char) (rest : Text) : (first c rest).1.Fits (first c rest).2 := by
  unfold first
  split
  · next hquote => exact fits_quotation hquote rest
  · next hquote =>
    split
    · exact fits_escape rest
    · next hescape =>
      split
      · next hletter => exact fits_marker hletter rest
      · next hletter => exact fits_ofChar (by simpa using hquote) hescape hletter rest

/-- **What lexing gives is legible.** -/
theorem legible_lex (format : Text) : Legible (lex format) := by
  fun_induction lex format with
  | case1 => trivial
  | case2 c rest ih =>
    refine ⟨?_, ih⟩
    rw [sources_lex]
    exact fits_first c rest

/-! ## Reading it again -/

theorem leadingSign_append {sign : Option Char} (h : ∀ c ∈ sign, c = '+' ∨ c = '-') {rest : Text}
    (hrest : rest.head? = some '0') : leadingSign (sign.toList ++ rest) = (sign, rest) := by
  cases sign with
  | none =>
    cases rest with
    | nil => simp at hrest
    | cons c digits =>
      obtain rfl : c = '0' := by simpa using hrest
      rfl
  | some c =>
    rcases h c rfl with rfl | rfl <;> rfl

theorem leadingSign_of_not_sign {c : Char} (h : ¬(c = '+' ∨ c = '-')) (rest : Text) :
    leadingSign (c :: rest) = (none, c :: rest) := by
  unfold leadingSign
  split
  · next heq => exact absurd (.inl (List.cons.inj heq).1) h
  · next heq => exact absurd (.inr (List.cons.inj heq).1) h
  · rfl

/-- The zeros of a marker are all there are. -/
theorem marker_source {m : ExponentMarker} {rest : Text} (h : (exponent m).Fits rest) :
    marker m.letter (m.sign.toList ++ List.replicate m.zeros '0' ++ rest) = (exponent m, rest) := by
  obtain ⟨hzeros, hsign, hstop⟩ := h
  have hhead : (List.replicate m.zeros '0' ++ rest).head? = some '0' := by
    cases hcount : m.zeros with
    | zero => exact absurd hcount hzeros
    | succ count => rfl
  have hrest : rest.takeWhile (· == '0') = [] ∧ rest.dropWhile (· == '0') = rest := by
    cases rest with
    | nil => exact ⟨rfl, rfl⟩
    | cons c digits =>
      have hc : (c == '0') = false := by simpa using hstop
      exact ⟨List.takeWhile_cons_of_neg (by simp [hc]), List.dropWhile_cons_of_neg (by simp [hc])⟩
  have hall : ∀ c ∈ List.replicate m.zeros '0', (c == '0') = true := fun c hc => by
    simp [List.eq_of_mem_replicate hc]
  have hupper : decide (m.letter = 'E') = m.upper := by
    unfold ExponentMarker.letter
    cases m.upper <;> decide
  have hne : List.replicate m.zeros '0' ≠ [] := by simpa using hzeros
  unfold marker
  rw [List.append_assoc, leadingSign_append hsign hhead]
  dsimp only
  rw [List.takeWhile_append_of_pos hall, List.dropWhile_append_of_pos hall, hrest.1, hrest.2,
    List.append_nil, if_neg hne, List.length_replicate, hupper]

theorem quotation_source {quote : Char} {text rest : Text} {closed : Bool}
    (h : (quoted quote text closed).Fits rest) :
    quotation quote (text ++ (if closed then [quote] else []) ++ rest) =
      (quoted quote text closed, rest) := by
  obtain ⟨-, hnotMem, hopen⟩ := h
  have hall : ∀ c ∈ text, (c != quote) = true := fun c hc => by
    simpa using fun heq : c = quote => hnotMem (heq ▸ hc)
  unfold quotation
  dsimp only
  rw [List.append_assoc, List.takeWhile_append_of_pos hall, List.dropWhile_append_of_pos hall]
  cases closed with
  | false => simp [hopen rfl]
  | true => simp

/-- **A token that fits is read again**, in one step. -/
theorem first_source {t : Token} {rest : Text} (h : t.Fits rest) :
    ∃ c body, t.source = c :: body ∧ first c (body ++ rest) = (t, rest) := by
  cases t with
  | literal c =>
    obtain ⟨htoken, hquote, hescape, hletter⟩ := h
    refine ⟨c, [], rfl, ?_⟩
    unfold first
    rw [if_neg (by simp [hquote]), List.nil_append]
    split
    · next hc =>
      subst hc
      rw [hescape rfl]
      rfl
    · split
      · next hc =>
        unfold marker
        dsimp only
        rw [if_pos (not_opensExponent_iff.1 (hletter hc))]
      · rw [htoken]
  | quoted quote text closed =>
    refine ⟨quote, _, rfl, ?_⟩
    rw [first, if_pos h.1, quotation_source h]
  | exponent m =>
    refine ⟨m.letter, _, rfl, ?_⟩
    have hletter : m.letter = 'e' ∨ m.letter = 'E' := by
      unfold ExponentMarker.letter
      cases m.upper <;> simp
    rw [first, if_neg (by rcases hletter with h | h <;> rw [h] <;> decide),
      if_neg (by rcases hletter with h | h <;> rw [h] <;> decide), if_pos hletter, marker_source h]
  | escaped c => exact ⟨'\\', [c], rfl, rfl⟩
  | zero | hash | point | comma | semicolon | percent | permille => exact ⟨_, [], rfl, rfl⟩

theorem lex_source_append {t : Token} {rest : Text} (h : t.Fits rest) :
    lex (t.source ++ rest) = t :: lex rest := by
  obtain ⟨c, body, hsource, hstep⟩ := first_source h
  rw [hsource, List.cons_append, lex_cons, hstep]

/-- **What is legible is read again as it is.** -/
theorem lex_sources {tokens : List Token} (h : Legible tokens) : lex (sources tokens) = tokens := by
  induction tokens with
  | nil => exact lex_nil
  | cons t ts ih => rw [sources_cons, lex_source_append h.1, ih h.2]

/-! ## Another text behind the tokens -/

/-- The text `new` asks no more of the tokens in front of it than `old`. -/
structure Milder (old new : Text) : Prop where
  nil : old = [] → new = []
  zero : new.head? = some '0' → old.head? = some '0'
  opens : opensExponent new → opensExponent old

/-- What fits a text fits a milder one. -/
theorem Fits.of_milder {t : Token} {old new : Text} (h : t.Fits old) (hmild : Milder old new) :
    t.Fits new := by
  cases t with
  | literal c =>
    obtain ⟨htoken, hquote, hescape, hletter⟩ := h
    exact ⟨htoken, hquote, fun hc => hmild.nil (hescape hc),
      fun hc hopens => hletter hc (hmild.opens hopens)⟩
  | quoted quote text closed => exact ⟨h.1, h.2.1, fun hopen => hmild.nil (h.2.2 hopen)⟩
  | exponent m => exact ⟨h.1, h.2.1, fun hhead => h.2.2 (hmild.zero hhead)⟩
  | escaped | zero | hash | point | comma | semicolon | percent | permille => trivial

theorem Milder.refl (text : Text) : Milder text text :=
  ⟨id, id, id⟩

/-- A text is as mild behind another one. -/
theorem Milder.append {old new : Text} (h : Milder old new) (front : Text) :
    Milder (front ++ old) (front ++ new) := by
  cases front with
  | nil => exact h
  | cons c front =>
    refine ⟨by simp, by simp, fun hopens => ?_⟩
    unfold opensExponent at hopens ⊢
    by_cases hsign : c = '+' ∨ c = '-'
    · -- Behind a sign it is the next character that counts.
      have hskip : ∀ rest, (leadingSign (c :: rest)).2 = rest := by
        rcases hsign with rfl | rfl <;> exact fun _ => rfl
      rw [List.cons_append, hskip] at hopens ⊢
      cases front with
      | nil => exact h.zero hopens
      | cons d front => exact hopens
    · rw [List.cons_append, leadingSign_of_not_sign hsign] at hopens ⊢
      exact hopens

/-- **Tokens stay legible** in front of others that are legible and milder. -/
theorem Legible.append_of_milder {front old new : List Token} (h : Legible (front ++ old))
    (hnew : Legible new) (hmild : Milder (sources old) (sources new)) :
    Legible (front ++ new) := by
  induction front with
  | nil => exact hnew
  | cons t front ih =>
    obtain ⟨hfits, hrest⟩ := h
    refine ⟨hfits.of_milder ?_, ih hrest⟩
    change Milder (sources (front ++ old)) (sources (front ++ new))
    rw [sources_append, sources_append]
    exact hmild.append _

theorem Legible.of_append {front back : List Token} (h : Legible (front ++ back)) :
    Legible back := by
  induction front with
  | nil => exact h
  | cons t front ih => exact ih h.2

end Token

end TickLabels
