import TickLabels.Proofs.Pattern.Decimals

/-!
# Formats with a bare mantissa

A mantissa of placeholders and points only is read back token by token, whatever
stands behind it. With an exponent marker behind it, it is a format of one section that
shows digits and an exponent and nothing else (`isScientific_exponentFormat`). Asking for
decimals changes its fraction and leaves the other points behind it
(`withDecimals?_sources`).
-/

namespace TickLabels

namespace Token

/-- A mantissa is bare if there are only placeholders and points. -/
def IsBare (mantissa : List Token) : Prop :=
  ∀ t ∈ mantissa, t.isReplaced

/-- A bare mantissa with another fraction. The first point goes with the old fraction,
the others stay. -/
def withFraction (fraction mantissa : List Token) : List Token :=
  mantissa.takeWhile (· ≠ .point) ++
    (fraction ++ List.replicate (mantissa.count .point - 1) .point)

variable {t : Token} {mantissa fraction : List Token}

theorem fits_of_isReplaced (h : t.isReplaced) (rest : Text) : t.Fits rest := by
  cases t <;> trivial

theorem isExponent_of_isReplaced (h : t.isReplaced) : t.isExponent = false := by
  cases t <;> first | rfl | contradiction

theorem isDigit_of_isReplaced (h : t.isReplaced) (hpoint : t ≠ .point) : t.isDigit := by
  simpa [isReplaced, hpoint] using h

namespace IsBare

theorem isExponent (h : IsBare mantissa) : ∀ t ∈ mantissa, t.isExponent = false :=
  fun t ht => isExponent_of_isReplaced (h t ht)

/-- **A bare mantissa is read back** in front of any text. -/
theorem lex_append (h : IsBare mantissa) (rest : Text) :
    lex (sources mantissa ++ rest) = mantissa ++ lex rest := by
  induction mantissa with
  | nil => rfl
  | cons t ts ih =>
    have ht := fits_of_isReplaced (h t (List.mem_cons_self ..)) (sources ts ++ rest)
    rw [sources_cons, List.append_assoc, lex_source_append ht,
      ih fun u hu => h u (List.mem_cons_of_mem _ hu)]
    rfl

theorem lex_sources (h : IsBare mantissa) : lex (sources mantissa) = mantissa := by
  have hlex := h.lex_append []
  rwa [List.append_nil, lex_nil, List.append_nil] at hlex

/-- Before the point there are only placeholders. -/
theorem isDigit_integer (h : IsBare mantissa) :
    ∀ t ∈ mantissa.takeWhile (· ≠ .point), t.isDigit := by
  intro t ht
  have hpoint : t ≠ .point := by simpa using List.mem_takeWhile_imp ht
  exact isDigit_of_isReplaced (h t ((List.takeWhile_sublist _).subset ht)) hpoint

end IsBare

/-! ## Another fraction -/

theorem isBare_of_isFraction (h : IsFraction fraction) : IsBare fraction := by
  intro t ht
  cases fraction with
  | nil => contradiction
  | cons first digits =>
    obtain ⟨rfl, hdigits⟩ := h
    rcases List.mem_cons.1 ht with rfl | ht
    · rfl
    · simp [isReplaced, hdigits t ht]

theorem isBare_withFraction (h : IsBare mantissa) (hfraction : IsFraction fraction) :
    IsBare (withFraction fraction mantissa) := by
  intro t ht
  rcases List.mem_append.1 ht with ht | ht
  · exact h t ((List.takeWhile_sublist _).subset ht)
  · rcases List.mem_append.1 ht with ht | ht
    · exact isBare_of_isFraction hfraction t ht
    · rw [List.eq_of_mem_replicate ht]
      rfl

end Token

namespace Anatomy

variable {a : Anatomy}

/-- Of a bare fraction the other points are left. -/
theorem leftover_eq_replicate (h : Regular a) (hbare : Token.IsBare a.mantissa) :
    a.leftover = List.replicate (a.mantissa.count .point - 1) .point := by
  have hinteger : a.integer.count .point = 0 := List.count_eq_zero.2 (point_notMem_integer h)
  unfold mantissa fractionPart leftover at *
  cases hfraction : a.fraction? with
  | none => simp [hinteger]
  | some fraction =>
    rw [hfraction] at hbare
    have hpoints : fraction.filter (!·.isDigit) = fraction.filter (· == .point) := by
      refine List.filter_congr fun t ht => ?_
      have ht := hbare t (List.mem_append_right _ (List.mem_cons_of_mem _ ht))
      cases t <;> first | rfl | contradiction
    rw [Option.getD_some, hpoints, List.filter_beq, List.count_append, hinteger,
      List.count_cons_self]
    congr 1
    omega

/-- Behind an integer of placeholders only, a fraction belongs at its end. -/
theorem insertion?_of_isDigit (h : ∀ t ∈ a.integer, t.isDigit) (hne : a.mantissa ≠ []) :
    a.insertion? = some (a.integer, []) := by
  cases hcut : a.insertion? with
  | none =>
    have hcases := place_insertion? a
    rw [hcut] at hcases
    cases hcases with
    | none hnone hpoint =>
      have hinteger : a.integer = [] := List.eq_nil_iff_forall_not_mem.2 fun t ht => by
        simpa [hnone t ht] using h t ht
      exact absurd (by rw [mantissa, hinteger, fractionPart, hpoint]; rfl) hne
  | some parts =>
    obtain ⟨front, back⟩ := parts
    obtain ⟨hsplit, hback, -⟩ := integer_eq_of_insertion? hcut
    have hnil : back = [] := List.eq_nil_iff_forall_not_mem.2 fun t ht => by
      simpa [hback t ht] using h t (hsplit ▸ List.mem_append_right _ ht)
    rw [hsplit, hnil, List.append_nil]

/-- **A bare mantissa with another fraction.** Only if there is nothing at all, there is
no place for one. -/
theorem rewritten_of_isBare {mantissa tail fraction : List Token} (hbare : Token.IsBare mantissa)
    (htail : ∀ t ∈ tail.head?, t.isExponent) (hplace : mantissa ≠ [] ∨ fraction = []) :
    (ofTokens (mantissa ++ tail)).rewritten (fun _ => fraction) =
      Token.withFraction fraction mantissa ++ tail := by
  have hmantissa := mantissa_ofTokens_append hbare.isExponent htail
  have hinteger := integer_ofTokens_append hbare.isExponent htail
  have htail := tail_ofTokens_append hbare.isExponent htail
  have hleftover := leftover_eq_replicate (regular_ofTokens _) (hmantissa.symm ▸ hbare)
  rw [hmantissa] at hleftover
  rcases hplace with hne | rfl
  · have hdigit : ∀ t ∈ (ofTokens (mantissa ++ tail)).integer, t.isDigit := by
      rw [hinteger]
      exact hbare.isDigit_integer
    have hcut := insertion?_of_isDigit hdigit (hmantissa.symm ▸ hne)
    rw [rewritten, rewrittenMantissa, hcut, htail, hleftover, hinteger]
    rfl
  · rw [rewritten_nil, withoutFraction, hinteger, hleftover, htail, ← List.append_assoc]
    rfl

end Anatomy

/-- The items of a bare mantissa are placeholders and points too. -/
theorem Item.isDigit_or_eq_point {mantissa : List Token} (h : Token.IsBare mantissa)
    (pointMet : Bool) : ∀ item ∈ ofTokens pointMet false mantissa, item.isDigit ∨ item = point := by
  induction mantissa generalizing pointMet with
  | nil => exact List.forall_mem_nil _
  | cons t ts ih =>
    have hts : Token.IsBare ts := fun u hu => h u (List.mem_cons_of_mem _ hu)
    have ht := h t (List.mem_cons_self ..)
    cases t with
    | zero | hash => exact List.forall_mem_cons.2 ⟨.inl rfl, ih hts pointMet⟩
    | point =>
      rw [ofTokens, Bool.or_false]
      split
      · exact ih hts pointMet
      · exact List.forall_mem_cons.2 ⟨.inr rfl, ih hts true⟩
    | _ => contradiction

/-! ## The format of a bare mantissa -/

/-- The marker `E+0`. -/
def ExponentMarker.short : ExponentMarker :=
  ⟨true, some '+', 1⟩

/-- A bare mantissa with an exponent behind it, as a format. -/
def exponentFormat (mantissa : List Token) : Text :=
  Token.sources (mantissa ++ [.exponent .short])

theorem exponentFormat_eq (mantissa : List Token) :
    exponentFormat mantissa = Token.sources mantissa ++ ['E', '+', '0'] := by
  rw [exponentFormat, Token.sources_append]
  rfl

theorem lex_marker : lex ['E', '+', '0'] = [.exponent .short] := by
  have hfirst : Token.first 'E' ['+', '0'] = (.exponent .short, []) := by decide
  rw [lex_cons, hfirst, lex_nil]

theorem isCustom_exponentFormat (mantissa : List Token) : IsCustom (exponentFormat mantissa) := by
  have hmem : '+' ∈ exponentFormat mantissa := by
    rw [exponentFormat_eq]
    simp
  exact isCustom_of_mem hmem (by decide) (by decide)

section Bare

variable {mantissa : List Token} (h : Token.IsBare mantissa)

include h

theorem lex_exponentFormat : lex (exponentFormat mantissa) = mantissa ++ [.exponent .short] := by
  rw [exponentFormat_eq, h.lex_append, lex_marker]

end Bare

/-! ## Asking for decimals -/

namespace Token

/-- The fraction of the decimals asked for. -/
def fractionOf (decimals : Int) (trailingZeros : Bool) : List Token :=
  fractionTokens (if trailingZeros then .zero else .hash) decimals.natAbs

variable (decimals : Int) (trailingZeros : Bool)

theorem isFraction_fractionOf : IsFraction (fractionOf decimals trailingZeros) :=
  isFraction_fraction trailingZeros decimals.natAbs [] (List.forall_mem_nil _)

end Token

variable {mantissa : List Token} (decimals : Int) (trailingZeros : Bool)

/-- **With other decimals** a bare mantissa has another fraction, whatever stands behind
it. -/
theorem withDecimals?_sources {tail : List Token} (h : Token.IsBare mantissa)
    (htail : ∀ t ∈ tail.head?, t.isExponent)
    (hlex : lex (Token.sources (mantissa ++ tail)) = mantissa ++ tail)
    (hsemicolon : .semicolon ∉ tail) (hcustom : IsCustom (Token.sources (mantissa ++ tail)))
    (hplace : mantissa ≠ [] ∨ decimals = 0) :
    withDecimals? (some decimals) trailingZeros (Token.sources (mantissa ++ tail)) =
      Token.sources
        (Token.withFraction (Token.fractionOf decimals trailingZeros) mantissa ++ tail) := by
  have hsingle : .semicolon ∉ lex (Token.sources (mantissa ++ tail)) := by
    rw [hlex, List.mem_append, not_or]
    exact ⟨fun hmem => absurd (h _ hmem) (by decide), hsemicolon⟩
  have hfraction : mantissa ≠ [] ∨ Token.fractionOf decimals trailingZeros = [] := by
    refine hplace.imp_right ?_
    rintro rfl
    rfl
  rw [withDecimals?_of_isCustom decimals trailingZeros hcustom,
    changeSections_of_not_mem (sources_fraction trailingZeros _) hsingle, hlex]
  exact congrArg Token.sources (Anatomy.rewritten_of_isBare h htail hfraction)

/-- A mantissa with a placeholder or a point is a custom format itself. -/
theorem isCustom_sources (h : Token.IsBare mantissa) (hne : mantissa ≠ []) :
    IsCustom (Token.sources mantissa) := by
  cases mantissa with
  | nil => contradiction
  | cons t ts =>
    have ht := h t (List.mem_cons_self ..)
    cases t with
    | zero | hash | point => exact ⟨by simp [Token.source], rfl⟩
    | _ => contradiction

theorem withDecimals?_mantissa (h : Token.IsBare mantissa) (hne : mantissa ≠ []) :
    withDecimals? (some decimals) trailingZeros (Token.sources mantissa) =
      Token.sources (Token.withFraction (Token.fractionOf decimals trailingZeros) mantissa) := by
  have hend : ∀ t ∈ ([] : List Token).head?, t.isExponent := by simp
  have hwhole := withDecimals?_sources decimals trailingZeros h hend
  simp only [List.append_nil] at hwhole
  exact hwhole h.lex_sources (by simp) (isCustom_sources h hne) (.inl hne)

end TickLabels
