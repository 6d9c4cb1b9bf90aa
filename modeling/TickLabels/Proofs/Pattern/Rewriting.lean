import Mathlib.Data.List.Forall2
import Mathlib.Data.List.TakeWhile
import Mathlib.Logic.Basic
import TickLabels.Pattern.Fraction
import TickLabels.Proofs.Pattern.Plain
import TickLabels.Proofs.Pattern.Splitting

/-!
# Rewritten fractions are read as they were written

Taking the point and the placeholders of a fraction out of a format puts tokens side
by side that had others between them, and putting a fraction in moves tokens apart.
None of that changes how a token is read: what would be read into the token in front
of it is a zero or a sign before a zero, and no zero is brought to the front.
`Token.StandsIn` is that condition, `Anatomy.substitutes_rewritten` says that it holds
for the rewritten section, and `sectionTokens_changeSections` that the rewritten format
has the rewritten sections, token by token.
-/

namespace TickLabels

/-! ## The last element that satisfies a condition -/

/-- The front ends with the last element that satisfies the condition. -/
theorem splitAfterLast_spec {α : Type} {p : α → Bool} {as front back : List α}
    (h : splitAfterLast p as = some (front, back)) :
    (∃ init a, front = init ++ [a] ∧ p a) ∧ ∀ a ∈ back, p a = false := by
  induction as generalizing front back with
  | nil => simp [splitAfterLast] at h
  | cons a as ih =>
    rw [splitAfterLast] at h
    cases hsplit : splitAfterLast p as with
    | some parts =>
      rw [hsplit] at h
      obtain ⟨rfl, rfl⟩ := Prod.mk.inj (Option.some.inj h)
      obtain ⟨⟨init, b, hinit, hb⟩, hback⟩ := ih hsplit
      exact ⟨⟨a :: init, b, by rw [hinit, List.cons_append], hb⟩, hback⟩
    | none =>
      rw [hsplit] at h
      by_cases ha : p a
      · rw [if_pos ha] at h
        obtain ⟨rfl, rfl⟩ := Prod.mk.inj (Option.some.inj h)
        exact ⟨⟨[], a, rfl, ha⟩, splitAfterLast_eq_none_iff.1 hsplit⟩
      · simp [ha] at h

/-- And it is found where it stands. -/
theorem splitAfterLast_of_last {α : Type} {p : α → Bool} {init back : List α} {a : α}
    (ha : p a) (hback : ∀ b ∈ back, p b = false) :
    splitAfterLast p (init ++ a :: back) = some (init ++ [a], back) := by
  induction init with
  | nil => rw [List.nil_append, splitAfterLast, splitAfterLast_eq_none_iff.2 hback, if_pos ha]; rfl
  | cons b init ih => rw [List.cons_append, splitAfterLast, ih]; rfl

/-- A list is cut where the next part starts. -/
theorem cut_append {α : Type} {p : α → Bool} {front back : List α} (hfront : ∀ a ∈ front, p a)
    (hback : ∀ a ∈ back.head?, p a = false) :
    (front ++ back).takeWhile p = front ∧ (front ++ back).dropWhile p = back := by
  rw [List.takeWhile_append_of_pos hfront, List.dropWhile_append_of_pos hfront]
  cases back with
  | nil => exact ⟨List.append_nil _, rfl⟩
  | cons a as => simp [hback a rfl]

namespace Token

/-! ## Tokens that can stand where others stood -/

/-- A text that starts with another character than a sign is as mild as any that
starts with the same. -/
theorem Milder.of_head {c : Char} (h : ¬(c = '+' ∨ c = '-')) (old new : Text) :
    Milder (c :: old) (c :: new) := by
  refine ⟨by simp, by simp, fun hopens => ?_⟩
  rw [opensExponent, leadingSign_of_not_sign h] at hopens ⊢
  exact hopens

theorem opensExponent_of_zero {text : Text} (h : text.head? = some '0') : opensExponent text := by
  cases text with
  | nil => simp at h
  | cons c text =>
    obtain rfl : c = '0' := by simpa using h
    exact rfl

/-- A text that opens no exponent is as mild as any but the empty one. -/
theorem Milder.of_not_opensExponent {old new : Text} (hnil : old = [] → new = [])
    (h : ¬ opensExponent new) : Milder old new :=
  ⟨hnil, fun hzero => absurd (opensExponent_of_zero hzero) h, fun hopens => absurd hopens h⟩

/-- A token that starts with a character that is read alone is that character. -/
theorem eq_ofChar {t : Token} {rest : Text} {c : Char} {body : Text} (h : t.Fits rest)
    (hsource : t.source = c :: body) (hc : readAlone c) : t = ofChar c ∧ body = [] := by
  obtain ⟨c', body', hsource', hstep⟩ := first_source h
  obtain ⟨rfl, rfl⟩ := List.cons.inj (hsource.symm.trans hsource')
  rw [first_of_readAlone hc, Prod.mk.injEq] at hstep
  exact ⟨hstep.1.symm, List.append_left_eq_self.1 hstep.2⟩

/-- A text opens an exponent with a zero, or with a sign in front of a zero. -/
theorem head?_of_opensExponent {c : Char} {text : Text} (h : opensExponent (c :: text)) :
    c = '0' ∨ (c = '+' ∨ c = '-') ∧ text.head? = some '0' := by
  unfold opensExponent leadingSign at h
  split at h
  · next heq =>
    obtain ⟨rfl, rfl⟩ := List.cons.inj heq
    exact .inr ⟨.inl rfl, h⟩
  · next heq =>
    obtain ⟨rfl, rfl⟩ := List.cons.inj heq
    exact .inr ⟨.inr rfl, h⟩
  · exact .inl (by simpa using h)

/-- Tokens that open an exponent start with a zero, or have a sign in front of what
does. -/
theorem eq_of_opensExponent {t : Token} {ts : List Token} (h : Legible (t :: ts))
    (hopens : opensExponent (sources (t :: ts))) :
    t = .zero ∨ (t = .literal '+' ∨ t = .literal '-') ∧ opensExponent (sources ts) := by
  obtain ⟨c, body, hsource⟩ := List.exists_cons_of_ne_nil (source_ne_nil t)
  rw [sources_cons, hsource, List.cons_append] at hopens
  rcases head?_of_opensExponent hopens with rfl | ⟨rfl | rfl, hzero⟩
  · exact .inl (eq_ofChar h.1 hsource rfl).1
  · obtain ⟨ht, rfl⟩ := eq_ofChar h.1 hsource rfl
    exact .inr ⟨.inl ht, opensExponent_of_zero hzero⟩
  · obtain ⟨ht, rfl⟩ := eq_ofChar h.1 hsource rfl
    exact .inr ⟨.inr ht, opensExponent_of_zero hzero⟩

/-- **The tokens `new` can stand where `old` stood**, behind any token that fits
`old`. -/
structure StandsIn (old new : List Token) : Prop where
  legible : Legible new
  milder : Milder (sources old) (sources new)
  quiet : ¬ opensExponent (sources new)

namespace StandsIn

variable {old new : List Token} {t : Token}

theorem nil : StandsIn [] [] :=
  ⟨trivial, .refl _, by simp [opensExponent, leadingSign]⟩

/-- Tokens behind a separator. -/
theorem semicolon (h : Legible new) : StandsIn (.semicolon :: old) (.semicolon :: new) := by
  refine ⟨⟨trivial, h⟩, Milder.of_head (by decide) _ _, ?_⟩
  simp [opensExponent, leadingSign, source]

/-- A token that is left out. -/
theorem drop (h : StandsIn old new) (t : Token) : StandsIn (t :: old) new := by
  refine ⟨h.legible, .of_not_opensExponent (fun hnil => ?_) h.quiet, h.quiet⟩
  exact absurd (List.append_eq_nil_iff.1 hnil).1 (source_ne_nil t)

/-- A token that stays, unless it is a zero. -/
theorem cons (h : StandsIn old new) (hfits : t.Fits (sources old)) (ht : t ≠ .zero) :
    StandsIn (t :: old) (t :: new) := by
  have hlegible : Legible (t :: new) := ⟨hfits.of_milder h.milder, h.legible⟩
  refine ⟨hlegible, h.milder.append t.source, fun hopens => ?_⟩
  rcases eq_of_opensExponent hlegible hopens with hzero | ⟨-, hbehind⟩
  · exact ht hzero
  · exact h.quiet hbehind

/-- Tokens without a zero that stay. -/
theorem append {front : List Token} (h : StandsIn old new) (hfront : ∀ t ∈ front, t ≠ .zero)
    (hold : Legible (front ++ old)) : StandsIn (front ++ old) (front ++ new) := by
  induction front with
  | nil => exact h
  | cons t ts ih =>
    obtain ⟨ht, hts⟩ := List.forall_mem_cons.1 hfront
    exact (ih hts hold.2).cons hold.1 ht

/-- Tokens whose placeholders are left out. -/
theorem filter {front : List Token} (h : StandsIn old new) (hold : Legible (front ++ old)) :
    StandsIn (front ++ old) (front.filter (!·.isDigit) ++ new) := by
  induction front with
  | nil => exact h
  | cons t ts ih =>
    by_cases ht : t.isDigit
    · rw [List.filter_cons_of_neg (by simp [ht])]
      exact (ih hold.2).drop t
    · rw [List.filter_cons_of_pos (by simp [ht])]
      exact (ih hold.2).cons hold.1 fun hzero => ht (hzero ▸ rfl)

/-- Tokens from an exponent marker on. -/
theorem marker {tail : List Token} (h : StandsIn old new) (htail : ∀ t ∈ tail.head?, t.isExponent)
    (hold : Legible (tail ++ old)) : StandsIn (tail ++ old) (tail ++ new) := by
  cases tail with
  | nil => exact h
  | cons t ts =>
    have hlegible : Legible (t :: ts ++ new) := hold.append_of_milder h.legible h.milder
    refine ⟨hlegible, ?_, fun hopens => ?_⟩
    · rw [sources_append, sources_append]
      exact h.milder.append _
    · have ht : t.isExponent := htail t rfl
      rcases eq_of_opensExponent hlegible hopens with rfl | ⟨rfl | rfl, -⟩ <;> contradiction

end StandsIn

/-- **The run `new` may be written for `old`**, whatever follows. -/
def Substitutes (old new : List Token) : Prop :=
  ∀ ⦃behind behind' : List Token⦄, Legible (old ++ behind) → StandsIn behind behind' →
    Legible (new ++ behind')

theorem Substitutes.refl (run : List Token) : Substitutes run run :=
  fun _ _ hold hbehind => hold.append_of_milder hbehind.legible hbehind.milder

/-- Sections may be written for sections. -/
theorem legible_intercalate {change : List Token → List Token} {runs : List (List Token)}
    (hchange : ∀ run ∈ runs, Substitutes run (change run))
    (h : Legible ([.semicolon].intercalate runs)) :
    Legible ([.semicolon].intercalate (runs.map change)) := by
  induction runs with
  | nil => trivial
  | cons run runs ih =>
    obtain ⟨hrun, hruns⟩ := List.forall_mem_cons.1 hchange
    cases runs with
    | nil =>
      rw [List.map_singleton, List.intercalate_singleton]
      rw [List.intercalate_singleton, ← List.append_nil run] at h
      simpa using hrun h .nil
    | cons next runs =>
      rw [List.map_cons, List.map_cons, List.intercalate_cons_cons, List.append_assoc]
      rw [List.intercalate_cons_cons, List.append_assoc] at h
      exact hrun h (.semicolon (ih hruns h.of_append.2))

/-- The tokens of a fraction: nothing, or a point and placeholders behind it. -/
def IsFraction : List Token → Prop
  | [] => True
  | t :: digits => t = .point ∧ ∀ d ∈ digits, d.isDigit

theorem fits_of_isDigit {t : Token} (h : t.isDigit) (rest : Text) : t.Fits rest := by
  cases t <;> trivial

/-- Tokens that fit everything may be put in front of what is legible. -/
theorem Legible.append {front behind : List Token} (hfront : ∀ t ∈ front, ∀ rest, t.Fits rest)
    (h : Legible behind) : Legible (front ++ behind) := by
  induction front with
  | nil => exact h
  | cons t ts ih =>
    obtain ⟨ht, hts⟩ := List.forall_mem_cons.1 hfront
    exact ⟨ht _, ih hts⟩

theorem IsFraction.legible_append {fraction behind : List Token} (hfraction : IsFraction fraction)
    (h : Legible behind) : Legible (fraction ++ behind) := by
  cases fraction with
  | nil => exact h
  | cons t digits =>
    obtain ⟨rfl, hdigits⟩ := hfraction
    exact ⟨trivial, h.append fun d hd => fits_of_isDigit (hdigits d hd)⟩

theorem IsFraction.isDigit_or_eq_point {fraction : List Token} (hfraction : IsFraction fraction)
    {t : Token} (ht : t ∈ fraction) : t.isDigit ∨ t = .point := by
  cases fraction with
  | nil => simp at ht
  | cons first digits =>
    rcases List.mem_cons.1 ht with rfl | ht
    · exact .inr hfraction.1
    · exact .inl (hfraction.2 t ht)

/-- Behind a placeholder, what follows does not matter to what stands before. -/
theorem milder_of_isDigit {d : Token} (hd : d.isDigit) (old new : List Token) :
    Milder (sources (d :: old)) (sources (d :: new)) := by
  cases d with
  | zero | hash => exact Milder.of_head (by decide) _ _
  | _ => contradiction

end Token

/-! ## The anatomy of a section -/

namespace Anatomy

/-- The tokens from the point to the exponent marker. -/
def fractionPart (a : Anatomy) : List Token :=
  match a.fraction? with
  | none => []
  | some fraction => .point :: fraction

/-- The tokens before the exponent marker. -/
def mantissa (a : Anatomy) : List Token :=
  a.integer ++ a.fractionPart

/-- The tokens of the whole section. -/
def tokens (a : Anatomy) : List Token :=
  a.mantissa ++ a.tail

/-- The anatomy of some section: the point is the first one before the first exponent
marker. -/
structure Regular (a : Anatomy) : Prop where
  integer : ∀ t ∈ a.integer, t ≠ .point ∧ t.isExponent = false
  fraction : ∀ t ∈ a.fraction?.getD [], t.isExponent = false
  tail : ∀ t ∈ a.tail.head?, t.isExponent

theorem fractionPart_ofTokens (run : List Token) :
    (ofTokens run).fractionPart = (run.takeWhile (!·.isExponent)).dropWhile (· ≠ .point) := by
  have hstop := (run.takeWhile (!·.isExponent)).head?_dropWhile_not (· ≠ .point)
  unfold fractionPart ofTokens
  dsimp only
  cases hback : (run.takeWhile (!·.isExponent)).dropWhile (· ≠ .point) with
  | nil => rfl
  | cons t fraction =>
    rw [hback] at hstop
    obtain rfl : t = .point := by simpa using hstop
    rfl

theorem mantissa_ofTokens (run : List Token) :
    (ofTokens run).mantissa = run.takeWhile (!·.isExponent) := by
  rw [mantissa, fractionPart_ofTokens]
  exact List.takeWhile_append_dropWhile

/-- **The anatomy loses nothing.** -/
theorem tokens_ofTokens (run : List Token) : (ofTokens run).tokens = run := by
  rw [tokens, mantissa_ofTokens]
  exact List.takeWhile_append_dropWhile

theorem regular_ofTokens (run : List Token) : Regular (ofTokens run) := by
  have hmantissa : ∀ t ∈ run.takeWhile (!·.isExponent), t.isExponent = false := fun t ht => by
    simpa using List.mem_takeWhile_imp ht
  refine ⟨fun t ht => ⟨by simpa using List.mem_takeWhile_imp ht, ?_⟩, fun t ht => ?_,
    fun t ht => ?_⟩
  · exact hmantissa t ((List.takeWhile_sublist _).subset ht)
  · refine hmantissa t ((List.dropWhile_sublist (· ≠ .point)).subset ?_)
    unfold ofTokens at ht
    dsimp only at ht
    split at ht
    · simp at ht
    · next heq =>
      rw [heq]
      exact List.mem_cons_of_mem _ ht
  · have hstop := run.head?_dropWhile_not (!·.isExponent)
    rw [show (run.dropWhile (!·.isExponent)).head? = some t from ht] at hstop
    simpa using hstop

theorem isExponent_mantissa {a : Anatomy} (h : Regular a) :
    ∀ t ∈ a.mantissa, t.isExponent = false := by
  intro t ht
  unfold mantissa fractionPart at ht
  rcases List.mem_append.1 ht with ht | ht
  · exact (h.integer t ht).2
  · cases hfraction : a.fraction? with
    | none => simp [hfraction] at ht
    | some fraction =>
      rw [hfraction] at ht
      rcases List.mem_cons.1 ht with rfl | ht
      · rfl
      · exact h.fraction t (by rw [hfraction]; exact ht)

/-- The tokens of a mantissa and a tail are cut between them. -/
theorem takeWhile_append {mantissa tail : List Token}
    (hmantissa : ∀ t ∈ mantissa, t.isExponent = false) (htail : ∀ t ∈ tail.head?, t.isExponent) :
    (mantissa ++ tail).takeWhile (!·.isExponent) = mantissa ∧
      (mantissa ++ tail).dropWhile (!·.isExponent) = tail := by
  exact cut_append (fun t ht => by simp [hmantissa t ht]) (fun t ht => by simp [htail t ht])

/-- The placeholders of the fraction. -/
def fractionDigits (a : Anatomy) : List Token :=
  (a.fraction?.getD []).filter Token.isDigit

/-- The other tokens of the fraction, which stay when it is rewritten. -/
def leftover (a : Anatomy) : List Token :=
  (a.fraction?.getD []).filter (!·.isDigit)

/-- The mantissa with the tokens `fraction old` for its fraction. -/
def rewrittenMantissa (fraction : List Token → List Token) (a : Anatomy) : List Token :=
  match a.insertion? with
  | none => a.mantissa
  | some (front, back) => front ++ (fraction a.fractionDigits ++ (back ++ a.leftover))

/-- The section with another fraction. -/
def rewritten (fraction : List Token → List Token) (a : Anatomy) : List Token :=
  a.rewrittenMantissa fraction ++ a.tail

/-- It depends on what becomes of the placeholders that are there. -/
theorem rewritten_congr {a : Anatomy} {fraction fraction' : List Token → List Token}
    (h : fraction a.fractionDigits = fraction' a.fractionDigits) :
    a.rewritten fraction = a.rewritten fraction' := by
  simp only [rewritten, rewrittenMantissa, h]

/-- Without a place for a fraction nothing becomes of it. -/
theorem rewritten_of_none {a : Anatomy} (h : a.insertion? = none)
    (fraction : List Token → List Token) : a.rewritten fraction = a.tokens := by
  rw [rewritten, rewrittenMantissa, h, tokens]

/-- **Where a fraction belongs**: nowhere, in place of the point, or behind the last
integer placeholder and its commas. -/
inductive Place (a : Anatomy) : Option (List Token × List Token) → Prop
  | none (hdigit : ∀ t ∈ a.integer, t.isDigit = false) (hpoint : a.fraction? = .none) :
      Place a .none
  | atPoint {fraction : List Token} (hdigit : ∀ t ∈ a.integer, t.isDigit = false)
      (hpoint : a.fraction? = some fraction) : Place a (some (a.integer, []))
  | behindDigit {front commas back : List Token} {d : Token} (hd : d.isDigit)
      (hcommas : ∀ t ∈ commas, t = .comma) (hback : ∀ t ∈ back, t.isDigit = false)
      (hstop : back.head? ≠ some .comma)
      (hinteger : a.integer = front ++ d :: (commas ++ back)) :
      Place a (some (front ++ d :: commas, back))

theorem place_insertion? (a : Anatomy) : Place a a.insertion? := by
  unfold insertion?
  split
  · next front back hsplit =>
    obtain ⟨⟨init, d, rfl, hd⟩, hback⟩ := splitAfterLast_spec hsplit
    rw [List.append_assoc, List.singleton_append]
    refine .behindDigit hd (fun t ht => by simpa using List.mem_takeWhile_imp ht)
      (fun t ht => hback t ((List.dropWhile_sublist _).subset ht)) (fun hhead => ?_) ?_
    · have hstop := back.head?_dropWhile_not (· = .comma)
      rw [hhead] at hstop
      simp at hstop
    · rw [List.takeWhile_append_dropWhile, ← splitAfterLast_append hsplit, List.append_assoc]
      rfl
  · next hsplit =>
    have hdigit := splitAfterLast_eq_none_iff.1 hsplit
    cases hfraction : a.fraction? with
    | none => exact .none hdigit hfraction
    | some fraction => exact .atPoint hdigit hfraction

/-- What stays of the fraction can stand where the fraction stood. -/
theorem standsIn_leftover {a : Anatomy} (h : Regular a) {behind behind' : List Token}
    (hold : Token.Legible (a.fractionPart ++ (a.tail ++ behind)))
    (hbehind : Token.StandsIn behind behind') :
    Token.StandsIn (a.fractionPart ++ (a.tail ++ behind)) (a.leftover ++ (a.tail ++ behind')) := by
  have htail := hbehind.marker h.tail hold.of_append
  unfold fractionPart leftover at *
  cases hfraction : a.fraction? with
  | none => exact htail
  | some fraction =>
    rw [hfraction] at hold
    exact (htail.filter hold.2).drop .point

/-- **A section with another fraction may be written for the section.** -/
theorem substitutes_rewritten {a : Anatomy} (h : Regular a)
    {fraction : List Token → List Token}
    (hfraction : Token.IsFraction (fraction a.fractionDigits)) :
    Token.Substitutes a.tokens (a.rewritten fraction) := by
  unfold rewritten rewrittenMantissa
  generalize hplace : a.insertion? = place
  have hcases := place_insertion? a
  rw [hplace] at hcases
  cases hcases with
  | none => exact Token.Substitutes.refl a.tokens
  | atPoint hdigit hpoint =>
    intro behind behind' hold hbehind
    rw [tokens, mantissa, List.append_assoc, List.append_assoc] at hold
    have hrest := standsIn_leftover h hold.of_append hbehind
    have hnew : Token.Legible (fraction a.fractionDigits ++ (a.leftover ++ (a.tail ++ behind'))) :=
      hfraction.legible_append hrest.legible
    simp only [List.nil_append, List.append_assoc]
    refine hold.append_of_milder hnew ?_
    -- The fraction starts with the point that stood here, or there is none.
    cases hempty : fraction a.fractionDigits with
    | nil => exact hrest.milder
    | cons t digits =>
      rw [hempty] at hfraction
      obtain ⟨rfl, -⟩ := hfraction
      rw [fractionPart, hpoint]
      exact Token.Milder.of_head (by decide) _ _
  | @behindDigit front commas back d hd hcommas hback hstop hinteger =>
    intro behind behind' hold hbehind
    rw [tokens, mantissa, List.append_assoc, List.append_assoc, hinteger, List.append_assoc,
      List.cons_append, List.append_assoc] at hold
    have hbehindDigit := hold.of_append.2.of_append
    have hrest := standsIn_leftover h hbehindDigit.of_append hbehind
    have hback' := hrest.append
      (fun t ht hzero => absurd (hzero ▸ hback t ht) (by decide)) hbehindDigit
    have hnew : Token.Legible (commas ++ (fraction a.fractionDigits ++
        (back ++ (a.leftover ++ (a.tail ++ behind'))))) :=
      (hfraction.legible_append hback'.legible).append fun t ht => hcommas t ht ▸ fun _ => trivial
    simp only [List.cons_append, List.append_assoc]
    exact hold.append_of_milder ⟨Token.fits_of_isDigit hd _, hnew⟩ (Token.milder_of_isDigit hd _ _)

/-- A rewritten section has its tokens and those of the new fraction. -/
theorem mem_rewritten {a : Anatomy} {fraction : List Token → List Token} {t : Token}
    (h : t ∈ a.rewritten fraction) : t ∈ a.tokens ∨ t ∈ fraction a.fractionDigits := by
  have hleftover : t ∈ a.leftover → t ∈ a.fractionPart := fun ht => by
    unfold leftover at ht
    unfold fractionPart
    cases hpoint : a.fraction? with
    | none => simp [hpoint] at ht
    | some fraction =>
      rw [hpoint] at ht
      exact List.mem_cons_of_mem _ (List.mem_filter.1 ht).1
  unfold rewritten rewrittenMantissa at h
  simp only [tokens, mantissa, List.mem_append]
  cases hplace : a.insertion? with
  | none =>
    rw [hplace] at h
    simp only [mantissa, List.mem_append] at h
    tauto
  | some parts =>
    obtain ⟨front, back⟩ := parts
    rw [hplace] at h
    have hcases := place_insertion? a
    rw [hplace] at hcases
    have hinteger : t ∈ front ∨ t ∈ back → t ∈ a.integer := by
      cases hcases with
      | atPoint => simp
      | behindDigit hd hcommas hback hstop heq =>
        rw [heq]
        simp only [List.mem_append, List.mem_cons]
        tauto
    simp only [List.mem_append] at h
    tauto

/-- Rewriting brings no separator into a section. -/
theorem semicolon_notMem_rewritten {a : Anatomy} {fraction : List Token → List Token}
    (hfraction : Token.IsFraction (fraction a.fractionDigits)) (h : .semicolon ∉ a.tokens) :
    .semicolon ∉ a.rewritten fraction := fun hmem => by
  rcases mem_rewritten hmem with htokens | hnew
  · exact h htokens
  · rcases hfraction.isDigit_or_eq_point hnew with hdigit | hpoint <;> contradiction

end Anatomy

/-! ## The whole format -/

theorem sources_intercalate (runs : List (List Token)) :
    Token.sources ([.semicolon].intercalate runs) = joinWith [';'] (runs.map Token.sources) := by
  induction runs with
  | nil => rfl
  | cons run runs ih =>
    cases runs with
    | nil => simp [joinWith]
    | cons next runs =>
      rw [List.intercalate_cons_cons, Token.sources_append, Token.sources_append, ih]
      simp [joinWith, Token.source]

section Rewriting

variable {change : Text → Text} {fraction : List Token → List Token}

/-- The new fraction of a text is that of its tokens. -/
theorem replaceFraction_eq
    (h : ∀ digits, change (Token.sources digits) = Token.sources (fraction digits))
    (source : Text) : replaceFraction change source =
      Token.sources ((Anatomy.ofTokens (lex source)).rewritten fraction) := by
  unfold replaceFraction Anatomy.rewritten Anatomy.rewrittenMantissa
  dsimp only
  cases (Anatomy.ofTokens (lex source)).insertion? with
  | none =>
    change source = Token.sources (Anatomy.ofTokens (lex source)).tokens
    rw [Anatomy.tokens_ofTokens, sources_lex]
  | some parts =>
    simp only [Token.sources_append, ← h, List.append_assoc]
    rfl

/-- **The rewritten format is written from the rewritten sections.** -/
theorem changeSections_eq
    (h : ∀ digits, change (Token.sources digits) = Token.sources (fraction digits))
    (format : Text) : changeSections (replaceFraction change) format =
      Token.sources ([.semicolon].intercalate
        ((sectionTokens format).map fun run => (Anatomy.ofTokens run).rewritten fraction)) := by
  have htexts : (sectionTexts format).map (replaceFraction change) = ((sectionTokens format).map
      fun run => (Anatomy.ofTokens run).rewritten fraction).map Token.sources := by
    rw [← map_lex_sectionTexts, List.map_map, List.map_map]
    exact List.map_congr_left fun text _ => replaceFraction_eq h text
  rw [changeSections, htexts, sources_intercalate]

theorem isFraction_fractionDigits
    (hfraction : ∀ digits, (∀ d ∈ digits, d.isDigit) → Token.IsFraction (fraction digits))
    (a : Anatomy) : Token.IsFraction (fraction a.fractionDigits) :=
  hfraction _ fun _ hd => (List.mem_filter.1 hd).2

/-- A section with another fraction may be written for the section, -/
theorem substitutes_section
    (hfraction : ∀ digits, (∀ d ∈ digits, d.isDigit) → Token.IsFraction (fraction digits))
    (run : List Token) : Token.Substitutes run ((Anatomy.ofTokens run).rewritten fraction) := by
  have hsubstitutes := Anatomy.substitutes_rewritten (Anatomy.regular_ofTokens run)
    (isFraction_fractionDigits hfraction _)
  rwa [Anatomy.tokens_ofTokens] at hsubstitutes

/-- and it is a section still. -/
theorem semicolon_notMem_section
    (hfraction : ∀ digits, (∀ d ∈ digits, d.isDigit) → Token.IsFraction (fraction digits))
    {format : Text} {run : List Token} (hrun : run ∈ sectionTokens format) :
    .semicolon ∉ (Anatomy.ofTokens run).rewritten fraction := by
  refine Anatomy.semicolon_notMem_rewritten (isFraction_fractionDigits hfraction _) ?_
  rw [Anatomy.tokens_ofTokens]
  exact semicolon_notMem_sectionTokens hrun

/-- So it is read as it was written, also alone. -/
theorem lex_section
    (hfraction : ∀ digits, (∀ d ∈ digits, d.isDigit) → Token.IsFraction (fraction digits))
    {format : Text} {run : List Token} (hrun : run ∈ sectionTokens format) :
    lex (Token.sources ((Anatomy.ofTokens run).rewritten fraction)) =
      (Anatomy.ofTokens run).rewritten fraction := by
  have halone : Token.Legible (run ++ []) := (List.append_nil run).symm ▸ legible_sectionTokens hrun
  have hlegible := substitutes_section hfraction run halone .nil
  rw [List.append_nil] at hlegible
  exact Token.lex_sources hlegible

/-- **The text `new` is `old` with another fraction.** Both are one section, and `old` has
the anatomy `a`. -/
structure Section.IsRewritten (fraction : List Token → List Token) (a : Anatomy)
    (old new : Text) : Prop where
  regular : a.Regular
  lex_old : lex old = a.tokens
  lex_new : lex new = a.rewritten fraction
  semicolon_old : .semicolon ∉ lex old
  semicolon_new : .semicolon ∉ lex new

theorem isRewritten_section
    (hfraction : ∀ digits, (∀ d ∈ digits, d.isDigit) → Token.IsFraction (fraction digits))
    {format : Text} {run : List Token} (hrun : run ∈ sectionTokens format) :
    Section.IsRewritten fraction (.ofTokens run) (Token.sources run)
      (Token.sources ((Anatomy.ofTokens run).rewritten fraction)) := by
  have hold := Token.lex_sources (legible_sectionTokens hrun)
  have hnew := lex_section hfraction hrun
  exact
    { regular := Anatomy.regular_ofTokens run
      lex_old := by rw [hold, Anatomy.tokens_ofTokens]
      lex_new := hnew
      semicolon_old := hold.symm ▸ semicolon_notMem_sectionTokens hrun
      semicolon_new := hnew.symm ▸ semicolon_notMem_section hfraction hrun }

/-- **And it is read as them.** -/
theorem sectionTokens_changeSections
    (h : ∀ digits, change (Token.sources digits) = Token.sources (fraction digits))
    (hfraction : ∀ digits, (∀ d ∈ digits, d.isDigit) → Token.IsFraction (fraction digits))
    (format : Text) :
    sectionTokens (changeSections (replaceFraction change) format) =
      (sectionTokens format).map fun run => (Anatomy.ofTokens run).rewritten fraction := by
  have hlegible : Token.Legible ([.semicolon].intercalate ((sectionTokens format).map
      fun run => (Anatomy.ofTokens run).rewritten fraction)) := by
    refine Token.legible_intercalate (fun run _ => substitutes_section hfraction run) ?_
    rw [sectionTokens_eq, List.intercalate_splitOn]
    exact Token.legible_lex format
  rw [sectionTokens_eq, changeSections_eq h, Token.lex_sources hlegible]
  refine List.splitOn_intercalate _ (fun run hrun => ?_) (by simp [sectionTokens])
  obtain ⟨old, hold, rfl⟩ := List.mem_map.1 hrun
  exact semicolon_notMem_section hfraction hold

/-- So what holds of each section of a format and the rewritten one holds section by
section. -/
theorem forall₂_changeSections_iff
    (h : ∀ digits, change (Token.sources digits) = Token.sources (fraction digits))
    (hfraction : ∀ digits, (∀ d ∈ digits, d.isDigit) → Token.IsFraction (fraction digits))
    (format : Text) {relates : Section → Section → Prop} :
    List.Forall₂ relates ((sectionTexts format).map Section.ofText)
        ((sectionTexts (changeSections (replaceFraction change) format)).map Section.ofText) ↔
      ∀ run ∈ sectionTokens format, relates (.ofText (Token.sources run))
        (.ofText (Token.sources ((Anatomy.ofTokens run).rewritten fraction))) := by
  rw [sectionTexts, sectionTexts, sectionTokens_changeSections h hfraction, List.map_map,
    List.map_map, List.map_map, List.forall₂_map_left_iff, List.forall₂_map_right_iff,
    List.forall₂_same]
  rfl

/-- A format of several sections has several still. -/
theorem semicolon_mem_changeSections
    (h : ∀ digits, change (Token.sources digits) = Token.sources (fraction digits))
    (hfraction : ∀ digits, (∀ d ∈ digits, d.isDigit) → Token.IsFraction (fraction digits))
    {format : Text} (hsemicolon : .semicolon ∈ lex format) :
    ';' ∈ changeSections (replaceFraction change) format := by
  refine of_not_not fun hnew => ?_
  have hsections := sectionTokens_changeSections h hfraction format
  rw [sectionTokens_eq, List.splitOn_eq_singleton (semicolon_notMem_lex hnew)] at hsections
  obtain ⟨run, hrun⟩ : ∃ run, sectionTokens format = [run] :=
    List.length_eq_one_iff.1 (by simpa using (congrArg List.length hsections).symm)
  have hwhole : [.semicolon].intercalate (sectionTokens format) = lex format := by
    rw [sectionTokens_eq, List.intercalate_splitOn]
  have hmem : run ∈ sectionTokens format := by simp [hrun]
  rw [hrun, List.intercalate_singleton] at hwhole
  exact semicolon_notMem_sectionTokens hmem (hwhole ▸ hsemicolon)

/-- A format of one section is that section. -/
theorem changeSections_of_not_mem
    (h : ∀ digits, change (Token.sources digits) = Token.sources (fraction digits))
    {format : Text} (hsemicolon : .semicolon ∉ lex format) :
    changeSections (replaceFraction change) format =
      Token.sources ((Anatomy.ofTokens (lex format)).rewritten fraction) := by
  rw [changeSections, sectionTexts_of_not_mem hsemicolon, List.map_singleton, replaceFraction_eq h]
  simp [joinWith]

end Rewriting

end TickLabels
