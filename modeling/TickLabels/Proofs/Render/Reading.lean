import TickLabels.Culture.Known
import TickLabels.Proofs.Decimal.Rounding
import TickLabels.Render.Standard
/-!
# Reading numbers

A number is written as digits with a decimal separator and an exponent, either of which
may be missing (`WrittenNumber.text`). Where a culture keeps its separator and its sign
apart from digits, the text is read back as what was written (`readUnsigned?_text`), and
so is the number with its sign (`readNumber?_withSign`).
-/

namespace TickLabels

/-! ## What is written -/

/-- An exponent, which has a sign in any case. -/
structure WrittenExponent where
  negative : Bool
  digits : List Digit
deriving DecidableEq, Repr

/-- A number without a sign. -/
structure WrittenNumber where
  mantissa : PlainDigits
  exponent? : Option WrittenExponent
deriving DecidableEq, Repr

namespace WrittenExponent

/-- The power of ten. -/
def value (e : WrittenExponent) : ℤ :=
  if e.negative then -valueOf e.digits else valueOf e.digits

def text (c : Culture) (upper : Bool) (e : WrittenExponent) : Text :=
  (if upper then 'E' else 'e') ::
    ((if e.negative then c.negativeSign else ['+']) ++ digitText e.digits)

end WrittenExponent

namespace WrittenNumber

/-- The number that is written. -/
def value (n : WrittenNumber) : ℚ :=
  n.mantissa.value * 10 ^ (n.exponent?.elim 0 WrittenExponent.value)

def text (c : Culture) (upper : Bool) (n : WrittenNumber) : Text :=
  digitText n.mantissa.integer ++
    (fractionPart c n.mantissa.fraction ++ n.exponent?.elim [] (WrittenExponent.text c upper))

/-- A digit stands in front of the separator, and one in an exponent. -/
structure IsComplete (n : WrittenNumber) : Prop where
  integer_ne : n.mantissa.integer ≠ []
  exponent_ne : ∀ e ∈ n.exponent?, e.digits ≠ []

end WrittenNumber

/-! ## Reading -/

/-- The digits that a text starts with, and what is behind them. -/
def readDigits (text : Text) : List Digit × Text :=
  ((text.takeWhile Char.isDigit).map fun c => Digit.ofNat (c.toNat - '0'.toNat),
    text.dropWhile Char.isDigit)

/-- The digits behind a decimal separator. -/
def readFraction (c : Culture) : Text → List Digit × Text
  | [] => ([], [])
  | first :: rest =>
    if first = c.decimalSeparator then readDigits rest else ([], first :: rest)

/-- Whether a negative sign stands in front, and what is behind a sign. -/
def readSign (c : Culture) (text : Text) : Bool × Text :=
  if c.negativeSign <+: text then (true, text.drop c.negativeSign.length)
  else
    match text with
    | '+' :: rest => (false, rest)
    | _ => (false, text)

/-- An exponent behind its letter. Nothing may follow it. -/
def readExponent? (c : Culture) (text : Text) : Option WrittenExponent :=
  let (negative, rest) := readSign c text
  let (digits, rest) := readDigits rest
  if digits ≠ [] ∧ rest = [] then some ⟨negative, digits⟩ else none

/-- A number without a sign. -/
def readUnsigned? (c : Culture) (text : Text) : Option WrittenNumber :=
  let (integer, rest) := readDigits text
  let (fraction, rest) := readFraction c rest
  if integer = [] then none
  else
    match rest with
    | [] => some ⟨⟨integer, fraction⟩, none⟩
    | letter :: rest =>
      if letter = 'E' ∨ letter = 'e' then
        (readExponent? c rest).map fun e => ⟨⟨integer, fraction⟩, some e⟩
      else none

/-- **The number that a text of a culture is read as.** -/
def readNumber? (c : Culture) (text : Text) : Option ℚ :=
  let (negative, rest) := readSign c text
  (readUnsigned? c rest).map fun n => if negative then -n.value else n.value

/-- **Numbers of a culture can be read**: its separator is no digit and no exponent
letter, and its negative sign starts with something that is no digit and no plus. -/
structure Culture.IsLegible (c : Culture) : Prop where
  separator : c.decimalSeparator.isDigit = false ∧ c.decimalSeparator ≠ 'E' ∧
    c.decimalSeparator ≠ 'e'
  sign : ∃ first rest, c.negativeSign = first :: rest ∧ first.isDigit = false ∧ first ≠ '+'

theorem Culture.isLegible_enUS : enUS.IsLegible :=
  ⟨by decide, '-', [], rfl, by decide, by decide⟩

/-! ## What is written is read -/

theorem readDigits_append (ds : List Digit) {rest : Text}
    (h : ∀ first ∈ rest.head?, first.isDigit = false) :
    readDigits (digitText ds ++ rest) = (ds, rest) := by
  have hdigit : ∀ c ∈ digitText ds, c.isDigit := fun c hc => isDigit_of_mem_digitText hc
  have hread : ∀ d : Digit, Digit.ofNat (d.char.toNat - '0'.toNat) = d := by decide
  have htake : rest.takeWhile Char.isDigit = [] ∧ rest.dropWhile Char.isDigit = rest := by
    cases rest with
    | nil => exact ⟨rfl, rfl⟩
    | cons first rest =>
      have hfirst := h first rfl
      simp [hfirst]
  rw [readDigits, List.takeWhile_append_of_pos hdigit, List.dropWhile_append_of_pos hdigit,
    htake.1, htake.2, List.append_nil, digitText, List.map_map]
  exact congrArg (·, rest) (List.map_id'' hread ds)

theorem readDigits_digitText (ds : List Digit) : readDigits (digitText ds) = (ds, []) := by
  have h : readDigits (digitText ds ++ []) = (ds, []) := readDigits_append ds (by simp)
  rwa [List.append_nil] at h

theorem readSign_negative (c : Culture) (text : Text) :
    readSign c (c.negativeSign ++ text) = (true, text) := by
  unfold readSign
  rw [if_pos (List.prefix_append _ _), List.drop_left]

namespace Culture.IsLegible

variable {c : Culture} (hc : c.IsLegible)
include hc

/-- The negative sign does not start like a digit or a plus. -/
theorem not_negativeSign_prefix {text : Text}
    (h : ∀ first ∈ text.head?, first.isDigit ∨ first = '+') : ¬ c.negativeSign <+: text := by
  obtain ⟨first, rest, hsign, hdigit, hplus⟩ := hc.sign
  rintro ⟨tail, rfl⟩
  rcases h first (by rw [hsign]; rfl) with h | h
  · rw [hdigit] at h
    contradiction
  · exact hplus h

theorem readSign_plus (text : Text) : readSign c ('+' :: text) = (false, text) := by
  unfold readSign
  rw [if_neg (hc.not_negativeSign_prefix (by simp))]
  rfl

theorem readSign_of_head? {text : Text} (h : ∀ first ∈ text.head?, first.isDigit) :
    readSign c text = (false, text) := by
  unfold readSign
  rw [if_neg (hc.not_negativeSign_prefix fun first hfirst => .inl (h first hfirst))]
  split
  · have := h '+' rfl
    contradiction
  · rfl

theorem readFraction_append (ds : List Digit) {rest : Text}
    (h : ∀ first ∈ rest.head?, first = 'E' ∨ first = 'e') :
    readFraction c (fractionPart c ds ++ rest) = (ds, rest) := by
  have hdigit : ∀ first ∈ rest.head?, first.isDigit = false := by
    intro first hfirst
    rcases h first hfirst with rfl | rfl <;> rfl
  unfold fractionPart
  split
  · next hnil =>
    rw [hnil, List.nil_append]
    cases rest with
    | nil => rfl
    | cons first rest =>
      have hne : first ≠ c.decimalSeparator := by
        rintro rfl
        rcases h _ rfl with h | h
        · exact hc.separator.2.1 h
        · exact hc.separator.2.2 h
      rw [readFraction, if_neg hne]
  · rw [List.cons_append, readFraction, if_pos rfl, readDigits_append ds hdigit]

theorem readExponent?_text {e : WrittenExponent} (he : e.digits ≠ []) :
    readExponent? c ((if e.negative then c.negativeSign else ['+']) ++ digitText e.digits) =
      some e := by
  have hsign : readSign c ((if e.negative then c.negativeSign else ['+']) ++ digitText e.digits) =
      (e.negative, digitText e.digits) := by
    cases e.negative with
    | true => exact readSign_negative c _
    | false => exact hc.readSign_plus _
  simp only [readExponent?, hsign, readDigits_digitText, ne_eq, he, not_false_eq_true, and_self,
    if_true]

/-- **A number is read as it was written.** -/
theorem readUnsigned?_text {n : WrittenNumber} (hn : n.IsComplete) (upper : Bool) :
    readUnsigned? c (n.text c upper) = some n := by
  obtain ⟨⟨integer, fraction⟩, exponent?⟩ := n
  have hletter : ∀ first ∈ (exponent?.elim [] (WrittenExponent.text c upper)).head?,
      first = 'E' ∨ first = 'e' := by
    intro first hfirst
    cases exponent? with
    | none => simp at hfirst
    | some e =>
      simp only [Option.elim_some, WrittenExponent.text, List.head?_cons, Option.mem_def,
        Option.some.injEq] at hfirst
      rw [← hfirst]
      split <;> simp
  have hinteger : ∀ first ∈ (fractionPart c fraction ++
      exponent?.elim [] (WrittenExponent.text c upper)).head?, first.isDigit = false := by
    intro first hfirst
    unfold fractionPart at hfirst
    split at hfirst
    · rcases hletter first hfirst with rfl | rfl <;> rfl
    · obtain rfl : c.decimalSeparator = first := by simpa using hfirst
      exact hc.separator.1
  have hne : integer ≠ [] := hn.integer_ne
  simp only [readUnsigned?, WrittenNumber.text, readDigits_append integer hinteger,
    hc.readFraction_append fraction hletter, if_neg hne]
  cases exponent? with
  | none => rfl
  | some e =>
    have he : e.digits ≠ [] := hn.exponent_ne e rfl
    simp only [Option.elim_some, WrittenExponent.text, hc.readExponent?_text he, Option.map_some]
    rw [if_pos (by cases upper <;> simp)]

/-- **And so is its sign.** -/
theorem readNumber?_withSign {n : WrittenNumber} (hn : n.IsComplete) (upper negative : Bool) :
    readNumber? c (withSign c negative (n.text c upper)) =
      some (if negative then -n.value else n.value) := by
  have hsign : readSign c (withSign c negative (n.text c upper)) =
      (negative, n.text c upper) := by
    cases negative with
    | true => exact readSign_negative c _
    | false =>
      refine hc.readSign_of_head? ?_
      obtain ⟨lead, rest, hinteger⟩ := List.exists_cons_of_ne_nil hn.integer_ne
      intro first hfirst
      obtain rfl : lead.char = first := by
        simpa [withSign, WrittenNumber.text, hinteger, digitText] using hfirst
      exact lead.isDigit_char
  simp only [readNumber?, hsign, hc.readUnsigned?_text hn, Option.map_some]

end Culture.IsLegible

end TickLabels
