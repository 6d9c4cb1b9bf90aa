import TickLabels.Pattern.Token

/-!
# Lexing

`lex` reads a format from left to right and never fails. `sources_lex` says
that nothing is lost: the tokens, written one after the other, are the
format. `Token.first` is the single step, of which `source_first` says the
same.
-/

namespace TickLabels

namespace Token

/-- The characters that open a quotation. -/
def isQuote (c : Char) : Bool :=
  c = '"' || c = '\''

/-- The token of a character that is read alone. -/
def ofChar (c : Char) : Token :=
  match c with
  | '0' => .zero
  | '#' => .hash
  | '.' => .point
  | ',' => .comma
  | ';' => .semicolon
  | '%' => .percent
  | '‰' => .permille
  | c => .literal c

/-- A quotation runs to the next quote of its own kind, or to the end. -/
def quotation (quote : Char) (rest : Text) : Token × Text :=
  let text := rest.takeWhile (· != quote)
  match rest.dropWhile (· != quote) with
  | [] => (.quoted quote text false, [])
  | _ :: after => (.quoted quote text true, after)

/-- A backslash makes the next character stand for itself; at the end of a
format it stands for itself. -/
def escape : Text → Token × Text
  | [] => (.literal '\\', [])
  | c :: after => (.escaped c, after)

/-- The sign at the head of a text, and what follows it. -/
def leadingSign : Text → Option Char × Text
  | '+' :: rest => (some '+', rest)
  | '-' :: rest => (some '-', rest)
  | rest => (none, rest)

/-- A letter `e` marks an exponent when an optional sign and at least one
zero follow; any other `e` stands for itself. -/
def marker (letter : Char) (rest : Text) : Token × Text :=
  let signed := leadingSign rest
  let zeros := signed.2.takeWhile (· == '0')
  if zeros = [] then (.literal letter, rest)
  else (.exponent ⟨letter = 'E', signed.1, zeros.length⟩, signed.2.dropWhile (· == '0'))

/-- The first token of a text that starts with `c`, and what follows it. -/
def first (c : Char) (rest : Text) : Token × Text :=
  if isQuote c then quotation c rest
  else if c = '\\' then escape rest
  else if c = 'e' ∨ c = 'E' then marker c rest
  else (ofChar c, rest)

/-! ## What one step does -/

theorem source_ofChar (c : Char) : (ofChar c).source = [c] := by
  unfold ofChar
  split <;> simp [source]

theorem source_quotation (quote : Char) (rest : Text) :
    (quotation quote rest).1.source ++ (quotation quote rest).2 = quote :: rest := by
  have split_rest := rest.takeWhile_append_dropWhile (p := (· != quote))
  unfold quotation
  split
  · next h => rw [h] at split_rest; simpa [source] using split_rest
  · next c after h =>
    have hc : c = quote := by
      have := List.head?_dropWhile_not (· != quote) rest
      rw [h] at this
      simpa using this
    rw [h, hc] at split_rest
    simpa [source] using split_rest

theorem source_escape (rest : Text) :
    (escape rest).1.source ++ (escape rest).2 = '\\' :: rest := by
  cases rest <;> simp [escape, source]

theorem source_leadingSign (rest : Text) :
    (leadingSign rest).1.toList ++ (leadingSign rest).2 = rest := by
  unfold leadingSign
  split <;> simp

/-- A run of zeros is determined by its length. -/
theorem takeWhile_zeros (digits : Text) :
    List.replicate (digits.takeWhile (· == '0')).length '0' =
      digits.takeWhile (· == '0') := by
  refine (List.eq_replicate_iff.2 ⟨rfl, fun c hc => ?_⟩).symm
  simpa using List.all_eq_true.1 (List.all_takeWhile (p := (· == '0')) (l := digits)) c hc

theorem source_marker {letter : Char} (h : letter = 'e' ∨ letter = 'E') (rest : Text) :
    (marker letter rest).1.source ++ (marker letter rest).2 = letter :: rest := by
  have hsign := source_leadingSign rest
  have hzeros := (leadingSign rest).2.takeWhile_append_dropWhile (p := (· == '0'))
  have hletter : (if letter = 'E' then 'E' else 'e') = letter := by
    rcases h with rfl | rfl <;> decide
  unfold marker
  dsimp only
  split
  · simp [source]
  · simp only [source, ExponentMarker.source, ExponentMarker.letter, List.cons_append,
      decide_eq_true_eq, hletter, takeWhile_zeros, List.append_assoc, hzeros, hsign]

/-- **A step loses nothing**: the token, written out, followed by what is
left, is what was read. -/
theorem source_first (c : Char) (rest : Text) :
    (first c rest).1.source ++ (first c rest).2 = c :: rest := by
  unfold first
  split
  · exact source_quotation c rest
  · split
    · next h => subst h; exact source_escape rest
    · split
      · next h => exact source_marker h rest
      · simp [source_ofChar]

/-- So what is left is no longer than what followed the first character. -/
theorem length_first_le (c : Char) (rest : Text) : (first c rest).2.length ≤ rest.length := by
  have hlen := congrArg List.length (source_first c rest)
  have hpos := List.length_pos_iff.2 (source_ne_nil (first c rest).1)
  simp only [List.length_append, List.length_cons] at hlen
  omega

end Token

/-- The tokens of a format. -/
def lex : Text → List Token
  | [] => []
  | c :: rest => (Token.first c rest).1 :: lex (Token.first c rest).2
termination_by format => format.length
decreasing_by
  have := Token.length_first_le c rest
  simp only [List.length_cons]
  omega

@[simp] theorem lex_nil : lex [] = [] := by
  rw [lex]

/-- The equation of `lex` at one step. -/
theorem lex_cons (c : Char) (rest : Text) :
    lex (c :: rest) = (Token.first c rest).1 :: lex (Token.first c rest).2 := by
  rw [lex]

/-- **Lexing is lossless.** -/
theorem sources_lex (format : Text) : Token.sources (lex format) = format := by
  fun_induction lex format with
  | case1 => rfl
  | case2 c rest ih => rw [Token.sources_cons, ih, Token.source_first]

end TickLabels
