import TickLabels.Pattern.Lexer

/-!
# Spans

Where the tokens of a format stand in it, in bytes of UTF-8. `spans`
lists every token with its span and closes with an empty span at the end.
A `Scanner` hands the same spans out one at a time, and repeats the last
one for as long as it is asked.
-/

namespace TickLabels

/-- A stretch of a format, from byte `start` to byte `stop`, with the token
that stands there. At the end of the format there is none. -/
structure Span where
  token? : Option Token
  start : Nat
  stop : Nat
deriving DecidableEq, Repr

namespace Span

/-- The empty span at the end of a format. -/
def atEnd (position : Nat) : Span :=
  ⟨none, position, position⟩

/-- The span of a token that starts at `position`. -/
def ofToken (position : Nat) (t : Token) : Span :=
  ⟨some t, position, position + utf8Length t.source⟩

/-- The spans of tokens that follow one another from `position` on, and the
empty span behind them. -/
def ofTokens (position : Nat) : List Token → List Span
  | [] => [atEnd position]
  | t :: ts => ofToken position t :: ofTokens (position + utf8Length t.source) ts

end Span

/-- The spans of all tokens of a format, closed by the empty span at its
end. -/
def spans (format : Text) : List Span :=
  Span.ofTokens 0 (lex format)

/-- A place in a format: what is still to be read and the number of bytes
read so far. -/
structure Scanner where
  rest : Text
  position : Nat

namespace Scanner

/-- The start of a format. -/
def ofFormat (format : Text) : Scanner :=
  ⟨format, 0⟩

/-- The span at this place, and the place behind it. At the end the scanner
stays where it is. -/
def next (s : Scanner) : Span × Scanner :=
  match s.rest with
  | [] => (.atEnd s.position, s)
  | c :: rest =>
    let step := Token.first c rest
    let span := Span.ofToken s.position step.1
    (span, ⟨step.2, span.stop⟩)

/-- The next `count` spans. -/
def take (s : Scanner) : Nat → List Span
  | 0 => []
  | count + 1 => s.next.1 :: s.next.2.take count

/-- At the end every further span is the empty one. -/
theorem take_atEnd (position count : Nat) :
    take ⟨[], position⟩ count = List.replicate count (.atEnd position) := by
  induction count with
  | zero => rfl
  | succ count ih => simp [take, next, ih, List.replicate_succ]

/-- **The two readings agree**: as many steps as there are spans hand out
exactly those, and later steps repeat the span at the end. -/
theorem take_eq_ofTokens (rest : Text) (position extra : Nat) :
    take ⟨rest, position⟩ ((Span.ofTokens position (lex rest)).length + extra) =
      Span.ofTokens position (lex rest) ++
        List.replicate extra (.atEnd (position + utf8Length rest)) := by
  fun_induction lex rest generalizing position with
  | case1 =>
    rw [show (Span.ofTokens position []).length + extra = extra + 1 by
      simp [Span.ofTokens]; omega, take_atEnd]
    simp [Span.ofTokens, List.replicate_succ]
  | case2 c rest ih =>
    have hlen : utf8Length (Token.first c rest).1.source + utf8Length (Token.first c rest).2 =
        utf8Length (c :: rest) := by
      rw [← utf8Length_append, Token.source_first]
    rw [show (Span.ofTokens position ((Token.first c rest).1 :: lex (Token.first c rest).2)).length
        + extra = ((Span.ofTokens (position + utf8Length (Token.first c rest).1.source)
          (lex (Token.first c rest).2)).length + extra) + 1 by
      simp [Span.ofTokens]; omega]
    simp only [take, next, Span.ofToken, Span.ofTokens, List.cons_append, List.cons.injEq, true_and]
    rw [ih, ← hlen, Nat.add_assoc]

end Scanner

end TickLabels
