import Mathlib.Data.List.TakeWhile
import TickLabels.Pattern.Section
import TickLabels.Pattern.Sections
import TickLabels.Pattern.Span
import TickLabels.Proofs.Pattern.Relexing

/-!
# Sections read on their own

A format is cut into sections between its tokens, and each section is then read
again without its neighbours. Nothing changes by that: what stands in front of a
cut is read as before, since a token never looks past the text it fits, and what
stands behind a cut starts with a new token. `sectionTokens_eq` says that the
sections are the runs between the semicolons, `map_lex_sectionTexts` that each is read
as its run, and `spans_sectionTexts` where its spans stand in the format.
-/

namespace TickLabels

namespace Token

/-! ## The runs between the semicolons -/

/-- The cut is the split at the semicolons. -/
theorem cut_eq_splitOn (tokens : List Token) :
    (cut tokens).1 :: (cut tokens).2 = tokens.splitOn .semicolon := by
  induction tokens with
  | nil => rfl
  | cons t ts ih =>
    rw [List.splitOn_cons_eq_if_modifyHead, ← ih]
    by_cases h : t = .semicolon
    · simp [cut, h]
    · simp [cut, h]

/-- The first run is a piece from the front. -/
theorem cut_fst_append (tokens : List Token) : ∃ back, (cut tokens).1 ++ back = tokens := by
  induction tokens with
  | nil => exact ⟨[], rfl⟩
  | cons t ts ih =>
    by_cases h : t = .semicolon
    · exact ⟨t :: ts, by simp [cut, h]⟩
    · obtain ⟨back, hback⟩ := ih
      exact ⟨back, by simp [cut, h, hback]⟩

/-- No run holds a separator. -/
theorem semicolon_notMem_cut (tokens : List Token) :
    .semicolon ∉ (cut tokens).1 ∧ ∀ run ∈ (cut tokens).2, .semicolon ∉ run := by
  induction tokens with
  | nil => exact ⟨by simp [cut], by simp [cut]⟩
  | cons t ts ih =>
    obtain ⟨hfirst, hrest⟩ := ih
    by_cases h : t = .semicolon
    · rw [cut, if_pos h]
      exact ⟨List.not_mem_nil, List.forall_mem_cons.2 ⟨hfirst, hrest⟩⟩
    · rw [cut, if_neg h]
      refine ⟨fun hmem => ?_, hrest⟩
      rcases List.mem_cons.1 hmem with heq | hmem
      · exact h heq.symm
      · exact hfirst hmem

/-- The end of a format asks nothing of the tokens in front of it. -/
theorem milder_nil (text : Text) : Milder text [] :=
  ⟨fun _ => rfl, by simp, fun hopens => by simp [opensExponent, leadingSign] at hopens⟩

/-- What is legible stays so when its end is cut off between two tokens. -/
theorem Legible.front {front back : List Token} (h : Legible (front ++ back)) : Legible front := by
  have hnil : Legible (front ++ []) := h.append_of_milder trivial (milder_nil _)
  rwa [List.append_nil] at hnil

/-- **The runs of what is legible are legible.** -/
theorem legible_cut {tokens : List Token} (h : Legible tokens) :
    Legible (cut tokens).1 ∧ ∀ run ∈ (cut tokens).2, Legible run := by
  refine ⟨?_, ?_⟩
  · obtain ⟨back, hback⟩ := cut_fst_append tokens
    rw [← hback] at h
    exact h.front
  · induction tokens with
    | nil => simp [cut]
    | cons t ts ih =>
      by_cases ht : t = .semicolon
      · rw [cut, if_pos ht]
        obtain ⟨back, hback⟩ := cut_fst_append ts
        refine List.forall_mem_cons.2 ⟨?_, ih h.2⟩
        have hts := h.2
        rw [← hback] at hts
        exact hts.front
      · rw [cut, if_neg ht]
        exact ih h.2

end Token

theorem sectionTokens_eq (format : Text) :
    sectionTokens format = (lex format).splitOn .semicolon :=
  Token.cut_eq_splitOn (lex format)

theorem legible_sectionTokens {format : Text} {run : List Token}
    (h : run ∈ sectionTokens format) : Token.Legible run := by
  obtain ⟨hfirst, hrest⟩ := Token.legible_cut (Token.legible_lex format)
  rcases List.mem_cons.1 h with rfl | h
  · exact hfirst
  · exact hrest run h

theorem semicolon_notMem_sectionTokens {format : Text} {run : List Token}
    (h : run ∈ sectionTokens format) : .semicolon ∉ run := by
  obtain ⟨hfirst, hrest⟩ := Token.semicolon_notMem_cut (lex format)
  rcases List.mem_cons.1 h with rfl | h
  · exact hfirst
  · exact hrest run h

/-- **A section is read as the run it was cut from.** -/
theorem map_lex_sectionTexts (format : Text) :
    (sectionTexts format).map lex = sectionTokens format := by
  rw [sectionTexts, List.map_map]
  refine (List.map_congr_left fun run hrun => ?_).trans (List.map_id _)
  exact Token.lex_sources (legible_sectionTokens hrun)

theorem lex_mem_sectionTokens {format text : Text} (h : text ∈ sectionTexts format) :
    lex text ∈ sectionTokens format := by
  rw [← map_lex_sectionTexts]
  exact List.mem_map_of_mem h

/-! ## Where the spans stand -/

namespace Span

/-- The span, `distance` bytes further on. -/
def shift (distance : Nat) (s : Span) : Span :=
  { s with start := distance + s.start, stop := distance + s.stop }

/-- A semicolon between two sections. -/
def isSeparator (s : Span) : Bool :=
  s.token? = some .semicolon

@[simp] theorem isSeparator_ofToken (position : Nat) (t : Token) :
    (ofToken position t).isSeparator = decide (t = .semicolon) := by
  simp [isSeparator, ofToken]

@[simp] theorem isSeparator_atEnd (position : Nat) : (atEnd position).isSeparator = false := rfl

/-- Spans that start further on are the spans shifted. -/
theorem map_shift_ofTokens (distance position : Nat) (tokens : List Token) :
    (ofTokens position tokens).map (shift distance) = ofTokens (distance + position) tokens := by
  induction tokens generalizing position with
  | nil => rfl
  | cons t ts ih =>
    rw [ofTokens, List.map_cons, ih, ofTokens, Nat.add_assoc]
    simp [shift, ofToken, Nat.add_assoc]

theorem ofTokens_ne_nil (position : Nat) (tokens : List Token) : ofTokens position tokens ≠ [] := by
  cases tokens <;> simp [ofTokens]

end Span

/-- The spans of the semicolons between the sections. -/
def separators (format : Text) : List Span :=
  (spans format).filter Span.isSeparator

/-- Where the sections start: at the start of the format, and behind each separator. -/
def sectionStarts (format : Text) : List Nat :=
  0 :: (separators format).map Span.stop

/-- Where the sections stop: at each separator, and at the end of the format. -/
def sectionStops (format : Text) : List Nat :=
  (separators format).map Span.start ++ [utf8Length format]

/-- The spans of the format, cut at the separators, without the empty span at its
end. -/
def spanRuns (format : Text) : List (List Span) :=
  (spans format).dropLast.splitOnP Span.isSeparator

namespace Span

variable (position : Nat) (ts : List Token)

theorem filter_isSeparator_semicolon :
    (ofTokens position (.semicolon :: ts)).filter isSeparator =
      ofToken position .semicolon ::
        (ofTokens (position + utf8Length Token.semicolon.source) ts).filter isSeparator :=
  List.filter_cons_of_pos rfl

theorem filter_isSeparator_other {t : Token} (h : t ≠ .semicolon) :
    (ofTokens position (t :: ts)).filter isSeparator =
      (ofTokens (position + utf8Length t.source) ts).filter isSeparator :=
  List.filter_cons_of_neg (by simp [h])

theorem dropLast_ofTokens_cons (t : Token) :
    (ofTokens position (t :: ts)).dropLast =
      ofToken position t :: (ofTokens (position + utf8Length t.source) ts).dropLast :=
  List.dropLast_cons_of_ne_nil (ofTokens_ne_nil _ _)

/-- **The spans of the runs are the runs of the spans**, each with the empty span
behind it. -/
theorem ofTokens_cut :
    List.zipWith ofTokens
        (position :: ((ofTokens position ts).filter isSeparator).map stop)
        ((Token.cut ts).1 :: (Token.cut ts).2) =
      List.zipWith (fun run stop => run ++ [atEnd stop])
        ((ofTokens position ts).dropLast.splitOnP isSeparator)
        (((ofTokens position ts).filter isSeparator).map start ++
          [position + utf8Length (Token.sources ts)]) := by
  induction ts generalizing position with
  | nil => simp [ofTokens, Token.cut]
  | cons t ts ih =>
    have hbehind := ih (position + utf8Length t.source)
    rw [dropLast_ofTokens_cons, List.splitOnP_cons_eq_if_modifyHead, Token.sources_cons,
      utf8Length_append, ← Nat.add_assoc]
    by_cases h : t = .semicolon
    · -- A separator closes an empty run, and the next one starts behind it.
      subst h
      rw [filter_isSeparator_semicolon, Token.cut, if_pos rfl, if_pos (by simp)]
      exact congrArg ([atEnd position] :: ·) hbehind
    · -- Any other token stands in front of the first run behind it.
      rw [filter_isSeparator_other position ts h, Token.cut, if_neg h, if_neg (by simp [h])]
      obtain ⟨run, runs, hruns⟩ := List.exists_cons_of_ne_nil (List.splitOnP_ne_nil isSeparator
        (ofTokens (position + utf8Length t.source) ts).dropLast)
      obtain ⟨stop, stops, hstops⟩ := List.exists_cons_of_ne_nil (List.append_ne_nil_of_right_ne_nil
        (((ofTokens (position + utf8Length t.source) ts).filter isSeparator).map start)
        (List.cons_ne_nil (position + utf8Length t.source + utf8Length (Token.sources ts)) []))
      rw [hruns, hstops, List.zipWith_cons_cons, List.zipWith_cons_cons] at hbehind
      obtain ⟨hhead, htail⟩ := List.cons.inj hbehind
      rw [hruns, hstops, List.modifyHead_cons, List.zipWith_cons_cons, List.zipWith_cons_cons,
        ofTokens, hhead, htail]
      rfl

end Span

/-- **The spans of the sections**, shifted by where the sections start, are those that
the format has between its separators. -/
theorem spans_sectionTexts (format : Text) :
    List.zipWith (fun start text => (spans text).map (Span.shift start))
        (sectionStarts format) (sectionTexts format) =
      List.zipWith (fun run stop => run ++ [Span.atEnd stop])
        (spanRuns format) (sectionStops format) := by
  have hshift : (fun start text => (spans text).map (Span.shift start)) =
      fun start text => Span.ofTokens start (lex text) := by
    funext start text
    rw [spans, Span.map_shift_ofTokens, Nat.add_zero]
  rw [hshift, ← List.zipWith_map_right, map_lex_sectionTexts]
  have hcut := Span.ofTokens_cut 0 (lex format)
  rw [sources_lex, Nat.zero_add] at hcut
  exact hcut

/-! ## What is read off a section -/

/-- What the tokens of one section say of it. -/
def Metadata.ofRun (text : Text) (run : List Token) (selection : MetadataSelection) : Metadata :=
  ofTokens text run run selection

/-- A text without a separator is its own first section. -/
theorem Metadata.ofFormat_eq_ofRun {text : Text} (h : .semicolon ∉ lex text)
    (selection : MetadataSelection) :
    ofFormat text selection = ofRun text (lex text) selection := by
  have hpositive : Token.positivePart (lex text) = lex text :=
    List.takeWhile_eq_self_iff.2 fun t ht => by simpa using fun heq : t = .semicolon => h (heq ▸ ht)
  rw [ofFormat, ofRun, hpositive]

/-- **Splitting is exact and free of context.** The sections, joined by semicolons, are
the format; read on its own, no section has a separator, and its tokens and spans are
those between two separators of the format. So the items and the metadata of a section
are those of its run. -/
theorem sections_read_alone (format : Text) :
    joinWith [';'] (sectionTexts format) = format ∧
    (∀ text ∈ sectionTexts format, .semicolon ∉ lex text) ∧
    (sectionTexts format).map lex = (lex format).splitOn .semicolon ∧
    List.zipWith (fun start text => (spans text).map (Span.shift start))
        (sectionStarts format) (sectionTexts format) =
      List.zipWith (fun run stop => run ++ [Span.atEnd stop])
        (spanRuns format) (sectionStops format) ∧
    (sectionTexts format).map (fun text => (Section.ofText text).items) =
      ((lex format).splitOn .semicolon).map (Item.ofTokens false false) ∧
    ∀ selection, (sectionTexts format).map (Metadata.ofFormat · selection) =
      List.zipWith (Metadata.ofRun · · selection)
        (sectionTexts format) ((lex format).splitOn .semicolon) := by
  have hlex := (map_lex_sectionTexts format).trans (sectionTokens_eq format)
  have hseparator : ∀ text ∈ sectionTexts format, .semicolon ∉ lex text := fun text htext =>
    semicolon_notMem_sectionTokens (lex_mem_sectionTokens htext)
  refine ⟨joinWith_sectionTexts format, hseparator, hlex, spans_sectionTexts format, ?_, ?_⟩
  · rw [← hlex, List.map_map]
    rfl
  · intro selection
    rw [← hlex, List.zipWith_map_right, List.zipWith_self]
    exact List.map_congr_left fun text htext =>
      Metadata.ofFormat_eq_ofRun (hseparator text htext) selection

end TickLabels
