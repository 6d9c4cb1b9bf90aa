import TickLabels.Proofs.Pattern.Rewriting
import TickLabels.Proofs.Render.Contributions

/-!
# The items of a section by its anatomy

The items of a section follow its tokens, but literal texts flow together and points
that do not count are left out. Here the items are cut at the point and at the exponent
marker as the tokens are (`ofTokens_tokens_items`), and what a section is made of, apart from
its texts, is read off its tokens: the placeholders, the percent signs, the commas that
group and the commas that scale.
-/

namespace TickLabels

namespace Token

/-- The item of a token that is neither text nor a point nor a marker. -/
def item? : Token → Option Item
  | zero => some .zero
  | hash => some .hash
  | comma => some .comma
  | percent => some .percent
  | permille => some .permille
  | _ => none

/-- The text that a token stands for before the exponent marker. -/
def text : Token → Text
  | literal c | escaped c => [c]
  | quoted _ text _ => text
  | semicolon => [';']
  | _ => []

/-- The point and the placeholders, which a new fraction replaces. -/
def isReplaced (t : Token) : Bool :=
  t = .point || t.isDigit

end Token

namespace Item

/-- Items that are neither text nor a point nor a marker. -/
def isSimple : Item → Bool
  | zero | hash | comma | percent | permille => true
  | _ => false

/-- Percent and permille signs. -/
def isPercent : Item → Bool
  | percent | permille => true
  | _ => false

/-- The literal texts, one after the other. -/
def literalText (items : List Item) : Text :=
  items.flatMap fun
    | literal text => text
    | _ => []

variable {pointMet : Bool} {tokens : List Token}

theorem filter_consLiteral {p : Item → Bool} (hp : ∀ text, p (literal text) = false) (text : Text)
    (items : List Item) : (consLiteral text items).filter p = items.filter p := by
  unfold consLiteral
  split <;> simp [hp]

theorem literalText_consLiteral (text : Text) (items : List Item) :
    literalText (consLiteral text items) = text ++ literalText items := by
  unfold consLiteral literalText
  split <;> simp

/-- **The simple items** are those of the tokens. -/
theorem filter_isSimple_ofTokens (pointMet markerMet : Bool) (tokens : List Token) :
    (ofTokens pointMet markerMet tokens).filter isSimple = tokens.filterMap Token.item? := by
  have hliteral (text : Text) : isSimple (literal text) = false := rfl
  induction tokens generalizing pointMet markerMet with
  | nil => rfl
  | cons t ts ih =>
    cases t with
    | literal | escaped | quoted | semicolon =>
      exact (filter_consLiteral hliteral _ _).trans (ih _ _)
    | zero | hash | comma | percent | permille => exact congrArg _ (ih _ _)
    | point =>
      unfold ofTokens
      dsimp only
      split <;> exact ih _ _
    | exponent m =>
      unfold ofTokens
      dsimp only
      split
      · exact (filter_consLiteral hliteral _ _).trans (ih _ _)
      · exact ih _ _

/-- **The literal text** is that of the tokens. -/
theorem literalText_ofTokens (pointMet markerMet : Bool) (h : ∀ t ∈ tokens, t.isExponent = false) :
    literalText (ofTokens pointMet markerMet tokens) = tokens.flatMap Token.text := by
  induction tokens generalizing pointMet with
  | nil => rfl
  | cons t ts ih =>
    obtain ⟨ht, hts⟩ := List.forall_mem_cons.1 h
    cases t with
    | literal | escaped | quoted | semicolon =>
      exact (literalText_consLiteral _ _).trans (congrArg _ (ih _ hts))
    | zero | hash | comma | percent | permille => exact ih _ hts
    | point =>
      unfold ofTokens
      dsimp only
      split <;> exact ih _ hts
    | exponent => contradiction

/-! ## Items in front of others -/

theorem consLiteral_append {back : List Item} (h : ∀ text, back.head? ≠ some (literal text))
    (text : Text) (front : List Item) :
    consLiteral text (front ++ back) = consLiteral text front ++ back := by
  cases front with
  | nil =>
    cases back with
    | nil => rfl
    | cons item back =>
      cases item with
      | literal next => exact absurd rfl (h next)
      | _ => rfl
  | cons item front => cases item <;> rfl

/-- Tokens before the marker give their items in front of `back`, when no literal flows
into it and the points among them do not change it. -/
theorem ofTokens_append (pointMet : Bool) {rest : List Token} {back : List Item}
    (h : ∀ t ∈ tokens, t.isExponent = false) (hback : ∀ text, back.head? ≠ some (literal text))
    (hrest : ∀ met, met = pointMet ∨ .point ∈ tokens → ofTokens met false rest = back) :
    ofTokens pointMet false (tokens ++ rest) = ofTokens pointMet false tokens ++ back := by
  induction tokens generalizing pointMet with
  | nil => exact hrest pointMet (.inl rfl)
  | cons t ts ih =>
    obtain ⟨ht, hts⟩ := List.forall_mem_cons.1 h
    have hstay : ofTokens pointMet false (ts ++ rest) = ofTokens pointMet false ts ++ back :=
      ih pointMet hts fun met hmet => hrest met (hmet.imp_right (List.mem_cons_of_mem _))
    cases t with
    | literal | escaped | quoted | semicolon =>
      exact (congrArg _ hstay).trans (consLiteral_append hback _ _)
    | zero | hash | comma | percent | permille => exact congrArg _ hstay
    | point =>
      cases pointMet with
      | true => exact hstay
      | false =>
        exact congrArg _ (ih true hts fun met _ => hrest met (.inr (List.mem_cons_self ..)))
    | exponent => contradiction

/-- Behind the marker no point counts. -/
theorem ofTokens_markerMet (pointMet pointMet' : Bool) (tokens : List Token) :
    ofTokens pointMet true tokens = ofTokens pointMet' true tokens := by
  induction tokens with
  | nil => rfl
  | cons t ts ih =>
    cases t with
    | literal | escaped | quoted | semicolon => exact congrArg (consLiteral _) ih
    | zero | hash | comma | percent | permille => exact congrArg _ ih
    | point => simpa [ofTokens] using ih
    | exponent => exact congrArg (consLiteral _) ih

theorem forall_mem_consLiteral {p : Item → Prop} (hliteral : ∀ text, p (literal text)) (text : Text)
    {items : List Item} (h : ∀ item ∈ items, p item) : ∀ item ∈ consLiteral text items, p item := by
  unfold consLiteral
  split
  · exact List.forall_mem_cons.2 ⟨hliteral _, (List.forall_mem_cons.1 h).2⟩
  · exact List.forall_mem_cons.2 ⟨hliteral _, h⟩

/-- Every item is text, simple, or a point or marker among the tokens. -/
theorem forall_mem_ofTokens {p : Item → Prop} (hliteral : ∀ text, p (literal text))
    (hsimple : ∀ item, item.isSimple → p item) (hpoint : .point ∈ tokens → p point)
    (hmarker : ∀ m, .exponent m ∈ tokens → p (exponent m)) (pointMet markerMet : Bool) :
    ∀ item ∈ ofTokens pointMet markerMet tokens, p item := by
  induction tokens generalizing pointMet markerMet with
  | nil => simp [ofTokens]
  | cons t ts ih =>
    have hrest := ih (fun hmem => hpoint (List.mem_cons_of_mem _ hmem))
      fun m hmem => hmarker m (List.mem_cons_of_mem _ hmem)
    cases t with
    | literal | escaped | quoted | semicolon =>
      exact forall_mem_consLiteral hliteral _ (hrest pointMet markerMet)
    | zero | hash | comma | percent | permille =>
      exact List.forall_mem_cons.2 ⟨hsimple _ rfl, hrest pointMet markerMet⟩
    | point =>
      unfold ofTokens
      dsimp only
      split
      · exact hrest pointMet markerMet
      · exact List.forall_mem_cons.2 ⟨hpoint (List.mem_cons_self ..), hrest true markerMet⟩
    | exponent m =>
      unfold ofTokens
      dsimp only
      split
      · exact forall_mem_consLiteral hliteral _ (hrest pointMet markerMet)
      · exact List.forall_mem_cons.2 ⟨hmarker m (List.mem_cons_self ..), hrest pointMet true⟩

theorem isMarker_ofTokens (h : ∀ t ∈ tokens, t.isExponent = false) (pointMet markerMet : Bool) :
    ∀ item ∈ ofTokens pointMet markerMet tokens, item.isMarker = false :=
  forall_mem_ofTokens (p := fun item => item.isMarker = false) (fun _ => rfl)
    (fun item hitem => by cases item <;> trivial) (fun _ => rfl)
    (fun m hm => absurd (h _ hm) (by simp [Token.isExponent])) pointMet markerMet

theorem point_notMem_ofTokens (h : .point ∉ tokens) (pointMet markerMet : Bool) :
    point ∉ ofTokens pointMet markerMet tokens := by
  have hne : ∀ item ∈ ofTokens pointMet markerMet tokens, item ≠ point :=
    forall_mem_ofTokens (fun _ => by simp) (fun item hitem heq => by subst heq; contradiction)
      (fun hmem => absurd hmem h) (fun _ _ => by simp) pointMet markerMet
  exact fun hmem => hne point hmem rfl

end Item

/-! ## The items of an anatomy -/

namespace Anatomy

variable {a : Anatomy}

/-- The items before the marker. -/
def mantissaItems (a : Anatomy) : List Item :=
  Item.ofTokens false false a.integer ++
    match a.fraction? with
    | none => []
    | some fraction => .point :: Item.ofTokens true false fraction

/-- The items from the marker on. -/
def tailItems (a : Anatomy) : List Item :=
  Item.ofTokens false false a.tail

theorem ofTokens_mantissa (h : Regular a) :
    Item.ofTokens false false a.mantissa = a.mantissaItems := by
  unfold mantissa fractionPart mantissaItems
  have hpoint : .point ∉ a.integer := fun hmem => (h.integer _ hmem).1 rfl
  cases a.fraction? with
  | none => rw [List.append_nil, List.append_nil]
  | some fraction =>
    refine Item.ofTokens_append false (fun t ht => (h.integer t ht).2) (by simp) fun met hmet => ?_
    obtain rfl : met = false := hmet.resolve_right hpoint
    rfl

theorem head?_tailItems (h : Regular a) : ∀ item ∈ a.tailItems.head?, item.isMarker := by
  unfold tailItems
  cases htail : a.tail with
  | nil => simp [Item.ofTokens]
  | cons t ts =>
    have ht : t.isExponent := h.tail t (by rw [htail]; rfl)
    cases t with
    | exponent m =>
      intro item hitem
      obtain rfl := Option.some.inj hitem
      rfl
    | _ => contradiction

/-- **The items are cut where the tokens are.** -/
theorem ofTokens_tokens_items (h : Regular a) :
    Item.ofTokens false false a.tokens = a.mantissaItems ++ a.tailItems := by
  rw [← ofTokens_mantissa h, tokens]
  refine Item.ofTokens_append false (isExponent_mantissa h) (fun text htext => ?_) fun met _ => ?_
  · exact absurd (head?_tailItems h _ htext) (by simp [Item.isMarker])
  · -- Behind the marker it does not matter whether the point has been met.
    unfold tailItems
    cases htail : a.tail with
    | nil => rfl
    | cons t ts =>
      have ht : t.isExponent := h.tail t (by rw [htail]; rfl)
      cases t with
      | exponent m => exact congrArg (.exponent m :: ·) (Item.ofTokens_markerMet met false ts)
      | _ => contradiction

theorem point_notMem_integer (h : Regular a) : .point ∉ a.integer :=
  fun hmem => (h.integer _ hmem).1 rfl

theorem isMarker_mantissaItems (h : Regular a) :
    ∀ item ∈ a.mantissaItems, item.isMarker = false := by
  rw [← ofTokens_mantissa h]
  exact Item.isMarker_ofTokens (isExponent_mantissa h) false false

end Anatomy

/-! ## What a section is made of -/

namespace Section

/-- The items before the exponent marker. -/
def mantissa (s : Section) : List Item :=
  s.items.takeWhile (!·.isMarker)

/-- The items from the exponent marker on. -/
def exponentPart (s : Section) : List Item :=
  s.items.dropWhile (!·.isMarker)

/-- A digit placeholder or a point stands before the exponent marker. -/
def HasPlaces (s : Section) : Prop :=
  ∃ item ∈ s.mantissa, item.isDigit ∨ item = .point

/-- Elements that do not stop the search may be left out. -/
theorem dropWhile_filter {α : Type} {p q : α → Bool} (hstop : ∀ a, p a = false → q a)
    (as : List α) : (as.filter q).dropWhile p = (as.dropWhile p).filter q := by
  induction as with
  | nil => rfl
  | cons a as ih =>
    by_cases hp : p a
    · rw [List.dropWhile_cons_of_pos hp, ← ih]
      by_cases hq : q a
      · rw [List.filter_cons_of_pos hq, List.dropWhile_cons_of_pos hp]
      · rw [List.filter_cons_of_neg hq]
    · have hq : q a := hstop a (by simpa using hp)
      rw [List.dropWhile_cons_of_neg hp, List.filter_cons_of_pos hq, List.dropWhile_cons_of_neg hp]

/-- Only placeholders and commas separate digits. -/
theorem separatesDigits_filter (items : List Item) :
    separatesDigits (items.filter Item.isSimple) = separatesDigits items := by
  have hdigit : ∀ item : Item, (!item.isDigit) = false → item.isSimple := fun item hitem => by
    cases item <;> simp [Item.isDigit] at hitem <;> rfl
  have hcomma : ∀ item : Item, decide (item ≠ .comma) = false → item.isSimple :=
      fun item hitem => by
    obtain rfl : item = .comma := by simpa using hitem
    rfl
  rw [separatesDigits, dropWhile_filter hdigit, dropWhile_filter hcomma, List.any_filter]
  exact List.any_congr rfl fun item => by cases item <;> rfl

/-- Items without a placeholder separate no digits. -/
theorem separatesDigits_append {front back : List Item} (h : ∀ item ∈ back, item.isDigit = false) :
    separatesDigits (front ++ back) = separatesDigits front := by
  have hany {items : List Item} (hsub : items.Sublist back) : items.any Item.isDigit = false :=
    List.any_eq_false.2 fun item hitem => by simp [h item (hsub.subset hitem)]
  unfold separatesDigits
  rw [List.dropWhile_append]
  split
  · next hempty =>
    rw [hany ((List.dropWhile_sublist _).trans (List.dropWhile_sublist _)),
      List.isEmpty_iff.1 hempty]
    rfl
  · rw [List.dropWhile_append]
    split
    · next hempty =>
      rw [hany (List.dropWhile_sublist _), List.isEmpty_iff.1 hempty]
      rfl
    · rw [List.any_append, hany (List.Sublist.refl _), Bool.or_false]

end Section

namespace Token

/-- The digit placeholders among the tokens. -/
def places (tokens : List Token) : List Item :=
  (tokens.filterMap item?).filter Item.isDigit

theorem places_append (front back : List Token) :
    places (front ++ back) = places front ++ places back := by
  rw [places, List.filterMap_append, List.filter_append]
  rfl

theorem isDigit_of_item? {t : Token} {item : Item} (h : t.item? = some item) :
    item.isDigit = t.isDigit := by
  cases t <;> simp [item?] at h <;> subst h <;> rfl

theorem places_eq_nil {tokens : List Token} (h : ∀ t ∈ tokens, t.isDigit = false) :
    places tokens = [] := by
  refine List.filter_eq_nil_iff.2 fun item hitem => ?_
  obtain ⟨t, ht, hitem⟩ := List.mem_filterMap.1 hitem
  simp [isDigit_of_item? hitem, h t ht]

end Token

section Views

open Item

/-- The placeholders are those of the tokens. -/
theorem filter_isDigit_ofTokens (pointMet markerMet : Bool) (tokens : List Token) :
    (ofTokens pointMet markerMet tokens).filter isDigit = Token.places tokens := by
  rw [Token.places, ← filter_isSimple_ofTokens pointMet markerMet, List.filter_filter]
  exact List.filter_congr fun item _ => by cases item <;> rfl

theorem literalText_append (front back : List Item) :
    literalText (front ++ back) = literalText front ++ literalText back :=
  List.flatMap_append

theorem head?_fractionItems {fraction? : Option (List Token)} : ∀ item ∈ (match fraction? with
    | none => []
    | some fraction => point :: ofTokens true false fraction).head?, item = point := by
  cases fraction? <;> simp

variable {source : Text} {a : Anatomy} (h : Anatomy.Regular a) (hlex : lex source = a.tokens)

include h hlex

theorem items_ofText : (Section.ofText source).items = a.mantissaItems ++ a.tailItems := by
  rw [Section.ofText, hlex, Anatomy.ofTokens_tokens_items h]

/-- The items are cut at the marker. -/
theorem cut_items_ofText : (Section.ofText source).mantissa = a.mantissaItems ∧
    (Section.ofText source).exponentPart = a.tailItems := by
  rw [Section.mantissa, Section.exponentPart, items_ofText h hlex]
  refine cut_append (fun item hitem => ?_) fun item hitem => ?_
  · simp [Anatomy.isMarker_mantissaItems h item hitem]
  · simp [Anatomy.head?_tailItems h item hitem]

theorem mantissa_ofText : (Section.ofText source).mantissa = a.mantissaItems :=
  (cut_items_ofText h hlex).1

theorem exponentPart_ofText : (Section.ofText source).exponentPart = a.tailItems :=
  (cut_items_ofText h hlex).2

/-- **The integer placeholders** are those before the point. -/
theorem integerPlaceholders_ofText :
    integerPlaceholders (Section.ofText source).mantissa = Token.places a.integer := by
  rw [mantissa_ofText h hlex, Anatomy.mantissaItems, integerPlaceholders_append
    (point_notMem_ofTokens (Anatomy.point_notMem_integer h) false false) head?_fractionItems,
    filter_isDigit_ofTokens]

/-- **The fraction placeholders** are those between the point and the marker. -/
theorem fractionPlaceholders_ofText :
    fractionPlaceholders (Section.ofText source).mantissa = Token.places a.fractionPart := by
  rw [mantissa_ofText h hlex, Anatomy.mantissaItems, fractionPlaceholders_append
    (point_notMem_ofTokens (Anatomy.point_notMem_integer h) false false) head?_fractionItems,
    Anatomy.fractionPart]
  cases a.fraction? with
  | none => rfl
  | some fraction => exact filter_isDigit_ofTokens true false fraction

theorem literalText_ofText : literalText (Section.ofText source).items =
    a.mantissa.flatMap Token.text ++ literalText a.tailItems := by
  rw [items_ofText h hlex, ← Anatomy.ofTokens_mantissa h, literalText_append,
    literalText_ofTokens false false (Anatomy.isExponent_mantissa h)]

theorem percents_ofText : (Section.ofText source).items.filter isPercent =
    (a.mantissa.filterMap Token.item?).filter isPercent ++ a.tailItems.filter isPercent := by
  rw [items_ofText h hlex, ← Anatomy.ofTokens_mantissa h, List.filter_append,
    ← filter_isSimple_ofTokens false false, List.filter_filter]
  congr 1
  exact List.filter_congr fun item _ => by cases item <;> rfl

theorem integerItems_ofText :
    (Section.ofText source).integerItems = ofTokens false false a.integer := by
  have hinteger : ∀ item ∈ ofTokens false false a.integer,
      (decide (item ≠ .point) && !item.isMarker) = true := fun item hitem => by
    have hpoint : item ≠ .point := fun heq =>
      point_notMem_ofTokens (Anatomy.point_notMem_integer h) false false (heq ▸ hitem)
    have hmarker := isMarker_ofTokens (fun t ht => (h.integer t ht).2) false false item hitem
    simp [hpoint, hmarker]
  rw [Section.integerItems, items_ofText h hlex, Anatomy.mantissaItems, List.append_assoc,
    List.takeWhile_append_of_pos hinteger]
  -- What follows starts with the point, with the marker, or not at all.
  cases a.fraction? with
  | some fraction => simp
  | none =>
    cases htail : a.tailItems with
    | nil => simp
    | cons item items =>
      have hmarker : item.isMarker := Anatomy.head?_tailItems h item (by rw [htail]; rfl)
      simp [hmarker]

/-- **Digits are grouped** by the commas before the point. -/
theorem groupsDigits_ofText : (Section.ofText source).groupsDigits =
    Section.separatesDigits (a.integer.filterMap Token.item?) := by
  rw [Section.groupsDigits, integerItems_ofText h hlex, ← filter_isSimple_ofTokens false false,
    Section.separatesDigits_filter]

end Views

/-! ## What a section has of its tokens -/

namespace Section

variable (source : Text)

theorem mantissa_eq : (ofText source).mantissa =
    Item.ofTokens false false ((lex source).takeWhile (!·.isExponent)) := by
  have hregular := Anatomy.regular_ofTokens (lex source)
  rw [mantissa_ofText hregular (Anatomy.tokens_ofTokens _).symm,
    ← Anatomy.ofTokens_mantissa hregular, Anatomy.mantissa_ofTokens]

theorem integerPlaceholders_eq : Item.integerPlaceholders (ofText source).mantissa =
    Token.places (((lex source).takeWhile (!·.isExponent)).takeWhile (· ≠ .point)) :=
  integerPlaceholders_ofText (Anatomy.regular_ofTokens _) (Anatomy.tokens_ofTokens _).symm

theorem fractionPlaceholders_eq : Item.fractionPlaceholders (ofText source).mantissa =
    Token.places (((lex source).takeWhile (!·.isExponent)).dropWhile (· ≠ .point)) := by
  rw [fractionPlaceholders_ofText (Anatomy.regular_ofTokens _) (Anatomy.tokens_ofTokens _).symm,
    Anatomy.fractionPart_ofTokens]

end Section

end TickLabels
