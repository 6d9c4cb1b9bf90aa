import TickLabels.Render.Number
/-!
# The digits among the contributions

A section shows the contributions of its items, one after the other
(`text_renderPlain`). Among them are those of the placeholders and of the
point, and `numberText` reads these alone. They use up the supply: no digit is
left over and none is shown twice (`numberText_contributions`).
-/

namespace TickLabels

namespace Item

/-- The placeholders and the point. -/
def showsNumber (item : Item) : Bool :=
  item.isDigit || item = .point

end Item

/-- The contributions of the placeholders and of the point, from left to
right. -/
def numberText (items : List Item) (texts : List Text) : Text :=
  ((items.zip texts).filter (·.1.showsNumber)).flatMap Prod.snd

@[simp] theorem numberText_nil (texts : List Text) : numberText [] texts = [] := rfl

theorem numberText_cons (item : Item) (items : List Item) (text : Text) (texts : List Text) :
    numberText (item :: items) (text :: texts) =
      (if item.showsNumber then text else []) ++ numberText items texts := by
  unfold numberText
  rw [List.zip_cons_cons, List.filter_cons]
  split <;> simp_all

namespace Supply

variable {c : Culture} {s : Supply}

/-- **Behind the point** each placeholder takes a digit of the fraction. -/
theorem numberText_fraction {items : List Item} (h : .point ∉ items) :
    numberText items (contributions c s true items) =
      digitText (s.fraction.take (items.countP Item.isDigit)) := by
  induction items generalizing s with
  | nil => simp [digitText]
  | cons item items ih =>
    rw [List.mem_cons, not_or] at h
    cases item with
    | point => exact absurd rfl h.1
    | zero | hash =>
      rw [List.countP_cons_of_pos (by rfl), contributions, if_pos rfl, numberText_cons, ih h.2]
      cases s.fraction with
      | nil => simp [digitText, Item.showsNumber, Item.isDigit]
      | cons d ds => simp [digitText, Item.showsNumber, Item.isDigit]
    | literal | percent | permille | comma | exponent =>
      rw [List.countP_cons_of_neg (by simp [Item.isDigit]), contributions, numberText_cons, ih h.2]
      rfl

/-- **Before the point** each placeholder takes a text of the integer. -/
theorem numberText_integer {front : List Item} (h : .point ∉ front) (rest : List Item) :
    numberText (front ++ rest) (contributions c s false (front ++ rest)) =
      (s.integer.take (front.countP Item.isDigit)).flatten ++
        numberText rest (contributions c
          { s with integer := s.integer.drop (front.countP Item.isDigit) } false rest) := by
  induction front generalizing s with
  | nil => simp
  | cons item front ih =>
    rw [List.mem_cons, not_or] at h
    cases item with
    | point => exact absurd rfl h.1
    | zero | hash =>
      rw [List.countP_cons_of_pos (by rfl), List.cons_append, contributions, if_neg (by simp),
        numberText_cons, ih h.2]
      cases hinteger : s.integer with
      | nil => simp [Item.showsNumber, Item.isDigit]
      | cons text texts => simp [Item.showsNumber, Item.isDigit, List.append_assoc]
    | literal | percent | permille | comma | exponent =>
      rw [List.countP_cons_of_neg (by simp [Item.isDigit]), List.cons_append, contributions,
        numberText_cons, ih h.2]
      rfl

end Supply

/-! ## Cutting at the point -/

namespace Item

variable {front back items : List Item}

theorem integerPlaceholders_append (h : point ∉ front) (hstop : ∀ item ∈ back.head?, item = point) :
    integerPlaceholders (front ++ back) = front.filter isDigit := by
  have hfront : ∀ item ∈ front, decide (item ≠ point) = true :=
    fun item hitem => decide_eq_true fun heq => h (heq ▸ hitem)
  rw [integerPlaceholders, List.takeWhile_append_of_pos hfront]
  cases back with
  | nil => simp
  | cons item back => simp [hstop item rfl]

theorem fractionPlaceholders_append (h : point ∉ front)
    (hstop : ∀ item ∈ back.head?, item = point) :
    fractionPlaceholders (front ++ back) = back.filter isDigit := by
  have hfront : ∀ item ∈ front, decide (item ≠ point) = true :=
    fun item hitem => decide_eq_true fun heq => h (heq ▸ hitem)
  rw [fractionPlaceholders, List.dropWhile_append_of_pos hfront]
  cases back with
  | nil => simp
  | cons item back => simp [hstop item rfl]

/-- Without a point all placeholders are those of the integer. -/
theorem integerPlaceholders_of_not_mem (h : point ∉ items) :
    integerPlaceholders items = items.filter isDigit := by
  have hnil : ∀ item ∈ ([] : List Item).head?, item = point := by simp
  have := integerPlaceholders_append h hnil
  rwa [List.append_nil] at this

theorem fractionPlaceholders_of_not_mem (h : point ∉ items) :
    fractionPlaceholders items = [] := by
  have hnil : ∀ item ∈ ([] : List Item).head?, item = point := by simp
  have := fractionPlaceholders_append h hnil
  rwa [List.append_nil] at this

end Item

/-- **What the placeholders and the point show**: a text for each integer placeholder, and
at the point what stands there and the fraction. -/
theorem Supply.numberText_eq {c : Culture} {s : Supply} {items : List Item}
    (hpoint : items.count .point ≤ 1)
    (hfraction : s.fraction.length ≤ (Item.fractionPlaceholders items).length) :
    numberText items (s.contributions c false items) =
      (s.integer.take (Item.integerPlaceholders items).length).flatten ++
        if .point ∈ items then s.atPoint ++ fractionPart c s.fraction else [] := by
  -- A section has one point at most, and the fraction is behind it.
  by_cases hmem : Item.point ∈ items
  · obtain ⟨front, back, rfl, hfront⟩ := List.eq_append_cons_of_mem hmem
    have hback : Item.point ∉ back := by
      rw [List.count_append, List.count_cons_self] at hpoint
      exact List.count_eq_zero.1 (by omega)
    rw [Item.fractionPlaceholders_append hfront (by simp), ← List.countP_eq_length_filter,
      List.countP_cons_of_neg (by simp [Item.isDigit])] at hfraction
    rw [Item.integerPlaceholders_append hfront (by simp), ← List.countP_eq_length_filter,
      if_pos hmem, Supply.numberText_integer hfront, Supply.contributions, numberText_cons,
      if_pos (by rfl), Supply.numberText_fraction hback, List.take_of_length_le hfraction]
    simp only [fractionPart]
    split <;> simp_all [digitText]
  · have hnumber := Supply.numberText_integer (c := c) (s := s) hmem []
    rw [List.append_nil] at hnumber
    rw [Item.integerPlaceholders_of_not_mem hmem, ← List.countP_eq_length_filter, hnumber,
      if_neg hmem]
    rfl

/-- **The supply is used up.** What the placeholders and the point show is the
integer, then the fraction with its separator. -/
theorem Supply.numberText_contributions {c : Culture} {s : Supply} {items : List Item}
    (hpoint : items.count .point ≤ 1)
    (hinteger : s.integer.length = (Item.integerPlaceholders items).length)
    (hfraction : s.fraction.length ≤ (Item.fractionPlaceholders items).length)
    (hatPoint : .point ∉ items → s.atPoint = []) :
    numberText items (s.contributions c false items) =
      s.integer.flatten ++ s.atPoint ++ fractionPart c s.fraction := by
  rw [Supply.numberText_eq hpoint hfraction, List.take_of_length_le (by omega)]
  split
  · rw [List.append_assoc]
  · next hmem =>
    rw [Item.fractionPlaceholders_of_not_mem hmem, List.length_nil, Nat.le_zero,
      List.length_eq_zero_iff] at hfraction
    rw [hatPoint hmem, hfraction]
    simp [fractionPart]

/-! ## Plain notation -/

theorem groupedText_nil_sizes (separator : Char) (digits : List Digit) :
    groupedText [] separator digits = digitText digits := by
  rw [groupedText, groupedDigits_nil_sizes, digitText]
  induction digits with
  | nil => rfl
  | cons d ds ih => simp [ih]

/-- Without a place nothing is dealt. -/
theorem flatten_deal_zero (texts : List Text) : (deal 0 texts).flatten = [] := by
  have := length_deal 0 texts
  rw [List.length_eq_zero_iff.1 this]
  rfl

theorem mem_takeWhile_of_imp {α : Type} {p q : α → Bool} (h : ∀ a, p a → q a) {a : α}
    {as : List α} (ha : a ∈ as.takeWhile p) : a ∈ as.takeWhile q := by
  induction as with
  | nil => simp at ha
  | cons b bs ih =>
    by_cases hb : p b = true
    · rw [List.takeWhile_cons_of_pos hb, List.mem_cons] at ha
      rw [List.takeWhile_cons_of_pos (h b hb), List.mem_cons]
      exact ha.imp_right ih
    · simp [List.takeWhile_cons_of_neg hb] at ha

namespace Section

/-- Digits are not grouped where there are no placeholders for them. -/
theorem groupsDigits_eq_false {s : Section} (h : Item.integerPlaceholders s.items = []) :
    s.groupsDigits = false := by
  simp only [groupsDigits, separatesDigits, List.any_eq_false]
  intro item hitem hdigit
  have hmem : item ∈ s.integerItems :=
    (List.dropWhile_sublist _).subset ((List.dropWhile_sublist _).subset hitem)
  have hfront := mem_takeWhile_of_imp (q := fun item => decide (item ≠ .point))
    (by simp +contextual) hmem
  have : item ∈ Item.integerPlaceholders s.items := List.mem_filter.2 ⟨hfront, hdigit⟩
  simp [h] at this

/-- The contributions of the items in plain notation. -/
def plainContributions (s : Section) (c : Culture) (scaled : Float) : List Text :=
  (s.plainSupply c ((Digits.ofFloat scaled).plain
    (Item.fractionPlaceholders s.items).length)).contributions c false s.items

theorem length_plainContributions (s : Section) (c : Culture) (scaled : Float) :
    (s.plainContributions c scaled).length = s.items.length :=
  Supply.length_contributions _ _ _ _

/-- What a section shows in plain notation: the integer in its groups, filled up
with zeros, and the fraction, without the zeros that may be dropped. -/
theorem numberText_plainSupply {s : Section} {c : Culture} {d : PlainDigits}
    (hpoint : s.items.count .point ≤ 1)
    (hnumber : Item.integerPlaceholders s.items ≠ [] ∨ .point ∈ s.items)
    (hplaces : d.fraction.length = (Item.fractionPlaceholders s.items).length) :
    numberText s.items ((s.plainSupply c d).contributions c false s.items) =
      groupedText (if s.groupsDigits then c.groupSizes else []) c.groupSeparator
          (padInteger (Item.leastIntegerDigits s.items) d.integer) ++
        fractionPart c (shortenFraction (Item.leastFractionDigits s.items) d.fraction) := by
  have hfraction : (s.plainSupply c d).fraction.length ≤ d.fraction.length := by
    simp only [plainSupply, shortenFraction]
    exact List.length_take_le' _ _
  rw [Supply.numberText_contributions hpoint (length_deal _ _) (hplaces ▸ hfraction)]
  · congr 1
    by_cases hplaces : Item.integerPlaceholders s.items = []
    · rw [groupsDigits_eq_false hplaces, if_neg (by simp), groupedText_nil_sizes]
      simp [plainSupply, hplaces, flatten_deal_zero]
    · have hpos : 0 < (Item.integerPlaceholders s.items).length := List.length_pos_iff.2 hplaces
      have hatPoint : (s.plainSupply c d).atPoint = [] := if_neg (Nat.ne_of_gt hpos)
      rw [hatPoint, List.append_nil]
      exact flatten_deal hpos _
  · intro hmem
    have hplaces := List.length_pos_iff.2 (hnumber.resolve_right hmem)
    simp only [plainSupply]
    exact if_neg (by omega)

end Section

/-- The three parts of a rendered section are all its contributions. -/
theorem flatMap_numberParts? {pieces : List (Item × Text)} {parts : Parts}
    (h : numberParts? pieces = some parts) :
    parts.before ++ parts.number ++ parts.after = pieces.flatMap Prod.snd := by
  unfold numberParts? at h
  obtain ⟨⟨front, back⟩, hcut, rfl⟩ := Option.map_eq_some_iff.1 h
  have hpieces := List.prefix_iff_eq_append.1
    (List.takeWhile_prefix (l := pieces) fun piece => !piece.1.isNumberPart)
  rw [← splitAfterLast_append hcut] at hpieces
  refine Eq.trans ?_ (congrArg (List.flatMap Prod.snd) hpieces)
  simp only [List.flatMap_append, List.append_assoc]

/-- The number of a section is zero if all its rounded digits are. -/
theorem Section.isZero_renderPlain (s : Section) (c : Culture) (scaled : Float) :
    (s.renderPlain c scaled).isZero =
      ((Digits.ofFloat scaled).plain (Item.fractionPlaceholders s.items).length).isZero := by
  unfold renderPlain
  dsimp only
  split <;> rfl

/-- **A section shows its contributions.** -/
theorem Section.text_renderPlain (s : Section) (c : Culture) (scaled : Float) :
    (s.renderPlain c scaled).text none = (s.plainContributions c scaled).flatten := by
  have hlength := s.length_plainContributions c scaled
  have hzip : (s.items.zip (s.plainContributions c scaled)).flatMap Prod.snd =
      (s.plainContributions c scaled).flatten := by
    rw [List.flatMap_def, List.map_snd_zip (by omega)]
  unfold renderPlain
  dsimp only
  split
  · next parts h => exact (flatMap_numberParts? h).trans hzip
  · simp [SectionText.text, plainContributions]

/-- Without an exponent marker, or with one that is ignored, the notation is
plain. -/
theorem Section.render_eq_renderPlain {s : Section} {plain : Bool}
    (h : plain = true ∨ atMarker? s.items = none) (c : Culture) (magnitude : Float) :
    s.render c plain magnitude = s.renderPlain c (magnitude * s.scale) := by
  rcases h with rfl | hnone
  · rfl
  · cases plain with
    | true => rfl
    | false => simp only [render, hnone]

end TickLabels
