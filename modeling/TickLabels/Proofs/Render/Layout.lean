import TickLabels.Proofs.Decimal.Normal
import TickLabels.Proofs.Pattern.Plain
import TickLabels.Proofs.Render.Contributions
/-!
# Sections with a plain layout

Most sections hold a number in one piece: integer placeholders, a point with
zeros, and text behind it. What such a section shows is the number and then the
text (`Layout.text_renderPlain`), with no need to look at single items again.
-/

namespace TickLabels

/-- A section that shows a number with `places` decimals: `front` are the items
of the integer, and `back` is the text behind the number. -/
structure Layout (s : Section) (front : List Item) (places : Nat) (back : List Item) : Prop where
  items_eq : s.items = front ++ Item.fractionItems places ++ back
  isNumberPart_front : ∀ item ∈ front, item.isNumberPart
  point_notMem_front : .point ∉ front
  isNumberPart_back : ∀ item ∈ back, item.isNumberPart = false

namespace Item

theorem isDigit_of_isNumberPart {item : Item} (h : item.isNumberPart = false) :
    item.isDigit = false := by
  cases item <;> simp_all [isNumberPart, isDigit]

theorem point_notMem_of_text {items : List Item} (h : ∀ item ∈ items, item.isNumberPart = false) :
    point ∉ items := by
  intro hmem
  have := h point hmem
  simp [isNumberPart] at this

theorem isNumberPart_fractionItems (places : Nat) :
    ∀ item ∈ fractionItems places, item.isNumberPart := by
  intro item hitem
  unfold fractionItems at hitem
  split at hitem
  · simp at hitem
  · rcases List.mem_cons.1 hitem with rfl | h
    · rfl
    · rw [List.eq_of_mem_replicate h]
      rfl

theorem count_point_fractionItems (places : Nat) : (fractionItems places).count point ≤ 1 := by
  unfold fractionItems
  split
  · simp
  · have hzeros : (List.replicate places zero).count point = 0 := by
      rw [List.count_replicate, if_neg (by decide)]
    rw [List.count_cons_self]
    omega

variable {front back : List Item} {places : Nat}

/-- The text behind a number holds no placeholders. -/
theorem filter_isDigit_of_text (h : ∀ item ∈ back, item.isNumberPart = false) :
    back.filter isDigit = [] := by
  rw [List.filter_eq_nil_iff]
  intro item hitem
  simp [isDigit_of_isNumberPart (h item hitem)]

theorem integerPlaceholders_layout (hfront : .point ∉ front)
    (hback : ∀ item ∈ back, item.isNumberPart = false) :
    integerPlaceholders (front ++ fractionItems places ++ back) = front.filter isDigit := by
  by_cases h : places = 0
  · have hmem : point ∉ front ++ back := by simp [hfront, point_notMem_of_text hback]
    have hall := integerPlaceholders_of_not_mem hmem
    simpa [fractionItems, h, filter_isDigit_of_text hback] using hall
  · rw [List.append_assoc]
    exact integerPlaceholders_append hfront (by simp [fractionItems, h])

theorem fractionPlaceholders_layout (hfront : .point ∉ front)
    (hback : ∀ item ∈ back, item.isNumberPart = false) :
    fractionPlaceholders (front ++ fractionItems places ++ back) = List.replicate places zero := by
  by_cases h : places = 0
  · have hmem : point ∉ front ++ back := by simp [hfront, point_notMem_of_text hback]
    have hall := fractionPlaceholders_of_not_mem hmem
    simpa [fractionItems, h] using hall
  · rw [List.append_assoc, fractionPlaceholders_append hfront (by simp [fractionItems, h]),
      List.filter_append, filter_isDigit_of_text hback, fractionItems, if_neg h]
    rw [List.filter_cons_of_neg (by simp [isDigit]), List.append_nil,
      List.filter_replicate_of_pos (by rfl)]

end Item

/-- Behind a run of hits nothing is left. -/
theorem splitAfterLast_replicate {α : Type} {p : α → Bool} {a : α} (ha : p a) (count : Nat) :
    splitAfterLast p (List.replicate (count + 1) a) = some (List.replicate (count + 1) a, []) := by
  induction count with
  | zero => simp [splitAfterLast, ha]
  | succ count ih => rw [List.replicate_succ, splitAfterLast, ih]

theorem leastFractionDigits_layout {items : List Item} {places : Nat}
    (h : Item.fractionPlaceholders items = List.replicate places .zero) :
    Item.leastFractionDigits items = places := by
  rw [Item.leastFractionDigits, h]
  cases places with
  | zero => rfl
  | succ places => rw [splitAfterLast_replicate (by simp)]; simp

/-- A fraction that has as many digits as are always shown is not shortened. -/
theorem shortenFraction_of_length_le {least : Nat} {fraction : List Digit}
    (h : fraction.length ≤ least) : shortenFraction least fraction = fraction :=
  List.take_of_length_le (by omega)

namespace Supply

variable {c : Culture} {s : Supply} {front back : List Item}

/-- The text behind a number, which takes nothing from a supply. -/
def textOf (c : Culture) (items : List Item) : Text :=
  (contributions c ⟨[], [], []⟩ false items).flatten

theorem contributions_of_text (h : ∀ item ∈ back, item.isNumberPart = false) (pointMet : Bool) :
    (contributions c s pointMet back).flatten = textOf c back ∧
      numberText back (contributions c s pointMet back) = [] := by
  induction back with
  | nil => exact ⟨rfl, rfl⟩
  | cons item back ih =>
    rw [List.forall_mem_cons] at h
    obtain ⟨htext, hnumber⟩ := ih h.2
    cases item with
    | zero | hash | point | comma => simp [Item.isNumberPart] at h
    | literal | percent | permille | exponent =>
      rw [contributions, numberText_cons, hnumber, List.flatten_cons, htext]
      exact ⟨rfl, rfl⟩

/-- **A number in one piece**: what the items show is the number, and then the
text behind it. -/
theorem flatten_contributions (hfront : ∀ item ∈ front, item.isNumberPart)
    (hback : ∀ item ∈ back, item.isNumberPart = false) (pointMet : Bool) :
    (contributions c s pointMet (front ++ back)).flatten =
      numberText (front ++ back) (contributions c s pointMet (front ++ back)) ++
        textOf c back := by
  induction front generalizing s pointMet with
  | nil =>
    obtain ⟨htext, hnumber⟩ := contributions_of_text (c := c) (s := s) hback pointMet
    rw [List.nil_append, htext, hnumber, List.nil_append]
  | cons item front ih =>
    rw [List.forall_mem_cons] at hfront
    cases item with
    | literal | percent | permille | exponent => simp [Item.isNumberPart] at hfront
    | comma | point =>
      rw [List.cons_append, contributions, numberText_cons, List.flatten_cons, ih hfront.2]
      simp [Item.showsNumber, Item.isDigit]
    | zero | hash =>
      rw [List.cons_append, contributions]
      split <;> rw [numberText_cons, List.flatten_cons, ih hfront.2] <;>
        simp [Item.showsNumber, Item.isDigit]

end Supply

namespace Layout

variable {s : Section} {front back : List Item} {places : Nat}

theorem integerPlaceholders_eq (h : Layout s front places back) :
    Item.integerPlaceholders s.items = front.filter Item.isDigit := by
  rw [h.items_eq]
  exact Item.integerPlaceholders_layout h.point_notMem_front h.isNumberPart_back

theorem fractionPlaceholders_eq (h : Layout s front places back) :
    Item.fractionPlaceholders s.items = List.replicate places .zero := by
  rw [h.items_eq]
  exact Item.fractionPlaceholders_layout h.point_notMem_front h.isNumberPart_back

theorem count_point_le (h : Layout s front places back) : s.items.count .point ≤ 1 := by
  have hback := Item.point_notMem_of_text h.isNumberPart_back
  rw [h.items_eq, List.count_append, List.count_append,
    List.count_eq_zero.2 h.point_notMem_front, List.count_eq_zero.2 hback]
  have := Item.count_point_fractionItems places
  omega

/-- The number stands in one piece. -/
theorem isNumberPart_number (h : Layout s front places back) :
    ∀ item ∈ front ++ Item.fractionItems places, item.isNumberPart := by
  intro item hitem
  rcases List.mem_append.1 hitem with hitem | hitem
  · exact h.isNumberPart_front item hitem
  · exact Item.isNumberPart_fractionItems places item hitem

theorem isZero_renderPlain (h : Layout s front places back) (c : Culture) (scaled : Float) :
    (s.renderPlain c scaled).isZero = ((Digits.ofFloat scaled).plain places).isZero := by
  rw [s.isZero_renderPlain, h.fractionPlaceholders_eq, List.length_replicate]

/-- **What a plain layout shows**: the integer, filled up to the digits that are
always shown, the fraction, and the text behind it. -/
theorem text_renderPlain (h : Layout s front places back) (hdigit : front.filter Item.isDigit ≠ [])
    (c : Culture) (scaled : Float) :
    (s.renderPlain c scaled).text none =
      groupedText (if s.groupsDigits then c.groupSizes else []) c.groupSeparator
          (padInteger (Item.leastIntegerDigits s.items)
            ((Digits.ofFloat scaled).plain places).integer) ++
        fractionPart c ((Digits.ofFloat scaled).plain places).fraction ++
        Supply.textOf c back := by
  have hplaces : (Item.fractionPlaceholders s.items).length = places := by
    rw [h.fractionPlaceholders_eq, List.length_replicate]
  have hlength := (Digits.ofFloat scaled).length_fraction_plain places
  have hflatten : (s.plainContributions c scaled).flatten =
      numberText s.items (s.plainContributions c scaled) ++ Supply.textOf c back := by
    unfold Section.plainContributions
    rw [h.items_eq]
    exact Supply.flatten_contributions h.isNumberPart_number h.isNumberPart_back false
  rw [Section.text_renderPlain, hflatten, Section.plainContributions, hplaces,
    Section.numberText_plainSupply h.count_point_le (.inl (h.integerPlaceholders_eq ▸ hdigit))
      (hlength.trans hplaces.symm),
    leastFractionDigits_layout h.fractionPlaceholders_eq,
    shortenFraction_of_length_le (Nat.le_of_eq hlength)]

end Layout

end TickLabels
