import TickLabels.Decimal.Numeral

/-!
# Digit groups

Integer digits are set in groups, counted from the decimal point outwards.
`groupEndsAt` is the rule for where a group ends; the standard formats group
a run of digits by it, and the custom formats deal the same digits, with
their separators, to the placeholders of a section.
-/

namespace TickLabels

/-- A group ends `count` digits from the right. The groups have the given
sizes, the last of which repeats; a size of zero ends grouping. -/
def groupEndsAt : List Nat → Nat → Bool
  | [], _ => false
  | size :: sizes, count =>
    if size = 0 ∨ count < size then false
    else if sizes = [] then count % size = 0
    else count = size || groupEndsAt sizes (count - size)

/-- No group is empty. -/
@[simp] theorem groupEndsAt_zero (sizes : List Nat) : groupEndsAt sizes 0 = false := by
  cases sizes with
  | nil => rfl
  | cons size sizes => simp only [groupEndsAt]; rw [if_pos (by omega)]

/-- Each digit with the separator that follows it, where a group of the
digits to its right ends. -/
def groupedDigits (sizes : List Nat) (separator : Char) : List Digit → List Text
  | [] => []
  | d :: ds =>
    (d.char :: if groupEndsAt sizes ds.length then [separator] else []) ::
      groupedDigits sizes separator ds

@[simp] theorem length_groupedDigits (sizes : List Nat) (separator : Char)
    (digits : List Digit) : (groupedDigits sizes separator digits).length = digits.length := by
  induction digits with
  | nil => rfl
  | cons d ds ih => simp [groupedDigits, ih]

/-- A run of digits in groups. -/
def groupedText (sizes : List Nat) (separator : Char) (digits : List Digit) : Text :=
  (groupedDigits sizes separator digits).flatten

/-- Without sizes there are no groups. -/
theorem groupedDigits_nil_sizes (separator : Char) (digits : List Digit) :
    groupedDigits [] separator digits = digits.map fun d => [d.char] := by
  induction digits with
  | nil => rfl
  | cons d ds ih => simp [groupedDigits, groupEndsAt, ih]

/-- Texts dealt to `count` places from the right, one to each. The leftmost
place takes all that is left over, and places beyond the texts stay
empty. -/
def deal (count : Nat) (texts : List Text) : List Text :=
  if texts.length ≤ count then List.replicate (count - texts.length) [] ++ texts
  else
    match count with
    | 0 => []
    | count + 1 => (texts.take (texts.length - count)).flatten :: texts.drop (texts.length - count)

theorem length_deal (count : Nat) (texts : List Text) : (deal count texts).length = count := by
  unfold deal
  split
  · simp; omega
  · split
    · rfl
    · simp; omega

/-- **Dealing keeps every text**, as long as there is a place at all. -/
theorem flatten_deal {count : Nat} (h : 0 < count) (texts : List Text) :
    (deal count texts).flatten = texts.flatten := by
  unfold deal
  split
  · simp
  · split
    · omega
    · rw [List.flatten_cons, ← List.flatten_append, List.take_append_drop]

end TickLabels
