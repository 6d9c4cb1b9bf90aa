import Mathlib.Algebra.BigOperators.Intervals
import Mathlib.Algebra.Order.BigOperators.Group.Finset
import TickLabels.Culture.Known
import TickLabels.Proofs.Decimal.Numeral
import TickLabels.Proofs.Pattern.Plain
import TickLabels.Proofs.Render.Contributions
/-!
# Digits in groups

`groupEndsAt` says of one place whether a group ends there. The ends are the sums of the
sizes, as far as these are positive (`groupEndsAt_iff`), and a run of digits has a separator
at each of them that stands between two of its digits (`grouped_groupedText`).

Digits can also be taken from the right, with a walk that knows no more than where the next
group ends (`GroupWalk`). It meets the same ends (`GroupWalk.Follows.next?_eq_iff`), whether
everything is put into one text (`textFromRight_eq`) or dealt to places
(`placesFromRight_eq`).
-/

namespace TickLabels

/-! ## Where a group ends -/

/-- The size of a group, counted from the point outwards. The last size repeats. -/
def groupSize (sizes : List ℕ) (i : ℕ) : ℕ :=
  sizes.getD (min i (sizes.length - 1)) 0

/-- **The first groups hold `count` digits together.** There is at least one, and none of
them is empty: a size of zero ends grouping. -/
def IsGroupEnd (sizes : List ℕ) (count : ℕ) : Prop :=
  ∃ groups > 0, (∀ i < groups, 0 < groupSize sizes i) ∧
    count = ∑ i ∈ Finset.range groups, groupSize sizes i

/-- The sizes of the groups behind the first one. -/
def laterSizes : List ℕ → List ℕ
  | [] => []
  | [size] => [size]
  | _ :: sizes => sizes

@[simp] theorem groupSize_cons_zero (size : ℕ) (sizes : List ℕ) :
    groupSize (size :: sizes) 0 = size := by
  simp [groupSize]

theorem groupSize_succ (sizes : List ℕ) (i : ℕ) :
    groupSize sizes (i + 1) = groupSize (laterSizes sizes) i := by
  match sizes with
  | [] => rfl
  | [size] => simp [groupSize, laterSizes]
  | size :: next :: sizes =>
    have hmin : min (i + 1) (sizes.length + 1) = min i sizes.length + 1 := by omega
    simp [groupSize, laterSizes, hmin]

theorem IsGroupEnd.pos {sizes : List ℕ} {count : ℕ} (h : IsGroupEnd sizes count) : 0 < count := by
  obtain ⟨groups, hgroups, hpos, rfl⟩ := h
  exact Finset.sum_pos (fun i hi => hpos i (Finset.mem_range.1 hi))
    (Finset.nonempty_range_iff.2 hgroups.ne')

theorem not_isGroupEnd_nil (count : ℕ) : ¬ IsGroupEnd [] count := by
  rintro ⟨groups, hgroups, hpos, -⟩
  exact absurd (hpos 0 hgroups) (by simp [groupSize])

/-- The first group ends after its size, and behind it the later sizes count. -/
theorem isGroupEnd_cons {size : ℕ} {sizes : List ℕ} {count : ℕ} :
    IsGroupEnd (size :: sizes) count ↔ 0 < size ∧ size ≤ count ∧
      (count = size ∨ IsGroupEnd (laterSizes (size :: sizes)) (count - size)) := by
  have hsum (groups : ℕ) : ∑ i ∈ Finset.range (groups + 1), groupSize (size :: sizes) i =
      ∑ i ∈ Finset.range groups, groupSize (laterSizes (size :: sizes)) i + size := by
    simp only [Finset.sum_range_succ', groupSize_cons_zero, groupSize_succ]
  constructor
  · rintro ⟨_ | groups, hgroups, hpos, rfl⟩
    · contradiction
    rw [hsum]
    have hsize : 0 < size := hpos 0 hgroups
    refine ⟨hsize, Nat.le_add_left _ _, ?_⟩
    rcases groups.eq_zero_or_pos with rfl | hgroups
    · exact .inl (by simp)
    · refine .inr ⟨groups, hgroups, fun i hi => ?_, Nat.add_sub_cancel _ _⟩
      rw [← groupSize_succ]
      exact hpos _ (Nat.add_lt_add_right hi 1)
  · rintro ⟨hsize, hle, rfl | ⟨groups, hgroups, hpos, hcount⟩⟩
    · exact ⟨1, Nat.one_pos, fun i hi => by rwa [Nat.lt_one_iff.1 hi], by simp⟩
    · refine ⟨groups + 1, groups.succ_pos, fun i hi => ?_, by rw [hsum]; omega⟩
      cases i with
      | zero => exact hsize
      | succ i =>
        rw [groupSize_succ]
        exact hpos i (Nat.lt_of_succ_lt_succ hi)

/-- A single size ends groups at its multiples. -/
theorem isGroupEnd_singleton {size count : ℕ} :
    IsGroupEnd [size] count ↔ 0 < size ∧ size ≤ count ∧ size ∣ count := by
  have hsize (i : ℕ) : groupSize [size] i = size := by simp [groupSize]
  have hsum (groups : ℕ) : ∑ _i ∈ Finset.range groups, size = groups * size := by
    rw [Finset.sum_const_nat fun _ _ => rfl, Finset.card_range]
  simp only [IsGroupEnd, hsize, hsum]
  constructor
  · rintro ⟨groups, hgroups, hpos, rfl⟩
    exact ⟨hpos 0 hgroups, Nat.le_mul_of_pos_left size hgroups, Dvd.intro_left groups rfl⟩
  · rintro ⟨hpos, hle, groups, rfl⟩
    exact ⟨groups, Nat.pos_of_mul_pos_left (hpos.trans_le hle), fun _ _ => hpos,
      Nat.mul_comm size groups⟩

/-- **The rule for a place says where the groups end.** -/
theorem groupEndsAt_iff (sizes : List ℕ) (count : ℕ) :
    groupEndsAt sizes count = true ↔ IsGroupEnd sizes count := by
  induction sizes generalizing count with
  | nil => simp [groupEndsAt, not_isGroupEnd_nil]
  | cons size sizes ih =>
    unfold groupEndsAt
    split
    · next hnone =>
      refine iff_of_false Bool.false_ne_true fun hend => ?_
      have := isGroupEnd_cons.1 hend
      omega
    · next hsome =>
      cases sizes with
      | nil => simp [isGroupEnd_singleton, Nat.dvd_iff_mod_eq_zero]; omega
      | cons next sizes =>
        have hlater : laterSizes (size :: next :: sizes) = next :: sizes := rfl
        rw [isGroupEnd_cons, hlater, ← ih, if_neg (List.cons_ne_nil _ _)]
        simp only [Bool.or_eq_true, decide_eq_true_eq]
        constructor
        · exact fun h => ⟨by omega, by omega, h⟩
        · exact fun h => h.2.2

/-! ## The text of a run of digits -/

/-- **Digits in groups.** A separator stands behind a digit where the digits to its right
fill whole groups, and nowhere else. -/
inductive Grouped (sizes : List ℕ) (separator : Char) : List Digit → Text → Prop
  | nil : Grouped sizes separator [] []
  | within {d : Digit} {ds : List Digit} {text : Text} : ¬ IsGroupEnd sizes ds.length →
      Grouped sizes separator ds text → Grouped sizes separator (d :: ds) (d.char :: text)
  | ends {d : Digit} {ds : List Digit} {text : Text} : IsGroupEnd sizes ds.length →
      Grouped sizes separator ds text →
      Grouped sizes separator (d :: ds) (d.char :: separator :: text)

theorem groupedText_cons (sizes : List ℕ) (separator : Char) (d : Digit) (ds : List Digit) :
    groupedText sizes separator (d :: ds) =
      d.char :: ((if groupEndsAt sizes ds.length then [separator] else []) ++
        groupedText sizes separator ds) := rfl

theorem grouped_groupedText (sizes : List ℕ) (separator : Char) (digits : List Digit) :
    Grouped sizes separator digits (groupedText sizes separator digits) := by
  induction digits with
  | nil => exact .nil
  | cons d ds ih =>
    rw [groupedText_cons]
    split
    · next h => exact .ends ((groupEndsAt_iff _ _).1 h) ih
    · next h => exact .within (mt (groupEndsAt_iff _ _).2 h) ih

namespace Grouped

variable {sizes : List ℕ} {separator : Char} {digits : List Digit} {text : Text}

/-- The text starts with the first digit. -/
theorem head?_eq (h : Grouped sizes separator digits text) :
    text.head? = (digitText digits).head? := by
  cases h <;> rfl

theorem eq_nil_iff (h : Grouped sizes separator digits text) : text = [] ↔ digits = [] := by
  cases h <;> simp

/-- The text ends with the last digit: behind it there is no group. -/
theorem getLast?_eq (h : Grouped sizes separator digits text) :
    text.getLast? = (digitText digits).getLast? := by
  induction h with
  | nil => rfl
  | @within d ds text _ htext ih =>
    rw [digitText, List.map_cons, ← digitText, List.getLast?_cons, List.getLast?_cons, ih]
  | @ends d ds text hend htext ih =>
    have hds : ds ≠ [] := List.length_pos_iff.1 hend.pos
    have hlast : text ≠ [] := mt htext.eq_nil_iff.1 hds
    have htail : digitText ds ≠ [] := by simpa [digitText] using hds
    rw [digitText, List.map_cons, ← digitText, List.getLast?_cons_of_ne_nil htail, ← ih,
      List.getLast?_cons_of_ne_nil (List.cons_ne_nil _ _), List.getLast?_cons_of_ne_nil hlast]

/-- **Without the separators it is the digits**, if the separator cannot be taken for one of
them. -/
theorem filter_ne_separator (h : Grouped sizes separator digits text)
    (hseparator : separator.isDigit = false) :
    text.filter (· ≠ separator) = digitText digits := by
  have hchar (d : Digit) : d.char ≠ separator := fun heq => by
    rw [← heq, d.isDigit_char] at hseparator
    contradiction
  induction h with
  | nil => rfl
  | within _ _ ih => rw [List.filter_cons_of_pos (by simp [hchar]), ih]; rfl
  | ends _ _ ih =>
    rw [List.filter_cons_of_pos (by simp [hchar]), List.filter_cons_of_neg (by simp), ih]
    rfl

end Grouped

/-- Each piece starts with its digit. -/
theorem flatMap_take_groupedDigits (sizes : List ℕ) (separator : Char) (digits : List Digit) :
    (groupedDigits sizes separator digits).flatMap (·.take 1) = digitText digits := by
  induction digits with
  | nil => rfl
  | cons d ds ih =>
    rw [groupedDigits, List.flatMap_cons, ih]
    rfl

/-! ## A walk from the right -/

/-- A walk over the digits from the right: the sizes of the groups from the one it is in,
and the end of that group, if it has one. -/
structure GroupWalk where
  sizes : List ℕ
  next? : Option ℕ

namespace GroupWalk

/-- The number of digits in the first group, unless it is empty. -/
def firstSize? (sizes : List ℕ) : Option ℕ :=
  sizes.head?.filter (0 < ·)

/-- In front of the rightmost digit. -/
def start (sizes : List ℕ) : GroupWalk :=
  ⟨sizes, firstSize? sizes⟩

/-- The next digit, with `count` digits to its right: whether a group ends there, and the
walk behind it. -/
def step (w : GroupWalk) (count : ℕ) : Bool × GroupWalk :=
  if w.next? = some count then
    let sizes := laterSizes w.sizes
    (true, ⟨sizes, (firstSize? sizes).map (count + ·)⟩)
  else (false, w)

/-- A group ends with the first size, or with a later one. -/
theorem isGroupEnd_iff {sizes : List ℕ} {count : ℕ} :
    IsGroupEnd sizes count ↔ ∃ size ∈ firstSize? sizes, size ≤ count ∧
      (count = size ∨ IsGroupEnd (laterSizes sizes) (count - size)) := by
  cases sizes with
  | nil => simp [firstSize?, not_isGroupEnd_nil]
  | cons size sizes => simp [firstSize?, isGroupEnd_cons, and_assoc]

/-- **What a walk knows** after `count` digits. The group it is in began `base` digits from
the right; from there on its own sizes count, and the end of that group is still to come. -/
structure Follows (w : GroupWalk) (sizes : List ℕ) (base count : ℕ) : Prop where
  base_le : base ≤ count
  next?_eq : w.next? = (firstSize? w.sizes).map (base + ·)
  le_next : ∀ next ∈ w.next?, count ≤ next
  isGroupEnd_iff : ∀ n, count ≤ n → (IsGroupEnd sizes n ↔ IsGroupEnd w.sizes (n - base))

theorem follows_start (sizes : List ℕ) : (start sizes).Follows sizes 0 0 where
  base_le := le_rfl
  next?_eq := by simp [start]
  le_next _ _ := Nat.zero_le _
  isGroupEnd_iff _ _ := Iff.rfl

variable {w : GroupWalk} {sizes : List ℕ} {base count : ℕ}

/-- The walk meets the end of a group where there is one. -/
theorem Follows.next?_eq_iff (h : w.Follows sizes base count) :
    w.next? = some count ↔ IsGroupEnd sizes count := by
  have hle := h.base_le
  rw [h.isGroupEnd_iff count le_rfl, GroupWalk.isGroupEnd_iff, h.next?_eq, Option.map_eq_some_iff]
  constructor
  · rintro ⟨size, hsize, rfl⟩
    exact ⟨size, hsize, by omega, .inl (by omega)⟩
  · rintro ⟨size, hsize, hsizele, -⟩
    have hcount := h.le_next (base + size) (by rw [h.next?_eq, hsize]; rfl)
    exact ⟨size, hsize, by omega⟩

/-- **One digit more** is passed. -/
theorem Follows.step (h : w.Follows sizes base count) :
    ∃ base, (w.step count).2.Follows sizes base (count + 1) := by
  unfold GroupWalk.step
  split
  · next hnext =>
    obtain ⟨size, hsize, rfl⟩ := Option.map_eq_some_iff.1 (h.next?_eq.symm.trans hnext)
    refine ⟨base + size, Nat.le_succ _, rfl, fun next hmem => ?_, fun n hn => ?_⟩
    · obtain ⟨later, hlater, rfl⟩ := Option.map_eq_some_iff.1 hmem
      have hpos : 0 < later := by simpa using (Option.filter_eq_some_iff.1 hlater).2
      omega
    · rw [h.isGroupEnd_iff n (by omega), GroupWalk.isGroupEnd_iff]
      have hsub : n - base - size = n - (base + size) := Nat.sub_sub _ _ _
      constructor
      · rintro ⟨size', hsize', -, heq | hend⟩
        · have := Option.some.inj (hsize.symm.trans hsize')
          omega
        · rwa [Option.some.inj (hsize.symm.trans hsize'), ← Nat.sub_sub]
      · exact fun hend => ⟨size, hsize, by omega, .inr (hsub ▸ hend)⟩
  · next hnext =>
    refine ⟨base, h.base_le.trans (Nat.le_succ _), h.next?_eq, fun next hmem => ?_,
      fun n hn => h.isGroupEnd_iff n (Nat.le_of_succ_le hn)⟩
    exact Nat.lt_of_le_of_ne (h.le_next next hmem) fun heq => hnext (heq ▸ hmem)

end GroupWalk

/-- **Digits from the right.** The walk over the groups goes along, and each digit is put in
with the separator behind it, if there is one. -/
def fromRight {α : Type} (sizes : List ℕ) (separator : Char) (put : ℕ → Text → α → α) (init : α) :
    List Digit → GroupWalk × α
  | [] => (.start sizes, init)
  | d :: ds =>
    let passed := fromRight sizes separator put init ds
    let next := passed.1.step ds.length
    (next.2, put ds.length (d.char :: if next.1 then [separator] else []) passed.2)

section FromRight

variable {α : Type} {sizes : List ℕ} {separator : Char} {put : ℕ → Text → α → α} {init : α}

/-- After any run of digits the walk knows the groups from there on. -/
theorem exists_follows_fromRight (digits : List Digit) :
    ∃ base, (fromRight sizes separator put init digits).1.Follows sizes base digits.length := by
  induction digits with
  | nil => exact ⟨0, GroupWalk.follows_start sizes⟩
  | cons d ds ih =>
    obtain ⟨base, h⟩ := ih
    exact h.step

/-- So every digit comes with the separator that the rule gives it. -/
theorem snd_fromRight_cons (d : Digit) (ds : List Digit) :
    (fromRight sizes separator put init (d :: ds)).2 =
      put ds.length (d.char :: if groupEndsAt sizes ds.length then [separator] else [])
        (fromRight sizes separator put init ds).2 := by
  obtain ⟨base, h⟩ := @exists_follows_fromRight _ sizes separator put init ds
  have hends : ((fromRight sizes separator put init ds).1.step ds.length).1 =
      groupEndsAt sizes ds.length := by
    rw [Bool.eq_iff_iff, groupEndsAt_iff, ← h.next?_eq_iff, GroupWalk.step]
    split <;> simp_all
  rw [← hends]
  rfl

end FromRight

/-- One text of all digits. -/
def textFromRight (sizes : List ℕ) (separator : Char) (digits : List Digit) : Text :=
  (fromRight sizes separator (fun _ piece text => piece ++ text) [] digits).2

/-- **The walk groups the digits.** -/
theorem textFromRight_eq (sizes : List ℕ) (separator : Char) (digits : List Digit) :
    textFromRight sizes separator digits = groupedText sizes separator digits := by
  induction digits with
  | nil => rfl
  | cons d ds ih =>
    rw [textFromRight, snd_fromRight_cons, ← textFromRight, ih]
    rfl

/-- The digits at their places. From the right each place takes one digit; the leftmost
takes all that are left. -/
def placesFromRight (count : ℕ) (sizes : List ℕ) (separator : Char) (digits : List Digit) :
    List Text :=
  (fromRight sizes separator
    (fun i piece places => places.modify (count - (i + 1)) (piece ++ ·))
    (List.replicate count []) digits).2

theorem deal_of_length_le {count : ℕ} {texts : List Text} (h : texts.length ≤ count) :
    deal count texts = List.replicate (count - texts.length) [] ++ texts :=
  if_pos h

/-- With a text for each place there is no empty one. -/
theorem deal_succ_of_lt {count : ℕ} {texts : List Text} (h : count < texts.length) :
    deal (count + 1) texts =
      (texts.take (texts.length - count)).flatten :: texts.drop (texts.length - count) := by
  unfold deal
  split
  · have hone : texts.length - count = 1 := by omega
    have hnone : count + 1 - texts.length = 0 := by omega
    cases texts with
    | nil => contradiction
    | cons text texts => rw [hone, hnone]; simp
  · rfl

/-- A text more, in front of the others, is put to the next place, or to the leftmost. -/
theorem deal_cons {count : ℕ} (h : 0 < count) (text : Text) (texts : List Text) :
    deal count (text :: texts) =
      (deal count texts).modify (count - (texts.length + 1)) (text ++ ·) := by
  by_cases hlt : texts.length < count
  · obtain ⟨empty, rfl⟩ : ∃ empty, count = empty + 1 + texts.length :=
      ⟨count - (texts.length + 1), by omega⟩
    have hempty : empty + 1 + texts.length - (texts.length + 1) = empty := by omega
    rw [deal_of_length_le (by simp), deal_of_length_le (by omega), List.length_cons, hempty,
      Nat.add_sub_cancel, List.replicate_succ', List.append_assoc, List.modify_eq_take_drop]
    simp
  · obtain ⟨count, rfl⟩ := Nat.exists_eq_add_one.2 h
    have hleft : texts.length + 1 - count = texts.length - count + 1 := by omega
    have hfirst : count + 1 - (texts.length + 1) = 0 := by omega
    rw [deal_succ_of_lt (by simp; omega), deal_succ_of_lt (by omega), List.length_cons, hleft,
      hfirst]
    simp

/-- **The walk deals the digits** to the places. -/
theorem placesFromRight_eq {count : ℕ} (h : 0 < count) (sizes : List ℕ) (separator : Char)
    (digits : List Digit) :
    placesFromRight count sizes separator digits =
      deal count (groupedDigits sizes separator digits) := by
  induction digits with
  | nil => simp [placesFromRight, fromRight, groupedDigits, deal]
  | cons d ds ih =>
    rw [placesFromRight, snd_fromRight_cons, ← placesFromRight, ih, groupedDigits, deal_cons h,
      length_groupedDigits]

/-! ## The rule -/

/-- What the integer placeholders of a section show together. -/
theorem Section.flatten_integer_plainSupply {s : Section}
    (h : Item.integerPlaceholders s.items ≠ []) (c : Culture) (d : PlainDigits) :
    (s.plainSupply c d).integer.flatten =
      if s.groupsDigits then
        groupedText c.groupSizes c.groupSeparator
          (padInteger (Item.leastIntegerDigits s.items) d.integer)
      else digitText (padInteger (Item.leastIntegerDigits s.items) d.integer) := by
  refine (flatten_deal (List.length_pos_iff.2 h) _).trans ?_
  split
  · rfl
  · exact groupedText_nil_sizes _ _

/-- **Grouping is one rule.** A run of digits has separators where the digits behind fill
whole groups, neither in front of the first digit nor behind the last one, and is those
digits without them. The placeholders of a section show together what a run of the same
digits shows, and walks from the right give both. -/
theorem Culture.grouping_rule (c : Culture) (digits : List Digit) :
    let text := groupedText c.groupSizes c.groupSeparator digits
    Grouped c.groupSizes c.groupSeparator digits text ∧
    text.head? = (digitText digits).head? ∧ text.getLast? = (digitText digits).getLast? ∧
    (groupedDigits c.groupSizes c.groupSeparator digits).flatMap (·.take 1) = digitText digits ∧
    (c.groupSeparator.isDigit = false → text.filter (· ≠ c.groupSeparator) = digitText digits) ∧
    textFromRight c.groupSizes c.groupSeparator digits = text ∧
    ∀ (s : Section) (d : PlainDigits), Item.integerPlaceholders s.items ≠ [] →
      let places := (Item.integerPlaceholders s.items).length
      let sizes := if s.groupsDigits then c.groupSizes else []
      let padded := padInteger (Item.leastIntegerDigits s.items) d.integer
      (s.plainSupply c d).integer = placesFromRight places sizes c.groupSeparator padded ∧
      (s.plainSupply c d).integer.flatten =
        if s.groupsDigits then groupedText c.groupSizes c.groupSeparator padded
        else digitText padded := by
  intro text
  have hgrouped := grouped_groupedText c.groupSizes c.groupSeparator digits
  refine ⟨hgrouped, hgrouped.head?_eq, hgrouped.getLast?_eq, flatMap_take_groupedDigits _ _ _,
    hgrouped.filter_ne_separator, textFromRight_eq _ _ _, fun s d hplaces => ⟨?_, ?_⟩⟩
  · exact (placesFromRight_eq (List.length_pos_iff.2 hplaces) _ _ _).symm
  · exact s.flatten_integer_plainSupply hplaces c d

/-- Lakhs, as India writes them: a group of three digits and groups of two before it. -/
theorem Culture.grouping_rule_enIN :
    Item.integerPlaceholders (Section.ofText "#,##0".toList).items = [.hash, .hash, .hash, .zero] ∧
      ((Section.ofText "#,##0".toList).plainSupply .enIN ⟨[1, 2, 3, 4, 5, 6, 7], []⟩).integer =
        ["12,34,".toList, "5".toList, "6".toList, "7".toList] ∧
      (groupedText [3, 2] ',' [1, 2, 3, 4, 5, 6, 7]).filter (· ≠ ',') = "1234567".toList := by
  have hitems : (Section.ofText "#,##0".toList).items = [.hash, .comma, .hash, .hash, .zero] := by
    rw [Section.ofText, lex_of_readAlone (List.all_eq_true.1 (by decide))]
    rfl
  have hplaces : Item.integerPlaceholders (Section.ofText "#,##0".toList).items =
      [.hash, .hash, .hash, .zero] := by
    rw [hitems]
    decide
  have hgroups : (Section.ofText "#,##0".toList).groupsDigits = true := by
    rw [Section.groupsDigits, Section.integerItems, hitems]
    decide
  obtain ⟨-, -, -, -, hfilter, -, hsections⟩ := grouping_rule .enIN [1, 2, 3, 4, 5, 6, 7]
  refine ⟨hplaces, ?_, hfilter (by decide)⟩
  rw [(hsections _ ⟨[1, 2, 3, 4, 5, 6, 7], []⟩ (by rw [hplaces]; decide)).1, hplaces, hgroups,
    Item.leastIntegerDigits, hplaces]
  decide

end TickLabels
