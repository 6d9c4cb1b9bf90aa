import TickLabels.Decimal.Shortest
/-!
# Normal digits

All digits that are shown come from the shortest digits of a double by
rounding. They are trimmed: no zero stands at either end, and zero itself has
no digits. Those of a finite double are normal, so that zero takes no place in
front of the point. `isTrimmed_keepDigits` and `isNormal_keepDigits` are the
steps, and a number that is not zero keeps its leading digit as long as one
digit is asked for (`ne_nil_keepDigits`).
-/

namespace TickLabels

/-- A list that does not start with a zero keeps its head when the zeros at
its end are dropped. -/
theorem head?_dropTrailingZeros {digits : List Digit} (h : digits.head? ≠ some 0) :
    (dropTrailingZeros digits).head? = digits.head? := by
  obtain ⟨count, hdrop⟩ := dropTrailingZeros_append digits
  cases hfront : dropTrailingZeros digits with
  | nil =>
    rw [hfront, List.nil_append] at hdrop
    cases count with
    | zero => simp [hdrop]
    | succ count => simp [hdrop, List.replicate_succ] at h
  | cons d ds => rw [hdrop, hfront]; rfl

/-- Adding one in the last place without a carry does not make the first digit
zero. -/
theorem head?_increment {digits : List Digit} (h : digits.head? ≠ some 0)
    (hcarry : (increment digits).1 = false) : (increment digits).2.head? ≠ some 0 := by
  cases digits with
  | nil => simp [increment] at hcarry
  | cons d ds =>
    have hd : d ≠ 0 := by simpa using h
    unfold increment at hcarry ⊢
    split
    · simpa using hd
    · split
      · simp_all
      · next hnine =>
        have : ∀ d : Digit, d ≠ 9 → d + 1 ≠ 0 := by decide
        simpa using this d hnine

namespace Digits

/-- No zero stands at either end. The point may stand anywhere. -/
structure IsTrimmed (d : Digits) : Prop where
  head?_ne : d.digits.head? ≠ some 0
  getLast?_ne : d.digits.getLast? ≠ some 0

/-- Zero has no place in front of the point either. -/
structure IsNormal (d : Digits) : Prop extends IsTrimmed d where
  point_nonpos : d.digits = [] → d.point ≤ 0

theorem isTrimmed_nil (point : Int) : (Digits.mk [] point).IsTrimmed :=
  ⟨by simp, by simp⟩

theorem isNormal_zero : zero.IsNormal :=
  ⟨isTrimmed_nil 0, fun _ => Int.le_refl 0⟩

/-- The point of zero is all that can be out of place. -/
theorem IsTrimmed.isNormal {d : Digits} (h : d.IsTrimmed) (hne : d.digits ≠ []) : d.IsNormal :=
  ⟨h, fun hnil => absurd hnil hne⟩

theorem isNormal_ofList {digits : List Digit} (h : digits.head? ≠ some 0) (point : Int) :
    (ofList digits point).IsNormal := by
  have hhead := head?_dropTrailingZeros h
  have hlast := getLast?_dropTrailingZeros digits
  unfold ofList
  split
  · exact isNormal_zero
  · next hne => exact IsTrimmed.isNormal ⟨hhead ▸ h, hlast⟩ (by simpa using hne)

/-- Digits that start with another digit than zero are not zero. -/
theorem ne_nil_ofList {digits : List Digit} (hne : digits ≠ []) (h : digits.head? ≠ some 0)
    (point : Int) : (ofList digits point).digits ≠ [] := by
  have hhead := head?_dropTrailingZeros h
  unfold ofList
  split
  · next hnil =>
    rw [hnil] at hhead
    exact absurd (List.head?_eq_none_iff.1 hhead.symm) hne
  · next hne => simpa using hne

theorem head?_take {digits : List Digit} (h : digits.head? ≠ some 0) (count : Nat) :
    (digits.take count).head? ≠ some 0 := by
  cases count with
  | zero => simp
  | succ count => rwa [List.head?_take, if_neg (by omega)]

/-- Digits of which none is dropped stay as they are. -/
theorem keepDigits_of_length_le {d : Digits} {keep : Int} (h : d.digits.length ≤ keep) :
    d.keepDigits keep = d := by
  have hdrop : d.digits.drop keep.toNat = [] := List.drop_eq_nil_of_le (by omega)
  rw [keepDigits, if_neg (by omega), hdrop]

/-- Zero has no digit to drop. -/
theorem keepDigits_of_nil {d : Digits} (hnil : d.digits = []) (keep : Int) :
    d.keepDigits keep = d := by
  by_cases hkeep : keep < 0
  · rw [keepDigits, if_pos hkeep, ← hnil]
  · exact keepDigits_of_length_le (by rw [hnil]; exact Int.not_lt.1 hkeep)

/-- **Rounding keeps digits normal**, unless a zero is left that has a place in front of the
point. -/
theorem isNormal_keepDigits_of_ne_nil {d : Digits} (hd : d.IsTrimmed) (hne : d.digits ≠ [])
    {keep : Int} (hkeep : keep < 0 → d.point ≤ 0) : (d.keepDigits keep).IsNormal := by
  have hfront := head?_take hd.head?_ne keep.toNat
  unfold keepDigits
  split
  · next hall => exact ⟨isTrimmed_nil d.point, fun _ => hkeep hall⟩
  · split
    · exact hd.isNormal hne
    · dsimp only
      split
      · split
        · exact isNormal_ofList (by simp) _
        · next digits hincrement =>
          have := head?_increment hfront (by rw [hincrement])
          rw [hincrement] at this
          exact isNormal_ofList this _
      · exact isNormal_ofList hfront _

theorem isTrimmed_keepDigits {d : Digits} (hd : d.IsTrimmed) (keep : Int) :
    (d.keepDigits keep).IsTrimmed := by
  by_cases hnil : d.digits = []
  · rwa [keepDigits_of_nil hnil]
  · by_cases hkeep : keep < 0
    · rw [keepDigits, if_pos hkeep]
      exact isTrimmed_nil d.point
    · exact (isNormal_keepDigits_of_ne_nil hd hnil fun h => absurd h hkeep).toIsTrimmed

theorem isNormal_keepDigits {d : Digits} (hd : d.IsNormal) {keep : Int}
    (hkeep : keep < 0 → d.point ≤ 0) : (d.keepDigits keep).IsNormal := by
  by_cases hnil : d.digits = []
  · rwa [keepDigits_of_nil hnil]
  · exact isNormal_keepDigits_of_ne_nil hd.toIsTrimmed hnil hkeep

theorem isNormal_roundPlaces {d : Digits} (hd : d.IsNormal) (places : Nat) :
    (d.roundPlaces places).IsNormal :=
  isNormal_keepDigits hd (by omega)

theorem isNormal_roundDigits {d : Digits} (hd : d.IsNormal) (count : Nat) :
    (d.roundDigits count).IsNormal :=
  isNormal_keepDigits hd (by omega)

/-- **A number stays away from zero** if at least one of its digits is kept. -/
theorem ne_nil_keepDigits {d : Digits} (hd : d.IsTrimmed) (hne : d.digits ≠ []) {keep : Int}
    (hkeep : 0 < keep) : (d.keepDigits keep).digits ≠ [] := by
  have hfront := head?_take hd.head?_ne keep.toNat
  have hfront_ne : d.digits.take keep.toNat ≠ [] := by
    simp [hne]; omega
  unfold keepDigits
  rw [if_neg (by omega)]
  split
  · exact hne
  · dsimp only
    split
    · split
      · exact ne_nil_ofList (by simp) (by simp) _
      · next digits hincrement =>
        have hhead := head?_increment hfront (by rw [hincrement])
        have hlength := length_increment (d.digits.take keep.toNat)
        rw [hincrement] at hhead hlength
        refine ne_nil_ofList (fun hnil => hfront_ne ?_) hhead _
        rw [hnil] at hlength
        exact List.length_eq_zero_iff.1 hlength.symm
    · exact ne_nil_ofList hfront_ne hfront _

theorem isNormal_ofScaled (n : Nat) (exponent : Int) : (ofScaled n exponent).IsNormal :=
  isNormal_ofList (head?_digitsOf_ne_zero n) _

theorem ne_nil_ofScaled {n : Nat} (h : 0 < n) (exponent : Int) :
    (ofScaled n exponent).digits ≠ [] :=
  ne_nil_ofList (by rw [digitsOf_of_pos h]; simp) (head?_digitsOf_ne_zero n) _

end Digits

/-! ## The notations -/

/-- A carry over all digits leaves zeros. -/
theorem increment_of_carry {digits : List Digit} (h : (increment digits).1 = true) :
    (increment digits).2 = List.replicate digits.length 0 := by
  induction digits with
  | nil => rfl
  | cons d ds ih =>
    unfold increment at h ⊢
    split
    · next heq => simp [heq] at h
    · next heq =>
      split
      · rw [heq] at ih
        have hzeros := ih rfl
        dsimp only at hzeros
        rw [hzeros]
        rfl
      · next hnine => simp [heq, hnine] at h

theorem dropTrailingZeros_one_zeros (count : Nat) :
    dropTrailingZeros (1 :: List.replicate count 0) = [1] := by
  rw [dropTrailingZeros, List.reverse_cons, List.reverse_replicate,
    List.dropWhile_append_of_pos (by simp)]
  rfl

theorem length_dropTrailingZeros_le (digits : List Digit) :
    (dropTrailingZeros digits).length ≤ digits.length := by
  obtain ⟨count, h⟩ := dropTrailingZeros_append digits
  have := congrArg List.length h
  rw [List.length_append] at this
  omega

namespace Digits

theorem length_ofList_le (digits : List Digit) (point : Int) :
    (ofList digits point).digits.length ≤ (dropTrailingZeros digits).length := by
  unfold ofList
  split
  · simp [zero]
  · exact Nat.le_refl _

/-- Rounding keeps no more digits than asked for. -/
theorem length_keepDigits_le (d : Digits) {keep : Int} (h : 0 < keep) :
    (d.keepDigits keep).digits.length ≤ keep.toNat := by
  have hfront : (d.digits.take keep.toNat).length ≤ keep.toNat := List.length_take_le _ _
  unfold keepDigits
  rw [if_neg (by omega)]
  split
  · next hnil => simpa using hnil
  · dsimp only
    split
    · split
      · next hincrement =>
        have hzeros := increment_of_carry (by rw [hincrement])
        rw [hincrement] at hzeros
        refine Nat.le_trans (length_ofList_le _ _) ?_
        dsimp only at hzeros
        rw [hzeros, dropTrailingZeros_one_zeros, List.length_singleton]
        omega
      · next hincrement =>
        have hlength := length_increment (d.digits.take keep.toNat)
        rw [hincrement] at hlength
        refine Nat.le_trans (length_ofList_le _ _) ?_
        exact Nat.le_trans (length_dropTrailingZeros_le _) (hlength ▸ hfront)
    · refine Nat.le_trans (length_ofList_le _ _) ?_
      exact Nat.le_trans (length_dropTrailingZeros_le _) hfront

theorem length_fraction_plainParts (d : Digits) (places : Nat) :
    (d.plainParts places).fraction.length = places := by
  simp [plainParts]

theorem length_fraction_plain (d : Digits) (places : Nat) :
    (d.plain places).fraction.length = places :=
  length_fraction_plainParts _ places

theorem length_fraction_scientific (d : Digits) (places : Nat) :
    (d.scientific places).fraction.length = places := by
  have hkeep : (0 : Int) < (places + 1 : Nat) := by omega
  have hlength := d.length_keepDigits_le hkeep
  unfold scientific roundDigits
  dsimp only
  split
  · simp
  · next lead rest hdigits =>
    rw [hdigits] at hlength
    simp only [List.length_cons, Int.toNat_natCast] at hlength
    simp only [List.length_append, List.length_replicate]
    omega

/-- The first digit in front of the point is the leading one. -/
theorem head?_integer_plainParts {d : Digits} (hhead : d.digits.head? ≠ some 0)
    (hzero : d.digits = [] → d.point ≤ 0) (places : Nat) :
    (d.plainParts places).integer.head? ≠ some 0 := by
  unfold plainParts
  cases hpoint : d.point.toNat with
  | zero => simp
  | succ n =>
    cases hdigits : d.digits with
    | nil => have := hzero hdigits; omega
    | cons lead rest =>
      rw [hdigits] at hhead
      simpa [List.range_succ_eq_map, nthDigit, hdigits] using hhead

/-- **The integer part starts with a digit other than zero**, if it has any. -/
theorem head?_integer_plain {d : Digits} (hd : d.IsNormal) (places : Nat) :
    (d.plain places).integer.head? ≠ some 0 := by
  have hnormal := isNormal_roundPlaces hd places
  exact head?_integer_plainParts hnormal.head?_ne hnormal.point_nonpos places

/-- **The digit in front of the point is not zero**, unless the number is. -/
theorem lead_scientific_ne_zero {d : Digits} (hd : d.IsTrimmed) (hne : d.digits ≠ [])
    (places : Nat) : (d.scientific places).lead ≠ 0 := by
  have htrimmed := isTrimmed_keepDigits hd (places + 1 : Nat)
  have hkeep : (0 : Int) < (places + 1 : Nat) := by omega
  have hrounded := ne_nil_keepDigits hd hne hkeep
  unfold scientific roundDigits
  dsimp only
  split
  · next hnil => exact absurd hnil hrounded
  · next hdigits =>
    have hlead := htrimmed.head?_ne
    rw [hdigits] at hlead
    simpa using hlead

theorem exponent_scientific_of_lead {d : Digits} (hd : d.IsTrimmed) {places : Nat}
    (h : (d.scientific places).lead = 0) : (d.scientific places).exponent = 0 := by
  have htrimmed := isTrimmed_keepDigits hd (places + 1 : Nat)
  unfold scientific roundDigits at h ⊢
  dsimp only at h ⊢
  split
  · rfl
  · next hdigits =>
    have hlead := htrimmed.head?_ne
    rw [hdigits] at hlead h
    exact absurd (congrArg some h) hlead

end Digits

/-! ## The digits of a double -/

namespace Around

/-- What the search finds is the value itself or lies in the interval. -/
theorem contains_shortest (a : Around) (places : Nat) :
    (a.shortest places).1 * Nat.pow 10 (a.shortest places).2 = a.value ∨
      a.contains ((a.shortest places).1 * Nat.pow 10 (a.shortest places).2) := by
  induction places with
  | zero => simp [shortest]
  | succ places ih =>
    unfold shortest
    split
    · next h => exact .inr (contains_of_nearest? h)
    · exact ih

end Around

namespace Magnitude

theorem isNormal_shortest (m : Magnitude) : m.shortest.IsNormal := by
  unfold shortest
  split
  · exact Digits.isNormal_zero
  · exact Digits.isNormal_ofScaled _ _

/-- The interval of a magnitude does not reach down to zero. -/
theorem ne_nil_shortest {m : Magnitude} (h : 0 < m.mantissa) : m.shortest.digits ≠ [] := by
  have hunit : 0 < m.quarter.1 := by
    unfold quarter toDecimal
    split
    · exact Nat.mul_pos Nat.one_pos (Nat.pow_pos (by decide))
    · exact Nat.mul_pos Nat.one_pos (Nat.pow_pos (by decide))
  have hlow : 0 < m.around.low := by
    simp only [around]
    exact Nat.mul_pos (by split <;> omega) hunit
  have hvalue : 0 < m.around.value := by
    simp only [around]
    exact Nat.mul_pos (by omega) hunit
  unfold shortest
  rw [if_neg (by omega)]
  refine Digits.ne_nil_ofScaled ?_ _
  have hfound := m.around.contains_shortest (digitsOf m.around.value).length
  generalize m.around.shortest _ = found at hfound
  refine Nat.pos_of_ne_zero fun hzero => ?_
  rw [hzero, Nat.zero_mul] at hfound
  rcases hfound with h' | h'
  · omega
  · unfold Around.contains at h'
    split at h' <;> rw [Bool.and_eq_true, decide_eq_true_eq, decide_eq_true_eq] at h' <;> omega

end Magnitude

namespace Digits

/-- **The digits of a finite double are normal**, and those of no other. -/
theorem isNormal_shortest_iff {x : Float} :
    (shortest x).IsNormal ↔ (Magnitude.ofFloat? x).isSome := by
  unfold shortest
  split
  · next m hm => exact iff_of_true m.isNormal_shortest (by rw [hm]; rfl)
  · next hnone =>
    exact iff_of_false (fun h => absurd (h.point_nonpos rfl) (by decide)) (by simp [hnone])

theorem isTrimmed_shortest (x : Float) : (shortest x).IsTrimmed := by
  unfold shortest
  split
  · next m _ => exact m.isNormal_shortest.toIsTrimmed
  · exact isTrimmed_nil 1

theorem isTrimmed_ofFloat (x : Float) : (ofFloat x).IsTrimmed :=
  isTrimmed_keepDigits (isTrimmed_shortest x) maxSignificant

theorem isNormal_ofFloat {x : Float} {m : Magnitude} (hx : Magnitude.ofFloat? x = some m) :
    (ofFloat x).IsNormal :=
  isNormal_roundDigits (isNormal_shortest_iff.2 (by rw [hx]; rfl)) maxSignificant

/-- What is not finite has no digits. -/
theorem ofFloat_of_none {x : Float} (hx : Magnitude.ofFloat? x = none) : ofFloat x = ⟨[], 1⟩ := by
  rw [ofFloat, shortest, hx]
  exact keepDigits_of_nil rfl _

/-- **The integer part of a double** has no zero in front, unless it is the zero of what is not
finite. -/
theorem integer_plain_ofFloat (x : Float) (places : Nat) :
    ((ofFloat x).plain places).integer.head? ≠ some 0 ∨
      ((ofFloat x).plain places).integer = [0] := by
  cases hx : Magnitude.ofFloat? x with
  | some m => exact .inl (head?_integer_plain (isNormal_ofFloat hx) places)
  | none =>
    right
    rw [ofFloat_of_none hx, plain, roundPlaces, keepDigits_of_nil rfl]
    rfl

/-- **A double that is not zero** has digits. -/
theorem ne_nil_ofFloat {x : Float} {m : Magnitude} (hx : Magnitude.ofFloat? x = some m)
    (hm : 0 < m.mantissa) : (ofFloat x).digits ≠ [] := by
  have hshortest : shortest x = m.shortest := by rw [shortest, hx]
  have hkeep : (0 : Int) < maxSignificant := by decide
  rw [ofFloat, hshortest]
  exact ne_nil_keepDigits m.isNormal_shortest.toIsTrimmed (Magnitude.ne_nil_shortest hm) hkeep

end Digits

end TickLabels
