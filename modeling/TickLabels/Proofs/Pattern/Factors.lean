import TickLabels.Proofs.Binary64.Signed
import TickLabels.Proofs.Pattern.Items
/-!
# The factor of percent signs

Each percent sign multiplies a number by a hundred and each permille sign by a thousand. The
factor is multiplied up as a double, sign by sign. It is exact as long as it has no more than
22 zeros, and beyond that no double is (`Item.exactValue_percentFactor_iff`).
-/

namespace TickLabels

/-! ## Powers of ten that are exact -/

/-- Five has to be among the digits that are kept as often as it divides the power. -/
theorem le_of_isShort_pow {k : ℕ} (h : IsShort (10 ^ k)) : k ≤ 22 := by
  obtain ⟨n, e, hn, -, hvalue⟩ := h
  have hdvd : 5 ^ k ∣ n := by
    have hten : ((10 ^ k : ℕ) : ℚ) = n * 2 ^ e := by exact_mod_cast hvalue
    have hfive : 5 ^ k ∣ 10 ^ k := pow_dvd_pow_of_dvd (by norm_num) k
    rcases lt_or_ge e 0 with hneg | hpos
    · rw [mantissa_of_natCast hneg hten]
      exact hfive.mul_right _
    · rw [← natCast_of_exponent hpos, Nat.cast_inj] at hten
      have hcoprime : Nat.Coprime (5 ^ k) (2 ^ e.toNat) := Nat.Coprime.pow _ _ (by norm_num)
      exact hcoprime.dvd_of_dvd_mul_right (hten ▸ hfive)
  have hpos : 0 < n := by
    refine Nat.pos_of_ne_zero ?_
    rintro rfl
    exact (show (10 : ℚ) ^ k ≠ 0 by positivity) (by rw [hvalue]; simp)
  have hlt : 5 ^ k < 5 ^ 23 := (Nat.le_of_dvd hpos hdvd).trans_lt (hn.trans (by norm_num))
  exact Nat.lt_succ_iff.1 ((Nat.pow_lt_pow_iff_right (by norm_num)).1 hlt)

/-- The exact value of a double is a power of ten only if it has all its digits. -/
theorem le_of_exactValue_eq_pow {x : Float} {k : ℕ} (h : exactValue x = 10 ^ k) : k ≤ 22 := by
  have hpos : (0 : ℚ) < 10 ^ k := by positivity
  have hfinite : x.isFinite := by
    refine isFinite_of_exactMagnitude_ne_zero fun hzero => hpos.ne' ?_
    rw [← h, exactValue, hzero, signed]
    split <;> simp
  obtain ⟨s, q, hq⟩ := exists_isValue hfinite
  have hshort := isShort_of_isValue hq
  rw [exactValue_eq hq] at h
  cases s with
  | positive => exact le_of_isShort_pow (h ▸ hshort)
  | negative =>
    have hneg : -q = 10 ^ k := h
    linarith [hq.nonneg]

namespace Item

/-! ## The factor -/

/-- The zeros of the factor of an item. -/
def factorZeros : Item → ℕ
  | percent => 2
  | permille => 3
  | _ => 0

/-- A number multiplied by the factor of an item. -/
def magnify (x : Float) : Item → Float
  | percent => x * 100.0
  | permille => x * 1000.0
  | _ => x

/-- A hundred for each percent sign and a thousand for each permille sign, multiplied in
the order of the items. -/
def percentFactor (items : List Item) : Float :=
  items.foldl magnify 1.0

/-- Items without a factor may be left out. -/
theorem percentFactor_filter (items : List Item) :
    percentFactor (items.filter isSimple) = percentFactor items := by
  unfold percentFactor
  generalize (1.0 : Float) = x
  induction items generalizing x with
  | nil => rfl
  | cons item items ih => cases item <;> exact ih _

/-- **The factor of the items** is that of the tokens. -/
theorem percentFactor_ofTokens (pointMet markerMet : Bool) (tokens : List Token) :
    percentFactor (ofTokens pointMet markerMet tokens) = Token.percentFactor tokens := by
  rw [← percentFactor_filter, filter_isSimple_ofTokens]
  unfold percentFactor Token.percentFactor
  generalize (1.0 : Float) = x
  induction tokens generalizing x with
  | nil => rfl
  | cons t ts ih => cases t <;> exact ih _

/-- An item that is neither text nor a point nor a marker is there if its token is. -/
theorem mem_ofTokens_iff {item : Item} {t : Token} (hitem : item.isSimple)
    (ht : ∀ u : Token, u.item? = some item ↔ u = t) (pointMet markerMet : Bool)
    (tokens : List Token) : item ∈ ofTokens pointMet markerMet tokens ↔ t ∈ tokens := by
  have hsimple : item ∈ ofTokens pointMet markerMet tokens ↔
      item ∈ tokens.filterMap Token.item? := by
    rw [← filter_isSimple_ofTokens pointMet markerMet, List.mem_filter, and_iff_left hitem]
  simp [hsimple, List.mem_filterMap, ht]

theorem percent_mem_ofTokens_iff (pointMet markerMet : Bool) (tokens : List Token) :
    percent ∈ ofTokens pointMet markerMet tokens ↔ .percent ∈ tokens :=
  mem_ofTokens_iff rfl (fun u => by cases u <;> simp [Token.item?]) _ _ _

theorem permille_mem_ofTokens_iff (pointMet markerMet : Bool) (tokens : List Token) :
    permille ∈ ofTokens pointMet markerMet tokens ↔ .permille ∈ tokens :=
  mem_ofTokens_iff rfl (fun u => by cases u <;> simp [Token.item?]) _ _ _

/-! ## Its value -/

theorem isNat_hundredfold : ∀ j < 21, isNat (powerOfTen (j : ℕ) * 100.0) (10 ^ (j + 2)) := by
  decide +kernel

theorem isNat_thousandfold : ∀ j < 20, isNat (powerOfTen (j : ℕ) * 1000.0) (10 ^ (j + 3)) := by
  decide +kernel

/-- A power of ten stays exact when it is magnified, up to 22 zeros. -/
theorem isValue_magnify {x : Float} {j : ℕ} (hx : IsValue x.toModel.unpack .positive (10 ^ j))
    (item : Item) (h : j + item.factorZeros ≤ 22) :
    IsValue (magnify x item).toModel.unpack .positive (10 ^ (j + item.factorZeros)) := by
  have hpower : IsValue (powerOfTen (j : ℕ)).toModel.unpack .positive (10 ^ j) := by
    exact_mod_cast isValue_of_isNat (isNat_powerOfTen j (by omega))
  -- A product depends on the parts of its factors only.
  have hmul (y : Float) : (x * y).toModel.unpack = (powerOfTen (j : ℕ) * y).toModel.unpack := by
    change (Float.Model.pack (Float.Model.UnpackedFloat.mul .binary64 _ _)).unpack =
      (Float.Model.pack (Float.Model.UnpackedFloat.mul .binary64 _ _)).unpack
    rw [unpack_eq_of_isValue hx hpower]
  cases item with
  | percent =>
    rw [factorZeros] at h ⊢
    rw [magnify, hmul]
    exact_mod_cast isValue_of_isNat (isNat_hundredfold j (by omega))
  | permille =>
    rw [factorZeros] at h ⊢
    rw [magnify, hmul]
    exact_mod_cast isValue_of_isNat (isNat_thousandfold j (by omega))
  | _ => exact hx

theorem isValue_foldl_magnify {items : List Item} {x : Float} {j : ℕ}
    (hx : IsValue x.toModel.unpack .positive (10 ^ j))
    (h : j + (items.map factorZeros).sum ≤ 22) :
    IsValue (items.foldl magnify x).toModel.unpack .positive
      (10 ^ (j + (items.map factorZeros).sum)) := by
  induction items generalizing x j with
  | nil => exact hx
  | cons item items ih =>
    rw [List.map_cons, List.sum_cons, ← Nat.add_assoc] at h ⊢
    exact ih (isValue_magnify hx item ((Nat.le_add_right _ _).trans h)) h

/-- The zeros of the factor are those of its signs. -/
theorem sum_factorZeros (items : List Item) :
    (items.map factorZeros).sum = 2 * items.count .percent + 3 * items.count .permille := by
  induction items with
  | nil => rfl
  | cons item items ih =>
    rw [List.map_cons, List.sum_cons, ih, List.count_cons, List.count_cons]
    cases item <;> simp [factorZeros] <;> omega

/-- **The factor is exact** up to 22 zeros. A greater one is no double at all. -/
theorem exactValue_percentFactor_iff (items : List Item) :
    exactValue (percentFactor items) =
        100 ^ items.count .percent * 1000 ^ items.count .permille ↔
      2 * items.count .percent + 3 * items.count .permille ≤ 22 := by
  have hzeros : (100 : ℚ) ^ items.count .percent * 1000 ^ items.count .permille =
      10 ^ (items.map factorZeros).sum := by
    rw [sum_factorZeros, pow_add, pow_mul, pow_mul]
    norm_num
  rw [hzeros, ← sum_factorZeros]
  refine ⟨le_of_exactValue_eq_pow, fun h => ?_⟩
  have hone : IsValue (1.0 : Float).toModel.unpack .positive (10 ^ 0) := by
    exact_mod_cast isValue_of_isNat (show isNat 1.0 1 by decide +kernel)
  rw [← Nat.zero_add (items.map factorZeros).sum] at h ⊢
  exact exactValue_eq (isValue_foldl_magnify hone h)

end Item

end TickLabels
