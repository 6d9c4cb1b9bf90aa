import TickLabels.Proofs.Binary64.Noise
import TickLabels.Proofs.Render.Written
import TickLabels.Proofs.Units.OwnExponent
import TickLabels.Proofs.Units.Selection
/-!
# Whole units

In a table of whole units every range starts at the value of its unit. A number is compared
with it within a tolerance of three digits, so a number may fall short of its unit, but by less
than a ten-thousandth of it (`DisplayUnit.IsWhole.lt_of_reached`). What is written in the unit
is one or more exactly if rounding makes up for what is missing, and without a factor of the
format no more than three decimals are needed for that (`UnitSystem.wholeUnits_le_iff`).
-/

namespace TickLabels

open Float.Model (UnpackedFloat)
open Float.Model.UnpackedFloat

/-! ## Numbers that reach a power of ten within its tolerance -/

/-- The doubles that serve as powers of ten are those at which ranges start. -/
theorem isNat_powerOfTen_start : ∀ k < 24, isNat (powerOfTen (k : ℕ)) (storedStart (10 ^ k)) := by
  decide +kernel

theorem storedStart_pow {k : ℕ} (hk : k < 23) : storedStart (10 ^ k) = 10 ^ k :=
  if_neg fun h => hk.ne (Nat.pow_right_injective (show 2 ≤ 10 by norm_num) h)

theorem storedStart_bounds {k : ℕ} (hk : 1 ≤ k) (hk' : k ≤ 23) :
    2 * 10 ^ (k - 1) ≤ storedStart (10 ^ k) ∧ storedStart (10 ^ k) ≤ 10 ^ k := by
  rcases hk'.lt_or_eq with hlt | rfl
  · obtain ⟨j, rfl⟩ := Nat.exists_eq_add_of_le' hk
    rw [storedStart_pow hlt, Nat.add_sub_cancel, Nat.pow_succ]
    omega
  · decide

/-- The next number with few digits is a step of the last digit away. -/
theorem IsShort.succ_le {Q : ℕ} {T : ℤ} {z : ℚ} (hz : IsShort z) (h : Q * 2 ^ T < z)
    (hfull : 2 ^ 52 ≤ Q) : (Q + 1) * 2 ^ T ≤ z := by
  by_contra hlt
  exact h.ne' (eq_of_isShort hz h.le (not_le.1 hlt) (.inl hfull))

section Tolerance

variable {x : Float} {k : ℕ} {a : ℚ}

/-- The double of a tenth is too large, but by less than the last digit of a number below a
thousand. -/
theorem lt_of_sub_lt_tenth (ha : IsShort a)
    (h : storedStart (10 ^ 3) - a < exactMagnitude (powerOfTen (-1))) :
    9999 / 10000 * storedStart (10 ^ 3) < a := by
  have htenth : exactMagnitude (powerOfTen (-1)) ≤ 1 / 10 + 1 / 2 ^ 50 := by decide +kernel
  rw [storedStart_pow (by norm_num)] at h ⊢
  have hnext := ha.succ_le (Q := 8795213412905779) (T := -43)
    (by norm_num at h htenth ⊢; linarith) (by norm_num)
  norm_num at hnext ⊢
  linarith

/-- The double of the last start is too small, but by less than the last digit of a number below
it. -/
theorem lt_of_sub_lt_pow (ha : IsShort a) (h : storedStart (10 ^ 23) - a < 10 ^ 19) :
    9999 / 10000 * storedStart (10 ^ 23) < a := by
  have hstored : storedStart (10 ^ 23) = 99999999999999991611392 := by decide
  rw [hstored] at h ⊢
  have hnext := ha.succ_le (Q := 5959868431091308) (T := 24)
    (by norm_num at h ⊢; linarith) (by norm_num)
  norm_num at hnext ⊢
  linarith

/-- The tolerance of a number just below a power of ten is three digits behind the power before
it. -/
theorem tolerance_of_lt_start (hk : 1 ≤ k) (hk' : k ≤ 23)
    (hx : IsValue x.toModel.unpack .positive a) (hlow : 10 ^ (k - 1) ≤ a)
    (hhigh : a < storedStart (10 ^ k)) : DisplayUnit.tolerance x = powerOfTen (k - 4) := by
  have hprevious : ((k - 1 : ℕ) : ℤ) = k - 1 := by omega
  have hexact := isValue_of_isNat (isNat_powerOfTen (k - 1) (by omega))
  have hnext := isValue_of_isNat (isNat_powerOfTen_start k (by omega))
  rw [hprevious] at hexact
  rw [← sub_add_cancel (k : ℤ) 1] at hnext
  have hstart : (storedStart (10 ^ k) : ℚ) ≤ 10 ^ k := by
    exact_mod_cast (storedStart_bounds hk hk').2
  have horder : orderOfMagnitude x = k - 1 := by
    refine orderOfMagnitude_eq hx ?_ ?_ hexact (by exact_mod_cast hlow) hnext hhigh
    · rwa [← hprevious, zpow_natCast]
    · rw [sub_add_cancel, zpow_natCast]
      exact hhigh.trans_le hstart
  have hzero := beq_zero_of_pos hx (lt_of_lt_of_le (by positivity) hlow)
  have hfinite : x.isFinite = true := hx.isFinite
  have hdigits : (k : ℤ) - 1 - DisplayUnit.rangeDigits = k - 4 := by
    change (k : ℤ) - 1 - 3 = k - 4
    omega
  unfold DisplayUnit.tolerance gridStep?
  rw [hzero, hfinite, horder, hdigits]
  rfl

/-- **What is within the tolerance of a power of ten** is less than a ten-thousandth away. -/
theorem lt_of_tolerance (hk : 3 ≤ k) (hk' : k ≤ 23)
    (hx : IsValue x.toModel.unpack .positive a)
    (h : storedStart (10 ^ k) - a < exactMagnitude (DisplayUnit.tolerance x)) :
    9999 / 10000 * storedStart (10 ^ k) < a := by
  obtain ⟨hlow, hhigh⟩ := storedStart_bounds (show 1 ≤ k by omega) hk'
  have hlow' : 2 * 10 ^ (k - 1) ≤ (storedStart (10 ^ k) : ℚ) := by exact_mod_cast hlow
  have hhigh' : (storedStart (10 ^ k) : ℚ) ≤ 10 ^ 23 := by
    exact_mod_cast hhigh.trans (Nat.pow_le_pow_right (by norm_num) hk')
  have hpos : (1 : ℚ) ≤ 10 ^ (k - 1) := one_le_pow₀ (by norm_num)
  rcases le_or_gt (storedStart (10 ^ k) : ℚ) a with hle | hlt
  · linarith
  -- The number has the power of ten before, whatever its tolerance is.
  have hprevious : 10 ^ (k - 1) ≤ a := by
    obtain ⟨q, hq, hsmall⟩ := exists_isValue_tolerance hx (hlt.trans_le hhigh')
    rw [exactMagnitude_eq hq] at h
    rcases hsmall with hsmall | hsmall <;> linarith
  rw [tolerance_of_lt_start (by omega) hk' hx hprevious hlt] at h
  rcases hk'.eq_or_lt with rfl | hlast
  · have hexact := isValue_of_isNat (isNat_powerOfTen 19 (by norm_num))
    refine lt_of_sub_lt_pow (isShort_of_isValue hx) (h.trans_eq ?_)
    exact_mod_cast exactMagnitude_eq hexact
  rcases hk.eq_or_lt with rfl | hfirst
  · exact lt_of_sub_lt_tenth (isShort_of_isValue hx) h
  -- In between the powers of ten are exact, those of the tolerances included.
  obtain ⟨j, rfl⟩ := Nat.exists_eq_add_of_le' (show 4 ≤ k from hfirst)
  have hexact := isValue_of_isNat (isNat_powerOfTen j (by omega))
  have hsub : ((j + 4 : ℕ) : ℤ) - 4 = j := by push_cast; ring
  rw [hsub, exactMagnitude_eq hexact, storedStart_pow hlast] at h
  rw [storedStart_pow hlast]
  push_cast [pow_add] at h ⊢
  linarith

end Tolerance

/-! ## Numbers in their units -/

/-- **A whole unit**: the unit of a power of ten that scales, with a range that starts at its
value. -/
structure DisplayUnit.IsWhole (u : DisplayUnit) (k : ℕ) : Prop where
  three_le : 3 ≤ k
  le_max : k ≤ 23
  value_eq : u.value = .ofNat (10 ^ k)
  rangeMin_eq : u.rangeMin = u.value

/-- **A table of whole units** has no other units. What is in the range of one reaches it, and
no range that starts behind it. -/
theorem UnitSystemKind.exists_isWhole {naming : NameLookup} {u : DisplayUnit}
    (hu : u ∈ wholeUnits.table naming) {x : Float} (hx : x.isFinite) (happlies : u.appliesTo x) :
    ∃ k, u.IsWhole k ∧ u.Reached x ∧ ∀ v ∈ wholeUnits.table naming, v.Reached x →
      exactMagnitude v.rangeMin ≤ exactMagnitude u.rangeMin := by
  have hconsecutive := consecutive_exactTable wholeUnits naming
  rw [table_eq] at hu
  obtain ⟨v, hv, rfl⟩ := List.mem_map.1 hu
  obtain ⟨p, hp, hexponent⟩ := ExactUnit.exponent_withRanges hv
  obtain ⟨hlow, hhigh⟩ : 3 ≤ v.exponent ∧ v.exponent ≤ 23 := hexponent ▸ offers_namedPowers hp
  obtain ⟨isFirst, hstart⟩ := ExactUnit.exists_start_withRanges v hv
  have hpower : v.value = 10 ^ v.exponent.toNat := unitValue_of_nonneg (by omega)
  have hwhole : v.toDisplay.IsWhole v.exponent.toNat :=
    ⟨by omega, by omega, congrArg Float.ofNat hpower, congrArg Float.ofNat hstart⟩
  refine ⟨_, hwhole, hconsecutive.reached_of_appliesTo hx hv happlies, ?_⟩
  rw [table_eq]
  intro _ hmap hreached
  obtain ⟨w, hw, rfl⟩ := List.mem_map.1 hmap
  have hle := (hconsecutive.isStart w hw).storedStart_mono (hconsecutive.isStart v hv)
    (hconsecutive.rangeMin_le_of_reached hx hv hw happlies hreached)
  change exactMagnitude (Float.ofNat _) ≤ exactMagnitude (Float.ofNat _)
  rw [exactMagnitude_eq (hconsecutive.isStart w hw).isValue,
    exactMagnitude_eq (hconsecutive.isStart v hv).isValue]
  exact_mod_cast hle

namespace DisplayUnit.IsWhole

variable {u : DisplayUnit} {x : Float} {k : ℕ}

theorem isValue (h : u.IsWhole k) :
    IsValue u.value.toModel.unpack .positive (storedStart (10 ^ k)) := by
  have hmax := h.le_max
  rw [h.value_eq]
  exact IsStart.isValue (.inr ⟨k, by omega, rfl⟩)

theorem le_storedStart (h : u.IsWhole k) : (200 : ℚ) ≤ storedStart (10 ^ k) := by
  have hthree := h.three_le
  have hlow := (storedStart_bounds (show 1 ≤ k by omega) h.le_max).1
  have hpow : 10 ^ 2 ≤ 10 ^ (k - 1) := Nat.pow_le_pow_right (by norm_num) (by omega)
  exact_mod_cast (by omega : 200 ≤ storedStart (10 ^ k))

/-- **A number that reaches the unit** within the tolerance hardly falls short of it. -/
theorem lt_of_reached (h : u.IsWhole k) (hx : x.isFinite) (hreached : u.Reached x) :
    9999 / 10000 * exactMagnitude u.value < exactMagnitude x := by
  have hpos := h.le_storedStart
  unfold Reached at hreached
  rw [h.rangeMin_eq] at hreached
  rw [exactMagnitude_eq h.isValue] at hreached ⊢
  rcases hreached with hle | hnear
  · linarith
  · exact lt_of_tolerance h.three_le h.le_max (isValue_abs_exactMagnitude hx) hnear

/-- **As a multiple of its unit** a number is one or more, or close to one. -/
theorem exists_isValue_measure (h : u.IsWhole k) (hx : x.isFinite)
    (hlt : exactMagnitude x < 10 ^ 15)
    (hreached : 9999 / 10000 * exactMagnitude u.value < exactMagnitude x) :
    ∃ s f, IsValue (u.measure x).toModel.unpack s f ∧ 4095 / 4096 ≤ f ∧
      (exactMagnitude u.value ≤ exactMagnitude x → 1 ≤ f) := by
  have hunit := h.isValue
  have hlow := h.le_storedStart
  obtain ⟨s, a, ha⟩ := exists_isValue hx
  rw [exactMagnitude_eq ha, exactMagnitude_eq hunit] at hreached ⊢
  rw [exactMagnitude_eq ha] at hlt
  generalize (storedStart (10 ^ k) : ℚ) = b at *
  have hpos : 0 < b := by linarith
  have hmeasure : u.measure x = removeNoise (x / u.value) := by
    rw [DisplayUnit.measure, beq_zero_of_pos hunit hpos]
    rfl
  -- All bounds of the quotient have few digits, so they are bounds of the rounded one as well.
  have hbound : a / b ≤ 5 * 10 ^ 12 := (div_le_iff₀ hpos).2 (by linarith)
  obtain ⟨g, hg, hside⟩ := (isRounded_div ha hunit hpos.ne').exists_isValue
    (hbound.trans_lt (by norm_num))
  have hhigh : g < 10 ^ 13 := by
    have hshort : IsShort (5 * 10 ^ 12) := by
      exact_mod_cast isShort_natCast (n := 5 * 10 ^ 12) (by norm_num)
    exact ((hside _ hshort).1 hbound).trans_lt (by norm_num)
  have hnear : 8191 / 8192 ≤ g :=
    (hside _ ⟨8191, -13, by norm_num, by norm_num, by norm_num⟩).2
      ((le_div_iff₀ hpos).2 (by linarith))
  obtain ⟨f, hf, hclose⟩ := near_one_le_removeNoise hg hnear hhigh
  rw [hmeasure]
  refine ⟨_, f, hf, hclose, fun hle => ?_⟩
  have hone : 1 ≤ g := (hside 1 (by exact_mod_cast isShort_natCast (n := 1) (by norm_num))).2
    ((le_div_iff₀ hpos).2 (by linarith))
  obtain ⟨f', hf', hle'⟩ := one_le_removeNoise hg hone hhigh
  rwa [hf.eq hf']

end DisplayUnit.IsWhole

/-! ## Numbers that pick their unit -/

namespace UnitSystem

variable {s : UnitSystem} {x : Float} {u : DisplayUnit}

/-- What is shown in a unit of a system that shows exponents is in the readable range. -/
theorem ShowsIn.lt_scientificAbove {format : Text} (h : s.ShowsIn x format u)
    (hkind : s.kind ≠ .verbose) (hx : x.isFinite) : exactMagnitude x < 10 ^ 15 := by
  have hrange : outOfRange x = false := by
    simpa [UnitSystem.needsExponent, hkind, h.supports, h.hasExponent] using h.needsExponent
  have habove : IsValue scientificAbove.toModel.unpack .positive (10 ^ 15) := by
    exact_mod_cast isValue_of_isNat (x := scientificAbove) (n := 10 ^ 15) (by decide +kernel)
  have hnot : ¬ scientificAbove ≤ x.abs := fun hle => by simp [outOfRange, hle] at hrange
  rw [le_iff_signedBy habove (isValue_abs_exactMagnitude hx)] at hnot
  exact not_le.1 hnot

/-- The unit that is picked is one of the table, with the number in its range. -/
theorem of_scalingUnit_pickFor (hu : (s.pickFor x).scalingUnit? = some u) :
    u ∈ s.units ∧ u.appliesTo x := by
  have hfind : (s.pickFor x).unit? = some u := (Option.filter_eq_some_iff.1 hu).1
  exact ⟨List.mem_of_find?_eq_some hfind,
    List.find?_some (p := fun w : DisplayUnit => w.appliesTo x) hfind⟩

/-- **No fraction of a unit is shown, but for noise.** A number is at least the unit that is
picked for it, unless the range of a unit starts just above it, and then it misses less than a
ten-thousandth of the unit. What is written of it in its unit is one or more exactly if its
multiple of the unit, with the factor of the format, falls short of one by half of the last
place at most. Without such a factor this is so where the number is at least the unit, and where
no more than three decimals are written. -/
theorem wholeUnits_le_iff (naming : NameLookup) (hkind : s.kind = .wholeUnits)
    (hs : s.units = s.kind.table naming) (hx : x.isFinite)
    (hu : (s.pickFor x).scalingUnit? = some u) :
    (exactMagnitude u.value ≤ exactMagnitude x ↔ ∀ v ∈ s.units, ¬ v.StartsJustAbove x) ∧
    9999 / 10000 * exactMagnitude u.value < exactMagnitude x ∧
      ∀ options written decimals f, (s.pickFor x).ShowsIn x (options.formatInUse written) u →
        NumberFormat.parse
          (plainFormat (u.formatFor (options.formatInUse written) decimals) decimals) = .ok f →
        let plain := u.label?.isSome
        let multiple := u.measure x
        (s.pickFor x).format options written decimals x =
          .ok (f.format options.culture u.label? multiple) ∧
        (1 ≤ f.writtenNumber plain multiple ↔ f.ReachesOne plain multiple) ∧
        (f.factor multiple = 1.0 →
          exactMagnitude u.value ≤ exactMagnitude x ∨
            (∃ places ∈ f.places? plain multiple, places ≤ 3) →
          1 ≤ f.writtenNumber plain multiple) := by
  obtain ⟨hmem, happlies⟩ := of_scalingUnit_pickFor hu
  have htable : s.units = UnitSystemKind.wholeUnits.table naming := hs.trans (by rw [hkind])
  obtain ⟨k, hwhole, hreached, hlast⟩ :=
    UnitSystemKind.exists_isWhole (htable ▸ hmem) hx happlies
  have hlow := hwhole.lt_of_reached hx hreached
  have hunit : exactMagnitude u.value ≤ exactMagnitude x ↔
      ∀ v ∈ s.units, ¬ v.StartsJustAbove x := by
    rw [← hwhole.rangeMin_eq]
    refine ⟨fun hle v hv habove => ?_, fun hnone => ?_⟩
    · exact (hle.trans_lt habove.1).not_ge (hlast v (htable ▸ hv) habove.2)
    · by_contra hlt
      exact hnone u hmem ⟨not_le.1 hlt, hreached⟩
  refine ⟨hunit, hlow, ?_⟩
  intro options written decimals f hshows hparse plain multiple
  have hlt := hshows.lt_scientificAbove (show s.kind ≠ .verbose by simp [hkind]) hx
  obtain ⟨t, a, ha, hnear, hone⟩ := hwhole.exists_isValue_measure hx hlt hlow
  have hwritten := f.one_le_writtenNumber_iff plain ha.isFinite
  refine ⟨?_, hwritten, fun hfactor hcase => hwritten.2 ?_⟩
  · rw [hshows.format_eq]
    change (NumberFormat.parse (plainFormat _ decimals)).map _ = _
    rw [hparse]
    rfl
  · rcases hcase with hle | ⟨places, hplaces, hthree⟩
    · exact NumberFormat.reachesOne_of_one_le hfactor ha (hone hle)
    · exact NumberFormat.reachesOne_of_near hfactor ha hnear hplaces hthree

/-- Just below a million a number is shown in millions, with three decimals as one. -/
theorem wholeUnits_le_iff_millions :
    let s := ofTable .wholeUnits (UnitSystemKind.wholeUnits.table .english)
    let f : NumberFormat := .custom (.ofText "0.000".toList)
    ∃ u, (s.pickFor 999950).scalingUnit? = some u ∧ u.name.title = "Millions".toList ∧
      9999 / 10000 * exactMagnitude u.value < exactMagnitude 999950 ∧
      (s.pickFor 999950).format .standard "0.000".toList ⟨some 3, true⟩ 999950 =
        .ok (f.format .enUS u.label? (u.measure 999950)) ∧
      1 ≤ f.writtenNumber u.label?.isSome (u.measure 999950) := by
  intro s f
  obtain ⟨u, hu⟩ := Option.isSome_iff_exists.1
    (show (s.pickFor 999950).scalingUnit?.isSome by decide +kernel)
  have htitle : ∀ u ∈ (s.pickFor 999950).scalingUnit?, u.name.title = "Millions".toList := by
    decide +kernel
  have hshows : (s.pickFor 999950).ShowsIn 999950 "0.000".toList u :=
    ⟨hu, by decide +kernel, by decide +kernel, by decide +kernel⟩
  have hparse : NumberFormat.parse (plainFormat
      (u.formatFor "0.000".toList ⟨some 3, true⟩) ⟨some 3, true⟩) = .ok f := by
    have hsame : plainFormat "0.000".toList ⟨some 3, true⟩ = "0.000".toList := by decide +kernel
    change NumberFormat.parse (plainFormat "0.000".toList ⟨some 3, true⟩) = .ok f
    rw [hsame]
    exact isCustom_iff.1 (by decide)
  have hselect : (CustomFormat.ofText "0.000".toList).select (u.measure 999950) =
      .ofText "0.000".toList := CustomFormat.select_of_not_mem (by decide +kernel) _
  obtain ⟨-, hlow, hshown⟩ := wholeUnits_le_iff (s := s) .english rfl rfl
    (by decide +kernel) hu
  obtain ⟨hformat, -, hone⟩ := hshown .standard "0.000".toList ⟨some 3, true⟩ f hshows hparse
  refine ⟨u, hu, htitle u hu, hlow, hformat, hone ?_ (.inr ⟨3, ?_, le_rfl⟩)⟩
  · change ((CustomFormat.ofText "0.000".toList).select _).scale = 1.0
    rw [hselect]
    decide +kernel
  · simp only [f, NumberFormat.places?, hselect]
    cases u.label?.isSome <;> decide +kernel

/-- **A fraction of a unit**: without a limit to the decimals the same number is shown as what
it is in millions. -/
theorem not_wholeUnits_le_millions :
    let s := ofTable .wholeUnits (UnitSystemKind.wholeUnits.table .english)
    (∃ u ∈ (s.pickFor 999950).scalingUnit?, exactMagnitude 999950 < exactMagnitude u.value) ∧
      (s.pickFor 999950).format .standard ['0'] ⟨none, false⟩ 999950 =
        .ok "0.99995M".toList := by
  decide +kernel

end UnitSystem

end TickLabels
