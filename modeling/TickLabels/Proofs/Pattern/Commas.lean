import TickLabels.Proofs.Pattern.Decimals
/-!
# What a comma means

A comma before the point groups digits when placeholders stand on either side of it, and it
scales the number when it follows the last placeholder with nothing but commas in between.
No comma does both (`Item.not_scalesAt_of_groupsAt`). Those that scale are one run
(`Item.exists_scalesAt_iff`), and as long as the one that is counted among the tokens
(`Item.commasBehind_ofTokens`).
-/

namespace TickLabels

/-! ## The run behind the last of its kind -/

section Run

variable {α : Type} (p q : α → Bool)

/-- How many elements with `q` follow the last one with `p` directly. -/
def runBehindLast (as : List α) : ℕ :=
  match splitAfterLast p as with
  | some (_, back) => (back.takeWhile q).length
  | none => 0

variable {p q}

theorem runBehindLast_of_none {as : List α} (h : ∀ a ∈ as, p a = false) :
    runBehindLast p q as = 0 := by
  rw [runBehindLast, splitAfterLast_eq_none_iff.2 h]

theorem runBehindLast_of_last {init back : List α} {a : α} (ha : p a)
    (hback : ∀ b ∈ back, p b = false) :
    runBehindLast p q (init ++ a :: back) = (back.takeWhile q).length := by
  rw [runBehindLast, splitAfterLast_of_last ha hback]

/-- A list has a last element with `p` or none at all. -/
theorem last_or_none (p : α → Bool) (as : List α) :
    (∀ a ∈ as, p a = false) ∨
      ∃ init a back, as = init ++ a :: back ∧ p a ∧ ∀ b ∈ back, p b = false := by
  cases hsplit : splitAfterLast p as with
  | none => exact .inl (splitAfterLast_eq_none_iff.1 hsplit)
  | some parts =>
    obtain ⟨front, back⟩ := parts
    obtain ⟨⟨init, a, rfl, ha⟩, hback⟩ := splitAfterLast_spec hsplit
    refine .inr ⟨init, a, back, ?_, ha, hback⟩
    rw [← splitAfterLast_append hsplit, List.append_assoc, List.singleton_append]

/-- A run goes past `i` if all its elements up to `i` have `q`. -/
theorem lt_length_takeWhile_iff {as : List α} {i : ℕ} :
    i < (as.takeWhile q).length ↔ ∀ k ≤ i, ∃ a, as[k]? = some a ∧ q a := by
  induction as generalizing i with
  | nil => exact iff_of_false (by simp) fun h => by simpa using h i le_rfl
  | cons a as ih =>
    by_cases ha : q a
    · rw [List.takeWhile_cons_of_pos ha, List.length_cons]
      cases i with
      | zero => simp [ha]
      | succ i =>
        rw [Nat.add_lt_add_iff_right, ih]
        refine ⟨fun h k hk => ?_, fun h k hk => h (k + 1) (Nat.succ_le_succ hk)⟩
        cases k with
        | zero => exact ⟨a, rfl, ha⟩
        | succ k => exact h k (Nat.le_of_succ_le_succ hk)
    · rw [List.takeWhile_cons_of_neg ha]
      refine iff_of_false (Nat.not_lt_zero i) fun h => ha ?_
      obtain ⟨b, hb, hq⟩ := h 0 (Nat.zero_le i)
      exact Option.some.inj hb ▸ hq

end Run

namespace Item

/-! ## Commas that group and commas that scale -/

/-- **The comma at `i` groups digits**: placeholders stand before it and behind it. -/
def GroupsAt (items : List Item) (i : ℕ) : Prop :=
  items[i]? = some .comma ∧ (∃ d ∈ items.take i, d.isDigit) ∧ ∃ d ∈ items.drop (i + 1), d.isDigit

/-- **The comma at `i` scales**: it follows the last placeholder, with nothing but commas in
between. -/
def ScalesAt (items : List Item) (i : ℕ) : Prop :=
  ∃ j < i, (∃ d, items[j]? = some d ∧ d.isDigit) ∧
    (∀ k, j < k → k ≤ i → items[k]? = some .comma) ∧
    ∀ item ∈ items.drop (j + 1), item.isDigit = false

/-- How many commas follow the last placeholder directly. -/
def commasBehind (items : List Item) : ℕ :=
  runBehindLast isDigit (· = .comma) items

/-- **No comma has both meanings.** -/
theorem not_scalesAt_of_groupsAt {items : List Item} {i : ℕ} (h : GroupsAt items i) :
    ¬ ScalesAt items i := by
  rintro ⟨j, hj, -, -, hnone⟩
  obtain ⟨-, -, d, hd, hdigit⟩ := h
  have hmem := (List.drop_sublist_drop_left items (Nat.succ_le_succ hj.le)).subset hd
  rw [hnone d hmem] at hdigit
  contradiction

/-- Of the items around the last placeholder those directly behind it scale, up to the first
that is no comma. -/
theorem scalesAt_iff {init back : List Item} {d : Item} (hd : d.isDigit)
    (hback : ∀ item ∈ back, item.isDigit = false) (i : ℕ) :
    ScalesAt (init ++ d :: back) i ↔ init.length < i ∧
      i - (init.length + 1) < (back.takeWhile (· = .comma)).length := by
  have hlast : (init ++ d :: back)[init.length]? = some d := by simp
  have hbehind (k : ℕ) : (init ++ d :: back)[init.length + 1 + k]? = back[k]? := by
    rw [List.getElem?_append_right (by omega), Nat.add_assoc, Nat.add_sub_cancel_left,
      Nat.add_comm 1 k, List.getElem?_cons_succ]
  have hdrop : (init ++ d :: back).drop (init.length + 1) = back := by simp
  rw [lt_length_takeWhile_iff]
  constructor
  · rintro ⟨j, hj, ⟨e, he, hdigit⟩, hcommas, hnone⟩
    -- The placeholder before the comma can only be the last one.
    have hle : init.length ≤ j := by
      by_contra hlt
      have hmem : d ∈ (init ++ d :: back).drop (j + 1) :=
        List.mem_of_getElem? (i := init.length - (j + 1)) (by
          rw [List.getElem?_drop, Nat.add_sub_cancel' (by omega), hlast])
      simp [hnone d hmem] at hd
    have hge : j ≤ init.length := by
      by_contra hlt
      obtain ⟨k, rfl⟩ := Nat.exists_eq_add_of_lt (Nat.lt_of_not_le hlt)
      rw [Nat.add_right_comm, hbehind] at he
      simp [hback e (List.mem_of_getElem? he)] at hdigit
    obtain rfl := Nat.le_antisymm hge hle
    refine ⟨hj, fun k hk => ⟨.comma, ?_, by simp⟩⟩
    rw [← hbehind]
    exact hcommas _ (by omega) (by omega)
  · rintro ⟨hi, hcommas⟩
    refine ⟨init.length, hi, ⟨d, hlast, hd⟩, fun k hk hki => ?_, by rwa [hdrop]⟩
    obtain ⟨item, hitem, hcomma⟩ := hcommas (k - (init.length + 1)) (by omega)
    obtain rfl : item = .comma := by simpa using hcomma
    rw [← hitem, ← hbehind, Nat.add_sub_cancel' (by omega)]

/-- **The commas that scale** are one run of as many as follow the last placeholder. -/
theorem exists_scalesAt_iff (items : List Item) :
    ∃ start, ∀ i, ScalesAt items i ↔ start ≤ i ∧ i < start + commasBehind items := by
  unfold commasBehind
  rcases last_or_none isDigit items with hnone | ⟨init, d, back, rfl, hd, hback⟩
  · refine ⟨0, fun i => iff_of_false ?_ ?_⟩
    · rintro ⟨j, -, ⟨d, hd, hdigit⟩, -⟩
      simp [hnone d (List.mem_of_getElem? hd)] at hdigit
    · rw [runBehindLast_of_none hnone]
      omega
  · refine ⟨init.length + 1, fun i => ?_⟩
    rw [scalesAt_iff hd hback, runBehindLast_of_last hd hback]
    omega

theorem any_dropWhile_comma_iff (items : List Item) :
    (items.dropWhile (· ≠ .comma)).any isDigit ↔
      ∃ i, items[i]? = some .comma ∧ ∃ d ∈ items.drop (i + 1), d.isDigit := by
  induction items with
  | nil => simp
  | cons item items ih =>
    by_cases hcomma : item = .comma
    · -- Placeholders behind any comma stand behind this one.
      subst hcomma
      rw [List.dropWhile_cons_of_neg (by simp), List.any_eq_true]
      refine ⟨fun ⟨d, hd, hdigit⟩ => ?_, fun ⟨i, _, d, hd, hdigit⟩ => ?_⟩
      · have hne : d ≠ .comma := by rintro rfl; contradiction
        exact ⟨0, rfl, d, (List.mem_cons.1 hd).resolve_left hne, hdigit⟩
      · exact ⟨d, (List.drop_sublist _ _).subset hd, hdigit⟩
    · rw [List.dropWhile_cons_of_pos (by simpa using hcomma), ih]
      refine ⟨fun ⟨i, hi, hbehind⟩ => ⟨i + 1, hi, hbehind⟩, fun ⟨i, hi, hbehind⟩ => ?_⟩
      cases i with
      | zero => exact absurd (Option.some.inj hi) hcomma
      | succ i => exact ⟨i, hi, hbehind⟩

/-- **Digits are separated** if and only if a comma groups them. -/
theorem separatesDigits_iff (items : List Item) :
    Section.separatesDigits items ↔ ∃ i, GroupsAt items i := by
  unfold Section.separatesDigits
  induction items with
  | nil => simp [GroupsAt]
  | cons item items ih =>
    by_cases hdigit : item.isDigit
    · -- From the first placeholder on, every comma has one before it.
      have hcomma : item ≠ .comma := by rintro rfl; contradiction
      rw [List.dropWhile_cons_of_neg (by simp [hdigit]), List.dropWhile_cons_of_pos
        (by simpa using hcomma), any_dropWhile_comma_iff]
      refine ⟨fun ⟨i, hi, hbehind⟩ => ⟨i + 1, hi, ⟨item, List.mem_cons_self, hdigit⟩, hbehind⟩,
        fun ⟨i, hi, _, hbehind⟩ => ?_⟩
      cases i with
      | zero => exact absurd (Option.some.inj hi) hcomma
      | succ i => exact ⟨i, hi, hbehind⟩
    · rw [List.dropWhile_cons_of_pos (by simpa using hdigit), ih]
      refine ⟨fun ⟨i, hi, ⟨d, hd, hd'⟩, hbehind⟩ =>
        ⟨i + 1, hi, ⟨d, List.mem_cons_of_mem _ hd, hd'⟩, hbehind⟩,
        fun ⟨i, hi, ⟨d, hd, hd'⟩, hbehind⟩ => ?_⟩
      cases i with
      | zero => contradiction
      | succ i =>
        have hne : d ≠ item := by rintro rfl; exact hdigit hd'
        exact ⟨i, hi, ⟨d, (List.mem_cons.1 hd).resolve_left hne, hd'⟩, hbehind⟩

end Item

/-! ## Items and tokens -/

theorem Token.commasBehind_eq (tokens : List Token) :
    commasBehind tokens = runBehindLast isDigit (· = .comma) tokens := by
  unfold commasBehind runBehindLast
  cases splitAfterLast isDigit tokens <;> rfl

namespace Item

theorem takeWhile_comma_consLiteral (text : Text) (items : List Item) :
    (consLiteral text items).takeWhile (· = .comma) = [] := by
  unfold consLiteral
  split <;> rfl

/-- Without points among the tokens their items start with as many commas. -/
theorem length_takeWhile_comma_ofTokens {tokens : List Token} (h : .point ∉ tokens)
    (pointMet markerMet : Bool) :
    ((ofTokens pointMet markerMet tokens).takeWhile (· = .comma)).length =
      (tokens.takeWhile (· = .comma)).length := by
  induction tokens with
  | nil => rfl
  | cons t ts ih =>
    rw [List.mem_cons, not_or] at h
    cases t with
    | literal | escaped | quoted | semicolon =>
      exact congrArg List.length (takeWhile_comma_consLiteral _ _)
    | zero | hash | percent | permille => rfl
    | comma => exact congrArg (· + 1) (ih h.2)
    | point => exact absurd rfl h.1
    | exponent =>
      unfold ofTokens
      dsimp only
      split
      · exact congrArg List.length (takeWhile_comma_consLiteral _ _)
      · rfl

theorem isDigit_ofTokens {tokens : List Token} (h : ∀ t ∈ tokens, t.isDigit = false)
    (pointMet markerMet : Bool) :
    ∀ item ∈ ofTokens pointMet markerMet tokens, item.isDigit = false := by
  have hnone := filter_isDigit_ofTokens pointMet markerMet tokens
  rw [Token.places_eq_nil h, List.filter_eq_nil_iff] at hnone
  simpa using hnone

/-- No text flows past a placeholder. -/
theorem exists_ofTokens_append_digit {init : List Token} {t : Token} (ht : t.isDigit)
    (h : ∀ u ∈ init, u ≠ .point ∧ u.isExponent = false) (back : List Token) :
    ∃ d, d.isDigit ∧ ofTokens false false (init ++ t :: back) =
      ofTokens false false init ++ d :: ofTokens false false back := by
  have hitem : ∃ d, d.isDigit ∧ (∀ text, d ≠ literal text) ∧
      ofTokens false false (t :: back) = d :: ofTokens false false back := by
    cases t with
    | zero => exact ⟨.zero, rfl, by simp, rfl⟩
    | hash => exact ⟨.hash, rfl, by simp, rfl⟩
    | _ => contradiction
  obtain ⟨d, hd, hliteral, hnext⟩ := hitem
  refine ⟨d, hd, ofTokens_append false (fun u hu => (h u hu).2) (by simpa using hliteral)
    fun met hmet => ?_⟩
  obtain rfl : met = false := hmet.resolve_right fun hmem => (h _ hmem).1 rfl
  exact hnext

/-- **The commas behind the last placeholder** are those of the tokens, as long as there is
neither a point nor a marker among them. -/
theorem commasBehind_ofTokens {tokens : List Token}
    (h : ∀ t ∈ tokens, t ≠ .point ∧ t.isExponent = false) :
    commasBehind (ofTokens false false tokens) = Token.commasBehind tokens := by
  rw [Token.commasBehind_eq]
  rcases last_or_none Token.isDigit tokens with hnone | ⟨init, t, back, rfl, ht, hback⟩
  · rw [commasBehind, runBehindLast_of_none hnone,
      runBehindLast_of_none (isDigit_ofTokens hnone false false)]
  · have hpoint : .point ∉ back := fun hmem =>
      (h _ (List.mem_append_right _ (List.mem_cons_of_mem _ hmem))).1 rfl
    obtain ⟨d, hd, hitems⟩ := exists_ofTokens_append_digit ht
      (fun u hu => h u (List.mem_append_left _ hu)) back
    rw [commasBehind, hitems, runBehindLast_of_last hd (isDigit_ofTokens hback false false),
      runBehindLast_of_last ht hback, length_takeWhile_comma_ofTokens hpoint]

end Item
end TickLabels
