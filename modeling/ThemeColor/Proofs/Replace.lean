import ThemeColor.Text.Replace

/-!
# Occurrences and their replacement

`replaceAll` finds the occurrences of a pattern from left to right. The induction
`pattern_induction` follows that search, and with it this file shows:

- `replaceAll_of_absent`: a text without the pattern stays as it is;
- `replaceAll_append`: a text is replaced part by part where no occurrence lies across the seam;
- `countP_lt_replaceAll`: characters that the pattern lacks and the replacement has become more with
  every occurrence.
-/

namespace ThemeColor.Text

variable {p r : List Char}

theorem isPrefixOf_iff {text : List Char} :
    p.isPrefixOf text = true ↔ ∃ rest, text = p ++ rest := by
  refine List.isPrefixOf_iff_prefix.trans ?_
  constructor
  · rintro ⟨rest, rfl⟩
    exact ⟨rest, rfl⟩
  · rintro ⟨rest, rfl⟩
    exact ⟨rest, rfl⟩

/-- A pattern occurs in a text when the text is something before it, the pattern, and something
after it. -/
theorem occursIn_iff {text : List Char} : occursIn p text = true ↔ p <:+: text := by
  induction text with
  | nil => simp [occursIn]
  | cons c rest ih =>
    rw [occursIn, Bool.or_eq_true, ih, List.infix_cons_iff, List.isPrefixOf_iff_prefix]

/-! ## The search from left to right -/

/-- What holds of the empty text, of the pattern in front of a text for which it holds, and of a
character in front of such a text where the pattern does not start, holds of every text. -/
@[elab_as_elim]
theorem pattern_induction {motive : List Char → Prop} (hp : p ≠ []) (nil : motive [])
    (here : ∀ rest, motive rest → motive (p ++ rest))
    (pass : ∀ c rest, ¬ p.isPrefixOf (c :: rest) → motive rest → motive (c :: rest))
    (text : List Char) : motive text := by
  -- The part behind the pattern is shorter by the length of the pattern, so the induction is on
  -- the length.
  induction hlength : text.length using Nat.strongRecOn generalizing text with
  | ind n ih =>
    cases text with
    | nil => exact nil
    | cons c rest =>
      by_cases h : p.isPrefixOf (c :: rest)
      · obtain ⟨after, hafter⟩ := isPrefixOf_iff.mp h
        have hpos : 0 < p.length := List.length_pos_iff.mpr hp
        have hsize := congrArg List.length hafter
        rw [List.length_append] at hsize
        rw [hafter]
        exact here after (ih after.length (by omega) after rfl)
      · rw [List.length_cons] at hlength
        exact pass c rest h (ih rest.length (by omega) rest rfl)

private theorem replaceFrom_done (skip : Nat) (done text : List Char) :
    replaceFrom p r skip done text = done.reverse ++ replaceFrom p r skip [] text := by
  induction text generalizing skip done with
  | nil => simp [replaceFrom]
  | cons c rest ih =>
    cases skip with
    | succ skip =>
      rw [replaceFrom, replaceFrom]
      exact ih skip done
    | zero =>
      rw [replaceFrom, replaceFrom]
      split
      · rw [ih, ih _ (r.reverse ++ [])]
        simp
      · rw [ih, ih _ [c]]
        simp

private theorem replaceFrom_skip (front text : List Char) :
    replaceFrom p r front.length [] (front ++ text) = replaceFrom p r 0 [] text := by
  induction front with
  | nil => rfl
  | cons c front ih => exact ih

@[simp]
theorem replaceAll_nil (hp : p ≠ []) : replaceAll p r [] = [] := by
  rw [replaceAll, if_neg (by simpa using hp)]
  rfl

/-- A character where the pattern does not start is kept. -/
theorem replaceAll_cons {c : Char} {rest : List Char} (hp : p ≠ [])
    (h : ¬ p.isPrefixOf (c :: rest)) : replaceAll p r (c :: rest) = c :: replaceAll p r rest := by
  have hempty : ¬ p.isEmpty = true := by simpa using hp
  rw [replaceAll, if_neg hempty, replaceFrom, if_neg h, replaceFrom_done, replaceAll,
    if_neg hempty]
  rfl

/-- The pattern is replaced, and the search goes on behind it. -/
theorem replaceAll_here (hp : p ≠ []) (rest : List Char) :
    replaceAll p r (p ++ rest) = r ++ replaceAll p r rest := by
  have hempty : ¬ p.isEmpty = true := by simpa using hp
  obtain ⟨c, tail, rfl⟩ := List.exists_cons_of_ne_nil hp
  have hstarts : (c :: tail).isPrefixOf (c :: (tail ++ rest)) = true :=
    isPrefixOf_iff.mpr ⟨rest, rfl⟩
  have hskip : (c :: tail).length - 1 = tail.length := rfl
  rw [replaceAll, if_neg hempty, List.cons_append, replaceFrom, if_pos hstarts, hskip,
    replaceFrom_done, replaceFrom_skip, replaceAll, if_neg hempty]
  simp

theorem replaceAll_self (hp : p ≠ []) : replaceAll p r p = r := by
  have h := replaceAll_here (r := r) hp []
  simpa [hp] using h

/-- A text in which the pattern does not occur stays as it is. -/
theorem replaceAll_of_absent {text : List Char} (hp : p ≠ []) (h : ¬ p <:+: text) :
    replaceAll p r text = text := by
  induction text using pattern_induction hp with
  | nil => exact replaceAll_nil hp
  | here rest => exact absurd ⟨[], rest, rfl⟩ h
  | pass c rest hpass ih =>
    rw [replaceAll_cons hp hpass, ih fun hrest => h (List.infix_cons_iff.mpr (.inr hrest))]

/-! ## Texts in parts -/

/-- No occurrence of the pattern can lie across the seam between the two texts. -/
def Apart (p a b : List Char) : Prop :=
  ∀ p₁ p₂, p = p₁ ++ p₂ → p₁ ≠ [] → p₂ ≠ [] → p₁ <:+ a → ¬ p₂ <+: b

theorem Apart.of_suffix {a a' b : List Char} (h : Apart p a b) (hsuffix : a' <:+ a) :
    Apart p a' b :=
  fun p₁ p₂ hp h₁ h₂ hend => h p₁ p₂ hp h₁ h₂ (hend.trans hsuffix)

/-- Two texts that the pattern cannot join are replaced one by one. -/
theorem replaceAll_append {a b : List Char} (hp : p ≠ []) (h : Apart p a b) :
    replaceAll p r (a ++ b) = replaceAll p r a ++ replaceAll p r b := by
  induction a using pattern_induction hp with
  | nil => simp [hp]
  | here rest ih =>
    rw [List.append_assoc, replaceAll_here hp, replaceAll_here hp, ih (h.of_suffix ⟨p, rfl⟩),
      List.append_assoc]
  | pass c rest hpass ih =>
    -- An occurrence at the front that is not one of the first text would reach into the second.
    have hpass' : ¬ p.isPrefixOf (c :: (rest ++ b)) := by
      intro hstarts
      obtain ⟨after, hafter⟩ := isPrefixOf_iff.mp hstarts
      rw [← List.cons_append] at hafter
      obtain ⟨p₂, hp₂, hb⟩ | ⟨m, hm, -⟩ := List.append_eq_append_iff.mp hafter
      · by_cases hnil : p₂ = []
        · exact hpass (isPrefixOf_iff.mpr ⟨[], by simpa [hnil] using hp₂.symm⟩)
        · exact h (c :: rest) p₂ hp₂ (List.cons_ne_nil _ _) hnil (List.suffix_refl _)
            ⟨after, hb.symm⟩
      · exact hpass (isPrefixOf_iff.mpr ⟨m, hm⟩)
    rw [List.cons_append, replaceAll_cons hp hpass', replaceAll_cons hp hpass,
      ih (h.of_suffix (List.suffix_cons c rest)), List.cons_append]

/-! ## Counting -/

/-- Characters that are not in the pattern do not become fewer. -/
theorem countP_le_replaceAll {w : Char → Bool} (hp : p ≠ []) (hpw : p.countP w = 0)
    (text : List Char) : text.countP w ≤ (replaceAll p r text).countP w := by
  induction text using pattern_induction hp with
  | nil => simp
  | here rest ih =>
    rw [replaceAll_here hp, List.countP_append, List.countP_append, hpw]
    omega
  | pass c rest hpass ih =>
    rw [replaceAll_cons hp hpass, List.countP_cons, List.countP_cons]
    omega

/-- Characters that are in the replacement but not in the pattern become more if the pattern
occurs. -/
theorem countP_lt_replaceAll {w : Char → Bool} (hp : p ≠ []) (hpw : p.countP w = 0)
    (hrw : 0 < r.countP w) {text : List Char} (h : p <:+: text) :
    text.countP w < (replaceAll p r text).countP w := by
  induction text using pattern_induction hp with
  | nil => exact absurd (List.infix_nil.mp h) hp
  | here rest =>
    have hrest := countP_le_replaceAll (r := r) hp hpw rest
    rw [replaceAll_here hp, List.countP_append, List.countP_append, hpw]
    omega
  | pass c rest hpass ih =>
    rw [replaceAll_cons hp hpass, List.countP_cons, List.countP_cons]
    rcases List.infix_cons_iff.mp h with hstarts | hrest
    · obtain ⟨after, hafter⟩ := hstarts
      exact absurd (isPrefixOf_iff.mpr ⟨after, hafter.symm⟩) hpass
    · have := ih hrest
      omega

end ThemeColor.Text
