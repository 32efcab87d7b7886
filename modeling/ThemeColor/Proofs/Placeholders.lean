import Mathlib.Algebra.Group.Nat.Defs
import ThemeColor.Document.Placeholder
import ThemeColor.Proofs.Replace

/-!
# Fresh placeholders

The placeholders that are taken for a text do not occur in it, and no two of them are the same, as
long as the numbers do not run out (`Taken.exists_numbers`). Behind it is a count: each number that
is passed over belongs to an opening character of the text, so no more numbers are passed over than
there are such characters.

A placeholder cannot be put together at the seam between a text that is `Sealed` and any other text;
what is left of a sealed text when placeholders in it are replaced by sealed texts is sealed again.
-/

namespace ThemeColor.PlaceholderCounter

open Text

/-! ## The form of a placeholder -/

/-- Whether a character can stand in a placeholder. -/
def isMark (c : Char) : Bool := c = opening || c.isDigit || c = closing

theorem isDigit_of_mem_digits {n : UInt64} {c : Char} (h : c ∈ Nat.toDigits 10 n.toNat) :
    c.isDigit := Nat.isDigit_of_mem_toDigits (by decide) (by decide) h

theorem placeholder_ne_nil (n : UInt64) : placeholder n ≠ [] := List.cons_ne_nil _ _

/-- A `placeholder` consists of marks. -/
theorem isMark_of_mem_placeholder {n : UInt64} {c : Char} (h : c ∈ placeholder n) : isMark c := by
  rw [placeholder, List.mem_cons, List.mem_append, List.mem_singleton] at h
  rcases h with rfl | h | rfl
  · rfl
  · simp [isMark, isDigit_of_mem_digits h]
  · rfl

/-- No character of a `placeholder` counts as anything but a mark. -/
theorem countP_placeholder (n : UInt64) : (placeholder n).countP (!isMark ·) = 0 := by
  rw [List.countP_eq_zero]
  intro c hc
  simp [isMark_of_mem_placeholder hc]

/-- The digits of a `placeholder` end at the first closing character, so no placeholder is the start
of another one. -/
theorem eq_of_placeholder_append {m n : UInt64} {a b : List Char}
    (h : placeholder m ++ a = placeholder n ++ b) : m = n := by
  -- The number can be read back from the text: it is all digits up to the closing character.
  have hdigits (k : UInt64) (t : List Char) :
      ((placeholder k ++ t).tail.takeWhile Char.isDigit) = Nat.toDigits 10 k.toNat := by
    have hclosing : closing.isDigit = false := by decide
    rw [placeholder, List.cons_append, List.tail_cons, List.append_assoc,
      List.takeWhile_append_of_pos fun c hc => isDigit_of_mem_digits hc]
    simp [hclosing]
  have hsame : Nat.toDigits 10 m.toNat = Nat.toDigits 10 n.toNat := by
    rw [← hdigits m a, h, hdigits]
  have hvalue := congrArg (Nat.ofDigitChars 10 · 0) hsame
  simp only [Nat.ofDigitChars_ten_toDigits] at hvalue
  exact UInt64.toNat_inj.mp hvalue

/-- No `placeholder` occurs in another one. -/
theorem not_infix_placeholder {m n : UInt64} (h : m ≠ n) : ¬ placeholder m <:+: placeholder n := by
  intro hinfix
  rcases List.infix_cons_iff.mp hinfix with ⟨rest, hrest⟩ | ⟨before, after, hinside⟩
  · exact h (eq_of_placeholder_append (hrest.trans (List.append_nil _).symm))
  · -- Behind its first character a placeholder has no opening character.
    have hmem : opening ∈ Nat.toDigits 10 n.toNat ++ [closing] := by
      rw [← hinside]
      simp [placeholder]
    rcases List.mem_append.mp hmem with hdigit | hclosing
    · exact absurd (isDigit_of_mem_digits hdigit) (by decide)
    · exact absurd (List.mem_singleton.mp hclosing) (by decide)

/-- The two parts of a `placeholder` that is cut in two. -/
theorem eq_append_of_placeholder {n : UInt64} {a b : List Char} (h : placeholder n = a ++ b)
    (ha : a ≠ []) (hb : b ≠ []) :
    ∃ ds es, a = opening :: ds ∧ b = es ++ [closing] ∧ (∀ c ∈ ds, c.isDigit) ∧
      ∀ c ∈ es, c.isDigit := by
  obtain ⟨c, ds, rfl⟩ := List.exists_cons_of_ne_nil ha
  obtain ⟨es, d, rfl⟩ := List.eq_nil_or_concat b |>.resolve_left hb
  rw [placeholder, List.cons_append, List.cons.injEq, List.concat_eq_append,
    ← List.append_assoc] at h
  obtain ⟨rfl, h⟩ := h
  obtain ⟨hdigits, hlast⟩ := List.append_inj' h rfl
  refine ⟨ds, es, rfl, by rw [List.concat_eq_append, ← hlast], ?_, ?_⟩
  · intro c hc
    exact isDigit_of_mem_digits (hdigits ▸ List.mem_append_left es hc)
  · intro c hc
    exact isDigit_of_mem_digits (hdigits ▸ List.mem_append_right ds hc)

/-! ## Taking placeholders -/

/-- A text has no fewer `opening` characters than different placeholders occur in it. -/
theorem length_le_count_opening {text : List Char} {numbers : List UInt64} (hnodup : numbers.Nodup)
    (hoccur : ∀ n ∈ numbers, placeholder n <:+: text) :
    numbers.length ≤ text.count opening := by
  induction text generalizing numbers with
  | nil =>
    cases numbers with
    | nil => simp
    | cons n numbers =>
      have := List.infix_nil.mp (hoccur n List.mem_cons_self)
      exact absurd this (placeholder_ne_nil n)
  | cons c rest ih =>
    by_cases hstarts : ∃ m after, c :: rest = placeholder m ++ after
    · -- One of the placeholders may start here; the others occur in what follows.
      obtain ⟨m, after, hm⟩ := hstarts
      have hothers : ∀ n ∈ numbers.erase m, placeholder n <:+: rest := by
        intro n hn
        rcases List.infix_cons_iff.mp (hoccur n (List.mem_of_mem_erase hn)) with ⟨t, ht⟩ | hrest
        · have hsame : n = m := eq_of_placeholder_append (ht.trans hm)
          subst hsame
          exact absurd hn (hnodup.not_mem_erase)
        · exact hrest
      have hc : c = opening := by
        rw [placeholder, List.cons_append, List.cons.injEq] at hm
        exact hm.1
      have hcount := ih (hnodup.erase m) hothers
      have hlength := List.le_length_erase (a := m) (l := numbers)
      rw [hc, List.count_cons_self]
      omega
    · have hothers : ∀ n ∈ numbers, placeholder n <:+: rest := by
        intro n hn
        rcases List.infix_cons_iff.mp (hoccur n hn) with ⟨t, ht⟩ | hrest
        · exact absurd ⟨n, t, ht.symm⟩ hstarts
        · exact hrest
      exact Nat.le_trans (ih hnodup hothers) List.count_le_count_cons

/-- The number that stands `k` places behind the next one of a counter. Numbers wrap around. -/
def ahead (start : PlaceholderCounter) (k : Nat) : UInt64 := start.next + UInt64.ofNat k

theorem ahead_zero (start : PlaceholderCounter) : start.ahead 0 = start.next := by
  simp [ahead]

theorem ahead_add_one (start : PlaceholderCounter) (k : Nat) :
    start.ahead k + 1 = start.ahead (k + 1) := by
  rw [ahead, ahead, UInt64.ofNat_add, UInt64.add_assoc]
  rfl

/-- The numbers `ahead` come back only after all of them. -/
theorem eq_of_ahead_eq {start : PlaceholderCounter} {i j : Nat} (hi : i < 2 ^ 64) (hj : j < 2 ^ 64)
    (h : start.ahead i = start.ahead j) : i = j := by
  have heq : UInt64.ofNat i = UInt64.ofNat j := UInt64.add_right_inj _ |>.mp h
  have hmod := congrArg UInt64.toNat heq
  rwa [UInt64.toNat_ofNat_of_lt' hi, UInt64.toNat_ofNat_of_lt' hj] at hmod

theorem eq_of_placeholder_ahead_eq {start : PlaceholderCounter} {i j : Nat} (hi : i < 2 ^ 64)
    (hj : j < 2 ^ 64) (h : placeholder (start.ahead i) = placeholder (start.ahead j)) : i = j :=
  eq_of_ahead_eq hi hj (eq_of_placeholder_append (congrArg (· ++ []) h))

/-- Counting from `start` on, the counter has issued some placeholders, and every other number was
passed over because its placeholder occurs in the text. -/
structure Counted (text : List Char) (start : PlaceholderCounter) (issued : Nat)
    (counter : PlaceholderCounter) (passed : List Nat) : Prop where
  /-- The numbers that were passed over are different ones. -/
  nodup : passed.Nodup
  /-- They are among those counted so far, and their placeholders occur in the text. -/
  occur : ∀ k ∈ passed, k < issued + passed.length ∧ placeholder (start.ahead k) <:+: text
  /-- There are no more of them than opening characters in the text. -/
  length_le : passed.length ≤ text.count opening
  /-- No number was counted besides them and the issued ones. -/
  next_eq : counter.next = start.ahead (issued + passed.length)

/-- A counter has `Counted` nothing at its start. -/
theorem counted_self (text : List Char) (start : PlaceholderCounter) :
    Counted text start 0 start [] :=
  ⟨.nil, by simp, Nat.zero_le _, start.ahead_zero.symm⟩

namespace Counted

variable {text : List Char} {start counter : PlaceholderCounter} {issued : Nat} {passed : List Nat}

/-- A number whose placeholder occurs in the text is passed over: `Counted` has one more of these.
-/
theorem pass (h : Counted text start issued counter passed)
    (hroom : issued + text.count opening < 2 ^ 64)
    (hoccurs : placeholder counter.next <:+: text) :
    Counted text start issued ⟨counter.next + 1⟩ ((issued + passed.length) :: passed) := by
  have hnodup : ((issued + passed.length) :: passed).Nodup :=
    List.nodup_cons.mpr ⟨fun hmem => Nat.lt_irrefl _ (h.occur _ hmem).1, h.nodup⟩
  have hoccur : ∀ k ∈ (issued + passed.length) :: passed,
      k < issued + passed.length + 1 ∧ placeholder (start.ahead k) <:+: text := by
    intro k hk
    rcases List.mem_cons.mp hk with rfl | hk
    · exact ⟨Nat.lt_succ_self _, h.next_eq ▸ hoccurs⟩
    · exact ⟨Nat.lt_succ_of_lt (h.occur k hk).1, (h.occur k hk).2⟩
  refine ⟨hnodup, hoccur, ?_, ?_⟩
  · -- The numbers have not come back yet, so each of them takes an opening character of its own.
    have hbound : ∀ k ∈ (issued + passed.length) :: passed, k < 2 ^ 64 := by
      intro k hk
      have := (hoccur k hk).1
      have := h.length_le
      omega
    rw [← List.length_map start.ahead]
    refine length_le_count_opening ?_ fun n hn => ?_
    · refine List.pairwise_map.mpr (List.Pairwise.imp_of_mem ?_ hnodup)
      intro i j hi hj hne heq
      exact hne (eq_of_ahead_eq (hbound i hi) (hbound j hj) heq)
    · obtain ⟨k, hk, rfl⟩ := List.mem_map.mp hn
      exact (hoccur k hk).2
  · rw [h.next_eq, ahead_add_one, List.length_cons, Nat.add_assoc]

/-- Any other number is issued: `Counted` has one more of these. -/
theorem issue (h : Counted text start issued counter passed) :
    Counted text start (issued + 1) ⟨counter.next + 1⟩ passed := by
  refine ⟨h.nodup, fun k hk => ⟨?_, (h.occur k hk).2⟩, h.length_le, ?_⟩
  · have := (h.occur k hk).1
    omega
  · rw [h.next_eq, ahead_add_one, Nat.add_right_comm]

/-- The search of `takeFrom` ends at a placeholder that does not occur in the text: it starts with
enough fuel to pass over all that do. -/
theorem takeFrom (h : Counted text start issued counter passed)
    (hroom : issued + text.count opening < 2 ^ 64) (fuel : Nat)
    (hfuel : text.count opening ≤ passed.length + fuel) :
    ∃ counter' passed', takeFrom text fuel counter =
        (placeholder (start.ahead (issued + passed'.length)), counter') ∧
      ¬ placeholder (start.ahead (issued + passed'.length)) <:+: text ∧
      passed.length ≤ passed'.length ∧ Counted text start (issued + 1) counter' passed' := by
  induction fuel generalizing counter passed with
  | zero =>
    refine ⟨_, passed, by rw [← h.next_eq]; rfl, ?_, Nat.le_refl _, h.issue⟩
    -- Without fuel all placeholders in the text are passed over, and one more would be too many.
    intro hoccurs
    have := (h.pass hroom (h.next_eq ▸ hoccurs)).length_le
    rw [List.length_cons] at this
    omega
  | succ fuel ih =>
    rw [PlaceholderCounter.takeFrom]
    split
    · rename_i hoccurs
      obtain ⟨counter', passed', htake, hfresh, hle, hcounted⟩ :=
        ih (h.pass hroom (occursIn_iff.mp hoccurs)) (by rw [List.length_cons]; omega)
      rw [List.length_cons] at hle
      exact ⟨counter', passed', htake, hfresh, by omega, hcounted⟩
    · rename_i hfresh
      rw [occursIn_iff, h.next_eq] at hfresh
      exact ⟨_, passed, by rw [h.next_eq], hfresh, Nat.le_refl _, h.issue⟩

end Counted

/-- `Taken text counter taken counter'`: the placeholders were taken for the text one after the
other, from the first counter to the last. -/
inductive Taken (text : List Char) :
    PlaceholderCounter → List (List Char) → PlaceholderCounter → Prop
  | nil (counter : PlaceholderCounter) : Taken text counter [] counter
  | cons {counter last : PlaceholderCounter} {more : List (List Char)}
      (hmore : Taken text (take text counter).2 more last) :
      Taken text counter ((take text counter).1 :: more) last

/-- The placeholders that are `Taken` for a text have ascending numbers, counted from any start, and
do not occur in it, unless the numbers run out. -/
theorem Taken.exists_numbers {text : List Char} {start counter last : PlaceholderCounter}
    {issued : Nat} {taken : List (List Char)} {passed : List Nat}
    (h : Taken text counter taken last) (hcounted : Counted text start issued counter passed)
    (hroom : issued + taken.length + text.count opening ≤ 2 ^ 64) :
    ∃ numbers : List Nat, taken = numbers.map (fun k => placeholder (start.ahead k)) ∧
      numbers.Pairwise (· < ·) ∧
      ∀ k ∈ numbers, issued + passed.length ≤ k ∧ k < 2 ^ 64 ∧
        ¬ placeholder (start.ahead k) <:+: text := by
  induction h generalizing issued passed with
  | nil => exact ⟨[], rfl, .nil, by simp⟩
  | @cons counter last more hmore ih =>
    rw [List.length_cons] at hroom
    obtain ⟨counter', passed', htake, hfresh, hle, hcounted'⟩ :=
      hcounted.takeFrom (by omega) (text.count opening) (by omega)
    have htake : take text counter =
        (placeholder (start.ahead (issued + passed'.length)), counter') := htake
    rw [htake] at ih ⊢
    obtain ⟨numbers, rfl, hascending, hnumbers⟩ := ih hcounted' (by omega)
    have hlength := hcounted'.length_le
    refine ⟨(issued + passed'.length) :: numbers, rfl, .cons ?_ hascending, ?_⟩
    · intro m hm
      have := (hnumbers m hm).1
      omega
    · intro m hm
      rcases List.mem_cons.mp hm with rfl | hm
      · exact ⟨by omega, by omega, hfresh⟩
      · obtain ⟨hlow, hrest⟩ := hnumbers m hm
        exact ⟨by omega, hrest⟩

/-- The placeholders that are `Taken` depend only on the text, on the counter and on their number.
-/
theorem Taken.unique {text : List Char} {counter last last' : PlaceholderCounter}
    {taken taken' : List (List Char)} (h : Taken text counter taken last)
    (h' : Taken text counter taken' last') (hlength : taken.length = taken'.length) :
    taken = taken' ∧ last = last' := by
  induction h generalizing taken' with
  | nil =>
    cases h' with
    | nil => exact ⟨rfl, rfl⟩
    | cons => cases hlength
  | cons hmore ih =>
    cases h' with
    | nil => cases hlength
    | cons hmore' =>
      obtain ⟨rfl, rfl⟩ := ih hmore' (Nat.succ.inj hlength)
      exact ⟨rfl, rfl⟩

/-! ## Seams -/

/-- No end of the text is the start of a placeholder that goes on behind it. -/
def EndsSealed (text : List Char) : Prop :=
  ∀ ds : List Char, (∀ c ∈ ds, c.isDigit) → ¬ (opening :: ds) <:+ text

/-- Neither end of the text can be part of a placeholder that reaches beyond it. -/
structure Sealed (text : List Char) : Prop where
  /-- The first character cannot stand in a placeholder. -/
  head : ∃ c rest, text = c :: rest ∧ isMark c = false
  /-- The end of the text does not start a placeholder. -/
  ends : EndsSealed text

theorem EndsSealed.of_suffix {a b : List Char} (h : EndsSealed b) (hsuffix : a <:+ b) :
    EndsSealed a :=
  fun ds hds hend => h ds hds (hend.trans hsuffix)

/-- A text that ends neither with an opening character nor with a digit has a sealed end,
`EndsSealed`. -/
theorem endsSealed_of_getLast? {text : List Char} {c : Char} (hlast : text.getLast? = some c)
    (hopening : c ≠ opening) (hdigit : c.isDigit = false) : EndsSealed text := by
  rintro ds hds ⟨front, rfl⟩
  rw [List.getLast?_append, List.getLast?_cons, Option.some_or, Option.some.injEq] at hlast
  cases hds' : ds.getLast? with
  | none =>
    rw [hds'] at hlast
    exact hopening hlast.symm
  | some d =>
    rw [hds', Option.getD_some] at hlast
    have := hds d (List.mem_of_getLast? hds')
    rw [hlast, hdigit] at this
    cases this

/-- A text without an opening character has a sealed end, `EndsSealed`. -/
theorem endsSealed_of_notMem {text : List Char} (h : opening ∉ text) : EndsSealed text := by
  rintro ds - ⟨front, rfl⟩
  exact h (by simp)

/-- A `placeholder` has a sealed end, for it closes itself. -/
theorem endsSealed_placeholder (n : UInt64) : EndsSealed (placeholder n) := by
  have hlast : (placeholder n).getLast? = some closing := by
    rw [placeholder, List.getLast?_cons, List.getLast?_concat, Option.getD_some]
  exact endsSealed_of_getLast? hlast (by decide) (by decide)

/-- A text for which `EndsSealed` holds does not share a placeholder with what follows: they lie
`Apart`. -/
theorem EndsSealed.apart {a : List Char} (h : EndsSealed a) (n : UInt64) (b : List Char) :
    Apart (placeholder n) a b := by
  intro p₁ p₂ hp h₁ h₂ hend
  obtain ⟨ds, -, rfl, -, hds, -⟩ := eq_append_of_placeholder hp h₁ h₂
  exact absurd hend (h ds hds)

/-- Nor does a text that starts with an opening character, or with one that is in no placeholder,
share one with what is before it. -/
theorem apart_of_head {c : Char} {rest : List Char} (hc : c = opening ∨ isMark c = false)
    (n : UInt64) (a : List Char) : Apart (placeholder n) a (c :: rest) := by
  rintro p₁ p₂ hp h₁ h₂ -
  obtain ⟨-, es, -, rfl, -, hes⟩ := eq_append_of_placeholder hp h₁ h₂
  rintro ⟨after, hafter⟩
  -- The second part of a cut placeholder starts with a digit or with the closing character.
  have hmid : c.isDigit ∨ c = closing := by
    cases es with
    | nil =>
      simp only [List.nil_append, List.cons_append, List.cons.injEq] at hafter
      exact .inr hafter.1.symm
    | cons d es =>
      simp only [List.cons_append, List.cons.injEq] at hafter
      exact .inl (hafter.1 ▸ hes d List.mem_cons_self)
  rcases hc with rfl | hmark
  · revert hmid
    decide
  · rcases hmid with hdigit | rfl
    · simp [isMark, hdigit] at hmark
    · cases hmark

/-- A text of digits only comes from the same text, for a `Sealed` text has other characters. -/
theorem eq_of_replaceAll_digits {n : UInt64} {r text : List Char} (hr : Sealed r)
    (h : ∀ c ∈ replaceAll (placeholder n) r text, c.isDigit) :
    replaceAll (placeholder n) r text = text := by
  obtain ⟨c, rest, rfl, hc⟩ := hr.head
  apply replaceAll_of_absent (placeholder_ne_nil n)
  intro hinfix
  have hlt := countP_lt_replaceAll (w := fun c => !isMark c) (r := c :: rest)
    (placeholder_ne_nil n) (countP_placeholder n) (by simp [hc]) hinfix
  obtain ⟨d, hd, hmark⟩ := List.countP_pos_iff.mp (Nat.lt_of_le_of_lt (Nat.zero_le _) hlt)
  simp [isMark, h d hd] at hmark

/-- Replacing placeholders by `Sealed` texts keeps a sealed end. -/
theorem EndsSealed.replaceAll {n : UInt64} {r text : List Char} (hr : Sealed r)
    (h : EndsSealed text) : EndsSealed (replaceAll (placeholder n) r text) := by
  have hp := placeholder_ne_nil n
  induction text using pattern_induction hp with
  | nil =>
    rw [replaceAll_nil hp]
    exact h
  | here rest ih =>
    rw [replaceAll_here hp]
    have hrest := ih (h.of_suffix ⟨_, rfl⟩)
    rintro ds hds ⟨front, hfront⟩
    -- The end in question lies in what follows the replacement, or starts inside the replacement.
    rcases List.append_eq_append_iff.mp hfront with ⟨a, ha, hend⟩ | ⟨a, -, hin⟩
    · cases a with
      | nil => exact hrest ds hds ⟨[], hend⟩
      | cons c a =>
        obtain ⟨rfl, rfl⟩ := List.cons.inj hend
        exact hr.ends a (fun c hc => hds c (List.mem_append_left _ hc)) ⟨front, ha.symm⟩
    · exact hrest ds hds ⟨a, hin.symm⟩
  | pass c rest hpass ih =>
    rw [replaceAll_cons hp hpass]
    have hrest := ih (h.of_suffix (List.suffix_cons c rest))
    intro ds hds hend
    rcases List.suffix_cons_iff.mp hend with hwhole | hin
    · -- The new text would be an opening character and digits, and the old text the same.
      obtain ⟨rfl, rfl⟩ := List.cons.inj hwhole
      rw [eq_of_replaceAll_digits hr hds] at hds
      exact h rest hds (List.suffix_refl _)
    · exact hrest ds hds hin

/-- Replacing a placeholder in a `Sealed` text by a sealed text gives a sealed text. -/
theorem Sealed.replaceAll {n : UInt64} {r text : List Char} (hr : Sealed r) (h : Sealed text) :
    Sealed (replaceAll (placeholder n) r text) := by
  obtain ⟨c, rest, rfl, hc⟩ := h.head
  refine ⟨⟨c, Text.replaceAll (placeholder n) r rest, ?_, hc⟩, h.ends.replaceAll hr⟩
  apply replaceAll_cons (placeholder_ne_nil n)
  rw [isPrefixOf_iff]
  rintro ⟨after, hafter⟩
  rw [placeholder, List.cons_append, List.cons.injEq] at hafter
  rw [hafter.1] at hc
  cases hc

end ThemeColor.PlaceholderCounter
