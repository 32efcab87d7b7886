import Mathlib.Data.List.TakeWhile
import ThemeColor.Proofs.Locality

/-!
# Scanning a text that is cut off

A scanner that reads the front of `x ++ r` and leaves all of `r` has looked at `r` only to see where
to stop. Cut off behind `x`, the text ends there instead, and the scanner reads the same. This file
proves it for the parts that tokens are made of.

A quoted text that a line end cuts off is an exception: without the line end it is complete.

## Main results

* `name_cut`, `urlBody_cut` and `numeral_cut`: names, addresses and numbers are read the same;
* `stringBody_cut`: quoted texts are read the same, or are complete without `r`;
* `startsName_cut` and `startsWith_cut`: a name or a number that leaves all of `r` starts in `x`.
-/

namespace ThemeColor

/-- A scan `after` some characters ends as a given one when the scan itself does. -/
theorem Scanned.after_eq_iff {α β : Type} {s : Scanned α} {front : List Char} {f : α → β} {b : β}
    {text rest : List Char} :
    s.after front f = ⟨b, text, rest⟩ ↔
      ∃ a part, s = ⟨a, part, rest⟩ ∧ f a = b ∧ front ++ part = text := by
  obtain ⟨value, part, rest'⟩ := s
  constructor
  · intro h
    cases h
    exact ⟨value, part, rfl, rfl, rfl⟩
  · rintro ⟨a, part', h, rfl, rfl⟩
    cases h
    rfl

namespace Scan

variable {α : Type} {x r t y : List Char}

/-- What is read in front of `r` is a front part of `x`. -/
theorem eq_append_of_rest {s : Scanned α} {v : α} (happend : s.text ++ s.rest = x ++ r)
    (h : s = ⟨v, t, y ++ r⟩) : x = t ++ y := by
  subst h
  have happend : t ++ (y ++ r) = x ++ r := happend
  rw [← List.append_assoc] at happend
  exact (List.append_cancel_right happend).symm

/-- A list that is shorter than `r` does not end in `r`. -/
theorem false_of_length_lt {rest : List Char} (h : rest = y ++ r) (hlt : rest.length < r.length) :
    False := by
  rw [h, List.length_append] at hlt
  omega

/-- A run of characters that stops in front of `r` is a run of `x`. -/
theorem run_cut {p : Char → Bool} (h : (x ++ r).dropWhile p = y ++ r) :
    x.dropWhile p = y ∧ x.takeWhile p = (x ++ r).takeWhile p := by
  induction x with
  | nil =>
    have hrun := List.takeWhile_append_dropWhile (p := p) (l := r)
    rw [List.nil_append] at h ⊢
    rw [h, ← List.append_assoc] at hrun
    -- Nothing is taken from `r`, since all of it is left.
    obtain ⟨htake, hy⟩ := List.append_eq_nil_iff.mp (List.append_left_eq_self.mp hrun)
    exact ⟨hy.symm, htake.symm⟩
  | cons c x ih =>
    rw [List.cons_append, List.dropWhile_cons] at h
    rw [List.cons_append, List.dropWhile_cons, List.takeWhile_cons, List.takeWhile_cons]
    by_cases hc : p c
    · rw [if_pos hc] at h
      obtain ⟨hdrop, htake⟩ := ih h
      simp [hc, hdrop, htake]
    · rw [if_neg hc, ← List.cons_append] at h
      simp [hc, List.append_cancel_right h]

/-! ## Escapes and names -/

/-- An `escape` reads a character if there is one. -/
theorem text_escape_ne_nil {input : List Char} (h : input ≠ []) : (escape input).text ≠ [] := by
  unfold escape
  split
  · cases input with
    | nil => exact absurd rfl h
    | cons c rest => simp
  · split
    · simp
    · split <;> simp

theorem length_rest_escape_lt (c : Char) (rest : List Char) :
    (escape (c :: rest)).rest.length < (c :: rest).length := by
  have happend := congrArg List.length (escape_append (c :: rest))
  have hpos := List.length_pos_iff.mpr (text_escape_ne_nil (List.cons_ne_nil c rest))
  rw [List.length_append] at happend
  omega

/-- A run of at most `n` characters that `x` has room for is a run of `x`. -/
theorem shortRun_cut {p : Char → Bool} {n : Nat} {run : List Char}
    (h : ((x ++ r).take n).takeWhile p = run) (hle : run.length ≤ x.length) :
    (x.take n).takeWhile p = run := by
  induction n generalizing x run with
  | zero => simpa using h
  | succ n ih =>
    cases x with
    | nil => simpa [eq_comm] using hle
    | cons c x =>
      rw [List.cons_append, List.take_succ_cons, List.takeWhile_cons] at h
      rw [List.take_succ_cons, List.takeWhile_cons]
      subst h
      by_cases hc : p c
      · simp only [hc, if_true, List.length_cons, Nat.add_le_add_iff_right] at hle ⊢
        rw [ih rfl hle]
      · simp [hc]

/-- The escape that the hexadecimal digits `d :: ds` write, given the text behind them. -/
def hexEscape (d : Char) (ds : List Char) : List Char → Scanned Char
  | [] => ⟨charOfCode (hexValue (d :: ds)), d :: ds, []⟩
  | c :: rest =>
    if isSpace c then ⟨charOfCode (hexValue (d :: ds)), d :: ds ++ [c], rest⟩
    else ⟨charOfCode (hexValue (d :: ds)), d :: ds, c :: rest⟩

/-- An `escape` that starts with hexadecimal digits is a `hexEscape`. -/
theorem escape_hex {d : Char} {ds after : List Char}
    (h : ((d :: ds ++ after).take 6).takeWhile isHexDigit = d :: ds) :
    escape (d :: ds ++ after) = hexEscape d ds after := by
  unfold escape hexEscape
  rw [h]
  cases after <;> simp

/-- A `hexEscape` reads at least its digits. -/
theorem length_le_text_hexEscape (d : Char) (ds after : List Char) :
    (d :: ds).length ≤ (hexEscape d ds after).text.length := by
  unfold hexEscape
  split
  · exact Nat.le_refl _
  · split <;> simp

/-- A `hexEscape` stands for the character with the number that its digits write. -/
theorem value_hexEscape (d : Char) (ds after : List Char) :
    (hexEscape d ds after).value = charOfCode (hexValue (d :: ds)) := by
  unfold hexEscape
  split
  · rfl
  · split <;> rfl

/-- A `hexEscape` that ends before the cut is read without what stands behind the cut. -/
theorem hexEscape_cut {d v : Char} {ds z : List Char}
    (h : hexEscape d ds (z ++ r) = ⟨v, t, y ++ r⟩) (hz : d :: ds ++ z = t ++ y) :
    hexEscape d ds z = ⟨v, t, y⟩ := by
  cases z with
  | nil =>
    -- The digits are all there is to read in front of `r`.
    have hle := length_le_text_hexEscape d ds ([] ++ r)
    rw [h] at hle
    have hlength := congrArg List.length hz
    simp only [List.append_nil, List.length_append] at hle hlength
    obtain rfl : y = [] := List.eq_nil_of_length_eq_zero (by omega)
    obtain rfl : d :: ds = t := by simpa using hz
    have hvalue := value_hexEscape d ds ([] ++ r)
    rw [h] at hvalue
    rw [hexEscape, ← hvalue]
  | cons c z =>
    unfold hexEscape at h ⊢
    simp only [List.cons_append] at h ⊢
    by_cases hc : isSpace c
    · rw [if_pos hc, Scanned.mk.injEq] at h
      rw [if_pos hc, Scanned.mk.injEq]
      exact ⟨h.1, h.2.1, List.append_cancel_right h.2.2⟩
    · rw [if_neg hc, Scanned.mk.injEq] at h
      rw [if_neg hc, Scanned.mk.injEq]
      exact ⟨h.1, h.2.1, List.append_cancel_right h.2.2⟩

/-- An `escape` that ends before the cut is read without what stands behind the cut. -/
theorem escape_cut {v : Char} (h : escape (x ++ r) = ⟨v, t, y ++ r⟩) : escape x = ⟨v, t, y⟩ := by
  have hx : x = t ++ y := eq_append_of_rest (escape_append _) h
  cases hdigits : ((x ++ r).take 6).takeWhile isHexDigit with
  | nil =>
    have hnone := shortRun_cut hdigits (Nat.zero_le _)
    unfold escape at h ⊢
    rw [hdigits] at h
    rw [hnone]
    -- A single character is read, or nothing where nothing stands.
    cases x with
    | nil =>
      obtain ⟨rfl, rfl⟩ := List.append_eq_nil_iff.mp hx.symm
      cases r with
      | nil => exact h
      | cons c r => cases h
    | cons c x =>
      simp only [List.cons_append, Scanned.mk.injEq] at h ⊢
      exact ⟨h.1, h.2.1, List.append_cancel_right h.2.2⟩
  | cons d ds =>
    obtain ⟨after, hafter⟩ := exists_behind_digits 6 (x ++ r)
    rw [hdigits] at hafter
    rw [← hafter] at hdigits h
    rw [escape_hex hdigits] at h
    -- The digits are part of what is read, so they belong to `x`.
    have hle := length_le_text_hexEscape d ds after
    rw [h] at hle
    obtain ⟨z, rfl⟩ : d :: ds <+: x := by
      refine List.prefix_of_prefix_length_le ⟨after, hafter⟩ (List.prefix_append x r) ?_
      rw [hx, List.length_append]
      exact Nat.le_add_right_of_le hle
    obtain rfl : after = z ++ r := by
      rw [List.append_assoc] at hafter
      exact List.append_cancel_left hafter
    rw [← List.append_assoc] at hdigits
    rw [escape_hex (shortRun_cut hdigits (by simp))]
    exact hexEscape_cut h hx

/-- A scanner that goes on behind an escape and leaves all of `r` goes on in `x`. -/
theorem exists_escape_cut {scan : List Char → Scanned α} {v : α}
    (happend : ∀ input, (scan input).text ++ (scan input).rest = input) (hne : x ++ r ≠ [])
    (h : scan (escape (x ++ r)).rest = ⟨v, t, y ++ r⟩) :
    ∃ left, x ≠ [] ∧ left.length ≤ x.length ∧ scan (left ++ r) = ⟨v, t, y ++ r⟩ ∧
      escape x = ⟨(escape (x ++ r)).value, (escape (x ++ r)).text, left⟩ := by
  have hrest := happend (escape (x ++ r)).rest
  rw [h, ← List.append_assoc] at hrest
  have hcut : escape x = ⟨(escape (x ++ r)).value, (escape (x ++ r)).text, t ++ y⟩ :=
    escape_cut (by rw [hrest])
  refine ⟨t ++ y, ?_, ?_, by rw [hrest, h], hcut⟩
  · rintro rfl
    -- The escape reads a character, and it is not one of `r`.
    refine text_escape_ne_nil hne ?_
    rw [← congrArg Scanned.text hcut]
    rfl
  · have hle := length_rest_escape_le x
    rwa [hcut] at hle

/-- A place where `startsEscape` holds stays one when the text goes on. -/
theorem startsEscape_append (h : startsEscape x) (r : List Char) : startsEscape (x ++ r) := by
  cases x with
  | nil => cases h
  | cons c x => exact h

/-- Where `startsEscape` holds, something stands. -/
theorem ne_nil_of_startsEscape (h : startsEscape x) : x ≠ [] := by
  rintro rfl
  cases h

/-- Whether `startsEscape` holds is settled by the first character. -/
theorem startsEscape_cut (hne : x ≠ []) (h : startsEscape (x ++ r)) : startsEscape x := by
  cases x with
  | nil => exact absurd rfl hne
  | cons c x => exact h

/-- A `name` of which nothing is read is empty. -/
theorem value_name_of_text_nil {input : List Char} (h : (name input).text = []) :
    (name input).value = [] := by
  unfold name at h ⊢
  split
  · rfl
  · dsimp only at h
    split at h
    · cases h
    · split at h
      · cases h
      · rw [if_neg ‹_›, if_neg ‹_›]

/-- A `name` that ends before the cut is read without what stands behind the cut. -/
theorem name_cut {v : List Char} (h : name (x ++ r) = ⟨v, t, y ++ r⟩) : name x = ⟨v, t, y⟩ := by
  induction hlength : x.length using Nat.strongRecOn generalizing x v t with
  | ind n ih =>
    subst hlength
    cases x with
    | nil =>
      obtain ⟨rfl, rfl⟩ := List.append_eq_nil_iff.mp (eq_append_of_rest (name_append _) h).symm
      have hvalue := value_name_of_text_nil (congrArg Scanned.text h)
      obtain rfl : v = [] := by rwa [h] at hvalue
      rw [name]
    | cons c x =>
      rw [List.cons_append, name] at h
      rw [name]
      by_cases hc : isNameChar c
      · rw [if_pos hc, Scanned.after_eq_iff] at h
        obtain ⟨v, t, h, rfl, rfl⟩ := h
        rw [if_pos hc, ih x.length (by simp) h rfl]
        rfl
      rw [if_neg hc] at h ⊢
      by_cases hescape : c = '\\' ∧ startsEscape (x ++ r)
      · rw [if_pos hescape, Scanned.after_eq_iff] at h
        obtain ⟨v, t, h, rfl, rfl⟩ := h
        obtain ⟨left, hne, hle, hleft, hcut⟩ :=
          exists_escape_cut name_append (ne_nil_of_startsEscape hescape.2) h
        rw [if_pos ⟨hescape.1, startsEscape_cut hne hescape.2⟩, hcut]
        dsimp only
        rw [ih left.length (by simp; omega) hleft rfl]
        rfl
      · rw [if_neg hescape, ← List.cons_append, Scanned.mk.injEq] at h
        obtain ⟨rfl, rfl, h⟩ := h
        rw [if_neg fun hstart => hescape ⟨hstart.1, startsEscape_append hstart.2 r⟩,
          List.append_cancel_right h]

/-! ## Quoted texts and addresses -/

/-- A quoted text of which `stringBody` reads nothing is empty at the end of the text, and cut off
at a line end. -/
theorem stringBody_of_text_nil {quote : Char} {v : Option (List Char)} {input rest : List Char}
    (h : stringBody quote input = ⟨v, [], rest⟩) : v = some [] ∨ v = none := by
  rw [stringBody.eq_def] at h
  repeat' split at h
  all_goals cases h
  · exact .inl rfl
  · exact .inr rfl

/-- What is left of the scan of a quoted text when `r` is cut off: the same is read, or a quoted
text that `r` cut off is complete. -/
def StringCut (s : Scanned (Option (List Char))) (v : Option (List Char)) (t y : List Char) :
    Prop :=
  s = ⟨v, t, y⟩ ∧ ¬ (v = none ∧ y = []) ∨ s.value ≠ none ∧ v = none ∧ y = []

/-- A `StringCut` stays one when characters are read in front of it. -/
theorem StringCut.after {s : Scanned (Option (List Char))} {v : Option (List Char)}
    (h : StringCut s v t y) (front : List Char)
    {f : Option (List Char) → Option (List Char)} (hf : ∀ v, f v = none ↔ v = none) :
    StringCut (s.after front f) (f v) (front ++ t) y := by
  rcases h with ⟨rfl, hv⟩ | ⟨hne, rfl, rfl⟩
  · exact .inl ⟨rfl, by rwa [hf]⟩
  · exact .inr ⟨fun hnone => hne ((hf _).mp hnone), (hf none).mpr rfl, rfl⟩

/-- A quoted text that `stringBody` ends before the cut is read without what stands behind the cut,
up to `StringCut`. -/
theorem stringBody_cut {quote : Char} {v : Option (List Char)}
    (h : stringBody quote (x ++ r) = ⟨v, t, y ++ r⟩) : StringCut (stringBody quote x) v t y := by
  induction hlength : x.length using Nat.strongRecOn generalizing x v t with
  | ind n ih =>
    subst hlength
    cases x with
    | nil =>
      obtain ⟨rfl, rfl⟩ :=
        List.append_eq_nil_iff.mp (eq_append_of_rest (stringBody_append _ _) h).symm
      have hnil : stringBody quote [] = ⟨some [], [], []⟩ := by rw [stringBody]
      rw [hnil]
      rcases stringBody_of_text_nil h with rfl | rfl
      · exact .inl ⟨rfl, by simp⟩
      · exact .inr ⟨Option.some_ne_none _, rfl, rfl⟩
    | cons c x =>
      rw [List.cons_append, stringBody.eq_def] at h
      rw [stringBody.eq_def]
      dsimp only at h ⊢
      by_cases hend : c = quote
      · rw [if_pos hend, Scanned.mk.injEq] at h
        rw [if_pos hend]
        obtain ⟨rfl, rfl, h⟩ := h
        exact .inl ⟨by rw [List.append_cancel_right h], by simp⟩
      rw [if_neg hend] at h ⊢
      by_cases hline : c = '\n'
      · rw [if_pos hline, ← List.cons_append, Scanned.mk.injEq] at h
        rw [if_pos hline]
        obtain ⟨rfl, rfl, h⟩ := h
        obtain rfl := List.append_cancel_right h
        exact .inl ⟨rfl, by simp⟩
      rw [if_neg hline] at h ⊢
      by_cases hbackslash : c = '\\'
      · rw [if_pos hbackslash] at h ⊢
        cases x with
        | nil =>
          cases r with
          | nil =>
            cases y with
            | nil => exact .inl ⟨h, by rintro ⟨rfl, -⟩; cases h⟩
            | cons d y => cases h
          | cons d r =>
            -- The scan goes on in `r`, so not all of it is left.
            refine (false_of_length_lt (congrArg Scanned.rest h) ?_).elim
            dsimp only [List.nil_append]
            split
            · rw [Scanned.rest_after]
              exact Nat.lt_succ_of_le (length_rest_le (stringBody_append quote r))
            · rw [Scanned.rest_after]
              exact Nat.lt_of_le_of_lt (length_rest_le (stringBody_append quote _))
                (length_rest_escape_lt d r)
        | cons d x =>
          rw [List.cons_append] at h
          dsimp only at h ⊢
          by_cases hd : d = '\n'
          · rw [if_pos hd, Scanned.after_eq_iff] at h
            obtain ⟨v, t, h, rfl, rfl⟩ := h
            rw [if_pos hd]
            have hlength : x.length < ('\\' :: d :: x).length := by
              simp only [List.length_cons]
              omega
            exact (ih x.length hlength h rfl).after _ fun _ => Iff.rfl
          · rw [if_neg hd, ← List.cons_append, Scanned.after_eq_iff] at h
            obtain ⟨v, t, h, rfl, rfl⟩ := h
            rw [if_neg hd]
            obtain ⟨left, -, hle, hleft, hcut⟩ :=
              exists_escape_cut (stringBody_append quote) (by simp) h
            rw [hcut]
            exact (ih left.length (Nat.lt_succ_of_le hle) hleft rfl).after _
              fun _ => Option.map_eq_none_iff
      · rw [if_neg hbackslash, Scanned.after_eq_iff] at h
        obtain ⟨v, t, h, rfl, rfl⟩ := h
        rw [if_neg hbackslash]
        exact (ih x.length (by simp) h rfl).after _ fun _ => Option.map_eq_none_iff

/-- A bad address that `badUrlRest` ends before the cut is read without what stands behind the cut.
-/
theorem badUrlRest_cut {v : Unit} (h : badUrlRest (x ++ r) = ⟨v, t, y ++ r⟩) :
    badUrlRest x = ⟨v, t, y⟩ := by
  induction hlength : x.length using Nat.strongRecOn generalizing x t with
  | ind n ih =>
    subst hlength
    cases x with
    | nil =>
      obtain ⟨rfl, rfl⟩ :=
        List.append_eq_nil_iff.mp (eq_append_of_rest (badUrlRest_append _) h).symm
      rw [badUrlRest]
    | cons c x =>
      rw [List.cons_append, badUrlRest] at h
      rw [badUrlRest]
      by_cases hend : c = ')'
      · rw [if_pos hend, Scanned.mk.injEq] at h
        rw [if_pos hend]
        obtain ⟨-, rfl, h⟩ := h
        rw [List.append_cancel_right h]
      rw [if_neg hend] at h ⊢
      by_cases hescape : c = '\\' ∧ startsEscape (x ++ r)
      · rw [if_pos hescape, Scanned.after_eq_iff] at h
        obtain ⟨_, t, h, -, rfl⟩ := h
        obtain ⟨left, hne, hle, hleft, hcut⟩ :=
          exists_escape_cut badUrlRest_append (ne_nil_of_startsEscape hescape.2) h
        rw [if_pos ⟨hescape.1, startsEscape_cut hne hescape.2⟩, hcut]
        dsimp only
        rw [ih left.length (by simp; omega) hleft rfl]
        rfl
      · rw [if_neg hescape, Scanned.after_eq_iff] at h
        obtain ⟨_, t, h, -, rfl⟩ := h
        rw [if_neg fun hstart => hescape ⟨hstart.1, startsEscape_append hstart.2 r⟩,
          ih x.length (by simp) h rfl]
        rfl

/-- The scanner `badUrlRest` reads a character if there is one. -/
theorem text_badUrlRest_ne_nil (c : Char) (rest : List Char) :
    (badUrlRest (c :: rest)).text ≠ [] := by
  rw [badUrlRest]
  split
  · exact List.cons_ne_nil _ _
  · split <;> exact List.cons_ne_nil _ _

/-- An address of which `urlBody` reads nothing is empty. -/
theorem urlBody_of_text_nil {v : Option (List Char)} {input rest : List Char}
    (h : urlBody input = ⟨v, [], rest⟩) : v = some [] := by
  rw [urlBody.eq_def] at h
  repeat' split at h
  all_goals cases h
  rfl

/-- An address that `urlBody` ends before the cut is read without what stands behind the cut. -/
theorem urlBody_cut {v : Option (List Char)} (h : urlBody (x ++ r) = ⟨v, t, y ++ r⟩) :
    urlBody x = ⟨v, t, y⟩ := by
  induction hlength : x.length using Nat.strongRecOn generalizing x v t with
  | ind n ih =>
    subst hlength
    cases x with
    | nil =>
      obtain ⟨rfl, rfl⟩ := List.append_eq_nil_iff.mp (eq_append_of_rest (urlBody_append _) h).symm
      rw [urlBody, urlBody_of_text_nil h]
    | cons c x =>
      rw [List.cons_append, urlBody] at h
      rw [urlBody]
      by_cases hend : c = ')'
      · rw [if_pos hend, Scanned.mk.injEq] at h
        rw [if_pos hend]
        obtain ⟨rfl, rfl, h⟩ := h
        rw [List.append_cancel_right h]
      rw [if_neg hend] at h ⊢
      by_cases hspace : isSpace c
      · rw [if_pos hspace] at h ⊢
        cases hinside : (x ++ r).dropWhile isSpace with
        | nil =>
          simp only [hinside, Scanned.mk.injEq] at h
          obtain ⟨rfl, rfl, h⟩ := h
          obtain ⟨rfl, rfl⟩ := List.append_eq_nil_iff.mp h.symm
          obtain ⟨hdrop, htake⟩ := run_cut (y := []) hinside
          simp only [hdrop, htake]
        | cons d after =>
          simp only [hinside] at h
          by_cases hd : d = ')'
          · rw [if_pos hd, Scanned.mk.injEq] at h
            obtain ⟨rfl, rfl, rfl⟩ := h
            obtain ⟨hdrop, htake⟩ := run_cut (y := d :: y) hinside
            simp only [hdrop, htake, if_pos hd]
          · rw [if_neg hd, Scanned.after_eq_iff] at h
            obtain ⟨_, t, h, rfl, rfl⟩ := h
            -- The bad part starts in `x`, since a character of it is read.
            have hpart := badUrlRest_append (d :: after)
            have hne := text_badUrlRest_ne_nil d after
            rw [h] at hpart hne
            obtain ⟨e, t, rfl⟩ := List.exists_cons_of_ne_nil hne
            obtain ⟨rfl, rfl⟩ := List.cons.inj hpart
            obtain ⟨hdrop, htake⟩ := run_cut (y := e :: (t ++ y)) (by simpa using hinside)
            have hcut := badUrlRest_cut (x := e :: (t ++ y)) (by simpa using h)
            simp only [hdrop, htake, if_neg hd, hcut]
            rfl
      rw [if_neg hspace] at h ⊢
      by_cases hbad : c = '"' ∨ c = '\'' ∨ c = '('
      · rw [if_pos hbad, Scanned.after_eq_iff] at h
        obtain ⟨_, t, h, rfl, rfl⟩ := h
        rw [if_pos hbad, badUrlRest_cut h]
        rfl
      rw [if_neg hbad] at h ⊢
      by_cases hbackslash : c = '\\'
      · rw [if_pos hbackslash] at h ⊢
        by_cases hescape : startsEscape (x ++ r)
        · rw [if_pos hescape, Scanned.after_eq_iff] at h
          obtain ⟨v, t, h, rfl, rfl⟩ := h
          obtain ⟨left, hne, hle, hleft, hcut⟩ :=
            exists_escape_cut urlBody_append (ne_nil_of_startsEscape hescape) h
          rw [if_pos (startsEscape_cut hne hescape), hcut]
          dsimp only
          rw [ih left.length (by simp; omega) hleft rfl]
          rfl
        · rw [if_neg hescape, Scanned.after_eq_iff] at h
          obtain ⟨_, t, h, rfl, rfl⟩ := h
          rw [if_neg fun hstart => hescape (startsEscape_append hstart r), badUrlRest_cut h]
          rfl
      · rw [if_neg hbackslash, Scanned.after_eq_iff] at h
        obtain ⟨v, t, h, rfl, rfl⟩ := h
        rw [if_neg hbackslash, ih x.length (by simp) h rfl]
        rfl

/-! ## Numbers -/

/-- A sign that `Sign.scan` reads before the cut is read without what stands behind the cut. -/
theorem sign_cut {v : Option Sign} (h : Sign.scan (x ++ r) = (v, y ++ r)) :
    Sign.scan x = (v, y) := by
  have hx := Numeral.sign_text_append_scan (x ++ r)
  rw [h, ← List.append_assoc] at hx
  cases x with
  | nil =>
    obtain ⟨hv, rfl⟩ := List.append_eq_nil_iff.mp (List.append_left_eq_self.mp hx)
    cases v with
    | none => rfl
    | some sign => cases hv
  | cons c x =>
    rw [List.cons_append, Sign.scan] at h
    rw [Sign.scan]
    cases hc : Sign.ofChar? c with
    | none =>
      simp only [hc, ← List.cons_append, Prod.mk.injEq] at h ⊢
      exact ⟨h.1, List.append_cancel_right h.2⟩
    | some sign =>
      simp only [hc, Prod.mk.injEq] at h ⊢
      exact ⟨h.1, List.append_cancel_right h.2⟩

/-- Digits that start `x` start `x ++ r` too. -/
theorem takeWhile_eq_nil_of_append {p : Char → Bool} (h : (x ++ r).takeWhile p = []) :
    x.takeWhile p = [] := by
  cases x with
  | nil => rfl
  | cons c x =>
    rw [List.cons_append, List.takeWhile_cons] at h
    rw [List.takeWhile_cons]
    split at h
    · cases h
    · rw [if_neg ‹_›]

/-- If no characters of a kind stand behind the sign that `Sign.scan` reads, none stand there before
the cut. -/
theorem takeWhile_sign_eq_nil {p : Char → Bool} (h : (Sign.scan (x ++ r)).2.takeWhile p = []) :
    (Sign.scan x).2.takeWhile p = [] := by
  cases x with
  | nil => rfl
  | cons c x =>
    rw [List.cons_append, Sign.scan] at h
    rw [Sign.scan]
    cases hc : Sign.ofChar? c with
    | none =>
      simp only [hc, ← List.cons_append] at h
      exact takeWhile_eq_nil_of_append h
    | some sign =>
      simp only [hc] at h
      exact takeWhile_eq_nil_of_append h

/-- Only a point starts the digits that `Numeral.scanFraction` reads. -/
theorem scanFraction_cons {c : Char} (hc : c ≠ '.') (rest : List Char) :
    Numeral.scanFraction (c :: rest) = ([], c :: rest) := by
  unfold Numeral.scanFraction
  split
  · rename_i heq
    exact absurd (List.cons.inj heq).1 hc
  · rfl

/-- Digits that `Numeral.scanFraction` reads before the cut are read without what stands behind the
cut. -/
theorem fraction_cut {v : List Char} (h : Numeral.scanFraction (x ++ r) = (v, y ++ r)) :
    Numeral.scanFraction x = (v, y) := by
  have hx := Numeral.fraction_append_scan (x ++ r)
  rw [h, ← List.append_assoc] at hx
  have hx : Numeral.fractionText v ++ y = x := List.append_cancel_right hx
  cases x with
  | nil =>
    obtain ⟨hv, rfl⟩ := List.append_eq_nil_iff.mp hx
    cases v with
    | nil => rfl
    | cons d v => cases hv
  | cons c x =>
    by_cases hc : c = '.'
    · subst hc
      simp only [List.cons_append, Numeral.scanFraction] at h ⊢
      cases hdigits : (x ++ r).takeWhile Numeral.isDigit with
      | nil =>
        simp only [hdigits, ← List.cons_append, Prod.mk.injEq] at h
        simp only [takeWhile_eq_nil_of_append hdigits, Prod.mk.injEq]
        exact ⟨h.1, List.append_cancel_right h.2⟩
      | cons d ds =>
        simp only [hdigits, Prod.mk.injEq] at h
        obtain ⟨rfl, h⟩ := h
        obtain ⟨hdrop, htake⟩ := run_cut h
        simp only [htake, hdigits, hdrop]
    · rw [List.cons_append, scanFraction_cons hc, ← List.cons_append, Prod.mk.injEq] at h
      rw [scanFraction_cons hc]
      exact Prod.ext h.1 (List.append_cancel_right h.2)

/-- A power of ten that `Numeral.scanPower` reads before the cut is read without what stands behind
the cut. -/
theorem power_cut {v : Option (Char × Option Sign × List Char)}
    (h : Numeral.scanPower (x ++ r) = (v, y ++ r)) : Numeral.scanPower x = (v, y) := by
  have hx := Numeral.power_append_scan (x ++ r)
  rw [h, ← List.append_assoc] at hx
  have hx : Numeral.powerText v ++ y = x := List.append_cancel_right hx
  cases x with
  | nil =>
    obtain ⟨hv, rfl⟩ := List.append_eq_nil_iff.mp hx
    rcases v with _ | ⟨mark, sign, digits⟩
    · rfl
    · cases hv
  | cons c x =>
    rw [List.cons_append, Numeral.scanPower] at h
    rw [Numeral.scanPower]
    by_cases hc : c = 'e' ∨ c = 'E'
    · rw [if_pos hc] at h ⊢
      cases hdigits : (Sign.scan (x ++ r)).2.takeWhile Numeral.isDigit with
      | nil =>
        -- Without digits the mark does not belong to the number.
        simp only [hdigits, ← List.cons_append, Prod.mk.injEq] at h
        simp only [takeWhile_sign_eq_nil hdigits, Prod.mk.injEq]
        exact ⟨h.1, List.append_cancel_right h.2⟩
      | cons d ds =>
        simp only [hdigits, Prod.mk.injEq] at h
        have hafter := List.takeWhile_append_dropWhile (p := Numeral.isDigit)
          (l := (Sign.scan (x ++ r)).2)
        rw [hdigits, h.2, ← List.append_assoc] at hafter
        have hsign : Sign.scan x = ((Sign.scan (x ++ r)).1, d :: ds ++ y) :=
          sign_cut (Prod.ext rfl hafter.symm)
        rw [← hafter] at h hdigits
        obtain ⟨hdrop, htake⟩ := run_cut h.2
        simp only [hsign, hdrop, htake, hdigits, h.1]
    · rw [if_neg hc, ← List.cons_append, Prod.mk.injEq] at h
      rw [if_neg hc]
      exact Prod.ext h.1 (List.append_cancel_right h.2)

/-- A number that `Numeral.scan` reads before the cut is read without what stands behind the cut. -/
theorem numeral_cut {v : Numeral} (h : Numeral.scan (x ++ r) = (v, y ++ r)) :
    Numeral.scan x = (v, y) := by
  rcases hsign : Sign.scan (x ++ r) with ⟨sign, signed⟩
  rcases hfraction : Numeral.scanFraction (signed.dropWhile Numeral.isDigit) with ⟨fraction, whole⟩
  rcases hpower : Numeral.scanPower whole with ⟨power, rest⟩
  simp only [Numeral.scan, hsign, hfraction, hpower, Prod.mk.injEq] at h
  obtain ⟨rfl, rfl⟩ := h
  -- Each part leaves what the next parts read and all of `r` behind it.
  have hwhole := Numeral.power_append_scan whole
  rw [hpower, ← List.append_assoc] at hwhole
  subst hwhole
  have hdigits := Numeral.fraction_append_scan (signed.dropWhile Numeral.isDigit)
  rw [hfraction, ← List.append_assoc] at hdigits
  have hsigned := List.takeWhile_append_dropWhile (p := Numeral.isDigit) (l := signed)
  rw [← hdigits, ← List.append_assoc] at hsigned
  rw [← hsigned] at hsign hdigits hfraction
  obtain ⟨hdrop, htake⟩ := run_cut hdigits.symm
  rw [← hdigits] at hfraction
  rw [hsigned] at htake
  simp only [Numeral.scan, sign_cut hsign, htake, hdrop, fraction_cut hfraction, power_cut hpower]

/-- Digits stand at the front, as `Numeral.startsUnsigned` says, exactly if there are some before a
point or after it. -/
theorem startsUnsigned_iff (input : List Char) :
    Numeral.startsUnsigned input ↔ input.takeWhile Numeral.isDigit ≠ [] ∨
      (Numeral.scanFraction (input.dropWhile Numeral.isDigit)).1 ≠ [] := by
  have hdigit (rest : List Char) :
      Numeral.startsWithDigit rest ↔ rest.takeWhile Numeral.isDigit ≠ [] := by
    cases rest with
    | nil => simp [Numeral.startsWithDigit]
    | cons d rest => by_cases hd : Numeral.isDigit d <;> simp [Numeral.startsWithDigit, hd]
  cases input with
  | nil => simp [Numeral.startsUnsigned, Numeral.startsWithDigit, Numeral.scanFraction]
  | cons c rest =>
    by_cases hc : c = '.'
    · subst hc
      have hpoint : Numeral.isDigit '.' = false := by decide
      simp only [Numeral.startsUnsigned, hdigit, List.takeWhile_cons, List.dropWhile_cons, hpoint,
        Numeral.scanFraction]
      cases hrest : rest.takeWhile Numeral.isDigit <;> simp [hrest]
    · rw [startsUnsigned_cons hc]
      by_cases hd : Numeral.isDigit c <;> simp [hd, scanFraction_cons hc]

/-- A text that starts with a number does so without `r`, if all of `r` is left. -/
theorem startsWith_cut {v : Numeral} (hstart : Numeral.startsWith (x ++ r))
    (h : Numeral.scan (x ++ r) = (v, y ++ r)) : Numeral.startsWith x := by
  -- The digits are part of the number that is read, and that is the same for `x`.
  have hdigits (input : List Char) : Numeral.startsWith input ↔
      (Numeral.scan input).1.whole ≠ [] ∨ (Numeral.scan input).1.fraction ≠ [] :=
    startsUnsigned_iff (Sign.scan input).2
  rw [hdigits, h] at hstart
  rwa [hdigits, numeral_cut h]

theorem startsUnsigned_append (h : Numeral.startsUnsigned x) (r : List Char) :
    Numeral.startsUnsigned (x ++ r) := by
  cases x with
  | nil => cases h
  | cons c x =>
    by_cases hc : c = '.'
    · subst hc
      cases x with
      | nil => cases h
      | cons d x => exact h
    · rw [startsUnsigned_cons hc] at h
      rwa [List.cons_append, startsUnsigned_cons hc]

/-- A place where `Numeral.startsWith` holds stays one when the text goes on. -/
theorem startsWith_append (h : Numeral.startsWith x) (r : List Char) :
    Numeral.startsWith (x ++ r) := by
  cases x with
  | nil => cases h
  | cons c x =>
    rw [Numeral.startsWith, Sign.scan] at h
    rw [List.cons_append, Numeral.startsWith, Sign.scan]
    cases hc : Sign.ofChar? c with
    | none =>
      rw [hc] at h
      exact startsUnsigned_append h r
    | some sign =>
      rw [hc] at h
      exact startsUnsigned_append h r

/-! ## Where names start -/

/-- A place where `startsName` holds stays one when the text goes on. -/
theorem startsName_append (h : startsName x) (r : List Char) : startsName (x ++ r) := by
  cases x with
  | nil => cases h
  | cons c x =>
    by_cases hminus : c = '-'
    · subst hminus
      cases x with
      | nil => cases h
      | cons d x =>
        simp only [List.cons_append, startsName, Bool.or_eq_true, Bool.and_eq_true] at h ⊢
        exact h.imp_right fun h => ⟨h.1, startsEscape_append h.2 r⟩
    by_cases hbackslash : c = '\\'
    · subst hbackslash
      exact startsEscape_append h r
    · rw [startsName_cons hminus hbackslash] at h
      rwa [List.cons_append, startsName_cons hminus hbackslash]

/-- A `name` goes on behind each of its characters. -/
theorem rest_name_cons {c : Char} (hc : isNameChar c) (rest : List Char) :
    (name (c :: rest)).rest = (name rest).rest := by
  rw [name, if_pos hc, Scanned.rest_after]

/-- A `name` that starts with an escape reads a character behind the backslash. -/
theorem length_rest_name_escape {rest : List Char} (h : startsEscape rest) :
    (name ('\\' :: rest)).rest.length < rest.length := by
  cases rest with
  | nil => cases h
  | cons c rest =>
    rw [name, if_neg (by decide), if_pos ⟨rfl, h⟩, Scanned.rest_after]
    exact Nat.lt_of_le_of_lt (length_rest_le (name_append _)) (length_rest_escape_lt c rest)

/-- Behind `#` a name reads a character if it may start there. -/
theorem length_rest_name_lt {input : List Char} (h : startsHashName input) :
    (name input).rest.length < input.length := by
  cases input with
  | nil => cases h
  | cons c rest =>
    simp only [startsHashName, List.head?_cons, List.tail_cons, Option.any_some,
      Option.some.injEq, Bool.or_eq_true, Bool.and_eq_true, decide_eq_true_eq] at h
    rcases h with hc | ⟨rfl, hescape⟩
    · rw [rest_name_cons hc]
      exact Nat.lt_succ_of_le (length_rest_le (name_append rest))
    · exact Nat.lt_succ_of_lt (length_rest_name_escape hescape)

/-- A text that starts with a name does so without `r`, if the name leaves all of `r`. -/
theorem startsName_cut (hstart : startsName (x ++ r)) (h : (name (x ++ r)).rest = y ++ r) :
    startsName x := by
  cases x with
  | nil =>
    have hne := List.length_pos_iff.mpr (text_name_ne_nil hstart)
    have happend := congrArg List.length (name_append r)
    rw [List.nil_append] at h hne
    rw [List.length_append] at happend
    exact (false_of_length_lt h (by omega)).elim
  | cons c x =>
    by_cases hminus : c = '-'
    · subst hminus
      rw [List.cons_append, rest_name_cons (by decide)] at h
      cases x with
      | nil =>
        -- The name goes on with the first character of `r`.
        refine (false_of_length_lt h (length_rest_name_lt ?_)).elim
        cases r with
        | nil => cases hstart
        | cons d r =>
          simp only [List.nil_append, List.cons_append, startsName, Bool.or_eq_true,
            Bool.and_eq_true, decide_eq_true_eq] at hstart
          simp only [List.nil_append, startsHashName, isNameChar, List.head?_cons, List.tail_cons,
            Option.any_some, Option.some.injEq, Bool.or_eq_true, Bool.and_eq_true,
            decide_eq_true_eq]
          rcases hstart with (hd | hd) | hd
          · exact .inl (.inl (.inl hd))
          · exact .inl (.inr hd)
          · exact .inr hd
      | cons d x =>
        simp only [List.cons_append, startsName, Bool.or_eq_true, Bool.and_eq_true,
          decide_eq_true_eq] at hstart ⊢
        refine hstart.imp_right ?_
        rintro ⟨rfl, hescape⟩
        refine ⟨rfl, ?_⟩
        refine startsEscape_cut ?_ hescape
        rintro rfl
        exact false_of_length_lt h (length_rest_name_escape hescape)
    by_cases hbackslash : c = '\\'
    · subst hbackslash
      have hescape : startsEscape (x ++ r) := hstart
      refine startsEscape_cut ?_ hescape
      rintro rfl
      exact false_of_length_lt h (length_rest_name_escape hescape)
    · rw [List.cons_append, startsName_cons hminus hbackslash] at hstart
      rwa [startsName_cons hminus hbackslash]

/-- A place where `startsHashName` holds stays one when the text goes on. -/
theorem startsHashName_append (h : startsHashName x) (r : List Char) :
    startsHashName (x ++ r) := by
  cases x with
  | nil => cases h
  | cons c x =>
    simp only [List.cons_append, startsHashName, List.head?_cons, List.tail_cons, Bool.or_eq_true,
      Bool.and_eq_true] at h ⊢
    exact h.imp_right fun h => ⟨h.1, startsEscape_append h.2 r⟩

/-- Whether `startsHashName` holds is settled by the characters that the `name` has. -/
theorem startsHashName_cut (hstart : startsHashName (x ++ r))
    (h : (name (x ++ r)).rest = y ++ r) : startsHashName x := by
  cases x with
  | nil => exact (false_of_length_lt h (length_rest_name_lt hstart)).elim
  | cons c x =>
    simp only [List.cons_append, startsHashName, List.head?_cons, List.tail_cons, Option.any_some,
      Option.some.injEq, Bool.or_eq_true, Bool.and_eq_true, decide_eq_true_eq] at hstart ⊢
    refine hstart.imp_right ?_
    rintro ⟨rfl, hescape⟩
    refine ⟨rfl, ?_⟩
    refine startsEscape_cut ?_ hescape
    rintro rfl
    exact false_of_length_lt h (length_rest_name_escape hescape)

end Scan

end ThemeColor
