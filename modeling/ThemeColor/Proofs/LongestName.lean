import ThemeColor.Proofs.Continuation

/-!
# Names are read as far as they go

`Scan.IsName` is the language of texts that can go on in a name, and `Scan.IsIdentifier` that of
texts which are a name by themselves. An escape may be ended in more than one way, since the digits
behind it can be counted among its own or as characters of the name. The scanner takes all it can
take, so that it loses nothing: whatever is left of the name can still be read as one.

## Main results

* `Scan.isLongest_name`: where a name starts, the longest one is read;
* `Scan.startsName_iff`: a name starts exactly where one stands.
-/

namespace ThemeColor

/-- `part` is the longest of the texts with the property `P` at the front of `text`. -/
structure Text.IsLongest (P : List Char → Prop) (part text : List Char) : Prop where
  /-- It stands at the front of the text. -/
  isPrefix : part <+: text
  /-- It has the property. -/
  holds : P part
  /-- No other one is longer. -/
  length_le : ∀ other, P other → other <+: text → other.length ≤ part.length

namespace Scan

/-! ## Escapes and names -/

/-- An escape, without its backslash: one to six hexadecimal digits, perhaps with a blank behind
them, or another character that is no line end. -/
inductive IsEscape : List Char → Prop
  | code {digits : List Char} (hne : digits ≠ []) (hle : digits.length ≤ 6)
      (hdigits : ∀ d ∈ digits, isHexDigit d) : IsEscape digits
  | blank {digits : List Char} {b : Char} (hne : digits ≠ []) (hle : digits.length ≤ 6)
      (hdigits : ∀ d ∈ digits, isHexDigit d) (hb : isSpace b) : IsEscape (digits ++ [b])
  | char {c : Char} (hline : c ≠ '\n') (hhex : isHexDigit c = false) : IsEscape [c]

/-- A number of characters of names and of escapes. -/
inductive IsName : List Char → Prop
  | nil : IsName []
  | char {c : Char} {rest : List Char} (hc : isNameChar c) (hrest : IsName rest) :
      IsName (c :: rest)
  | escape {e rest : List Char} (he : IsEscape e) (hrest : IsName rest) :
      IsName ('\\' :: (e ++ rest))

/-- A name that can stand by itself: it does not start like a number, and it is not a lone dash. -/
structure IsIdentifier (text : List Char) : Prop where
  /-- It is made as names are. -/
  isName : IsName text
  /-- It is not empty. -/
  ne_nil : text ≠ []
  /-- It is not a dash. -/
  ne_dash : text ≠ ['-']
  /-- It does not start with a digit. -/
  no_digit : ∀ d rest, text = d :: rest → Numeral.isDigit d = false
  /-- It does not start with a dash and a digit. -/
  no_dash_digit : ∀ d rest, text = '-' :: d :: rest → Numeral.isDigit d = false

/-- A name stands at the front of the text. -/
def StartsIdentifier (text : List Char) : Prop := ∃ ident, IsIdentifier ident ∧ ident <+: text

theorem not_isHexDigit_of_isSpace {c : Char} (h : isSpace c) : isHexDigit c = false := by
  simp only [isSpace, Bool.or_eq_true, decide_eq_true_eq] at h
  rcases h with (((rfl | rfl) | rfl) | rfl) | rfl <;> decide

/-- A text that satisfies `IsName` goes on with a character of names or with an escape. -/
theorem isName_cons_iff {c : Char} {rest : List Char} :
    IsName (c :: rest) ↔ isNameChar c ∧ IsName rest ∨
      c = '\\' ∧ ∃ e more, rest = e ++ more ∧ IsEscape e ∧ IsName more := by
  constructor
  · generalize htext : c :: rest = text
    intro h
    cases h with
    | nil => cases htext
    | char hc hrest =>
      obtain ⟨rfl, rfl⟩ := List.cons.inj htext
      exact .inl ⟨hc, hrest⟩
    | escape he hrest =>
      obtain ⟨rfl, rfl⟩ := List.cons.inj htext
      exact .inr ⟨rfl, _, _, rfl, he, hrest⟩
  · rintro (⟨hc, hrest⟩ | ⟨rfl, e, more, rfl, he, hmore⟩)
    · exact .char hc hrest
    · exact .escape he hmore

namespace IsName

/-- Digits of a code can be taken away from the front of a name. -/
theorem of_append {digits rest : List Char} (hdigits : ∀ d ∈ digits, isHexDigit d)
    (h : IsName (digits ++ rest)) : IsName rest := by
  induction digits with
  | nil => exact h
  | cons d digits ih =>
    rw [List.forall_mem_cons] at hdigits
    rcases isName_cons_iff.mp h with ⟨-, hrest⟩ | ⟨rfl, -⟩
    · exact ih hdigits.2 hrest
    · -- A backslash is no digit.
      exact absurd hdigits.1 (by decide)

/-- A name does not start with a blank. -/
theorem not_isSpace {c : Char} {rest : List Char} (h : IsName (c :: rest)) : isSpace c = false := by
  rw [Bool.eq_false_iff]
  intro hspace
  simp only [isSpace, Bool.or_eq_true, decide_eq_true_eq] at hspace
  rcases isName_cons_iff.mp h with ⟨hc, -⟩ | ⟨rfl, -⟩
  · rcases hspace with (((rfl | rfl) | rfl) | rfl) | rfl <;> exact absurd hc (by decide)
  · simp at hspace

end IsName

/-! ## Reading an escape in front of a name -/

/-- A code is read by `escape` with all digits that follow. -/
theorem escape_code {digits : List Char} (hne : digits ≠ []) (hle : digits.length ≤ 6)
    (hdigits : ∀ d ∈ digits, isHexDigit d) (text : List Char) :
    ∃ more after d ds, text = more ++ after ∧ (∀ e ∈ more, isHexDigit e) ∧
      digits ++ more = d :: ds ∧ escape (digits ++ text) = hexEscape d ds after := by
  let more := (text.take (6 - digits.length)).takeWhile isHexDigit
  obtain ⟨after, hafter⟩ := exists_behind_digits (6 - digits.length) text
  obtain ⟨d, ds, hrun⟩ : ∃ d ds, digits ++ more = d :: ds :=
    List.exists_cons_of_ne_nil (by simp [hne])
  have htake : ((digits ++ text).take 6).takeWhile isHexDigit = digits ++ more := by
    rw [List.take_append, List.take_of_length_le hle, List.takeWhile_append_of_pos hdigits]
  refine ⟨more, after, d, ds, hafter.symm, fun e he => List.mem_takeWhile_imp he, hrun, ?_⟩
  rw [← hafter, ← List.append_assoc, hrun] at htake ⊢
  exact escape_hex htake

/-- An `escape` in front of a name is read, and behind it a name is left; or the escape takes all of
the name. -/
theorem IsEscape.exists_escape {e p : List Char} (he : IsEscape e) (hp : IsName p)
    (rest : List Char) :
    e ++ p <+: (escape (e ++ (p ++ rest))).text ∨
      ∃ q, IsName q ∧ q.length ≤ p.length ∧ e ++ p = (escape (e ++ (p ++ rest))).text ++ q ∧
        (escape (e ++ (p ++ rest))).rest = q ++ rest := by
  cases he with
  | @char c hline hhex =>
    have hread : escape ([c] ++ (p ++ rest)) = ⟨c, [c], p ++ rest⟩ := by
      simp only [escape, List.singleton_append, List.take_succ_cons]
      rw [List.takeWhile_cons_of_neg (by simp [hhex])]
    rw [hread]
    exact .inr ⟨p, hp, Nat.le_refl _, rfl, rfl⟩
  | @blank digits b hne hle hdigits hb =>
    obtain ⟨more, after, d, ds, htext, hmore, hrun, hread⟩ :=
      escape_code hne hle hdigits (b :: (p ++ rest))
    -- The blank is no digit, so that the code ends in front of it.
    cases more with
    | nil =>
      rw [List.nil_append] at htext
      rw [List.append_nil] at hrun
      rw [List.append_cons, hexEscape.eq_def, ← htext] at hread
      simp only [if_pos hb] at hread
      rw [hread, ← hrun]
      exact .inr ⟨p, hp, Nat.le_refl _, rfl, rfl⟩
    | cons m more =>
      rw [List.cons_append] at htext
      rw [List.forall_mem_cons, ← (List.cons.inj htext).1, not_isHexDigit_of_isSpace hb] at hmore
      exact absurd hmore.1 Bool.false_ne_true
  | code hne hle hdigits =>
    obtain ⟨more, after, d, ds, htext, hmore, hrun, hread⟩ :=
      escape_code hne hle hdigits (p ++ rest)
    rw [hread]
    have hcode : d :: ds <+: (hexEscape d ds after).text := by
      unfold hexEscape
      split
      · exact List.prefix_rfl
      · split
        · exact List.prefix_append _ _
        · exact List.prefix_rfl
    rcases List.append_eq_append_iff.mp htext with ⟨q, rfl, hrest⟩ | ⟨q, rfl, rfl⟩
    · -- All of the name is digits that belong to the code.
      left
      rw [← List.append_assoc] at hrun
      refine List.IsPrefix.trans ?_ hcode
      rw [← hrun]
      exact List.prefix_append _ _
    · have hq := hp.of_append hmore
      rw [← List.append_assoc, hrun]
      cases q with
      | nil =>
        left
        rw [List.append_nil]
        exact hcode
      | cons c q =>
        right
        refine ⟨c :: q, hq, by simp, ?_⟩
        simp only [List.cons_append, hexEscape, hq.not_isSpace]
        exact ⟨rfl, rfl⟩

/-! ## Names are read as far as they go -/

/-- Where an escape stands, `startsEscape` holds. -/
theorem IsEscape.startsEscape {e : List Char} (h : IsEscape e) (rest : List Char) :
    startsEscape (e ++ rest) := by
  have hdigit {digits tail : List Char} (hne : digits ≠ [])
      (hdigits : ∀ d ∈ digits, isHexDigit d) : Scan.startsEscape (digits ++ tail) := by
    obtain ⟨d, ds, rfl⟩ := List.exists_cons_of_ne_nil hne
    have hd : d ≠ '\n' := by
      rintro rfl
      exact absurd (hdigits _ List.mem_cons_self) (by decide)
    simpa [Scan.startsEscape] using hd
  cases h with
  | code hne hle hdigits => exact hdigit hne hdigits
  | blank hne hle hdigits =>
    rw [List.append_assoc]
    exact hdigit hne hdigits
  | char hline => simpa [Scan.startsEscape] using hline

/-- Every front part of a text that satisfies `IsName` is a front part of what `name` reads. -/
theorem IsName.isPrefix_name {p : List Char} (h : IsName p) (rest : List Char) :
    p <+: (name (p ++ rest)).text := by
  -- The escape may take some characters of the name along, so the induction is on its length.
  induction hlength : p.length using Nat.strongRecOn generalizing p with
  | ind n ih =>
    subst hlength
    cases h with
    | nil => exact List.nil_prefix
    | @char c p hc hp =>
      rw [List.cons_append, name, if_pos hc]
      exact List.cons_prefix_cons.mpr ⟨rfl, ih p.length (by simp) hp rfl⟩
    | @escape e p he hp =>
      rw [List.cons_append, List.append_assoc, name, if_neg (by decide),
        if_pos ⟨rfl, he.startsEscape _⟩]
      simp only [Scanned.after, List.cons_append, List.cons_prefix_cons, true_and]
      rcases he.exists_escape hp rest with hfront | ⟨q, hq, hle, htext, hrest⟩
      · exact hfront.trans (List.prefix_append _ _)
      · rw [htext, hrest, List.prefix_append_right_inj]
        exact ih q.length (by simp; omega) hq rfl

/-- The text that `escape` reads satisfies `IsEscape`. -/
theorem isEscape_escape {input : List Char} (h : startsEscape input) :
    IsEscape (escape input).text := by
  unfold escape
  split
  · rename_i hnone
    cases input with
    | nil => cases h
    | cons c rest =>
      have hhex : isHexDigit c = false := by
        rw [Bool.eq_false_iff]
        intro hc
        simp [hc] at hnone
      exact .char (by simpa [startsEscape] using h) hhex
  · rename_i d ds hrun
    have hle : (d :: ds).length ≤ 6 := by
      rw [← hrun]
      exact (List.takeWhile_sublist _).length_le.trans (List.length_take_le _ _)
    have hdigits : ∀ e ∈ d :: ds, isHexDigit e := by
      rw [← hrun]
      exact fun e he => List.mem_takeWhile_imp he
    dsimp only
    split
    · exact .code (List.cons_ne_nil _ _) hle hdigits
    · split
      · rename_i hspace
        exact .blank (List.cons_ne_nil _ _) hle hdigits hspace
      · exact .code (List.cons_ne_nil _ _) hle hdigits

/-- The text that `name` reads satisfies `IsName`. -/
theorem isName_name (input : List Char) : IsName (name input).text := by
  fun_induction name input with
  | case1 => exact .nil
  | case2 c rest hc ih => exact .char hc ih
  | case3 c rest hc hescape e ih =>
    obtain ⟨rfl, hstarts⟩ := hescape
    exact .escape (isEscape_escape hstarts) ih
  | case4 => exact .nil

/-! ## Where names start -/

/-- A name that starts as an identifier does satisfies `IsIdentifier`. -/
theorem IsIdentifier.of_isPrefix {ident text : List Char} (h : IsIdentifier ident)
    (hfront : ident <+: text) (hname : IsName text) : IsIdentifier text := by
  obtain ⟨rest, rfl⟩ := hfront
  obtain ⟨c, more, rfl⟩ := List.exists_cons_of_ne_nil h.ne_nil
  have hmore (hc : c = '-') : more ≠ [] := by
    rintro rfl
    exact h.ne_dash (by rw [hc])
  refine ⟨hname, by simp, fun heq => ?_, fun d tail heq => ?_, fun d tail heq => ?_⟩
  · obtain ⟨hc, hnil⟩ := List.cons.inj heq
    exact hmore hc (List.append_eq_nil_iff.mp hnil).1
  · obtain ⟨rfl, -⟩ := List.cons.inj heq
    exact h.no_digit c more rfl
  · obtain ⟨rfl, htail⟩ := List.cons.inj heq
    obtain ⟨e, more, rfl⟩ := List.exists_cons_of_ne_nil (hmore rfl)
    obtain ⟨rfl, -⟩ := List.cons.inj htail
    exact h.no_dash_digit e more rfl

theorem IsName.isIdentifier {c : Char} {rest : List Char} (h : IsName (c :: rest)) (hdash : c ≠ '-')
    (hdigit : Numeral.isDigit c = false) : IsIdentifier (c :: rest) := by
  refine ⟨h, by simp, fun heq => hdash (List.cons.inj heq).1, fun d tail heq => ?_,
    fun d tail heq => absurd (List.cons.inj heq).1 hdash⟩
  rwa [← (List.cons.inj heq).1]

theorem IsName.isIdentifier_dash {c : Char} {rest : List Char} (h : IsName (c :: rest))
    (hdigit : Numeral.isDigit c = false) : IsIdentifier ('-' :: c :: rest) := by
  refine ⟨.char (by decide) h, by simp, by simp, fun d tail heq => ?_, fun d tail heq => ?_⟩
  · rw [← (List.cons.inj heq).1]
    decide
  · rwa [← (List.cons.inj (List.cons.inj heq).2).1]

theorem isName_singleton {c : Char} (h : isNameChar c) : IsName [c] := .char h .nil

/-- The escape behind a backslash is a name by itself. -/
theorem exists_isName_escape {rest : List Char} (h : startsEscape rest) :
    ∃ tail, IsName ('\\' :: tail) ∧ tail <+: rest := by
  refine ⟨(escape rest).text, ?_, _, escape_append rest⟩
  have hname := IsName.escape (isEscape_escape h) .nil
  rwa [List.append_nil] at hname

/-- Where `startsName` holds, a name stands. -/
theorem startsIdentifier_of_startsName {input : List Char} (h : startsName input) :
    StartsIdentifier input := by
  have hstart {c : Char} (hc : isNameStart c) : isNameChar c := by simp [isNameChar, hc]
  unfold startsName at h
  split at h
  · rename_i c rest
    simp only [Bool.or_eq_true, Bool.and_eq_true, decide_eq_true_eq] at h
    rcases h with (hc | rfl) | ⟨rfl, hescape⟩
    · exact ⟨['-', c], (isName_singleton (hstart hc)).isIdentifier_dash
        (not_isDigit_of_isNameStart hc), rest, rfl⟩
    · exact ⟨['-', '-'], (isName_singleton (by decide)).isIdentifier_dash (by decide), rest, rfl⟩
    · obtain ⟨tail, htail, hfront⟩ := exists_isName_escape hescape
      exact ⟨'-' :: '\\' :: tail, htail.isIdentifier_dash (by decide),
        List.cons_prefix_cons.mpr ⟨rfl, List.cons_prefix_cons.mpr ⟨rfl, hfront⟩⟩⟩
  · rename_i rest
    obtain ⟨tail, htail, hfront⟩ := exists_isName_escape h
    exact ⟨'\\' :: tail, htail.isIdentifier (by decide) (by decide),
      List.cons_prefix_cons.mpr ⟨rfl, hfront⟩⟩
  · rename_i c rest _ _
    have hdash : c ≠ '-' := by
      rintro rfl
      exact absurd h (by decide)
    exact ⟨[c], (isName_singleton (hstart h)).isIdentifier hdash (not_isDigit_of_isNameStart h),
      rest, rfl⟩
  · cases h

/-- Where a text stands that satisfies `IsIdentifier`, `startsName` holds. -/
theorem IsIdentifier.startsName {ident : List Char} (h : IsIdentifier ident) :
    startsName ident := by
  obtain ⟨c, more, rfl⟩ := List.exists_cons_of_ne_nil h.ne_nil
  -- A character of names that is no digit starts one, or it is a dash.
  have hchar {d : Char} (hd : isNameChar d) (hdigit : Numeral.isDigit d = false) :
      isNameStart d ∨ d = '-' := by
    simpa [isNameChar, show d.isDigit = false from hdigit] using hd
  rcases isName_cons_iff.mp h.isName with ⟨hc, hmore⟩ | ⟨rfl, e, tail, rfl, he, -⟩
  · by_cases hdash : c = '-'
    · subst hdash
      cases more with
      | nil => exact absurd rfl h.ne_dash
      | cons d tail =>
        simp only [Scan.startsName, Bool.or_eq_true, Bool.and_eq_true, decide_eq_true_eq]
        rcases isName_cons_iff.mp hmore with ⟨hd, -⟩ | ⟨rfl, e, tail, rfl, he, -⟩
        · exact .inl (hchar hd (h.no_dash_digit d tail rfl))
        · exact .inr ⟨rfl, he.startsEscape tail⟩
    · have hslash : c ≠ '\\' := by
        rintro rfl
        exact absurd hc (by decide)
      rw [startsName_cons hdash hslash]
      exact (hchar hc (h.no_digit c more rfl)).resolve_right hdash
  · exact he.startsEscape tail

/-- A name starts, as `startsName` says, exactly where one stands. -/
theorem startsName_iff {input : List Char} : startsName input ↔ StartsIdentifier input := by
  refine ⟨startsIdentifier_of_startsName, ?_⟩
  rintro ⟨ident, hident, rest, rfl⟩
  exact startsName_append hident.startsName rest

/-- Where a name starts, `name` reads the longest one. -/
theorem isLongest_name {input : List Char} (h : startsName input) :
    Text.IsLongest IsIdentifier (name input).text input := by
  have hlongest {other : List Char} (hother : IsName other) (hfront : other <+: input) :
      other <+: (name input).text := by
    obtain ⟨rest, rfl⟩ := hfront
    exact hother.isPrefix_name rest
  obtain ⟨ident, hident, hfront⟩ := startsName_iff.mp h
  exact {
    isPrefix := ⟨_, name_append input⟩
    holds := hident.of_isPrefix (hlongest hident.isName hfront) (isName_name input)
    length_le := fun other hother hfront => (hlongest hother.isName hfront).length_le }

end Scan

end ThemeColor
