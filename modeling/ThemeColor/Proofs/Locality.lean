import ThemeColor.Proofs.ComponentValue

/-!
# Scanning up to a closing parenthesis

A closing parenthesis ends every token that does not take it along: no scanner looks at what stands
behind it. So in front of one a scanner either stops, and then it reads the same whatever follows
the parenthesis, or it passes the parenthesis. `Scan.Local` says this of a scanner;
`Scan.token_local` and `Scan.comments_local` prove it of tokens and of the comments between them.
-/

namespace ThemeColor

namespace Scan

variable {α β : Type}

/-- The scanner stops in front of the parenthesis behind `x`, in the same way whatever follows. -/
def Stops (scan : List Char → Scanned α) (x : List Char) : Prop :=
  ∃ value text left, ∀ r, scan (x ++ ')' :: r) = ⟨value, text, left ++ ')' :: r⟩

/-- The scanner reads the parenthesis behind `x`. -/
def Passes (scan : List Char → Scanned α) (x : List Char) : Prop :=
  ∀ r, (scan (x ++ ')' :: r)).rest.length ≤ r.length

/-- What the scanner reads of `x` in front of a parenthesis depends on `x` alone. -/
def Local (scan : List Char → Scanned α) (x : List Char) : Prop := Stops scan x ∨ Passes scan x

/-- A scanner that leaves the parenthesis and all behind it alone is `Local`. -/
theorem local_of_eq {scan : List Char → Scanned α} {x : List Char} (value : α)
    (text left : List Char) (h : ∀ r, scan (x ++ ')' :: r) = ⟨value, text, left ++ ')' :: r⟩) :
    Local scan x :=
  .inl ⟨value, text, left, h⟩

/-- A scanner that first reads some fixed characters is as `Local` as the one it goes on with. -/
theorem Local.of_after {scan : List Char → Scanned α} {scan' : List Char → Scanned β}
    {x x' : List Char} (h : Local scan x) (front : List Char) (f : α → β)
    (heq : ∀ r, scan' (x' ++ ')' :: r) = (scan (x ++ ')' :: r)).after front f) :
    Local scan' x' := by
  rcases h with ⟨value, text, left, h⟩ | h
  · exact local_of_eq (f value) (front ++ text) left fun r => by rw [heq, h]; rfl
  · refine .inr fun r => ?_
    rw [heq, Scanned.rest_after]
    exact h r

/-- A scanner that scans what a `Local` one scans is local. -/
theorem Local.congr {scan : List Char → Scanned α} {scan' : List Char → Scanned α}
    {x x' : List Char} (h : Local scan x)
    (heq : ∀ r, scan' (x' ++ ')' :: r) = scan (x ++ ')' :: r)) : Local scan' x' := by
  unfold Local Stops Passes at *
  simpa only [heq] using h

/-- What is left of a text that was `Scanned` is no longer than the text. -/
theorem length_rest_le {s : Scanned α} {input : List Char} (h : s.text ++ s.rest = input) :
    s.rest.length ≤ input.length := by
  rw [← h, List.length_append]
  omega

theorem dropWhile_append_cons {p : Char → Bool} {b : Char} (hb : p b = false) (x r : List Char) :
    (x ++ b :: r).dropWhile p = x.dropWhile p ++ b :: r := by
  induction x with
  | nil => simp [hb]
  | cons c x ih =>
    rw [List.cons_append, List.dropWhile_cons, List.dropWhile_cons, ih]
    split <;> rfl

theorem takeWhile_append_cons {p : Char → Bool} {b : Char} (hb : p b = false) (x r : List Char) :
    (x ++ b :: r).takeWhile p = x.takeWhile p := by
  induction x with
  | nil => simp [hb]
  | cons c x ih => rw [List.cons_append, List.takeWhile_cons, List.takeWhile_cons, ih]

/-! ## Escapes and names -/

/-- An `escape` never reads a parenthesis that stands behind what it could read. -/
theorem escape_local (x : List Char) : Local escape x := by
  -- At most six digits are read, and the parenthesis is none.
  have hdigits (r : List Char) : ((x ++ ')' :: r).take 6).takeWhile isHexDigit =
      (x.takeWhile isHexDigit).take 6 := by
    rw [← List.take_takeWhile, takeWhile_append_cons (by decide)]
  cases h : (x.takeWhile isHexDigit).take 6 with
  | nil =>
    simp only [h] at hdigits
    cases x with
    | nil =>
      refine .inr fun r => ?_
      simp only [escape, hdigits r]
      exact Nat.le_refl _
    | cons c x =>
      refine local_of_eq c [c] x fun r => ?_
      simp only [escape, hdigits r]
      rfl
  | cons d ds =>
    simp only [h] at hdigits
    -- Behind the digits of `x` the escape ends, with a blank that belongs to it if there is one.
    obtain ⟨y, hy⟩ : ∃ y, d :: ds ++ y = x := by
      refine ⟨(x.takeWhile isHexDigit).drop 6 ++ x.dropWhile isHexDigit, ?_⟩
      rw [← h, ← List.append_assoc, List.take_append_drop, List.takeWhile_append_dropWhile]
    have hdrop (r : List Char) : (x ++ ')' :: r).drop (d :: ds).length = y ++ ')' :: r := by
      rw [← hy, List.append_assoc, List.drop_left]
    let char := charOfCode (hexValue (d :: ds))
    cases y with
    | nil =>
      refine local_of_eq char (d :: ds) [] fun r => ?_
      simp only [escape, hdigits r, hdrop r]
      rfl
    | cons c y =>
      cases hc : isSpace c with
      | false =>
        refine local_of_eq char (d :: ds) (c :: y) fun r => ?_
        simp only [escape, hdigits r, hdrop r, List.cons_append, hc]
        rfl
      | true =>
        refine local_of_eq char (d :: ds ++ [c]) y fun r => ?_
        simp only [escape, hdigits r, hdrop r, List.cons_append, hc]
        rfl

/-- A scanner that goes on behind an `escape` is local if it is local on what an escape can leave.
-/
theorem Local.of_escape {scan : List Char → Scanned α} {scan' : List Char → Scanned β}
    {x x' : List Char} (hscan : ∀ left, left.length ≤ x.length → Local scan left)
    (hle : ∀ input, (scan input).rest.length ≤ input.length) (front : List Char → List Char)
    (f : Char → α → β)
    (heq : ∀ r, scan' (x' ++ ')' :: r) = (scan (escape (x ++ ')' :: r)).rest).after
      (front (escape (x ++ ')' :: r)).text) (f (escape (x ++ ')' :: r)).value)) :
    Local scan' x' := by
  -- Either the escape stops in front of the parenthesis, or the scan goes on behind it.
  rcases escape_local x with ⟨char, text, left, h⟩ | h
  · have hlength : left.length ≤ x.length := by
      have := length_rest_escape_le (x ++ [')'])
      rw [h] at this
      simpa using this
    exact (hscan left hlength).of_after (front text) (f char) fun r => by rw [heq, h]
  · refine .inr fun r => ?_
    rw [heq, Scanned.rest_after]
    exact Nat.le_trans (hle _) (h r)

/-- Whether an escape starts in front of a parenthesis does not depend on what follows:
`startsEscape` looks at one character. -/
theorem startsEscape_close (x r : List Char) :
    startsEscape (x ++ ')' :: r) = startsEscape (x ++ [')']) := by
  cases x <;> rfl

/-- A `name` ends in front of a parenthesis, unless it is escaped. -/
theorem name_local (x : List Char) : Local name x := by
  induction hlength : x.length using Nat.strongRecOn generalizing x with
  | ind n ih =>
    subst hlength
    cases x with
    | nil =>
      refine local_of_eq [] [] [] fun r => ?_
      rw [List.nil_append, name, if_neg (by decide), if_neg (by simp)]
    | cons c x =>
      by_cases hc : isNameChar c
      · exact (ih x.length (by simp) x rfl).of_after [c] (c :: ·) fun r => by
          rw [List.cons_append, name, if_pos hc]
      · by_cases hescape : c = '\\' ∧ startsEscape (x ++ [')'])
        · refine Local.of_escape (x := x) (fun left hleft => ih left.length ?_ left rfl)
            (fun input => length_rest_le (name_append input)) (c :: ·) (· :: ·) fun r => ?_
          · rw [List.length_cons]
            omega
          · rw [← startsEscape_close x r] at hescape
            rw [List.cons_append, name, if_neg hc, if_pos hescape]
        · refine local_of_eq [] [] (c :: x) fun r => ?_
          rw [← startsEscape_close x r] at hescape
          rw [List.cons_append, name, if_neg hc, if_neg hescape]

/-! ## Quoted texts and addresses -/

/-- A quoted text that `stringBody` reads ends behind the parenthesis or does not depend on what
stands there. -/
theorem stringBody_local {quote : Char} (hquote : quote ≠ ')') (x : List Char) :
    Local (stringBody quote) x := by
  have hle (input : List Char) : (stringBody quote input).rest.length ≤ input.length :=
    length_rest_le (stringBody_append quote input)
  induction hlength : x.length using Nat.strongRecOn generalizing x with
  | ind n ih =>
    subst hlength
    cases x with
    | nil =>
      refine .inr fun r => ?_
      rw [List.nil_append, stringBody.eq_def]
      dsimp only
      -- The parenthesis is an ordinary character of a quoted text that is still open.
      rw [if_neg hquote.symm, if_neg (by decide), if_neg (by decide)]
      exact hle r
    | cons c x =>
      by_cases hend : c = quote
      · refine local_of_eq (some []) [c] x fun r => ?_
        rw [List.cons_append, stringBody.eq_def]
        exact if_pos hend
      by_cases hline : c = '\n'
      · refine local_of_eq none [] (c :: x) fun r => ?_
        rw [List.cons_append, stringBody.eq_def]
        dsimp only
        rw [if_neg hend, if_pos hline]
      by_cases hbackslash : c = '\\'
      · -- The character behind the backslash is the parenthesis or belongs to `x`.
        have hescape (h : x.head? ≠ some '\n') : Local (stringBody quote) (c :: x) := by
          refine Local.of_escape (x := x) (fun left hleft => ih left.length ?_ left rfl) hle
            (c :: ·) (fun char => Option.map (char :: ·)) fun r => ?_
          · rw [List.length_cons]
            omega
          · rw [List.cons_append, stringBody.eq_def]
            dsimp only
            rw [if_neg hend, if_neg hline, if_pos hbackslash]
            cases x with
            | nil => rfl
            | cons d x => exact if_neg fun hd => h (congrArg some hd)
        -- A line end behind a backslash is left out of the text that is read.
        by_cases h : x.head? = some '\n'
        · obtain ⟨x, rfl⟩ : ∃ y, x = '\n' :: y := by
            cases x with
            | nil => cases h
            | cons d x => exact ⟨x, by rw [Option.some.inj h]⟩
          refine (ih x.length ?_ x rfl).of_after [c, '\n'] id fun r => ?_
          · simp only [List.length_cons]
            omega
          · rw [List.cons_append, stringBody.eq_def]
            dsimp only
            rw [if_neg hend, if_neg hline, if_pos hbackslash]
            rfl
        · exact hescape h
      · refine (ih x.length (by simp) x rfl).of_after [c] (Option.map (c :: ·)) fun r => ?_
        rw [List.cons_append, stringBody.eq_def]
        dsimp only
        rw [if_neg hend, if_neg hline, if_neg hbackslash]

/-- A bad address that `badUrlRest` reads ends with a parenthesis, unless it is escaped. -/
theorem badUrlRest_local (x : List Char) : Local badUrlRest x := by
  have hle (input : List Char) : (badUrlRest input).rest.length ≤ input.length :=
    length_rest_le (badUrlRest_append input)
  induction hlength : x.length using Nat.strongRecOn generalizing x with
  | ind n ih =>
    subst hlength
    cases x with
    | nil =>
      refine .inr fun r => ?_
      exact Nat.le_of_eq (by rw [List.nil_append, badUrlRest, if_pos rfl])
    | cons c x =>
      by_cases hend : c = ')'
      · exact local_of_eq () [c] x fun r => by rw [List.cons_append, badUrlRest, if_pos hend]
      -- The parenthesis is the last character that can decide whether an escape starts.
      by_cases hescape : c = '\\' ∧ startsEscape (x ++ [')'])
      · refine Local.of_escape (x := x) (fun left hleft => ih left.length ?_ left rfl) hle (c :: ·)
          (fun _ => id) fun r => ?_
        · rw [List.length_cons]
          omega
        · rw [← startsEscape_close x r] at hescape
          rw [List.cons_append, badUrlRest, if_neg hend, if_pos hescape]
      · refine (ih x.length (by simp) x rfl).of_after [c] id fun r => ?_
        rw [← startsEscape_close x r] at hescape
        rw [List.cons_append, badUrlRest, if_neg hend, if_neg hescape]

/-- An address that `urlBody` reads ends with a parenthesis, unless it is escaped. -/
theorem urlBody_local (x : List Char) : Local urlBody x := by
  have hle (input : List Char) : (urlBody input).rest.length ≤ input.length :=
    length_rest_le (urlBody_append input)
  induction hlength : x.length using Nat.strongRecOn generalizing x with
  | ind n ih =>
    subst hlength
    cases x with
    | nil =>
      refine .inr fun r => ?_
      exact Nat.le_of_eq (by rw [List.nil_append, urlBody, if_pos rfl])
    | cons c x =>
      by_cases hend : c = ')'
      · exact local_of_eq (some []) [c] x fun r => by rw [List.cons_append, urlBody, if_pos hend]
      by_cases hspace : isSpace c
      · have hblanks (r : List Char) : (x ++ ')' :: r).takeWhile isSpace = x.takeWhile isSpace :=
          takeWhile_append_cons (by decide) x r
        have hinside (r : List Char) :
            (x ++ ')' :: r).dropWhile isSpace = x.dropWhile isSpace ++ ')' :: r :=
          dropWhile_append_cons (by decide) x r
        -- The blanks in front of the parenthesis belong to the address, and so does the
        -- parenthesis.
        cases hx : x.dropWhile isSpace with
        | nil =>
          refine .inr fun r => ?_
          rw [List.cons_append, urlBody, if_neg hend, if_pos hspace]
          simp only [hinside r, hx]
          exact Nat.le_refl _
        | cons d y =>
          by_cases hd : d = ')'
          · refine local_of_eq (some []) (c :: x.takeWhile isSpace ++ [d]) y fun r => ?_
            rw [List.cons_append, urlBody, if_neg hend, if_pos hspace]
            simp only [hinside r, hblanks r, hx, List.cons_append, if_pos hd]
          · refine (badUrlRest_local (d :: y)).of_after (c :: x.takeWhile isSpace)
              (fun _ => none) fun r => ?_
            rw [List.cons_append, urlBody, if_neg hend, if_pos hspace]
            simp only [hinside r, hblanks r, hx, List.cons_append, if_neg hd]
      by_cases hbad : c = '"' ∨ c = '\'' ∨ c = '('
      · exact (badUrlRest_local x).of_after [c] (fun _ => none) fun r => by
          rw [List.cons_append, urlBody, if_neg hend, if_neg hspace, if_pos hbad]
      by_cases hbackslash : c = '\\'
      · by_cases hescape : startsEscape (x ++ [')'])
        · refine Local.of_escape (x := x) (fun left hleft => ih left.length ?_ left rfl) hle
            (c :: ·) (fun char => Option.map (char :: ·)) fun r => ?_
          · rw [List.length_cons]
            omega
          · rw [← startsEscape_close x r] at hescape
            rw [List.cons_append, urlBody, if_neg hend, if_neg hspace, if_neg hbad,
              if_pos hbackslash, if_pos hescape]
        · refine (badUrlRest_local x).of_after [c] (fun _ => none) fun r => ?_
          rw [← startsEscape_close x r] at hescape
          rw [List.cons_append, urlBody, if_neg hend, if_neg hspace, if_neg hbad,
            if_pos hbackslash, if_neg hescape]
      · exact (ih x.length (by simp) x rfl).of_after [c] (Option.map (c :: ·)) fun r => by
          rw [List.cons_append, urlBody, if_neg hend, if_neg hspace, if_neg hbad,
            if_neg hbackslash]

/-! ## Numbers -/

/-- The part that is split off in front of the parenthesis behind `x` is the same whatever
follows. -/
def Splits (scan : List Char → α × List Char) (x : List Char) : Prop :=
  ∃ value left, ∀ r, scan (x ++ ')' :: r) = (value, left ++ ')' :: r)

/-- A parenthesis is no sign, so `Sign.scan` leaves it alone. -/
theorem sign_splits (x : List Char) : Splits Sign.scan x := by
  cases x with
  | nil => exact ⟨none, [], fun r => rfl⟩
  | cons c x =>
    cases h : Sign.ofChar? c with
    | none => exact ⟨none, c :: x, fun r => by simp [Sign.scan, h]⟩
    | some sign => exact ⟨some sign, x, fun r => by simp [Sign.scan, h]⟩

/-- A parenthesis ends the digits that `Numeral.scanFraction` reads. -/
theorem fraction_splits (x : List Char) : Splits Numeral.scanFraction x := by
  cases x with
  | nil => exact ⟨[], [], fun r => rfl⟩
  | cons c x =>
    by_cases hc : c = '.'
    · subst hc
      have hdigits := takeWhile_append_cons (p := Numeral.isDigit) (b := ')') (by decide) x
      have hrest := dropWhile_append_cons (p := Numeral.isDigit) (b := ')') (by decide) x
      cases h : x.takeWhile Numeral.isDigit with
      | nil =>
        refine ⟨[], '.' :: x, fun r => ?_⟩
        simp only [List.cons_append, Numeral.scanFraction, hdigits r, h]
      | cons d ds =>
        refine ⟨d :: ds, x.dropWhile Numeral.isDigit, fun r => ?_⟩
        simp only [List.cons_append, Numeral.scanFraction, hdigits r, h, hrest r]
    · refine ⟨[], c :: x, fun r => ?_⟩
      unfold Numeral.scanFraction
      split
      · rename_i heq
        exact absurd (List.cons.inj heq).1 hc
      · rfl

/-- A parenthesis ends the power of ten that `Numeral.scanPower` reads. -/
theorem power_splits (x : List Char) : Splits Numeral.scanPower x := by
  cases x with
  | nil => exact ⟨none, [], fun r => rfl⟩
  | cons c x =>
    by_cases hc : c = 'e' ∨ c = 'E'
    · obtain ⟨sign, left, hsign⟩ := sign_splits x
      have hdigits := takeWhile_append_cons (p := Numeral.isDigit) (b := ')') (by decide) left
      have hrest := dropWhile_append_cons (p := Numeral.isDigit) (b := ')') (by decide) left
      cases h : left.takeWhile Numeral.isDigit with
      | nil =>
        refine ⟨none, c :: x, fun r => ?_⟩
        simp only [List.cons_append, Numeral.scanPower, if_pos hc, hsign r, hdigits r, h]
      | cons d ds =>
        refine ⟨some (c, sign, d :: ds), left.dropWhile Numeral.isDigit, fun r => ?_⟩
        simp only [List.cons_append, Numeral.scanPower, if_pos hc, hsign r, hdigits r, h, hrest r]
    · exact ⟨none, c :: x, fun r => by simp only [List.cons_append, Numeral.scanPower, if_neg hc]⟩

/-- A parenthesis ends a number that `Numeral.scan` reads. -/
theorem numeral_splits (x : List Char) : Splits Numeral.scan x := by
  obtain ⟨sign, left, hsign⟩ := sign_splits x
  obtain ⟨fraction, left', hfraction⟩ := fraction_splits (left.dropWhile Numeral.isDigit)
  obtain ⟨power, left'', hpower⟩ := power_splits left'
  have hdigits := takeWhile_append_cons (p := Numeral.isDigit) (b := ')') (by decide) left
  have hrest := dropWhile_append_cons (p := Numeral.isDigit) (b := ')') (by decide) left
  refine ⟨⟨sign, left.takeWhile Numeral.isDigit, fraction, power⟩, left'', fun r => ?_⟩
  simp only [Numeral.scan, hsign r, hdigits r, hrest r, hfraction r, hpower r]

/-- Whether `startsName` finds a name in front of a parenthesis does not depend on what follows. -/
theorem startsName_close (x r : List Char) :
    startsName (x ++ ')' :: r) = startsName (x ++ [')']) := by
  cases x with
  | nil => rfl
  | cons c x =>
    by_cases hminus : c = '-'
    · subst hminus
      cases x with
      | nil => rfl
      | cons d x => simp only [List.cons_append, startsName, startsEscape_close x r]
    by_cases hbackslash : c = '\\'
    · subst hbackslash
      exact startsEscape_close x r
    · rw [List.cons_append, List.cons_append, startsName_cons hminus hbackslash,
        startsName_cons hminus hbackslash]

/-- Whether `Numeral.startsWith` finds a number in front of a parenthesis does not depend on what
follows. -/
theorem startsWith_close (x r : List Char) :
    Numeral.startsWith (x ++ ')' :: r) = Numeral.startsWith (x ++ [')']) := by
  obtain ⟨sign, left, hsign⟩ := sign_splits x
  rw [Numeral.startsWith, Numeral.startsWith, hsign r, hsign []]
  cases left with
  | nil => rfl
  | cons c left =>
    by_cases hpoint : c = '.'
    · subst hpoint
      cases left <;> rfl
    · rw [List.cons_append, List.cons_append, startsUnsigned_cons hpoint,
        startsUnsigned_cons hpoint]

/-- Whether `startsHashName` finds a name in front of a parenthesis does not depend on what follows.
-/
theorem startsHashName_close (x r : List Char) :
    startsHashName (x ++ ')' :: r) = startsHashName (x ++ [')']) := by
  cases x with
  | nil => rfl
  | cons c x => simp [startsHashName, startsEscape_close x r]

/-! ## Tokens -/

section Numeric

variable {input left after : List Char} {value : Numeral}

/-- A percent sign directly behind the number belongs to what `numeric` reads. -/
theorem numeric_percentage (hscan : Numeral.scan input = (value, '%' :: after))
    (hunit : ¬ startsName ('%' :: after)) :
    numeric input = ⟨.percentage value, value.text ++ ['%'], after⟩ := by
  simp only [numeric, hscan]
  exact if_neg hunit

/-- With neither a unit nor a percent sign behind it, `numeric` reads a plain number. -/
theorem numeric_number (hscan : Numeral.scan input = (value, left)) (hunit : ¬ startsName left)
    (hpercent : left.head? ≠ some '%') : numeric input = ⟨.number value, value.text, left⟩ := by
  simp only [numeric, hscan]
  rw [if_neg hunit]
  split
  · exact absurd rfl hpercent
  · rfl

end Numeric

/-- A `numeric` token is local, as its number and its unit are. -/
theorem numeric_local (x : List Char) : Local numeric x := by
  obtain ⟨value, left, hscan⟩ := numeral_splits x
  -- Behind the number stands a unit, a percent sign or something else.
  by_cases hunit : startsName (left ++ [')'])
  · refine (name_local left).of_after value.text
      (fun unit => .dimension value (String.ofList unit)) fun r => ?_
    rw [← startsName_close left r] at hunit
    simp only [numeric, hscan r, if_pos hunit]
  · replace hunit (r : List Char) : ¬ startsName (left ++ ')' :: r) := by rwa [startsName_close]
    by_cases hpercent : left.head? = some '%'
    · obtain ⟨after, rfl⟩ := List.head?_eq_some_iff.mp hpercent
      exact local_of_eq (.percentage value) (value.text ++ ['%']) after fun r =>
        numeric_percentage (hscan r) (hunit r)
    · refine local_of_eq (.number value) value.text left fun r =>
        numeric_number (hscan r) (hunit r) ?_
      cases left with
      | nil => simp
      | cons c left => exact hpercent

/-- What `urlOrFunction` reads behind a name is local, as addresses are. -/
theorem urlOrFunction_local (word : String) (x : List Char) : Local (urlOrFunction word) x := by
  have hblanks := takeWhile_append_cons (p := isSpace) (b := ')') (by decide) x
  have hinside := dropWhile_append_cons (p := isSpace) (b := ')') (by decide) x
  have hhead (r : List Char) : (x.dropWhile isSpace ++ ')' :: r).head? =
      (x.dropWhile isSpace ++ [')']).head? := by
    cases x.dropWhile isSpace <;> rfl
  by_cases hquote : (x.dropWhile isSpace ++ [')']).head? = some '"' ∨
      (x.dropWhile isSpace ++ [')']).head? = some '\''
  · refine local_of_eq (.function word) [] x fun r => ?_
    rw [← hhead r] at hquote
    simp only [urlOrFunction, hinside r, if_pos hquote]
  · -- The token is made from what is read of the address, as `urlOrFunction` makes it.
    refine (urlBody_local (x.dropWhile isSpace)).of_after (x.takeWhile isSpace) ?token
      fun r => ?reads
    case reads =>
      rw [← hhead r] at hquote
      simp only [urlOrFunction, hinside r, hblanks r]
      exact if_neg hquote

/-- What `nameLike` reads goes at least as far as the `name`. -/
theorem length_rest_nameLike_le (input : List Char) :
    (nameLike input).rest.length ≤ (name input).rest.length := by
  unfold nameLike
  dsimp only
  split
  · rename_i inside heq
    rw [heq, List.length_cons]
    split
    · have := length_rest_le (urlOrFunction_append (String.ofList (name input).value) inside)
      rw [Scanned.rest_after]
      omega
    · exact Nat.le_succ _
  · exact Nat.le_refl _

/-- What `nameLike` reads is local, as names and addresses are. -/
theorem nameLike_local (x : List Char) : Local nameLike x := by
  -- An opening parenthesis behind the name makes it a function, or the start of an address.
  rcases name_local x with ⟨value, text, left, hname⟩ | hname
  · cases left with
    | nil =>
      refine local_of_eq (.ident (String.ofList value)) text [] fun r => ?_
      simp only [nameLike, hname r]
      rfl
    | cons c left =>
      by_cases hc : c = '('
      · subst hc
        by_cases hurl : Text.sameIgnoringCase (String.ofList value) "url"
        · refine (urlOrFunction_local (String.ofList value) left).of_after (text ++ ['(']) id
            fun r => ?_
          simp only [nameLike, hname r, List.cons_append, if_pos hurl]
        · refine local_of_eq (.function (String.ofList value)) (text ++ ['(']) left fun r => ?_
          simp only [nameLike, hname r, List.cons_append, if_neg hurl]
      · refine local_of_eq (.ident (String.ofList value)) text (c :: left) fun r => ?_
        simp only [nameLike, hname r]
        split
        · rename_i heq
          exact absurd (List.cons.inj heq).1 hc
        · rfl
  · exact .inr fun r => Nat.le_trans (length_rest_nameLike_le _) (hname r)

/-- A mark without a parenthesis starts the text in front of a parenthesis or it does not, whatever
follows. -/
theorem take_close_iff (mark : List Char) (hmark : ')' ∉ mark) (x r : List Char) :
    (x ++ ')' :: r).take mark.length = mark ↔ x.take mark.length = mark := by
  induction mark generalizing x with
  | nil => simp
  | cons d mark ih =>
    rw [List.mem_cons, not_or] at hmark
    cases x with
    | nil => simp [hmark.1]
    | cons c x => simp [ih hmark.2 x]

/-- Dropping a mark that stands in front of a parenthesis does not touch the parenthesis. -/
theorem drop_close (mark : List Char) {x : List Char} (h : x.take mark.length = mark)
    (r : List Char) :
    (x ++ ')' :: r).drop mark.length = x.drop mark.length ++ ')' :: r := by
  apply List.drop_append_of_le_length
  have := congrArg List.length h
  rw [List.length_take] at this
  omega

/-- What a `token` reads in front of a closing parenthesis does not depend on what follows it. -/
theorem token_local (c : Char) (x : List Char) : Local (token c) x := by
  -- The cases are those of `token`, in the same order; each test gives the same answer for all `r`.
  by_cases hspace : isSpace c
  · refine local_of_eq .whitespace (c :: x.takeWhile isSpace) (x.dropWhile isSpace) fun r => ?_
    rw [token, if_pos hspace, takeWhile_append_cons (by decide),
      dropWhile_append_cons (by decide)]
  by_cases hquote : c = '"' ∨ c = '\''
  · have hclose : c ≠ ')' := by rcases hquote with rfl | rfl <;> decide
    refine (stringBody_local hclose x).of_after [c] ?token fun r => ?reads
    case reads =>
      rw [token, if_neg hspace, if_pos hquote]
      rfl
  by_cases hhash : c = '#' ∧ startsHashName (x ++ [')'])
  · refine (name_local x).of_after [c] (fun value => .hash (String.ofList value)) fun r => ?_
    rw [← startsHashName_close x r] at hhash
    rw [token, if_neg hspace, if_neg hquote, if_pos hhash]
  replace hhash (r : List Char) : ¬(c = '#' ∧ startsHashName (x ++ ')' :: r)) := by
    rwa [startsHashName_close]
  by_cases hat : c = '@' ∧ startsName (x ++ [')'])
  · refine (name_local x).of_after [c] (fun value => .atKeyword (String.ofList value)) fun r => ?_
    rw [← startsName_close x r] at hat
    rw [token, if_neg hspace, if_neg hquote, if_neg (hhash r), if_pos hat]
  replace hat (r : List Char) : ¬(c = '@' ∧ startsName (x ++ ')' :: r)) := by
    rwa [startsName_close]
  by_cases hnumeral : Numeral.startsWith (c :: x ++ [')'])
  · refine (numeric_local (c :: x)).congr fun r => ?_
    rw [← startsWith_close (c :: x) r] at hnumeral
    rw [token, if_neg hspace, if_neg hquote, if_neg (hhash r), if_neg (hat r)]
    exact if_pos hnumeral
  replace hnumeral (r : List Char) : ¬Numeral.startsWith (c :: (x ++ ')' :: r)) := by
    rwa [← List.cons_append, startsWith_close]
  by_cases hclose : c = '-' ∧ x.take 2 = ['-', '>']
  · refine local_of_eq .markupClose [c, '-', '>'] (x.drop 2) fun r => ?_
    have htake := (take_close_iff ['-', '>'] (by decide) x r).mpr hclose.2
    have hdrop := drop_close ['-', '>'] hclose.2 r
    simp only [List.length_cons, List.length_nil] at htake hdrop
    rw [token, if_neg hspace, if_neg hquote, if_neg (hhash r), if_neg (hat r),
      if_neg (hnumeral r), if_pos ⟨hclose.1, htake⟩, htake, hdrop]
  replace hclose (r : List Char) : ¬(c = '-' ∧ (x ++ ')' :: r).take 2 = ['-', '>']) :=
    fun h => hclose ⟨h.1, (take_close_iff ['-', '>'] (by decide) x r).mp h.2⟩
  by_cases hopen : c = '<' ∧ x.take 3 = ['!', '-', '-']
  · refine local_of_eq .markupOpen [c, '!', '-', '-'] (x.drop 3) fun r => ?_
    have htake := (take_close_iff ['!', '-', '-'] (by decide) x r).mpr hopen.2
    have hdrop := drop_close ['!', '-', '-'] hopen.2 r
    simp only [List.length_cons, List.length_nil] at htake hdrop
    rw [token, if_neg hspace, if_neg hquote, if_neg (hhash r), if_neg (hat r),
      if_neg (hnumeral r), if_neg (hclose r), if_pos ⟨hopen.1, htake⟩, htake, hdrop]
  replace hopen (r : List Char) : ¬(c = '<' ∧ (x ++ ')' :: r).take 3 = ['!', '-', '-']) :=
    fun h => hopen ⟨h.1, (take_close_iff ['!', '-', '-'] (by decide) x r).mp h.2⟩
  by_cases hname : startsName (c :: x ++ [')'])
  · refine (nameLike_local (c :: x)).congr fun r => ?_
    rw [← startsName_close (c :: x) r] at hname
    rw [token, if_neg hspace, if_neg hquote, if_neg (hhash r), if_neg (hat r),
      if_neg (hnumeral r), if_neg (hclose r), if_neg (hopen r)]
    exact if_pos hname
  · refine local_of_eq (punctuation c) [c] x fun r => ?_
    rw [← startsName_close (c :: x) r] at hname
    rw [token, if_neg hspace, if_neg hquote, if_neg (hhash r), if_neg (hat r),
      if_neg (hnumeral r), if_neg (hclose r), if_neg (hopen r)]
    exact if_neg hname

/-! ## Comments -/

/-- A pair of what is split off and the rest, as a scanner has it. -/
def ofPair (split : List Char → List Char × List Char) (input : List Char) : Scanned Unit :=
  ⟨(), (split input).1, (split input).2⟩

/-- A `Local` splitter ends in front of the parenthesis or takes it along. -/
theorem Local.splits {split : List Char → List Char × List Char} {x : List Char}
    (h : Local (ofPair split) x) :
    Splits split x ∨ ∀ r, (split (x ++ ')' :: r)).2.length ≤ r.length := by
  rcases h with ⟨_, text, left, h⟩ | h
  · exact .inl ⟨text, left, fun r =>
      Prod.ext (congrArg Scanned.text (h r)) (congrArg Scanned.rest (h r))⟩
  · exact .inr h

/-- The first character in front of a parenthesis does not depend on what follows. -/
theorem head?_close {c : Char} (hc : c ≠ ')') (x r : List Char) :
    (x ++ ')' :: r).head? = some c ↔ x.head? = some c := by
  cases x with
  | nil => simp [hc.symm]
  | cons d x => rfl

/-- Anything but an end mark belongs to the comment that `commentBody` reads. -/
theorem commentBody_cons {c : Char} {rest : List Char} (h : c = '*' → rest.head? ≠ some '/') :
    commentBody (c :: rest) = (c :: (commentBody rest).1, (commentBody rest).2) := by
  rw [commentBody]
  rintro after rfl rfl
  exact h rfl rfl

/-- A comment that `commentBody` reads goes beyond the parenthesis or ends in front of it, whatever
follows. -/
theorem commentBody_local (x : List Char) : Local (ofPair commentBody) x := by
  induction x with
  | nil =>
    refine .inr fun r => ?_
    rw [List.nil_append, ofPair, commentBody_cons fun h => absurd h (by decide)]
    exact length_commentBody_le r
  | cons c x ih =>
    by_cases hend : c = '*' ∧ x.head? = some '/'
    · obtain ⟨rfl, hx⟩ := hend
      obtain ⟨x, rfl⟩ := List.head?_eq_some_iff.mp hx
      exact local_of_eq () ['*', '/'] x fun r => rfl
    · refine ih.of_after [c] id fun r => ?_
      have hrest : c = '*' → (x ++ ')' :: r).head? ≠ some '/' := fun hc hhead =>
        hend ⟨hc, (head?_close (by decide) x r).mp hhead⟩
      rw [ofPair, List.cons_append, commentBody_cons hrest]
      rfl

/-- The `comments` in front of a closing parenthesis do not depend on what follows it. -/
theorem comments_local (x : List Char) : Local (ofPair comments) x := by
  induction hlength : x.length using Nat.strongRecOn generalizing x with
  | ind n ih =>
    subst hlength
    by_cases hstart : ∃ y, x = '/' :: '*' :: y
    · obtain ⟨y, rfl⟩ := hstart
      have hcomments (r : List Char) : comments ('/' :: '*' :: y ++ ')' :: r) =
          ('/' :: '*' :: ((commentBody (y ++ ')' :: r)).1 ++
            (comments (commentBody (y ++ ')' :: r)).2).1),
            (comments (commentBody (y ++ ')' :: r)).2).2) := by
        rw [List.cons_append, List.cons_append, comments]
      -- A comment that is closed in front of the parenthesis leaves the same text to look at.
      rcases (commentBody_local y).splits with ⟨body, left, hbody⟩ | hbody
      · have hle := length_commentBody_le (y ++ [')'])
        rw [hbody] at hle
        simp only [List.length_append] at hle
        refine (ih left.length (by simp only [List.length_cons]; omega) left rfl).of_after
          ('/' :: '*' :: body) id fun r => ?_
        rw [ofPair, hcomments, hbody]
        rfl
      · refine .inr fun r => ?_
        rw [ofPair, hcomments]
        exact Nat.le_trans (length_comments_le _) (hbody r)
    · refine local_of_eq () [] x fun r => ?_
      cases x with
      | nil => rw [List.nil_append, ofPair, comments_cons fun h => absurd h (by decide)]
      | cons c x =>
        have hrest : c = '/' → (x ++ ')' :: r).head? ≠ some '*' := by
          rintro rfl hhead
          obtain ⟨y, rfl⟩ := List.head?_eq_some_iff.mp ((head?_close (by decide) x r).mp hhead)
          exact hstart ⟨y, rfl⟩
        rw [List.cons_append, ofPair, comments_cons hrest]

/-! ## Closing brackets -/

/-- A `numeric` token closes no bracket. -/
theorem closes?_numeric (input : List Char) : (numeric input).value.closes? = none := by
  unfold numeric
  split
  split
  · rfl
  · split <;> rfl

/-- A `nameLike` token closes no bracket. -/
theorem closes?_nameLike (input : List Char) : (nameLike input).value.closes? = none := by
  unfold nameLike
  dsimp only
  split
  · split
    · simp only [Scanned.after, urlOrFunction, id]
      split
      · rfl
      · dsimp only
        split <;> rfl
    · rfl
  · rfl

/-- A `token` that closes a bracket is read from a single character. -/
theorem closes?_token (c : Char) (rest : List Char) :
    (token c rest).value.closes? = none ∨ token c rest = ⟨punctuation c, [c], rest⟩ := by
  fun_cases Scan.token c rest with
  | case1 => exact .inl rfl
  | case2 =>
    left
    simp only [string, Scanned.after]
    split <;> rfl
  | case3 => exact .inl rfl
  | case4 => exact .inl rfl
  | case5 => exact .inl (closes?_numeric _)
  | case6 => exact .inl rfl
  | case7 => exact .inl rfl
  | case8 => exact .inl (closes?_nameLike _)
  | case9 => exact .inr rfl

/-- The only `punctuation` that closes a parenthesis is the parenthesis. -/
theorem eq_of_punctuation {c : Char} (h : punctuation c = .closer .paren) : c = ')' := by
  unfold punctuation at h
  repeat' split at h
  all_goals first | assumption | cases h

end Scan

end ThemeColor
