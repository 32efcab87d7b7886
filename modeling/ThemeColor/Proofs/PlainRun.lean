import ThemeColor.Proofs.ComponentValue

/-!
# Runs of plain characters

Ten characters can change which brackets are open: brackets, quotes, the slash of a comment and the
backslash of an escape (`Scan.breakers`). A run without them, be it a number, a unit or a name, is
cut into flat tokens, whatever these are, as soon as a separator ends it: `Bracket.after_run`.
-/

namespace ThemeColor

namespace Scan

/-- What holds of all characters of a list is checked on the list, not on all characters there
are. -/
instance decidableForallMem {chars : List Char} {p : Char → Prop} [DecidablePred p] :
    Decidable (∀ c ∈ chars, p c) :=
  List.decidableBAll p chars

/-- The characters that can open or close brackets, quoted texts, comments and escapes. -/
def breakers : List Char := ['(', ')', '[', ']', '{', '}', '"', '\'', '/', '\\']

/-- The characters that stand behind a run in a written color. -/
def runEnds : List Char := [')', ',', '*', ' ', '/']

/-- The text has none of the ten characters. -/
def Plain (text : List Char) : Prop := ∀ c ∈ text, c ∉ breakers

instance (text : List Char) : Decidable (Plain text) :=
  inferInstanceAs (Decidable (∀ c ∈ text, c ∉ breakers))

theorem plain_append {a b : List Char} : Plain (a ++ b) ↔ Plain a ∧ Plain b :=
  List.forall_mem_append

theorem Plain.append {a b : List Char} (ha : Plain a) (hb : Plain b) : Plain (a ++ b) :=
  plain_append.mpr ⟨ha, hb⟩

/-- The text ends a run. -/
def EndsRun (tail : List Char) : Prop := ∃ b ∈ runEnds, tail.head? = some b

/-- The text is a run of plain characters in front of `tail`. -/
def PlainThen (tail text : List Char) : Prop := ∃ run, Plain run ∧ text = run ++ tail

variable {tail : List Char} {c : Char} {rest : List Char}

/-- A character that does not end a run belongs to the run, as `PlainThen` says. -/
theorem PlainThen.uncons (htail : EndsRun tail) (h : PlainThen tail (c :: rest))
    (hends : c ∉ runEnds) : c ∉ breakers ∧ PlainThen tail rest := by
  obtain ⟨run, hrun, heq⟩ := h
  cases run with
  | nil =>
    -- An empty run would make the character the one that ends it.
    obtain ⟨b, hb, hhead⟩ := htail
    rw [List.nil_append] at heq
    rw [← heq] at hhead
    exact absurd (Option.some.inj hhead ▸ hb) hends
  | cons d run =>
    obtain ⟨rfl, rfl⟩ := List.cons.inj heq
    obtain ⟨hc, hrest⟩ := List.forall_mem_cons.mp hrun
    exact ⟨hc, run, hrest, rfl⟩

/-! ## Scanners inside a run -/

/-- The property stays when the first character is taken off a text, unless that character can end a
run, and no text that starts with a backslash has it. So it stays when the scanners for numbers and
names go through the text. -/
structure Shrinks (P : List Char → Prop) : Prop where
  /-- The first character can be taken off. -/
  uncons : ∀ {c : Char} {rest : List Char}, P (c :: rest) → c ∉ runEnds → c ≠ '\\' ∧ P rest

/-- What is left of a run behind a token is a run: `PlainThen` shrinks. -/
theorem shrinks_plainThen (htail : EndsRun tail) : Shrinks (PlainThen tail) where
  uncons := by
    intro c rest h hends
    obtain ⟨hc, hrest⟩ := h.uncons htail hends
    refine ⟨?_, hrest⟩
    rintro rfl
    exact absurd (by decide) hc

namespace Shrinks

variable {P : List Char → Prop} (hP : Shrinks P) {text : List Char}

include hP

theorem dropWhile {p : Char → Bool} (hp : ∀ c ∈ runEnds, p c = false) (h : P text) :
    P (text.dropWhile p) := by
  induction text with
  | nil => exact h
  | cons c rest ih =>
    cases hc : p c with
    | false => rwa [List.dropWhile_cons_of_neg (by simp [hc])]
    | true =>
      have hends : c ∉ runEnds := fun hmem => by simp [hp c hmem] at hc
      rw [List.dropWhile_cons_of_pos hc]
      exact ih (hP.uncons h hends).2

/-- Behind a sign that `Sign.scan` reads, the rest is still such a text. -/
theorem sign (h : P text) : P (Sign.scan text).2 := by
  unfold Sign.scan
  split
  · exact h
  · rename_i c rest
    split
    · rename_i sign hsign
      have hc : c = '+' ∨ c = '-' := by
        unfold Sign.ofChar? at hsign
        split at hsign
        · exact .inl ‹_›
        · split at hsign
          · exact .inr ‹_›
          · cases hsign
      refine (hP.uncons h ?_).2
      rcases hc with rfl | rfl <;> decide
    · exact h

/-- Behind the digits of `Numeral.scanFraction`, the rest is still such a text. -/
theorem fraction (h : P text) : P (Numeral.scanFraction text).2 := by
  unfold Numeral.scanFraction
  split
  · have hdigits := (hP.uncons h (by decide)).2
    split
    · exact h
    · exact hP.dropWhile (by decide) hdigits
  · exact h

/-- Behind the power of ten of `Numeral.scanPower`, the rest is still such a text. -/
theorem power (h : P text) : P (Numeral.scanPower text).2 := by
  unfold Numeral.scanPower
  split
  · exact h
  · split
    · rename_i mark rest hmark
      have hrest : P rest := by
        refine (hP.uncons h ?_).2
        rcases hmark with rfl | rfl <;> decide
      dsimp only
      split
      · exact h
      · exact hP.dropWhile (by decide) (hP.sign hrest)
    · exact h

/-- Behind a number that `Numeral.scan` reads, the rest is still such a text. -/
theorem numeral (h : P text) : P (Numeral.scan text).2 :=
  hP.power (hP.fraction (hP.dropWhile (by decide) (hP.sign h)))

/-- Behind a name that `Scan.name` reads, the rest is still such a text. -/
theorem name (h : P text) : P (Scan.name text).rest := by
  fun_induction Scan.name text with
  | case1 => exact h
  | case2 c rest hc ih =>
    have hends : ∀ c ∈ runEnds, isNameChar c = false := by decide
    exact ih (hP.uncons h fun hmem => by simp [hends c hmem] at hc).2
  | case3 c rest _ hc e ih =>
    -- An escape would need a backslash.
    obtain ⟨rfl, -⟩ := hc
    exact absurd rfl (hP.uncons h (by decide)).1
  | case4 => exact h

/-- Behind a token that `Scan.numeric` reads, the rest is still such a text. -/
theorem numeric (h : P text) : P (Scan.numeric text).rest := by
  have hrest := hP.numeral h
  unfold Scan.numeric
  split
  rename_i value rest hscan
  rw [hscan] at hrest
  split
  · exact hP.name hrest
  · split
    · exact (hP.uncons hrest (by decide)).2
    · exact hrest

/-- A word without characters that end a run can be taken off. -/
theorem append {word rest : List Char} (hword : ∀ c ∈ word, c ∉ runEnds) (h : P (word ++ rest)) :
    P rest := by
  induction word with
  | nil => exact h
  | cons c word ih =>
    obtain ⟨hc, hword⟩ := List.forall_mem_cons.mp hword
    exact ih hword (hP.uncons h hc).2

theorem drop {word : List Char} {n : Nat} (h : P text) (htake : text.take n = word)
    (hword : ∀ c ∈ word, c ∉ runEnds) : P (text.drop n) := by
  rw [← List.take_append_drop n text, htake] at h
  exact hP.append hword h

end Shrinks

/-- What `nameLike` reads inside a run is no function, since no parenthesis stands there. -/
theorem PlainThen.nameLike (htail : EndsRun tail) {text : List Char} (h : PlainThen tail text) :
    (nameLike text).value.isFlat ∧ PlainThen tail (nameLike text).rest := by
  have hrest := (shrinks_plainThen htail).name h
  unfold Scan.nameLike
  dsimp only
  split
  · rename_i inside heq
    rw [heq] at hrest
    exact absurd (hrest.uncons htail (by decide)).1 (by decide)
  · exact ⟨rfl, hrest⟩

/-- A `numeric` token is no bracket. -/
theorem isFlat_numeric (input : List Char) : (numeric input).value.isFlat := by
  unfold numeric
  dsimp only
  repeat' split
  all_goals rfl

/-- What `punctuation` reads is no bracket unless it breaks a run. -/
theorem isFlat_punctuation (hc : c ∉ breakers) : (punctuation c).isFlat := by
  simp only [breakers, List.mem_cons, List.not_mem_nil, or_false, not_or] at hc
  unfold punctuation
  repeat' split
  all_goals first | rfl | simp_all

/-- A `token` that starts inside a run is flat and ends inside the run. -/
theorem PlainThen.token (htail : EndsRun tail) (hspace : isSpace c = false) (hc : c ∉ breakers)
    (hcons : PlainThen tail (c :: rest)) (hrest : PlainThen tail rest) :
    (token c rest).value.isFlat ∧ PlainThen tail (token c rest).rest := by
  have hshrinks := shrinks_plainThen htail
  fun_cases Scan.token c rest with
  | case1 h => rw [hspace] at h; cases h
  | case2 _ h => exact absurd (by rcases h with rfl | rfl <;> decide) hc
  | case3 => exact ⟨rfl, hshrinks.name hrest⟩
  | case4 => exact ⟨rfl, hshrinks.name hrest⟩
  | case5 => exact ⟨isFlat_numeric _, hshrinks.numeric hcons⟩
  | case6 =>
    rename_i h
    exact ⟨rfl, hshrinks.drop hrest h.2 (by decide)⟩
  | case7 =>
    rename_i h
    exact ⟨rfl, hshrinks.drop hrest h.2 (by decide)⟩
  | case8 => exact hcons.nameLike htail
  | case9 => exact ⟨isFlat_punctuation hc, hrest⟩

/-! ## Functions -/

/-- The letters of the function names in written colors. -/
def letters : List Char := "abcdefghijklmnopqrstuvwxyz".toList

/-- A `name` takes the characters of names up to where no name goes on. -/
theorem name_run {word : List Char} (hword : ∀ c ∈ word, isNameChar c)
    (hrest : name rest = ⟨[], [], rest⟩) : name (word ++ rest) = ⟨word, word, rest⟩ := by
  induction word with
  | nil => exact hrest
  | cons c word ih =>
    obtain ⟨hc, hword⟩ := List.forall_mem_cons.mp hword
    rw [List.cons_append, name, if_pos hc, ih hword]
    rfl

/-- A word of `letters` in front of a parenthesis is read as a `name`. -/
theorem name_word {word : List Char} (h : ∀ c ∈ word, c ∈ letters) :
    name (word ++ '(' :: rest) = ⟨word, word, '(' :: rest⟩ := by
  have hletters : ∀ c ∈ letters, isNameChar c := by decide
  refine name_run (fun c hc => hletters c (h c hc)) ?_
  rw [name, if_neg (by decide), if_neg (by simp)]

/-- What starts with a letter is a name for `token`. -/
theorem token_letter (hc : c ∈ letters) : token c rest = nameLike (c :: rest) := by
  obtain ⟨hspace, hother, hsign, hdigit, hstart⟩ :
      isSpace c = false ∧ c ∉ ['"', '\'', '#', '@', '-', '<', '.', '\\'] ∧
        Sign.ofChar? c = none ∧ Numeral.isDigit c = false ∧ isNameStart c :=
    (by decide : ∀ c ∈ letters,
      isSpace c = false ∧ c ∉ ['"', '\'', '#', '@', '-', '<', '.', '\\'] ∧
        Sign.ofChar? c = none ∧ Numeral.isDigit c = false ∧ isNameStart c) c hc
  simp only [List.mem_cons, List.not_mem_nil, or_false, not_or] at hother
  obtain ⟨hdouble, hsingle, hhash, hat, hminus, hless, hpoint, hbackslash⟩ := hother
  have hnumeral : Numeral.startsWith (c :: rest) = false := by
    simp only [Numeral.startsWith, Sign.scan, hsign]
    rw [startsUnsigned_cons hpoint, hdigit]
  have hname : startsName (c :: rest) = true := by
    rw [startsName_cons hminus hbackslash, hstart]
  simp [token, hspace, hdouble, hsingle, hhash, hat, hminus, hless, hnumeral, hname]

/-- The word names a function: it is made of letters and is not `url`, which starts an address. -/
structure IsFunctionName (word : List Char) : Prop where
  /-- There is a letter. -/
  ne_nil : word ≠ []
  /-- There are letters only. -/
  letters : ∀ c ∈ word, c ∈ letters
  /-- The word does not start an address. -/
  ne_url : Text.sameIgnoringCase (String.ofList word) "url" = false

instance (word : List Char) : Decidable (IsFunctionName word) :=
  decidable_of_iff (word ≠ [] ∧ (∀ c ∈ word, c ∈ letters) ∧
      Text.sameIgnoringCase (String.ofList word) "url" = false)
    ⟨fun h => ⟨h.1, h.2.1, h.2.2⟩, fun h => ⟨h.ne_nil, h.letters, h.ne_url⟩⟩

/-- The functions that stand in colors have names as `IsFunctionName` describes. -/
theorem isFunctionName_of_mem :
    ∀ name ∈ ["calc", "min", "max", "clamp", "var", "rgb", "rgba", "hsl", "hsla"],
      IsFunctionName name.toList := by
  decide +kernel

/-- A name as `IsFunctionName` describes is read as a function in front of a parenthesis. -/
theorem IsFunctionName.token {word : List Char} (h : IsFunctionName (c :: word)) :
    token c (word ++ '(' :: rest) =
      ⟨.function (String.ofList (c :: word)), c :: word ++ ['('], rest⟩ := by
  rw [token_letter (h.letters c List.mem_cons_self), ← List.cons_append, nameLike,
    name_word h.letters]
  dsimp only
  rw [h.ne_url]
  rfl

/-- The name of a function and its parenthesis are one token for `Scan.token`. -/
theorem IsFunctionName.token_paren {word : List Char} (h : IsFunctionName (c :: word))
    (rest : List Char) : Scan.token c (word ++ ['('] ++ rest) =
      ⟨.function (String.ofList (c :: word)), c :: (word ++ ['(']), rest⟩ := by
  rw [List.append_assoc, List.singleton_append, h.token, List.cons_append]

/-- A name as `IsFunctionName` describes starts no comment. -/
theorem IsFunctionName.ne_slash {word : List Char} (h : IsFunctionName (c :: word)) : c ≠ '/' := by
  rintro rfl
  exact absurd (h.letters '/' List.mem_cons_self) (by decide)

end Scan

namespace Bracket

open Scan

/-- A `Plain` run leaves the open brackets as they are. -/
theorem after_run {stack : List Bracket} (hstack : stack ≠ []) {run tail : List Char}
    (hrun : Plain run) (htail : EndsRun tail) : after stack (run ++ tail) = after stack tail := by
  -- Tokens end at other places than characters do, so the induction is on the length of the run.
  induction hlength : run.length using Nat.strongRecOn generalizing run with
  | ind n ih =>
    subst hlength
    cases run with
    | nil => rfl
    | cons c run =>
      -- One token is taken off the front; blanks are taken off one by one.
      have hwhole : PlainThen tail (c :: (run ++ tail)) := ⟨c :: run, hrun, rfl⟩
      obtain ⟨hc, hrun⟩ := List.forall_mem_cons.mp hrun
      cases hspace : isSpace c with
      | true =>
        rw [List.cons_append, after_space hstack hspace]
        exact ih run.length (by simp) hrun rfl
      | false =>
        have hslash : c = '/' → (run ++ tail).head? ≠ some '*' := by
          rintro rfl
          exact absurd (by decide) hc
        obtain ⟨hflat, left, hleft, heq⟩ := hwhole.token htail hspace hc ⟨run, hrun, rfl⟩
        have hle := length_rest_token_le c (run ++ tail)
        rw [heq, List.length_append, List.length_append] at hle
        rw [List.cons_append, after_flat hstack hslash hflat, heq]
        exact ih left.length (by rw [List.length_cons]; omega) hleft rfl

/-- A function opens a parenthesis for `Bracket.after`. -/
theorem after_function {stack : List Bracket} (hstack : stack ≠ []) {word : List Char}
    (h : IsFunctionName word) {rest : List Char} :
    after stack (word ++ '(' :: rest) = after (.paren :: stack) rest := by
  obtain ⟨c, word, rfl⟩ := List.exists_cons_of_ne_nil h.ne_nil
  have hstep : step? stack (token c (word ++ '(' :: rest)) = some (.paren :: stack) := by
    rw [h.token]
    exact advance?_opens hstack rfl
  rw [List.cons_append, after_cons fun hslash => absurd hslash h.ne_slash, hstep, h.token]
  rfl

/-- The text can stand in a written color: it leaves the open brackets as they are whatever ends a
run behind it, and no slash in front of it starts a comment. -/
structure Neutral (text : List Char) : Prop where
  /-- The text is not empty and does not start with an asterisk. -/
  head : ∃ c rest, text = c :: rest ∧ c ≠ '*'
  /-- The text leaves the open brackets as they are. -/
  after_append : ∀ {stack : List Bracket} {tail : List Char}, stack ≠ [] → EndsRun tail →
    after stack (text ++ tail) = after stack tail

/-- What is `Plain` is `Neutral`, unless it starts with an asterisk and a slash may stand in front
of it. -/
theorem neutral_of_plain {text : List Char} (hhead : ∃ c rest, text = c :: rest ∧ c ≠ '*')
    (h : Plain text) : Neutral text :=
  ⟨hhead, fun hstack htail => after_run hstack h htail⟩

end Bracket

/-- A function is one component value, as `IsComponentValue` says, when the text behind its
parenthesis closes it. -/
theorem isComponentValue_function {word rest : List Char} (h : Scan.IsFunctionName word) :
    IsComponentValue (word ++ '(' :: rest) ↔ Bracket.after [.paren] rest = some [] := by
  obtain ⟨c, word, rfl⟩ := List.exists_cons_of_ne_nil h.ne_nil
  have hvalue : (Scan.token c (word ++ '(' :: rest)).value =
      .function (String.ofList (c :: word)) := by rw [h.token]
  rw [List.cons_append, isComponentValue_iff_after (fun hslash => absurd hslash h.ne_slash) hvalue,
    h.token]

end ThemeColor
