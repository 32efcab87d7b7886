import ThemeColor.Color.Css
import ThemeColor.Proofs.Leaves
import ThemeColor.Proofs.Locality
import ThemeColor.Proofs.PlainRun

/-!
# The text of an expression

Numbers are written with letters, digits, points and minus signs alone (`Number.written_compact`).
So an expression whose units are plain and whose verbatim texts are neutral is written as a neutral
text: every parenthesis that is opened on the way is closed again (`Expr.Leaves.neutral_text`).
-/

namespace ThemeColor

/-! ## Numbers -/

namespace Number

/-- The characters that numbers are written with. -/
def isWritten (c : Char) : Bool := c.isAlphanum || c = '.' || c = '-'

/-- The text could be that of a number: it is not empty and has no other characters. -/
structure Written (text : List Char) : Prop where
  /-- There is a character. -/
  ne_nil : text ≠ []
  /-- Every character is one that numbers are written with. -/
  chars : ∀ c ∈ text, isWritten c

/-- What is `Written` stays so when more of its characters follow. -/
theorem Written.append {a b : List Char} (ha : Written a) (hb : ∀ c ∈ b, isWritten c) :
    Written (a ++ b) :=
  ⟨List.append_ne_nil_of_left_ne_nil ha.ne_nil b, List.forall_mem_append.mpr ⟨ha.chars, hb⟩⟩

/-- A `signed` number is written if the number is. -/
theorem Written.signed {text : List Char} (h : Written text) (negative : Bool) :
    Written (signed negative text) := by
  cases negative with
  | false => exact h
  | true => exact ⟨List.cons_ne_nil _ _, List.forall_mem_cons.mpr ⟨rfl, h.chars⟩⟩

/-- A sign stands in front of the first part. -/
theorem signed_append (negative : Bool) (a b : List Char) :
    signed negative (a ++ b) = signed negative a ++ b := by
  cases negative <;> rfl

theorem written_ite {p : Prop} [Decidable p] {a b : List Char} (ha : Written a) (hb : Written b) :
    Written (if p then a else b) := by
  split
  · exact ha
  · exact hb

/-- The digits of a number are `Written`. -/
theorem written_toDigits (n : Nat) : Written (Nat.toDigits 10 n) := by
  refine ⟨Nat.toDigits_ne_nil, fun c hc => ?_⟩
  have hdigit : c.isDigit := Nat.isDigit_of_mem_toDigits (by decide) (by decide) hc
  simp [isWritten, Char.isAlphanum, hdigit]

theorem isWritten_of_mem_replicate {n : Nat} {c : Char} (h : c ∈ List.replicate n '0') :
    isWritten c := by
  rw [List.eq_of_mem_replicate h]
  rfl

/-- A `scientific` number is written with its digits, a point and a power. -/
theorem written_scientific (d : Decimal) : Written d.scientific := by
  have hdigits : Written d.digits := written_toDigits d.coefficient
  have hexponent {n : Int} : Written (integerText n) := (written_toDigits _).signed _
  have hpower {n : Int} : ∀ c ∈ 'e' :: integerText n, isWritten c :=
    List.forall_mem_cons.mpr ⟨rfl, hexponent.chars⟩
  unfold Decimal.scientific
  dsimp only
  split
  · rename_i hnil
    exact absurd hnil hdigits.ne_nil
  · rename_i only honly
    have hone := hdigits.chars only (honly ▸ List.mem_cons_self)
    exact ⟨List.cons_ne_nil _ _, List.forall_mem_cons.mpr ⟨hone, hpower⟩⟩
  · rename_i first rest _ hsplit
    have hall : ∀ c ∈ first :: rest, isWritten c := fun c hc => hdigits.chars c (hsplit ▸ hc)
    obtain ⟨hfirst, hrest⟩ := List.forall_mem_cons.mp hall
    exact ⟨List.cons_ne_nil _ _, List.forall_mem_cons.mpr ⟨hfirst, List.forall_mem_cons.mpr
      ⟨rfl, List.forall_mem_append.mpr ⟨hrest, hpower⟩⟩⟩⟩

/-- A number is `Written` if zero and all magnitudes are. -/
theorem written_textWith {zero : String} {magnitude : Decimal → List Char}
    (hzero : Written zero.toList) (hmagnitude : ∀ d, Written (magnitude d)) (x : Float) :
    Written (textWith zero magnitude x).toList := by
  unfold textWith
  split
  · exact ⟨by decide, by decide⟩
  · rw [String.toList_ofList]
    exact Written.signed ⟨by decide, by decide⟩ _
  · rw [String.toList_ofList]
    exact hzero.signed _
  · rw [String.toList_ofList]
    exact (hmagnitude _).signed _

/-- The zeros in front of the point are no trailing zeros. -/
theorem reverse_dropWhile_point (whole fraction : List Char) :
    ((whole ++ '.' :: fraction).reverse.dropWhile (· == '0')).reverse =
      whole ++ '.' :: (fraction.reverse.dropWhile (· == '0')).reverse := by
  rw [List.reverse_append, List.reverse_cons, List.append_assoc, List.singleton_append,
    Scan.dropWhile_append_cons (by decide)]
  simp

/-- Trimming the decimals of a number with `trimFixed` leaves the digits in front of the point. -/
theorem written_trimFixed {whole fraction : List Char} (hwhole : Written whole)
    (hfraction : ∀ c ∈ fraction, isWritten c) : Written (trimFixed (whole ++ '.' :: fraction)) := by
  have hkept : ∀ c ∈ '.' :: (fraction.reverse.dropWhile (· == '0')).reverse, isWritten c := by
    refine List.forall_mem_cons.mpr ⟨rfl, fun c hc => hfraction c ?_⟩
    exact List.mem_reverse.mp ((List.dropWhile_suffix _).subset (List.mem_reverse.mp hc))
  unfold trimFixed
  dsimp only
  rw [reverse_dropWhile_point, List.dropLast_append_of_ne_nil (List.cons_ne_nil _ _)]
  refine written_ite ⟨by decide, by decide⟩ (written_ite ?_ (hwhole.append hkept))
  exact hwhole.append fun c hc => hkept c (List.dropLast_subset _ hc)

/-- A `fixed` number without its trailing zeros is written. -/
theorem written_trimFixed_fixed (x : Float) : Written (trimFixed (fixed x)) := by
  unfold fixed
  split
  · exact ⟨by decide, by decide⟩
  · rename_i negative _
    cases negative with
    | false => exact ⟨by decide, by decide⟩
    | true => exact ⟨by decide, by decide⟩
  · rename_i negative mantissa exponent _
    unfold fixedText
    dsimp only
    rw [signed_append]
    refine written_trimFixed ((written_toDigits _).signed _) (List.forall_mem_append.mpr ⟨?_, ?_⟩)
    · exact fun c hc => isWritten_of_mem_replicate hc
    · exact (written_toDigits _).chars

/-- Every number that `compact` writes has letters, digits, points and minus signs. -/
theorem written_compact (x : Float) : Written (compact x).toList := by
  unfold compact
  dsimp only
  split
  · exact ⟨by decide, by decide⟩
  · split
    · rw [String.toList_ofList]
      exact written_trimFixed_fixed x
    · exact written_textWith ⟨by decide, by decide⟩ written_scientific x

/-- What is `Written` is `Scan.Plain`: no character of it opens or closes a bracket. -/
theorem Written.plain {text : List Char} (h : Written text) : Scan.Plain text := by
  have hbreakers : ∀ c ∈ Scan.breakers, isWritten c = false := by decide
  intro c hc hmem
  have := h.chars c hc
  rw [hbreakers c hmem] at this
  cases this

/-- A number that is `Written` is `Bracket.Neutral`, also with a plain unit. -/
theorem Written.neutral_append {text unit : List Char} (h : Written text)
    (hunit : Scan.Plain unit) : Bracket.Neutral (text ++ unit) := by
  obtain ⟨c, rest, rfl⟩ := List.exists_cons_of_ne_nil h.ne_nil
  refine Bracket.neutral_of_plain ⟨c, rest ++ unit, rfl, ?_⟩ (h.plain.append hunit)
  rintro rfl
  exact absurd (h.chars '*' List.mem_cons_self) (by decide)

end Number

/-! ## Functions and operators -/

namespace Bracket

open Scan

/-- In front of a closing parenthesis the text leaves the open brackets as they are. -/
def Fills (inside : List Char) : Prop :=
  ∀ (stack : List Bracket) (tail : List Char), stack ≠ [] →
    after stack (inside ++ ')' :: tail) = after stack (')' :: tail)

theorem endsRun_cons {b : Char} {tail : List Char} (hb : b ∈ runEnds) : EndsRun (b :: tail) :=
  ⟨b, hb, rfl⟩

/-- What is `Neutral` fills parentheses. -/
theorem Neutral.fills {text : List Char} (h : Neutral text) : Fills text := fun _ _ hstack =>
  h.after_append hstack (endsRun_cons (by decide))

/-- What is `Plain` fills parentheses. -/
theorem fills_of_plain {text : List Char} (h : Plain text) : Fills text := fun _ _ hstack =>
  after_run hstack h (endsRun_cons (by decide))

/-- Parentheses around what `Fills` them are `Neutral`. -/
theorem Fills.neutral_parens {inside : List Char} (h : Fills inside) :
    Neutral ('(' :: (inside ++ [')'])) := by
  refine ⟨⟨_, _, rfl, by decide⟩, fun {stack tail} hstack _ => ?_⟩
  rw [List.cons_append, List.append_assoc, after_open hstack, List.singleton_append,
    h _ _ (List.cons_ne_nil _ _), after_close]

/-- A function of what `Fills` its parentheses is `Neutral`. -/
theorem Fills.neutral_function {inside : List Char} (h : Fills inside) {word : List Char}
    (hword : IsFunctionName word) : Neutral (word ++ '(' :: (inside ++ [')'])) := by
  refine ⟨?_, fun {stack tail} hstack _ => ?_⟩
  · obtain ⟨c, rest, rfl⟩ := List.exists_cons_of_ne_nil hword.ne_nil
    refine ⟨c, _, rfl, ?_⟩
    rintro rfl
    exact absurd (hword.letters '*' List.mem_cons_self) (by decide)
  · have htail : word ++ '(' :: (inside ++ [')']) ++ tail =
        word ++ '(' :: (inside ++ ')' :: tail) := by simp
    rw [htail, after_function hstack hword, h _ _ (List.cons_ne_nil _ _), after_close]

/-- A comma between what leaves the open brackets as they are leaves them too: the whole `Fills`
parentheses. -/
theorem Fills.comma {first rest : List Char} (hfirst : Neutral first) (hrest : Fills rest) :
    Fills (first ++ ',' :: rest) := by
  intro stack tail hstack
  rw [List.append_assoc, List.cons_append, hfirst.after_append hstack (endsRun_cons (by decide)),
    after_separator hstack (by decide) (fun h => absurd h (by decide)), hrest _ _ hstack]

/-- A blank in front of what `Fills` parentheses changes nothing. -/
theorem Fills.space {inside : List Char} (h : Fills inside) : Fills (' ' :: inside) := by
  intro stack tail hstack
  rw [List.cons_append, after_space hstack (by decide), h _ _ hstack]

/-- An operator leaves the open brackets that `after` counts as they are, unless it would start a
comment. -/
theorem after_symbol {stack : List Bracket} (hstack : stack ≠ []) (op : Operator)
    {rest : List Char} (hrest : rest.head? ≠ some '*') :
    EndsRun (op.symbol.toList ++ rest) ∧
      after stack (op.symbol.toList ++ rest) = after stack rest := by
  have hsign {c : Char} (hc : c ∈ ['+', '-']) : after stack (' ' :: c :: ' ' :: rest) =
      after stack rest := by
    have hplain : Plain [c] := by
      rw [Plain, List.forall_mem_singleton]
      simp only [List.mem_cons, List.not_mem_nil, or_false] at hc
      rcases hc with rfl | rfl <;> decide
    rw [after_space hstack (by decide), ← List.singleton_append,
      after_run hstack hplain (endsRun_cons (by decide)), after_space hstack (by decide)]
  cases op with
  | add => exact ⟨endsRun_cons (by decide), hsign (by decide)⟩
  | sub => exact ⟨endsRun_cons (by decide), hsign (by decide)⟩
  | mul =>
    exact ⟨endsRun_cons (by decide),
      after_separator hstack (by decide) fun h => absurd h (by decide)⟩
  | div => exact ⟨endsRun_cons (by decide), after_separator hstack (by decide) fun _ => hrest⟩

/-- Two `Neutral` operands with an operator between them are neutral. -/
theorem Neutral.binary {a b : List Char} (ha : Neutral a) (hb : Neutral b) (op : Operator) :
    Neutral (a ++ op.symbol.toList ++ b) := by
  obtain ⟨c, rest, rfl, hc⟩ := ha.head
  obtain ⟨d, rest', rfl, hd⟩ := hb.head
  refine ⟨⟨c, _, rfl, hc⟩, fun {stack tail} hstack htail => ?_⟩
  have hhead : (d :: rest' ++ tail).head? ≠ some '*' := by simpa using hd
  obtain ⟨hends, hsymbol⟩ := after_symbol hstack op hhead
  rw [List.append_assoc, List.append_assoc, ha.after_append hstack hends, hsymbol,
    hb.after_append hstack htail]

end Bracket

/-! ## Expressions -/

/-- Verbatim texts are neutral and units are plain. -/
def LeafRule.writable : LeafRule where
  text text := Bracket.Neutral text.toList
  unit unit := Scan.Plain unit.toList
  unitless := by simp [Scan.Plain]
  percent := by decide

open LeafRule ThemeColor.Bracket

theorem neutral_calc {inside : String} (h : Fills inside.toList) :
    Neutral ("calc(" ++ inside ++ ")").toList := by
  have htext : ("calc(" ++ inside ++ ")").toList =
      "calc".toList ++ '(' :: (inside.toList ++ [')']) := by simp
  rw [htext]
  exact h.neutral_function (Scan.isFunctionName_of_mem _ (by simp))

/-- A `Quantity` with a plain unit is written as a neutral text. -/
theorem Quantity.neutral_text {q : Quantity Float} (h : Scan.Plain q.unit.toList) :
    Neutral q.text.toList := by
  unfold Quantity.text
  split
  · rw [String.toList_append]
    exact (Number.written_compact q.value).neutral_append h
  · -- The names of the other values are plain, and so is a unit behind `1`.
    have hconstant : Scan.Plain (if q.value.isNaN then "NaN"
        else if 0.0 < q.value then "infinity" else "-infinity").toList := by
      repeat' split
      all_goals decide
    dsimp only
    generalize (if q.value.isNaN then "NaN" else if 0.0 < q.value then "infinity"
      else "-infinity") = constant at hconstant ⊢
    split
    · exact neutral_calc (fills_of_plain hconstant)
    · have htext : "calc(" ++ constant ++ "*1" ++ q.unit ++ ")" =
          "calc(" ++ (constant ++ "*1" ++ q.unit) ++ ")" := by simp [String.append_assoc]
      rw [htext]
      refine neutral_calc (fills_of_plain ?_)
      rw [String.toList_append, String.toList_append]
      exact (hconstant.append (by decide)).append h

namespace Expr

/-- What is `parenthesized` is neutral if what stands inside is. -/
theorem neutral_parenthesized {wrap : Bool} {text : String} (h : Neutral text.toList) :
    Neutral (parenthesized wrap text).toList := by
  cases wrap with
  | false => exact h
  | true =>
    have htext : (parenthesized true text).toList = '(' :: (text.toList ++ [')']) := by
      simp [parenthesized]
    rw [htext]
    exact h.fills.neutral_parens

mutual

/-- Inside `calc()` an expression with writable leaves is neutral. -/
theorem neutral_innerText : (e : Expr Float) → e.Obeys writable → Neutral e.innerText.toList
  | .quantity q, h => Quantity.neutral_text h
  | .verbatim text, h => h
  | .binary op lhs rhs, h => by
    rw [innerText, String.toList_append, String.toList_append]
    exact (neutral_parenthesized (neutral_innerText lhs h.1)).binary
      (neutral_parenthesized (neutral_innerText rhs h.2)) op
  | .call function args, h => by
    have htext : (call function args).innerText.toList =
        function.name.toList ++ '(' :: ((argumentsText args).toList ++ [')']) := by
      simp [innerText]
    rw [htext]
    refine (fills_argumentsText args h).neutral_function ?_
    cases function <;> exact Scan.isFunctionName_of_mem _ (by decide)

/-- The `argumentsText` of expressions with writable leaves fills parentheses. -/
theorem fills_argumentsText : (es : List (Expr Float)) →
    LeavesAll writable.text writable.unit es → Fills (argumentsText es).toList
  | [], _ => fills_of_plain (by simp [argumentsText, Scan.Plain])
  | [e], h => (neutral_innerText e h.1).fills
  | e :: e' :: es, h => by
    have htext : (argumentsText (e :: e' :: es)).toList =
        e.innerText.toList ++ ',' :: ' ' :: (argumentsText (e' :: es)).toList := by
      simp [argumentsText]
    rw [htext]
    exact Fills.comma (neutral_innerText e h.1) (fills_argumentsText (e' :: es) h.2).space

end

/-- An expression with `writable` leaves is written as a `Neutral` text. -/
theorem Leaves.neutral_text {e : Expr Float} (h : e.Obeys writable) :
    Neutral e.text.toList := by
  have hinner := neutral_innerText e h
  unfold text
  split
  · exact neutral_calc hinner.fills
  · exact hinner

end Expr

end ThemeColor
