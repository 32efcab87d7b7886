import ThemeColor.Proofs.Agreement
import ThemeColor.Proofs.BindingLevels
import ThemeColor.Proofs.ColorReading
import ThemeColor.Proofs.Typesetting

/-!
# Reading written expressions back

An expression over references to custom properties is written with as few parentheses as possible.
Read back as the channel of a color it is the same expression up to grouping, so it has the same
value; where no grouping is lost on the way it is the very same tree.

The proof goes along the text. Every part of it is typeset from components that write its part of
the tree at the level its precedence gives (`Typesets`), and parentheses stand exactly where an
operator asks for a higher level than that.

## Main results

* `Expr.typesets_innerText`: each expression is typeset at the level of its precedence;
* `Color.parse_rgb_text`: the text of an expression is read back as a color channel.
-/

namespace ThemeColor

open Text Component Grammar

/-! ## Expressions over references -/

/-- The text is a reference to a custom property, named by ASCII letters, digits and hyphens. -/
def IsReference (text : String) : Prop :=
  ∃ name : List Char, (∀ c ∈ name, c.isAlphanum ∨ c = '-') ∧
    text = "var(--" ++ String.ofList name ++ ")"

namespace Expr

variable {α : Type}

mutual

/-- All leaves are references to custom properties, and functions have as many arguments as they
take. -/
def IsSymbolic : Expr α → Prop
  | .quantity _ => False
  | .verbatim text => IsReference text
  | .binary _ lhs rhs => IsSymbolic lhs ∧ IsSymbolic rhs
  | .call function args => function.Admits args.length ∧ IsSymbolicAll args

/-- All of the expressions are symbolic. -/
def IsSymbolicAll : List (Expr α) → Prop
  | [] => True
  | e :: es => IsSymbolic e ∧ IsSymbolicAll es

end

end Expr

/-! ## Parts of the text -/

/-- The text starts with a letter or a parenthesis, as every operand does. -/
def StartsOperand (text : List Char) : Prop := ∃ c ∈ '(' :: Scan.letters, text.head? = some c

/-- A text that satisfies `StartsOperand` starts neither with a blank nor with an asterisk. -/
theorem StartsOperand.exists_cons {text : List Char} (h : StartsOperand text) :
    ∃ c rest, text = c :: rest ∧ Scan.isSpace c = false ∧ c ≠ '*' := by
  obtain ⟨c, hc, hhead⟩ := h
  obtain ⟨rest, rfl⟩ := List.head?_eq_some_iff.mp hhead
  have hplain : ∀ c ∈ '(' :: Scan.letters, Scan.isSpace c = false ∧ c ≠ '*' := by decide
  exact ⟨c, rest, rfl, hplain c hc⟩

theorem StartsOperand.append {text : List Char} (h : StartsOperand text) (tail : List Char) :
    StartsOperand (text ++ tail) := by
  obtain ⟨c, hc, hhead⟩ := h
  exact ⟨c, hc, by rw [List.head?_append, hhead]; rfl⟩

/-- A blank in front of a text that satisfies `StartsOperand` is `Typeset` as a blank. -/
theorem StartsOperand.typeset_blank {tail : List Char} {offset : Nat} (h : StartsOperand tail) :
    Typeset [' '] offset tail [.token ⟨.whitespace, [], [' '], offset⟩] := by
  obtain ⟨c, rest, rfl, hspace, -⟩ := h.exists_cons
  exact Component.typeset_blank hspace

/-- The name of a function satisfies `StartsOperand`. -/
theorem startsOperand_function {word : List Char} (h : Scan.IsFunctionName word)
    (rest : List Char) : StartsOperand (word ++ rest) := by
  obtain ⟨c, word, rfl⟩ := List.exists_cons_of_ne_nil h.ne_nil
  exact ⟨c, List.mem_cons_of_mem _ (h.letters c (by simp)), rfl⟩

/-- The text is an operand that is typeset, wherever it stands, from components that write the
expression at the given level. -/
structure Typesets (level : Nat) (text : String) (e : Expr Float) : Prop where
  /-- The text is an operand. -/
  starts : StartsOperand text.toList
  /-- There are components for every place of the text. -/
  components : ∀ (offset : Nat) (tail : List Char),
    ∃ cs, Typeset text.toList offset tail cs ∧ WritesAt level cs e

variable {level : Nat} {text : String} {e : Expr Float} {tail : List Char} {offset : Nat}

/-- A text that `Typesets` an expression at a tighter level does so where less is asked for. -/
theorem Typesets.mono {level' : Nat} (h : Typesets level text e) (hle : level' ≤ level) :
    Typesets level' text e where
  starts := h.starts
  components offset tail := by
    obtain ⟨cs, htypeset, hwrites⟩ := h.components offset tail
    exact ⟨cs, htypeset, hwrites.mono hle⟩

theorem blank_token {l : Lexeme} (h : l.token = .whitespace) : Blank [.token l] := by
  simp [Blank, isWhitespace_iff, token?, h]

/-- A sign is `Typeset` with the blanks around it. -/
theorem exists_typeset_sign (op : Operator) (hop : op.precedence = 1) (htail : StartsOperand tail)
    (offset : Nat) : ∃ mid, Typeset [' ', op.char, ' '] offset tail mid ∧ IsSymbol op mid := by
  obtain ⟨hsign, hspace⟩ : op.char ∈ ['+', '-'] ∧ Scan.isSpace op.char = false := by
    cases op with
    | add => decide
    | sub => decide
    | mul => cases hop
    | div => cases hop
  have htypeset : Typeset ([' '] ++ ([op.char] ++ [' '])) offset tail _ :=
    (typeset_blank hspace).append ((typeset_sign hsign).append htail.typeset_blank)
  exact ⟨_, htypeset, @IsSymbol.padded op [_] [_] _ (blank_token rfl) (isToken_iff.mpr rfl)
    (blank_token rfl)⟩

/-- An operator in front of an operand is `Typeset` with the blanks around it. -/
theorem exists_typeset_symbol (op : Operator) (htail : StartsOperand tail) (offset : Nat) :
    ∃ mid, Typeset op.symbol.toList offset tail mid ∧ IsSymbol op mid := by
  cases op with
  | add => exact exists_typeset_sign .add rfl htail offset
  | sub => exact exists_typeset_sign .sub rfl htail offset
  | mul =>
    have htext : Operator.mul.symbol.toList = ['*'] := rfl
    rw [htext]
    exact ⟨_, typeset_separator (by simp) nofun,
      @IsSymbol.padded .mul [] [] _ blank_nil (isToken_iff.mpr rfl) blank_nil⟩
  | div =>
    have htext : Operator.div.symbol.toList = ['/'] := rfl
    rw [htext]
    -- A star behind the slash would start a comment, but no operand starts with one.
    obtain ⟨c, rest, rfl, -, hstar⟩ := htail.exists_cons
    exact ⟨_, typeset_separator (by simp) (by simpa using hstar),
      @IsSymbol.padded .div [] [] _ blank_nil (isToken_iff.mpr rfl) blank_nil⟩

/-- Two operands at the levels that an operator asks for, and a text that `Typesets` the operation
at its own level. -/
theorem Typesets.binary {a b : String} {l r : Expr Float} (op : Operator)
    (hl : Typesets op.precedence a l) (hr : Typesets op.rightLevel b r) :
    Typesets op.precedence (a ++ op.symbol ++ b) (.binary op l r) := by
  have htext : (a ++ op.symbol ++ b).toList = a.toList ++ (op.symbol.toList ++ b.toList) := by
    simp only [String.toList_append, List.append_assoc]
  constructor
  · rw [htext]
    exact hl.starts.append _
  · intro offset tail
    rw [htext]
    -- From left to right, since each part starts where the one before it ends.
    obtain ⟨x, hx, hxl⟩ := hl.components offset (op.symbol.toList ++ b.toList ++ tail)
    obtain ⟨mid, hmid, hsymbol⟩ := exists_typeset_symbol op (hr.starts.append tail)
      (offset + byteSize a.toList)
    obtain ⟨y, hy, hyr⟩ := hr.components
      (offset + byteSize a.toList + byteSize op.symbol.toList) tail
    exact ⟨x ++ (mid ++ y), hx.append (hmid.append hy), hxl.binary op hsymbol hyr⟩

/-- Parentheses turn any level of `Typesets` into a value. -/
theorem Typesets.group (h : Typesets level text e) : Typesets 3 ("(" ++ text ++ ")") e := by
  have htext : ("(" ++ text ++ ")").toList = '(' :: (text.toList ++ [')']) := by simp
  constructor
  · rw [htext]
    exact ⟨'(', by simp, rfl⟩
  · intro offset tail
    rw [htext]
    obtain ⟨body, hbody, hwrites⟩ := h.components (offset + 1) (')' :: tail)
    obtain ⟨opener, closer, hopener, htypeset⟩ := typeset_group hbody
    exact ⟨_, htypeset, hwrites.group hopener⟩

/-- A function whose arguments are `Typeset` is a value if the block is one. -/
theorem typesets_function {name inside : String} {P : List Component → Prop}
    (hname : Scan.IsFunctionName name.toList)
    (hinside : ∀ (offset : Nat) (tail : List Char),
      ∃ body, Typeset inside.toList offset (')' :: tail) body ∧ P body)
    (hvalue : ∀ (opener : Lexeme) (body : List Component) (closer : Lexeme),
      opener.token = .function name → P body →
      textAll [.block opener body closer] = name ++ "(" ++ inside ++ ")" →
      WritesValue [.block opener body closer] e) :
    Typesets 3 (name ++ "(" ++ inside ++ ")") e := by
  have htext : (name ++ "(" ++ inside ++ ")").toList =
      name.toList ++ '(' :: (inside.toList ++ [')']) := by simp
  constructor
  · rw [htext]
    exact startsOperand_function hname _
  · intro offset tail
    rw [htext]
    obtain ⟨body, hbody, hP⟩ := hinside (offset + byteSize (name.toList ++ ['('])) tail
    obtain ⟨opener, closer, hopener, hgap, htypeset⟩ := typeset_function hname hbody
    rw [String.ofList_toList] at hopener
    -- No comment stands in the text, so the block has the text that it is typeset from.
    refine ⟨_, htypeset, hvalue opener body closer hopener hP ?_⟩
    rw [htypeset.textAll_eq hgap, ← htext, String.ofList_toList]

/-! ## Leaves -/

/-- A name that starts with two hyphens is a single token in front of a closing parenthesis. -/
theorem token_property {name : List Char} (h : ∀ c ∈ name, c.isAlphanum ∨ c = '-')
    (tail : List Char) :
    Scan.token '-' ('-' :: name ++ ')' :: tail) =
      ⟨.ident (String.ofList ('-' :: '-' :: name)), '-' :: '-' :: name, ')' :: tail⟩ := by
  have hchars : ∀ c ∈ '-' :: '-' :: name, Scan.isNameChar c := by
    have hname : ∀ c ∈ name, Scan.isNameChar c := by
      intro c hc
      rcases h c hc with hc | rfl
      · rw [Char.isAlphanum, Bool.or_eq_true] at hc
        rcases hc with hc | hc <;> simp [Scan.isNameChar, Scan.isNameStart, hc]
      · decide
    simpa [Scan.isNameChar] using hname
  have hend : Scan.name (')' :: tail) = ⟨[], [], ')' :: tail⟩ := by
    rw [Scan.name, if_neg (by decide), if_neg (by simp)]
  -- A hyphen that ends a markup comment would be followed by `>`.
  have hmarkup : ¬ (name ++ ')' :: tail).take 1 = ['>'] := by
    cases name with
    | nil => simp
    | cons c name =>
      intro heq
      obtain rfl : c = '>' := by simpa using heq
      exact absurd (h '>' (by simp)) (by decide)
  have hname := Scan.name_run hchars hend
  simp only [List.cons_append] at hname ⊢
  simp [Scan.token, Scan.isSpace, Numeral.startsWith, Sign.scan, Sign.ofChar?,
    Numeral.startsUnsigned, Numeral.startsWithDigit, Numeral.isDigit, hmarkup, Scan.startsName,
    Scan.nameLike, hname]

/-- A text that satisfies `IsReference` is typeset as a function with a single name inside. -/
theorem IsReference.typesets (h : IsReference text) : Typesets 3 text (.verbatim text) := by
  obtain ⟨name, hname, rfl⟩ := h
  have htext : "var(--" ++ String.ofList name ++ ")" =
      "var" ++ "(" ++ ("--" ++ String.ofList name) ++ ")" := by
    simp [← String.toList_inj]
  have hproperty : ("--" ++ String.ofList name).toList = '-' :: '-' :: name := by simp
  rw [htext]
  refine typesets_function (P := fun _ => True) (Scan.isFunctionName_of_mem _ (by simp)) ?_ ?_
  · intro offset tail
    rw [hproperty]
    -- The inside is a single name, and there are no parentheses in it.
    refine ⟨_, .token nofun (token_property hname tail) rfl ?_, trivial⟩
    intro p hp hmem
    have hother : ∀ p ∈ ['(', ')'], ¬ (p.isAlphanum ∨ p = '-') := by decide
    simp only [List.mem_cons] at hmem
    rcases hmem with hmem | hmem | hmem
    · exact hother p hp (.inr hmem)
    · exact hother p hp (.inr hmem)
    · exact hother p hp (hname p hmem)
  · intro opener body closer hopener _ heq
    rw [← heq]
    exact writesValue_var hopener

/-! ## Expressions -/

namespace Expr

/-- An operand that is `parenthesized`, if it needs this, is typeset at the level that is asked for.
-/
theorem typesets_parenthesized {wrap : Bool} (hlevel : level ≤ 3)
    (hwrap : wrap = false → level ≤ e.precedence)
    (h : Typesets e.precedence (innerText e) e) :
    Typesets level (parenthesized wrap (innerText e)) e := by
  cases wrap with
  | false => exact h.mono (hwrap rfl)
  | true => exact h.group.mono hlevel

/-- An operand that `wrapsLeft` leaves bare binds tightly enough. -/
theorem le_precedence_of_wrapsLeft {op : Operator} (h : wrapsLeft op e = false) :
    op.precedence ≤ e.precedence := by
  simpa [wrapsLeft] using h

/-- An operand that `wrapsRight` leaves bare binds tightly enough. -/
theorem rightLevel_le_precedence {op : Operator} (h : wrapsRight op e = false) :
    op.rightLevel ≤ e.precedence := by
  simp only [wrapsRight, Bool.or_eq_false_iff, decide_eq_false_iff_not, Bool.and_eq_false_iff,
    beq_eq_false_iff_ne] at h
  obtain ⟨hle, hequal⟩ := h
  rw [Operator.rightLevel]
  split
  · rename_i hdirected
    have hne : e.precedence ≠ op.precedence := by
      rcases hequal with hne | hundirected
      · exact hne
      · rw [hdirected] at hundirected
        cases hundirected
    omega
  · omega

theorem isFunctionName_name (function : MathFunction) :
    Scan.IsFunctionName function.name.toList := by
  cases function <;> exact Scan.isFunctionName_of_mem _ (by decide)

mutual

/-- The `innerText` of each expression typesets it at the level of its precedence. -/
theorem typesets_innerText : (e : Expr Float) → e.IsSymbolic →
    Typesets e.precedence (innerText e) e
  | .quantity _, h => h.elim
  | .verbatim _, h => by
    rw [innerText]
    exact h.typesets
  | .binary op lhs rhs, ⟨hl, hr⟩ => by
    have hlhs := typesets_innerText lhs hl
    have hrhs := typesets_innerText rhs hr
    rw [innerText]
    -- Parentheses are written just where the precedence of an operand is below what is asked for.
    refine Typesets.binary op (typesets_parenthesized ?_ le_precedence_of_wrapsLeft hlhs)
      (typesets_parenthesized ?_ rightLevel_le_precedence hrhs)
    · cases op <;> decide
    · cases op <;> decide
  | .call function args, ⟨hlength, hargs⟩ => by
    have hne : args ≠ [] := by
      rintro rfl
      cases function <;> simp [MathFunction.Admits] at hlength
    rw [innerText]
    refine typesets_function (isFunctionName_name function)
      (fun offset tail => (typesets_argumentsText args hne hargs).2 offset (')' :: tail)) ?_
    exact fun opener body closer hopener hbody _ => hbody.call hopener hlength

/-- The arguments of a function, the `argumentsText`, are typeset one after the other. -/
theorem typesets_argumentsText : (es : List (Expr Float)) → es ≠ [] → IsSymbolicAll es →
    StartsOperand (argumentsText es).toList ∧ ∀ (offset : Nat) (tail : List Char),
      ∃ cs, Typeset (argumentsText es).toList offset tail cs ∧ WritesAll cs es
  | [], hne, _ => absurd rfl hne
  | [e], _, ⟨he, _⟩ => by
    have h := typesets_innerText e he
    rw [argumentsText]
    refine ⟨h.starts, fun offset tail => ?_⟩
    obtain ⟨cs, htypeset, hwrites⟩ := h.components offset tail
    exact ⟨cs, htypeset, hwrites.all⟩
  | e :: e' :: es, _, ⟨he, hes⟩ => by
    have hfirst := typesets_innerText e he
    obtain ⟨hstarts, hrest⟩ := typesets_argumentsText (e' :: es) (by simp) hes
    have htext : (argumentsText (e :: e' :: es)).toList =
        (innerText e).toList ++ ([','] ++ ([' '] ++ (argumentsText (e' :: es)).toList)) := by
      rw [argumentsText]
      · simp
      · simp
    rw [htext]
    refine ⟨hfirst.starts.append _, fun offset tail => ?_⟩
    -- The other arguments start behind the first one, a comma and a blank.
    obtain ⟨x, hx, hwrites⟩ := hfirst.components offset
      ([','] ++ ([' '] ++ (argumentsText (e' :: es)).toList) ++ tail)
    obtain ⟨y, hy, hall⟩ := hrest (offset + byteSize (innerText e).toList + 1 + 1) tail
    have hcomma : Typeset ([','] ++ ([' '] ++ (argumentsText (e' :: es)).toList)) _ tail _ :=
      (typeset_comma _ _).append ((hstarts.append tail).typeset_blank.append hy)
    exact ⟨_, hx.append hcomma,
      WritesAll.cons (b := [_]) hwrites (isToken_iff.mpr rfl) (blank_token rfl) hall⟩

end

/-- In a style sheet every symbolic expression, by `IsSymbolic`, is a single value. -/
theorem typesets_text (he : e.IsSymbolic) : Typesets 3 e.text e := by
  have h := typesets_innerText e he
  cases e with
  | quantity q => exact he.elim
  | verbatim text => exact h
  | call function args => exact h
  | binary op lhs rhs =>
    -- Only an operator at the top is wrapped; a reference or a call is a value as it stands.
    have hname : Scan.IsFunctionName "calc".toList := Scan.isFunctionName_of_mem _ (by simp)
    exact typesets_function hname (fun offset tail => h.components offset (')' :: tail))
      fun opener body closer hopener hbody _ => hbody.calculation hopener

end Expr

/-! ## Colors -/

/-- The numeral `0`. -/
def Numeral.zero : Numeral := ⟨none, ['0'], [], none⟩

namespace Component

/-- A component whose `Value` is not known is a block. -/
theorem token?_of_unknown {c : Component} (h : Value c e) (he : e.quantity? = none) :
    c.token? = none := by
  cases c with
  | token l =>
    have hnumeric := value_token_iff.mp h
    generalize l.token = t at hnumeric
    cases hnumeric <;> cases he
  | block opener body closer => rfl

end Component

namespace Color

/-- A text that is `Typeset` as a single block of a color is read as the color. -/
theorem parse_of_typeset {text : String} {opener closer : Lexeme} {body : List Component}
    {c : Color Float} {name : String}
    (h : Typeset text.toList 0 [] [.block opener body closer])
    (hopener : opener.token = .function name) (hcall : Call name body c)
    (hdepth : depthAll body < nestingLimit) : parse text = .ok c := by
  refine parse_of_contents ?_ h.matched.1 ?_ (Single.call hopener hcall)
  · rw [h.contents_eq, lexemesAll, lexemesAll, List.append_nil]
  · rw [depth]
    omega

/-- The digit zero in front of a comma or a closing parenthesis. -/
theorem typeset_zero {c : Char} (hc : c ∈ [',', ')']) {offset : Nat} {tail : List Char} :
    Typeset ['0'] offset (c :: tail) [.token ⟨.number .zero, [], ['0'], offset⟩] := by
  simp only [List.mem_cons, List.not_mem_nil, or_false] at hc
  rcases hc with rfl | rfl
  · exact .token nofun rfl rfl (by decide)
  · exact .token nofun rfl rfl (by decide)

/-- A channel whose value is not known, and a zero behind each of two commas, are a `Call`. -/
theorem call_rgb_zeros {c : Component} {red : Expr Float} (hvalue : Value c red)
    (hred : red.quantity? = none) (i j k l : Nat) :
    Call "rgb" [c, .token ⟨.comma, [], [','], i⟩, .token ⟨.number .zero, [], ['0'], j⟩,
        .token ⟨.comma, [], [','], k⟩, .token ⟨.number .zero, [], ['0'], l⟩]
      (.rgb ⟨red, .number Numeral.zero.toFloat, .number Numeral.zero.toFloat, .number 1.0⟩) := by
  have hblock : NoSlash [c] := by simp [NoSlash, isToken, token?_of_unknown hvalue hred]
  have hnumber (start : Nat) : NoSlash [.token ⟨.number .zero, [], ['0'], start⟩] := by
    simp [NoSlash, isToken, token?]
  have hcomma (start : Nat) : isToken .comma (.token ⟨.comma, [], [','], start⟩) :=
    isToken_iff.mpr rfl
  -- Only known channels are scaled or checked, so the first one stays as it is.
  have hunknown : Channel (Scaled (· * 2.55)) [c] red :=
    ⟨red, .product (.operand (.single hvalue)), .unknown hred⟩
  have hzero (start : Nat) : Channel (Scaled (· * 2.55))
      [.token ⟨.number .zero, [], ['0'], start⟩] (.number Numeral.zero.toFloat) :=
    ⟨_, .product (.operand (.single (value_token_iff.mpr (.number .zero)))), .plain _⟩
  exact .rgb (.inl (Text.sameIgnoringCase_refl _))
    (.commas (hcomma i) (hcomma k) hblock (hnumber j) (hnumber l)) hunknown (hzero j) (hzero l)
    .full

/-- A symbolic expression that does not nest too deep is read back up to grouping, as
`Expr.Regroups` says. -/
theorem exists_parse_rgb {e : Expr Float} (he : e.IsSymbolic)
    (hnests : NestsWithin 60 e.text.toList) :
    ∃ color : Rgb Float, parse ("rgb(" ++ e.text ++ ",0,0)") = .ok (.rgb color) ∧
      Expr.Regroups e color.red := by
  have htext : ("rgb(" ++ e.text ++ ",0,0)").toList = "rgb".toList ++
      '(' :: (e.text.toList ++ ([','] ++ (['0'] ++ ([','] ++ ['0']))) ++ [')']) := by
    simp
  have hname : Scan.IsFunctionName "rgb".toList := Scan.isFunctionName_of_mem _ (by simp)
  -- The channels are typeset from left to right: a single block, and a zero behind each comma.
  obtain ⟨cs, hcs, c, red, rfl, hvalue, hred⟩ :=
    (Expr.typesets_text he).components 4 ([','] ++ (['0'] ++ ([','] ++ ['0'])) ++ [')'])
  have hzeros : Typeset ([','] ++ (['0'] ++ ([','] ++ ['0']))) (4 + byteSize e.text.toList)
      [')'] _ :=
    (typeset_comma _ _).append ((typeset_zero (by simp)).append
      ((typeset_comma _ _).append (typeset_zero (by simp))))
  obtain ⟨opener, closer, hopener, -, hblock⟩ := typeset_function hname (hcs.append hzeros)
  rw [← htext] at hblock
  -- The function itself takes one of the levels that are allowed.
  have hdepth : depthAll [c] ≤ 60 := hcs.depth_le hnests
  refine ⟨_, parse_of_typeset hblock hopener (call_rgb_zeros hvalue hred.unknown _ _ _ _) ?_,
    hred.regroups⟩
  simp only [List.cons_append, List.nil_append, depthAll, depth, nestingLimit] at hdepth ⊢
  omega

/-- The text of a symbolic expression that does not nest too deep is read back, as the red channel
of a color, with the value it had; if it is grouped to the left it is read back as itself. -/
theorem parse_rgb_text {e : Expr Float} (he : e.IsSymbolic)
    (hnests : NestsWithin 60 e.text.toList) :
    ∃ color : Rgb Float, parse ("rgb(" ++ e.text ++ ",0,0)") = .ok (.rgb color) ∧
      (∀ known s, color.red.value? known s = e.value? known s) ∧
      (e.LeftGrouped → color.red = e) := by
  obtain ⟨color, hparse, hregroups⟩ := exists_parse_rgb he hnests
  exact ⟨color, hparse, fun _ _ => hregroups.value?_eq, hregroups.eq_self⟩

/-- The expression `--a + max(--b, --a/(--b*--c-1)) - --c-1` over properties. -/
def difference : Expr Float :=
  .binary .sub
    (.binary .add (.var "--a")
      (.call .max [.var "--b",
        .binary .div (.var "--a") (.binary .mul (.var "--b") (.var "--c-1"))]))
    (.var "--c-1")

/-- The sum in front of the minus sign is read back as one operand. -/
theorem parse_rgb_text_difference :
    difference.IsSymbolic ∧ NestsWithin 60 difference.text.toList ∧ difference.LeftGrouped ∧
      ∃ color : Rgb Float, parse ("rgb(" ++ difference.text ++ ",0,0)") = .ok (.rgb color) ∧
        color.red = difference := by
  have ha : IsReference ("var(" ++ "--a" ++ ")") := ⟨['a'], by decide, by decide +kernel⟩
  have hb : IsReference ("var(" ++ "--b" ++ ")") := ⟨['b'], by decide, by decide +kernel⟩
  have hc : IsReference ("var(" ++ "--c-1" ++ ")") :=
    ⟨['c', '-', '1'], by decide, by decide +kernel⟩
  have hsymbolic : difference.IsSymbolic :=
    ⟨⟨ha, Nat.le_refl 2, hb, ⟨ha, hb, hc⟩, trivial⟩, hc⟩
  have hnests : NestsWithin 60 difference.text.toList := by decide +kernel
  have hgrouped : difference.LeftGrouped := by
    simp [difference, Expr.LeftGrouped, Expr.LeftGroupedAll, Expr.var, Operator.associates]
  obtain ⟨color, hparse, -, hred⟩ := parse_rgb_text hsymbolic hnests
  exact ⟨hsymbolic, hnests, hgrouped, color, hparse, hred hgrouped⟩

end Color

end ThemeColor
