import ThemeColor.Color.Grammar

/-!
# The grammar of color expressions

What a color expression may look like, as rules over components: single tokens and whole blocks.
The rules say nothing about the order in which anything is read, about places or about errors.

* `Sum` and `Product` are arithmetic over values of any kind, and `Value` is a single value: a
  numeric token, a block with a sum inside, or a block that stays verbatim.
* `Channels` are the arguments of `rgb()` and `hsl()`, in either of the two ways to separate them.
* `Writes` are the colors, with blanks around them.

A block in parentheses stays verbatim exactly if no sum is inside. So the rules for values refer to
what a sum is *not*, and `Value` goes down the tree of components; `value_block_iff` is its rule.
-/

namespace ThemeColor.Grammar

open Component

/-- All of the components are blank. -/
def Blank (cs : List Component) : Prop := ∀ c ∈ cs, c.isWhitespace

theorem blank_nil : Blank [] := by simp [Blank]

/-! ## Numbers -/

section Arithmetic

variable (value : Component → Expr Float → Prop)

/-- A value with blanks around it. -/
inductive Operand : List Component → Expr Float → Prop
  | padded {before after : List Component} {c : Component} {e : Expr Float}
      (hbefore : Blank before) (hvalue : value c e) (hafter : Blank after) :
      Operand (before ++ c :: after) e

/-- Values joined by `*` and `/`, from left to right. -/
inductive Product : List Component → Expr Float → Prop
  | operand {x : List Component} {a : Expr Float} (hx : Operand value x a) : Product x a
  | mul {x y : List Component} {op : Component} {a b : Expr Float} (hx : Product x a)
      (hop : isToken (.delim '*') op) (hy : Operand value y b) : Product (x ++ op :: y) (a.mul b)
  | div {x y : List Component} {op : Component} {a b : Expr Float} (hx : Product x a)
      (hop : isToken (.delim '/') op) (hy : Operand value y b) : Product (x ++ op :: y) (a.div b)

/-- Products joined by `+` and `-`, from left to right. A product that starts with a number with a
written sign is added without an operator. -/
inductive Sum : List Component → Expr Float → Prop
  | product {x : List Component} {a : Expr Float} (hx : Product value x a) : Sum x a
  | add {x y : List Component} {op : Component} {a b : Expr Float} (hx : Sum x a)
      (hop : isToken (.delim '+') op) (hy : Product value y b) : Sum (x ++ op :: y) (a.add b)
  | sub {x y : List Component} {op : Component} {a b : Expr Float} (hx : Sum x a)
      (hop : isToken (.delim '-') op) (hy : Product value y b) : Sum (x ++ op :: y) (a.sub b)
  | signed {x y : List Component} {c : Component} {a b : Expr Float} (hx : Sum x a)
      (hc : c.token?.any Token.isSignedNumber) (hy : Product value (c :: y) b) :
      Sum (x ++ c :: y) (a.add b)

/-- One or more sums with commas between them. -/
inductive Sums : List Component → List (Expr Float) → Prop
  | one {x : List Component} {e : Expr Float} (hx : Sum value x e) : Sums x [e]
  | cons {x y : List Component} {comma : Component} {e : Expr Float} {es : List (Expr Float)}
      (hx : Sum value x e) (hcomma : isToken .comma comma) (hy : Sums y es) :
      Sums (x ++ comma :: y) (e :: es)

/-- The value of a block: the sum inside parentheses or `calc()`, one of the functions of
arithmetic, or the text of any other function and of parentheses around anything else. -/
inductive BlockValue (opener : Lexeme) (body : List Component) (closer : Lexeme) :
    Expr Float → Prop
  | group {e : Expr Float} (hopener : opener.token = .opener .paren) (hbody : Sum value body e) :
      BlockValue opener body closer e
  | verbatimGroup (hopener : opener.token = .opener .paren) (hbody : ∀ e, ¬ Sum value body e) :
      BlockValue opener body closer (.verbatim (textAll [.block opener body closer]))
  | calculation {name : String} {e : Expr Float} (hopener : opener.token = .function name)
      (hname : Text.sameIgnoringCase name "calc") (hbody : Sum value body e) :
      BlockValue opener body closer e
  | least {name : String} {es : List (Expr Float)} (hopener : opener.token = .function name)
      (hname : Text.sameIgnoringCase name "min") (hbody : Sums value body es) :
      BlockValue opener body closer (.min es)
  | greatest {name : String} {es : List (Expr Float)} (hopener : opener.token = .function name)
      (hname : Text.sameIgnoringCase name "max") (hbody : Sums value body es) :
      BlockValue opener body closer (.max es)
  | clamp {name : String} {low middle high : Expr Float} (hopener : opener.token = .function name)
      (hname : Text.sameIgnoringCase name "clamp") (hbody : Sums value body [low, middle, high]) :
      BlockValue opener body closer (.clamp low middle high)
  | verbatimFunction {name : String} (hopener : opener.token = .function name)
      (hname : ∀ reserved ∈ ["calc", "min", "max", "clamp"],
        ¬ Text.sameIgnoringCase name reserved) :
      BlockValue opener body closer (.verbatim (textAll [.block opener body closer]))

end Arithmetic

/-- The value of a numeric token. -/
inductive NumericToken : Token → Expr Float → Prop
  | number (n : Numeral) : NumericToken (.number n) (.quantity ⟨n.toFloat, ""⟩)
  | percentage (n : Numeral) : NumericToken (.percentage n) (.quantity ⟨n.toFloat, "%"⟩)
  | dimension (n : Numeral) (unit : String) :
      NumericToken (.dimension n unit) (.quantity ⟨n.toFloat, unit⟩)

/-- The value of a component. The values in a block are those of the components in its body. -/
def Value : Component → Expr Float → Prop
  | .token l, e => NumericToken l.token e
  | .block opener body closer, e =>
    BlockValue (fun c e => ∃ _ : c ∈ body, Value c e) opener body closer e
termination_by c => sizeOf c
decreasing_by
  have := List.sizeOf_lt_of_mem ‹_›
  simp only [Component.block.sizeOf_spec]
  omega

/-- The components write a number. -/
def Number (cs : List Component) (e : Expr Float) : Prop := Sum Value cs e

section Congruence

variable {value value' : Component → Expr Float → Prop} {cs : List Component} {e : Expr Float}

/-- An `Operand` stays one when its components have more values. -/
theorem Operand.imp (h : ∀ c ∈ cs, ∀ e, value c e → value' c e) (hcs : Operand value cs e) :
    Operand value' cs e := by
  cases hcs with
  | padded hbefore hvalue hafter =>
    exact .padded hbefore (h _ (by simp) _ hvalue) hafter

/-- A `Product` stays one when its components have more values. -/
theorem Product.imp (h : ∀ c ∈ cs, ∀ e, value c e → value' c e) (hcs : Product value cs e) :
    Product value' cs e := by
  induction hcs with
  | operand hx => exact .operand (hx.imp h)
  | mul hx hop hy ih =>
    exact .mul (ih fun c hc => h c (by simp [hc])) hop (hy.imp fun c hc => h c (by simp [hc]))
  | div hx hop hy ih =>
    exact .div (ih fun c hc => h c (by simp [hc])) hop (hy.imp fun c hc => h c (by simp [hc]))

/-- A `Sum` stays one when its components have more values. -/
theorem Sum.imp (h : ∀ c ∈ cs, ∀ e, value c e → value' c e) (hcs : Sum value cs e) :
    Sum value' cs e := by
  induction hcs with
  | product hx => exact .product (hx.imp h)
  | add hx hop hy ih =>
    exact .add (ih fun c hc => h c (by simp [hc])) hop (hy.imp fun c hc => h c (by simp [hc]))
  | sub hx hop hy ih =>
    exact .sub (ih fun c hc => h c (by simp [hc])) hop (hy.imp fun c hc => h c (by simp [hc]))
  | signed hx hc hy ih =>
    refine .signed (ih fun c hc => h c (by simp [hc])) hc (hy.imp fun c hc => h c ?_)
    exact List.mem_append_right _ hc

/-- What a `Sum` is depends on the values of its own components only. -/
theorem sum_congr (h : ∀ c ∈ cs, ∀ e, value c e ↔ value' c e) :
    Sum value cs e ↔ Sum value' cs e :=
  ⟨.imp fun c hc e => (h c hc e).mp, .imp fun c hc e => (h c hc e).mpr⟩

/-- What is related by `Sums` stays so when the components have more values. -/
theorem Sums.imp {es : List (Expr Float)} (h : ∀ c ∈ cs, ∀ e, value c e → value' c e)
    (hcs : Sums value cs es) : Sums value' cs es := by
  induction hcs with
  | one hx => exact .one (hx.imp h)
  | cons hx hcomma hy ih =>
    exact .cons (hx.imp fun c hc => h c (by simp [hc])) hcomma (ih fun c hc => h c (by simp [hc]))

/-- What `Sums` relates depends on the values of the components only. -/
theorem sums_congr {es : List (Expr Float)} (h : ∀ c ∈ cs, ∀ e, value c e ↔ value' c e) :
    Sums value cs es ↔ Sums value' cs es :=
  ⟨.imp fun c hc e => (h c hc e).mp, .imp fun c hc e => (h c hc e).mpr⟩

/-- The `BlockValue` of a block depends on the token that opens it, on its text and on the sums
inside. -/
theorem BlockValue.imp {opener closer opener' closer' : Lexeme} {body body' : List Component}
    (htoken : opener'.token = opener.token)
    (htext : textAll [.block opener' body' closer'] = textAll [.block opener body closer])
    (hsum : ∀ e, Sum value body e ↔ Sum value' body' e)
    (hsums : ∀ es, Sums value body es ↔ Sums value' body' es)
    (hblock : BlockValue value opener body closer e) :
    BlockValue value' opener' body' closer' e := by
  cases hblock with
  | group hopener hbody => exact .group (htoken.trans hopener) ((hsum _).mp hbody)
  | verbatimGroup hopener hbody =>
    rw [← htext]
    exact .verbatimGroup (htoken.trans hopener) fun e he => hbody e ((hsum e).mpr he)
  | calculation hopener hname hbody =>
    exact .calculation (htoken.trans hopener) hname ((hsum _).mp hbody)
  | least hopener hname hbody => exact .least (htoken.trans hopener) hname ((hsums _).mp hbody)
  | greatest hopener hname hbody =>
    exact .greatest (htoken.trans hopener) hname ((hsums _).mp hbody)
  | clamp hopener hname hbody => exact .clamp (htoken.trans hopener) hname ((hsums _).mp hbody)
  | verbatimFunction hopener hname =>
    rw [← htext]
    exact .verbatimFunction (htoken.trans hopener) hname

/-- The `BlockValue` of a block depends on the values of the components inside only. -/
theorem blockValue_congr {opener closer : Lexeme} {body : List Component}
    (h : ∀ c ∈ body, ∀ e, value c e ↔ value' c e) :
    BlockValue value opener body closer e ↔ BlockValue value' opener body closer e :=
  ⟨.imp rfl rfl (fun _ => sum_congr h) fun _ => sums_congr h,
    .imp rfl rfl (fun _ => (sum_congr h).symm) fun _ => (sums_congr h).symm⟩

end Congruence

section Padding

variable {value : Component → Expr Float → Prop} {x b : List Component} {e : Expr Float}

theorem Operand.single {c : Component} (h : value c e) : Operand value [c] e :=
  .padded blank_nil h blank_nil

theorem Operand.blankBefore (hb : Blank b) (h : Operand value x e) : Operand value (b ++ x) e := by
  cases h with
  | padded hbefore hvalue hafter =>
    rw [← List.append_assoc]
    exact .padded (List.forall_mem_append.mpr ⟨hb, hbefore⟩) hvalue hafter

theorem Operand.blankAfter (h : Operand value x e) (hb : Blank b) : Operand value (x ++ b) e := by
  cases h with
  | padded hbefore hvalue hafter =>
    rw [List.append_assoc, List.cons_append]
    exact .padded hbefore hvalue (List.forall_mem_append.mpr ⟨hafter, hb⟩)

theorem Product.blankBefore (hb : Blank b) (h : Product value x e) :
    Product value (b ++ x) e := by
  induction h with
  | operand hx => exact .operand (hx.blankBefore hb)
  | mul hx hop hy ih =>
    rw [← List.append_assoc]
    exact .mul ih hop hy
  | div hx hop hy ih =>
    rw [← List.append_assoc]
    exact .div ih hop hy

theorem Product.blankAfter (h : Product value x e) (hb : Blank b) :
    Product value (x ++ b) e := by
  cases h with
  | operand hx => exact .operand (hx.blankAfter hb)
  | mul hx hop hy =>
    rw [List.append_assoc, List.cons_append]
    exact .mul hx hop (hy.blankAfter hb)
  | div hx hop hy =>
    rw [List.append_assoc, List.cons_append]
    exact .div hx hop (hy.blankAfter hb)

/-- Blanks may stand in front of a `Sum`. -/
theorem Sum.blankBefore (hb : Blank b) (h : Sum value x e) : Sum value (b ++ x) e := by
  induction h with
  | product hx => exact .product (hx.blankBefore hb)
  | add hx hop hy ih =>
    rw [← List.append_assoc]
    exact .add ih hop hy
  | sub hx hop hy ih =>
    rw [← List.append_assoc]
    exact .sub ih hop hy
  | signed hx hc hy ih =>
    rw [← List.append_assoc]
    exact .signed ih hc hy

/-- Blanks may stand behind a `Sum`. -/
theorem Sum.blankAfter (h : Sum value x e) (hb : Blank b) : Sum value (x ++ b) e := by
  cases h with
  | product hx => exact .product (hx.blankAfter hb)
  | add hx hop hy =>
    rw [List.append_assoc, List.cons_append]
    exact .add hx hop (hy.blankAfter hb)
  | sub hx hop hy =>
    rw [List.append_assoc, List.cons_append]
    exact .sub hx hop (hy.blankAfter hb)
  | signed hx hc hy =>
    rw [List.append_assoc, List.cons_append]
    exact .signed hx hc (hy.blankAfter hb)

end Padding

/-! ### Components of a sum -/

section Members

variable {value : Component → Expr Float → Prop} {cs : List Component} {e : Expr Float}

/-- There is a value in every `Operand`. -/
theorem Operand.exists_value (h : Operand value cs e) : ∃ c ∈ cs, ∃ v, value c v := by
  cases h with
  | padded hbefore hvalue hafter => exact ⟨_, by simp, _, hvalue⟩

/-- There is a value in every `Product`. -/
theorem Product.exists_value (h : Product value cs e) : ∃ c ∈ cs, ∃ v, value c v := by
  induction h with
  | operand hx => exact hx.exists_value
  | mul hx hop hy ih | div hx hop hy ih =>
    obtain ⟨c, hc, hvalue⟩ := ih
    exact ⟨c, List.mem_append_left _ hc, hvalue⟩

/-- There is a value in every `Sum`. -/
theorem Sum.exists_value (h : Sum value cs e) : ∃ c ∈ cs, ∃ v, value c v := by
  induction h with
  | product hx => exact hx.exists_value
  | add hx hop hy ih | sub hx hop hy ih | signed hx hc hy ih =>
    obtain ⟨c, hc, hvalue⟩ := ih
    exact ⟨c, List.mem_append_left _ hc, hvalue⟩

/-- There is at least one sum in `Sums`. -/
theorem Sums.ne_nil {es : List (Expr Float)} (h : Sums value cs es) : es ≠ [] := by
  cases h <;> simp

variable {P : Component → Prop} (hvalue : ∀ c e, value c e → P c)
  (hblank : ∀ c : Component, c.isWhitespace → P c)
  (hop : ∀ c char, isToken (.delim char) c → P c)

include hvalue hblank

/-- An `Operand` consists of a value and blanks. -/
theorem Operand.forall_mem (h : Operand value cs e) : ∀ c ∈ cs, P c := by
  cases h with
  | padded hbefore hc hafter =>
    refine List.forall_mem_append.mpr ⟨fun c hc => hblank c (hbefore c hc), ?_⟩
    exact List.forall_mem_cons.mpr ⟨hvalue _ _ hc, fun c hc => hblank c (hafter c hc)⟩

include hop

/-- A `Product` consists of values, blanks and operators. -/
theorem Product.forall_mem (h : Product value cs e) : ∀ c ∈ cs, P c := by
  induction h with
  | operand hx => exact hx.forall_mem hvalue hblank
  | mul hx hc hy ih | div hx hc hy ih =>
    refine List.forall_mem_append.mpr ⟨ih, List.forall_mem_cons.mpr ⟨hop _ _ hc, ?_⟩⟩
    exact hy.forall_mem hvalue hblank

/-- A `Sum` consists of values, blanks and operators. -/
theorem Sum.forall_mem (h : Sum value cs e) : ∀ c ∈ cs, P c := by
  induction h with
  | product hx => exact hx.forall_mem hvalue hblank hop
  | add hx hc hy ih | sub hx hc hy ih =>
    refine List.forall_mem_append.mpr ⟨ih, List.forall_mem_cons.mpr ⟨hop _ _ hc, ?_⟩⟩
    exact hy.forall_mem hvalue hblank hop
  | signed hx hc hy ih =>
    exact List.forall_mem_append.mpr ⟨ih, hy.forall_mem hvalue hblank hop⟩

end Members

/-- The `Value` of a token is the one of a `NumericToken`. -/
theorem value_token_iff {l : Lexeme} {e : Expr Float} :
    Value (.token l) e ↔ NumericToken l.token e := by
  rw [Value]

/-- The `Value` of a block is its `BlockValue` over the values of components. -/
theorem value_block_iff {opener closer : Lexeme} {body : List Component} {e : Expr Float} :
    Value (.block opener body closer) e ↔ BlockValue Value opener body closer e := by
  rw [Value]
  exact blockValue_congr fun c hc e =>
    ⟨fun ⟨_, hvalue⟩ => hvalue, fun hvalue => ⟨hc, hvalue⟩⟩

/-! ## Colors -/

/-- The byte that two hexadecimal digits write. -/
def hexByte (high low : Char) : Float := .ofNat (Scan.hexValue [high, low])

/-- The color that hexadecimal digits write: one digit for each channel, which counts twice, or two
digits. The opacity is the fourth channel, if there is one. -/
inductive HexColor : List Char → Rgb Float → Prop
  | three {r g b : Char} (hdigits : [r, g, b].all Scan.isHexDigit) :
      HexColor [r, g, b]
        ⟨.number (hexByte r r), .number (hexByte g g), .number (hexByte b b), .number 1.0⟩
  | four {r g b a : Char} (hdigits : [r, g, b, a].all Scan.isHexDigit) :
      HexColor [r, g, b, a]
        ⟨.number (hexByte r r), .number (hexByte g g), .number (hexByte b b),
          .number (hexByte a a / 255.0)⟩
  | six {r r' g g' b b' : Char} (hdigits : [r, r', g, g', b, b'].all Scan.isHexDigit) :
      HexColor [r, r', g, g', b, b']
        ⟨.number (hexByte r r'), .number (hexByte g g'), .number (hexByte b b'), .number 1.0⟩
  | eight {r r' g g' b b' a a' : Char}
      (hdigits : [r, r', g, g', b, b', a, a'].all Scan.isHexDigit) :
      HexColor [r, r', g, g', b, b', a, a']
        ⟨.number (hexByte r r'), .number (hexByte g g'), .number (hexByte b b'),
          .number (hexByte a a' / 255.0)⟩

/-- The color of a name. -/
inductive Keyword : String → Color Float → Prop
  | current {name : String} (h : Text.sameIgnoringCase name "currentcolor") :
      Keyword name (.dynamic .current)
  | inherit {name : String} (h : Text.sameIgnoringCase name "inherit") :
      Keyword name (.dynamic .inherit)
  | named {name : String} (hcurrent : ¬ Text.sameIgnoringCase name "currentcolor")
      (hinherit : ¬ Text.sameIgnoringCase name "inherit") : Keyword name (.named name)

/-- The channel that a number stands for where a plain number is kept and a percentage is scaled. An
expression with an unknown value is kept as it is. -/
inductive Scaled (scale : Float → Float) : Expr Float → Expr Float → Prop
  | percent (v : Float) : Scaled scale (.quantity ⟨v, "%"⟩) (.quantity ⟨scale v, ""⟩)
  | plain (v : Float) : Scaled scale (.quantity ⟨v, ""⟩) (.quantity ⟨v, ""⟩)
  | unknown {e : Expr Float} (h : e.quantity? = none) : Scaled scale e e

/-- The angle that a number stands for. -/
inductive Angle : Expr Float → Expr Float → Prop
  | angle {v : Float} {unit : String}
      (h : ∃ angle ∈ ["", "deg", "grad", "rad", "turn"], Text.sameIgnoringCase unit angle) :
      Angle (.quantity ⟨v, unit⟩) (.quantity ⟨v, unit⟩)
  | unknown {e : Expr Float} (h : e.quantity? = none) : Angle e e

/-- The percentage that a number stands for. -/
inductive Percentage : Expr Float → Expr Float → Prop
  | percent (v : Float) : Percentage (.quantity ⟨v, "%"⟩) (.quantity ⟨v, "%"⟩)
  | plain (v : Float) : Percentage (.quantity ⟨v, ""⟩) (.quantity ⟨v, "%"⟩)
  | unknown {e : Expr Float} (h : e.quantity? = none) : Percentage e e

/-- The components write a number, and the number stands for the channel. -/
def Channel (rule : Expr Float → Expr Float → Prop) (cs : List Component) (e : Expr Float) : Prop :=
  ∃ n, Number cs n ∧ rule n e

/-- The opacity of a color: full if nothing is written. -/
inductive Opacity : Option (List Component) → Expr Float → Prop
  | full : Opacity none (.number 1.0)
  | written {cs : List Component} {e : Expr Float} (h : Channel (Scaled (· / 100.0)) cs e) :
      Opacity (some cs) e

/-- What blanks leave of some components. -/
inductive Words : List Component → List (List Component) → Prop
  | nil {b : List Component} (hb : Blank b) : Words b []
  | last {b x : List Component} (hb : Blank b) (hne : x ≠ []) (hx : ∀ c ∈ x, ¬ c.isWhitespace) :
      Words (b ++ x) [x]
  | cons {b x rest : List Component} {c : Component} {words : List (List Component)} (hb : Blank b)
      (hne : x ≠ []) (hx : ∀ c ∈ x, ¬ c.isWhitespace) (hc : c.isWhitespace)
      (hrest : Words rest words) : Words (b ++ (x ++ c :: rest)) (x :: words)

/-- No slash stands among the components, outside of blocks. -/
def NoSlash (cs : List Component) : Prop := ∀ c ∈ cs, ¬ isToken (.delim '/') c

/-- The three channels and the opacity of a function: separated by commas, or the channels by blanks
and the opacity by a slash. -/
inductive Channels : List Component → (first second third : List Component) →
    (alpha : Option (List Component)) → Prop
  | commas {x y z : List Component} {s t : Component} (hs : isToken .comma s)
      (ht : isToken .comma t) (hx : NoSlash x) (hy : NoSlash y) (hz : NoSlash z) :
      Channels (x ++ s :: (y ++ t :: z)) x y z none
  | commasAlpha {x y z a : List Component} {s t u : Component} (hs : isToken .comma s)
      (ht : isToken .comma t) (hu : isToken .comma u) (hx : NoSlash x) (hy : NoSlash y)
      (hz : NoSlash z) (ha : NoSlash a) :
      Channels (x ++ s :: (y ++ t :: (z ++ u :: a))) x y z (some a)
  | blanks {cs x y z : List Component} (hcs : NoSlash cs) (hwords : Words cs [x, y, z]) :
      Channels cs x y z none
  | blanksAlpha {cs tail x y z a : List Component} {slash : Component} (hcs : NoSlash cs)
      (hwords : Words cs [x, y, z]) (hslash : isToken (.delim '/') slash) (htail : NoSlash tail)
      (halpha : Words tail [a]) : Channels (cs ++ slash :: tail) x y z (some a)

mutual

/-- The components write the color: one of them does, and the others are blanks around it. -/
inductive Writes : List Component → Color Float → Prop
  | padded {before after : List Component} {c : Component} {color : Color Float}
      (hbefore : Blank before) (hcolor : Single c color) (hafter : Blank after) :
      Writes (before ++ c :: after) color

/-- A single component writes the color. -/
inductive Single : Component → Color Float → Prop
  | hash {l : Lexeme} {digits : String} {color : Rgb Float} (hl : l.token = .hash digits)
      (hcolor : HexColor digits.toList color) : Single (.token l) (.rgb color)
  | defined {l : Lexeme} {name : String} (hl : l.token = .atKeyword name) :
      Single (.token l) (.defined name)
  | name {l : Lexeme} {name : String} {color : Color Float} (hl : l.token = .ident name)
      (hcolor : Keyword name color) : Single (.token l) color
  | call {opener closer : Lexeme} {name : String} {body : List Component} {color : Color Float}
      (hopener : opener.token = .function name) (hcolor : Call name body color) :
      Single (.block opener body closer) color

/-- The call of a function writes the color. -/
inductive Call : String → List Component → Color Float → Prop
  | rgb {name : String} {body x y z : List Component} {a : Option (List Component)}
      {color : Rgb Float}
      (hname : Text.sameIgnoringCase name "rgb" ∨ Text.sameIgnoringCase name "rgba")
      (hbody : Channels body x y z a) (hred : Channel (Scaled (· * 2.55)) x color.red)
      (hgreen : Channel (Scaled (· * 2.55)) y color.green)
      (hblue : Channel (Scaled (· * 2.55)) z color.blue) (halpha : Opacity a color.alpha) :
      Call name body (.rgb color)
  | hsl {name : String} {body x y z : List Component} {a : Option (List Component)}
      {color : Hsl Float}
      (hname : Text.sameIgnoringCase name "hsl" ∨ Text.sameIgnoringCase name "hsla")
      (hbody : Channels body x y z a) (hhue : Channel Angle x color.hue)
      (hsaturation : Channel Percentage y color.saturation)
      (hlightness : Channel Percentage z color.lightness) (halpha : Opacity a color.alpha) :
      Call name body (.hsl color)
  | mix {name : String} {x y z : List Component} {s t : Component} {a b : Color Float}
      {factor : Expr Float} (hname : Text.sameIgnoringCase name "mix") (hx : Writes x a)
      (hs : isToken .comma s) (hy : Writes y b) (ht : isToken .comma t) (hz : Number z factor) :
      Call name (x ++ s :: (y ++ t :: z)) (.mix a b factor)
  | shade {name : String} {x y : List Component} {s : Component} {color : Color Float}
      {factor : Expr Float} (hname : Text.sameIgnoringCase name "shade") (hx : Writes x color)
      (hs : isToken .comma s) (hy : Number y factor) : Call name (x ++ s :: y) (.shade color factor)
  | alpha {name : String} {x y : List Component} {s : Component} {color : Color Float}
      {factor : Expr Float} (hname : Text.sameIgnoringCase name "alpha") (hx : Writes x color)
      (hs : isToken .comma s) (hy : Number y factor) : Call name (x ++ s :: y) (.alpha color factor)
  | lighter {name : String} {body : List Component} {color : Color Float}
      (hname : Text.sameIgnoringCase name "lighter") (hbody : Writes body color) :
      Call name body (.lighter color)
  | darker {name : String} {body : List Component} {color : Color Float}
      (hname : Text.sameIgnoringCase name "darker") (hbody : Writes body color) :
      Call name body (.darker color)

end

/-- A `Single` component writes its color without blanks around it. -/
theorem Single.writes {c : Component} {color : Color Float} (h : Single c color) :
    Writes [c] color :=
  .padded blank_nil h blank_nil

end ThemeColor.Grammar
