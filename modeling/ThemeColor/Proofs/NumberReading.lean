import ThemeColor.Proofs.Bracketing
import ThemeColor.Proofs.ParsedLeaves
import ThemeColor.Proofs.Splitting

/-!
# Reading numbers

A number is read as a flat chain of values and operators, and its value is found in a second pass
that multiplies and divides first. This file proves that together they read exactly the sums of the
grammar.

## Main results

* `NumberGrammar.operand_eq_ok_iff`: for any way to read single values, what is read is a sum of
  those values;
* `Segment.number_eq_ok_iff`: a segment that does not nest too deep is read as a number exactly if
  its components write that number.
-/

namespace ThemeColor

open Component Text Grammar

/-- A text without capital letters is its own `asciiLower`. -/
theorem Text.asciiLower_eq_self {s : String} (h : ∀ c ∈ s.toList, c.toLower = c) :
    asciiLower s = s := by
  rw [asciiLower, ← String.toList_inj, String.toList_map]
  simpa using List.map_congr_left h

/-- A name is `sameIgnoringCase` as one in lower case exactly if its `asciiLower` is that one. -/
theorem Text.sameIgnoringCase_iff {a b : String} (hb : asciiLower b = b) :
    sameIgnoringCase a b ↔ asciiLower a = b := by
  rw [sameIgnoringCase, hb, beq_iff_eq]

namespace NumberGrammar

/-! ## Evaluating a chain from left to right -/

/-- The value of a chain whose first product, from `current` on, is put into a sum by `close`. -/
def evalFrom (close : Expr Float → Expr Float) (current : Expr Float)
    (steps : List (Operator × Expr Float)) : Expr Float :=
  (products current steps).2.foldl (fun sum (op, product) => Expr.combine op sum product)
    (close (products current steps).1)

variable {close : Expr Float → Expr Float} {current e : Expr Float}
  {steps : List (Operator × Expr Float)}

theorem eval_eq (chain : Chain) : chain.eval = evalFrom id chain.first chain.rest := rfl

theorem evalFrom_mul :
    evalFrom close current ((.mul, e) :: steps) = evalFrom close (current.mul e) steps := rfl

theorem evalFrom_div :
    evalFrom close current ((.div, e) :: steps) = evalFrom close (current.div e) steps := rfl

theorem evalFrom_add :
    evalFrom close current ((.add, e) :: steps) = evalFrom (close current).add e steps := rfl

theorem evalFrom_sub :
    evalFrom close current ((.sub, e) :: steps) = evalFrom (close current).sub e steps := rfl

/-! ## Components of a chain -/

variable {value : Component → Except ColorError (Expr Float)} {stop : Nat}

/-- The character of an operator. -/
def sign : Operator → Char
  | .add => '+'
  | .sub => '-'
  | .mul => '*'
  | .div => '/'

/-- A component is an operator for `operator?` exactly if it is its `sign`. -/
theorem operator?_eq_some_iff {c : Component} {op : Operator} :
    operator? c = some op ↔ isToken (.delim (sign op)) c := by
  rw [isToken_iff, operator?]
  constructor
  · intro h
    split at h <;> first | cases h; assumption | cases h
  · intro h
    rw [h]
    cases op <;> rfl

/-- Blanks in front of a chain are skipped by `readValue` and `readOperator`. -/
theorem readValue_append_left {b : List Component} (hb : Blank b) (cs : List Component) :
    readValue value stop (b ++ cs) = readValue value stop cs ∧
      readOperator value stop (b ++ cs) = readOperator value stop cs := by
  induction b with
  | nil => exact ⟨rfl, rfl⟩
  | cons c b ih =>
    obtain ⟨hc, hb⟩ := List.forall_mem_cons.mp hb
    rw [List.cons_append, readValue, readOperator, if_pos hc, if_pos hc]
    exact ih hb

/-- Blanks behind a chain are skipped by `readValue` and `readOperator`. -/
theorem readValue_append_right {b : List Component} (hb : Blank b) (cs : List Component) :
    readValue value stop (cs ++ b) = readValue value stop cs ∧
      readOperator value stop (cs ++ b) = readOperator value stop cs := by
  induction cs with
  | nil =>
    have hblank : readValue value stop (b ++ []) = readValue value stop [] ∧
        readOperator value stop (b ++ []) = readOperator value stop [] :=
      readValue_append_left hb []
    rwa [List.append_nil] at hblank
  | cons c cs ih =>
    obtain ⟨ihValue, ihOperator⟩ := ih
    constructor
    · rw [List.cons_append, readValue, readValue, ihValue, ihOperator]
    · rw [List.cons_append, readOperator, readOperator, ihValue, ihOperator]

/-- A chain that `readValue` reads starts with its first value, perhaps behind blanks. -/
theorem readValue_eq_ok_iff {cs : List Component} {chain : Chain} :
    readValue value stop cs = .ok chain ↔
      ∃ b c rest, cs = b ++ c :: rest ∧ Blank b ∧ c.isWhitespace = false ∧
        value c = .ok chain.first ∧ readOperator value stop rest = .ok chain.rest := by
  constructor
  · intro h
    induction cs with
    | nil => cases h
    | cons c cs ih =>
      rw [readValue] at h
      split at h
      · rename_i hc
        obtain ⟨b, c', rest, rfl, hb, hread⟩ := ih h
        exact ⟨c :: b, c', rest, rfl, hb.cons hc, hread⟩
      · rename_i hc
        obtain ⟨first, hfirst, h⟩ := exists_of_bind_eq_ok h
        obtain ⟨steps, hsteps, h⟩ := exists_of_bind_eq_ok h
        cases h
        exact ⟨[], c, cs, rfl, blank_nil, by simpa using hc, hfirst, hsteps⟩
  · rintro ⟨b, c, rest, rfl, hb, hc, hfirst, hrest⟩
    rw [(readValue_append_left hb _).1, readValue, hc, if_neg Bool.false_ne_true, hfirst, hrest]
    rfl

/-! ## A chain that is read is a sum -/

section Soundness

variable {V : Component → Expr Float → Prop} {front x : List Component}

/-- A product that starts with the components `x` ends a sum that starts with `front`. -/
def Ends (V : Component → Expr Float → Prop) (front x : List Component)
    (close : Expr Float → Expr Float) : Prop :=
  ∀ y e, Product V (x ++ y) e → Sum V (front ++ (x ++ y)) (close e)

/-- What `Ends` says of a product is kept when the product goes on. -/
theorem Ends.append (h : Ends V front x close) (z : List Component) :
    Ends V front (x ++ z) close := by
  intro y e hy
  rw [List.append_assoc] at hy ⊢
  exact h _ e hy

/-- A product behind what `Ends` describes closes it to a `Sum`. -/
theorem Ends.sum (h : Ends V front x close) (hx : Product V x current) :
    Sum V (front ++ x) (close current) := by
  have hsum := h [] current (by rwa [List.append_nil])
  rwa [List.append_nil] at hsum

/-- Behind a product, what `readOperator` reads goes on with the product or adds more of them. -/
theorem sum_of_readOperator (hV : ∀ c e, value c = .ok e → V c e) {rest : List Component}
    (hclose : Ends V front x close) (hx : Product V x current)
    (hrest : readOperator value stop rest = .ok steps) :
    Sum V (front ++ (x ++ rest)) (evalFrom close current steps) := by
  -- The invariant: `front` is a closed sum, and the open product `x` with the value `current` would
  -- end it. Operators of products extend `x`; the others close it and open a new one.
  induction hlength : rest.length using Nat.strongRecOn
    generalizing front x current close steps rest with
  | ind n ih =>
    subst hlength
    cases rest with
    | nil =>
      rw [readOperator] at hrest
      cases hrest
      rw [List.append_nil]
      exact hclose.sum hx
    | cons c rest =>
      rw [readOperator] at hrest
      split at hrest
      · rename_i hc
        -- A blank becomes part of the product.
        have hblank := hx.blankAfter (b := [c]) (by simpa [Blank] using hc)
        have hsum := ih rest.length (by simp) (hclose.append [c]) hblank hrest rfl
        simpa using hsum
      · split at hrest
        · rename_i op hop
          rw [operator?_eq_some_iff] at hop
          obtain ⟨chain, hchain, heq⟩ := exists_of_bind_eq_ok hrest
          cases heq
          obtain ⟨b, c', more, rfl, hb, -, hvalue, hmore⟩ := readValue_eq_ok_iff.mp hchain
          have hlt : more.length < (c :: (b ++ c' :: more)).length := by
            simp only [List.length_cons, List.length_append]
            omega
          have hy : Operand V (b ++ [c']) chain.first := .padded hb (hV _ _ hvalue) blank_nil
          -- The components read so far, grouped with the open product or with the closed sum.
          have hproduct : front ++ (x ++ c :: (b ++ [c']) ++ more) =
              front ++ (x ++ c :: (b ++ c' :: more)) := by simp
          have hsum : front ++ (x ++ [c]) ++ (b ++ [c'] ++ more) =
              front ++ (x ++ c :: (b ++ c' :: more)) := by simp
          cases op with
          | mul =>
            rw [evalFrom_mul, ← hproduct]
            exact ih _ hlt (hclose.append _) (.mul hx hop hy) hmore rfl
          | div =>
            rw [evalFrom_div, ← hproduct]
            exact ih _ hlt (hclose.append _) (.div hx hop hy) hmore rfl
          | add =>
            rw [evalFrom_add, ← hsum]
            refine ih _ hlt (fun y e hy => ?_) (.operand hy) hmore rfl
            simpa using Sum.add (hclose.sum hx) hop hy
          | sub =>
            rw [evalFrom_sub, ← hsum]
            refine ih _ hlt (fun y e hy => ?_) (.operand hy) hmore rfl
            simpa using Sum.sub (hclose.sum hx) hop hy
        · split at hrest
          · rename_i hsigned
            -- A number with a sign starts a product of its own.
            obtain ⟨operand, hvalue, hread⟩ := exists_of_bind_eq_ok hrest
            obtain ⟨more, hmore, heq⟩ := exists_of_bind_eq_ok hread
            cases heq
            have hc : Operand V [c] operand := .single (hV _ _ hvalue)
            have hsum : front ++ x ++ ([c] ++ rest) = front ++ (x ++ c :: rest) := by simp
            rw [evalFrom_add, ← hsum]
            refine ih _ (by simp) (fun y e hy => ?_) (.operand hc) hmore rfl
            exact .signed (hclose.sum hx) hsigned hy
          · cases hrest

/-- A chain that `readValue` reads is a `Sum`. -/
theorem sum_of_readValue (hV : ∀ c e, value c = .ok e → V c e) {cs : List Component} {chain : Chain}
    (h : readValue value stop cs = .ok chain) : Sum V cs chain.eval := by
  obtain ⟨b, c, rest, rfl, hb, -, hc, hrest⟩ := readValue_eq_ok_iff.mp h
  have hfirst : Operand V (b ++ [c]) chain.first := .padded hb (hV _ _ hc) blank_nil
  -- Nothing is in front of the first product.
  have hends : Ends V [] (b ++ [c]) id := fun y e hy => .product hy
  have hsum := sum_of_readOperator hV hends (.operand hfirst) hrest
  rw [eval_eq]
  simpa using hsum

end Soundness

/-! ## A sum is read -/

section Completeness

variable {x rest : List Component} {chain : Chain}

/-- An operator is read by `readOperator` together with the chain behind it. -/
theorem readOperator_of_operator (op : Operator) {c : Component} (hc : isToken (.delim (sign op)) c)
    (hchain : readValue value stop rest = .ok chain) :
    readOperator value stop (c :: rest) = .ok ((op, chain.first) :: chain.rest) := by
  have hspace : c.isWhitespace = false := by
    rw [isWhitespace, isToken_iff.mp hc]
    rfl
  rw [readOperator, hspace, if_neg Bool.false_ne_true, operator?_eq_some_iff.mpr hc, hchain]
  rfl

/-- A number with a sign is read as if a `+` stood in front of it. -/
theorem readOperator_of_signed {c : Component} (hc : c.token?.any Token.isSignedNumber)
    (hchain : readValue value stop (c :: rest) = .ok chain) :
    readOperator value stop (c :: rest) = .ok ((.add, chain.first) :: chain.rest) := by
  obtain ⟨hspace, hnone⟩ : c.isWhitespace = false ∧ operator? c = none := by
    rw [isWhitespace, operator?]
    revert hc
    cases c.token? with
    | none => simp
    | some t => cases t <;> simp [Token.isSignedNumber, Token.isWhitespace]
  rw [readValue, hspace, if_neg Bool.false_ne_true] at hchain
  obtain ⟨first, hfirst, hread⟩ := exists_of_bind_eq_ok hchain
  obtain ⟨more, hmore, heq⟩ := exists_of_bind_eq_ok hread
  cases heq
  rw [readOperator, hspace, if_neg Bool.false_ne_true, hnone]
  dsimp only
  rw [if_pos hc, hfirst, hmore]
  rfl

/-- Blank components have no value. -/
def SkipsBlanks (value : Component → Except ColorError (Expr Float)) : Prop :=
  ∀ c e, value c = .ok e → c.isWhitespace = false

variable (hvalue : SkipsBlanks value)

include hvalue

/-- An `Operand` in front of other steps is read as the first value of a chain. -/
theorem readValue_of_operand (hx : Operand (fun c e => value c = .ok e) x e)
    (hrest : readOperator value stop rest = .ok steps) :
    readValue value stop (x ++ rest) = .ok ⟨e, steps⟩ := by
  cases hx with
  | @padded before after c _ hbefore hc hafter =>
    rw [readValue_eq_ok_iff]
    refine ⟨before, c, after ++ rest, by simp, hbefore, hvalue c e hc, hc, ?_⟩
    rw [(readValue_append_left hafter rest).2, hrest]

/-- A `Product` in front of other steps is read, and it counts as one value. -/
theorem exists_readValue_of_product (hx : Product (fun c e => value c = .ok e) x e)
    (hrest : readOperator value stop rest = .ok steps) :
    ∃ chain, readValue value stop (x ++ rest) = .ok chain ∧
      ∀ close, evalFrom close chain.first chain.rest = evalFrom close e steps := by
  -- Products associate to the left, so the steps behind the last value move to those of the values
  -- in front of it.
  induction hx generalizing rest steps with
  | operand hx => exact ⟨_, readValue_of_operand hvalue hx hrest, fun _ => rfl⟩
  | mul hx hop hy ih =>
    have hchain := readValue_of_operand hvalue hy hrest
    rw [List.append_assoc, List.cons_append]
    exact ih (readOperator_of_operator .mul hop hchain)
  | div hx hop hy ih =>
    have hchain := readValue_of_operand hvalue hy hrest
    rw [List.append_assoc, List.cons_append]
    exact ih (readOperator_of_operator .div hop hchain)

/-- A `Sum` in front of steps that do not go on with its last product is read, and it counts as one
value. -/
theorem exists_readValue_of_sum (hx : Sum (fun c e => value c = .ok e) x e)
    (hsteps : ∀ close current, evalFrom close current steps = evalFrom id (close current) steps)
    (hrest : readOperator value stop rest = .ok steps) :
    ∃ chain, readValue value stop (x ++ rest) = .ok chain ∧ chain.eval = evalFrom id e steps := by
  induction hx generalizing rest steps with
  | product hx =>
    obtain ⟨chain, hchain, heval⟩ := exists_readValue_of_product hvalue hx hrest
    exact ⟨chain, hchain, heval id⟩
  | @add x y op a b hx hop hy ih =>
    obtain ⟨chain, hchain, heval⟩ := exists_readValue_of_product hvalue hy hrest
    rw [List.append_assoc, List.cons_append]
    -- The sum in front is read with the operator and the product as its next step.
    obtain ⟨whole, hwhole, hsum⟩ :=
      ih (fun _ _ => rfl) (readOperator_of_operator .add hop hchain)
    refine ⟨whole, hwhole, ?_⟩
    rw [hsum, evalFrom_add, heval, hsteps]
    rfl
  | @sub x y op a b hx hop hy ih =>
    obtain ⟨chain, hchain, heval⟩ := exists_readValue_of_product hvalue hy hrest
    rw [List.append_assoc, List.cons_append]
    obtain ⟨whole, hwhole, hsum⟩ :=
      ih (fun _ _ => rfl) (readOperator_of_operator .sub hop hchain)
    refine ⟨whole, hwhole, ?_⟩
    rw [hsum, evalFrom_sub, heval, hsteps]
    rfl
  | @signed x y c a b hx hc hy ih =>
    obtain ⟨chain, hchain, heval⟩ := exists_readValue_of_product hvalue hy hrest
    rw [List.append_assoc, List.cons_append]
    obtain ⟨whole, hwhole, hsum⟩ := ih (fun _ _ => rfl) (readOperator_of_signed hc hchain)
    refine ⟨whole, hwhole, ?_⟩
    rw [hsum, evalFrom_add, heval, hsteps]
    rfl

/-- A `Sum` without its blank ends is the same sum. -/
theorem sum_trimWhile_iff {cs : List Component} :
    Sum (fun c e => value c = .ok e) (trimWhile isWhitespace cs) e ↔
      Sum (fun c e => value c = .ok e) cs e := by
  obtain ⟨before, after, hcs, hbefore, hafter⟩ := exists_eq_trimWhile isWhitespace cs
  constructor
  · intro h
    rw [hcs]
    exact (h.blankAfter hafter).blankBefore hbefore
  · intro h
    have hnil : readOperator value 0 [] = .ok [] := rfl
    obtain ⟨chain, hchain, heval⟩ := exists_readValue_of_sum hvalue h (fun _ _ => rfl) hnil
    -- Blank ends do not change what is read.
    rw [List.append_nil, hcs, (readValue_append_left hbefore _).1,
      (readValue_append_right hafter _).1] at hchain
    rw [← show chain.eval = e from heval]
    exact sum_of_readValue (fun _ _ h => h) hchain

/-- What `operand` reads is a `Sum` of values, and all sums are read. -/
theorem operand_eq_ok_iff {segment : Segment} :
    operand value segment = .ok e ↔ Sum (fun c e => value c = .ok e) segment.parts e := by
  rw [← sum_trimWhile_iff hvalue, operand, Segment.parts_trim]
  generalize trimWhile isWhitespace segment.parts = cs
  constructor
  · intro h
    split at h
    · cases h
    · obtain ⟨chain, hchain, rfl⟩ := exists_of_map_eq_ok h
      exact sum_of_readValue (fun _ _ h => h) hchain
  · intro h
    have hnil : readOperator value segment.trim.stop [] = .ok [] := rfl
    obtain ⟨chain, hchain, heval⟩ := exists_readValue_of_sum hvalue h (fun _ _ => rfl) hnil
    rw [List.append_nil] at hchain
    -- A chain has a first value, so the segment is not empty.
    rw [if_neg, hchain]
    · exact congrArg Except.ok heval
    · intro hempty
      rw [List.isEmpty_iff.mp hempty] at hchain
      cases hchain

end Completeness

/-! ## Functions of arithmetic -/

section Functions

variable {V : Component → Expr Float → Prop} {cs : List Component} {es : List (Expr Float)}

/-- There is no comma in a `Sum`, outside of blocks. -/
theorem isToken_comma_of_sum (hcomma : ∀ c e, V c e → isToken .comma c = false)
    (h : Sum V cs e) : ∀ c ∈ cs, isToken .comma c = false := by
  refine h.forall_mem hcomma (fun c hc => isToken_of_isWhitespace hc rfl) ?_
  intro c char hc
  rw [Bool.eq_false_iff, Ne, isToken_iff, isToken_iff.mp hc]
  nofun

/-- The sums that `Sums` speaks of are those of the pieces between the commas. -/
theorem sums_iff (hcomma : ∀ c e, V c e → isToken .comma c = false) :
    Sums V cs es ↔ List.Forall₂ (Sum V) (cs.splitOnP (isToken .comma)) es := by
  constructor
  · intro h
    induction h with
    | one hx =>
      rw [List.splitOnP_eq_singleton (isToken_comma_of_sum hcomma hx)]
      exact .cons hx .nil
    | cons hx hsep hy ih =>
      rw [List.splitOnP_append_cons_of_forall_mem (isToken_comma_of_sum hcomma hx) _ hsep]
      exact .cons hx ih
  · intro h
    -- Splitting goes on behind the first comma, with a shorter list.
    induction hlength : cs.length using Nat.strongRecOn generalizing cs es with
    | ind n ih =>
      subst hlength
      rcases splitOnP_cases (isToken .comma) cs with
        ⟨-, hsplit⟩ | ⟨front, sep, rest, rfl, -, hsep, hsplit⟩
      · rw [hsplit, List.forall₂_cons_left_iff] at h
        obtain ⟨e, more, he, hmore, rfl⟩ := h
        cases hmore
        exact .one he
      · rw [hsplit, List.forall₂_cons_left_iff] at h
        obtain ⟨e, more, he, hmore, rfl⟩ := h
        exact .cons he hsep (ih rest.length (by simp; omega) hmore rfl)

variable (hvalue : SkipsBlanks value)
  (hcomma : ∀ c e, value c = .ok e → isToken .comma c = false)

include hvalue hcomma

/-- A `Sum` may be written as an argument: it is a `Segment.Phrase`. -/
theorem phrase_sum (e : Expr Float) : Segment.Phrase (Sum (fun c e => value c = .ok e) · e) where
  trim cs := sum_trimWhile_iff hvalue
  comma cs h := isToken_comma_of_sum hcomma h
  solid cs h hblank := by
    obtain ⟨c, hc, v, hv⟩ := h.exists_value
    have hspace := hblank c hc
    rw [hvalue c v hv] at hspace
    cases hspace

/-- Arguments of which `operand` reads each as a number are `Sums` with commas between them. -/
theorem exists_arguments_iff_sums {inside : Segment} (hne : es ≠ []) :
    (∃ args, inside.arguments = .ok args ∧
        List.Forall₂ (fun arg e => operand value arg = .ok e) args es) ↔
      Sums (fun c e => value c = .ok e) inside.parts es := by
  rw [sums_iff hcomma, ← Segment.arguments_iff (phrase_sum hvalue hcomma) hne]
  simp only [operand_eq_ok_iff hvalue]

/-- A function of arithmetic is read exactly if there are sums inside, and three of them in
`clamp()`. -/
theorem mathFunction_eq_ok_iff {opener : Lexeme} {name : String} {function : MathFunction}
    {inside : Segment} :
    mathFunction value opener name function inside = .ok e ↔
      ∃ es, Sums (fun c e => value c = .ok e) inside.parts es ∧
        (function = .clamp → es.length = 3) ∧ e = Expr.apply function es := by
  have hsums {args : List Segment} {es : List (Expr Float)} (hargs : inside.arguments = .ok args)
      (hes : List.Forall₂ (fun arg e => operand value arg = .ok e) args es) (hne : es ≠ []) :
      Sums (fun c e => value c = .ok e) inside.parts es :=
    (exists_arguments_iff_sums hvalue hcomma hne).mp ⟨args, hargs, hes⟩
  rw [mathFunction, bind_eq_ok_iff]
  cases function with
  | clamp =>
    constructor
    · rintro ⟨args, hargs, h⟩
      dsimp only at h
      split at h
      · rename_i low middle high
        obtain ⟨a, ha, h⟩ := exists_of_bind_eq_ok h
        obtain ⟨b, hb, h⟩ := exists_of_bind_eq_ok h
        obtain ⟨c, hc, h⟩ := exists_of_bind_eq_ok h
        cases h
        have hes := hsums hargs (.cons ha (.cons hb (.cons hc .nil))) (by simp)
        exact ⟨[a, b, c], hes, fun _ => rfl, rfl⟩
      · cases h
    · rintro ⟨es, hbody, hlength, rfl⟩
      obtain ⟨a, b, c, rfl⟩ := List.length_eq_three.mp (hlength rfl)
      obtain ⟨args, hargs, hes⟩ := (exists_arguments_iff_sums hvalue hcomma (by simp)).mpr hbody
      refine ⟨args, hargs, ?_⟩
      -- There are as many arguments as operands.
      obtain _ | ⟨ha, _ | ⟨hb, _ | ⟨hc, _ | _⟩⟩⟩ := hes
      dsimp only
      rw [ha, hb, hc]
      rfl
  | min | max =>
    constructor
    · rintro ⟨args, hargs, h⟩
      dsimp only at h
      split at h
      · cases h
      · rename_i hempty
        obtain ⟨es, hes, h⟩ := exists_of_bind_eq_ok h
        cases h
        rw [mapM_eq_ok_iff] at hes
        refine ⟨es, hsums hargs hes ?_, nofun, rfl⟩
        rintro rfl
        cases hes
        exact hempty rfl
    · rintro ⟨es, hbody, -, rfl⟩
      have hne := hbody.ne_nil
      obtain ⟨args, hargs, hes⟩ := (exists_arguments_iff_sums hvalue hcomma hne).mpr hbody
      refine ⟨args, hargs, ?_⟩
      dsimp only
      rw [if_neg, mapM_eq_ok_iff.mpr hes]
      · rfl
      · intro hempty
        rw [List.isEmpty_iff.mp hempty] at hes
        cases hes
        exact hne rfl

end Functions

/-! ## Errors -/

/-- The reader fails only with errors about the form of a text. -/
def Malforms {α : Type} (r : Except ColorError α) : Prop := ∀ e, r = .error e → e.isMalformed

/-- Steps in sequence fail as `Malforms` says if each of them does. -/
theorem Malforms.bind {α β : Type} {r : Except ColorError α} {f : α → Except ColorError β}
    (hr : Malforms r) (hf : ∀ a, r = .ok a → Malforms (f a)) : Malforms (r >>= f) := by
  intro e h
  cases r with
  | error e' =>
    cases h
    exact hr e rfl
  | ok a => exact hf a rfl e h

theorem Malforms.map {α β : Type} {r : Except ColorError α} (hr : Malforms r) (f : α → β) :
    Malforms (r.map f) := by
  intro e h
  cases r with
  | error e' =>
    cases h
    exact hr e rfl
  | ok a => cases h

theorem malforms_ok {α : Type} (a : α) : Malforms (.ok a) := nofun

theorem malforms_malformed {α : Type} (offset : Nat) (fault : Fault) :
    Malforms (.error (.malformed offset fault) : Except ColorError α) := by
  intro e h
  cases h
  rfl

/-- Steps over a list fail as `Malforms` says if each of them does. -/
theorem malforms_mapM {α β : Type} {f : α → Except ColorError β} {xs : List α}
    (h : ∀ x ∈ xs, Malforms (f x)) : Malforms (xs.mapM f) := by
  intro e he
  obtain ⟨x, hx, hfx⟩ := exists_of_mapM_eq_error he
  exact h x hx e hfx

/-- Reading a chain with `readValue` fails with the errors of its values or with those about its
form. -/
theorem malforms_readValue {cs : List Component} (h : ∀ c ∈ cs, Malforms (value c)) :
    Malforms (readValue value stop cs) ∧ Malforms (readOperator value stop cs) := by
  induction cs with
  | nil => exact ⟨malforms_malformed _ _, malforms_ok _⟩
  | cons c cs ih =>
    obtain ⟨hc, hcs⟩ := List.forall_mem_cons.mp h
    obtain ⟨ihValue, ihOperator⟩ := ih hcs
    constructor
    · rw [readValue]
      split
      · exact ihValue
      · exact hc.bind fun _ _ => ihOperator.bind fun _ _ => malforms_ok _
    · rw [readOperator]
      split
      · exact ihOperator
      · split
        · exact ihValue.bind fun _ _ => malforms_ok _
        · split
          · exact hc.bind fun _ _ => ihOperator.bind fun _ _ => malforms_ok _
          · exact malforms_malformed _ _

/-- Reading an `operand` fails with the errors of its values or with those about its form. -/
theorem malforms_operand {segment : Segment} (h : segment.All fun c => Malforms (value c)) :
    Malforms (operand value segment) := by
  rw [operand]
  split
  · exact malforms_malformed _ _
  · exact (malforms_readValue h.trim).1.map _

/-- Reading a `mathFunction` fails with the errors of the values inside or with those about its
form. -/
theorem malforms_mathFunction {opener : Lexeme} {name : String} {function : MathFunction}
    {inside : Segment} (h : inside.All fun c => Malforms (value c)) :
    Malforms (mathFunction value opener name function inside) := by
  rw [mathFunction]
  refine Malforms.bind (fun e he => Segment.isMalformed_of_arguments he) fun args hargs => ?_
  have hall := h.arguments hargs
  cases function with
  | clamp =>
    dsimp only
    split
    · refine (malforms_operand (hall _ (by simp))).bind fun _ _ => ?_
      refine (malforms_operand (hall _ (by simp))).bind fun _ _ => ?_
      exact (malforms_operand (hall _ (by simp))).bind fun _ _ => malforms_ok _
    · exact malforms_malformed _ _
  | min | max =>
    dsimp only
    split
    · exact malforms_malformed _ _
    · exact (malforms_mapM fun arg harg => malforms_operand (hall arg harg)).bind fun _ _ =>
        malforms_ok _

/-! ## Values -/

/-- The name of a `MathFunction` is in lower case. -/
theorem asciiLower_name (function : MathFunction) : asciiLower function.name = function.name := by
  cases function <;> exact asciiLower_eq_self (by decide)

/-- A name names the function that `MathFunction.ofName?` finds, in any case. -/
theorem ofName?_eq_some_iff {name : String} {function : MathFunction} :
    MathFunction.ofName? name = some function ↔ sameIgnoringCase name function.name := by
  rw [sameIgnoringCase_iff (asciiLower_name function), MathFunction.ofName?]
  constructor
  · intro h
    split at h <;> cases h <;> assumption
  · intro h
    rw [h]
    cases function <;> rfl

/-- A token has the value that `tokenValue?` gives exactly if it is a `NumericToken`. -/
theorem tokenValue?_eq_some_iff {t : Token} {e : Expr Float} :
    tokenValue? t = some e ↔ NumericToken t e := by
  constructor
  · intro h
    cases t <;> cases h
    · exact .number _
    · exact .percentage _
    · exact .dimension _ _
  · intro h
    cases h <;> rfl

variable {levels : Nat} {c : Component}

/-- A single token with a value is a `NumericToken`. -/
theorem numericToken_of_readComponent {t : Token} (h : readComponent levels c = .ok e)
    (ht : c.token? = some t) : NumericToken t e := by
  cases levels with
  | zero => cases h
  | succ levels =>
    cases c with
    | token l =>
      cases ht
      rw [readComponent] at h
      rw [← tokenValue?_eq_some_iff]
      split at h
      · rename_i hvalue
        cases h
        exact hvalue
      · cases h
    | block opener body closer => cases ht

/-- The reader `readComponent` gives no value to a blank. -/
theorem skipsBlanks_readComponent (levels : Nat) : SkipsBlanks (readComponent levels) := by
  intro c e h
  rw [Bool.eq_false_iff, Ne, isWhitespace_iff]
  intro ht
  nomatch numericToken_of_readComponent h ht

/-- The reader `readComponent` gives no value to a comma. -/
theorem isToken_comma_of_readComponent (levels : Nat) (c : Component) (e : Expr Float)
    (h : readComponent levels c = .ok e) : isToken .comma c = false := by
  rw [Bool.eq_false_iff, Ne, isToken_iff]
  intro ht
  nomatch numericToken_of_readComponent h ht

section Block

variable {V : Component → Expr Float → Prop} {opener closer : Lexeme} {body : List Component}

/-- Parentheses have the value of the `Sum` inside, or they stay verbatim. -/
theorem blockValue_paren_iff (hopener : opener.token = .opener .paren) :
    BlockValue V opener body closer e ↔
      Sum V body e ∨
        (∀ e, ¬ Sum V body e) ∧ e = .verbatim (textAll [.block opener body closer]) := by
  constructor
  · intro h
    cases h with
    | group _ hbody => exact .inl hbody
    | verbatimGroup _ hbody => exact .inr ⟨hbody, rfl⟩
    | calculation hfunction | least hfunction | greatest hfunction | clamp hfunction
    | verbatimFunction hfunction =>
      rw [hopener] at hfunction
      cases hfunction
  · rintro (hbody | ⟨hbody, rfl⟩)
    · exact .group hopener hbody
    · exact .verbatimGroup hopener hbody

/-- The `BlockValue` of a function is that of one with a sum inside or with arguments, or it stays
verbatim. -/
theorem blockValue_function_iff {name : String} (hopener : opener.token = .function name) :
    BlockValue V opener body closer e ↔
      (sameIgnoringCase name "calc" ∧ Sum V body e) ∨
      (∃ function : MathFunction, sameIgnoringCase name function.name ∧ ∃ es, Sums V body es ∧
        (function = .clamp → es.length = 3) ∧ e = Expr.apply function es) ∨
      ¬ sameIgnoringCase name "calc" ∧
        (∀ function : MathFunction, ¬ sameIgnoringCase name function.name) ∧
        e = .verbatim (textAll [.block opener body closer]) := by
  constructor
  · intro h
    cases h with
    | group hparen | verbatimGroup hparen =>
      rw [hopener] at hparen
      cases hparen
    | calculation hfunction hname hbody =>
      cases hopener.symm.trans hfunction
      exact .inl ⟨hname, hbody⟩
    | least hfunction hname hbody =>
      cases hopener.symm.trans hfunction
      exact .inr (.inl ⟨.min, hname, _, hbody, nofun, rfl⟩)
    | greatest hfunction hname hbody =>
      cases hopener.symm.trans hfunction
      exact .inr (.inl ⟨.max, hname, _, hbody, nofun, rfl⟩)
    | clamp hfunction hname hbody =>
      cases hopener.symm.trans hfunction
      exact .inr (.inl ⟨.clamp, hname, _, hbody, fun _ => rfl, rfl⟩)
    | verbatimFunction hfunction hname =>
      cases hopener.symm.trans hfunction
      refine .inr (.inr ⟨hname _ (by simp), fun function => ?_, rfl⟩)
      cases function <;> exact hname _ (by simp [MathFunction.name])
  · rintro (⟨hname, hbody⟩ | ⟨function, hname, es, hbody, hlength, rfl⟩ | ⟨hcalc, hname, rfl⟩)
    · exact .calculation hopener hname hbody
    · cases function with
      | min => exact .least hopener hname hbody
      | max => exact .greatest hopener hname hbody
      | clamp =>
        obtain ⟨a, b, c, rfl⟩ := List.length_eq_three.mp (hlength rfl)
        exact .clamp hopener hname hbody
    · refine .verbatimFunction hopener fun reserved hreserved => ?_
      simp only [List.mem_cons, List.not_mem_nil, or_false] at hreserved
      rcases hreserved with rfl | rfl | rfl | rfl
      · exact hcalc
      · exact hname .min
      · exact hname .max
      · exact hname .clamp

/-- What `readComponent` makes of a block is its `BlockValue` over what is read from the components
in it. -/
theorem readComponent_block_iff (hbody : ∀ c ∈ body, Malforms (readComponent levels c)) :
    readComponent (levels + 1) (.block opener body closer) = .ok e ↔
      BlockValue (fun c e => readComponent levels c = .ok e) opener body closer e := by
  have hblanks := skipsBlanks_readComponent levels
  have hinside {e : Expr Float} :
      operand (readComponent levels) ⟨body, closer.start⟩ = .ok e ↔
        Sum (fun c e => readComponent levels c = .ok e) body e := operand_eq_ok_iff hblanks
  rw [readComponent]
  split
  · rename_i hopener
    have hmalforms : Malforms (operand (readComponent levels) ⟨body, closer.start⟩) :=
      malforms_operand hbody
    rw [blockValue_paren_iff hopener]
    simp only [← hinside]
    cases hread : operand (readComponent levels) ⟨body, closer.start⟩ with
    | ok e' =>
      refine ⟨.inl, ?_⟩
      rintro (h | ⟨hnone, -⟩)
      · exact h
      · exact absurd rfl (hnone e')
    | error err =>
      -- An error about the form of the inside makes the block verbatim, and there are no others.
      have hmalformed := hmalforms err hread
      cases err with
      | malformed offset fault =>
        refine ⟨fun h => .inr ⟨by simp, (Except.ok.inj h).symm⟩, ?_⟩
        rintro (h | ⟨-, rfl⟩)
        · cases h
        · rfl
      | unsupportedModel | invalidIdentifier | tooDeep | tooLarge => cases hmalformed
  · rename_i name hopener
    have hcomma := isToken_comma_of_readComponent levels
    rw [blockValue_function_iff hopener, ← hinside]
    simp only [← ofName?_eq_some_iff]
    -- `calc` is looked for first; it is not among the functions with arguments.
    by_cases hcalc : sameIgnoringCase name "calc"
    · rw [if_pos hcalc]
      have hnone : MathFunction.ofName? name = none := by
        rw [MathFunction.ofName?, (sameIgnoringCase_iff (asciiLower_eq_self (by decide))).mp hcalc]
        rfl
      simp [hcalc, hnone]
    · rw [if_neg hcalc]
      cases hname : MathFunction.ofName? name with
      | some function =>
        dsimp only
        rw [mathFunction_eq_ok_iff hblanks hcomma]
        simp [hcalc]
      | none => simp [hcalc, eq_comm]
  · rename_i hparen hfunction
    constructor
    · intro h
      cases h
    · intro h
      cases h with
      | group hopener | verbatimGroup hopener => exact absurd hopener hparen
      | calculation hopener | least hopener | greatest hopener | clamp hopener
      | verbatimFunction hopener => exact absurd hopener (hfunction _)

end Block

/-- One value is read by `readComponent` exactly as `Value` says, and errors are about the form of
the text, unless the component nests too deep. -/
theorem readComponent_spec (h : c.depth < levels) :
    (∀ e, readComponent levels c = .ok e ↔ Value c e) ∧ Malforms (readComponent levels c) := by
  -- The two parts go together: whether parentheses stay verbatim depends on the errors inside.
  induction levels generalizing c with
  | zero => exact absurd h (Nat.not_lt_zero _)
  | succ levels ih =>
    cases c with
    | token l =>
      rw [readComponent]
      simp only [value_token_iff, ← tokenValue?_eq_some_iff]
      cases tokenValue? l.token with
      | some e => exact ⟨fun e' => by simp, malforms_ok e⟩
      | none => exact ⟨fun e' => by simp, malforms_malformed _ _⟩
    | block opener body closer =>
      rw [depth] at h
      have hbody : ∀ c ∈ body, c.depth < levels := fun c hc => by
        have := depth_le_depthAll hc
        omega
      constructor
      · intro e
        have hvalue : ∀ c ∈ body, ∀ e, readComponent levels c = .ok e ↔ Value c e :=
          fun c hc => (ih (hbody c hc)).1
        rw [readComponent_block_iff fun c hc => (ih (hbody c hc)).2, value_block_iff]
        exact blockValue_congr hvalue
      · have hmalforms : Segment.All (fun c => Malforms (readComponent levels c))
            ⟨body, closer.start⟩ := fun c hc => (ih (hbody c hc)).2
        rw [readComponent]
        split
        · split
          · exact malforms_ok _
          · exact malforms_ok _
          · -- Any other error is passed on from the inside.
            rename_i err hother hread
            intro e he
            cases he
            exact malforms_operand hmalforms err hread
        · split
          · exact malforms_operand hmalforms
          · split
            · exact malforms_mathFunction hmalforms
            · exact malforms_ok _
        · exact malforms_malformed _ _

end NumberGrammar

/-- A segment that does not nest too deep is read by `Segment.number` exactly if it writes that
`Number`. -/
theorem Segment.number_eq_ok_iff {levels : Nat} {segment : Segment} {e : Expr Float}
    (h : depthAll segment.parts < levels) :
    segment.number levels = .ok e ↔ Number segment.parts e := by
  rw [Segment.number, Number,
    NumberGrammar.operand_eq_ok_iff (NumberGrammar.skipsBlanks_readComponent levels)]
  refine sum_congr fun c hc e => (NumberGrammar.readComponent_spec ?_).1 e
  exact Nat.lt_of_le_of_lt (depth_le_depthAll hc) h

end ThemeColor
