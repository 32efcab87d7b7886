import ThemeColor.Proofs.ColorReading
import ThemeColor.Proofs.Occurrences
import ThemeColor.Proofs.Slices

/-!
# Where faults are found

A text that is no color expression is refused with the byte position of the fault. The readers take
such positions from the lexeme or component at hand, from the first component of a segment, or from
what follows a segment. `FaultsWithin` says of a reader at once what its values satisfy and that its
errors are at lexemes, so that it can be followed through the readers step by step:

- `Segment.IsOf`: the components of a segment and what follows it are among some lexemes; every way
  to take a segment apart keeps this;
- `ColorGrammar.faultsWithin_read`: the readers find their faults at these lexemes, each fault at a
  lexeme that it describes;
- `Fault.found_at_lexeme`: the same for the lexemes of a whole text and of a document.
-/

namespace ThemeColor

open Component Text

/-! ## Errors at lexemes -/

/-- What is out of place there is such a lexeme. -/
def Place.Admits (l : Lexeme) : Place → Prop
  | .insideBlock | .outsideBlocks => l.token.closes?.isSome
  | .commaChannels | .afterAlpha => l.token = .delim '/'
  | .afterColor | .insideNumber => True

/-- The fault can be found at the lexeme: what the fault names is the lexeme. -/
def Fault.Describes (l : Lexeme) : Fault → Prop
  | .emptyExpression => False
  | .unterminatedString => isTerminated l = false
  | .unexpected text place => text = String.ofList l.text ∧ place.Admits l
  | .unclosed text => text = String.ofList l.text ∧ l.token.opens?.isSome
  | .notAColor text => text = String.ofList l.text
  | .invalidHex value => l.token = .hash value
  | .unknownFunction name | .argumentCount name _ _ | .channelCount name _ | .needsArgument name =>
    l.token = .function name
  | .emptyArgument | .expectedColor | .expectedNumber | .alphaCount | .badUnit _ _ => True

/-- An error about the form of a text is at one of the lexemes, which its fault describes. -/
def ColorError.IsAt (ls : List Lexeme) : ColorError → Prop
  | .malformed offset fault => ∃ l ∈ ls, l.start = offset ∧ fault.Describes l
  | .unsupportedModel _ | .invalidIdentifier _ | .tooDeep | .tooLarge => True

/-- The reader gives a value that satisfies `Q`, or an error at one of the lexemes. -/
def FaultsWithin {α : Type} (ls : List Lexeme) (Q : α → Prop) : Except ColorError α → Prop
  | .ok a => Q a
  | .error e => e.IsAt ls

/-- The errors of the reader are at the lexemes, whatever its values are. -/
abbrev OnlyFaultsWithin {α : Type} (ls : List Lexeme) (r : Except ColorError α) : Prop :=
  FaultsWithin ls (fun _ => True) r

variable {ls : List Lexeme} {α β : Type} {P : α → Prop} {Q : β → Prop}

@[simp]
theorem faultsWithin_ok_iff {a : α} : FaultsWithin ls P (.ok a) ↔ P a := Iff.rfl

@[simp]
theorem faultsWithin_error_iff {e : ColorError} : FaultsWithin ls P (.error e) ↔ e.IsAt ls :=
  Iff.rfl

namespace FaultsWithin

/-- Readers in sequence: if the first is `FaultsWithin` some lexemes and so is the second for every
value that the first may give, then so are both together. -/
theorem bind {r : Except ColorError α} {f : α → Except ColorError β} (hr : FaultsWithin ls P r)
    (hf : ∀ a, P a → FaultsWithin ls Q (f a)) : FaultsWithin ls Q (r >>= f) := by
  cases r with
  | error e => exact hr
  | ok a => exact hf a hr

/-- A function of the value changes what `FaultsWithin` says of the value, and nothing about the
faults. -/
theorem map {r : Except ColorError α} {f : α → β} (hr : FaultsWithin ls P r)
    (hf : ∀ a, P a → Q (f a)) : FaultsWithin ls Q (r.map f) := by
  cases r with
  | error e => exact hr
  | ok a => exact hf a hr

/-- Reading one item after the other is `FaultsWithin` the lexemes if reading each of them is. -/
theorem mapM {xs : List α} {f : α → Except ColorError β}
    (h : ∀ x ∈ xs, FaultsWithin ls Q (f x)) : FaultsWithin ls (∀ y ∈ ·, Q y) (xs.mapM f) := by
  cases hxs : xs.mapM f with
  | error e =>
    obtain ⟨x, hx, hfx⟩ := exists_of_mapM_eq_error hxs
    simpa [hfx] using h x hx
  | ok ys =>
    intro y hy
    obtain ⟨x, hx, hfx⟩ := exists_of_mem_mapM hxs y hy
    simpa [hfx] using h x hx

/-- A reader that chooses between two is `FaultsWithin` the lexemes if both are. -/
theorem ite {c : Prop} [Decidable c] {x y : Except ColorError α} (hx : FaultsWithin ls P x)
    (hy : FaultsWithin ls P y) : FaultsWithin ls P (if c then x else y) := by
  split
  · exact hx
  · exact hy

end FaultsWithin

/-- One of the lexemes starts at the byte position. -/
abbrev IsStart (ls : List Lexeme) (n : Nat) : Prop := ∃ l ∈ ls, l.start = n

/-- A fault that `Describes` every lexeme may be found at any of them. -/
theorem ColorError.isAt_of_isStart {offset : Nat} {fault : Fault} (h : IsStart ls offset)
    (hfault : ∀ l, fault.Describes l) : (ColorError.malformed offset fault).IsAt ls := by
  obtain ⟨l, hl, hstart⟩ := h
  exact ⟨l, hl, hstart, hfault l⟩

/-- What `unexpectedLexeme` reports is found at the lexeme. -/
theorem Lexeme.isAt_unexpectedLexeme {l : Lexeme} {place : Place} (hl : l ∈ ls)
    (hplace : place.Admits l) : (unexpectedLexeme l place).IsAt ls :=
  ⟨l, hl, rfl, rfl, hplace⟩

/-! ## Components and segments of some lexemes -/

/-- The lexemes of the component are among the given ones. -/
def Component.IsOf (ls : List Lexeme) (c : Component) : Prop := c.lexemes ⊆ ls

namespace Component

/-- A component of some lexemes, by `IsOf`, has its first lexeme among them. -/
theorem IsOf.first_mem {c : Component} (h : c.IsOf ls) : c.first ∈ ls :=
  h (c.lexemes_eq_cons ▸ List.mem_cons_self)

/-- What `Component.unexpected` reports is found at the first lexeme of the component. -/
theorem IsOf.isAt_unexpected {c : Component} {place : Place} (h : c.IsOf ls)
    (hplace : place.Admits c.first) : (c.unexpected place).IsAt ls :=
  Lexeme.isAt_unexpectedLexeme h.first_mem hplace

/-- Components whose lexemes are among some lexemes are `IsOf` them. -/
theorem isOf_of_lexemesAll {cs : List Component} (h : lexemesAll cs ⊆ ls) :
    ∀ c ∈ cs, c.IsOf ls := fun _ hc =>
  List.Subset.trans (lexemes_infix_lexemesAll hc).subset h

/-- The lexemes of components that are `IsOf` some lexemes are among these. -/
theorem lexemesAll_subset {cs : List Component} (h : ∀ c ∈ cs, c.IsOf ls) :
    lexemesAll cs ⊆ ls := by
  induction cs with
  | nil => simp [lexemesAll]
  | cons c cs ih =>
    obtain ⟨hc, hcs⟩ := List.forall_mem_cons.mp h
    exact List.append_subset.mpr ⟨hc, ih hcs⟩

/-- The first component, or what follows the components, starts at a lexeme (`IsStart`). -/
theorem isStart_head {cs : List Component} {stop : Nat} (hcs : ∀ c ∈ cs, c.IsOf ls)
    (hstop : IsStart ls stop) :
    IsStart ls ((cs.head?.map Component.start).getD stop) := by
  cases cs with
  | nil => exact hstop
  | cons c cs => exact ⟨c.first, (hcs c List.mem_cons_self).first_mem, rfl⟩

end Component

/-- The components of the segment consist of the given lexemes, and one of these follows it. -/
structure Segment.IsOf (ls : List Lexeme) (s : Segment) : Prop where
  /-- The components are among the lexemes. -/
  parts : s.All (Component.IsOf ls)
  /-- The segment stops at a lexeme. -/
  stop : IsStart ls s.stop

/-- The inside of a block `IsOf` the same lexemes as the block, and is followed by its closing
bracket. -/
theorem Component.IsOf.inside {opener closer : Lexeme} {body : List Component}
    (h : IsOf ls (.block opener body closer)) : Segment.IsOf ls ⟨body, closer.start⟩ := by
  have hlexemes : lexemesAll body ++ [closer] ⊆ ls := (List.cons_subset.mp h).2
  obtain ⟨hbody, hcloser⟩ := List.append_subset.mp hlexemes
  exact ⟨isOf_of_lexemesAll hbody, closer, hcloser (List.mem_singleton_self closer), rfl⟩

namespace Segment

variable {s : Segment}

/-- A `Segment` starts at a lexeme. -/
theorem IsOf.start (h : s.IsOf ls) : IsStart ls s.start := isStart_head h.parts h.stop

/-- Taking blanks off the ends with `Segment.trim` leaves a segment of the same lexemes. -/
theorem IsOf.trim (h : s.IsOf ls) : s.trim.IsOf ls := by
  refine ⟨h.parts.trim, isStart_head (fun c hc => ?_) h.stop⟩
  exact h.parts c ((List.dropWhile_suffix isWhitespace).subset (List.mem_of_mem_drop hc))

/-- A piece of `splitOn` is followed by the component it was split at, or by what follows the whole
segment. -/
theorem isStart_stop_of_mem_splitOn {p : Component → Bool} {stop : Nat} {cs : List Component}
    (hcs : ∀ c ∈ cs, c.IsOf ls) (hstop : IsStart ls stop) :
    ∀ piece ∈ splitOn p stop cs, IsStart ls piece.stop := by
  induction cs with
  | nil => simpa [splitOn] using hstop
  | cons c cs ih =>
    obtain ⟨hc, hcs⟩ := List.forall_mem_cons.mp hcs
    have hmore := ih hcs
    rw [splitOn]
    split
    · exact List.forall_mem_cons.mpr ⟨⟨c.first, hc.first_mem, rfl⟩, hmore⟩
    · split
      · simpa using hstop
      · rename_i piece more heq
        rw [heq] at hmore
        obtain ⟨hpiece, hmore⟩ := List.forall_mem_cons.mp hmore
        exact List.forall_mem_cons.mpr ⟨hpiece, hmore⟩

/-- The pieces of `splitOn` are segments of the same lexemes. -/
theorem IsOf.splitOn (h : s.IsOf ls) (p : Component → Bool) :
    ∀ piece ∈ splitOn p s.stop s.parts, piece.IsOf ls := fun piece hpiece =>
  ⟨All.splitOn p s.stop h.parts piece hpiece,
    isStart_stop_of_mem_splitOn h.parts h.stop piece hpiece⟩

/-- The pieces of `Segment.words` are segments of the same lexemes. -/
theorem IsOf.words (h : s.IsOf ls) : ∀ piece ∈ s.words, piece.IsOf ls := fun piece hpiece =>
  h.splitOn isWhitespace piece (List.mem_filter.mp hpiece).1

/-- A missing argument is found at a lexeme, and the arguments of `Segment.arguments` are segments
of the same lexemes. -/
theorem IsOf.arguments (h : s.IsOf ls) :
    FaultsWithin ls (∀ arg ∈ ·, Segment.IsOf ls arg) s.arguments := by
  unfold Segment.arguments
  dsimp only
  refine .ite (by simp [FaultsWithin]) (.mapM fun piece hpiece => ?_)
  have hpiece := h.trim.splitOn (isToken .comma) piece hpiece
  exact .ite (ColorError.isAt_of_isStart hpiece.start fun _ => trivial) hpiece.trim

end Segment

/-! ## Numbers -/

namespace NumberGrammar

variable {value : Component → Except ColorError (Expr Float)} {stop : Nat}

/-- The faults of the two turns of reading a sum, `readValue` and `readOperator`, are found at the
lexemes if those of the values are. -/
theorem faultsWithin_readValue {cs : List Component} (hcs : ∀ c ∈ cs, c.IsOf ls)
    (hvalue : ∀ c ∈ cs, OnlyFaultsWithin ls (value c)) (hstop : IsStart ls stop) :
    OnlyFaultsWithin ls (readValue value stop cs) ∧
      OnlyFaultsWithin ls (readOperator value stop cs) := by
  induction cs with
  | nil => exact ⟨ColorError.isAt_of_isStart hstop fun _ => trivial, trivial⟩
  | cons c cs ih =>
    obtain ⟨hc, hcs⟩ := List.forall_mem_cons.mp hcs
    obtain ⟨hfirst, hvalue⟩ := List.forall_mem_cons.mp hvalue
    obtain ⟨ihValue, ihOperator⟩ := ih hcs hvalue
    constructor
    · rw [readValue]
      exact .ite ihValue (hfirst.bind fun _ _ => ihOperator.bind fun _ _ => trivial)
    · rw [readOperator]
      refine .ite ihOperator ?_
      split
      · exact ihValue.bind fun _ _ => trivial
      · exact .ite (hfirst.bind fun _ _ => ihOperator.bind fun _ _ => trivial)
          (hc.isAt_unexpected trivial)

/-- The faults of an `operand` are found at its lexemes or at what follows it. -/
theorem faultsWithin_operand {segment : Segment} (h : segment.IsOf ls)
    (hvalue : segment.All fun c => OnlyFaultsWithin ls (value c)) :
    OnlyFaultsWithin ls (operand value segment) := by
  unfold operand
  dsimp only
  refine .ite (ColorError.isAt_of_isStart h.trim.stop fun _ => trivial) ?_
  exact (faultsWithin_readValue h.trim.parts hvalue.trim h.trim.stop).1.map fun _ _ => trivial

/-- The faults of a `mathFunction` are found at the function or inside of it. -/
theorem faultsWithin_mathFunction {opener : Lexeme} {name : String} {function : MathFunction}
    {inside : Segment} (hopener : opener ∈ ls) (hname : opener.token = .function name)
    (h : inside.IsOf ls) (hvalue : ∀ c, c.IsOf ls → OnlyFaultsWithin ls (value c)) :
    OnlyFaultsWithin ls (mathFunction value opener name function inside) := by
  refine h.arguments.bind fun args hargs => ?_
  have hoperand : ∀ arg ∈ args, OnlyFaultsWithin ls (operand value arg) := fun arg harg =>
    faultsWithin_operand (hargs arg harg) fun c hc => hvalue c ((hargs arg harg).parts c hc)
  cases function with
  | clamp =>
    dsimp only
    split
    · simp only [List.forall_mem_cons] at hoperand
      refine hoperand.1.bind fun _ _ => hoperand.2.1.bind fun _ _ => ?_
      exact hoperand.2.2.1.bind fun _ _ => trivial
    · exact ⟨opener, hopener, rfl, hname⟩
  | min | max =>
    dsimp only
    split
    · exact ⟨opener, hopener, rfl, hname⟩
    · exact (FaultsWithin.mapM hoperand).bind fun _ _ => trivial

/-- The faults of the number that a component writes (`readComponent`) are found at its lexemes. -/
theorem faultsWithin_readComponent {levels : Nat} {c : Component} (hc : c.IsOf ls) :
    OnlyFaultsWithin ls (readComponent levels c) := by
  induction levels generalizing c with
  | zero => exact trivial
  | succ levels ih =>
    cases c with
    | token l =>
      rw [readComponent]
      split
      · exact trivial
      · exact hc.isAt_unexpected trivial
    | block opener body closer =>
      rw [readComponent]
      have hoperand := faultsWithin_operand hc.inside fun c hmem => ih (hc.inside.parts c hmem)
      split
      · -- Faults inside parentheses are dropped, other errors have no position.
        split
        · exact trivial
        · exact trivial
        · rename_i heq
          rwa [heq] at hoperand
      · rename_i hname
        refine .ite hoperand ?_
        split
        · exact faultsWithin_mathFunction hc.first_mem hname hc.inside fun c hc => ih hc
        · exact trivial
      · exact hc.isAt_unexpected trivial

end NumberGrammar

/-- The faults of `Segment.number` are found at the lexemes of the segment or at what follows it. -/
theorem Segment.IsOf.number {levels : Nat} {segment : Segment} (h : segment.IsOf ls) :
    OnlyFaultsWithin ls (segment.number levels) :=
  NumberGrammar.faultsWithin_operand h fun c hc =>
    NumberGrammar.faultsWithin_readComponent (h.parts c hc)

/-! ## Colors -/

namespace ColorGrammar

variable {levels : Nat} {segment inside : Segment} {opener : Lexeme} {name : String}

/-- A wrong unit is found where its segment starts. -/
theorem isAt_badUnit (h : segment.IsOf ls) (unit : String) : (badUnit segment unit).IsAt ls :=
  ColorError.isAt_of_isStart h.start fun _ => trivial

/-- Only a plain quantity is looked at more closely. -/
theorem faultsWithin_match_quantity {e : Expr Float}
    {f : Quantity Float → Except ColorError (Expr Float)} (hf : ∀ q, OnlyFaultsWithin ls (f q)) :
    OnlyFaultsWithin ls (match e with
      | .quantity q => f q
      | e => pure e) := by
  split
  · exact hf _
  · exact trivial

/-- The faults of a channel that `rgbChannel` reads are found at its lexemes. -/
theorem faultsWithin_rgbChannel (h : segment.IsOf ls) :
    OnlyFaultsWithin ls (rgbChannel levels segment) := by
  refine h.number.bind fun _ _ => faultsWithin_match_quantity fun _ => ?_
  exact .ite trivial (.ite trivial (isAt_badUnit h _))

/-- The faults of an opacity that `alphaValue` reads are found at its lexemes. -/
theorem faultsWithin_alphaValue {alpha : Option Segment} (h : ∀ s ∈ alpha, Segment.IsOf ls s) :
    OnlyFaultsWithin ls (alphaValue levels alpha) := by
  cases alpha with
  | none => exact trivial
  | some segment =>
    have h := h segment rfl
    refine h.number.bind fun _ _ => faultsWithin_match_quantity fun _ => ?_
    exact .ite trivial (.ite trivial (isAt_badUnit h _))

/-- The faults of an angle that `hue` reads are found at its lexemes. -/
theorem faultsWithin_hue (h : segment.IsOf ls) : OnlyFaultsWithin ls (hue levels segment) := by
  refine h.number.bind fun _ _ => faultsWithin_match_quantity fun _ => ?_
  exact .ite trivial (isAt_badUnit h _)

/-- The faults of a share that `percentage` reads are found at its lexemes. -/
theorem faultsWithin_percentage (h : segment.IsOf ls) :
    OnlyFaultsWithin ls (percentage levels segment) := by
  refine h.number.bind fun _ _ => faultsWithin_match_quantity fun _ => ?_
  exact .ite trivial (.ite trivial (isAt_badUnit h _))

/-- The channels and the opacity are segments of the lexemes. -/
def ChannelsOf (ls : List Lexeme) (found : List Segment × Option Segment) : Prop :=
  (∀ s ∈ found.1, Segment.IsOf ls s) ∧ ∀ s ∈ found.2, Segment.IsOf ls s

/-- A component that `isSlash` is the one token. -/
theorem token_first_of_isSlash {c : Component} (h : isSlash c) : c.first.token = .delim '/' := by
  have htoken := isToken_iff.mp h
  cases c with
  | token l => exact Option.some.inj htoken
  | block opener body closer => cases htoken

/-- The faults of `spacedChannels` are found at the lexemes, and the channels are segments of them.
-/
theorem faultsWithin_spacedChannels (h : segment.IsOf ls) :
    FaultsWithin ls (ChannelsOf ls) (spacedChannels segment) := by
  have hpieces := h.splitOn isSlash
  have hnone : ChannelsOf ls (segment.words, none) := ⟨h.words, by simp⟩
  unfold spacedChannels
  split
  · rename_i channels alpha heq
    simp only [heq, List.forall_mem_cons] at hpieces
    split
    · rename_i word hword
      refine ⟨hpieces.1.words, fun s hs => ?_⟩
      cases hs
      exact hpieces.2.1.words word (by simp [hword])
    · exact ColorError.isAt_of_isStart h.start fun _ => trivial
  · split
    · rename_i first second more heq
      have hmem : second ∈ segment.parts.filter isSlash := by simp [heq]
      obtain ⟨hsecond, hslash⟩ := List.mem_filter.mp hmem
      exact (h.parts second hsecond).isAt_unexpected (token_first_of_isSlash hslash)
    · exact hnone
  · exact hnone

/-- The faults of `commaChannels` are found at the lexemes, and the channels are segments of them.
-/
theorem faultsWithin_commaChannels {args : List Segment} (h : ∀ s ∈ args, Segment.IsOf ls s) :
    FaultsWithin ls (ChannelsOf ls) (commaChannels args) := by
  unfold commaChannels
  split
  · rename_i slash hfind
    obtain ⟨arg, harg, hslash⟩ := List.mem_flatMap.mp (List.mem_of_find?_eq_some hfind)
    exact ((h arg harg).parts slash hslash).isAt_unexpected
      (token_first_of_isSlash (List.find?_some hfind))
  · split
    · simp only [List.forall_mem_cons] at h
      refine ⟨?_, fun s hs => ?_⟩
      · simpa [List.forall_mem_cons] using ⟨h.1, h.2.1, h.2.2.1⟩
      · cases hs
        exact h.2.2.2.1
    · exact ⟨h, by simp⟩

/-- The three channels and the opacity are segments of the lexemes. -/
abbrev ThreeChannelsOf (ls : List Lexeme)
    (found : (Segment × Segment × Segment) × Option Segment) : Prop :=
  ChannelsOf ls ([found.1.1, found.1.2.1, found.1.2.2], found.2)

/-- Whichever way the channels are separated, a wrong number of them is found at the function. -/
theorem faultsWithin_threeChannels {found : Except ColorError (List Segment × Option Segment)}
    (hopener : opener ∈ ls) (hname : opener.token = .function name)
    (h : FaultsWithin ls (ChannelsOf ls) found) :
    FaultsWithin ls (ThreeChannelsOf ls) (do
      let x ← found
      match x.1 with
      | [first, second, third] => pure ((first, second, third), x.2)
      | _ => throw (ColorError.malformed opener.start (.channelCount name x.1.length))) := by
  refine h.bind ?_
  rintro ⟨channels, alpha⟩ hfound
  dsimp only
  split
  · exact hfound
  · exact ⟨opener, hopener, rfl, hname⟩

/-- The faults of `channels` are found at the function or inside of it. -/
theorem faultsWithin_channels (hopener : opener ∈ ls) (hname : opener.token = .function name)
    (h : inside.IsOf ls) :
    FaultsWithin ls (ThreeChannelsOf ls) (channels opener name inside) := by
  refine h.arguments.bind fun args hargs => ?_
  dsimp only
  split
  · have honly := hargs _ List.mem_cons_self
    exact faultsWithin_threeChannels hopener hname (faultsWithin_spacedChannels honly)
  · exact faultsWithin_threeChannels hopener hname (faultsWithin_commaChannels hargs)

/-- The faults of a color that `rgb` reads are found at the function or inside of it. -/
theorem faultsWithin_rgb (hopener : opener ∈ ls) (hname : opener.token = .function name)
    (h : inside.IsOf ls) : OnlyFaultsWithin ls (rgb levels opener name inside) := by
  refine (faultsWithin_channels hopener hname h).bind ?_
  rintro ⟨⟨red, green, blue⟩, alpha⟩ ⟨hchannels, halpha⟩
  simp only [List.forall_mem_cons] at hchannels
  refine (faultsWithin_rgbChannel hchannels.1).bind fun _ _ => ?_
  refine (faultsWithin_rgbChannel hchannels.2.1).bind fun _ _ => ?_
  refine (faultsWithin_rgbChannel hchannels.2.2.1).bind fun _ _ => ?_
  exact (faultsWithin_alphaValue halpha).bind fun _ _ => trivial

/-- The faults of a color that `hsl` reads are found at the function or inside of it. -/
theorem faultsWithin_hsl (hopener : opener ∈ ls) (hname : opener.token = .function name)
    (h : inside.IsOf ls) : OnlyFaultsWithin ls (hsl levels opener name inside) := by
  refine (faultsWithin_channels hopener hname h).bind ?_
  rintro ⟨⟨first, second, third⟩, alpha⟩ ⟨hchannels, halpha⟩
  simp only [List.forall_mem_cons] at hchannels
  refine (faultsWithin_hue hchannels.1).bind fun _ _ => ?_
  refine (faultsWithin_percentage hchannels.2.1).bind fun _ _ => ?_
  refine (faultsWithin_percentage hchannels.2.2.1).bind fun _ _ => ?_
  exact (faultsWithin_alphaValue halpha).bind fun _ _ => trivial

/-- The faults of a `composite` are found at the function or inside of it, if those of the colors
inside are. -/
theorem faultsWithin_composite {color : Segment → Except ColorError (Color Float)}
    {function : Composite} (hopener : opener ∈ ls) (hname : opener.token = .function name)
    (h : inside.IsOf ls) (hcolor : ∀ s, Segment.IsOf ls s → OnlyFaultsWithin ls (color s)) :
    OnlyFaultsWithin ls (composite color levels function opener name inside) := by
  refine h.arguments.bind fun args hargs => ?_
  cases function with
  | mix =>
    dsimp only
    split
    · simp only [List.forall_mem_cons] at hargs
      refine (hcolor _ hargs.1).bind fun _ _ => (hcolor _ hargs.2.1).bind fun _ _ => ?_
      exact hargs.2.2.1.number.bind fun _ _ => trivial
    · exact ⟨opener, hopener, rfl, hname⟩
  | shade | alpha =>
    dsimp only
    split
    · simp only [List.forall_mem_cons] at hargs
      refine (hcolor _ hargs.1).bind fun _ _ => ?_
      exact hargs.2.1.number.bind fun _ _ => trivial
    · exact ⟨opener, hopener, rfl, hname⟩
  | lighter | darker =>
    dsimp only
    split
    · exact (hcolor _ (hargs _ List.mem_cons_self)).map fun _ _ => trivial
    · exact ⟨opener, hopener, rfl, hname⟩

/-- The faults of a color of one `token` are found at this token. -/
theorem faultsWithin_token {l : Lexeme} (hl : l ∈ ls) : OnlyFaultsWithin ls (token l) := by
  unfold token
  split
  · rename_i hhash
    split
    · exact trivial
    · exact ⟨l, hl, rfl, hhash⟩
  · exact trivial
  · exact trivial
  · exact ⟨l, hl, rfl, rfl⟩

/-- What is `trailing` behind a color is found at the lexeme behind its function, or behind its
first token. -/
theorem isAt_trailing {first : Component} {rest : List Component} (hfirst : first.IsOf ls)
    (hrest : ∀ c ∈ rest, c.IsOf ls) : (trailing first rest).IsAt ls := by
  have hbehind := lexemesAll_subset hrest
  unfold trailing
  dsimp only
  split
  · rename_i next more hafter
    refine Lexeme.isAt_unexpectedLexeme ?_ trivial
    have hnext : next ∈ next :: more := List.mem_cons_self
    rw [← hafter] at hnext
    split at hnext
    · split at hnext
      · exact hbehind hnext
      · -- Of a block that is no function only the bracket is read, so its inside is left over too.
        rename_i opener body closer _ _
        have hclosed : lexemesAll body ++ [closer] ⊆ ls := (List.cons_subset.mp hfirst).2
        rw [List.append_cons] at hnext
        exact List.append_subset.mpr ⟨hclosed, hbehind⟩ hnext
    · exact hbehind hnext
  · exact ⟨first.first, hfirst.first_mem, rfl, trivial⟩

/-- The faults of `read` are found at the lexemes of the segment or at what follows it. -/
theorem faultsWithin_read (h : segment.IsOf ls) : OnlyFaultsWithin ls (read levels segment) := by
  induction levels generalizing segment with
  | zero => exact trivial
  | succ levels ih =>
    have htrim := h.trim
    have hparts := htrim.parts
    unfold Segment.All at hparts
    rw [read]
    dsimp only
    split
    · exact ColorError.isAt_of_isStart htrim.stop fun _ => trivial
    · rename_i l heq
      simp only [heq, List.forall_mem_cons] at hparts
      exact faultsWithin_token hparts.1.first_mem
    · rename_i opener body closer heq
      simp only [heq, List.forall_mem_cons] at hparts
      have hopener : opener ∈ ls := hparts.1.first_mem
      have hinside := hparts.1.inside
      split
      · rename_i name hname
        split
        · exact faultsWithin_rgb hopener hname hinside
        · exact faultsWithin_rgb hopener hname hinside
        · exact faultsWithin_hsl hopener hname hinside
        · exact faultsWithin_hsl hopener hname hinside
        · split
          · exact faultsWithin_composite hopener hname hinside fun s hs => ih hs
          · exact ⟨opener, hopener, rfl, hname⟩
      · exact isAt_trailing hparts.1 hparts.2
    · rename_i heq
      simp only [heq, List.forall_mem_cons] at hparts
      exact isAt_trailing hparts.1 hparts.2

end ColorGrammar

/-- What follows a block does not matter for the `Segment.color` that the block alone writes. -/
theorem Segment.color_block (opener closer : Lexeme) (body : List Component) (stop stop' : Nat) :
    Segment.color ⟨[.block opener body closer], stop⟩ =
      Segment.color ⟨[.block opener body closer], stop'⟩ := rfl

/-! ## Blocks -/

namespace Component

/-- A bracket that `closeBlock` does not find is found missing at the bracket that was opened. -/
theorem faultsWithin_closeBlock {outer : Lexeme} {top : Frame} {below : List Frame}
    {input : List Lexeme} (houter : outer ∈ ls) (hopens : outer.token.opens?.isSome)
    (hinput : input ⊆ ls) : OnlyFaultsWithin ls (closeBlock outer top below input) := by
  induction input generalizing top below with
  | nil => exact ⟨outer, houter, rfl, rfl, hopens⟩
  | cons l rest ih =>
    obtain ⟨hl, hrest⟩ := List.cons_subset.mp hinput
    rw [closeBlock]
    split
    · exact .ite trivial (ih hrest)
    · rename_i hcloses
      refine .ite ?_ (Lexeme.isAt_unexpectedLexeme hl (Option.isSome_of_eq_some hcloses))
      dsimp only
      split
      · exact trivial
      · exact ih hrest
    · split
      · exact ih hrest
      · rename_i hterminated
        exact ⟨l, hl, rfl, Bool.eq_false_iff.mpr hterminated⟩

/-- The faults of `readBlock` are found at the opening bracket or behind it. -/
theorem faultsWithin_readBlock {opener : Lexeme} {bracket : Bracket} {input : List Lexeme}
    (hopener : opener ∈ ls) (hopens : opener.token.opens? = some bracket) (hinput : input ⊆ ls) :
    OnlyFaultsWithin ls (readBlock opener bracket input) :=
  faultsWithin_closeBlock hopener (Option.isSome_of_eq_some hopens) hinput

/-- The block that `readBlock` gives consists of the opening bracket and of lexemes behind it. -/
theorem isOf_of_readBlock {opener : Lexeme} {bracket : Bracket} {input after : List Lexeme}
    {c : Component} (h : readBlock opener bracket input = .ok (c, after))
    (hinput : opener :: input ⊆ ls) : c.IsOf ls ∧ after ⊆ ls := by
  obtain ⟨used, rfl, hlexemes⟩ := lexemes_of_readBlock h
  rw [← List.cons_append] at hinput
  obtain ⟨hused, hafter⟩ := List.append_subset.mp hinput
  exact ⟨fun l hl => hused (hlexemes ▸ hl), hafter⟩

/-- The faults of `forest` are found at the lexemes, and the components are made of them. -/
theorem faultsWithin_forest {input : List Lexeme} (hinput : input ⊆ ls) :
    FaultsWithin ls (∀ c ∈ ·, Component.IsOf ls c) (forest input) := by
  fun_induction forest input with
  | case1 => simp
  | case2 l rest bracket hopens c after hblock ih =>
    obtain ⟨hc, hafter⟩ := isOf_of_readBlock hblock hinput
    exact (ih hafter).map fun cs hcs => List.forall_mem_cons.mpr ⟨hc, hcs⟩
  | case3 l rest bracket hopens e hblock =>
    obtain ⟨hl, hrest⟩ := List.cons_subset.mp hinput
    simpa [hblock] using faultsWithin_readBlock hl hopens hrest
  | case4 l rest bracket hcloses hopens =>
    obtain ⟨hl, -⟩ := List.cons_subset.mp hinput
    exact Lexeme.isAt_unexpectedLexeme hl (Option.isSome_of_eq_some hcloses)
  | case5 l rest hcloses hopens hterminated ih =>
    obtain ⟨hl, hrest⟩ := List.cons_subset.mp hinput
    have htoken : IsOf ls (.token l) := List.cons_subset.mpr ⟨hl, List.nil_subset ls⟩
    exact (ih hrest).map fun cs hcs => List.forall_mem_cons.mpr ⟨htoken, hcs⟩
  | case6 l rest hcloses hopens hterminated =>
    obtain ⟨hl, -⟩ := List.cons_subset.mp hinput
    exact ⟨l, hl, rfl, Bool.eq_false_iff.mpr hterminated⟩

/-- What `readBlock` gives is a block. -/
theorem exists_block_of_readBlock {opener : Lexeme} {bracket : Bracket} {input after : List Lexeme}
    {c : Component} (h : readBlock opener bracket input = .ok (c, after))
    (hopens : opener.token.opens? = some bracket) :
    ∃ opener body closer, c = .block opener body closer := by
  have hmatched := matched_of_readBlock h hopens
  obtain ⟨used, -, hlexemes⟩ := lexemes_of_readBlock h
  cases c with
  | token l =>
    obtain rfl := (List.cons.inj hlexemes).1
    simp [hmatched.1] at hopens
  | block opener body closer => exact ⟨opener, body, closer, rfl⟩

end Component

/-! ## Texts and documents -/

/-- Every lexeme of a text starts between two of its characters (`IsBoundary`). -/
theorem Lexeme.isBoundary_start {text : List Char} {l : Lexeme} (h : l ∈ ofText text) :
    IsBoundary text l.start := by
  obtain ⟨before, after, htext⟩ := List.append_of_mem h
  have hspelled : spelled (ofText text) = text := spelled_scanFrom 0 text
  have hconsecutive : Consecutive 0 (ofText text) := consecutive_scanFrom 0 text
  rw [htext] at hspelled hconsecutive
  cases hconsecutive.of_append with
  | cons hstart hrest =>
    refine ⟨spelled before ++ l.gap, l.text ++ spelled after, ?_, ?_⟩
    · rw [← hspelled]
      simp [spelled]
    · rw [byteSize_append, hstart, Nat.zero_add]

/-- The `contents` are the lexemes of the text without its end. -/
theorem Lexeme.contents_subset_ofText (text : List Char) : contents text ⊆ ofText text :=
  List.dropLast_subset (ofText text)

/-- The faults that `Color.parse` finds in a text that is not blank are found at its lexemes. -/
theorem Color.faultsWithin_parse {text : String} (hne : Color.solidLexemes text ≠ []) :
    OnlyFaultsWithin (Lexeme.ofText text.toList) (Color.parse text) := by
  have hsubset : Color.solidLexemes text ⊆ Lexeme.ofText text.toList :=
    List.Subset.trans (trimWhile_isInfix _ _).subset (Lexeme.contents_subset_ofText _)
  unfold Color.parse
  rw [← Color.solidLexemes]
  dsimp only
  rw [if_neg (by simpa using hne)]
  refine (faultsWithin_forest hsubset).bind fun parts hparts => ?_
  -- The whole expression is followed by the end of the text.
  obtain ⟨gap, hend⟩ := Lexeme.ofText_eq_contents text.toList
  refine ColorGrammar.faultsWithin_read ⟨hparts, ?_⟩
  exact ⟨⟨.eof, gap, [], byteSize text.toList⟩, by simp [hend], rfl⟩

/-- A blank text is refused by `Color.parse` at its first byte. -/
theorem Color.parse_of_blank {text : String} (h : Color.solidLexemes text = []) :
    Color.parse text = .error (.malformed 0 .emptyExpression) := by
  unfold Color.parse
  rw [← Color.solidLexemes, h]
  rfl

/-- The faults that `Document.occurrences` finds are found at the lexemes. -/
theorem Document.faultsWithin_occurrences {input : List Lexeme} (hinput : input ⊆ ls) :
    OnlyFaultsWithin ls (occurrences input) := by
  fun_induction occurrences input with
  | case1 => exact trivial
  | case2 l rest name hname ih =>
    exact (ih (List.cons_subset.mp hinput).2).map fun _ _ => trivial
  | case3 l rest name hname hcomposite e hblock =>
    obtain ⟨hl, hrest⟩ := List.cons_subset.mp hinput
    have hopens : l.token.opens? = some .paren := by rw [hname]; rfl
    simpa [hblock] using faultsWithin_readBlock hl hopens hrest
  | case4 l rest name hname hcomposite block after hblock hlength lexemes =>
    rename_i span ih
    have hopens : l.token.opens? = some .paren := by rw [hname]; rfl
    obtain ⟨hof, hafter⟩ := isOf_of_readBlock hblock hinput
    obtain ⟨opener, body, closer, rfl⟩ := exists_block_of_readBlock hblock hopens
    -- Only the end of the span is known, which need not be the start of a lexeme. The block is read
    -- as if its own closing bracket followed it.
    have hsegment : Segment.IsOf ls ⟨[.block opener body closer], closer.start⟩ :=
      ⟨by simpa [Segment.All] using hof, hof.inside.stop⟩
    have hcolor : OnlyFaultsWithin ls (Segment.color ⟨[.block opener body closer], span.stop⟩) := by
      rw [Segment.color_block opener closer body span.stop closer.start]
      exact ColorGrammar.faultsWithin_read hsegment
    exact hcolor.bind fun _ _ => (ih hafter).map fun _ _ => trivial
  | case5 l rest name hname hcomposite ih => exact ih (List.cons_subset.mp hinput).2
  | case6 l rest hreference hfunction ih => exact ih (List.cons_subset.mp hinput).2

/-- **Faults are found at usable positions.** If a text is no color expression, its fault is found
at the start of one of the lexemes of the text, the end of the text included, and this lexeme is
what the fault tells of: the piece out of place, the function with the wrong arguments, the bracket
that is not closed. Only a blank text is refused at byte 0 without a lexeme. In a document every
fault is found at a lexeme. So the position is inside the text and between two of its characters. -/
theorem Fault.found_at_lexeme :
    (∀ text offset fault, Color.parse text = .error (.malformed offset fault) →
      (offset = 0 ∧ fault = .emptyExpression ∨
        ∃ l ∈ Lexeme.ofText text.toList, l.start = offset ∧ fault.Describes l) ∧
      offset ≤ byteSize text.toList ∧ IsBoundary text.toList offset) ∧
    ∀ text offset fault, Document.parse text = .error (.malformed offset fault) →
      (∃ l ∈ Lexeme.ofText text, l.start = offset ∧ fault.Describes l) ∧
      offset ≤ byteSize text ∧ IsBoundary text offset := by
  constructor
  · intro text offset fault h
    by_cases hblank : Color.solidLexemes text = []
    · rw [Color.parse_of_blank hblank] at h
      cases h
      exact ⟨.inl ⟨rfl, rfl⟩, Nat.zero_le _, [], text.toList, rfl, rfl⟩
    · have hfaults := Color.faultsWithin_parse hblank
      rw [h] at hfaults
      obtain ⟨l, hl, rfl, hdescribes⟩ := hfaults
      have hboundary := Lexeme.isBoundary_start hl
      exact ⟨.inr ⟨l, hl, rfl, hdescribes⟩, hboundary.le_byteSize, hboundary⟩
  · intro text offset fault h
    have hfaults : OnlyFaultsWithin (Lexeme.ofText text) (Document.parse text) :=
      (Document.faultsWithin_occurrences (Lexeme.contents_subset_ofText text)).map
        fun _ _ => trivial
    rw [h] at hfaults
    obtain ⟨l, hl, rfl, hdescribes⟩ := hfaults
    have hboundary := Lexeme.isBoundary_start hl
    exact ⟨⟨l, hl, rfl, hdescribes⟩, hboundary.le_byteSize, hboundary⟩

theorem eq_error_of_decide {r : Except ColorError α} {e : ColorError}
    (h : (match r with
      | .ok _ => false
      | .error e' => decide (e' = e)) = true) : r = .error e := by
  cases r with
  | ok a => cases h
  | error e' => rw [of_decide_eq_true h]

/-- A number that is missing at a closing bracket, and a function that is never closed, both behind
a character of two bytes. -/
theorem Fault.found_at_lexeme_closer :
    (Color.parse "shade(@é,calc(2 +) )" = .error (.malformed 18 .expectedNumber) ∧
      ∃ l ∈ Lexeme.ofText "shade(@é,calc(2 +) )".toList, l.start = 18) ∧
    (Document.parse "é mix(@a".toList = .error (.malformed 3 (.unclosed "mix(")) ∧
      ∃ l ∈ Lexeme.ofText "é mix(@a".toList, l.start = 3 ∧ l.text = "mix(".toList) := by
  obtain ⟨hcolor, hdocument⟩ := Fault.found_at_lexeme
  have hnumber : Color.parse "shade(@é,calc(2 +) )" = .error (.malformed 18 .expectedNumber) :=
    eq_error_of_decide (by decide +kernel)
  have hfunction : Document.parse "é mix(@a".toList = .error (.malformed 3 (.unclosed "mix(")) :=
    eq_error_of_decide (by decide +kernel)
  refine ⟨⟨hnumber, ?_⟩, hfunction, ?_⟩
  · obtain ⟨⟨hzero, -⟩ | ⟨l, hl, hstart, -⟩, -⟩ := hcolor _ _ _ hnumber
    · cases hzero
    · exact ⟨l, hl, hstart⟩
  · obtain ⟨⟨l, hl, hstart, htext, -⟩, -⟩ := hdocument _ _ _ hfunction
    exact ⟨l, hl, hstart, (String.toList_ofList.symm.trans (congrArg String.toList htext).symm)⟩

end ThemeColor
