import ThemeColor.Proofs.Agreement
import ThemeColor.Proofs.Resolution

/-!
# The nesting limit

Depth is limited in four places: while brackets are matched, while colors and numbers are read from
matched brackets, and while a color is resolved. They share one limit, and only the first of them is
ever reached.

## Main results

* `Component.forest_eq_tooDeep_iff`: matching brackets fails with `tooDeep` exactly if one bracket
  more than the limit is open at some point, and everything up to there is in order;
* `ColorGrammar.malforms_read`: reading a color from brackets within the limit never does;
* `Palette.neverTooDeep_resolveAt`: nor does resolving a color that is no higher than the limit, and
  a color that was read is not (`Grammar.Writes.height_le`);
* `Color.nesting_limit_shared`: the four limits together.
-/

namespace ThemeColor

open Component

/-! ## Open brackets from left to right -/

namespace Bracket

/-- The brackets that are open behind a lexeme, the innermost one first, given those that are open
in front of it. There is no next step at a closing bracket that does not match the innermost open
one, and at a quoted text that is not closed. -/
def follow? (stack : List Bracket) (l : Lexeme) : Option (List Bracket) :=
  match l.token.opens?, l.token.closes? with
  | some bracket, _ => some (bracket :: stack)
  | none, some bracket => if stack.head? = some bracket then some stack.tail else none
  | none, none => if isTerminated l then some stack else none

/-- From the open brackets in front of the lexemes on, the steps lead to a point where `n` brackets
are open. -/
def Reaches (n : Nat) (stack : List Bracket) (ls : List Lexeme) : Prop :=
  ∃ front next, front <+: ls ∧ front.foldlM follow? stack = some next ∧ next.length = n

variable {n : Nat} {stack : List Bracket}

theorem reaches_nil_iff : Reaches n stack [] ↔ stack.length = n := by
  constructor
  · rintro ⟨front, next, hfront, hnext, hlength⟩
    obtain rfl := List.prefix_nil.mp hfront
    cases hnext
    exact hlength
  · intro h
    exact ⟨[], stack, List.prefix_refl _, rfl, h⟩

/-- If enough brackets are open already, the point is reached. -/
theorem reaches_of_length {ls : List Lexeme} (h : stack.length = n) : Reaches n stack ls :=
  ⟨[], stack, List.nil_prefix, rfl, h⟩

/-- Where fewer brackets are open, the next step of `follow?` has to be taken first. -/
theorem reaches_cons_iff {l : Lexeme} {ls : List Lexeme} (h : stack.length < n) :
    Reaches n stack (l :: ls) ↔ ∃ next, follow? stack l = some next ∧ Reaches n next ls := by
  constructor
  · rintro ⟨front, last, hfront, hlast, hlength⟩
    cases front with
    | nil =>
      cases hlast
      omega
    | cons first front =>
      obtain ⟨rfl, hrest⟩ := List.cons_prefix_cons.mp hfront
      rw [List.foldlM_cons] at hlast
      obtain ⟨next, hnext, hlast⟩ := Option.bind_eq_some_iff.mp hlast
      exact ⟨next, hnext, front, last, hrest, hlast, hlength⟩
  · rintro ⟨next, hnext, front, last, hfront, hlast, hlength⟩
    refine ⟨l :: front, last, List.cons_prefix_cons.mpr ⟨rfl, hfront⟩, ?_, hlength⟩
    rw [List.foldlM_cons, hnext]
    exact hlast

/-- A step of `follow?` keeps what can be reached. -/
theorem reaches_cons_of_some {l : Lexeme} {ls : List Lexeme} {next : List Bracket}
    (h : stack.length < n) (hnext : follow? stack l = some next) :
    Reaches n stack (l :: ls) ↔ Reaches n next ls := by
  rw [reaches_cons_iff h, hnext]
  simp

/-- Nothing is reached behind a lexeme that `follow?` refuses. -/
theorem not_reaches_cons_of_none {l : Lexeme} {ls : List Lexeme} (h : stack.length < n)
    (hnext : follow? stack l = none) : ¬ Reaches n stack (l :: ls) := by
  rw [reaches_cons_iff h, hnext]
  simp

end Bracket

/-! ## Matching brackets -/

namespace Component

open ThemeColor.Bracket

/-- A block is too deep for `closeBlock`, or what follows it is, exactly if one bracket more than
the limit is open at some point. -/
theorem reaches_iff_closeBlock {outer : Lexeme} {top : Frame} {below : List Frame}
    {input : List Lexeme} (hbelow : below.length + 1 ≤ nestingLimit) :
    Reaches (nestingLimit + 1) ((top :: below).map Frame.bracket) input ↔
      closeBlock outer top below input = .error .tooDeep ∨
        ∃ c after, closeBlock outer top below input = .ok (c, after) ∧
          Reaches (nestingLimit + 1) [] after := by
  induction input generalizing top below with
  | nil =>
    rw [reaches_nil_iff]
    simp only [closeBlock, List.length_map, List.length_cons]
    exact iff_of_false (by omega) (by simp)
  | cons l rest ih =>
    have hlt : ((top :: below).map Frame.bracket).length < nestingLimit + 1 := by
      simp only [List.length_map, List.length_cons]
      omega
    rw [closeBlock]
    rcases hopens : l.token.opens? with _ | bracket
    · rcases hcloses : l.token.closes? with _ | bracket
      · dsimp only
        by_cases hterminated : isTerminated l
        · have hnext : follow? ((top :: below).map Frame.bracket) l =
              some ((top :: below).map Frame.bracket) := by
            simp [follow?, hopens, hcloses, hterminated]
          rw [if_pos hterminated, reaches_cons_of_some hlt hnext]
          exact @ih { top with parts := .token l :: top.parts } below hbelow
        · rw [if_neg hterminated]
          refine iff_of_false (not_reaches_cons_of_none hlt ?_) (by simp)
          simp [follow?, hopens, hcloses, hterminated]
      · dsimp only
        by_cases hmatch : bracket = top.bracket
        · have hnext : follow? ((top :: below).map Frame.bracket) l =
              some (below.map Frame.bracket) := by
            simp [follow?, hopens, hcloses, hmatch]
          rw [if_pos hmatch, reaches_cons_of_some hlt hnext]
          cases below with
          -- The outermost block is closed, and what follows it is left to be read.
          | nil => simp
          | cons outside below =>
            simp only [List.length_cons] at hbelow
            exact @ih { outside with parts := _ :: outside.parts } below (by omega)
        · rw [if_neg hmatch]
          refine iff_of_false (not_reaches_cons_of_none hlt ?_) (by simp [unexpectedLexeme])
          simp [follow?, hopens, hcloses, Ne.symm hmatch]
    · have hnext : follow? ((top :: below).map Frame.bracket) l =
          some ((Frame.mk l bracket [] :: top :: below).map Frame.bracket) := by
        simp [follow?, hopens]
      dsimp only
      rw [reaches_cons_of_some hlt hnext]
      by_cases hfull : nestingLimit ≤ below.length + 1
      · rw [if_pos hfull]
        refine iff_of_true (reaches_of_length ?_) (.inl rfl)
        simp only [List.length_map, List.length_cons]
        omega
      · rw [if_neg hfull]
        exact ih (by simp only [List.length_cons]; omega)

/-- Brackets nest too deep for `forest` exactly if one bracket more than the limit is open at some
point. -/
theorem forest_eq_tooDeep_iff {input : List Lexeme} :
    forest input = .error .tooDeep ↔ Reaches (nestingLimit + 1) [] input := by
  have hmap {cs : Except ColorError (List Component)} {c : Component} :
      cs.map (c :: ·) = .error .tooDeep ↔ cs = .error .tooDeep := by
    cases cs <;> simp [Except.map]
  have hlt : ([] : List Bracket).length < nestingLimit + 1 := by decide
  have hblocks {l : Lexeme} {rest : List Lexeme} {bracket : Bracket}
      (hopens : l.token.opens? = some bracket) :
      Reaches (nestingLimit + 1) [] (l :: rest) ↔ readBlock l bracket rest = .error .tooDeep ∨
        ∃ c after, readBlock l bracket rest = .ok (c, after) ∧
          Reaches (nestingLimit + 1) [] after := by
    have hnext : follow? [] l = some [bracket] := by simp [follow?, hopens]
    rw [reaches_cons_of_some hlt hnext]
    exact @reaches_iff_closeBlock l ⟨l, bracket, []⟩ [] rest (by decide)
  fun_induction forest input with
  | case1 => exact iff_of_false (by simp) (by simp [reaches_nil_iff])
  | case2 l rest bracket hopens c after hblock ih =>
    refine hmap.trans (ih.trans ?_)
    rw [hblocks hopens, hblock]
    simp
  | case3 l rest bracket hopens e hblock =>
    rw [hblocks hopens, hblock]
    simp
  | case4 l rest bracket hopens hcloses =>
    refine iff_of_false (by simp [unexpectedLexeme]) (not_reaches_cons_of_none hlt ?_)
    simp [follow?, hopens, hcloses]
  | case5 l rest hcloses hopens hterminated ih =>
    refine hmap.trans (ih.trans (reaches_cons_of_some hlt ?_).symm)
    simp [follow?, hopens, hcloses, hterminated]
  | case6 l rest hcloses hopens hterminated =>
    refine iff_of_false (by simp) (not_reaches_cons_of_none hlt ?_)
    simp [follow?, hopens, hcloses, hterminated]

end Component

/-! ## Reading within the limit -/

namespace ColorGrammar

open NumberGrammar

variable {levels : Nat} {segment inside : Segment} {opener : Lexeme} {name : String}

/-- All components of the segment nest less than `levels` levels deep. -/
abbrev Within (levels : Nat) (segment : Segment) : Prop := segment.All fun c => c.depth < levels

/-- A number `Within` the levels is never too deep. -/
theorem malforms_number (h : Within levels segment) : Malforms (segment.number levels) :=
  malforms_operand fun c hc => (readComponent_spec (h c hc)).2

/-- A choice between readers fails as `Malforms` says if both of them do. -/
theorem malforms_ite {α : Type} {c : Prop} [Decidable c] {x y : Except ColorError α}
    (hx : Malforms x) (hy : Malforms y) : Malforms (if c then x else y) := by
  split
  · exact hx
  · exact hy

/-- A value that is no plain quantity is taken as it is. -/
theorem malforms_match_quantity {e : Expr Float}
    {f : Quantity Float → Except ColorError (Expr Float)} (hf : ∀ q, Malforms (f q)) :
    Malforms (match e with
      | .quantity q => f q
      | e => pure e) := by
  split
  · exact hf _
  · exact malforms_ok _

/-- A channel `Within` the levels is never too deep for `rgbChannel`. -/
theorem malforms_rgbChannel (h : Within levels segment) : Malforms (rgbChannel levels segment) := by
  refine (malforms_number h).bind fun _ _ => malforms_match_quantity fun _ => ?_
  exact malforms_ite (malforms_ok _) (malforms_ite (malforms_ok _) (malforms_malformed _ _))

/-- An opacity `Within` the levels is never too deep for `alphaValue`. -/
theorem malforms_alphaValue {alpha : Option Segment} (h : ∀ s ∈ alpha, Within levels s) :
    Malforms (alphaValue levels alpha) := by
  cases alpha with
  | none => exact malforms_ok _
  | some segment =>
    refine (malforms_number (h segment rfl)).bind fun _ _ => malforms_match_quantity fun _ => ?_
    exact malforms_ite (malforms_ok _) (malforms_ite (malforms_ok _) (malforms_malformed _ _))

/-- An angle `Within` the levels is never too deep for `hue`. -/
theorem malforms_hue (h : Within levels segment) : Malforms (hue levels segment) := by
  refine (malforms_number h).bind fun _ _ => malforms_match_quantity fun _ => ?_
  exact malforms_ite (malforms_ok _) (malforms_malformed _ _)

/-- A share `Within` the levels is never too deep for `percentage`. -/
theorem malforms_percentage (h : Within levels segment) : Malforms (percentage levels segment) := by
  refine (malforms_number h).bind fun _ _ => malforms_match_quantity fun _ => ?_
  exact malforms_ite (malforms_ok _) (malforms_ite (malforms_ok _) (malforms_malformed _ _))

/-- Splitting at blanks with `spacedChannels` does not look into blocks. -/
theorem malforms_spacedChannels (segment : Segment) : Malforms (spacedChannels segment) := by
  unfold spacedChannels
  split
  · split
    · exact malforms_ok _
    · exact malforms_malformed _ _
  · split
    · exact malforms_malformed _ _
    · exact malforms_ok _
  · exact malforms_ok _

/-- Splitting at commas with `commaChannels` does not look into blocks. -/
theorem malforms_commaChannels (args : List Segment) : Malforms (commaChannels args) := by
  unfold commaChannels
  split
  · exact malforms_malformed _ _
  · split
    · exact malforms_ok _
    · exact malforms_ok _

/-- Splitting into `arguments` does not look into blocks. -/
theorem malforms_arguments (inside : Segment) : Malforms inside.arguments :=
  fun _ he => Segment.isMalformed_of_arguments he

/-- Splitting a function into its `channels` does not look into blocks. -/
theorem malforms_channels (opener : Lexeme) (name : String) (inside : Segment) :
    Malforms (channels opener name inside) := by
  refine (malforms_arguments inside).bind fun args _ => ?_
  dsimp only
  split
  · refine (malforms_spacedChannels _).bind fun found _ => ?_
    split
    · exact malforms_ok _
    · exact malforms_malformed _ _
  · refine (malforms_commaChannels _).bind fun found _ => ?_
    split
    · exact malforms_ok _
    · exact malforms_malformed _ _

/-- A color `Within` the levels is never too deep for `rgb`. -/
theorem malforms_rgb (h : Within levels inside) : Malforms (rgb levels opener name inside) := by
  refine (malforms_channels opener name inside).bind ?_
  rintro ⟨⟨red, green, blue⟩, alpha⟩ hchannels
  obtain ⟨hred, hgreen, hblue, halpha⟩ := channels_all h hchannels
  refine (malforms_rgbChannel hred).bind fun _ _ => ?_
  refine (malforms_rgbChannel hgreen).bind fun _ _ => ?_
  refine (malforms_rgbChannel hblue).bind fun _ _ => ?_
  exact (malforms_alphaValue halpha).bind fun _ _ => malforms_ok _

/-- A color `Within` the levels is never too deep for `hsl`. -/
theorem malforms_hsl (h : Within levels inside) : Malforms (hsl levels opener name inside) := by
  refine (malforms_channels opener name inside).bind ?_
  rintro ⟨⟨first, second, third⟩, alpha⟩ hchannels
  obtain ⟨hfirst, hsecond, hthird, halpha⟩ := channels_all h hchannels
  refine (malforms_hue hfirst).bind fun _ _ => ?_
  refine (malforms_percentage hsecond).bind fun _ _ => ?_
  refine (malforms_percentage hthird).bind fun _ _ => ?_
  exact (malforms_alphaValue halpha).bind fun _ _ => malforms_ok _

/-- A `composite` is never too deep if the colors inside of it are not. -/
theorem malforms_composite {color : Segment → Except ColorError (Color Float)}
    (hcolor : ∀ s, Within levels s → Malforms (color s)) {function : Composite}
    (h : Within levels inside) :
    Malforms (composite color levels function opener name inside) := by
  refine (malforms_arguments inside).bind fun args hargs => ?_
  have hall := h.arguments hargs
  cases function with
  | mix =>
    dsimp only
    split
    · simp only [List.forall_mem_cons] at hall
      refine (hcolor _ hall.1).bind fun _ _ => (hcolor _ hall.2.1).bind fun _ _ => ?_
      exact (malforms_number hall.2.2.1).bind fun _ _ => malforms_ok _
    · exact malforms_malformed _ _
  | shade | alpha =>
    dsimp only
    split
    · simp only [List.forall_mem_cons] at hall
      refine (hcolor _ hall.1).bind fun _ _ => ?_
      exact (malforms_number hall.2.1).bind fun _ _ => malforms_ok _
    · exact malforms_malformed _ _
  | lighter | darker =>
    dsimp only
    split
    · exact (hcolor _ (hall _ List.mem_cons_self)).map _
    · exact malforms_malformed _ _

/-- A color of one `token` is never too deep. -/
theorem malforms_token (l : Lexeme) : Malforms (token l) := by
  unfold token
  split
  · split
    · exact malforms_ok _
    · exact malforms_malformed _ _
  · exact malforms_ok _
  · exact malforms_ok _
  · exact malforms_malformed _ _

theorem malforms_trailing (first : Component) (rest : List Component) :
    Malforms (.error (trailing first rest) : Except ColorError (Color Float)) := by
  unfold trailing
  dsimp only
  split
  · exact malforms_malformed _ _
  · exact malforms_malformed _ _

/-- The guards of `read` and of the number readers do not fire on components that nest less deep
than there are levels. -/
theorem malforms_read (h : Within levels segment) (hlevels : 0 < levels) :
    Malforms (read levels segment) := by
  induction levels generalizing segment with
  | zero => cases hlevels
  | succ levels ih =>
    have htrim := h.trim
    rw [read]
    dsimp only
    split
    · exact malforms_malformed _ _
    · exact malforms_token _
    · rename_i opener body closer heq
      have hblock : (Component.block opener body closer).depth < levels + 1 :=
        htrim _ (heq ▸ List.mem_singleton_self _)
      rw [depth, Nat.add_lt_add_iff_right] at hblock
      -- A block takes one level away from the components in it, and from the levels that are left.
      have hinside : Within levels ⟨body, closer.start⟩ := fun c hc =>
        Nat.lt_of_le_of_lt (depth_le_depthAll hc) hblock
      split
      · split
        · exact malforms_rgb hinside
        · exact malforms_rgb hinside
        · exact malforms_hsl hinside
        · exact malforms_hsl hinside
        · split
          · exact malforms_composite (fun s hs => ih hs (Nat.zero_lt_of_lt hblock)) hinside
          · exact malforms_malformed _ _
      · exact malforms_trailing _ _
    · exact malforms_trailing _ _

end ColorGrammar

/-- Brackets within the `nestingLimit` are read without reaching it. -/
theorem Segment.color_ne_tooDeep {segment : Segment} (h : depthAll segment.parts ≤ nestingLimit) :
    segment.color ≠ .error .tooDeep := by
  intro hdeep
  have hwithin : ColorGrammar.Within (nestingLimit + 1) segment := fun c hc =>
    Nat.lt_succ_of_le (Nat.le_trans (depth_le_depthAll hc) h)
  have hmalformed := ColorGrammar.malforms_read hwithin (Nat.succ_pos _) _ hdeep
  cases hmalformed

/-- A text is too deep for `Color.parse` exactly if its brackets are for `forest`. -/
theorem Color.parse_eq_tooDeep_iff_forest {text : String} :
    Color.parse text = .error .tooDeep ↔ forest (Color.solidLexemes text) = .error .tooDeep := by
  unfold Color.parse
  rw [← Color.solidLexemes]
  dsimp only
  split
  · rename_i hempty
    rw [List.isEmpty_iff] at hempty
    refine iff_of_false (fun h => by cases h) ?_
    rw [hempty, forest]
    simp
  · rcases hforest : forest (Color.solidLexemes text) with e | parts
    · constructor <;> intro h <;> cases h <;> rfl
    · refine iff_of_false (fun hdeep => ?_) (by simp)
      exact Segment.color_ne_tooDeep (depth_of_forest hforest) hdeep

/-! ## Resolving within the limit -/

/-- The number of composite functions around the innermost color. -/
def Color.height {α : Type} : Color α → Nat
  | .rgb _ | .hsl _ | .dynamic _ | .named _ | .defined _ => 0
  | .mix a b _ => max a.height b.height + 1
  | .shade color _ | .alpha color _ | .lighter color | .darker color => color.height + 1

/-- The computation never fails because of a limit on depth. -/
def NeverTooDeep {β : Type} (x : ResolveM β) : Prop :=
  ∀ before, (x.run.run before).1 ≠ .error .tooDeep

section Runs

variable {β γ : Type}

theorem neverTooDeep_pure (a : β) : NeverTooDeep (pure a) := by
  intro before h
  cases h

theorem neverTooDeep_throw {e : ColorError} (he : e ≠ .tooDeep) :
    NeverTooDeep (throw e : ResolveM β) := by
  intro before h
  cases h
  exact he rfl

/-- Steps in sequence are `NeverTooDeep` if each of them is. -/
theorem NeverTooDeep.bind {x : ResolveM β} {f : β → ResolveM γ} (hx : NeverTooDeep x)
    (hf : ∀ a, NeverTooDeep (f a)) : NeverTooDeep (x >>= f) := by
  intro before h
  have hbefore := hx before
  change (match x.run.run before with
    | (r, middle) => (ExceptT.bindCont f r : StateM _ _).run middle).1 = _ at h
  rcases hrun : x.run.run before with ⟨e | a, middle⟩
  · rw [hrun] at h hbefore
    cases h
    exact hbefore rfl
  · rw [hrun] at h
    exact hf a middle h

theorem NeverTooDeep.map {x : ResolveM β} (hx : NeverTooDeep x) (f : β → γ) :
    NeverTooDeep (f <$> x) := by
  rw [map_eq_pure_bind]
  exact hx.bind fun a => neverTooDeep_pure (f a)

end Runs

namespace Palette

variable {α : Type} [Scalar α] {p : Palette α}

omit [Scalar α] in
theorem neverTooDeep_warn (operator : Composite) (operand : Dynamic) :
    NeverTooDeep (warn operator operand) := by
  intro before h
  cases h

omit [Scalar α] in
/-- Taking an operand by red, green and blue is `NeverTooDeep`. -/
theorem neverTooDeep_rgbOperand (operator : Composite) (c : Canonical α) :
    NeverTooDeep (p.rgbOperand operator c) := by
  cases c with
  | rgb color => exact neverTooDeep_pure color
  | hsl color => exact neverTooDeep_throw (by simp)
  | dynamic keyword => exact (neverTooDeep_warn operator keyword).bind fun _ => neverTooDeep_pure _

/-- Taking an operand by hue, saturation and lightness is `NeverTooDeep`. -/
theorem neverTooDeep_hslOperand (operator : Composite) (c : Canonical α) :
    NeverTooDeep (p.hslOperand operator c) := by
  cases c with
  | rgb color => exact neverTooDeep_pure _
  | hsl color => exact neverTooDeep_pure color
  | dynamic keyword => exact (neverTooDeep_warn operator keyword).bind fun _ => neverTooDeep_pure _

/-- Fading an operand is `NeverTooDeep`. -/
theorem neverTooDeep_fadeOperand (factor : Expr α) (c : Canonical α) :
    NeverTooDeep (p.fadeOperand factor c) := by
  cases c with
  | rgb color => exact neverTooDeep_pure _
  | hsl color => exact neverTooDeep_pure _
  | dynamic keyword => exact (neverTooDeep_warn .alpha keyword).bind fun _ => neverTooDeep_pure _

/-- Looking up a name with `lookUp` may fail, but is `NeverTooDeep`. -/
theorem neverTooDeep_lookUp (name : String) : NeverTooDeep (p.lookUp name) := by
  unfold lookUp
  split
  · exact neverTooDeep_pure _
  · exact neverTooDeep_throw (by simp)

omit [Scalar α] in
/-- Referring to a defined color with `refer` may fail, but is `NeverTooDeep`. -/
theorem neverTooDeep_refer (name : String) : NeverTooDeep (refer name : ResolveM (Rgb α)) := by
  unfold refer
  split
  · exact neverTooDeep_pure _
  · rename_i e he
    refine neverTooDeep_throw ?_
    rintro rfl
    unfold ChannelNames.ofIdentifier at he
    dsimp only at he
    split at he <;> cases he

omit [Scalar α] in
/-- What is `guarded` passes if it does not stand too deep. -/
theorem neverTooDeep_guarded {depth : Nat} {step : ResolveM (Canonical α)}
    (hdepth : depth ≤ nestingLimit) (h : NeverTooDeep step) :
    NeverTooDeep (guarded depth step) := by
  unfold guarded
  rw [if_neg (Nat.not_lt.mpr hdepth)]
  refine h.bind fun color => ?_
  dsimp only
  split
  · exact (neverTooDeep_throw (by simp)).bind fun _ => neverTooDeep_pure _
  · exact neverTooDeep_pure _

/-- A color that reaches no deeper than the `nestingLimit` resolves without reaching it. -/
theorem neverTooDeep_resolveAt {c : Color α} {depth : Nat}
    (h : depth + c.height ≤ nestingLimit) : NeverTooDeep (p.resolveAt c depth) := by
  have hdepth : depth ≤ nestingLimit := Nat.le_trans (Nat.le_add_right _ _) h
  induction c generalizing depth with
  | rgb color => exact neverTooDeep_guarded hdepth (neverTooDeep_pure _)
  | hsl color => exact neverTooDeep_guarded hdepth (neverTooDeep_pure _)
  | dynamic keyword => exact neverTooDeep_guarded hdepth (neverTooDeep_pure _)
  | named name => exact neverTooDeep_guarded hdepth ((neverTooDeep_lookUp name).map _)
  | defined name => exact neverTooDeep_guarded hdepth ((neverTooDeep_refer name).map _)
  | mix a b factor iha ihb =>
    rw [Color.height] at h
    refine neverTooDeep_guarded hdepth ((iha (by omega) (by omega)).bind fun a' => ?_)
    refine (neverTooDeep_rgbOperand .mix a').bind fun _ => ?_
    refine (ihb (by omega) (by omega)).bind fun b' => ?_
    exact (neverTooDeep_rgbOperand .mix b').bind fun _ => neverTooDeep_pure _
  | shade color factor ih =>
    rw [Color.height] at h
    refine neverTooDeep_guarded hdepth ((ih (by omega) (by omega)).bind fun c => ?_)
    exact (neverTooDeep_hslOperand .shade c).bind fun _ => neverTooDeep_pure _
  | lighter color ih =>
    rw [Color.height] at h
    refine neverTooDeep_guarded hdepth ((ih (by omega) (by omega)).bind fun c => ?_)
    exact (neverTooDeep_hslOperand .lighter c).bind fun _ => neverTooDeep_pure _
  | darker color ih =>
    rw [Color.height] at h
    refine neverTooDeep_guarded hdepth ((ih (by omega) (by omega)).bind fun c => ?_)
    exact (neverTooDeep_hslOperand .darker c).bind fun _ => neverTooDeep_pure _
  | alpha color factor ih =>
    rw [Color.height] at h
    refine neverTooDeep_guarded hdepth ((ih (by omega) (by omega)).bind fun c => ?_)
    exact neverTooDeep_fadeOperand _ c

end Palette

/-! ## Colors that were read -/

namespace Grammar

mutual

/-- A color is no higher than the components that `Writes` relates it to are deep. -/
theorem Writes.height_le {cs : List Component} {c : Color Float} :
    Writes cs c → c.height ≤ depthAll cs
  | .padded _ hcolor _ =>
    Nat.le_trans hcolor.height_le (depth_le_depthAll (by simp))

/-- A color of a `Single` component is no higher than the component is deep. -/
theorem Single.height_le {component : Component} {c : Color Float} :
    Single component c → c.height ≤ component.depth
  | .hash _ _ => Nat.zero_le _
  | .defined _ => Nat.zero_le _
  | .name _ hcolor => by cases hcolor <;> exact Nat.zero_le _
  | .call _ hcolor => by
    rw [depth]
    exact hcolor.height_le

/-- A color of a `Call` is at most one level higher than what stands inside. -/
theorem Call.height_le {name : String} {body : List Component} {c : Color Float} :
    Call name body c → c.height ≤ depthAll body + 1
  | .rgb .. => Nat.zero_le _
  | .hsl .. => Nat.zero_le _
  | .mix _ hx _ hy _ _ => by
    have hx := hx.height_le
    have hy := hy.height_le
    rw [Color.height, Nat.add_le_add_iff_right]
    refine Nat.max_le.mpr ⟨Nat.le_trans hx (depthAll_mono ?_), Nat.le_trans hy (depthAll_mono ?_)⟩
    · exact List.subset_append_left _ _
    · intro c hc
      simp [hc]
  | .shade _ hx _ _ | .alpha _ hx _ _ =>
    Nat.succ_le_succ (Nat.le_trans hx.height_le (depthAll_mono (List.subset_append_left _ _)))
  | .lighter _ hx | .darker _ hx => Nat.succ_le_succ hx.height_le

end

end Grammar

/-- A color that `Color.parse` has read is no higher than the `nestingLimit`. -/
theorem Color.height_of_parse {text : String} {c : Color Float} (h : Color.parse text = .ok c) :
    c.height ≤ nestingLimit := by
  obtain ⟨-, parts, hforest, hcolor⟩ := Color.parse_eq_ok_iff_forest.mp h
  have hdepth := depth_of_forest hforest
  exact Nat.le_trans ((Segment.color_eq_ok_iff hdepth).mp hcolor).height_le hdepth

/-- A color that was read resolves without reaching the `nestingLimit`. -/
theorem Palette.neverTooDeep_resolve (p : Palette Float) {text : String} {c : Color Float}
    (h : Color.parse text = .ok c) : NeverTooDeep (p.resolve c) :=
  neverTooDeep_resolveAt (by simpa using Color.height_of_parse h)

/-- The texts in a `Document` are read as the colors that stand beside them. -/
theorem Document.parse_of_mem_found {text : List Char} {d : Document}
    (h : Document.parse text = .ok d) {key : String} {c : Color Float}
    (hmem : (key, c) ∈ d.found) : Color.parse key = .ok c := by
  obtain ⟨os, hos, rfl⟩ := exists_of_map_eq_ok h
  rcases exists_of_mem_foldl hmem with hnil | ⟨o, ho, heq⟩
  · cases hnil
  · obtain ⟨rfl, rfl⟩ := Prod.mk.inj heq
    exact (finds_of_occurrences hos).parse_key o ho

/-- **Reading and resolving share one nesting limit.** A text is refused as too deep exactly if,
from left to right, 65 brackets are open at some point of it, with every closing bracket and every
quoted text in order up to there. Once the brackets are matched, the limits of the readers are not
reached any more. A color that was read, from a text of its own or as part of a document, is never
too deep to be resolved, whatever names and keywords stand for. -/
theorem Color.nesting_limit_shared :
    (∀ text, Color.parse text = .error .tooDeep ↔
      Bracket.Reaches 65 [] (Color.solidLexemes text)) ∧
    (∀ text parts stop, forest (Color.solidLexemes text) = .ok parts →
      Segment.color ⟨parts, stop⟩ ≠ .error .tooDeep) ∧
    (∀ text c, Color.parse text = .ok c → ∀ p : Palette Float, NeverTooDeep (p.resolve c)) ∧
    ∀ text d, Document.parse text = .ok d → ∀ key c, (key, c) ∈ d.found →
      ∀ p : Palette Float, NeverTooDeep (p.resolve c) := by
  refine ⟨fun text => ?_, fun text parts stop h => ?_, fun text c h p => ?_, ?_⟩
  · exact Color.parse_eq_tooDeep_iff_forest.trans forest_eq_tooDeep_iff
  · exact Segment.color_ne_tooDeep (depth_of_forest h)
  · exact p.neverTooDeep_resolve h
  · intro text d h key c hmem p
    exact p.neverTooDeep_resolve (Document.parse_of_mem_found h hmem)

/-- One parenthesis too many, and composite functions in a text and in a document. -/
theorem Color.nesting_limit_shared_parentheses :
    (Bracket.Reaches 65 [] (Color.solidLexemes (String.ofList (List.replicate 65 '('))) ∧
      Color.parse (String.ofList (List.replicate 65 '(')) = .error .tooDeep) ∧
    (∃ parts, forest (Color.solidLexemes "shade([],2)") = .ok parts ∧
      Segment.color ⟨parts, 11⟩ ≠ .error .tooDeep) ∧
    (∃ c, Color.parse "lighter(darker(@a))" = .ok c ∧
      NeverTooDeep ((Palette.default : Palette Float).resolve c)) ∧
    ∃ d key c, Document.parse "1px @a".toList = .ok d ∧ (key, c) ∈ d.found ∧
      NeverTooDeep ((Palette.default : Palette Float).resolve c) := by
  obtain ⟨hparse, hread, hresolve, hdocument⟩ := Color.nesting_limit_shared
  have hreaches : Bracket.Reaches 65 []
      (Color.solidLexemes (String.ofList (List.replicate 65 '('))) :=
    ⟨_, List.replicate 65 .paren, List.prefix_refl _, by decide +kernel, List.length_replicate⟩
  obtain ⟨parts, hparts, -⟩ : ∃ parts, forest (Color.solidLexemes "shade([],2)") = .ok parts ∧
      true := exists_of_toOption_any (by decide +kernel)
  obtain ⟨c, hc, -⟩ : ∃ c, Color.parse "lighter(darker(@a))" = .ok c ∧ true :=
    exists_of_toOption_any (by decide +kernel)
  have hfound : (Document.parse "1px @a".toList).toOption.any (·.found.keys = ["@a"]) := by
    decide +kernel
  obtain ⟨d, hd, hkeys⟩ := exists_of_toOption_any hfound
  refine ⟨⟨hreaches, (hparse _).mpr hreaches⟩, ⟨parts, hparts, hread _ parts 11 hparts⟩,
    ⟨c, hc, hresolve _ c hc _⟩, ?_⟩
  have hkey : "@a" ∈ d.found.keys := by
    rw [of_decide_eq_true hkeys]
    exact List.mem_singleton_self _
  obtain ⟨⟨key, c⟩, hmem, -⟩ := List.mem_map.mp hkey
  exact ⟨d, key, c, hd, hmem, hdocument _ d hd key c hmem _⟩

end ThemeColor
