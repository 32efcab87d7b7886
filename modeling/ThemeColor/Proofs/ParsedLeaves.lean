import ThemeColor.Color.Grammar
import ThemeColor.Proofs.BlockText
import ThemeColor.Proofs.Leaves

/-!
# Leaves of a color that is read

The verbatim texts of a color that was read from a text are texts of blocks in parentheses, so they
are neutral in a written color (`Color.leaves_of_parse`). What is read on the way is followed from
the components of the text to the segments between them, the numbers and the colors.
-/

namespace ThemeColor

open Component Text

/-- The results of a list of steps come from the elements of the list. -/
theorem exists_of_mem_mapM {ε α β : Type} {f : α → Except ε β} {xs : List α} {ys : List β}
    (h : xs.mapM f = .ok ys) : ∀ y ∈ ys, ∃ x ∈ xs, f x = .ok y := by
  induction xs generalizing ys with
  | nil =>
    cases h
    simp
  | cons x xs ih =>
    rw [List.mapM_cons] at h
    obtain ⟨y, hy, h⟩ := exists_of_bind_eq_ok h
    obtain ⟨more, hmore, h⟩ := exists_of_bind_eq_ok h
    cases h
    refine List.forall_mem_cons.mpr ⟨⟨x, List.mem_cons_self, hy⟩, fun z hz => ?_⟩
    obtain ⟨x', hx', hz⟩ := ih hmore z hz
    exact ⟨x', List.mem_cons_of_mem x hx', hz⟩

/-! ## Segments -/

theorem dropEndWhile_isPrefix {α : Type} (p : α → Bool) (l : List α) : dropEndWhile p l <+: l := by
  rw [dropEndWhile, ← List.reverse_suffix, List.reverse_reverse]
  exact List.dropWhile_suffix p

theorem trimWhile_isInfix {α : Type} (p : α → Bool) (l : List α) : trimWhile p l <:+: l :=
  (dropEndWhile_isPrefix p _).isInfix.trans (List.dropWhile_suffix p).isInfix

namespace Segment

/-- Every component of the segment satisfies `P`. -/
def All (P : Component → Prop) (s : Segment) : Prop := ∀ c ∈ s.parts, P c

variable {P : Component → Prop} {s : Segment}

/-- What holds of `All` components holds when blanks are cut off. -/
theorem All.trim (h : s.All P) : s.trim.All P := by
  intro c hc
  have hparts := (dropEndWhile_isPrefix isWhitespace _).subset hc
  exact h c ((List.dropWhile_suffix isWhitespace).subset hparts)

/-- What holds of `All` components holds in every piece of `splitOn`. -/
theorem All.splitOn (p : Component → Bool) (stop : Nat) {cs : List Component}
    (h : ∀ c ∈ cs, P c) : ∀ piece ∈ splitOn p stop cs, piece.All P := by
  induction cs with
  | nil => simp [Segment.splitOn, All]
  | cons c cs ih =>
    obtain ⟨hc, hcs⟩ := List.forall_mem_cons.mp h
    have hmore := ih hcs
    unfold Segment.splitOn
    split
    · exact List.forall_mem_cons.mpr ⟨by simp [All], hmore⟩
    · split
      · simpa [All] using hc
      · rename_i piece more heq
        rw [heq] at hmore
        obtain ⟨hpiece, hmore⟩ := List.forall_mem_cons.mp hmore
        exact List.forall_mem_cons.mpr ⟨List.forall_mem_cons.mpr ⟨hc, hpiece⟩, hmore⟩

/-- What holds of `All` components holds in every one of the `words`. -/
theorem All.words (h : s.All P) : ∀ piece ∈ s.words, piece.All P := fun piece hpiece =>
  All.splitOn isWhitespace s.stop h piece (List.mem_filter.mp hpiece).1

/-- What holds of `All` components holds in every one of the `arguments`. -/
theorem All.arguments (h : s.All P) {args : List Segment} (hargs : s.arguments = .ok args) :
    ∀ arg ∈ args, arg.All P := by
  unfold Segment.arguments at hargs
  dsimp only at hargs
  split at hargs
  · cases hargs
    simp
  · intro arg harg
    obtain ⟨piece, hpiece, heq⟩ := exists_of_mem_mapM hargs arg harg
    split at heq
    · cases heq
    · cases heq
      exact (All.splitOn (isToken .comma) _ h.trim piece hpiece).trim

end Segment

/-! ## Numbers -/

/-- Verbatim texts are neutral in a written color; any unit is allowed. -/
def LeafRule.neutralTexts : LeafRule where
  text text := Bracket.Neutral text.toList
  unit _ := True
  unitless := trivial
  percent := trivial

open LeafRule

namespace NumberGrammar

open ThemeColor.Expr

/-- All values of the chain obey the rule. -/
structure Chain.Obeys (rule : LeafRule) (chain : Chain) : Prop where
  /-- The first value. -/
  first : chain.first.Obeys rule
  /-- The right operands. -/
  rest : ∀ step ∈ chain.rest, step.2.Obeys rule

section

variable {rule : LeafRule} {P : Component → Prop}
  {value : Component → Except ColorError (Expr Float)}
  (hvalue : ∀ c e, P c → value c = .ok e → e.Obeys rule) {stop : Nat}

include hvalue

/-- The values of a chain that `readValue` reads are values of its components. -/
theorem readValue_obeys {cs : List Component} (hcs : ∀ c ∈ cs, P c) :
    (∀ {chain}, readValue value stop cs = .ok chain → chain.Obeys rule) ∧
      ∀ {steps}, readOperator value stop cs = .ok steps → ∀ step ∈ steps, step.2.Obeys rule := by
  induction cs with
  | nil =>
    refine ⟨fun h => ?_, fun h => ?_⟩
    · rw [readValue] at h
      cases h
    · rw [readOperator] at h
      cases h
      simp
  | cons c cs ih =>
    obtain ⟨hc, hcs⟩ := List.forall_mem_cons.mp hcs
    -- The two readers take turns, so the two facts are proved together.
    obtain ⟨ihValue, ihOperator⟩ := ih hcs
    refine ⟨fun h => ?_, fun h => ?_⟩
    · rw [readValue] at h
      split at h
      · exact ihValue h
      · obtain ⟨first, hfirst, h⟩ := exists_of_bind_eq_ok h
        obtain ⟨rest, hrest, h⟩ := exists_of_bind_eq_ok h
        cases h
        exact ⟨hvalue c first hc hfirst, ihOperator hrest⟩
    · rw [readOperator] at h
      split at h
      · exact ihOperator h
      · split at h
        · obtain ⟨chain, hchain, h⟩ := exists_of_bind_eq_ok h
          cases h
          exact List.forall_mem_cons.mpr ⟨(ihValue hchain).first, (ihValue hchain).rest⟩
        · split at h
          · obtain ⟨operand, hoperand, h⟩ := exists_of_bind_eq_ok h
            obtain ⟨rest, hrest, h⟩ := exists_of_bind_eq_ok h
            cases h
            exact List.forall_mem_cons.mpr ⟨hvalue c operand hc hoperand, ihOperator hrest⟩
          · cases h

omit hvalue in
/-- Joining steps with `products` keeps to the rule of their values. -/
theorem products_obeys {first : Expr Float} {steps : List (Operator × Expr Float)}
    (hfirst : first.Obeys rule) (hsteps : ∀ step ∈ steps, step.2.Obeys rule) :
    (products first steps).1.Obeys rule ∧
      ∀ step ∈ (products first steps).2, step.2.Obeys rule := by
  fun_induction products first steps with
  | case1 => exact ⟨hfirst, by simp⟩
  | case2 first e rest ih =>
    obtain ⟨he, hrest⟩ := List.forall_mem_cons.mp hsteps
    exact ih (hfirst.mul he) hrest
  | case3 first e rest ih =>
    obtain ⟨he, hrest⟩ := List.forall_mem_cons.mp hsteps
    exact ih (hfirst.div he) hrest
  | case4 first op e rest _ _ product more hproducts ih =>
    obtain ⟨he, hrest⟩ := List.forall_mem_cons.mp hsteps
    have hproduct := ih he hrest
    rw [hproducts] at hproduct
    exact ⟨hfirst, List.forall_mem_cons.mpr hproduct⟩

omit hvalue in
/-- The value of a `Chain` obeys the rule of its steps. -/
theorem Chain.Obeys.eval {chain : Chain} (h : chain.Obeys rule) : chain.eval.Obeys rule := by
  obtain ⟨hfirst, hsteps⟩ := products_obeys h.first h.rest
  unfold Chain.eval
  generalize products chain.first chain.rest = result at hfirst hsteps
  obtain ⟨sum, steps⟩ := result
  dsimp only at hfirst hsteps ⊢
  induction steps generalizing sum with
  | nil => exact hfirst
  | cons step steps ih =>
    obtain ⟨hstep, hsteps⟩ := List.forall_mem_cons.mp hsteps
    exact ih _ (hfirst.combine step.1 hstep) hsteps

/-- What `operand` reads obeys the rule of the values of its components. -/
theorem operand_obeys {segment : Segment} (hsegment : segment.All P) {e : Expr Float}
    (h : operand value segment = .ok e) : e.Obeys rule := by
  unfold operand at h
  dsimp only at h
  split at h
  · cases h
  · obtain ⟨chain, hchain, rfl⟩ := exists_of_map_eq_ok h
    exact ((readValue_obeys hvalue hsegment.trim).1 hchain).eval

/-- What `mathFunction` reads obeys the rule of the values inside. -/
theorem mathFunction_obeys {opener : Lexeme} {name : String} {function : MathFunction}
    {inside : Segment} (hinside : inside.All P) {e : Expr Float}
    (h : mathFunction value opener name function inside = .ok e) : e.Obeys rule := by
  obtain ⟨args, hargs, h⟩ := exists_of_bind_eq_ok h
  have hall := hinside.arguments hargs
  have hoperands {function : MathFunction} {operands : List (Expr Float)}
      (h : args.mapM (operand value) = .ok operands) :
      (Expr.apply function operands).Obeys rule := by
    refine Obeys.apply function (leavesAll_iff.mpr fun e he => ?_)
    obtain ⟨arg, harg, heq⟩ := exists_of_mem_mapM h e he
    exact operand_obeys hvalue (hall arg harg) heq
  cases function with
  | clamp =>
    dsimp only at h
    split at h
    · rename_i low middle high
      obtain ⟨hlow, hmiddle, hhigh⟩ : low.All P ∧ middle.All P ∧ high.All P := by
        simpa [List.forall_mem_cons] using hall
      obtain ⟨low', hlow', h⟩ := exists_of_bind_eq_ok h
      obtain ⟨middle', hmiddle', h⟩ := exists_of_bind_eq_ok h
      obtain ⟨high', hhigh', h⟩ := exists_of_bind_eq_ok h
      cases h
      exact Obeys.clamp (operand_obeys hvalue hlow hlow') (operand_obeys hvalue hmiddle hmiddle')
        (operand_obeys hvalue hhigh hhigh')
    · cases h
  | min | max =>
    dsimp only at h
    split at h
    · cases h
    · obtain ⟨operands, hmap, h⟩ := exists_of_bind_eq_ok h
      cases h
      exact hoperands hmap

end

/-- A number that `readComponent` reads from components of a text has `neutralTexts`. -/
theorem readComponent_obeys {source : List Char} {levels : Nat} {c : Component} {e : Expr Float}
    (hc : From source c) (h : readComponent levels c = .ok e) : e.Obeys neutralTexts := by
  induction levels generalizing c e with
  | zero => cases h
  | succ levels ih =>
    have hvalue : ∀ c e, From source c → readComponent levels c = .ok e → e.Obeys neutralTexts :=
      fun c e hc h => ih hc h
    cases c with
    | token lexeme =>
      rw [readComponent] at h
      split at h
      · rename_i value heq
        cases h
        unfold tokenValue? at heq
        split at heq <;> cases heq <;> trivial
      · cases h
    | block opener body closer =>
      have hinside : Segment.All (From source) ⟨body, closer.start⟩ := hc.body
      rw [readComponent] at h
      split at h
      · rename_i hopener
        split at h
        · rename_i value heq
          cases h
          exact operand_obeys hvalue hinside heq
        · cases h
          -- A block that is no calculation is kept as it is written.
          exact hc.neutral (by rw [hopener]; rfl)
        · cases h
      · rename_i name hopener
        split at h
        · exact operand_obeys hvalue hinside h
        · split at h
          · exact mathFunction_obeys hvalue hinside h
          · cases h
            -- So is a function that is not known.
            exact hc.neutral (by rw [hopener]; rfl)
      · cases h

end NumberGrammar

/-- A number that `Segment.number` reads from components of a text has `neutralTexts`. -/
theorem Segment.All.number {source : List Char} {levels : Nat} {segment : Segment}
    {e : Expr Float} (hsegment : segment.All (From source)) (h : segment.number levels = .ok e) :
    e.Obeys neutralTexts :=
  NumberGrammar.operand_obeys (fun _ _ => NumberGrammar.readComponent_obeys) hsegment h

/-! ## Colors -/

namespace ColorGrammar

variable {source : List Char} {levels : Nat}

/-- The verbatim texts of the color are neutral. -/
abbrev NeutralTexts (c : Color Float) : Prop :=
  c.Leaves neutralTexts.text neutralTexts.unit fun _ => True

/-- A field is the number that is read, or a quantity in its place. -/
theorem obeys_of_adjusted {segment : Segment} {adjust : Expr Float → Except ColorError (Expr Float)}
    {e : Expr Float} (hs : segment.All (From source))
    (hadjust : ∀ value, adjust value = .ok e → e = value ∨ ∃ q, e = .quantity q)
    (h : segment.number levels >>= adjust = .ok e) : e.Obeys neutralTexts := by
  obtain ⟨value, hvalue, h⟩ := exists_of_bind_eq_ok h
  rcases hadjust value h with rfl | ⟨q, rfl⟩
  · exact hs.number hvalue
  · trivial

/-- A channel that `rgbChannel` reads from components of a text has `neutralTexts`. -/
theorem rgbChannel_obeys {segment : Segment} {e : Expr Float} (hs : segment.All (From source))
    (h : rgbChannel levels segment = .ok e) : e.Obeys neutralTexts := by
  refine obeys_of_adjusted hs (fun value h => ?_) h
  repeat' split at h
  all_goals cases h
  all_goals simp [Expr.number]

/-- An opacity that `alphaValue` reads from components of a text has `neutralTexts`. -/
theorem alphaValue_obeys {segment : Option Segment} {e : Expr Float}
    (hs : ∀ s ∈ segment, s.All (From source)) (h : alphaValue levels segment = .ok e) :
    e.Obeys neutralTexts := by
  cases segment with
  | none =>
    cases h
    trivial
  | some segment =>
    refine obeys_of_adjusted (hs segment rfl) (fun value h => ?_) h
    repeat' split at h
    all_goals cases h
    all_goals simp [Expr.number]

/-- An angle that `hue` reads from components of a text has `neutralTexts`. -/
theorem hue_obeys {segment : Segment} {e : Expr Float} (hs : segment.All (From source))
    (h : hue levels segment = .ok e) : e.Obeys neutralTexts := by
  refine obeys_of_adjusted hs (fun value h => ?_) h
  repeat' split at h
  all_goals cases h
  all_goals simp

/-- A share that `percentage` reads from components of a text has `neutralTexts`. -/
theorem percentage_obeys {segment : Segment} {e : Expr Float} (hs : segment.All (From source))
    (h : percentage levels segment = .ok e) : e.Obeys neutralTexts := by
  refine obeys_of_adjusted hs (fun value h => ?_) h
  repeat' split at h
  all_goals cases h
  all_goals simp [Expr.percent]

section

variable {P : Component → Prop}

/-- All channels and the opacity consist of components that satisfy `P`. -/
def ChannelsAll (P : Component → Prop) (found : List Segment × Option Segment) : Prop :=
  (∀ s ∈ found.1, s.All P) ∧ ∀ s ∈ found.2, s.All P

/-- The channels that `spacedChannels` finds consist of components of the segment. -/
theorem spacedChannels_all {segment : Segment} {found : List Segment × Option Segment}
    (hs : segment.All P) (h : spacedChannels segment = .ok found) : ChannelsAll P found := by
  have hpieces := Segment.All.splitOn isSlash segment.stop hs
  have hnone : ChannelsAll P (segment.words, none) := ⟨hs.words, by simp⟩
  unfold spacedChannels at h
  split at h
  · rename_i channels alpha heq
    rw [heq] at hpieces
    obtain ⟨hchannels, halpha, -⟩ : channels.All P ∧ alpha.All P ∧ True := by
      simpa [List.forall_mem_cons] using hpieces
    split at h
    · rename_i word hword
      cases h
      refine ⟨hchannels.words, fun s hmem => ?_⟩
      cases hmem
      exact halpha.words word (by simp [hword])
    · cases h
  · split at h
    · cases h
    · cases h
      exact hnone
  · cases h
    exact hnone

/-- The channels that `commaChannels` finds consist of components of the arguments. -/
theorem commaChannels_all {args : List Segment} {found : List Segment × Option Segment}
    (hargs : ∀ s ∈ args, s.All P) (h : commaChannels args = .ok found) : ChannelsAll P found := by
  unfold commaChannels at h
  split at h
  · cases h
  · split at h
    · rename_i first second third alpha
      cases h
      simp only [List.forall_mem_cons] at hargs
      refine ⟨?_, fun s hmem => ?_⟩
      · simpa [List.forall_mem_cons] using ⟨hargs.1, hargs.2.1, hargs.2.2.1⟩
      · cases hmem
        exact hargs.2.2.2.1
    · cases h
      exact ⟨hargs, by simp⟩

/-- Whichever way the channels are separated, there are three of them. -/
theorem threeChannels_eq_ok_iff {found : Except ColorError (List Segment × Option Segment)}
    {opener : Lexeme} {name : String} {first second third : Segment} {alpha : Option Segment} :
    (do
      let x ← found
      match x.1 with
      | [first, second, third] => pure ((first, second, third), x.2)
      | _ => throw (ColorError.malformed opener.start (.channelCount name x.1.length))) =
        .ok ((first, second, third), alpha) ↔
      found = .ok ([first, second, third], alpha) := by
  constructor
  · intro h
    obtain ⟨⟨channels, alpha'⟩, hfound, h⟩ := exists_of_bind_eq_ok h
    dsimp only at h
    split at h <;> cases h
    exact hfound
  · rintro rfl
    rfl

/-- The `channels` and the opacity of a function consist of components inside it. -/
theorem channels_all {opener : Lexeme} {name : String} {inside first second third : Segment}
    {alpha : Option Segment} (hinside : inside.All P)
    (h : channels opener name inside = .ok ((first, second, third), alpha)) :
    first.All P ∧ second.All P ∧ third.All P ∧ ∀ s ∈ alpha, s.All P := by
  obtain ⟨args, hargs, h⟩ := exists_of_bind_eq_ok h
  have hall := hinside.arguments hargs
  suffices hchannels : ChannelsAll P ([first, second, third], alpha) by
    simpa [ChannelsAll, List.forall_mem_cons, and_assoc] using hchannels
  dsimp only at h
  split at h
  · exact spacedChannels_all (hall _ List.mem_cons_self) (threeChannels_eq_ok_iff.mp h)
  · exact commaChannels_all hall (threeChannels_eq_ok_iff.mp h)

end

/-- A color that `rgb` reads from components of a text has `NeutralTexts`. -/
theorem rgb_leaves {opener : Lexeme} {name : String} {inside : Segment} {c : Color Float}
    (hinside : inside.All (From source)) (h : rgb levels opener name inside = .ok c) :
    NeutralTexts c := by
  obtain ⟨⟨⟨red, green, blue⟩, alpha⟩, hchannels, h⟩ := exists_of_bind_eq_ok h
  obtain ⟨hred, hgreen, hblue, halpha⟩ := channels_all hinside hchannels
  obtain ⟨red', hred', h⟩ := exists_of_bind_eq_ok h
  obtain ⟨green', hgreen', h⟩ := exists_of_bind_eq_ok h
  obtain ⟨blue', hblue', h⟩ := exists_of_bind_eq_ok h
  obtain ⟨alpha', halpha', h⟩ := exists_of_bind_eq_ok h
  cases h
  exact ⟨rgbChannel_obeys hred hred', rgbChannel_obeys hgreen hgreen',
    rgbChannel_obeys hblue hblue', alphaValue_obeys halpha halpha'⟩

/-- A color that `hsl` reads from components of a text has `NeutralTexts`. -/
theorem hsl_leaves {opener : Lexeme} {name : String} {inside : Segment} {c : Color Float}
    (hinside : inside.All (From source)) (h : hsl levels opener name inside = .ok c) :
    NeutralTexts c := by
  obtain ⟨⟨⟨first, second, third⟩, alpha⟩, hchannels, h⟩ := exists_of_bind_eq_ok h
  obtain ⟨hfirst, hsecond, hthird, halpha⟩ := channels_all hinside hchannels
  obtain ⟨hue', hhue', h⟩ := exists_of_bind_eq_ok h
  obtain ⟨saturation', hsaturation', h⟩ := exists_of_bind_eq_ok h
  obtain ⟨lightness', hlightness', h⟩ := exists_of_bind_eq_ok h
  obtain ⟨alpha', halpha', h⟩ := exists_of_bind_eq_ok h
  cases h
  exact ⟨hue_obeys hfirst hhue', percentage_obeys hsecond hsaturation',
    percentage_obeys hthird hlightness', alphaValue_obeys halpha halpha'⟩

/-- A `composite` of colors with `NeutralTexts` has neutral texts. -/
theorem composite_leaves {color : Segment → Except ColorError (Color Float)}
    (hcolor : ∀ s c, Segment.All (From source) s → color s = .ok c → NeutralTexts c)
    {function : Composite} {opener : Lexeme} {name : String} {inside : Segment} {c : Color Float}
    (hinside : inside.All (From source))
    (h : composite color levels function opener name inside = .ok c) : NeutralTexts c := by
  obtain ⟨args, hargs, h⟩ := exists_of_bind_eq_ok h
  have hall := hinside.arguments hargs
  cases function with
  | mix =>
    dsimp only at h
    split at h
    · rename_i a b factor
      simp only [List.forall_mem_cons] at hall
      obtain ⟨a', ha', h⟩ := exists_of_bind_eq_ok h
      obtain ⟨b', hb', h⟩ := exists_of_bind_eq_ok h
      obtain ⟨factor', hfactor', h⟩ := exists_of_bind_eq_ok h
      cases h
      exact ⟨hcolor a a' hall.1 ha', hcolor b b' hall.2.1 hb', hall.2.2.1.number hfactor'⟩
    · cases h
  | shade | alpha =>
    dsimp only at h
    split at h
    · rename_i operand factor
      simp only [List.forall_mem_cons] at hall
      obtain ⟨operand', hoperand', h⟩ := exists_of_bind_eq_ok h
      obtain ⟨factor', hfactor', h⟩ := exists_of_bind_eq_ok h
      cases h
      exact ⟨hcolor operand operand' hall.1 hoperand', hall.2.1.number hfactor'⟩
    · cases h
  | lighter | darker =>
    dsimp only at h
    split at h
    · rename_i operand
      obtain ⟨operand', hoperand', rfl⟩ := exists_of_map_eq_ok h
      exact hcolor operand operand' (hall operand List.mem_cons_self) hoperand'
    · cases h

/-- A color of one `token` has no verbatim texts at all. -/
theorem token_leaves {lexeme : Lexeme} {c : Color Float} (h : token lexeme = .ok c) :
    NeutralTexts c := by
  unfold token at h
  split at h
  · split at h
    · rename_i value _ color heq
      cases h
      unfold Hex.read? at heq
      split at heq
      · obtain ⟨bytes, -, hbytes⟩ := Option.bind_eq_some_iff.mp heq
        unfold Hex.ofBytes? at hbytes
        split at hbytes <;> cases hbytes <;> exact ⟨trivial, trivial, trivial, trivial⟩
      · cases heq
    · cases h
  · cases h
    trivial
  · cases h
    unfold keyword
    repeat' split
    all_goals trivial
  · cases h

/-- A color that `read` makes of components of a text has `NeutralTexts`. -/
theorem read_leaves {segment : Segment} {c : Color Float} (hsegment : segment.All (From source))
    (h : read levels segment = .ok c) : NeutralTexts c := by
  induction levels generalizing segment c with
  | zero => cases h
  | succ levels ih =>
    have htrim := hsegment.trim
    rw [read] at h
    dsimp only at h
    split at h
    · cases h
    · exact token_leaves h
    · rename_i opener body closer heq
      have hblock := htrim (.block opener body closer) (by simp [heq])
      have hinside : Segment.All (From source) ⟨body, closer.start⟩ := hblock.body
      split at h
      · split at h
        · exact rgb_leaves hinside h
        · exact rgb_leaves hinside h
        · exact hsl_leaves hinside h
        · exact hsl_leaves hinside h
        · split at h
          · exact composite_leaves (fun s c hs h => ih hs h) hinside h
          · cases h
      · cases h
    · cases h

end ColorGrammar

/-- The verbatim texts of a color that `Color.parse` has read from a text are neutral in a written
color. -/
theorem Color.leaves_of_parse {text : String} {c : Color Float} (h : Color.parse text = .ok c) :
    ColorGrammar.NeutralTexts c := by
  unfold Color.parse at h
  dsimp only at h
  split at h
  · cases h
  · obtain ⟨parts, hparts, h⟩ := exists_of_bind_eq_ok h
    exact ColorGrammar.read_leaves (from_of_forest hparts (trimWhile_isInfix _ _)) h

end ThemeColor
