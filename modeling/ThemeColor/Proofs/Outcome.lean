import ThemeColor.Proofs.Resolution

/-!
# How resolving a color ends

Resolving a color converts operands from one kind of color to another, puts fallback colors in the
place of keywords, and may fail at any depth. All the same its outcome is known beforehand. A color
that can be resolved has the kind that its outermost function gives it, and resolving fails at the
obstacles in the color, with the error of one of them, or because the color grows too large.

What is recorded on the way is known as well. Each keyword that stands directly inside a function is
replaced once, so the warnings are those of `Color.fallbacks`, up to where resolving fails.

Both are parts of one statement about a run, `Foreseen`, which is proved by one induction on the
color (`resolveAt_foreseen`). `Ends` is how statements about the parts of a run are put together.

## Main definitions

* `Color.kind`: the kind of canonical color that a color comes down to;
* `Color.Within depth inner outer`: a color inside of another one, below `depth` functions;
* `Palette.Obstacle`: what makes it impossible to resolve a color;
* `Color.fallbacks`: the warnings of a color, in the order in which they are recorded.
-/

namespace ThemeColor

variable {α β γ : Type}

/-! ## Shapes of colors -/

/-- The kinds of canonical color. -/
inductive Kind where
  /-- A color by red, green and blue. -/
  | rgb
  /-- A color by hue, saturation and lightness. -/
  | hsl
  /-- A keyword. -/
  | dynamic (keyword : Dynamic)
  deriving DecidableEq, Repr

/-- The kind of a canonical color. -/
def Canonical.kind : Canonical α → Kind
  | .rgb _ => .rgb
  | .hsl _ => .hsl
  | .dynamic keyword => .dynamic keyword

namespace Color

/-- The kind of canonical color that a color expression comes down to. Fading keeps the kind, but
turns a keyword into its fallback color. -/
def kind : Color α → Kind
  | .rgb _ | .named _ | .defined _ | .mix _ _ _ => .rgb
  | .hsl _ | .shade _ _ | .lighter _ | .darker _ => .hsl
  | .dynamic keyword => .dynamic keyword
  | .alpha color _ =>
    match color.kind with
    | .dynamic _ => .rgb
    | kind => kind

/-- Only a keyword itself has the `kind` of a keyword. -/
theorem kind_eq_dynamic_iff {c : Color α} {keyword : Dynamic} :
    c.kind = .dynamic keyword ↔ c = .dynamic keyword := by
  cases c with
  | alpha color factor =>
    cases h : color.kind <;> simp [kind, h]
  | dynamic other => simp [kind]
  | rgb | hsl | mix | shade | lighter | darker | defined | named => simp [kind]

/-- The colors that the outermost function takes. -/
def operands : Color α → List (Color α)
  | .mix a b _ => [a, b]
  | .shade color _ | .alpha color _ | .lighter color | .darker color => [color]
  | .rgb _ | .hsl _ | .dynamic _ | .named _ | .defined _ => []

/-- `Within depth inner outer`: the color `inner` stands in `outer`, inside of `depth` functions. -/
inductive Within : (depth : Nat) → (inner outer : Color α) → Prop
  | refl (c : Color α) : Within 0 c c
  | operand {depth : Nat} {d c c' : Color α} (hc : c' ∈ c.operands) (h : Within depth d c') :
      Within (depth + 1) d c

/-- The warning for an operand of a function: there is one if the operand is a keyword. -/
def fallback (operator : Composite) : Color α → List Warning
  | .dynamic keyword => [⟨operator, keyword⟩]
  | _ => []

/-- The warnings of a color, in the order in which its operands stand. -/
def fallbacks : Color α → List Warning
  | .mix a b _ =>
    a.fallbacks ++ a.fallback .mix ++ (b.fallbacks ++ b.fallback .mix)
  | .shade color _ => color.fallbacks ++ color.fallback .shade
  | .alpha color _ => color.fallbacks ++ color.fallback .alpha
  | .lighter color => color.fallbacks ++ color.fallback .lighter
  | .darker color => color.fallbacks ++ color.fallback .darker
  | .rgb _ | .hsl _ | .dynamic _ | .named _ | .defined _ => []

/-- An operand that is no keyword is used without a warning: its `fallback` is empty. -/
theorem fallback_eq_nil {operator : Composite} {c : Color α}
    (h : ∀ keyword, c.kind ≠ .dynamic keyword) : c.fallback operator = [] := by
  cases c with
  | dynamic keyword => exact absurd rfl (h keyword)
  | rgb | hsl | mix | shade | alpha | lighter | darker | defined | named => rfl

end Color

/-! ## Obstacles -/

namespace Palette

open Color

/-- The color cannot be resolved `depth` levels inside of another one, and this is the error. -/
inductive Obstacle (p : Palette α) (depth : Nat) : Color α → ColorError → Prop
  /-- There are too many functions around the color. -/
  | tooDeep {c} (h : nestingLimit < depth) : Obstacle p depth c .tooDeep
  /-- Only colors by red, green and blue are mixed. -/
  | hslOperand {a b factor} (h : a.kind = .hsl ∨ b.kind = .hsl) :
      Obstacle p depth (.mix a b factor) (.unsupportedModel (.hslOperand Composite.mix.name))
  /-- No color has the name. -/
  | unknownName {name} (h : p.named name = none) :
      Obstacle p depth (.named name) (.unsupportedModel (.unknownName name))
  /-- The name does not make the name of a custom property. -/
  | unusableName {name e} (h : ChannelNames.ofIdentifier name = .error e) :
      Obstacle p depth (.defined name) e

/-- There is an obstacle with the error `e` somewhere in the color. -/
def Blocks (p : Palette α) (depth : Nat) (c : Color α) (e : ColorError) : Prop :=
  ∃ n d, Within n d c ∧ Obstacle p (depth + n) d e

/-- What `Blocks` a color stands in its own way, or in the way of an operand. -/
theorem blocks_iff {p : Palette α} {depth : Nat} {c : Color α} {e : ColorError} :
    Blocks p depth c e ↔
      Obstacle p depth c e ∨ ∃ c' ∈ c.operands, Blocks p (depth + 1) c' e := by
  constructor
  · rintro ⟨n, d, hwithin, hobstacle⟩
    cases hwithin with
    | refl => exact .inl hobstacle
    | @operand n _ _ c' hc h =>
      refine .inr ⟨c', hc, n, d, h, ?_⟩
      rwa [Nat.add_assoc, Nat.add_comm 1 n]
  · rintro (hobstacle | ⟨c', hc, n, d, hwithin, hobstacle⟩)
    · exact ⟨0, c, .refl c, hobstacle⟩
    · refine ⟨n + 1, d, .operand hc hwithin, ?_⟩
      rwa [Nat.add_assoc, Nat.add_comm 1 n] at hobstacle

/-- What is known of a run that resolves a color, from its outcome and the warnings that it adds. -/
def Foreseen (p : Palette α) (depth : Nat) (c : Color α) :
    Except ColorError (Canonical α) → (added : List Warning) → Prop
  | .ok r, added => r.kind = c.kind ∧ (∀ e, ¬ Blocks p depth c e) ∧ added = c.fallbacks
  | .error e, added => (e = .tooLarge ∨ Blocks p depth c e) ∧ added <+: c.fallbacks

/-- What is known of a run that supplies an operand of the color `c`. The operand is usable if there
was no error. -/
def Supplied (p : Palette α) (depth : Nat) (c : Color α) (operator : Composite) (operand : Color α)
    (usable : Prop) : Except ColorError β → (added : List Warning) → Prop
  | .ok _, added => usable ∧ (∀ e, ¬ Blocks p (depth + 1) operand e) ∧
      added = operand.fallbacks ++ operand.fallback operator
  | .error e, added => (e = .tooLarge ∨ Blocks p depth c e) ∧
      added <+: operand.fallbacks ++ operand.fallback operator

end Palette

/-! ## Runs and how they end -/

/-- However the record stands before, the computation ends with an outcome and with added warnings
of which `post` holds. -/
def Ends (x : ResolveM β) (post : Except ColorError β → (added : List Warning) → Prop) : Prop :=
  ∀ before, ∃ outcome added, x.run.run before = (outcome, before ++ added) ∧ post outcome added

section Ends

variable {post : Except ColorError β → List Warning → Prop}

theorem ends_pure {a : β} (h : post (.ok a) []) : Ends (pure a) post := by
  intro before
  refine ⟨.ok a, [], ?_, h⟩
  rw [List.append_nil]
  rfl

theorem ends_throw {e : ColorError} (h : post (.error e) []) : Ends (throw e) post := by
  intro before
  refine ⟨.error e, [], ?_, h⟩
  rw [List.append_nil]
  rfl

/-- Nothing is done after a failure. -/
theorem ends_throw_bind {e : ColorError} {f : γ → ResolveM β} (h : post (.error e) []) :
    Ends (throw e >>= f) post := by
  intro before
  refine ⟨.error e, [], ?_, h⟩
  rw [List.append_nil]
  rfl

/-- A fallback color is used, with one warning. -/
theorem ends_fallback {operator : Composite} {keyword : Dynamic} {a : β}
    (h : post (.ok a) [⟨operator, keyword⟩]) :
    Ends (Palette.warn operator keyword >>= fun _ => pure a) post := by
  intro before
  exact ⟨.ok a, [⟨operator, keyword⟩], rfl, h⟩

/-- The second step goes on from what the first one has added, as `Ends` says. -/
theorem Ends.bind {x : ResolveM β} {f : β → ResolveM γ}
    {post' : Except ColorError γ → List Warning → Prop} (hx : Ends x post)
    (herror : ∀ e added, post (.error e) added → post' (.error e) added)
    (hok : ∀ a added, post (.ok a) added →
      Ends (f a) fun outcome more => post' outcome (added ++ more)) :
    Ends (x >>= f) post' := by
  intro before
  obtain ⟨outcome, added, hrun, hpost⟩ := hx before
  rw [run_bind, hrun]
  cases outcome with
  | error e => exact ⟨.error e, added, rfl, herror e added hpost⟩
  | ok a =>
    obtain ⟨outcome, more, hrun, hpost⟩ := hok a added hpost (before ++ added)
    exact ⟨outcome, added ++ more, by rw [← List.append_assoc]; exact hrun, hpost⟩

end Ends

namespace Palette

open Color

variable [Scalar α] {p : Palette α} {depth : Nat} {c operand : Color α} {operator : Composite}

/-! ## Operands -/

omit [Scalar α] in
/-- The errors that are `Foreseen` of an operand are errors of the color. -/
theorem Foreseen.error_of_operand {e : ColorError} {added : List Warning}
    (h : Foreseen p (depth + 1) operand (.error e) added) (hc : operand ∈ c.operands) :
    e = .tooLarge ∨ Blocks p depth c e := by
  rcases h.1 with h | h
  · exact .inl h
  · exact .inr (blocks_iff.mpr (.inr ⟨operand, hc, h⟩))

omit [Scalar α] in
/-- An operand of `rgbOperand` is `Supplied`, or it is the obstacle. -/
theorem ends_rgbOperand {x : ResolveM (Canonical α)} (hc : operand ∈ c.operands)
    (hhsl : operand.kind = .hsl →
      Obstacle p depth c (.unsupportedModel (.hslOperand operator.name)))
    (hx : Ends x (Foreseen p (depth + 1) operand)) :
    Ends (x >>= p.rgbOperand operator)
      (Supplied p depth c operator operand (operand.kind ≠ .hsl)) := by
  refine hx.bind ?_ ?_
  · intro e added h
    exact ⟨h.error_of_operand hc, h.2.trans (List.prefix_append _ _)⟩
  rintro r added ⟨hkind, hclear, rfl⟩
  cases r with
  | rgb color =>
    have hkind : operand.kind = .rgb := hkind.symm
    refine ends_pure ⟨by simp [hkind], hclear, ?_⟩
    rw [fallback_eq_nil (by simp [hkind])]
  | hsl color =>
    refine ends_throw ⟨.inr (blocks_iff.mpr (.inl (hhsl hkind.symm))), ?_⟩
    rw [List.append_nil]
    exact List.prefix_append _ _
  | dynamic keyword =>
    obtain rfl := kind_eq_dynamic_iff.mp hkind.symm
    exact ends_fallback ⟨by simp [kind], hclear, rfl⟩

/-- An operand of `hslOperand` is always `Supplied`, as every color has such a form. -/
theorem ends_hslOperand {x : ResolveM (Canonical α)} (hc : operand ∈ c.operands)
    (hx : Ends x (Foreseen p (depth + 1) operand)) :
    Ends (x >>= p.hslOperand operator) (Supplied p depth c operator operand True) := by
  refine hx.bind ?_ ?_
  · intro e added h
    exact ⟨h.error_of_operand hc, h.2.trans (List.prefix_append _ _)⟩
  rintro r added ⟨hkind, hclear, rfl⟩
  cases r with
  | rgb color =>
    have hkind : operand.kind = .rgb := hkind.symm
    refine ends_pure ⟨trivial, hclear, ?_⟩
    rw [fallback_eq_nil (by simp [hkind])]
  | hsl color =>
    have hkind : operand.kind = .hsl := hkind.symm
    refine ends_pure ⟨trivial, hclear, ?_⟩
    rw [fallback_eq_nil (by simp [hkind])]
  | dynamic keyword =>
    obtain rfl := kind_eq_dynamic_iff.mp hkind.symm
    exact ends_fallback ⟨trivial, hclear, rfl⟩

/-! ## Whole colors -/

omit [Scalar α] in
/-- A color that does not stand too deep and whose operands are clear has nothing that `Blocks` it.
-/
theorem not_blocks_of_operands (hdepth : depth ≤ nestingLimit)
    (hself : ∀ e, Obstacle p depth c e → nestingLimit < depth)
    (hoperands : ∀ c' ∈ c.operands, ∀ e, ¬ Blocks p (depth + 1) c' e) (e : ColorError) :
    ¬ Blocks p depth c e := by
  rw [blocks_iff]
  rintro (h | ⟨c', hc, h⟩)
  · exact absurd (hself e h) (Nat.not_lt.mpr hdepth)
  · exact hoperands c' hc e h

omit [Scalar α] in
/-- The checks of `guarded` refuse what stands too deep or grows too large, and change nothing else.
-/
theorem ends_guarded {step : ResolveM (Canonical α)}
    (h : depth ≤ nestingLimit → Ends step (Foreseen p depth c)) :
    Ends (guarded depth step) (Foreseen p depth c) := by
  unfold guarded
  split
  · rename_i hdeep
    apply ends_throw_bind
    exact ⟨.inr (blocks_iff.mpr (.inl (.tooDeep hdeep))), List.nil_prefix⟩
  · rename_i hdeep
    refine (h (Nat.not_lt.mp hdeep)).bind (fun e added he => he) fun r added hr => ?_
    dsimp only
    -- The size is looked at after the step, so by then all warnings of the color are recorded.
    split
    · apply ends_throw_bind
      rw [List.append_nil, hr.2.2]
      exact ⟨.inl rfl, List.prefix_refl _⟩
    · apply ends_pure
      rwa [List.append_nil]

/-- A color that is computed from one operand by hue, saturation and lightness ends as `Foreseen`.
-/
theorem ends_shade {x : ResolveM (Canonical α)} {f : Hsl α → Hsl α} (hdepth : depth ≤ nestingLimit)
    (hoperands : c.operands = [operand]) (hkind : c.kind = .hsl)
    (hself : ∀ e, Obstacle p depth c e → nestingLimit < depth)
    (hfallbacks : c.fallbacks = operand.fallbacks ++ operand.fallback operator)
    (hx : Ends x (Foreseen p (depth + 1) operand)) :
    Ends (x >>= fun r => p.hslOperand operator r >>= fun color => pure (.hsl (f color)))
      (Foreseen p depth c) := by
  rw [← bind_assoc]
  have hsupplied : Ends (x >>= p.hslOperand operator) (Supplied p depth c operator operand True) :=
    ends_hslOperand (by simp [hoperands]) hx
  refine hsupplied.bind ?_ ?_
  · rintro e added ⟨he, hadded⟩
    rw [← hfallbacks] at hadded
    exact ⟨he, hadded⟩
  · rintro color added ⟨-, hclear, rfl⟩
    apply ends_pure
    rw [List.append_nil, ← hfallbacks]
    refine ⟨hkind.symm, not_blocks_of_operands hdepth hself ?_, rfl⟩
    simpa [hoperands] using hclear

/-- A color that is mixed from two operands ends as `Foreseen`. -/
theorem ends_mix {a b : Color α} {factor : Expr α} {x y : ResolveM (Canonical α)}
    (hdepth : depth ≤ nestingLimit) (hx : Ends x (Foreseen p (depth + 1) a))
    (hy : Ends y (Foreseen p (depth + 1) b)) :
    Ends (x >>= fun a' => p.rgbOperand .mix a' >>= fun a'' => y >>= fun b' =>
        p.rgbOperand .mix b' >>= fun b'' => pure (.rgb (a''.mix b'' factor.simplify)))
      (Foreseen p depth (.mix a b factor)) := by
  have ha : Ends (x >>= p.rgbOperand .mix)
      (Supplied p depth (.mix a b factor) .mix a (a.kind ≠ .hsl)) :=
    ends_rgbOperand (by simp [operands]) (fun h => .hslOperand (.inl h)) hx
  have hb : Ends (y >>= p.rgbOperand .mix)
      (Supplied p depth (.mix a b factor) .mix b (b.kind ≠ .hsl)) :=
    ends_rgbOperand (by simp [operands]) (fun h => .hslOperand (.inr h)) hy
  rw [← bind_assoc]
  refine ha.bind ?_ ?_
  · rintro e added ⟨he, hadded⟩
    exact ⟨he, hadded.trans (List.prefix_append _ _)⟩
  rintro a'' added ⟨haUsable, haClear, rfl⟩
  rw [← bind_assoc]
  -- The warnings of the first operand stand in front of all that the second one adds.
  refine hb.bind ?_ ?_
  · rintro e added ⟨he, hadded⟩
    exact ⟨he, (List.prefix_append_right_inj _).mpr hadded⟩
  rintro b'' added ⟨hbUsable, hbClear, rfl⟩
  apply ends_pure
  rw [List.append_nil]
  refine ⟨rfl, not_blocks_of_operands hdepth ?_ (by simpa [operands] using ⟨haClear, hbClear⟩), rfl⟩
  intro e h
  cases h with
  | tooDeep h => exact h
  | hslOperand h => exact absurd h (not_or.mpr ⟨haUsable, hbUsable⟩)

/-- A color with scaled opacity ends as `Foreseen`. -/
theorem ends_alpha {factor : Expr α} {x : ResolveM (Canonical α)} (hdepth : depth ≤ nestingLimit)
    (hx : Ends x (Foreseen p (depth + 1) operand)) :
    Ends (x >>= p.fadeOperand factor.simplify) (Foreseen p depth (.alpha operand factor)) := by
  have hself : ∀ e, Obstacle p depth (.alpha operand factor) e → nestingLimit < depth := by
    rintro e ⟨h⟩
    exact h
  refine hx.bind ?_ ?_
  · intro e added h
    exact ⟨h.error_of_operand (by simp [operands]), h.2.trans (List.prefix_append _ _)⟩
  rintro r added ⟨hkind, hclear, rfl⟩
  have hclear : ∀ e, ¬ Blocks p depth (.alpha operand factor) e :=
    not_blocks_of_operands hdepth hself (by simpa [operands] using hclear)
  -- Only a keyword changes its kind, and only a keyword leaves a warning.
  cases r with
  | rgb color =>
    have hkind : operand.kind = .rgb := hkind.symm
    refine ends_pure ⟨by simp [kind, hkind, Canonical.kind], hclear, ?_⟩
    rw [fallbacks, fallback_eq_nil (by simp [hkind])]
  | hsl color =>
    have hkind : operand.kind = .hsl := hkind.symm
    refine ends_pure ⟨by simp [kind, hkind, Canonical.kind], hclear, ?_⟩
    rw [fallbacks, fallback_eq_nil (by simp [hkind])]
  | dynamic keyword =>
    obtain rfl := kind_eq_dynamic_iff.mp hkind.symm
    exact ends_fallback ⟨rfl, hclear, rfl⟩

/-- A color with a common name ends as `Foreseen`. -/
theorem ends_lookUp (name : String) (hdepth : depth ≤ nestingLimit) :
    Ends (.rgb <$> p.lookUp name) (Foreseen p depth (.named name)) := by
  unfold lookUp
  cases hname : p.named name with
  | none =>
    rw [map_eq_pure_bind]
    apply ends_throw_bind
    exact ⟨.inr (blocks_iff.mpr (.inl (.unknownName hname))), List.nil_prefix⟩
  | some swatch =>
    refine ends_pure ⟨rfl, not_blocks_of_operands hdepth ?_ (by simp [operands]), rfl⟩
    intro e h
    cases h with
    | tooDeep h => exact h
    | unknownName h => rw [hname] at h; cases h

omit [Scalar α] in
/-- A color that the style sheet defines ends as `Foreseen`. -/
theorem ends_refer (name : String) (hdepth : depth ≤ nestingLimit) :
    Ends (.rgb <$> refer name) (Foreseen p depth (.defined name)) := by
  unfold refer
  cases hname : ChannelNames.ofIdentifier name with
  | error e =>
    rw [map_eq_pure_bind]
    apply ends_throw_bind
    exact ⟨.inr (blocks_iff.mpr (.inl (.unusableName hname))), List.nil_prefix⟩
  | ok names =>
    refine ends_pure ⟨rfl, not_blocks_of_operands hdepth ?_ (by simp [operands]), rfl⟩
    intro e h
    cases h with
    | tooDeep h => exact h
    | unusableName h => rw [hname] at h; cases h

/-- How resolving a color ends, `depth` levels inside of another one. -/
theorem resolveAt_foreseen (c : Color α) (depth : Nat) :
    Ends (p.resolveAt c depth) (Foreseen p depth c) := by
  induction c generalizing depth with
  | rgb color | hsl color | dynamic keyword =>
    refine ends_guarded fun hdepth => ends_pure ⟨rfl, not_blocks_of_operands hdepth ?_ ?_, rfl⟩
    · rintro e ⟨h⟩
      exact h
    · simp [operands]
  | named name => exact ends_guarded (ends_lookUp name)
  | defined name => exact ends_guarded (ends_refer name)
  | mix a b factor iha ihb =>
    exact ends_guarded fun hdepth => ends_mix hdepth (iha (depth + 1)) (ihb (depth + 1))
  | shade color _ ih | lighter color ih | darker color ih =>
    refine ends_guarded fun hdepth => ends_shade hdepth rfl rfl ?_ rfl (ih (depth + 1))
    rintro e ⟨h⟩
    exact h
  | alpha color factor ih => exact ends_guarded fun hdepth => ends_alpha hdepth (ih (depth + 1))

omit [Scalar α] in
/-- What `guarded` lets pass is not too large. -/
theorem nodeCount_of_yields_guarded {step : ResolveM (Canonical α)} {r : Canonical α}
    (h : Yields (guarded depth step) r) : r.nodeCount ≤ sizeLimit := by
  unfold guarded at h
  split at h
  · obtain ⟨_, hthrow, -⟩ := exists_of_yields_bind h
    exact absurd hthrow not_yields_throw
  · obtain ⟨color, -, hcheck⟩ := exists_of_yields_bind h
    split at hcheck
    · obtain ⟨_, hthrow, -⟩ := exists_of_yields_bind hcheck
      exact absurd hthrow not_yields_throw
    · rename_i hsize
      obtain rfl := yields_pure_iff.mp hcheck
      exact Nat.not_lt.mp hsize

/-- What `resolveAt` yields is not too large. -/
theorem nodeCount_of_yields {r : Canonical α} (h : Yields (p.resolveAt c depth) r) :
    r.nodeCount ≤ sizeLimit := by
  cases c <;> exact nodeCount_of_yields_guarded h

/-- The outcome of resolving a color is known from its shape, whatever names and keywords stand for
and whatever was recorded before. A canonical color has the kind of the color and is not too large.
An obstacle anywhere in the color makes resolving fail, and if resolving fails, it is with the error
of an obstacle in the color, or because a color has grown too large. -/
theorem resolve_outcome (p : Palette α) (c : Color α) (before : List Warning) :
    (∀ r, ((p.resolve c).run.run before).1 = .ok r → r.kind = c.kind ∧ r.nodeCount ≤ sizeLimit) ∧
    ((∃ n d e, Within n d c ∧ Obstacle p n d e) →
      ∃ e, ((p.resolve c).run.run before).1 = .error e) ∧
    ∀ e, ((p.resolve c).run.run before).1 = .error e →
      e = .tooLarge ∨ ∃ n d, Within n d c ∧ Obstacle p n d e := by
  obtain ⟨outcome, added, hrun, hforeseen⟩ := resolveAt_foreseen (p := p) c 0 before
  have hresult : ((p.resolve c).run.run before).1 = outcome := congrArg Prod.fst hrun
  rw [hresult]
  cases outcome with
  | ok r =>
    obtain ⟨hkind, hclear, -⟩ := hforeseen
    refine ⟨?_, ?_, ?_⟩
    · intro r' hr'
      obtain rfl := Except.ok.inj hr'
      exact ⟨hkind, nodeCount_of_yields ⟨before, _, hrun⟩⟩
    · rintro ⟨n, d, e, hwithin, hobstacle⟩
      refine absurd ⟨n, d, hwithin, ?_⟩ (hclear e)
      rwa [Nat.zero_add]
    · intro e he
      cases he
  | error e =>
    refine ⟨?_, fun _ => ⟨e, rfl⟩, ?_⟩
    · intro r hr
      cases hr
    · intro e' he'
      obtain rfl := Except.error.inj he'
      refine hforeseen.1.imp_right ?_
      rintro ⟨n, d, hwithin, hobstacle⟩
      rw [Nat.zero_add] at hobstacle
      exact ⟨n, d, hwithin, hobstacle⟩

end Palette

end ThemeColor
