import ThemeColor.Color.Resolve

/-!
# What resolving a color can give

`Resolves p c r` lists, one rule for each kind of color, which canonical color a color expression
comes down to. A run of `Palette.resolveAt` that succeeds follows these rules
(`resolves_of_yields`), so that no later proof unfolds the monad. Such a run does not depend on the
warnings that were recorded before it (`resolveAt_appends`).
-/

namespace ThemeColor

/-! ## Runs that record warnings -/

section Runs

variable {β γ : Type}

/-- The computation succeeds with the value `a`, whatever was recorded before it or by it. -/
def Yields (x : ResolveM β) (a : β) : Prop :=
  ∃ before after, x.run.run before = (.ok a, after)

theorem yields_pure_iff {a b : β} : Yields (pure a) b ↔ a = b := by
  constructor
  · rintro ⟨before, after, h⟩
    cases h
    rfl
  · rintro rfl
    exact ⟨[], [], rfl⟩

theorem not_yields_throw {e : ColorError} {a : β} : ¬ Yields (throw e) a := by
  rintro ⟨before, after, h⟩
  cases h

/-- A run of two steps of `ResolveM` in a row: the second one starts with the warnings of the first.
-/
theorem run_bind (x : ResolveM β) (f : β → ResolveM γ) (before : List Warning) :
    (x >>= f).run.run before =
      match x.run.run before with
      | (.ok a, middle) => (f a).run.run middle
      | (.error e, middle) => (.error e, middle) := by
  change (match x.run.run before with
    | (r, middle) => (ExceptT.bindCont f r : StateM _ _).run middle) = _
  rcases x.run.run before with ⟨r, middle⟩
  cases r <;> rfl

/-- Two steps in a row succeed, as `Yields` says, only if both of them do. -/
theorem exists_of_yields_bind {x : ResolveM β} {f : β → ResolveM γ} {b : γ}
    (h : Yields (x >>= f) b) : ∃ a, Yields x a ∧ Yields (f a) b := by
  obtain ⟨before, after, h⟩ := h
  rw [run_bind] at h
  rcases hx : x.run.run before with ⟨r, middle⟩
  rw [hx] at h
  cases r with
  | error e => cases h
  | ok a => exact ⟨a, ⟨before, middle, hx⟩, ⟨middle, after, h⟩⟩

/-- What a mapped step `Yields` is mapped from what the step yields. -/
theorem exists_of_yields_map {x : ResolveM β} {f : β → γ} {b : γ} (h : Yields (f <$> x) b) :
    ∃ a, Yields x a ∧ f a = b := by
  rw [map_eq_pure_bind] at h
  obtain ⟨a, ha, hb⟩ := exists_of_yields_bind h
  exact ⟨a, ha, yields_pure_iff.mp hb⟩

/-- The computation does the same from every record, and adds the same warnings to it. -/
def Appends (x : ResolveM β) : Prop :=
  ∀ before, x.run.run before = ((x.run.run []).1, before ++ (x.run.run []).2)

theorem appends_pure (a : β) : Appends (pure a) := fun before => by
  change (Except.ok a, before) = (Except.ok a, before ++ [])
  rw [List.append_nil]

theorem appends_throw (e : ColorError) : Appends (throw e : ResolveM β) := fun before => by
  change (Except.error e, before) = (Except.error e, before ++ [])
  rw [List.append_nil]

theorem appends_warn (operator : Composite) (operand : Dynamic) :
    Appends (Palette.warn operator operand) := fun _ => rfl

/-- Steps in a row only append warnings, as `Appends` says, if each of them does. -/
theorem Appends.bind {x : ResolveM β} {f : β → ResolveM γ} (hx : Appends x)
    (hf : ∀ a, Appends (f a)) : Appends (x >>= f) := by
  intro before
  rw [run_bind, run_bind, hx before]
  -- The second step starts from what the first one recorded, behind what was there before.
  rcases x.run.run [] with ⟨r, middle⟩
  cases r with
  | error e => rfl
  | ok a =>
    simp only
    rw [hf a (before ++ middle), hf a middle, List.append_assoc]

/-- A mapped step `Appends` the warnings of the step. -/
theorem Appends.map {x : ResolveM β} (hx : Appends x) (f : β → γ) : Appends (f <$> x) := by
  rw [map_eq_pure_bind]
  exact hx.bind fun a => appends_pure (f a)

/-- What succeeds after some warnings also succeeds without them, if the step `Appends`. -/
theorem Appends.ok_of_yields {x : ResolveM β} {a : β} (hx : Appends x) (h : Yields x a) :
    (x.run.run []).1 = .ok a := by
  obtain ⟨before, after, h⟩ := h
  rw [hx before] at h
  exact congrArg Prod.fst h

end Runs

namespace Palette

variable {α : Type} [Scalar α] {p : Palette α}

/-! ## The record of warnings -/

omit [Scalar α] in
/-- Taking an operand with `rgbOperand` appends one warning at most. -/
theorem rgbOperand_appends (operator : Composite) (c : Canonical α) :
    Appends (p.rgbOperand operator c) := by
  cases c with
  | rgb color => exact appends_pure color
  | hsl color => exact appends_throw _
  | dynamic keyword => exact (appends_warn operator keyword).bind fun _ => appends_pure _

/-- Taking an operand with `hslOperand` appends one warning at most. -/
theorem hslOperand_appends (operator : Composite) (c : Canonical α) :
    Appends (p.hslOperand operator c) := by
  cases c with
  | rgb color => exact appends_pure _
  | hsl color => exact appends_pure color
  | dynamic keyword => exact (appends_warn operator keyword).bind fun _ => appends_pure _

/-- Taking an operand with `fadeOperand` appends one warning at most. -/
theorem fadeOperand_appends (factor : Expr α) (c : Canonical α) :
    Appends (p.fadeOperand factor c) := by
  cases c with
  | rgb color => exact appends_pure _
  | hsl color => exact appends_pure _
  | dynamic keyword => exact (appends_warn .alpha keyword).bind fun _ => appends_pure _

/-- Looking up a name with `lookUp` appends no warnings. -/
theorem lookUp_appends (name : String) : Appends (p.lookUp name) := by
  unfold lookUp
  split
  · exact appends_pure _
  · exact appends_throw _

omit [Scalar α] in
/-- Referring to a name with `refer` appends no warnings. -/
theorem refer_appends (name : String) : Appends (refer name : ResolveM (Rgb α)) := by
  unfold refer
  split
  · exact appends_pure _
  · exact appends_throw _

omit [Scalar α] in
/-- The checks of `guarded` append no warnings. -/
theorem guarded_appends {depth : Nat} {step : ResolveM (Canonical α)} (h : Appends step) :
    Appends (guarded depth step) := by
  have hcheck (color : Canonical α) :
      Appends (if sizeLimit < color.nodeCount then throw .tooLarge else pure color) := by
    split
    · exact appends_throw _
    · exact appends_pure color
  unfold guarded
  split
  · exact (appends_throw _).bind fun _ => h.bind hcheck
  · exact h.bind hcheck

/-- Resolving a color with `resolveAt` appends warnings and never removes one. -/
theorem resolveAt_appends (c : Color α) (depth : Nat) : Appends (p.resolveAt c depth) := by
  induction c generalizing depth with
  | rgb color => exact guarded_appends (appends_pure _)
  | hsl color => exact guarded_appends (appends_pure _)
  | dynamic keyword => exact guarded_appends (appends_pure _)
  | named name => exact guarded_appends ((lookUp_appends name).map _)
  | defined name => exact guarded_appends ((refer_appends name).map _)
  | mix a b factor iha ihb =>
    refine guarded_appends ((iha _).bind fun a' => (rgbOperand_appends .mix a').bind fun _ => ?_)
    exact (ihb _).bind fun b' => (rgbOperand_appends .mix b').bind fun _ => appends_pure _
  | shade color factor ih =>
    exact guarded_appends ((ih _).bind fun c => (hslOperand_appends .shade c).bind fun _ =>
      appends_pure _)
  | lighter color ih =>
    exact guarded_appends ((ih _).bind fun c => (hslOperand_appends .lighter c).bind fun _ =>
      appends_pure _)
  | darker color ih =>
    exact guarded_appends ((ih _).bind fun c => (hslOperand_appends .darker c).bind fun _ =>
      appends_pure _)
  | alpha color factor ih =>
    exact guarded_appends ((ih _).bind fun c => fadeOperand_appends _ c)

/-! ## The rules of resolution -/

/-- What an operand by red, green and blue comes from. -/
inductive RgbOperand (p : Palette α) : Canonical α → Rgb α → Prop
  | rgb (color : Rgb α) : RgbOperand p (.rgb color) color
  | dynamic (keyword : Dynamic) : RgbOperand p (.dynamic keyword) p.rgbFallback

/-- What an operand by hue, saturation and lightness comes from. -/
inductive HslOperand (p : Palette α) : Canonical α → Hsl α → Prop
  | rgb (color : Rgb α) : HslOperand p (.rgb color) color.toHsl
  | hsl (color : Hsl α) : HslOperand p (.hsl color) color
  | dynamic (keyword : Dynamic) : HslOperand p (.dynamic keyword) p.hslFallback

/-- What fading an operand gives. -/
inductive FadeOperand (p : Palette α) (factor : Expr α) : Canonical α → Canonical α → Prop
  | rgb (color : Rgb α) : FadeOperand p factor (.rgb color) (.rgb (color.fade factor))
  | hsl (color : Hsl α) : FadeOperand p factor (.hsl color) (.hsl (color.fade factor))
  | dynamic (keyword : Dynamic) :
      FadeOperand p factor (.dynamic keyword) (.rgb (p.rgbFallback.fade factor))

/-- `Resolves p c r`: the color expression `c` comes down to the canonical color `r`. -/
inductive Resolves (p : Palette α) : Color α → Canonical α → Prop
  | rgb (color : Rgb α) : Resolves p (.rgb color) (.rgb color.simplify)
  | hsl (color : Hsl α) : Resolves p (.hsl color) (.hsl color.simplify)
  | dynamic (keyword : Dynamic) : Resolves p (.dynamic keyword) (.dynamic keyword)
  | named {name : String} {swatch : Swatch α} (hname : p.named name = some swatch) :
      Resolves p (.named name) (.rgb swatch.toRgb)
  | defined {name : String} {names : ChannelNames}
      (hname : ChannelNames.ofIdentifier name = .ok names) :
      Resolves p (.defined name)
        (.rgb ⟨.var names.red, .var names.green, .var names.blue, .var names.alpha⟩)
  | mix {a b : Color α} {a' b' : Canonical α} {x y : Rgb α} {factor : Expr α}
      (ha : Resolves p a a') (hx : RgbOperand p a' x)
      (hb : Resolves p b b') (hy : RgbOperand p b' y) :
      Resolves p (.mix a b factor) (.rgb (x.mix y factor.simplify))
  | shade {c : Color α} {c' : Canonical α} {x : Hsl α} {factor : Expr α}
      (hc : Resolves p c c') (hx : HslOperand p c' x) :
      Resolves p (.shade c factor) (.hsl (x.shade factor.simplify))
  | lighter {c : Color α} {c' : Canonical α} {x : Hsl α}
      (hc : Resolves p c c') (hx : HslOperand p c' x) :
      Resolves p (.lighter c) (.hsl (x.shade fixedFactor))
  | darker {c : Color α} {c' : Canonical α} {x : Hsl α}
      (hc : Resolves p c c') (hx : HslOperand p c' x) :
      Resolves p (.darker c) (.hsl (x.shade fixedFactor))
  | alpha {c : Color α} {c' r : Canonical α} {factor : Expr α}
      (hc : Resolves p c c') (hr : FadeOperand p factor.simplify c' r) :
      Resolves p (.alpha c factor) r

omit [Scalar α] in
/-- What `rgbOperand` yields is an `RgbOperand`. -/
theorem rgbOperand_of_yields {operator : Composite} {c : Canonical α} {color : Rgb α}
    (h : Yields (p.rgbOperand operator c) color) : RgbOperand p c color := by
  cases c with
  | rgb c =>
    obtain rfl := yields_pure_iff.mp h
    exact .rgb c
  | hsl c => exact absurd h not_yields_throw
  | dynamic keyword =>
    obtain ⟨-, -, h⟩ := exists_of_yields_bind h
    obtain rfl := yields_pure_iff.mp h
    exact .dynamic keyword

/-- What `hslOperand` yields is an `HslOperand`. -/
theorem hslOperand_of_yields {operator : Composite} {c : Canonical α} {color : Hsl α}
    (h : Yields (p.hslOperand operator c) color) : HslOperand p c color := by
  cases c with
  | rgb c =>
    obtain rfl := yields_pure_iff.mp h
    exact .rgb c
  | hsl c =>
    obtain rfl := yields_pure_iff.mp h
    exact .hsl c
  | dynamic keyword =>
    obtain ⟨-, -, h⟩ := exists_of_yields_bind h
    obtain rfl := yields_pure_iff.mp h
    exact .dynamic keyword

/-- What `fadeOperand` yields is a `FadeOperand`. -/
theorem fadeOperand_of_yields {factor : Expr α} {c r : Canonical α}
    (h : Yields (p.fadeOperand factor c) r) : FadeOperand p factor c r := by
  cases c with
  | rgb c =>
    obtain rfl := yields_pure_iff.mp h
    exact .rgb c
  | hsl c =>
    obtain rfl := yields_pure_iff.mp h
    exact .hsl c
  | dynamic keyword =>
    obtain ⟨-, -, h⟩ := exists_of_yields_bind h
    obtain rfl := yields_pure_iff.mp h
    exact .dynamic keyword

omit [Scalar α] in
/-- The checks of `guarded` do not change what a step yields. -/
theorem yields_of_guarded {depth : Nat} {step : ResolveM (Canonical α)} {r : Canonical α}
    (h : Yields (guarded depth step) r) : Yields step r := by
  unfold guarded at h
  split at h
  -- Neither of the two checks can fail in a run that succeeds.
  · obtain ⟨_, hthrow, -⟩ := exists_of_yields_bind h
    exact absurd hthrow not_yields_throw
  · obtain ⟨color, hcolor, hcheck⟩ := exists_of_yields_bind h
    split at hcheck
    · obtain ⟨_, hthrow, -⟩ := exists_of_yields_bind hcheck
      exact absurd hthrow not_yields_throw
    · obtain rfl := yields_pure_iff.mp hcheck
      exact hcolor

/-- A run of `resolveAt` that succeeds follows the rules of resolution, `Resolves`. -/
theorem resolves_of_yields {c : Color α} {depth : Nat} {r : Canonical α}
    (h : Yields (p.resolveAt c depth) r) : Resolves p c r := by
  induction c generalizing depth r with
  | rgb color =>
    obtain rfl := yields_pure_iff.mp (yields_of_guarded h)
    exact .rgb color
  | hsl color =>
    obtain rfl := yields_pure_iff.mp (yields_of_guarded h)
    exact .hsl color
  | dynamic keyword =>
    obtain rfl := yields_pure_iff.mp (yields_of_guarded h)
    exact .dynamic keyword
  | named name =>
    obtain ⟨color, hcolor, rfl⟩ := exists_of_yields_map (yields_of_guarded h)
    unfold lookUp at hcolor
    split at hcolor
    · rename_i swatch hname
      obtain rfl := yields_pure_iff.mp hcolor
      exact .named hname
    · exact absurd hcolor not_yields_throw
  | defined name =>
    obtain ⟨color, hcolor, rfl⟩ := exists_of_yields_map (yields_of_guarded h)
    unfold refer at hcolor
    split at hcolor
    · rename_i names hname
      obtain rfl := yields_pure_iff.mp hcolor
      exact .defined hname
    · exact absurd hcolor not_yields_throw
  | mix a b factor iha ihb =>
    -- The operands are resolved from left to right, and each is converted before the next one.
    obtain ⟨a', ha, h⟩ := exists_of_yields_bind (yields_of_guarded h)
    obtain ⟨x, hx, h⟩ := exists_of_yields_bind h
    obtain ⟨b', hb, h⟩ := exists_of_yields_bind h
    obtain ⟨y, hy, h⟩ := exists_of_yields_bind h
    obtain rfl := yields_pure_iff.mp h
    exact .mix (iha ha) (rgbOperand_of_yields hx) (ihb hb) (rgbOperand_of_yields hy)
  | shade color factor ih =>
    obtain ⟨c', hc, h⟩ := exists_of_yields_bind (yields_of_guarded h)
    obtain ⟨x, hx, h⟩ := exists_of_yields_bind h
    obtain rfl := yields_pure_iff.mp h
    exact .shade (ih hc) (hslOperand_of_yields hx)
  | lighter color ih =>
    obtain ⟨c', hc, h⟩ := exists_of_yields_bind (yields_of_guarded h)
    obtain ⟨x, hx, h⟩ := exists_of_yields_bind h
    obtain rfl := yields_pure_iff.mp h
    exact .lighter (ih hc) (hslOperand_of_yields hx)
  | darker color ih =>
    obtain ⟨c', hc, h⟩ := exists_of_yields_bind (yields_of_guarded h)
    obtain ⟨x, hx, h⟩ := exists_of_yields_bind h
    obtain rfl := yields_pure_iff.mp h
    exact .darker (ih hc) (hslOperand_of_yields hx)
  | alpha color factor ih =>
    obtain ⟨c', hc, h⟩ := exists_of_yields_bind (yields_of_guarded h)
    exact .alpha (ih hc) (fadeOperand_of_yields h)

end Palette

end ThemeColor
