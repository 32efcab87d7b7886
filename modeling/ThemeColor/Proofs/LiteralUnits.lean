import ThemeColor.Proofs.ColorReading
import ThemeColor.Proofs.ColorText
import ThemeColor.Proofs.Units

/-!
# Units of known fields

A field of a color that is a known value should have the unit of its place: channels and opacity are
plain numbers, saturation and lightness percentages, and the hue is an angle.

Reading a color sees to this where a field is known at once (`Color.literals_of_parse`). It does not
look into a calculation, and it takes factors as they are, so a calculation of mixed units or a
factor with a unit can still come down to a known value of another unit. If the calculations are of
one unit and factors are plain numbers, all known fields of the resolved color have the units of
their places (`literalUnits_of_resolve`).
-/

namespace ThemeColor

open Component Grammar

/-- A unit of an angle, in letters of any case; a plain number counts degrees. -/
def IsAngle (unit : String) : Prop :=
  ∃ angle ∈ ["", "deg", "grad", "rad", "turn"], Text.sameIgnoringCase unit angle

/-- The units of `IsAngle` are those that are read as angles. -/
theorem isAngle_iff {unit : String} : IsAngle unit ↔ ColorGrammar.isAngleUnit unit :=
  ColorGrammar.isAngleUnit_iff.symm

/-- Angles of all units count as degrees, and `unitOf` gives the units of verbatim texts. -/
def UnitRule.angles (unitOf : String → String) : UnitRule where
  text := unitOf
  known unit := if unit ≠ "" ∧ ColorGrammar.isAngleUnit unit then "deg" else unit
  known_eq_empty_iff := by
    intro unit
    split
    · rename_i h
      simp [h.1]
    · exact Iff.rfl
  known_percent := by decide +kernel

/-! ## Places of a color -/

section Places

variable {α : Type}

/-- The condition on an expression in a place, by the units that the place allows. -/
abbrev Condition (α : Type) := (allowed : String → Prop) → Expr α → Prop

/-- The condition holds in the places of all fields. -/
structure Rgb.Fields (P : Condition α) (c : Rgb α) : Prop where
  /-- The red channel. -/
  red : P (· = "") c.red
  /-- The green channel. -/
  green : P (· = "") c.green
  /-- The blue channel. -/
  blue : P (· = "") c.blue
  /-- The opacity. -/
  alpha : P (· = "") c.alpha

/-- The condition holds in the places of all fields. -/
structure Hsl.Fields (P : Condition α) (c : Hsl α) : Prop where
  /-- The hue. -/
  hue : P IsAngle c.hue
  /-- The saturation. -/
  saturation : P (· = "%") c.saturation
  /-- The lightness. -/
  lightness : P (· = "%") c.lightness
  /-- The opacity. -/
  alpha : P (· = "") c.alpha

/-- The condition holds in the places of all fields; a keyword has none. -/
def Canonical.Fields (P : Condition α) : Canonical α → Prop
  | .rgb color => color.Fields P
  | .hsl color => color.Fields P
  | .dynamic _ => True

/-- `P` holds in the places of all fields, `F` of all factors, and `N` of all names of defined
colors. -/
def Color.Parts (P : Condition α) (F : Expr α → Prop) (N : String → Prop) : Color α → Prop
  | .rgb color => color.Fields P
  | .hsl color => color.Fields P
  | .mix a b factor => Parts P F N a ∧ Parts P F N b ∧ F factor
  | .shade color factor | .alpha color factor => Parts P F N color ∧ F factor
  | .lighter color | .darker color => Parts P F N color
  | .defined name => N name
  | .named _ | .dynamic _ => True

/-- A known value has a unit that its place allows. -/
def LiteralIn : Condition α := fun allowed e => ∀ q, e.quantity? = some q → allowed q.unit

/-- An expression that is no known value has a unit that its place allows. -/
def UnknownIn (rule : UnitRule) : Condition α := fun allowed e =>
  e.quantity? = none → ∃ unit, allowed unit ∧ e.HasUnit rule unit

/-- All known fields have the units of their places. -/
def Canonical.LiteralUnits (c : Canonical α) : Prop := c.Fields LiteralIn

/-- Calculations are of one unit, the one of their place, where `unitOf` gives the units of verbatim
texts; factors are plain numbers, and so are the properties of defined colors. -/
def Color.UnitsAgree (unitOf : String → String) (c : Color α) : Prop :=
  c.Parts (UnknownIn (.angles unitOf)) (·.HasUnit (.angles unitOf) "") fun name =>
    ∀ names, ChannelNames.ofIdentifier name = .ok names →
      ∀ text ∈ names.references, unitOf text = ""

end Places

/-! ## Known fields of a color that is read -/

section Reading

/-- All known fields of the color have the units of their places. -/
abbrev Literals (c : Color Float) : Prop := c.Parts LiteralIn (fun _ => True) fun _ => True

/-- What is not known is `LiteralIn` every unit. -/
theorem literalIn_of_unknown {allowed : String → Prop} {e : Expr Float} (h : e.quantity? = none) :
    LiteralIn allowed e := by
  intro q hq
  rw [h] at hq
  cases hq

/-- A known value is `LiteralIn` its own unit. -/
theorem literalIn_quantity {allowed : String → Prop} {v : Float} {unit : String}
    (h : allowed unit) : LiteralIn allowed (.quantity ⟨v, unit⟩) := by
  rintro q ⟨⟩
  exact h

/-- A percentage is `Scaled` to a plain number. -/
theorem literalIn_scaled {scale : Float → Float} {cs : List Component} {e : Expr Float}
    (h : Channel (Scaled scale) cs e) : LiteralIn (· = "") e := by
  obtain ⟨n, -, h⟩ := h
  cases h with
  | percent v => exact literalIn_quantity rfl
  | plain v => exact literalIn_quantity rfl
  | unknown h => exact literalIn_of_unknown h

/-- A known `Opacity` is a plain number. -/
theorem literalIn_opacity {cs : Option (List Component)} {e : Expr Float} (h : Opacity cs e) :
    LiteralIn (· = "") e := by
  cases h with
  | full => exact literalIn_quantity rfl
  | written h => exact literalIn_scaled h

/-- A known `Angle` has a unit of angles. -/
theorem literalIn_angle {cs : List Component} {e : Expr Float} (h : Channel Angle cs e) :
    LiteralIn IsAngle e := by
  obtain ⟨n, -, h⟩ := h
  cases h with
  | angle h => exact literalIn_quantity h
  | unknown h => exact literalIn_of_unknown h

/-- A plain number is taken for a `Percentage`. -/
theorem literalIn_percentage {cs : List Component} {e : Expr Float} (h : Channel Percentage cs e) :
    LiteralIn (· = "%") e := by
  obtain ⟨n, -, h⟩ := h
  cases h with
  | percent v => exact literalIn_quantity rfl
  | plain v => exact literalIn_quantity rfl
  | unknown h => exact literalIn_of_unknown h

/-- The channels of a `HexColor` are plain numbers. -/
theorem literals_of_hexColor {digits : List Char} {color : Rgb Float} (h : HexColor digits color) :
    Literals (.rgb color) := by
  cases h <;>
    exact ⟨literalIn_quantity rfl, literalIn_quantity rfl, literalIn_quantity rfl,
      literalIn_quantity rfl⟩

/-- The known fields of the color of a `Keyword` have the units of their places. -/
theorem literals_of_keyword {name : String} {color : Color Float} (h : Keyword name color) :
    Literals color := by
  cases h <;> trivial

mutual

/-- The known fields of a color that components write, as `Writes` says, have the units of their
places. -/
theorem literals_of_writes {cs : List Component} {color : Color Float} :
    Writes cs color → Literals color
  | .padded _ hcolor _ => literals_of_single hcolor

/-- The known fields of a color that a `Single` component writes have the units of their places. -/
theorem literals_of_single {c : Component} {color : Color Float} : Single c color → Literals color
  | .hash _ hcolor => literals_of_hexColor hcolor
  | .defined _ => trivial
  | .name _ hcolor => literals_of_keyword hcolor
  | .call _ hcolor => literals_of_call hcolor

/-- The known fields of a color that a `Call` writes have the units of their places. -/
theorem literals_of_call {name : String} {body : List Component} {color : Color Float} :
    Call name body color → Literals color
  | .rgb _ _ hred hgreen hblue halpha =>
    ⟨literalIn_scaled hred, literalIn_scaled hgreen, literalIn_scaled hblue,
      literalIn_opacity halpha⟩
  | .hsl _ _ hhue hsaturation hlightness halpha =>
    ⟨literalIn_angle hhue, literalIn_percentage hsaturation, literalIn_percentage hlightness,
      literalIn_opacity halpha⟩
  | .mix _ hx _ hy _ _ => ⟨literals_of_writes hx, literals_of_writes hy, trivial⟩
  | .shade _ hx _ _ => ⟨literals_of_writes hx, trivial⟩
  | .alpha _ hx _ _ => ⟨literals_of_writes hx, trivial⟩
  | .lighter _ hbody => (literals_of_writes hbody :)
  | .darker _ hbody => (literals_of_writes hbody :)

end

/-- The known fields of a color that `Color.parse` reads have the units of their places. -/
theorem Color.literals_of_parse {text : String} {c : Color Float} (h : Color.parse text = .ok c) :
    Literals c := by
  -- What is read is what the grammar writes, and its rules fix the unit of each known field.
  obtain ⟨-, parts, hparts, hcolor⟩ := parse_eq_ok_iff_forest.mp h
  exact literals_of_writes ((Segment.color_eq_ok_iff (depth_of_forest hparts)).mp hcolor)

end Reading

/-! ## Known fields of a color that is resolved -/

section Resolution

variable {α : Type} {unitOf : String → String} {allowed : String → Prop} {e : Expr α}

/-- The units that a place allows are told apart from all others by what they count as. -/
structure Counted (allowed : String → Prop) : Prop where
  iff (unitOf : String → String) (unit : String) :
    allowed ((UnitRule.angles unitOf).known unit) ↔ allowed unit

/-- What the place of a plain number allows is `Counted`: no other unit counts as none. -/
theorem counted_number : Counted (· = "") :=
  ⟨fun unitOf _ => (UnitRule.angles unitOf).known_eq_empty_iff⟩

/-- What the place of a percentage allows is `Counted`: no other unit counts as one. -/
theorem counted_percentage : Counted (· = "%") where
  iff unitOf unit := by
    unfold UnitRule.angles
    dsimp only
    split
    · rename_i h
      -- A percentage is no angle.
      refine ⟨by simp, ?_⟩
      rintro rfl
      exact absurd h.2 (by decide +kernel)
    · exact Iff.rfl

/-- What the place of an angle allows is `Counted`: all units of angles count as one. -/
theorem counted_angle : Counted IsAngle where
  iff unitOf unit := by
    unfold UnitRule.angles
    dsimp only
    split
    · rename_i h
      simp only [isAngle_iff, h.2, iff_true]
      decide +kernel
    · exact Iff.rfl

/-- A field that has an allowed unit if it is known (`LiteralIn`), and also if it is not
(`UnknownIn`), has an allowed unit. -/
theorem exists_hasUnit (hallowed : Counted allowed) (hliteral : LiteralIn allowed e)
    (hunknown : UnknownIn (.angles unitOf) allowed e) :
    ∃ unit, allowed unit ∧ e.HasUnit (.angles unitOf) unit := by
  cases hq : e.quantity? with
  | none => exact hunknown hq
  | some q =>
    -- A known field counts as an angle or as itself, and its place allows both.
    have hunit := (hallowed.iff unitOf q.unit).mpr (hliteral q hq)
    cases e with
    | quantity q' =>
      cases hq
      exact ⟨_, hunit, .quantity q⟩
    | verbatim text => cases hq
    | binary op lhs rhs => cases hq
    | call function args => cases hq

/-- An expression that `HasUnit` says has an allowed unit has it if it is known. -/
theorem Expr.HasUnit.literalIn {unit : String} (hallowed : Counted allowed) (hunit : allowed unit)
    (h : e.HasUnit (.angles unitOf) unit) : LiteralIn allowed e := by
  intro q hq
  cases h with
  | quantity q' =>
    cases hq
    exact (hallowed.iff unitOf q.unit).mp hunit
  | verbatim | sum | difference | timesNumber | numberTimes | overNumber | ratio | call => cases hq

/-- A color `HasUnits` if its known fields and its unknown ones have them. -/
theorem Rgb.hasUnits_of_fields {c : Rgb α} (hliteral : c.Fields LiteralIn)
    (hunknown : c.Fields (UnknownIn (.angles unitOf))) : c.HasUnits (.angles unitOf) := by
  have hplain {e : Expr α} (hliteral : LiteralIn (· = "") e)
      (hunknown : UnknownIn (.angles unitOf) (· = "") e) : e.HasUnit (.angles unitOf) "" := by
    obtain ⟨unit, rfl, h⟩ := exists_hasUnit counted_number hliteral hunknown
    exact h
  exact ⟨hplain hliteral.red hunknown.red, hplain hliteral.green hunknown.green,
    hplain hliteral.blue hunknown.blue, hplain hliteral.alpha hunknown.alpha⟩

/-- A color by hue `HasUnits` if its known fields and its unknown ones have them. -/
theorem Hsl.hasUnits_of_fields {c : Hsl α} (hliteral : c.Fields LiteralIn)
    (hunknown : c.Fields (UnknownIn (.angles unitOf))) : c.HasUnits (.angles unitOf) IsAngle := by
  obtain ⟨_, rfl, hsaturation⟩ :=
    exists_hasUnit counted_percentage hliteral.saturation hunknown.saturation
  obtain ⟨_, rfl, hlightness⟩ :=
    exists_hasUnit counted_percentage hliteral.lightness hunknown.lightness
  obtain ⟨_, rfl, halpha⟩ := exists_hasUnit counted_number hliteral.alpha hunknown.alpha
  exact ⟨exists_hasUnit counted_angle hliteral.hue hunknown.hue, hsaturation, hlightness, halpha⟩

/-- A color expression `HasUnits` if its known parts and its unknown ones have them. -/
theorem Color.hasUnits_of_parts {c : Color Float} (hliteral : Literals c)
    (hunknown : c.UnitsAgree unitOf) : c.HasUnits (.angles unitOf) IsAngle := by
  induction c with
  | rgb color => exact Rgb.hasUnits_of_fields hliteral hunknown
  | hsl color => exact Hsl.hasUnits_of_fields hliteral hunknown
  | mix a b factor iha ihb =>
    exact ⟨iha hliteral.1 hunknown.1, ihb hliteral.2.1 hunknown.2.1, hunknown.2.2⟩
  | shade color factor ih => exact ⟨ih hliteral.1 hunknown.1, hunknown.2⟩
  | alpha color factor ih => exact ⟨ih hliteral.1 hunknown.1, hunknown.2⟩
  | lighter color ih => exact ih hliteral hunknown
  | darker color ih => exact ih hliteral hunknown
  | defined name => exact hunknown
  | named name => trivial
  | dynamic keyword => trivial

/-- A color that `HasUnits` has `LiteralUnits` in particular. -/
theorem Canonical.HasUnits.literalUnits {r : Canonical α}
    (h : r.HasUnits (.angles unitOf) IsAngle) : r.LiteralUnits := by
  have hplain {e : Expr α} (he : e.HasUnit (.angles unitOf) "") : LiteralIn (· = "") e :=
    he.literalIn counted_number rfl
  have hpercent {e : Expr α} (he : e.HasUnit (.angles unitOf) "%") : LiteralIn (· = "%") e :=
    he.literalIn counted_percentage rfl
  cases r with
  | rgb color => exact ⟨hplain h.red, hplain h.green, hplain h.blue, hplain h.alpha⟩
  | hsl color =>
    obtain ⟨unit, hunit, hhue⟩ := h.hue
    exact ⟨hhue.literalIn counted_angle hunit, hpercent h.saturation, hpercent h.lightness,
      hplain h.alpha⟩
  | dynamic keyword => trivial

end Resolution

/-- Known fields of a color that is read and resolved have the units of their places, if its
calculations are of one unit and its factors are plain numbers. -/
theorem literalUnits_of_resolve {text : String} {c : Color Float} {r : Canonical Float}
    {unitOf : String → String} (hparse : Color.parse text = .ok c) (hresolve : c.resolve.1 = .ok r)
    (hunits : c.UnitsAgree unitOf) : r.LiteralUnits := by
  have hangle : IsAngle "" := isAngle_iff.mpr (by decide +kernel)
  have hc := Color.hasUnits_of_parts (Color.literals_of_parse hparse) hunits
  exact (hc.of_resolve hangle hresolve).literalUnits

/-- Whether a color with an unknown red channel times a plain number, and with known values for the
others, is mixed with a defined color by a plain number. -/
def mixesScaledChannel : Color Float → Bool
  | .mix (.rgb ⟨.binary .mul (.verbatim _) (.quantity x), .quantity _, .quantity _, .quantity _⟩)
      (.defined _) (.quantity t) => x.unit = "" ∧ t.unit = ""
  | _ => false

/-- The shape that `mixesScaledChannel` checks has units that agree. -/
theorem unitsAgree_of_mixesScaledChannel {c : Color Float} (h : mixesScaledChannel c) :
    c.UnitsAgree fun _ => "" := by
  unfold mixesScaledChannel at h
  split at h
  · rename_i x g b a name t
    obtain ⟨hx, ht⟩ := of_decide_eq_true h
    have hnumber {q : Quantity Float} (h : q.unit = "") :
        (Expr.quantity q).HasUnit (.angles fun _ => "") "" :=
      Expr.hasUnit_quantity_iff.mpr ((UnitRule.angles _).known_eq_empty_iff.mpr h)
    refine ⟨⟨fun _ => ⟨"", rfl, ?_⟩, ?_, ?_, ?_⟩, fun _ _ _ _ => rfl, hnumber ht⟩
    · exact .timesNumber (.verbatim _) (hnumber hx)
    -- The other channels are known values.
    all_goals
      intro hunknown
      cases hunknown
  · cases h

/-- A calculation with an unknown value, percentages for known channels, and a defined color. -/
theorem literalUnits_of_resolve_mix :
    ∃ c r unitOf, Color.parse "mix(rgb(calc(var(--x)*2),50%,0),@a,0.25)" = .ok c ∧
      c.resolve.1 = .ok r ∧ c.UnitsAgree unitOf ∧ r.LiteralUnits := by
  have htest : (Color.parse "mix(rgb(calc(var(--x)*2),50%,0),@a,0.25)").toOption.any fun c =>
      mixesScaledChannel c && c.resolve.1.toOption.isSome := by
    decide +kernel
  obtain ⟨c, hparse, htest⟩ := exists_of_toOption_any htest
  obtain ⟨hshape, hsome⟩ := Bool.and_eq_true_iff.mp htest
  rcases hresolve : c.resolve.1 with e | r
  · rw [hresolve] at hsome
    cases hsome
  · have hunits := unitsAgree_of_mixesScaledChannel hshape
    exact ⟨c, r, _, hparse, hresolve, hunits, literalUnits_of_resolve hparse hresolve hunits⟩

/-- Whether the color that the text writes has a known percentage as its red channel. -/
def redIsPercentage (text : String) : Bool :=
  (Color.parse text).toOption.any fun c => c.resolve.1.toOption.any fun r =>
    match r with
    | .rgb ⟨.quantity q, _, _, _⟩ => q.unit = "%"
    | _ => false

theorem exists_of_redIsPercentage {text : String} (h : redIsPercentage text) :
    ∃ c r, Color.parse text = .ok c ∧ c.resolve.1 = .ok r ∧ ¬ r.LiteralUnits := by
  obtain ⟨c, hparse, htest⟩ := exists_of_toOption_any h
  obtain ⟨r, hresolve, hchannel⟩ := exists_of_toOption_any htest
  refine ⟨c, r, hparse, hresolve, fun h => ?_⟩
  split at hchannel
  · rename_i q g b a
    have hunit : q.unit = "" := h.red q rfl
    rw [hunit] at hchannel
    cases hchannel
  · cases hchannel

/-- A percentage as a factor, and a percentage that is subtracted from a plain number, leave a
percentage as a channel. -/
theorem not_literalUnits_of_resolve :
    (∃ c r, Color.parse "mix(#000,#fff,50%)" = .ok c ∧ c.resolve.1 = .ok r ∧ ¬ r.LiteralUnits) ∧
      ∃ c r, Color.parse "rgb(calc(0 - -5%),0,0)" = .ok c ∧ c.resolve.1 = .ok r ∧
        ¬ r.LiteralUnits :=
  ⟨exists_of_redIsPercentage (by decide +kernel), exists_of_redIsPercentage (by decide +kernel)⟩

end ThemeColor
