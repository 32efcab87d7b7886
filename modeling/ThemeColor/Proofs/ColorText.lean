import ThemeColor.Proofs.HexDigits
import ThemeColor.Proofs.ParsedLeaves
import ThemeColor.Proofs.WrittenText

/-!
# The text of a color

A color is written into a declaration as one component value, so that it cannot break out of it,
provided that no name and no unit in it brings in a bracket, a quote, a slash or a backslash. These
are the only parts that are written without escapes (`Color.bare`).

- `Canonical.isComponentValue_css`: a color with neutral verbatim texts and plain units is written
  as one component value;
- `css_isComponentValue_iff`: the ten characters are exactly those that bare texts must not have.
-/

namespace ThemeColor

open LeafRule ThemeColor.Bracket

/-! ## Hexadecimal colors -/

/-- A hash followed by characters of names is a single token. -/
theorem Lexeme.contents_hash {digits : List Char} (hne : digits ≠ [])
    (h : ∀ c ∈ digits, Scan.isNameChar c) :
    ∃ l : Lexeme, Lexeme.contents ('#' :: digits) = [l] ∧
      l.token = .hash (String.ofList digits) := by
  have hname : Scan.name digits = ⟨digits, digits, []⟩ := by
    have hrun : Scan.name (digits ++ []) = _ := Scan.name_run h (by rw [Scan.name])
    rwa [List.append_nil] at hrun
  have htoken : Scan.token '#' digits = ⟨.hash (String.ofList digits), '#' :: digits, []⟩ := by
    obtain ⟨c, rest, rfl⟩ := List.exists_cons_of_ne_nil hne
    have hstarts : Scan.startsHashName (c :: rest) := by
      simp [Scan.startsHashName, h c List.mem_cons_self]
    rw [Scan.token, if_neg (by decide), if_neg (by decide), if_pos ⟨rfl, hstarts⟩, hname]
    rfl
  have hcomments : (Scan.comments ('#' :: digits)).2 = '#' :: digits := by
    rw [Scan.comments_cons fun h => absurd h (by decide)]
  obtain ⟨l, offset, hl, -, hcontents⟩ := contents_of_comments hcomments
  rw [htoken] at hl hcontents
  rw [Lexeme.scanFrom_nil] at hcontents
  exact ⟨l, hcontents, hl⟩

namespace Hex

theorem all_isNameChar : lowerDigits.all Scan.isNameChar := by decide +kernel

theorem shortDigits_ne_nil {bytes : List UInt8} (hne : bytes ≠ []) : shortDigits bytes ≠ [] := by
  have hpos := List.length_pos_iff.mpr hne
  rw [← List.length_pos_iff, length_shortDigits]
  split <;> omega

/-- What `Hex.text` writes is a single token. -/
theorem contents_text {bytes : List UInt8} (hne : bytes ≠ []) :
    ∃ l : Lexeme, Lexeme.contents (text bytes).toList = [l] ∧
      l.token = .hash (String.ofList (shortDigits bytes)) := by
  rw [text, String.toList_ofList]
  exact Lexeme.contents_hash (shortDigits_ne_nil hne) fun c hc =>
    List.all_eq_true.mp all_isNameChar c (mem_of_mem_shortDigits hc)

/-- What `Hex.text` writes is one component value. -/
theorem isComponentValue_text {bytes : List UInt8} (hne : bytes ≠ []) :
    IsComponentValue (text bytes).toList := by
  obtain ⟨l, hcontents, hl⟩ := contents_text hne
  rw [isComponentValue_iff, hcontents, isValue, hl]
  rfl

end Hex

/-! ## Functions -/

/-- A function of what `Fills` its parentheses is one component value. -/
theorem Bracket.Fills.isComponentValue {inside : List Char} (h : Fills inside) {word : List Char}
    (hword : Scan.IsFunctionName word) : IsComponentValue (word ++ '(' :: (inside ++ [')'])) := by
  rw [isComponentValue_function hword, h _ _ (List.cons_ne_nil _ _), after_close, after_nil]

/-- A color function that `functionText` writes with writable fields is one component value, with
and without its opacity. -/
theorem isComponentValue_functionText {name : String} (hname : name ∈ ["rgb", "hsl"])
    {first second third alpha : Expr Float} (hfirst : first.Obeys writable)
    (hsecond : second.Obeys writable) (hthird : third.Obeys writable)
    (halpha : alpha.Obeys writable) :
    IsComponentValue (functionText name first second third alpha).toList := by
  have hnames : ∀ name ∈ ["rgb", "hsl"], Scan.IsFunctionName name.toList ∧
      Scan.IsFunctionName (name.toList ++ ['a']) := by decide +kernel
  obtain ⟨hshort, hlong⟩ := hnames name hname
  -- The first two fields are followed by the third one, or by the third one and the opacity.
  have hfields {rest : List Char} (hrest : Fills rest) :
      Fills (first.text.toList ++ ',' :: (second.text.toList ++ ',' :: rest)) :=
    .comma hfirst.neutral_text (.comma hsecond.neutral_text hrest)
  unfold functionText
  dsimp only
  split
  · have hvalue := (hfields hthird.neutral_text.fills).isComponentValue hshort
    simpa using hvalue
  · have hvalue := (hfields (.comma hthird.neutral_text
      halpha.neutral_text.fills)).isComponentValue hlong
    simpa using hvalue

/-- A color with `writable` leaves is written by `Canonical.css` as one component value. -/
theorem Canonical.isComponentValue_css {r : Canonical Float}
    (h : r.Leaves writable.text writable.unit) : IsComponentValue r.css.toList := by
  cases r with
  | dynamic keyword =>
    rw [isComponentValue_iff]
    cases keyword <;> decide +kernel
  | hsl color =>
    exact isComponentValue_functionText (by decide) h.hue h.saturation h.lightness h.alpha
  | rgb color =>
    rw [css]
    split
    · exact Hex.isComponentValue_text (by simp [Rgb.bytes])
    · exact isComponentValue_functionText (by decide) h.red h.green h.blue h.alpha

/-! ## Bare texts -/

section Bare

variable {α : Type}

namespace Expr

mutual

/-- The characters of all units of an expression. -/
def bare : Expr α → List Char
  | .quantity q => q.unit.toList
  | .verbatim _ => []
  | .binary _ lhs rhs => bare lhs ++ bare rhs
  | .call _ args => bareAll args

/-- The characters of all units of the expressions of a list. -/
def bareAll : List (Expr α) → List Char
  | [] => []
  | e :: es => bare e ++ bareAll es

end

end Expr

/-- The characters that reach the text of a color without being escaped: those of its units and
those of the cores of its names. -/
def Color.bare : Color α → List Char
  | .rgb c => c.red.bare ++ c.green.bare ++ c.blue.bare ++ c.alpha.bare
  | .hsl c => c.hue.bare ++ c.saturation.bare ++ c.lightness.bare ++ c.alpha.bare
  | .mix a b factor => bare a ++ bare b ++ factor.bare
  | .shade color factor | .alpha color factor => bare color ++ factor.bare
  | .lighter color | .darker color => bare color
  | .defined name => ChannelNames.core name
  | .named _ | .dynamic _ => []

open Scan

mutual

/-- If the units, the `bare` texts, have plain characters, then every unit is plain. -/
theorem Expr.leaves_of_bare : (e : Expr α) → Plain e.bare →
    e.Leaves (fun _ => True) fun unit => Plain unit.toList
  | .quantity _, h => h
  | .verbatim _, _ => trivial
  | .binary _ lhs rhs, h => ⟨leaves_of_bare lhs (plain_append.mp h).1,
      leaves_of_bare rhs (plain_append.mp h).2⟩
  | .call _ args, h => leavesAll_of_bare args h

theorem Expr.leavesAll_of_bare : (es : List (Expr α)) → Plain (bareAll es) →
    LeavesAll (fun _ => True) (fun unit => Plain unit.toList) es
  | [], _ => trivial
  | e :: es, h => ⟨leaves_of_bare e (plain_append.mp h).1,
      leavesAll_of_bare es (plain_append.mp h).2⟩

end

/-- If the `bare` texts have plain characters, then every unit and every core of a name is plain. -/
theorem Color.leaves_of_bare {c : Color α} (h : Plain c.bare) :
    c.Leaves (fun _ => True) (fun unit => Plain unit.toList)
      fun name => Plain (ChannelNames.core name) := by
  induction c with
  | rgb color =>
    simp only [bare, plain_append] at h
    obtain ⟨⟨⟨hred, hgreen⟩, hblue⟩, halpha⟩ := h
    exact ⟨Expr.leaves_of_bare _ hred, Expr.leaves_of_bare _ hgreen,
      Expr.leaves_of_bare _ hblue, Expr.leaves_of_bare _ halpha⟩
  | hsl color =>
    simp only [bare, plain_append] at h
    obtain ⟨⟨⟨hhue, hsaturation⟩, hlightness⟩, halpha⟩ := h
    exact ⟨Expr.leaves_of_bare _ hhue, Expr.leaves_of_bare _ hsaturation,
      Expr.leaves_of_bare _ hlightness, Expr.leaves_of_bare _ halpha⟩
  | mix a b factor iha ihb =>
    simp only [bare, plain_append] at h
    exact ⟨iha h.1.1, ihb h.1.2, Expr.leaves_of_bare factor h.2⟩
  | shade color factor ih =>
    simp only [bare, plain_append] at h
    exact ⟨ih h.1, Expr.leaves_of_bare factor h.2⟩
  | alpha color factor ih =>
    simp only [bare, plain_append] at h
    exact ⟨ih h.1, Expr.leaves_of_bare factor h.2⟩
  -- The factor of these two is fixed and has no texts.
  | lighter color ih => exact ih h
  | darker color ih => exact ih h
  | defined name => exact h
  | named name => trivial
  | dynamic keyword => trivial

end Bare

namespace ChannelNames

/-- A reference to a `property` with a plain core is neutral. -/
theorem neutral_reference {core : List Char} (h : Scan.Plain core) {channel : Char}
    (hchannel : Scan.Plain [channel]) :
    Neutral ("var(" ++ property core channel ++ ")").toList := by
  have htext : ("var(" ++ property core channel ++ ")").toList =
      "var".toList ++ '(' :: ("--".toList ++ (core ++ "-".toList) ++ [channel] ++ [')']) := by
    simp [property]
  have hinside : Scan.Plain ("--".toList ++ (core ++ "-".toList) ++ [channel]) :=
    (Scan.Plain.append (by decide) (h.append (by decide))).append hchannel
  rw [htext]
  exact (fills_of_plain hinside).neutral_function (Scan.isFunctionName_of_mem _ (by simp))

/-- The `references` to the properties of a color with a plain core are neutral. -/
theorem neutral_references {name : String} {names : ChannelNames} (hcore : Scan.Plain (core name))
    (h : ofIdentifier name = .ok names) : ∀ text ∈ names.references, Neutral text.toList := by
  rw [ofIdentifier] at h
  split at h
  · cases h
  · rw [← Except.ok.inj h]
    simp only [references, toList, ofCore, List.map_cons, List.map_nil, List.forall_mem_cons]
    refine ⟨neutral_reference hcore ?_, neutral_reference hcore ?_, neutral_reference hcore ?_,
      neutral_reference hcore ?_, by simp⟩
    all_goals decide

end ChannelNames

/-! ## Written colors -/

/-- A color with plain `bare` texts is written as one component value. -/
theorem Color.isComponentValue_css {text : String} {c : Color Float} {r : Canonical Float}
    (hparse : Color.parse text = .ok c) (hresolve : c.resolve.1 = .ok r)
    (hbare : Scan.Plain c.bare) : IsComponentValue r.css.toList := by
  -- Verbatim texts are neutral since they were read; units and names are plain by assumption.
  have hleaves : c.Leaves writable.text writable.unit
      fun name => Scan.Plain (ChannelNames.core name) :=
    Color.Leaves.and (fun _ h _ => h) (fun _ _ h => h) (fun _ _ h => h)
      (Color.leaves_of_parse hparse) (Color.leaves_of_bare hbare)
  have hresolves : Palette.default.Resolves c r :=
    Palette.resolves_of_yields ⟨[], c.resolve.2, Prod.ext hresolve rfl⟩
  apply Canonical.isComponentValue_css
  exact hresolves.obeys Palette.default_obeys (fun _ _ => ChannelNames.neutral_references) hleaves

/-- Whether the text is a color that can be written, with `p` of it, but is then not one component
value. -/
def breaksOut (text : String) (p : Color Float → Bool) : Bool :=
  (Color.parse text).toOption.any fun c => p c && c.resolve.1.toOption.any fun r =>
    !isValue (Lexeme.contents r.css.toList)

/-- A text that `breaksOut` is a color that is not written as one component value. -/
theorem exists_of_breaksOut {text : String} {p : Color Float → Bool} (h : breaksOut text p) :
    ∃ c r, Color.parse text = .ok c ∧ p c ∧ c.resolve.1 = .ok r ∧
      ¬ IsComponentValue r.css.toList := by
  obtain ⟨c, hparse, h⟩ := exists_of_toOption_any h
  obtain ⟨hp, h⟩ := Bool.and_eq_true_iff.mp h
  obtain ⟨r, hresolve, h⟩ := exists_of_toOption_any h
  refine ⟨c, r, hparse, hp, hresolve, ?_⟩
  rw [isComponentValue_iff]
  simpa using h

/-- A color whose only bare character is `ch`, as the unit of a factor. A slash needs an asterisk
behind it to start a comment; any other character has the end of the function behind it. -/
def colorWithBare (ch : Char) : String :=
  if ch = '/' then "rgb(0,0,calc(1\\/*env(k)))"
  else "rgb(0,0,calc(env(k)*1\\" ++ ch.toString ++ "))"

theorem breaksOut_colorWithBare :
    ∀ ch ∈ Scan.breakers, breaksOut (colorWithBare ch) fun c => c.bare.all (· = ch) := by
  -- One evaluation for each character: together they take more than twice the memory.
  simp only [Scan.breakers, List.forall_mem_cons]
  refine ⟨?_, ?_, ?_, ?_, ?_, ?_, ?_, ?_, ?_, ?_, List.forall_mem_nil _⟩ <;> decide +kernel

/-- **A color breaks out only through ten characters.** All colors whose bare texts have allowed
characters are written as one component value (a hash, a name, or a function up to the parenthesis
that closes it, with all brackets and quoted texts inside it closed) exactly if no bracket, no
quote, no slash and no backslash is allowed. Everything else that a color can hold is safe as it
is: numbers, verbatim texts and all other characters of names and units. -/
theorem css_isComponentValue_iff (allowed : Char → Prop) :
    (∀ text c r, Color.parse text = .ok c → c.resolve.1 = .ok r →
        (∀ ch ∈ c.bare, allowed ch) → IsComponentValue r.css.toList) ↔
      ∀ ch ∈ Scan.breakers, ¬ allowed ch := by
  constructor
  · intro h ch hch hallowed
    obtain ⟨c, r, hparse, hbare, hresolve, hvalue⟩ :=
      exists_of_breaksOut (breaksOut_colorWithBare ch hch)
    refine hvalue (h _ c r hparse hresolve fun d hd => ?_)
    have heq : d = ch := by simpa using List.all_eq_true.mp hbare d hd
    rwa [heq]
  · intro h text c r hparse hresolve hbare
    exact Color.isComponentValue_css hparse hresolve fun ch hch hbreaks =>
      h ch hbreaks (hbare ch hch)

/-- A defined color whose opacity is scaled by a text with brackets and quotes of its own. -/
theorem css_isComponentValue_iff_faded :
    ∃ c r, Color.parse "alpha(@a_b,calc(env(k, \")\")*2))" = .ok c ∧ c.resolve.1 = .ok r ∧
      IsComponentValue r.css.toList := by
  have htest : (Color.parse "alpha(@a_b,calc(env(k, \")\")*2))").toOption.any fun c =>
      c.bare.all (· ∉ Scan.breakers) && c.resolve.1.toOption.any fun _ => true := by
    decide +kernel
  obtain ⟨c, hparse, htest⟩ := exists_of_toOption_any htest
  obtain ⟨hbare, htest⟩ := Bool.and_eq_true_iff.mp htest
  obtain ⟨r, hresolve, -⟩ := exists_of_toOption_any htest
  refine ⟨c, r, hparse, hresolve, ?_⟩
  refine (css_isComponentValue_iff (· ∉ Scan.breakers)).mpr (fun ch hch hnot => hnot hch) _ c r
    hparse hresolve fun ch hch => ?_
  simpa using List.all_eq_true.mp hbare ch hch

/-- A name with an escaped parenthesis ends the function that refers to it. -/
theorem css_not_isComponentValue_parenthesis :
    ∃ c r, Color.parse "@a\\)" = .ok c ∧ c.resolve.1 = .ok r ∧
      r.css = "rgba(var(--a)-r),var(--a)-g),var(--a)-b),var(--a)-a))" ∧
      ¬ IsComponentValue r.css.toList := by
  have htest : breaksOut "@a\\)" fun c => c.resolve.1.toOption.any fun r =>
      r.css = "rgba(var(--a)-r),var(--a)-g),var(--a)-b),var(--a)-a))" := by decide +kernel
  obtain ⟨c, r, hparse, htext, hresolve, hvalue⟩ := exists_of_breaksOut htest
  rw [hresolve] at htext
  exact ⟨c, r, hparse, hresolve, of_decide_eq_true htext, hvalue⟩

end ThemeColor
