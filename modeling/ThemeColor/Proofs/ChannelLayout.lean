import ThemeColor.Proofs.Arguments

/-!
# Commas and blanks

The channels of a color stand between commas, with the opacity behind one more, or between blanks,
with a slash in front of the opacity. Either way the inside of the function has the same channels
and no others (`Grammar.Layout`), so the same colors are read.

## Main results

* `Grammar.Layout.call`: insides with the same layout write the same colors;
* `Color.toOption_parse_commas`: a text with commas is read as the one with blanks.
-/

namespace ThemeColor

open Text

namespace Grammar

open Component

variable {x y z cs body : List Component} {a : Option (List Component)}

/-- Channels that are `Spaced` are the words of what slashes leave. -/
theorem Spaced.map_words (h : Spaced cs x y z a) :
    (cs.splitOnP ColorGrammar.isSlash).map
        (fun piece => (piece.splitOnP isWhitespace).filter (!·.isEmpty)) =
      [x, y, z] :: a.toList.map fun w => [w] := by
  rcases h with ⟨hslash, hwords, rfl⟩ | ⟨front, slash, tail, w, rfl, hfront, hslash, htail, hwords,
    hw, rfl⟩
  · rw [List.splitOnP_eq_singleton hslash.isSlash, List.map_singleton, words_iff.mp hwords]
    rfl
  · rw [List.splitOnP_append_cons_of_forall_mem hfront.isSlash _ hslash,
      List.splitOnP_eq_singleton htail.isSlash, List.map_cons, List.map_singleton,
      words_iff.mp hwords, words_iff.mp hw]
    rfl

/-- The inside has the given channels and opacity, and no others. -/
structure Layout (body r g b : List Component) (alpha : Option (List Component)) : Prop where
  /-- It has them. -/
  exists_channels : ∃ x y z a, Channels body x y z a ∧
    List.Forall₂ Resembles ([x, y, z] ++ a.toList) ([r, g, b] ++ alpha.toList)
  /-- It has no others, unless these have commas. -/
  resembles : ∀ {x y z : List Component} {a : Option (List Component)}, Channels body x y z a →
    (∀ piece ∈ [x, y, z] ++ a.toList, ∀ c ∈ piece, isToken .comma c = false) →
    List.Forall₂ Resembles ([x, y, z] ++ a.toList) ([r, g, b] ++ alpha.toList)

variable {r g b : List Component} {alpha : Option (List Component)}

/-- Pieces of which each `Resembles` one of three channels and perhaps an opacity are as many. -/
theorem exists_of_resembles {pieces : List (List Component)}
    (h : List.Forall₂ Resembles pieces ([r, g, b] ++ alpha.toList)) :
    ∃ x y z a, pieces = [x, y, z] ++ Option.toList a := by
  obtain ⟨x, _, -, hx, rfl⟩ := List.forall₂_cons_right_iff.mp h
  obtain ⟨y, _, -, hy, rfl⟩ := List.forall₂_cons_right_iff.mp hx
  obtain ⟨z, _, -, hz, rfl⟩ := List.forall₂_cons_right_iff.mp hy
  cases alpha with
  | none =>
    obtain rfl := List.forall₂_nil_right_iff.mp hz
    exact ⟨x, y, z, none, rfl⟩
  | some alpha =>
    obtain ⟨w, _, -, hw, rfl⟩ := List.forall₂_cons_right_iff.mp hz
    obtain rfl := List.forall₂_nil_right_iff.mp hw
    exact ⟨x, y, z, some w, rfl⟩

/-- If commas leave channels and an opacity, these are all that the inside has: it has the `Layout`.
-/
theorem layout_of_splitOnP (h : List.Forall₂ Resembles (body.splitOnP (isToken .comma))
    ([r, g, b] ++ alpha.toList)) : Layout body r g b alpha := by
  constructor
  · obtain ⟨x, y, z, a, hsplit⟩ := exists_of_resembles h
    rw [hsplit] at h
    refine ⟨x, y, z, a, .of_splitOnP hsplit fun piece hpiece c hc => ?_, h⟩
    exact Bool.eq_false_iff.mp (forall_isToken_eq_false h (by simp) piece hpiece c hc)
  · intro x y z a hchannels hcomma
    rcases hchannels.cases_of_comma hcomma with ⟨hsplit, -⟩ | ⟨hnone, -⟩
    · rwa [hsplit] at h
    · -- Without a comma there would be a single piece.
      rw [List.splitOnP_eq_singleton hnone] at h
      cases h with
      | cons _ h => cases h

/-- Without commas, channels that are `Spaced` are all that the inside has. -/
theorem layout_of_spaced (hspaced : Spaced body x y z a)
    (hcomma : ∀ c ∈ body, isToken .comma c = false)
    (h : List.Forall₂ Resembles ([x, y, z] ++ a.toList) ([r, g, b] ++ alpha.toList)) :
    Layout body r g b alpha := by
  refine ⟨⟨x, y, z, a, hspaced.channels, h⟩, ?_⟩
  intro x' y' z' a' hchannels hcommas
  rcases hchannels.cases_of_comma hcommas with ⟨hsplit, -⟩ | ⟨-, hspaced'⟩
  · rw [List.splitOnP_eq_singleton hcomma] at hsplit
    cases hsplit
  · -- The words that slashes leave are the same.
    obtain ⟨hxyz, ha⟩ := List.cons.inj (hspaced.map_words.symm.trans (Spaced.map_words hspaced'))
    rwa [← hxyz, ← List.map_injective_iff.mpr (fun _ _ => List.singleton_inj.mp) ha]

theorem opacity_iff_of_resembles {e : Expr Float}
    (h : List.Forall₂ Resembles a.toList alpha.toList) : Opacity a e ↔ Opacity alpha e := by
  cases a with
  | none =>
    cases alpha with
    | none => rfl
    | some alpha => cases h
  | some a =>
    cases alpha with
    | none => cases h
    | some alpha =>
      rw [opacity_some_iff, opacity_some_iff]
      exact (List.forall₂_cons.mp h).1.channel_iff

/-- Channels and an opacity have no commas outside of blocks. -/
theorem forall_comma_eq_false {p q s : Expr Float → Expr Float → Prop} {c d e o : Expr Float}
    (hx : Channel p x c) (hy : Channel q y d) (hz : Channel s z e) (ha : Opacity a o) :
    ∀ piece ∈ [x, y, z] ++ a.toList, ∀ c ∈ piece, isToken .comma c = false := by
  have hopacity : ∀ piece ∈ a.toList, ∀ c ∈ piece, isToken .comma c = false := by
    cases ha with
    | full => simp
    | written h => simpa using (phrase_channel _ _).comma _ h
  refine List.forall_mem_append.mpr ⟨?_, hopacity⟩
  simp only [List.forall_mem_cons, List.not_mem_nil, false_imp_iff, implies_true, and_true]
  exact ⟨(phrase_channel _ _).comma x hx, (phrase_channel _ _).comma y hy,
    (phrase_channel _ _).comma z hz⟩

/-- Channels of one inside are channels of another one with the same `Layout`. -/
theorem Layout.exists_channels_of_channels {body' : List Component}
    {p q s : Expr Float → Expr Float → Prop} {c d e o : Expr Float} (h : Layout body r g b alpha)
    (h' : Layout body' r g b alpha) (hchannels : Channels body x y z a) (hx : Channel p x c)
    (hy : Channel q y d) (hz : Channel s z e) (ha : Opacity a o) :
    ∃ x' y' z' a', Channels body' x' y' z' a' ∧ Channel p x' c ∧ Channel q y' d ∧
      Channel s z' e ∧ Opacity a' o := by
  -- Both resemble the same arguments, and numbers depend on no more than that.
  have hpieces := h.resembles hchannels (forall_comma_eq_false hx hy hz ha)
  obtain ⟨x', y', z', a', hchannels', hpieces'⟩ := h'.exists_channels
  simp only [List.cons_append, List.nil_append, List.forall₂_cons] at hpieces hpieces'
  obtain ⟨hr, hg, hb, halpha⟩ := hpieces
  obtain ⟨hr', hg', hb', halpha'⟩ := hpieces'
  exact ⟨x', y', z', a', hchannels', hr'.channel_iff.mpr (hr.channel_iff.mp hx),
    hg'.channel_iff.mpr (hg.channel_iff.mp hy), hb'.channel_iff.mpr (hb.channel_iff.mp hz),
    (opacity_iff_of_resembles halpha').mpr ((opacity_iff_of_resembles halpha).mp ha)⟩

/-- Insides with the same `Layout` write the same colors. -/
theorem Layout.call {body' : List Component} {name : String} {color : Color Float}
    (h : Layout body r g b alpha) (h' : Layout body' r g b alpha)
    (hname : Composite.ofName? name = none) (hcall : Call name body color) :
    Call name body' color := by
  have hother (function : Composite) : ¬ sameIgnoringCase name function.name := by
    rw [← Composite.ofName?_eq_some_iff, hname]
    exact (Option.some_ne_none function).symm
  cases hcall with
  | rgb hrgb hchannels hred hgreen hblue halpha =>
    obtain ⟨x', y', z', a', hchannels', hred', hgreen', hblue', halpha'⟩ :=
      h.exists_channels_of_channels h' hchannels hred hgreen hblue halpha
    exact .rgb hrgb hchannels' hred' hgreen' hblue' halpha'
  | hsl hhsl hchannels hhue hsaturation hlightness halpha =>
    obtain ⟨x', y', z', a', hchannels', hhue', hsaturation', hlightness', halpha'⟩ :=
      h.exists_channels_of_channels h' hchannels hhue hsaturation hlightness halpha
    exact .hsl hhsl hchannels' hhue' hsaturation' hlightness' halpha'
  | mix hmix => exact absurd hmix (hother .mix)
  | shade hshade => exact absurd hshade (hother .shade)
  | alpha halpha => exact absurd halpha (hother .alpha)
  | lighter hlighter => exact absurd hlighter (hother .lighter)
  | darker hdarker => exact absurd hdarker (hother .darker)

end Grammar

namespace Component

open Grammar

variable {body r g b : List Component} {a : Option (List Component)}

/-- The arguments behind the first one: two with `s` in front, and perhaps one more with `t`. -/
def Separator.before {α : Type} (s t : Separator) (y z : α) (a : Option α) :
    List (Separator × α) :=
  [(s, y), (s, z)] ++ a.toList.map (t, ·)

theorem Separator.map_snd_before {α : Type} (s t : Separator) (y z : α) (a : Option α) :
    (before s t y z a).map Prod.snd = [y, z] ++ a.toList := by
  cases a <;> rfl

/-- Commas in front of all arguments that are `Joined` lay out the channels and the opacity. -/
theorem Joined.layout_commas (h : Joined body r (Separator.before .comma .comma g b a)) :
    Layout body r g b a := by
  have hsplit := h.splitOnP_comma (by simp [Separator.before])
  rw [Separator.map_snd_before] at hsplit
  exact layout_of_splitOnP hsplit

/-- So do blanks, with a slash in front of the opacity. -/
theorem Joined.layout_blanks (h : Joined body r (Separator.before .blank .slash g b a)) :
    Layout body r g b a := by
  cases a with
  | none =>
    obtain ⟨words, hwords, hresembles⟩ := h.exists_words (by simp [Separator.before])
    obtain ⟨x, y, z, rfl⟩ := List.length_eq_three.mp hresembles.length_eq
    exact layout_of_spaced (.inl ⟨noSlash_of_words hwords hresembles, hwords, rfl⟩)
      (isToken_eq_false_of_words hwords hresembles (by simp)) hresembles
  | some a =>
    obtain ⟨front, slash, tail, words, w, rfl, hwords, hslash, hw, hresembles, ha⟩ :=
      Joined.exists_words_slash h (by simp)
    obtain ⟨x, y, z, rfl⟩ := List.length_eq_three.mp hresembles.length_eq
    have hlast : List.Forall₂ Resembles [w] [a] := .cons ha .nil
    have hspaced : Spaced (front ++ slash :: tail) x y z (some w) :=
      .inr ⟨front, slash, tail, w, rfl, noSlash_of_words hwords hresembles, hslash,
        noSlash_of_words hw hlast, hwords, hw, rfl⟩
    refine layout_of_spaced hspaced ?_ (List.rel_append hresembles hlast)
    -- The slash is no comma, and neither are the words.
    refine List.forall_mem_append.mpr ⟨isToken_eq_false_of_words hwords hresembles (by simp), ?_⟩
    refine List.forall_mem_cons.mpr ⟨?_, isToken_eq_false_of_words hw hlast (by simp)⟩
    rw [Bool.eq_false_iff, Ne, isToken_iff, isToken_iff.mp hslash]
    simp

end Component

/-! ## Texts -/

namespace Color

open Component Grammar

/-- A text that is a single component is read by `parse` as the colors that the component writes. -/
theorem parse_eq_ok_iff_single {text : String} {c : Component} {color : Color Float}
    (hcontents : Lexeme.contents text.toList = c.lexemes) (hmatched : c.Matched)
    (hsolid : c.isWhitespace = false) :
    parse text = .ok color ↔ c.depth ≤ nestingLimit ∧ Single c color := by
  constructor
  · intro hparse
    rw [parse_eq_ok_iff_forest, solidLexemes_eq hcontents hmatched hsolid] at hparse
    obtain ⟨-, parts, hforest, hcolor⟩ := hparse
    -- No other components have the lexemes of the component.
    obtain ⟨hlexemes, hparts, hdepth⟩ := forest_eq_ok_iff.mp hforest
    obtain rfl : parts = [c] := by
      refine hparts.eq_of_lexemesAll_eq ⟨hmatched, trivial⟩ ?_
      rw [hlexemes, lexemesAll, lexemesAll, List.append_nil]
    rw [Segment.color_eq_ok_iff hdepth, writes_iff] at hcolor
    obtain ⟨c', htrim, hsingle⟩ := hcolor
    have hmem : c' ∈ [c] := trimWhile_subset [c] (htrim ▸ List.mem_singleton_self c')
    rw [List.mem_singleton.mp hmem] at hsingle
    rw [depthAll_le_iff, List.forall_mem_singleton] at hdepth
    exact ⟨hdepth, hsingle⟩
  · rintro ⟨hdepth, hsingle⟩
    exact parse_of_contents hcontents hmatched hdepth hsingle

/-- A text that is a `Call` and nothing else is read as the colors that the call writes. -/
theorem parse_eq_ok_iff_call {text : String} {opener closer : Lexeme} {body : List Component}
    {name : String} {color : Color Float}
    (h : Cut text.toList 0 [] [.block opener body closer])
    (hopener : opener.token = .function name) :
    parse text = .ok color ↔ depthAll body < nestingLimit ∧ Call name body color := by
  have hcontents : Lexeme.contents text.toList = (Component.block opener body closer).lexemes := by
    rw [h.contents_eq, lexemesAll, lexemesAll, List.append_nil]
  rw [parse_eq_ok_iff_single hcontents h.matched.1 rfl]
  refine and_congr_right fun _ => ⟨fun hsingle => ?_, .call hopener⟩
  cases hsingle with
  | call hopener' hcall =>
    cases hopener.symm.trans hopener'
    exact hcall

/-- A function and its arguments are a call that can be read off the text. -/
theorem exists_joined {name text : String} {first : List Char} {cs : List Component}
    {more : List (Separator × List Char)} {parts : List (Separator × List Component)}
    (hname : Scan.IsFunctionName name.toList) (hfirst : IsArgument first cs)
    (hmore : List.Forall₂ (fun x y => x.1 = y.1 ∧ IsArgument x.2 y.2) more parts)
    (htext : text.toList = name.toList ++ '(' :: (joined first more ++ [')'])) :
    ∃ body, Joined body cs parts ∧ ∀ color, parse text = .ok color ↔
      depthAll body < nestingLimit ∧ Call name body color := by
  have hseparated : Scan.Separated [')'] := ⟨')', by decide, rfl⟩
  obtain ⟨body, hcut, hjoined⟩ := exists_cut_joined hseparated hfirst hmore
    (0 + byteSize (name.toList ++ ['(']))
  obtain ⟨opener, closer, hopener, hblock⟩ := hcut.function hname
  rw [← htext] at hblock
  rw [String.ofList_toList] at hopener
  exact ⟨body, hjoined, fun color => parse_eq_ok_iff_call hblock hopener⟩

/-- The text may stand for a channel or an opacity: it is tame, and on its own it is cut into
components that are closed, with blanks, commas and slashes only inside of blocks. -/
def IsChannel (text : String) : Prop := ∃ cs, IsArgument text.toList cs

/-- Whether a text satisfies `IsChannel` can be checked by matching its brackets with `forest`. -/
theorem isChannel_of_forest {text : String} (htame : Scan.Tame text.toList)
    (h : ∃ cs ∈ (forest (Lexeme.contents text.toList)).toOption, Solid cs) : IsChannel text := by
  obtain ⟨cs, hcs, hsolid⟩ := h
  cases hforest : forest (Lexeme.contents text.toList) with
  | error e =>
    rw [hforest] at hcs
    cases hcs
  | ok parts =>
    rw [hforest] at hcs
    obtain rfl := Option.some.inj hcs
    obtain ⟨hlexemes, hmatched, -⟩ := forest_eq_ok_iff.mp hforest
    exact ⟨parts, htame, hlexemes.symm, hmatched, hsolid⟩

theorem forall₂_before {s t : Separator} {g b : List Char} {a : Option (List Char)}
    {gs bs : List Component} {as : Option (List Component)} (hg : IsArgument g gs)
    (hb : IsArgument b bs) (ha : Option.Rel IsArgument a as) :
    List.Forall₂ (fun x y => x.1 = y.1 ∧ IsArgument x.2 y.2) (Separator.before s t g b a)
      (Separator.before s t gs bs as) := by
  refine .cons ⟨rfl, hg⟩ (.cons ⟨rfl, hb⟩ ?_)
  cases ha with
  | none => exact .nil
  | some ha => exact .cons ⟨rfl, ha⟩ .nil

/-- Channels and an opacity are read by `parse` in the same way from either text. -/
theorem toOption_parse_eq {name text text' : String} {r g b : List Char} {a : Option (List Char)}
    {rs gs bs : List Component} {as : Option (List Component)}
    (hname : Scan.IsFunctionName name.toList) (hcomposite : Composite.ofName? name = none)
    (hr : IsArgument r rs) (hg : IsArgument g gs) (hb : IsArgument b bs)
    (ha : Option.Rel IsArgument a as)
    (htext : text.toList =
      name.toList ++ '(' :: (joined r (Separator.before .comma .comma g b a) ++ [')']))
    (htext' : text'.toList =
      name.toList ++ '(' :: (joined r (Separator.before .blank .slash g b a) ++ [')'])) :
    (parse text).toOption = (parse text').toOption := by
  obtain ⟨body, hjoined, hparse⟩ := exists_joined hname hr (forall₂_before hg hb ha) htext
  obtain ⟨body', hjoined', hparse'⟩ := exists_joined hname hr (forall₂_before hg hb ha) htext'
  have hdepth : depthAll body = depthAll body' :=
    hjoined.depthAll_eq hjoined' (by rw [Separator.map_snd_before, Separator.map_snd_before])
  have hcall (color : Color Float) : Call name body color ↔ Call name body' color :=
    ⟨hjoined.layout_commas.call hjoined'.layout_blanks hcomposite,
      hjoined'.layout_blanks.call hjoined.layout_commas hcomposite⟩
  -- The limit on nesting and the grammar decide, and they do not tell the two insides apart.
  have hiff (color : Color Float) : parse text = .ok color ↔ parse text' = .ok color := by
    rw [hparse, hparse', hdepth, hcall]
  cases h : parse text with
  | ok color => rw [(hiff color).mp h]
  | error e =>
    cases h' : parse text' with
    | error e' => rfl
    | ok color =>
      rw [(hiff color).mpr h'] at h
      cases h

/-- Channels between commas are read as between blanks, and an opacity behind a comma as behind a
slash: either both texts are no color, or they are the same one. -/
theorem toOption_parse_commas {f r g b : String} (hf : f ∈ ["rgb", "rgba", "hsl", "hsla"])
    (hr : IsChannel r) (hg : IsChannel g) (hb : IsChannel b) :
    (parse (f ++ "(" ++ r ++ ", " ++ g ++ ", " ++ b ++ ")")).toOption =
        (parse (f ++ "(" ++ r ++ " " ++ g ++ " " ++ b ++ ")")).toOption ∧
      ∀ a, IsChannel a →
        (parse (f ++ "(" ++ r ++ ", " ++ g ++ ", " ++ b ++ ", " ++ a ++ ")")).toOption =
          (parse (f ++ "(" ++ r ++ " " ++ g ++ " " ++ b ++ " / " ++ a ++ ")")).toOption := by
  obtain ⟨rs, hr⟩ := hr
  obtain ⟨gs, hg⟩ := hg
  obtain ⟨bs, hb⟩ := hb
  have hnames : ∀ f ∈ ["rgb", "rgba", "hsl", "hsla"],
      Scan.IsFunctionName f.toList ∧ Composite.ofName? f = none := by decide +kernel
  obtain ⟨hname, hcomposite⟩ := hnames f hf
  constructor
  · refine toOption_parse_eq hname hcomposite hr hg hb .none ?_ ?_
    · simp [joined, Separator.before, Separator.chars]
    · simp [joined, Separator.before, Separator.chars]
  · rintro a ⟨as, ha⟩
    refine toOption_parse_eq hname hcomposite hr hg hb (.some ha) ?_ ?_
    · simp [joined, Separator.before, Separator.chars]
    · simp [joined, Separator.before, Separator.chars]

/-- Signs without blanks around them, and calls with commas, blanks and slashes inside. -/
theorem toOption_parse_commas_nested :
    (parse "hsla(calc(90deg / 2), 4%+4%, min(10%, 20%), var(--a, 1 / 2))").toOption =
      (parse "hsla(calc(90deg / 2) 4%+4% min(10%, 20%) / var(--a, 1 / 2))").toOption ∧
    (parse "hsla(calc(90deg / 2), 4%+4%, min(10%, 20%), var(--a, 1 / 2))").toOption.isSome := by
  have hchannels : ∀ text ∈ ["calc(90deg / 2)", "4%+4%", "min(10%, 20%)", "var(--a, 1 / 2)"],
      IsChannel text := by
    intro text htext
    refine isChannel_of_forest ?_ ?_
    · revert text
      decide +kernel
    · revert text
      decide +kernel
  refine ⟨?_, by decide +kernel⟩
  have h := (@toOption_parse_commas "hsla" "calc(90deg / 2)" "4%+4%" "min(10%, 20%)" (by decide)
    (hchannels _ (by decide)) (hchannels _ (by decide)) (hchannels _ (by decide))).2
    "var(--a, 1 / 2)" (hchannels _ (by decide))
  simpa using h

end Color

end ThemeColor
