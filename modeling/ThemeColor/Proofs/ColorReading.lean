import ThemeColor.Proofs.ChannelReading

/-!
# Reading colors

A text is read as a color exactly if the grammar of color expressions derives the color from it.

Reading goes down the blocks of the text with a bound on how deep they may nest. The bound is
greater than the depth that matched brackets may have, so it is never the reason for an error, and
by induction on it what is read is what the grammar writes.

## Main results

* `ColorGrammar.read_eq_ok_iff`: components that do not nest too deep are read as a color exactly if
  they write it;
* `Color.parse_eq_ok_iff`: the same for a whole text.
-/

namespace ThemeColor

open Component Text Grammar Segment

/-! ## Digits and names -/

/-- Digits are read by `Hex.read?` exactly if they write the color, as `HexColor` says. -/
theorem Hex.read?_eq_some_iff {value : String} {color : Rgb Float} :
    read? value = some color ↔ HexColor value.toList color := by
  rw [read?]
  generalize value.toList = digits
  constructor
  · intro h
    split at h
    · rename_i hdigits
      obtain ⟨bytes, hbytes, hcolor⟩ := Option.bind_eq_some_iff.mp h
      unfold readBytes at hbytes
      split at hbytes <;> cases hbytes <;> cases hcolor
      · exact .three hdigits
      · exact .four hdigits
      · exact .six hdigits
      · exact .eight hdigits
    · cases h
  · intro h
    cases h with
    | three hdigits | four hdigits | six hdigits | eight hdigits =>
      rw [if_pos hdigits]
      rfl

/-- A name is taken by `keyword` for the color that `Keyword` says it writes. -/
theorem ColorGrammar.keyword_eq_iff {name : String} {color : Color Float} :
    keyword name = color ↔ Keyword name color := by
  unfold keyword
  constructor
  · rintro rfl
    split
    · exact .current ‹_›
    · split
      · exact .inherit ‹_›
      · exact .named ‹_› ‹_›
  · intro h
    cases h with
    | current h => rw [if_pos h]
    | inherit h =>
      rw [if_neg, if_pos h]
      rw [sameIgnoringCase_iff (asciiLower_eq_self (by decide))] at h ⊢
      rw [h]
      decide
    | named hcurrent hinherit => rw [if_neg hcurrent, if_neg hinherit]

/-- The name of a `Composite` is in lower case. -/
theorem Composite.asciiLower_name (function : Composite) :
    asciiLower function.name = function.name := by
  cases function <;> exact asciiLower_eq_self (by decide)

/-- A name names the function that `Composite.ofName?` finds, in any case. -/
theorem Composite.ofName?_eq_some_iff {name : String} {function : Composite} :
    ofName? name = some function ↔ sameIgnoringCase name function.name := by
  rw [sameIgnoringCase_iff function.asciiLower_name, ofName?]
  constructor
  · intro h
    split at h <;> cases h <;> assumption
  · intro h
    rw [h]
    cases function <;> rfl

/-! ## Colors as phrases -/

namespace Grammar

variable {cs : List Component} {c : Component} {color : Color Float}

/-- A `Single` component that writes a color is a block or a token of its own. -/
theorem Single.token?_eq (h : Single c color) {t : Token} (ht : c.token? = some t) :
    (∃ digits, t = .hash digits) ∨ (∃ name, t = .atKeyword name) ∨ ∃ name, t = .ident name := by
  cases h with
  | hash hl => exact .inl ⟨_, (Option.some.inj ht).symm.trans hl⟩
  | defined hl => exact .inr (.inl ⟨_, (Option.some.inj ht).symm.trans hl⟩)
  | name hl => exact .inr (.inr ⟨_, (Option.some.inj ht).symm.trans hl⟩)
  | call => cases ht

theorem Single.isWhitespace (h : Single c color) : c.isWhitespace = false := by
  rw [Bool.eq_false_iff, Ne, isWhitespace_iff]
  intro ht
  rcases h.token?_eq ht with ⟨_, h⟩ | ⟨_, h⟩ | ⟨_, h⟩ <;> cases h

theorem Single.isToken_comma (h : Single c color) : isToken .comma c = false := by
  rw [Bool.eq_false_iff, Ne, isToken_iff]
  intro ht
  rcases h.token?_eq ht with ⟨_, h⟩ | ⟨_, h⟩ | ⟨_, h⟩ <;> cases h

/-- Without its blank ends a color that `Writes` says is written is a `Single` component. -/
theorem writes_iff : Writes cs color ↔ ∃ c, trimWhile isWhitespace cs = [c] ∧ Single c color := by
  constructor
  · intro h
    cases h with
    | padded hbefore hcolor hafter =>
      rename_i c
      refine ⟨c, ?_, hcolor⟩
      have happend := trimWhile_append_right hafter [c]
      rw [List.singleton_append] at happend
      -- Trimming stops at the component from both sides, because it is not blank.
      rw [trimWhile_append_left hbefore, happend, trimWhile, List.dropWhile_cons_of_neg]
      · simp [dropEndWhile, hcolor.isWhitespace]
      · simp [hcolor.isWhitespace]
  · rintro ⟨c, htrim, hcolor⟩
    obtain ⟨before, after, hcs, hbefore, hafter⟩ := exists_eq_trimWhile isWhitespace cs
    rw [hcs, htrim]
    exact .padded hbefore hcolor hafter

/-- A color may be written as an argument: what `Writes` it is a `Phrase`. -/
theorem phrase_writes (color : Color Float) : Phrase (Writes · color) where
  trim cs := by rw [writes_iff, writes_iff, trimWhile_idem]
  comma cs h := by
    cases h with
    | padded hbefore hcolor hafter =>
      have hblank {b : List Component} (hb : Blank b) : ∀ c ∈ b, isToken .comma c = false :=
        fun c hc => isToken_of_isWhitespace (hb c hc) rfl
      exact List.forall_mem_append.mpr
        ⟨hblank hbefore, List.forall_mem_cons.mpr ⟨hcolor.isToken_comma, hblank hafter⟩⟩
  solid cs h := by
    cases h with
    | padded hbefore hcolor hafter =>
      intro hblank
      have := hblank _ (List.mem_append_right _ List.mem_cons_self)
      rw [hcolor.isWhitespace] at this
      cases this

end Grammar

/-! ## Arguments that are phrases -/

namespace Segment

variable {P Q R : List Component → Prop} {inside : Segment}

/-- A property of components that makes them a phrase. -/
abbrev PhraseProp := { P : List Component → Prop // Phrase P }

/-- Arguments of which each is a `Phrase` of its own are the pieces between commas. -/
theorem phrases_iff (inside : Segment) (props : List PhraseProp) (hne : props ≠ []) :
    (∃ args, inside.arguments = .ok args ∧
        List.Forall₂ (fun (arg : Segment) (P : PhraseProp) => P.1 arg.parts) args props) ↔
      List.Forall₂ (fun cs (P : PhraseProp) => P.1 cs) (inside.parts.splitOnP (isToken .comma))
        props :=
  arguments_iff (R := fun cs (P : PhraseProp) => P.1 cs) (fun P => P.2) hne

/-- A single argument that is a `Phrase` is all of the inside. -/
theorem one_argument_iff (hP : Phrase P) :
    (∃ x, inside.arguments = .ok [x] ∧ P x.parts) ↔ P inside.parts := by
  have h := phrases_iff inside [⟨P, hP⟩] (by simp)
  simp only [List.forall₂_cons_right_iff, List.forall₂_nil_right_iff] at h
  constructor
  · rintro ⟨x, hargs, hx⟩
    obtain ⟨cs, _, hcs, rfl, hsplit⟩ := h.mp ⟨[x], hargs, x, [], hx, rfl, rfl⟩
    rwa [(splitOnP_eq_singleton_iff.mp hsplit).1]
  · intro hP'
    have hsplit := List.splitOnP_eq_singleton (hP.comma _ hP')
    obtain ⟨args, hargs, x, _, hx, rfl, rfl⟩ := h.mpr ⟨_, _, hP', rfl, hsplit⟩
    exact ⟨x, hargs, hx⟩

/-- Two arguments of which each is a `Phrase` have a comma between them. -/
theorem two_arguments_iff (hP : Phrase P) (hQ : Phrase Q) :
    (∃ x y, inside.arguments = .ok [x, y] ∧ P x.parts ∧ Q y.parts) ↔
      ∃ x s y, inside.parts = x ++ s :: y ∧ isToken .comma s ∧ P x ∧ Q y := by
  have h := phrases_iff inside [⟨P, hP⟩, ⟨Q, hQ⟩] (by simp)
  simp only [List.forall₂_cons_right_iff, List.forall₂_nil_right_iff] at h
  constructor
  · rintro ⟨x, y, hargs, hx, hy⟩
    obtain ⟨cs, _, hcs, ⟨cs', _, hcs', rfl, rfl⟩, hsplit⟩ :=
      h.mp ⟨_, hargs, x, _, hx, ⟨y, _, hy, rfl, rfl⟩, rfl⟩
    obtain ⟨s, rest, hparts, hs, -, hrest⟩ := splitOnP_eq_cons_cons_iff.mp hsplit
    obtain ⟨rfl, -⟩ := splitOnP_eq_singleton_iff.mp hrest
    exact ⟨cs, s, rest, hparts, hs, hcs, hcs'⟩
  · rintro ⟨x, s, y, hparts, hs, hx, hy⟩
    have hsplit : inside.parts.splitOnP (isToken .comma) = [x, y] :=
      splitOnP_eq_cons_cons_iff.mpr ⟨s, y, hparts, hs, hP.comma x hx,
        List.splitOnP_eq_singleton (hQ.comma y hy)⟩
    obtain ⟨args, hargs, a, _, ha, ⟨b, _, hb, rfl, rfl⟩, rfl⟩ :=
      h.mpr ⟨x, _, hx, ⟨y, _, hy, rfl, rfl⟩, hsplit⟩
    exact ⟨a, b, hargs, ha, hb⟩

/-- Three arguments of which each is a `Phrase` have commas between them. -/
theorem three_arguments_iff (hP : Phrase P) (hQ : Phrase Q) (hR : Phrase R) :
    (∃ x y z, inside.arguments = .ok [x, y, z] ∧ P x.parts ∧ Q y.parts ∧ R z.parts) ↔
      ∃ x s y t z, inside.parts = x ++ s :: (y ++ t :: z) ∧ isToken .comma s ∧ isToken .comma t ∧
        P x ∧ Q y ∧ R z := by
  have h := phrases_iff inside [⟨P, hP⟩, ⟨Q, hQ⟩, ⟨R, hR⟩] (by simp)
  simp only [List.forall₂_cons_right_iff, List.forall₂_nil_right_iff] at h
  constructor
  · rintro ⟨x, y, z, hargs, hx, hy, hz⟩
    obtain ⟨cs, _, hcs, ⟨cs', _, hcs', ⟨cs'', _, hcs'', rfl, rfl⟩, rfl⟩, hsplit⟩ :=
      h.mp ⟨_, hargs, x, _, hx, ⟨y, _, hy, ⟨z, _, hz, rfl, rfl⟩, rfl⟩, rfl⟩
    obtain ⟨s, rest, hparts, hs, -, hrest⟩ := splitOnP_eq_cons_cons_iff.mp hsplit
    obtain ⟨t, rest, rfl, ht, -, hrest⟩ := splitOnP_eq_cons_cons_iff.mp hrest
    obtain ⟨rfl, -⟩ := splitOnP_eq_singleton_iff.mp hrest
    exact ⟨cs, s, cs', t, rest, hparts, hs, ht, hcs, hcs', hcs''⟩
  · rintro ⟨x, s, y, t, z, hparts, hs, ht, hx, hy, hz⟩
    have hsplit : inside.parts.splitOnP (isToken .comma) = [x, y, z] :=
      splitOnP_eq_cons_cons_iff.mpr ⟨s, _, hparts, hs, hP.comma x hx,
        splitOnP_eq_cons_cons_iff.mpr ⟨t, z, rfl, ht, hQ.comma y hy,
          List.splitOnP_eq_singleton (hR.comma z hz)⟩⟩
    obtain ⟨args, hargs, a, _, ha, ⟨b, _, hb, ⟨c, _, hc, rfl, rfl⟩, rfl⟩, rfl⟩ :=
      h.mpr ⟨x, _, hx, ⟨y, _, hy, ⟨z, _, hz, rfl, rfl⟩, rfl⟩, hsplit⟩
    exact ⟨a, b, c, hargs, ha, hb, hc⟩

end Segment

/-! ## Functions -/

namespace ColorGrammar

variable {levels : Nat}

/-- A token is read by `token` exactly if it is a `Single` component that writes the color. -/
theorem token_eq_ok_iff {l : Lexeme} {c : Color Float} :
    token l = .ok c ↔ Single (.token l) c := by
  unfold token
  constructor
  · intro h
    split at h
    · rename_i value hl
      split at h
      · rename_i color hcolor
        cases h
        exact .hash hl (Hex.read?_eq_some_iff.mp hcolor)
      · cases h
    · rename_i name hl
      cases h
      exact .defined hl
    · rename_i name hl
      cases h
      exact .name hl (keyword_eq_iff.mp rfl)
    · cases h
  · intro h
    cases h with
    | hash hl hcolor =>
      rw [hl]
      dsimp only
      rw [Hex.read?_eq_some_iff.mpr hcolor]
    | defined hl => rw [hl]
    | name hl hcolor =>
      rw [hl]
      dsimp only
      rw [keyword_eq_iff.mpr hcolor]

section Composite

variable {color : Segment → Except ColorError (Color Float)} {opener : Lexeme} {name : String}
  {inside : Segment} {c a b : Color Float} {factor : Expr Float} {function : Composite}

theorem depthAll_of_arguments (hinside : depthAll inside.parts < levels) {args : List Segment}
    (hargs : inside.arguments = .ok args) : ∀ arg ∈ args, depthAll arg.parts < levels := by
  have hle : inside.All fun c => c.depth ≤ depthAll inside.parts :=
    fun c hc => depth_le_depthAll hc
  exact fun arg harg =>
    Nat.lt_of_le_of_lt (depthAll_le_iff.mpr (hle.arguments hargs arg harg)) hinside

variable (hcolor : ∀ s c, depthAll s.parts < levels → (color s = .ok c ↔ Writes s.parts c))
  (hinside : depthAll inside.parts < levels)

include hcolor hinside

/-- A color as the only argument, which `Writes` relates to the inside. -/
theorem color_argument_iff :
    (∃ x, inside.arguments = .ok [x] ∧ color x = .ok a) ↔ Writes inside.parts a := by
  rw [← one_argument_iff (phrase_writes a)]
  refine exists_congr fun x => and_congr_right fun hargs => hcolor x a ?_
  exact depthAll_of_arguments hinside hargs x (by simp)

/-- A color and a factor as arguments, with `Writes` and `Number` for their pieces. -/
theorem color_factor_arguments_iff :
    (∃ x y, inside.arguments = .ok [x, y] ∧ color x = .ok a ∧ y.number levels = .ok factor) ↔
      ∃ x s y, inside.parts = x ++ s :: y ∧ isToken .comma s ∧ Writes x a ∧ Number y factor := by
  rw [← two_arguments_iff (phrase_writes a) (phrase_number factor)]
  refine exists_congr fun x => exists_congr fun y => and_congr_right fun hargs => ?_
  have hdepth := depthAll_of_arguments hinside hargs
  rw [hcolor x a (hdepth x (by simp)), number_eq_ok_iff (hdepth y (by simp))]

/-- Two colors and a factor as arguments, with `Writes` and `Number` for their pieces. -/
theorem colors_factor_arguments_iff :
    (∃ x y z, inside.arguments = .ok [x, y, z] ∧ color x = .ok a ∧ color y = .ok b ∧
        z.number levels = .ok factor) ↔
      ∃ x s y t z, inside.parts = x ++ s :: (y ++ t :: z) ∧ isToken .comma s ∧ isToken .comma t ∧
        Writes x a ∧ Writes y b ∧ Number z factor := by
  rw [← three_arguments_iff (phrase_writes a) (phrase_writes b) (phrase_number factor)]
  refine exists_congr fun x => exists_congr fun y => exists_congr fun z =>
    and_congr_right fun hargs => ?_
  have hdepth := depthAll_of_arguments hinside hargs
  rw [hcolor x a (hdepth x (by simp)), hcolor y b (hdepth y (by simp)),
    number_eq_ok_iff (hdepth z (by simp))]

/-- What `composite` reads is a `Call` that writes the color. -/
theorem call_of_composite (hname : sameIgnoringCase name function.name)
    (h : composite color levels function opener name inside = .ok c) :
    Call name inside.parts c := by
  obtain ⟨args, hargs, h⟩ := exists_of_bind_eq_ok h
  cases function with
  | mix =>
    dsimp only at h
    split at h
    · rename_i x y z
      obtain ⟨a, ha, h⟩ := exists_of_bind_eq_ok h
      obtain ⟨b, hb, h⟩ := exists_of_bind_eq_ok h
      obtain ⟨factor, hfactor, h⟩ := exists_of_bind_eq_ok h
      cases h
      obtain ⟨x, s, y, t, z, hparts, hs, ht, hx, hy, hz⟩ :=
        (colors_factor_arguments_iff hcolor hinside).mp ⟨x, y, z, hargs, ha, hb, hfactor⟩
      rw [hparts]
      exact .mix hname hx hs hy ht hz
    · cases h
  | shade | alpha =>
    dsimp only at h
    split at h
    · rename_i x y
      obtain ⟨a, ha, h⟩ := exists_of_bind_eq_ok h
      obtain ⟨factor, hfactor, h⟩ := exists_of_bind_eq_ok h
      cases h
      obtain ⟨x, s, y, hparts, hs, hx, hy⟩ :=
        (color_factor_arguments_iff hcolor hinside).mp ⟨x, y, hargs, ha, hfactor⟩
      rw [hparts]
      first
      | exact .shade hname hx hs hy
      | exact .alpha hname hx hs hy
    · cases h
  | lighter | darker =>
    dsimp only at h
    split at h
    · obtain ⟨a, ha, rfl⟩ := exists_of_map_eq_ok h
      have hbody := (color_argument_iff hcolor hinside).mp ⟨_, hargs, ha⟩
      first
      | exact .lighter hname hbody
      | exact .darker hname hbody
    · cases h

/-- A function is read by `composite` exactly if its `Call` writes the color, provided that this is
so for the colors inside. -/
theorem composite_eq_ok_iff (hname : Composite.ofName? name = some function) :
    composite color levels function opener name inside = .ok c ↔ Call name inside.parts c := by
  refine ⟨call_of_composite hcolor hinside (Composite.ofName?_eq_some_iff.mp hname), fun h => ?_⟩
  -- A name belongs to one function only, and not to any of the others.
  have hfunction {f : Composite} (h : sameIgnoringCase name f.name) : function = f :=
    Option.some.inj (hname.symm.trans (Composite.ofName?_eq_some_iff.mpr h))
  have hother {s : String} (hs : ∀ c ∈ s.toList, c.toLower = c)
      (hne : ∀ f : Composite, s ≠ f.name) : ¬ sameIgnoringCase name s := by
    intro h
    have hsame := Composite.ofName?_eq_some_iff.mp hname
    rw [sameIgnoringCase_iff (asciiLower_eq_self hs)] at h
    rw [sameIgnoringCase_iff function.asciiLower_name, h] at hsame
    exact hne function hsame
  generalize hbody : inside.parts = body at h
  cases h with
  | rgb hrgb =>
    rcases hrgb with h | h
    · exact absurd h (hother (by decide) (by rintro (_ | _) <;> decide))
    · exact absurd h (hother (by decide) (by rintro (_ | _) <;> decide))
  | hsl hhsl =>
    rcases hhsl with h | h
    · exact absurd h (hother (by decide) (by rintro (_ | _) <;> decide))
    · exact absurd h (hother (by decide) (by rintro (_ | _) <;> decide))
  | mix hmix hx hs hy ht hz =>
    cases hfunction (f := .mix) hmix
    obtain ⟨x, y, z, hargs, hx, hy, hz⟩ :=
      (colors_factor_arguments_iff hcolor hinside).mpr ⟨_, _, _, _, _, hbody, hs, ht, hx, hy, hz⟩
    refine bind_eq_ok_iff.mpr ⟨_, hargs, bind_eq_ok_iff.mpr ⟨_, hx, ?_⟩⟩
    exact bind_eq_ok_iff.mpr ⟨_, hy, bind_eq_ok_iff.mpr ⟨_, hz, rfl⟩⟩
  | shade hshade hx hs hy =>
    cases hfunction (f := .shade) hshade
    obtain ⟨x, y, hargs, hx, hy⟩ :=
      (color_factor_arguments_iff hcolor hinside).mpr ⟨_, _, _, hbody, hs, hx, hy⟩
    refine bind_eq_ok_iff.mpr ⟨_, hargs, bind_eq_ok_iff.mpr ⟨_, hx, ?_⟩⟩
    exact bind_eq_ok_iff.mpr ⟨_, hy, rfl⟩
  | alpha halpha hx hs hy =>
    cases hfunction (f := .alpha) halpha
    obtain ⟨x, y, hargs, hx, hy⟩ :=
      (color_factor_arguments_iff hcolor hinside).mpr ⟨_, _, _, hbody, hs, hx, hy⟩
    refine bind_eq_ok_iff.mpr ⟨_, hargs, bind_eq_ok_iff.mpr ⟨_, hx, ?_⟩⟩
    exact bind_eq_ok_iff.mpr ⟨_, hy, rfl⟩
  | lighter hlighter hx =>
    cases hfunction (f := .lighter) hlighter
    subst hbody
    obtain ⟨x, hargs, hx⟩ := (color_argument_iff hcolor hinside).mpr hx
    exact bind_eq_ok_iff.mpr ⟨_, hargs, map_eq_ok_iff.mpr ⟨_, hx, rfl⟩⟩
  | darker hdarker hx =>
    cases hfunction (f := .darker) hdarker
    subst hbody
    obtain ⟨x, hargs, hx⟩ := (color_argument_iff hcolor hinside).mpr hx
    exact bind_eq_ok_iff.mpr ⟨_, hargs, map_eq_ok_iff.mpr ⟨_, hx, rfl⟩⟩

end Composite

/-- What `rgb` reads is a `Call` that writes the color. -/
theorem call_of_rgb {opener : Lexeme} {name : String} {inside : Segment} {c : Color Float}
    (hinside : depthAll inside.parts < levels)
    (hname : sameIgnoringCase name "rgb" ∨ sameIgnoringCase name "rgba")
    (h : rgb levels opener name inside = .ok c) : Call name inside.parts c := by
  obtain ⟨c, x, y, z, a, rfl, hbody, hred, hgreen, hblue, ha⟩ := (rgb_eq_ok_iff hinside).mp h
  exact .rgb hname hbody hred hgreen hblue ha

/-- What `hsl` reads is a `Call` that writes the color. -/
theorem call_of_hsl {opener : Lexeme} {name : String} {inside : Segment} {c : Color Float}
    (hinside : depthAll inside.parts < levels)
    (hname : sameIgnoringCase name "hsl" ∨ sameIgnoringCase name "hsla")
    (h : hsl levels opener name inside = .ok c) : Call name inside.parts c := by
  obtain ⟨c, x, y, z, a, rfl, hbody, hhue, hsat, hlight, ha⟩ := (hsl_eq_ok_iff hinside).mp h
  exact .hsl hname hbody hhue hsat hlight ha

/-- The call of a function is read exactly if its `Call` writes the color, provided that this is so
for the colors inside. -/
theorem call_iff {body : List Component} {opener closer : Lexeme} {name : String} {c : Color Float}
    (hcolor : ∀ s c, depthAll s.parts < levels → (read levels s = .ok c ↔ Writes s.parts c))
    (hbody : depthAll body < levels) :
    (match asciiLower name with
      | "rgb" | "rgba" => rgb levels opener name ⟨body, closer.start⟩
      | "hsl" | "hsla" => hsl levels opener name ⟨body, closer.start⟩
      | _ =>
        match Composite.ofName? name with
        | some function =>
          composite (read levels) levels function opener name ⟨body, closer.start⟩
        | none => .error (.malformed opener.start (.unknownFunction name))) = .ok c ↔
      Call name body c := by
  cases hname : Composite.ofName? name with
  | some function =>
    -- The name of a composite function is none of the names that are tried before.
    have hlower := (sameIgnoringCase_iff function.asciiLower_name).mp
      (Composite.ofName?_eq_some_iff.mp hname)
    have hcall : composite (read levels) levels function opener name ⟨body, closer.start⟩ = .ok c ↔
        Call name body c := composite_eq_ok_iff hcolor hbody hname
    rw [hlower, ← hcall]
    cases function <;> rfl
  | none =>
    have hother (f : Composite) : ¬ sameIgnoringCase name f.name := by
      rw [← Composite.ofName?_eq_some_iff, hname]
      nofun
    have hsame {s : String} (hs : ∀ c ∈ s.toList, c.toLower = c) :
        sameIgnoringCase name s ↔ asciiLower name = s :=
      sameIgnoringCase_iff (asciiLower_eq_self hs)
    constructor
    · intro h
      split at h
      · rename_i hlower
        exact call_of_rgb hbody (.inl ((hsame (by decide)).mpr hlower)) h
      · rename_i hlower
        exact call_of_rgb hbody (.inr ((hsame (by decide)).mpr hlower)) h
      · rename_i hlower
        exact call_of_hsl hbody (.inl ((hsame (by decide)).mpr hlower)) h
      · rename_i hlower
        exact call_of_hsl hbody (.inr ((hsame (by decide)).mpr hlower)) h
      · cases h
    · intro h
      cases h with
      | @rgb _ _ _ _ _ _ color hname hchannels hred hgreen hblue ha =>
        have hread : rgb levels opener name ⟨body, closer.start⟩ = .ok (.rgb color) :=
          (rgb_eq_ok_iff hbody).mpr ⟨_, _, _, _, _, rfl, hchannels, hred, hgreen, hblue, ha⟩
        rcases hname with hname | hname
        · rw [(hsame (by decide)).mp hname]
          exact hread
        · rw [(hsame (by decide)).mp hname]
          exact hread
      | @hsl _ _ _ _ _ _ color hname hchannels hhue hsat hlight ha =>
        have hread : hsl levels opener name ⟨body, closer.start⟩ = .ok (.hsl color) :=
          (hsl_eq_ok_iff hbody).mpr ⟨_, _, _, _, _, rfl, hchannels, hhue, hsat, hlight, ha⟩
        rcases hname with hname | hname
        · rw [(hsame (by decide)).mp hname]
          exact hread
        · rw [(hsame (by decide)).mp hname]
          exact hread
      | mix hmix => exact absurd hmix (hother .mix)
      | shade hshade => exact absurd hshade (hother .shade)
      | alpha halpha => exact absurd halpha (hother .alpha)
      | lighter hlighter => exact absurd hlighter (hother .lighter)
      | darker hdarker => exact absurd hdarker (hother .darker)

/-- Components that do not nest too deep are read by `read` exactly if they write the color, as
`Writes` says. -/
theorem read_eq_ok_iff {segment : Segment} {c : Color Float} (h : depthAll segment.parts < levels) :
    read levels segment = .ok c ↔ Writes segment.parts c := by
  induction levels generalizing segment c with
  | zero => omega
  | succ levels ih =>
    rw [writes_iff, ← parts_trim, read]
    dsimp only
    split
    · rename_i hnil
      rw [hnil]
      simp
    · rename_i l hl
      rw [hl]
      simp [token_eq_ok_iff]
    · rename_i opener body closer hblock
      -- The body nests one level less, which is what the levels that are left allow.
      have hmem : Component.block opener body closer ∈ segment.parts :=
        trimWhile_subset _ (by rw [← parts_trim, hblock]; exact List.mem_singleton_self _)
      have hbody := Nat.lt_of_le_of_lt (depth_le_depthAll hmem) h
      rw [depth, Nat.add_lt_add_iff_right] at hbody
      rw [hblock]
      simp only [List.cons.injEq, and_true, exists_eq_left']
      split
      · rename_i name hopener
        refine (call_iff (fun s c hs => ih hs) hbody).trans ⟨.call hopener, fun hsingle => ?_⟩
        cases hsingle with
        | call hopener' hcall =>
          cases hopener.symm.trans hopener'
          exact hcall
      · rename_i hopener
        constructor
        · intro hok
          cases hok
        · intro hsingle
          cases hsingle with
          | call hopener' => exact absurd hopener' (hopener _)
    · -- More than one component is left, and a color is a single one.
      rename_i first rest hone hblock hparts
      constructor
      · intro hok
        cases hok
      · rintro ⟨c', heq, -⟩
        obtain ⟨rfl, rfl⟩ := List.cons.inj (hparts.symm.trans heq)
        cases first with
        | token l => exact (hone l rfl rfl).elim
        | block opener body closer => exact (hblock opener body closer rfl rfl).elim

end ColorGrammar

/-! ## Texts -/

/-- A color that nests no deeper than the `nestingLimit` is read exactly if its components write it.
-/
theorem Segment.color_eq_ok_iff {segment : Segment} {c : Color Float}
    (h : depthAll segment.parts ≤ nestingLimit) : segment.color = .ok c ↔ Writes segment.parts c :=
  ColorGrammar.read_eq_ok_iff (Nat.lt_succ_of_le h)

namespace Color

variable {text : String} {c : Color Float}

/-- The lexemes of a text without blank ends. -/
def solidLexemes (text : String) : List Lexeme :=
  trimWhile (·.token.isWhitespace) (Lexeme.contents text.toList)

/-- A text is read by `parse` if it is not blank, its brackets are matched by `forest`, and its
components are read. -/
theorem parse_eq_ok_iff_forest :
    parse text = .ok c ↔ solidLexemes text ≠ [] ∧
      ∃ parts, forest (solidLexemes text) = .ok parts ∧
        Segment.color ⟨parts, byteSize text.toList⟩ = .ok c := by
  unfold parse
  rw [← solidLexemes]
  dsimp only
  split
  · rename_i hempty
    rw [List.isEmpty_iff] at hempty
    exact ⟨nofun, fun h => absurd hempty h.1⟩
  · rename_i hempty
    rw [List.isEmpty_iff] at hempty
    rw [and_iff_right hempty]
    exact bind_eq_ok_iff

/-- A text is read as a color exactly if it is not blank, its brackets match and nest at most 64
levels deep, its quoted texts are closed, and its components write the color. -/
theorem parse_eq_ok_iff :
    parse text = .ok c ↔ solidLexemes text ≠ [] ∧
      ∃ parts, Bracketed 64 (solidLexemes text) parts ∧ Writes parts c := by
  rw [parse_eq_ok_iff_forest]
  refine and_congr_right fun _ => exists_congr fun parts => ?_
  rw [forest_eq_ok_iff]
  exact and_congr_right fun h => Segment.color_eq_ok_iff h.depth_le

example : (parse "rgb(1.25e1 -.5 var(--x ) / 50%)").toOption.any fun
    | .rgb ⟨.quantity red, .quantity green, .verbatim blue, .quantity opacity⟩ =>
      red = ⟨12.5, ""⟩ ∧ green = ⟨-0.5, ""⟩ ∧ blue = "var(--x )" ∧ opacity = ⟨0.5, ""⟩
    | _ => false := by
  decide +kernel

example : (parse "#0af8").toOption.any fun
    | .rgb ⟨.quantity red, .quantity green, .quantity blue, .quantity opacity⟩ =>
      [red, green, blue, opacity] = [⟨0, ""⟩, ⟨170, ""⟩, ⟨255, ""⟩, ⟨136 / 255, ""⟩]
    | _ => false := by
  decide +kernel

end Color

end ThemeColor
