import ThemeColor.Proofs.Conversion
import ThemeColor.Proofs.DefinitionSheet
import ThemeColor.Proofs.NameCore
import ThemeColor.Proofs.Recoloring

/-!
# Definitions and references name the same properties

A color is kept in the custom properties that its definition declares, and a reference to the color
becomes a reference to custom properties. Both sides get the names of these properties from the name
of the color, but not from the same text: a definition takes what is written up to the first blank
of its prelude, and a reference the name that its token means.

For a name that means its own text the two agree (`Sheet.convert_definitionSheet`). A name with an
escape in it means another text, and then a reference reads properties that nothing declares
(`Sheet.convert_escaped_name`).
-/

namespace ThemeColor

open Text

/-! ## A reference on its own -/

/-- The text of a reference to the four properties of a color. -/
def referenceText (names : ChannelNames) : String :=
  "rgba(var(" ++ names.red ++ "),var(" ++ names.green ++ "),var(" ++ names.blue ++ "),var(" ++
    names.alpha ++ "))"

/-- The text of `rgba` with the text of `var` for each channel. -/
theorem rgba_var_eq (red green blue alpha : String) :
    "rgb" ++ "a(" ++ ("var(" ++ red ++ ")" ++ "," ++ ("var(" ++ green ++ ")") ++ "," ++
        ("var(" ++ blue ++ ")")) ++ "," ++ ("var(" ++ alpha ++ ")") ++ ")" =
      "rgba(var(" ++ red ++ "),var(" ++ green ++ "),var(" ++ blue ++ "),var(" ++ alpha ++ "))" := by
  have hfirst : "rgba(var(" = "rgb" ++ "a(" ++ "var(" := by decide
  have hnext : "),var(" = ")" ++ "," ++ "var(" := by decide
  have hlast : "))" = ")" ++ ")" := by decide
  simp only [hfirst, hnext, hlast, String.append_assoc]

/-- A reference to a defined color is written as its `referenceText`. -/
theorem Canonical.css_var (names : ChannelNames) :
    Canonical.css (.rgb ⟨.var names.red, .var names.green, .var names.blue, .var names.alpha⟩) =
      referenceText names :=
  rgba_var_eq names.red names.green names.blue names.alpha

/-- A placeholder that `takeFrom` gives has characters. -/
theorem PlaceholderCounter.takeFrom_ne_nil (text : List Char) (fuel : Nat)
    (counter : PlaceholderCounter) : (takeFrom text fuel counter).1 ≠ [] := by
  induction fuel generalizing counter with
  | zero => exact placeholder_ne_nil _
  | succ fuel ih =>
    rw [takeFrom]
    split
    · exact ih _
    · exact placeholder_ne_nil _

theorem Edit.splice_whole (text replacement : List Char) :
    splice text [⟨⟨0, byteSize text⟩, replacement⟩] = replacement := by
  have hnone : Span.slice? ⟨0, 0⟩ text = some [] :=
    Span.slice?_eq_some_iff.mpr ⟨[], text, rfl, rfl, rfl⟩
  have hend : dropBytes? (byteSize text) text = some [] := by
    simpa using dropBytes?_append text []
  simp [splice, spliceFrom, hnone, hend]

section Parts

variable (front kept part rest : List Char)

theorem Span.slice?_behind :
    slice? ⟨byteSize front + byteSize kept, byteSize front + byteSize kept + byteSize part⟩
      (front ++ (kept ++ (part ++ rest))) = some part := by
  rw [← List.append_assoc, ← byteSize_append]
  exact slice?_append (front ++ kept) part rest

/-- Taking out the front of a text and replacing a part behind it with `splice`. -/
theorem Edit.splice_behind (replacement : List Char) :
    splice (front ++ (kept ++ (part ++ rest)))
        [⟨⟨0, byteSize front⟩, []⟩,
          ⟨⟨byteSize front + byteSize kept, byteSize front + byteSize kept + byteSize part⟩,
            replacement⟩] =
      kept ++ (replacement ++ rest) := by
  have hfirst : front ++ (kept ++ (part ++ rest)) =
      [] ++ ([] ++ (front ++ (kept ++ (part ++ rest)))) := rfl
  have hend : dropBytes? (byteSize front + byteSize kept + byteSize part)
      (front ++ (kept ++ (part ++ rest))) = some rest := by
    rw [← List.append_assoc, ← List.append_assoc, ← byteSize_append, ← byteSize_append,
      dropBytes?_append]
  rw [splice, ← byteSize_nil, spliceFrom_cons_of_cuts hfirst rfl, spliceFrom_cons_of_cuts rfl rfl,
    spliceFrom, hend]
  simp

end Parts

theorem Scan.IsPlainName.contents_eq {name : List Char} (h : IsPlainName name) :
    Lexeme.contents ('@' :: name) = [⟨.atKeyword (String.ofList name), [], '@' :: name, 0⟩] := by
  have hend : Scan.name [] = ⟨[], [], []⟩ := by rw [Scan.name]
  have hscan := h.scanFrom_atKeyword hend 0
  rw [List.append_nil, Lexeme.scanFrom_nil] at hscan
  rw [Lexeme.contents, Lexeme.ofText, hscan]
  rfl

namespace Document

/-- The document of a text that is one color expression as a whole. -/
def whole (text : List Char) (color : Color Float) : Document where
  text
  found := [(String.ofList text, color)]
  spans := [⟨0, byteSize text⟩]

/-- A text that is one reference is read as a `whole`. -/
theorem parse_reference {text : List Char} {word : String}
    (h : Lexeme.contents text = [⟨.atKeyword word, [], text, 0⟩]) :
    parse text = .ok (whole text (.defined word)) := by
  rw [parse, h, occurrences]
  dsimp only
  rw [occurrences]
  simp [Except.map, ofOccurrences, whole, Matches.insert, Lexeme.span, Lexeme.stop]

/-- Recoloring a `whole` document leaves nothing but the text of the canonical color. -/
theorem exists_of_recolorWith_whole {p : Palette Float} {text out : List Char}
    {color : Color Float} {s s' : PlaceholderCounter × List Warning}
    (h : Gives ((whole text color).recolorWith p PlaceholderCounter.take) s out s') :
    ∃ canonical, p.Resolves color canonical ∧ out = canonical.css.toList := by
  obtain ⟨rs, mid, hrs, hout⟩ := gives_bind_iff.mp h
  obtain ⟨rfl, -⟩ := gives_pure_iff.mp hout
  have hsorted : longestFirst (whole text color).found = [(String.ofList text, color)] := by
    simp [longestFirst, whole]
  rw [hsorted] at hrs
  obtain ⟨r, more, last, rfl, hr, hmore⟩ := gives_mapM_cons_iff.mp hrs
  obtain ⟨rfl, -⟩ := gives_mapM_nil_iff.mp hmore
  obtain ⟨hkey, htake, canonical, hcanonical, hcss⟩ := of_gives_replacement hr
  refine ⟨canonical, Palette.resolves_of_yields hcanonical, ?_⟩
  have hslice : Span.slice? ⟨0, byteSize text⟩ text = some text :=
    Span.slice?_eq_some_iff.mpr ⟨[], [], by simp, rfl, by simp⟩
  have hmarkers : (whole text color).markers [r] = [⟨⟨0, byteSize text⟩, r.placeholder⟩] := by
    simp [markers, whole, hslice, hkey]
  have hplaceholder : r.placeholder ≠ [] := by
    have hne := PlaceholderCounter.takeFrom_ne_nil text (text.count PlaceholderCounter.opening) s.1
    rwa [← PlaceholderCounter.take, show PlaceholderCounter.take text s.1 = _ from htake] at hne
  -- The placeholder is all that is left of the text, and then the color takes its place.
  calc fillIn [r] (Edit.splice text ((whole text color).markers [r]))
    _ = replaceAll r.placeholder r.css r.placeholder := by
      rw [hmarkers, Edit.splice_whole]
      rfl
    _ = canonical.css.toList := by rw [replaceAll_self hplaceholder, hcss]

end Document

namespace Sheet

variable {name value : List Char}

/-! ## The style sheet with its edits -/

/-- The text between the definition and the reference. -/
def beforeReference : List Char := " a ".toList ++ '{' :: " color: ".toList

/-- The value of the declaration in the `definitionSheet` is the reference. -/
theorem textAt_reference (name value : List Char) :
    textAt (definitionSheet name value) ⟨byteSize (definitionRule name value) + 12,
      byteSize (definitionRule name value) + 12 + byteSize ('@' :: name)⟩ = '@' :: name := by
  have hslice := Span.slice?_behind (definitionRule name value) beforeReference ('@' :: name)
    [' ', '}']
  exact congrArg (Option.getD · []) hslice

/-- No line end stands behind the definition in the `definitionSheet`. -/
theorem LineEnd.eq_zero_of_definitionSheet {name value front after : List Char} {size : Nat}
    (hend : LineEnd after size) (hsheet : definitionSheet name value = front ++ after)
    (hfront : byteSize front = byteSize (definitionRule name value)) : size = 0 := by
  obtain ⟨-, rfl⟩ := append_inj_of_byteSize hsheet hfront.symm
  cases hend with
  | none => rfl

/-- The edits leave the rule of the `definitionSheet`, with another text in the place of the
reference. -/
theorem splice_definitionSheet (name value text : List Char) :
    Edit.splice (definitionSheet name value)
        [⟨⟨0, byteSize (definitionRule name value)⟩, []⟩,
          ⟨⟨byteSize (definitionRule name value) + 12,
            byteSize (definitionRule name value) + 12 + byteSize ('@' :: name)⟩, text⟩] =
      colorRule text :=
  Edit.splice_behind (definitionRule name value) beforeReference ('@' :: name) [' ', '}'] text

/-- The rule of the custom properties stands on a line of its own behind the `colorRule`. -/
theorem appendRoot_colorRule (selector : String) (definitions : List Definition) (text : String) :
    appendRoot selector definitions (colorRule text.toList) =
      " a ".push '{' ++ " color: " ++ text ++ " ".push '}' ++ "\n" ++
        rootRule selector definitions := by
  have hsolid : trim (colorRule text.toList) ≠ [] := by
    intro hnil
    have hblank := trimWhile_eq_nil_iff.mp hnil 'a' (List.mem_append_left _ (by decide))
    revert hblank
    decide +kernel
  have hlast : (colorRule text.toList).getLast? ≠ some '\n' := by
    simp [colorRule, List.getLast?_append, List.getLast?_cons]
  have htext : String.ofList (colorRule text.toList) =
      " a ".push '{' ++ " color: " ++ text ++ " ".push '}' := by
    apply String.toList_inj.mp
    simp [colorRule]
  simp only [appendRoot, if_pos (And.intro hsolid hlast), htext]

/-- The name that `splitDefinition?` finds ends at the first blank of the prelude. -/
theorem takeWhile_of_splitDefinition? {text word rest : List Char}
    (h : splitDefinition? (name ++ ' ' :: text) = some (word, rest)) :
    word = name.takeWhile (!isBlank ·) := by
  have hend : (name ++ ' ' :: text).takeWhile (!isBlank ·) = name.takeWhile (!isBlank ·) :=
    Scan.takeWhile_append_cons (by decide +kernel) name text
  unfold splitDefinition? at h
  split at h
  · cases h
  · split at h
    · cases h
    · rw [hend] at h
      exact (Prod.mk.inj (Option.some.inj h)).1.symm

/-- What `Collects` gathers from a definition and a reference. -/
theorem Collects.exists_of_definition {css : List Char} {s s' : Progress} {heading : AtHeading}
    {d : Declaration} {edits : List Edit} {definitions : List Definition} {color : Color Float}
    (h : Collects css s [.definition heading false, .value d] edits definitions s')
    (hvalue : Document.parse (textAt css d.value) =
      .ok (.whole (textAt css d.value) color)) :
    ∃ (definition : Definition) (rest front after : List Char) (size : Nat)
      (canonical : Canonical Float),
      splitDefinition? (textAt css heading.prelude) = some (definition.name.toList, rest) ∧
      ChannelNames.ofIdentifier definition.name = .ok definition.properties ∧
      css = front ++ after ∧ byteSize front = heading.span.stop ∧ LineEnd after size ∧
      Palette.default.Resolves color canonical ∧ definitions = [definition] ∧
      edits = [⟨⟨heading.span.start, heading.span.stop + size⟩, []⟩,
        ⟨d.value, canonical.css.toList⟩] := by
  cases h with
  | @define _ _ _ _ _ _ _ word rest _ _ _ properties defined hprelude hname _ hcss hstop hend
      hmore =>
    cases hmore with
    | keep hparse hempty =>
      cases hvalue.symm.trans hparse
      cases hempty
    | recolor hparse hfound htext hdone =>
      cases hvalue.symm.trans hparse
      cases hdone
      obtain ⟨canonical, hcanonical, rfl⟩ := Document.exists_of_recolorWith_whole htext
      refine ⟨⟨String.ofList word, properties, defined⟩, rest, _, _, _, canonical, ?_, hname, hcss,
        hstop, hend, hcanonical, rfl, rfl⟩
      rw [String.toList_ofList, hprelude]

/-- The outcome of `convert` for a style sheet with one definition and one value that is a
reference: the definition declares properties for what is cut off its prelude, and the reference
reads those of the name that it means. -/
theorem exists_of_convert {selector word : String} {css : List Char} {heading : AtHeading}
    {d : Declaration} {result : Conversion} (h : convert selector css = .ok result)
    (hsites : (Sheet.ofText css).flatMap sites = [.definition heading false, .value d])
    (hvalue : Lexeme.contents (textAt css d.value) =
      [⟨.atKeyword word, [], textAt css d.value, 0⟩]) :
    ∃ (definition : Definition) (rest front after : List Char) (size : Nat) (names : ChannelNames),
      result.definitions = [definition] ∧
      splitDefinition? (textAt css heading.prelude) = some (definition.name.toList, rest) ∧
      ChannelNames.ofIdentifier definition.name = .ok definition.properties ∧
      ChannelNames.ofIdentifier word = .ok names ∧
      css = front ++ after ∧ byteSize front = heading.span.stop ∧ LineEnd after size ∧
      result.css = appendRoot selector [definition] (Edit.splice css
        [⟨⟨heading.span.start, heading.span.stop + size⟩, []⟩,
          ⟨d.value, (referenceText names).toList⟩]) := by
  obtain ⟨edits, counter, hcollects, hcss⟩ := collects_of_convert h
  obtain ⟨rest, hfollows⟩ := follows_sites_ofText css
  rw [(hcollects.editsFrom hfollows).applyEdits_eq] at hcss
  rw [hsites] at hcollects
  obtain ⟨definition, rest, front, after, size, canonical, hsplit, hproperties, hsheet, hfront,
    hend, hcanonical, hdefinitions, rfl⟩ :=
    hcollects.exists_of_definition (Document.parse_reference hvalue)
  cases hcanonical with
  | @defined _ names hnames =>
    rw [hdefinitions, if_neg (by simp), Canonical.css_var] at hcss
    exact ⟨definition, rest, front, after, size, names, hdefinitions, hsplit, hproperties, hnames,
      hsheet, hfront, hend, hcss⟩

/-- **Definitions and references name the same custom properties.** Let a style sheet define a color
under a name and refer to it by that name in a declaration. If the name means its own text, if the
value is a color and if it leaves no comment open behind it, then the converted style sheet consists
of the declaration, in which the reference has become references to four properties, and of the rule
that declares these four properties, which are those of the name, with the channels of the color. -/
theorem convert_definitionSheet {selector : String} {color : Color Float} {result : Conversion}
    (hname : (Lexeme.ofText ('@' :: name)).map (·.token) =
      [.atKeyword (String.ofList name), .eof])
    (hvalue : Color.parse (String.ofList value) = .ok color)
    (hclosed : Lexeme.ClosesComments value)
    (h : convert selector (definitionSheet name value) = .ok result) :
    ∃ (names : ChannelNames) (definition : Definition),
      ChannelNames.ofIdentifier (String.ofList name) = .ok names ∧
      result.definitions = [definition] ∧ definition.properties = names ∧
      result.css =
        " a ".push '{' ++ " color: " ++
          ("rgba(var(" ++ names.red ++ "),var(" ++ names.green ++ "),var(" ++ names.blue ++
            "),var(" ++ names.alpha ++ "))") ++ " ".push '}' ++ "\n" ++
        ((selector ++ " ").push '{' ++ "\n" ++
          ("  " ++ names.red ++ ": " ++ definition.color.red.text ++ ";\n" ++
          "  " ++ names.green ++ ": " ++ definition.color.green.text ++ ";\n" ++
          "  " ++ names.blue ++ ": " ++ definition.color.blue.text ++ ";\n" ++
          "  " ++ names.alpha ++ ": " ++ definition.color.alpha.text ++ ";\n").push '}' ++
          "\n") := by
  have hplain := Scan.isPlainName_of_ofText hname
  obtain ⟨heading, text, hsites, hspan, hprelude⟩ := sites_definitionSheet hplain hvalue hclosed
  have hcontents := hplain.contents_eq
  rw [← textAt_reference name value] at hcontents
  obtain ⟨definition, rest, front, after, size, names, hdefinitions, hsplit, hproperties, hnames,
    hsheet, hfront, hend, hcss⟩ := exists_of_convert h hsites hcontents
  rw [hspan] at hfront
  obtain rfl := hend.eq_zero_of_definitionSheet hsheet hfront
  -- The definition has only what stands in front of a blank of the name, which makes no difference.
  rw [hprelude] at hsplit
  have hword := takeWhile_of_splitDefinition? hsplit
  rw [← String.ofList_toList (s := definition.name), hword] at hproperties
  obtain rfl := ChannelNames.eq_of_ofIdentifier_takeWhile hproperties hnames
  refine ⟨definition.properties, definition, hnames, hdefinitions, rfl, ?_⟩
  rw [hcss, hspan, Nat.add_zero, splice_definitionSheet, appendRoot_colorRule, rootRule_eq]
  simp only [String.join, List.map_cons, List.map_nil, List.foldl_cons, List.foldl_nil,
    String.empty_append]
  rfl

/-- A name with a capital letter and an underscore, and a color with a comment behind it. -/
theorem convert_definitionSheet_underscore :
    let name := "Dark_2".toList
    let value := "@base /* b */".toList
    let out := " a ".push '{' ++
      " color: rgba(var(--dark-2-r),var(--dark-2-g),var(--dark-2-b),var(--dark-2-a)) ".push '}' ++
      "\n:root ".push '{' ++ "\n  --dark-2-r: var(--base-r);\n  --dark-2-g: var(--base-g);\n" ++
      "  --dark-2-b: var(--base-b);\n  --dark-2-a: var(--base-a);\n".push '}' ++ "\n"
    (Lexeme.ofText ('@' :: name)).map (·.token) = [.atKeyword "Dark_2", .eof] ∧
      (∃ color, Color.parse (String.ofList value) = .ok color) ∧ Lexeme.ClosesComments value ∧
      ∃ result names definition, convert ":root" (definitionSheet name value) = .ok result ∧
        result.css = out ∧ ChannelNames.ofIdentifier "Dark_2" = .ok names ∧
        result.definitions = [definition] ∧ definition.properties = names := by
  intro name value out
  have hname : (Lexeme.ofText ('@' :: name)).map (·.token) = [.atKeyword "Dark_2", .eof] := by
    decide +kernel
  have hclosed : Lexeme.ClosesComments value := by
    unfold Lexeme.ClosesComments
    decide +kernel
  have hvalue : (Color.parse (String.ofList value)).toOption.any fun _ => true := by decide +kernel
  obtain ⟨color, hvalue, -⟩ := exists_of_toOption_any hvalue
  obtain ⟨result, hconvert, hout⟩ : ∃ result,
      convert ":root" (definitionSheet name value) = .ok result ∧ result.css = out :=
    exists_convert_of_any (by decide +kernel)
  obtain ⟨names, definition, hnames, hdefinitions, hproperties, -⟩ :=
    convert_definitionSheet hname hvalue hclosed hconvert
  exact ⟨hname, ⟨color, hvalue⟩, hclosed, result, names, definition, hconvert, hout, hnames,
    hdefinitions, hproperties⟩

/-- An escape stands for another character in a reference, but not in a definition: the reference
reads properties that nothing declares. -/
theorem convert_escaped_name :
    let name := "\\41x".toList
    let out := " a ".push '{' ++
      " color: rgba(var(--ax-r),var(--ax-g),var(--ax-b),var(--ax-a)) ".push '}' ++
      "\n:root ".push '{' ++ "\n  --\\41x-r: var(--base-r);\n  --\\41x-g: var(--base-g);\n" ++
      "  --\\41x-b: var(--base-b);\n  --\\41x-a: var(--base-a);\n".push '}' ++ "\n"
    (Lexeme.ofText ('@' :: name)).map (·.token) = [.atKeyword "Ax", .eof] ∧
      ∃ result, convert ":root" (definitionSheet name "@base".toList) = .ok result ∧
        result.css = out := by
  intro name out
  exact ⟨by decide +kernel, exists_convert_of_any (by decide +kernel)⟩

end Sheet

end ThemeColor
