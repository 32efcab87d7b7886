import ThemeColor.Proofs.Places
import ThemeColor.Proofs.Success

/-!
# Converting in place

A conversion collects edits while it looks at the parts of a style sheet, and then makes them in
place, the last one first. `Collects` says which edits are collected, part by part. The places of
the parts follow each other in the text, so the edits do not touch each other, each of them fits the
text, and the outcome is the one copy of the text that replaces exactly the edited parts, with the
rule of the defined colors behind it (`convert_eq_splice`).

## Main definitions

* `LineEnd`: the line end that goes with a definition;
* `Collects`: the edits and definitions that the parts of a style sheet give;
* `EditsFrom`: edits that fit the text and follow each other.

## Main results

* `Collects.editsFrom`: what is collected in the order of the text comes in that order;
* `rootRule_eq`: the text of the rule of the defined colors;
* `convert_eq_splice`: the text of a converted style sheet.
-/

namespace ThemeColor.Sheet

open Text Lexeme

/-- What a conversion under way keeps: the source of placeholders and the warnings so far. -/
abbrev Progress := PlaceholderCounter × List Warning

/-- `LineEnd after size`: the text `after` starts with a line end of `size` bytes, which is a
carriage return with a line feed or a line feed alone. Without a line end, `size` is zero. -/
inductive LineEnd : (after : List Char) → (size : Nat) → Prop
  | crlf (rest : List Char) : LineEnd ('\r' :: '\n' :: rest) 2
  | lf (rest : List Char) : LineEnd ('\n' :: rest) 1
  | none {after : List Char} (hcrlf : ¬ ['\r', '\n'] <+: after) (hlf : ¬ ['\n'] <+: after) :
      LineEnd after 0

/-- `Collects css s parts edits definitions s'`: looking at the parts one after the other gives the
edits and the definitions, and takes the conversion from `s` to `s'`.

A definition goes together with the line end behind it, and its color is kept under the properties
of its name. A value without a color expression stays, and any other value gives way to its
recolored text. -/
inductive Collects (css : List Char) :
    Progress → List Site → List Edit → List Definition → Progress → Prop
  | done (s : Progress) : Collects css s [] [] [] s
  | define {s mid s' : Progress} {heading : AtHeading} {parts : List Site} {edits : List Edit}
      {definitions : List Definition} {name value front after : List Char} {size : Nat}
      {properties : ChannelNames} {color : Rgb Float}
      (hprelude : splitDefinition? (textAt css heading.prelude) = some (name, value))
      (hname : ChannelNames.ofIdentifier (String.ofList name) = .ok properties)
      (hcolor : Gives (definedColor value) s color mid)
      (hcss : css = front ++ after) (hstop : byteSize front = heading.span.stop)
      (hend : LineEnd after size) (hmore : Collects css mid parts edits definitions s') :
      Collects css s (.definition heading false :: parts)
        (⟨⟨heading.span.start, heading.span.stop + size⟩, []⟩ :: edits)
        (⟨String.ofList name, properties, color⟩ :: definitions) s'
  | keep {s s' : Progress} {d : Declaration} {parts : List Site} {edits : List Edit}
      {definitions : List Definition} {document : Document}
      (hparse : Document.parse (textAt css d.value) = .ok document) (hempty : document.isEmpty)
      (hmore : Collects css s parts edits definitions s') :
      Collects css s (.value d :: parts) edits definitions s'
  | recolor {s mid s' : Progress} {d : Declaration} {parts : List Site} {edits : List Edit}
      {definitions : List Definition} {document : Document} {text : List Char}
      (hparse : Document.parse (textAt css d.value) = .ok document) (hfound : ¬ document.isEmpty)
      (htext : Gives (document.recolorWith Palette.default PlaceholderCounter.take) s text mid)
      (hmore : Collects css mid parts edits definitions s') :
      Collects css s (.value d :: parts) (⟨d.value, text⟩ :: edits) definitions s'

variable {css : List Char}

/-- What `Collects` gathers from two lists of parts, one after the other. -/
theorem Collects.append {s mid s' : Progress} {a b : List Site} {e f : List Edit}
    {d g : List Definition} (ha : Collects css s a e d mid) (hb : Collects css mid b f g s') :
    Collects css s (a ++ b) (e ++ f) (d ++ g) s' := by
  induction ha with
  | done => exact hb
  | define hprelude hname hcolor hcss hstop hend _ ih =>
    exact .define hprelude hname hcolor hcss hstop hend (ih hb)
  | keep hparse hempty _ ih => exact .keep hparse hempty (ih hb)
  | recolor hparse hfound htext _ ih => exact .recolor hparse hfound htext (ih hb)

/-! ## What a conversion collects -/

/-- The line end that `removalSpan` takes with a rule. -/
theorem exists_lineEnd {span : Span} (hstop : IsBoundary css span.stop) :
    ∃ front after size, css = front ++ after ∧ byteSize front = span.stop ∧ LineEnd after size ∧
      removalSpan css span = ⟨span.start, span.stop + size⟩ := by
  obtain ⟨front, after, hcss, hsize⟩ := hstop
  have hdrop : dropBytes? span.stop css = some after := by
    rw [hcss, ← hsize, dropBytes?_append]
  unfold removalSpan
  rw [hdrop, Option.getD_some]
  split
  · exact ⟨front, _, 2, hcss, hsize, .crlf _, rfl⟩
  · exact ⟨front, _, 1, hcss, hsize, .lf _, rfl⟩
  · rename_i hcrlf hlf
    refine ⟨front, after, 0, hcss, hsize, .none ?_ ?_, rfl⟩
    · rintro ⟨rest, rfl⟩
      exact hcrlf rest rfl
    · rintro ⟨rest, rfl⟩
      exact hlf rest rfl

/-- A value is kept by `recolorDeclaration` if it has no color expression, and recolored otherwise.
-/
theorem collects_of_recolorDeclaration {s s' : Progress} {d : Declaration} {edits : List Edit}
    (h : Gives (recolorDeclaration css d) s edits s') : Collects css s [.value d] edits [] s' := by
  rw [recolorDeclaration, gives_reporting_iff] at h
  obtain ⟨document, mid, hdocument, hrest⟩ := gives_bind_iff.mp h
  obtain ⟨hparse, rfl⟩ := gives_mk_pure_iff.mp hdocument
  split at hrest
  · rename_i hempty
    obtain ⟨rfl, rfl⟩ := gives_pure_iff.mp hrest
    exact .keep hparse hempty (.done _)
  · rename_i hfound
    obtain ⟨text, mid, htext, hpure⟩ := gives_bind_iff.mp hrest
    obtain ⟨rfl, rfl⟩ := gives_pure_iff.mp hpure
    exact .recolor hparse hfound htext (.done _)

/-- The values of a list of declarations are looked at by `recolorDeclarations` one after the other.
-/
theorem collects_of_recolorDeclarations {s s' : Progress} {ds : List Declaration}
    {edits : List Edit} (h : Gives (recolorDeclarations css ds) s edits s') :
    Collects css s (ds.map .value) edits [] s' := by
  obtain ⟨each, heach, rfl⟩ := gives_map_iff.mp h
  clear h
  induction ds generalizing s each with
  | nil =>
    obtain ⟨rfl, rfl⟩ := gives_mapM_nil_iff.mp heach
    exact .done _
  | cons d ds ih =>
    obtain ⟨first, more, mid, rfl, hfirst, hmore⟩ := gives_mapM_cons_iff.mp heach
    exact (collects_of_recolorDeclaration hfirst).append (ih more hmore)

mutual

/-- The values inside a rule are those of the declarations that `visited` lists. -/
theorem collects_of_recolorRule {s s' : Progress} {edits : List Edit} :
    ∀ rule, Gives (recolorRule css rule) s edits s' →
      Collects css s ((visited rule).map .value) edits [] s'
  | .style _ ds, h => by
    rw [recolorRule] at h
    exact collects_of_recolorDeclarations h
  | .statement _, h => by
    rw [recolorRule] at h
    obtain ⟨rfl, rfl⟩ := gives_pure_iff.mp h
    exact .done _
  | .group _ inner, h => by
    rw [recolorRule] at h
    exact collects_of_recolorRules inner h
  | .page _ ds, h => by
    rw [recolorRule] at h
    exact collects_of_recolorDeclarations h

/-- The values inside rules are those of the declarations that `visitedAll` lists. -/
theorem collects_of_recolorRules {s s' : Progress} {edits : List Edit} :
    ∀ rules, Gives (recolorRules css rules) s edits s' →
      Collects css s ((visitedAll rules).map .value) edits [] s'
  | [], h => by
    rw [recolorRules] at h
    obtain ⟨rfl, rfl⟩ := gives_pure_iff.mp h
    exact .done _
  | rule :: more, h => by
    rw [recolorRules] at h
    obtain ⟨first, mid, hfirst, hrest⟩ := gives_bind_iff.mp h
    obtain ⟨others, last, hothers, hpure⟩ := gives_bind_iff.mp hrest
    obtain ⟨rfl, rfl⟩ := gives_pure_iff.mp hpure
    rw [visitedAll, List.map_append]
    exact (collects_of_recolorRule rule hfirst).append (collects_of_recolorRules more hothers)

end

/-- A definition that `define` accepts has no block, and a name and a color. -/
theorem collects_of_define {s s' : Progress} {heading : AtHeading} {hasBlock : Bool}
    {changes : Changes} (h : Gives (define css heading hasBlock) s changes s')
    (hstop : IsBoundary css heading.span.stop) :
    Collects css s [.definition heading hasBlock] changes.edits changes.definitions s' := by
  unfold define at h
  split at h
  · rename_i name value hprelude
    obtain ⟨⟨properties, color⟩, mid, hboth, hpure⟩ := gives_bind_iff.mp h
    obtain ⟨rfl, rfl⟩ := gives_pure_iff.mp hpure
    rw [gives_reporting_iff] at hboth
    obtain ⟨found, mid', hfound, hrest⟩ := gives_bind_iff.mp hboth
    obtain ⟨hname, rfl⟩ := gives_mk_pure_iff.mp hfound
    obtain ⟨color', last, hcolor, hpair⟩ := gives_bind_iff.mp hrest
    obtain ⟨heq, rfl⟩ := gives_pure_iff.mp hpair
    obtain ⟨rfl, rfl⟩ := Prod.mk.inj heq
    obtain ⟨front, after, size, hcss, hfront, hend, hremoved⟩ := exists_lineEnd hstop
    rw [hremoved]
    exact .define hprelude hname hcolor hcss hfront hend (.done _)
  · exact absurd h not_gives_throw

/-- A rule is a definition for `convertRule`, or its values are looked at. -/
theorem collects_of_convertRule {s s' : Progress} {rule : Rule} {changes : Changes}
    (h : Gives (convertRule css rule) s changes s') (hin : ∀ site ∈ sites rule, site.In css) :
    Collects css s (sites rule) changes.edits changes.definitions s' := by
  unfold convertRule at h
  unfold sites at hin ⊢
  rcases hrule : definition? rule with _ | ⟨heading, hasBlock⟩
  · rw [hrule] at h
    obtain ⟨edits, hedits, rfl⟩ := gives_map_iff.mp h
    exact collects_of_recolorRule rule hedits
  · rw [hrule] at h hin
    exact collects_of_define h (hin _ List.mem_cons_self).stop

/-- The rules of the style sheet are looked at one after the other. -/
theorem collects_of_mapM {s s' : Progress} {rules : List Rule} {changes : List Changes}
    (h : Gives (rules.mapM (convertRule css)) s changes s')
    (hin : ∀ site ∈ rules.flatMap sites, site.In css) :
    Collects css s (rules.flatMap sites) (Changes.join changes).edits
      (Changes.join changes).definitions s' := by
  induction rules generalizing s changes with
  | nil =>
    obtain ⟨rfl, rfl⟩ := gives_mapM_nil_iff.mp h
    exact .done _
  | cons rule rules ih =>
    obtain ⟨first, more, mid, rfl, hfirst, hmore⟩ := gives_mapM_cons_iff.mp h
    obtain ⟨hinFirst, hinMore⟩ := List.forall_mem_append.mp hin
    exact (collects_of_convertRule hfirst hinFirst).append (ih hmore hinMore)

/-! ## The edits do not touch each other -/

/-- The edits fit the text, follow each other from byte `low` on, and none of them starts with a
blank. -/
def EditsFrom (css : List Char) : (low : Nat) → List Edit → Prop
  | _, [] => True
  | low, edit :: edits =>
    low ≤ edit.span.start ∧ (edit.span.slice? css).isSome ∧ SolidAt css edit.span.start ∧
      EditsFrom css edit.span.stop edits

theorem EditsFrom.mono {low low' : Nat} {edits : List Edit} (hle : low ≤ low')
    (h : EditsFrom css low' edits) : EditsFrom css low edits := by
  cases edits with
  | nil => trivial
  | cons edit edits => exact ⟨Nat.le_trans hle h.1, h.2⟩

/-- A blank is not where an edit starts, so edits that are `EditsFrom` a blank on come after it. -/
theorem EditsFrom.after_blank {front rest : List Char} {c : Char} {edits : List Edit}
    (hcss : css = front ++ c :: rest) (hc : Scan.isSpace c)
    (h : EditsFrom css (byteSize front) edits) : EditsFrom css (byteSize front + 1) edits := by
  cases edits with
  | nil => trivial
  | cons edit edits =>
    refine ⟨Nat.lt_of_le_of_ne h.1 fun heq => ?_, h.2⟩
    obtain ⟨front', c', rest', hcss', hsize, hsolid⟩ := h.2.2.1
    obtain ⟨-, htail⟩ := append_inj_of_byteSize (hcss.symm.trans hcss') (heq.trans hsize.symm)
    rw [(List.cons.inj htail).1, hsolid] at hc
    cases hc

/-- Taking the `LineEnd` behind a rule with it keeps clear of the edits behind the rule. -/
theorem EditsFrom.after_lineEnd {front after : List Char} {size : Nat} {edits : List Edit}
    (hcss : css = front ++ after) (hend : LineEnd after size)
    (h : EditsFrom css (byteSize front) edits) :
    IsBoundary css (byteSize front + size) ∧ EditsFrom css (byteSize front + size) edits := by
  have hreturn : byteSize ['\r'] = 1 := by decide
  have hfeed : byteSize ['\n'] = 1 := by decide
  cases hend with
  | crlf rest =>
    -- A line end of two characters is passed in two steps, each over one blank.
    have hcss' : css = (front ++ ['\r']) ++ '\n' :: rest := by simp [hcss]
    have hmid : byteSize (front ++ ['\r']) = byteSize front + 1 := by
      rw [byteSize_append, hreturn]
    have hafter := h.after_blank hcss rfl
    rw [← hmid] at hafter
    have hboth := hafter.after_blank hcss' rfl
    rw [hmid] at hboth
    refine ⟨⟨front ++ ['\r', '\n'], rest, by simp [hcss], ?_⟩, hboth⟩
    rw [byteSize_append]
    rfl
  | lf rest =>
    refine ⟨⟨front ++ ['\n'], rest, by simp [hcss], ?_⟩, h.after_blank hcss rfl⟩
    rw [byteSize_append, hfeed]
  | none => exact ⟨⟨front, after, hcss, rfl⟩, h⟩

/-- No color expression is in an empty text: its `Document` is empty. -/
theorem isEmpty_of_parse_nil {document : Document} (h : Document.parse [] = .ok document) :
    document.isEmpty := by
  rw [Document.parse, Lexeme.contents_nil, Document.occurrences] at h
  cases h
  rfl

/-- A value with a color expression in it is not empty. -/
theorem Site.In.solidAt_of_found {d : Declaration} {document : Document}
    (h : Site.In css (.value d)) (hparse : Document.parse (textAt css d.value) = .ok document)
    (hfound : ¬ document.isEmpty) : SolidAt css d.value.start := by
  rcases h.solid with hsolid | ⟨d', hd, hempty⟩
  · exact hsolid
  · obtain rfl : d = d' := by simpa using hd
    -- An empty value would have an empty text, in which nothing is found.
    obtain ⟨front, rest, hcss, hsize⟩ : IsBoundary css d.value.start := h.start
    have hslice : d.value.slice? css = some [] := by
      rw [Span.slice?_eq_some_iff]
      exact ⟨front, rest, by simpa using hcss, hsize, by simpa [hsize] using hempty⟩
    rw [textAt, hslice, Option.getD_some] at hparse
    exact absurd (isEmpty_of_parse_nil hparse) hfound

/-- The edits that `Collects` gathers from parts in the order of the text come in that order. -/
theorem Collects.editsFrom {s s' : Progress} {parts : List Site} {edits : List Edit}
    {definitions : List Definition} {low : Nat} {rest : List Lexeme}
    (h : Collects css s parts edits definitions s') (hfollows : Follows css low parts rest) :
    EditsFrom css low edits := by
  induction h generalizing low with
  | done => trivial
  | @define _ _ _ heading _ _ _ _ _ _ _ size _ _ _ _ _ hcss hstop hend _ ih =>
    obtain ⟨hlow, hin, hmore⟩ := hfollows
    have hrest := ih hmore
    rw [show (Site.definition heading false).span.stop = byteSize _ from hstop.symm] at hrest
    obtain ⟨hboundary, hafter⟩ := hrest.after_lineEnd hcss hend
    rw [hstop] at hboundary hafter
    -- A rule is no empty value, so it does not start with a blank.
    have hsolid : SolidAt css heading.span.start := by
      rcases hin.solid with hsolid | ⟨d, hd, -⟩
      · exact hsolid
      · cases hd
    have hle : heading.span.start ≤ heading.span.stop + size := Nat.le_add_right_of_le hin.le
    exact ⟨hlow, Span.slice?_isSome hin.start hboundary hle, hsolid, hafter⟩
  | keep _ _ _ ih =>
    obtain ⟨hlow, hin, hmore⟩ := hfollows
    exact (ih hmore).mono (Nat.le_trans hlow hin.le)
  | recolor hparse hfound _ _ ih =>
    obtain ⟨hlow, hin, hmore⟩ := hfollows
    exact ⟨hlow, Span.slice?_isSome hin.start hin.stop hin.le,
      hin.solidAt_of_found hparse hfound, ih hmore⟩

theorem EditsFrom.forall_le {low : Nat} {edits : List Edit} (h : EditsFrom css low edits) :
    ∀ edit ∈ edits, low ≤ edit.span.start ∧ edit.span.start ≤ edit.span.stop ∧
      (edit.span.slice? css).isSome := by
  induction edits generalizing low with
  | nil => simp
  | cons edit edits ih =>
    obtain ⟨hlow, hfits, -, hmore⟩ := h
    obtain ⟨m, hm⟩ := Option.isSome_iff_exists.mp hfits
    obtain ⟨a, b, -, hstart, hstop⟩ := Span.slice?_eq_some_iff.mp hm
    have hle : edit.span.start ≤ edit.span.stop := by omega
    intro e he
    rcases List.mem_cons.mp he with rfl | he
    · exact ⟨hlow, hle, hfits⟩
    · obtain ⟨hafter, hrest⟩ := ih hmore e he
      exact ⟨by omega, hrest⟩

theorem EditsFrom.pairwise {low : Nat} {edits : List Edit} (h : EditsFrom css low edits) :
    edits.Pairwise fun a b => a.span.stop ≤ b.span.start := by
  induction edits generalizing low with
  | nil => exact .nil
  | cons edit edits ih =>
    exact .cons (fun e he => (h.2.2.2.forall_le e he).1) (ih h.2.2.2)

/-- Edits in the order of the text are all made in the one copy that `Edit.splice` makes. -/
theorem EditsFrom.rewrites {edits : List Edit} (h : EditsFrom css 0 edits) :
    Edit.Rewrites 0 css edits (Edit.splice css edits) :=
  Edit.rewrites_splice (fun e he => (h.forall_le e he).2.2) h.pairwise

/-- Edits in the order of the text need no sorting by `applyEdits`. -/
theorem EditsFrom.applyEdits_eq {edits : List Edit} (h : EditsFrom css 0 edits) :
    applyEdits css edits = Edit.splice css edits := by
  have hsorted : edits.mergeSort (fun a b => a.span.start ≤ b.span.start) = edits := by
    apply List.mergeSort_of_pairwise
    refine List.Pairwise.imp_of_mem ?_ h.pairwise
    intro a b ha _ hab
    have := (h.forall_le a ha).2.1
    simp only [decide_eq_true_eq]
    omega
  simp only [applyEdits, hsorted, h.rewrites.replaceBackwards?_eq, Option.getD_some]

/-! ## The whole conversion -/

/-- What a `convert` that succeeds has collected, and how its outcome is put together. -/
theorem collects_of_convert {selector : String} {result : Conversion}
    (h : convert selector css = .ok result) :
    ∃ edits counter,
      Collects css (⟨0⟩, []) ((Sheet.ofText css).flatMap sites) edits result.definitions
        (counter, result.warnings) ∧
      result.css =
        if result.definitions.isEmpty then String.ofList (applyEdits css edits)
        else appendRoot selector result.definitions (applyEdits css edits) := by
  unfold convert at h
  obtain ⟨rest, hfollows⟩ := follows_sites_ofText css
  rcases hrun : (((Sheet.ofText css).mapM (convertRule css)).run.run ⟨0⟩).run [] with
    ⟨⟨outcome, counter⟩, warnings⟩
  rw [hrun] at h
  cases outcome with
  | error e => cases h
  | ok changes =>
    cases h
    have hgives : Gives ((Sheet.ofText css).mapM (convertRule css)) (⟨0⟩, []) changes
        (counter, warnings) := hrun
    exact ⟨(Changes.join changes).edits, counter, collects_of_mapM hgives hfollows.forall_in, rfl⟩

/-- The text that `convert` gives can be computed without sorting if its edits come in order. -/
theorem exists_convert_of_any {selector out : String}
    (h : ((((Sheet.ofText css).mapM (convertRule css)).run.run ⟨0⟩).run []).1.1.toOption.any
      fun changes =>
        let all := Changes.join changes
        all.edits.Pairwise (fun a b => a.span.start ≤ b.span.start) ∧ ¬ all.definitions.isEmpty ∧
          appendRoot selector all.definitions
            ((Edit.replaceBackwards? all.edits css).getD css) = out) :
    ∃ result, convert selector css = .ok result ∧ result.css = out := by
  rcases hrun : (((Sheet.ofText css).mapM (convertRule css)).run.run ⟨0⟩).run [] with
    ⟨⟨outcome, counter⟩, warnings⟩
  rw [hrun] at h
  cases outcome with
  | error e => cases h
  | ok changes =>
    obtain ⟨hsorted, hsome, hout⟩ := of_decide_eq_true h
    refine ⟨_, by rw [convert, hrun]; rfl, ?_⟩
    have hedits : (Changes.join changes).edits.mergeSort (fun a b => a.span.start ≤ b.span.start) =
        (Changes.join changes).edits :=
      List.mergeSort_of_pairwise (hsorted.imp fun hle => decide_eq_true hle)
    simp only [applyEdits, hedits, if_neg hsome, hout]

/-- The `rootRule` of the defined colors: the selector, and between braces four lines for each
definition, which declare its properties for red, green, blue and alpha. -/
theorem rootRule_eq (selector : String) (definitions : List Definition) :
    rootRule selector definitions =
      (selector ++ " ").push '{' ++ "\n" ++
        (String.join (definitions.map fun d =>
          "  " ++ d.properties.red ++ ": " ++ d.color.red.text ++ ";\n" ++
          "  " ++ d.properties.green ++ ": " ++ d.color.green.text ++ ";\n" ++
          "  " ++ d.properties.blue ++ ": " ++ d.color.blue.text ++ ";\n" ++
          "  " ++ d.properties.alpha ++ ": " ++ d.color.alpha.text ++ ";\n")).push '}' ++
        "\n" := by
  have hlines (d : Definition) : d.lines =
      "  " ++ d.properties.red ++ ": " ++ d.color.red.text ++ ";\n" ++
      "  " ++ d.properties.green ++ ": " ++ d.color.green.text ++ ";\n" ++
      "  " ++ d.properties.blue ++ ": " ++ d.color.blue.text ++ ";\n" ++
      "  " ++ d.properties.alpha ++ ": " ++ d.color.alpha.text ++ ";\n" := by
    simp only [Definition.lines, Definition.declarations, ChannelNames.toList, String.join,
      List.zip_cons_cons, List.zip_nil_right, List.map_cons, List.map_nil, List.foldl_cons,
      List.foldl_nil, String.empty_append, String.append_assoc]
  rw [rootRule, funext hlines]

/-- Where no part defines a color and no value has a color expression in it, `Collects` gathers
nothing. -/
theorem Collects.eq_nil {s s' : Progress} {parts : List Site} {edits : List Edit}
    {definitions : List Definition} (h : Collects css s parts edits definitions s')
    (hplain : ∀ site ∈ parts, ∃ d document, site = .value d ∧
      Document.parse (textAt css d.value) = .ok document ∧ document.isEmpty) :
    edits = [] ∧ definitions = [] := by
  induction h with
  | done => exact ⟨rfl, rfl⟩
  | define =>
    obtain ⟨d, -, hd, -⟩ := hplain _ List.mem_cons_self
    cases hd
  | keep _ _ _ ih => exact ih fun site hsite => hplain site (List.mem_cons_of_mem _ hsite)
  | recolor hparse hfound =>
    obtain ⟨d', document', hd, hparse', hempty⟩ := hplain _ List.mem_cons_self
    cases hd
    rw [hparse] at hparse'
    cases hparse'
    exact absurd hempty hfound

/-- **Converting in place is an exact splice.** The edits of a conversion that succeeds are those
that `Collects` lists for the parts of the style sheet: every definition goes, together with the
line end behind it, and every value with a color expression is recolored. They lie in the text,
between characters, and none reaches into another, so that each of them can be made in place, the
last one first. What comes out is the one copy of the text with exactly these parts replaced. If
colors were defined, the rule with their custom properties follows on a line of its own: the
selector and, between braces, a line for each of the four properties of each definition. -/
theorem convert_eq_splice {selector : String} {css : List Char} {result : Conversion}
    (h : convert selector css = .ok result) :
    ∃ edits counter copy,
      Collects css (⟨0⟩, []) ((Sheet.ofText css).flatMap sites) edits result.definitions
        (counter, result.warnings) ∧
      (∀ edit ∈ edits, (edit.span.slice? css).isSome) ∧
      edits.Pairwise (fun a b => a.span.stop ≤ b.span.start) ∧
      Edit.replaceBackwards? edits css = some copy ∧ Edit.Rewrites 0 css edits copy ∧
      (result.definitions = [] → result.css = String.ofList copy) ∧
      (result.definitions ≠ [] →
        result.css = String.ofList copy ++
          (if trim copy ≠ [] ∧ copy.getLast? ≠ some '\n' then "\n" else "") ++
          ((selector ++ " ").push '{' ++ "\n" ++
            (String.join (result.definitions.map fun d =>
              "  " ++ d.properties.red ++ ": " ++ d.color.red.text ++ ";\n" ++
              "  " ++ d.properties.green ++ ": " ++ d.color.green.text ++ ";\n" ++
              "  " ++ d.properties.blue ++ ": " ++ d.color.blue.text ++ ";\n" ++
              "  " ++ d.properties.alpha ++ ": " ++ d.color.alpha.text ++ ";\n")).push '}' ++
            "\n")) ∧
      ((∀ site ∈ (Sheet.ofText css).flatMap sites, ∃ d document, site = .value d ∧
          Document.parse (textAt css d.value) = .ok document ∧ document.isEmpty) →
        result.css = String.ofList css) := by
  obtain ⟨edits, counter, hcollects, hcss⟩ := collects_of_convert h
  obtain ⟨rest, hfollows⟩ := follows_sites_ofText css
  -- The parts of the sheet lie one behind the other, and so do the edits made for them.
  have hedits : EditsFrom css 0 edits := hcollects.editsFrom hfollows
  rw [hedits.applyEdits_eq] at hcss
  refine ⟨edits, counter, Edit.splice css edits, hcollects, fun e he => (hedits.forall_le e he).2.2,
    hedits.pairwise, hedits.rewrites.replaceBackwards?_eq, hedits.rewrites, ?_, ?_, ?_⟩
  · intro hnone
    rw [hcss, hnone]
    rfl
  · intro hsome
    rw [hcss, if_neg (by simpa using hsome), ← rootRule_eq]
    rfl
  · intro hplain
    -- Parts of this kind ask for no edit and define no color.
    obtain ⟨rfl, hnone⟩ := hcollects.eq_nil hplain
    have hcopy : Edit.splice css [] = css := by
      simp [Edit.splice, Edit.spliceFrom, dropBytes?]
    rw [hcss, hnone, hcopy]
    rfl

/-- A style sheet with two definitions, the two kinds of line ends behind them, and a color in a
value. -/
theorem convert_eq_splice_definition :
    let css := "@define-color a @b;\r\n@define-color c #0102;\np{color:@a}".toList
    let out := "p".push '{' ++ "color:rgba(var(--a-r),var(--a-g),var(--a-b),var(--a-a))".push '}' ++
      "\n:root ".push '{' ++ "\n" ++
      "  --a-r: var(--b-r);\n  --a-g: var(--b-g);\n  --a-b: var(--b-b);\n  --a-a: var(--b-a);\n" ++
      "  --c-r: 0;\n  --c-g: 17;\n  --c-b: 0;\n  --c-a: 0.13333;\n".push '}' ++ "\n"
    ∃ result edits copy, convert ":root" css = .ok result ∧ result.css = out ∧
      edits.Pairwise (fun a b => a.span.stop ≤ b.span.start) ∧
      Edit.replaceBackwards? edits css = some copy ∧ Edit.Rewrites 0 css edits copy := by
  intro css out
  obtain ⟨result, hconvert, hcss⟩ :
      ∃ result, convert ":root" css = .ok result ∧ result.css = out :=
    exists_convert_of_any (by decide +kernel)
  obtain ⟨edits, -, copy, -, -, hpairwise, hmade, hrewrites, -⟩ := convert_eq_splice hconvert
  exact ⟨result, edits, copy, hconvert, hcss, hpairwise, hmade, hrewrites⟩

end ThemeColor.Sheet
