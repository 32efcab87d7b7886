import ThemeColor.Proofs.Recoloring

/-!
# Recoloring documents of any origin

A document need not come from a text that was searched for color expressions: all that recoloring
asks for is that its places are in order and that each of them holds the text of an expression
(`Document.Consistent`). Then, with any palette and with a counter at any number, recoloring puts
the text of its color in each place and keeps the rest of the text, unless a placeholder that was
taken for the document occurs in one of these texts (`Document.recolorWith_gives_splice`).
-/

namespace ThemeColor

open Text PlaceholderCounter

/-! ## Runs that resolve a color -/

/-- What succeeds once succeeds after any warnings. -/
theorem Appends.exists_run {β : Type} {x : ResolveM β} {a : β} (hx : Appends x) (h : Yields x a)
    (before : List Warning) : ∃ after, x.run.run before = (.ok a, after) :=
  ⟨_, (hx before).trans (Prod.ext (hx.ok_of_yields h) rfl)⟩

namespace Palette

variable {p : Palette Float} {c : Color Float}

/-- The text of the canonical color of an expression, if it has one. -/
def css? (p : Palette Float) (c : Color Float) : Option (List Char) :=
  ((p.resolve c).run []).1.toOption.map (·.css.toList)

theorem css?_of_yields {color : Canonical Float} (h : Yields (p.resolve c) color) :
    p.css? c = some color.css.toList := by
  have hrun : ((p.resolve c).run []).1 = .ok color := (resolveAt_appends c 0).ok_of_yields h
  rw [css?, hrun]
  rfl

theorem exists_yields_of_css? (h : (p.css? c).isSome) : ∃ color, Yields (p.resolve c) color := by
  rcases hrun : (p.resolve c).run [] with ⟨e | color, warnings⟩
  · simp [css?, hrun, Except.toOption] at h
  · exact ⟨color, [], warnings, hrun⟩

end Palette

namespace Document

variable {p : Palette Float} {d : Document}

/-! ## Replacements for all expressions -/

/-- Expressions that all have a color are replaced, whatever was taken and recorded before. -/
theorem exists_gives_replacements {ms : Matches} (h : ∀ m ∈ ms, (p.css? m.2).isSome)
    (text : List Char) (s : PlaceholderCounter × List Warning) :
    ∃ rs s', Gives (ms.mapM (replacement p take text)) s rs s' := by
  induction ms generalizing s with
  | nil => exact ⟨[], s, gives_mapM_nil_iff.mpr ⟨rfl, rfl⟩⟩
  | cons m ms ih =>
    obtain ⟨hfirst, hmore⟩ := List.forall_mem_cons.mp h
    obtain ⟨color, hcolor⟩ := Palette.exists_yields_of_css? hfirst
    obtain ⟨warnings, hrun⟩ := (Palette.resolveAt_appends m.2 0).exists_run hcolor s.2
    obtain ⟨rs, s', hrs⟩ := ih hmore ((take text s.1).2, warnings)
    have hreplaced : Gives (replacement p take text m) s
        ⟨m.1, (take text s.1).1, color.css.toList⟩ ((take text s.1).2, warnings) := by
      refine gives_bind_iff.mpr ⟨color, (s.1, warnings), gives_lift_iff.mpr ⟨hrun, rfl⟩, ?_⟩
      refine gives_bind_iff.mpr ⟨(take text s.1).1, ((take text s.1).2, warnings), ?_, ?_⟩
      · exact gives_modifyGet_iff.mpr ⟨rfl, rfl⟩
      · exact gives_pure_iff.mpr ⟨rfl, rfl⟩
    exact ⟨_, s', gives_mapM_cons_iff.mpr ⟨_, rs, _, rfl, hreplaced, hrs⟩⟩

/-! ## Documents -/

/-- The places of the document stand one behind the other, and each of them holds the text of one of
its expressions. -/
structure Consistent (d : Document) : Prop where
  /-- The texts of the expressions are in ascending order. -/
  keys : d.found.keys.Pairwise (· < ·)
  /-- No place reaches into the next one. -/
  ascending : d.spans.Pairwise fun a b => a.stop ≤ b.start
  /-- Each place holds the text of an expression. -/
  slice : ∀ span ∈ d.spans, ∃ key, span.slice? d.text = some key ∧ String.ofList key ∈ d.found.keys

/-- The edit that puts the text of the canonical color in the place of an expression. -/
def editWith? (p : Palette Float) (d : Document) (span : Span) : Option Edit := do
  let key ← span.slice? d.text
  let color ← d.found.lookup (String.ofList key)
  let css ← p.css? color
  some ⟨span, css⟩

/-- The edits that put the texts of the canonical colors in the places of all expressions. -/
def editsWith (p : Palette Float) (d : Document) : List Edit := d.spans.filterMap (d.editWith? p)

/-- Each place is a range of the text. -/
theorem Consistent.slice_isSome (hd : d.Consistent) :
    ∀ span ∈ d.spans, (span.slice? d.text).isSome := by
  intro span hspan
  obtain ⟨key, hkey, -⟩ := hd.slice span hspan
  exact Option.isSome_iff_exists.mpr ⟨key, hkey⟩

/-- Each place has a replacement, with the color that belongs there. -/
theorem Consistent.exists_replacement (hd : d.Consistent) {rs : List Replacement}
    {s s' : PlaceholderCounter × List Warning}
    (hrs : Gives ((longestFirst d.found).mapM (replacement p take d.text)) s rs s') {span : Span}
    (hspan : span ∈ d.spans) :
    ∃ r ∈ rs, replacementAt rs d.text span = some r ∧ d.editWith? p span = some ⟨span, r.css⟩ := by
  obtain ⟨hkeys, -, hcolors⟩ := of_gives_replacements hrs
  obtain ⟨hnodup, -, hmem⟩ := keys_of_longestFirst hd.keys hkeys
  obtain ⟨key, hkey, hfound⟩ := hd.slice span hspan
  obtain ⟨r, hr, heq⟩ := List.mem_map.mp ((hmem _).mpr hfound)
  obtain ⟨c, color, hc, hyields, hcss⟩ := hcolors r hr
  have hlookup : d.found.lookup r.key = some c :=
    Matches.lookup_eq_some hd.keys ((List.mergeSort_perm d.found _).mem_iff.mp hc)
  refine ⟨r, hr, replacementAt_eq_some hnodup hr hkey heq, ?_⟩
  rw [heq] at hlookup
  simp only [editWith?, hkey, hlookup, Palette.css?_of_yields hyields, hcss, Option.bind_eq_bind,
    Option.bind_some]

/-- A placeholder is replaced by its color and nothing else, if no color holds a placeholder. -/
theorem fillIn_placeholder_eq_css {text : List Char} {rs : List Replacement}
    (husable : ∀ r ∈ rs, r.Usable text)
    (hdistinct : rs.Pairwise fun a b => a.placeholder ≠ b.placeholder)
    (hfree : ∀ r ∈ rs, ∀ later ∈ rs, ¬ later.placeholder <:+: r.css) {r : Replacement}
    (hr : r ∈ rs) : fillIn rs r.placeholder = r.css := by
  obtain ⟨before, after, rfl⟩ := List.append_of_mem hr
  rw [fillIn_placeholder husable hdistinct,
    fillIn_eq_self_iff fun later hlater => husable later (by simp [hlater])]
  exact fun later hlater => hfree r hr later (by simp [hlater])

/-- **Recoloring puts each color in its place.** Take a consistent document, a palette under which
all of its expressions have a color, and a counter at any number. Let none of the placeholders that
are taken for the document occur in the text of one of these colors. Then recoloring succeeds, and
it gives the text of the document in which each place is replaced by the text of the color of its
expression and everything else is kept (`Edit.Rewrites`), whatever the text holds besides, be it
private characters or whole or partial placeholders. The same text comes of replacing the places one
by one, the last one first. There have to be enough numbers for the placeholders. -/
theorem recolorWith_gives_splice (hd : d.Consistent) (hcolors : ∀ m ∈ d.found, (p.css? m.2).isSome)
    {s : PlaceholderCounter × List Warning} {tokens : List (List Char)} {last : PlaceholderCounter}
    (htaken : Taken d.text s.1 tokens last) (hcount : tokens.length = d.found.length)
    (hroom : d.found.length + d.text.count opening ≤ 2 ^ 64)
    (habsent : ∀ token ∈ tokens, ∀ m ∈ d.found, ∀ css ∈ p.css? m.2, ¬ occursIn token css) :
    (d.editsWith p).map (·.span) = d.spans ∧
      ∃ out warnings, Edit.Rewrites 0 d.text (d.editsWith p) out ∧
        Edit.replaceBackwards? (d.editsWith p) d.text = some out ∧
        Gives (d.recolorWith p take) s out (last, warnings) := by
  have hperm := List.mergeSort_perm d.found fun a b => b.1.utf8ByteSize ≤ a.1.utf8ByteSize
  have hsorted : ∀ m ∈ longestFirst d.found, (p.css? m.2).isSome :=
    fun m hm => hcolors m (hperm.mem_iff.mp hm)
  -- All colors resolve, so there is a replacement for each, and it has one of the placeholders.
  obtain ⟨rs, s', hrs⟩ := exists_gives_replacements hsorted d.text s
  obtain ⟨hkeys, htaken', hyields⟩ := of_gives_replacements hrs
  obtain ⟨-, hlength, -⟩ := keys_of_longestFirst hd.keys hkeys
  obtain ⟨rfl, rfl⟩ := htaken.unique htaken' (by rw [hcount, List.length_map, hlength])
  have hsealed : ∀ r ∈ rs, Sealed r.css := by
    intro r hr
    obtain ⟨c, color, -, -, hcss⟩ := hyields r hr
    exact hcss ▸ sealed_css color
  obtain ⟨husable, hdistinct⟩ := usable_of_taken htaken' (by omega) hsealed
  have hfree : ∀ r ∈ rs, ∀ later ∈ rs, ¬ later.placeholder <:+: r.css := by
    intro r hr later hlater
    obtain ⟨c, color, hc, hcolor, hcss⟩ := hyields r hr
    rw [← occursIn_iff]
    refine habsent _ (List.mem_map_of_mem hlater) (r.key, c) (hperm.mem_iff.mp hc) _ ?_
    rw [Option.mem_def, Palette.css?_of_yields hcolor, hcss]
  -- No color holds a placeholder, so what is filled in at a place is the color of the place.
  have hedits : d.editsWith p =
      d.spans.map fun span => ⟨span, fillIn rs (markerAt rs d.text span)⟩ := by
    refine List.filterMap_eq_map_iff_forall_eq_some.mpr fun span hspan => ?_
    obtain ⟨r, hr, hat, hedit⟩ := hd.exists_replacement hrs hspan
    rw [hedit, markerAt, hat, Option.map_some, Option.getD_some,
      fillIn_placeholder_eq_css husable hdistinct hfree hr]
  have hmarkers : d.markers rs = d.spans.map fun span => ⟨span, markerAt rs d.text span⟩ := by
    refine markers_eq_map rfl fun span hspan => ?_
    obtain ⟨r, -, hat, -⟩ := hd.exists_replacement hrs hspan
    exact ⟨r, hat⟩
  have hspans : (d.editsWith p).map (·.span) = d.spans := by
    rw [hedits, List.map_map]
    exact List.map_id _
  have hfilled : fillIn rs (Edit.splice d.text (d.markers rs)) =
      Edit.splice d.text (d.editsWith p) := by
    rw [hedits, hmarkers]
    refine fillIn_splice hd.slice_isSome hd.ascending husable fun span hspan => ?_
    obtain ⟨r, hr, hat, -⟩ := hd.exists_replacement hrs hspan
    obtain ⟨n, hn, -⟩ := (husable r hr).fresh
    rw [markerAt, hat, Option.map_some, Option.getD_some]
    exact .inl ⟨n, hn⟩
  have hrewrites := Edit.rewrites_splice
    (fun edit hedit => hd.slice_isSome _ (hspans ▸ List.mem_map_of_mem hedit))
    (List.pairwise_map.mp (hspans ▸ hd.ascending))
  exact ⟨hspans, _, s'.2, hrewrites, hrewrites.replaceBackwards?_eq,
    gives_bind_iff.mpr ⟨rs, s', hrs, gives_pure_iff.mpr ⟨hfilled, rfl⟩⟩⟩

/-- Two colors in a text with a whole placeholder and parts of others, from the last number on. -/
theorem recolorWith_gives_splice_private :
    let d : Document :=
      { text := "\uE0000\uE001\uE000@b1@a\uE001".toList
        found := [("@a", .rgb (.opaqueOf 255.0 0.0 0.0)), ("@b", .defined "b")]
        spans := [⟨10, 12⟩, ⟨13, 15⟩] }
    let s : PlaceholderCounter × List Warning := (⟨0xFFFFFFFFFFFFFFFF⟩, [])
    let out := ("\uE0000\uE001\uE000rgba(var(--b-r),var(--b-g),var(--b-b),var(--b-a))1" ++
      "#f00\uE001").toList
    ∃ tokens last warnings, d.Consistent ∧ Taken d.text s.1 tokens last ∧
      tokens = [placeholder 0xFFFFFFFFFFFFFFFF, placeholder 1] ∧
      (d.editsWith Palette.default).map (·.span) = d.spans ∧
      Edit.Rewrites 0 d.text (d.editsWith Palette.default) out ∧
      Edit.replaceBackwards? (d.editsWith Palette.default) d.text = some out ∧
      Gives (d.recolorWith Palette.default take) s out (last, warnings) := by
  intro d s out
  have hd : d.Consistent := by
    refine ⟨by decide +kernel, by decide +kernel, List.forall_mem_cons.mpr ⟨?_, ?_⟩⟩
    · exact ⟨"@b".toList, by decide +kernel, by decide +kernel⟩
    · exact List.forall_mem_singleton.mpr ⟨"@a".toList, by decide +kernel, by decide +kernel⟩
  have htokens : [(take d.text s.1).1, (take d.text (take d.text s.1).2).1] =
      [placeholder 0xFFFFFFFFFFFFFFFF, placeholder 1] := by
    decide +kernel
  have htaken : Taken d.text s.1 [(take d.text s.1).1, (take d.text (take d.text s.1).2).1]
      (take d.text (take d.text s.1).2).2 := .cons (.cons (.nil _))
  rw [htokens] at htaken
  have hcopy : Edit.replaceBackwards? (d.editsWith Palette.default) d.text = some out := by
    decide +kernel
  obtain ⟨hspans, made, warnings, hrewrites, hmade, hgives⟩ :=
    recolorWith_gives_splice (p := Palette.default) hd (by decide +kernel) htaken rfl
      (by decide +kernel) (by decide +kernel)
  obtain rfl : made = out := Option.some.inj (hmade.symm.trans hcopy)
  exact ⟨_, _, warnings, hd, htaken, rfl, hspans, hrewrites, hmade, hgives⟩

end Document

end ThemeColor
