import Mathlib.Data.List.Basic
import ThemeColor.Document.Recolor
import ThemeColor.Proofs.HexDigits
import ThemeColor.Proofs.Occurrences
import ThemeColor.Proofs.Placeholders
import ThemeColor.Proofs.Resolution
import ThemeColor.Proofs.Success

/-!
# Recoloring and direct replacement

Recoloring puts a placeholder in the place of each color expression and then fills in the colors one
after the other. The outcome is compared with `Document.directEdits`, which puts each color in its
place at once. What is filled in stays apart from the text around it, so that every place can be
looked at alone (`fillIn_assemble`), and there the two differ exactly when a color that is filled in
holds a placeholder that is still to be filled (`recolor_eq_splice_iff`).
-/

namespace ThemeColor

open Text PlaceholderCounter

/-! ## Texts of colors are sealed -/

/-- No hexadecimal digit is the `opening` character of a placeholder. -/
theorem Hex.opening_notMem_text (bytes : List UInt8) : opening ∉ (Hex.text bytes).toList := by
  have hlower : opening ∉ lowerDigits := by decide +kernel
  rw [Hex.text, String.toList_ofList, List.mem_cons, not_or]
  exact ⟨by decide, fun h => hlower (mem_of_mem_shortDigits h)⟩

/-- A color function starts and ends as `Sealed` asks for. -/
theorem sealed_functionText {name : String} {c : Char} {rest : List Char}
    (hname : name.toList = c :: rest) (hc : isMark c = false) (x y z alpha : Expr Float) :
    Sealed (functionText name x y z alpha).toList := by
  have hseal (middle : String) : Sealed (name ++ middle ++ ")").toList := by
    have htext : (name ++ middle ++ ")").toList = c :: (rest ++ middle.toList ++ [')']) := by
      simp [hname]
    rw [htext]
    refine ⟨⟨c, _, rfl, hc⟩, endsSealed_of_getLast? (c := ')') ?_ (by decide) (by decide)⟩
    rw [List.getLast?_cons, List.getLast?_concat, Option.getD_some]
  unfold functionText
  split
  · have := hseal ("(" ++ (x.text ++ "," ++ y.text ++ "," ++ z.text))
    rwa [← String.append_assoc] at this
  · have := hseal ("a(" ++ ((x.text ++ "," ++ y.text ++ "," ++ z.text) ++ ("," ++ alpha.text)))
    rwa [← String.append_assoc, ← String.append_assoc, ← String.append_assoc] at this

/-- Every color is written as a `Sealed` text. -/
theorem sealed_css (color : Canonical Float) : Sealed color.css.toList := by
  cases color with
  | dynamic keyword =>
    cases keyword with
    | current =>
      exact ⟨⟨'c', _, rfl, by decide⟩, endsSealed_of_notMem (by decide)⟩
    | inherit =>
      exact ⟨⟨'i', _, rfl, by decide⟩, endsSealed_of_notMem (by decide)⟩
  | hsl color => exact sealed_functionText rfl (by decide) _ _ _ _
  | rgb color =>
    rw [Canonical.css]
    split
    · refine ⟨?_, endsSealed_of_notMem (Hex.opening_notMem_text _)⟩
      rw [Hex.text, String.toList_ofList]
      exact ⟨'#', _, rfl, by decide⟩
    · exact sealed_functionText rfl (by decide) _ _ _ _

/-! ## What stands in the place of an expression -/

/-- What may stand in the place of an expression while colors are filled in. -/
def Slot (text : List Char) : Prop := (∃ n, text = placeholder n) ∨ Sealed text

namespace Slot

variable {text : List Char}

/-- A `Slot` starts with the opening character, or with none of a placeholder. -/
theorem head (h : Slot text) :
    ∃ c rest, text = c :: rest ∧ (c = opening ∨ isMark c = false) := by
  rcases h with ⟨n, rfl⟩ | hsealed
  · exact ⟨opening, _, rfl, .inl rfl⟩
  · obtain ⟨c, rest, htext, hc⟩ := hsealed.head
    exact ⟨c, rest, htext, .inr hc⟩

/-- A `Slot` ends so that no placeholder goes on behind it. -/
theorem endsSealed (h : Slot text) : EndsSealed text := by
  rcases h with ⟨n, rfl⟩ | hsealed
  · exact endsSealed_placeholder n
  · exact hsealed.ends

/-- A `Slot` stays one when placeholders in it are replaced by sealed texts. -/
theorem replaceAll {n : UInt64} {css : List Char} (hcss : Sealed css) (h : Slot text) :
    Slot (replaceAll (placeholder n) css text) := by
  -- A placeholder is replaced as a whole or not at all.
  rcases h with ⟨m, rfl⟩ | hsealed
  · by_cases hmn : n = m
    · subst hmn
      rw [replaceAll_self (placeholder_ne_nil n)]
      exact .inr hcss
    · rw [replaceAll_of_absent (placeholder_ne_nil n) (not_infix_placeholder hmn)]
      exact .inl ⟨m, rfl⟩
  · exact .inr (Sealed.replaceAll hcss hsealed)

end Slot

/-- The text that is put together from kept parts, each with what follows it, and a last part. -/
def assemble (pieces : List (List Char × List Char)) (last : List Char) : List Char :=
  pieces.foldr (fun piece rest => piece.1 ++ (piece.2 ++ rest)) last

@[simp]
theorem assemble_nil (last : List Char) : assemble [] last = last := rfl

@[simp]
theorem assemble_cons (piece : List Char × List Char) (pieces : List (List Char × List Char))
    (last : List Char) :
    assemble (piece :: pieces) last = piece.1 ++ (piece.2 ++ assemble pieces last) := rfl

/-- A placeholder that the kept parts lack is replaced by `replaceAll` in each place on its own. -/
theorem replaceAll_assemble {n : UInt64} {css last : List Char}
    {pieces : List (List Char × List Char)}
    (hpieces : ∀ piece ∈ pieces, ¬ placeholder n <:+: piece.1 ∧ Slot piece.2)
    (hlast : ¬ placeholder n <:+: last) :
    replaceAll (placeholder n) css (assemble pieces last) =
      assemble (pieces.map fun piece => (piece.1, replaceAll (placeholder n) css piece.2))
        last := by
  have hp := placeholder_ne_nil n
  induction pieces with
  | nil => exact replaceAll_of_absent hp hlast
  | cons piece pieces ih =>
    obtain ⟨hkept, hslot⟩ := hpieces piece List.mem_cons_self
    obtain ⟨c, rest, hhead, hc⟩ := hslot.head
    -- No placeholder reaches across either end of the place.
    have hbefore : Apart (placeholder n) piece.1 (piece.2 ++ assemble pieces last) := by
      rw [hhead]
      exact apart_of_head hc n piece.1
    rw [assemble_cons, replaceAll_append hp hbefore, replaceAll_of_absent hp hkept,
      replaceAll_append hp (hslot.endsSealed.apart n _),
      ih fun piece hpiece => hpieces piece (List.mem_cons_of_mem _ hpiece)]
    rfl

/-! ## Filling in -/

/-- A replacement is usable for a text: its placeholder is a fresh one, and its color is sealed. -/
structure Replacement.Usable (text : List Char) (r : Replacement) : Prop where
  /-- The placeholder has a number and does not occur in the text. -/
  fresh : ∃ n, r.placeholder = PlaceholderCounter.placeholder n ∧
    ¬ PlaceholderCounter.placeholder n <:+: text
  /-- The text of the color is sealed. -/
  css_sealed : Sealed r.css

namespace Document

variable {text : List Char} {rs : List Replacement}

/-- Colors are filled in by `fillIn` in each place of `assemble` on its own. -/
theorem fillIn_assemble (hrs : ∀ r ∈ rs, r.Usable text) {last : List Char}
    {pieces : List (List Char × List Char)}
    (hpieces : ∀ piece ∈ pieces, piece.1 <:+: text ∧ Slot piece.2) (hlast : last <:+: text) :
    fillIn rs (assemble pieces last) =
      assemble (pieces.map fun piece => (piece.1, fillIn rs piece.2)) last := by
  induction rs generalizing pieces with
  | nil => simp [fillIn]
  | cons r rs ih =>
    obtain ⟨⟨n, hn, hfresh⟩, hsealed⟩ := hrs r List.mem_cons_self
    have hstep : fillIn (r :: rs) (assemble pieces last) =
        fillIn rs (replaceAll (placeholder n) r.css (assemble pieces last)) := by
      rw [← hn]
      rfl
    rw [hstep, replaceAll_assemble (fun piece hpiece =>
        ⟨fun h => hfresh (h.trans (hpieces piece hpiece).1), (hpieces piece hpiece).2⟩)
        fun h => hfresh (h.trans hlast),
      ih fun r hr => hrs r (List.mem_cons_of_mem _ hr)]
    · rw [List.map_map, ← hn]
      rfl
    · intro piece hpiece
      obtain ⟨old, hold, rfl⟩ := List.mem_map.mp hpiece
      exact ⟨(hpieces old hold).1, (hpieces old hold).2.replaceAll hsealed⟩

/-- The number of characters that stand in no placeholder. It tells apart a text with something
filled in from the text before. -/
def weight (text : List Char) : Nat := text.countP (!isMark ·)

theorem weight_pos_of_sealed {css : List Char} (h : Sealed css) : 0 < weight css := by
  obtain ⟨c, rest, rfl, hc⟩ := h.head
  simp [weight, hc]

/-- The function `fillIn` leaves a text alone only if none of the placeholders occurs in it, and
else makes it heavier. -/
theorem fillIn_eq_or_weight_lt (hrs : ∀ r ∈ rs, r.Usable text) (t : List Char) :
    (fillIn rs t = t ∧ ∀ r ∈ rs, ¬ r.placeholder <:+: t) ∨ weight t < weight (fillIn rs t) := by
  induction rs generalizing t with
  | nil => exact .inl ⟨rfl, by simp⟩
  | cons r rs ih =>
    obtain ⟨⟨n, hn, -⟩, hsealed⟩ := hrs r List.mem_cons_self
    have hp := placeholder_ne_nil n
    have hstep : fillIn (r :: rs) t = fillIn rs (replaceAll (placeholder n) r.css t) := by
      rw [← hn]
      rfl
    have hrest := ih fun r hr => hrs r (List.mem_cons_of_mem _ hr)
    rw [hstep]
    by_cases hoccurs : placeholder n <:+: t
    · -- One replacement makes the text heavier, and no later one makes it lighter again.
      have hlt : weight t < weight (replaceAll (placeholder n) r.css t) :=
        countP_lt_replaceAll hp (countP_placeholder n) (weight_pos_of_sealed hsealed) hoccurs
      rcases hrest (replaceAll (placeholder n) r.css t) with ⟨heq, -⟩ | hmore
      · exact .inr (heq.symm ▸ hlt)
      · exact .inr (Nat.lt_trans hlt hmore)
    · rw [replaceAll_of_absent hp hoccurs]
      rcases hrest t with ⟨heq, hfree⟩ | hmore
      · refine .inl ⟨heq, ?_⟩
        intro r' hr'
        rcases List.mem_cons.mp hr' with rfl | hr'
        · rw [hn]
          exact hoccurs
        · exact hfree r' hr'
      · exact .inr hmore

/-- The function `fillIn` leaves exactly the texts alone in which no placeholder occurs. -/
theorem fillIn_eq_self_iff (hrs : ∀ r ∈ rs, r.Usable text) (t : List Char) :
    fillIn rs t = t ↔ ∀ r ∈ rs, ¬ r.placeholder <:+: t := by
  constructor
  · intro h
    rcases fillIn_eq_or_weight_lt hrs t with ⟨-, hfree⟩ | hlt
    · exact hfree
    · rw [h] at hlt
      exact absurd hlt (Nat.lt_irrefl _)
  · intro hfree
    induction rs with
    | nil => rfl
    | cons r rs ih =>
      obtain ⟨⟨n, hn, -⟩, -⟩ := hrs r List.mem_cons_self
      have hkeep : replaceAll r.placeholder r.css t = t :=
        replaceAll_of_absent (hn ▸ placeholder_ne_nil n) (hfree r List.mem_cons_self)
      have hstep : fillIn (r :: rs) t = fillIn rs (replaceAll r.placeholder r.css t) := rfl
      rw [hstep, hkeep]
      exact ih (fun r hr => hrs r (List.mem_cons_of_mem _ hr))
        fun r hr => hfree r (List.mem_cons_of_mem _ hr)

/-- A placeholder waits for its own turn in `fillIn`, and only what comes after that acts on its
color. -/
theorem fillIn_placeholder {before after : List Replacement} {r : Replacement}
    (hrs : ∀ r' ∈ before ++ r :: after, r'.Usable text)
    (hdistinct : (before ++ r :: after).Pairwise fun a b => a.placeholder ≠ b.placeholder) :
    fillIn (before ++ r :: after) r.placeholder = fillIn after r.css := by
  obtain ⟨⟨n, hn, -⟩, -⟩ := hrs r (by simp)
  obtain ⟨-, -, hcross⟩ := List.pairwise_append.mp hdistinct
  -- Replacements before its turn have other placeholders, which do not occur in this one.
  have hwait : fillIn before r.placeholder = r.placeholder := by
    rw [fillIn_eq_self_iff fun r' hr' => hrs r' (List.mem_append_left _ hr')]
    intro r' hr' hinfix
    obtain ⟨⟨m, hm, -⟩, -⟩ := hrs r' (List.mem_append_left _ hr')
    have hne : m ≠ n := by
      rintro rfl
      exact hcross r' hr' r List.mem_cons_self (hm.trans hn.symm)
    rw [hm, hn] at hinfix
    exact not_infix_placeholder hne hinfix
  have hsplit : fillIn (before ++ r :: after) r.placeholder =
      fillIn after (replaceAll r.placeholder r.css (fillIn before r.placeholder)) := by
    simp [fillIn]
  rw [hsplit, hwait, replaceAll_self (hn ▸ placeholder_ne_nil n)]

/-! ## One place after the other -/

/-- Edits at places that cut a text, as `Edit.Cuts` says, put what they write between kept parts of
the text. -/
theorem exists_pieces_of_cuts {front rest : List Char} {spans : List Span}
    (htext : text = front ++ rest)
    (hcuts : Edit.Cuts (byteSize front) rest (spans.map fun span => ⟨span, []⟩)) :
    ∃ (pieces : List (List Char × Span)) (last : List Char), pieces.map (·.2) = spans ∧
      (∀ piece ∈ pieces, piece.1 <:+: text) ∧ last <:+: text ∧
      ∀ f : Span → List Char,
        Edit.spliceFrom text (byteSize front) (spans.map fun span => ⟨span, f span⟩) =
          assemble (pieces.map fun piece => (piece.1, f piece.2)) last := by
  induction spans generalizing front rest with
  | nil =>
    refine ⟨[], rest, rfl, by simp, ⟨front, [], by simp [htext]⟩, fun f => ?_⟩
    simp [Edit.spliceFrom, htext]
  | cons span spans ih =>
    cases hcuts with
    | cons kept under rest hstart hstop hrest =>
      simp only at hstart hstop hrest
      -- What is kept in front of the place and what lies under it belong to the front of the rest.
      have hposition : span.stop = byteSize (front ++ kept ++ under) := by
        simp only [byteSize_append]
        omega
      rw [hposition] at hrest
      obtain ⟨pieces, last, hspans, hpieces, hlast, hsplice⟩ := ih (by simp [htext]) hrest
      refine ⟨(kept, span) :: pieces, last, by simp [hspans], ?_, hlast, fun f => ?_⟩
      · intro piece hpiece
        rcases List.mem_cons.mp hpiece with rfl | hpiece
        · exact ⟨front, under ++ rest, by simp [htext]⟩
        · exact hpieces piece hpiece
      · rw [List.map_cons, Edit.spliceFrom_cons_of_cuts htext hstart]
        simp only [hposition]
        rw [hsplice f, List.map_cons, assemble_cons, List.append_assoc]

section Filled

variable {ι : Type} {pieces : List (List Char × ι)} {last : List Char} {f g : ι → List Char}

theorem map_filled_congr (h : ∀ piece ∈ pieces, f piece.2 = g piece.2) :
    pieces.map (fun piece => (piece.1, f piece.2)) =
      pieces.map fun piece => (piece.1, g piece.2) := by
  apply List.map_congr_left
  intro piece hpiece
  rw [h piece hpiece]

/-- Places that are never filled with something lighter make the text of `assemble` heavier, unless
all of them are filled the same. -/
theorem weight_assemble_lt_or_forall_eq
    (hweight : ∀ piece ∈ pieces, f piece.2 = g piece.2 ∨ weight (g piece.2) < weight (f piece.2)) :
    weight (assemble (pieces.map fun piece => (piece.1, g piece.2)) last) <
        weight (assemble (pieces.map fun piece => (piece.1, f piece.2)) last) ∨
      ∀ piece ∈ pieces, f piece.2 = g piece.2 := by
  induction pieces with
  | nil => exact .inr (by simp)
  | cons piece pieces ih =>
    obtain ⟨hfirst, hmore⟩ := List.forall_mem_cons.mp hweight
    have hrest := ih hmore
    simp only [List.map_cons, assemble_cons, weight, List.countP_append] at hrest hfirst ⊢
    -- Weights add up, so one place that is heavier is enough.
    rcases hfirst with hsame | hlt
    · rcases hrest with hlt | hsames
      · rw [hsame]
        exact .inl (by omega)
      · exact .inr (List.forall_mem_cons.mpr ⟨hsame, hsames⟩)
    · rcases hrest with hmore | hsames
      · exact .inl (by omega)
      · rw [map_filled_congr hsames]
        exact .inl (by omega)

/-- Texts of `assemble` in which the places are filled differently, but never with something
lighter, differ. -/
theorem assemble_eq_iff
    (hweight : ∀ piece ∈ pieces, f piece.2 = g piece.2 ∨ weight (g piece.2) < weight (f piece.2)) :
    assemble (pieces.map fun piece => (piece.1, f piece.2)) last =
        assemble (pieces.map fun piece => (piece.1, g piece.2)) last ↔
      ∀ piece ∈ pieces, f piece.2 = g piece.2 := by
  constructor
  · intro h
    rcases weight_assemble_lt_or_forall_eq hweight with hlt | hsame
    · rw [h] at hlt
      exact absurd hlt (Nat.lt_irrefl _)
    · exact hsame
  · intro h
    rw [map_filled_congr h]

end Filled

section Splice

variable {spans : List Span} (hslice : ∀ span ∈ spans, (span.slice? text).isSome)
  (hascending : spans.Pairwise fun a b => a.stop ≤ b.start)

include hslice hascending

/-- Places in ascending order cut the text into kept parts, whatever is put in the places. -/
theorem exists_pieces :
    ∃ (pieces : List (List Char × Span)) (last : List Char), pieces.map (·.2) = spans ∧
      (∀ piece ∈ pieces, piece.1 <:+: text) ∧ last <:+: text ∧
      ∀ f : Span → List Char,
        Edit.splice text (spans.map fun span => ⟨span, f span⟩) =
          assemble (pieces.map fun piece => (piece.1, f piece.2)) last := by
  have hcuts : Edit.Cuts (byteSize []) text (spans.map fun span => ⟨span, []⟩) := by
    refine Edit.cuts_of_pairwise rfl ?_ (fun _ _ => Nat.zero_le _)
      (List.pairwise_map.mpr hascending)
    intro edit hedit
    obtain ⟨span, hspan, rfl⟩ := List.mem_map.mp hedit
    exact hslice span hspan
  obtain ⟨pieces, last, hspans, hpieces, hlast, hsplice⟩ :=
    exists_pieces_of_cuts (List.nil_append text).symm hcuts
  exact ⟨pieces, last, hspans, hpieces, hlast, hsplice⟩

/-- Colors are filled in by `fillIn` in each place of the text on its own. -/
theorem fillIn_splice (hrs : ∀ r ∈ rs, r.Usable text) {marker : Span → List Char}
    (hmarker : ∀ span ∈ spans, Slot (marker span)) :
    fillIn rs (Edit.splice text (spans.map fun span => ⟨span, marker span⟩)) =
      Edit.splice text (spans.map fun span => ⟨span, fillIn rs (marker span)⟩) := by
  obtain ⟨pieces, last, hspans, hpieces, hlast, hsplice⟩ := exists_pieces hslice hascending
  have hslots : ∀ piece ∈ pieces.map fun piece => (piece.1, marker piece.2),
      piece.1 <:+: text ∧ Slot piece.2 := by
    intro piece hpiece
    obtain ⟨old, hold, rfl⟩ := List.mem_map.mp hpiece
    exact ⟨hpieces old hold, hmarker old.2 (hspans ▸ List.mem_map_of_mem hold)⟩
  rw [hsplice marker, hsplice fun span => fillIn rs (marker span),
    fillIn_assemble hrs hslots hlast, List.map_map]
  rfl

/-- Texts of `Edit.splice` in which the places are filled differently, but never with something
lighter, differ. -/
theorem splice_eq_iff {f g : Span → List Char}
    (hweight : ∀ span ∈ spans, f span = g span ∨ weight (g span) < weight (f span)) :
    Edit.splice text (spans.map fun span => ⟨span, f span⟩) =
        Edit.splice text (spans.map fun span => ⟨span, g span⟩) ↔
      ∀ span ∈ spans, f span = g span := by
  obtain ⟨pieces, last, rfl, -, -, hsplice⟩ := exists_pieces hslice hascending
  rw [List.forall_mem_map] at hweight ⊢
  rw [hsplice f, hsplice g]
  exact assemble_eq_iff hweight

end Splice

/-- The places of a document that is `Located` in a text can all be edited. -/
theorem Located.rewrites_splice {d : Document} (h : Located text d) {edits : List Edit}
    (hspans : edits.map (·.span) = d.spans) :
    Edit.Rewrites 0 text edits (Edit.splice text edits) := by
  refine Edit.rewrites_splice (fun edit hedit => ?_) (List.pairwise_map.mp (hspans ▸ h.ascending))
  obtain ⟨key, hkey, -⟩ := h.slice edit.span (hspans ▸ List.mem_map_of_mem hedit)
  exact Option.isSome_iff_exists.mpr ⟨key, hkey⟩

/-! ## The replacements of a document -/

/-- A `replacement` takes one placeholder and resolves one color. -/
theorem of_gives_replacement {σ : Type} {p : Palette Float} {source : PlaceholderSource σ}
    {m : String × Color Float} {r : Replacement} {s s' : σ × List Warning}
    (h : Gives (replacement p source text m) s r s') :
    r.key = m.1 ∧ source text s.1 = (r.placeholder, s'.1) ∧
      ∃ color, Yields (p.resolve m.2) color ∧ r.css = color.css.toList := by
  obtain ⟨color, mid, hcolor, h⟩ := gives_bind_iff.mp h
  obtain ⟨hrun, hmid⟩ := gives_lift_iff.mp hcolor
  obtain ⟨marker, last, hmarker, h⟩ := gives_bind_iff.mp h
  obtain ⟨htake, -⟩ := gives_modifyGet_iff.mp hmarker
  obtain ⟨rfl, rfl⟩ := gives_pure_iff.mp h
  exact ⟨rfl, hmid ▸ htake, color, ⟨s.2, mid.2, hrun⟩, rfl⟩

/-- Each `replacement` goes with a match, and the placeholders are taken one by one. -/
theorem of_gives_replacements {p : Palette Float} {ms : Matches} {rs : List Replacement}
    {s s' : PlaceholderCounter × List Warning}
    (h : Gives (ms.mapM (replacement p take text)) s rs s') :
    rs.map (·.key) = ms.keys ∧ Taken text s.1 (rs.map (·.placeholder)) s'.1 ∧
      ∀ r ∈ rs, ∃ c color, (r.key, c) ∈ ms ∧ Yields (p.resolve c) color ∧
        r.css = color.css.toList := by
  induction ms generalizing s rs with
  | nil =>
    obtain ⟨rfl, rfl⟩ := gives_mapM_nil_iff.mp h
    exact ⟨rfl, .nil _, by simp⟩
  | cons m ms ih =>
    obtain ⟨r, more, mid, rfl, hfirst, hmore⟩ := gives_mapM_cons_iff.mp h
    obtain ⟨hkey, htake, color, hcolor, hcss⟩ := of_gives_replacement hfirst
    obtain ⟨hkeys, htaken, hcolors⟩ := ih hmore
    refine ⟨?_, ?_, ?_⟩
    · simp only [Matches.keys, List.map_cons] at hkeys ⊢
      rw [hkey, hkeys]
    -- Resolving a color leaves the counter alone, so the next number follows on this one.
    · have hmid : (take text s.1).2 = mid.1 := by rw [htake]
      have hmarker : (take text s.1).1 = r.placeholder := by rw [htake]
      rw [List.map_cons, ← hmarker]
      exact .cons (hmid ▸ htaken)
    · intro r' hr'
      rcases List.mem_cons.mp hr' with rfl | hr'
      · exact ⟨m.2, color, by simp [hkey], hcolor, hcss⟩
      · obtain ⟨c, color', hmem, hyields, hcss'⟩ := hcolors r' hr'
        exact ⟨c, color', List.mem_cons_of_mem _ hmem, hyields, hcss'⟩

/-- The edit that puts the text of the canonical color in the place of a color expression. -/
def directEdit? (d : Document) (span : Span) : Option Edit := do
  let key ← span.slice? d.text
  let color ← d.found.lookup (String.ofList key)
  let canonical ← color.resolve.1.toOption
  some ⟨span, canonical.css.toList⟩

/-- The edits that put the texts of the canonical colors in the places of all color expressions, at
once. -/
def directEdits (d : Document) : List Edit := d.spans.filterMap d.directEdit?

/-- The replacement for the expression at a place. -/
def replacementAt (rs : List Replacement) (text : List Char) (span : Span) : Option Replacement :=
  rs.find? (·.key == String.ofList ((span.slice? text).getD []))

/-- The placeholder at a place. -/
def markerAt (rs : List Replacement) (text : List Char) (span : Span) : List Char :=
  ((replacementAt rs text span).map (·.placeholder)).getD []

/-- The text of the color that belongs at a place. -/
def cssAt (rs : List Replacement) (text : List Char) (span : Span) : List Char :=
  ((replacementAt rs text span).map (·.css)).getD []

/-- The replacements are ready to be filled in: they can be used, their placeholders differ, and
they go with the places of the document. -/
structure Prepared (text : List Char) (d : Document) (rs : List Replacement) : Prop where
  /-- Each of them can be used for the text. -/
  usable : ∀ r ∈ rs, r.Usable text
  /-- No two of them have the same placeholder. -/
  distinct : rs.Pairwise fun a b => a.placeholder ≠ b.placeholder
  /-- Each place has one, with the color that belongs there. -/
  at_span : ∀ span ∈ d.spans, ∃ r ∈ rs, replacementAt rs text span = some r ∧
    d.directEdit? span = some ⟨span, r.css⟩
  /-- Each of them has a place. -/
  has_span : ∀ r ∈ rs, ∃ span ∈ d.spans, replacementAt rs text span = some r

/-- With different keys every `Replacement` is found by its own. -/
theorem find?_key_eq_some (hkeys : (rs.map (·.key)).Nodup) {r : Replacement} (hr : r ∈ rs) :
    rs.find? (·.key == r.key) = some r := by
  induction rs with
  | nil => cases hr
  | cons first rs ih =>
    obtain ⟨hfirst, hrest⟩ := List.nodup_cons.mp hkeys
    rcases List.mem_cons.mp hr with rfl | hr
    · simp
    · have hne : (first.key == r.key) = false := by
        rw [beq_eq_false_iff_ne]
        intro heq
        exact hfirst (List.mem_map.mpr ⟨r, hr, heq.symm⟩)
      rw [List.find?_cons, hne]
      exact ih hrest hr

/-- The function `replacementAt` finds the replacement of the text that stands at a place. -/
theorem replacementAt_eq_some (hkeys : (rs.map (·.key)).Nodup) {span : Span} {key : List Char}
    {r : Replacement} (hr : r ∈ rs) (hkey : span.slice? text = some key)
    (heq : r.key = String.ofList key) : replacementAt rs text span = some r := by
  rw [replacementAt, hkey, Option.getD_some, ← heq]
  exact find?_key_eq_some hkeys hr

/-- Replacements that go with the matches sorted by `longestFirst` go with the matches: each text
has one. -/
theorem keys_of_longestFirst {found : Matches} (hfound : found.keys.Pairwise (· < ·))
    (hkeys : rs.map (·.key) = (longestFirst found).keys) :
    (rs.map (·.key)).Nodup ∧ rs.length = found.length ∧
      ∀ key, key ∈ rs.map (·.key) ↔ key ∈ found.keys := by
  have hperm : (rs.map (·.key)).Perm found.keys := by
    rw [hkeys]
    exact (List.mergeSort_perm found _).map _
  refine ⟨hperm.nodup_iff.mpr (hfound.imp ?_), ?_, fun key => hperm.mem_iff⟩
  · rintro a _ hlt rfl
    exact String.lt_irrefl a hlt
  · have hlength := hperm.length_eq
    simpa only [Matches.keys, List.length_map] using hlength

/-- Placeholders that were `Taken` one by one can be used and differ from each other, as long as
their numbers do not run out. -/
theorem usable_of_taken {start counter : PlaceholderCounter}
    (htaken : Taken text start (rs.map (·.placeholder)) counter)
    (hroom : rs.length + text.count opening ≤ 2 ^ 64) (hsealed : ∀ r ∈ rs, Sealed r.css) :
    (∀ r ∈ rs, r.Usable text) ∧ rs.Pairwise fun a b => a.placeholder ≠ b.placeholder := by
  obtain ⟨numbers, hnumbers, hless, hfresh⟩ :=
    htaken.exists_numbers (counted_self text start) (by rw [List.length_map]; omega)
  constructor
  · intro r hr
    have hnumber := hnumbers ▸ List.mem_map_of_mem (f := Replacement.placeholder) hr
    obtain ⟨k, hk, heq⟩ := List.mem_map.mp hnumber
    exact ⟨⟨start.ahead k, heq.symm, (hfresh k hk).2.2⟩, hsealed r hr⟩
  · rw [← List.pairwise_map (f := Replacement.placeholder) (R := (· ≠ ·)), hnumbers,
      List.pairwise_map]
    refine hless.imp_of_mem ?_
    intro i j hi hj hlt heq
    have hsame := eq_of_placeholder_ahead_eq (hfresh i hi).2.1 (hfresh j hj).2.1 heq
    omega

/-- A run that resolves all color expressions of a document has `Prepared` their replacements. -/
theorem prepared_of_gives {d : Document} (hlocated : Located text d)
    (hsize : byteSize text < 2 ^ 63) {s' : PlaceholderCounter × List Warning}
    (h : Gives ((longestFirst d.found).mapM (replacement Palette.default take d.text))
      (⟨0⟩, []) rs s') : Prepared text d rs := by
  obtain ⟨htext, -, hslice, hplace, hascending, hlength⟩ := hlocated
  rw [htext] at h
  obtain ⟨hkeys, htaken, hcolors⟩ := of_gives_replacements h
  obtain ⟨hnodup, hcount, hmem⟩ := keys_of_longestFirst hascending hkeys
  -- There are at most as many replacements and opening characters as the text is long.
  have hroom : rs.length + text.count opening ≤ 2 ^ 64 := by
    have hopening : text.count opening ≤ text.length := List.count_le_length
    have hbytes := length_le_byteSize text
    omega
  have hsealed : ∀ r ∈ rs, Sealed r.css := by
    intro r hr
    obtain ⟨c, color, -, -, hcss⟩ := hcolors r hr
    exact hcss ▸ sealed_css color
  obtain ⟨husable, hdistinct⟩ := usable_of_taken htaken hroom hsealed
  refine ⟨husable, hdistinct, ?_, ?_⟩
  · intro span hspan
    obtain ⟨key, hkey, hfound⟩ := hslice span hspan
    obtain ⟨r, hr, heq⟩ := List.mem_map.mp ((hmem _).mpr hfound)
    obtain ⟨c, color, hc, hyields, hcss⟩ := hcolors r hr
    refine ⟨r, hr, replacementAt_eq_some hnodup hr hkey heq, ?_⟩
    have hlookup : d.found.lookup r.key = some c :=
      Matches.lookup_eq_some hascending ((List.mergeSort_perm d.found _).mem_iff.mp hc)
    have hresolve : c.resolve.1 = .ok color := (Palette.resolveAt_appends c 0).ok_of_yields hyields
    rw [heq] at hlookup
    simp only [directEdit?, htext, hkey, hlookup, hresolve, hcss, Option.bind_eq_bind,
      Option.bind_some]
    rfl
  · intro r hr
    obtain ⟨span, hspan, hkey⟩ := hplace r.key ((hmem _).mp (List.mem_map_of_mem hr))
    exact ⟨span, hspan, replacementAt_eq_some hnodup hr hkey (String.ofList_toList).symm⟩

/-- In a list sorted by a relation, every element is related to all that stand behind it. -/
theorem pairwise_iff_forall_append {R : Replacement → Replacement → Prop} :
    rs.Pairwise R ↔ ∀ before r after, rs = before ++ r :: after → ∀ later ∈ after, R r later := by
  constructor
  · rintro h before r after rfl later hlater
    obtain ⟨-, hafter, -⟩ := List.pairwise_append.mp h
    exact (List.pairwise_cons.mp hafter).1 later hlater
  · intro h
    induction rs with
    | nil => exact .nil
    | cons r rs ih =>
      refine .cons (h [] r rs rfl) (ih ?_)
      rintro before r' after rfl
      exact h (r :: before) r' after rfl

/-- The `markers` of a document put a placeholder in each of its places. -/
theorem markers_eq_map {d : Document} (htext : d.text = text)
    (h : ∀ span ∈ d.spans, ∃ r, replacementAt rs text span = some r) :
    d.markers rs = d.spans.map fun span => ⟨span, markerAt rs text span⟩ := by
  apply List.filterMap_eq_map_iff_forall_eq_some.mpr
  intro span hspan
  obtain ⟨r, hat⟩ := h span hspan
  have hfind := hat
  rw [replacementAt, ← htext] at hfind
  simp only [hfind, markerAt, hat, Option.map_some, Option.getD_some]

/-- The `directEdits` of a document put a color in each of its places. -/
theorem directEdits_eq_map {d : Document} (h : Prepared text d rs) :
    d.directEdits = d.spans.map fun span => ⟨span, cssAt rs text span⟩ := by
  apply List.filterMap_eq_map_iff_forall_eq_some.mpr
  intro span hspan
  obtain ⟨r, -, hat, hdirect⟩ := h.at_span span hspan
  simp only [hdirect, cssAt, hat, Option.map_some, Option.getD_some]

namespace Prepared

variable {d : Document}

/-- What `markerAt` a place is the placeholder of a replacement, and its color belongs there. -/
theorem exists_turn (h : Prepared text d rs) {span : Span} (hspan : span ∈ d.spans) :
    ∃ before r after, rs = before ++ r :: after ∧ markerAt rs text span = r.placeholder ∧
      cssAt rs text span = r.css := by
  obtain ⟨r, hr, hat, -⟩ := h.at_span span hspan
  obtain ⟨before, after, hrs⟩ := List.append_of_mem hr
  exact ⟨before, r, after, hrs, by simp [markerAt, hat], by simp [cssAt, hat]⟩

/-- A placeholder is passed by `fillIn` until it is its turn; only later colors can change what is
filled in. -/
theorem fillIn_turn (h : Prepared text d rs) {before after : List Replacement} {r : Replacement}
    (hrs : rs = before ++ r :: after) :
    fillIn rs r.placeholder = fillIn after r.css ∧ ∀ later ∈ after, later.Usable text := by
  subst hrs
  exact ⟨fillIn_placeholder h.usable h.distinct,
    fun later hlater => h.usable later (by simp [hlater])⟩

/-- What `fillIn` makes of the placeholder at a place is the color of the place, or heavier. -/
theorem fillIn_markerAt_or_weight_lt (h : Prepared text d rs) {span : Span}
    (hspan : span ∈ d.spans) :
    fillIn rs (markerAt rs text span) = cssAt rs text span ∨
      weight (cssAt rs text span) < weight (fillIn rs (markerAt rs text span)) := by
  obtain ⟨before, r, after, hrs, hmarker, hcss⟩ := h.exists_turn hspan
  obtain ⟨hfill, husable⟩ := h.fillIn_turn hrs
  rw [hmarker, hcss, hfill]
  exact (fillIn_eq_or_weight_lt husable r.css).imp_left And.left

/-- All places get their colors from `fillIn` exactly when no color holds the placeholder of a color
that is filled in after it. -/
theorem forall_fillIn_eq_iff (h : Prepared text d rs) :
    (∀ span ∈ d.spans, fillIn rs (markerAt rs text span) = cssAt rs text span) ↔
      rs.Pairwise fun r later => ¬ occursIn later.placeholder r.css := by
  rw [pairwise_iff_forall_append]
  constructor
  · intro hall before r after hrs later hlater
    obtain ⟨hfill, husable⟩ := h.fillIn_turn hrs
    obtain ⟨span, hspan, hr⟩ := h.has_span r (by simp [hrs])
    have heq := hall span hspan
    simp only [markerAt, cssAt, hr, Option.map_some, Option.getD_some, hfill] at heq
    rw [occursIn_iff]
    exact (fillIn_eq_self_iff husable r.css).mp heq later hlater
  · intro hfree span hspan
    obtain ⟨before, r, after, hrs, hmarker, hcss⟩ := h.exists_turn hspan
    obtain ⟨hfill, husable⟩ := h.fillIn_turn hrs
    rw [hmarker, hcss, hfill, fillIn_eq_self_iff husable]
    intro later hlater
    rw [← occursIn_iff]
    exact hfree before r after hrs later hlater

end Prepared

/-- Filling in the colors with `fillIn` gives the same as putting them in their places at once
exactly when no color holds the placeholder of a color that is filled in after it. -/
theorem fillIn_eq_splice_iff {d : Document} (hlocated : Located text d) (h : Prepared text d rs) :
    fillIn rs (Edit.splice d.text (d.markers rs)) = Edit.splice text d.directEdits ↔
      rs.Pairwise fun r later => ¬ occursIn later.placeholder r.css := by
  have hslice : ∀ span ∈ d.spans, (span.slice? text).isSome := by
    intro span hspan
    obtain ⟨key, hkey, -⟩ := hlocated.slice span hspan
    exact Option.isSome_iff_exists.mpr ⟨key, hkey⟩
  have hslots : ∀ span ∈ d.spans, Slot (markerAt rs text span) := by
    intro span hspan
    obtain ⟨before, r, after, hrs, hmarker, -⟩ := h.exists_turn hspan
    obtain ⟨n, hn, -⟩ := (h.usable r (by simp [hrs])).fresh
    exact .inl ⟨n, hmarker.trans hn⟩
  have hat : ∀ span ∈ d.spans, ∃ r, replacementAt rs text span = some r := by
    intro span hspan
    obtain ⟨r, -, hat, -⟩ := h.at_span span hspan
    exact ⟨r, hat⟩
  -- Both sides put something in each of the places.
  rw [markers_eq_map hlocated.text_eq hat, directEdits_eq_map h, hlocated.text_eq,
    fillIn_splice hslice hlocated.ascending h.usable hslots,
    splice_eq_iff hslice hlocated.ascending fun span hspan => h.fillIn_markerAt_or_weight_lt hspan,
    h.forall_fillIn_eq_iff]

/-- The function `recolor` succeeds when all expressions can be replaced, and then fills in the
replacements. -/
theorem recolor_eq_ok_iff {d : Document} {out : List Char} :
    d.recolor = .ok out ↔
      ∃ rs s', Gives ((longestFirst d.found).mapM (replacement Palette.default take d.text))
          (⟨0⟩, []) rs s' ∧
        out = fillIn rs (Edit.splice d.text (d.markers rs)) := by
  constructor
  · intro h
    have hrun : Gives (d.recolorWith Palette.default take) (⟨0⟩, []) out
        ((((d.recolorWith Palette.default take).run.run ⟨0⟩).run []).1.2,
          (((d.recolorWith Palette.default take).run.run ⟨0⟩).run []).2) :=
      Prod.ext (Prod.ext h rfl) rfl
    obtain ⟨rs, s', hrs, hfill⟩ := gives_bind_iff.mp hrun
    exact ⟨rs, s', hrs, (gives_pure_iff.mp hfill).1.symm⟩
  · rintro ⟨rs, s', hrs, rfl⟩
    have hrun : Gives (d.recolorWith Palette.default take) (⟨0⟩, [])
        (fillIn rs (Edit.splice d.text (d.markers rs))) s' :=
      gives_bind_iff.mpr ⟨rs, s', hrs, gives_pure_iff.mpr ⟨rfl, rfl⟩⟩
    exact congrArg (fun outcome => outcome.1.1) hrun

/-- What `recolor` gives can be computed without sorting if the expressions come in order, the
longest one first. -/
theorem recolor_eq_ok_of_any {d : Document} {out : List Char}
    (hsorted : d.found.Pairwise fun a b => b.1.utf8ByteSize ≤ a.1.utf8ByteSize)
    (hany : ((((d.found.mapM (replacement Palette.default take d.text)).run.run ⟨0⟩).run
      []).1.1.toOption.any fun rs => fillIn rs (Edit.splice d.text (d.markers rs)) = out)) :
    d.recolor = .ok out := by
  have hlongest : longestFirst d.found = d.found :=
    List.mergeSort_of_pairwise (hsorted.imp fun hle => decide_eq_true hle)
  rcases hrun : ((d.found.mapM (replacement Palette.default take d.text)).run.run ⟨0⟩).run [] with
    ⟨⟨outcome, counter⟩, warnings⟩
  rw [hrun] at hany
  obtain ⟨rs, rfl, hout⟩ := exists_of_toOption_any hany
  rw [recolor_eq_ok_iff, hlongest]
  exact ⟨rs, (counter, warnings), hrun, (of_decide_eq_true hout).symm⟩

/-- **When recoloring replaces each expression by its color.** Each place of a document has a color
to be put there. What recoloring makes of the text is the copy of the text with exactly these colors
in these places if and only if no color holds the placeholder of a color that is filled in after it.
A text has to fit into memory, so that the numbers of the placeholders do not run out. -/
theorem recolor_eq_splice_iff {text out : List Char} {d : Document}
    (hsize : byteSize text < 2 ^ 63) (hparse : parse text = .ok d) (hout : d.recolor = .ok out) :
    d.directEdits.map (·.span) = d.spans ∧
      Edit.Rewrites 0 text d.directEdits (Edit.splice text d.directEdits) ∧
      Edit.replaceBackwards? d.directEdits text = some (Edit.splice text d.directEdits) ∧
      ∃ rs s', Gives ((longestFirst d.found).mapM (replacement Palette.default take d.text))
          (⟨0⟩, []) rs s' ∧
        (out = Edit.splice text d.directEdits ↔
          rs.Pairwise fun r later => ¬ occursIn later.placeholder r.css) := by
  have hlocated := located_of_parse hparse
  obtain ⟨rs, s', hrs, rfl⟩ := recolor_eq_ok_iff.mp hout
  have hprepared := prepared_of_gives hlocated hsize hrs
  have hspans : d.directEdits.map (·.span) = d.spans := by
    rw [directEdits_eq_map hprepared, List.map_map]
    exact List.map_id _
  have hrewrites := hlocated.rewrites_splice hspans
  exact ⟨hspans, hrewrites, hrewrites.replaceBackwards?_eq, rs, s', hrs,
    fillIn_eq_splice_iff hlocated hprepared⟩

/-- Two colors in a text in which something looks like the first placeholder. -/
theorem recolor_eq_splice_iff_private :
    let text := "\uE0000\uE001 @b @a".toList
    let out := ("\uE0000\uE001 rgba(var(--b-r),var(--b-g),var(--b-b),var(--b-a))" ++
      " rgba(var(--a-r),var(--a-g),var(--a-b),var(--a-a))").toList
    ∃ d rs s', byteSize text < 2 ^ 63 ∧ parse text = .ok d ∧ d.recolor = .ok out ∧
      d.directEdits.map (·.span) = d.spans ∧ Edit.Rewrites 0 text d.directEdits out ∧
      Edit.replaceBackwards? d.directEdits text = some out ∧
      Gives ((longestFirst d.found).mapM (replacement Palette.default take d.text))
        (⟨0⟩, []) rs s' ∧
      (out = Edit.splice text d.directEdits ↔
        rs.Pairwise fun r later => ¬ occursIn later.placeholder r.css) ∧
      rs.Pairwise fun r later => ¬ occursIn later.placeholder r.css := by
  intro text out
  have hruns : (parse text).toOption.any fun d =>
      (d.found.Pairwise fun a b => b.1.utf8ByteSize ≤ a.1.utf8ByteSize) &&
        (((d.found.mapM (replacement Palette.default take d.text)).run.run ⟨0⟩).run
          []).1.1.toOption.any (fun rs => fillIn rs (Edit.splice d.text (d.markers rs)) = out) &&
        Edit.replaceBackwards? d.directEdits text = some out := by
    decide +kernel
  obtain ⟨d, hparse, hruns⟩ := exists_of_toOption_any hruns
  simp only [Bool.and_eq_true, decide_eq_true_eq] at hruns
  obtain ⟨⟨hsorted, hany⟩, hcopy⟩ := hruns
  have hout : d.recolor = .ok out := recolor_eq_ok_of_any hsorted hany
  obtain ⟨hspans, hrewrites, hmade, rs, s', hrs, hiff⟩ :=
    recolor_eq_splice_iff (by decide) hparse hout
  obtain heq : Edit.splice text d.directEdits = out := Option.some.inj (hmade.symm.trans hcopy)
  rw [heq] at hrewrites
  exact ⟨d, rs, s', by decide, hparse, hout, hspans, hrewrites, hcopy, hrs, hiff,
    hiff.mp heq.symm⟩

/-- The name of the first color, written with escapes, is the placeholder of the second color. So
the second color is filled in inside the first one too, in place of its name. -/
theorem recolor_ne_splice_escaped :
    let text := "@\\e000 1\\e001  @b".toList
    let b := "rgba(var(--b-r),var(--b-g),var(--b-b),var(--b-a))"
    let first := "rgba(var(--" ++ b ++ "-r),var(--" ++ b ++ "-g),var(--" ++ b ++ "-b),var(--" ++
      b ++ "-a))"
    ∃ d out copy, parse text = .ok d ∧ d.recolor = .ok out ∧
      out = (first ++ " " ++ b).toList ∧
      Edit.replaceBackwards? d.directEdits text = some copy ∧
      copy = ("rgba(var(--\uE0001\uE001-r),var(--\uE0001\uE001-g),var(--\uE0001\uE001-b)," ++
        "var(--\uE0001\uE001-a)) " ++ b).toList ∧
      copy = Edit.splice text d.directEdits ∧ out ≠ copy := by
  intro text b first
  let out := (first ++ " " ++ b).toList
  let copy := ("rgba(var(--\uE0001\uE001-r),var(--\uE0001\uE001-g),var(--\uE0001\uE001-b)," ++
    "var(--\uE0001\uE001-a)) " ++ b).toList
  -- The matches are sorted already, and without the sorting step everything can be computed.
  have hruns : (parse text).toOption.any fun d =>
      (d.found.Pairwise fun a b => b.1.utf8ByteSize ≤ a.1.utf8ByteSize) &&
        (((d.found.mapM (replacement Palette.default take d.text)).run.run ⟨0⟩).run
          []).1.1.toOption.any (fun rs => fillIn rs (Edit.splice d.text (d.markers rs)) = out) &&
        Edit.replaceBackwards? d.directEdits text = some copy &&
        copy = Edit.splice text d.directEdits := by
    decide +kernel
  obtain ⟨d, hparse, hruns⟩ := exists_of_toOption_any hruns
  simp only [Bool.and_eq_true, decide_eq_true_eq] at hruns
  obtain ⟨⟨⟨hsorted, hany⟩, hcopy⟩, hsplice⟩ := hruns
  exact ⟨d, out, copy, hparse, recolor_eq_ok_of_any hsorted hany, rfl, hcopy, rfl, hsplice,
    by decide +kernel⟩

end Document

end ThemeColor
