import Mathlib.Data.List.Pairwise
import ThemeColor.Proofs.Places
import ThemeColor.Proofs.Splitting

/-!
# Ranges of a style sheet

The rules of a style sheet keep the places of their parts: preludes, at-rules and the values of
declarations. `arranged_ofText` says that these places can be used to edit the text, whatever the
text is: each of them lies between characters of the text, the values come in the order of the
text, the at-rules of a list do not reach into each other, and no value reaches into an at-rule
without a block.

Two views of a list of rules carry the proof. In the open view the parts inside an at-rule stand for
it, in the closed view an at-rule is a part of its own. By one induction on the reading the parts of
either view follow each other in the text (`Reads.arranged`).
-/

namespace ThemeColor

open Text

/-- The span lies in the text and cuts no character. -/
structure Span.Fits (text : List Char) (span : Span) : Prop where
  /-- The span starts between two characters. -/
  start : IsBoundary text span.start
  /-- The span stops between two characters. -/
  stop : IsBoundary text span.stop
  /-- The span does not stop before it starts. -/
  le : span.start ≤ span.stop
  /-- The span does not pass the end of the text. -/
  inside : span.stop ≤ byteSize text

/-- Two boundaries in ascending order make a span that `Fits` the text. -/
theorem Span.fits_of_boundaries {text : List Char} {span : Span}
    (hstart : IsBoundary text span.start) (hstop : IsBoundary text span.stop)
    (hle : span.start ≤ span.stop) : span.Fits text :=
  ⟨hstart, hstop, hle, hstop.le_byteSize⟩

namespace Sheet

open Lexeme

/-! ## Rules inside rules -/

mutual

/-- The rule and the rules inside it, in the order of the text. -/
def family : Rule → List Rule
  | .style prelude ds => [.style prelude ds]
  | .statement heading => [.statement heading]
  | .group heading inner => .group heading inner :: families inner
  | .page heading ds => [.page heading ds]

/-- The rules and the rules inside them, in the order of the text. -/
def families : List Rule → List Rule
  | [] => []
  | rule :: more => family rule ++ families more

end

/-- The rules directly inside an at-rule. -/
def inner? : Rule → Option (List Rule)
  | .group _ inner => some inner
  | .style _ _ | .statement _ | .page _ _ => none

/-- The list itself and the lists of rules inside its rules. -/
def ruleLists (rs : List Rule) : List (List Rule) := rs :: (families rs).filterMap inner?

/-- The places that a rule keeps of itself and of its declarations. -/
def ranges : Rule → List Span
  | .style prelude ds => prelude :: ds.map (·.value)
  | .statement heading | .group heading _ => [heading.prelude, heading.span]
  | .page heading ds => heading.prelude :: heading.span :: ds.map (·.value)

/-- The ranges of some rules, and of the rules inside them, can be used to edit the text. -/
structure Arranged (css : List Char) (rs : List Rule) : Prop where
  /-- Every range lies in the text and cuts no character. -/
  fits : ∀ rule ∈ families rs, ∀ range ∈ ranges rule, range.Fits css
  /-- Each value stops before the values behind it start. -/
  values : (visitedAll rs).Pairwise fun a b => a.value.stop ≤ b.value.start
  /-- Each at-rule of a list stops before the at-rules behind it start. -/
  headings : ∀ list ∈ ruleLists rs,
    (list.filterMap heading?).Pairwise fun a b => a.span.stop ≤ b.span.start
  /-- No value reaches into an at-rule without a block. -/
  clear : ∀ heading, .statement heading ∈ families rs → ∀ d ∈ visitedAll rs,
    d.value.stop ≤ heading.span.start ∨ heading.span.stop ≤ d.value.start

/-! ## Parts that follow each other -/

variable {css : List Char} {low : Nat}

/-- A part that lies in a text has a span that `Fits` it. -/
theorem Site.In.fits {site : Site} (h : site.In css) : site.span.Fits css :=
  Span.fits_of_boundaries h.start h.stop h.le

/-- Each of the parts that `Follows` describes lies in the text, behind the start. -/
theorem Follows.forall_mem {parts : List Site} {rest : List Lexeme}
    (h : Follows css low parts rest) : ∀ site ∈ parts, low ≤ site.span.start ∧ site.In css := by
  induction parts generalizing low with
  | nil => simp
  | cons first parts ih =>
    obtain ⟨hlow, hin, hmore⟩ := h
    intro site hsite
    rcases List.mem_cons.mp hsite with rfl | hsite
    · exact ⟨hlow, hin⟩
    · obtain ⟨hafter, hsiteIn⟩ := ih hmore site hsite
      exact ⟨Nat.le_trans hlow (Nat.le_trans hin.le hafter), hsiteIn⟩

/-- Parts that `Follows` describes do not reach into each other. -/
theorem Follows.pairwise {parts : List Site} {rest : List Lexeme}
    (h : Follows css low parts rest) :
    parts.Pairwise fun a b => a.span.stop ≤ b.span.start := by
  induction parts generalizing low with
  | nil => exact .nil
  | cons first parts ih =>
    exact .cons (fun site hsite => (h.2.2.forall_mem site hsite).1) (ih h.2.2)

/-- Of two different parts one stands in front of the other. -/
theorem Follows.apart {parts : List Site} {rest : List Lexeme} (h : Follows css low parts rest)
    {a b : Site} (ha : a ∈ parts) (hb : b ∈ parts) (hne : a ≠ b) :
    a.span.stop ≤ b.span.start ∨ b.span.stop ≤ a.span.start := by
  have hpairwise : parts.Pairwise fun a b =>
      a.span.stop ≤ b.span.start ∨ b.span.stop ≤ a.span.start := h.pairwise.imp Or.inl
  have hsymm : Std.Symm fun a b : Site =>
      a.span.stop ≤ b.span.start ∨ b.span.stop ≤ a.span.start := ⟨fun _ _ => Or.symm⟩
  exact hpairwise.forall ha hb hne

mutual

/-- The parts of a rule. An at-rule without a block is a part as a whole, and in the closed view
any other at-rule is, too. -/
def parts (closed : Bool) : Rule → List Site
  | .style _ ds => ds.map .value
  | .statement heading => [.definition heading false]
  | .group heading inner =>
    if closed then [.definition heading true] else partsAll closed inner
  | .page heading ds => if closed then [.definition heading true] else ds.map .value

/-- The parts of several rules. -/
def partsAll (closed : Bool) : List Rule → List Site
  | [] => []
  | rule :: more => parts closed rule ++ partsAll closed more

end

/-- A prelude lies in the text: its `trimmedSpan` goes from its first lexeme that is not blank to
its last one, and an empty one stands where the next lexeme does. -/
theorem fits_trimmedSpan {input rest : List Lexeme} (h : Laid css low input)
    (hconsumes : Consumes input rest) : (trimmedSpan input rest).Fits css := by
  have hrest := laid_of_consumes h hconsumes
  obtain ⟨hinput, hne⟩ := hconsumes.eq_consumed_append
  unfold trimmedSpan
  obtain ⟨before, after, hpassed, -, -⟩ :=
    exists_eq_trimWhile (·.token.isWhitespace) (consumed input rest)
  cases htrim : trimWhile (·.token.isWhitespace) (consumed input rest) with
  | nil =>
    cases rest with
    | nil => exact hrest.elim
    | cons l rest =>
      have hstart : IsBoundary css l.start := hrest.2.1.start
      exact Span.fits_of_boundaries hstart hstart (Nat.le_refl _)
  | cons first more =>
    rw [htrim] at hpassed
    rw [hpassed] at hne
    -- The blanks in front are passed over; the lexemes that are kept start behind them.
    have hbefore : Consumes input (first :: (more ++ (after ++ rest))) := by
      refine ⟨before, ?_, fun l hl => hne l (by simp [hl])⟩
      rw [hinput, hpassed]
      simp
    have hfirst := laid_of_consumes h hbefore
    have htail := hfirst.tail (hne first (by simp))
    obtain ⟨hle, hstop, -⟩ := laid_stop_spanOf htail hfirst.2.1 fun l hl => hne l (by simp [hl])
    exact Span.fits_of_boundaries hfirst.2.1.start hstop hle

/-! ## What a reading arranges -/

/-- What the ranges of a rule have to be like, the rules inside it left aside: they lie in the text,
and the at-rules directly inside do not reach into each other. -/
structure Tidy (css : List Char) (rule : Rule) : Prop where
  /-- The ranges of the rule lie in the text. -/
  fits : ∀ range ∈ ranges rule, range.Fits css
  /-- Each at-rule directly inside stops before the ones behind it start. -/
  headings : ∀ inner, inner? rule = some inner →
    (inner.filterMap heading?).Pairwise fun a b => a.span.stop ≤ b.span.start

/-- The parts of the rules that were read follow each other in the text in both views, and every
rule is tidy. Of declarations `Reading.Placed` says enough. -/
def Reading.Arranged (css : List Char) (r : Reading) (input rest : List Lexeme) : Prop :=
  match r with
  | .atRule name keyword rule =>
    ∀ low, keyword.token = .atKeyword name → Laid css low (keyword :: input) →
      (∀ closed, Follows css low (parts closed rule) rest) ∧ ∀ r ∈ family rule, Tidy css r
  | .rules _ rs =>
    ∀ low, Laid css low input →
      (∀ closed, Follows css low (partsAll closed rs) rest) ∧ ∀ r ∈ families rs, Tidy css r
  | .declarations _ => True

/-- The spans of a `heading` lie in the text. -/
theorem fits_heading {name : String} {keyword : Lexeme} {input rest : List Lexeme}
    (h : Laid css low (keyword :: input)) (hkeyword : keyword.token = .atKeyword name)
    (hconsumes : Consumes input rest) :
    (heading name keyword input rest).prelude.Fits css ∧
      (heading name keyword input rest).span.Fits css := by
  have hinput := h.skip (by simp [hkeyword])
  have hspan : Follows css low [.definition (heading name keyword input rest) false] rest :=
    follows_heading h hkeyword hconsumes
  exact ⟨fits_trimmedSpan hinput (skip_consumes rfl input), hspan.2.1.fits⟩

/-- An at-rule without a block is `Arranged`. -/
theorem arranged_statement {name : String} {keyword : Lexeme} {input rest : List Lexeme}
    (hconsumes : Consumes input rest) :
    Reading.Arranged css (.atRule name keyword (.statement (heading name keyword input rest)))
      input rest := by
  intro low hkeyword hlaid
  have hfits := fits_heading hlaid hkeyword hconsumes
  refine ⟨fun _ => follows_heading hlaid hkeyword hconsumes, ?_⟩
  simp only [family, List.mem_singleton, forall_eq]
  exact ⟨by simpa [ranges] using hfits, by simp [inner?]⟩

theorem fits_of_follows_values {ds : List Declaration} {rest : List Lexeme}
    (h : Follows css low (ds.map .value) rest) : ∀ d ∈ ds, d.value.Fits css :=
  fun _ hd => (h.forall_mem _ (List.mem_map_of_mem hd)).2.fits

/-- In the closed view the at-rules of a list are parts, so they do not reach into each other. -/
theorem pairwise_headings {rs : List Rule} {rest : List Lexeme}
    (h : Follows css low (partsAll true rs) rest) :
    (rs.filterMap heading?).Pairwise fun a b => a.span.stop ≤ b.span.start := by
  have hsub : ∀ rs : List Rule, ((rs.filterMap heading?).map AtHeading.span).Sublist
      ((partsAll true rs).map Site.span) := by
    intro rs
    induction rs with
    | nil => exact .slnil
    | cons rule rs ih =>
      rw [partsAll, List.map_append]
      cases rule with
      | style prelude ds => exact ih.trans (List.sublist_append_right _ _)
      | statement heading | group heading inner | page heading ds => exact ih.cons_cons _
  have hspans : ((partsAll true rs).map Site.span).Pairwise fun a b => a.stop ≤ b.start :=
    List.pairwise_map.mpr h.pairwise
  exact List.pairwise_map.mp (hspans.sublist (hsub rs))

/-- Whatever one `Reads`, its rules are `Arranged`. -/
theorem Reads.arranged {r : Reading} {input rest : List Lexeme} (h : Reads r input rest) :
    r.Arranged css input rest := by
  induction h with
  | atEnd hprelude => exact arranged_statement (consumes_of_skip rfl hprelude)
  | atSemicolon hprelude hl =>
    exact arranged_statement
      ((consumes_of_skip rfl hprelude).trans (.cons (by simp [hl]) (.refl _)))
  | atOther hprelude => exact arranged_statement (consumes_of_skip rfl hprelude)
  -- An at-rule with a block is a part in the closed view; in the open view its inside is.
  | atGroup hprelude hl _ hinner ih =>
    intro low hkeyword hlaid
    have hconsumes := consumes_block rfl hprelude hl hinner.consumes
    have hblock := laid_of_consumes (hlaid.skip (by simp [hkeyword]))
      (consumes_of_skip rfl hprelude)
    obtain ⟨hparts, htidy⟩ := ih low (hblock.skip (by simp [hl]))
    refine ⟨fun closed => ?_, ?_⟩
    · cases closed with
      | true => exact follows_heading hlaid hkeyword hconsumes
      | false => exact (hparts false).of_consumes (afterBrace_consumes _)
    · have hfits := fits_heading hlaid hkeyword hconsumes
      rw [family]
      refine List.forall_mem_cons.mpr ⟨⟨by simpa [ranges] using hfits, ?_⟩, htidy⟩
      intro list hlist
      cases hlist
      exact pairwise_headings (hparts true)
  | atPage hprelude hl _ hinner =>
    intro low hkeyword hlaid
    have hconsumes := consumes_block rfl hprelude hl hinner.consumes
    have hblock := laid_of_consumes (hlaid.skip (by simp [hkeyword]))
      (consumes_of_skip rfl hprelude)
    have hvalues := (hinner.placed low (hblock.skip (by simp [hl]))).of_consumes
      (afterBrace_consumes _)
    refine ⟨fun closed => ?_, ?_⟩
    · cases closed with
      | true => exact follows_heading hlaid hkeyword hconsumes
      | false => exact hvalues
    · have hfits := fits_heading hlaid hkeyword hconsumes
      simp only [family, List.mem_singleton, forall_eq]
      refine ⟨?_, by simp [inner?]⟩
      simpa [ranges] using ⟨hfits.1, hfits.2, fits_of_follows_values hvalues⟩
  | noRules => exact fun _ hlaid => hlaid.elim
  | endRules => exact fun _ hlaid => ⟨fun _ => hlaid, by simp [families]⟩
  | betweenRules hl _ ih =>
    intro low hlaid
    exact ih low (hlaid.skip hl.ne_eof)
  | ruleAt hl hrule _ ihrule ihmore =>
    intro low hlaid
    obtain ⟨hparts, htidy⟩ := ihrule low hl hlaid
    have hmid := laid_of_consumes (hlaid.skip (by simp [hl])) hrule.consumes
    refine ⟨fun closed => ?_, ?_⟩
    · exact (hparts closed).append fun low' hmid' => (ihmore low' hmid').1 closed
    · exact List.forall_mem_append.mpr ⟨htidy, (ihmore low hmid).2⟩
  | ruleCutOff _ hprelude =>
    intro low hlaid
    exact ⟨fun _ => laid_of_consumes hlaid (consumes_of_skip rfl hprelude), by simp [families]⟩
  | ruleStyle _ hprelude hbrace hinner _ _ ihmore =>
    intro low hlaid
    have hblock := laid_of_consumes hlaid (consumes_of_skip rfl hprelude)
    have hvalues := (hinner.placed low (hblock.skip (by simp [hbrace]))).of_consumes
      (afterBrace_consumes _)
    have hmid := laid_of_consumes (hblock.skip (by simp [hbrace]))
      (hinner.consumes.trans (afterBrace_consumes _))
    refine ⟨fun closed => ?_, ?_⟩
    · exact hvalues.append fun low' hmid' => (ihmore low' hmid').1 closed
    · refine List.forall_mem_append.mpr ⟨?_, (ihmore low hmid).2⟩
      simp only [family, List.mem_singleton, forall_eq]
      refine ⟨?_, by simp [inner?]⟩
      simpa [ranges] using
        ⟨fits_trimmedSpan hlaid (skip_consumes rfl _), fits_of_follows_values hvalues⟩
  | ruleStray _ hprelude hbrace _ ih =>
    intro low hlaid
    have hblock := laid_of_consumes hlaid (consumes_of_skip rfl hprelude)
    exact ih low (hblock.skip (by simp [hbrace]))
  | ruleLost _ hprelude =>
    intro low hlaid
    exact ⟨fun _ => laid_of_consumes hlaid (consumes_of_skip rfl hprelude), by simp [families]⟩
  | noDeclarations | endDeclarations | betweenDeclarations | declarationAt | declarationNamed
  | declarationLost => trivial

/-! ## The whole style sheet -/

mutual

/-- In the open view the values of a rule are among its `parts`, in the same order. -/
theorem values_sublist_parts : ∀ rule, ((visited rule).map Site.value).Sublist (parts false rule)
  | .style _ _ => .refl _
  | .statement _ => List.nil_sublist _
  | .group _ inner => values_sublist_partsAll inner
  | .page _ _ => .refl _

theorem values_sublist_partsAll :
    ∀ rs, ((visitedAll rs).map Site.value).Sublist (partsAll false rs)
  | [] => .slnil
  | rule :: more => by
    rw [visitedAll, partsAll, List.map_append]
    exact (values_sublist_parts rule).append (values_sublist_partsAll more)

end

mutual

/-- In the open view an at-rule without a block is one of the `parts`, wherever it stands. -/
theorem statement_mem_parts {heading : AtHeading} :
    ∀ rule, .statement heading ∈ family rule → .definition heading false ∈ parts false rule
  | .style _ _, h => by simp [family] at h
  | .statement heading', h => by
    obtain rfl : heading = heading' := by simpa [family] using h
    exact List.mem_singleton_self _
  | .group _ inner, h => by
    have hinner : .statement heading ∈ families inner := by simpa [family] using h
    exact statement_mem_partsAll inner hinner
  | .page _ _, h => by simp [family] at h

theorem statement_mem_partsAll {heading : AtHeading} :
    ∀ rs, .statement heading ∈ families rs → .definition heading false ∈ partsAll false rs
  | [], h => by simp [families] at h
  | rule :: more, h => by
    rw [partsAll, List.mem_append]
    rcases List.mem_append.mp h with h | h
    · exact .inl (statement_mem_parts rule h)
    · exact .inr (statement_mem_partsAll more h)

end

/-- **All ranges of a style sheet can be used to edit its text**, however malformed the text is. -/
theorem arranged_ofText (css : List Char) : Arranged css (Sheet.ofText css) := by
  have harranged : Reading.Arranged css _ _ _ :=
    (reads_rules true (Lexeme.ofText css)).arranged
  obtain ⟨hparts, htidy⟩ := harranged 0 (laid_ofText css)
  have hvalues := values_sublist_partsAll (Sheet.ofText css)
  refine ⟨fun rule hrule => (htidy rule hrule).fits, ?_, ?_, ?_⟩
  · exact List.pairwise_map.mp ((hparts false).pairwise.sublist hvalues)
  · intro list hlist
    rcases List.mem_cons.mp hlist with rfl | hlist
    · exact pairwise_headings (hparts true)
    · obtain ⟨rule, hrule, hinner⟩ := List.mem_filterMap.mp hlist
      exact (htidy rule hrule).headings list hinner
  · intro heading hheading d hd
    exact (hparts false).apart (hvalues.subset (List.mem_map_of_mem hd))
      (statement_mem_partsAll _ hheading) (by simp)

end Sheet

end ThemeColor
