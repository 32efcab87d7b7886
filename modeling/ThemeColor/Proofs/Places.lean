import ThemeColor.Proofs.Layout
import ThemeColor.Proofs.Reading
import ThemeColor.Sheet.Convert

/-!
# Where the parts of a style sheet stand

Every place that a reading finds lies between boundaries of the text, the places come in the order
of the text without overlap, and all of them lie in front of what is left. `Follows` says this for a
list of places; `Reads.placed` proves it for the values of all declarations, and for the at-rules
themselves, by induction on the reading. A block that is never closed ends where the text ends.
-/

namespace ThemeColor.Sheet

open Text Lexeme

/-- A character that is not blank stands at byte `n`. -/
def SolidAt (css : List Char) (n : Nat) : Prop :=
  ∃ front c rest, css = front ++ c :: rest ∧ byteSize front = n ∧ Scan.isSpace c = false

/-- A part of a style sheet that a conversion looks at. -/
inductive Site where
  /-- A rule that defines a color, with or without a block. -/
  | definition (heading : AtHeading) (hasBlock : Bool)
  /-- A declaration whose value may hold color expressions. -/
  | value (declaration : Declaration)
  deriving DecidableEq

/-- The place of the rule, or of the value. -/
def Site.span : Site → Span
  | .definition heading _ => heading.span
  | .value declaration => declaration.value

/-- The part lies between two boundaries, and unless it is an empty value it does not start with a
blank. -/
structure Site.In (css : List Char) (site : Site) : Prop where
  /-- The part starts between two characters. -/
  start : IsBoundary css site.span.start
  /-- The part stops between two characters. -/
  stop : IsBoundary css site.span.stop
  /-- The part does not stop before it starts. -/
  le : site.span.start ≤ site.span.stop
  /-- A part that is no empty value does not start with a blank. -/
  solid : SolidAt css site.span.start ∨ ∃ d, site = .value d ∧ d.value.start = d.value.stop

/-- The parts lie in the text one after the other, none of them before byte `low`, and the lexemes
of `rest` come after them. -/
def Follows (css : List Char) : (low : Nat) → List Site → (rest : List Lexeme) → Prop
  | low, [], rest => Laid css low rest
  | low, site :: parts, rest =>
    low ≤ site.span.start ∧ site.In css ∧ Follows css site.span.stop parts rest

variable {css : List Char} {low : Nat}

/-- Parts found in what the parts before have left follow those, as `Follows` says. -/
theorem Follows.append {a b : List Site} {mid rest : List Lexeme} (ha : Follows css low a mid)
    (hb : ∀ low', Laid css low' mid → Follows css low' b rest) :
    Follows css low (a ++ b) rest := by
  induction a generalizing low with
  | nil => exact hb low ha
  | cons site a ih => exact ⟨ha.1, ha.2.1, ih ha.2.2⟩

/-- Each of the parts lies in the text. -/
theorem Follows.forall_in {parts : List Site} {rest : List Lexeme}
    (h : Follows css low parts rest) : ∀ site ∈ parts, site.In css := by
  induction parts generalizing low with
  | nil => simp
  | cons site parts ih => exact List.forall_mem_cons.mpr ⟨h.2.1, ih h.2.2⟩

/-- Passing over lexemes, as `Consumes` says, leaves the others where they are. -/
theorem laid_of_consumes {input rest : List Lexeme} (h : Laid css low input)
    (hconsumes : Consumes input rest) : Laid css low rest := by
  obtain ⟨passed, rfl, hne⟩ := hconsumes
  induction passed with
  | nil => exact h
  | cons l passed ih =>
    exact ih (fun l' hl' => hne l' (List.mem_cons_of_mem _ hl')) (h.skip (hne l List.mem_cons_self))

/-- Passing over further lexemes keeps the parts that `Follows` describes in front of what is left.
-/
theorem Follows.of_consumes {parts : List Site} {mid rest : List Lexeme}
    (h : Follows css low parts mid) (hconsumes : Consumes mid rest) :
    Follows css low parts rest := by
  have := h.append (b := []) fun _ hmid => laid_of_consumes hmid hconsumes
  rwa [List.append_nil] at this

/-! ## Blocks and component values -/

/-- What is left after closing several blocks, the innermost one first. -/
def afterBlocks (stack : List Bracket) (input : List Lexeme) : List Lexeme :=
  stack.foldl (fun rest bracket => (afterBlock bracket rest).1) input

theorem afterBlocks_eof {stack : List Bracket} {l : Lexeme} {after : List Lexeme}
    (h : l.token = .eof) : afterBlocks stack (l :: after) = l :: after := by
  induction stack with
  | nil => rfl
  | cons bracket stack ih =>
    have hblock : (afterBlock bracket (l :: after)).1 = l :: after := by
      rw [afterBlock, if_neg (by simp [h]), if_pos h]
    rw [afterBlocks, List.foldl_cons, hblock]
    exact ih

/-- Measuring a block on a stack of open brackets with `blockEnd` ends where reading it ends, or at
the end of the text if a block is not closed. -/
theorem laid_blockEnd (bracket : Bracket) (stack : List Bracket) {last : Nat}
    {input : List Lexeme} (hinput : Laid css last input) (hlast : IsBoundary css last) :
    last ≤ blockEnd last (bracket :: stack) input ∧
      IsBoundary css (blockEnd last (bracket :: stack) input) ∧
      Laid css (blockEnd last (bracket :: stack) input) (afterBlocks (bracket :: stack) input) := by
  induction input generalizing last bracket stack with
  | nil => exact hinput.elim
  | cons l rest ih =>
    rw [blockEnd]
    -- The end of the text closes all blocks that are open.
    by_cases heof : l.token = .eof
    · rw [if_pos heof, afterBlocks_eof heof]
      exact ⟨hinput.1, hinput.2.1.start, Nat.le_refl _, hinput.2⟩
    · have hrest := hinput.tail heof
      have hle := Nat.le_trans hinput.1 l.start_le_stop
      have hstop := hinput.2.1.stop
      rw [if_neg heof]
      cases hopens : l.token.opens? with
      | some inner =>
        have hclose : l.token ≠ .closer bracket := by
          intro h
          simp [h, Token.opens?] at hopens
        have hafter : afterBlocks (bracket :: stack) (l :: rest) =
            afterBlocks (inner :: bracket :: stack) rest := by
          simp only [afterBlocks, List.foldl_cons]
          rw [afterBlock, if_neg hclose, if_neg heof]
          simp [hopens]
        obtain ⟨hge, hboundary, hlaid⟩ := ih inner (bracket :: stack) hrest hstop
        rw [hafter]
        exact ⟨Nat.le_trans hle hge, hboundary, hlaid⟩
      | none =>
        by_cases hclose : l.token = .closer bracket
        · have hafter : afterBlocks (bracket :: stack) (l :: rest) = afterBlocks stack rest := by
            simp only [afterBlocks, List.foldl_cons]
            rw [afterBlock, if_pos hclose]
          dsimp only
          rw [if_pos hclose, hafter]
          cases stack with
          | nil => exact ⟨hle, hstop, hrest⟩
          | cons next stack =>
            obtain ⟨hge, hboundary, hlaid⟩ := ih next stack hrest hstop
            exact ⟨Nat.le_trans hle hge, hboundary, hlaid⟩
        · have hafter : afterBlocks (bracket :: stack) (l :: rest) =
              afterBlocks (bracket :: stack) rest := by
            simp only [afterBlocks, List.foldl_cons]
            rw [afterBlock, if_neg hclose, if_neg heof]
            simp [hopens]
          dsimp only
          rw [if_neg hclose, hafter]
          obtain ⟨hge, hboundary, hlaid⟩ := ih bracket stack hrest hstop
          exact ⟨Nat.le_trans hle hge, hboundary, hlaid⟩

/-- A component value stops, at `Piece.stop`, in front of what is left after it. -/
theorem laid_stop_piece {l : Lexeme} {after : List Lexeme} (h : Laid css low (l :: after))
    (heof : l.token ≠ .eof) :
    l.start ≤ Piece.stop ⟨l, after⟩ ∧ IsBoundary css (Piece.stop ⟨l, after⟩) ∧
      Laid css (Piece.stop ⟨l, after⟩) (afterComponent l after).1 := by
  have hrest := h.tail heof
  unfold Piece.stop afterComponent
  dsimp only
  cases hopens : l.token.opens? with
  | none => exact ⟨l.start_le_stop, h.2.1.stop, hrest⟩
  | some bracket =>
    obtain ⟨hge, hboundary, hlaid⟩ :=
      laid_blockEnd bracket [] hrest h.2.1.stop
    exact ⟨Nat.le_trans l.start_le_stop hge, hboundary, hlaid⟩

/-- The first one of the `pieces` starts with the first lexeme, which does not end the values. -/
theorem exists_of_pieces_eq_cons {stop : Token → Bool} {input : List Lexeme} {p : Piece}
    {more : List Piece} (h : (pieces stop input).1 = p :: more) :
    input = p.first :: p.after ∧ stop p.first.token = false := by
  cases input with
  | nil =>
    rw [pieces] at h
    cases h
  | cons l after =>
    rw [pieces] at h
    split at h
    · cases h
    · rename_i hstop
      simp only [List.cons.injEq] at h
      obtain ⟨rfl, -⟩ := h
      exact ⟨rfl, by simpa using hstop⟩

/-- Some of the `pieces` from the front stop in front of what is left after all of them. -/
theorem laid_stop_pieces {stop : Token → Bool} (hstop : stop .eof) {input : List Lexeme}
    (h : Laid css low input) {kept dropped : List Piece}
    (hsplit : (pieces stop input).1 = kept ++ dropped) {last : Piece}
    (hlast : kept.getLast? = some last) :
    low ≤ last.stop ∧ IsBoundary css last.stop ∧
      Laid css last.stop (pieces stop input).2.1 := by
  fun_induction pieces stop input generalizing low kept with
  | case1 => exact h.elim
  | case2 =>
    obtain ⟨rfl, -⟩ := List.append_eq_nil_iff.mp hsplit.symm
    cases hlast
  | case3 l after hne rest more final heq =>
    rename_i ih
    have heof : l.token ≠ .eof := by
      intro heof
      rw [heof] at hne
      exact hne hstop
    obtain ⟨hge, hboundary, hlaid⟩ := laid_stop_piece h heof
    rw [heq] at ih
    cases kept with
    | nil => cases hlast
    | cons p kept =>
      simp only [List.cons_append, List.cons.injEq] at hsplit
      obtain ⟨rfl, hsplit⟩ := hsplit
      cases hkept : kept.getLast? with
      | none =>
        -- The value kept last is the first one; the other ones are only passed over.
        obtain rfl := List.getLast?_eq_none_iff.mp hkept
        obtain rfl : _ = last := by simpa using hlast
        have hpass := pieces_consumes hstop rest.1
        rw [heq] at hpass
        exact ⟨Nat.le_trans h.1 hge, hboundary, laid_of_consumes hlaid hpass⟩
      | some q =>
        obtain rfl : q = last := by simpa [List.getLast?_cons, hkept] using hlast
        obtain ⟨hge', hboundary', hlaid'⟩ := ih hlaid hsplit hkept
        exact ⟨Nat.le_trans h.1 (Nat.le_trans hge hge'), hboundary', hlaid'⟩

/-! ## Values of declarations -/

/-- What `dropImportant` leaves of the reversed values is their end. -/
theorem dropImportant_suffix (value : List Piece) : dropImportant value <:+ value := by
  unfold dropImportant
  split
  · exact List.suffix_refl _
  · rename_i last before
    split
    -- The value ends with the word; blanks and an exclamation mark may stand in front of it.
    · have hblank := List.dropWhile_suffix Piece.isWhitespace (l := before)
      split
      · exact List.nil_suffix
      · rename_i bang rest h
        rw [h] at hblank
        have hcons := hblank.trans (List.suffix_cons last before)
        split
        · exact (List.suffix_cons bang rest).trans hcons
        · exact hcons
    · exact List.suffix_refl _

/-- A value loses its `!important` and its blanks at the end only. -/
theorem bareValue_isPrefix (value : List Piece) : bareValue value <+: value := by
  have hsuffix : (dropImportant (value.reverse.dropWhile Piece.isWhitespace)).dropWhile
      Piece.isWhitespace <:+ value.reverse :=
    (List.dropWhile_suffix _).trans ((dropImportant_suffix _).trans (List.dropWhile_suffix _))
  have := List.reverse_prefix.mpr hsuffix
  rwa [List.reverse_reverse] at this

/-- The place of a value starts where the lexemes of the value start and stops in front of what is
left. -/
theorem follows_value {stop : Token → Bool} (hstop : stop .eof) {input : List Lexeme}
    (h : Laid css low input)
    (hsolid : ∀ l after, input = l :: after → stop l.token = false → l.token ≠ .whitespace)
    {d : Declaration}
    (hd : d.value = valueSpan (bareValue (pieces stop input).1) (pieces stop input).2.1) :
    Follows css low [.value d] (pieces stop input).2.1 := by
  have hrest := laid_of_consumes h (pieces_consumes hstop input)
  obtain ⟨dropped, hsplit⟩ := bareValue_isPrefix (pieces stop input).1
  generalize bareValue (pieces stop input).1 = kept at hsplit hd
  generalize hresult : (pieces stop input).2.1 = rest at hrest hd
  cases kept with
  | nil =>
    -- An empty value stands where the next lexeme does.
    cases rest with
    | nil => exact hrest.elim
    | cons l after =>
      have hspan : d.value = ⟨l.start, l.start⟩ := hd
      have hempty : d.value.start = d.value.stop := by rw [hspan]
      simp only [Follows, Site.span, hspan]
      refine ⟨hrest.1, ⟨?_, ?_, ?_, .inr ⟨d, rfl, hempty⟩⟩, Nat.le_refl _, hrest.2⟩
      · simpa only [Site.span, hspan] using hrest.2.1.start
      · simpa only [Site.span, hspan] using hrest.2.1.start
      · simp only [Site.span, hspan, Nat.le_refl]
  | cons p kept =>
    obtain ⟨last, hlast⟩ : ∃ last, (p :: kept).getLast? = some last :=
      ⟨_, List.getLast?_cons⟩
    -- The first piece that is kept starts with the first lexeme, which is neither blank nor the
    -- end.
    obtain ⟨hinput, hgoesOn⟩ := exists_of_pieces_eq_cons hsplit.symm
    have hfirst : Laid css p.first.start input := by
      rw [hinput] at h ⊢
      exact ⟨Nat.le_refl _, h.2⟩
    obtain ⟨hge, hboundary, hlaid⟩ := laid_stop_pieces hstop hfirst hsplit.symm hlast
    have hplaced : low ≤ p.first.start ∧ PlacedIn css p.first := by
      rw [hinput] at h
      exact ⟨h.1, h.2.1⟩
    have hspan : d.value = ⟨p.first.start, last.stop⟩ := by
      simp [hd, valueSpan, hlast]
    simp only [Follows, Site.span, hspan, ← hresult]
    refine ⟨hplaced.1, ⟨?_, ?_, ?_, .inl ?_⟩, hlaid⟩ <;> simp only [Site.span, hspan]
    · exact hplaced.2.start
    · exact hboundary
    · exact hge
    refine hplaced.2.solid (hsolid _ _ hinput hgoesOn) ?_
    intro heof
    rw [heof, hstop] at hgoesOn
    cases hgoesOn

/-- The value of a `declaration` stands in front of what is left after the declaration. -/
theorem follows_declaration {name : String} {input : List Lexeme} (h : Laid css low input) :
    Follows css low ((declaration name input).1.toList.map .value)
      (declaration name input).2.1 := by
  have hblanks := laid_of_consumes h (afterBlanks_consumes input)
  unfold declaration
  dsimp only
  split
  · rename_i hnil
    rw [hnil] at hblanks
    exact hblanks.elim
  · rename_i l after hcons
    rw [hcons] at hblanks
    split
    · rename_i hcolon
      have hafter : Laid css low (afterBlanks after).1 :=
        laid_of_consumes (hblanks.skip (by simp [hcolon])) (afterBlanks_consumes after)
      refine follows_value rfl hafter ?_ rfl
      rintro l' after' heq -
      -- The blanks in front of the value are passed over already.
      have hhead := List.head?_dropWhile_not (·.token.isWhitespace) after
      rw [show after.dropWhile (·.token.isWhitespace) = l' :: after' from heq] at hhead
      intro hblank
      simp [hblank, Token.isWhitespace] at hhead
    · exact laid_of_consumes hblanks (skip_consumes rfl _)

/-! ## Places that a conversion looks at -/

mutual

/-- The declarations that recoloring a rule comes to, in the order of the text. -/
def visited : Rule → List Declaration
  | .style _ ds => ds
  | .statement _ => []
  | .group _ inner => visitedAll inner
  | .page _ ds => ds

/-- The declarations that recoloring several rules comes to. -/
def visitedAll : List Rule → List Declaration
  | [] => []
  | rule :: more => visited rule ++ visitedAll more

end

/-- The parts that a conversion looks at in a rule outside of all blocks. -/
def sites (rule : Rule) : List Site :=
  match definition? rule with
  | some (heading, hasBlock) => [.definition heading hasBlock]
  | none => (visited rule).map .value

/-- The heading of an at-rule. -/
def heading? : Rule → Option AtHeading
  | .style _ _ => none
  | .statement heading | .group heading _ | .page heading _ => some heading

theorem heading?_of_definition? {rule : Rule} {h : AtHeading} {hasBlock : Bool}
    (hrule : definition? rule = some (h, hasBlock)) : heading? rule = some h := by
  cases rule with
  | style => cases hrule
  | statement heading | group heading | page heading =>
    simp only [definition?] at hrule
    split at hrule
    · simp_all [heading?]
    · cases hrule

/-- The `spanOf` some lexemes stops in front of the lexemes behind it. -/
theorem laid_stop_spanOf {first : Lexeme} {passed rest : List Lexeme}
    (h : Laid css first.stop (passed ++ rest)) (hfirst : PlacedIn css first)
    (hne : ∀ l ∈ passed, l.token ≠ .eof) :
    first.start ≤ (spanOf first passed).stop ∧ IsBoundary css (spanOf first passed).stop ∧
      Laid css (spanOf first passed).stop rest := by
  induction passed generalizing first with
  | nil => exact ⟨first.start_le_stop, hfirst.stop, h⟩
  | cons l passed ih =>
    have hspan : (spanOf first (l :: passed)).stop = (spanOf l passed).stop := by
      simp [spanOf, List.getLast?_cons]
    obtain ⟨hge, hboundary, hlaid⟩ := ih (h.tail (hne l List.mem_cons_self)) h.2.1
      fun l' hl' => hne l' (List.mem_cons_of_mem _ hl')
    rw [hspan]
    have := first.start_le_stop
    have := h.1
    exact ⟨by omega, hboundary, hlaid⟩

/-- An at-rule takes its place from its keyword to the last lexeme that was read. -/
theorem follows_heading {name : String} {keyword : Lexeme} {input rest : List Lexeme}
    {hasBlock : Bool}
    (h : Laid css low (keyword :: input)) (hkeyword : keyword.token = .atKeyword name)
    (hconsumes : Consumes input rest) :
    Follows css low [.definition (heading name keyword input rest) hasBlock] rest := by
  obtain ⟨hinput, hne⟩ := hconsumes.eq_consumed_append
  have htail := h.tail (by simp [hkeyword])
  rw [hinput] at htail
  obtain ⟨hge, hboundary, hlaid⟩ := laid_stop_spanOf htail h.2.1 hne
  refine ⟨h.1, ⟨h.2.1.start, hboundary, hge, .inl ?_⟩, hlaid⟩
  exact h.2.1.solid (by simp [hkeyword]) (by simp [hkeyword])

/-- The places of a rule: outside of all blocks the parts that a conversion looks at, and the values
that recoloring comes to otherwise. -/
def places (outside : Bool) (rule : Rule) : List Site :=
  if outside then sites rule else (visited rule).map .value

theorem visitedAll_eq_flatMap (rs : List Rule) : visitedAll rs = rs.flatMap visited := by
  induction rs with
  | nil => rfl
  | cons rule rs ih => rw [visitedAll, ih, List.flatMap_cons]

theorem map_value_visitedAll (rs : List Rule) :
    (visitedAll rs).map .value = rs.flatMap (places false) := by
  rw [visitedAll_eq_flatMap, List.map_flatMap]
  rfl

theorem places_style (outside : Bool) (prelude : Span) (ds : List Declaration) :
    places outside (.style prelude ds) = ds.map .value := by
  cases outside <;> rfl

/-- An at-rule whose `places` stand in the order of the text does so as a whole, too. -/
theorem follows_places {outside : Bool} {name : String} {keyword : Lexeme}
    {input rest : List Lexeme} {rule : Rule} (h : Laid css low (keyword :: input))
    (hkeyword : keyword.token = .atKeyword name) (hconsumes : Consumes input rest)
    (hrule : heading? rule = some (heading name keyword input rest))
    (hvalues : Follows css low ((visited rule).map .value) rest) :
    Follows css low (places outside rule) rest := by
  cases outside with
  | false => exact hvalues
  | true =>
    simp only [places, sites, if_true]
    cases hdefinition : definition? rule with
    | none => exact hvalues
    | some found =>
      obtain ⟨heading', hasBlock⟩ := found
      obtain rfl := Option.some.inj ((heading?_of_definition? hdefinition).symm.trans hrule)
      exact follows_heading h hkeyword hconsumes

theorem follows_statement {outside : Bool} {name : String} {keyword : Lexeme}
    {input rest : List Lexeme} (h : Laid css low (keyword :: input))
    (hkeyword : keyword.token = .atKeyword name) (hconsumes : Consumes input rest) :
    Follows css low (places outside (.statement (heading name keyword input rest))) rest :=
  follows_places h hkeyword hconsumes rfl
    (laid_of_consumes (h.skip (by simp [hkeyword])) hconsumes)

/-- What a reading finds stands in the text one after the other, and in front of what is left. -/
def Reading.Placed (css : List Char) (r : Reading) (input rest : List Lexeme) : Prop :=
  match r with
  | .atRule name keyword rule =>
    ∀ outside low, keyword.token = .atKeyword name → Laid css low (keyword :: input) →
      Follows css low (places outside rule) rest
  | .rules _ rs =>
    ∀ outside low, Laid css low input → Follows css low (rs.flatMap (places outside)) rest
  | .declarations ds => ∀ low, Laid css low input → Follows css low (ds.map .value) rest

/-- Whatever one `Reads`, its places are found in the order of the text. -/
theorem Reads.placed {r : Reading} {input rest : List Lexeme} (h : Reads r input rest) :
    r.Placed css input rest := by
  induction h with
  -- An at-rule without a block holds no values; all that counts is its own place.
  | atEnd hprelude =>
    intro outside low hkeyword hlaid
    exact follows_statement hlaid hkeyword (consumes_of_skip rfl hprelude)
  | atSemicolon hprelude hl =>
    intro outside low hkeyword hlaid
    exact follows_statement hlaid hkeyword
      ((consumes_of_skip rfl hprelude).trans (.cons (by simp [hl]) (.refl _)))
  | atOther hprelude =>
    intro outside low hkeyword hlaid
    exact follows_statement hlaid hkeyword (consumes_of_skip rfl hprelude)
  -- The values in a block lie between its braces.
  | atGroup hprelude hl _ hinner ih =>
    intro outside low hkeyword hlaid
    have hblock := laid_of_consumes (hlaid.skip (by simp [hkeyword]))
      (consumes_of_skip rfl hprelude)
    refine follows_places hlaid hkeyword (consumes_block rfl hprelude hl hinner.consumes) rfl ?_
    rw [visited, map_value_visitedAll]
    exact (ih false low (hblock.skip (by simp [hl]))).of_consumes (afterBrace_consumes _)
  | atPage hprelude hl _ hinner ih =>
    intro outside low hkeyword hlaid
    have hblock := laid_of_consumes (hlaid.skip (by simp [hkeyword]))
      (consumes_of_skip rfl hprelude)
    refine follows_places hlaid hkeyword (consumes_block rfl hprelude hl hinner.consumes) rfl ?_
    exact (ih low (hblock.skip (by simp [hl]))).of_consumes (afterBrace_consumes _)
  | noRules => exact fun _ _ hlaid => hlaid.elim
  | noDeclarations => exact fun _ hlaid => hlaid.elim
  | endRules => exact fun _ _ hlaid => hlaid
  | endDeclarations => exact fun _ hlaid => hlaid
  | betweenRules hl _ ih =>
    intro outside low hlaid
    exact ih outside low (hlaid.skip hl.ne_eof)
  | ruleAt hl _ _ ihrule ihmore =>
    intro outside low hlaid
    exact (ihrule outside low hl hlaid).append fun low' hmid => ihmore outside low' hmid
  | ruleCutOff _ hprelude =>
    intro outside low hlaid
    exact laid_of_consumes hlaid (consumes_of_skip rfl hprelude)
  | ruleStyle _ hprelude hbrace _ _ ihinner ihmore =>
    intro outside low hlaid
    have hblock := laid_of_consumes hlaid (consumes_of_skip rfl hprelude)
    have hds := (ihinner low (hblock.skip (by simp [hbrace]))).of_consumes (afterBrace_consumes _)
    rw [List.flatMap_cons, places_style]
    exact hds.append fun low' hmid => ihmore outside low' hmid
  | ruleStray _ hprelude hbrace _ ih =>
    intro outside low hlaid
    have hblock := laid_of_consumes hlaid (consumes_of_skip rfl hprelude)
    exact ih outside low (hblock.skip (by simp [hbrace]))
  | ruleLost _ hprelude =>
    intro outside low hlaid
    exact laid_of_consumes hlaid (consumes_of_skip rfl hprelude)
  | betweenDeclarations hl _ ih =>
    intro low hlaid
    exact ih low (hlaid.skip (by rcases hl with hl | hl <;> simp [hl]))
  | declarationAt hl hrule _ _ ihmore =>
    intro low hlaid
    exact ihmore low (laid_of_consumes (hlaid.skip (by simp [hl])) hrule.consumes)
  | declarationNamed hl _ ih =>
    intro low hlaid
    rw [List.map_append]
    exact (follows_declaration (hlaid.skip (by simp [hl]))).append fun low' hmid => ih low' hmid
  | declarationLost hl _ ih =>
    intro low hlaid
    exact ih low (laid_of_consumes (hlaid.skip hl.goesOn.1) (afterNonDeclaration_consumes _ _))

/-- The `sites` of a style sheet that its conversion looks at stand in the text one after the other.
-/
theorem follows_sites_ofText (css : List Char) :
    ∃ rest, Follows css 0 ((ofText css).flatMap sites) rest := by
  have hplaced : Reading.Placed css _ _ _ := (reads_rules true (Lexeme.ofText css)).placed
  exact ⟨_, hplaced true 0 (laid_ofText css)⟩

end ThemeColor.Sheet
