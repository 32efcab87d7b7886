import ThemeColor.Proofs.Bracketing

/-!
# The language of brackets

Which lexemes form a block can be said without matching them into components: `Balanced` is the
language of brackets of several kinds, each closed by its own kind, and `Block` adds what is asked
of the blocks of a color expression. This file proves that reading a block, and matching all
brackets, decides these languages.

## Main results

* `Bracket.Balanced.exists_matched`, `Component.MatchedAll.balanced`: the lexemes of matched
  components are the balanced lists of lexemes;
* `Component.atMostOpen_lexemesAll_append_iff`: components are as deep as brackets are open at some
  point of their lexemes;
* `Component.readBlock_decides_block`: a block is read up to the one token where a block ends.
-/

namespace ThemeColor

/-- The token opens a bracket of the given kind; a function opens a parenthesis. -/
inductive Token.Opens : Token → Bracket → Prop
  | opener (bracket : Bracket) : Opens (.opener bracket) bracket
  | function (name : String) : Opens (.function name) .paren

/-- The token neither opens nor closes a bracket. -/
def Token.IsFlat (t : Token) : Prop := ∀ bracket, ¬ t.Opens bracket ∧ t ≠ .closer bracket

/-- The function `opens?` decides what a token `Opens`. -/
theorem Token.opens?_eq_some_iff {t : Token} {bracket : Bracket} :
    t.opens? = some bracket ↔ t.Opens bracket := by
  constructor
  · intro h
    cases t <;> cases h
    · exact .function _
    · exact .opener _
  · rintro (_ | _) <;> rfl

/-- The function `closes?` decides what a token closes. -/
theorem Token.closes?_eq_some_iff {t : Token} {bracket : Bracket} :
    t.closes? = some bracket ↔ t = .closer bracket := by
  cases t <;> simp [Token.closes?]

/-- A token satisfies `IsFlat` if it neither opens nor closes a bracket. -/
theorem Token.isFlat_iff {t : Token} : t.IsFlat ↔ t.opens? = none ∧ t.closes? = none := by
  rw [Option.eq_none_iff_forall_ne_some, Option.eq_none_iff_forall_ne_some, ← forall_and]
  refine forall_congr' fun bracket => ?_
  exact and_congr (not_congr opens?_eq_some_iff.symm) (not_congr closes?_eq_some_iff.symm)

namespace Bracket

/-! ## Balanced lists of lexemes -/

/-- Every bracket is closed by its own kind, and brackets are properly nested. -/
inductive Balanced : List Lexeme → Prop
  | nil : Balanced []
  | flat {l : Lexeme} {ls : List Lexeme} (hflat : l.token.IsFlat) (hrest : Balanced ls) :
      Balanced (l :: ls)
  | nest {opener closer : Lexeme} {bracket : Bracket} {body ls : List Lexeme}
      (hopens : opener.token.Opens bracket) (hbody : Balanced body)
      (hcloses : closer.token = .closer bracket) (hrest : Balanced ls) :
      Balanced (opener :: (body ++ closer :: ls))

/-- The lexemes go from a function or an opening bracket to the bracket that closes it. -/
def IsBlock (ls : List Lexeme) : Prop :=
  ∃ opener body closer bracket, ls = opener :: (body ++ [closer]) ∧
    opener.token.Opens bracket ∧ Balanced body ∧ closer.token = .closer bracket

/-- At every point of the lexemes at most `n` brackets are open that were not open before. -/
def AtMostOpen (n : Nat) (ls : List Lexeme) : Prop :=
  ∀ front, front <+: ls →
    front.countP (·.token.opens?.isSome) ≤ front.countP (·.token.closes?.isSome) + n

/-- The lexeme is no quoted text without a closing quote. -/
def QuoteClosed (l : Lexeme) : Prop :=
  l.token ≠ .badString ∧ ∀ value, l.token = .string value → Component.endsWithQuote l.text

/-- A block of a color expression. -/
structure Block (ls : List Lexeme) : Prop where
  /-- The brackets are matched, and the last lexeme closes the first one. -/
  isBlock : IsBlock ls
  /-- The first lexeme is not closed any sooner. -/
  minimal : ∀ front, front <+: ls → front ≠ ls → ¬ IsBlock front
  /-- At most 64 brackets are open at a time. -/
  atMostOpen : AtMostOpen 64 ls
  /-- All quoted texts are closed. -/
  quoteClosed : ∀ l ∈ ls, QuoteClosed l

/-- A `Block` has two lexemes at least. -/
theorem Block.one_lt_length {ls : List Lexeme} (h : Block ls) : 1 < ls.length := by
  obtain ⟨opener, body, closer, bracket, rfl, -⟩ := h.isBlock
  simp

/-- What `Component.isTerminated` checks is that the quotes are closed, `QuoteClosed`. -/
theorem isTerminated_iff {l : Lexeme} : Component.isTerminated l ↔ QuoteClosed l := by
  unfold Component.isTerminated QuoteClosed
  cases l.token <;> simp

/-! ## Open brackets -/

variable {n : Nat} {l : Lexeme} {ls : List Lexeme}

theorem atMostOpen_nil (n : Nat) : AtMostOpen n [] := by
  intro front hfront
  rw [List.prefix_nil.mp hfront]
  simp

/-- A point of the lexemes of `AtMostOpen` is in front of the first one or behind it. -/
theorem atMostOpen_cons_iff :
    AtMostOpen n (l :: ls) ↔ ∀ front, front <+: ls →
      (l :: front).countP (·.token.opens?.isSome) ≤
        (l :: front).countP (·.token.closes?.isSome) + n := by
  constructor
  · intro h front hfront
    exact h (l :: front) (List.cons_prefix_cons.mpr ⟨rfl, hfront⟩)
  · intro h front hfront
    rcases List.prefix_cons_iff.mp hfront with rfl | ⟨front, rfl, hrest⟩
    · simp
    · exact h front hrest

/-- A token that is no bracket leaves `AtMostOpen` as it is. -/
theorem atMostOpen_flat_iff (hflat : l.token.IsFlat) :
    AtMostOpen n (l :: ls) ↔ AtMostOpen n ls := by
  obtain ⟨hopens, hcloses⟩ := Token.isFlat_iff.mp hflat
  rw [atMostOpen_cons_iff]
  simp [AtMostOpen, hopens, hcloses]

/-- A closing bracket leaves room for one more in `AtMostOpen`. -/
theorem atMostOpen_closer_iff {bracket : Bracket} (h : l.token = .closer bracket) :
    AtMostOpen n (l :: ls) ↔ AtMostOpen (n + 1) ls := by
  have hcloses := Token.closes?_eq_some_iff.mpr h
  have hopens := opens?_of_closes? hcloses
  rw [atMostOpen_cons_iff]
  simp [AtMostOpen, hopens, hcloses, Nat.add_assoc, Nat.add_comm 1]

/-- An opening bracket takes one of those that `AtMostOpen` allows. -/
theorem atMostOpen_opener_iff {bracket : Bracket} (h : l.token.Opens bracket) :
    AtMostOpen n (l :: ls) ↔ ∃ m, n = m + 1 ∧ AtMostOpen m ls := by
  have hopens := Token.opens?_eq_some_iff.mpr h
  have hcloses : l.token.closes? = none := by
    rcases hbracket : l.token.closes? with _ | bracket
    · rfl
    · rw [opens?_of_closes? hbracket] at hopens
      cases hopens
  rw [atMostOpen_cons_iff]
  cases n with
  | zero =>
    refine iff_of_false (fun hnone => ?_) (by simp)
    simpa [hopens, hcloses] using hnone [] List.nil_prefix
  | succ n => simp [AtMostOpen, hopens, hcloses, ← Nat.add_assoc]

end Bracket

namespace Component

open ThemeColor.Bracket

/-! ## Components and their lexemes -/

/-- A token is `Matched` if it is no bracket and its quotes are closed. -/
theorem matched_token_iff {l : Lexeme} :
    Component.Matched (.token l) ↔ l.token.IsFlat ∧ QuoteClosed l := by
  rw [Matched, Token.isFlat_iff, isTerminated_iff, and_assoc]

/-- A block is `Matched` if its brackets belong together and all inside is matched. -/
theorem matched_block_iff {opener closer : Lexeme} {body : List Component} :
    Component.Matched (.block opener body closer) ↔
      (∃ bracket, opener.token.Opens bracket ∧ closer.token = .closer bracket) ∧
        MatchedAll body := by
  simp only [Matched, Token.opens?_eq_some_iff, Token.closes?_eq_some_iff]

theorem quoteClosed_of_opens {l : Lexeme} {bracket : Bracket} (h : l.token.Opens bracket) :
    QuoteClosed l := by
  obtain ⟨token, gap, text, start⟩ := l
  cases h <;> simp [QuoteClosed]

theorem quoteClosed_of_closer {l : Lexeme} {bracket : Bracket} (h : l.token = .closer bracket) :
    QuoteClosed l := by
  simp [QuoteClosed, h]

mutual

/-- The brackets of a `Matched` component are `Balanced`, and its quoted texts are closed. -/
theorem Matched.balanced {rest : List Lexeme} (hrest : Balanced rest)
    (hclosed : ∀ l ∈ rest, QuoteClosed l) : (c : Component) → c.Matched →
      Balanced (c.lexemes ++ rest) ∧ ∀ l ∈ c.lexemes ++ rest, QuoteClosed l
  | .token l, h => by
    obtain ⟨hflat, hl⟩ := matched_token_iff.mp h
    exact ⟨.flat hflat hrest, List.forall_mem_cons.mpr ⟨hl, hclosed⟩⟩
  | .block opener body closer, h => by
    obtain ⟨⟨bracket, hopens, hcloses⟩, hbody⟩ := matched_block_iff.mp h
    obtain ⟨hinside, hinsideClosed⟩ := MatchedAll.balanced .nil (by simp) body hbody
    rw [List.append_nil] at hinside hinsideClosed
    rw [lexemes, List.cons_append, List.append_assoc, List.singleton_append]
    refine ⟨.nest hopens hinside hcloses hrest, ?_⟩
    rw [List.forall_mem_cons, List.forall_mem_append, List.forall_mem_cons]
    exact ⟨quoteClosed_of_opens hopens, hinsideClosed, quoteClosed_of_closer hcloses, hclosed⟩

/-- The brackets of `MatchedAll` components are `Balanced`, and their quoted texts are closed. -/
theorem MatchedAll.balanced {rest : List Lexeme} (hrest : Balanced rest)
    (hclosed : ∀ l ∈ rest, QuoteClosed l) : (cs : List Component) → MatchedAll cs →
      Balanced (lexemesAll cs ++ rest) ∧ ∀ l ∈ lexemesAll cs ++ rest, QuoteClosed l
  | [], _ => ⟨hrest, hclosed⟩
  | c :: cs, ⟨hc, hcs⟩ => by
    obtain ⟨hmore, hmoreClosed⟩ := MatchedAll.balanced hrest hclosed cs hcs
    rw [lexemesAll, List.append_assoc]
    exact Matched.balanced hmore hmoreClosed c hc

end

end Component

/-- Lexemes that are `Balanced`, with closed quoted texts, can be matched into components. -/
theorem Bracket.Balanced.exists_matched {ls : List Lexeme} (h : Balanced ls)
    (hclosed : ∀ l ∈ ls, QuoteClosed l) :
    ∃ cs, Component.MatchedAll cs ∧ Component.lexemesAll cs = ls := by
  induction h with
  | nil => exact ⟨[], trivial, rfl⟩
  | @flat l ls hflat hrest ih =>
    obtain ⟨hl, hclosed⟩ := List.forall_mem_cons.mp hclosed
    obtain ⟨cs, hcs, rfl⟩ := ih hclosed
    exact ⟨.token l :: cs, ⟨Component.matched_token_iff.mpr ⟨hflat, hl⟩, hcs⟩, rfl⟩
  | @nest opener closer bracket body ls hopens hbody hcloses hrest ihbody ihrest =>
    rw [List.forall_mem_cons, List.forall_mem_append, List.forall_mem_cons] at hclosed
    obtain ⟨-, hbodyClosed, -, hrestClosed⟩ := hclosed
    obtain ⟨inside, hinside, rfl⟩ := ihbody hbodyClosed
    obtain ⟨cs, hcs, rfl⟩ := ihrest hrestClosed
    refine ⟨.block opener inside closer :: cs, ⟨?_, hcs⟩, ?_⟩
    · exact Component.matched_block_iff.mpr ⟨⟨bracket, hopens, hcloses⟩, hinside⟩
    · simp [Component.lexemesAll, Component.lexemes]

namespace Component

open ThemeColor.Bracket

mutual

/-- The points of a component where most brackets are open, as `AtMostOpen` counts them, are as deep
as the component. -/
theorem atMostOpen_lexemes_append_iff {n : Nat} {rest : List Lexeme} : (c : Component) →
    c.Matched → (AtMostOpen n (c.lexemes ++ rest) ↔ c.depth ≤ n ∧ AtMostOpen n rest)
  | .token l, h => by
    rw [lexemes, List.singleton_append, atMostOpen_flat_iff (matched_token_iff.mp h).1, depth]
    simp
  | .block opener body closer, h => by
    obtain ⟨⟨bracket, hopens, hcloses⟩, hbody⟩ := matched_block_iff.mp h
    rw [lexemes, List.cons_append, List.append_assoc, List.singleton_append,
      atMostOpen_opener_iff hopens, depth]
    simp only [atMostOpen_lexemesAll_append_iff body hbody, atMostOpen_closer_iff hcloses]
    constructor
    · rintro ⟨m, rfl, hdepth, hrest⟩
      exact ⟨Nat.succ_le_succ hdepth, hrest⟩
    · rintro ⟨hdepth, hrest⟩
      obtain ⟨m, rfl⟩ := Nat.exists_eq_add_of_lt hdepth
      exact ⟨_, rfl, by omega, hrest⟩

/-- The points of components where most brackets are open are as deep as the deepest one,
`depthAll`. -/
theorem atMostOpen_lexemesAll_append_iff {n : Nat} {rest : List Lexeme} : (cs : List Component) →
    MatchedAll cs → (AtMostOpen n (lexemesAll cs ++ rest) ↔ depthAll cs ≤ n ∧ AtMostOpen n rest)
  | [], _ => by simp [lexemesAll, depthAll]
  | c :: cs, ⟨hc, hcs⟩ => by
    rw [lexemesAll, List.append_assoc, atMostOpen_lexemes_append_iff c hc,
      atMostOpen_lexemesAll_append_iff cs hcs, depthAll, Nat.max_le, and_assoc]

end

/-- A component has at most as many open brackets as its `depth` says. -/
theorem atMostOpen_lexemes_iff {n : Nat} {c : Component} (h : c.Matched) :
    AtMostOpen n c.lexemes ↔ c.depth ≤ n := by
  have happend : AtMostOpen n (c.lexemes ++ []) ↔ c.depth ≤ n ∧ AtMostOpen n [] :=
    atMostOpen_lexemes_append_iff c h
  rw [List.append_nil] at happend
  exact happend.trans (and_iff_left (atMostOpen_nil n))

theorem lexemesAll_eq_flatten (cs : List Component) :
    lexemesAll cs = (cs.map lexemes).flatten := by
  induction cs with
  | nil => rfl
  | cons c cs ih => rw [lexemesAll, ih, List.map_cons, List.flatten_cons]

/-! ## Blocks -/

/-- The lexemes of a `Matched` block satisfy `IsBlock`. -/
theorem isBlock_lexemes {opener closer : Lexeme} {body : List Component}
    (h : Component.Matched (.block opener body closer)) :
    IsBlock (Component.lexemes (.block opener body closer)) := by
  obtain ⟨⟨bracket, hopens, hcloses⟩, hbody⟩ := matched_block_iff.mp h
  obtain ⟨hbalanced, -⟩ := MatchedAll.balanced .nil (by simp) body hbody
  rw [List.append_nil] at hbalanced
  exact ⟨opener, _, closer, bracket, rfl, hopens, hbalanced, hcloses⟩

/-- Lexemes that satisfy `IsBlock` can be matched into one block. -/
theorem exists_matched_of_isBlock {ls : List Lexeme} (h : IsBlock ls)
    (hclosed : ∀ l ∈ ls, QuoteClosed l) :
    ∃ opener body closer, Component.Matched (.block opener body closer) ∧
      Component.lexemes (.block opener body closer) = ls := by
  obtain ⟨opener, body, closer, bracket, rfl, hopens, hbody, hcloses⟩ := h
  obtain ⟨cs, hcs, rfl⟩ := hbody.exists_matched fun l hl => hclosed l (by simp [hl])
  exact ⟨opener, cs, closer, matched_block_iff.mpr ⟨⟨bracket, hopens, hcloses⟩, hcs⟩, rfl⟩

/-- A `Block` of color expressions is the lexemes of a matched block that does not nest too deep. -/
theorem block_iff {ls : List Lexeme} :
    Block ls ↔ ∃ opener body closer, Component.Matched (.block opener body closer) ∧
      Component.depth (.block opener body closer) ≤ nestingLimit ∧
      Component.lexemes (.block opener body closer) = ls := by
  constructor
  · intro h
    obtain ⟨opener, body, closer, hmatched, rfl⟩ :=
      exists_matched_of_isBlock h.isBlock h.quoteClosed
    exact ⟨opener, body, closer, hmatched, (atMostOpen_lexemes_iff hmatched).mp h.atMostOpen, rfl⟩
  · rintro ⟨opener, body, closer, hmatched, hdepth, rfl⟩
    obtain ⟨-, hclosed⟩ := Matched.balanced .nil (by simp) _ hmatched
    rw [List.append_nil] at hclosed
    refine ⟨isBlock_lexemes hmatched, ?_, (atMostOpen_lexemes_iff hmatched).mpr hdepth, hclosed⟩
    -- Two blocks that start at the same lexeme are the same block.
    rintro front ⟨rest, hfront⟩ hne hblock
    obtain ⟨opener', body', closer', hmatched', rfl⟩ :=
      exists_matched_of_isBlock hblock fun l hl => hclosed l (hfront ▸ List.mem_append_left rest hl)
    obtain ⟨-, rfl⟩ := Matched.eq_of_append _ _ hmatched' hmatched
      (hfront.trans (List.append_nil _).symm)
    exact hne (by rw [← hfront, List.append_nil])

/-- The lexemes of a `Matched` component: a `Block`, or a token that is no bracket. -/
theorem exists_matched_iff {ls : List Lexeme} :
    (∃ c : Component, c.Matched ∧ c.depth ≤ nestingLimit ∧ c.lexemes = ls) ↔
      Block ls ∨ ∃ l, ls = [l] ∧ l.token.IsFlat ∧ QuoteClosed l := by
  constructor
  · rintro ⟨c, hmatched, hdepth, rfl⟩
    cases c with
    | token l => exact .inr ⟨l, rfl, matched_token_iff.mp hmatched⟩
    | block opener body closer =>
      exact .inl (block_iff.mpr ⟨opener, body, closer, hmatched, hdepth, rfl⟩)
  · rintro (hblock | ⟨l, rfl, hl⟩)
    · obtain ⟨opener, body, closer, hc⟩ := block_iff.mp hblock
      exact ⟨_, hc⟩
    · exact ⟨.token l, matched_token_iff.mpr hl, Nat.zero_le _, rfl⟩

/-- A block is read by `readBlock` from its first lexeme on exactly if its other lexemes come first.
-/
theorem readBlock_eq_ok_iff {opener : Lexeme} {bracket : Bracket} {rest after : List Lexeme}
    {c : Component} (hopens : opener.token.Opens bracket) :
    readBlock opener bracket rest = .ok (c, after) ↔
      ∃ used, rest = used ++ after ∧ c.Matched ∧ c.depth ≤ nestingLimit ∧
        c.lexemes = opener :: used := by
  have hopens? := Token.opens?_eq_some_iff.mpr hopens
  constructor
  · intro h
    obtain ⟨used, hrest, hlexemes⟩ := lexemes_of_readBlock h
    exact ⟨used, hrest, matched_of_readBlock h hopens?, depth_of_readBlock h, hlexemes⟩
  · rintro ⟨used, rfl, hmatched, hdepth, hlexemes⟩
    cases c with
    | token l =>
      obtain ⟨rfl, -⟩ := List.cons.inj hlexemes
      exact absurd hopens ((matched_token_iff.mp hmatched).1 bracket).1
    | block first body closer =>
      obtain ⟨rfl, rfl⟩ := List.cons.inj hlexemes
      obtain ⟨⟨bracket', hfirst, hcloser⟩, hbody⟩ := hmatched
      obtain rfl : bracket = bracket' := Option.some.inj (hopens?.symm.trans hfirst)
      rw [List.append_assoc, List.singleton_append]
      exact readBlock_lexemes first hcloser hbody hdepth after

/-- All brackets are matched by `forest` exactly if the lexemes can be cut into blocks and tokens.
-/
theorem exists_forest_iff {ls : List Lexeme} :
    (∃ cs, forest ls = .ok cs) ↔ ∃ pieces : List (List Lexeme), ls = pieces.flatten ∧
      ∀ piece ∈ pieces, Block piece ∨ ∃ l, piece = [l] ∧ l.token.IsFlat ∧ QuoteClosed l := by
  simp only [forest_eq_ok_iff, ← exists_matched_iff]
  constructor
  · rintro ⟨cs, rfl, hmatched, hdepth⟩
    refine ⟨cs.map lexemes, lexemesAll_eq_flatten cs, fun piece hpiece => ?_⟩
    obtain ⟨c, hc, rfl⟩ := List.mem_map.mp hpiece
    exact ⟨c, matchedAll_iff.mp hmatched c hc, depthAll_le_iff.mp hdepth c hc, rfl⟩
  · rintro ⟨pieces, rfl, hpieces⟩
    induction pieces with
    | nil => exact ⟨[], rfl, trivial, Nat.zero_le _⟩
    | cons piece pieces ih =>
      obtain ⟨⟨c, hc, hdepth, rfl⟩, hmore⟩ := List.forall_mem_cons.mp hpieces
      obtain ⟨cs, hlexemes, hcs, hdepths⟩ := ih hmore
      exact ⟨c :: cs, by rw [lexemesAll, hlexemes, List.flatten_cons], ⟨hc, hcs⟩,
        Nat.max_le.mpr ⟨hdepth, hdepths⟩⟩

theorem extract_eq_cons {tokens : List Lexeme} {i : Nat} {opener : Lexeme}
    (h : tokens[i]? = some opener) (n : Nat) :
    tokens.extract i (i + n + 1) = opener :: (tokens.drop (i + 1)).take n := by
  obtain ⟨hi, rfl⟩ := List.getElem?_eq_some_iff.mp h
  rw [List.extract_eq_take_drop, List.drop_eq_getElem_cons hi, Nat.add_assoc,
    Nat.add_sub_cancel_left, List.take_succ_cons]

/-- **Reading a block finds the token that closes it.** Let a function or an opening bracket stand
at an index of some tokens. Of the tokens in front of index `stop`, the block that is read ends at
index `close` exactly if the tokens from the first index to that one are a block: every bracket in
it is closed by its own kind, brackets are properly nested, no part of it from its first token on is
a block, at most 64 brackets are open at any point, and all quoted texts are closed. All brackets of
some tokens are matched exactly if they are a sequence of such blocks and of tokens that are no
brackets, with closed quoted texts. -/
theorem readBlock_decides_block :
    (∀ (tokens : List Lexeme) (i stop close : Nat) (opener : Lexeme) (bracket : Bracket),
      tokens[i]? = some opener → opener.token.Opens bracket →
        ((∃ c after, readBlock opener bracket (tokens.extract (i + 1) stop) = .ok (c, after) ∧
          i + c.lexemes.length = close + 1) ↔
        close < stop ∧ close < tokens.length ∧ Block (tokens.extract i (close + 1)))) ∧
    ∀ tokens : List Lexeme, (∃ cs, forest tokens = .ok cs) ↔
      ∃ pieces : List (List Lexeme), tokens = pieces.flatten ∧
        ∀ piece ∈ pieces, Block piece ∨ ∃ l, piece = [l] ∧ l.token.IsFlat ∧ QuoteClosed l := by
  refine ⟨fun tokens i stop close opener bracket hopener hopens => ?_, fun _ => exists_forest_iff⟩
  have hbehind : tokens.extract (i + 1) stop = (tokens.drop (i + 1)).take (stop - (i + 1)) :=
    List.extract_eq_take_drop
  simp only [readBlock_eq_ok_iff hopens, hbehind]
  constructor
  · rintro ⟨c, after, ⟨used, hused, hmatched, hdepth, hlexemes⟩, hclose⟩
    have hblock : Block (opener :: used) := by
      refine (exists_matched_iff.mp ⟨c, hmatched, hdepth, hlexemes⟩).resolve_right ?_
      rintro ⟨l, hl, hflat, -⟩
      obtain ⟨rfl, -⟩ := List.cons.inj hl
      exact (hflat bracket).1 hopens
    rw [hlexemes, List.length_cons] at hclose
    obtain rfl : i + used.length = close := by omega
    obtain ⟨hpart, hstop⟩ := List.prefix_take_iff.mp ⟨after, hused.symm⟩
    have hlength := hpart.length_le
    rw [List.length_drop] at hlength
    have htwo := hblock.one_lt_length
    rw [List.length_cons] at htwo
    refine ⟨by omega, by omega, ?_⟩
    rwa [extract_eq_cons hopener, ← List.prefix_iff_eq_take.mp hpart]
  · rintro ⟨hstop, hlength, hblock⟩
    have htwo := hblock.one_lt_length
    rw [List.extract_eq_take_drop, List.length_take] at htwo
    obtain ⟨n, rfl⟩ : ∃ n, close = i + n := Nat.exists_eq_add_of_le (by omega)
    rw [extract_eq_cons hopener] at hblock
    obtain ⟨c, hmatched, hdepth, hlexemes⟩ := exists_matched_iff.mpr (.inl hblock)
    -- The tokens in front of `stop` start with those up to the end of the block.
    obtain ⟨after, hafter⟩ : (tokens.drop (i + 1)).take n <+:
        (tokens.drop (i + 1)).take (stop - (i + 1)) := List.take_prefix_take_left (by omega)
    refine ⟨c, after, ⟨_, hafter.symm, hmatched, hdepth, hlexemes⟩, ?_⟩
    rw [hlexemes, List.length_cons, List.length_take, List.length_drop]
    omega

/-- A function that starts at the second of some tokens, with two blocks and a quoted parenthesis
inside it, ends at the last but one of them. -/
theorem readBlock_decides_block_nested :
    let tokens := Lexeme.contents "a f([b](\")\"))]".toList
    (∃ opener, tokens[2]? = some opener ∧ opener.token.Opens .paren ∧
      ∃ c after, readBlock opener .paren (tokens.extract 3 11) = .ok (c, after) ∧
        2 + c.lexemes.length = 9 + 1) ∧
    Block (tokens.extract 2 10) ∧ (∃ cs, forest (tokens.extract 0 10) = .ok cs) ∧
    ∃ pieces : List (List Lexeme), tokens.extract 0 10 = pieces.flatten ∧
      ∀ piece ∈ pieces, Block piece ∨ ∃ l, piece = [l] ∧ l.token.IsFlat ∧ QuoteClosed l := by
  intro tokens
  obtain ⟨hblocks, hforests⟩ := readBlock_decides_block
  have hopener : tokens[2]? = some ⟨.function "f", [], ['f', '('], 2⟩ := by decide +kernel
  have hread : (readBlock ⟨.function "f", [], ['f', '('], 2⟩ .paren
      (tokens.extract 3 11)).toOption.any fun found => 2 + found.1.lexemes.length = 9 + 1 := by
    decide +kernel
  obtain ⟨⟨c, after⟩, hc, hlength⟩ := exists_of_toOption_any hread
  have hforest : (forest (tokens.extract 0 10)).toOption.any fun _ => true := by decide +kernel
  obtain ⟨cs, hcs, -⟩ := exists_of_toOption_any hforest
  have hfound : ∃ c after, readBlock ⟨.function "f", [], ['f', '('], 2⟩ .paren
      (tokens.extract 3 11) = .ok (c, after) ∧ 2 + c.lexemes.length = 9 + 1 :=
    ⟨c, after, hc, of_decide_eq_true hlength⟩
  refine ⟨⟨_, hopener, .function "f", hfound⟩, ?_, ⟨cs, hcs⟩, (hforests _).mp ⟨cs, hcs⟩⟩
  exact ((hblocks _ _ _ _ _ _ hopener (.function "f")).mp hfound).2.2

end Component

end ThemeColor
