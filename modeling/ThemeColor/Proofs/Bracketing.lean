import ThemeColor.Proofs.BlockText

/-!
# Bracketing

A list of lexemes is bracketed when it is the list of lexemes of some matched components: each
bracket is closed by its own kind, quoted texts are closed, and blocks do not nest too deep.

## Main results

* `Component.forest_eq_ok_iff`: matching the brackets of a list of lexemes succeeds exactly if the
  list is bracketed, with the components that it is the list of;
* `Component.depth_of_readBlock`: a single block that is read nests no deeper than that;
* `Component.MatchedAll.eq_of_lexemesAll_eq`: no other matched components have the same lexemes.
-/

namespace ThemeColor.Component

mutual

/-- The number of blocks around the innermost token. -/
def depth : Component → Nat
  | .token _ => 0
  | .block _ body _ => depthAll body + 1

/-- The greatest depth of some components. -/
def depthAll : List Component → Nat
  | [] => 0
  | c :: cs => max (depth c) (depthAll cs)

end

theorem depthAll_le_iff {cs : List Component} {n : Nat} :
    depthAll cs ≤ n ↔ ∀ c ∈ cs, c.depth ≤ n := by
  induction cs with
  | nil => simp [depthAll]
  | cons c cs ih => rw [depthAll, Nat.max_le, ih, List.forall_mem_cons]

theorem depth_le_depthAll {c : Component} {cs : List Component} (h : c ∈ cs) :
    c.depth ≤ depthAll cs :=
  depthAll_le_iff.mp (Nat.le_refl _) c h

/-- The components have the given lexemes, their brackets and quoted texts are closed, and at most
`limit` brackets are open at a time. -/
structure Bracketed (limit : Nat) (ls : List Lexeme) (cs : List Component) : Prop where
  /-- The lexemes are those of the components. -/
  lexemes : lexemesAll cs = ls
  /-- Brackets and quoted texts are closed. -/
  matched : MatchedAll cs
  /-- Blocks do not nest deeper than the limit. -/
  depth_le : depthAll cs ≤ limit

/-! ## Blocks that are read nest no deeper than the limit -/

/-- There is room for the components of each open block, from the innermost one on. -/
def Fit : List Frame → Prop
  | [] => True
  | f :: fs => (∀ c ∈ f.parts, c.depth + (fs.length + 1) ≤ nestingLimit) ∧ Fit fs

/-- A component that fits the innermost open block can be added to it: the blocks still `Fit`. -/
theorem Fit.push {f : Frame} {fs : List Frame} {c : Component} (h : Fit (f :: fs))
    (hc : c.depth + (fs.length + 1) ≤ nestingLimit) :
    Fit ({ f with parts := c :: f.parts } :: fs) :=
  ⟨List.forall_mem_cons.mpr ⟨hc, h.1⟩, h.2⟩

/-- The block that is closed is one level deeper than the components in it, and open blocks that
`Fit` leave room for it. -/
theorem Fit.depth_close {f : Frame} {fs : List Frame} (h : Fit (f :: fs))
    (hfs : fs.length + 1 ≤ nestingLimit) (closer : Lexeme) :
    (Component.block f.opener f.parts.reverse closer).depth + fs.length ≤ nestingLimit := by
  have hparts : depthAll f.parts.reverse ≤ nestingLimit - (fs.length + 1) := by
    rw [depthAll_le_iff]
    intro c hc
    have := h.1 c (List.mem_reverse.mp hc)
    omega
  rw [depth]
  omega

/-- What `closeBlock` closes does not nest too deep, if the open blocks `Fit`. -/
theorem depth_of_closeBlock {outer : Lexeme} {top : Frame} {below : List Frame}
    {input after : List Lexeme} {c : Component}
    (h : closeBlock outer top below input = .ok (c, after)) (hfit : Fit (top :: below))
    (hbelow : below.length + 1 ≤ nestingLimit) : c.depth ≤ nestingLimit := by
  induction input generalizing top below with
  | nil => cases h
  | cons l rest ih =>
    rw [closeBlock] at h
    split at h
    · split at h
      · cases h
      · rename_i hroom
        exact ih h ⟨by simp, hfit⟩ (by simp only [List.length_cons]; omega)
    · split at h
      · have hblock := hfit.depth_close hbelow l
        dsimp only at h
        split at h
        · cases h
          simpa using hblock
        · rename_i next below
          simp only [List.length_cons] at hblock hbelow
          exact ih h (hfit.2.push hblock) (by omega)
      · cases h
    · split at h
      · refine ih h (hfit.push ?_) hbelow
        rw [depth]
        omega
      · cases h

/-- A block that `readBlock` reads does not nest too deep. -/
theorem depth_of_readBlock {opener : Lexeme} {bracket : Bracket} {input after : List Lexeme}
    {c : Component} (h : readBlock opener bracket input = .ok (c, after)) :
    c.depth ≤ nestingLimit :=
  depth_of_closeBlock h ⟨by simp, trivial⟩ (by decide)

/-- The components of a `forest` do not nest too deep. -/
theorem depth_of_forest {input : List Lexeme} {cs : List Component} (h : forest input = .ok cs) :
    depthAll cs ≤ nestingLimit := by
  fun_induction forest input generalizing cs with
  | case1 =>
    cases h
    exact Nat.zero_le _
  | case2 l rest bracket hopens c after hblock ih =>
    obtain ⟨more, hmore, rfl⟩ := exists_of_map_eq_ok h
    exact Nat.max_le.mpr ⟨depth_of_readBlock hblock, ih hmore⟩
  | case3 => cases h
  | case4 => cases h
  | case5 l rest hcloses hopens hterminated ih =>
    obtain ⟨more, hmore, rfl⟩ := exists_of_map_eq_ok h
    exact Nat.max_le.mpr ⟨Nat.zero_le _, ih hmore⟩
  | case6 => cases h

/-! ## Bracketed lexemes are read -/

mutual

/-- A matched component is read by `closeBlock` and added to the innermost open block. -/
theorem closeBlock_lexemes (outer : Lexeme) (top : Frame) (below : List Frame)
    (rest : List Lexeme) : (c : Component) → c.Matched →
      c.depth + (below.length + 1) ≤ nestingLimit →
      closeBlock outer top below (c.lexemes ++ rest) =
        closeBlock outer { top with parts := c :: top.parts } below rest
  | .token l, ⟨hopens, hcloses, hterminated⟩, _ => by
    simp [lexemes, closeBlock, hopens, hcloses, hterminated]
  | .block opener body closer, ⟨⟨bracket, hopens, hcloses⟩, hbody⟩, hdepth => by
    rw [depth] at hdepth
    have hroom : ¬ nestingLimit ≤ below.length + 1 := by omega
    -- The body is read into a frame of its own, which the closing bracket takes off again.
    have hinside := closeBlock_lexemesAll outer ⟨opener, bracket, []⟩ (top :: below)
      (closer :: rest) body hbody (by simp only [List.length_cons]; omega)
    simp only [lexemes, List.cons_append, List.append_assoc, List.nil_append]
    rw [closeBlock]
    simp only [hopens, if_neg hroom]
    rw [hinside, closeBlock]
    simp [hcloses, Bracket.opens?_of_closes? hcloses]

/-- Matched components are read by `closeBlock` and added to the innermost open block. -/
theorem closeBlock_lexemesAll (outer : Lexeme) (top : Frame) (below : List Frame)
    (rest : List Lexeme) : (cs : List Component) → MatchedAll cs →
      depthAll cs + (below.length + 1) ≤ nestingLimit →
      closeBlock outer top below (lexemesAll cs ++ rest) =
        closeBlock outer { top with parts := cs.reverse ++ top.parts } below rest
  | [], _, _ => by simp [lexemesAll]
  | c :: cs, ⟨hc, hcs⟩, hdepth => by
    rw [depthAll] at hdepth
    rw [lexemesAll, List.append_assoc, closeBlock_lexemes _ _ _ _ c hc (by omega),
      closeBlock_lexemesAll _ _ _ rest cs hcs (by omega)]
    simp

end

/-- A matched block that does not nest too deep is read by `readBlock`. -/
theorem readBlock_lexemes (opener : Lexeme) {closer : Lexeme} {bracket : Bracket}
    {body : List Component} (hcloser : closer.token.closes? = some bracket)
    (hbody : MatchedAll body) (hdepth : depthAll body + 1 ≤ nestingLimit) (rest : List Lexeme) :
    readBlock opener bracket (lexemesAll body ++ closer :: rest) =
      .ok (.block opener body closer, rest) := by
  rw [readBlock, closeBlock_lexemesAll _ _ _ _ body hbody (by simpa using hdepth), closeBlock]
  simp [hcloser, Bracket.opens?_of_closes? hcloser]

/-- Matched components that do not nest too deep are read by `forest`. -/
theorem forest_lexemesAll {cs : List Component} (hmatched : MatchedAll cs)
    (hdepth : depthAll cs ≤ nestingLimit) : forest (lexemesAll cs) = .ok cs := by
  induction cs with
  | nil =>
    rw [lexemesAll, forest]
  | cons c cs ih =>
    obtain ⟨hc, hcs⟩ := hmatched
    obtain ⟨hdepthc, hdepthcs⟩ := Nat.max_le.mp hdepth
    have hmore := ih hcs hdepthcs
    -- At the top level a token stands for itself and a block is read as a whole.
    cases c with
    | token l =>
      obtain ⟨hopens, hcloses, hterminated⟩ := hc
      rw [lexemesAll, lexemes, List.singleton_append, forest]
      simp [hopens, hcloses, hterminated, hmore, Except.map]
    | block opener body closer =>
      obtain ⟨⟨bracket, hopens, hcloses⟩, hbody⟩ := hc
      have hblock := readBlock_lexemes opener hcloses hbody hdepthc (lexemesAll cs)
      rw [lexemesAll, lexemes, List.cons_append, List.append_assoc, List.singleton_append, forest]
      simp only [hopens]
      split
      · rename_i heq
        rw [hblock] at heq
        cases heq
        rw [hmore]
        rfl
      · rename_i heq
        rw [hblock] at heq
        cases heq

/-- The function `forest` succeeds exactly with the components that the lexemes are `Bracketed`
into. -/
theorem forest_eq_ok_iff {ls : List Lexeme} {cs : List Component} :
    forest ls = .ok cs ↔ Bracketed nestingLimit ls cs := by
  constructor
  · intro h
    obtain ⟨hmatched, hlexemes⟩ := matched_of_forest h
    exact ⟨hlexemes, hmatched, depth_of_forest h⟩
  · rintro ⟨rfl, hmatched, hdepth⟩
    exact forest_lexemesAll hmatched hdepth

/-! ## Blocks are unique -/

/-- Where components end: at the end of the lexemes or at a closing bracket. -/
def Ends (rest : List Lexeme) : Prop := ∀ l ∈ rest.head?, l.token.closes? ≠ none

/-- Components do not end, as `Ends` says, in front of a `Matched` one. -/
theorem Matched.not_ends {c : Component} (h : c.Matched) (rest : List Lexeme) :
    ¬ Ends (c.lexemes ++ rest) := by
  cases c with
  | token l => exact fun hends => hends l rfl h.2.1
  | block opener body closer =>
    obtain ⟨⟨bracket, hopens, -⟩, -⟩ := h
    intro hends
    obtain ⟨b, hcloses⟩ := Option.ne_none_iff_exists'.mp (hends opener rfl)
    rw [Bracket.opens?_of_closes? hcloses] at hopens
    cases hopens

mutual

/-- A `Matched` component is the only one with its lexemes. -/
theorem Matched.eq_of_append {rest rest' : List Lexeme} : (c c' : Component) → c.Matched →
    c'.Matched → c.lexemes ++ rest = c'.lexemes ++ rest' → c = c' ∧ rest = rest'
  | .token l, .token l', _, _, heq => by
    obtain ⟨rfl, rfl⟩ := List.cons.inj heq
    exact ⟨rfl, rfl⟩
  | .token l, .block opener body closer, h, ⟨⟨bracket, hopens, _⟩, _⟩, heq => by
    obtain rfl := (List.cons.inj heq).1
    rw [h.1] at hopens
    cases hopens
  | .block opener body closer, .token l, ⟨⟨bracket, hopens, _⟩, _⟩, h, heq => by
    obtain rfl := (List.cons.inj heq).1
    rw [h.1] at hopens
    cases hopens
  | .block opener body closer, .block opener' body' closer', ⟨⟨bracket, _, hcloses⟩, hbody⟩,
      ⟨⟨bracket', _, hcloses'⟩, hbody'⟩, heq => by
    rw [lexemes, lexemes, List.cons_append, List.cons_append, List.append_assoc,
      List.append_assoc, List.cons.injEq] at heq
    obtain ⟨rfl, hinside⟩ := heq
    -- Both bodies end at a closing bracket, so they are the same.
    obtain ⟨rfl, hbehind⟩ := MatchedAll.eq_of_append body body' hbody hbody'
      (by rintro l ⟨⟩; simp [hcloses]) (by rintro l ⟨⟩; simp [hcloses']) hinside
    obtain ⟨rfl, rfl⟩ := List.cons.inj hbehind
    exact ⟨rfl, rfl⟩

/-- Components that are `MatchedAll` and end at the same lexemes are the only ones with their
lexemes. -/
theorem MatchedAll.eq_of_append {rest rest' : List Lexeme} : (cs cs' : List Component) →
    MatchedAll cs → MatchedAll cs' → Ends rest → Ends rest' →
    lexemesAll cs ++ rest = lexemesAll cs' ++ rest' → cs = cs' ∧ rest = rest'
  | [], [], _, _, _, _, heq => ⟨rfl, heq⟩
  | [], c' :: cs', _, ⟨hc', _⟩, hrest, _, heq => by
    rw [lexemesAll, List.nil_append, lexemesAll, List.append_assoc] at heq
    exact absurd (heq ▸ hrest) (hc'.not_ends _)
  | c :: cs, [], ⟨hc, _⟩, _, _, hrest', heq => by
    rw [lexemesAll, lexemesAll, List.nil_append, List.append_assoc] at heq
    exact absurd (heq ▸ hrest') (hc.not_ends _)
  | c :: cs, c' :: cs', ⟨hc, hcs⟩, ⟨hc', hcs'⟩, hrest, hrest', heq => by
    rw [lexemesAll, lexemesAll, List.append_assoc, List.append_assoc] at heq
    obtain ⟨rfl, hmore⟩ := Matched.eq_of_append c c' hc hc' heq
    obtain ⟨rfl, rfl⟩ := MatchedAll.eq_of_append cs cs' hcs hcs' hrest hrest' hmore
    exact ⟨rfl, rfl⟩

end

/-- The lexemes of components that are `MatchedAll` tell how they are put into blocks, however deep
these nest. -/
theorem MatchedAll.eq_of_lexemesAll_eq {cs cs' : List Component} (h : MatchedAll cs)
    (h' : MatchedAll cs') (heq : lexemesAll cs = lexemesAll cs') : cs = cs' := by
  have hnil : Ends [] := by rintro l ⟨⟩
  exact (MatchedAll.eq_of_append cs cs' h h' hnil hnil (by rw [heq])).1

end ThemeColor.Component
