import Mathlib.Data.List.Infix
import ThemeColor.Proofs.Bracketing
import ThemeColor.Proofs.PlainRun
import ThemeColor.Proofs.Slices

/-!
# Typesetting

A text is typeset from components if it is cut into their lexemes wherever it stands, given what
follows. Texts that are typeset can be put side by side and into parentheses, so the components of a
text are found along the way the text was put together (`Typeset.append`, `Typeset.block`).

Blocks nest as deep as the text has parentheses open at a time. `NestsWithin` counts those without
cutting the text into lexemes.
-/

namespace ThemeColor

open Text

namespace Lexeme

/-- Lexemes that `Scans` reads one after the other are read together. -/
theorem Scans.append {input mid left : List Char} {a b : List Lexeme} (ha : Scans input a mid)
    (hb : Scans mid b left) : Scans input (a ++ b) left := by
  induction a generalizing input with
  | nil =>
    obtain rfl : input = mid := ha
    exact hb
  | cons l a ih =>
    obtain ⟨c, rest, hcomments, htoken, htext, hrest⟩ := ha
    exact ⟨c, rest, hcomments, htoken, htext, ih hrest⟩

/-- Lexemes that `Scans` reads are read wherever they stand. -/
theorem Scans.map_moved {input left : List Char} {ls : List Lexeme} {f : Nat → Nat}
    (h : Scans input ls left) : Scans input (ls.map (moved f)) left := by
  induction ls generalizing input with
  | nil => exact h
  | cons l ls ih =>
    obtain ⟨c, rest, hcomments, htoken, htext, hrest⟩ := h
    exact ⟨c, rest, hcomments, htoken, htext, ih hrest⟩

/-- A single token is read by `Scans`, unless it starts a comment. -/
theorem Scans.single {c : Char} {word tail : List Char} {t : Token} {start : Nat}
    (hc : c = '/' → (word ++ tail).head? ≠ some '*')
    (hscan : Scan.token c (word ++ tail) = ⟨t, c :: word, tail⟩) :
    Scans (c :: word ++ tail) [⟨t, [], c :: word, start⟩] tail :=
  ⟨c, word ++ tail, Scan.comments_cons hc, by rw [hscan], by rw [hscan], by rw [hscan]; rfl⟩

/-- Lexemes that are `Consecutive` may be put side by side. -/
theorem Consecutive.append {offset : Nat} {a b : List Lexeme} (ha : Consecutive offset a)
    (hb : Consecutive (offset + byteSize (spelled a)) b) : Consecutive offset (a ++ b) := by
  induction ha with
  | nil offset => exact hb
  | @cons offset l ls hstart hrest ih =>
    refine .cons hstart (ih ?_)
    have hoffset : l.stop + byteSize (spelled ls) = offset + byteSize (spelled (l :: ls)) := by
      simp only [Lexeme.stop, hstart, spelled_cons, byteSize_append]
      omega
    rwa [hoffset]

theorem Consecutive.single (t : Token) (text : List Char) (start : Nat) :
    Consecutive start [⟨t, [], text, start⟩] :=
  .cons rfl (.nil _)

end Lexeme

namespace Component

variable {a b text tail : List Char} {x y cs : List Component} {limit offset : Nat}

/-! ## Parentheses in a text -/

/-- At most `limit` parentheses are open anywhere in the text. -/
def NestsWithin (limit : Nat) (text : List Char) : Prop :=
  ∀ front ∈ text.inits, front.count '(' ≤ front.count ')' + limit

instance (limit : Nat) (text : List Char) : Decidable (NestsWithin limit text) :=
  inferInstanceAs (Decidable (∀ front ∈ text.inits, front.count '(' ≤ front.count ')' + limit))

/-- The condition `NestsWithin` counts parentheses in every front part of a text. -/
theorem nestsWithin_iff :
    NestsWithin limit text ↔
      ∀ front, front <+: text → front.count '(' ≤ front.count ')' + limit := by
  simp only [NestsWithin, List.mem_inits]

/-- A front part `NestsWithin` the limit of the whole. -/
theorem NestsWithin.left (h : NestsWithin limit (a ++ b)) : NestsWithin limit a := by
  rw [nestsWithin_iff] at h ⊢
  exact fun front hfront => h front (hfront.trans ⟨b, rfl⟩)

/-- Behind open parentheses a text `NestsWithin` what they leave of the limit. -/
theorem NestsWithin.behind (h : NestsWithin limit (a ++ b)) (extra : Nat)
    (ha : a.count '(' = a.count ')' + extra) : extra ≤ limit ∧ NestsWithin (limit - extra) b := by
  rw [nestsWithin_iff] at h ⊢
  have hextra : extra ≤ limit := by
    have := h a ⟨b, rfl⟩
    omega
  refine ⟨hextra, fun front hfront => ?_⟩
  -- A front part of `b` has `extra` open parentheses more in `a ++ b`.
  obtain ⟨rest, rfl⟩ := hfront
  have hwhole := h (a ++ front) ⟨rest, List.append_assoc a front rest⟩
  rw [List.count_append, List.count_append] at hwhole
  omega

/-! ## Components of a text -/

/-- The text is cut into the lexemes of the components, where its first byte is `offset` and `tail`
follows. -/
structure Cut (text : List Char) (offset : Nat) (tail : List Char) (cs : List Component) :
    Prop where
  /-- The text is cut into the lexemes. -/
  scans : Lexeme.Scans (text ++ tail) (lexemesAll cs) tail
  /-- The lexemes stand side by side. -/
  consecutive : Lexeme.Consecutive offset (lexemesAll cs)
  /-- Brackets and quoted texts are closed. -/
  matched : MatchedAll cs

/-- The components of a `Cut` spell the text. -/
theorem Cut.spelled (h : Cut text offset tail cs) : Lexeme.spelled (lexemesAll cs) = text :=
  (List.append_cancel_right h.scans.eq_append).symm

/-- Texts side by side are cut one after the other: a `Cut` of each is one of both. -/
theorem Cut.append (ha : Cut a offset (b ++ tail) x) (hb : Cut b (offset + byteSize a) tail y) :
    Cut (a ++ b) offset tail (x ++ y) where
  scans := by
    rw [lexemesAll_append, List.append_assoc]
    exact ha.scans.append hb.scans
  consecutive := by
    rw [lexemesAll_append]
    exact ha.consecutive.append (by rw [ha.spelled]; exact hb.consecutive)
  matched := by
    have hx := matchedAll_iff.mp ha.matched
    have hy := matchedAll_iff.mp hb.matched
    exact matchedAll_iff.mpr (List.forall_mem_append.mpr ⟨hx, hy⟩)

/-- What stands between an opening parenthesis, perhaps of a function, and a closing one is cut into
the inside of a block, if there is a `Cut` of it. -/
theorem Cut.block {c : Char} {word inside : List Char} {t : Token} {body : List Component}
    (hc : c ≠ '/') (hscan : ∀ rest, Scan.token c (word ++ rest) = ⟨t, c :: word, rest⟩)
    (hopens : t.opens? = some .paren)
    (hinside : Cut inside (offset + byteSize (c :: word)) (')' :: tail) body) :
    Cut (c :: word ++ (inside ++ [')'])) offset tail
      [.block ⟨t, [], c :: word, offset⟩ body
        ⟨.closer .paren, [], [')'], offset + byteSize (c :: word) + byteSize inside⟩] := by
  -- The three parts of a block, so that `append` can be used for the scans and for the places.
  have hlexemes : ∀ opener closer : Lexeme, lexemesAll [.block opener body closer] =
      [opener] ++ (lexemesAll body ++ [closer]) := by simp [lexemesAll, lexemes]
  have hcloser : Lexeme.Scans (')' :: tail) [⟨.closer .paren, [], [')'],
      offset + byteSize (c :: word) + byteSize inside⟩] tail :=
    @Lexeme.Scans.single ')' [] tail _ _ nofun (Scan.token_of_separator (by simp) tail)
  refine ⟨?_, ?_, ⟨⟨.paren, hopens, rfl⟩, hinside.matched⟩, trivial⟩
  · rw [hlexemes, List.append_assoc, List.append_assoc, List.singleton_append]
    refine (Lexeme.Scans.single (fun h => absurd h hc) (hscan _)).append ?_
    exact hinside.scans.append hcloser
  · rw [hlexemes]
    refine (Lexeme.Consecutive.single _ _ _).append ?_
    refine Lexeme.Consecutive.append (by simpa using hinside.consecutive) ?_
    rw [hinside.spelled]
    simpa using Lexeme.Consecutive.single (.closer .paren) [')'] _

/-- A function is cut into a block, if there is a `Cut` of what stands inside. -/
theorem Cut.function {word inside : List Char} {body : List Component}
    (hword : Scan.IsFunctionName word)
    (h : Cut inside (offset + byteSize (word ++ ['('])) (')' :: tail) body) :
    ∃ opener closer : Lexeme, opener.token = .function (String.ofList word) ∧
      Cut (word ++ '(' :: (inside ++ [')'])) offset tail [.block opener body closer] := by
  obtain ⟨c, word, rfl⟩ := List.exists_cons_of_ne_nil hword.ne_nil
  have hblock := Cut.block hword.ne_slash hword.token_paren rfl h
  rw [List.cons_append, List.append_assoc] at hblock
  exact ⟨_, _, rfl, hblock⟩

/-- A text that nothing follows has the lexemes of the components of its `Cut`. -/
theorem Cut.contents_eq (h : Cut text 0 [] cs) : Lexeme.contents text = lexemesAll cs := by
  have hscan := h.scans.scanFrom_eq h.consecutive
  have hend : (Scan.comments []).2 = [] := by simp [Scan.comments]
  rw [List.append_nil] at hscan
  rw [Lexeme.contents, Lexeme.ofText, hscan, Lexeme.scanFrom_of_nil hend, List.dropLast_concat]

/-- The text is cut into the lexemes of the components. It closes the parentheses that it opens, and
blocks nest only as deep as these. -/
structure Typeset (text : List Char) (offset : Nat) (tail : List Char) (cs : List Component) :
    Prop extends Cut text offset tail cs where
  /-- As many parentheses are opened as are closed. -/
  balanced : text.count '(' = text.count ')'
  /-- Blocks nest as deep as parentheses at most. -/
  depth_le : ∀ {limit : Nat}, NestsWithin limit text → depthAll cs ≤ limit

/-- Texts side by side are `Typeset` one after the other. -/
theorem Typeset.append (ha : Typeset a offset (b ++ tail) x)
    (hb : Typeset b (offset + byteSize a) tail y) : Typeset (a ++ b) offset tail (x ++ y) where
  toCut := ha.toCut.append hb.toCut
  balanced := by rw [List.count_append, List.count_append, ha.balanced, hb.balanced]
  depth_le := fun {limit} h => by
    -- The first text closes what it opens, so nothing is open where the second one starts.
    have hx := depthAll_le_iff.mp (ha.depth_le h.left)
    have hy := depthAll_le_iff.mp (hb.depth_le (h.behind 0 ha.balanced).2)
    exact depthAll_le_iff.mpr (List.forall_mem_append.mpr ⟨hx, hy⟩)

/-- A token that is no bracket and no quoted text is `Typeset` as itself. -/
theorem Typeset.token {c : Char} {word : List Char} {t : Token}
    (hc : c = '/' → (word ++ tail).head? ≠ some '*')
    (hscan : Scan.token c (word ++ tail) = ⟨t, c :: word, tail⟩) (hflat : t.isFlat)
    (hparens : ∀ p ∈ ['(', ')'], p ∉ c :: word) :
    Typeset (c :: word) offset tail [.token ⟨t, [], c :: word, offset⟩] where
  scans := Lexeme.Scans.single hc hscan
  consecutive := .single t (c :: word) offset
  matched := by
    refine ⟨?_, trivial⟩
    -- No bracket and no quoted text is flat.
    cases t <;> first | exact ⟨rfl, rfl, rfl⟩ | cases hflat
  balanced := by
    rw [List.count_eq_zero_of_not_mem (hparens '(' (by simp)),
      List.count_eq_zero_of_not_mem (hparens ')' (by simp))]
  depth_le := fun _ => Nat.zero_le _

/-- What is `Typeset` between an opening parenthesis, perhaps of a function, and a closing one is
the inside of a block. -/
theorem Typeset.block {c : Char} {word inside : List Char} {t : Token} {body : List Component}
    (hc : c ≠ '/') (hscan : ∀ rest, Scan.token c (word ++ rest) = ⟨t, c :: word, rest⟩)
    (hopens : t.opens? = some .paren) (hopen : (c :: word).count '(' = 1)
    (hclose : (c :: word).count ')' = 0)
    (hinside : Typeset inside (offset + byteSize (c :: word)) (')' :: tail) body) :
    Typeset (c :: word ++ (inside ++ [')'])) offset tail
      [.block ⟨t, [], c :: word, offset⟩ body
        ⟨.closer .paren, [], [')'], offset + byteSize (c :: word) + byteSize inside⟩] := by
  refine ⟨hinside.toCut.block hc hscan hopens, ?_, ?_⟩
  · rw [List.count_append, List.count_append, List.count_append, List.count_append, hopen, hclose,
      hinside.balanced]
    simp only [List.count_singleton]
    simp [Nat.add_comm]
  · -- One parenthesis is open all through the inside.
    intro limit h
    obtain ⟨hlimit, hbehind⟩ := h.behind 1 (by rw [hopen, hclose])
    have hbody := hinside.depth_le hbehind.left
    simp only [depthAll, depth]
    omega

/-! ## Single tokens and blocks -/

/-- A blank in front of something else is `Typeset` as a blank. -/
theorem typeset_blank {d : Char} {rest : List Char} (hd : Scan.isSpace d = false) :
    Typeset [' '] offset (d :: rest) [.token ⟨.whitespace, [], [' '], offset⟩] := by
  refine .token nofun ?_ rfl (by decide)
  rw [List.nil_append, Scan.token, if_pos (by decide), List.takeWhile_cons_of_neg (by simp [hd]),
    List.dropWhile_cons_of_neg (by simp [hd])]

/-- A comma, an asterisk or a slash is `Typeset` as itself. -/
theorem typeset_separator {c : Char} (hc : c ∈ [',', '*', '/'])
    (hslash : c = '/' → tail.head? ≠ some '*') :
    Typeset [c] offset tail [.token ⟨Scan.punctuation c, [], [c], offset⟩] := by
  have hscan : Scan.token c tail = ⟨Scan.punctuation c, [c], tail⟩ := by
    refine Scan.token_of_separator ?_ tail
    simp only [List.mem_cons, List.not_mem_nil, or_false] at hc ⊢
    rcases hc with rfl | rfl | rfl <;> simp
  simp only [List.mem_cons, List.not_mem_nil, or_false] at hc
  refine .token hslash hscan ?_ ?_
  · rcases hc with rfl | rfl | rfl <;> rfl
  · rcases hc with rfl | rfl | rfl <;> decide

theorem typeset_comma (offset : Nat) (tail : List Char) :
    Typeset [','] offset tail [.token ⟨.comma, [], [','], offset⟩] :=
  typeset_separator (by simp) nofun

/-- A sign in front of a blank is `Typeset` as a token of its own. -/
theorem typeset_sign {c : Char} (hc : c ∈ ['+', '-']) :
    Typeset [c] offset (' ' :: tail) [.token ⟨.delim c, [], [c], offset⟩] := by
  simp only [List.mem_cons, List.not_mem_nil, or_false] at hc
  rcases hc with rfl | rfl
  · exact .token nofun rfl rfl (by decide)
  · exact .token nofun rfl rfl (by decide)

/-- Parentheses are `Typeset` as a block. -/
theorem typeset_group {inside : List Char} {body : List Component}
    (h : Typeset inside (offset + 1) (')' :: tail) body) :
    ∃ opener closer : Lexeme, opener.token = .opener .paren ∧
      Typeset ('(' :: (inside ++ [')'])) offset tail [.block opener body closer] := by
  have hscan : ∀ rest, Scan.token '(' ([] ++ rest) = ⟨.opener .paren, ['('], rest⟩ :=
    fun rest => Scan.token_of_separator (by simp) rest
  exact ⟨_, _, rfl, .block (by decide) hscan rfl (by decide) (by decide) h⟩

/-- A function is `Typeset` as a block. -/
theorem typeset_function {word inside : List Char} {body : List Component}
    (hword : Scan.IsFunctionName word)
    (h : Typeset inside (offset + byteSize (word ++ ['('])) (')' :: tail) body) :
    ∃ opener closer : Lexeme, opener.token = .function (String.ofList word) ∧ opener.gap = [] ∧
      Typeset (word ++ '(' :: (inside ++ [')'])) offset tail [.block opener body closer] := by
  obtain ⟨c, word, rfl⟩ := List.exists_cons_of_ne_nil hword.ne_nil
  -- A name consists of letters, so the opening token counts as one parenthesis.
  have hparens : ∀ p ∈ ['(', ')'], (c :: word).count p = 0 := by
    intro p hp
    refine List.count_eq_zero_of_not_mem fun hmem => ?_
    have hletters : ∀ p ∈ ['(', ')'], p ∉ Scan.letters := by decide
    exact hletters p hp (hword.letters p hmem)
  have hblock := Typeset.block hword.ne_slash hword.token_paren rfl
    (by rw [← List.cons_append, List.count_append, hparens '(' (by simp)]; decide)
    (by rw [← List.cons_append, List.count_append, hparens ')' (by simp)]; decide) h
  have htext : c :: word ++ '(' :: (inside ++ [')']) =
      c :: (word ++ ['(']) ++ (inside ++ [')']) := by simp
  rw [htext]
  exact ⟨_, _, rfl, rfl, hblock⟩

/-- A block that no comment stands in front of has the text it is `Typeset` from. -/
theorem Typeset.textAll_eq {opener closer : Lexeme} {body : List Component}
    (h : Typeset text offset tail [.block opener body closer]) (hgap : opener.gap = []) :
    textAll [.block opener body closer] = String.ofList text := by
  have hspelled := h.spelled
  simp only [lexemesAll, lexemes, List.append_nil, Lexeme.spelled_cons, hgap,
    List.nil_append] at hspelled
  rw [textAll, ← hspelled]
  simp [lexemesAll, lexemes, Lexeme.join, Lexeme.spelled]

end Component

end ThemeColor
