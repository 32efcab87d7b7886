import ThemeColor.Proofs.Layout
import ThemeColor.Proofs.Locality
import ThemeColor.Proofs.PlainRun

/-!
# The text of a block

A block of a color expression that stays verbatim is written with the text it was read from. In its
new place that text is cut into the same lexemes again, since it ends with a closing parenthesis,
and so it leaves the open brackets as they are.

- `Lexeme.Scans.exchange`: the text behind a closing parenthesis can be exchanged;
- `Component.matched_of_forest`: the components of an expression are matched;
- `Component.From.neutral`: the text of a block in parentheses is neutral wherever it is written.
-/

namespace ThemeColor

namespace Lexeme

/-- The text `input` starts with the lexemes, and `left` stands behind them. -/
def Scans : (input : List Char) → List Lexeme → (left : List Char) → Prop
  | input, [], left => input = left
  | input, l :: ls, left =>
    ∃ c rest, Scan.comments input = (l.gap, c :: rest) ∧
      l.token = (Scan.token c rest).value ∧ l.text = (Scan.token c rest).text ∧
      Scans (Scan.token c rest).rest ls left

/-- The lexemes of `scanFrom` but the last one are what `Scans` reads. -/
theorem scans_scanFrom (offset : Nat) (input : List Char) :
    ∃ left, Scans input (scanFrom offset input).dropLast left := by
  fun_induction scanFrom offset input with
  | case1 offset input => exact ⟨input, rfl⟩
  | case2 offset input gap start c rest h s ih =>
    obtain ⟨left, hleft⟩ := ih
    refine ⟨left, ?_⟩
    rw [List.dropLast_cons_of_ne_nil (scanFrom_ne_nil _ _)]
    exact ⟨c, rest, Prod.ext rfl h, rfl, rfl, hleft⟩

/-- The lexemes that `Scans` reads from a text can be cut in two. -/
theorem Scans.of_append {input left : List Char} {a b : List Lexeme}
    (h : Scans input (a ++ b) left) :
    ∃ mid, Scans input a mid ∧ Scans mid b left := by
  induction a generalizing input with
  | nil => exact ⟨input, rfl, h⟩
  | cons l a ih =>
    obtain ⟨c, rest, hcomments, htoken, htext, hrest⟩ := h
    obtain ⟨mid, ha, hb⟩ := ih hrest
    exact ⟨mid, ⟨c, rest, hcomments, htoken, htext, ha⟩, hb⟩

/-- What `Scans` reads and the rest make up the text. -/
theorem Scans.eq_append {input left : List Char} {ls : List Lexeme} (h : Scans input ls left) :
    input = spelled ls ++ left := by
  induction ls generalizing input with
  | nil => exact h
  | cons l ls ih =>
    obtain ⟨c, rest, hcomments, htoken, htext, hrest⟩ := h
    have happend := Scan.comments_append input
    rw [hcomments, ← Scan.token_append c rest, ih hrest, ← htext] at happend
    rw [← happend, spelled_cons, List.append_assoc, List.append_assoc]

theorem Scans.length_le {input left : List Char} {ls : List Lexeme} (h : Scans input ls left) :
    left.length ≤ input.length := by
  rw [h.eq_append, List.length_append]
  omega

/-- Reading the lexemes of `Scans` first and then the rest is reading the text. -/
theorem Scans.after_eq {input left : List Char} {ls : List Lexeme} (h : Scans input ls left)
    (stack : List Bracket) :
    Bracket.after stack input =
      (ls.foldlM Bracket.advance? stack).bind fun next => Bracket.after next left := by
  induction ls generalizing input stack with
  | nil =>
    obtain rfl : input = left := h
    rfl
  | cons l ls ih =>
    obtain ⟨c, rest, hcomments, htoken, htext, hrest⟩ := h
    -- A step looks at the token and at its text, not at the place of the lexeme.
    have hstep : Bracket.step? stack (Scan.token c rest) = Bracket.advance? stack l := by
      obtain ⟨token, gap, text, start⟩ := l
      rw [Bracket.step?, ← htoken, ← htext]
      rfl
    rw [Bracket.after_of_comments (by rw [hcomments]), hstep, List.foldlM_cons]
    cases Bracket.advance? stack l with
    | none => rfl
    | some next => exact ih hrest next

/-- A closing parenthesis among the lexemes of `Scans` is the character. -/
theorem Scans.closer {input left : List Char} {l : Lexeme} (h : Scans input [l] left)
    (hl : l.token = .closer .paren) :
    l.text = [')'] ∧ Scan.comments input = (l.gap, ')' :: left) := by
  obtain ⟨c, rest, hcomments, htoken, htext, hrest⟩ := h
  rcases Scan.closes?_token c rest with hnone | hpunctuation
  · rw [← htoken, hl] at hnone
    cases hnone
  · rw [hpunctuation] at htoken htext hrest
    obtain rfl : rest = left := hrest
    obtain rfl := Scan.eq_of_punctuation (htoken.symm.trans hl)
    exact ⟨htext, hcomments⟩

/-- The text behind a closing parenthesis can be exchanged: the lexemes that `Scans` reads in front
stay the same. -/
theorem Scans.exchange {x left r : List Char} {ls : List Lexeme}
    (h : Scans (x ++ ')' :: r) ls (left ++ ')' :: r)) (r' : List Char) :
    Scans (x ++ ')' :: r') ls (left ++ ')' :: r') := by
  induction ls generalizing x with
  | nil =>
    obtain rfl := List.append_cancel_right h
    rfl
  | cons l ls ih =>
    obtain ⟨c, rest, hcomments, htoken, htext, hrest⟩ := h
    have hlength := hrest.length_le
    simp only [List.length_append, List.length_cons] at hlength
    have hle := Scan.length_rest_token_le c rest
    -- A scanner that passes the parenthesis leaves too little.
    rcases (Scan.comments_local x).splits with ⟨gap, mid, hsplit⟩ | hpass
    · rw [hsplit, Prod.mk.injEq] at hcomments
      obtain ⟨rfl, hmid⟩ := hcomments
      cases mid with
      | nil =>
        obtain ⟨-, rfl⟩ := List.cons.inj hmid
        omega
      | cons d mid =>
        obtain ⟨rfl, rfl⟩ := List.cons.inj hmid
        rcases Scan.token_local d mid with ⟨value, text, left', hscan⟩ | hpass
        · rw [List.append_eq, hscan] at htoken htext hrest
          refine ⟨d, mid ++ ')' :: r', hsplit r', ?_, ?_, ?_⟩
          · rw [hscan, htoken]
          · rw [hscan, htext]
          · rw [hscan]
            exact ih hrest
        · have := hpass r
          rw [List.append_eq] at hlength
          omega
    · have hle' := hpass r
      rw [hcomments, List.length_cons] at hle'
      omega

/-- The `comments` up to a closing parenthesis stay the same when the text behind it is exchanged.
-/
theorem comments_exchange {gap r : List Char}
    (h : Scan.comments (gap ++ ')' :: r) = (gap, ')' :: r)) (r' : List Char) :
    Scan.comments (gap ++ ')' :: r') = (gap, ')' :: r') := by
  rcases (Scan.comments_local gap).splits with ⟨gap', left, hsplit⟩ | hpass
  · rw [hsplit, Prod.mk.injEq] at h
    obtain rfl : left = [] := List.append_left_eq_self.mp h.2
    rw [hsplit, h.1]
    rfl
  · have hle := hpass r
    rw [h, List.length_cons] at hle
    omega

theorem comments_idem (input : List Char) :
    Scan.comments (Scan.comments input).2 = ([], (Scan.comments input).2) := by
  fun_induction Scan.comments input with
  | case1 rest inside more ih => exact ih
  | case2 input h =>
    unfold Scan.comments
    split
    · rename_i rest heq
      exact absurd heq (h rest)
    · rfl

/-- The comments in front of the first lexeme of `Scans` can be left out. -/
theorem Scans.tail_comments {input left : List Char} {l : Lexeme} {ls : List Lexeme}
    (h : Scans input (l :: ls) left) :
    Scans (Scan.comments input).2 ({ l with gap := [] } :: ls) left := by
  obtain ⟨c, rest, hcomments, htoken, htext, hrest⟩ := h
  refine ⟨c, rest, ?_, htoken, htext, hrest⟩
  rw [comments_idem, hcomments]

/-- Lexemes of `Scans` up to a closing parenthesis are read from their own text in front of any
other text in the same way as where they were found. -/
theorem Scans.after_join_append {input left : List Char} {first closer : Lexeme}
    {more : List Lexeme} (h : Scans input (first :: more ++ [closer]) left)
    (hcloser : closer.token = .closer .paren) (stack : List Bracket) (tail : List Char) :
    Bracket.after stack (join (first :: more ++ [closer]) ++ tail) =
      ((first :: more ++ [closer]).foldlM Bracket.advance? stack).bind fun next =>
        Bracket.after next tail := by
  obtain ⟨mid, hinit, hlast⟩ := h.tail_comments.of_append (a := { first with gap := [] } :: more)
  obtain ⟨htext, hcomments⟩ := hlast.closer hcloser
  have hmid := Scan.comments_append mid
  rw [hcomments] at hmid
  rw [← hmid] at hinit hcomments
  -- The text is that of the first lexemes, the last comments and the parenthesis.
  have hinput := hinit.eq_append
  rw [← List.append_assoc] at hinput
  rw [hinput] at hinit
  have htexts : join (first :: more ++ [closer]) ++ tail =
      spelled ({ first with gap := [] } :: more) ++ closer.gap ++ ')' :: tail := by
    simp [join, spelled, htext]
  -- Behind the first lexemes the comments and the parenthesis are read, now in front of `tail`.
  have hgap : Scan.comments (closer.gap ++ ')' :: tail) = (closer.gap, ')' :: tail) :=
    comments_exchange hcomments tail
  have hstep (next : List Bracket) :
      Bracket.after next (closer.gap ++ ')' :: tail) =
        (Bracket.advance? next closer).bind fun next => Bracket.after next tail := by
    have hadvance : Bracket.step? next (Scan.token ')' tail) = Bracket.advance? next closer := by
      unfold Bracket.step? Bracket.advance?
      rw [hcloser]
      rfl
    rw [Bracket.after_of_comments (by rw [hgap]), hadvance]
    rfl
  rw [htexts, (hinit.exchange tail).after_eq, List.foldlM_append]
  change (List.foldlM Bracket.advance? stack (first :: more)).bind _ = _
  cases List.foldlM Bracket.advance? stack (first :: more) with
  | none => rfl
  | some next => simp [hstep]

end Lexeme

namespace Component

open ThemeColor.Bracket

/-! ## Matched components -/

theorem matchedAll_iff {cs : List Component} : MatchedAll cs ↔ ∀ c ∈ cs, c.Matched := by
  induction cs with
  | nil => simp [MatchedAll]
  | cons c cs ih => simp [MatchedAll, ih]

/-- The open block is matched so far. -/
def Frame.Matched (f : Frame) : Prop :=
  f.opener.token.opens? = some f.bracket ∧ ∀ c ∈ f.parts, c.Matched

/-- An open block stays `Matched` with one more component in it. -/
theorem Frame.Matched.push {f : Frame} {c : Component} (hf : f.Matched) (hc : c.Matched) :
    Frame.Matched { f with parts := c :: f.parts } :=
  ⟨hf.1, List.forall_mem_cons.mpr ⟨hc, hf.2⟩⟩

/-- An open block that is `Matched` is closed to a matched one. -/
theorem Frame.Matched.close {f : Frame} {l : Lexeme} (hf : f.Matched)
    (hl : l.token.closes? = some f.bracket) :
    Component.Matched (.block f.opener f.parts.reverse l) := by
  refine ⟨⟨f.bracket, hf.1, hl⟩, matchedAll_iff.mpr fun c hc => ?_⟩
  exact hf.2 c (List.mem_reverse.mp hc)

/-- Reading on with `closeBlock` from matched blocks gives a matched block. -/
theorem matched_of_closeBlock {outer : Lexeme} {top : Frame} {below : List Frame}
    {input after : List Lexeme} {c : Component}
    (h : closeBlock outer top below input = .ok (c, after)) (htop : top.Matched)
    (hbelow : ∀ f ∈ below, Frame.Matched f) : c.Matched := by
  induction input generalizing top below with
  | nil => cases h
  | cons l rest ih =>
    rw [closeBlock] at h
    split at h
    · rename_i bracket hopens
      split at h
      · cases h
      · exact ih h ⟨hopens, by simp⟩ (List.forall_mem_cons.mpr ⟨htop, hbelow⟩)
    · rename_i bracket hopens hcloses
      split at h
      · rename_i heq
        -- The closed block is the result, or a part of the block around it.
        have hblock := htop.close (heq ▸ hcloses)
        dsimp only at h
        split at h
        · cases h
          exact hblock
        · rename_i next below
          obtain ⟨hnext, hbelow⟩ := List.forall_mem_cons.mp hbelow
          exact ih h (hnext.push hblock) hbelow
      · cases h
    · rename_i hopens hcloses
      split at h
      · rename_i hterminated
        exact ih h (htop.push ⟨hopens, hcloses, hterminated⟩) hbelow
      · cases h

/-- A block that `readBlock` reads is `Matched`. -/
theorem matched_of_readBlock {opener : Lexeme} {bracket : Bracket} {input after : List Lexeme}
    {c : Component} (h : readBlock opener bracket input = .ok (c, after))
    (hopener : opener.token.opens? = some bracket) : c.Matched :=
  matched_of_closeBlock h ⟨hopener, by simp⟩ (by simp)

/-- All components of a `forest` are matched, and their lexemes are those it was read from. -/
theorem matched_of_forest {input : List Lexeme} {cs : List Component} (h : forest input = .ok cs) :
    MatchedAll cs ∧ lexemesAll cs = input := by
  fun_induction forest input generalizing cs with
  | case1 =>
    cases h
    exact ⟨trivial, rfl⟩
  | case2 l rest bracket hopens c after hblock ih =>
    obtain ⟨more, hmore, rfl⟩ := exists_of_map_eq_ok h
    obtain ⟨hmatched, rfl⟩ := ih hmore
    obtain ⟨used, rfl, hlexemes⟩ := lexemes_of_readBlock hblock
    refine ⟨⟨matched_of_readBlock hblock hopens, hmatched⟩, ?_⟩
    rw [lexemesAll, hlexemes]
    rfl
  | case3 => cases h
  | case4 => cases h
  | case5 l rest hcloses hopens hterminated ih =>
    obtain ⟨more, hmore, rfl⟩ := exists_of_map_eq_ok h
    obtain ⟨hmatched, rfl⟩ := ih hmore
    exact ⟨⟨⟨hopens, hcloses, hterminated⟩, hmatched⟩, rfl⟩
  | case6 => cases h

/-! ## Components of a text -/

/-- The component is matched, and its lexemes stand next to each other in the source. -/
structure From (source : List Char) (c : Component) : Prop where
  /-- The brackets and quoted texts of the component are closed. -/
  matched : c.Matched
  /-- The component is part of the source. -/
  lexemes : c.lexemes <:+: Lexeme.contents source

/-- The lexemes of a component stand next to each other among those of all, `lexemesAll`. -/
theorem lexemes_infix_lexemesAll {c : Component} {cs : List Component} (h : c ∈ cs) :
    c.lexemes <:+: lexemesAll cs := by
  obtain ⟨before, after, rfl⟩ := List.append_of_mem h
  exact ⟨lexemesAll before, lexemesAll after, by simp [lexemesAll]⟩

variable {source : List Char}

/-- What stands inside of a block that comes `From` a text comes from it. -/
theorem From.body {opener closer : Lexeme} {body : List Component}
    (h : From source (.block opener body closer)) : ∀ c ∈ body, From source c := by
  intro c hc
  refine ⟨matchedAll_iff.mp h.matched.2 c hc, ?_⟩
  have hbody : lexemesAll body <:+: Component.lexemes (.block opener body closer) :=
    ⟨[opener], [closer], by simp [Component.lexemes]⟩
  exact ((lexemes_infix_lexemesAll hc).trans hbody).trans h.lexemes

/-- The components of lexemes that stand next to each other in the source come `From` it. -/
theorem from_of_forest {input : List Lexeme} {cs : List Component} (h : forest input = .ok cs)
    (hinput : input <:+: Lexeme.contents source) : ∀ c ∈ cs, From source c := by
  intro c hc
  obtain ⟨hmatched, rfl⟩ := matched_of_forest h
  exact ⟨matchedAll_iff.mp hmatched c hc, (lexemes_infix_lexemesAll hc).trans hinput⟩

/-- The text of a block in parentheses that comes `From` a text is `Neutral`. -/
theorem From.neutral {opener closer : Lexeme} {body : List Component}
    (h : From source (.block opener body closer)) (hopener : opener.token.opens? = some .paren) :
    Neutral (textAll [.block opener body closer]).toList := by
  obtain ⟨⟨bracket, hopens, hcloses⟩, hbody⟩ := h.matched
  obtain rfl : Bracket.paren = bracket := by simpa [hopener] using hopens
  have hcloser : closer.token = .closer .paren := by
    revert hcloses
    cases closer.token <;> simp [Token.closes?]
  have hlexemes : Component.lexemes (.block opener body closer) =
      opener :: lexemesAll body ++ [closer] := rfl
  have htext : (textAll [.block opener body closer]).toList =
      Lexeme.join (opener :: lexemesAll body ++ [closer]) := by
    simp [textAll, lexemesAll, hlexemes]
  -- The lexemes of the block are read somewhere in the source, from its opener on.
  obtain ⟨before, after, hcontents⟩ := h.lexemes
  obtain ⟨left, hscan⟩ := Lexeme.scans_scanFrom 0 source
  change Lexeme.Scans source (Lexeme.contents source) left at hscan
  rw [← hcontents, List.append_assoc, hlexemes] at hscan
  obtain ⟨input, -, hscan⟩ := hscan.of_append
  obtain ⟨left, hscan, -⟩ := hscan.of_append
  refine ⟨?_, fun {stack tail} hstack htail => ?_⟩
  · obtain ⟨c, rest, -, htoken, hopenerText, -⟩ := hscan
    obtain ⟨tail, htail⟩ := Scan.exists_text_token c rest
    refine ⟨c, tail ++ (lexemesAll body ++ [closer]).flatMap fun l => l.gap ++ l.text, ?_, ?_⟩
    · rw [htext, List.cons_append, Lexeme.join, hopenerText, htail]
      rfl
    · rintro rfl
      rw [htoken, Scan.token_of_separator (by decide)] at hopener
      cases hopener
  -- A matched component closes what it opens, and its own text has the same lexemes.
  · have hfold := Matched.foldlM_advance? hstack _ h.matched
    rw [hlexemes] at hfold
    rw [htext, hscan.after_join_append hcloser, hfold]
    rfl

end Component

end ThemeColor
