import ThemeColor.Proofs.Agreement
import ThemeColor.Proofs.TameText
import ThemeColor.Proofs.Typesetting

/-!
# Arguments between separators

Arguments stand side by side with a comma, a blank or a slash between them. If they are tame texts
with no such separator outside of brackets, then the whole text is cut into the components of each
argument and of the separators (`exists_cut_joined`), and splitting at the separators gives the
arguments back, apart from blanks around them and from their places in the text.

## Main results

* `Component.Joined.splitOnP_comma`: commas leave the arguments that they stand between;
* `Component.Joined.exists_words`, `Component.Joined.exists_words_slash`: so do blanks, and a slash
  in front of the last argument.
-/

namespace ThemeColor

open Text Grammar

namespace Component

/-! ## Arguments -/

/-- Components that may stand between separators: there are some, and none of them is blank or a
separator. -/
structure Solid (cs : List Component) : Prop where
  /-- There are components. -/
  ne_nil : cs ≠ []
  /-- Blanks, commas and slashes are inside of blocks. -/
  inside : ∀ c ∈ cs, ∀ t ∈ [.whitespace, .comma, .delim '/'], isToken t c = false

theorem Solid.blank {cs : List Component} (h : Solid cs) : ∀ c ∈ cs, c.isWhitespace = false := by
  intro c hc
  rw [Bool.eq_false_iff, Ne, isWhitespace_iff, ← isToken_iff]
  exact Bool.eq_false_iff.mp (h.inside c hc _ (by simp))

instance (cs : List Component) : Decidable (Solid cs) :=
  decidable_of_iff
    (cs ≠ [] ∧ ∀ c ∈ cs, ∀ t ∈ [Token.whitespace, .comma, .delim '/'], isToken t c = false)
    ⟨fun h => ⟨h.1, h.2⟩, fun h => ⟨h.ne_nil, h.inside⟩⟩

/-- The text is tame, and on its own it is cut into solid components. -/
structure IsArgument (text : List Char) (cs : List Component) : Prop where
  /-- The lexemes do not depend on what follows. -/
  tame : Scan.Tame text
  /-- The text has the lexemes of the components. -/
  lexemes : Lexeme.contents text = lexemesAll cs
  /-- Brackets are closed. -/
  matched : MatchedAll cs
  /-- No separator stands outside of brackets. -/
  solid : Solid cs

variable {text tail : List Char} {cs : List Component}

/-- A text that satisfies `IsArgument` starts with a character that is not blank. -/
theorem IsArgument.exists_cons (h : IsArgument text cs) :
    ∃ d rest, text = d :: rest ∧ Scan.isSpace d = false := by
  obtain ⟨c, more, rfl⟩ := List.exists_cons_of_ne_nil h.solid.ne_nil
  have hscans := Lexeme.Scans.of_tame h.tame
  rw [h.lexemes, lexemesAll, lexemes_eq_cons] at hscans
  -- No comment stands in front, so the first lexeme starts where the text does.
  obtain ⟨d, rest, hcomments, htoken, -⟩ := hscans
  obtain ⟨-, rfl⟩ := h.tame.eq_of_comments hcomments
  refine ⟨d, rest, rfl, ?_⟩
  rw [Bool.eq_false_iff]
  intro hspace
  have hfirst := Matched.first h.matched.1 (h.solid.blank c List.mem_cons_self)
  rw [htoken, (Scan.value_token d rest).1.mpr hspace] at hfirst
  cases hfirst

/-- It does not end with blanks. -/
theorem IsArgument.last_ne (h : IsArgument text cs) {l : Lexeme}
    (hl : (lexemesAll cs).getLast? = some l) : l.token ≠ .whitespace := by
  obtain ⟨init, c, rfl⟩ := (List.eq_nil_or_concat' cs).resolve_left h.solid.ne_nil
  have hmem : c ∈ init ++ [c] := List.mem_append_right init List.mem_cons_self
  obtain ⟨front, last, hlast, hspace⟩ :=
    Matched.exists_last (matchedAll_iff.mp h.matched c hmem) (h.solid.blank c hmem)
  rw [lexemesAll_append, lexemesAll, lexemesAll, List.append_nil, hlast, ← List.append_assoc,
    List.getLast?_concat] at hl
  obtain rfl := Option.some.inj hl
  intro htoken
  rw [htoken] at hspace
  cases hspace

/-- In front of a separator an argument has a `Cut` into its own components, at the place it has. -/
theorem IsArgument.cut (h : IsArgument text cs) (htail : Scan.Separated tail) (offset : Nat) :
    Cut text offset tail (movedAll (· + offset) cs) where
  scans := by
    rw [lexemesAll_movedAll, ← h.lexemes]
    refine Lexeme.Scans.map_moved ((Lexeme.Scans.of_tame h.tame).continue_tame htail h.tame ?_)
    rw [h.lexemes]
    exact fun l hl => h.last_ne hl
  consecutive := by
    -- The lexemes from `offset` on are those from zero on, moved by `offset`.
    obtain ⟨gap, hend⟩ := Lexeme.scanFrom_eq_dropLast offset text
    have hconsecutive := Lexeme.consecutive_scanFrom offset text
    rw [hend] at hconsecutive
    rw [lexemesAll_movedAll, ← h.lexemes, Lexeme.contents, Lexeme.ofText, List.map_dropLast,
      ← Lexeme.scanFrom_add, Nat.zero_add]
    exact hconsecutive.of_append_left
  matched := h.matched.movedAll

/-! ## Separators -/

/-- What stands between two arguments. -/
inductive Separator
  | comma
  | blank
  | slash

/-- The text of the separator. -/
def Separator.chars : Separator → List Char
  | .comma => [',', ' ']
  | .blank => [' ']
  | .slash => [' ', '/', ' ']

/-- The tokens of the separator. -/
def Separator.tokens : Separator → List Token
  | .comma => [.comma, .whitespace]
  | .blank => [.whitespace]
  | .slash => [.whitespace, .delim '/', .whitespace]

/-- A `Separator` ends what stands in front of it. -/
theorem Separator.separated (s : Separator) (tail : List Char) :
    Scan.Separated (s.chars ++ tail) := by
  cases s with
  | comma => exact ⟨',', by decide, rfl⟩
  | blank | slash => exact ⟨' ', by decide, rfl⟩

/-- A `Separator` in front of an argument is cut into its tokens. -/
theorem Separator.exists_cut (s : Separator) (offset : Nat) {d : Char} (rest : List Char)
    (hd : Scan.isSpace d = false) :
    ∃ mid, Cut s.chars offset (d :: rest) mid ∧ mid.map token? = s.tokens.map some := by
  cases s with
  | comma => exact ⟨_, (typeset_comma _ _).toCut.append (typeset_blank hd).toCut, rfl⟩
  | blank => exact ⟨_, (typeset_blank hd).toCut, rfl⟩
  | slash =>
    have hslash : Typeset ['/'] (offset + byteSize [' ']) (' ' :: d :: rest) _ :=
      typeset_separator (by simp) (by simp)
    exact ⟨_, (typeset_blank (by decide)).toCut.append
      (hslash.toCut.append (typeset_blank hd).toCut), rfl⟩

/-- Arguments with separators between them. -/
def joined (text : List Char) : List (Separator × List Char) → List Char
  | [] => text
  | (s, next) :: more => text ++ (s.chars ++ joined next more)

theorem IsArgument.exists_cons_joined (h : IsArgument text cs)
    (more : List (Separator × List Char)) :
    ∃ d rest, joined text more = d :: rest ∧ Scan.isSpace d = false := by
  obtain ⟨d, rest, rfl, hspace⟩ := h.exists_cons
  cases more with
  | nil => exact ⟨d, rest, rfl, hspace⟩
  | cons next more => exact ⟨d, _, rfl, hspace⟩

/-- The components are those of the first argument and of the others, at some places, with the
separators between them. -/
inductive Joined : List Component → List Component → List (Separator × List Component) → Prop
  | last {cs : List Component} (f : Nat → Nat) (hcs : Solid cs) : Joined (movedAll f cs) cs []
  | cons {mid body cs next : List Component} {s : Separator}
      {more : List (Separator × List Component)} (f : Nat → Nat) (hcs : Solid cs)
      (hmid : mid.map token? = s.tokens.map some) (hbody : Joined body next more) :
      Joined (movedAll f cs ++ (mid ++ body)) cs ((s, next) :: more)

/-- Arguments with separators between them, `joined`, are cut one after the other. Each separator is
followed by an argument, so its blank ends before the character that the argument starts with. -/
theorem exists_cut_joined {more : List (Separator × List Char)}
    {parts : List (Separator × List Component)} (htail : Scan.Separated tail)
    (h : IsArgument text cs)
    (hmore : List.Forall₂ (fun x y => x.1 = y.1 ∧ IsArgument x.2 y.2) more parts) (offset : Nat) :
    ∃ body, Cut (joined text more) offset tail body ∧ Joined body cs parts := by
  induction hmore generalizing text cs offset with
  | nil => exact ⟨_, h.cut htail offset, .last _ h.solid⟩
  | @cons x y more parts hxy hmore ih =>
    obtain ⟨s, next⟩ := x
    obtain ⟨s', nexts⟩ := y
    obtain ⟨rfl, hnext⟩ := hxy
    obtain ⟨body, hbody, hjoined⟩ := ih hnext (offset + byteSize text + byteSize s.chars)
    obtain ⟨d, rest, hd, hspace⟩ := hnext.exists_cons_joined more
    obtain ⟨mid, hmid, htokens⟩ := s.exists_cut (offset + byteSize text) (rest ++ tail) hspace
    rw [← List.cons_append, ← hd] at hmid
    have htext := h.cut (s.separated (joined next more ++ tail)) offset
    rw [← List.append_assoc] at htext
    exact ⟨_, htext.append (hmid.append hbody), .cons _ h.solid htokens hjoined⟩

variable {x body : List Component} {parts : List (Separator × List Component)} {f : Nat → Nat}

/-- Components that are `Joined` nest as deep as their arguments. -/
theorem Joined.depthAll_le_iff (h : Joined body cs parts) {n : Nat} :
    depthAll body ≤ n ↔ ∀ x ∈ cs :: parts.map Prod.snd, depthAll x ≤ n := by
  induction h with
  | last f hcs => simp [depthAll_movedAll]
  | @cons mid body cs next s more f hcs hmid hbody ih =>
    have htokens : ∀ c ∈ mid, c.depth ≤ n := by
      intro c hc
      have hsome : c.token? ∈ s.tokens.map some := hmid ▸ List.mem_map_of_mem hc
      cases c with
      | token l => exact Nat.zero_le n
      | block opener inside closer => simp [token?] at hsome
    have hbody' : (∀ c ∈ body, c.depth ≤ n) ↔ _ := Component.depthAll_le_iff.symm.trans ih
    rw [Component.depthAll_le_iff, List.forall_mem_append, List.forall_mem_append,
      ← Component.depthAll_le_iff, hbody', depthAll_movedAll, and_iff_right htokens]
    simp

theorem Joined.depthAll_eq {body' : List Component} {parts' : List (Separator × List Component)}
    (h : Joined body cs parts) (h' : Joined body' cs parts')
    (hparts : parts.map Prod.snd = parts'.map Prod.snd) : depthAll body = depthAll body' := by
  refine Nat.le_antisymm ?_ ?_
  · rw [h.depthAll_le_iff, hparts, ← h'.depthAll_le_iff]
  · rw [h'.depthAll_le_iff, ← hparts, ← h.depthAll_le_iff]

/-! ## Components that are alike -/

/-- Apart from blank ends and from places, these are the components of an argument. -/
def Resembles (x cs : List Component) : Prop :=
  Solid cs ∧ ∃ f, trimWhile isWhitespace x = movedAll f cs

/-- Components that are `Solid` are so wherever they stand. -/
theorem solid_movedAll (h : Solid cs) : Solid (movedAll f cs) := by
  simp only [movedAll_eq_map]
  exact ⟨by simpa using h.ne_nil, by simpa using h.inside⟩

/-- An argument `Resembles` itself wherever it stands. -/
theorem resembles_movedAll (h : Solid cs) : Resembles (movedAll f cs) cs := by
  refine ⟨h, f, trimWhile_eq_self (fun c hc => ?_) fun c hc => ?_⟩
  · exact (solid_movedAll h).blank c (List.mem_of_mem_head? hc)
  · exact (solid_movedAll h).blank c (List.mem_of_mem_getLast? hc)

/-- Blanks in front do not change what `Resembles` an argument. -/
theorem Resembles.cons {w : Component} (hw : w.isWhitespace) (h : Resembles x cs) :
    Resembles (w :: x) cs := by
  obtain ⟨hcs, f, hf⟩ := h
  refine ⟨hcs, f, ?_⟩
  rw [← List.singleton_append, trimWhile_append_left (by simpa using hw), hf]

/-- What `Resembles` an argument stands for the same channel. -/
theorem Resembles.channel_iff {rule : Expr Float → Expr Float → Prop} {e : Expr Float}
    (h : Resembles x cs) : Channel rule x e ↔ Channel rule cs e := by
  obtain ⟨-, f, hf⟩ := h
  rw [← (phrase_channel rule e).trim x, hf]
  simp only [Channel, number_movedAll_iff]

/-- What `Resembles` an argument has no commas and slashes. -/
theorem Resembles.isToken_eq_false {t : Token} (h : Resembles x cs)
    (ht : t ∈ [.comma, .delim '/']) : ∀ c ∈ x, isToken t c = false := by
  obtain ⟨hcs, f, hf⟩ := h
  have hblank : ∀ c : Component, c.isWhitespace → isToken t c = false := by
    refine fun c hc => isToken_of_isWhitespace hc ?_
    rcases List.mem_pair.mp ht with rfl | rfl <;> rfl
  obtain ⟨before, after, hx, hbefore, hafter⟩ := exists_eq_trimWhile isWhitespace x
  rw [hx, hf]
  refine List.forall_mem_append.mpr ⟨fun c hc => hblank c (hbefore c hc), ?_⟩
  refine List.forall_mem_append.mpr ⟨fun c hc => ?_, fun c hc => hblank c (hafter c hc)⟩
  exact (solid_movedAll hcs).inside c hc t (List.mem_cons_of_mem _ ht)

theorem forall_isToken_eq_false {t : Token} {pieces args : List (List Component)}
    (h : List.Forall₂ Resembles pieces args) (ht : t ∈ [.comma, .delim '/']) :
    ∀ piece ∈ pieces, ∀ c ∈ piece, isToken t c = false := by
  have hboth := h.imp fun x cs hx => And.intro (hx.isToken_eq_false ht) hx
  exact ((List.forall₂_and_left _ _).mp hboth).1

/-- The `Words` that resemble arguments leave no separator but blanks. -/
theorem isToken_eq_false_of_words {t : Token} {words args : List (List Component)}
    (hwords : Words x words) (h : List.Forall₂ Resembles words args)
    (ht : t ∈ [.comma, .delim '/']) : ∀ c ∈ x, isToken t c = false := by
  have hpieces := forall_isToken_eq_false h ht
  refine hwords.forall_mem (fun c hc => isToken_of_isWhitespace hc ?_) hpieces
  rcases List.mem_pair.mp ht with rfl | rfl <;> rfl

theorem noSlash_of_words {words args : List (List Component)} (hwords : Words x words)
    (h : List.Forall₂ Resembles words args) : NoSlash x :=
  fun c hc => Bool.eq_false_iff.mp (isToken_eq_false_of_words hwords h (by simp) c hc)

/-! ## Splitting at separators -/

/-- Commas leave the arguments that they stand between in what is `Joined`. -/
theorem Joined.splitOnP_comma (h : Joined body cs parts) (hparts : ∀ p ∈ parts, p.1 = .comma) :
    List.Forall₂ Resembles (body.splitOnP (isToken .comma)) (cs :: parts.map Prod.snd) := by
  induction h with
  | last f hcs =>
    rw [List.splitOnP_eq_singleton ((resembles_movedAll hcs).isToken_eq_false (by simp))]
    exact .cons (resembles_movedAll hcs) .nil
  | @cons mid body cs next s more f hcs hmid hbody ih =>
    obtain ⟨rfl, hmore⟩ := List.forall_mem_cons.mp hparts
    obtain ⟨c, rest, rfl, hc, hrest⟩ := List.map_eq_cons_iff.mp hmid
    obtain ⟨w, rest, rfl, hw, hnil⟩ := List.map_eq_cons_iff.mp hrest
    obtain rfl := List.map_eq_nil_iff.mp hnil
    have hblank : w.isWhitespace := isWhitespace_iff.mpr hw
    have hnone : isToken .comma w = false := isToken_of_isWhitespace hblank rfl
    have hcomma : ∀ c ∈ movedAll f cs, isToken .comma c = false :=
      (resembles_movedAll hcs).isToken_eq_false (by simp)
    -- The blank behind the comma is in front of the next argument.
    rw [List.cons_append, List.singleton_append,
      List.splitOnP_append_cons_of_forall_mem hcomma _ (isToken_iff.mpr hc),
      List.splitOnP_cons_eq_if_modifyHead, if_neg (by simp [hnone])]
    have hpieces := ih hmore
    cases hsplit : body.splitOnP (isToken .comma) with
    | nil => exact absurd hsplit (List.splitOnP_ne_nil _ _)
    | cons x pieces =>
      rw [hsplit] at hpieces
      cases hpieces with
      | cons hx hpieces => exact .cons (resembles_movedAll hcs) (.cons (hx.cons hblank) hpieces)

/-- The components of an argument are one of the `Words` in front of a blank. -/
theorem words_movedAll_cons {w : Component} {words : List (List Component)} (hcs : Solid cs)
    (hw : w.isWhitespace) (h : Words x words) :
    Words (movedAll f cs ++ w :: x) (movedAll f cs :: words) := by
  have hsolid := solid_movedAll (f := f) hcs
  refine .cons (b := []) blank_nil hsolid.ne_nil (fun c hc => ?_) hw h
  exact Bool.eq_false_iff.mp (hsolid.blank c hc)

/-- So they are in front of nothing, with blanks before them. -/
theorem words_movedAll (hcs : Solid cs) (hx : Blank x) :
    Words (x ++ movedAll f cs) [movedAll f cs] := by
  have hsolid := solid_movedAll (f := f) hcs
  exact .last hx hsolid.ne_nil fun c hc => Bool.eq_false_iff.mp (hsolid.blank c hc)

/-- Blanks leave the arguments that they stand between in what is `Joined`. -/
theorem Joined.exists_words (h : Joined body cs parts) (hparts : ∀ p ∈ parts, p.1 = .blank) :
    ∃ words, Words body words ∧ List.Forall₂ Resembles words (cs :: parts.map Prod.snd) := by
  induction h with
  | last f hcs =>
    exact ⟨_, words_movedAll (x := []) hcs blank_nil, .cons (resembles_movedAll hcs) .nil⟩
  | @cons mid body cs next s more f hcs hmid hbody ih =>
    obtain ⟨rfl, hmore⟩ := List.forall_mem_cons.mp hparts
    obtain ⟨w, rest, rfl, hw, hnil⟩ := List.map_eq_cons_iff.mp hmid
    obtain rfl := List.map_eq_nil_iff.mp hnil
    obtain ⟨words, hwords, hresembles⟩ := ih hmore
    exact ⟨_, words_movedAll_cons hcs (isWhitespace_iff.mpr hw) hwords,
      .cons (resembles_movedAll hcs) hresembles⟩

/-- A slash behind them leaves the last argument in what is `Joined`. -/
theorem Joined.exists_words_slash {alpha : List Component}
    (h : Joined body cs (parts ++ [(.slash, alpha)])) (hparts : ∀ p ∈ parts, p.1 = .blank) :
    ∃ front slash tail words x, body = front ++ slash :: tail ∧ Words front words ∧
      isToken (.delim '/') slash ∧ Words tail [x] ∧
      List.Forall₂ Resembles words (cs :: parts.map Prod.snd) ∧ Resembles x alpha := by
  induction parts generalizing body cs with
  | nil =>
    cases h with
    | @cons mid body _ _ _ _ f hcs hmid hbody =>
      cases hbody with
      | last g halpha =>
        obtain ⟨w, rest, rfl, hw, hrest⟩ := List.map_eq_cons_iff.mp hmid
        obtain ⟨slash, rest, rfl, hslash, hrest⟩ := List.map_eq_cons_iff.mp hrest
        obtain ⟨v, rest, rfl, hv, hnil⟩ := List.map_eq_cons_iff.mp hrest
        obtain rfl := List.map_eq_nil_iff.mp hnil
        have hblank : Blank [v] := by simpa [Blank] using isWhitespace_iff.mpr hv
        exact ⟨movedAll f cs ++ [w], slash, [v] ++ movedAll g alpha, _, _, by simp,
          words_movedAll_cons hcs (isWhitespace_iff.mpr hw) (.nil blank_nil),
          isToken_iff.mpr hslash, words_movedAll halpha hblank,
          .cons (resembles_movedAll hcs) .nil, resembles_movedAll halpha⟩
  | cons p parts ih =>
    obtain ⟨hp, hmore⟩ := List.forall_mem_cons.mp hparts
    obtain ⟨s, next⟩ := p
    obtain rfl : s = .blank := hp
    cases h with
    | cons f hcs hmid hbody =>
      obtain ⟨w, rest, rfl, hw, hnil⟩ := List.map_eq_cons_iff.mp hmid
      obtain rfl := List.map_eq_nil_iff.mp hnil
      obtain ⟨front, slash, tail, words, x, rfl, hwords, hslash, htail, hresembles, hx⟩ :=
        ih hbody hmore
      exact ⟨movedAll f cs ++ w :: front, slash, tail, _, x, by simp,
        words_movedAll_cons hcs (isWhitespace_iff.mpr hw) hwords, hslash, htail,
        .cons (resembles_movedAll hcs) hresembles, hx⟩

end Component

end ThemeColor
