import ThemeColor.Proofs.BlockText
import ThemeColor.Proofs.TokenTruncation

/-!
# Lexemes of a part of a text

The part of a text from the start of one lexeme to the end of another is read into the lexemes
between them again. Their places are counted from the start of the part, and the comments in front
of the first one are gone. Only a part that ends with an exposed token is read otherwise.

## Main results

* `ofText_join`: lexemes that stand next to each other are the lexemes of the text they join to;
* `ofText_slice`: the part between two lexemes is read the same exactly if it ends with no exposed
  token, and the part from a lexeme to the end of the text always is.
-/

namespace ThemeColor

open Text

namespace Scan

/-! ## The kinds of tokens -/

/-- A number is a plain one, a percentage or one with a unit. -/
theorem value_numeric (input : List Char) :
    ∃ n, (numeric input).value = .number n ∨ (numeric input).value = .percentage n ∨
      ∃ unit, (numeric input).value = .dimension n unit := by
  refine ⟨(Numeral.scan input).1, ?_⟩
  unfold numeric
  split
  · rename_i value rest hscan
    rw [hscan]
    split
    · exact .inr (.inr ⟨_, rfl⟩)
    · split
      · exact .inr (.inl rfl)
      · exact .inl rfl

/-- A quote stands at the front of the text, perhaps behind blanks. -/
def QuoteFollows (text : List Char) : Prop :=
  (text.dropWhile isSpace).head? = some '"' ∨ (text.dropWhile isSpace).head? = some '\''

/-- What looks like a name is a name, an address or a function, and a quote follows the function
`url`. -/
theorem value_nameLike (input : List Char) :
    ∃ word, (nameLike input).value = .ident word ∨ (nameLike input).value = .url word ∨
      (nameLike input).value = .badUrl ∨
      (nameLike input).value = .function word ∧
        (Text.sameIgnoringCase word "url" → QuoteFollows (nameLike input).rest) := by
  unfold nameLike
  dsimp only
  split
  · rename_i inside hrest
    by_cases hurl : Text.sameIgnoringCase (String.ofList (name input).value) "url"
    · rw [if_pos hurl]
      simp only [Scanned.after, urlOrFunction, id]
      split
      · rename_i hquote
        exact ⟨_, .inr (.inr (.inr ⟨rfl, fun _ => hquote⟩))⟩
      · dsimp only
        split
        · exact ⟨_, .inr (.inl rfl)⟩
        · exact ⟨"", .inr (.inr (.inl rfl))⟩
    · rw [if_neg hurl]
      exact ⟨_, .inr (.inr (.inr ⟨rfl, fun h => absurd h hurl⟩))⟩
  · exact ⟨_, .inl rfl⟩

theorem punctuation_ne_whitespace (c : Char) :
    punctuation c ≠ .whitespace ∧ punctuation c ≠ .eof := by
  unfold punctuation
  repeat' split
  all_goals simp

/-- A token is blank exactly if its first character is, and it never is the end of the text. -/
theorem value_token (c : Char) (rest : List Char) :
    ((token c rest).value = .whitespace ↔ isSpace c) ∧ (token c rest).value ≠ .eof := by
  -- Whatever is read from a character that is not blank is neither.
  have hsolid {v : Token} (hspace : ¬ isSpace c) (hv : v ≠ .whitespace ∧ v ≠ .eof) :
      (v = .whitespace ↔ isSpace c) ∧ v ≠ .eof :=
    ⟨⟨fun h => absurd h hv.1, fun h => absurd h hspace⟩, hv.2⟩
  fun_cases token c rest with
  | case1 hspace => simp [hspace]
  | case2 hspace =>
    refine hsolid hspace ?_
    simp only [string, Scanned.after]
    split <;> simp
  | case3 hspace => exact hsolid hspace (by simp [Scanned.after])
  | case4 hspace => exact hsolid hspace (by simp [Scanned.after])
  | case5 hspace =>
    obtain ⟨n, h | h | ⟨unit, h⟩⟩ := value_numeric (c :: rest) <;> rw [h] <;>
      exact hsolid hspace (by simp)
  | case6 hspace => exact hsolid hspace (by simp)
  | case7 hspace => exact hsolid hspace (by simp)
  | case8 hspace =>
    obtain ⟨word, h | h | h | ⟨h, -⟩⟩ := value_nameLike (c :: rest) <;> rw [h] <;>
      exact hsolid hspace (by simp)
  | case9 hspace => exact hsolid hspace (punctuation_ne_whitespace c)

/-- A quote follows the function `url`, perhaps behind blanks. -/
theorem quoteFollows_of_isUrlFunction {c : Char} {rest : List Char} :
    (token c rest).value.isUrlFunction → QuoteFollows (token c rest).rest := by
  fun_cases token c rest with
  | case2 =>
    simp only [string, Scanned.after]
    split <;> simp [Token.isUrlFunction]
  | case5 =>
    obtain ⟨n, h | h | ⟨unit, h⟩⟩ := value_numeric (c :: rest) <;> simp [h, Token.isUrlFunction]
  | case8 =>
    obtain ⟨word, h | h | h | ⟨h, hquote⟩⟩ := value_nameLike (c :: rest)
    · simp [h, Token.isUrlFunction]
    · simp [h, Token.isUrlFunction]
    · simp [h, Token.isUrlFunction]
    · rw [h]
      exact hquote
  | case9 =>
    intro h
    rw [isUrlFunction_punctuation] at h
    cases h
  | _ => simp [Token.isUrlFunction, Scanned.after]

/-- There is no comment in front of a quote or of blanks. -/
theorem comments_of_quoteFollows {text : List Char} (h : QuoteFollows text) :
    comments text = ([], text) := by
  cases text with
  | nil => rcases h with h | h <;> cases h
  | cons c rest =>
    apply comments_cons
    rintro rfl
    -- A slash is neither blank nor a quote.
    rcases h with h | h <;> cases h

end Scan

namespace Lexeme

/-! ## Lexemes at other places -/

/-- The lexeme with another position. -/
def moved (f : Nat → Nat) (l : Lexeme) : Lexeme := { l with start := f l.start }

/-- The token and its place, counted from byte `origin` on. -/
def placeFrom (origin : Nat) (l : Lexeme) : Token × Span :=
  (l.token, ⟨l.start - origin, l.stop - origin⟩)

/-- A text is read into the first lexeme and the lexemes of the rest. -/
theorem scanFrom_cons {input gap rest : List Char} {c : Char}
    (h : Scan.comments input = (gap, c :: rest)) (offset : Nat) :
    scanFrom offset input =
      ⟨(Scan.token c rest).value, gap, (Scan.token c rest).text, offset + byteSize gap⟩ ::
        scanFrom (offset + byteSize gap + byteSize (Scan.token c rest).text)
          (Scan.token c rest).rest := by
  rw [scanFrom]
  split
  · rename_i hnil
    rw [h] at hnil
    cases hnil
  · rename_i hcons
    rw [h] at hcons
    obtain ⟨rfl, rfl⟩ := List.cons.inj hcons
    rw [h]

/-- A text that starts `d` bytes later has its lexemes `d` bytes later. -/
theorem scanFrom_add (offset d : Nat) (input : List Char) :
    scanFrom (offset + d) input = (scanFrom offset input).map (moved (· + d)) := by
  fun_induction scanFrom offset input with
  | case1 offset input gap start h =>
    rw [scanFrom_of_nil h]
    simp only [List.map_cons, List.map_nil, moved, start, gap, Nat.add_right_comm]
  | case2 offset input gap start c rest h s ih =>
    rw [scanFrom_cons (Prod.ext rfl h), List.map_cons, ← ih]
    simp only [moved, start, gap, s, Nat.add_right_comm _ d]

/-- The lexemes from one of them on are the lexemes of the rest of the text. -/
theorem exists_of_scanFrom_eq_append {offset : Nat} {input : List Char} {before : List Lexeme}
    {first : Lexeme} {more : List Lexeme} (h : scanFrom offset input = before ++ first :: more) :
    ∃ offset' rest, scanFrom offset' rest = first :: more := by
  fun_induction scanFrom offset input generalizing before with
  | case1 offset input gap start =>
    rename_i hcomments
    cases before with
    | nil => exact ⟨offset, input, by rw [scanFrom_of_nil hcomments]; exact h⟩
    -- There is only the end of the text.
    | cons l before => simp at h
  | case2 offset input gap start c rest hcomments s =>
    rename_i ih
    cases before with
    | nil => exact ⟨offset, input, by rw [scanFrom_cons (Prod.ext rfl hcomments)]; exact h⟩
    | cons l before => exact ih (List.cons.inj h).2

/-- Without the comments at the front of a text its first lexeme has no comments in front. -/
theorem scanFrom_comments {offset : Nat} {input : List Char} {first : Lexeme} {more : List Lexeme}
    (h : scanFrom offset input = first :: more) :
    scanFrom first.start (Scan.comments input).2 = { first with gap := [] } :: more := by
  rcases hcomments : Scan.comments input with ⟨gap, rest⟩
  have hidem := comments_idem input
  rw [hcomments] at hidem
  dsimp only at hidem
  cases rest with
  | nil =>
    rw [scanFrom_of_nil (by rw [hcomments]), hcomments] at h
    obtain ⟨rfl, rfl⟩ := List.cons.inj h
    rw [scanFrom_nil]
  | cons c rest =>
    rw [scanFrom_cons hcomments] at h
    obtain ⟨rfl, rfl⟩ := List.cons.inj h
    rw [scanFrom_cons hidem]
    rfl

/-- A text is read into the lexemes at its front and the lexemes of the rest. -/
theorem Scans.scanFrom_eq {input left : List Char} {ls : List Lexeme} {offset : Nat}
    (h : Scans input ls left) (hc : Consecutive offset ls) :
    scanFrom offset input = ls ++ scanFrom (offset + byteSize (spelled ls)) left := by
  induction ls generalizing input offset with
  | nil =>
    obtain rfl : input = left := h
    rfl
  | cons l ls ih =>
    obtain ⟨c, rest, hcomments, htoken, htext, hrest⟩ := h
    cases hc with
    | cons hstart hmore =>
      have hoffset : l.stop + byteSize (spelled ls) = offset + byteSize (spelled (l :: ls)) := by
        simp only [Lexeme.stop, hstart, spelled_cons, byteSize_append]
        omega
      rw [scanFrom_cons hcomments, ← htoken, ← htext, ← hstart, List.cons_append, ← hoffset,
        ← ih hrest hmore]
      rfl

end Lexeme

/-! ## Exposed ends -/

/-- The last token depends on what follows: it is a quoted text that a line end cuts off, the
function `url`, or blanks behind that function. -/
def Token.EndsExposed (ts : List Token) : Prop :=
  (∃ t, [t] <:+ ts ∧ (t = .badString ∨ t.isUrlFunction)) ∨
    ∃ t, [t, .whitespace] <:+ ts ∧ t.isUrlFunction

theorem Token.not_endsExposed_nil : ¬ EndsExposed [] := by
  simp [EndsExposed]

theorem Token.endsExposed_cons_iff {t : Token} {ts : List Token} :
    EndsExposed (t :: ts) ↔
      ts = [] ∧ (t = .badString ∨ t.isUrlFunction) ∨ ts = [.whitespace] ∧ t.isUrlFunction ∨
        EndsExposed ts := by
  simp only [EndsExposed, List.suffix_cons_iff, List.cons.injEq]
  grind

namespace Lexeme

open Token

theorem Scans.eq_nil_of_spelled {input left : List Char} {ls : List Lexeme}
    (h : Scans input ls left) (hnil : spelled ls = []) : ls = [] := by
  cases ls with
  | nil => rfl
  | cons l ls =>
    obtain ⟨c, rest, -, -, htext, -⟩ := h
    obtain ⟨tail, htail⟩ := Scan.exists_text_token c rest
    rw [spelled_cons, htext, htail] at hnil
    simp at hnil

/-- Lexemes with a blank text are one run of blanks at most. -/
theorem Scans.token_of_blank {input r : List Char} {ls : List Lexeme}
    (h : Scans input ls r) (hblank : (spelled ls).all Scan.isSpace) :
    ls = [] ∨ ls.map token = [.whitespace] := by
  cases ls with
  | nil => exact .inl rfl
  | cons l ls =>
    obtain ⟨c, rest, hcomments, htoken, htext, hrest⟩ := h
    obtain ⟨tail, htail⟩ := Scan.exists_text_token c rest
    rw [spelled_cons, htext, htail, List.cons_append, List.all_append, List.all_cons,
      List.all_append] at hblank
    simp only [Bool.and_eq_true] at hblank
    obtain ⟨-, hspace, -, hmore⟩ := hblank
    -- The first lexeme takes all blanks that follow, so there is no second one.
    have hleft := hrest.eq_append
    rw [Scan.token, if_pos hspace] at hleft
    have hnil : spelled ls = [] := by
      cases hls : spelled ls with
      | nil => rfl
      | cons d more =>
        have hhead := List.head?_dropWhile_not Scan.isSpace rest
        rw [hls] at hleft hmore
        dsimp only at hleft
        rw [hleft] at hhead
        simp_all
    rw [hrest.eq_nil_of_spelled hnil]
    refine .inr ?_
    rw [List.map_cons, htoken, (Scan.value_token c rest).1.mpr hspace]
    rfl

/-- The first of some lexemes in front of `r` is read the same when `r` is cut off, unless it is
exposed. -/
theorem Scans.cut_cons {x r : List Char} {l : Lexeme} {ls : List Lexeme}
    (h : Scans (x ++ r) (l :: ls) r) :
    ∃ c rest, Scan.comments x = (l.gap, c :: rest) ∧
      Scan.TokenCut (Scan.token c rest) l.token l.text (spelled ls) ∧
      Scans (spelled ls ++ r) ls r := by
  obtain ⟨c, rest, hcomments, htoken, htext, hrest⟩ := h
  have hleft := hrest.eq_append
  -- All of `r` is left behind the first token.
  have hwhole := Scan.token_append c rest
  obtain ⟨tail, htail⟩ := Scan.exists_text_token c rest
  rw [hleft, htail, ← List.append_assoc, List.cons_append, List.cons_append] at hwhole
  obtain rfl := (List.cons.inj hwhole).2
  refine ⟨c, tail ++ spelled ls, Scan.comments_cut hcomments, ?_, hleft ▸ hrest⟩
  apply Scan.token_cut (r := r)
  rw [htoken, htext, ← hleft]

/-- The first of some lexemes is exposed by what follows it among them exactly if there is nothing
or, behind the function `url`, only blanks. -/
theorem Scans.exposed_iff {input r : List Char} {l : Lexeme} {ls : List Lexeme}
    (h : Scans input (l :: ls) r) :
    Scan.Exposed l.token (spelled ls) ↔
      ls.map token = [] ∧ (l.token = .badString ∨ l.token.isUrlFunction) ∨
        ls.map token = [.whitespace] ∧ l.token.isUrlFunction := by
  obtain ⟨c, rest, hcomments, htoken, htext, hrest⟩ := h
  constructor
  · rintro (⟨hbad, hnil⟩ | ⟨hurl, hblank⟩)
    · rw [hrest.eq_nil_of_spelled hnil]
      exact .inl ⟨rfl, .inl hbad⟩
    · rcases hrest.token_of_blank hblank with rfl | hspace
      · exact .inl ⟨rfl, .inr hurl⟩
      · exact .inr ⟨hspace, hurl⟩
  · rintro (⟨hnil, hbad | hurl⟩ | ⟨hspace, hurl⟩)
    · rw [List.map_eq_nil_iff.mp hnil]
      exact .inl ⟨hbad, rfl⟩
    · rw [List.map_eq_nil_iff.mp hnil]
      exact .inr ⟨hurl, rfl⟩
    · obtain ⟨w, rfl, hw⟩ := List.map_eq_singleton_iff.mp hspace
      obtain ⟨d, rest', hcomments', htoken', htext', -⟩ := hrest
      -- There is no comment between the function and the blanks.
      rw [Scan.comments_of_quoteFollows
        (Scan.quoteFollows_of_isUrlFunction (htoken ▸ hurl)), Prod.mk.injEq] at hcomments'
      have hd := (Scan.value_token d rest').1.mp (htoken'.symm.trans hw)
      refine .inr ⟨hurl, ?_⟩
      rw [Scan.token, if_pos hd] at htext'
      simp [← hcomments'.1, htext', hd, List.all_takeWhile]

/-- Lexemes in front of `r` are read the same when `r` is cut off, unless their end is exposed. -/
theorem Scans.cut {x r : List Char} {ls : List Lexeme} (h : Scans (x ++ r) ls r)
    (hend : ¬ EndsExposed (ls.map token)) : Scans x ls [] := by
  induction ls generalizing x with
  | nil => exact List.append_left_eq_self.mp h
  | cons l ls ih =>
    rw [List.map_cons, endsExposed_cons_iff, ← or_assoc, ← h.exposed_iff] at hend
    obtain ⟨c, rest, hcomments, hcut, hrest⟩ := h.cut_cons
    rcases hcut with ⟨hscan, -⟩ | ⟨-, hexposed⟩
    · refine ⟨c, rest, hcomments, ?_, ?_, ?_⟩
      · rw [hscan]
      · rw [hscan]
      · rw [hscan]
        exact ih hrest fun h => hend (.inr h)
    · exact absurd (.inl hexposed) hend

/-- Lexemes with an exposed end are not all read when what follows them is cut off. -/
theorem Scans.map_token_ne {x r : List Char} {ls : List Lexeme} (h : Scans (x ++ r) ls r)
    (hend : EndsExposed (ls.map token)) (offset : Nat) :
    (scanFrom offset x).map token ≠ ls.map token ++ [.eof] := by
  induction ls generalizing x offset with
  | nil => exact absurd hend not_endsExposed_nil
  | cons l ls ih =>
    rw [List.map_cons, endsExposed_cons_iff, ← or_assoc, ← h.exposed_iff] at hend
    obtain ⟨c, rest, hcomments, hcut, hrest⟩ := h.cut_cons
    rw [scanFrom_cons hcomments, List.map_cons, List.map_cons, List.cons_append]
    intro heq
    obtain ⟨htoken, hmore⟩ := List.cons.inj heq
    rcases hcut with ⟨hscan, hexposed⟩ | ⟨hne, -⟩
    · rw [hscan] at hmore
      exact ih hrest (hend.resolve_left hexposed) _ hmore
    · exact hne htoken

/-! ## Lexemes of a part -/

/-- Neighbouring lexemes of a text are read from the text they join to and what follows it. -/
theorem exists_scans_join {text : List Char} {before after more : List Lexeme} {first : Lexeme}
    (h : contents text = before ++ (first :: more ++ after)) :
    ∃ r, Scans (join (first :: more) ++ r) ({ first with gap := [] } :: more) r := by
  obtain ⟨left, hscan⟩ := scans_scanFrom 0 text
  change Scans text (contents text) left at hscan
  rw [h] at hscan
  obtain ⟨input, -, hscan⟩ := hscan.of_append
  obtain ⟨r, hscan, -⟩ := hscan.of_append
  have hjoin := hscan.tail_comments
  refine ⟨r, ?_⟩
  rw [hjoin.eq_append] at hjoin
  exact hjoin

/-- A lexeme without the comments in front of it, and those behind it, from the place of the lexeme
on. -/
theorem Consecutive.without_gap {offset : Nat} {first : Lexeme} {more : List Lexeme}
    (h : Consecutive offset (first :: more)) :
    Consecutive first.start ({ first with gap := [] } :: more) := by
  cases h with
  | cons hstart hrest => exact .cons rfl hrest

/-- The end of the text comes last, behind all bytes. -/
theorem scanFrom_eq_dropLast (offset : Nat) (input : List Char) :
    ∃ gap, scanFrom offset input =
      (scanFrom offset input).dropLast ++ [⟨.eof, gap, [], offset + byteSize input⟩] := by
  fun_induction scanFrom offset input with
  | case1 offset input gap start h =>
    have happend := Scan.comments_append input
    rw [h, List.append_nil] at happend
    exact ⟨gap, by simp [start, gap, happend]⟩
  | case2 offset input gap start c rest h s ih =>
    obtain ⟨gap', ih⟩ := ih
    refine ⟨gap', ?_⟩
    have hsize : start + byteSize s.text + byteSize s.rest = offset + byteSize input := by
      rw [← Scan.comments_append input, h, ← Scan.token_append c rest]
      simp only [byteSize_append, start, gap, s]
      omega
    rw [List.dropLast_cons_of_ne_nil (scanFrom_ne_nil _ _), List.cons_append, ← hsize, ← ih]

/-- The lexemes of a text are those in front of its end and the end. -/
theorem ofText_eq_contents (text : List Char) :
    ∃ gap, ofText text = contents text ++ [⟨.eof, gap, [], byteSize text⟩] := by
  obtain ⟨gap, h⟩ := scanFrom_eq_dropLast 0 text
  rw [Nat.zero_add] at h
  exact ⟨gap, h⟩

theorem exists_ofText_eq_append {text : List Char} {ls ls' : List Lexeme}
    (h : contents text = ls ++ ls') : ∃ after, ofText text = ls ++ (ls' ++ after) := by
  obtain ⟨gap, htext⟩ := ofText_eq_contents text
  exact ⟨_, by rw [htext, h, List.append_assoc]⟩

/-- Neighbouring lexemes of a text are the lexemes of the text they join to, with no comments in
front of the first one and with places counted from its start. -/
theorem ofText_join {text : List Char} {before after more : List Lexeme} {first : Lexeme}
    (h : contents text = before ++ (first :: more ++ after))
    (hend : ¬ EndsExposed ((first :: more).map token)) :
    (ofText (join (first :: more))).map (moved (· + first.start)) =
      { first with gap := [] } :: more ++ [⟨.eof, [], [], (spanOf first more).stop⟩] := by
  obtain ⟨r, hscan⟩ := exists_scans_join h
  obtain ⟨last, htext⟩ := exists_ofText_eq_append h
  have hconsecutive := consecutive_scanFrom 0 text
  rw [← ofText, htext] at hconsecutive
  have hfirst := hconsecutive.of_append.of_append_left.of_append_left
  have hstop : (spanOf first more).stop = first.start + byteSize (join (first :: more)) := by
    cases hfirst with
    | cons hstart hrest => exact hrest.stop_spanOf
  have hread := (hscan.cut hend).scanFrom_eq hfirst.without_gap
  rw [ofText, ← scanFrom_add, Nat.zero_add, hread, hstop, scanFrom_nil]
  rfl

/-- Neighbouring lexemes of a text up to its end are the lexemes of the text they join to. -/
theorem ofText_join_of_end {text : List Char} {before more : List Lexeme} {first : Lexeme}
    (h : ofText text = before ++ first :: more) :
    (ofText (join (first :: more))).map (moved (· + first.start)) =
      { first with gap := [] } :: more := by
  obtain ⟨offset, rest, hrest⟩ := exists_of_scanFrom_eq_append h
  have hread := scanFrom_comments hrest
  have hjoin : join (first :: more) = (Scan.comments rest).2 := by
    rw [← spelled_scanFrom first.start (Scan.comments rest).2, hread]
    rfl
  rw [ofText, ← scanFrom_add, Nat.zero_add, hjoin, hread]

/-! ### Places -/

/-- Lexemes that are found `origin` bytes later have the same places from there on. -/
theorem map_placeFrom_moved (origin : Nat) (ls : List Lexeme) :
    (ls.map (moved (· + origin))).map (placeFrom origin) = ls.map (placeFrom 0) := by
  rw [List.map_map]
  refine List.map_congr_left fun l _ => ?_
  simp only [Function.comp, placeFrom, moved, Lexeme.stop]
  congr 2 <;> omega

/-- The places of neighbouring lexemes are the same in the text they join to exactly if their end is
not exposed. -/
theorem map_placeFrom_join_iff {text : List Char} {before after more : List Lexeme} {first : Lexeme}
    (h : contents text = before ++ (first :: more ++ after)) :
    (ofText (join (first :: more))).map (placeFrom 0) =
        (first :: more).map (placeFrom first.start) ++
          [(.eof, ⟨byteSize (join (first :: more)), byteSize (join (first :: more))⟩)] ↔
      ¬ EndsExposed ((first :: more).map token) := by
  constructor
  · intro hplaces hend
    obtain ⟨r, hscan⟩ := exists_scans_join h
    have htokens := congrArg (List.map Prod.fst) hplaces
    simp only [List.map_append, List.map_map] at htokens
    exact hscan.map_token_ne hend 0 htokens
  · intro hend
    obtain ⟨gap, hlast⟩ := ofText_eq_contents (join (first :: more))
    have hread := ofText_join h hend
    -- The end of the text stands behind all bytes; the lexemes in front of it are read again.
    rw [hlast, List.map_append] at hread
    have hcontents := (List.append_inj_left' hread rfl)
    rw [hlast, List.map_append, ← map_placeFrom_moved first.start, hcontents]
    rfl

/-- The span of neighbouring lexemes of a text slices out the text they join to. -/
theorem slice?_of_ofText {text : List Char} {before after more : List Lexeme} {first : Lexeme}
    (h : ofText text = before ++ (first :: more ++ after)) :
    (spanOf first more).slice? text = some (join (first :: more)) := by
  have hspelled := spelled_scanFrom 0 text
  have hconsecutive := consecutive_scanFrom 0 text
  rw [← ofText, h] at hspelled hconsecutive
  exact slice?_spanOf hspelled hconsecutive

/-- Lexemes up to the end of the text span the bytes up to there. -/
theorem spanOf_of_end {text : List Char} {before more : List Lexeme} {first : Lexeme}
    (h : ofText text = before ++ first :: more) :
    spanOf first more = ⟨first.start, byteSize text⟩ := by
  obtain ⟨gap, hlast⟩ := ofText_eq_contents text
  have hgetLast : more.getLast?.getD first = ⟨.eof, gap, [], byteSize text⟩ := by
    have heq := congrArg List.getLast? (h.symm.trans hlast)
    simpa [List.getLast?_append, List.getLast?_cons] using heq
  rw [spanOf, hgetLast]
  rfl

/-- The part of a text from one lexeme to another is read into the tokens between them, at places
that are counted from the start of the part, exactly if its end is not exposed. The part from a
lexeme to the end of the text always is. -/
theorem ofText_slice (text : List Char) :
    (∀ before first more after, contents text = before ++ (first :: more ++ after) →
      ∃ part, (spanOf first more).slice? text = some part ∧
        ((ofText part).map (placeFrom 0) =
            (first :: more).map (placeFrom first.start) ++
              [(.eof, ⟨byteSize part, byteSize part⟩)] ↔
          ¬ EndsExposed ((first :: more).map token))) ∧
    (∀ before first more, ofText text = before ++ first :: more →
      ∃ part, Span.slice? ⟨first.start, byteSize text⟩ text = some part ∧
        (ofText part).map (placeFrom 0) = (first :: more).map (placeFrom first.start) ∧
        ((ofText part).map (placeFrom 0)).getLast? =
          some (.eof, ⟨byteSize part, byteSize part⟩)) := by
  refine ⟨fun before first more after h => ?_, fun before first more h => ?_⟩
  · obtain ⟨last, htext⟩ := exists_ofText_eq_append h
    rw [List.append_assoc] at htext
    exact ⟨join (first :: more), slice?_of_ofText htext, map_placeFrom_join_iff h⟩
  · refine ⟨join (first :: more), ?_, ?_, ?_⟩
    · rw [← spanOf_of_end h]
      have hsplit : ofText text = before ++ (first :: more ++ []) := by rw [List.append_nil, h]
      exact slice?_of_ofText hsplit
    · rw [← map_placeFrom_moved first.start, ofText_join_of_end h]
      rfl
    · obtain ⟨gap, hlast⟩ := ofText_eq_contents (join (first :: more))
      rw [hlast, List.map_append, List.map_cons, List.getLast?_append]
      simp [placeFrom, Lexeme.stop]

/-- Behind `url(` and a blank the end is exposed; from there on it is not. -/
theorem ofText_slice_url :
    let text := "url( 'a'/**/b".toList
    let url : Lexeme := ⟨.function "url", [], "url(".toList, 0⟩
    let blank : Lexeme := ⟨.whitespace, [], [' '], 4⟩
    let quoted : Lexeme := ⟨.string "a", [], "'a'".toList, 5⟩
    let word : Lexeme := ⟨.ident "b", "/**/".toList, ['b'], 12⟩
    contents text = [] ++ (url :: [blank] ++ [quoted, word]) ∧
      contents text = [url] ++ (blank :: [quoted, word] ++ []) ∧
      ofText text = [url, blank] ++ quoted :: [word, ⟨.eof, [], [], 13⟩] ∧
      (∃ part, Span.slice? ⟨0, 5⟩ text = some part ∧
        (ofText part).map (placeFrom 0) ≠
          [(.function "url", ⟨0, 4⟩), (.whitespace, ⟨4, 5⟩),
            (.eof, ⟨byteSize part, byteSize part⟩)]) ∧
      (∃ part, Span.slice? ⟨4, 13⟩ text = some part ∧
        (ofText part).map (placeFrom 0) =
          [(.whitespace, ⟨0, 1⟩), (.string "a", ⟨1, 4⟩), (.ident "b", ⟨8, 9⟩),
            (.eof, ⟨byteSize part, byteSize part⟩)]) ∧
      ∃ part, Span.slice? ⟨5, 13⟩ text = some part ∧
        (ofText part).map (placeFrom 0) =
          [(.string "a", ⟨0, 3⟩), (.ident "b", ⟨7, 8⟩), (.eof, ⟨8, 8⟩)] := by
  intro text url blank quoted word
  have hurl : contents text = [] ++ (url :: [blank] ++ [quoted, word]) := by decide +kernel
  have hblank : contents text = [url] ++ (blank :: [quoted, word] ++ []) := by decide +kernel
  have hquoted : ofText text = [url, blank] ++ quoted :: [word, ⟨.eof, [], [], 13⟩] := by
    decide +kernel
  refine ⟨hurl, hblank, hquoted, ?_, ?_, ?_⟩
  · obtain ⟨part, hpart, hiff⟩ := (ofText_slice text).1 _ _ _ _ hurl
    refine ⟨part, hpart, fun h => hiff.mp h ?_⟩
    exact .inr ⟨.function "url", ⟨[], rfl⟩, by decide +kernel⟩
  · obtain ⟨part, hpart, hiff⟩ := (ofText_slice text).1 _ _ _ _ hblank
    refine ⟨part, hpart, hiff.mpr ?_⟩
    simp only [List.map_cons, List.map_nil, endsExposed_cons_iff, not_endsExposed_nil]
    simp [blank, quoted, word, Token.isUrlFunction]
  · obtain ⟨part, hpart, hplaces, -⟩ := (ofText_slice text).2 _ _ _ hquoted
    exact ⟨part, hpart, hplaces⟩

end Lexeme

end ThemeColor
