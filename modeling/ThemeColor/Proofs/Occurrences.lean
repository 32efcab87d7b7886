import ThemeColor.Document.Basic
import ThemeColor.Proofs.Blocks
import ThemeColor.Proofs.Layout

/-!
# Where the color expressions are

The places of the color expressions of a document follow each other in the text, and each of them
slices out the text of its expression. The matches of a document list every such text once.

- `placed_of_occurrences`: what is found in the lexemes of a text stands in the text;
- `Document.located_of_parse`: each place of a document has a text among its matches, each match has
  a place, and there are no more matches than characters.
-/

namespace ThemeColor

open Text

namespace Lexeme

/-- There is at most one lexeme of `scanFrom` for each character, and one for the end. -/
theorem length_scanFrom_le (offset : Nat) (input : List Char) :
    (scanFrom offset input).length ≤ input.length + 1 := by
  fun_induction scanFrom offset input with
  | case1 => simp
  | case2 offset input gap start c rest h s ih =>
    have hcomments := Scan.length_comments_le input
    have htoken : s.rest.length ≤ rest.length := Scan.length_rest_token_le c rest
    rw [h, List.length_cons] at hcomments
    rw [List.length_cons]
    omega

/-- There are no more lexemes in `contents` than characters. -/
theorem length_contents_le (text : List Char) : (contents text).length ≤ text.length := by
  have := length_scanFrom_le 0 text
  rw [contents, List.length_dropLast, ofText]
  omega

theorem spelled_cons_eq_join (l : Lexeme) (ls : List Lexeme) :
    spelled (l :: ls) = l.gap ++ join (l :: ls) := by
  simp [join, spelled]

end Lexeme

namespace Document

/-- The expressions follow each other in the text from byte `low` on, each with its text under its
span. -/
def Placed (text : List Char) : (low : Nat) → List Occurrence → Prop
  | _, [] => True
  | low, o :: os =>
    low ≤ o.span.start ∧ o.span.slice? text = some o.key ∧ Placed text o.span.stop os

theorem Placed.mono {text : List Char} {low low' : Nat} {os : List Occurrence} (hle : low ≤ low')
    (h : Placed text low' os) : Placed text low os := by
  cases os with
  | nil => trivial
  | cons o os => exact ⟨Nat.le_trans hle h.1, h.2⟩

/-- Neighbouring lexemes at the front of the input make an expression that is `Placed`, if the
expressions behind them are. -/
theorem placed_cons {text : List Char} {before after : List Lexeme} {first : Lexeme}
    {color : Color Float} {os : List Occurrence} (more : List Lexeme)
    (hspelled : Lexeme.spelled (before ++ (first :: more ++ after)) = text)
    (hconsecutive : Lexeme.Consecutive 0 (before ++ (first :: more ++ after)))
    (hos : Placed text (byteSize (Lexeme.spelled (before ++ first :: more))) os) :
    Placed text (byteSize (Lexeme.spelled before))
      (⟨Lexeme.spanOf first more, Lexeme.join (first :: more), color⟩ :: os) := by
  have hslice := Lexeme.slice?_spanOf hspelled hconsecutive
  have hfrom := hconsecutive.of_append
  rw [Nat.zero_add] at hfrom
  cases hfrom with
  | cons hstart hrest =>
    refine ⟨?_, hslice, hos.mono ?_⟩
    · change _ ≤ first.start
      omega
    · change (Lexeme.spanOf first more).stop ≤ _
      rw [hrest.of_append_left.stop_spanOf, Lexeme.spelled_append, Lexeme.spelled_cons_eq_join,
        byteSize_append, byteSize_append]
      omega

/-- The expressions that `occurrences` finds are `Placed` in the text. -/
theorem placed_of_occurrences {text : List Char} {input before after : List Lexeme}
    {os : List Occurrence} (h : occurrences input = .ok os)
    (hspelled : Lexeme.spelled (before ++ (input ++ after)) = text)
    (hconsecutive : Lexeme.Consecutive 0 (before ++ (input ++ after))) :
    Placed text (byteSize (Lexeme.spelled before)) os := by
  -- Lexemes that are read move from the input to those before it.
  have hmove (before used rest : List Lexeme) :
      before ++ (used ++ rest ++ after) = (before ++ used) ++ (rest ++ after) := by simp
  have hskip (before : List Lexeme) (l : Lexeme) : byteSize (Lexeme.spelled before) ≤
      byteSize (Lexeme.spelled (before ++ [l])) := by
    rw [Lexeme.spelled_append, byteSize_append]
    omega
  fun_induction occurrences input generalizing before os with
  | case1 =>
    cases h
    trivial
  | case2 l rest name hname ih =>
    obtain ⟨more, hmore, rfl⟩ := exists_of_map_eq_ok h
    have hjoin : Lexeme.join [l] = l.text := by simp [Lexeme.join]
    rw [← hjoin]
    refine placed_cons [] hspelled hconsecutive ?_
    -- Go on behind this lexeme.
    rw [← List.singleton_append, hmove] at hspelled hconsecutive
    exact ih hmore hspelled hconsecutive
  | case3 l rest name hname hcomposite e hblock => cases h
  | case4 l rest name hname hcomposite block after' hblock hlength lexemes =>
    rename_i span ih
    obtain ⟨color, -, h⟩ := exists_of_bind_eq_ok h
    obtain ⟨more, hmore, rfl⟩ := exists_of_map_eq_ok h
    obtain ⟨used, rfl, hlexemes⟩ := Component.lexemes_of_readBlock hblock
    have hspan : Lexeme.spanOf l (l :: used) = Lexeme.spanOf l used := by
      simp [Lexeme.spanOf, List.getLast?_cons]
    -- The block takes the lexemes up to its closing parenthesis; go on behind them.
    have hmoved : l :: (used ++ after') ++ after = l :: used ++ (after' ++ after) := by simp
    rw [hmoved] at hspelled hconsecutive
    simp only [span, lexemes, hlexemes, hspan]
    refine placed_cons used hspelled hconsecutive ?_
    rw [← List.append_assoc] at hspelled hconsecutive
    exact ih hmore hspelled hconsecutive
  | case5 l rest name hname hcomposite ih =>
    rw [← List.singleton_append, hmove] at hspelled hconsecutive
    exact (ih h hspelled hconsecutive).mono (hskip before l)
  | case6 l rest h₁ h₂ ih =>
    rw [← List.singleton_append, hmove] at hspelled hconsecutive
    exact (ih h hspelled hconsecutive).mono (hskip before l)

/-- There are no more `occurrences` than lexemes. -/
theorem length_of_occurrences {input : List Lexeme} {os : List Occurrence}
    (h : occurrences input = .ok os) : os.length ≤ input.length := by
  fun_induction occurrences input generalizing os with
  | case1 =>
    cases h
    exact Nat.le_refl _
  | case2 l rest name hname ih =>
    obtain ⟨more, hmore, rfl⟩ := exists_of_map_eq_ok h
    exact Nat.succ_le_succ (ih hmore)
  | case3 l rest name hname hcomposite e hblock => cases h
  | case4 l rest name hname hcomposite block after hblock hlength lexemes =>
    rename_i span ih
    obtain ⟨color, -, h⟩ := exists_of_bind_eq_ok h
    obtain ⟨more, hmore, rfl⟩ := exists_of_map_eq_ok h
    have := ih hmore
    simp only [List.length_cons]
    omega
  | case5 l rest name hname hcomposite ih => exact Nat.le_succ_of_le (ih h)
  | case6 l rest h₁ h₂ ih => exact Nat.le_succ_of_le (ih h)

end Document

/-! ## The matches -/

namespace Matches

variable {key : String} {color : Color Float} {found : Matches}

/-- The texts of the matches. -/
def keys (found : Matches) : List String := found.map (·.1)

/-- The texts of matches after `insert` are the old ones and the new one. -/
theorem mem_keys_insert {k : String} :
    k ∈ (found.insert key color).keys ↔ k = key ∨ k ∈ found.keys := by
  induction found with
  | nil => simp [Matches.insert, keys]
  | cons entry found ih =>
    rw [Matches.insert]
    split
    · simp [keys]
    · split
      · rename_i heq
        simp [keys, heq]
      · simp only [keys, List.map_cons, List.mem_cons] at ih ⊢
        rw [ih]
        exact or_left_comm

/-- One more text, put in by `insert`, keeps the texts in ascending order. -/
theorem pairwise_keys_insert (key : String) (color : Color Float)
    (h : found.keys.Pairwise (· < ·)) :
    (found.insert key color).keys.Pairwise (· < ·) := by
  induction found with
  | nil => simp [Matches.insert, keys]
  | cons entry found ih =>
    obtain ⟨k, c⟩ := entry
    obtain ⟨hfirst, hrest⟩ := List.pairwise_cons.mp h
    rw [Matches.insert]
    split
    · rename_i hlt
      refine List.pairwise_cons.mpr ⟨?_, h⟩
      intro k' hk'
      rcases List.mem_cons.mp hk' with rfl | hk'
      · exact hlt
      · exact String.lt_trans hlt (hfirst k' hk')
    · rename_i hnot
      split
      · rename_i heq
        subst heq
        exact h
      · rename_i hne
        refine List.pairwise_cons.mpr ⟨?_, ih hrest⟩
        intro k' hk'
        rcases mem_keys_insert.mp hk' with rfl | hk'
        -- The new text is neither less than the first one nor equal to it.
        · exact (Std.lt_trichotomy k k').resolve_right (by simp [hnot, Ne.symm hne])
        · exact hfirst k' hk'

theorem length_insert_le (key : String) (color : Color Float) (found : Matches) :
    (found.insert key color).length ≤ found.length + 1 := by
  induction found with
  | nil => simp [Matches.insert]
  | cons entry found ih =>
    rw [Matches.insert]
    split
    · simp
    · split
      · simp
      · simpa using ih

/-- In matches with ascending texts, `lookup` finds the color of a text. -/
theorem lookup_eq_some (h : found.keys.Pairwise (· < ·)) (hmem : (key, color) ∈ found) :
    found.lookup key = some color := by
  induction found with
  | nil => cases hmem
  | cons entry found ih =>
    obtain ⟨hfirst, hrest⟩ := List.pairwise_cons.mp h
    rcases List.mem_cons.mp hmem with rfl | hmem
    · simp
    · have hlt := hfirst key (List.mem_map.mpr ⟨_, hmem, rfl⟩)
      have hne : (key == entry.1) = false := by
        rw [beq_eq_false_iff_ne]
        rintro rfl
        exact String.lt_irrefl _ hlt
      rw [List.lookup_cons, hne]
      exact ih hrest hmem

end Matches

namespace Document

/-- What adding the expressions one after the other with `insert` makes of some matches. -/
theorem foldl_insert_spec (os : List Occurrence) (found : Matches)
    (h : found.keys.Pairwise (· < ·)) :
    let all := os.foldl (fun found o => found.insert (String.ofList o.key) o.color) found
    all.keys.Pairwise (· < ·) ∧ all.length ≤ found.length + os.length ∧
      ∀ k, k ∈ all.keys ↔ k ∈ found.keys ∨ ∃ o ∈ os, String.ofList o.key = k := by
  induction os generalizing found with
  | nil => simpa using h
  | cons o os ih =>
    obtain ⟨hascending, hlength, hkeys⟩ :=
      ih _ (Matches.pairwise_keys_insert (String.ofList o.key) o.color h)
    refine ⟨hascending, ?_, ?_⟩
    · have := Matches.length_insert_le (String.ofList o.key) o.color found
      rw [List.length_cons]
      exact Nat.le_trans hlength (by omega)
    · intro k
      rw [List.foldl_cons, hkeys, Matches.mem_keys_insert]
      constructor
      · rintro ((rfl | hk) | ⟨o', ho', rfl⟩)
        · exact .inr ⟨o, List.mem_cons_self, rfl⟩
        · exact .inl hk
        · exact .inr ⟨o', List.mem_cons_of_mem _ ho', rfl⟩
      · rintro (hk | ⟨o', ho', rfl⟩)
        · exact .inl (.inr hk)
        · rcases List.mem_cons.mp ho' with rfl | ho'
          · exact .inl (.inl rfl)
          · exact .inr ⟨o', ho', rfl⟩

/-- How the places of a document lie in its text, and how they go with its matches. -/
structure Located (text : List Char) (d : Document) : Prop where
  /-- The document keeps the text. -/
  text_eq : d.text = text
  /-- The places follow each other. -/
  ascending : d.spans.Pairwise fun a b => a.stop ≤ b.start
  /-- Each place slices out a text with a color. -/
  slice : ∀ span ∈ d.spans, ∃ key, span.slice? text = some key ∧ String.ofList key ∈ d.found.keys
  /-- Each text with a color has a place. -/
  place : ∀ key ∈ d.found.keys, ∃ span ∈ d.spans, span.slice? text = some key.toList
  /-- No text is listed twice. -/
  keys : d.found.keys.Pairwise (· < ·)
  /-- There are no more texts with a color than characters. -/
  length : d.found.length ≤ text.length

/-- Expressions that are `Placed` have their texts at their places. -/
theorem Placed.slice {text : List Char} {low : Nat} {os : List Occurrence}
    (h : Placed text low os) :
    ∀ o ∈ os, low ≤ o.span.start ∧ o.span.start ≤ o.span.stop ∧
      o.span.slice? text = some o.key := by
  induction os generalizing low with
  | nil => simp
  | cons o os ih =>
    obtain ⟨hlow, hslice, hmore⟩ := h
    obtain ⟨a, b, -, hstart, hstop⟩ := Span.slice?_eq_some_iff.mp hslice
    have hle : o.span.start ≤ o.span.stop := by omega
    intro o' ho'
    rcases List.mem_cons.mp ho' with rfl | ho'
    · exact ⟨hlow, hle, hslice⟩
    · obtain ⟨hafter, hrest⟩ := ih hmore o' ho'
      exact ⟨by omega, hrest⟩

/-- Expressions that are `Placed` lie apart. -/
theorem Placed.pairwise {text : List Char} {low : Nat} {os : List Occurrence}
    (h : Placed text low os) : os.Pairwise fun a b => a.span.stop ≤ b.span.start := by
  induction os generalizing low with
  | nil => exact .nil
  | cons o os ih => exact .cons (fun o' ho' => (h.2.2.slice o' ho').1) (ih h.2.2)

/-- A document that is read from a text is `Located` in it. -/
theorem located_of_parse {text : List Char} {d : Document} (h : parse text = .ok d) :
    Located text d := by
  obtain ⟨os, hos, rfl⟩ := exists_of_map_eq_ok h
  obtain ⟨last, hlast⟩ := Lexeme.ofText_eq text
  have hspelled : Lexeme.spelled ([] ++ (Lexeme.contents text ++ [last])) = text := by
    rw [List.nil_append, ← hlast]
    exact Lexeme.spelled_scanFrom 0 text
  have hconsecutive : Lexeme.Consecutive 0 ([] ++ (Lexeme.contents text ++ [last])) := by
    rw [List.nil_append, ← hlast]
    exact Lexeme.consecutive_scanFrom 0 text
  have hplaced := placed_of_occurrences hos hspelled hconsecutive
  obtain ⟨hkeys, hlength, hmem⟩ := foldl_insert_spec os [] .nil
  refine ⟨rfl, List.pairwise_map.mpr hplaced.pairwise, ?_, ?_, hkeys, ?_⟩
  · intro span hspan
    obtain ⟨o, ho, rfl⟩ := List.mem_map.mp hspan
    exact ⟨o.key, (hplaced.slice o ho).2.2, (hmem _).mpr (.inr ⟨o, ho, rfl⟩)⟩
  · intro key hkey
    rcases (hmem key).mp hkey with hnil | ⟨o, ho, rfl⟩
    · cases hnil
    · refine ⟨o.span, List.mem_map_of_mem ho, ?_⟩
      rw [(hplaced.slice o ho).2.2, String.toList_ofList]
  · have hcontents := Lexeme.length_contents_le text
    have hoccurrences := length_of_occurrences hos
    exact Nat.le_trans hlength (by simp only [List.length_nil]; omega)

end Document

end ThemeColor
