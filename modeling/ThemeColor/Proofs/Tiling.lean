import ThemeColor.Proofs.Slices

/-!
# Tokens tile a text

The tokens of a text stand in it one after the other, and what lies between them are comments. No
character is lost: comments and tokens, written in turns, are the text.

## Main results

* `Scan.comments_spec`: what is skipped in front of a token is a run of closed comments, and only at
  the end of a text a comment may stay open;
* `Lexeme.exists_tiling_ofText`: the lexemes of every text tile it.
-/

namespace ThemeColor

open Text

namespace Scan

/-! ## Comments -/

/-- A comment up to the first end mark. -/
def IsComment (text : List Char) : Prop :=
  ∃ body, text = '/' :: '*' :: (body ++ ['*', '/']) ∧ ¬ ['*', '/'] <:+: body

/-- A comment without an end mark. -/
def IsOpenComment (text : List Char) : Prop :=
  ∃ body, text = '/' :: '*' :: body ∧ ¬ ['*', '/'] <:+: body

/-- Any number of comments, one directly after the other. -/
def AreComments (text : List Char) : Prop :=
  ∃ cs : List (List Char), text = cs.flatten ∧ ∀ c ∈ cs, IsComment c

theorem areComments_nil : AreComments [] := ⟨[], rfl, by simp⟩

theorem AreComments.cons {c text : List Char} (hc : IsComment c) (h : AreComments text) :
    AreComments (c ++ text) := by
  obtain ⟨cs, rfl, hcs⟩ := h
  exact ⟨c :: cs, rfl, List.forall_mem_cons.mpr ⟨hc, hcs⟩⟩

/-- The inside of a comment goes up to the first end mark, or there is none in the whole text. -/
theorem commentBody_spec (input : List Char) :
    (∃ body, (commentBody input).1 = body ++ ['*', '/'] ∧ ¬ ['*', '/'] <:+: body) ∨
      commentBody input = (input, []) ∧ ¬ ['*', '/'] <:+: input := by
  fun_induction commentBody input with
  | case1 => exact .inr ⟨rfl, by simp⟩
  | case2 rest => exact .inl ⟨[], rfl, by simp⟩
  | case3 c rest hend body after hbody ih =>
    have happend := commentBody_append rest
    rw [hbody] at ih happend
    -- No end mark starts at `c`.
    have hfirst {front : List Char} (hfront : front <+: rest) : ¬ ['*', '/'] <+: c :: front := by
      intro h
      obtain ⟨hc, tail, rfl⟩ := List.cons_prefix_cons.mp h
      obtain ⟨rest', rfl⟩ := hfront
      exact hend _ hc.symm rfl
    rcases ih with ⟨inside, hinside, hnone⟩ | ⟨hwhole, hnone⟩
    · refine .inl ⟨c :: inside, congrArg (c :: ·) hinside, ?_⟩
      obtain rfl : body = inside ++ ['*', '/'] := hinside
      rw [List.infix_cons_iff]
      exact not_or.mpr ⟨hfirst ⟨_, by simpa using happend⟩, hnone⟩
    · obtain ⟨rfl, rfl⟩ := Prod.mk.inj hwhole
      refine .inr ⟨rfl, ?_⟩
      rw [List.infix_cons_iff]
      exact not_or.mpr ⟨hfirst ⟨[], by simp⟩, hnone⟩

/-- What is skipped at the front of a text are comments. One that stays open is the last of them,
and nothing follows it. -/
theorem comments_spec (input : List Char) :
    AreComments (comments input).1 ∨
      (comments input).2 = [] ∧ ∃ front last, (comments input).1 = front ++ last ∧
        AreComments front ∧ IsOpenComment last := by
  fun_induction comments input with
  | case1 rest inside more ih =>
    rcases commentBody_spec rest with ⟨body, hbody, hnone⟩ | ⟨hwhole, hnone⟩
    · have hfirst : IsComment ('/' :: '*' :: inside.1) := ⟨body, by rw [← hbody], hnone⟩
      rcases ih with hmore | ⟨hend, front, last, hmore, hfront, hlast⟩
      · exact .inl (.cons hfirst hmore)
      · refine .inr ⟨hend, '/' :: '*' :: inside.1 ++ front, last, ?_, .cons hfirst hfront, hlast⟩
        simp only [more, inside] at hmore ⊢
        simp [hmore]
    · -- The first comment stays open and takes the whole text.
      have hinside : inside = (rest, []) := hwhole
      have hmore : more = ([], []) := by
        simp only [more, hinside]
        rw [comments]
        simp
      refine .inr ⟨by rw [hmore], [], '/' :: '*' :: rest, ?_, areComments_nil, ⟨rest, rfl, hnone⟩⟩
      simp [hinside, hmore]
  | case2 => exact .inl areComments_nil

/-- Comments in front of a token are closed. -/
theorem areComments_of_comments {input gap rest : List Char} {c : Char}
    (h : comments input = (gap, c :: rest)) : AreComments gap := by
  have hspec := comments_spec input
  rw [h] at hspec
  exact hspec.resolve_right fun hend => List.cons_ne_nil c rest hend.1

end Scan

namespace Lexeme

/-! ## Places one after the other -/

variable {offset : Nat} {ls : List Lexeme}

theorem Consecutive.le_start (h : Consecutive offset ls) : ∀ l ∈ ls, offset ≤ l.start := by
  induction h with
  | nil => simp
  | @cons offset l ls hstart hrest ih =>
    have hle : offset ≤ l.start := by omega
    refine List.forall_mem_cons.mpr ⟨hle, fun m hm => ?_⟩
    calc offset ≤ l.start := hle
      _ ≤ l.stop := l.start_le_stop
      _ ≤ m.start := ih m hm

theorem Consecutive.pairwise (h : Consecutive offset ls) :
    ls.Pairwise fun a b => a.stop ≤ b.start := by
  induction h with
  | nil => exact .nil
  | cons hstart hrest ih => exact .cons hrest.le_start ih

/-- The last lexeme stops behind the text of all of them. -/
theorem Consecutive.stop_getLast? (h : Consecutive offset ls) :
    (ls.getLast?.map stop).getD offset = offset + byteSize (spelled ls) := by
  induction h with
  | nil => rfl
  | @cons offset l ls hstart hrest ih =>
    have hlast :
        ((l :: ls).getLast?.map stop).getD offset = (ls.getLast?.map stop).getD l.stop := by
      rw [List.getLast?_cons]
      cases ls.getLast? <;> rfl
    rw [hlast, ih, Lexeme.stop, hstart, spelled_cons, byteSize_append, byteSize_append]
    omega

/-! ## Tiles -/

/-- What is read from a text is never the end of the text, and it is not empty; the comments in
front of it are closed. -/
theorem Scans.forall_mem {input left : List Char} (h : Scans input ls left) :
    ∀ l ∈ ls, l.token ≠ .eof ∧ l.text ≠ [] ∧ Scan.AreComments l.gap := by
  induction ls generalizing input with
  | nil => simp
  | cons l ls ih =>
    obtain ⟨c, rest, hcomments, htoken, htext, hrest⟩ := h
    refine List.forall_mem_cons.mpr ⟨⟨?_, ?_, ?_⟩, ih hrest⟩
    · rw [htoken]
      exact (Scan.value_token c rest).2
    · rw [htext]
      exact Scan.text_token_ne_nil c rest
    · exact Scan.areComments_of_comments hcomments

/-- The tokens and the end of the text stand in the text, and only comments lie between them. -/
structure Tiling (text : List Char) (tokens : List Lexeme) (last : Lexeme) : Prop where
  /-- The end of the text comes last. -/
  token_last : last.token = .eof
  /-- It is empty and has no bytes behind it. -/
  span_last : last.span = ⟨byteSize text, byteSize text⟩
  /-- No other token is the end of the text. -/
  token_ne_eof : ∀ l ∈ tokens, l.token ≠ .eof
  /-- All other tokens are not empty. -/
  start_lt_stop : ∀ l ∈ tokens, l.start < l.stop
  /-- Tokens are in ascending order and do not overlap. -/
  pairwise : (tokens ++ [last]).Pairwise fun a b => a.stop ≤ b.start
  /-- The places of tokens are parts of the text. -/
  slice : ∀ l ∈ tokens ++ [last], l.span.slice? text = some l.text
  /-- So is what lies between a token and the one before it, or the start of the text. -/
  slice_gap : ∀ before l after, tokens ++ [last] = before ++ l :: after →
    Span.slice? ⟨(before.getLast?.map stop).getD 0, l.start⟩ text = some l.gap
  /-- There are closed comments in front of a token. -/
  areComments : ∀ l ∈ tokens, Scan.AreComments l.gap
  /-- At the end of the text one more comment may stay open. -/
  areComments_last : Scan.AreComments last.gap ∨
    ∃ front comment, last.gap = front ++ comment ∧ Scan.AreComments front ∧
      Scan.IsOpenComment comment
  /-- Comments and tokens in turns are the text. -/
  spelled : (tokens ++ [last]).flatMap (fun l => l.gap ++ l.text) = text

/-- The comments in front of the end of a text. -/
theorem areComments_of_end {text : List Char} {before : List Lexeme} {last : Lexeme}
    (h : ofText text = before ++ [last]) :
    Scan.AreComments last.gap ∨
      ∃ front comment, last.gap = front ++ comment ∧ Scan.AreComments front ∧
        Scan.IsOpenComment comment := by
  obtain ⟨offset, rest, hrest⟩ := exists_of_scanFrom_eq_append h
  rcases hcomments : Scan.comments rest with ⟨gap, more⟩
  cases more with
  | nil =>
    rw [scanFrom_of_nil (by rw [hcomments]), hcomments] at hrest
    obtain ⟨rfl, -⟩ := List.cons.inj hrest
    have hspec := Scan.comments_spec rest
    rw [hcomments] at hspec
    exact hspec.imp_right And.right
  | cons c more =>
    -- There would be another lexeme behind the last one.
    rw [scanFrom_cons hcomments] at hrest
    exact absurd (List.cons.inj hrest).2 (scanFrom_ne_nil _ _)

/-- The lexemes of every text tile it. -/
theorem exists_tiling_ofText (text : List Char) :
    ∃ tokens last, ofText text = tokens ++ [last] ∧ Tiling text tokens last := by
  obtain ⟨gap, htext⟩ := ofText_eq_contents text
  obtain ⟨left, hscan⟩ := scans_scanFrom 0 text
  change Scans text (contents text) left at hscan
  have hread := hscan.forall_mem
  have hconsecutive := consecutive_scanFrom 0 text
  have hspelled := spelled_scanFrom 0 text
  rw [← ofText, htext] at hconsecutive hspelled
  refine ⟨contents text, _, htext, ?_⟩
  exact {
    token_last := rfl
    span_last := rfl
    token_ne_eof := fun l hl => (hread l hl).1
    start_lt_stop := fun l hl => Nat.lt_add_of_pos_right (byteSize_pos (hread l hl).2.1)
    pairwise := hconsecutive.pairwise
    slice := fun l hl => by
      obtain ⟨before, after, hsplit⟩ := List.append_of_mem hl
      have hslice : l.span.slice? text = some (join [l]) :=
        slice?_of_ofText (htext.trans hsplit : ofText text = before ++ ([l] ++ after))
      rw [hslice, join, List.flatMap_nil, List.append_nil]
    slice_gap := fun before l after hsplit => by
      rw [hsplit] at hconsecutive hspelled
      rw [hconsecutive.of_append_left.stop_getLast?, Nat.zero_add, Span.slice?_eq_some_iff]
      refine ⟨Lexeme.spelled before, l.text ++ Lexeme.spelled after, ?_, rfl, ?_⟩
      · rw [← hspelled, spelled_append, spelled_cons]
      · have hafter := hconsecutive.of_append
        cases hafter with
        | cons hstart hrest => rw [hstart, Nat.zero_add]
    areComments := fun l hl => (hread l hl).2.2
    areComments_last := areComments_of_end htext
    spelled := hspelled }

end Lexeme

end ThemeColor
