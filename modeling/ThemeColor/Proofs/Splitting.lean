import Mathlib.Data.List.Forall2
import Mathlib.Data.List.TakeWhile
import ThemeColor.Proofs.Blocks
import ThemeColor.Proofs.Grammar

/-!
# Splitting components

The arguments of a function are what commas leave of its inside, and the words of an argument are
what blanks leave of it. Both are read off the pieces between separators, in the order they have in
the text.

## Main results

* `Segment.map_parts_splitOn`: the pieces of a segment are those of its list of components;
* `Segment.map_parts_of_arguments`, `Segment.exists_arguments`: the arguments are the pieces between
  commas without blank ends, and there are arguments exactly if no piece is blank.
-/

namespace ThemeColor

namespace Text

variable {α : Type} {p : α → Bool}

/-- Trimming takes off elements that satisfy `p` at both ends. -/
theorem exists_eq_trimWhile (p : α → Bool) (l : List α) :
    ∃ before after, l = before ++ (trimWhile p l ++ after) ∧ (∀ a ∈ before, p a) ∧
      ∀ a ∈ after, p a := by
  refine ⟨l.takeWhile p, ((l.dropWhile p).reverse.takeWhile p).reverse, ?_, ?_, ?_⟩
  · rw [trimWhile, dropEndWhile, ← List.reverse_append, List.takeWhile_append_dropWhile,
      List.reverse_reverse, List.takeWhile_append_dropWhile]
  · exact fun a ha => List.mem_takeWhile_imp ha
  · exact fun a ha => List.mem_takeWhile_imp (List.mem_reverse.mp ha)

/-- What is trimmed away in front may as well be missing for `trimWhile`. -/
theorem trimWhile_append_left {before : List α} (h : ∀ a ∈ before, p a) (l : List α) :
    trimWhile p (before ++ l) = trimWhile p l := by
  rw [trimWhile, trimWhile, List.dropWhile_append_of_pos h]

theorem dropEndWhile_append {after : List α} (h : ∀ a ∈ after, p a) (l : List α) :
    dropEndWhile p (l ++ after) = dropEndWhile p l := by
  rw [dropEndWhile, dropEndWhile, List.reverse_append,
    List.dropWhile_append_of_pos fun a ha => h a (List.mem_reverse.mp ha)]

/-- Nothing is left by `trimWhile` exactly if all is trimmed away. -/
theorem trimWhile_eq_nil_iff {l : List α} : trimWhile p l = [] ↔ ∀ a ∈ l, p a := by
  constructor
  · intro h
    obtain ⟨before, after, hl, hbefore, hafter⟩ := exists_eq_trimWhile p l
    rw [h, List.nil_append] at hl
    intro a ha
    rw [hl, List.mem_append] at ha
    exact ha.elim (hbefore a) (hafter a)
  · intro h
    rw [trimWhile, List.dropWhile_eq_nil_iff.mpr h]
    rfl

/-- What is trimmed away behind may as well be missing for `trimWhile`. -/
theorem trimWhile_append_right {after : List α} (h : ∀ a ∈ after, p a) (l : List α) :
    trimWhile p (l ++ after) = trimWhile p l := by
  by_cases hl : ∀ a ∈ l, p a
  · -- Everything satisfies `p`, and nothing is left.
    rw [trimWhile_eq_nil_iff.mpr hl, trimWhile_eq_nil_iff]
    exact fun a ha => (List.mem_append.mp ha).elim (hl a) (h a)
  · have hne : ¬ (l.dropWhile p).isEmpty := by
      rwa [List.isEmpty_iff, List.dropWhile_eq_nil_iff]
    rw [trimWhile, List.dropWhile_append, if_neg hne, dropEndWhile_append h, trimWhile]

/-- Trimming twice with `trimWhile` is trimming once. -/
theorem trimWhile_idem (p : α → Bool) (l : List α) :
    trimWhile p (trimWhile p l) = trimWhile p l := by
  obtain ⟨before, after, hl, hbefore, hafter⟩ := exists_eq_trimWhile p l
  have htrim := congrArg (trimWhile p) hl
  rw [trimWhile_append_left hbefore, trimWhile_append_right hafter] at htrim
  exact htrim.symm

/-- Splitting with `splitOnP` finds no separator, or it goes on behind the first one. -/
theorem splitOnP_cases (p : α → Bool) (l : List α) :
    (∀ a ∈ l, p a = false) ∧ l.splitOnP p = [l] ∨
      ∃ front sep rest, l = front ++ sep :: rest ∧ (∀ a ∈ front, p a = false) ∧ p sep ∧
        l.splitOnP p = front :: rest.splitOnP p := by
  induction l with
  | nil => exact .inl ⟨by simp, List.splitOnP_nil⟩
  | cons a l ih =>
    by_cases ha : p a
    · refine .inr ⟨[], a, l, rfl, by simp, ha, ?_⟩
      rw [List.splitOnP_cons_eq_if_modifyHead, if_pos ha]
    · rw [List.splitOnP_cons_eq_if_modifyHead, if_neg ha]
      rw [Bool.not_eq_true] at ha
      rcases ih with ⟨hl, hsplit⟩ | ⟨front, sep, rest, rfl, hfront, hsep, hsplit⟩
      · exact .inl ⟨List.forall_mem_cons.mpr ⟨ha, hl⟩, by rw [hsplit]; rfl⟩
      · exact .inr ⟨a :: front, sep, rest, rfl, List.forall_mem_cons.mpr ⟨ha, hfront⟩, hsep,
          by rw [hsplit]; rfl⟩

/-- One piece of `splitOnP` is all if and only if there is no separator. -/
theorem splitOnP_eq_singleton_iff {l x : List α} :
    l.splitOnP p = [x] ↔ l = x ∧ ∀ a ∈ x, p a = false := by
  constructor
  · intro h
    rcases splitOnP_cases p l with ⟨hl, hsplit⟩ | ⟨front, sep, rest, rfl, -, -, hsplit⟩
    · obtain rfl := List.singleton_inj.mp (hsplit.symm.trans h)
      exact ⟨rfl, hl⟩
    · rw [hsplit] at h
      exact absurd (List.cons.inj h).2 (List.splitOnP_ne_nil p rest)
  · rintro ⟨rfl, hl⟩
    exact List.splitOnP_eq_singleton hl

/-- More pieces of `splitOnP` are the one in front of the first separator and those behind it. -/
theorem splitOnP_eq_cons_cons_iff {l x y : List α} {more : List (List α)} :
    l.splitOnP p = x :: y :: more ↔
      ∃ sep rest, l = x ++ sep :: rest ∧ p sep ∧ (∀ a ∈ x, p a = false) ∧
        rest.splitOnP p = y :: more := by
  constructor
  · intro h
    rcases splitOnP_cases p l with ⟨-, hsplit⟩ | ⟨front, sep, rest, rfl, hfront, hsep, hsplit⟩
    · rw [hsplit] at h
      cases h
    · obtain ⟨rfl, hrest⟩ := List.cons.inj (hsplit.symm.trans h)
      exact ⟨sep, rest, rfl, hsep, hfront, hrest⟩
  · rintro ⟨sep, rest, rfl, hsep, hx, hrest⟩
    rw [List.splitOnP_append_cons_of_forall_mem hx _ hsep, hrest]

/-- The pieces of `splitOnP`, without blank ends, do not depend on blanks around them all. -/
theorem map_trimWhile_splitOnP {p q : α → Bool} (hpq : ∀ a, q a → p a = false) (l : List α) :
    ((trimWhile q l).splitOnP p).map (trimWhile q) = (l.splitOnP p).map (trimWhile q) := by
  have hleft {before : List α} (h : ∀ a ∈ before, q a) (l : List α) :
      ((before ++ l).splitOnP p).map (trimWhile q) = (l.splitOnP p).map (trimWhile q) := by
    have hnone : ∀ a ∈ before, p a = false := fun a ha => hpq a (h a ha)
    rcases splitOnP_cases p l with ⟨hl, hsplit⟩ | ⟨front, sep, rest, rfl, hfront, hsep, hsplit⟩
    · rw [hsplit, List.splitOnP_eq_singleton]
      · simp [trimWhile_append_left h]
      · exact List.forall_mem_append.mpr ⟨hnone, hl⟩
    · rw [hsplit, ← List.append_assoc,
        List.splitOnP_append_cons_of_forall_mem (List.forall_mem_append.mpr ⟨hnone, hfront⟩) _ hsep]
      simp [trimWhile_append_left h]
  have hright {after : List α} (h : ∀ a ∈ after, q a) (l : List α) :
      ((l ++ after).splitOnP p).map (trimWhile q) = (l.splitOnP p).map (trimWhile q) := by
    -- The last piece is behind the last separator, so the induction is on the length.
    induction hlength : l.length using Nat.strongRecOn generalizing l with
    | ind n ih =>
      subst hlength
      have hnone : ∀ a ∈ after, p a = false := fun a ha => hpq a (h a ha)
      rcases splitOnP_cases p l with ⟨hl, hsplit⟩ | ⟨front, sep, rest, rfl, hfront, hsep, hsplit⟩
      · rw [hsplit, List.splitOnP_eq_singleton]
        · simp [trimWhile_append_right h]
        · exact List.forall_mem_append.mpr ⟨hl, hnone⟩
      · -- The blanks at the end are behind the first separator.
        rw [hsplit, List.append_assoc, List.cons_append,
          List.splitOnP_append_cons_of_forall_mem hfront _ hsep, List.map_cons, List.map_cons,
          ih rest.length (by simp; omega) rest rfl]
  obtain ⟨before, after, hl, hbefore, hafter⟩ := exists_eq_trimWhile q l
  conv => rhs; rw [hl]
  rw [hleft hbefore, hright hafter]

end Text

namespace Segment

open Component Text

/-- The pieces that `splitOn` makes of a segment are those of its list of components. -/
theorem map_parts_splitOn (p : Component → Bool) (stop : Nat) (cs : List Component) :
    (splitOn p stop cs).map parts = cs.splitOnP p := by
  induction cs with
  | nil => rfl
  | cons c cs ih =>
    rw [splitOn, List.splitOnP_cons_eq_if_modifyHead, ← ih]
    split
    · rfl
    · split
      · rename_i hnil
        rw [hnil] at ih
        exact absurd ih.symm (List.splitOnP_ne_nil p cs)
      · rename_i hcons
        rw [hcons]
        rfl

@[simp]
theorem parts_trim (s : Segment) : s.trim.parts = trimWhile isWhitespace s.parts := rfl

end Segment

/-! ## Arguments -/

/-- A list of steps succeeds when all of them do. -/
theorem mapM_eq_ok_iff {ε α β : Type} {f : α → Except ε β} {xs : List α} {ys : List β} :
    xs.mapM f = .ok ys ↔ List.Forall₂ (fun x y => f x = .ok y) xs ys := by
  induction xs generalizing ys with
  | nil =>
    rw [List.mapM_nil, List.forall₂_nil_left_iff]
    exact ⟨fun h => (Except.ok.inj h).symm, fun h => by rw [h]; rfl⟩
  | cons x xs ih =>
    rw [List.mapM_cons, bind_eq_ok_iff, List.forall₂_cons_left_iff]
    constructor
    · rintro ⟨y, hy, h⟩
      obtain ⟨more, hmore, h⟩ := exists_of_bind_eq_ok h
      exact ⟨y, more, hy, ih.mp hmore, (Except.ok.inj h).symm⟩
    · rintro ⟨y, more, hy, hmore, rfl⟩
      exact ⟨y, hy, bind_eq_ok_iff.mpr ⟨more, ih.mpr hmore, rfl⟩⟩

/-- A list of steps fails with the error of one of them. -/
theorem exists_of_mapM_eq_error {ε α β : Type} {f : α → Except ε β} {xs : List α} {e : ε}
    (h : xs.mapM f = .error e) : ∃ x ∈ xs, f x = .error e := by
  induction xs with
  | nil => cases h
  | cons x xs ih =>
    rw [List.mapM_cons] at h
    cases hx : f x with
    | error e' =>
      rw [hx] at h
      cases h
      exact ⟨x, List.mem_cons_self, hx⟩
    | ok y =>
      rw [hx] at h
      cases hxs : xs.mapM f with
      | error e' =>
        rw [hxs] at h
        cases h
        obtain ⟨x', hx', heq⟩ := ih hxs
        exact ⟨x', List.mem_cons_of_mem x hx', heq⟩
      | ok ys =>
        rw [hxs] at h
        cases h

namespace Component

theorem isToken_iff {t : Token} {c : Component} : isToken t c ↔ c.token? = some t := beq_iff_eq

theorem isWhitespace_iff {c : Component} : c.isWhitespace ↔ c.token? = some .whitespace := by
  rw [isWhitespace]
  cases c.token? with
  | none => simp
  | some t => cases t <;> simp [Token.isWhitespace]

/-- A blank component is the token of blanks for `isToken`, and no other. -/
theorem isToken_of_isWhitespace {t : Token} {c : Component} (hc : c.isWhitespace)
    (ht : t.isWhitespace = false) : isToken t c = false := by
  rw [Bool.eq_false_iff, Ne, isToken_iff, isWhitespace_iff.mp hc, Option.some.injEq]
  rintro rfl
  cases ht

end Component

namespace Segment

open Component Text Grammar

/-- Pieces are not `Blank` if trimming leaves something of each of them. -/
theorem forall_not_blank_iff {pieces : List (List Component)} :
    (∀ x ∈ pieces, ¬ Blank x) ↔ [] ∉ pieces.map (trimWhile isWhitespace) := by
  simp only [List.mem_map, not_exists, not_and]
  exact forall₂_congr fun x _ => not_congr trimWhile_eq_nil_iff.symm

/-- The pieces of a segment between commas, without blank ends. -/
def pieces (s : Segment) : List Segment :=
  (splitOn (isToken .comma) s.trim.stop s.trim.parts).map trim

/-- The `pieces` of a segment lie between its commas, and have no blank ends. -/
theorem map_parts_pieces (s : Segment) :
    s.pieces.map parts =
      (s.parts.splitOnP (isToken .comma)).map (trimWhile isWhitespace) := by
  have hparts : parts ∘ trim = trimWhile isWhitespace ∘ parts := rfl
  rw [← map_trimWhile_splitOnP fun c hc => isToken_of_isWhitespace hc rfl, pieces, List.map_map,
    hparts, ← List.map_map, map_parts_splitOn, parts_trim]

/-- A blank inside has no `arguments`. -/
theorem arguments_of_blank {s : Segment} (h : Blank s.parts) : s.arguments = .ok [] := by
  rw [arguments, if_pos]
  rwa [List.isEmpty_iff, parts_trim, trimWhile_eq_nil_iff]

/-- If the inside of a function is not blank, its `arguments` are the pieces between commas, and
none of these is blank. -/
theorem arguments_eq_ok_iff {s : Segment} {args : List Segment} (h : ¬ Blank s.parts) :
    s.arguments = .ok args ↔
      (∀ x ∈ s.parts.splitOnP (isToken .comma), ¬ Blank x) ∧ args = s.pieces := by
  rw [forall_not_blank_iff, ← map_parts_pieces, arguments, if_neg, mapM_eq_ok_iff, pieces]
  · -- Each piece is checked on its own, in the order of the text.
    generalize splitOn (isToken .comma) s.trim.stop s.trim.parts = raw
    induction raw generalizing args with
    | nil => simp
    | cons piece raw ih =>
      rw [List.forall₂_cons_left_iff, List.map_cons, List.map_cons, List.mem_cons, not_or]
      constructor
      · rintro ⟨arg, more, harg, hmore, rfl⟩
        obtain ⟨hne, rfl⟩ := ih.mp hmore
        split at harg
        · cases harg
        · rename_i hpiece
          rw [List.isEmpty_iff] at hpiece
          exact ⟨⟨Ne.symm hpiece, hne⟩, by rw [Except.ok.inj harg]⟩
      · rintro ⟨⟨hpiece, hne⟩, rfl⟩
        refine ⟨piece.trim, raw.map trim, ?_, ih.mpr ⟨hne, rfl⟩, rfl⟩
        rw [if_neg]
        rw [List.isEmpty_iff]
        exact Ne.symm hpiece
  · rwa [List.isEmpty_iff, parts_trim, trimWhile_eq_nil_iff]

/-- Splitting a `Blank` inside gives a blank piece. -/
theorem not_blank_of_splitOnP {cs : List Component}
    (h : ∀ x ∈ cs.splitOnP (isToken .comma), ¬ Blank x) : ¬ Blank cs := by
  intro hblank
  refine h cs ?_ hblank
  rw [List.splitOnP_eq_singleton fun c hc => isToken_of_isWhitespace (hblank c hc) rfl]
  exact List.mem_singleton_self cs

/-- There are `arguments` if no piece between commas is blank. -/
theorem exists_arguments {s : Segment}
    (h : ∀ x ∈ s.parts.splitOnP (isToken .comma), ¬ Blank x) :
    ∃ args, s.arguments = .ok args ∧
      args.map parts = (s.parts.splitOnP (isToken .comma)).map (trimWhile isWhitespace) :=
  ⟨s.pieces, (arguments_eq_ok_iff (not_blank_of_splitOnP h)).mpr ⟨h, rfl⟩, map_parts_pieces s⟩

/-- The `arguments` are the pieces between commas, without blank ends; none of them is blank, and a
blank inside has none. -/
theorem map_parts_of_arguments {s : Segment} {args : List Segment} (h : s.arguments = .ok args) :
    Blank s.parts ∧ args = [] ∨
      (∀ x ∈ s.parts.splitOnP (isToken .comma), ¬ Blank x) ∧
        args.map parts = (s.parts.splitOnP (isToken .comma)).map (trimWhile isWhitespace) := by
  by_cases hblank : Blank s.parts
  · rw [arguments_of_blank hblank] at h
    exact .inl ⟨hblank, (Except.ok.inj h).symm⟩
  · obtain ⟨hpieces, rfl⟩ := (arguments_eq_ok_iff hblank).mp h
    exact .inr ⟨hpieces, map_parts_pieces s⟩

/-- The errors of `arguments` are about the form of a text. -/
theorem isMalformed_of_arguments {s : Segment} {e : ColorError} (h : s.arguments = .error e) :
    e.isMalformed := by
  rw [arguments] at h
  split at h
  · cases h
  · obtain ⟨piece, -, hpiece⟩ := exists_of_mapM_eq_error h
    split at hpiece
    · cases hpiece
      rfl
    · cases hpiece

/-- What may be written as an argument: it is not blank, its blank ends do not matter, and it has no
comma outside of blocks. -/
structure Phrase (P : List Component → Prop) : Prop where
  /-- Blank ends do not matter. -/
  trim : ∀ cs, P (trimWhile isWhitespace cs) ↔ P cs
  /-- Commas are inside of blocks. -/
  comma : ∀ cs, P cs → ∀ c ∈ cs, isToken .comma c = false
  /-- There is something that is not blank. -/
  solid : ∀ cs, P cs → ¬ Blank cs

/-- Arguments of which each is a `Phrase` are the pieces between commas. -/
theorem arguments_iff {α : Type} {R : List Component → α → Prop} (hR : ∀ a, Phrase (R · a))
    {inside : Segment} {as : List α} (hne : as ≠ []) :
    (∃ args, inside.arguments = .ok args ∧
        List.Forall₂ (fun (arg : Segment) a => R arg.parts a) args as) ↔
      List.Forall₂ R (inside.parts.splitOnP (isToken .comma)) as := by
  have hparts {args : List Segment} {pieces : List (List Component)}
      (h : args.map parts = pieces.map (trimWhile isWhitespace)) :
      List.Forall₂ (fun (arg : Segment) a => R arg.parts a) args as ↔ List.Forall₂ R pieces as := by
    rw [← List.forall₂_map_left_iff, h, List.forall₂_map_left_iff]
    simp only [(hR _).trim]
  constructor
  · rintro ⟨args, hargs, hall⟩
    rcases map_parts_of_arguments hargs with ⟨-, rfl⟩ | ⟨-, h⟩
    · cases hall
      exact absurd rfl hne
    · exact (hparts h).mp hall
  · intro hall
    have hpieces : ∀ x ∈ inside.parts.splitOnP (isToken .comma), ¬ Blank x := by
      have hboth := hall.imp fun x a hx => And.intro ((hR a).solid x hx) hx
      exact ((List.forall₂_and_left _ _).mp hboth).1
    obtain ⟨args, hargs, h⟩ := exists_arguments hpieces
    exact ⟨args, hargs, (hparts h).mpr hall⟩

/-! ## Words -/

/-- The `words` of a segment lie between blanks. -/
theorem map_parts_words (s : Segment) :
    s.words.map parts = (s.parts.splitOnP isWhitespace).filter (!·.isEmpty) := by
  rw [words, ← map_parts_splitOn isWhitespace s.stop, List.filter_map]
  rfl

end Segment

namespace Grammar

open Component Text

theorem Blank.cons {c : Component} {cs : List Component} (hc : c.isWhitespace) (hcs : Blank cs) :
    Blank (c :: cs) := List.forall_mem_cons.mpr ⟨hc, hcs⟩

/-- A blank in front does not change the `Words`. -/
theorem Words.blankBefore {c : Component} {cs : List Component} {words : List (List Component)}
    (hc : c.isWhitespace) (h : Words cs words) : Words (c :: cs) words := by
  cases h with
  | nil hb => exact .nil (.cons hc hb)
  | last hb hne hx => exact .last (.cons hc hb) hne hx
  | cons hb hne hx hsep hrest => exact .cons (.cons hc hb) hne hx hsep hrest

/-- Blanks in front do not change the pieces between blanks that are not empty. -/
theorem filter_splitOnP_append {b : List Component} (hb : Blank b) (cs : List Component) :
    ((b ++ cs).splitOnP isWhitespace).filter (!·.isEmpty) =
      (cs.splitOnP isWhitespace).filter (!·.isEmpty) := by
  induction b with
  | nil => rfl
  | cons c b ih =>
    obtain ⟨hc, hb⟩ := List.forall_mem_cons.mp hb
    rw [List.cons_append, List.splitOnP_cons_eq_if_modifyHead, if_pos hc, List.filter_cons_of_neg]
    · exact ih hb
    · simp

/-- The `Words` are the pieces between blanks that are not empty. -/
theorem words_iff {cs : List Component} {words : List (List Component)} :
    Words cs words ↔ (cs.splitOnP isWhitespace).filter (!·.isEmpty) = words := by
  constructor
  · intro h
    induction h with
    | @nil b hb =>
      rw [← List.append_nil b, filter_splitOnP_append hb]
      rfl
    | last hb hne hx =>
      rw [filter_splitOnP_append hb, List.splitOnP_eq_singleton (by simpa using hx)]
      simp [hne]
    | cons hb hne hx hc hrest ih =>
      rw [filter_splitOnP_append hb,
        List.splitOnP_append_cons_of_forall_mem (by simpa using hx) _ hc, List.filter_cons_of_pos,
        ih]
      simp [hne]
  · rintro rfl
    -- Up to the first blank there is a word or nothing; go on behind it.
    induction hlength : cs.length using Nat.strongRecOn generalizing cs with
    | ind n ih =>
      subst hlength
      rcases splitOnP_cases isWhitespace cs with
        ⟨hcs, hsplit⟩ | ⟨front, sep, rest, rfl, hfront, hsep, hsplit⟩
      · rw [hsplit]
        by_cases hne : cs = []
        · subst hne
          exact .nil blank_nil
        · rw [List.filter_cons_of_pos (by simp [hne])]
          exact .last (b := []) blank_nil hne (by simpa using hcs)
      · have hrest := ih rest.length (by simp; omega) rfl
        rw [hsplit]
        by_cases hne : front = []
        · -- The separator is one more blank in front of the rest.
          subst hne
          exact .blankBefore hsep hrest
        · rw [List.filter_cons_of_pos (by simp [hne])]
          exact .cons (b := []) blank_nil hne (by simpa using hfront) hsep hrest

/-- Blank ends do not change the `Words`. -/
theorem words_trimWhile_iff {cs : List Component} {words : List (List Component)} :
    Words (trimWhile isWhitespace cs) words ↔ Words cs words := by
  obtain ⟨before, after, hcs, hbefore, hafter⟩ := exists_eq_trimWhile isWhitespace cs
  have hend (cs : List Component) : ((cs ++ after).splitOnP isWhitespace).filter (!·.isEmpty) =
      (cs.splitOnP isWhitespace).filter (!·.isEmpty) := by
    cases after with
    | nil => rw [List.append_nil]
    | cons c after =>
      -- Behind the first of the blanks there are no words.
      obtain ⟨hc, hafter⟩ := List.forall_mem_cons.mp hafter
      have hnone := filter_splitOnP_append hafter []
      rw [List.append_nil] at hnone
      rw [List.splitOnP_append_cons cs after hc, List.filter_append, hnone]
      simp
  rw [words_iff, words_iff]
  conv => rhs; rw [hcs]
  rw [filter_splitOnP_append hbefore, hend]

/-- All components with `Words` are blank or in one of the words. -/
theorem Words.forall_mem {P : Component → Prop} {cs : List Component}
    {words : List (List Component)} (hblank : ∀ c : Component, c.isWhitespace → P c)
    (hwords : ∀ x ∈ words, ∀ c ∈ x, P c) (h : Words cs words) : ∀ c ∈ cs, P c := by
  induction h with
  | nil hb => exact fun c hc => hblank c (hb c hc)
  | last hb hne hx =>
    exact List.forall_mem_append.mpr ⟨fun c hc => hblank c (hb c hc), hwords _ (by simp)⟩
  | cons hb hne hx hsep hrest ih =>
    obtain ⟨hfirst, hmore⟩ := List.forall_mem_cons.mp hwords
    refine List.forall_mem_append.mpr ⟨fun c hc => hblank c (hb c hc), ?_⟩
    exact List.forall_mem_append.mpr ⟨hfirst, List.forall_mem_cons.mpr ⟨hblank _ hsep, ih hmore⟩⟩

/-- All components of one of the `Words` are among those that were split. -/
theorem Words.subset {cs x : List Component} {words : List (List Component)} (h : Words cs words)
    (hx : x ∈ words) : x ⊆ cs := by
  induction h with
  | nil hb => cases hx
  | last hb hne hspace =>
    obtain rfl := List.mem_singleton.mp hx
    exact List.subset_append_right _ _
  | cons hb hne hspace hsep hrest ih =>
    refine List.Subset.trans ?_ (List.subset_append_right _ _)
    rcases List.mem_cons.mp hx with rfl | hx
    · exact List.subset_append_left _ _
    · exact fun c hc => List.mem_append_right _ (List.mem_cons_of_mem _ (ih hx hc))

end Grammar

end ThemeColor
