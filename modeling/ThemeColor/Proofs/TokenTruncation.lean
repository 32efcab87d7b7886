import ThemeColor.Proofs.Truncation

/-!
# Tokens of a text that is cut off

A token that leaves all of `r` is read the same when `r` is cut off, with two exceptions: a quoted
text that a line end cuts off, without the line end, and the function `url`, without the quote that
follows it, perhaps after blanks. Such a token is exposed.

## Main results

* `token_cut`: a token is read the same, or it is exposed and another token is read;
* `comments_cut`: comments are read the same.
-/

namespace ThemeColor

/-- The token is the function `url`, in any case of the letters. -/
def Token.isUrlFunction : Token → Bool
  | .function name => Text.sameIgnoringCase name "url"
  | _ => false

namespace Scan

variable {x r t y : List Char}

/-- The token depends on what follows, and nothing of that is in `left`: a quoted text that a line
end cuts off, without the line end, or the function `url` without the quote behind it. -/
def Exposed (v : Token) (left : List Char) : Prop :=
  v = .badString ∧ left = [] ∨ v.isUrlFunction ∧ left.all isSpace

/-- What is left of the scan of a token when `r` is cut off: the same is read, or the token is
exposed and another one is read. -/
def TokenCut (s : Scanned Token) (v : Token) (t y : List Char) : Prop :=
  s = ⟨v, t, y⟩ ∧ ¬ Exposed v y ∨ s.value ≠ v ∧ Exposed v y

theorem tokenCut_of_eq {s : Scanned Token} {v : Token} (h : s = ⟨v, t, y⟩)
    (hbad : v ≠ .badString) (hurl : v.isUrlFunction = false) : TokenCut s v t y := by
  refine .inl ⟨h, ?_⟩
  rintro (⟨rfl, -⟩ | ⟨htrue, -⟩)
  · exact hbad rfl
  · rw [hurl] at htrue
    cases htrue

theorem string_cut {quote : Char} {v : Token} (h : string quote (x ++ r) = ⟨v, t, y ++ r⟩) :
    TokenCut (string quote x) v t y := by
  obtain ⟨value, t, hbody, rfl, rfl⟩ := Scanned.after_eq_iff.mp h
  rcases stringBody_cut hbody with ⟨hcut, hvalue⟩ | ⟨hvalue, rfl, rfl⟩
  · refine .inl ⟨by rw [string, hcut]; rfl, ?_⟩
    cases value with
    | some value => simp [Exposed, Token.isUrlFunction]
    | none => simpa [Exposed, Token.isUrlFunction] using hvalue
  · refine .inr ⟨?_, .inl ⟨rfl, rfl⟩⟩
    -- Without the line end the quoted text has a value.
    obtain ⟨value, hvalue⟩ := Option.ne_none_iff_exists'.mp hvalue
    simp [string, Scanned.after, hvalue]

/-- A number is read the same. What it leaves, with its unit or percent sign, ends in `r`. -/
theorem numeric_cut {v : Token} (h : numeric (x ++ r) = ⟨v, t, y ++ r⟩) :
    TokenCut (numeric x) v t y ∧ ∃ value left, Numeral.scan (x ++ r) = (value, left ++ r) := by
  rcases hscan : Numeral.scan (x ++ r) with ⟨value, rest⟩
  simp only [numeric, hscan] at h
  by_cases hunit : startsName rest
  · rw [if_pos hunit, Scanned.after_eq_iff] at h
    obtain ⟨unit, t, h, rfl, rfl⟩ := h
    have hrest := name_append rest
    rw [h, ← List.append_assoc] at hrest
    subst hrest
    have hunit := startsName_cut hunit (congrArg Scanned.rest h)
    refine ⟨tokenCut_of_eq ?_ (by simp) rfl, value, t ++ y, rfl⟩
    simp only [numeric, numeral_cut hscan, if_pos hunit, name_cut h]
    rfl
  rw [if_neg hunit] at h
  split at h
  · rename_i after
    obtain ⟨rfl, rfl, rfl⟩ := (Scanned.mk.injEq ..).mp h
    have hunit : ¬ startsName ('%' :: y) := fun h => hunit (startsName_append h r)
    refine ⟨tokenCut_of_eq ?_ (by simp) rfl, value, '%' :: y, rfl⟩
    simp only [numeric, numeral_cut (y := '%' :: y) hscan, if_neg hunit]
  · rename_i hpercent
    obtain ⟨rfl, rfl, rfl⟩ := (Scanned.mk.injEq ..).mp h
    have hunit : ¬ startsName y := fun h => hunit (startsName_append h r)
    refine ⟨tokenCut_of_eq ?_ (by simp) rfl, value, y, rfl⟩
    simp only [numeric, numeral_cut hscan, if_neg hunit]
    split
    · exact (hpercent _ rfl).elim
    · rfl

/-- Behind `url(` the same is read, or the quote that makes it a function is cut off. -/
theorem urlOrFunction_cut {word : String} {v : Token} (hword : Text.sameIgnoringCase word "url")
    (h : urlOrFunction word (x ++ r) = ⟨v, t, y ++ r⟩) : TokenCut (urlOrFunction word x) v t y := by
  unfold urlOrFunction at h
  dsimp only at h
  split at h
  · rename_i hquote
    obtain ⟨rfl, rfl, hx⟩ := (Scanned.mk.injEq ..).mp h
    obtain rfl := List.append_cancel_right hx
    by_cases hblank : (x.dropWhile isSpace).isEmpty
    · -- Only blanks are left, so there is an empty address instead of the function.
      have hinside : x.dropWhile isSpace = [] := List.isEmpty_iff.mp hblank
      refine .inr ⟨?_, .inr ⟨hword, ?_⟩⟩
      · simp [urlOrFunction, hinside, urlBody, Scanned.after]
      · rw [List.all_eq_true]
        exact List.dropWhile_eq_nil_iff.mp hinside
    · have hhead : ((x ++ r).dropWhile isSpace).head? = (x.dropWhile isSpace).head? := by
        rw [List.dropWhile_append, if_neg hblank]
        cases hinside : x.dropWhile isSpace with
        | nil => simp [hinside] at hblank
        | cons c inside => rfl
      rw [hhead] at hquote
      refine .inl ⟨?_, ?_⟩
      · simp only [urlOrFunction, if_pos hquote]
      · rintro (⟨heq, -⟩ | ⟨-, hall⟩)
        · cases heq
        · exact hblank (List.isEmpty_iff.mpr
            (List.dropWhile_eq_nil_iff.mpr (List.all_eq_true.mp hall)))
  · rename_i hquote
    obtain ⟨value, t, hbody, rfl, rfl⟩ := Scanned.after_eq_iff.mp h
    have hinside := urlBody_append ((x ++ r).dropWhile isSpace)
    rw [hbody, ← List.append_assoc] at hinside
    obtain ⟨hdrop, htake⟩ := run_cut hinside.symm
    rw [← hinside] at hbody hquote
    have hquote : ¬ ((t ++ y).head? = some '"' ∨ (t ++ y).head? = some '\'') := by
      intro hhead
      apply hquote
      cases htexts : t ++ y with
      | nil => simp [htexts] at hhead
      | cons c rest => rwa [htexts] at hhead
    refine tokenCut_of_eq ?_ ?_ ?_
    · simp only [urlOrFunction, hdrop, htake, urlBody_cut hbody]
      rw [if_neg hquote]
      rfl
    · cases value <;> simp
    · cases value <;> rfl

/-- What looks like a name is read the same. The name itself leaves a text that ends in `r`. -/
theorem nameLike_cut {v : Token} (h : nameLike (x ++ r) = ⟨v, t, y ++ r⟩) :
    TokenCut (nameLike x) v t y ∧ ∃ left, (name (x ++ r)).rest = left ++ r := by
  rcases hname : name (x ++ r) with ⟨word, part, rest⟩
  simp only [nameLike, hname] at h
  split at h
  · rename_i inside
    by_cases hword : Text.sameIgnoringCase (String.ofList word) "url"
    · rw [if_pos hword, Scanned.after_eq_iff] at h
      obtain ⟨v, t, h, rfl, rfl⟩ := h
      have hinside := urlOrFunction_append (String.ofList word) inside
      rw [h, ← List.append_assoc] at hinside
      subst hinside
      have hcut := name_cut (y := '(' :: (t ++ y)) hname
      refine ⟨?_, '(' :: (t ++ y), rfl⟩
      simp only [nameLike, hcut, if_pos hword]
      -- What follows the parenthesis decides; the name in front of it stays.
      rcases urlOrFunction_cut hword h with ⟨heq, hexposed⟩ | hexposed
      · exact .inl ⟨by rw [heq]; rfl, hexposed⟩
      · exact .inr hexposed
    · rw [if_neg hword, Scanned.mk.injEq] at h
      obtain ⟨rfl, rfl, rfl⟩ := h
      have hcut := name_cut (y := '(' :: y) hname
      refine ⟨tokenCut_of_eq ?_ (by simp) ?_, '(' :: y, rfl⟩
      · simp only [nameLike, hcut, if_neg hword]
      · simpa [Token.isUrlFunction] using hword
  · rename_i hparen
    obtain ⟨rfl, rfl, rfl⟩ := (Scanned.mk.injEq ..).mp h
    refine ⟨tokenCut_of_eq ?_ (by simp) rfl, y, rfl⟩
    simp only [nameLike, name_cut hname]
    split
    · exact (hparen _ rfl).elim
    · rfl

theorem punctuation_ne_badString (c : Char) : punctuation c ≠ .badString := by
  unfold punctuation
  repeat' split
  all_goals simp

theorem isUrlFunction_punctuation (c : Char) : (punctuation c).isUrlFunction = false := by
  unfold punctuation
  repeat' split
  all_goals rfl

/-- A mark that starts the text and leaves all of `r` starts `x`. -/
theorem take_cut (mark : List Char) (htake : (x ++ r).take mark.length = mark)
    (hdrop : (x ++ r).drop mark.length = y ++ r) :
    x.take mark.length = mark ∧ x.drop mark.length = y := by
  have hx : x = mark ++ y := by
    have happend := List.take_append_drop mark.length (x ++ r)
    rw [htake, hdrop, ← List.append_assoc] at happend
    exact (List.append_cancel_right happend).symm
  rw [hx]
  exact ⟨List.take_left, List.drop_left⟩

theorem take_append_of_eq (mark : List Char) (h : x.take mark.length = mark) (r : List Char) :
    (x ++ r).take mark.length = mark := by
  have hle : mark.length ≤ x.length := by
    have := congrArg List.length h
    rw [List.length_take] at this
    omega
  rw [List.take_append_of_le_length hle, h]

/-- A token that leaves all of `r` is read the same when `r` is cut off, unless it is exposed: then
another token is read. -/
theorem token_cut {c : Char} {v : Token} (h : token c (x ++ r) = ⟨v, t, y ++ r⟩) :
    TokenCut (token c x) v t y := by
  -- The cases are those of `token`, in the same order. A test that fails for `x ++ r` fails for
  -- `x`.
  rw [token] at h
  rw [token]
  by_cases hspace : isSpace c
  · rw [if_pos hspace, Scanned.mk.injEq] at h
    obtain ⟨rfl, rfl, h⟩ := h
    obtain ⟨hdrop, htake⟩ := run_cut h
    exact tokenCut_of_eq (by rw [if_pos hspace, hdrop, htake]) (by simp) rfl
  rw [if_neg hspace] at h ⊢
  by_cases hquote : c = '"' ∨ c = '\''
  · rw [if_pos hquote] at h ⊢
    exact string_cut h
  rw [if_neg hquote] at h ⊢
  by_cases hhash : c = '#' ∧ startsHashName (x ++ r)
  · rw [if_pos hhash, Scanned.after_eq_iff] at h
    obtain ⟨value, t, h, rfl, rfl⟩ := h
    have hstart := startsHashName_cut hhash.2 (congrArg Scanned.rest h)
    exact tokenCut_of_eq (by rw [if_pos ⟨hhash.1, hstart⟩, name_cut h]; rfl) (by simp) rfl
  rw [if_neg hhash] at h
  rw [if_neg fun hstart => hhash ⟨hstart.1, startsHashName_append hstart.2 r⟩]
  by_cases hat : c = '@' ∧ startsName (x ++ r)
  · rw [if_pos hat, Scanned.after_eq_iff] at h
    obtain ⟨value, t, h, rfl, rfl⟩ := h
    have hstart := startsName_cut hat.2 (congrArg Scanned.rest h)
    exact tokenCut_of_eq (by rw [if_pos ⟨hat.1, hstart⟩, name_cut h]; rfl) (by simp) rfl
  rw [if_neg hat] at h
  rw [if_neg fun hstart => hat ⟨hstart.1, startsName_append hstart.2 r⟩]
  by_cases hnumeral : Numeral.startsWith (c :: x ++ r)
  · rw [← List.cons_append, if_pos hnumeral] at h
    obtain ⟨hcut, value, left, hscan⟩ := numeric_cut h
    rwa [if_pos (startsWith_cut hnumeral hscan)]
  rw [← List.cons_append, if_neg hnumeral] at h
  rw [if_neg fun hstart => hnumeral (startsWith_append hstart r)]
  by_cases hclose : c = '-' ∧ (x ++ r).take 2 = ['-', '>']
  · rw [if_pos hclose, Scanned.mk.injEq] at h
    obtain ⟨rfl, rfl, h⟩ := h
    obtain ⟨htake, hdrop⟩ := take_cut ['-', '>'] hclose.2 h
    refine tokenCut_of_eq ?_ (by simp) rfl
    rw [if_pos ⟨hclose.1, htake⟩, hclose.2]
    exact congrArg₂ (Scanned.mk _) (congrArg _ htake) hdrop
  rw [if_neg hclose] at h
  rw [if_neg fun hmark => hclose ⟨hmark.1, take_append_of_eq ['-', '>'] hmark.2 r⟩]
  by_cases hopen : c = '<' ∧ (x ++ r).take 3 = ['!', '-', '-']
  · rw [if_pos hopen, Scanned.mk.injEq] at h
    obtain ⟨rfl, rfl, h⟩ := h
    obtain ⟨htake, hdrop⟩ := take_cut ['!', '-', '-'] hopen.2 h
    refine tokenCut_of_eq ?_ (by simp) rfl
    rw [if_pos ⟨hopen.1, htake⟩, hopen.2]
    exact congrArg₂ (Scanned.mk _) (congrArg _ htake) hdrop
  rw [if_neg hopen] at h
  rw [if_neg fun hmark => hopen ⟨hmark.1, take_append_of_eq ['!', '-', '-'] hmark.2 r⟩]
  by_cases hname : startsName (c :: x ++ r)
  · rw [if_pos hname] at h
    obtain ⟨hcut, left, hleft⟩ := nameLike_cut h
    rwa [if_pos (startsName_cut hname hleft)]
  rw [if_neg hname, Scanned.mk.injEq] at h
  obtain ⟨rfl, rfl, h⟩ := h
  rw [if_neg fun hstart => hname (startsName_append hstart r), List.append_cancel_right h]
  exact tokenCut_of_eq rfl (punctuation_ne_badString c) (isUrlFunction_punctuation c)

/-! ## Comments -/

/-- What is split off in front of `r` is a front part of `x`. -/
theorem eq_append_of_split {p : List Char × List Char} {v : List Char}
    (happend : p.1 ++ p.2 = x ++ r) (h : p = (v, y ++ r)) : x = v ++ y := by
  subst h
  have happend : v ++ (y ++ r) = x ++ r := happend
  rw [← List.append_assoc] at happend
  exact (List.append_cancel_right happend).symm

theorem commentBody_cut {v : List Char} (h : commentBody (x ++ r) = (v, y ++ r)) :
    commentBody x = (v, y) := by
  induction x generalizing v with
  | nil =>
    obtain ⟨rfl, rfl⟩ :=
      List.append_eq_nil_iff.mp (eq_append_of_split (commentBody_append _) h).symm
    rfl
  | cons c x ih =>
    by_cases hend : c = '*' ∧ (x ++ r).head? = some '/'
    · obtain ⟨rfl, hhead⟩ := hend
      cases x with
      | nil =>
        -- The comment ends inside of `r`, so not all of it is left.
        obtain ⟨r, rfl⟩ := List.head?_eq_some_iff.mp hhead
        exact (false_of_length_lt (congrArg Prod.snd h) (Nat.lt_succ_self _)).elim
      | cons d x =>
        obtain rfl : d = '/' := Option.some.inj hhead
        obtain ⟨rfl, hrest⟩ := Prod.mk.inj h
        exact Prod.ext rfl (List.append_cancel_right hrest)
    · have hrest : c = '*' → (x ++ r).head? ≠ some '/' := fun hc hhead => hend ⟨hc, hhead⟩
      rw [List.cons_append, commentBody_cons hrest] at h
      obtain ⟨rfl, hbody⟩ := Prod.mk.inj h
      rw [commentBody_cons fun hc hhead => hrest hc (by rw [List.head?_append, hhead]; rfl),
        ih (Prod.ext rfl hbody)]

/-- Comments that leave all of `r` are read the same when `r` is cut off. -/
theorem comments_cut {v : List Char} (h : comments (x ++ r) = (v, y ++ r)) :
    comments x = (v, y) := by
  induction hlength : x.length using Nat.strongRecOn generalizing x v with
  | ind n ih =>
    subst hlength
    cases x with
    | nil =>
      obtain ⟨rfl, rfl⟩ := List.append_eq_nil_iff.mp (eq_append_of_split (comments_append _) h).symm
      rw [comments]
      simp
    | cons c x =>
      by_cases hstart : c = '/' ∧ (x ++ r).head? = some '*'
      · obtain ⟨rfl, hhead⟩ := hstart
        cases x with
        | nil =>
          -- The comment starts with the first character of `r`, so not all of `r` is left.
          obtain ⟨r, rfl⟩ := List.head?_eq_some_iff.mp hhead
          refine (false_of_length_lt (congrArg Prod.snd h) ?_).elim
          rw [List.cons_append, List.nil_append, comments]
          refine Nat.lt_succ_of_le (Nat.le_trans (length_comments_le _) ?_)
          exact length_commentBody_le r
        | cons d x =>
          obtain rfl : d = '*' := Option.some.inj hhead
          rw [List.cons_append, List.cons_append, comments] at h
          obtain ⟨rfl, hrest⟩ := Prod.mk.inj h
          -- The first comment leaves what the other comments read and all of `r`.
          have hmore := comments_append (commentBody (x ++ r)).2
          rw [hrest, ← List.append_assoc] at hmore
          have hbody := commentBody_cut (Prod.ext rfl hmore.symm)
          have hle := length_commentBody_le x
          rw [hbody] at hle
          dsimp only at hle
          have hcut := ih _ (by simp only [List.length_cons]; omega)
            (Prod.ext (congrArg (fun l => (comments l).1) hmore) (by rw [hmore, hrest])) rfl
          rw [comments, hbody]
          dsimp only
          rw [hcut]
      · have hrest : c = '/' → (x ++ r).head? ≠ some '*' := fun hc hhead => hstart ⟨hc, hhead⟩
        rw [List.cons_append, comments_cons hrest, ← List.cons_append] at h
        obtain ⟨rfl, hy⟩ := Prod.mk.inj h
        rw [comments_cons fun hc hhead => hrest hc (by rw [List.head?_append, hhead]; rfl),
          List.append_cancel_right hy]

end Scan

end ThemeColor
