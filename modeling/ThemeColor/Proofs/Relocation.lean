import ThemeColor.Proofs.ColorReading
import ThemeColor.Proofs.Slices

/-!
# Colors at other places

Components that differ only in where their lexemes start write the same numbers and the same colors.
A block in parentheses stays verbatim if there is *no* sum inside, so for numbers both directions
are needed (`Grammar.number_movedAll_iff`). Colors are positive in the grammar, and one direction is
enough for them (`Grammar.Single.moved`).
-/

namespace ThemeColor

namespace Component

mutual

/-- The component with its lexemes at other places. -/
def moved (f : Nat → Nat) : Component → Component
  | .token l => .token (l.moved f)
  | .block opener body closer => .block (opener.moved f) (movedAll f body) (closer.moved f)

/-- The components with their lexemes at other places. -/
def movedAll (f : Nat → Nat) : List Component → List Component
  | [] => []
  | c :: cs => moved f c :: movedAll f cs

end

variable {f : Nat → Nat}

theorem movedAll_eq_map (f : Nat → Nat) (cs : List Component) :
    movedAll f cs = cs.map (moved f) := by
  induction cs with
  | nil => rfl
  | cons c cs ih => rw [movedAll, ih, List.map_cons]

@[simp]
theorem movedAll_cons (c : Component) (cs : List Component) :
    movedAll f (c :: cs) = moved f c :: movedAll f cs := rfl

@[simp]
theorem movedAll_append (a b : List Component) :
    movedAll f (a ++ b) = movedAll f a ++ movedAll f b := by
  simp only [movedAll_eq_map, List.map_append]

/-- Being `moved` leaves a component the token it was. -/
@[simp]
theorem token?_moved (c : Component) : (moved f c).token? = c.token? := by
  cases c <;> rfl

@[simp]
theorem isToken_moved (t : Token) (c : Component) : isToken t (moved f c) = isToken t c := by
  rw [isToken, isToken, token?_moved]

@[simp]
theorem isWhitespace_moved (c : Component) : (moved f c).isWhitespace = c.isWhitespace := by
  rw [isWhitespace, isWhitespace, token?_moved]

mutual

/-- The lexemes of a `moved` component are the moved lexemes. -/
theorem lexemes_moved : (c : Component) → (moved f c).lexemes = c.lexemes.map (Lexeme.moved f)
  | .token l => rfl
  | .block opener body closer => by
    simp [moved, lexemes, lexemesAll_movedAll body]

/-- The lexemes of components that are `movedAll` are the moved lexemes. -/
theorem lexemesAll_movedAll :
    (cs : List Component) → lexemesAll (movedAll f cs) = (lexemesAll cs).map (Lexeme.moved f)
  | [] => rfl
  | c :: cs => by
    simp [lexemesAll, lexemes_moved c, lexemesAll_movedAll cs]

end

/-- Lexemes that are `Lexeme.moved` join to the same text. -/
theorem join_map_moved (ls : List Lexeme) :
    Lexeme.join (ls.map (Lexeme.moved f)) = Lexeme.join ls := by
  cases ls with
  | nil => rfl
  | cons l ls => simp [Lexeme.join, Lexeme.moved, List.flatMap_map]

/-- A `moved` component is written as before. -/
theorem textAll_moved (c : Component) : textAll [moved f c] = textAll [c] := by
  simp [textAll, lexemesAll, lexemes_moved, join_map_moved]

mutual

/-- The brackets of a `Matched` component match at every place. -/
theorem Matched.moved : {c : Component} → c.Matched → (moved f c).Matched
  | .token _, h => h
  | .block _ _ _, ⟨hbracket, hbody⟩ => ⟨hbracket, MatchedAll.movedAll hbody⟩

/-- The brackets of `MatchedAll` components match at every place. -/
theorem MatchedAll.movedAll : {cs : List Component} → MatchedAll cs → MatchedAll (movedAll f cs)
  | [], _ => trivial
  | _ :: _, ⟨hc, hcs⟩ => ⟨Matched.moved hc, MatchedAll.movedAll hcs⟩

end

mutual

/-- A `moved` component is as deep as before. -/
theorem depth_moved : (c : Component) → (moved f c).depth = c.depth
  | .token _ => rfl
  | .block _ body _ => by rw [moved, depth, depth, depthAll_movedAll body]

/-- Components that are `movedAll` are as deep as before. -/
theorem depthAll_movedAll : (cs : List Component) → depthAll (movedAll f cs) = depthAll cs
  | [] => rfl
  | c :: cs => by rw [movedAll, depthAll, depthAll, depth_moved c, depthAll_movedAll cs]

end

end Component

namespace Grammar

open Component

variable {f : Nat → Nat}

/-! ## Numbers -/

/-- Being `Blank` does not depend on the place. -/
theorem blank_movedAll_iff {cs : List Component} : Blank (movedAll f cs) ↔ Blank cs := by
  simp [Blank, movedAll_eq_map]

/-- Components around a `moved` one are found among those that were moved. -/
theorem exists_of_movedAll_eq {cs x y : List Component} {c : Component}
    (h : movedAll f cs = x ++ c :: y) :
    ∃ x' c' y', cs = x' ++ c' :: y' ∧ movedAll f x' = x ∧ moved f c' = c ∧ movedAll f y' = y := by
  simp only [movedAll_eq_map] at h ⊢
  obtain ⟨x', rest, rfl, hx, hrest⟩ := List.map_eq_append_iff.mp h
  obtain ⟨c', y', rfl, hc, hy⟩ := List.map_eq_cons_iff.mp hrest
  exact ⟨x', c', y', rfl, hx, hc, hy⟩

section Arithmetic

variable {value value' : Component → Expr Float → Prop} {cs : List Component} {e : Expr Float}

/-- Moving the components of an `Operand` changes it as little as it changes their values. -/
theorem operand_movedAll_iff (hvalue : ∀ c ∈ cs, ∀ e, value' (moved f c) e ↔ value c e) :
    Operand value' (movedAll f cs) e ↔ Operand value cs e := by
  constructor
  · intro h
    generalize hcs : movedAll f cs = moved at h
    cases h with
    | padded hbefore hc hafter =>
      obtain ⟨before, c, after, rfl, rfl, rfl, rfl⟩ := exists_of_movedAll_eq hcs
      exact .padded (blank_movedAll_iff.mp hbefore) ((hvalue c (by simp) _).mp hc)
        (blank_movedAll_iff.mp hafter)
  · intro h
    cases h with
    | padded hbefore hc hafter =>
      rw [movedAll_append, movedAll_cons]
      exact .padded (blank_movedAll_iff.mpr hbefore) ((hvalue _ (by simp) _).mpr hc)
        (blank_movedAll_iff.mpr hafter)

/-- Moving the components of a `Product` changes it as little as it changes their values. -/
theorem product_movedAll_iff (hvalue : ∀ c ∈ cs, ∀ e, value' (moved f c) e ↔ value c e) :
    Product value' (movedAll f cs) e ↔ Product value cs e := by
  constructor
  · intro h
    generalize hcs : movedAll f cs = all at h
    induction h generalizing cs with
    | operand hx =>
      subst hcs
      exact .operand ((operand_movedAll_iff hvalue).mp hx)
    | mul hx hop hy ih =>
      obtain ⟨x, op, y, rfl, rfl, rfl, rfl⟩ := exists_of_movedAll_eq hcs
      rw [isToken_moved] at hop
      exact .mul (ih (fun c hc => hvalue c (by simp [hc])) rfl) hop
        ((operand_movedAll_iff fun c hc => hvalue c (by simp [hc])).mp hy)
    | div hx hop hy ih =>
      obtain ⟨x, op, y, rfl, rfl, rfl, rfl⟩ := exists_of_movedAll_eq hcs
      rw [isToken_moved] at hop
      exact .div (ih (fun c hc => hvalue c (by simp [hc])) rfl) hop
        ((operand_movedAll_iff fun c hc => hvalue c (by simp [hc])).mp hy)
  · intro h
    induction h with
    | operand hx => exact .operand ((operand_movedAll_iff hvalue).mpr hx)
    | mul hx hop hy ih =>
      rw [movedAll_append, movedAll_cons]
      refine .mul (ih fun c hc => hvalue c (by simp [hc])) (by rwa [isToken_moved]) ?_
      exact (operand_movedAll_iff fun c hc => hvalue c (by simp [hc])).mpr hy
    | div hx hop hy ih =>
      rw [movedAll_append, movedAll_cons]
      refine .div (ih fun c hc => hvalue c (by simp [hc])) (by rwa [isToken_moved]) ?_
      exact (operand_movedAll_iff fun c hc => hvalue c (by simp [hc])).mpr hy

/-- Moving the components of a `Sum` changes it as little as it changes their values. -/
theorem sum_movedAll_iff (hvalue : ∀ c ∈ cs, ∀ e, value' (moved f c) e ↔ value c e) :
    Sum value' (movedAll f cs) e ↔ Sum value cs e := by
  constructor
  · intro h
    -- The derivation is about moved components; each of its parts is found in `cs` again.
    generalize hcs : movedAll f cs = all at h
    induction h generalizing cs with
    | product hx =>
      subst hcs
      exact .product ((product_movedAll_iff hvalue).mp hx)
    | add hx hop hy ih =>
      obtain ⟨x, op, y, rfl, rfl, rfl, rfl⟩ := exists_of_movedAll_eq hcs
      rw [isToken_moved] at hop
      exact .add (ih (fun c hc => hvalue c (by simp [hc])) rfl) hop
        ((product_movedAll_iff fun c hc => hvalue c (by simp [hc])).mp hy)
    | sub hx hop hy ih =>
      obtain ⟨x, op, y, rfl, rfl, rfl, rfl⟩ := exists_of_movedAll_eq hcs
      rw [isToken_moved] at hop
      exact .sub (ih (fun c hc => hvalue c (by simp [hc])) rfl) hop
        ((product_movedAll_iff fun c hc => hvalue c (by simp [hc])).mp hy)
    | signed hx hc hy ih =>
      obtain ⟨x, c, y, rfl, rfl, rfl, rfl⟩ := exists_of_movedAll_eq hcs
      rw [token?_moved] at hc
      refine .signed (ih (fun c hc => hvalue c (by simp [hc])) rfl) hc ?_
      exact (product_movedAll_iff fun c hc => hvalue c (List.mem_append_right _ hc)).mp hy
  · intro h
    induction h with
    | product hx => exact .product ((product_movedAll_iff hvalue).mpr hx)
    | add hx hop hy ih =>
      rw [movedAll_append, movedAll_cons]
      refine .add (ih fun c hc => hvalue c (by simp [hc])) (by rwa [isToken_moved]) ?_
      exact (product_movedAll_iff fun c hc => hvalue c (by simp [hc])).mpr hy
    | sub hx hop hy ih =>
      rw [movedAll_append, movedAll_cons]
      refine .sub (ih fun c hc => hvalue c (by simp [hc])) (by rwa [isToken_moved]) ?_
      exact (product_movedAll_iff fun c hc => hvalue c (by simp [hc])).mpr hy
    | signed hx hc hy ih =>
      rw [movedAll_append, movedAll_cons]
      refine .signed (ih fun c hc => hvalue c (by simp [hc])) (by rwa [token?_moved]) ?_
      exact (product_movedAll_iff fun c hc => hvalue c (List.mem_append_right _ hc)).mpr hy

/-- Moving the components of `Sums` changes them as little as it changes their values. -/
theorem sums_movedAll_iff {es : List (Expr Float)}
    (hvalue : ∀ c ∈ cs, ∀ e, value' (moved f c) e ↔ value c e) :
    Sums value' (movedAll f cs) es ↔ Sums value cs es := by
  constructor
  · intro h
    generalize hcs : movedAll f cs = all at h
    induction h generalizing cs with
    | one hx =>
      subst hcs
      exact .one ((sum_movedAll_iff hvalue).mp hx)
    | cons hx hcomma hy ih =>
      obtain ⟨x, comma, y, rfl, rfl, rfl, rfl⟩ := exists_of_movedAll_eq hcs
      rw [isToken_moved] at hcomma
      exact .cons ((sum_movedAll_iff fun c hc => hvalue c (by simp [hc])).mp hx) hcomma
        (ih (fun c hc => hvalue c (by simp [hc])) rfl)
  · intro h
    induction h with
    | one hx => exact .one ((sum_movedAll_iff hvalue).mpr hx)
    | cons hx hcomma hy ih =>
      rw [movedAll_append, movedAll_cons]
      exact .cons ((sum_movedAll_iff fun c hc => hvalue c (by simp [hc])).mpr hx)
        (by rwa [isToken_moved]) (ih fun c hc => hvalue c (by simp [hc]))

/-- Moving the components of a block changes its `BlockValue` as little as it changes their values.
-/
theorem blockValue_moved_iff {opener closer : Lexeme} {body : List Component}
    (hvalue : ∀ c ∈ body, ∀ e, value' (moved f c) e ↔ value c e) :
    BlockValue value' (opener.moved f) (movedAll f body) (closer.moved f) e ↔
      BlockValue value opener body closer e := by
  have htext : textAll [.block (opener.moved f) (movedAll f body) (closer.moved f)] =
      textAll [.block opener body closer] := textAll_moved (.block opener body closer)
  exact ⟨.imp rfl htext.symm (fun _ => sum_movedAll_iff hvalue) fun _ => sums_movedAll_iff hvalue,
    .imp rfl htext (fun _ => (sum_movedAll_iff hvalue).symm)
      fun _ => (sums_movedAll_iff hvalue).symm⟩

end Arithmetic

/-- The `Value` of a component does not depend on its place. -/
theorem value_moved_iff (c : Component) (e : Expr Float) : Value (moved f c) e ↔ Value c e := by
  -- The recursion goes down the tree in the same way as the definition of values.
  match c with
  | .token l => rw [moved, value_token_iff, value_token_iff, Lexeme.moved]
  | .block opener body closer =>
    rw [moved, value_block_iff, value_block_iff]
    exact blockValue_moved_iff fun c hc e => value_moved_iff c e
termination_by sizeOf c
decreasing_by
  have := List.sizeOf_lt_of_mem hc
  simp only [Component.block.sizeOf_spec]
  omega

/-- The `Number` that components write does not depend on their places. -/
theorem number_movedAll_iff {cs : List Component} {e : Expr Float} :
    Number (movedAll f cs) e ↔ Number cs e :=
  sum_movedAll_iff fun c _ e => value_moved_iff c e

/-! ## Colors -/

/-- Moving makes no slash, so `NoSlash` is kept. -/
theorem NoSlash.movedAll {cs : List Component} (h : NoSlash cs) : NoSlash (movedAll f cs) := by
  simpa [NoSlash, movedAll_eq_map] using h

/-- Components that are `movedAll` split into the same `Words`, moved. -/
theorem Words.movedAll {cs : List Component} {words : List (List Component)} (h : Words cs words) :
    Words (movedAll f cs) (words.map (Component.movedAll f)) := by
  have hsolid {x : List Component} (hx : ∀ c ∈ x, ¬ c.isWhitespace) :
      ∀ c ∈ Component.movedAll f x, ¬ c.isWhitespace := by
    simpa [movedAll_eq_map] using hx
  have hne {x : List Component} (hx : x ≠ []) : Component.movedAll f x ≠ [] := by
    simpa [movedAll_eq_map] using hx
  induction h with
  | nil hb => exact .nil (blank_movedAll_iff.mpr hb)
  | last hb hx hspace =>
    rw [movedAll_append]
    exact .last (blank_movedAll_iff.mpr hb) (hne hx) (hsolid hspace)
  | cons hb hx hspace hc hrest ih =>
    rw [movedAll_append, movedAll_append, movedAll_cons]
    exact .cons (blank_movedAll_iff.mpr hb) (hne hx) (hsolid hspace)
      (by rwa [isWhitespace_moved]) ih

/-- Components that are `movedAll` split into the same `Channels`, moved. -/
theorem Channels.movedAll {cs x y z : List Component} {a : Option (List Component)}
    (h : Channels cs x y z a) :
    Channels (Component.movedAll f cs) (Component.movedAll f x) (Component.movedAll f y)
      (Component.movedAll f z) (a.map (Component.movedAll f)) := by
  cases h with
  | commas hs ht hx hy hz =>
    rw [movedAll_append, movedAll_cons, movedAll_append, movedAll_cons]
    exact .commas (by rwa [isToken_moved]) (by rwa [isToken_moved]) hx.movedAll hy.movedAll
      hz.movedAll
  | commasAlpha hs ht hu hx hy hz ha =>
    rw [movedAll_append, movedAll_cons, movedAll_append, movedAll_cons, movedAll_append,
      movedAll_cons]
    exact .commasAlpha (by rwa [isToken_moved]) (by rwa [isToken_moved]) (by rwa [isToken_moved])
      hx.movedAll hy.movedAll hz.movedAll ha.movedAll
  | blanks hcs hwords => exact .blanks hcs.movedAll hwords.movedAll
  | blanksAlpha hcs hwords hslash htail halpha =>
    rw [movedAll_append, movedAll_cons]
    exact .blanksAlpha hcs.movedAll hwords.movedAll (by rwa [isToken_moved]) htail.movedAll
      halpha.movedAll

/-- A `Channel` is the same at every place. -/
theorem Channel.movedAll {rule : Expr Float → Expr Float → Prop} {cs : List Component}
    {e : Expr Float} (h : Channel rule cs e) : Channel rule (Component.movedAll f cs) e := by
  obtain ⟨n, hn, hrule⟩ := h
  exact ⟨n, number_movedAll_iff.mpr hn, hrule⟩

/-- An `Opacity` is the same at every place. -/
theorem Opacity.movedAll {a : Option (List Component)} {e : Expr Float} (h : Opacity a e) :
    Opacity (a.map (Component.movedAll f)) e := by
  cases h with
  | full => exact .full
  | written h => exact .written h.movedAll

-- Colors are derived from colors inside, so the three rules are moved together.
mutual

/-- The color that components write, as `Writes` says, does not depend on their places. -/
theorem Writes.movedAll {cs : List Component} {color : Color Float} :
    Writes cs color → Writes (Component.movedAll f cs) color
  | .padded hbefore hcolor hafter => by
    rw [movedAll_append, movedAll_cons]
    exact .padded (blank_movedAll_iff.mpr hbefore) hcolor.moved (blank_movedAll_iff.mpr hafter)

/-- A `Single` component writes the same color at every place. -/
theorem Single.moved {c : Component} {color : Color Float} :
    Single c color → Single (Component.moved f c) color
  | .hash hl hcolor => .hash hl hcolor
  | .defined hl => .defined hl
  | .name hl hcolor => .name hl hcolor
  | .call hopener hcolor => .call hopener hcolor.movedAll

/-- A `Call` writes the same color at every place. -/
theorem Call.movedAll {name : String} {body : List Component} {color : Color Float} :
    Call name body color → Call name (Component.movedAll f body) color
  | .rgb hname hbody hred hgreen hblue halpha =>
    .rgb hname hbody.movedAll hred.movedAll hgreen.movedAll hblue.movedAll halpha.movedAll
  | .hsl hname hbody hhue hsaturation hlightness halpha =>
    .hsl hname hbody.movedAll hhue.movedAll hsaturation.movedAll hlightness.movedAll
      halpha.movedAll
  | .mix hname hx hs hy ht hz => by
    rw [movedAll_append, movedAll_cons, movedAll_append, movedAll_cons]
    exact .mix hname hx.movedAll (by rwa [isToken_moved]) hy.movedAll (by rwa [isToken_moved])
      (number_movedAll_iff.mpr hz)
  | .shade hname hx hs hy => by
    rw [movedAll_append, movedAll_cons]
    exact .shade hname hx.movedAll (by rwa [isToken_moved]) (number_movedAll_iff.mpr hy)
  | .alpha hname hx hs hy => by
    rw [movedAll_append, movedAll_cons]
    exact .alpha hname hx.movedAll (by rwa [isToken_moved]) (number_movedAll_iff.mpr hy)
  | .lighter hname hbody => .lighter hname hbody.movedAll
  | .darker hname hbody => .darker hname hbody.movedAll

end

end Grammar

end ThemeColor
