import ThemeColor.Proofs.Blocks

/-!
# One component value

A text is one component value when its lexemes are those of a single component: a hash, a name, or
a function up to the parenthesis that closes it, with every bracket inside closed by its own kind
and every quoted text closed (`IsComponentValue`).

Whether this is so can be seen from left to right with a stack of open brackets. `Bracket.advance?`
is one step of that, `isComponentValue_iff` says that it decides the question, and `Bracket.after`
runs it over a text. The equations of `Bracket.after` for the pieces that colors are written with
are what the proofs about written colors are made of.
-/

namespace ThemeColor

namespace Component

mutual

/-- Every bracket of the component is closed by its own kind, and every quoted text is closed. -/
def Matched : Component → Prop
  | .token l => l.token.opens? = none ∧ l.token.closes? = none ∧ isTerminated l
  | .block opener body closer =>
    (∃ bracket, opener.token.opens? = some bracket ∧ closer.token.closes? = some bracket) ∧
      MatchedAll body

/-- All of the components are matched. -/
def MatchedAll : List Component → Prop
  | [] => True
  | c :: cs => Matched c ∧ MatchedAll cs

end

/-- A hash, a name or a function. -/
def IsValue : Component → Prop
  | .token l => (∃ value, l.token = .hash value) ∨ ∃ name, l.token = .ident name
  | .block opener _ _ => ∃ name, opener.token = .function name

end Component

/-- The text is a single hash, a single name or a single function, and nothing else. -/
def IsComponentValue (text : List Char) : Prop :=
  ∃ c : Component, c.Matched ∧ c.IsValue ∧ c.lexemes = Lexeme.contents text

/-! ## Open brackets -/

namespace Bracket

/-- The brackets that are open after a lexeme, the innermost one first, given those that are open
in front of it. There is no next step where nothing is open, at a closing bracket of the wrong kind
and at a quoted text that is not closed. -/
def advance? (stack : List Bracket) (l : Lexeme) : Option (List Bracket) :=
  match stack with
  | [] => none
  | top :: below =>
    match l.token.opens?, l.token.closes? with
    | some bracket, _ => some (bracket :: top :: below)
    | none, some bracket => if bracket = top then some below else none
    | none, none => if Component.isTerminated l then some (top :: below) else none

/-- Whether the lexemes are those of one component value. -/
def isValue : List Lexeme → Bool
  | [] => false
  | l :: ls =>
    match l.token with
    | .hash _ | .ident _ => ls.isEmpty
    | .function _ => ls.foldlM advance? [.paren] == some []
    | _ => false

variable {stack : List Bracket}

/-- An opening bracket is put on the stack by `advance?`. -/
theorem advance?_opens {l : Lexeme} {bracket : Bracket} (hstack : stack ≠ [])
    (h : l.token.opens? = some bracket) : advance? stack l = some (bracket :: stack) := by
  obtain ⟨top, below, rfl⟩ := List.exists_cons_of_ne_nil hstack
  simp [advance?, h]

/-- A closing bracket is taken off the stack by `advance?`. -/
theorem advance?_closes {l : Lexeme} {bracket : Bracket} (hopens : l.token.opens? = none)
    (h : l.token.closes? = some bracket) : advance? (bracket :: stack) l = some stack := by
  simp [advance?, hopens, h]

/-- Any other token is passed over by `advance?`, if its quotes are closed. -/
theorem advance?_flat {l : Lexeme} (hstack : stack ≠ []) (hopens : l.token.opens? = none)
    (hcloses : l.token.closes? = none) (h : Component.isTerminated l) :
    advance? stack l = some stack := by
  obtain ⟨top, below, rfl⟩ := List.exists_cons_of_ne_nil hstack
  simp [advance?, hopens, hcloses, h]

/-- A closing bracket opens nothing. -/
theorem opens?_of_closes? {t : Token} {bracket : Bracket} (h : t.closes? = some bracket) :
    t.opens? = none := by
  cases t <;> simp_all [Token.opens?, Token.closes?]

/-- A step of `advance?` is taken from open brackets only, and is one of three. -/
theorem advance?_eq_some {l : Lexeme} {next : List Bracket} (h : advance? stack l = some next) :
    stack ≠ [] ∧
      ((∃ bracket, l.token.opens? = some bracket ∧ next = bracket :: stack) ∨
        (∃ bracket, l.token.closes? = some bracket ∧ stack = bracket :: next) ∨
        (Component.Matched (.token l) ∧ next = stack)) := by
  unfold advance? at h
  split at h
  · cases h
  · rename_i top below
    refine ⟨List.cons_ne_nil _ _, ?_⟩
    split at h
    · rename_i bracket hopens
      cases h
      exact .inl ⟨bracket, hopens, rfl⟩
    · rename_i bracket hopens hcloses
      split at h
      · rename_i heq
        cases h
        exact .inr (.inl ⟨bracket, hcloses, by rw [heq]⟩)
      · cases h
    · rename_i hopens hcloses
      split at h
      · rename_i hterminated
        cases h
        exact .inr (.inr ⟨⟨hopens, hcloses, hterminated⟩, rfl⟩)
      · cases h

end Bracket

namespace Component

open ThemeColor.Bracket

mutual

/-- A `Matched` component leaves the open brackets as they are. -/
theorem Matched.foldlM_advance? {stack : List Bracket} (hstack : stack ≠ []) :
    (c : Component) → c.Matched → c.lexemes.foldlM advance? stack = some stack
  | .token l, ⟨hopens, hcloses, hterminated⟩ => by
    simp [lexemes, advance?_flat hstack hopens hcloses hterminated]
  | .block opener body closer, ⟨⟨bracket, hopens, hcloses⟩, hbody⟩ => by
    have hinside := MatchedAll.foldlM_advance? (List.cons_ne_nil bracket stack) body hbody
    simp only [lexemes, List.foldlM_cons, List.foldlM_append, List.foldlM_nil,
      advance?_opens hstack hopens, Option.bind_eq_bind, Option.bind_some, hinside,
      advance?_closes (opens?_of_closes? hcloses) hcloses, Option.pure_def]

/-- Components that are `MatchedAll` leave the open brackets as they are. -/
theorem MatchedAll.foldlM_advance? {stack : List Bracket} (hstack : stack ≠ []) :
    (cs : List Component) → MatchedAll cs → (lexemesAll cs).foldlM advance? stack = some stack
  | [], _ => by simp [lexemesAll]
  | c :: cs, ⟨hc, hcs⟩ => by
    simp [lexemesAll, List.foldlM_append, Matched.foldlM_advance? hstack c hc,
      MatchedAll.foldlM_advance? hstack cs hcs]

end

/-- Where a run of `advance?` closes all brackets, the lexemes start with the inside of the
innermost open block and the bracket that closes it. -/
theorem exists_body_of_foldlM {bracket : Bracket} {below : List Bracket} {ls : List Lexeme}
    (h : ls.foldlM advance? (bracket :: below) = some []) :
    ∃ body closer rest, ls = lexemesAll body ++ closer :: rest ∧ MatchedAll body ∧
      closer.token.closes? = some bracket ∧ rest.foldlM advance? below = some [] := by
  induction hlength : ls.length using Nat.strongRecOn generalizing bracket below ls with
  | ind n ih =>
    subst hlength
    cases ls with
    | nil => simp at h
    | cons l ls =>
      rw [List.foldlM_cons] at h
      obtain ⟨next, hnext, h⟩ := Option.bind_eq_some_iff.mp h
      obtain ⟨-, ⟨inner, hopens, rfl⟩ | ⟨_, hcloses, heq⟩ | ⟨hflat, rfl⟩⟩ := advance?_eq_some hnext
      · -- The block that opens here is read first, then the rest of the block around it.
        obtain ⟨body, closer, rest, rfl, hbody, hcloser, hrest⟩ := ih ls.length (by simp) h rfl
        obtain ⟨body', closer', rest', rfl, hbody', hcloser', hrest'⟩ :=
          ih rest.length (by simp; omega) hrest rfl
        refine ⟨.block l body closer :: body', closer', rest', ?_, ?_, hcloser', hrest'⟩
        · simp [lexemesAll, lexemes]
        · exact ⟨⟨⟨inner, hopens, hcloser⟩, hbody⟩, hbody'⟩
      · obtain ⟨rfl, rfl⟩ := List.cons.inj heq
        exact ⟨[], l, ls, rfl, trivial, hcloses, h⟩
      · obtain ⟨body, closer, rest, rfl, hbody, hcloser, hrest⟩ := ih ls.length (by simp) h rfl
        exact ⟨.token l :: body, closer, rest, rfl, ⟨hflat, hbody⟩, hcloser, hrest⟩

end Component

/-- Whether a text is one component value can be seen from left to right, by `Bracket.isValue`. -/
theorem isComponentValue_iff (text : List Char) :
    IsComponentValue text ↔ Bracket.isValue (Lexeme.contents text) := by
  constructor
  · rintro ⟨c, hmatched, hvalue, hlexemes⟩
    rw [← hlexemes]
    cases c with
    | token l =>
      obtain ⟨value, h⟩ | ⟨name, h⟩ := hvalue
      · simp [Component.lexemes, Bracket.isValue, h]
      · simp [Component.lexemes, Bracket.isValue, h]
    | block opener body closer =>
      obtain ⟨name, hname⟩ := hvalue
      obtain ⟨⟨bracket, hopens, hcloses⟩, hbody⟩ := hmatched
      obtain rfl : Bracket.paren = bracket := by simpa [hname, Token.opens?] using hopens
      -- What is inside leaves the parenthesis open, and the closer closes it.
      have hinside := Component.MatchedAll.foldlM_advance? (List.cons_ne_nil .paren []) body hbody
      have hcloser : Bracket.advance? [.paren] closer = some [] :=
        Bracket.advance?_closes (Bracket.opens?_of_closes? hcloses) hcloses
      simp [Component.lexemes, Bracket.isValue, hname, List.foldlM_append, hinside, hcloser]
  · intro h
    cases hcontents : Lexeme.contents text with
    | nil => simp [hcontents, Bracket.isValue] at h
    | cons l ls =>
      rw [hcontents] at h
      simp only [Bracket.isValue] at h
      split at h
      · rename_i value htoken
        obtain rfl := List.isEmpty_iff.mp h
        refine ⟨.token l, ?_, .inl ⟨value, htoken⟩, hcontents.symm⟩
        simp [Component.Matched, htoken, Token.opens?, Token.closes?, Component.isTerminated]
      · rename_i name htoken
        obtain rfl := List.isEmpty_iff.mp h
        refine ⟨.token l, ?_, .inr ⟨name, htoken⟩, hcontents.symm⟩
        simp [Component.Matched, htoken, Token.opens?, Token.closes?, Component.isTerminated]
      · rename_i name htoken
        obtain ⟨body, closer, rest, rfl, hbody, hcloser, hrest⟩ :=
          Component.exists_body_of_foldlM (beq_iff_eq.mp h)
        -- Nothing is open behind the closing parenthesis, so nothing stands there.
        obtain rfl : rest = [] := by
          cases rest with
          | nil => rfl
          | cons l rest => simp [Bracket.advance?] at hrest
        refine ⟨.block l body closer, ⟨⟨.paren, ?_, hcloser⟩, hbody⟩, ⟨name, htoken⟩, ?_⟩
        · simp [htoken, Token.opens?]
        · rw [Component.lexemes, hcontents]
      · cases h

/-! ## Texts -/

namespace Scan

/-- A text that starts with no comment has no comments in front. -/
theorem comments_cons {c : Char} {rest : List Char} (h : c = '/' → rest.head? ≠ some '*') :
    comments (c :: rest) = ([], c :: rest) := by
  rw [comments]
  intro inside heq
  obtain ⟨rfl, rfl⟩ := List.cons.inj heq
  exact absurd rfl (h rfl)

/-- Only a hyphen and a backslash need a look at the next character for `startsName`. -/
theorem startsName_cons {c : Char} (hminus : c ≠ '-') (hbackslash : c ≠ '\\') (rest : List Char) :
    startsName (c :: rest) = isNameStart c := by
  unfold startsName
  split
  · rename_i heq
    exact absurd (List.cons.inj heq).1 hminus
  · rename_i heq
    exact absurd (List.cons.inj heq).1 hbackslash
  · rename_i heq
    rw [(List.cons.inj heq).1]
  · rename_i heq
    cases heq

/-- Only a point needs a look at the next character for `Numeral.startsUnsigned`. -/
theorem startsUnsigned_cons {c : Char} (hpoint : c ≠ '.') (rest : List Char) :
    Numeral.startsUnsigned (c :: rest) = Numeral.isDigit c := by
  unfold Numeral.startsUnsigned
  split
  · rename_i heq
    exact absurd (List.cons.inj heq).1 hpoint
  · rfl

/-- The separators and parentheses that colors are written with are tokens of their own, as
`punctuation` says. -/
theorem token_of_separator {c : Char} (h : c ∈ [',', '*', '/', '(', ')']) (rest : List Char) :
    token c rest = ⟨punctuation c, [c], rest⟩ := by
  simp only [List.mem_cons, List.not_mem_nil, or_false] at h
  rcases h with rfl | rfl | rfl | rfl | rfl <;> rfl

end Scan

/-- Whether the token is neither a bracket nor a function nor a quoted text. -/
def Token.isFlat : Token → Bool
  | .function _ | .opener _ | .closer _ | .string _ | .badString => false
  | _ => true

namespace Bracket

/-- The brackets that are open after a text, given those that are open in front of it. -/
def after (stack : List Bracket) (text : List Char) : Option (List Bracket) :=
  (Lexeme.contents text).foldlM advance? stack

/-- The step at a token that was just read. -/
def step? (stack : List Bracket) (s : Scanned Token) : Option (List Bracket) :=
  advance? stack ⟨s.value, [], s.text, 0⟩

variable {stack : List Bracket} {c : Char} {rest : List Char}

/-- The place of a text does not matter. -/
theorem foldlM_scanFrom (offset offset' : Nat) (stack : List Bracket) (input : List Char) :
    (Lexeme.scanFrom offset input).dropLast.foldlM advance? stack =
      (Lexeme.scanFrom offset' input).dropLast.foldlM advance? stack := by
  fun_induction Lexeme.scanFrom offset input generalizing offset' stack with
  | case1 offset input gap start =>
    rename_i h
    rw [Lexeme.scanFrom_of_nil h]
    rfl
  | case2 offset input gap start c rest h s =>
    rename_i ih
    obtain ⟨start', next', hscan⟩ := Lexeme.scanFrom_of_cons h offset'
    rw [hscan, List.dropLast_cons_of_ne_nil (Lexeme.scanFrom_ne_nil _ _),
      List.dropLast_cons_of_ne_nil (Lexeme.scanFrom_ne_nil _ _), List.foldlM_cons,
      List.foldlM_cons]
    exact congrArg ((advance? stack ⟨s.value, [], s.text, 0⟩).bind ·)
      (funext fun next => ih _ next)

/-- The first lexeme of a text is the token behind its `comments`. -/
theorem contents_of_comments {text : List Char} (h : (Scan.comments text).2 = c :: rest) :
    ∃ l offset, l.token = (Scan.token c rest).value ∧ l.text = (Scan.token c rest).text ∧
      Lexeme.contents text =
        l :: (Lexeme.scanFrom offset (Scan.token c rest).rest).dropLast := by
  obtain ⟨start, next, hscan⟩ := Lexeme.scanFrom_of_cons h 0
  rw [Lexeme.contents, Lexeme.ofText, hscan]
  exact ⟨_, next, rfl, rfl, List.dropLast_cons_of_ne_nil (Lexeme.scanFrom_ne_nil _ _)⟩

theorem after_nil : after stack [] = some stack := by
  rw [after, Lexeme.contents_nil]
  rfl

/-- A text is read by `after` token by token. -/
theorem after_of_comments {text : List Char} (h : (Scan.comments text).2 = c :: rest) :
    after stack text =
      (step? stack (Scan.token c rest)).bind fun next => after next (Scan.token c rest).rest := by
  obtain ⟨⟨_, gap, _, start⟩, offset, rfl, rfl, hcontents⟩ := contents_of_comments h
  rw [after, hcontents, List.foldlM_cons]
  exact congrArg ((step? stack (Scan.token c rest)).bind ·)
    (funext fun next => foldlM_scanFrom offset 0 next _)

theorem after_cons (hc : c = '/' → rest.head? ≠ some '*') :
    after stack (c :: rest) =
      (step? stack (Scan.token c rest)).bind fun next => after next (Scan.token c rest).rest :=
  after_of_comments (by rw [Scan.comments_cons hc])

/-- A flat token leaves the open brackets that `after` counts as they are. -/
theorem after_flat (hstack : stack ≠ []) (hc : c = '/' → rest.head? ≠ some '*')
    (h : (Scan.token c rest).value.isFlat) :
    after stack (c :: rest) = after stack (Scan.token c rest).rest := by
  have hstep : step? stack (Scan.token c rest) = some stack := by
    refine advance?_flat hstack ?_ ?_ ?_
    all_goals
      revert h
      cases (Scan.token c rest).value <;>
        simp [Token.isFlat, Token.opens?, Token.closes?, Component.isTerminated]
  rw [after_cons hc, hstep, Option.bind_some]

/-- Blank characters can be passed by `after` one by one. -/
theorem after_space (hstack : stack ≠ []) (hc : Scan.isSpace c) :
    after stack (c :: rest) = after stack rest := by
  have hrun {c : Char} {rest : List Char} (hc : Scan.isSpace c) :
      after stack (c :: rest) = after stack (rest.dropWhile Scan.isSpace) := by
    have htoken : Scan.token c rest =
        ⟨.whitespace, c :: rest.takeWhile Scan.isSpace, rest.dropWhile Scan.isSpace⟩ := by
      rw [Scan.token, if_pos hc]
    have hslash : c = '/' → rest.head? ≠ some '*' := by
      rintro rfl
      exact absurd hc (by decide)
    rw [after_flat hstack hslash (by rw [htoken]; rfl), htoken]
  rw [hrun hc]
  cases rest with
  | nil => rfl
  | cons d rest =>
    cases hd : Scan.isSpace d with
    | false => rw [List.dropWhile_cons_of_neg (by simp [hd])]
    | true => rw [List.dropWhile_cons_of_pos hd, hrun hd]

/-- A comma, an asterisk or a slash that starts no comment leaves the open brackets as they are. -/
theorem after_separator (hstack : stack ≠ []) (h : c ∈ [',', '*', '/'])
    (hc : c = '/' → rest.head? ≠ some '*') : after stack (c :: rest) = after stack rest := by
  have htoken : Scan.token c rest = ⟨Scan.punctuation c, [c], rest⟩ :=
    Scan.token_of_separator (List.mem_append_left ['(', ')'] h) rest
  have hflat : (Scan.punctuation c).isFlat := by
    simp only [List.mem_cons, List.not_mem_nil, or_false] at h
    rcases h with rfl | rfl | rfl <;> rfl
  rw [after_flat hstack hc (by rw [htoken]; exact hflat), htoken]

theorem after_open (hstack : stack ≠ []) :
    after stack ('(' :: rest) = after (.paren :: stack) rest := by
  have hstep : step? stack (Scan.token '(' rest) = some (.paren :: stack) :=
    advance?_opens hstack rfl
  rw [after_cons fun h => absurd h (by decide), hstep]
  rfl

theorem after_close : after (.paren :: stack) (')' :: rest) = after stack rest := by
  have hstep : step? (.paren :: stack) (Scan.token ')' rest) = some stack :=
    advance?_closes rfl rfl
  rw [after_cons fun h => absurd h (by decide), hstep]
  rfl

end Bracket

/-- A text that starts with a function is one component value, as `IsComponentValue` says, when the
rest of the text closes its parenthesis and no more. -/
theorem isComponentValue_iff_after {c : Char} {rest : List Char} {name : String}
    (hc : c = '/' → rest.head? ≠ some '*') (h : (Scan.token c rest).value = .function name) :
    IsComponentValue (c :: rest) ↔
      Bracket.after [.paren] (Scan.token c rest).rest = some [] := by
  have hcomments : (Scan.comments (c :: rest)).2 = c :: rest := by rw [Scan.comments_cons hc]
  obtain ⟨l, offset, htoken, -, hcontents⟩ := Bracket.contents_of_comments hcomments
  rw [isComponentValue_iff, hcontents, Bracket.after, Lexeme.contents, Lexeme.ofText,
    Bracket.foldlM_scanFrom 0 offset]
  simp [Bracket.isValue, htoken, h]

end ThemeColor
