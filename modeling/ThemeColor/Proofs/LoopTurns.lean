import ThemeColor.Proofs.ComponentRun
import ThemeColor.Proofs.Reading
import Mathlib.Logic.Function.Iterate

/-!
# The turns of the loops

The functions that read a style sheet end by their very definition, so that nothing can be said of
them about loops without end. Here they are taken apart into single turns. A `Machine` keeps the
loops that were entered on a stack, looks at the next lexeme in each turn, and passes over it or
leaves it. Such a machine could go on forever, and it would if some loop left a lexeme to another
loop that leaves it as well.

- `Machine.iterate_consumes`: no number of turns passes over the end of the text;
- `Reads.finishes`: the loops end after at most five turns for each lexeme that is passed over, and
  they leave the lexemes that the functions leave.
-/

namespace ThemeColor

theorem Token.isWhitespace_iff {t : Token} : t.isWhitespace ↔ t = .whitespace := by
  cases t <;> simp [Token.isWhitespace]

namespace Sheet

/-! ## Single turns -/

/-- A loop that was entered and did not end yet. -/
inductive Task where
  /-- Rules, outside of all blocks or inside of one. -/
  | rules (outermost : Bool)
  /-- An at-rule after its keyword. -/
  | atRule (name : String)
  /-- A style rule; `length` lexemes were left when it started. -/
  | styleRule (length : Nat)
  /-- Declarations. -/
  | declarations
  /-- Blank tokens. -/
  | blanks
  /-- The colon of a declaration. -/
  | colon
  /-- Component values up to the end of a declaration. -/
  | remnant
  /-- A component value. -/
  | component
  /-- A block inside of a component value, up to its closing bracket. -/
  | block (bracket : Bracket)
  /-- The closing brace of a block with rules or declarations. -/
  | closingBrace
  deriving Repr

/-- What the loop does when `l` is the next lexeme and `after` are those after it: the loops that
take its place, and the lexemes that are left. -/
def Task.turn (t : Task) (l : Lexeme) (after : List Lexeme) : List Task × List Lexeme :=
  match t with
  | .rules outermost =>
    if l.token = .eof ∨ (l.token = .closer .curly ∧ outermost = false) then ([], l :: after)
    else if l.token = .whitespace ∨
        (outermost = true ∧ (l.token = .markupOpen ∨ l.token = .markupClose)) then
      ([.rules outermost], after)
    else
      match l.token with
      | .atKeyword name => ([.atRule name, .rules outermost], after)
      -- The first lexeme is left to the style rule, even if it is a stray closing brace.
      | _ => ([.styleRule (after.length + 1), .rules outermost], l :: after)
  | .atRule name =>
    if l.token = .semicolon then ([], after)
    else if l.token = .opener .curly then
      ([if hasRules name then .rules false else .declarations, .closingBrace], after)
    else if l.token = .closer .curly ∨ l.token = .eof then ([], l :: after)
    else ([.component, .atRule name], l :: after)
  | .styleRule length =>
    if l.token = .opener .curly then ([.declarations, .closingBrace], after)
    -- Only in front of everything else is a closing brace passed over.
    else if l.token = .closer .curly ∧ after.length + 1 = length then ([], after)
    else if l.token = .closer .curly ∨ l.token = .eof then ([], l :: after)
    else ([.component, .styleRule length], l :: after)
  | .declarations =>
    match l.token with
    | .eof | .closer .curly => ([], l :: after)
    | .whitespace | .semicolon => ([.declarations], after)
    | .atKeyword name => ([.atRule name, .declarations], after)
    | .ident _ => ([.blanks, .colon, .declarations], after)
    | _ => ([.remnant, .declarations], l :: after)
  | .blanks => if l.token = .whitespace then ([.blanks], after) else ([], l :: after)
  | .colon => if l.token = .colon then ([.blanks, .remnant], after) else ([.remnant], l :: after)
  | .remnant =>
    if l.token = .semicolon ∨ l.token = .closer .curly ∨ l.token = .eof then ([], l :: after)
    else ([.component, .remnant], l :: after)
  | .component =>
    if l.token = .eof then ([], l :: after)
    else
      match l.token.opens? with
      | none => ([], after)
      | some bracket => ([.block bracket], after)
  | .block bracket =>
    if l.token = .closer bracket then ([], after)
    else if l.token = .eof then ([], l :: after)
    else ([.component, .block bracket], l :: after)
  | .closingBrace => if l.token = .closer .curly then ([], after) else ([], l :: after)

/-- The loops that did not end yet, the innermost first, and the lexemes that are left. -/
structure Machine where
  /-- The loops. -/
  tasks : List Task
  /-- The lexemes. -/
  pending : List Lexeme

/-- One turn of the innermost loop. Without lexemes every loop ends. -/
def Machine.turn : Machine → Machine
  | ⟨[], pending⟩ => ⟨[], pending⟩
  | ⟨_ :: outer, []⟩ => ⟨outer, []⟩
  | ⟨t :: outer, l :: after⟩ => ⟨(t.turn l after).1 ++ outer, (t.turn l after).2⟩

/-- A `turn` never passes over the end of the text. -/
theorem Task.turn_of_eof {l : Lexeme} (h : l.token = .eof) (t : Task) (after : List Lexeme) :
    (t.turn l after).2 = l :: after := by
  cases t <;> simp [Task.turn, h]

/-- A `turn` passes over its lexeme or leaves it. -/
theorem Task.turn_eq_or_eq (t : Task) (l : Lexeme) (after : List Lexeme) :
    (t.turn l after).2 = l :: after ∨ (t.turn l after).2 = after := by
  unfold Task.turn
  repeat' split
  all_goals simp

/-- A `turn` leaves its lexeme or passes over it, and never over the end of the text. -/
theorem Task.turn_consumes (t : Task) (l : Lexeme) (after : List Lexeme) :
    Consumes (l :: after) (t.turn l after).2 := by
  by_cases heof : l.token = .eof
  · rw [t.turn_of_eof heof]
    exact .refl _
  · rcases t.turn_eq_or_eq l after with h | h <;> rw [h]
    · exact .refl _
    · exact .cons heof (.refl _)

/-- A turn of the `Machine` is one of its first loop. -/
theorem Machine.turn_consumes (m : Machine) : Consumes m.pending m.turn.pending := by
  obtain ⟨tasks, pending⟩ := m
  cases tasks with
  | nil => exact .refl _
  | cons t outer =>
    cases pending with
    | nil => exact .refl _
    | cons l after => exact t.turn_consumes l after

/-- No number of turns of the `Machine` passes over the end of the text. -/
theorem Machine.iterate_consumes (turns : Nat) (m : Machine) :
    Consumes m.pending (Machine.turn^[turns] m).pending := by
  induction turns generalizing m with
  | zero => exact .refl _
  | succ turns ih =>
    rw [Function.iterate_succ_apply]
    exact m.turn_consumes.trans (ih _)

/-! ## Loops that end -/

/-- The loops end and leave `rest`. The turns this takes, and five turns for each lexeme that is
left, are within the budget. No fewer than five will do: for a bracket that opens a block at the end
of the text there is a turn of the rules, of the style rule, of the component value, of the block,
and again of the style rule. -/
def Finishes (tasks : List Task) (input : List Lexeme) (budget : Nat) (rest : List Lexeme) : Prop :=
  ∃ turns, (∀ outer, Machine.turn^[turns] ⟨tasks ++ outer, input⟩ = ⟨outer, rest⟩) ∧
    turns + 5 * rest.length ≤ budget

namespace Finishes

variable {tasks others : List Task} {t : Task} {l : Lexeme} {after input mid rest : List Lexeme}
  {budget extra : Nat}

/-- Loops that end within a budget end within a larger one: `Finishes` is monotone. -/
theorem mono (h : Finishes tasks input budget rest) {larger : Nat} (hle : budget ≤ larger) :
    Finishes tasks input larger rest := by
  obtain ⟨turns, hturns, hbudget⟩ := h
  exact ⟨turns, hturns, hbudget.trans hle⟩

/-- Without loops `Finishes` is immediate. -/
theorem done (input : List Lexeme) : Finishes [] input (5 * input.length) input :=
  ⟨0, fun _ => rfl, by omega⟩

/-- Without lexemes a loop `Finishes` at once. -/
theorem nil (t : Task) : Finishes [t] [] 1 [] := ⟨1, fun _ => rfl, by simp⟩

/-- A `turn` comes before the turns of the loops that take the place of a loop. -/
theorem turn (hturn : t.turn l after = (tasks, mid)) (h : Finishes tasks mid budget rest) :
    Finishes [t] (l :: after) (budget + 1) rest := by
  obtain ⟨turns, hturns, hbudget⟩ := h
  refine ⟨turns + 1, fun outer => ?_, by omega⟩
  rw [Function.iterate_succ_apply, ← hturns outer]
  simp only [List.singleton_append, Machine.turn, hturn]

/-- A `turn` and the turns after it are within five turns for each lexeme, and one more. -/
theorem within (hturn : t.turn l after = (tasks, mid)) (h : Finishes tasks mid budget rest)
    (hle : budget ≤ 5 * after.length + 5) :
    Finishes [t] (l :: after) (5 * (l :: after).length + 1) rest := by
  refine (turn hturn h).mono ?_
  simp only [List.length_cons]
  omega

/-- Loops that end one after another: their budgets add up in `Finishes`. -/
theorem append (h : Finishes tasks input budget mid)
    (hothers : Finishes others mid (5 * mid.length + extra) rest) :
    Finishes (tasks ++ others) input (budget + extra) rest := by
  obtain ⟨turns, hturns, hbudget⟩ := h
  obtain ⟨more, hmore, hextra⟩ := hothers
  refine ⟨more + turns, fun outer => ?_, by omega⟩
  rw [Function.iterate_add_apply, List.append_assoc, hturns, hmore]

/-- A loop that ends in front of its lexeme `Finishes` there. -/
theorem leave (hturn : t.turn l after = ([], l :: after)) :
    Finishes [t] (l :: after) (5 * (l :: after).length + 1) (l :: after) :=
  turn hturn (done _)

/-- A component value ends if the block in it does, `afterBlock` of it. -/
theorem component (hne : l.token ≠ .eof)
    (hblock : ∀ bracket, l.token.opens? = some bracket →
      Finishes [.block bracket] after (5 * after.length + 1) (afterBlock bracket after).1) :
    Finishes [.component] (l :: after) (5 * after.length + 2) (afterComponent l after).1 := by
  unfold afterComponent
  split
  · rename_i hopens
    exact (turn (by simp [Task.turn, hne, hopens]) (done after)).mono (by omega)
  · rename_i bracket hopens
    exact turn (by simp [Task.turn, hne, hopens]) (hblock bracket hopens)

/-- A loop that passes over a component value and goes on `Finishes` if the rest of it does. -/
theorem loop (hturn : t.turn l after = ([.component, t], l :: after))
    (hcomponent : Finishes [.component] (l :: after) (5 * after.length + 2) mid)
    (h : Finishes [t] mid (5 * mid.length + extra) rest) :
    Finishes [t] (l :: after) (5 * after.length + 3 + extra) rest :=
  (turn hturn (hcomponent.append h)).mono (by omega)

/-- The loop over a block ends behind it, `afterBlock`. -/
theorem block (bracket : Bracket) (input : List Lexeme) :
    Finishes [.block bracket] input (5 * input.length + 1) (afterBlock bracket input).1 := by
  fun_induction afterBlock bracket input with
  | case1 => exact nil _
  | case2 bracket l after hclose =>
    exact within (by simp [Task.turn, hclose]) (done after) (by omega)
  | case3 bracket l after hclose heof => exact leave (by simp [Task.turn, heof])
  | case4 bracket l after hclose heof hopens rest ih =>
    have hcomponent : Finishes [.component] (l :: after) (5 * after.length + 2) after := by
      simpa [afterComponent, hopens] using component (l := l) heof (by simp [hopens])
    exact (loop (by simp [Task.turn, hclose, heof]) hcomponent ih).mono
      (by simp only [List.length_cons]; omega)
  | case5 bracket l after hclose heof inner hopens inside rest ihinside ihrest =>
    have hcomponent : Finishes [.component] (l :: after) (5 * after.length + 2) inside.1 := by
      have hblock := component (l := l) heof (by simpa [hopens] using ihinside)
      simpa [afterComponent, hopens] using hblock
    exact (loop (by simp [Task.turn, hclose, heof]) hcomponent ihrest).mono
      (by simp only [List.length_cons]; omega)

/-! ### Up to a token that ends the loop -/

section Skip

variable {stop : Token → Bool}

/-- A loop over component values goes on after each that `stop` does not end. -/
theorem goOn (hstop : stop .eof) (hl : stop l.token = false)
    (hturn : t.turn l after = ([.component, t], l :: after))
    (h : Finishes [t] (afterComponent l after).1
      (5 * (afterComponent l after).1.length + extra) rest) :
    Finishes [t] (l :: after) (5 * after.length + 3 + extra) rest := by
  have hne : l.token ≠ .eof := by
    intro heof
    rw [heof, hstop] at hl
    cases hl
  exact loop hturn (component hne fun bracket _ => block bracket after) h

/-- A loop over component values ends if it does so in front of a token that satisfies `stop`. -/
theorem skip (hstop : stop .eof)
    (hturn : ∀ l after, stop l.token = false → t.turn l after = ([.component, t], l :: after))
    (h : Finishes [t] (Sheet.skip stop input).1
      (5 * (Sheet.skip stop input).1.length + extra) rest) :
    Finishes [t] input (5 * input.length + extra) rest := by
  unfold Sheet.skip at h
  fun_induction pieces stop input with
  | case1 => exact h
  | case2 => exact h
  | case3 l after hl inside more last heq ih =>
    rw [heq] at ih
    have hgoesOn : stop l.token = false := by simpa using hl
    exact (goOn hstop hgoesOn (hturn l after hgoesOn) (ih h)).mono
      (by simp only [List.length_cons]; omega)

/-- The loop of `Sheet.skip` has turns to spare if it passes over a component value at all. -/
theorem skip_cons (hstop : stop .eof)
    (hturn : ∀ l after, stop l.token = false → t.turn l after = ([.component, t], l :: after))
    (hl : stop l.token = false)
    (h : Finishes [t] (Sheet.skip stop (l :: after)).1
      (5 * (Sheet.skip stop (l :: after)).1.length + extra) rest) :
    Finishes [t] (l :: after) (5 * after.length + 3 + extra) rest := by
  rw [Sheet.skip, (pieces_cons hl after).2] at h
  exact goOn hstop hl (hturn l after hl) (skip hstop hturn h)

end Skip

end Finishes

/-- The loop `skip` leaves a token that stops it. -/
theorem skip_of_stop {stop : Token → Bool} {l : Lexeme} (h : stop l.token) (after : List Lexeme) :
    (skip stop (l :: after)).1 = l :: after := by
  rw [skip, pieces, if_pos h]

/-- A loop over component values ends in front of a token that satisfies `stop`. -/
theorem skip_stops {stop : Token → Bool} {input after : List Lexeme} {l : Lexeme}
    (h : (skip stop input).1 = l :: after) : stop l.token := by
  unfold skip at h
  fun_induction pieces stop input with
  | case1 => cases h
  | case2 l' after' hl =>
    cases h
    exact hl
  | case3 l' after' hl inside more last heq ih =>
    rw [heq] at ih
    exact ih h

/-- The tokens of `endsDeclaration`. -/
theorem endsDeclaration_iff {t : Token} :
    endsDeclaration t ↔ t = .semicolon ∨ t = .closer .curly ∨ t = .eof := by
  unfold endsDeclaration
  split <;> simp_all

/-- The tokens of `endsAtPrelude`. -/
theorem endsAtPrelude_iff {t : Token} :
    endsAtPrelude t ↔
      t = .semicolon ∨ t = .opener .curly ∨ t = .closer .curly ∨ t = .eof := by
  unfold endsAtPrelude
  split <;> simp_all

/-- The tokens of `endsStylePrelude`. -/
theorem endsStylePrelude_iff {t : Token} :
    endsStylePrelude t ↔ t = .opener .curly ∨ t = .closer .curly ∨ t = .eof := by
  unfold endsStylePrelude
  split <;> simp_all

/-- The only token that starts a style rule and ends its prelude (`endsStylePrelude`) is the opening
brace. -/
theorem StartsStyleRule.endsStylePrelude_eq_false {outermost : Bool} {t : Token}
    (ht : StartsStyleRule outermost t) (hopener : t ≠ .opener .curly) :
    endsStylePrelude t = false := by
  rw [← Bool.not_eq_true, endsStylePrelude_iff]
  rintro (h | h | h)
  · exact hopener h
  · cases outermost with
    | false => exact ht.goesOn (.inr ⟨h, rfl⟩)
    | true => exact ht.belongs (.inr ⟨rfl, .inl h⟩)
  · exact ht.goesOn (.inl h)

/-- The `remnant` of a declaration goes on over each component value. -/
theorem Task.turn_remnant {l : Lexeme} (after : List Lexeme) (h : endsDeclaration l.token = false) :
    Task.remnant.turn l after = ([.component, .remnant], l :: after) := by
  rw [Task.turn, if_neg]
  rw [← endsDeclaration_iff, h]
  simp

/-- The loop over `rules` starts a style rule in front of such a token. -/
theorem Task.turn_rules {outermost : Bool} {l : Lexeme} (after : List Lexeme)
    (hl : StartsStyleRule outermost l.token) :
    (Task.rules outermost).turn l after =
      ([.styleRule (after.length + 1), .rules outermost], l :: after) := by
  obtain ⟨hgoesOn, hbelongs, hplain⟩ := hl
  rw [EndsRules] at hgoesOn
  rw [Task.turn, if_neg hgoesOn, if_neg]
  · split
    · rename_i name hl
      exact absurd hl (hplain name)
    · rfl
  · rintro (h | ⟨houtermost, h⟩)
    · exact hbelongs (.inl h)
    · exact hbelongs (.inr ⟨houtermost, .inr h⟩)

/-- The loop over `declarations` starts the loop over a remnant in front of a token that
`StartsNoDeclaration`. -/
theorem Task.turn_declarations {l : Lexeme} (after : List Lexeme)
    (h : StartsNoDeclaration l.token) :
    Task.declarations.turn l after = ([.remnant, .declarations], l :: after) := by
  obtain ⟨⟨heof, hcloser⟩, ⟨hblank, hsemicolon⟩, hnameless⟩ := h
  simp only [Task.turn]
  split
  · exact absurd ‹_› heof
  · exact absurd ‹_› hcloser
  · exact absurd ‹_› hblank
  · exact absurd ‹_› hsemicolon
  · exact absurd ‹_› (hnameless _).1
  · exact absurd ‹_› (hnameless _).2
  · rfl

/-- An `atRule` goes on over each component value of its prelude. -/
theorem Task.turn_atRule {name : String} {l : Lexeme} (after : List Lexeme)
    (h : endsAtPrelude l.token = false) :
    (Task.atRule name).turn l after = ([.component, .atRule name], l :: after) := by
  have hnot : ¬ endsAtPrelude l.token := by simp [h]
  rw [endsAtPrelude_iff] at hnot
  simp only [not_or] at hnot
  simp [Task.turn, hnot]

/-- A `styleRule` goes on over each component value of its prelude. -/
theorem Task.turn_styleRule {length : Nat} {l : Lexeme} (after : List Lexeme)
    (h : endsStylePrelude l.token = false) :
    (Task.styleRule length).turn l after = ([.component, .styleRule length], l :: after) := by
  have hnot : ¬ endsStylePrelude l.token := by simp [h]
  rw [endsStylePrelude_iff] at hnot
  simp only [not_or] at hnot
  simp [Task.turn, hnot]

namespace Finishes

/-! ### Declarations -/

/-- The loop over blanks ends where `afterBlanks` says. -/
theorem blanks (input : List Lexeme) :
    Finishes [.blanks] input (5 * input.length + 1) (afterBlanks input).1 := by
  induction input with
  | nil => exact nil _
  | cons l after ih =>
    simp only [afterBlanks, List.dropWhile_cons] at ih ⊢
    split
    · rename_i hl
      rw [Token.isWhitespace_iff] at hl
      exact within (by simp [Task.turn, hl]) ih (by omega)
    · rename_i hl
      rw [Token.isWhitespace_iff] at hl
      exact leave (by simp [Task.turn, hl])

/-- The loop over the rest of a declaration ends where `Sheet.skip` stops at `endsDeclaration`. -/
theorem remnant (input : List Lexeme) :
    Finishes [.remnant] input (5 * input.length + 1) (Sheet.skip endsDeclaration input).1 := by
  refine skip rfl (fun _ => Task.turn_remnant) ?_
  cases h : (Sheet.skip endsDeclaration input).1 with
  | nil => exact nil _
  | cons l after => exact leave (by rw [Task.turn, if_pos (endsDeclaration_iff.mp (skip_stops h))])

/-- Blanks, a colon and a value, or whatever else stands behind the name of a `Sheet.declaration`.
-/
theorem declaration (name : String) (input : List Lexeme) :
    Finishes [.blanks, .colon] input (5 * input.length + 3)
      (Sheet.declaration name input).2.1 := by
  have hcolon : Finishes [.colon] (afterBlanks input).1 (5 * (afterBlanks input).1.length + 2)
      (Sheet.declaration name input).2.1 := by
    unfold Sheet.declaration
    dsimp only
    split
    · rename_i h
      rw [h]
      exact (nil _).mono (by simp)
    · rename_i l after h
      simp only [h]
      split
      · rename_i hl
        have hvalue := append (blanks after) (remnant (afterBlanks after).1)
        exact (within (by simp [Task.turn, hl]) hvalue (by omega)).mono (by omega)
      · rename_i hl
        exact turn (by simp [Task.turn, hl]) (remnant _)
  exact append (blanks input) hcolon

/-- What starts no declaration is passed over by the same loop, up to `afterNonDeclaration`. -/
theorem nonDeclaration (hl : StartsNoDeclaration l.token) :
    Finishes [.remnant] (l :: after) (5 * after.length + 4) (afterNonDeclaration l after).1 := by
  have hgoesOn : endsDeclaration l.token = false := by
    rw [← Bool.not_eq_true, endsDeclaration_iff]
    rintro (h | h | h)
    · exact hl.belongs.2 h
    · exact hl.goesOn.2 h
    · exact hl.goesOn.1 h
  exact goOn rfl hgoesOn (Task.turn_remnant after hgoesOn) (remnant _)

/-! ### Rules -/

/-- The turn at a closing brace ends where `afterBrace` says. -/
theorem closingBrace (input : List Lexeme) :
    Finishes [.closingBrace] input (5 * input.length + 1) (afterBrace input).1 := by
  unfold afterBrace
  split
  · exact nil _
  · rename_i l after
    split
    · rename_i hl
      exact within (by simp [Task.turn, hl]) (done after) (by omega)
    · rename_i hl
      exact leave (by simp [Task.turn, hl])

/-- The rules leave the token that ends them, of which `EndsRules` holds. -/
theorem endRules {outermost : Bool} (hl : EndsRules outermost l.token) :
    Finishes [.rules outermost] (l :: after) (5 * (l :: after).length + 1) (l :: after) := by
  rw [EndsRules] at hl
  exact leave (by rw [Task.turn, if_pos hl])

/-- The rules leave a stray closing brace to a style rule, which passes over it. -/
theorem strayBrace (hl : l.token = .closer .curly)
    (h : Finishes [.rules true] after (5 * after.length + 1) rest) :
    Finishes [.rules true] (l :: after) (5 * (l :: after).length + 1) rest := by
  have hstyle : Finishes [.styleRule (after.length + 1)] (l :: after) (5 * after.length + 1)
      after :=
    turn (by simp [Task.turn, hl]) (done _)
  exact within (by simp [Task.turn, hl]) (append hstyle h) (by omega)

/-- An at-rule passes over its prelude, which `Sheet.skip` ends. -/
theorem atPrelude {name : String} (hprelude : (Sheet.skip endsAtPrelude input).1 = mid)
    (h : Finishes [.atRule name] mid (5 * mid.length + 1) rest) :
    Finishes [.atRule name] input (5 * input.length + 1) rest := by
  rw [← hprelude] at h
  exact skip rfl (fun _ => Task.turn_atRule) h

/-- A style rule that turns out to be none leaves the token that ends it, `endsStylePrelude`, to the
rules. -/
theorem noRule {outermost : Bool} (hl : StartsStyleRule outermost l.token)
    (hprelude : (Sheet.skip endsStylePrelude (l :: after)).1 = mid)
    (hmid : ∀ brace ∈ mid.head?, brace.token ≠ .opener .curly)
    (h : Finishes [.rules outermost] mid (5 * mid.length + 1) rest) :
    Finishes [.rules outermost] (l :: after) (5 * (l :: after).length + 1) rest := by
  have hopener : l.token ≠ .opener .curly := by
    intro hl
    rw [skip_of_stop (by rw [hl]; rfl)] at hprelude
    exact hmid l (by simp [← hprelude]) hl
  have hgoesOn := hl.endsStylePrelude_eq_false hopener
  -- At least one component value is passed over, so a closing brace is not taken for a stray one.
  have hlength : mid.length ≤ after.length := by
    rw [← hprelude, Sheet.skip, (pieces_cons hgoesOn after).2]
    exact (pieces endsStylePrelude _).2.2.trans (afterComponent l after).2
  have hleaves : Finishes [.styleRule (after.length + 1)] mid (5 * mid.length + 1) mid := by
    cases mid with
    | nil => exact nil _
    | cons brace inside =>
      have hbrace := hmid brace rfl
      have hstop := endsStylePrelude_iff.mp (skip_stops hprelude)
      have hnot : inside.length ≠ after.length := by
        rw [List.length_cons] at hlength
        omega
      exact leave (by simp_all [Task.turn])
  rw [← hprelude] at hleaves
  have hstyle := skip_cons rfl (fun _ => Task.turn_styleRule) hgoesOn hleaves
  rw [hprelude] at hstyle
  exact within (Task.turn_rules after hl) (append hstyle h) (by omega)

/-- A style rule with its block. -/
theorem styleRule {outermost : Bool} {brace : Lexeme} {inside : List Lexeme}
    (hl : StartsStyleRule outermost l.token)
    (hprelude : (Sheet.skip endsStylePrelude (l :: after)).1 = brace :: inside)
    (hbrace : brace.token = .opener .curly)
    (hinner : Finishes [.declarations] inside (5 * inside.length + 1) mid)
    (h : Finishes [.rules outermost] (afterBrace mid).1 (5 * (afterBrace mid).1.length + 1) rest) :
    Finishes [.rules outermost] (l :: after) (5 * (l :: after).length + 1) rest := by
  have hblock : Finishes [.styleRule (after.length + 1)] (brace :: inside)
      (5 * inside.length + 3) (afterBrace mid).1 := by
    have hinside := append hinner (closingBrace mid)
    exact turn (by simp [Task.turn, hbrace]) hinside
  have hstyle : Finishes [.styleRule (after.length + 1)] (l :: after) (5 * after.length + 4)
      (afterBrace mid).1 := by
    by_cases hopener : l.token = .opener .curly
    · rw [skip_of_stop (by rw [hopener]; rfl)] at hprelude
      cases hprelude
      exact hblock.mono (by omega)
    · have hgoesOn := hl.endsStylePrelude_eq_false hopener
      have hloose := hblock.mono (show _ ≤ 5 * (brace :: inside).length + 1 by
        rw [List.length_cons]
        omega)
      rw [← hprelude] at hloose
      exact skip_cons rfl (fun _ => Task.turn_styleRule) hgoesOn hloose
  exact within (Task.turn_rules after hl) (append hstyle h) (by omega)

end Finishes

/-- The loop that reads something. -/
def Reading.task : Reading → Task
  | .atRule name _ _ => .atRule name
  | .rules outermost _ => .rules outermost
  | .declarations _ => .declarations

open Finishes hiding skip declaration in
/-- Whatever one `Reads`, its loop `Finishes`. -/
theorem Reads.finishes {r : Reading} {input rest : List Lexeme} (h : Reads r input rest) :
    Finishes [r.task] input (5 * input.length + 1) rest := by
  induction h with
  | atEnd hprelude => exact atPrelude hprelude (nil _)
  | atSemicolon hprelude hl =>
    refine atPrelude hprelude ?_
    exact within (by simp [Task.turn, hl]) (done _) (by omega)
  | atGroup hprelude hl hname _ ih | atPage hprelude hl hname _ ih =>
    refine atPrelude hprelude ?_
    have hblock := append ih (closingBrace _)
    exact within (by simp [Task.turn, hl, hname, Reading.task]) hblock (by omega)
  | atOther hprelude hsemicolon hbrace =>
    have hstop := endsAtPrelude_iff.mp (skip_stops hprelude)
    exact atPrelude hprelude (leave (by simp_all [Task.turn]))
  | noRules | noDeclarations => exact nil _
  | endRules hl => exact Finishes.endRules hl
  | endDeclarations hl =>
    exact leave (by rcases hl with hl | hl <;> simp [Reading.task, Task.turn, hl])
  | betweenRules hl _ ih =>
    rcases hl with hl | ⟨rfl, hl | hl⟩
    -- Only the closing brace is not passed over in the turn that sees it.
    · exact within (by simp [Reading.task, Task.turn, hl]) ih (by omega)
    · exact strayBrace hl ih
    · refine within ?_ ih (by omega)
      rcases hl with hl | hl <;> simp [Reading.task, Task.turn, hl]
  | ruleAt hl _ _ ihrule ihmore | declarationAt hl _ _ ihrule ihmore =>
    have hboth := append ihrule ihmore
    exact within (by simp [Reading.task, Task.turn, hl]) hboth (by omega)
  | ruleCutOff hl hprelude => exact noRule hl hprelude (by simp) (nil _)
  | ruleStyle hl hprelude hbrace _ _ ihinner ihmore =>
    exact styleRule hl hprelude hbrace ihinner ihmore
  | ruleStray hl hprelude hbrace _ ih =>
    -- The brace is no stray one for the style rule that it ends, but for the next one it is.
    exact noRule hl hprelude (by simp [hbrace]) (strayBrace hbrace ih)
  | ruleLost hl hprelude hopener hcloser =>
    refine noRule hl hprelude (by simpa using hopener) (Finishes.endRules ?_)
    rcases endsStylePrelude_iff.mp (skip_stops hprelude) with h | h | h
    · exact absurd h hopener
    · exact .inr ⟨h, by simpa [h] using hcloser⟩
    · exact .inl h
  | betweenDeclarations hl _ ih =>
    refine within ?_ ih (by omega)
    rcases hl with hl | hl <;> simp [Reading.task, Task.turn, hl]
  | declarationNamed hl _ ih =>
    have hnamed := append (Finishes.declaration _ _) ih
    exact within (by simp [Reading.task, Task.turn, hl]) hnamed (by omega)
  | declarationLost hl _ ih =>
    have hlost := append (nonDeclaration hl) ih
    exact within (Task.turn_declarations _ hl) hlost (by omega)

end Sheet

end ThemeColor
