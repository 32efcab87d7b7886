import ThemeColor.Color.Component

/-!
# Blocks keep their lexemes

Matching the brackets of a list of lexemes drops none of them and keeps their order: the lexemes of
the components that come out are the lexemes that went in.
-/

namespace ThemeColor

/-- A mapped success comes from a success. -/
theorem exists_of_map_eq_ok {ε α β : Type} {x : Except ε α} {f : α → β} {b : β}
    (h : x.map f = .ok b) : ∃ a, x = .ok a ∧ f a = b := by
  cases x with
  | error e => cases h
  | ok a =>
    cases h
    exact ⟨a, rfl, rfl⟩

/-- Two steps succeed when both of them do. -/
theorem exists_of_bind_eq_ok {ε α β : Type} {x : Except ε α} {f : α → Except ε β} {b : β}
    (h : x >>= f = .ok b) : ∃ a, x = .ok a ∧ f a = .ok b := by
  cases x with
  | error e => cases h
  | ok a => exact ⟨a, rfl, h⟩

theorem map_eq_ok_iff {ε α β : Type} {x : Except ε α} {f : α → β} {b : β} :
    x.map f = .ok b ↔ ∃ a, x = .ok a ∧ f a = b := by
  refine ⟨exists_of_map_eq_ok, ?_⟩
  rintro ⟨a, rfl, rfl⟩
  rfl

theorem bind_eq_ok_iff {ε α β : Type} {x : Except ε α} {f : α → Except ε β} {b : β} :
    x >>= f = .ok b ↔ ∃ a, x = .ok a ∧ f a = .ok b := by
  refine ⟨exists_of_bind_eq_ok, ?_⟩
  rintro ⟨a, rfl, h⟩
  exact h

/-- A success with a property that was tested. -/
theorem exists_of_toOption_any {ε α : Type} {x : Except ε α} {p : α → Bool}
    (h : x.toOption.any p) : ∃ a, x = .ok a ∧ p a := by
  cases x with
  | error e => cases h
  | ok a => exact ⟨a, rfl, h⟩

namespace Component

@[simp]
theorem lexemesAll_append (a b : List Component) :
    lexemesAll (a ++ b) = lexemesAll a ++ lexemesAll b := by
  induction a with
  | nil => simp [lexemesAll]
  | cons c a ih => simp [lexemesAll, ih]

/-- The lexemes of an open block. -/
def Frame.lexemes (f : Frame) : List Lexeme := f.opener :: lexemesAll f.parts.reverse

/-- The lexemes of all open blocks, from the outermost one to the innermost one. -/
def openLexemes (top : Frame) (below : List Frame) : List Lexeme :=
  below.reverse.flatMap Frame.lexemes ++ top.lexemes

/-- A component that is read adds its lexemes to the innermost open block. -/
theorem openLexemes_push (top : Frame) (below : List Frame) (c : Component) :
    openLexemes { top with parts := c :: top.parts } below =
      openLexemes top below ++ c.lexemes := by
  simp [openLexemes, Frame.lexemes, lexemesAll]

/-- The components of a closed block are part of the block around it. -/
theorem openLexemes_close (top next : Frame) (below : List Frame) (l : Lexeme) :
    openLexemes { next with parts := .block top.opener top.parts.reverse l :: next.parts } below =
      openLexemes top (next :: below) ++ [l] := by
  rw [openLexemes_push]
  simp [openLexemes, Frame.lexemes, Component.lexemes]

/-- The block that is read consists of the lexemes of the open blocks and of the lexemes that were
read. -/
theorem lexemes_of_closeBlock {outer : Lexeme} {top : Frame} {below : List Frame}
    {input after : List Lexeme} {c : Component}
    (h : closeBlock outer top below input = .ok (c, after)) :
    ∃ used, input = used ++ after ∧ c.lexemes = openLexemes top below ++ used := by
  induction input generalizing top below with
  | nil => cases h
  | cons l rest ih =>
    rw [closeBlock] at h
    split at h
    · split at h
      · cases h
      · obtain ⟨used, rfl, hlexemes⟩ := ih h
        refine ⟨l :: used, rfl, ?_⟩
        rw [hlexemes]
        simp [openLexemes, Frame.lexemes, lexemesAll]
    · split at h
      · dsimp only at h
        split at h
        · cases h
          refine ⟨[l], rfl, ?_⟩
          simp [openLexemes, Frame.lexemes, Component.lexemes]
        · obtain ⟨used, rfl, hlexemes⟩ := ih h
          refine ⟨l :: used, rfl, ?_⟩
          -- A block inside another one is closed; its lexemes stay where they were.
          rw [hlexemes, openLexemes_close, List.append_assoc]
          rfl
      · cases h
    · split at h
      · obtain ⟨used, rfl, hlexemes⟩ := ih h
        refine ⟨l :: used, rfl, ?_⟩
        rw [hlexemes, openLexemes_push, List.append_assoc]
        rfl
      · cases h

theorem lexemes_of_readBlock {opener : Lexeme} {bracket : Bracket} {input after : List Lexeme}
    {c : Component} (h : readBlock opener bracket input = .ok (c, after)) :
    ∃ used, input = used ++ after ∧ c.lexemes = opener :: used := by
  obtain ⟨used, rfl, hlexemes⟩ := lexemes_of_closeBlock h
  exact ⟨used, rfl, hlexemes⟩

end Component

end ThemeColor
