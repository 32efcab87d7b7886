import ThemeColor.Proofs.LoopTurns
import ThemeColor.Sheet.Reader

/-!
# Progress

A reader of any lexemes gets to the end of each call, also if lexemes are missing or if the end of
the text stands among them several times. It never goes back and never passes over the end of the
text. Rules are read up to the end of the text, and then there is nothing left to read.

- `Reader.run_advances`: what holds of one call holds of any number of calls;
- `Reader.run_of_atEof`: at the end of the text nothing is read;
- `Reader.call_progress`: each call of a run ends, and where it does.
-/

namespace ThemeColor

theorem Token.isEof_iff {t : Token} : t.isEof ↔ t = .eof := by
  cases t <;> simp [Token.isEof]

namespace Sheet

/-! ## The end of the text -/

/-- The number of lexemes in front of the first end of the text, or of all lexemes without one. -/
def beforeEof (input : List Lexeme) : Nat := input.findIdx (·.token.isEof)

/-- Nothing is left in front of the end of the text. -/
def AtEof (input : List Lexeme) : Prop := ∀ l ∈ input.head?, l.token = .eof

variable {input rest : List Lexeme}

/-- What `Consumes` leaves is no longer than the input. -/
theorem Consumes.length_le (h : Consumes input rest) : rest.length ≤ input.length := by
  obtain ⟨passed, rfl, -⟩ := h
  simp

/-- What `Consumes` passes over stands in front of the first end of the text. -/
theorem Consumes.length_add_beforeEof (h : Consumes input rest) :
    input.length + beforeEof rest = rest.length + beforeEof input := by
  obtain ⟨passed, rfl, hpassed⟩ := h
  have hnone : passed.findIdx (·.token.isEof) = passed.length := by
    refine List.findIdx_eq_length_of_false fun l hl => ?_
    rw [← Bool.not_eq_true, Token.isEof_iff]
    exact hpassed l hl
  simp only [beforeEof, List.findIdx_append, hnone, List.length_append]
  simp
  omega

theorem AtEof.beforeEof_eq_zero (h : AtEof input) : beforeEof input = 0 := by
  cases input with
  | nil => rfl
  | cons l after => simp [beforeEof, List.findIdx_cons, h l rfl, Token.isEof]

/-- Outside of all blocks, the rules that one `Reads` end only at the end of the text. -/
theorem Reads.atEof {rs : List Rule} (h : Reads (.rules true rs) input rest) : AtEof rest := by
  generalize hr : Reading.rules true rs = r at h
  induction h generalizing rs with
  | noRules | ruleCutOff => simp [AtEof]
  | endRules hl =>
    cases hr
    rcases hl with hl | ⟨-, hl⟩
    · simpa [AtEof] using hl
    · cases hl
  | betweenRules _ _ ih | ruleAt _ _ _ _ ih | ruleStyle _ _ _ _ _ _ ih | ruleStray _ _ _ _ ih =>
    cases hr
    exact ih rfl
  | ruleLost _ hprelude hopener hcloser =>
    cases hr
    -- The prelude ends at a brace or at the end of the text, and both braces are taken care of.
    have hstop := endsStylePrelude_iff.mp (skip_stops hprelude)
    simp_all [AtEof]
  | _ => cases hr

/-- At the end of the text `rules` finds nothing. -/
theorem rules_of_atEof (h : AtEof input) : rules true input = ([], .all input) := by
  cases input with
  | nil => rw [rules]
  | cons l after => simp [rules, h l rfl]

/-- At the end of the text `declarations` finds nothing. -/
theorem declarations_of_atEof (h : AtEof input) : declarations input = ([], .all input) := by
  cases input with
  | nil => rw [declarations]
  | cons l after =>
    rw [declarations]
    simp [h l rfl]

/-! ## Calls -/

namespace Call

/-- The loop that a call enters. -/
def task : Call → Task
  | .rules => .rules true
  | .declarations => .declarations

/-- What a call returns if it reads nothing. -/
def nothing : Call → Found
  | .rules => .rules []
  | .declarations => .declarations []

/-- The lexemes that a call leaves. -/
def left (c : Call) (input : List Lexeme) : List Lexeme :=
  match c with
  | .rules => (Sheet.rules true input).2.1
  | .declarations => (Sheet.declarations input).2.1

/-- The loops of a `Call` end. -/
theorem finishes (c : Call) (input : List Lexeme) :
    Finishes [c.task] input (5 * input.length + 1) (c.left input) := by
  cases c with
  | rules => exact (reads_rules true input).finishes
  | declarations => exact (reads_declarations input).finishes

/-- A `Call` never passes over the end of the text. -/
theorem consumes (c : Call) (input : List Lexeme) : Consumes input (c.left input) := by
  cases c with
  | rules => exact (reads_rules true input).consumes
  | declarations => exact (reads_declarations input).consumes

end Call

namespace Reader

/-- The position of the first end of the text at or after the position of the reader, or the
position after all lexemes without one. -/
def eofPosition (r : Reader) : Nat := r.position + beforeEof r.pending

/-- The reader `next` is `r` or what becomes of it: the lexemes are the same, and it has gone on
without passing over the end of the text. -/
structure Advances (r next : Reader) : Prop where
  /-- The lexemes stay as they are. -/
  lexemes_eq : next.lexemes = r.lexemes
  /-- The reader does not go back. -/
  le_position : r.position ≤ next.position
  /-- The lexemes in between are passed over. -/
  consumes : Consumes r.pending next.pending

theorem Advances.refl (r : Reader) : r.Advances r := ⟨rfl, le_rfl, .refl _⟩

/-- Readers that advance go on advancing: `Advances` is transitive. -/
theorem Advances.trans {r s t : Reader} (hrs : r.Advances s) (hst : s.Advances t) :
    r.Advances t :=
  ⟨hst.lexemes_eq.trans hrs.lexemes_eq, hrs.le_position.trans hst.le_position,
    hrs.consumes.trans hst.consumes⟩

/-- The `position` and what is pending make up the lexemes. -/
theorem position_add_length (r : Reader) : r.position + r.pending.length = r.lexemes.length := by
  have := r.position_le
  simp only [pending, List.length_drop]
  omega

/-- A reader that `Advances` has the same end of the text in front of it. -/
theorem Advances.eofPosition_eq {r next : Reader} (h : r.Advances next) :
    next.eofPosition = r.eofPosition := by
  have hbefore := h.consumes.length_add_beforeEof
  have hr := r.position_add_length
  have hnext := next.position_add_length
  rw [h.lexemes_eq] at hnext
  unfold eofPosition
  omega

/-- Moving with `moveTo` leaves what it was moved to. -/
theorem pending_moveTo {r : Reader} {rest : List Lexeme} (h : Consumes r.pending rest) :
    (r.moveTo rest).pending = rest := by
  obtain ⟨passed, hpassed, -⟩ := h
  have hlexemes : (r.lexemes.take r.position ++ passed) ++ rest = r.lexemes := by
    rw [List.append_assoc, ← hpassed, pending, List.take_append_drop]
  show r.lexemes.drop (r.lexemes.length - rest.length) = rest
  rw [← hlexemes, List.length_append, Nat.add_sub_cancel, List.drop_left]

/-- Moving with `moveTo` to what was left advances. -/
theorem advances_moveTo {r : Reader} {rest : List Lexeme} (h : Consumes r.pending rest) :
    r.Advances (r.moveTo rest) := by
  refine ⟨rfl, ?_, ?_⟩
  · have hnext := (r.moveTo rest).position_add_length
    have hr := r.position_add_length
    have hlength := h.length_le
    rw [pending_moveTo h] at hnext
    change _ = r.lexemes.length at hnext
    omega
  · rwa [pending_moveTo h]

theorem call_snd (r : Reader) (c : Call) : (r.call c).2 = r.moveTo (c.left r.pending) := by
  cases c <;> rfl

/-- A `call` advances. -/
theorem call_advances (r : Reader) (c : Call) : r.Advances (r.call c).2 := by
  rw [call_snd]
  exact advances_moveTo (c.consumes _)

/-- Any number of calls that `run` makes advances. -/
theorem run_advances (r : Reader) (calls : List Call) : r.Advances (r.run calls).2 := by
  induction calls generalizing r with
  | nil => exact .refl r
  | cons c calls ih => exact (r.call_advances c).trans (ih _)

theorem moveTo_pending (r : Reader) : r.moveTo r.pending = r := by
  have hr := r.position_add_length
  have hposition : r.lexemes.length - r.pending.length = r.position := by omega
  simp only [moveTo, hposition]

/-- At the end of the text a `call` reads nothing and changes nothing. -/
theorem call_of_atEof {r : Reader} (h : AtEof r.pending) (c : Call) :
    r.call c = (c.nothing, r) := by
  cases c with
  | rules => simp [call, rules_of_atEof h, moveTo_pending, Call.nothing]
  | declarations => simp [call, declarations_of_atEof h, moveTo_pending, Call.nothing]

/-- At the end of the text no calls that `run` makes read anything or change anything. -/
theorem run_of_atEof {r : Reader} (h : AtEof r.pending) (calls : List Call) :
    r.run calls = (calls.map Call.nothing, r) := by
  induction calls with
  | nil => rfl
  | cons c calls ih => simp [run, call_of_atEof h, ih]

/-- **Reading makes progress.** Among any calls for any lexemes, each call ends: the loops it enters
take at most five turns for each lexeme that is passed over, and one more, and they pass over
nothing but lexemes in front of the first end of the text. The position never decreases, and never
gets past the first end of the text at or after it. A call for rules stops exactly there, or behind
all lexemes if there is no such end, and then all later calls read nothing and leave the reader as
it is. -/
theorem call_progress (lexemes : List Lexeme) (earlier : List Call) (c : Call)
    (later : List Call) :
    let r := ((ofLexemes lexemes).run earlier).2
    let next := (r.call c).2
    (∃ turns ≤ 5 * (next.position - r.position) + 1,
      Machine.turn^[turns] ⟨[c.task], r.pending⟩ = ⟨[], next.pending⟩) ∧
    (∀ turns, Consumes r.pending (Machine.turn^[turns] ⟨[c.task], r.pending⟩).pending) ∧
    next.lexemes = lexemes ∧ r.position ≤ next.position ∧ next.position ≤ r.eofPosition ∧
    (c = .rules →
      next.position = r.eofPosition ∧ next.run later = (later.map Call.nothing, next)) := by
  intro r next
  have hnext : next.pending = c.left r.pending := by
    rw [← pending_moveTo (c.consumes r.pending), ← call_snd]
  have hadvances : r.Advances next := r.call_advances c
  have hr : r.lexemes = lexemes := ((ofLexemes lexemes).run_advances earlier).lexemes_eq
  have heof := hadvances.eofPosition_eq
  refine ⟨?_, fun turns => Machine.iterate_consumes turns ⟨[c.task], r.pending⟩,
    hadvances.lexemes_eq.trans hr, hadvances.le_position, ?_, ?_⟩
  · obtain ⟨turns, hturns, hbudget⟩ := c.finishes r.pending
    rw [← hnext] at hturns hbudget
    have hposition := r.position_add_length
    have hlater := next.position_add_length
    rw [hadvances.lexemes_eq] at hlater
    exact ⟨turns, by omega, hturns []⟩
  · rw [← heof]
    exact Nat.le_add_right _ _
  · rintro rfl
    have hatEof : AtEof next.pending := by
      rw [hnext]
      exact (reads_rules true r.pending).atEof
    refine ⟨?_, run_of_atEof hatEof later⟩
    rw [← heof, eofPosition, hatEof.beforeEof_eq_zero]
    rfl

end Reader

end Sheet

end ThemeColor
