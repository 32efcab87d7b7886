import ThemeColor.Color.Resolver
import ThemeColor.Proofs.Outcome

/-!
# The warnings of a resolver

A resolver keeps its warnings over many requests, and some of the colors that it is asked for cannot
be resolved. No warning gets lost on the way, none comes twice, and they stay in order. Resolving a
color adds the warnings of `Color.fallbacks`, or the first few of them if it fails halfway, and the
warnings that are handed over, one list after the other, with those that are left at the end, are
all that was ever recorded.

## Main definitions

* `Request.Records`: the warnings that a request adds, as far as its answer tells;
* `Recorded`: the warnings that a sequence of requests adds.
-/

namespace ThemeColor

variable {α : Type}

/-- The warnings that an answer hands over. -/
def Answer.taken : Answer α → List Warning
  | .resolved _ => []
  | .warnings taken => taken

/-- A request with this answer adds the warnings `added` to the record. -/
def Request.Records : Request α → Answer α → (added : List Warning) → Prop
  | .resolve color, .resolved (.ok _), added => added = color.fallbacks
  | .resolve color, .resolved (.error _), added => added <+: color.fallbacks
  | .takeWarnings, .warnings _, added => added = []
  | .resolve _, .warnings _, _ | .takeWarnings, .resolved _, _ => False

/-- Requests with these answers, one for each, add the warnings `recorded` to the record. -/
inductive Recorded : List (Request α) → List (Answer α) → (recorded : List Warning) → Prop
  | nil : Recorded [] [] []
  | cons {request : Request α} {answer : Answer α} {added : List Warning}
      {requests : List (Request α)} {answers : List (Answer α)} {recorded : List Warning}
      (h : request.Records answer added) (hrest : Recorded requests answers recorded) :
      Recorded (request :: requests) (answer :: answers) (added ++ recorded)

namespace Palette

variable [Scalar α] {p : Palette α}

/-- Resolving a color only adds to the record, and what it adds is known from the color. -/
theorem resolve_records (color : Color α) (before : List Warning) :
    ∃ outcome added, (p.resolve color).run.run before = (outcome, before ++ added) ∧
      (Request.resolve color).Records (.resolved outcome) added := by
  obtain ⟨outcome, added, hrun, hforeseen⟩ := resolveAt_foreseen (p := p) color 0 before
  refine ⟨outcome, added, hrun, ?_⟩
  cases outcome with
  | ok r => exact hforeseen.2.2
  | error e => exact hforeseen.2

/-- One request. What it hands over and what it leaves are the record from before and what the
request adds to it. -/
theorem answer_records (request : Request α) (before : List Warning) :
    ∃ answer added left, (p.answer request).run before = (answer, left) ∧
      request.Records answer added ∧ answer.taken ++ left = before ++ added := by
  cases request with
  | resolve color =>
    obtain ⟨outcome, added, hrun, hrecords⟩ := resolve_records (p := p) color before
    refine ⟨.resolved outcome, added, before ++ added, ?_, hrecords, rfl⟩
    show (Answer.resolved <$> (p.resolve color).run).run before = _
    rw [StateT.run_map, hrun]
    rfl
  | takeWarnings => exact ⟨.warnings before, [], [], rfl, rfl, rfl⟩

theorem answerAll_cons (request : Request α) (requests : List (Request α))
    {before between left : List Warning} {answer : Answer α} {answers : List (Answer α)}
    (h : (p.answer request).run before = (answer, between))
    (hrest : (p.answerAll requests).run between = (answers, left)) :
    (p.answerAll (request :: requests)).run before = (answer :: answers, left) := by
  unfold answerAll at hrest ⊢
  rw [List.mapM_cons, StateT.run_bind, h]
  show ((requests.mapM p.answer >>= fun rest => pure (answer :: rest)).run between) = _
  rw [StateT.run_bind, hrest]
  rfl

/-- Any number of requests. -/
theorem answerAll_records (requests : List (Request α)) (before : List Warning) :
    ∃ answers recorded left, (p.answerAll requests).run before = (answers, left) ∧
      Recorded requests answers recorded ∧
      answers.flatMap Answer.taken ++ left = before ++ recorded := by
  -- The record that one request leaves is the one that the next request finds.
  induction requests generalizing before with
  | nil => exact ⟨[], [], before, rfl, .nil, by simp⟩
  | cons request requests ih =>
    obtain ⟨answer, added, between, hrun, hrecords, htaken⟩ :=
      answer_records (p := p) request before
    obtain ⟨answers, recorded, left, hruns, hrecorded, htakens⟩ := ih between
    refine ⟨answer :: answers, added ++ recorded, left, answerAll_cons request requests hrun hruns,
      .cons hrecords hrecorded, ?_⟩
    calc (answer :: answers).flatMap Answer.taken ++ left
        = answer.taken ++ (answers.flatMap Answer.taken ++ left) := by
          rw [List.flatMap_cons, List.append_assoc]
      _ = answer.taken ++ between ++ recorded := by rw [htakens, List.append_assoc]
      _ = before ++ (added ++ recorded) := by rw [htaken, List.append_assoc]

/-- The warnings of a resolver are the fallbacks of the colors that it was asked for. A color that
is resolved adds all of its own, a color that cannot be resolved adds the first few. Asking for the
warnings hands over all there are and leaves none. So over any requests, what is handed over and
what is left make up the record from before and what each of the requests adds, in order. -/
theorem warnings_trace (p : Palette α) :
    (∀ color before,
      (∀ r, ((p.resolve color).run.run before).1 = .ok r →
        ((p.resolve color).run.run before).2 = before ++ color.fallbacks) ∧
      ∀ e, ((p.resolve color).run.run before).1 = .error e →
        ∃ front, front <+: color.fallbacks ∧
          ((p.resolve color).run.run before).2 = before ++ front) ∧
    (∀ before, (p.answer .takeWarnings).run before = (.warnings before, [])) ∧
    ∀ requests before, ∃ answers recorded left,
      (p.answerAll requests).run before = (answers, left) ∧
      Recorded requests answers recorded ∧
      answers.flatMap Answer.taken ++ left = before ++ recorded := by
  refine ⟨fun color before => ?_, fun before => rfl, answerAll_records⟩
  obtain ⟨outcome, added, hrun, hrecords⟩ := resolve_records (p := p) color before
  rw [hrun]
  constructor
  · rintro r rfl
    exact congrArg (before ++ ·) hrecords
  · rintro e rfl
    exact ⟨added, hrecords, rfl⟩

end Palette

end ThemeColor
