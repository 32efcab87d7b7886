import Mathlib.Data.List.Induction
import ThemeColor.WarningLog

/-!
# Each warning is shown once

A log is meant to show a warning exactly if the same component has not sent the same message since
everything was forgotten the last time. It compares entries, though, and an entry joins the two
texts of a warning.

## Main results

* `mem_shown_run_iff`: after any run the log holds the entries of the recent warnings;
* `entry_injective_iff`: warnings of some components have entries of their own exactly if no
  component, with the end of its label, is the front of another one;
* `warnsOnce_iff_separated`: each warning of these components is shown once exactly in that case;
* `run_shared_entry`: two warnings that share an entry, of which the second one is lost.
-/

namespace ThemeColor.WarningLog

/-! ## What a run leaves in the log -/

/-- The events since everything was forgotten the last time, the latest first. -/
def recent (events : List Event) : List Event := events.reverse.takeWhile (· ≠ .clear)

theorem recent_concat_warn (events : List Event) (component message : String) :
    recent (events ++ [.warn component message]) = .warn component message :: recent events := by
  simp [recent]

theorem recent_concat_clear (events : List Event) : recent (events ++ [.clear]) = [] := by
  simp [recent]

/-- A warning is shown exactly if its entry is new, and its entry is in the log afterwards. -/
theorem warnOnce_spec (log : WarningLog) (component message : String) :
    (log.warnOnce component message).1 = decide (entry component message ∉ log.shown) ∧
      ∀ e, e ∈ (log.warnOnce component message).2.shown ↔
        e = entry component message ∨ e ∈ log.shown := by
  unfold warnOnce
  dsimp only
  split
  · rename_i hshown
    refine ⟨by simp [hshown], fun e => ?_⟩
    constructor
    · exact .inr
    · rintro (rfl | he)
      · exact hshown
      · exact he
  · rename_i hnew
    exact ⟨by simp [hnew], fun e => List.mem_cons⟩

/-- Events behind other ones find the log as those have left it. -/
theorem run_append (log : WarningLog) (a b : List Event) :
    log.run (a ++ b) =
      ((log.run a).1 ++ ((log.run a).2.run b).1, ((log.run a).2.run b).2) := by
  induction a generalizing log with
  | nil => rfl
  | cons event a ih => simp [run, ih]

theorem length_answers (log : WarningLog) (events : List Event) :
    (log.run events).1.length = events.length := by
  induction events generalizing log with
  | nil => rfl
  | cons event events ih => simp [run, ih]

/-- The log holds the entries of the warnings that came up since it was cleared, and no others. -/
theorem mem_shown_run_iff {events : List Event} {e : String} :
    e ∈ (empty.run events).2.shown ↔
      ∃ component message, .warn component message ∈ recent events ∧
        e = entry component message := by
  induction events using List.reverseRecOn with
  | nil => simp [run, empty, recent]
  | append_singleton events event ih =>
    rw [run_append]
    cases event with
    | warn component message =>
      have hstep := ((empty.run events).2.warnOnce_spec component message).2 e
      rw [recent_concat_warn]
      simp only [run, step]
      rw [hstep, ih]
      constructor
      · rintro (rfl | ⟨c, m, hrecent, rfl⟩)
        · exact ⟨component, message, List.mem_cons_self, rfl⟩
        · exact ⟨c, m, List.mem_cons_of_mem _ hrecent, rfl⟩
      · rintro ⟨c, m, hrecent, rfl⟩
        rcases List.mem_cons.mp hrecent with heq | hrecent
        · cases heq
          exact .inl rfl
        · exact .inr ⟨c, m, hrecent, rfl⟩
    | clear =>
      rw [recent_concat_clear]
      simp [run, step, empty]

/-- The answer to a warning within a run: it is shown unless its entry is that of a recent one. -/
theorem answer_eq (before after : List Event) (component message : String) :
    (empty.run (before ++ .warn component message :: after)).1[before.length]? =
      some (some (decide (entry component message ∉ (empty.run before).2.shown))) := by
  rw [run_append, List.getElem?_append_right (Nat.le_of_eq (length_answers empty before)),
    length_answers, Nat.sub_self]
  simp only [run, step, List.getElem?_cons_zero]
  rw [(warnOnce_spec _ _ _).1]

/-! ## Entries of warnings -/

/-- The label of a component, without the bracket that all labels start with. -/
def label (component : String) : List Char := component.toList ++ [']', ' ']

theorem entry_eq_iff {c c' m m' : String} :
    entry c m = entry c' m' ↔ label c ++ m.toList = label c' ++ m'.toList := by
  rw [← String.toList_inj]
  simp [entry, label]

/-- No component of the set, with the end of its label, is the front of another one. -/
def Separated (S : String → Prop) : Prop :=
  ∀ c c', S c → S c' → label c <+: label c' → c = c'

/-- Warnings of separated components have entries of their own, and of other components they do
not. -/
theorem entry_injective_iff {S : String → Prop} :
    Separated S ↔
      ∀ c c' m m', S c → S c' → entry c m = entry c' m' → c = c' ∧ m = m' := by
  constructor
  · intro hseparated c c' m m' hc hc' hentry
    rw [entry_eq_iff] at hentry
    -- Of two fronts of one text one is the front of the other.
    have hcomponent : c = c' := by
      rcases List.prefix_or_prefix_of_prefix (List.prefix_append (label c) m.toList)
        (hentry ▸ List.prefix_append (label c') m'.toList) with hfront | hfront
      · exact hseparated c c' hc hc' hfront
      · exact (hseparated c' c hc' hc hfront).symm
    subst hcomponent
    exact ⟨rfl, String.toList_inj.mp (List.append_cancel_left hentry)⟩
  · rintro hinjective c c' hc hc' ⟨more, hmore⟩
    -- What the longer label has more can stand at the front of the message instead.
    have hentry : entry c (String.ofList more) = entry c' "" := by
      rw [entry_eq_iff, String.toList_ofList, hmore]
      simp
    exact (hinjective c c' _ _ hc hc' hentry).1

/-! ## Runs -/

/-- In every run with components of the set, a warning is shown exactly if the same component has
not sent the same message since the log was cleared. -/
def WarnsOnce (S : String → Prop) : Prop :=
  ∀ before component message after,
    (∀ c m, .warn c m ∈ before ++ .warn component message :: after → S c) →
    (empty.run (before ++ .warn component message :: after)).1[before.length]? =
      some (some (decide (.warn component message ∉ recent before)))

/-- The lines of the messages that are shown. -/
def shownLines (component : String) (messages : List String) (answers : List (Option Bool)) :
    List String :=
  (messages.zip answers).filterMap fun (message, answer) =>
    if answer = some true then some (line component message) else none

/-- A component prints the messages that are shown, and the log is that of the run. -/
theorem report_eq (log : WarningLog) (component : String) (messages : List String) :
    log.report component messages =
      (shownLines component messages (log.run (messages.map (.warn component))).1,
        (log.run (messages.map (.warn component))).2) := by
  induction messages generalizing log with
  | nil => rfl
  | cons message messages ih =>
    simp only [report, List.map_cons, run, step, shownLines, List.zip_cons_cons,
      List.filterMap_cons, ih]
    cases (log.warnOnce component message).1 <;> rfl

theorem mem_recent {events : List Event} {event : Event} (h : event ∈ recent events) :
    event ∈ events :=
  List.mem_reverse.mp ((List.takeWhile_prefix _).subset h)

theorem warnsOnce_of_separated {S : String → Prop} (h : Separated S) : WarnsOnce S := by
  intro before component message after hS
  rw [answer_eq]
  congr 2
  rw [decide_eq_decide, not_iff_not, mem_shown_run_iff]
  constructor
  · rintro ⟨c, m, hrecent, hentry⟩
    have hc : S c := hS c m (List.mem_append_left _ (mem_recent hrecent))
    have hcomponent : S component := hS component message (by simp)
    obtain ⟨rfl, rfl⟩ := entry_injective_iff.mp h component c message m hcomponent hc hentry
    exact hrecent
  · intro hrecent
    exact ⟨component, message, hrecent, rfl⟩

theorem separated_of_warnsOnce {S : String → Prop} (h : WarnsOnce S) : Separated S := by
  rw [entry_injective_iff]
  intro c c' m m' hc hc' hentry
  -- Of two warnings with one entry the second is not shown, so it has to be the first one again.
  have hS : ∀ component message,
      Event.warn component message ∈ [.warn c m] ++ [.warn c' m'] → S component := by
    intro component message hmem
    rcases List.mem_append.mp hmem with hmem | hmem
    · cases List.mem_singleton.mp hmem
      exact hc
    · cases List.mem_singleton.mp hmem
      exact hc'
  have hanswer := h [.warn c m] c' m' [] hS
  have hshown : entry c' m' ∈ (empty.run [.warn c m]).2.shown :=
    mem_shown_run_iff.mpr ⟨c, m, List.mem_cons_self, hentry.symm⟩
  rw [answer_eq] at hanswer
  have hrecent : Event.warn c' m' ∈ recent [.warn c m] := by
    simpa [hshown] using hanswer
  cases List.mem_singleton.mp hrecent
  exact ⟨rfl, rfl⟩

/-- **Each warning is shown once, up to labels that overlap.** In all runs with components of a set,
a warning is shown exactly if the same component has not sent the same message since the log was
cleared, if and only if the components of the set are separated. What is printed are the messages
that are shown. -/
theorem warnsOnce_iff_separated (S : String → Prop) :
    (WarnsOnce S ↔ Separated S) ∧
      ∀ log component messages, report component log messages =
        (shownLines component messages (log.run (messages.map (.warn component))).1,
          (log.run (messages.map (.warn component))).2) :=
  ⟨⟨separated_of_warnsOnce, warnsOnce_of_separated⟩, report_eq⟩

/-- Two different warnings with one entry: the second one is not shown, although nothing like it
came up before. -/
theorem run_shared_entry :
    (empty.run [.warn "a" "b] c", .warn "a] b" "c"]).1 = [some true, some false] ∧
      Event.warn "a] b" "c" ∉ recent [.warn "a" "b] c"] := by
  decide

end ThemeColor.WarningLog
