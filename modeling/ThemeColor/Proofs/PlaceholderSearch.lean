import Mathlib.Algebra.GroupWithZero.Nat
import Mathlib.Algebra.Order.BigOperators.Group.List
import Mathlib.Algebra.Order.Group.Nat
import Mathlib.Logic.Function.Iterate
import ThemeColor.Proofs.Placeholders

/-!
# The search for placeholders

A source of placeholders tries one number after the other until it finds one whose placeholder does
not occur in the text. `take` ends by its very definition, since it counts the opening characters of
the text first; the search itself knows of no such bound. Here it is taken apart into single turns,
each of which tries one number, and followed over any number of texts.

- `Search.Sound.turn`: what one turn preserves, as long as no number has come back;
- `PlaceholderCounter.search_finds_fresh`: each text is searched for at most one turn more than it
  has opening characters, the placeholder that is found does not occur in it and was not found
  before, and the placeholders are those that `takeAll` takes.
-/

namespace ThemeColor.PlaceholderCounter

open Text

/-! ## Taking placeholders one after the other -/

theorem ahead_ahead (start : PlaceholderCounter) (i j : Nat) :
    ahead ⟨start.ahead i⟩ j = start.ahead (i + j) := by
  simp only [ahead]
  rw [UInt64.ofNat_add, UInt64.add_assoc]

theorem takeFrom_of_passed {text : List Char} {counter : PlaceholderCounter} {k fuel : Nat}
    (hpassed : ∀ j < k, placeholder (counter.ahead j) <:+: text)
    (hfresh : ¬ placeholder (counter.ahead k) <:+: text) (hk : k ≤ fuel) :
    takeFrom text fuel counter = (placeholder (counter.ahead k), ⟨counter.ahead (k + 1)⟩) := by
  induction k generalizing counter fuel with
  | zero =>
    rw [ahead_zero] at hfresh ⊢
    rw [← ahead_add_one, ahead_zero]
    cases fuel with
    | zero => rfl
    | succ fuel => rw [takeFrom, if_neg fun hoccurs => hfresh (occursIn_iff.mp hoccurs)]
  | succ k ih =>
    obtain ⟨fuel, rfl⟩ := Nat.exists_eq_add_of_lt hk
    have hnext (j : Nat) : ahead ⟨counter.next + 1⟩ j = counter.ahead (j + 1) := by
      rw [← counter.ahead_zero, ahead_add_one, ahead_ahead, Nat.add_comm (0 + 1)]
    have hfirst : occursIn (placeholder counter.next) text :=
      occursIn_iff.mpr (counter.ahead_zero ▸ hpassed 0 (Nat.succ_pos k))
    rw [takeFrom, if_pos hfirst, ih, hnext, hnext]
    · exact fun j hj => hnext j ▸ hpassed (j + 1) (Nat.succ_lt_succ hj)
    · exact hnext k ▸ hfresh
    · omega

theorem takeAll_concat (texts : List (List Char)) (text : List Char)
    (counter : PlaceholderCounter) :
    takeAll (texts ++ [text]) counter =
      ((takeAll texts counter).1 ++ [(take text (takeAll texts counter).2).1],
        (take text (takeAll texts counter).2).2) := by
  induction texts generalizing counter with
  | nil => rfl
  | cons first texts ih => rw [List.cons_append, takeAll, ih, takeAll, List.cons_append]

/-! ## Single turns -/

/-- A placeholder that was found. -/
structure Find where
  /-- The text for which it was searched. -/
  text : List Char
  /-- The placeholder. -/
  token : List Char
  /-- The number of turns that it took. -/
  turns : Nat

/-- A source of placeholders at work. -/
structure Search where
  /-- The counter of the source. -/
  counter : PlaceholderCounter
  /-- The texts that still need a placeholder. The first of them is being searched. -/
  pending : List (List Char)
  /-- The number of turns that were made for the first of them. -/
  turns : Nat
  /-- The placeholders that were found, in the order of the texts. -/
  found : List Find

namespace Search

/-- Nothing was searched yet. -/
def begin (start : PlaceholderCounter) (texts : List (List Char)) : Search := ⟨start, texts, 0, []⟩

/-- Tries the next number. -/
def turn (s : Search) : Search :=
  match s.pending with
  | [] => s
  | text :: texts =>
    let token := placeholder s.counter.next
    if occursIn token text then ⟨⟨s.counter.next + 1⟩, text :: texts, s.turns + 1, s.found⟩
    else ⟨⟨s.counter.next + 1⟩, texts, 0, s.found ++ [⟨text, token, s.turns + 1⟩]⟩

/-- The number of turns that were made for the placeholders that were found. -/
def spent (s : Search) : Nat := (s.found.map (·.turns)).sum

/-- The number of all turns that were made, which is the number of steps of the counter. -/
def made (s : Search) : Nat := s.spent + s.turns

variable {s : Search} {text : List Char} {texts : List (List Char)}

/-- What a turn does: there is nothing to search, the number is passed over, or its placeholder is
found. -/
theorem turn_cases (s : Search) :
    (s.pending = [] ∧ s.turn = s) ∨
    (∃ text texts, s.pending = text :: texts ∧ placeholder s.counter.next <:+: text ∧
      s.turn = ⟨⟨s.counter.next + 1⟩, text :: texts, s.turns + 1, s.found⟩) ∨
    ∃ text texts, s.pending = text :: texts ∧ ¬ placeholder s.counter.next <:+: text ∧
      s.turn = ⟨⟨s.counter.next + 1⟩, texts, 0,
        s.found ++ [⟨text, placeholder s.counter.next, s.turns + 1⟩]⟩ := by
  unfold turn
  rcases hpending : s.pending with _ | ⟨text, texts⟩
  · exact .inl ⟨rfl, rfl⟩
  · dsimp only
    split
    · rename_i hoccurs
      exact .inr (.inl ⟨text, texts, rfl, occursIn_iff.mp hoccurs, rfl⟩)
    · rename_i hfresh
      exact .inr (.inr ⟨text, texts, rfl, fun h => hfresh (occursIn_iff.mpr h), rfl⟩)

theorem turn_of_nil (h : s.pending = []) : s.turn = s := by
  simp [turn, h]

/-- A turn counts, unless there is nothing to search. -/
theorem made_turn (h : s.pending ≠ []) : s.turn.made = s.made + 1 := by
  rcases turn_cases s with ⟨hnil, -⟩ | ⟨text, texts, -, -, hturn⟩ | ⟨text, texts, -, -, hturn⟩
  · exact absurd hnil h
  · rw [hturn]
    rfl
  · rw [hturn]
    simp only [made, spent, List.map_append, List.sum_append, List.map_singleton,
      List.sum_singleton]
    omega

theorem made_le_turn (s : Search) : s.made ≤ s.turn.made := by
  by_cases h : s.pending = []
  · exact Nat.le_of_eq (by rw [turn_of_nil h])
  · rw [made_turn h]
    exact Nat.le_succ _

/-- Turns are made until nothing is left to search. -/
theorem made_iterate (start : PlaceholderCounter) (texts : List (List Char)) (n : Nat) :
    (turn^[n] (begin start texts)).pending = [] ∨ (turn^[n] (begin start texts)).made = n := by
  induction n with
  | zero => exact .inr rfl
  | succ n ih =>
    rw [Function.iterate_succ_apply']
    by_cases hdone : (turn^[n] (begin start texts)).pending = []
    · rw [turn_of_nil hdone]
      exact .inl hdone
    · rw [made_turn hdone, ih.resolve_left hdone]
      exact .inr rfl

/-! ## What turns preserve -/

/-- The search was made from a counter on for some texts, and nothing went wrong so far. -/
structure Sound (start : PlaceholderCounter) (texts : List (List Char)) (s : Search) : Prop where
  /-- The texts are searched in their order. -/
  texts_eq : s.found.map (·.text) ++ s.pending = texts
  /-- Each turn takes one number. -/
  next_eq : s.counter.next = start.ahead s.made
  /-- The numbers that were taken for the current text were passed over, as their placeholders occur
  in it. -/
  passed : ∀ text ∈ s.pending.head?, ∀ j < s.turns,
    placeholder (start.ahead (s.spent + j)) <:+: text
  /-- The placeholders are those that are taken for the texts, one after the other. -/
  takeAll_eq : takeAll (s.found.map (·.text)) start = (s.found.map (·.token), ⟨start.ahead s.spent⟩)
  /-- No placeholder occurs in its text. -/
  fresh : ∀ f ∈ s.found, ¬ f.token <:+: f.text
  /-- No text was searched for more than one turn after all its opening characters. -/
  turns_le : ∀ f ∈ s.found, f.turns ≤ f.text.count opening + 1
  /-- Each placeholder has a number that was taken before. -/
  numbered : ∀ f ∈ s.found, ∃ k < s.spent, f.token = placeholder (start.ahead k)
  /-- No placeholder was found twice. -/
  nodup : (s.found.map (·.token)).Nodup

namespace Sound

variable {start : PlaceholderCounter}

theorem begin (start : PlaceholderCounter) (texts : List (List Char)) :
    Sound start texts (begin start texts) where
  texts_eq := rfl
  next_eq := start.ahead_zero.symm
  passed := by simp [Search.begin]
  takeAll_eq := by
    simp [Search.begin, spent, takeAll, ahead_zero]
  fresh := by simp [Search.begin]
  turns_le := by simp [Search.begin]
  numbered := by simp [Search.begin]
  nodup := .nil

/-- The numbers that were passed over for a text have not come back yet, so each of them takes an
opening character of the text. -/
theorem turns_le_count (h : Sound start texts s) (hmade : s.made ≤ 2 ^ 64)
    (htext : text ∈ s.pending.head?) : s.turns ≤ text.count opening := by
  let numbers := (List.range s.turns).map fun j => start.ahead (s.spent + j)
  have hnodup : numbers.Nodup := by
    refine List.pairwise_map.mpr (List.Pairwise.imp_of_mem ?_ List.nodup_range)
    intro i j hi hj hne heq
    rw [List.mem_range] at hi hj
    rw [made] at hmade
    have := eq_of_ahead_eq (by omega) (by omega) heq
    omega
  have hoccur : ∀ n ∈ numbers, placeholder n <:+: text := by
    intro n hn
    obtain ⟨j, hj, rfl⟩ := List.mem_map.mp hn
    exact h.passed text htext j (List.mem_range.mp hj)
  simpa [numbers] using length_le_count_opening hnodup hoccur

/-- The number that ends the search for a text is the one that `take` stops at. -/
theorem take_eq (h : Sound start texts s) (hmade : s.made ≤ 2 ^ 64) (htext : text ∈ s.pending.head?)
    (hfresh : ¬ placeholder (start.ahead s.made) <:+: text) :
    take text ⟨start.ahead s.spent⟩ =
      (placeholder (start.ahead s.made), ⟨start.ahead (s.made + 1)⟩) := by
  have htake := @takeFrom_of_passed text ⟨start.ahead s.spent⟩ s.turns (text.count opening)
    (fun j hj => ahead_ahead start s.spent j ▸ h.passed text htext j hj)
    (ahead_ahead start s.spent s.turns ▸ hfresh) (h.turns_le_count hmade htext)
  rwa [ahead_ahead, ahead_ahead] at htake

/-- The number that is tried has not come back, so its placeholder was not found before. -/
theorem token_ne (h : Sound start texts s) (hmade : s.made + 1 ≤ 2 ^ 64) {f : Find}
    (hf : f ∈ s.found) : f.token ≠ placeholder (start.ahead s.made) := by
  intro heq
  obtain ⟨k, hk, htoken⟩ := h.numbered f hf
  rw [htoken] at heq
  have hle : s.spent ≤ s.made := Nat.le_add_right _ _
  have := eq_of_placeholder_ahead_eq (by omega) (by omega) heq
  omega

/-- A number whose placeholder occurs in the text is passed over. -/
theorem pass (h : Sound start texts s) {more : List (List Char)}
    (hpending : s.pending = text :: more) (hoccurs : placeholder s.counter.next <:+: text) :
    Sound start texts ⟨⟨s.counter.next + 1⟩, text :: more, s.turns + 1, s.found⟩ := by
  rw [h.next_eq, made] at hoccurs
  refine { h with texts_eq := ?_, next_eq := ?_, passed := ?_ }
  · rw [← h.texts_eq, hpending]
  · rw [h.next_eq, ahead_add_one]
    rfl
  · rintro _ ⟨⟩ j hj
    rcases Nat.lt_succ_iff_lt_or_eq.mp hj with hj | rfl
    · exact h.passed text (by rw [hpending]; rfl) j hj
    · exact hoccurs

/-- Any other number is that of the placeholder for the text. -/
theorem find (h : Sound start texts s) (hmade : s.made + 1 ≤ 2 ^ 64) {more : List (List Char)}
    (hpending : s.pending = text :: more) (hfresh : ¬ placeholder s.counter.next <:+: text) :
    Sound start texts ⟨⟨s.counter.next + 1⟩, more, 0,
      s.found ++ [⟨text, placeholder s.counter.next, s.turns + 1⟩]⟩ := by
  have htext : text ∈ s.pending.head? := by rw [hpending]; rfl
  have hcount := h.turns_le_count (by omega) htext
  rw [h.next_eq] at hfresh ⊢
  let next : Search := ⟨⟨start.ahead s.made + 1⟩, more, 0,
    s.found ++ [⟨text, placeholder (start.ahead s.made), s.turns + 1⟩]⟩
  have hspent : next.spent = s.made + 1 := by
    simp only [next, spent, made, List.map_append, List.sum_append, List.map_singleton,
      List.sum_singleton]
    omega
  change Sound start texts next
  refine ⟨?_, ?_, by simp [next], ?_, ?_, ?_, ?_, ?_⟩
  · rw [← h.texts_eq, hpending]
    simp [next]
  · rw [made, hspent]
    exact ahead_add_one start s.made
  · rw [hspent, List.map_append, List.map_append, List.map_singleton, takeAll_concat,
      h.takeAll_eq, h.take_eq (by omega) htext hfresh]
    rfl
  · exact List.forall_mem_append.mpr ⟨h.fresh, List.forall_mem_singleton.mpr hfresh⟩
  · exact List.forall_mem_append.mpr
      ⟨h.turns_le, List.forall_mem_singleton.mpr (Nat.succ_le_succ hcount)⟩
  · rw [hspent]
    refine List.forall_mem_append.mpr ⟨fun f hf => ?_, List.forall_mem_singleton.mpr ?_⟩
    · obtain ⟨k, hk, htoken⟩ := h.numbered f hf
      exact ⟨k, Nat.lt_of_lt_of_le hk (by rw [made]; omega), htoken⟩
    · exact ⟨s.made, Nat.lt_succ_self _, rfl⟩
  · rw [List.map_append, List.nodup_append]
    refine ⟨h.nodup, by simp, ?_⟩
    intro token htoken other hother
    obtain ⟨f, hf, rfl⟩ := List.mem_map.mp htoken
    obtain rfl : other = placeholder (start.ahead s.made) := by simpa using hother
    exact h.token_ne hmade hf

/-- One turn, as long as no number has come back. -/
theorem turn (h : Sound start texts s) (hmade : s.turn.made ≤ 2 ^ 64) :
    Sound start texts s.turn := by
  rcases turn_cases s with ⟨-, hturn⟩ | ⟨text, more, hpending, hoccurs, hturn⟩ |
    ⟨text, more, hpending, hfresh, hturn⟩
  · rwa [hturn]
  · rw [hturn]
    exact h.pass hpending hoccurs
  · rw [made_turn (by rw [hpending]; simp)] at hmade
    rw [hturn]
    exact h.find hmade hpending hfresh

/-- Any number of turns, as long as no number has come back. -/
theorem iterate {n : Nat} (hmade : (Search.turn^[n] (Search.begin start texts)).made ≤ 2 ^ 64) :
    Sound start texts (Search.turn^[n] (Search.begin start texts)) := by
  induction n with
  | zero => exact Sound.begin start texts
  | succ n ih =>
    rw [Function.iterate_succ_apply'] at hmade ⊢
    exact (ih (Nat.le_trans (made_le_turn _) hmade)).turn hmade

/-- The turns for the texts that were searched, and for the current one, do not add up to one turn
more than there are opening characters, for each text. -/
theorem made_lt (h : Sound start texts s) (hmade : s.made ≤ 2 ^ 64) (hpending : s.pending ≠ []) :
    s.made < (texts.map fun text => text.count opening + 1).sum := by
  obtain ⟨text, more, hpending⟩ := List.exists_cons_of_ne_nil hpending
  have hcurrent : s.turns ≤ text.count opening :=
    h.turns_le_count hmade (by rw [hpending]; rfl)
  have hspent : s.spent ≤ (s.found.map fun f => f.text.count opening + 1).sum :=
    List.sum_le_sum h.turns_le
  rw [← h.texts_eq, hpending, List.map_append, List.map_map, List.sum_append, List.map_cons,
    List.sum_cons]
  simp only [Function.comp_def]
  rw [made]
  omega

end Sound

end Search

/-- **Searching for placeholders ends, and finds fresh ones.** Let a source at any number be asked
for placeholders for any texts, and look at it after any number of turns, as long as it has not
tried more numbers than there are, and so in particular as long as its counter has not wrapped
around. The placeholders found so far are those that are taken for the texts, one after the other.
Each was found after at most one turn more than its text has opening characters; it does not occur
in its text, and all of them are different. The current text was not searched for more turns than it
has opening characters, and once there was one more turn for each text, all of them are done. -/
theorem search_finds_fresh {start : PlaceholderCounter} {texts : List (List Char)} {n : Nat}
    {s : Search} (hs : Search.turn^[n] (Search.begin start texts) = s) (hmade : s.made ≤ 2 ^ 64) :
    s.found.map (·.text) ++ s.pending = texts ∧
    (takeAll (s.found.map (·.text)) start).1 = s.found.map (·.token) ∧
    (∀ f ∈ s.found, f.turns ≤ f.text.count opening + 1 ∧ ¬ f.token <:+: f.text) ∧
    (s.found.map (·.token)).Nodup ∧
    (∀ text ∈ s.pending.head?, s.turns ≤ text.count opening) ∧
    ((texts.map fun text => text.count opening + 1).sum ≤ n → s.pending = []) := by
  subst hs
  have hsound := Search.Sound.iterate hmade
  refine ⟨hsound.texts_eq, by rw [hsound.takeAll_eq],
    fun f hf => ⟨hsound.turns_le f hf, hsound.fresh f hf⟩, hsound.nodup,
    fun text htext => hsound.turns_le_count hmade htext, fun henough => ?_⟩
  by_contra hpending
  have hlt := hsound.made_lt hmade hpending
  have hall := (Search.made_iterate start texts n).resolve_left hpending
  omega

/-- The first number occurs in the first text and the third one in the second text, so that each of
them takes two turns. -/
theorem search_finds_fresh_twice :
    ∃ s, Search.turn^[4] (Search.begin ⟨0⟩ [placeholder 0, 'a' :: placeholder 2]) = s ∧
      s.made ≤ 2 ^ 64 ∧ s.pending = [] ∧ s.found.map (·.turns) = [2, 2] ∧
      s.found.map (·.token) = [placeholder 1, placeholder 3] ∧
      (takeAll [placeholder 0, 'a' :: placeholder 2] ⟨0⟩).1 = s.found.map (·.token) ∧
      (s.found.map (·.token)).Nodup ∧ ∀ f ∈ s.found, ¬ f.token <:+: f.text := by
  let texts := [placeholder 0, 'a' :: placeholder 2]
  have hmade : (Search.turn^[4] (Search.begin ⟨0⟩ texts)).made ≤ 2 ^ 64 := by decide +kernel
  obtain ⟨htexts, htaken, hfinds, hnodup, -, hdone⟩ := search_finds_fresh rfl hmade
  have hpending := hdone (by decide +kernel)
  rw [hpending, List.append_nil] at htexts
  refine ⟨_, rfl, hmade, hpending, by decide +kernel, by decide +kernel, ?_, hnodup,
    fun f hf => (hfinds f hf).2⟩
  rwa [htexts] at htaken

end ThemeColor.PlaceholderCounter
