import ThemeColor.Color.Property
import ThemeColor.Proofs.Locality
import ThemeColor.Proofs.Splitting

/-!
# The core of a name

The properties of a color are named by the core of its name, which is a name in lower case without
blank ends. A name that is cut off at its first blank has the same core, as long as both of them
name properties at all (`ChannelNames.eq_of_ofIdentifier_takeWhile`): a blank ends a word, so the
letters in front of it change case as they do at the end of a text.
-/

namespace ThemeColor

open Text

namespace Text

/-! ## Blanks and letter case -/

/-- Whether no code point is in a range of both lists. -/
def rangesApart (xs ys : List (Nat × Nat)) : Bool :=
  xs.all fun x => ys.all fun y => Nat.blt x.2 y.1 || Nat.blt y.2 x.1

theorem inRanges_iff {ranges : List (Nat × Nat)} {c : Char} :
    inRanges ranges c ↔ ∃ range ∈ ranges, range.1 ≤ c.toNat ∧ c.toNat ≤ range.2 := by
  simp [inRanges]

theorem not_inRanges_of_rangesApart {xs ys : List (Nat × Nat)} (h : rangesApart xs ys) {c : Char}
    (hc : inRanges xs c) : inRanges ys c = false := by
  rw [Bool.eq_false_iff]
  intro hc'
  obtain ⟨x, hx, hfirst, hlast⟩ := inRanges_iff.mp hc
  obtain ⟨y, hy, hfirst', hlast'⟩ := inRanges_iff.mp hc'
  have hapart := List.all_eq_true.mp (List.all_eq_true.mp h x hx) y hy
  simp only [Bool.or_eq_true, Nat.blt_eq] at hapart
  omega

theorem lowerChar_eq_self {c : Char} (hdotted : c ≠ 'İ')
    (h : inRanges (lowercaseRuns.map fun run => (run.first, run.last)) c = false) :
    lowerChar c = [c] := by
  have hnone : lowercaseRuns.find? (·.contains c.toNat) = none := by
    refine List.find?_eq_none.mpr fun run hrun hcontains => Bool.eq_false_iff.mp h ?_
    simp only [CaseRun.contains, Bool.and_eq_true, decide_eq_true_eq] at hcontains
    exact inRanges_iff.mpr ⟨_, List.mem_map.mpr ⟨run, hrun, rfl⟩, hcontains.1⟩
  rw [lowerChar, if_neg hdotted, hnone]

/-- A blank has no case, and neither do letters look through it. -/
theorem lowerChar_blank {b : Char} (h : isBlank b) :
    isCaseIgnorable b = false ∧ isCased b = false ∧ b ≠ 'Σ' ∧ lowerChar b = [b] := by
  refine ⟨not_inRanges_of_rangesApart (by decide +kernel) h,
    not_inRanges_of_rangesApart (by decide +kernel) h, ?_,
    lowerChar_eq_self ?_ (not_inRanges_of_rangesApart (by decide +kernel) h)⟩
  all_goals
    rintro rfl
    exact absurd h (by decide)

/-- A blank ends a word like the end of the text does. -/
theorem reachesCased_append_blank {b : Char} (hb : isBlank b) (x y : List Char) :
    reachesCased (x ++ b :: y) = reachesCased x := by
  obtain ⟨hignorable, hcased, -, -⟩ := lowerChar_blank hb
  unfold reachesCased
  rw [Scan.dropWhile_append_cons hignorable]
  cases x.dropWhile isCaseIgnorable with
  | nil => simp [hcased]
  | cons c x => rfl

theorem lowerAfter_append_blank {b : Char} (hb : isBlank b) (before x y : List Char) :
    ∃ rest, lowerAfter before (x ++ b :: y) = lowerAfter before x ++ b :: rest := by
  induction x generalizing before with
  | nil =>
    obtain ⟨-, -, hsigma, hlower⟩ := lowerChar_blank hb
    exact ⟨lowerAfter (b :: before) y, by simp [lowerAfter, hsigma, hlower]⟩
  | cons c x ih =>
    obtain ⟨rest, hrest⟩ := ih (c :: before)
    refine ⟨rest, ?_⟩
    rw [List.cons_append, lowerAfter, lowerAfter, hrest, reachesCased_append_blank hb,
      List.append_assoc]

/-! ## Blank ends -/

/-- A text that goes on behind a blank has no other core than the part in front of the blank,
unless blanks are left inside it. -/
theorem trim_append_blank {u y : List Char} {b : Char} (hb : isBlank b) (hu : trim u ≠ [])
    (hnone : ∀ c ∈ trim (u ++ b :: y), ¬ isBlank c) : trim (u ++ b :: y) = trim u := by
  have hne : u.dropWhile isBlank ≠ [] := by
    intro hnil
    exact hu (trimWhile_eq_nil_iff.mpr (List.dropWhile_eq_nil_iff.mp hnil))
  have hdrop : trim (u ++ b :: y) = dropEndWhile isBlank (u.dropWhile isBlank ++ b :: y) := by
    rw [trim, trimWhile, List.dropWhile_append, if_neg (by simpa using hne)]
  rw [hdrop] at hnone ⊢
  -- What is dropped at the end is blank, and the blank `b` cannot be in front of it.
  obtain ⟨after, heq, hafter⟩ : ∃ after,
      dropEndWhile isBlank (u.dropWhile isBlank ++ b :: y) ++ after =
        u.dropWhile isBlank ++ b :: y ∧ ∀ c ∈ after, isBlank c := by
    refine ⟨((u.dropWhile isBlank ++ b :: y).reverse.takeWhile isBlank).reverse, ?_, ?_⟩
    · rw [dropEndWhile, ← List.reverse_append, List.takeWhile_append_dropWhile,
        List.reverse_reverse]
    · exact fun c hc => List.mem_takeWhile_imp (List.mem_reverse.mp hc)
  have hy : ∀ c ∈ y, isBlank c := by
    rcases List.append_eq_append_iff.mp heq with ⟨kept, -, hsplit⟩ | ⟨kept, hkept, hsplit⟩
    · intro c hc
      exact hafter c (by simp [hsplit, hc])
    · cases kept with
      | nil =>
        intro c hc
        rw [List.nil_append] at hsplit
        exact hafter c (hsplit ▸ List.mem_cons_of_mem b hc)
      | cons d kept =>
        obtain ⟨rfl, -⟩ := List.cons.inj hsplit
        exact absurd hb (hnone b (by simp [hkept]))
  rw [dropEndWhile_append (List.forall_mem_cons.mpr ⟨hb, hy⟩)]
  rfl

end Text

namespace ChannelNames

theorem ofIdentifier_eq_ok_iff {identifier : String} {names : ChannelNames} :
    ofIdentifier identifier = .ok names ↔
      core identifier ≠ [] ∧ (∀ c ∈ core identifier, ¬ isBlank c) ∧
        ofCore (core identifier) = names := by
  unfold ofIdentifier
  dsimp only
  split
  · rename_i h
    constructor
    · intro herror
      cases herror
    · rintro ⟨hne, hsolid, -⟩
      rcases h with h | h
      · exact absurd h hne
      · obtain ⟨c, hc, hblank⟩ := List.any_eq_true.mp h
        exact absurd hblank (hsolid c hc)
  · rename_i h
    rw [not_or, Bool.not_eq_true, List.any_eq_false] at h
    rw [Except.ok.injEq]
    exact ⟨fun heq => ⟨h.1, h.2, heq⟩, fun heq => heq.2.2⟩

/-- A name has the properties of its part in front of the first blank, if both name properties. -/
theorem eq_of_ofIdentifier_takeWhile {name : List Char} {names names' : ChannelNames}
    (h : ofIdentifier (String.ofList (name.takeWhile (!isBlank ·))) = .ok names)
    (h' : ofIdentifier (String.ofList name) = .ok names') : names = names' := by
  obtain ⟨hne, -, rfl⟩ := ofIdentifier_eq_ok_iff.mp h
  obtain ⟨-, hsolid, rfl⟩ := ofIdentifier_eq_ok_iff.mp h'
  refine congrArg ofCore ?_
  cases hrest : name.dropWhile (!isBlank ·) with
  | nil =>
    have hall := List.takeWhile_append_dropWhile (p := (!isBlank ·)) (l := name)
    rw [hrest, List.append_nil] at hall
    rw [hall]
  | cons b y =>
    have hsplit := List.takeWhile_append_dropWhile (p := (!isBlank ·)) (l := name)
    have hblank := List.head?_dropWhile_not (!isBlank ·) name
    rw [hrest] at hsplit hblank
    have hb : isBlank b := by simpa using hblank
    generalize name.takeWhile (!isBlank ·) = front at *
    subst hsplit
    obtain ⟨rest, hlower⟩ := lowerAfter_append_blank hb [] front y
    -- The blank is no `@`, so it still stands behind the core of the front part.
    have hfilter : (b :: rest).filter (fun c => decide (c ≠ '@')) =
        b :: rest.filter (fun c => decide (c ≠ '@')) := by
      refine List.filter_cons_of_pos (decide_eq_true ?_)
      rintro rfl
      exact absurd hb (by decide)
    simp only [core, String.toList_ofList, lower, hlower, List.filter_append, hfilter]
      at hne hsolid ⊢
    rw [trim_append_blank hb]
    · simpa using hne
    · intro c hc hblank
      have hdash : c ≠ '_' := by
        rintro rfl
        exact absurd hblank (by decide)
      refine hsolid c (List.mem_map.mpr ⟨c, hc, ?_⟩) hblank
      rw [if_neg hdash]

end ChannelNames

end ThemeColor
