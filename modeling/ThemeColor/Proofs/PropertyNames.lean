import ThemeColor.Proofs.Agreement
import ThemeColor.Proofs.NameCore

/-!
# Custom properties of different colors

All colors of a style sheet keep their channels in one set of custom properties, whose names are put
together from the core of the color's name and a letter for the channel. A color may well be named
like another one with such a letter behind it; still no property belongs to two colors.

## Main results

* `Text.lower_eq_self`: a text whose characters come from lower case forms is its own lower case
  form, since no lower case form has another one;
* `ChannelNames.core_ofList_core`: so the core of a name is its own core;
* `ChannelNames.ofIdentifier_separates`: names with one core have the same properties, and names
  with different cores have no property in common.
-/

namespace ThemeColor

namespace Text

/-! ## Lower case forms -/

namespace CaseRun

/-- The lower case form of a member of the run. -/
def form (run : CaseRun) (code : Nat) : Nat := ((code : Int) + run.shift).toNat

/-- Whether all members of the run have the same parity. -/
def keepsParity (run : CaseRun) : Bool := Nat.beq (run.step % 2) 0 || Nat.beq run.first run.last

/-- Whether no member of the first run has its lower case form in the second one: the forms lie in
front of it, behind it or between its members. -/
def avoids (run other : CaseRun) : Bool :=
  Nat.blt (run.form run.last) other.first || Nat.blt other.last (run.form run.first) ||
    run.keepsParity && other.keepsParity && Nat.beq ((run.form run.first + other.first) % 2) 1

/-- A run `contains` every step-th number from its first to its last one. -/
theorem contains_iff {run : CaseRun} {code : Nat} :
    run.contains code ↔
      run.first ≤ code ∧ code ≤ run.last ∧ (code - run.first) % run.step = 0 := by
  simp [contains, and_assoc]

/-- All numbers of a run that `keepsParity` are even steps away from the first one. -/
theorem even_of_keepsParity {run : CaseRun} {code : Nat} (h : run.keepsParity)
    (hcode : run.contains code) : (code - run.first) % 2 = 0 := by
  obtain ⟨hfirst, hlast, hstep⟩ := contains_iff.mp hcode
  simp only [keepsParity, Bool.or_eq_true, Nat.beq_eq] at h
  rcases h with heven | hsingle
  · exact Nat.mod_eq_zero_of_dvd
      (Nat.dvd_trans (Nat.dvd_of_mod_eq_zero heven) (Nat.dvd_of_mod_eq_zero hstep))
  · omega

/-- If a run `avoids` another one, the lower case forms of its members are not there. -/
theorem not_contains_of_avoids {run other : CaseRun} {code : Nat} (hpos : 0 < run.form run.first)
    (h : run.avoids other) (hcode : run.contains code) :
    other.contains (run.form code) = false := by
  rw [Bool.eq_false_iff]
  intro hother
  have hrange := contains_iff.mp hcode
  have hranges := contains_iff.mp hother
  simp only [avoids, Bool.and_eq_true, Bool.or_eq_true, Nat.blt_eq, Nat.beq_eq] at h
  unfold form at *
  rcases h with (hbefore | hbehind) | ⟨⟨hrun, hruns⟩, hodd⟩
  · omega
  · omega
  · have := even_of_keepsParity hrun hcode
    have := even_of_keepsParity hruns hother
    omega

end CaseRun

/-- The capital dotted I, whose lower case form has two characters. -/
def dottedRun : CaseRun := ⟨0x130, 0x130, 1, 0⟩

/-- No lower case form is a character that has a lower case form itself: all `lowercaseRuns` avoid
each other. -/
theorem avoids_lowercaseRuns :
    lowercaseRuns.all fun run =>
      Nat.blt 0 (run.form run.first) && (dottedRun :: lowercaseRuns).all run.avoids := by
  decide +kernel

/-- The character has no lower case form other than itself. -/
structure Settled (c : Char) : Prop where
  /-- It is not the capital dotted I. -/
  not_dotted : dottedRun.contains c.toNat = false
  /-- It is in no run. -/
  not_contains : ∀ run ∈ lowercaseRuns, run.contains c.toNat = false

/-- A character outside of all runs is `Settled`. -/
theorem settled_of_all {c : Char}
    (h : (dottedRun :: lowercaseRuns).all fun run => !run.contains c.toNat) : Settled c := by
  simp only [List.all_cons, Bool.and_eq_true, Bool.not_eq_true', List.all_eq_true] at h
  exact ⟨h.1, h.2⟩

/-- A `Settled` character is its own lower case form. -/
theorem Settled.lowerChar_eq {c : Char} (h : Settled c) : lowerChar c = [c] := by
  have hdotted : c ≠ 'İ' := by
    rintro rfl
    exact absurd h.not_dotted (by decide)
  have hnone : lowercaseRuns.find? (·.contains c.toNat) = none :=
    List.find?_eq_none.mpr fun run hrun => Bool.eq_false_iff.mp (h.not_contains run hrun)
  rw [lowerChar, if_neg hdotted, hnone]

theorem Settled.ne_sigma {c : Char} (h : Settled c) : c ≠ 'Σ' := by
  rintro rfl
  have hrun : (lowercaseRuns.find? (·.contains 'Σ'.toNat)).isSome := by decide +kernel
  obtain ⟨run, hmem, hcontains⟩ := List.find?_isSome.mp hrun
  exact absurd hcontains (Bool.eq_false_iff.mp (h.not_contains run hmem))

theorem toNat_ofNat_or (n : Nat) : (Char.ofNat n).toNat = n ∨ Char.ofNat n = '\x00' := by
  by_cases h : n.isValidChar
  · left
    rw [Char.ofNat, dif_pos h]
    rfl
  · right
    rw [Char.ofNat, dif_neg h]
    rfl

/-- All characters that `lowerChar` gives are `Settled`. -/
theorem settled_of_mem_lowerChar {c d : Char} (h : d ∈ lowerChar c) : Settled d := by
  unfold lowerChar at h
  split at h
  · obtain rfl | rfl : d = 'i' ∨ d = '\u0307' := by simpa using h
    · exact settled_of_all (by decide +kernel)
    · exact settled_of_all (by decide +kernel)
  · rename_i hdotted
    split at h
    · rename_i run hfind
      obtain rfl := List.mem_singleton.mp h
      have hall := List.all_eq_true.mp avoids_lowercaseRuns run (List.mem_of_find?_eq_some hfind)
      rw [Bool.and_eq_true, Nat.blt_eq, List.all_eq_true] at hall
      have hcontains : run.contains c.toNat :=
        List.find?_some (p := fun run : CaseRun => run.contains c.toNat) hfind
      have havoids : ∀ other ∈ dottedRun :: lowercaseRuns,
          other.contains (run.form c.toNat) = false := fun other hother =>
        CaseRun.not_contains_of_avoids hall.1 (hall.2 other hother) hcontains
      -- A number that is no code point stands for the null character.
      rcases toNat_ofNat_or (run.form c.toNat) with hcode | hnull
      · refine ⟨?_, fun other hother => ?_⟩
        · exact hcode ▸ havoids dottedRun List.mem_cons_self
        · exact hcode ▸ havoids other (List.mem_cons_of_mem _ hother)
      · rw [← CaseRun.form, hnull]
        exact settled_of_all (by decide +kernel)
    · rename_i hnone
      obtain rfl := List.mem_singleton.mp h
      refine ⟨?_, fun run hrun => ?_⟩
      · rw [Bool.eq_false_iff, Ne, CaseRun.contains_iff]
        intro hcode
        refine hdotted (Char.toNat_inj.mp ?_)
        have : dottedRun.first ≤ d.toNat ∧ d.toNat ≤ dottedRun.last := ⟨hcode.1, hcode.2.1⟩
        simp only [dottedRun] at this
        exact Nat.le_antisymm this.2 this.1
      · exact Bool.eq_false_iff.mpr (List.find?_eq_none.mp hnone run hrun)

/-- All characters that `lowerAfter` gives are `Settled`. -/
theorem settled_of_mem_lowerAfter {before text : List Char} {d : Char}
    (h : d ∈ lowerAfter before text) : Settled d := by
  induction text generalizing before with
  | nil => cases h
  | cons c rest ih =>
    rw [lowerAfter, List.mem_append] at h
    rcases h with hform | hrest
    · split at hform
      · obtain rfl | rfl : d = 'ς' ∨ d = 'σ' := by
          split at hform <;> simp_all
        · exact settled_of_all (by decide +kernel)
        · exact settled_of_all (by decide +kernel)
      · exact settled_of_mem_lowerChar hform
    · exact ih hrest

/-- A text of `Settled` characters is left as it is by `lowerAfter`. -/
theorem lowerAfter_eq_self {text : List Char} (h : ∀ c ∈ text, Settled c) (before : List Char) :
    lowerAfter before text = text := by
  induction text generalizing before with
  | nil => rfl
  | cons c rest ih =>
    obtain ⟨hc, hrest⟩ := List.forall_mem_cons.mp h
    rw [lowerAfter, if_neg hc.ne_sigma, hc.lowerChar_eq, ih hrest]
    rfl

/-- A text of `Settled` characters is in lower case. -/
theorem lower_eq_self {text : List Char} (h : ∀ c ∈ text, Settled c) : lower text = text :=
  lowerAfter_eq_self h []

/-- All characters of a text in lower case are `Settled`. -/
theorem settled_of_mem_lower {text : List Char} {c : Char} (h : c ∈ lower text) : Settled c :=
  settled_of_mem_lowerAfter h

/-! ## Blank ends -/

theorem trim_eq_self {text : List Char} (h : ∀ c ∈ text, ¬ isBlank c) : trim text = text := by
  refine trimWhile_eq_self (fun c hc => ?_) (fun c hc => ?_)
  · exact Bool.eq_false_iff.mpr (h c (List.mem_of_mem_head? hc))
  · exact Bool.eq_false_iff.mpr (h c (List.mem_of_getLast? hc))

/-- What trimming leaves does not start with an element that satisfies `p`. -/
theorem head?_trimWhile {α : Type} {p : α → Bool} {l : List α} :
    ∀ a ∈ (trimWhile p l).head?, p a = false := by
  intro a ha
  obtain ⟨rest, hrest⟩ := dropEndWhile_isPrefix p (l.dropWhile p)
  have hhead := List.head?_dropWhile_not p l
  rw [← hrest] at hhead
  change a ∈ (dropEndWhile p (l.dropWhile p)).head? at ha
  rcases hkept : dropEndWhile p (l.dropWhile p) with _ | ⟨b, kept⟩
  · rw [hkept] at ha
    cases ha
  · rw [hkept] at ha hhead
    cases ha
    simpa using hhead

/-- Nor does it end with one. -/
theorem getLast?_trimWhile {α : Type} {p : α → Bool} {l : List α} :
    ∀ a ∈ (trimWhile p l).getLast?, p a = false := by
  intro a ha
  rw [trimWhile, dropEndWhile, List.getLast?_reverse] at ha
  have hhead := List.head?_dropWhile_not p (l.dropWhile p).reverse
  rw [Option.mem_def] at ha
  rw [ha] at hhead
  simpa using hhead

end Text

namespace ChannelNames

open Text

/-! ## Cores -/

/-- The text is the core of the name: the lower case form of the name without any `@` is this text
between blanks, with neither end of it blank, and `-` stands in the place of each `_`. -/
def IsCore (identifier : String) (core : List Char) : Prop :=
  ∃ before kept after, (lower identifier.toList).filter (· ≠ '@') = before ++ (kept ++ after) ∧
    (∀ c ∈ before, isBlank c) ∧ (∀ c ∈ after, isBlank c) ∧
    (∀ c ∈ kept.head?, isBlank c = false) ∧ (∀ c ∈ kept.getLast?, isBlank c = false) ∧
    core = kept.map fun c => if c = '_' then '-' else c

/-- Every name has exactly one text that satisfies `IsCore`, its `core`. -/
theorem isCore_iff {identifier : String} {text : List Char} :
    IsCore identifier text ↔ text = core identifier := by
  constructor
  · rintro ⟨before, kept, after, hlower, hbefore, hafter, hhead, hlast, rfl⟩
    rw [core, hlower, trim, trimWhile_append_left hbefore, trimWhile_append_right hafter,
      trimWhile_eq_self hhead hlast]
  · rintro rfl
    obtain ⟨before, after, hlower, hbefore, hafter⟩ :=
      exists_eq_trimWhile isBlank ((lower identifier.toList).filter (· ≠ '@'))
    exact ⟨before, _, after, hlower, hbefore, hafter, head?_trimWhile, getLast?_trimWhile, rfl⟩

/-- A character of a `core` is `Settled`, and it is neither of the two that are taken out of names.
-/
theorem settled_of_mem_core {identifier : String} {c : Char} (h : c ∈ core identifier) :
    Settled c ∧ c ≠ '@' ∧ c ≠ '_' := by
  obtain ⟨d, hd, rfl⟩ := List.mem_map.mp h
  obtain ⟨hlower, hat⟩ := List.mem_filter.mp ((trimWhile_isInfix isBlank _).subset hd)
  split
  · exact ⟨settled_of_all (by decide +kernel), by decide, by decide⟩
  · rename_i hdash
    exact ⟨settled_of_mem_lower hlower, of_decide_eq_true hat, hdash⟩

/-- A `core` without blanks is its own core. -/
theorem core_ofList_core {identifier : String} (h : ∀ c ∈ core identifier, ¬ isBlank c) :
    core (String.ofList (core identifier)) = core identifier := by
  have hlower : lower (core identifier) = core identifier :=
    lower_eq_self fun c hc => (settled_of_mem_core hc).1
  have hfilter : (core identifier).filter (· ≠ '@') = core identifier :=
    List.filter_eq_self.mpr fun c hc => decide_eq_true (settled_of_mem_core hc).2.1
  have hmap : (core identifier).map (fun c => if c = '_' then '-' else c) = core identifier :=
    (List.map_congr_left fun c hc => if_neg (settled_of_mem_core hc).2.2).trans (List.map_id' _)
  rw [core, String.toList_ofList, hlower, hfilter, trim_eq_self h, hmap]

/-! ## Properties -/

/-- The name of a `property` tells the core and the channel. -/
theorem property_inj {text text' : List Char} {channel channel' : Char} :
    property text channel = property text' channel' ↔ text = text' ∧ channel = channel' := by
  constructor
  · intro h
    have hlist := String.ofList_injective h
    simp only [List.cons.injEq, true_and] at hlist
    obtain ⟨hcore, hchannel⟩ := List.append_inj' hlist rfl
    exact ⟨hcore, by simpa using hchannel⟩
  · rintro ⟨rfl, rfl⟩
    rfl

theorem toList_ofCore (text : List Char) :
    (ofCore text).toList = ['r', 'g', 'b', 'a'].map (property text) := rfl

/-- Different cores have no property in common: the names of `ofCore` differ. -/
theorem ne_of_mem_ofCore {text text' : List Char} (h : text ≠ text') {a b : String}
    (ha : a ∈ (ofCore text).toList) (hb : b ∈ (ofCore text').toList) : a ≠ b := by
  rw [toList_ofCore] at ha hb
  obtain ⟨channel, -, rfl⟩ := List.mem_map.mp ha
  obtain ⟨channel', -, rfl⟩ := List.mem_map.mp hb
  exact fun hsame => h (property_inj.mp hsame).1

/-- The four names of `ofCore` differ from each other. -/
theorem nodup_ofCore (text : List Char) : (ofCore text).toList.Nodup := by
  rw [toList_ofCore]
  have hchannels : ['r', 'g', 'b', 'a'].Nodup := by decide
  refine List.pairwise_map.mpr (hchannels.imp fun hne hsame => ?_)
  exact hne (property_inj.mp hsame).2

/-- A name is refused by `ofIdentifier` exactly if its `core` is empty or has a blank in it. -/
theorem ofIdentifier_eq_error_iff {identifier : String} {e : ColorError} :
    ofIdentifier identifier = .error e ↔ e = .invalidIdentifier identifier ∧
      (core identifier = [] ∨ ∃ c ∈ core identifier, isBlank c) := by
  unfold ofIdentifier
  dsimp only
  rw [← List.any_eq_true]
  split
  · rename_i h
    rw [Except.error.injEq, eq_comm]
    exact ⟨fun he => ⟨he, h⟩, And.left⟩
  · rename_i h
    refine iff_of_false ?_ fun he => h he.2
    intro he
    cases he

/-- **The properties of different colors are apart.** Take the core of a name to be its lower case
form without any `@` and without blank ends, with `-` for `_`. A name is refused, with the name as
it is given, exactly if its core is empty or has a blank in it. Names with the same core have the
same four properties; names with different cores have none in common. A core that is taken for a
name has the properties that it was made for. -/
theorem ofIdentifier_separates :
    (∀ identifier text, IsCore identifier text ↔ text = core identifier) ∧
    (∀ x y names names', ofIdentifier x = .ok names → ofIdentifier y = .ok names' →
      (core x = core y → names = names') ∧
        (core x ≠ core y → ∀ a ∈ names.toList, ∀ b ∈ names'.toList, a ≠ b)) ∧
    (∀ x names, ofIdentifier x = .ok names →
      core x ≠ [] ∧ (∀ c ∈ core x, ¬ isBlank c) ∧ names.toList.Nodup ∧
        ofIdentifier (String.ofList (core x)) = .ok names) ∧
    ∀ x e, ofIdentifier x = .error e ↔
      e = .invalidIdentifier x ∧ (core x = [] ∨ ∃ c ∈ core x, isBlank c) := by
  refine ⟨fun _ _ => isCore_iff, fun x y names names' hx hy => ?_, fun x names hx => ?_,
    fun _ _ => ofIdentifier_eq_error_iff⟩
  · obtain ⟨-, -, rfl⟩ := ofIdentifier_eq_ok_iff.mp hx
    obtain ⟨-, -, rfl⟩ := ofIdentifier_eq_ok_iff.mp hy
    exact ⟨congrArg ofCore, fun hne a ha b hb => ne_of_mem_ofCore hne ha hb⟩
  · obtain ⟨hne, hsolid, rfl⟩ := ofIdentifier_eq_ok_iff.mp hx
    refine ⟨hne, hsolid, nodup_ofCore _, ofIdentifier_eq_ok_iff.mpr ?_⟩
    rw [core_ofList_core hsolid]
    exact ⟨hne, hsolid, rfl⟩

/-- A color that is named like another one with the letter of a channel behind it, and a name in
capitals that ends with a sigma. -/
theorem ofIdentifier_separates_suffix :
    (∃ dark darkR, ofIdentifier "@Dark" = .ok dark ∧ ofIdentifier "dark_R " = .ok darkR ∧
      core "@Dark" ≠ core "dark_R " ∧ ∀ a ∈ dark.toList, ∀ b ∈ darkR.toList, a ≠ b) ∧
    (∃ names, ofIdentifier "ΟΔΟΣ" = .ok names ∧ ofIdentifier "οδος" = .ok names) ∧
    ofIdentifier "@ a b" = .error (.invalidIdentifier "@ a b") := by
  obtain ⟨-, happart, haccepted, hrefused⟩ := ofIdentifier_separates
  have hdark : ofIdentifier "@Dark" = .ok ⟨"--dark-r", "--dark-g", "--dark-b", "--dark-a"⟩ := by
    decide +kernel
  have hdarkR : ofIdentifier "dark_R " =
      .ok ⟨"--dark-r-r", "--dark-r-g", "--dark-r-b", "--dark-r-a"⟩ := by
    decide +kernel
  have hcores : core "@Dark" ≠ core "dark_R " := by decide +kernel
  have hsigma : ofIdentifier "ΟΔΟΣ" = .ok ⟨"--οδος-r", "--οδος-g", "--οδος-b", "--οδος-a"⟩ := by
    decide +kernel
  have hcore : String.ofList (core "ΟΔΟΣ") = "οδος" := by decide +kernel
  refine ⟨⟨_, _, hdark, hdarkR, hcores, (happart _ _ _ _ hdark hdarkR).2 hcores⟩,
    ⟨_, hsigma, hcore ▸ (haccepted _ _ hsigma).2.2.2⟩, (hrefused _ _).mpr ⟨rfl, .inr ?_⟩⟩
  exact ⟨' ', by decide +kernel, by decide⟩

end ChannelNames

end ThemeColor
