import ThemeColor.Proofs.NumberReading

/-!
# Reading channels

The three channels of a color and its opacity are separated by commas, or by blanks and a slash.
Which of the two it is depends on whether there is a comma. This file proves that either way exactly
the channels of the grammar are found, and that the units which each channel allows are those of the
grammar.

## Main results

* `ColorGrammar.exists_channels_iff`: the values of the channels that are found are those of the
  channels in the grammar;
* `ColorGrammar.rgb_eq_ok_iff`, `ColorGrammar.hsl_eq_ok_iff`: the colors of `rgb()` and `hsl()`.
-/

namespace ThemeColor

open Component Text Grammar Segment

/-! ## Numbers as phrases -/

theorem Component.depthAll_mono {cs cs' : List Component} (h : cs ⊆ cs') :
    depthAll cs ≤ depthAll cs' :=
  depthAll_le_iff.mpr fun _ hc => depth_le_depthAll (h hc)

namespace Grammar

theorem trimWhile_subset (cs : List Component) : trimWhile isWhitespace cs ⊆ cs :=
  (trimWhile_isInfix isWhitespace cs).subset

/-- A `Number` is a `Sum` of what is read from its components. -/
theorem number_iff_sum {levels : Nat} {cs : List Component} {e : Expr Float}
    (h : depthAll cs < levels) :
    Number cs e ↔ Sum (fun c e => NumberGrammar.readComponent levels c = .ok e) cs e := by
  refine sum_congr fun c hc e => ((NumberGrammar.readComponent_spec ?_).1 e).symm
  exact Nat.lt_of_le_of_lt (depth_le_depthAll hc) h

/-- A `Number` may be written as an argument: it is a `Phrase`. -/
theorem phrase_number (e : Expr Float) : Phrase (Number · e) := by
  -- Any number of levels above the depth of the components will do.
  have hsum (levels : Nat) :=
    NumberGrammar.phrase_sum (NumberGrammar.skipsBlanks_readComponent levels)
      (NumberGrammar.isToken_comma_of_readComponent levels) e
  refine ⟨fun cs => ?_, fun cs h => ?_, fun cs h => ?_⟩
  · have hle : depthAll (trimWhile isWhitespace cs) < depthAll cs + 1 :=
      Nat.lt_succ_of_le (depthAll_mono (trimWhile_subset cs))
    rw [number_iff_sum hle, number_iff_sum (Nat.lt_succ_self _)]
    exact (hsum _).trim cs
  · exact (hsum _).comma cs ((number_iff_sum (Nat.lt_succ_self _)).mp h)
  · exact (hsum _).solid cs ((number_iff_sum (Nat.lt_succ_self _)).mp h)

/-- So may a number that stands for a `Channel`. -/
theorem phrase_channel (rule : Expr Float → Expr Float → Prop) (e : Expr Float) :
    Phrase (Channel rule · e) := by
  refine ⟨fun cs => ?_, ?_, ?_⟩
  · simp only [Channel, (phrase_number _).trim]
  · rintro cs ⟨n, hn, -⟩
    exact (phrase_number n).comma cs hn
  · rintro cs ⟨n, hn, -⟩
    exact (phrase_number n).solid cs hn

/-- An `Opacity` that is written is a channel on a scale of its own. -/
theorem opacity_some_iff {cs : List Component} {e : Expr Float} :
    Opacity (some cs) e ↔ Channel (Scaled (· / 100.0)) cs e :=
  ⟨fun | .written h => h, .written⟩

/-- Blank ends have no slash, so `NoSlash` does not depend on them. -/
theorem noSlash_trimWhile_iff {cs : List Component} :
    NoSlash (trimWhile isWhitespace cs) ↔ NoSlash cs := by
  refine ⟨fun h => ?_, fun h c hc => h c (trimWhile_subset cs hc)⟩
  obtain ⟨before, after, hcs, hbefore, hafter⟩ := exists_eq_trimWhile isWhitespace cs
  have hblank {c : Component} (hc : c.isWhitespace) : ¬ isToken (.delim '/') c := by
    rw [isToken_of_isWhitespace hc rfl]
    nofun
  rw [hcs]
  refine List.forall_mem_append.mpr ⟨fun c hc => hblank (hbefore c hc), ?_⟩
  exact List.forall_mem_append.mpr ⟨h, fun c hc => hblank (hafter c hc)⟩

/-- The channels are words, with a slash in front of the opacity. -/
def Spaced (cs x y z : List Component) (a : Option (List Component)) : Prop :=
  NoSlash cs ∧ Words cs [x, y, z] ∧ a = none ∨
    ∃ front slash tail w, cs = front ++ slash :: tail ∧ NoSlash front ∧
      isToken (.delim '/') slash ∧ NoSlash tail ∧ Words front [x, y, z] ∧ Words tail [w] ∧
        a = some w

/-- What is `Spaced` makes up `Channels`. -/
theorem Spaced.channels {cs x y z : List Component} {a : Option (List Component)}
    (h : Spaced cs x y z a) : Channels cs x y z a := by
  rcases h with ⟨hslash, hwords, rfl⟩ | ⟨front, slash, tail, w, rfl, hfront, hslash, htail, hwords,
    hw, rfl⟩
  · exact .blanks hslash hwords
  · exact .blanksAlpha hfront hwords hslash htail hw

theorem NoSlash.isSlash {cs : List Component} (h : NoSlash cs) :
    ∀ c ∈ cs, ColorGrammar.isSlash c = false := fun c hc => Bool.eq_false_iff.mpr (h c hc)

end Grammar

namespace ColorGrammar

/-! ## Channels separated by commas -/

/-- The channels of `commaChannels` are three or four arguments without a slash. -/
theorem commaChannels_eq_ok_iff {args : List Segment} {first second third : Segment}
    {alpha : Option Segment} :
    commaChannels args = .ok ([first, second, third], alpha) ↔
      (∀ arg ∈ args, NoSlash arg.parts) ∧
        args = [first, second, third] ++ alpha.toList := by
  unfold commaChannels
  cases hfind : (args.flatMap (·.parts)).find? isSlash with
  | some slash =>
    refine ⟨nofun, ?_⟩
    rintro ⟨hnone, -⟩
    obtain ⟨arg, harg, hmem⟩ := List.mem_flatMap.mp (List.mem_of_find?_eq_some hfind)
    exact absurd (List.find?_some hfind) (hnone arg harg slash hmem)
  | none =>
    have hnone : ∀ arg ∈ args, NoSlash arg.parts := fun arg harg c hc =>
      List.find?_eq_none.mp hfind c (List.mem_flatMap.mpr ⟨arg, harg, hc⟩)
    rw [and_iff_right hnone]
    dsimp only
    split
    · cases alpha <;> simp [and_assoc]
    · rename_i hfour
      cases alpha with
      | none => simp
      | some alpha => exact ⟨nofun, fun h => absurd h (hfour first second third alpha)⟩

/-! ## Channels separated by blanks -/

/-- Splitting at separators gives one piece more than there are separators. -/
theorem length_splitOnP {α : Type} (p : α → Bool) (l : List α) :
    (l.splitOnP p).length = (l.filter p).length + 1 := by
  induction l with
  | nil => rfl
  | cons a l ih =>
    rw [List.splitOnP_cons_eq_if_modifyHead]
    split
    · rename_i ha
      simp [ha, ih]
    · rename_i ha
      simp [ha, ih]

/-- The channels of `spacedChannels` are words, with one word for the opacity behind a slash. -/
theorem spacedChannels_eq_ok_iff {segment : Segment} {channels : List Segment}
    {alpha : Option Segment} :
    spacedChannels segment = .ok (channels, alpha) ↔
      NoSlash segment.parts ∧ channels = segment.words ∧ alpha = none ∨
        ∃ front tail a, splitOn isSlash segment.stop segment.parts = [front, tail] ∧
          channels = front.words ∧ tail.words = [a] ∧ alpha = some a := by
  -- There is one piece more than there are slashes.
  have hlength : (splitOn isSlash segment.stop segment.parts).length =
      (segment.parts.filter isSlash).length + 1 := by
    rw [← length_splitOnP, ← map_parts_splitOn isSlash segment.stop, List.length_map]
  have hnone : NoSlash segment.parts ↔ (segment.parts.filter isSlash).length = 0 := by
    rw [List.length_eq_zero_iff, List.filter_eq_nil_iff]
    rfl
  unfold spacedChannels
  rw [hnone]
  split
  · -- One slash, and one word behind it.
    rename_i front tail hsplit
    rw [hsplit, List.length_cons, List.length_singleton] at hlength
    split
    · rename_i a ha
      constructor
      · intro h
        cases h
        exact .inr ⟨front, tail, a, hsplit, rfl, ha, rfl⟩
      · rintro (⟨hzero, -⟩ | ⟨front', tail', a', hsplit', rfl, ha', rfl⟩)
        · omega
        · cases hsplit.symm.trans hsplit'
          cases ha.symm.trans ha'
          rfl
    · rename_i hwords
      refine ⟨nofun, ?_⟩
      rintro (⟨hzero, -⟩ | ⟨front', tail', a', hsplit', -, ha', -⟩)
      · omega
      · cases hsplit.symm.trans hsplit'
        exact absurd ha' (hwords a')
  · -- More than one slash is an error.
    rename_i x y z more hsplit
    rw [hsplit, List.length_cons, List.length_cons, List.length_cons] at hlength
    split
    · refine ⟨nofun, ?_⟩
      rintro (⟨hzero, -⟩ | ⟨front', tail', a', hsplit', -⟩)
      · omega
      · cases hsplit.symm.trans hsplit'
    · rename_i hfew
      cases hfilter : segment.parts.filter isSlash with
      | nil => simp [hfilter] at hlength
      | cons first rest =>
        cases rest with
        | nil => simp [hfilter] at hlength
        | cons second rest => exact absurd hfilter (hfew first second rest)
  · -- No slash.
    rename_i htwo hmore
    have hzero : (segment.parts.filter isSlash).length = 0 := by
      cases hsplit : splitOn isSlash segment.stop segment.parts with
      | nil => simp [hsplit] at hlength
      | cons x rest =>
        cases rest with
        | nil => simpa [hsplit] using hlength.symm
        | cons y rest =>
          cases rest with
          | nil => exact absurd hsplit (htwo x y)
          | cons z rest => exact absurd hsplit (hmore x y z rest)
    constructor
    · intro h
      cases h
      exact .inl ⟨hzero, rfl, rfl⟩
    · rintro (⟨-, rfl, rfl⟩ | ⟨front', tail', a', hsplit', -⟩)
      · rfl
      · exact absurd hsplit' (htwo front' tail')

/-- The `words` of a segment are the `Words` of its components. -/
theorem words_parts_iff {s : Segment} {words : List (List Component)} :
    s.words.map parts = words ↔ Words s.parts words := by
  rw [words_iff, map_parts_words]

/-- What a slash leaves of a segment without blank ends has the same `Words` as what it leaves of
the components with them. -/
theorem words_splitOn_iff {segment : Segment} {cs : List Component}
    {words words' : List (List Component)} (hparts : segment.parts = trimWhile isWhitespace cs) :
    (∃ front tail, splitOn isSlash segment.stop segment.parts = [front, tail] ∧
        Words front.parts words ∧ Words tail.parts words') ↔
      ∃ front slash tail, cs = front ++ slash :: tail ∧ NoSlash front ∧ isToken (.delim '/') slash ∧
        NoSlash tail ∧ Words front words ∧ Words tail words' := by
  have hsplit : ((splitOn isSlash segment.stop segment.parts).map parts).map
      (trimWhile isWhitespace) = (cs.splitOnP isSlash).map (trimWhile isWhitespace) := by
    rw [map_parts_splitOn, hparts]
    exact map_trimWhile_splitOnP (fun c hc => isToken_of_isWhitespace hc rfl) cs
  constructor
  · rintro ⟨front, tail, heq, hfront, htail⟩
    rw [heq] at hsplit
    obtain ⟨x, rest, hcs, hx, hrest⟩ := List.map_eq_cons_iff.mp hsplit.symm
    obtain ⟨y, more, rfl, hy, hmore⟩ := List.map_eq_cons_iff.mp hrest
    obtain rfl := List.map_eq_nil_iff.mp hmore
    obtain ⟨slash, rest, rfl, hslash, hnone, hrest⟩ := splitOnP_eq_cons_cons_iff.mp hcs
    obtain ⟨rfl, hnone'⟩ := splitOnP_eq_singleton_iff.mp hrest
    refine ⟨x, slash, rest, rfl, fun c hc => Bool.eq_false_iff.mp (hnone c hc), hslash,
      fun c hc => Bool.eq_false_iff.mp (hnone' c hc), ?_, ?_⟩
    · rwa [← words_trimWhile_iff, hx, words_trimWhile_iff]
    · rwa [← words_trimWhile_iff, hy, words_trimWhile_iff]
  · rintro ⟨front, slash, tail, rfl, hfront, hslash, htail, hwords, hwords'⟩
    rw [List.splitOnP_append_cons_of_forall_mem hfront.isSlash _ hslash,
      List.splitOnP_eq_singleton htail.isSlash] at hsplit
    obtain ⟨x, rest, hpieces, hx, hrest⟩ := List.map_eq_cons_iff.mp hsplit
    obtain ⟨y, more, rfl, hy, hmore⟩ := List.map_eq_cons_iff.mp hrest
    obtain rfl := List.map_eq_nil_iff.mp hmore
    obtain ⟨front', rest, heq, rfl, hrest⟩ := List.map_eq_cons_iff.mp hpieces
    obtain ⟨tail', rfl, rfl⟩ := List.map_eq_singleton_iff.mp hrest
    refine ⟨front', tail', heq, ?_, ?_⟩
    · rwa [← words_trimWhile_iff, hx, words_trimWhile_iff]
    · rwa [← words_trimWhile_iff, hy, words_trimWhile_iff]

/-- The channels that `spacedChannels` finds in a segment that has lost its blank ends are words,
with a slash in front of the opacity. -/
theorem spacedChannels_iff {segment : Segment} {cs x y z : List Component}
    {a : Option (List Component)} (hparts : segment.parts = trimWhile isWhitespace cs) :
    (∃ first second third alpha, spacedChannels segment = .ok ([first, second, third], alpha) ∧
        [first, second, third].map parts = [x, y, z] ∧ alpha.map parts = a) ↔
      Spaced cs x y z a := by
  have hthree {words : List Segment} (h : words.map parts = [x, y, z]) :
      ∃ first second third, words = [first, second, third] :=
    List.length_eq_three.mp (by simpa using congrArg List.length h)
  simp only [spacedChannels_eq_ok_iff]
  constructor
  · rintro ⟨first, second, third, alpha,
      ⟨hslash, hwords, rfl⟩ | ⟨front, tail, w, hsplit, hwords, hw, rfl⟩, hxyz, rfl⟩
    · rw [hwords, words_parts_iff, hparts, words_trimWhile_iff] at hxyz
      rw [hparts, noSlash_trimWhile_iff] at hslash
      exact .inl ⟨hslash, hxyz, rfl⟩
    · rw [hwords, words_parts_iff] at hxyz
      have hw' : Words tail.parts [w.parts] := words_parts_iff.mp (by rw [hw]; rfl)
      obtain ⟨front, slash, tail, rfl, hfront, hslash, htail, hall⟩ :=
        (words_splitOn_iff hparts).mp ⟨front, tail, hsplit, hxyz, hw'⟩
      exact .inr ⟨front, slash, tail, _, rfl, hfront, hslash, htail, hall.1, hall.2, rfl⟩
  · rintro (⟨hslash, hwords, rfl⟩ |
      ⟨front, slash, tail, w, rfl, hfront, hslash, htail, hwords, hw, rfl⟩)
    · rw [← noSlash_trimWhile_iff, ← hparts] at hslash
      rw [← words_trimWhile_iff, ← hparts, ← words_parts_iff] at hwords
      obtain ⟨first, second, third, heq⟩ := hthree hwords
      rw [heq] at hwords
      exact ⟨first, second, third, none, .inl ⟨hslash, heq.symm, rfl⟩, hwords, rfl⟩
    · obtain ⟨front', tail', hsplit, hwords', hw'⟩ := (words_splitOn_iff hparts).mpr
        ⟨front, slash, tail, rfl, hfront, hslash, htail, hwords, hw⟩
      rw [← words_parts_iff] at hwords' hw'
      obtain ⟨first, second, third, heq⟩ := hthree hwords'
      obtain ⟨alpha, halpha, rfl⟩ := List.map_eq_singleton_iff.mp hw'
      rw [heq] at hwords'
      exact ⟨first, second, third, some alpha,
        .inr ⟨front', tail', alpha, hsplit, heq.symm, halpha, rfl⟩, hwords', rfl⟩

end ColorGrammar

/-! ## Channels of either kind -/

namespace Grammar

section Channels

variable {cs x y z : List Component} {a : Option (List Component)}

/-- Three or four pieces between commas are `Channels`. -/
theorem Channels.of_splitOnP (h : cs.splitOnP (isToken .comma) = [x, y, z] ++ a.toList)
    (hslash : ∀ piece ∈ [x, y, z] ++ a.toList, NoSlash piece) : Channels cs x y z a := by
  obtain ⟨s, rest, rfl, hs, -, h⟩ := splitOnP_eq_cons_cons_iff.mp h
  obtain ⟨t, rest, rfl, ht, -, h⟩ := splitOnP_eq_cons_cons_iff.mp h
  cases a with
  | none =>
    obtain ⟨rfl, -⟩ := splitOnP_eq_singleton_iff.mp h
    exact .commas hs ht (hslash _ (by simp)) (hslash _ (by simp)) (hslash _ (by simp))
  | some a =>
    obtain ⟨u, rest, rfl, hu, -, h⟩ := splitOnP_eq_cons_cons_iff.mp h
    obtain ⟨rfl, -⟩ := splitOnP_eq_singleton_iff.mp h
    exact .commasAlpha hs ht hu (hslash _ (by simp)) (hslash _ (by simp)) (hslash _ (by simp))
      (hslash _ (by simp))

/-- The `Channels` that have no comma of their own are what commas leave of the components, or there
is no comma at all. -/
theorem Channels.cases_of_comma (h : Channels cs x y z a)
    (hcomma : ∀ piece ∈ [x, y, z] ++ a.toList, ∀ c ∈ piece, isToken .comma c = false) :
    cs.splitOnP (isToken .comma) = [x, y, z] ++ a.toList ∧
        (∀ piece ∈ [x, y, z] ++ a.toList, NoSlash piece) ∨
      (∀ c ∈ cs, isToken .comma c = false) ∧ Spaced cs x y z a := by
  have hblank (c : Component) (hc : c.isWhitespace) : isToken .comma c = false :=
    isToken_of_isWhitespace hc rfl
  cases h with
  | commas hs ht hx hy hz =>
    refine .inl ⟨?_, by simp [hx, hy, hz]⟩
    refine splitOnP_eq_cons_cons_iff.mpr ⟨_, _, rfl, hs, hcomma _ (by simp), ?_⟩
    refine splitOnP_eq_cons_cons_iff.mpr ⟨_, _, rfl, ht, hcomma _ (by simp), ?_⟩
    exact splitOnP_eq_singleton_iff.mpr ⟨rfl, hcomma _ (by simp)⟩
  | commasAlpha hs ht hu hx hy hz ha =>
    refine .inl ⟨?_, by simp [hx, hy, hz, ha]⟩
    refine splitOnP_eq_cons_cons_iff.mpr ⟨_, _, rfl, hs, hcomma _ (by simp), ?_⟩
    refine splitOnP_eq_cons_cons_iff.mpr ⟨_, _, rfl, ht, hcomma _ (by simp), ?_⟩
    refine splitOnP_eq_cons_cons_iff.mpr ⟨_, _, rfl, hu, hcomma _ (by simp), ?_⟩
    exact splitOnP_eq_singleton_iff.mpr ⟨rfl, hcomma _ (by simp)⟩
  | blanks hcs hwords =>
    refine .inr ⟨hwords.forall_mem hblank fun piece hpiece => ?_, .inl ⟨hcs, hwords, rfl⟩⟩
    exact hcomma piece (List.mem_append_left _ hpiece)
  | @blanksAlpha front tail x y z w slash hcs hwords hslash htail halpha =>
    refine .inr ⟨List.forall_mem_append.mpr ⟨?_, List.forall_mem_cons.mpr ⟨?_, ?_⟩⟩, ?_⟩
    · refine hwords.forall_mem hblank fun piece hpiece => ?_
      exact hcomma piece (List.mem_append_left _ hpiece)
    · rw [Bool.eq_false_iff, Ne, isToken_iff, isToken_iff.mp hslash]
      nofun
    · refine halpha.forall_mem hblank fun piece hpiece => ?_
      exact hcomma piece (List.mem_append_right _ hpiece)
    · exact .inr ⟨front, slash, tail, w, rfl, hcs, hslash, htail, hwords, halpha, rfl⟩

end Channels

end Grammar

namespace ColorGrammar

section Channels

variable {opener : Lexeme} {name : String} {inside first second third : Segment}
  {alpha : Option Segment}

/-- The function `channels` looks at commas first, and at blanks if there is one argument only. -/
theorem channels_eq_ok_iff :
    channels opener name inside = .ok ((first, second, third), alpha) ↔
      ∃ args, inside.arguments = .ok args ∧
        ((∃ only, args = [only] ∧ spacedChannels only = .ok ([first, second, third], alpha)) ∨
          commaChannels args = .ok ([first, second, third], alpha)) := by
  unfold channels
  rw [bind_eq_ok_iff]
  refine exists_congr fun args => and_congr_right fun _ => ?_
  dsimp only
  split
  · rename_i only _
    refine threeChannels_eq_ok_iff.trans ⟨fun h => .inl ⟨only, rfl, h⟩, ?_⟩
    rintro (⟨only', heq, h⟩ | h)
    · cases heq
      exact h
    · -- One argument is not three channels with commas between them.
      rw [commaChannels_eq_ok_iff] at h
      simp at h
  · rename_i hmany
    refine threeChannels_eq_ok_iff.trans ⟨.inr, ?_⟩
    rintro (⟨only, heq, -⟩ | h)
    · exact absurd heq (hmany only)
    · exact h

/-- A list with the same images as three elements and an optional fourth one is made up in the same
way. -/
theorem exists_of_map_eq {α β γ : Type} {f : α → γ} {g : β → γ} {l : List α} {x y z : β}
    {a : Option β} (h : l.map f = ([x, y, z] ++ a.toList).map g) :
    ∃ x' y' z' a', l = [x', y', z'] ++ a'.toList ∧ f x' = g x ∧ f y' = g y ∧ f z' = g z ∧
      Option.map f a' = a.map g := by
  obtain ⟨x', l, rfl, hx, h⟩ := List.map_eq_cons_iff.mp h
  obtain ⟨y', l, rfl, hy, h⟩ := List.map_eq_cons_iff.mp h
  obtain ⟨z', l, rfl, hz, h⟩ := List.map_eq_cons_iff.mp h
  cases a with
  | none =>
    obtain rfl := List.map_eq_nil_iff.mp h
    exact ⟨x', y', z', none, rfl, hx, hy, hz, rfl⟩
  | some a =>
    obtain ⟨a', rfl, ha⟩ := List.map_eq_singleton_iff.mp h
    exact ⟨x', y', z', some a', rfl, hx, hy, hz, congrArg some ha⟩

section Phrases

variable {P Q R : List Component → Prop} {A : Option (List Component) → Prop}

theorem trim_option_iff (hA : Phrase fun cs => A (some cs)) (a : Option (List Component)) :
    A (a.map (trimWhile isWhitespace)) ↔ A a := by
  cases a with
  | none => rfl
  | some cs => exact hA.trim cs

/-- Phrases that `channels` finds are `Channels` in the grammar, up to blank ends. -/
theorem exists_channels_of_ok (hP : Phrase P) (hQ : Phrase Q) (hR : Phrase R)
    (hA : Phrase fun cs => A (some cs))
    (h : channels opener name inside = .ok ((first, second, third), alpha)) (hfirst : P first.parts)
    (hsecond : Q second.parts) (hthird : R third.parts) (halpha : A (alpha.map parts)) :
    ∃ x y z a, Channels inside.parts x y z a ∧ P x ∧ Q y ∧ R z ∧ A a := by
  obtain ⟨args, hargs, h⟩ := channels_eq_ok_iff.mp h
  rcases map_parts_of_arguments hargs with ⟨-, rfl⟩ | ⟨-, hpieces⟩
  · -- Without arguments there are no channels.
    rcases h with ⟨only, heq, -⟩ | h
    · cases heq
    · rw [commaChannels_eq_ok_iff] at h
      simp at h
  rcases h with ⟨only, rfl, h⟩ | h
  · obtain ⟨cs, hcs, hparts⟩ := List.map_eq_singleton_iff.mp hpieces.symm
    obtain ⟨rfl, -⟩ := splitOnP_eq_singleton_iff.mp hcs
    have hspaced := (spacedChannels_iff hparts.symm).mp ⟨first, second, third, alpha, h, rfl, rfl⟩
    exact ⟨_, _, _, _, hspaced.channels, hfirst, hsecond, hthird, halpha⟩
  · obtain ⟨hslash, rfl⟩ := commaChannels_eq_ok_iff.mp h
    obtain ⟨x, y, z, a, hsplit, hx, hy, hz, ha⟩ := exists_of_map_eq hpieces.symm
    -- The arguments are the pieces without blank ends, which do not matter to phrases.
    rw [← hx, hP.trim] at hfirst
    rw [← hy, hQ.trim] at hsecond
    rw [← hz, hR.trim] at hthird
    rw [← ha, trim_option_iff hA] at halpha
    refine ⟨x, y, z, a, .of_splitOnP hsplit fun piece hpiece => ?_, hfirst, hsecond, hthird, halpha⟩
    -- The piece has lost its blank ends only, and there is no slash in what is left of it.
    have hmem := List.mem_map_of_mem (f := trimWhile isWhitespace) hpiece
    rw [← hsplit, ← hpieces] at hmem
    obtain ⟨arg, harg, heq⟩ := List.mem_map.mp hmem
    rw [← noSlash_trimWhile_iff, ← heq]
    exact hslash arg harg

variable (opener name) in
/-- Phrases that are `Channels` in the grammar are found by `channels`, up to blank ends. -/
theorem exists_ok_of_channels (hP : Phrase P) (hQ : Phrase Q) (hR : Phrase R)
    (hA : Phrase fun cs => A (some cs)) {x y z : List Component} {a : Option (List Component)}
    (h : Channels inside.parts x y z a) (hx : P x) (hy : Q y) (hz : R z) (ha : A a) :
    ∃ first second third alpha, channels opener name inside = .ok ((first, second, third), alpha) ∧
      P first.parts ∧ Q second.parts ∧ R third.parts ∧ A (alpha.map parts) := by
  simp only [channels_eq_ok_iff]
  -- What phrases have in common is enough to find the same pieces again.
  have hphrases : ∀ piece ∈ [x, y, z] ++ a.toList,
      ¬ Blank piece ∧ ∀ c ∈ piece, isToken .comma c = false := by
    refine List.forall_mem_append.mpr ⟨?_, fun piece hpiece => ?_⟩
    · simp only [List.forall_mem_cons]
      exact ⟨⟨hP.solid x hx, hP.comma x hx⟩, ⟨hQ.solid y hy, hQ.comma y hy⟩,
        ⟨hR.solid z hz, hR.comma z hz⟩, nofun⟩
    · obtain rfl := Option.mem_toList.mp hpiece
      exact ⟨hA.solid piece ha, hA.comma piece ha⟩
  rcases h.cases_of_comma fun piece hpiece => (hphrases piece hpiece).2 with
    ⟨hsplit, hslash⟩ | ⟨hcomma, hspaced⟩
  · have hsolid : ∀ piece ∈ inside.parts.splitOnP (isToken .comma), ¬ Blank piece := by
      rw [hsplit]
      exact fun piece hpiece => (hphrases piece hpiece).1
    obtain ⟨args, hargs, hparts⟩ := exists_arguments hsolid
    rw [hsplit] at hparts
    obtain ⟨first, second, third, alpha, rfl, hfirst, hsecond, hthird, halpha⟩ :=
      exists_of_map_eq hparts
    refine ⟨first, second, third, alpha, ⟨_, hargs, .inr ?_⟩, ?_⟩
    · refine commaChannels_eq_ok_iff.mpr ⟨fun arg harg => ?_, rfl⟩
      have hmem := List.mem_map_of_mem (f := parts) harg
      rw [hparts] at hmem
      obtain ⟨piece, hpiece, heq⟩ := List.mem_map.mp hmem
      rw [← heq, noSlash_trimWhile_iff]
      exact hslash piece hpiece
    · rw [hfirst, hsecond, hthird, halpha, hP.trim, hQ.trim, hR.trim, trim_option_iff hA]
      exact ⟨hx, hy, hz, ha⟩
  · have hsplit := List.splitOnP_eq_singleton hcomma
    -- The first channel is somewhere inside, so the inside is not blank.
    have hsub : x ⊆ inside.parts := by
      rcases hspaced with ⟨-, hwords, -⟩ | ⟨front, slash, tail, w, heq, -, -, -, hwords, -⟩
      · exact hwords.subset (by simp)
      · rw [heq]
        exact List.Subset.trans (hwords.subset (by simp)) (List.subset_append_left _ _)
    have hsolid : ∀ piece ∈ inside.parts.splitOnP (isToken .comma), ¬ Blank piece := by
      rw [hsplit, List.forall_mem_singleton]
      exact fun hblank => hP.solid x hx fun c hc => hblank c (hsub hc)
    obtain ⟨args, hargs, hparts⟩ := exists_arguments hsolid
    rw [hsplit] at hparts
    obtain ⟨only, rfl, honly⟩ := List.map_eq_singleton_iff.mp hparts
    obtain ⟨first, second, third, alpha, hread, hxyz, rfl⟩ := (spacedChannels_iff honly).mpr hspaced
    simp only [List.map_cons, List.map_nil, List.cons.injEq, and_true] at hxyz
    obtain ⟨rfl, rfl, rfl⟩ := hxyz
    exact ⟨first, second, third, alpha, ⟨_, hargs, .inl ⟨only, rfl, hread⟩⟩, hx, hy, hz, ha⟩

end Phrases

end Channels

/-! ## Units -/

section Units

variable {levels : Nat} {segment : Segment} {n e : Expr Float}

theorem quantity?_eq_none_iff : n.quantity? = none ↔ ∀ q, n ≠ .quantity q := by
  cases n <;> simp [Expr.quantity?]

/-- What a channel makes of a quantity or of an expression with an unknown value. -/
theorem match_quantity_eq_ok_iff {f : Quantity Float → Except ColorError (Expr Float)}
    {rule : Expr Float → Expr Float → Prop} (hrule : ∀ q e, f q = .ok e ↔ rule (.quantity q) e)
    (hunknown : ∀ n e, n.quantity? = none → (rule n e ↔ e = n)) :
    (match n with
      | .quantity q => f q
      | n => pure n) = .ok e ↔ rule n e := by
  split
  · exact hrule _ e
  · rename_i hn
    rw [hunknown n e (quantity?_eq_none_iff.mpr hn)]
    exact ⟨fun h => (Except.ok.inj h).symm, fun h => by rw [h]; rfl⟩

/-- A known value is taken to the scale of its channel as `Scaled` says. -/
theorem scaled_eq_ok_iff (scale : Float → Float) {q : Quantity Float} {error : ColorError} :
    (if q.unit = "%" then pure (.number (scale q.value))
      else if q.isUnitless then pure (.quantity q)
      else throw error : Except ColorError (Expr Float)) = .ok e ↔
      Scaled scale (.quantity q) e := by
  obtain ⟨v, unit⟩ := q
  constructor
  · intro h
    split at h
    · rename_i hunit
      cases hunit
      cases h
      exact .percent v
    · split at h
      · rename_i hunit
        cases eq_of_beq hunit
        cases h
        exact .plain v
      · cases h
  · intro h
    cases h with
    | percent => rfl
    | plain => rfl
    | unknown h => cases h

/-- An unknown value is `Scaled` to itself. -/
theorem scaled_unknown_iff {scale : Float → Float} (n e : Expr Float) (h : n.quantity? = none) :
    Scaled scale n e ↔ e = n := by
  constructor
  · intro hscaled
    cases hscaled with
    | percent => cases h
    | plain => cases h
    | unknown _ => rfl
  · rintro rfl
    exact .unknown h

/-- The reader `rgbChannel` reads a `Channel` that is `Scaled` from percentages. -/
theorem rgbChannel_eq_ok_iff (h : depthAll segment.parts < levels) :
    rgbChannel levels segment = .ok e ↔ Channel (Scaled (· * 2.55)) segment.parts e := by
  unfold rgbChannel
  rw [bind_eq_ok_iff, Channel]
  refine exists_congr fun n => and_congr (number_eq_ok_iff h) ?_
  exact match_quantity_eq_ok_iff (fun _ _ => scaled_eq_ok_iff (· * 2.55)) scaled_unknown_iff

/-- The reader `alphaValue` reads an `Opacity`. -/
theorem alphaValue_eq_ok_iff {segment : Option Segment}
    (h : ∀ s ∈ segment, depthAll s.parts < levels) :
    alphaValue levels segment = .ok e ↔ Opacity (segment.map parts) e := by
  unfold alphaValue
  cases segment with
  | none =>
    refine ⟨fun h => ?_, fun h => ?_⟩
    · cases h
      exact .full
    · cases h
      rfl
  | some segment =>
    rw [Option.map_some, opacity_some_iff, Channel, bind_eq_ok_iff]
    refine exists_congr fun n => and_congr (number_eq_ok_iff (h segment rfl)) ?_
    exact match_quantity_eq_ok_iff (fun _ _ => scaled_eq_ok_iff (· / 100.0)) scaled_unknown_iff

/-- The units of `isAngleUnit`, whatever the case of their letters. -/
theorem isAngleUnit_iff {unit : String} :
    isAngleUnit unit ↔
      ∃ angle ∈ ["", "deg", "grad", "rad", "turn"], sameIgnoringCase unit angle := by
  have hlower : ∀ angle ∈ ["", "deg", "grad", "rad", "turn"], asciiLower angle = angle := by
    refine fun angle hangle => asciiLower_eq_self ?_
    revert angle
    decide
  rw [isAngleUnit, List.contains_iff_mem]
  constructor
  · intro h
    exact ⟨_, h, (sameIgnoringCase_iff (hlower _ h)).mpr rfl⟩
  · rintro ⟨angle, hangle, h⟩
    rwa [(sameIgnoringCase_iff (hlower angle hangle)).mp h]

/-- The reader `hue` reads a `Channel` that is an `Angle`. -/
theorem hue_eq_ok_iff (h : depthAll segment.parts < levels) :
    hue levels segment = .ok e ↔ Channel Angle segment.parts e := by
  unfold hue
  rw [bind_eq_ok_iff, Channel]
  refine exists_congr fun n => and_congr (number_eq_ok_iff h) ?_
  refine match_quantity_eq_ok_iff (fun q e => ?_) fun n e hn => ?_
  · constructor
    · intro h
      split at h
      · rename_i hunit
        cases h
        exact .angle (isAngleUnit_iff.mp hunit)
      · cases h
    · intro h
      cases h with
      | angle h =>
        rw [if_pos (isAngleUnit_iff.mpr h)]
        rfl
      | unknown h => cases h
  · constructor
    · intro h
      cases h with
      | angle h => rfl
      | unknown h => rfl
    · rintro rfl
      exact .unknown hn

/-- The reader `percentage` reads a `Channel` that is a `Percentage`. -/
theorem percentage_eq_ok_iff (h : depthAll segment.parts < levels) :
    percentage levels segment = .ok e ↔ Channel Percentage segment.parts e := by
  unfold percentage
  rw [bind_eq_ok_iff, Channel]
  refine exists_congr fun n => and_congr (number_eq_ok_iff h) ?_
  refine match_quantity_eq_ok_iff (fun q e => ?_) fun n e hn => ?_
  · obtain ⟨v, unit⟩ := q
    constructor
    · intro h
      split at h
      · rename_i hunit
        cases eq_of_beq hunit
        cases h
        exact .plain v
      · split at h
        · rename_i hunit
          cases hunit
          cases h
          exact .percent v
        · cases h
    · intro h
      cases h with
      | percent => rfl
      | plain => rfl
      | unknown h => cases h
  · constructor
    · intro h
      cases h with
      | percent => rfl
      | plain => cases hn
      | unknown h => rfl
    · rintro rfl
      exact .unknown hn

end Units

/-! ## The two functions -/

section Functions

variable {levels : Nat} {opener : Lexeme} {name : String} {inside : Segment}

variable (opener name) in
/-- The values of the channels that `channels` finds are the values of the `Channels` in the
grammar. -/
theorem exists_channels_iff {readX readY readZ : Segment → Except ColorError (Expr Float)}
    {ruleX ruleY ruleZ : Expr Float → Expr Float → Prop} {x y z a : Expr Float}
    (hX : ∀ s, depthAll s.parts < levels → (readX s = .ok x ↔ Channel ruleX s.parts x))
    (hY : ∀ s, depthAll s.parts < levels → (readY s = .ok y ↔ Channel ruleY s.parts y))
    (hZ : ∀ s, depthAll s.parts < levels → (readZ s = .ok z ↔ Channel ruleZ s.parts z))
    (hinside : depthAll inside.parts < levels) :
    (∃ first second third alpha, channels opener name inside = .ok ((first, second, third), alpha) ∧
        readX first = .ok x ∧ readY second = .ok y ∧ readZ third = .ok z ∧
          alphaValue levels alpha = .ok a) ↔
      ∃ first second third alpha, Channels inside.parts first second third alpha ∧
        Channel ruleX first x ∧ Channel ruleY second y ∧ Channel ruleZ third z ∧
          Opacity alpha a := by
  have hopacity : Phrase fun cs => Opacity (some cs) a := by
    simp only [opacity_some_iff]
    exact phrase_channel _ a
  -- The channels consist of components inside, so they nest no deeper.
  have hdepth {s : Segment} (hs : s.All fun c => c.depth ≤ depthAll inside.parts) :
      depthAll s.parts < levels := Nat.lt_of_le_of_lt (depthAll_le_iff.mpr hs) hinside
  constructor
  · rintro ⟨first, second, third, alpha, h, hx, hy, hz, ha⟩
    obtain ⟨hfirst, hsecond, hthird, halpha⟩ :=
      channels_all (P := fun c => c.depth ≤ depthAll inside.parts)
        (fun c hc => depth_le_depthAll hc) h
    exact exists_channels_of_ok (phrase_channel ruleX x) (phrase_channel ruleY y)
      (phrase_channel ruleZ z) hopacity h ((hX first (hdepth hfirst)).mp hx)
      ((hY second (hdepth hsecond)).mp hy) ((hZ third (hdepth hthird)).mp hz)
      ((alphaValue_eq_ok_iff fun s hs => hdepth (halpha s hs)).mp ha)
  · rintro ⟨cs, cs', cs'', alpha, h, hx, hy, hz, ha⟩
    obtain ⟨first, second, third, alpha, h, hx, hy, hz, ha⟩ :=
      exists_ok_of_channels opener name (A := fun alpha => Opacity alpha a)
        (phrase_channel ruleX x) (phrase_channel ruleY y) (phrase_channel ruleZ z) hopacity
        h hx hy hz ha
    obtain ⟨hfirst, hsecond, hthird, halpha⟩ :=
      channels_all (P := fun c => c.depth ≤ depthAll inside.parts)
        (fun c hc => depth_le_depthAll hc) h
    exact ⟨first, second, third, alpha, h, (hX first (hdepth hfirst)).mpr hx,
      (hY second (hdepth hsecond)).mpr hy, (hZ third (hdepth hthird)).mpr hz,
      (alphaValue_eq_ok_iff fun s hs => hdepth (halpha s hs)).mpr ha⟩

/-- The reader `rgb` reads three channels and an opacity, as the grammar says. -/
theorem rgb_eq_ok_iff {color : Color Float} (h : depthAll inside.parts < levels) :
    rgb levels opener name inside = .ok color ↔
      ∃ c x y z a, color = .rgb c ∧ Channels inside.parts x y z a ∧
        Channel (Scaled (· * 2.55)) x c.red ∧ Channel (Scaled (· * 2.55)) y c.green ∧
          Channel (Scaled (· * 2.55)) z c.blue ∧ Opacity a c.alpha := by
  have hchannels (c : Rgb Float) := exists_channels_iff opener name
    (x := c.red) (y := c.green) (z := c.blue) (a := c.alpha)
    (fun s hs => rgbChannel_eq_ok_iff hs) (fun s hs => rgbChannel_eq_ok_iff hs)
    (fun s hs => rgbChannel_eq_ok_iff hs) h
  constructor
  · intro hread
    obtain ⟨⟨⟨first, second, third⟩, alpha⟩, hfound, hread⟩ := exists_of_bind_eq_ok hread
    obtain ⟨red, hred, hread⟩ := exists_of_bind_eq_ok hread
    obtain ⟨green, hgreen, hread⟩ := exists_of_bind_eq_ok hread
    obtain ⟨blue, hblue, hread⟩ := exists_of_bind_eq_ok hread
    obtain ⟨a, ha, hread⟩ := exists_of_bind_eq_ok hread
    cases hread
    obtain ⟨x, y, z, alpha, hall⟩ := (hchannels ⟨red, green, blue, a⟩).mp
      ⟨first, second, third, alpha, hfound, hred, hgreen, hblue, ha⟩
    exact ⟨_, x, y, z, alpha, rfl, hall⟩
  · rintro ⟨c, x, y, z, alpha, rfl, hall⟩
    obtain ⟨first, second, third, alpha, hfound, hred, hgreen, hblue, ha⟩ :=
      (hchannels c).mpr ⟨x, y, z, alpha, hall⟩
    refine bind_eq_ok_iff.mpr ⟨_, hfound, bind_eq_ok_iff.mpr ⟨_, hred, ?_⟩⟩
    refine bind_eq_ok_iff.mpr ⟨_, hgreen, bind_eq_ok_iff.mpr ⟨_, hblue, ?_⟩⟩
    exact bind_eq_ok_iff.mpr ⟨_, ha, rfl⟩

/-- The reader `hsl` reads an angle, two shares and an opacity, as the grammar says. -/
theorem hsl_eq_ok_iff {color : Color Float} (h : depthAll inside.parts < levels) :
    hsl levels opener name inside = .ok color ↔
      ∃ c x y z a, color = .hsl c ∧ Channels inside.parts x y z a ∧ Channel Angle x c.hue ∧
        Channel Percentage y c.saturation ∧ Channel Percentage z c.lightness ∧
          Opacity a c.alpha := by
  have hchannels (c : Hsl Float) := exists_channels_iff opener name
    (x := c.hue) (y := c.saturation) (z := c.lightness) (a := c.alpha)
    (fun s hs => hue_eq_ok_iff hs) (fun s hs => percentage_eq_ok_iff hs)
    (fun s hs => percentage_eq_ok_iff hs) h
  constructor
  · intro hread
    obtain ⟨⟨⟨first, second, third⟩, alpha⟩, hfound, hread⟩ := exists_of_bind_eq_ok hread
    obtain ⟨hue, hhue, hread⟩ := exists_of_bind_eq_ok hread
    obtain ⟨saturation, hsaturation, hread⟩ := exists_of_bind_eq_ok hread
    obtain ⟨lightness, hlightness, hread⟩ := exists_of_bind_eq_ok hread
    obtain ⟨a, ha, hread⟩ := exists_of_bind_eq_ok hread
    cases hread
    obtain ⟨x, y, z, alpha, hall⟩ := (hchannels ⟨hue, saturation, lightness, a⟩).mp
      ⟨first, second, third, alpha, hfound, hhue, hsaturation, hlightness, ha⟩
    exact ⟨_, x, y, z, alpha, rfl, hall⟩
  · rintro ⟨c, x, y, z, alpha, rfl, hall⟩
    obtain ⟨first, second, third, alpha, hfound, hhue, hsaturation, hlightness, ha⟩ :=
      (hchannels c).mpr ⟨x, y, z, alpha, hall⟩
    refine bind_eq_ok_iff.mpr ⟨_, hfound, bind_eq_ok_iff.mpr ⟨_, hhue, ?_⟩⟩
    refine bind_eq_ok_iff.mpr ⟨_, hsaturation, bind_eq_ok_iff.mpr ⟨_, hlightness, ?_⟩⟩
    exact bind_eq_ok_iff.mpr ⟨_, ha, rfl⟩

end Functions

end ColorGrammar

end ThemeColor
