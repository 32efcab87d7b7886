import Mathlib.Data.List.Chain
import ThemeColor.Color.Named

/-!
# Looking up color names

The common names stand in a table, and a name is looked up by halving the range of entries in which
it can still be. This finds the same as going through the whole table, because the names of the
table ascend: whatever text is looked up, all entries on one side of the middle are ruled out by the
comparison with the middle one.

## Main definitions

* `Swatch.Ascends`: the names of a table are in strictly ascending order;
* `Swatch.solid`: the opaque color with the channels of an entry.

## Main results

* `Swatch.search_eq_some_iff`: halving a range finds exactly the entries in it;
* `Swatch.search_eq_lookup`: halving a table finds the same as going through it;
* `Swatch.ofName?_eq_scan`: what the look-up of a color name gives, for every text.
-/

namespace ThemeColor.Swatch

variable {entries : Array (String × UInt8 × UInt8 × UInt8)} {name key : String}
  {channels others : UInt8 × UInt8 × UInt8} {i j low high : Nat}

/-! ## Tables in ascending order -/

/-- The names of the entries are in strictly ascending order. -/
def Ascends (entries : Array (String × UInt8 × UInt8 × UInt8)) : Prop :=
  entries.toList.Pairwise (·.1 < ·.1)

/-- An entry further behind has a greater name. -/
theorem Ascends.lt (h : Ascends entries) (hi : entries[i]? = some (name, channels))
    (hj : entries[j]? = some (key, others)) (hij : i < j) : name < key := by
  rw [← Array.getElem?_toList, List.getElem?_eq_some_iff] at hi hj
  obtain ⟨hisize, hi⟩ := hi
  obtain ⟨hjsize, hj⟩ := hj
  have hlt := List.pairwise_iff_getElem.mp h i j hisize hjsize hij
  rwa [hi, hj] at hlt

/-- An entry with a lesser name stands further in front. -/
theorem Ascends.index_lt (h : Ascends entries) (hi : entries[i]? = some (name, channels))
    (hj : entries[j]? = some (key, others)) (hlt : name < key) : i < j := by
  rcases Nat.lt_trichotomy i j with hij | rfl | hji
  · exact hij
  · rw [hi] at hj
    obtain ⟨rfl, -⟩ := Prod.mk.inj (Option.some.inj hj)
    exact absurd hlt (String.lt_irrefl name)
  · exact absurd (h.lt hj hi hji) (String.lt_asymm hlt)

/-! ## Halving a range -/

/-- Whatever is found stands in the range under its name. The order of the table plays no role
here. -/
theorem exists_of_search (h : search entries name low high = some channels) :
    ∃ i, low ≤ i ∧ i < high ∧ entries[i]? = some (name, channels) := by
  fun_induction search entries name low high with
  | case1 | case5 => cases h
  | case2 low high hrange middle found hmiddle =>
    obtain rfl := Option.some.inj h
    exact ⟨middle, by omega, by omega, hmiddle⟩
  | case3 low high hrange middle key others hmiddle hne hlt ih =>
    obtain ⟨i, hlow, hhigh, hi⟩ := ih h
    exact ⟨i, hlow, by omega, hi⟩
  | case4 low high hrange middle key others hmiddle hne hge ih =>
    obtain ⟨i, hlow, hhigh, hi⟩ := ih h
    exact ⟨i, by omega, hhigh, hi⟩

/-- An entry of an ascending table is found from every range that it stands in. -/
theorem Ascends.search_eq_some (h : Ascends entries) (hi : entries[i]? = some (name, channels))
    (hlow : low ≤ i) (hhigh : i < high) (hsize : high ≤ entries.size) :
    search entries name low high = some channels := by
  fun_induction search entries name low high with
  | case1 low high hrange middle hmiddle =>
    have hbound : middle < entries.size := by omega
    rw [Array.getElem?_eq_getElem hbound] at hmiddle
    cases hmiddle
  | case2 low high hrange middle found hmiddle =>
    -- No name stands in the table twice, so the middle entry is the one that is looked for.
    have hnot {i j : Nat} {a b : UInt8 × UInt8 × UInt8} (ha : entries[i]? = some (name, a))
        (hb : entries[j]? = some (name, b)) : ¬ i < j := fun hij =>
      String.lt_irrefl name (h.lt ha hb hij)
    obtain rfl : i = middle :=
      Nat.le_antisymm (Nat.not_lt.mp (hnot hmiddle hi)) (Nat.not_lt.mp (hnot hi hmiddle))
    rw [hi] at hmiddle
    exact congrArg (fun entry => some entry.2) (Option.some.inj hmiddle).symm
  | case3 low high hrange middle key others hmiddle hne hlt ih =>
    exact ih hlow (h.index_lt hi hmiddle hlt) (by omega)
  | case4 low high hrange middle key others hmiddle hne hge ih =>
    have hgt : key < name := by
      apply Classical.byContradiction
      intro hle
      exact hne (String.le_antisymm (String.not_lt.mp hle) (String.not_lt.mp hge))
    exact ih (h.index_lt hmiddle hi hgt) hhigh hsize
  | case5 low high hrange => omega

/-- Halving a range of an ascending table finds exactly the entries in that range. -/
theorem search_eq_some_iff (h : Ascends entries) (hsize : high ≤ entries.size) :
    search entries name low high = some channels ↔
      ∃ i, low ≤ i ∧ i < high ∧ entries[i]? = some (name, channels) := by
  refine ⟨exists_of_search, ?_⟩
  rintro ⟨i, hlow, hhigh, hi⟩
  exact h.search_eq_some hi hlow hhigh hsize

/-- Halving a whole ascending table finds exactly its entries. -/
theorem search_eq_some_iff_mem (h : Ascends entries) :
    search entries name 0 entries.size = some channels ↔ (name, channels) ∈ entries := by
  rw [search_eq_some_iff h (Nat.le_refl _), Array.mem_iff_getElem?]
  constructor
  · rintro ⟨i, -, -, hi⟩
    exact ⟨i, hi⟩
  · rintro ⟨i, hi⟩
    exact ⟨i, Nat.zero_le i, (Array.getElem?_eq_some_iff.mp hi).1, hi⟩

/-- Halving an ascending table finds the same as going through it from the front. -/
theorem search_eq_lookup (h : Ascends entries) (name : String) :
    search entries name 0 entries.size = entries.toList.lookup name := by
  cases hscan : entries.toList.lookup name with
  | some channels =>
    obtain ⟨before, after, hsplit, -⟩ := List.lookup_eq_some_iff.mp hscan
    rw [search_eq_some_iff_mem h, ← Array.mem_toList_iff, hsplit]
    exact List.mem_append_cons_self
  | none =>
    rw [Option.eq_none_iff_forall_ne_some]
    intro channels hfound
    have hmem := Array.mem_toList_iff.mpr ((search_eq_some_iff_mem h).mp hfound)
    exact bne_iff_ne.mp (List.lookup_eq_none_iff.mp hscan _ hmem) rfl

/-! ## The common names -/

/-- The common names ascend. -/
theorem ascends_table : Ascends table := by
  -- The order is transitive, so it is enough to compare neighbours.
  have hchain : (table.toList.map Prod.fst).IsChain (· < ·) := by decide +kernel
  exact List.pairwise_map.mp (List.isChain_iff_pairwise.mp hchain)

/-- Transparent black has its own rule and no entry in the table. -/
theorem not_mem_table_transparent : ("transparent", channels) ∉ table := by
  intro hmem
  have hnames : "transparent" ∉ table.toList.map Prod.fst := by decide +kernel
  exact hnames (List.mem_map_of_mem (Array.mem_toList_iff.mpr hmem))

variable {α : Type} [Scalar α]

/-- The opaque color with the channels of an entry. -/
def solid (channels : UInt8 × UInt8 × UInt8) : Swatch α :=
  ⟨channels.1, channels.2.1, channels.2.2, 1.0⟩

theorem ofName?_of_transparent (h : Text.asciiLower name = "transparent") :
    (ofName? name : Option (Swatch α)) = some ⟨0, 0, 0, 0.0⟩ := if_pos h

theorem ofName?_of_ne_transparent (h : Text.asciiLower name ≠ "transparent") :
    (ofName? name : Option (Swatch α)) =
      (table.toList.lookup (Text.asciiLower name)).map solid := by
  rw [← search_eq_lookup ascends_table]
  exact if_neg h

/-- A color is found exactly for an entry of the table and for transparent black. -/
theorem ofName?_eq_some_iff {swatch : Swatch α} :
    ofName? name = some swatch ↔
      (∃ channels, (Text.asciiLower name, channels) ∈ table ∧ swatch = solid channels) ∨
        (Text.asciiLower name = "transparent" ∧ swatch = ⟨0, 0, 0, 0.0⟩) := by
  by_cases h : Text.asciiLower name = "transparent"
  · simp [ofName?_of_transparent h, h, not_mem_table_transparent, eq_comm]
  · rw [ofName?_of_ne_transparent h, ← search_eq_lookup ascends_table, Option.map_eq_some_iff]
    simp only [search_eq_some_iff_mem ascends_table, h, false_and, or_false]
    exact exists_congr fun channels => and_congr_right fun _ => eq_comm

/-- **Looking up a color name agrees with going through the table.** The letters `A` to `Z` of the
text count as lower case ones. If the table has an entry with this name, the look-up gives its
opaque color, for `transparent` it gives transparent black, and for every other text it gives
nothing. -/
theorem ofName?_eq_scan (name : String) :
    let key := Text.asciiLower name
    ((ofName? name : Option (Swatch α)) =
      if key = "transparent" then some ⟨0, 0, 0, 0.0⟩ else (table.toList.lookup key).map solid) ∧
    (∀ swatch : Swatch α, ofName? name = some swatch ↔
      (∃ channels, (key, channels) ∈ table ∧ swatch = solid channels) ∨
        (key = "transparent" ∧ swatch = ⟨0, 0, 0, 0.0⟩)) ∧
    ((ofName? name : Option (Swatch α)) = none ↔
      key ≠ "transparent" ∧ ∀ entry ∈ table, entry.1 ≠ key) := by
  refine ⟨?_, fun swatch => ofName?_eq_some_iff, ?_⟩
  · split
    · exact ofName?_of_transparent ‹_›
    · exact ofName?_of_ne_transparent ‹_›
  · rw [Option.eq_none_iff_forall_ne_some]
    constructor
    · intro hnone
      refine ⟨fun h => hnone _ (ofName?_of_transparent h), fun entry hentry hkey => ?_⟩
      refine hnone (solid entry.2) (ofName?_eq_some_iff.mpr (.inl ⟨entry.2, ?_, rfl⟩))
      rwa [← hkey]
    · rintro ⟨htransparent, habsent⟩ swatch hswatch
      rcases ofName?_eq_some_iff.mp hswatch with ⟨channels, hmem, -⟩ | ⟨h, -⟩
      · exact habsent _ hmem rfl
      · exact htransparent h

example : (ofName? "DarkSlateGRAY" : Option (Swatch Float)) = some ⟨47, 79, 79, 1.0⟩ := by
  decide +kernel

example : (ofName? "Transparent" : Option (Swatch Float)) = some ⟨0, 0, 0, 0.0⟩ := by
  decide +kernel

end ThemeColor.Swatch
