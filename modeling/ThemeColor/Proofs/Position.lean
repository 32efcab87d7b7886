import ThemeColor.Text.Span

/-!
# Positions and edits

A byte position is good for cutting a text exactly when some front part of the text has that many
bytes. This file says so for `dropBytes?`, `takeBytes?` and `Span.slice?`. `Edit.Rewrites` says what
edits make of a text without running any of them: each part under an edit is replaced and all other
parts are kept. The left-to-right copy `Edit.splice` is such a text (`Edit.rewrites_splice`), and so
is the outcome of making the edits in place, the last one first
(`Edit.Rewrites.replaceBackwards?_eq`), so that the two agree (`Edit.replaceBackwards?_eq_splice`).
-/

namespace ThemeColor.Text

private theorem foldl_utf8Size (text : List Char) (n : Nat) :
    text.foldl (fun size c => size + c.utf8Size) n = n + byteSize text := by
  induction text generalizing n with
  | nil => rfl
  | cons c rest ih =>
    simp only [byteSize, List.foldl_cons]
    rw [ih, ih (0 + c.utf8Size)]
    omega

@[simp]
theorem byteSize_nil : byteSize [] = 0 := rfl

@[simp]
theorem byteSize_cons (c : Char) (rest : List Char) :
    byteSize (c :: rest) = c.utf8Size + byteSize rest := by
  rw [byteSize, List.foldl_cons, foldl_utf8Size, Nat.zero_add]

@[simp]
theorem byteSize_append (a b : List Char) : byteSize (a ++ b) = byteSize a + byteSize b := by
  induction a with
  | nil => simp
  | cons c rest ih => simp [ih, Nat.add_assoc]

theorem byteSize_pos {text : List Char} (h : text ≠ []) : 0 < byteSize text := by
  cases text with
  | nil => exact absurd rfl h
  | cons c rest =>
    have := c.utf8Size_pos
    rw [byteSize_cons]
    omega

theorem length_le_byteSize (text : List Char) : text.length ≤ byteSize text := by
  induction text with
  | nil => simp
  | cons c rest ih =>
    have := c.utf8Size_pos
    rw [byteSize_cons, List.length_cons]
    omega

/-- Two ways to cut one text after the same number of bytes, by `byteSize`, are the same. -/
theorem append_inj_of_byteSize {a b c d : List Char} (h : a ++ b = c ++ d)
    (hsize : byteSize a = byteSize c) : a = c ∧ b = d := by
  induction a generalizing c with
  | nil =>
    cases c with
    | nil => exact ⟨rfl, h⟩
    | cons x c =>
      have := x.utf8Size_pos
      simp only [byteSize_nil, byteSize_cons] at hsize
      omega
  | cons x a ih =>
    cases c with
    | nil =>
      have := x.utf8Size_pos
      simp only [byteSize_nil, byteSize_cons] at hsize
      omega
    | cons y c =>
      -- Neither cut is at the front, so both pass over the same first character.
      simp only [List.cons_append, List.cons.injEq] at h
      obtain ⟨rfl, h⟩ := h
      obtain ⟨rfl, rfl⟩ := ih h (by simpa using hsize)
      exact ⟨rfl, rfl⟩

/-- Cutting a text after `a` bytes and after more than that leaves the part in between. -/
theorem exists_append_of_byteSize_le {a b c d : List Char} (h : a ++ b = c ++ d)
    (hsize : byteSize a ≤ byteSize c) : ∃ m, c = a ++ m ∧ b = m ++ d := by
  obtain ⟨m, rfl, rfl⟩ | ⟨m, rfl, rfl⟩ := List.append_eq_append_iff.mp h
  · exact ⟨m, rfl, rfl⟩
  · cases m with
    -- The second cut comes before the first one only if nothing stands between them.
    | nil => exact ⟨[], by simp, by simp⟩
    | cons x m =>
      have := byteSize_pos (List.cons_ne_nil x m)
      rw [byteSize_append] at hsize
      omega

/-- Dropping the bytes of the first part with `dropBytes?` leaves the second. -/
@[simp]
theorem dropBytes?_append (a b : List Char) : dropBytes? (byteSize a) (a ++ b) = some b := by
  induction a with
  | nil => cases b <;> rfl
  | cons c a ih =>
    -- The function looks at the next character while the number of bytes is a successor.
    obtain ⟨n, hn⟩ : ∃ n, byteSize (c :: a) = n + 1 :=
      ⟨byteSize (c :: a) - 1, by have := byteSize_pos (List.cons_ne_nil c a); omega⟩
    have hrest : n + 1 - c.utf8Size = byteSize a := by rw [← hn, byteSize_cons]; omega
    rw [hn, List.cons_append, dropBytes?, if_pos (by rw [← hn, byteSize_cons]; omega), hrest, ih]

/-- Taking the bytes of the first part with `takeBytes?` gives it. -/
@[simp]
theorem takeBytes?_append (a b : List Char) : takeBytes? (byteSize a) (a ++ b) = some a := by
  induction a with
  | nil => cases b <;> rfl
  | cons c a ih =>
    obtain ⟨n, hn⟩ : ∃ n, byteSize (c :: a) = n + 1 :=
      ⟨byteSize (c :: a) - 1, by have := byteSize_pos (List.cons_ne_nil c a); omega⟩
    have hrest : n + 1 - c.utf8Size = byteSize a := by rw [← hn, byteSize_cons]; omega
    rw [hn, List.cons_append, takeBytes?, if_pos (by rw [← hn, byteSize_cons]; omega), hrest, ih]
    rfl

/-- What `dropBytes?` leaves is the end of the text. -/
theorem eq_append_of_dropBytes? {n : Nat} {text rest : List Char}
    (h : dropBytes? n text = some rest) : ∃ front, text = front ++ rest ∧ byteSize front = n := by
  induction text generalizing n with
  | nil =>
    cases n with
    | zero => exact ⟨[], by simpa [dropBytes?] using h, rfl⟩
    | succ n => cases h
  | cons c text ih =>
    cases n with
    | zero => exact ⟨[], by simpa [dropBytes?] using h, rfl⟩
    | succ n =>
      rw [dropBytes?] at h
      split at h
      · rename_i hle
        obtain ⟨front, rfl, hsize⟩ := ih h
        exact ⟨c :: front, rfl, by rw [byteSize_cons, hsize]; omega⟩
      · cases h

/-- What `takeBytes?` gives is the start of the text. -/
theorem eq_append_of_takeBytes? {n : Nat} {text front : List Char}
    (h : takeBytes? n text = some front) : ∃ rest, text = front ++ rest ∧ byteSize front = n := by
  induction text generalizing n front with
  | nil =>
    cases n with
    | zero => exact ⟨[], by simpa [takeBytes?] using h, by simp_all [takeBytes?]⟩
    | succ n => cases h
  | cons c text ih =>
    cases n with
    | zero =>
      simp only [takeBytes?, Option.some.injEq] at h
      subst h
      exact ⟨c :: text, rfl, rfl⟩
    | succ n =>
      rw [takeBytes?] at h
      split at h
      · rename_i hle
        obtain ⟨front', hfront, rfl⟩ := Option.map_eq_some_iff.mp h
        obtain ⟨rest, rfl, hsize⟩ := ih hfront
        exact ⟨rest, rfl, by rw [byteSize_cons, hsize]; omega⟩
      · cases h

/-- The position `n` falls between two characters of the text, or at one of its ends. -/
def IsBoundary (text : List Char) (n : Nat) : Prop :=
  ∃ front rest, text = front ++ rest ∧ byteSize front = n

/-- A position that satisfies `IsBoundary` lies inside of the text. -/
theorem IsBoundary.le_byteSize {text : List Char} {n : Nat} (h : IsBoundary text n) :
    n ≤ byteSize text := by
  obtain ⟨front, rest, rfl, rfl⟩ := h
  simp

end ThemeColor.Text

namespace ThemeColor

open Text

namespace Span

/-- What `slice?` cuts out of a text that is given as three parts. -/
theorem slice?_append (a m b : List Char) :
    slice? ⟨byteSize a, byteSize a + byteSize m⟩ (a ++ (m ++ b)) = some m := by
  simp [slice?]

/-- A span slices out `m` exactly when the text is cut around `m` at the two ends of the span. -/
theorem slice?_eq_some_iff {span : Span} {text m : List Char} :
    span.slice? text = some m ↔
      ∃ a b, text = a ++ (m ++ b) ∧ byteSize a = span.start ∧
        byteSize a + byteSize m = span.stop := by
  constructor
  · intro h
    rw [slice?] at h
    -- The span is cut out in two steps: its start is dropped, then its length is taken.
    split at h
    · rename_i hle
      obtain ⟨rest, hdrop, htake⟩ := Option.bind_eq_some_iff.mp h
      obtain ⟨a, rfl, ha⟩ := eq_append_of_dropBytes? hdrop
      obtain ⟨b, rfl, hm⟩ := eq_append_of_takeBytes? htake
      exact ⟨a, b, rfl, ha, by omega⟩
    · cases h
  · rintro ⟨a, b, rfl, ha, hm⟩
    obtain ⟨start, stop⟩ := span
    simp only at ha hm
    subst ha hm
    exact slice?_append a m b

/-- Two positions of `IsBoundary` in ascending order slice out a part. -/
theorem slice?_isSome {span : Span} {text : List Char} (hstart : IsBoundary text span.start)
    (hstop : IsBoundary text span.stop) (hle : span.start ≤ span.stop) :
    (span.slice? text).isSome := by
  obtain ⟨a, b, rfl, ha⟩ := hstart
  obtain ⟨c, d, hcut, hc⟩ := hstop
  obtain ⟨m, rfl, rfl⟩ := exists_append_of_byteSize_le hcut (by omega)
  rw [byteSize_append] at hc
  exact Option.isSome_iff_exists.mpr ⟨m, slice?_eq_some_iff.mpr ⟨a, d, rfl, ha, by omega⟩⟩

end Span

namespace Edit

/-- The edits, from byte `position` on, cut a text into kept parts and parts to replace: the text is
the part that is left from `position` on. -/
inductive Cuts : (position : Nat) → List Char → List Edit → Prop
  | nil (position : Nat) (rest : List Char) : Cuts position rest []
  | cons {position : Nat} (kept under rest : List Char) {edit : Edit} {edits : List Edit}
      (hstart : edit.span.start = position + byteSize kept)
      (hstop : edit.span.stop = edit.span.start + byteSize under)
      (hrest : Cuts edit.span.stop rest edits) :
      Cuts position (kept ++ (under ++ rest)) (edit :: edits)

/-- Edits that slice the text and follow each other cut the text, as `Cuts` says. -/
theorem cuts_of_pairwise {text front rest : List Char} {edits : List Edit}
    (htext : text = front ++ rest)
    (hfits : ∀ edit ∈ edits, (edit.span.slice? text).isSome)
    (hfrom : ∀ edit ∈ edits, byteSize front ≤ edit.span.start)
    (hpairwise : edits.Pairwise fun a b => a.span.stop ≤ b.span.start) :
    Cuts (byteSize front) rest edits := by
  induction edits generalizing front rest with
  | nil => exact .nil _ _
  | cons edit edits ih =>
    obtain ⟨hafter, hpairwise⟩ := List.pairwise_cons.mp hpairwise
    obtain ⟨under, hunder⟩ := Option.isSome_iff_exists.mp (hfits edit List.mem_cons_self)
    obtain ⟨a, b, hab, hstart, hstop⟩ := Span.slice?_eq_some_iff.mp hunder
    -- What lies between the position and the edit is kept.
    have hle := hfrom edit List.mem_cons_self
    obtain ⟨kept, rfl, rfl⟩ :=
      exists_append_of_byteSize_le (htext.symm.trans hab) (by rw [hstart]; exact hle)
    rw [byteSize_append] at hstart
    refine .cons kept under b hstart.symm (by rw [byteSize_append] at hstop; omega) ?_
    have hposition : edit.span.stop = byteSize (front ++ kept ++ under) := by
      simp only [byteSize_append] at hstop ⊢
      omega
    rw [hposition]
    refine ih (by simp [htext]) (fun e he => hfits e (List.mem_cons_of_mem _ he)) ?_ hpairwise
    intro e he
    rw [← hposition]
    exact hafter e he

/-- The copy that `spliceFrom` makes of a text that the edits cut keeps the kept parts and puts the
replacements between them. -/
theorem spliceFrom_cons_of_cuts {text front kept under rest : List Char} {edit : Edit}
    {edits : List Edit} (htext : text = front ++ (kept ++ (under ++ rest)))
    (hstart : edit.span.start = byteSize front + byteSize kept) :
    spliceFrom text (byteSize front) (edit :: edits) =
      kept ++ edit.replacement ++ spliceFrom text edit.span.stop edits := by
  have hslice : Span.slice? ⟨byteSize front, edit.span.start⟩ text = some kept := by
    rw [Span.slice?_eq_some_iff]
    exact ⟨front, under ++ rest, htext, rfl, hstart.symm⟩
  rw [spliceFrom, hslice]

/-- `Rewrites position text edits out`: the edits replace parts of the text, whose first byte is
counted as `position`. In `out`, each of these parts is replaced by the text of its edit, and what
stands in front of, between and behind them is kept. -/
inductive Rewrites : (position : Nat) → (text : List Char) → List Edit → (out : List Char) → Prop
  | nil (position : Nat) (rest : List Char) : Rewrites position rest [] rest
  | cons {position : Nat} (kept under : List Char) {rest out : List Char} {edit : Edit}
      {edits : List Edit} (hstart : edit.span.start = position + byteSize kept)
      (hstop : edit.span.stop = edit.span.start + byteSize under)
      (hrest : Rewrites edit.span.stop rest edits out) :
      Rewrites position (kept ++ (under ++ rest)) (edit :: edits)
        (kept ++ (edit.replacement ++ out))

/-- The copy that `spliceFrom` makes of a text that the edits cut rewrites the text. -/
theorem Cuts.rewrites {text front rest : List Char} {edits : List Edit}
    (hcuts : Cuts (byteSize front) rest edits) (htext : text = front ++ rest) :
    Rewrites (byteSize front) rest edits (spliceFrom text (byteSize front) edits) := by
  induction edits generalizing front rest with
  | nil =>
    rw [spliceFrom, htext, dropBytes?_append, Option.getD_some]
    exact .nil _ _
  | cons edit edits ih =>
    cases hcuts with
    | cons kept under rest hstart hstop hrest =>
      have hposition : edit.span.stop = byteSize (front ++ kept ++ under) := by
        simp only [byteSize_append]
        omega
      rw [spliceFrom_cons_of_cuts htext hstart, List.append_assoc]
      refine .cons kept under hstart hstop ?_
      rw [hposition] at hrest ⊢
      exact ih hrest (by simp [htext])

/-- Edits that fit the text and follow each other are all made by `splice`. -/
theorem rewrites_splice {text : List Char} {edits : List Edit}
    (hfits : ∀ edit ∈ edits, (edit.span.slice? text).isSome)
    (hpairwise : edits.Pairwise fun a b => a.span.stop ≤ b.span.start) :
    Rewrites 0 text edits (splice text edits) := by
  have hcuts : Cuts (byteSize []) text edits :=
    cuts_of_pairwise rfl hfits (fun _ _ => Nat.zero_le _) hpairwise
  exact hcuts.rewrites rfl

/-- Making the edits in place with `replaceBackwards?`, the last one first, leaves what is in front
of them alone and rewrites the rest. -/
theorem Rewrites.replaceBackwards?_append {front rest out : List Char} {edits : List Edit}
    (h : Rewrites (byteSize front) rest edits out) :
    replaceBackwards? edits (front ++ rest) = some (front ++ out) := by
  induction edits generalizing front rest out with
  | nil =>
    cases h
    rfl
  | cons edit edits ih =>
    cases h with
    | @cons _ kept under rest out _ _ hstart hstop hrest =>
      have hposition : edit.span.stop = byteSize (front ++ kept ++ under) := by
        simp only [byteSize_append]
        omega
      rw [hposition] at hrest
      -- The later edits are made already; they left the text up to this edit alone.
      have hlater : replaceBackwards? edits (front ++ (kept ++ (under ++ rest))) =
          some (front ++ kept ++ under ++ out) := by
        rw [← ih hrest]
        simp
      have hmade : replaceBackwards? (edit :: edits) (front ++ (kept ++ (under ++ rest))) =
          (replaceBackwards? edits (front ++ (kept ++ (under ++ rest)))).bind edit.replace? := rfl
      have hbefore : edit.span.start = byteSize (front ++ kept) := by
        rw [hstart, byteSize_append]
      rw [hmade, hlater, Option.bind_some, replace?, if_pos (by omega), hposition,
        dropBytes?_append, hbefore, List.append_assoc (front ++ kept), takeBytes?_append]
      simp

/-- What edits make of a text can be computed by `replaceBackwards?`. -/
theorem Rewrites.replaceBackwards?_eq {text out : List Char} {edits : List Edit}
    (h : Rewrites 0 text edits out) : replaceBackwards? edits text = some out := by
  have hfront : Rewrites (byteSize []) text edits out := h
  exact hfront.replaceBackwards?_append

/-- Edits that fit the text and follow each other can be made in place by `replaceBackwards?`, the
last one first, and the outcome is the one copy from left to right. -/
theorem replaceBackwards?_eq_splice {text : List Char} {edits : List Edit}
    (hfits : ∀ edit ∈ edits, (edit.span.slice? text).isSome)
    (hpairwise : edits.Pairwise fun a b => a.span.stop ≤ b.span.start) :
    replaceBackwards? edits text = some (splice text edits) :=
  (rewrites_splice hfits hpairwise).replaceBackwards?_eq

end Edit

end ThemeColor
