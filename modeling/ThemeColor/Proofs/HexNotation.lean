import ThemeColor.Proofs.HexRoundTrip
import ThemeColor.Proofs.ChannelLayout

/-!
# Hexadecimal notation

Four bytes can be denoted by up to four rows of digits, with one or two digits for each byte and
with or without the opacity. All of them are read, nothing else is, and the bytes that were read are
written in the shortest way, although the opacity is divided by 255 and multiplied again in between.

- `Hex.isShortest_shortDigits`: what is written for bytes is shorter than all else that denotes
  them;
- `Color.parse_hash_eq_ok_iff`: what is read behind `#`;
- `Color.parse_hash_shortest`: reading, resolving and writing.
-/

namespace ThemeColor

open Scan

namespace Hex

/-! ## What digits denote -/

/-- The bytes of a color. -/
structure Bytes where
  /-- Red. -/
  red : UInt8
  /-- Green. -/
  green : UInt8
  /-- Blue. -/
  blue : UInt8
  /-- The opacity, which is full at 255. -/
  alpha : UInt8
  deriving DecidableEq, Repr

/-- The byte that two digits write. -/
def pair (high low : Char) : UInt8 := .ofNat (16 * hexDigitValue high + hexDigitValue low)

/-- The bytes that digits denote. One digit for each byte counts twice, and without digits for the
opacity it is full. -/
def denoted? : List Char → Option Bytes
  | [r, g, b] => some ⟨pair r r, pair g g, pair b b, 255⟩
  | [r, g, b, a] => some ⟨pair r r, pair g g, pair b b, pair a a⟩
  | [r, r', g, g', b, b'] => some ⟨pair r r', pair g g', pair b b', 255⟩
  | [r, r', g, g', b, b', a, a'] => some ⟨pair r r', pair g g', pair b b', pair a a'⟩
  | _ => none

/-- The bytes that have to be written: the opacity only if it is not full. -/
def Bytes.written (bytes : Bytes) : List UInt8 :=
  [bytes.red, bytes.green, bytes.blue] ++ if bytes.alpha = 255 then [] else [bytes.alpha]

/-- The digits are the shortest ones in lower case that denote the bytes. -/
structure IsShortest (digits : List Char) (bytes : Bytes) : Prop where
  /-- They are in lower case. -/
  lower : ∀ d ∈ digits, d ∈ lowerDigits
  /-- They denote the bytes. -/
  denotes : denoted? digits = some bytes
  /-- No others that do are shorter, and none are as short. -/
  shortest : ∀ other, (∀ d ∈ other, d ∈ lowerDigits) → denoted? other = some bytes →
    other ≠ digits → digits.length < other.length

/-- Digits denote bytes for `denoted?` if there are three, four, six or eight of them. -/
theorem denoted?_isSome_iff {digits : List Char} :
    (denoted? digits).isSome ↔ digits.length ∈ [3, 4, 6, 8] := by
  constructor
  · unfold denoted?
    split <;> simp
  · intro h
    rcases digits with _ | ⟨a, _ | ⟨b, _ | ⟨c, _ | ⟨d, _ | ⟨e, _ | ⟨f, _ | ⟨g, _ | ⟨i,
      _ | ⟨j, l⟩⟩⟩⟩⟩⟩⟩⟩⟩
    all_goals simp at h ⊢ <;> rfl

/-- Digits have a `hexDigitValue` below 16. -/
theorem hexDigitValue_lt {c : Char} (h : isHexDigit c) : hexDigitValue c < 16 := by
  have hall : ∀ n < 128, isHexDigit (Char.ofNat n) → hexDigitValue (Char.ofNat n) < 16 := by decide
  have hlt : c.toNat < 128 := by
    simp only [isHexDigit, Char.isDigit, Bool.or_eq_true, Bool.and_eq_true, decide_eq_true_eq,
      Char.le_def, UInt32.le_iff_toNat_le] at h
    rcases h with (h | h) | h <;> exact Nat.lt_of_le_of_lt h.2 (by decide)
  have hc := hall c.toNat hlt
  rw [Char.ofNat_toNat] at hc
  exact hc h

theorem toNat_pair {high low : Char} (hhigh : isHexDigit high) (hlow : isHexDigit low) :
    (pair high low).toNat = 16 * hexDigitValue high + hexDigitValue low := by
  have := hexDigitValue_lt hhigh
  have := hexDigitValue_lt hlow
  rw [pair, UInt8.toNat_ofNat']
  omega

/-! ## What is written -/

theorem digit_hexDigitValue : ∀ d ∈ lowerDigits, digit (hexDigitValue d) = d := by decide +kernel

/-- The `digits` of a byte are those it was denoted by. -/
theorem digits_pair {high low : Char} (hhigh : high ∈ lowerDigits) (hlow : low ∈ lowerDigits) :
    digits (pair high low) = [high, low] := by
  have hhex := List.all_eq_true.mp all_isHexDigit
  have hlt := hexDigitValue_lt (hhex low hlow)
  have hdiv : (pair high low).toNat / 16 = hexDigitValue high := by
    rw [toNat_pair (hhex _ hhigh) (hhex _ hlow)]
    omega
  have hmod : (pair high low).toNat % 16 = hexDigitValue low := by
    rw [toNat_pair (hhex _ hhigh) (hhex _ hlow)]
    omega
  rw [digits, hdiv, hmod, digit_hexDigitValue _ hhigh, digit_hexDigitValue _ hlow]

/-- A byte denoted by one digit twice satisfies `isDouble`. -/
theorem isDouble_pair {d : Char} (h : d ∈ lowerDigits) : isDouble (pair d d) := by
  have hhex := List.all_eq_true.mp all_isHexDigit d h
  have hlt := hexDigitValue_lt hhex
  rw [isDouble, toNat_pair hhex hhex, beq_iff_eq]
  omega

theorem hexDigitValue_digit : ∀ n < 16, hexDigitValue (digit n) = n := by decide +kernel

/-- The digits of a byte denote it, as `pair` says. -/
theorem pair_digits (b : UInt8) : pair (digit (b.toNat / 16)) (digit (b.toNat % 16)) = b := by
  rw [pair, hexDigitValue_digit _ (high_lt b), hexDigitValue_digit _ (low_lt b), Nat.div_add_mod,
    UInt8.ofNat_toNat]

/-- The first of two equal digits denotes the byte as well, if it `isDouble`. -/
theorem pair_of_isDouble {b : UInt8} (h : isDouble b) :
    pair (digit (b.toNat / 16)) (digit (b.toNat / 16)) = b := by
  have heq : b.toNat / 16 = b.toNat % 16 := eq_of_beq h
  nth_rewrite 2 [heq]
  exact pair_digits b

/-- One digit for each byte. -/
def singles (bytes : List UInt8) : List Char := bytes.flatMap fun b => (digits b).take 1

/-- Two digits for each byte. -/
def doubles (bytes : List UInt8) : List Char := bytes.flatMap digits

variable {bytes : Bytes}

/-- The bytes without the opacity. -/
def Bytes.rgb (bytes : Bytes) : List UInt8 := [bytes.red, bytes.green, bytes.blue]

/-- All bytes. -/
def Bytes.rgba (bytes : Bytes) : List UInt8 := [bytes.red, bytes.green, bytes.blue, bytes.alpha]

theorem Bytes.written_eq (bytes : Bytes) :
    bytes.written = if bytes.alpha = 255 then bytes.rgb else bytes.rgba := by
  unfold written rgb rgba
  split <;> rfl

/-- There are only four ways to denote bytes for `denoted?`, and two of them need bytes with equal
digits. -/
theorem eq_of_denoted? {digits : List Char} (hlower : ∀ d ∈ digits, d ∈ lowerDigits)
    (h : denoted? digits = some bytes) :
    (digits = singles bytes.rgb ∧ bytes.rgb.all isDouble ∧ bytes.alpha = 255) ∨
    (digits = singles bytes.rgba ∧ bytes.rgba.all isDouble) ∨
    (digits = doubles bytes.rgb ∧ bytes.alpha = 255) ∨ digits = doubles bytes.rgba := by
  unfold denoted? at h
  split at h
  · simp only [List.forall_mem_cons] at hlower
    obtain ⟨hr, hg, hb, -⟩ := hlower
    cases h
    left
    simp [singles, Bytes.rgb, digits_pair, isDouble_pair, hr, hg, hb]
  · simp only [List.forall_mem_cons] at hlower
    obtain ⟨hr, hg, hb, ha, -⟩ := hlower
    cases h
    right; left
    simp [singles, Bytes.rgba, digits_pair, isDouble_pair, hr, hg, hb, ha]
  · simp only [List.forall_mem_cons] at hlower
    obtain ⟨hr, hr', hg, hg', hb, hb', -⟩ := hlower
    cases h
    right; right; left
    simp [doubles, Bytes.rgb, digits_pair, hr, hr', hg, hg', hb, hb']
  · simp only [List.forall_mem_cons] at hlower
    obtain ⟨hr, hr', hg, hg', hb, hb', ha, ha', -⟩ := hlower
    cases h
    right; right; right
    simp [doubles, Bytes.rgba, digits_pair, hr, hr', hg, hg', hb, hb', ha, ha']
  · cases h

theorem shortDigits_eq (bytes : List UInt8) :
    shortDigits bytes = if bytes.all isDouble then singles bytes else doubles bytes := rfl

/-- The digits of `shortDigits` denote the bytes. -/
theorem denoted?_shortDigits (bytes : Bytes) :
    denoted? (shortDigits bytes.written) = some bytes := by
  obtain ⟨red, green, blue, alpha⟩ := bytes
  rw [Bytes.written_eq, shortDigits_eq]
  by_cases ha : alpha = 255
  · subst ha
    simp only [if_true, Bytes.rgb]
    split
    · rename_i hdouble
      simp only [List.all_cons, Bool.and_eq_true] at hdouble
      obtain ⟨hr, hg, hb, -⟩ := hdouble
      simp [singles, digits, denoted?, pair_of_isDouble, hr, hg, hb]
    · simp [doubles, digits, denoted?, pair_digits]
  · simp only [if_neg ha, Bytes.rgba]
    split
    · rename_i hdouble
      simp only [List.all_cons, Bool.and_eq_true] at hdouble
      obtain ⟨hr, hg, hb, ha, -⟩ := hdouble
      simp [singles, digits, denoted?, pair_of_isDouble, hr, hg, hb, ha]
    · simp [doubles, digits, denoted?, pair_digits]

theorem length_singles (bytes : List UInt8) : (singles bytes).length = bytes.length := by
  simp [singles, digits, List.length_flatMap]

theorem length_doubles (bytes : List UInt8) : (doubles bytes).length = 2 * bytes.length := by
  simp [doubles, digits, List.length_flatMap, Nat.mul_comm]

theorem Bytes.all_rgb_of_all_rgba (h : bytes.rgba.all isDouble) : bytes.rgb.all isDouble := by
  rw [List.all_eq_true] at h ⊢
  exact fun b hb => h b (List.mem_append_left [bytes.alpha] hb)

/-- What `shortDigits` writes for bytes is shorter than all else that denotes them. -/
theorem isShortest_shortDigits (bytes : Bytes) :
    IsShortest (shortDigits bytes.written) bytes where
  lower := fun _ => mem_of_mem_shortDigits
  denotes := denoted?_shortDigits bytes
  shortest := by
    intro other hlower hother hne
    have hcases := eq_of_denoted? hlower hother
    rw [shortDigits_eq, Bytes.written_eq] at hne ⊢
    -- Of the four ways, those that the opacity or the bytes exclude are gone, one is what is
    -- written, and the others are longer.
    by_cases ha : bytes.alpha = 255
    · rw [if_pos ha] at hne ⊢
      by_cases hdouble : bytes.rgb.all isDouble
      · rw [if_pos hdouble] at hne ⊢
        rw [length_singles]
        rcases hcases with ⟨rfl, -⟩ | ⟨rfl, -⟩ | ⟨rfl, -⟩ | rfl
        · exact absurd rfl hne
        · simp [length_singles, Bytes.rgb, Bytes.rgba]
        · simp [length_doubles, Bytes.rgb]
        · simp [length_doubles, Bytes.rgb, Bytes.rgba]
      · rw [if_neg hdouble] at hne ⊢
        rw [length_doubles]
        rcases hcases with ⟨-, h, -⟩ | ⟨-, h⟩ | ⟨rfl, -⟩ | rfl
        · exact absurd h hdouble
        · exact absurd (Bytes.all_rgb_of_all_rgba h) hdouble
        · exact absurd rfl hne
        · simp [length_doubles, Bytes.rgb, Bytes.rgba]
    · rw [if_neg ha] at hne ⊢
      by_cases hdouble : bytes.rgba.all isDouble
      · rw [if_pos hdouble] at hne ⊢
        rw [length_singles]
        rcases hcases with ⟨-, -, h⟩ | ⟨rfl, -⟩ | ⟨-, h⟩ | rfl
        · exact absurd h ha
        · exact absurd rfl hne
        · exact absurd h ha
        · simp [length_doubles, Bytes.rgba]
      · rw [if_neg hdouble] at hne ⊢
        rcases hcases with ⟨-, -, h⟩ | ⟨-, h⟩ | ⟨-, h⟩ | rfl
        · exact absurd h ha
        · exact absurd h hdouble
        · exact absurd h ha
        · exact absurd rfl hne

/-- The opacity is left out exactly if it is full, and one digit is written for each byte exactly if
all bytes that are written have two equal digits. -/
theorem length_shortDigits_written (bytes : Bytes) :
    ((shortDigits bytes.written).length ∈ [3, 6] ↔ bytes.alpha = 255) ∧
      ((shortDigits bytes.written).length ∈ [3, 4] ↔ ∀ b ∈ bytes.written, isDouble b) := by
  have hlength : bytes.written.length = if bytes.alpha = 255 then 3 else 4 := by
    rw [Bytes.written_eq]
    split <;> rfl
  rw [length_shortDigits, hlength, ← List.all_eq_true]
  by_cases ha : bytes.alpha = 255 <;> by_cases hdouble : bytes.written.all isDouble <;>
    simp [ha, hdouble]

/-! ## What is read -/

/-- Digits are read by `read?` as the bytes they denote. -/
theorem exists_read? {value : List Char} {bytes : Bytes} (hhex : ∀ c ∈ value, isHexDigit c)
    (h : denoted? value = some bytes) :
    ∃ alpha : Option UInt8, alpha.getD 255 = bytes.alpha ∧
      read? (String.ofList value) = some (color bytes.red bytes.green bytes.blue alpha) := by
  have hvalue {high low : Char} (hhigh : isHexDigit high) (hlow : isHexDigit low) :
      hexValue [high, low] = (pair high low).toNat := by
    rw [toNat_pair hhigh hlow]
    simp [hexValue]
  rw [read?, String.toList_ofList, if_pos (List.all_eq_true.mpr hhex)]
  unfold denoted? at h
  split at h
  · simp only [List.forall_mem_cons] at hhex
    obtain ⟨hr, hg, hb, -⟩ := hhex
    cases h
    refine ⟨none, rfl, ?_⟩
    simp only [readBytes, List.map_cons, List.map_nil, hvalue, hr, hg, hb]
    rfl
  · simp only [List.forall_mem_cons] at hhex
    obtain ⟨hr, hg, hb, ha, -⟩ := hhex
    cases h
    refine ⟨some _, rfl, ?_⟩
    simp only [readBytes, List.map_cons, List.map_nil, hvalue, hr, hg, hb, ha]
    rfl
  · simp only [List.forall_mem_cons] at hhex
    obtain ⟨hr, hr', hg, hg', hb, hb', -⟩ := hhex
    cases h
    refine ⟨none, rfl, ?_⟩
    simp only [readBytes, hvalue, hr, hr', hg, hg', hb, hb']
    rfl
  · simp only [List.forall_mem_cons] at hhex
    obtain ⟨hr, hr', hg, hg', hb, hb', ha, ha', -⟩ := hhex
    cases h
    refine ⟨some _, rfl, ?_⟩
    simp only [readBytes, hvalue, hr, hr', hg, hg', hb, hb', ha, ha']
    rfl
  · cases h

/-- Digits are read by `read?` if they are hexadecimal and their number is right. -/
theorem read?_isSome_iff {value : List Char} :
    (read? (String.ofList value)).isSome ↔
      value.length ∈ [3, 4, 6, 8] ∧ ∀ c ∈ value, isHexDigit c := by
  constructor
  · intro h
    obtain ⟨color, hcolor⟩ := Option.isSome_iff_exists.mp h
    rw [read?_eq_some_iff, String.toList_ofList] at hcolor
    cases hcolor with
    | three hdigits | four hdigits | six hdigits | eight hdigits =>
      exact ⟨by simp, List.all_eq_true.mp hdigits⟩
  · rintro ⟨hlength, hhex⟩
    obtain ⟨bytes, hbytes⟩ := Option.isSome_iff_exists.mp (denoted?_isSome_iff.mpr hlength)
    obtain ⟨alpha, -, hread⟩ := exists_read? hhex hbytes
    rw [hread]
    rfl

/-- The opacity that was read is `written` if it is not full. -/
theorem append_filter_eq_written {alpha : Option UInt8} (h : alpha.getD 255 = bytes.alpha) :
    [bytes.red, bytes.green, bytes.blue] ++ (alpha.filter (· ≠ 255)).toList = bytes.written := by
  unfold Bytes.written
  rw [← h]
  cases alpha with
  | none => rfl
  | some a => by_cases ha : a = 255 <;> simp [Option.filter_some, ha]

end Hex

/-! ## Colors -/

namespace Color

open Component Grammar

/-- Behind `#`, digits are read as the color they write, and nothing else is read. -/
theorem parse_hash_eq_ok_iff {v : List Char} (hv : ∀ c ∈ v, isNameChar c) {c : Color Float} :
    parse (String.ofList ('#' :: v)) = .ok c ↔
      ∃ color, Hex.read? (String.ofList v) = some color ∧ c = .rgb color := by
  by_cases hne : v = []
  · subst hne
    -- A hash by itself is no token of a color.
    have hcontents : Lexeme.contents (String.ofList ['#']).toList =
        (Component.token ⟨.delim '#', [], ['#'], 0⟩).lexemes := by decide +kernel
    rw [parse_eq_ok_iff_single hcontents ⟨rfl, rfl, rfl⟩ rfl]
    constructor
    · rintro ⟨-, hsingle⟩
      cases hsingle with
      | hash hl | defined hl | name hl => cases hl
    · rintro ⟨color, hcolor, -⟩
      cases hcolor
  · obtain ⟨l, hcontents, hl⟩ := Lexeme.contents_hash hne hv
    rw [← String.toList_ofList (l := '#' :: v)] at hcontents
    have hmatched : (Component.token l).Matched := by
      rw [Component.Matched, Component.isTerminated, hl]
      exact ⟨rfl, rfl, rfl⟩
    have hsolid : (Component.token l).isWhitespace = false := by
      simp [isWhitespace, token?, hl, Token.isWhitespace]
    rw [parse_eq_ok_iff_single (c := .token l) hcontents hmatched hsolid]
    constructor
    · rintro ⟨-, hsingle⟩
      cases hsingle with
      | hash hl' hcolor =>
        cases hl.symm.trans hl'
        exact ⟨_, Hex.read?_eq_some_iff.mpr hcolor, rfl⟩
      | defined hl' | name hl' => cases hl.symm.trans hl'
    · rintro ⟨color, hcolor, rfl⟩
      exact ⟨Nat.zero_le _, .hash hl (Hex.read?_eq_some_iff.mp hcolor)⟩

/-- **Hexadecimal notation is read and written without loss.** Of the texts of `#` and characters of
names, exactly those with three, four, six or eight hexadecimal digits are read as colors. Such a
color resolves to itself and is written as `#` and the shortest digits in lower case that denote the
same four bytes. The opacity is left out exactly if its byte is 255, and there is one digit for each
byte exactly if every byte that is written has two equal digits. -/
theorem parse_hash_shortest {v : List Char} (hv : ∀ c ∈ v, isNameChar c) :
    let text := String.ofList ('#' :: v)
    ((∃ c, parse text = .ok c) ↔ v.length ∈ [3, 4, 6, 8] ∧ ∀ c ∈ v, isHexDigit c) ∧
    ∀ c, parse text = .ok c →
      ∃ bytes digits canonical, Hex.denoted? v = some bytes ∧
        c.resolve = (.ok canonical, []) ∧ canonical.css = String.ofList ('#' :: digits) ∧
        Hex.IsShortest digits bytes ∧ (digits.length ∈ [3, 6] ↔ bytes.alpha = 255) ∧
        (digits.length ∈ [3, 4] ↔ ∀ b ∈ bytes.written, Hex.isDouble b) := by
  intro text
  constructor
  · rw [← Hex.read?_isSome_iff, Option.isSome_iff_exists]
    simp only [text, parse_hash_eq_ok_iff hv]
    constructor
    · rintro ⟨-, color, hcolor, -⟩
      exact ⟨color, hcolor⟩
    · rintro ⟨color, hcolor⟩
      exact ⟨_, color, hcolor, rfl⟩
  · intro c hc
    obtain ⟨color, hcolor, rfl⟩ := (parse_hash_eq_ok_iff hv).mp hc
    obtain ⟨hlength, hhex⟩ := Hex.read?_isSome_iff.mp (Option.isSome_iff_exists.mpr ⟨color, hcolor⟩)
    obtain ⟨bytes, hbytes⟩ := Option.isSome_iff_exists.mp (Hex.denoted?_isSome_iff.mpr hlength)
    obtain ⟨alpha, halpha, hread⟩ := Hex.exists_read? hhex hbytes
    obtain rfl := Option.some.inj (hcolor.symm.trans hread)
    have hwritten := Hex.length_shortDigits_written bytes
    refine ⟨bytes, Hex.shortDigits bytes.written, _, hbytes, Hex.resolve_color _ _ _ _, ?_,
      Hex.isShortest_shortDigits bytes, hwritten.1, hwritten.2⟩
    rw [Rgb.css_color, Hex.append_filter_eq_written halpha]
    rfl

theorem parse_hash_shortest_mixed_case :
    (∀ c ∈ "AAbBccFF".toList, isNameChar c) ∧
    ∃ c canonical, parse "#AAbBccFF" = .ok c ∧ c.resolve = (.ok canonical, []) ∧
      canonical.css = "#abc" := by
  have hname : ∀ c ∈ "AAbBccFF".toList, isNameChar c := by decide
  obtain ⟨hread, hwrite⟩ := parse_hash_shortest hname
  obtain ⟨c, hc⟩ := hread.mpr (by decide)
  obtain ⟨bytes, digits, canonical, hbytes, hresolve, hcss, hshortest, -⟩ := hwrite c hc
  refine ⟨hname, c, canonical, hc, hresolve, ?_⟩
  -- No digits that denote a color are fewer than three, so these are the shortest ones.
  have habc : Hex.denoted? ['a', 'b', 'c'] = some bytes := by
    rw [← hbytes]
    decide
  have hdigits : ['a', 'b', 'c'] = digits := by
    by_contra hne
    have hlength := hshortest.shortest _ (by decide) habc hne
    have hsome := Hex.denoted?_isSome_iff.mp (Option.isSome_iff_exists.mpr ⟨_, hshortest.denotes⟩)
    simp only [List.mem_cons, List.not_mem_nil, or_false] at hsome
    simp only [List.length_cons, List.length_nil] at hlength
    omega
  rw [hcss, ← hdigits]

end Color

end ThemeColor
