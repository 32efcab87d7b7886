import ThemeColor.Color.Css
import ThemeColor.Color.Grammar

/-!
# Hexadecimal digits

Bytes are written in lower case digits, with one digit for each byte if all of them have two equal
digits. Reading takes one digit for each of three or four bytes, which counts twice, or two digits,
so that the number of digits tells which of the two it is.

- `Hex.mem_of_mem_shortDigits`, `Hex.length_shortDigits`: what is written;
- `Hex.read?_shortDigits`: three or four bytes are read as what was written.
-/

namespace ThemeColor.Hex

/-- The digits that are written. -/
def lowerDigits : List Char := "0123456789abcdef".toList

theorem digit_mem : ∀ n < 16, digit n ∈ lowerDigits := by decide +kernel

/-! ## The digits of bytes -/

theorem high_lt (b : UInt8) : b.toNat / 16 < 16 := by
  have hlt := b.toNat_lt
  omega

theorem low_lt (b : UInt8) : b.toNat % 16 < 16 := Nat.mod_lt _ (by decide)

/-- The `digits` of a byte are in lower case. -/
theorem mem_of_mem_digits {b : UInt8} {c : Char} (h : c ∈ digits b) : c ∈ lowerDigits := by
  simp only [digits, List.mem_cons, List.not_mem_nil, or_false] at h
  rcases h with rfl | rfl
  · exact digit_mem _ (high_lt b)
  · exact digit_mem _ (low_lt b)

/-- What `shortDigits` writes are digits in lower case. -/
theorem mem_of_mem_shortDigits {bytes : List UInt8} {c : Char} (h : c ∈ shortDigits bytes) :
    c ∈ lowerDigits := by
  unfold shortDigits at h
  split at h
  · obtain ⟨b, -, hc⟩ := List.mem_flatMap.mp h
    exact mem_of_mem_digits (List.mem_of_mem_take hc)
  · obtain ⟨b, -, hc⟩ := List.mem_flatMap.mp h
    exact mem_of_mem_digits hc

/-- One digit is written by `shortDigits` for each byte, or two. -/
theorem length_shortDigits (bytes : List UInt8) :
    (shortDigits bytes).length = if bytes.all isDouble then bytes.length else 2 * bytes.length := by
  unfold shortDigits
  split
  · simp [digits, List.length_flatMap, List.map_const']
  · simp [digits, List.length_flatMap, List.map_const', Nat.mul_comm]

/-! ## Reading digits -/

theorem hexValue_pair : ∀ high < 16, ∀ low < 16,
    Scan.hexValue [digit high, digit low] = 16 * high + low := by decide +kernel

/-- The two digits of a byte have its `hexValue`. -/
theorem hexValue_digits (b : UInt8) :
    Scan.hexValue [digit (b.toNat / 16), digit (b.toNat % 16)] = b.toNat := by
  rw [hexValue_pair _ (high_lt b) _ (low_lt b), Nat.div_add_mod]

/-- The first of two equal digits counts twice for `Scan.hexValue`. -/
theorem hexValue_double {b : UInt8} (h : isDouble b) :
    Scan.hexValue [digit (b.toNat / 16), digit (b.toNat / 16)] = b.toNat := by
  have heq : b.toNat / 16 = b.toNat % 16 := eq_of_beq h
  rw [hexValue_pair _ (high_lt b) _ (high_lt b)]
  omega

variable (red green blue : UInt8) (alpha : Option UInt8)

/-- Bytes are read by `readBytes` as what was written: three or four digits are too few for two
digits each. -/
theorem readBytes_shortDigits :
    readBytes (shortDigits ([red, green, blue] ++ alpha.toList)) =
      some (([red, green, blue] ++ alpha.toList).map UInt8.toNat) := by
  unfold shortDigits
  split
  · -- All bytes have two equal digits, so that one digit each tells them.
    rename_i hdouble
    have hvalue : ∀ b ∈ [red, green, blue] ++ alpha.toList, _ := fun b hb =>
      hexValue_double (List.all_eq_true.mp hdouble b hb)
    cases alpha with
    | none =>
      simp only [Option.toList_none, List.append_nil, List.forall_mem_cons] at hvalue
      obtain ⟨hred, hgreen, hblue, -⟩ := hvalue
      simp [digits, readBytes, hred, hgreen, hblue]
    | some alpha =>
      simp only [Option.toList_some, List.forall_mem_append, List.forall_mem_cons] at hvalue
      obtain ⟨⟨hred, hgreen, hblue, -⟩, halpha, -⟩ := hvalue
      simp [digits, readBytes, hred, hgreen, hblue, halpha]
  · cases alpha with
    | none => simp [digits, readBytes, hexValue_digits]
    | some alpha => simp [digits, readBytes, hexValue_digits]

/-- The color that bytes stand for; without one for the opacity it is full. -/
def color : Rgb Float where
  red := .number (.ofNat red.toNat)
  green := .number (.ofNat green.toNat)
  blue := .number (.ofNat blue.toNat)
  alpha := .number (alpha.elim 1.0 fun byte => .ofNat byte.toNat / 255.0)

theorem all_isHexDigit : lowerDigits.all Scan.isHexDigit := by decide +kernel

/-- What `shortDigits` writes is read by `read?` as the color. -/
theorem read?_shortDigits :
    read? (String.ofList (shortDigits ([red, green, blue] ++ alpha.toList))) =
      some (color red green blue alpha) := by
  have hdigits : (shortDigits ([red, green, blue] ++ alpha.toList)).all Scan.isHexDigit := by
    rw [List.all_eq_true]
    exact fun c hc => List.all_eq_true.mp all_isHexDigit c (mem_of_mem_shortDigits hc)
  rw [read?, String.toList_ofList, if_pos hdigits, readBytes_shortDigits, Option.bind_some]
  cases alpha <;> rfl

end ThemeColor.Hex
