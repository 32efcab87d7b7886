import ThemeColor.Proofs.Negation
import ThemeColor.Color.Resolve
import ThemeColor.Proofs.Agreement
import ThemeColor.Proofs.ColorText
import ThemeColor.Proofs.FoldingRules

/-!
# Colors that are written, read and written again

A color with known channels is written as the digits of its bytes. They are read as a color with
exactly these bytes for its channels, which resolves to itself. Writing it again gives the same
digits, with one exception. Whether an opacity is written at all depends on its value, which is full
from 1 on, but its byte is found after rounding, so that an opacity a little below 1 is written as
the byte 255. This is read as the full opacity and left out the next time.

- `Hex.bytes_color`: the bytes of a color that was read;
- `Hex.parse_text`: reading what was written;
- `Rgb.css_parse_css_eq_iff`: writing, reading and writing again.
-/

namespace ThemeColor

namespace Hex

/-! ## Bytes of channels -/

-- Only the 256 bytes are ever read, so that rounding is a matter of evaluation here. The three
-- facts share most of it.

theorem byte_facts : ∀ n < 256, byte (.ofNat n) = .ofNat n ∧
    (Float.ofNat n / 255.0 * 255.0).toBits = (Float.ofNat n).toBits ∧
      (1.0 ≤ Float.ofNat n / 255.0 ↔ n = 255) := by decide +kernel

section

variable (b : UInt8)

theorem byte_channel : byte (.ofNat b.toNat) = b := by
  rw [(byte_facts _ b.toNat_lt).1, UInt8.ofNat_toNat]

/-- The `byte` of an opacity is divided and multiplied by 255 without loss. -/
theorem byte_opacity : byte (.ofNat b.toNat / 255.0 * 255.0) = b := by
  rw [Float.toBits_inj.mp (byte_facts _ b.toNat_lt).2.1, byte_channel]

/-- Only the greatest byte is a full opacity. -/
theorem one_le_opacity_iff : 1.0 ≤ Float.ofNat b.toNat / 255.0 ↔ b = 255 := by
  rw [(byte_facts _ b.toNat_lt).2.2, ← UInt8.toNat_inj]
  rfl

end

/-- The byte that is written for an opacity; none if it is full. -/
def alphaByte (a : Float) : Option UInt8 := if 1.0 ≤ a then none else some (byte (a * 255.0))

/-- An opacity that is not full may still have the `alphaByte` of one. -/
theorem alphaByte_ne_iff {a : Float} :
    alphaByte a ≠ some 255 ↔ 1.0 ≤ a ∨ byte (a * 255.0) ≠ 255 := by
  unfold alphaByte
  by_cases h : 1.0 ≤ a
  · simp [h]
  · simp [h]

theorem bytes_number (r g b a : Float) :
    Rgb.bytes ⟨.number r, .number g, .number b, .number a⟩ =
      [byte r, byte g, byte b] ++ (alphaByte a).toList := by
  have hbytes : Rgb.bytes ⟨.number r, .number g, .number b, .number a⟩ =
      [byte r, byte g, byte b] ++ if decide (1.0 ≤ a) then [] else [byte (a * 255.0)] := rfl
  rw [hbytes, alphaByte]
  by_cases h : 1.0 ≤ a
  · rw [if_pos (decide_eq_true h), if_pos h, Option.toList_none]
  · rw [if_neg (by simpa using h), if_neg h, Option.toList_some]

variable (red green blue : UInt8) (alpha : Option UInt8)

/-- The `alphaByte` of an opacity that was read is the one it was read from, unless this is 255. -/
theorem alphaByte_opacity :
    alphaByte (alpha.elim 1.0 fun byte => .ofNat byte.toNat / 255.0) =
      alpha.filter (· ≠ 255) := by
  cases alpha with
  | none => exact if_pos (by decide +kernel)
  | some b =>
    rw [Option.elim_some, alphaByte, byte_opacity]
    by_cases h : b = 255
    · rw [if_pos ((one_le_opacity_iff b).mpr h), h]
      rfl
    · rw [if_neg (mt (one_le_opacity_iff b).mp h), Option.filter_some_pos (by simpa using h)]

/-- The `bytes` of a color that was read are those it was read from, without a full opacity. -/
theorem bytes_color :
    (color red green blue alpha).bytes =
      [red, green, blue] ++ (alpha.filter (· ≠ 255)).toList := by
  rw [color, bytes_number, byte_channel, byte_channel, byte_channel, alphaByte_opacity]

/-! ## Reading -/

/-- The digits that `Hex.text` writes are read as the color that the bytes stand for. -/
theorem parse_text :
    Color.parse (text ([red, green, blue] ++ alpha.toList)) =
      .ok (.rgb (color red green blue alpha)) := by
  have hne : [red, green, blue] ++ alpha.toList ≠ [] := List.cons_ne_nil _ _
  -- The text is a single token, and this is a component that writes a color.
  obtain ⟨l, hcontents, hl⟩ := contents_text hne
  have hmatched : (Component.token l).Matched := by
    rw [Component.Matched, Component.isTerminated, hl]
    exact ⟨rfl, rfl, rfl⟩
  have hread := read?_eq_some_iff.mp (read?_shortDigits red green blue alpha)
  exact Color.parse_of_contents (c := .token l) hcontents hmatched (Nat.zero_le _) (.hash hl hread)

theorem resolve_color :
    (Color.rgb (color red green blue alpha)).resolve =
      (.ok (.rgb (color red green blue alpha)), []) := rfl

variable {red green blue alpha}

/-- What `Hex.text` writes for a color tells its bytes. -/
theorem text_inj {red' green' blue' : UInt8} {alpha' : Option UInt8} :
    text ([red, green, blue] ++ alpha.toList) = text ([red', green', blue'] ++ alpha'.toList) ↔
      [red, green, blue] ++ alpha.toList = [red', green', blue'] ++ alpha'.toList := by
  refine ⟨fun h => ?_, congrArg text⟩
  -- The reader is an inverse of the writer.
  have hdigits := (List.cons.inj (String.ofList_injective h)).2
  have hread := congrArg readBytes hdigits
  rw [readBytes_shortDigits, readBytes_shortDigits] at hread
  exact List.map_injective_iff.mpr (fun _ _ => UInt8.toNat_inj.mp) (Option.some.inj hread)

/-- Dropping an opacity of 255 changes the text exactly if there is one. -/
theorem text_filter_eq_iff :
    text ([red, green, blue] ++ (alpha.filter (· ≠ 255)).toList) =
      text ([red, green, blue] ++ alpha.toList) ↔ alpha ≠ some 255 := by
  rw [text_inj, List.append_cancel_left_eq]
  cases alpha with
  | none => simp
  | some b => by_cases h : b = 255 <;> simp [Option.filter_some, h]

end Hex

/-! ## Writing again -/

namespace Rgb

theorem exists_of_isLiteral {c : Rgb Float} (h : c.isLiteral) :
    ∃ r g b a, c = ⟨.number r, .number g, .number b, .number a⟩ := by
  simp only [isLiteral, Bool.and_eq_true, Option.isSome_iff_exists, Expr.number?_eq_some_iff] at h
  obtain ⟨⟨⟨⟨r, hr⟩, g, hg⟩, b, hb⟩, a, ha⟩ := h
  exact ⟨r, g, b, a, by rw [← hr, ← hg, ← hb, ← ha]⟩

theorem css_of_isLiteral {c : Rgb Float} (h : c.isLiteral) :
    (Canonical.rgb c).css = Hex.text c.bytes := if_pos h

theorem css_color (red green blue : UInt8) (alpha : Option UInt8) :
    (Canonical.rgb (Hex.color red green blue alpha)).css =
      Hex.text ([red, green, blue] ++ (alpha.filter (· ≠ 255)).toList) := by
  rw [css_of_isLiteral rfl, Hex.bytes_color]

/-- **A color is written in the same way again unless its opacity is nearly full.** A color with
known channels, whatever numbers they are, is written as `#` and three, four, six or eight digits.
They are read as the color with the bytes that were written, which resolves to itself. Writing this
color gives the same text unless the opacity is below 1 and has the byte 255; then it is left
out. -/
theorem css_parse_css_eq_iff {c : Rgb Float} (h : c.isLiteral) :
    let digits := Hex.shortDigits c.bytes
    (Canonical.rgb c).css = String.ofList ('#' :: digits) ∧
    digits.length ∈ [3, 4, 6, 8] ∧ (∀ d ∈ digits, d ∈ "0123456789abcdef".toList) ∧
    ∃ (red green blue : UInt8) (alpha : Option UInt8),
      c.bytes = [red, green, blue] ++ alpha.toList ∧
      let back := Hex.color red green blue alpha
      Color.parse (Canonical.rgb c).css = .ok (.rgb back) ∧
      (Color.rgb back).resolve = (.ok (.rgb back), []) ∧
      (Canonical.rgb back).css =
        Hex.text ([red, green, blue] ++ (alpha.filter (· ≠ 255)).toList) ∧
      ((Canonical.rgb back).css = (Canonical.rgb c).css ↔
        ∀ a, c.alpha = .number a → 1.0 ≤ a ∨ Hex.byte (a * 255.0) ≠ 255) := by
  have hcss := css_of_isLiteral h
  obtain ⟨r, g, b, a, rfl⟩ := exists_of_isLiteral h
  have hbytes := Hex.bytes_number r g b a
  refine ⟨hcss, ?_, fun d hd => Hex.mem_of_mem_shortDigits hd, Hex.byte r, Hex.byte g, Hex.byte b,
    Hex.alphaByte a, hbytes, ?_, Hex.resolve_color _ _ _ _, css_color _ _ _ _, ?_⟩
  · -- Three or four bytes with one or two digits each.
    rw [Hex.length_shortDigits, hbytes]
    cases Hex.alphaByte a <;> split <;> simp
  · rw [hcss, hbytes]
    exact Hex.parse_text _ _ _ _
  · rw [css_color, hcss, hbytes, Hex.text_filter_eq_iff, Hex.alphaByte_ne_iff]
    simp [Expr.number]

/-- An infinite channel, one that is no number, a negative one, and an opacity of one half. -/
theorem css_parse_css_eq_iff_infinite :
    ∃ back : Rgb Float,
      (Canonical.rgb ⟨.number (1.0 / 0.0), .number (0.0 / 0.0), .number (-5.0), .number 0.5⟩).css =
        "#ff00007f" ∧
      Color.parse "#ff00007f" = .ok (.rgb back) ∧ (Canonical.rgb back).css = "#ff00007f" := by
  have hcss : (Canonical.rgb
      ⟨.number (1.0 / 0.0), .number (0.0 / 0.0), .number (-5.0), .number 0.5⟩).css =
        "#ff00007f" := by decide +kernel
  have halpha : Hex.byte (0.5 * 255.0) ≠ 255 := by decide +kernel
  obtain ⟨-, -, -, red, green, blue, alpha, -, hparse, -, -, hiff⟩ := css_parse_css_eq_iff
    (c := ⟨.number (1.0 / 0.0), .number (0.0 / 0.0), .number (-5.0), .number 0.5⟩) rfl
  rw [hcss] at hparse hiff
  refine ⟨Hex.color red green blue alpha, hcss, hparse, hiff.mpr fun a ha => ?_⟩
  obtain ⟨rfl, -⟩ := Quantity.mk.inj (Expr.quantity.inj ha)
  exact .inr halpha

/-- An opacity a little below 1 is written, read as 1 and then left out. -/
theorem css_ne_nearly_full :
    (Canonical.rgb ⟨.number 0.0, .number 0.0, .number 0.0, .number 0.999999999⟩).css = "#000f" ∧
    ∃ back : Rgb Float, Color.parse "#000f" = .ok (.rgb back) ∧
      (Color.rgb back).resolve = (.ok (.rgb back), []) ∧ (Canonical.rgb back).css = "#000" := by
  have htext : Hex.text ([0, 0, 0] ++ (some 255).toList) = "#000f" := by decide +kernel
  have hback : (Canonical.rgb (Hex.color 0 0 0 (some 255))).css = "#000" := by decide +kernel
  have hparse := Hex.parse_text 0 0 0 (some 255)
  rw [htext] at hparse
  exact ⟨by decide +kernel, Hex.color 0 0 0 (some 255), hparse, rfl, hback⟩

end Rgb

end ThemeColor
