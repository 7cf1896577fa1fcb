import BearerAuth.Json.Reader

/-!
# What the reader refuses

A text of white space only holds no value (`not_blank_of_parse`).  Not all white space may stand
between tokens: what may not is refused as no value either.
-/

namespace BearerAuth

namespace Json

theorem space_not_gap {b : UInt8} (hspace : Bytes.isSpace b = true) (hgap : isGap b = false) :
    b = 11 ∨ b = 12 := by
  simp only [Bytes.isSpace, isGap, Bool.or_eq_true, Bool.and_eq_true, beq_iff_eq,
    decide_eq_true_eq, Bool.or_eq_false_iff, beq_eq_false_iff_ne, ne_eq,
    UInt8.le_iff_toNat_le, ← UInt8.toNat_inj] at hspace hgap ⊢
  simp only [Ascii.space, Ascii.tab, Ascii.carriageReturn, Ascii.lineFeed, UInt8.toNat_ofNat] at *
  omega

theorem readNumber_space {c : Cursor} {b : UInt8} {rest : Bytes} (hc : c.rest = b :: rest)
    (hb : b = 11 ∨ b = 12) : readNumber c = c.fault .invalidValue := by
  have hminus : c.accept Ascii.minus = none := by
    rcases hb with rfl | rfl
    · simp only [Cursor.accept, hc]
      rfl
    · simp only [Cursor.accept, hc]
      rfl
  have hdigits : (readDigits c).1 = [] := by
    rcases hb with rfl | rfl
    · simp [readDigits, hc, Bytes.isDigit]
    · simp [readDigits, hc, Bytes.isDigit]
  rw [readNumber, readNumeral]
  simp only [hminus, hdigits, List.isEmpty_nil, if_true]
  rfl

theorem not_blank_of_parse {text : Bytes} {value : Json} (h : parse text = .ok value) :
    Bytes.isBlankText text = false := by
  rw [Bool.eq_false_iff]
  intro hblank
  rw [parse, maxDepth, readValue] at h
  cases hrest : (Cursor.mk 0 text).skipGap.rest with
  | nil =>
      simp only [hrest] at h
      cases h
  | cons b rest =>
      have hdrop : text.dropWhile isGap = b :: rest := hrest
      have hgap : isGap b = false := by
        have hhead := List.head?_dropWhile_not isGap text
        rw [hdrop] at hhead
        simpa using hhead
      have hmem : b ∈ text := (List.dropWhile_sublist isGap).subset (hdrop ▸ List.mem_cons_self)
      have hb : b = 11 ∨ b = 12 := space_not_gap (List.all_eq_true.mp hblank b hmem) hgap
      have hliteral : literal? (b :: rest) = none := by
        rcases hb with rfl | rfl
        · rfl
        · rfl
      have hne : b ≠ Ascii.quote ∧ b ≠ Ascii.openBrace ∧ b ≠ Ascii.openBracket := by
        rcases hb with rfl | rfl <;> decide
      simp only [hrest, hne.1, hne.2.1, hne.2.2, if_false, hliteral, readNumber_space hrest hb] at h
      cases h

end Json

end BearerAuth
