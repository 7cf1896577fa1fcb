import BearerAuth.Proofs.Bytes
import BearerAuth.Proofs.Json.Grammar

/-!
# Readers and what they recognize

A reader recognizes a part of the grammar when it reads such parts and nothing else
(`Recognizes`): what it has read is one, with the value that the reader gives; and where one
stands, the reader reads it and stops right behind it.  The second holds only where the part
cannot go on, since readers are greedy: the digits that follow a numeral would be read with it.
How a part could go on is a class of bytes, and the next byte must not be in it (`Stops`).
-/

namespace BearerAuth

namespace Json

open Grammar

/-! ## Cursors -/

/-- The next byte, if there is one, is not in a class. -/
def Stops (among : UInt8 → Bool) (rest : Bytes) : Prop :=
  ∀ b, rest.head? = some b → among b = false

section

variable {among among' : UInt8 → Bool} {b : UInt8} {text rest : Bytes} {c behind : Cursor}

theorem Stops.nil : Stops among [] := nofun

theorem stops_none : Stops (fun _ => false) rest := fun _ _ => rfl

theorem stops_cons_iff : Stops among (b :: rest) ↔ among b = false :=
  ⟨fun h => h b rfl, fun h _ hb => Option.some.inj hb ▸ h⟩

theorem Stops.mono (h : Stops among rest) (hle : ∀ b, among b = false → among' b = false) :
    Stops among' rest :=
  fun b hb => hle b (h b hb)

theorem beq_of_class {other : UInt8} (hb : among b = true) (hother : among other = false) :
    (b == other) = false := by
  rw [beq_eq_false_iff_ne]
  rintro rfl
  cases hb.symm.trans hother

theorem takeWhile_append (htext : ∀ b ∈ text, among b = true) (hrest : Stops among rest) :
    (text ++ rest).takeWhile among = text :=
  Bytes.takeWhile_run htext hrest

theorem dropWhile_append (htext : ∀ b ∈ text, among b = true) (hrest : Stops among rest) :
    (text ++ rest).dropWhile among = rest :=
  Bytes.dropWhile_run htext hrest

namespace Cursor

theorem skipWhile_of_append (hrest : c.rest = text ++ rest) (htext : ∀ b ∈ text, among b = true)
    (hstops : Stops among rest) : ∃ offset, c.skipWhile among = ⟨offset, rest⟩ := by
  rw [skipWhile, hrest, dropWhile_append htext hstops]
  exact ⟨_, rfl⟩

theorem skipGap_of_append (hrest : c.rest = text ++ rest) (htext : Gap text)
    (hstops : Stops isGap rest) : ∃ offset, c.skipGap = ⟨offset, rest⟩ :=
  skipWhile_of_append hrest htext hstops

theorem skipGap_rest (c : Cursor) : ∃ gap, Gap gap ∧ c.rest = gap ++ c.skipGap.rest := by
  refine ⟨c.rest.takeWhile isGap, ?_, List.takeWhile_append_dropWhile.symm⟩
  exact fun b hb => List.all_eq_true.mp List.all_takeWhile b hb

theorem accept_eq_some (h : c.accept b = some behind) : c.rest = b :: behind.rest := by
  rw [accept] at h
  split at h
  · cases h
  · next next rest hrest =>
      split at h
      · next hb =>
          obtain rfl := Option.some.inj h
          rw [hrest, hb]
      · cases h

theorem accept_cons (offset : Nat) (b : UInt8) (rest : Bytes) :
    accept ⟨offset, b :: rest⟩ b = some ⟨offset + 1, rest⟩ := by
  simp [accept]

theorem accept_of_stops (h : Stops (· == b) c.rest) : c.accept b = none := by
  rw [accept]
  split
  · rfl
  · next next rest hrest =>
      rw [hrest, stops_cons_iff, beq_eq_false_iff_ne] at h
      rw [if_neg h]

end Cursor

end

/-! ## Recognition -/

/-- A reader reads the parts of a grammar, up to a byte with which a part cannot go on, and
nothing else. -/
structure Recognizes {α : Type} (among : UInt8 → Bool) (read : Reader α)
    (grammar : Bytes → α → Prop) : Prop where
  sound : ∀ {c behind : Cursor} {a : α}, read c = .ok (a, behind) →
    ∃ text, grammar text a ∧ c.rest = text ++ behind.rest
  complete : ∀ {c : Cursor} {text rest : Bytes} {a : α}, grammar text a → c.rest = text ++ rest →
    Stops among rest → ∃ offset, read c = .ok (a, ⟨offset, rest⟩)

/-- A part with white space in front of it. -/
def Led {α : Type} (grammar : Bytes → α → Prop) (text : Bytes) (a : α) : Prop :=
  ∃ gap part, Gap gap ∧ grammar part a ∧ text = gap ++ part

/-! ## Numerals -/

/-- A byte with which a numeral may go on. -/
def isNumeric (b : UInt8) : Bool :=
  Bytes.isDigit b || b == Ascii.point || b == 'e'.toUInt8 || b == 'E'.toUInt8

section

variable {b : UInt8} {text rest : Bytes} {c behind : Cursor}

theorem readDigits_sound {digits : Bytes} (h : readDigits c = (digits, behind)) :
    (∀ b ∈ digits, Bytes.isDigit b = true) ∧ c.rest = digits ++ behind.rest := by
  obtain ⟨rfl, rfl⟩ := Prod.mk.inj h
  exact ⟨fun b hb => List.all_eq_true.mp List.all_takeWhile b hb,
    List.takeWhile_append_dropWhile.symm⟩

theorem readDigits_complete (h : Digits text) (hrest : c.rest = text ++ rest)
    (hstops : Stops Bytes.isDigit rest) :
    ∃ offset, readDigits c = (text, ⟨offset, rest⟩) := by
  obtain ⟨offset, hskip⟩ := Cursor.skipWhile_of_append hrest h.2 hstops
  exact ⟨offset, by rw [readDigits, hskip, hrest, takeWhile_append h.2 hstops]⟩

theorem isEmpty_of_digits (h : Digits text) : text.isEmpty = false := by
  simpa using h.1

theorem readFraction_recognizes :
    Recognizes (fun b => Bytes.isDigit b || b == Ascii.point) readFraction Fraction where
  sound := by
    intro c behind fraction h
    rw [readFraction] at h
    split at h
    · obtain ⟨rfl, rfl⟩ := Prod.mk.inj (Except.ok.inj h)
      exact ⟨[], .absent, rfl⟩
    · next c₁ hpoint =>
        rcases hdigits : readDigits c₁ with ⟨digits, behind'⟩
        simp only [hdigits] at h
        split at h
        · cases h
        · next hempty =>
            obtain ⟨rfl, rfl⟩ := Prod.mk.inj (Except.ok.inj h)
            obtain ⟨hall, hrest⟩ := readDigits_sound hdigits
            refine ⟨_, .present ⟨by simpa using hempty, hall⟩, ?_⟩
            rw [Cursor.accept_eq_some hpoint, hrest]
            rfl
  complete := by
    intro c text rest fraction h hrest hstops
    cases h with
    | absent =>
        have hnone : c.accept Ascii.point = none := by
          refine Cursor.accept_of_stops ?_
          rw [hrest]
          exact hstops.mono fun b hb => (Bool.or_eq_false_iff.mp hb).2
        rw [readFraction, hnone]
        exact ⟨c.offset, by rw [List.nil_append] at hrest; rw [← hrest]⟩
    | @present digits hdigits =>
        obtain ⟨o, crest⟩ := c
        obtain rfl : crest = Ascii.point :: (digits ++ rest) := hrest
        have hdigit : Stops Bytes.isDigit rest :=
          hstops.mono fun b hb => (Bool.or_eq_false_iff.mp hb).1
        obtain ⟨offset, hread⟩ :=
          @readDigits_complete _ rest ⟨o + 1, digits ++ rest⟩ hdigits rfl hdigit
        refine ⟨offset, ?_⟩
        rw [readFraction, Cursor.accept_cons]
        simp only [hread, isEmpty_of_digits hdigits, Bool.false_eq_true, if_false]

theorem readSign_sound {negative : Bool} (h : readSign c = (negative, behind)) :
    ∃ text, ExponentSign text negative ∧ c.rest = text ++ behind.rest := by
  rw [readSign] at h
  split at h
  · next hminus =>
      obtain ⟨rfl, rfl⟩ := Prod.mk.inj h
      exact ⟨_, .minus, Cursor.accept_eq_some hminus⟩
  · next hplus =>
      obtain ⟨rfl, rfl⟩ := Prod.mk.inj h
      exact ⟨_, .plus, Cursor.accept_eq_some hplus⟩
  · obtain ⟨rfl, rfl⟩ := Prod.mk.inj h
    exact ⟨_, .absent, rfl⟩

theorem readSign_complete {negative : Bool} (h : ExponentSign text negative)
    (hrest : c.rest = text ++ rest)
    (hstops : Stops (fun b => b == Ascii.minus || b == Ascii.plus) rest) :
    ∃ offset, readSign c = (negative, ⟨offset, rest⟩) := by
  obtain ⟨o, crest⟩ := c
  cases h with
  | absent =>
      obtain rfl : crest = rest := hrest
      have hminus : Cursor.accept ⟨o, crest⟩ Ascii.minus = none :=
        Cursor.accept_of_stops (hstops.mono fun b hb => (Bool.or_eq_false_iff.mp hb).1)
      have hplus : Cursor.accept ⟨o, crest⟩ Ascii.plus = none :=
        Cursor.accept_of_stops (hstops.mono fun b hb => (Bool.or_eq_false_iff.mp hb).2)
      exact ⟨o, by rw [readSign, hminus, hplus]⟩
  | plus =>
      obtain rfl : crest = Ascii.plus :: rest := hrest
      exact ⟨o + 1, rfl⟩
  | minus =>
      obtain rfl : crest = Ascii.minus :: rest := hrest
      exact ⟨o + 1, rfl⟩

theorem Grammar.Digits.head (h : Digits text) :
    ∃ b more, text = b :: more ∧ Bytes.isDigit b = true := by
  obtain ⟨hne, hall⟩ := h
  cases text with
  | nil => exact absurd rfl hne
  | cons b more => exact ⟨b, more, rfl, hall b List.mem_cons_self⟩

theorem accept_letter {letter : UInt8} (hletter : letter = 'e'.toUInt8 ∨ letter = 'E'.toUInt8)
    (offset : Nat) (rest : Bytes) :
    (Cursor.accept ⟨offset, letter :: rest⟩ 'e'.toUInt8).or
      (Cursor.accept ⟨offset, letter :: rest⟩ 'E'.toUInt8) = some ⟨offset + 1, rest⟩ := by
  rcases hletter with rfl | rfl
  · rfl
  · rfl

theorem readExponent_recognizes :
    Recognizes (fun b => Bytes.isDigit b || (b == 'e'.toUInt8 || b == 'E'.toUInt8)) readExponent
      Exponent where
  sound := by
    intro c behind exponent h
    rw [readExponent] at h
    split at h
    · obtain ⟨rfl, rfl⟩ := Prod.mk.inj (Except.ok.inj h)
      exact ⟨[], .absent, rfl⟩
    · next c₁ hletter =>
        rcases hsign : readSign c₁ with ⟨negative, c₂⟩
        rcases hdigits : readDigits c₂ with ⟨digits, behind'⟩
        simp only [hsign, hdigits] at h
        split at h
        · cases h
        · next hempty =>
            obtain ⟨rfl, rfl⟩ := Prod.mk.inj (Except.ok.inj h)
            obtain ⟨sign, hsign, hrest₁⟩ := readSign_sound hsign
            obtain ⟨hall, hrest₂⟩ := readDigits_sound hdigits
            have hne : digits ≠ [] := by simpa using hempty
            obtain ⟨letter, hcase, hrest⟩ : ∃ letter : UInt8,
                (letter = 'e'.toUInt8 ∨ letter = 'E'.toUInt8) ∧ c.rest = letter :: c₁.rest := by
              rcases Option.or_eq_some_iff.mp hletter with hsmall | ⟨-, hlarge⟩
              · exact ⟨_, .inl rfl, Cursor.accept_eq_some hsmall⟩
              · exact ⟨_, .inr rfl, Cursor.accept_eq_some hlarge⟩
            refine ⟨_, .present hcase hsign ⟨hne, hall⟩, ?_⟩
            rw [hrest, hrest₁, hrest₂, List.cons_append, List.append_assoc]
  complete := by
    intro c text rest exponent h hrest hstops
    obtain ⟨o, crest⟩ := c
    cases h with
    | absent =>
        obtain rfl : crest = rest := hrest
        have hsmall : Cursor.accept ⟨o, crest⟩ 'e'.toUInt8 = none :=
          Cursor.accept_of_stops (hstops.mono fun b hb =>
            (Bool.or_eq_false_iff.mp (Bool.or_eq_false_iff.mp hb).2).1)
        have hlarge : Cursor.accept ⟨o, crest⟩ 'E'.toUInt8 = none :=
          Cursor.accept_of_stops (hstops.mono fun b hb =>
            (Bool.or_eq_false_iff.mp (Bool.or_eq_false_iff.mp hb).2).2)
        exact ⟨o, by rw [readExponent, hsmall, hlarge]; rfl⟩
    | @present letter sign digits negative hletter hsign hdigits =>
        obtain rfl : crest = letter :: (sign ++ digits ++ rest) := hrest
        have hdigit : Stops Bytes.isDigit rest :=
          hstops.mono fun b hb => (Bool.or_eq_false_iff.mp hb).1
        have hbehind : Stops (fun b => b == Ascii.minus || b == Ascii.plus) (digits ++ rest) := by
          obtain ⟨b, more, rfl, hb⟩ := Digits.head hdigits
          exact stops_cons_iff.mpr (Bool.or_eq_false_iff.mpr
            ⟨beq_of_class hb rfl, beq_of_class hb rfl⟩)
        obtain ⟨o₁, hread₁⟩ := @readSign_complete sign (digits ++ rest)
          ⟨o + 1, sign ++ digits ++ rest⟩ negative hsign (List.append_assoc ..) hbehind
        obtain ⟨o₂, hread₂⟩ :=
          @readDigits_complete digits rest ⟨o₁, digits ++ rest⟩ hdigits rfl hdigit
        refine ⟨o₂, ?_⟩
        rw [readExponent, accept_letter hletter]
        simp only [hread₁, hread₂, isEmpty_of_digits hdigits, Bool.false_eq_true, if_false]
        rfl

def readMagnitude (negative : Bool) (c : Cursor) : Except Fault (Read Numeral) := do
  let (whole, behind) := readDigits c
  if whole.isEmpty then c.fault .invalidValue
  else do
    let (fraction, c) ← readFraction behind
    let (exponent, c) ← readExponent c
    .ok (⟨negative, whole, fraction, exponent⟩, c)

theorem readNumeral_eq (c : Cursor) : readNumeral c = match c.accept Ascii.minus with
    | some c => readMagnitude true c
    | none => readMagnitude false c := by
  rw [readNumeral]
  cases c.accept Ascii.minus <;> rfl

theorem readMagnitude_sound {negative : Bool} {numeral : Numeral}
    (h : readMagnitude negative c = .ok (numeral, behind)) :
    ∃ whole point power fraction exponent, Digits whole ∧ Fraction point fraction ∧
      Exponent power exponent ∧ numeral = ⟨negative, whole, fraction, exponent⟩ ∧
      c.rest = whole ++ (point ++ power) ++ behind.rest := by
  rw [readMagnitude] at h
  rcases hdigits : readDigits c with ⟨whole, c₁⟩
  simp only [hdigits] at h
  split at h
  · cases h
  · next hempty =>
      simp only [bind_eq_ok, Prod.exists] at h
      obtain ⟨fraction, c₂, hfraction, exponent, c₃, hexponent, heq⟩ := h
      obtain ⟨rfl, rfl⟩ := Prod.mk.inj (Except.ok.inj heq)
      obtain ⟨hall, hrest⟩ := readDigits_sound hdigits
      obtain ⟨point, hpoint, hrest₁⟩ := readFraction_recognizes.sound hfraction
      obtain ⟨power, hpower, hrest₂⟩ := readExponent_recognizes.sound hexponent
      have hne : whole ≠ [] := by simpa using hempty
      refine ⟨whole, point, power, fraction, exponent, ⟨hne, hall⟩, hpoint, hpower, rfl, ?_⟩
      rw [hrest, hrest₁, hrest₂, List.append_assoc, List.append_assoc]

theorem stops_of_fraction {point : Bytes} {fraction : Option Bytes} (h : Fraction point fraction)
    (hstops : Stops Bytes.isDigit rest) : Stops Bytes.isDigit (point ++ rest) := by
  cases h with
  | absent => exact hstops
  | present => exact stops_cons_iff.mpr rfl

theorem stops_of_exponent {power : Bytes} {exponent : Option Int} (h : Exponent power exponent)
    (hstops : Stops isNumeric rest) :
    Stops (fun b => Bytes.isDigit b || b == Ascii.point) (power ++ rest) := by
  cases h with
  | absent =>
      exact hstops.mono fun b hb =>
        (Bool.or_eq_false_iff.mp (Bool.or_eq_false_iff.mp hb).1).1
  | present hletter =>
      refine stops_cons_iff.mpr ?_
      rcases hletter with rfl | rfl
      · rfl
      · rfl

theorem readMagnitude_complete {whole point power : Bytes} {fraction : Option Bytes}
    {exponent : Option Int} (negative : Bool) (hwhole : Digits whole)
    (hpoint : Fraction point fraction) (hpower : Exponent power exponent)
    (hrest : c.rest = whole ++ (point ++ power) ++ rest) (hstops : Stops isNumeric rest) :
    ∃ offset, readMagnitude negative c =
      .ok (⟨negative, whole, fraction, exponent⟩, ⟨offset, rest⟩) := by
  have hbehindPoint := stops_of_exponent hpower hstops
  have hbehindWhole : Stops Bytes.isDigit (point ++ (power ++ rest)) :=
    stops_of_fraction hpoint (hbehindPoint.mono fun b hb => (Bool.or_eq_false_iff.mp hb).1)
  obtain ⟨o₁, hdigits⟩ := readDigits_complete hwhole
    (hrest.trans (by simp only [List.append_assoc])) hbehindWhole
  obtain ⟨o₂, hfraction⟩ := readFraction_recognizes.complete
    (c := ⟨o₁, point ++ (power ++ rest)⟩) hpoint rfl hbehindPoint
  obtain ⟨o₃, hexponent⟩ := readExponent_recognizes.complete
    (c := ⟨o₂, power ++ rest⟩) hpower rfl
    (hstops.mono fun b hb => by
      simp only [isNumeric, Bool.or_eq_false_iff] at hb ⊢
      exact ⟨hb.1.1.1, hb.1.2, hb.2⟩)
  refine ⟨o₃, ?_⟩
  simp only [readMagnitude, hdigits, isEmpty_of_digits hwhole, Bool.false_eq_true, if_false]
  refine bind_eq_ok.mpr ⟨_, hfraction, ?_⟩
  exact bind_eq_ok.mpr ⟨_, hexponent, rfl⟩

theorem readNumeral_recognizes : Recognizes isNumeric readNumeral NumeralText where
  sound := by
    intro c behind numeral h
    rw [readNumeral_eq] at h
    split at h
    · next c₁ hminus =>
        obtain ⟨whole, point, power, fraction, exponent, hwhole, hpoint, hpower, rfl, hrest⟩ :=
          readMagnitude_sound h
        refine ⟨_, .parts .minus hwhole hpoint hpower, ?_⟩
        rw [Cursor.accept_eq_some hminus, hrest]
        rfl
    · obtain ⟨whole, point, power, fraction, exponent, hwhole, hpoint, hpower, rfl, hrest⟩ :=
        readMagnitude_sound h
      exact ⟨_, .parts .absent hwhole hpoint hpower, hrest⟩
  complete := by
    intro c text rest numeral h hrest hstops
    obtain ⟨o, crest⟩ := c
    obtain @⟨sign, whole, point, power, negative, fraction, exponent, hsign, hwhole, hpoint, hpower⟩
      := h
    rw [readNumeral_eq]
    cases hsign with
    | absent =>
        have hnone : Cursor.accept ⟨o, crest⟩ Ascii.minus = none := by
          obtain ⟨b, more, rfl, hb⟩ := Digits.head hwhole
          obtain rfl : crest = _ := hrest
          exact Cursor.accept_of_stops (stops_cons_iff.mpr (beq_of_class hb rfl))
        rw [hnone]
        exact readMagnitude_complete false hwhole hpoint hpower hrest hstops
    | minus =>
        obtain rfl : crest = Ascii.minus :: (whole ++ (point ++ power) ++ rest) := hrest
        rw [Cursor.accept_cons]
        exact readMagnitude_complete true hwhole hpoint hpower rfl hstops

/-! ## Numbers -/

theorem fits_iff {n : Int} : Clock.fits n = true ↔ -(2 ^ 63) ≤ n ∧ n < 2 ^ 63 := by
  rw [Clock.fits, Bool.and_eq_true, decide_eq_true_eq, decide_eq_true_eq, Clock.bottom, Clock.top]
  exact and_congr_right fun _ => Int.le_sub_one_iff (n := 2 ^ 63)

/-- The value of a numeral, when it has one, is that of a number. -/
theorem value?_eq_some {numeral : Numeral} {value : Json} :
    numeral.value? = some value ↔
      IsInteger numeral ∧ value = .int (signed numeral.negative numeral.whole) ∨
        ¬ IsInteger numeral ∧ ∃ x, numeral.double? = some x ∧ value = .double x := by
  have hinteger : (numeral.fraction.isNone && numeral.exponent.isNone &&
      Clock.fits numeral.integer) = true ↔ IsInteger numeral := by
    rw [Bool.and_eq_true, Bool.and_eq_true, Option.isNone_iff_eq_none, Option.isNone_iff_eq_none,
      fits_iff, and_assoc]
    exact Iff.rfl
  rw [Numeral.value?]
  by_cases h : IsInteger numeral
  · rw [if_pos (hinteger.mpr h), Option.some.injEq]
    simp only [h, true_and, not_true_eq_false, false_and, or_false]
    exact eq_comm
  · rw [if_neg fun hint => h (hinteger.mp hint), Option.map_eq_some_iff]
    simp only [h, false_and, false_or, not_false_eq_true, true_and, eq_comm]

theorem readNumber_recognizes : Recognizes isNumeric readNumber Number where
  sound := by
    intro c behind value h
    simp only [readNumber, bind_eq_ok, Prod.exists] at h
    obtain ⟨numeral, c₁, hnumeral, h⟩ := h
    obtain ⟨text, htext, hrest⟩ := readNumeral_recognizes.sound hnumeral
    split at h
    · next found hvalue =>
        obtain ⟨rfl, rfl⟩ := Prod.mk.inj (Except.ok.inj h)
        rcases value?_eq_some.mp hvalue with ⟨hinteger, rfl⟩ | ⟨hnot, x, hx, rfl⟩
        · exact ⟨text, .integer htext hinteger, hrest⟩
        · exact ⟨text, .double htext hnot hx, hrest⟩
    · cases h
  complete := by
    intro c text rest value h hrest hstops
    obtain ⟨numeral, htext, hvalue⟩ :
        ∃ numeral, NumeralText text numeral ∧ numeral.value? = some value := by
      cases h with
      | integer htext hinteger => exact ⟨_, htext, value?_eq_some.mpr (.inl ⟨hinteger, rfl⟩)⟩
      | double htext hnot hx => exact ⟨_, htext, value?_eq_some.mpr (.inr ⟨hnot, _, hx, rfl⟩)⟩
    obtain ⟨offset, hread⟩ := readNumeral_recognizes.complete htext hrest hstops
    refine ⟨offset, ?_⟩
    rw [readNumber]
    refine bind_eq_ok.mpr ⟨_, hread, ?_⟩
    simp only [hvalue]

end

end Json

end BearerAuth
