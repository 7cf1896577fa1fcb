import BearerAuth.Proofs.Json.Recognition

/-!
# Surrogate pairs in strings

What the escapes of a string stand for when they are taken as UTF-16 is said by `decodeUtf16`: both
halves of a surrogate pair that follow one another are one code point, whatever stands before them,
and half a pair by itself is kept as three bytes.

The reader pairs codes from the left.  The first half of a pair takes the next code along even when
that is no second half, so a code that is a first half itself may be taken away from the second
half behind it.  That happens to a pair just when the number of first halves in front of its second
half is even (`Mispaired`), and then the string comes out longer by two bytes.
-/

namespace BearerAuth

namespace Json

open Grammar

/-! ## UTF-16 -/

/-- The code points from U+D800 to U+DFFF have no UTF-8 form; these three bytes take its place. -/
def halfBytes (code : Nat) : Bytes :=
  [0xED, (0x80 + code / 64 % 64).toUInt8, (0x80 + code % 64).toUInt8]

/-- The bytes of a code that is not part of a pair. -/
def loneBytes (code : Nat) : Bytes :=
  if 0xD800 ≤ code ∧ code ≤ 0xDFFF then halfBytes code
  else String.utf8EncodeChar (Char.ofNat code)

/-- The bytes of a string whose codes are UTF-16. -/
def decodeUtf16 : List Glyph → Bytes
  | [] => []
  | .byte b :: glyphs => b :: decodeUtf16 glyphs
  | .code high :: .code low :: glyphs =>
      if isHighSurrogate high && isLowSurrogate low then
        String.utf8EncodeChar (Char.ofNat (0x10000 + (high - 0xD800) * 0x400 + (low - 0xDC00))) ++
          decodeUtf16 glyphs
      else loneBytes high ++ decodeUtf16 (.code low :: glyphs)
  | .code code :: glyphs => loneBytes code ++ decodeUtf16 glyphs

def Grammar.Glyph.IsHigh : Glyph → Prop
  | .byte _ => False
  | .code value => isHighSurrogate value = true

/-- The second half of a surrogate pair stands right behind a run of first halves, of which there
are an even number, and not none. -/
def Mispaired (glyphs : List Glyph) : Prop :=
  ∃ before highs low after, glyphs = before ++ (highs ++ .code low :: after) ∧
    isLowSurrogate low = true ∧ highs ≠ [] ∧ highs.length % 2 = 0 ∧
    (∀ glyph ∈ highs, glyph.IsHigh) ∧ ∀ glyph, before.getLast? = some glyph → ¬ glyph.IsHigh

/-! ## Codes -/

section

variable {code high low : Nat}

theorem encodeCode_eq_utf8 (h : code.isValidChar) :
    encodeCode code = String.utf8EncodeChar (Char.ofNat code) := by
  have hvalue : (Char.ofNat code).val.toNat = code := by
    rw [Char.ofNat, dif_pos h]
    rfl
  have hlt : code < 0x110000 := by
    rcases h with h | h
    · omega
    · exact h.2
  simp only [String.utf8EncodeChar, hvalue, encodeCode, ← Nat.lt_succ_iff]
  split
  · rfl
  · split
    · rw [Nat.mod_eq_of_lt (by omega : code / 64 < 32), Nat.add_comm 0xC0, Nat.add_comm 0x80]
    · split
      · rw [Nat.mod_eq_of_lt (by omega : code / 4096 < 16), Nat.add_comm 0xE0, Nat.add_comm 0x80,
          Nat.add_comm 0x80]
      · rw [Nat.mod_eq_of_lt (by omega : code / 262144 < 8), Nat.add_comm 0xF0, Nat.add_comm 0x80,
          Nat.add_comm 0x80, Nat.add_comm 0x80]

theorem encodeCode_eq_lone (h : code < 0x10000) : encodeCode code = loneBytes code := by
  rw [loneBytes]
  split
  · next hhalf =>
      have hlead : code / 4096 = 13 := by omega
      rw [encodeCode, if_neg (by omega), if_neg (by omega), if_pos h, hlead]
      rfl
  · next hhalf =>
      have hvalid : code < 0xD800 ∨ 0xDFFF < code ∧ code < 0x110000 := by omega
      exact encodeCode_eq_utf8 hvalid

theorem encodeCode_pairCode (hhigh : isHighSurrogate high = true)
    (hlow : isLowSurrogate low = true) :
    encodeCode (pairCode high low) =
      String.utf8EncodeChar (Char.ofNat (0x10000 + (high - 0xD800) * 0x400 + (low - 0xDC00))) := by
  simp only [isHighSurrogate, isLowSurrogate, Bool.and_eq_true, decide_eq_true_eq] at hhigh hlow
  have hcode : pairCode high low = 0x10000 + (high - 0xD800) * 0x400 + (low - 0xDC00) := rfl
  have hbounds : 0xDFFF < pairCode high low ∧ pairCode high low < 0x110000 := by omega
  rw [← hcode]
  exact encodeCode_eq_utf8 (.inr hbounds)

/-- A pair is four bytes and each half of it three, so a pair that is torn apart is two bytes
longer. -/
theorem length_encodeCode_pair (hhigh : isHighSurrogate high = true)
    (hlow : isLowSurrogate low = true) :
    (encodeCode (pairCode high low)).length = 4 ∧ (encodeCode high).length = 3 ∧
      (encodeCode low).length = 3 := by
  simp only [isHighSurrogate, isLowSurrogate, Bool.and_eq_true, decide_eq_true_eq] at hhigh hlow
  have hcode : pairCode high low = 0x10000 + (high - 0xD800) * 0x400 + (low - 0xDC00) := rfl
  refine ⟨?_, ?_, ?_⟩
  · rw [encodeCode, if_neg (by omega), if_neg (by omega), if_neg (by omega)]
    rfl
  · rw [encodeCode, if_neg (by omega), if_neg (by omega), if_pos (by omega)]
    rfl
  · rw [encodeCode, if_neg (by omega), if_neg (by omega), if_pos (by omega)]
    rfl

end

/-! ## Runs of first halves -/

section

variable {glyph glyph' : Glyph} {glyphs : List Glyph}

/-- A second half is next. -/
def LowAhead (glyphs : List Glyph) : Prop :=
  ∃ low after, glyphs = .code low :: after ∧ isLowSurrogate low = true

/-- A first half is next. -/
def HighAhead (glyphs : List Glyph) : Prop := ∃ next after, glyphs = next :: after ∧ next.IsHigh

/-- What comes first is no matter, unless it is a first half in front of another one. -/
theorem mispaired_cons_iff (h : ¬ (glyph.IsHigh ∧ HighAhead glyphs)) :
    Mispaired (glyph :: glyphs) ↔ Mispaired glyphs := by
  constructor
  · rintro ⟨before, highs, low, after, hsplit, hlow, hne, heven, hall, hlast⟩
    cases before with
    | nil =>
        match highs, hne with
        | [_], _ => cases heven
        | first :: second :: more, _ =>
            obtain ⟨rfl, rfl⟩ := List.cons.inj hsplit
            simp only [List.forall_mem_cons] at hall
            exact absurd ⟨hall.1, second, _, rfl, hall.2.1⟩ h
    | cons first before =>
        obtain ⟨rfl, rfl⟩ := List.cons.inj hsplit
        refine ⟨before, highs, low, after, rfl, hlow, hne, heven, hall, fun last hbefore => ?_⟩
        exact hlast last (by rw [List.getLast?_cons, hbefore]; rfl)
  · rintro ⟨before, highs, low, after, rfl, hlow, hne, heven, hall, hlast⟩
    refine ⟨glyph :: before, highs, low, after, rfl, hlow, hne, heven, hall, ?_⟩
    intro last hbefore hhigh
    rw [List.getLast?_cons] at hbefore
    cases hend : before.getLast? with
    | some found =>
        obtain rfl : found = last := by simpa [hend] using hbefore
        exact hlast found hend hhigh
    | none =>
        obtain rfl : glyph = last := by simpa [hend] using hbefore
        obtain rfl := List.getLast?_eq_none_iff.mp hend
        match highs, hne with
        | first :: more, _ => exact h ⟨hhigh, first, _, rfl, hall first List.mem_cons_self⟩

/-- A code in front of one that is no first half is no matter either. -/
theorem mispaired_two_iff (h : ¬ glyph'.IsHigh) :
    Mispaired (glyph :: glyph' :: glyphs) ↔ Mispaired glyphs := by
  rw [mispaired_cons_iff, mispaired_cons_iff]
  · exact fun hhigh => h hhigh.1
  · rintro ⟨-, next, after, hcons, hnext⟩
    exact h ((List.cons.inj hcons).1 ▸ hnext)

/-- Two first halves leave the number of those behind them as even as it is. -/
theorem mispaired_pair_iff (h : glyph.IsHigh) (h' : glyph'.IsHigh) :
    Mispaired (glyph :: glyph' :: glyphs) ↔ LowAhead glyphs ∨ Mispaired glyphs := by
  constructor
  · rintro ⟨before, highs, low, after, hsplit, hlow, hne, heven, hall, hlast⟩
    match before, highs, hne with
    | [], [_], _ => cases heven
    | [], [_, _], _ =>
        simp only [List.cons_append, List.nil_append, List.cons.injEq] at hsplit
        exact .inl ⟨low, after, hsplit.2.2, hlow⟩
    | [], _ :: _ :: third :: more, _ =>
        simp only [List.cons_append, List.nil_append, List.cons.injEq] at hsplit
        simp only [List.forall_mem_cons] at hall
        refine .inr ⟨[], third :: more, low, after, hsplit.2.2, hlow, nofun, ?_, ?_, nofun⟩
        · simp only [List.length_cons] at heven ⊢
          omega
        · simpa using hall.2.2
    | [_], _, _ =>
        simp only [List.cons_append, List.nil_append, List.cons.injEq] at hsplit
        exact absurd h (hsplit.1 ▸ hlast _ rfl)
    | [_, _], _, _ =>
        simp only [List.cons_append, List.nil_append, List.cons.injEq] at hsplit
        exact absurd h' (hsplit.2.1 ▸ hlast _ rfl)
    | _ :: _ :: third :: before, highs, hne =>
        simp only [List.cons_append, List.cons.injEq] at hsplit
        exact .inr ⟨third :: before, highs, low, after, hsplit.2.2, hlow, hne, heven, hall,
          fun last hbefore => hlast last hbefore⟩
  · rintro (⟨low, after, rfl, hlow⟩ | ⟨before, highs, low, after, rfl, hlow, hne, heven, hall,
      hlast⟩)
    · exact ⟨[], [glyph, glyph'], low, after, rfl, hlow, nofun, by simp, by simp [h, h'], nofun⟩
    · cases before with
      | nil =>
          refine ⟨[], glyph :: glyph' :: highs, low, after, rfl, hlow, nofun, ?_, ?_, nofun⟩
          · simp only [List.length_cons] at heven ⊢
            omega
          · simpa [h, h'] using hall
      | cons first before =>
          exact ⟨glyph :: glyph' :: first :: before, highs, low, after, rfl, hlow, hne, heven, hall,
            fun last hbefore => hlast last hbefore⟩

end

/-! ## The reader and UTF-16 -/

section

variable {code : Nat} {glyphs rest : List Glyph}

/-- All codes have four digits. -/
def Small (glyphs : List Glyph) : Prop := ∀ code, .code code ∈ glyphs → code < 0x10000

/-- The reader gives what UTF-16 gives, or more bytes when a pair is torn apart. -/
structure Compares (glyphs : List Glyph) : Prop where
  same : ¬ Mispaired glyphs → bytesOf glyphs = decodeUtf16 glyphs
  longer : Mispaired glyphs → (decodeUtf16 glyphs).length < (bytesOf glyphs).length

theorem Compares.length_le (h : Compares glyphs) :
    (decodeUtf16 glyphs).length ≤ (bytesOf glyphs).length := by
  by_cases hmispaired : Mispaired glyphs
  · exact Nat.le_of_lt (h.longer hmispaired)
  · exact Nat.le_of_eq (congrArg List.length (h.same hmispaired).symm)

theorem Compares.step (h : Compares rest) (bytes : Bytes)
    (hread : bytesOf glyphs = bytes ++ bytesOf rest)
    (hdecode : decodeUtf16 glyphs = bytes ++ decodeUtf16 rest)
    (hmispaired : Mispaired glyphs ↔ Mispaired rest) : Compares glyphs where
  same hnot := by rw [hread, hdecode, h.same fun hrest => hnot (hmispaired.mpr hrest)]
  longer hyes := by
    have hlonger := h.longer (hmispaired.mp hyes)
    rw [hread, hdecode, List.length_append, List.length_append]
    exact Nat.add_lt_add_left hlonger _

theorem decodeUtf16_lone (hcode : code < 0x10000)
    (h : ¬ (isHighSurrogate code = true ∧ LowAhead glyphs)) :
    decodeUtf16 (.code code :: glyphs) = encodeCode code ++ decodeUtf16 glyphs := by
  rw [encodeCode_eq_lone hcode]
  match glyphs with
  | [] => rfl
  | .byte b :: more => rfl
  | .code low :: more =>
      rw [decodeUtf16, if_neg]
      rw [Bool.and_eq_true]
      exact fun ⟨hhigh, hlow⟩ => h ⟨hhigh, low, more, rfl, hlow⟩

theorem decodeUtf16_pair {high low : Nat} (hhigh : isHighSurrogate high = true)
    (hlow : isLowSurrogate low = true) (glyphs : List Glyph) :
    decodeUtf16 (.code high :: .code low :: glyphs) =
      encodeCode (pairCode high low) ++ decodeUtf16 glyphs := by
  rw [encodeCode_pairCode hhigh hlow, decodeUtf16, if_pos (by rw [hhigh, hlow]; rfl)]

theorem not_high_of_low (h : isLowSurrogate code = true) : ¬ isHighSurrogate code = true := by
  simp only [isLowSurrogate, isHighSurrogate, Bool.and_eq_true, decide_eq_true_eq] at h ⊢
  omega

theorem Small.tail {glyph : Glyph} (h : Small (glyph :: glyphs)) : Small glyphs :=
  fun code hcode => h code (List.mem_cons_of_mem _ hcode)

theorem Small.head (h : Small (.code code :: glyphs)) : code < 0x10000 :=
  h code List.mem_cons_self

theorem bytesOf_two {high next : Nat} (hhigh : isHighSurrogate high = true)
    (hnext : ¬ isLowSurrogate next = true) (glyphs : List Glyph) :
    bytesOf (.code high :: .code next :: glyphs) =
      (encodeCode high ++ encodeCode next) ++ bytesOf glyphs := by
  rw [bytesOf, if_pos hhigh, pairBytes, if_neg hnext]

/-- Of two first halves the second is torn from the second half behind it. -/
theorem compares_torn {high high' low : Nat}
    (hsmall : Small (.code high :: .code high' :: .code low :: glyphs))
    (hhigh : isHighSurrogate high = true) (hhigh' : isHighSurrogate high' = true)
    (hlow : isLowSurrogate low = true) (h : Compares (.code low :: glyphs)) :
    Compares (.code high :: .code high' :: .code low :: glyphs) where
  same hnot := by
    refine absurd ((mispaired_pair_iff ?_ ?_).mpr (.inl ⟨low, glyphs, rfl, hlow⟩)) hnot
    · exact hhigh
    · exact hhigh'
  longer _ := by
    have hnot :
        ¬ (isHighSurrogate high = true ∧ LowAhead (.code high' :: .code low :: glyphs)) := by
      rintro ⟨-, _, _, hcons, hlow'⟩
      cases hcons
      exact not_high_of_low hlow' hhigh'
    have hlone : ¬ (isHighSurrogate low = true ∧ LowAhead glyphs) :=
      fun ⟨hhigh, _⟩ => not_high_of_low hlow hhigh
    have hle := h.length_le
    obtain ⟨hpair, hhalf, hhalf'⟩ := length_encodeCode_pair hhigh' hlow
    rw [decodeUtf16_lone hsmall.tail.tail.head hlone] at hle
    rw [decodeUtf16_lone hsmall.head hnot, decodeUtf16_pair hhigh' hlow,
      bytesOf_two hhigh (fun h => not_high_of_low h hhigh')]
    simp only [List.length_append] at hle ⊢
    omega

theorem Compares.two {high next : Nat} (hsmall : Small (.code high :: .code next :: glyphs))
    (hhigh : isHighSurrogate high = true) (hnext : ¬ isLowSurrogate next = true)
    (hfree : ¬ (isHighSurrogate next = true ∧ LowAhead glyphs)) (h : Compares glyphs) :
    Compares (.code high :: .code next :: glyphs) := by
  have hnot : ¬ (isHighSurrogate high = true ∧ LowAhead (.code next :: glyphs)) := by
    rintro ⟨-, _, _, hcons, hlow⟩
    cases hcons
    exact hnext hlow
  refine h.step _ (bytesOf_two hhigh hnext glyphs) ?_ ?_
  · rw [decodeUtf16_lone hsmall.head hnot, decodeUtf16_lone hsmall.tail.head hfree,
      List.append_assoc]
  · by_cases hnext' : isHighSurrogate next = true
    · have hpair := @mispaired_pair_iff (.code high) (.code next) glyphs hhigh hnext'
      rw [hpair, or_iff_right fun hlow => hfree ⟨hnext', hlow⟩]
    · exact mispaired_two_iff hnext'

/-- The comparison goes along with the cases in which the reader takes codes one by one or in
pairs. -/
theorem compares (hsmall : Small glyphs) : Compares glyphs := by
  induction glyphs using bytesOf.induct with
  | case1 =>
      refine ⟨fun _ => rfl, ?_⟩
      rintro ⟨before, highs, low, after, hsplit, -⟩
      simp at hsplit
  | case2 b glyphs ih =>
      exact (ih hsmall.tail).step [b] rfl rfl (mispaired_cons_iff fun h => h.1)
  | case3 high next glyphs hhigh ih =>
      have hrest := ih hsmall.tail.tail
      by_cases hlow : isLowSurrogate next = true
      · refine hrest.step (encodeCode (pairCode high next)) ?_
          (decodeUtf16_pair hhigh hlow glyphs) ?_
        · rw [bytesOf, if_pos hhigh, pairBytes, if_pos hlow]
        · exact mispaired_two_iff (not_high_of_low hlow)
      · by_cases htorn : isHighSurrogate next = true ∧ LowAhead glyphs
        · obtain ⟨hhigh', low, after, rfl, hlow'⟩ := htorn
          exact compares_torn hsmall hhigh hhigh' hlow' hrest
        · exact hrest.two hsmall hhigh hlow htorn
  | case4 high next glyphs hhigh ih =>
      refine (ih hsmall.tail).step (encodeCode high) ?_ ?_ ?_
      · rw [bytesOf, if_neg hhigh]
      · exact decodeUtf16_lone hsmall.head fun h => hhigh h.1
      · exact mispaired_cons_iff fun h => hhigh h.1
  | case5 code glyphs hne ih =>
      refine (ih hsmall.tail).step (encodeCode code) ?_ ?_ ?_
      · exact bytesOf_code fun {low more} hcons => absurd hcons (hne low more)
      · refine decodeUtf16_lone hsmall.head ?_
        rintro ⟨-, low, after, rfl, -⟩
        exact hne _ _ rfl
      · refine mispaired_cons_iff ?_
        rintro ⟨-, next, after, rfl, hnext⟩
        cases next with
        | byte b => exact hnext
        | code next => exact hne _ _ rfl

end

/-! ## Literals -/

section

variable {text text' rest rest' : Bytes} {glyph glyph' : Glyph} {glyphs glyphs' : List Glyph}
  {code code' : Nat} {bytes : Bytes}

theorem hexDigit_lt {b : UInt8} {n : Nat} (h : Bytes.hexDigit? b = some n) : n < 16 := by
  have hbyte := b.toNat_lt
  simp only [Bytes.hexDigit?, Bool.and_eq_true, decide_eq_true_eq, UInt8.le_iff_toNat_le] at h
  grind

theorem Grammar.Code.lt (h : Code text code) : code < 0x10000 := by
  cases h with
  | digits h₁ h₂ h₃ h₄ =>
      have hlt₁ := hexDigit_lt h₁
      have hlt₂ := hexDigit_lt h₂
      have hlt₃ := hexDigit_lt h₃
      have hlt₄ := hexDigit_lt h₄
      omega

theorem Grammar.Code.unique (h : Code text code) (h' : Code text code') : code = code' := by
  cases h with
  | digits h₁ h₂ h₃ h₄ =>
      cases h' with
      | digits h₁' h₂' h₃' h₄' =>
          obtain rfl := Option.some.inj (h₁.symm.trans h₁')
          obtain rfl := Option.some.inj (h₂.symm.trans h₂')
          obtain rfl := Option.some.inj (h₃.symm.trans h₃')
          obtain rfl := Option.some.inj (h₄.symm.trans h₄')
          rfl

/-- A text begins with one part at most. -/
theorem Grammar.Part.unique (h : Part text glyph) (h' : Part text' glyph')
    (heq : text ++ rest = text' ++ rest') : glyph = glyph' ∧ rest = rest' := by
  cases h with
  | plain _ _ hbackslash =>
      cases h' with
      | plain =>
          obtain ⟨rfl, rfl⟩ := List.cons.inj heq
          exact ⟨rfl, rfl⟩
      | short => exact absurd (List.cons.inj heq).1 hbackslash
      | unicode => exact absurd (List.cons.inj heq).1 hbackslash
  | short hshort =>
      cases h' with
      | plain _ _ hbackslash => exact absurd (List.cons.inj heq).1.symm hbackslash
      | short hshort' =>
          obtain ⟨-, htail⟩ := List.cons.inj heq
          obtain ⟨rfl, rfl⟩ := List.cons.inj htail
          rw [← shortEscape?_eq_some] at hshort hshort'
          obtain rfl := Option.some.inj (hshort.symm.trans hshort')
          exact ⟨rfl, rfl⟩
      | unicode =>
          obtain ⟨-, htail⟩ := List.cons.inj heq
          obtain ⟨rfl, -⟩ := List.cons.inj htail
          cases shortEscape?_eq_some.mpr hshort
  | unicode hdigits =>
      cases h' with
      | plain _ _ hbackslash => exact absurd (List.cons.inj heq).1.symm hbackslash
      | short hshort =>
          obtain ⟨-, htail⟩ := List.cons.inj heq
          obtain ⟨rfl, -⟩ := List.cons.inj htail
          cases shortEscape?_eq_some.mpr hshort
      | unicode hdigits' =>
          obtain ⟨-, htail⟩ := List.cons.inj heq
          obtain ⟨-, htail⟩ := List.cons.inj htail
          obtain ⟨rfl, rfl⟩ :=
            List.append_inj htail (hdigits.length.trans hdigits'.length.symm)
          exact ⟨congrArg Glyph.code (hdigits.unique hdigits'), rfl⟩

theorem Grammar.Parts.unique (h : Parts text glyphs) (h' : Parts text glyphs') :
    glyphs' = glyphs := by
  induction h generalizing glyphs' with
  | nil =>
      generalize hempty : ([] : Bytes) = empty at h'
      cases h' with
      | nil => rfl
      | cons hpart _ => cases hpart <;> cases hempty
  | @cons part rest glyph glyphs hpart _ ih =>
      generalize hwhole : part ++ rest = whole at h'
      cases h' with
      | nil => cases hpart <;> cases hwhole
      | cons hpart' hrest' =>
          obtain ⟨rfl, rfl⟩ := hpart.unique hpart' hwhole
          rw [ih hrest']

theorem Grammar.Parts.small (h : Parts text glyphs) : Small glyphs := by
  induction h with
  | nil => exact nofun
  | cons hpart _ ih =>
      intro code hcode
      rcases List.mem_cons.mp hcode with rfl | hcode
      · cases hpart with
        | unicode hdigits => exact hdigits.lt
      · exact ih code hcode

/-- What a string in its quotes is read as: its parts taken as UTF-16, just when no pair is torn
apart. -/
def ReadsAs (literal bytes : Bytes) : Prop :=
  ∃ inner glyphs, literal = Ascii.quote :: (inner ++ [Ascii.quote]) ∧
    (∀ other, Parts inner other ↔ other = glyphs) ∧
    (bytes = decodeUtf16 glyphs ↔ ¬ Mispaired glyphs)

theorem Grammar.Text.readsAs (h : Text text bytes) : ReadsAs text bytes := by
  obtain @⟨inner, glyphs, hparts⟩ := h
  have hcompares := compares hparts.small
  refine ⟨inner, glyphs, rfl, fun other => ⟨hparts.unique, fun h => h ▸ hparts⟩, ?_,
    hcompares.same⟩
  intro hsame hmispaired
  exact Nat.ne_of_lt (hcompares.longer hmispaired) (congrArg List.length hsame.symm)

/-- **Strings are read as UTF-16, unless a pair is torn apart.**  A string that is read, as a key or
a value or as the whole of a text, has its parts in one way only, and the bytes that are read are
those of its bytes, its short escapes and its codes from left to right, where two halves of a
surrogate pair that follow one another are the UTF-8 form of one code point and every other code
that of its own.  They are others just when a second half stands behind an even number of first
halves, and not behind none. -/
theorem strings_read_as_utf16 (text bytes : Bytes) :
    (∀ offset behind, readText ⟨offset, text⟩ = .ok (bytes, behind) →
      ∃ gap literal, Gap gap ∧ text = gap ++ (literal ++ behind.rest) ∧ ReadsAs literal bytes) ∧
    (parse text = .ok (.text bytes) →
      ∃ gap literal gap', Gap gap ∧ Gap gap' ∧ text = gap ++ (literal ++ gap') ∧
        ReadsAs literal bytes) := by
  constructor
  · intro offset behind h
    obtain ⟨_, ⟨gap, literal, hgap, htext, rfl⟩, hrest⟩ := readText_recognizes.sound h
    exact ⟨gap, literal, hgap, hrest.trans (List.append_assoc ..), htext.readsAs⟩
  · intro h
    obtain @⟨gap, literal, gap', _, hgap, hvalue, hgap'⟩ := document_of_parse h
    cases hvalue with
    | number hnumber => cases hnumber
    | text htext => exact ⟨gap, literal, gap', hgap, hgap', rfl, htext.readsAs⟩

theorem highPart : Part (utf8 "\\ud800") (.code 0xD800) :=
  .unicode (@Code.digits _ _ _ _ 13 8 0 0 rfl rfl rfl rfl)

theorem lowPart : Part (utf8 "\\udc00") (.code 0xDC00) :=
  .unicode (@Code.digits _ _ _ _ 13 12 0 0 rfl rfl rfl rfl)

/-- Three first halves and a second one: the pair is not torn apart. -/
theorem pair_behind_two_highs :
    ∃ bytes, readText ⟨0, utf8 "\"\\ud800\\ud800\\ud800\\udc00\""⟩ = .ok (bytes, ⟨26, []⟩) ∧
      bytes = decodeUtf16 [.code 0xD800, .code 0xD800, .code 0xD800, .code 0xDC00] ∧
      ¬ Mispaired [.code 0xD800, .code 0xD800, .code 0xD800, .code 0xDC00] := by
  obtain ⟨bytes, hread, hbytes⟩ : ∃ bytes,
      readText ⟨0, utf8 "\"\\ud800\\ud800\\ud800\\udc00\""⟩ = .ok (bytes, ⟨26, []⟩) ∧
      bytes = decodeUtf16 [.code 0xD800, .code 0xD800, .code 0xD800, .code 0xDC00] :=
    ⟨[0xED, 0xA0, 0x80, 0xED, 0xA0, 0x80, 0xF0, 0x90, 0x80, 0x80], rfl, by decide⟩
  obtain ⟨gap, _, hgap, hrest, inner, glyphs, rfl, hparts, hreads⟩ :=
    (strings_read_as_utf16 _ _).1 _ _ hread
  have hparts' : Parts (utf8 "\\ud800\\ud800\\ud800\\udc00")
      [.code 0xD800, .code 0xD800, .code 0xD800, .code 0xDC00] :=
    .cons highPart (.cons highPart (.cons highPart (.single lowPart)))
  cases gap with
  | nil =>
      have hinner : utf8 "\\ud800\\ud800\\ud800\\udc00" ++ [Ascii.quote] =
          inner ++ [Ascii.quote] := by
        rw [List.append_nil] at hrest
        exact (List.cons.inj hrest).2
      obtain rfl := List.append_cancel_right hinner
      obtain rfl := (hparts _).mp hparts'
      exact ⟨bytes, hread, hbytes, hreads.mp hbytes⟩
  | cons b gap =>
      obtain rfl : Ascii.quote = b := (List.cons.inj hrest).1
      exact absurd (hgap _ List.mem_cons_self) (by decide)

/-- Two first halves and a second one: the second half is taken away from the first half that it
belongs to, and both are kept by themselves. -/
theorem pair_behind_high_torn :
    Parts (utf8 "\\ud800\\ud800\\udc00") [.code 0xD800, .code 0xD800, .code 0xDC00] ∧
      decodeUtf16 [.code 0xD800, .code 0xD800, .code 0xDC00] =
        [0xED, 0xA0, 0x80, 0xF0, 0x90, 0x80, 0x80] ∧
      parse (utf8 "\"\\ud800\\ud800\\udc00\"") =
        .ok (.text [0xED, 0xA0, 0x80, 0xED, 0xA0, 0x80, 0xED, 0xB0, 0x80]) :=
  ⟨.cons highPart (.cons highPart (.single lowPart)), by decide, rfl⟩

end

end Json

end BearerAuth
