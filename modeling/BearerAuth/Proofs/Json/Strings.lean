import BearerAuth.Proofs.Json.Tokens

/-!
# Strings are read as their grammar says

A reader of strings takes piece by piece, and a piece is one part of the string, or two: the first
half of a surrogate pair takes a code that follows it along.  A code is left alone in front of
anything else, so what `bytesOf` gives for a list of parts is what the pieces give one by one.
-/

namespace BearerAuth

namespace Json

open Grammar

section

variable {text rest : Bytes} {c behind : Cursor}

/-! ## Codes -/

theorem shortEscape?_eq_some {letter b : UInt8} :
    shortEscape? letter = some b ↔ (letter, b) ∈ shortEscapes := by
  constructor
  · intro h
    rw [shortEscape?] at h
    repeat' split at h
    all_goals
      cases h
      try (next hletter => subst hletter; decide)
  · intro h
    simp only [shortEscapes, List.mem_cons, List.not_mem_nil, or_false, Prod.mk.injEq] at h
    rcases h with ⟨rfl, rfl⟩ | ⟨rfl, rfl⟩ | ⟨rfl, rfl⟩ | ⟨rfl, rfl⟩ | ⟨rfl, rfl⟩ | ⟨rfl, rfl⟩ |
      ⟨rfl, rfl⟩ | ⟨rfl, rfl⟩ <;> rfl

theorem readHex_succ_eq_ok {n code value : Nat} :
    readHex (n + 1) code c = .ok (value, behind) ↔
      ∃ b digit more, c.rest = b :: more ∧ Bytes.hexDigit? b = some digit ∧
        readHex n (16 * code + digit) ⟨c.offset + 1, more⟩ = .ok (value, behind) := by
  obtain ⟨o, crest⟩ := c
  rw [readHex]
  cases crest with
  | nil => simp [Cursor.fault]
  | cons b more =>
      simp only [Cursor.skip, List.drop_one, List.tail_cons]
      cases hdigit : Bytes.hexDigit? b with
      | none =>
          refine ⟨nofun, ?_⟩
          rintro ⟨b', digit, more', hcons, hdigit', -⟩
          obtain ⟨rfl, -⟩ := List.cons.inj hcons
          cases hdigit.symm.trans hdigit'
      | some digit =>
          constructor
          · exact fun h => ⟨b, digit, more, rfl, hdigit, h⟩
          · rintro ⟨b', digit', more', hcons, hdigit', h⟩
            obtain ⟨rfl, rfl⟩ := List.cons.inj hcons
            obtain rfl := Option.some.inj (hdigit.symm.trans hdigit')
            exact h

theorem readCode_recognizes : Recognizes (fun _ => false) readCode Code where
  sound := by
    intro c behind code h
    rw [readCode] at h
    split at h
    · cases h
    · simp only [readHex_succ_eq_ok] at h
      obtain ⟨d₁, n₁, rest₁, hrest₁, h₁, d₂, n₂, rest₂, hrest₂, h₂, d₃, n₃, rest₃, hrest₃, h₃,
        d₄, n₄, rest₄, hrest₄, h₄, h⟩ := h
      obtain ⟨rfl, rfl⟩ := Prod.mk.inj (Except.ok.inj h)
      subst hrest₂ hrest₃ hrest₄
      rw [Nat.mul_zero, Nat.zero_add]
      exact ⟨_, .digits h₁ h₂ h₃ h₄, hrest₁⟩
  complete := by
    intro c text rest code h hrest _
    obtain ⟨o, crest⟩ := c
    obtain @⟨d₁, d₂, d₃, d₄, n₁, n₂, n₃, n₄, h₁, h₂, h₃, h₄⟩ := h
    obtain rfl : crest = d₁ :: d₂ :: d₃ :: d₄ :: rest := hrest
    refine ⟨o + 1 + 1 + 1 + 1, ?_⟩
    rw [readCode, if_neg (by simp)]
    simp only [readHex_succ_eq_ok]
    refine ⟨_, _, _, rfl, h₁, _, _, _, rfl, h₂, _, _, _, rfl, h₃, _, _, _, rfl, h₄, ?_⟩
    rw [Nat.mul_zero, Nat.zero_add]
    rfl

/-! ## Escapes -/

/-- A code is next, as far as a reader looks ahead. -/
def CodeAhead (rest : Bytes) : Prop :=
  6 ≤ rest.length ∧ ∃ more, rest = Ascii.backslash :: 'u'.toUInt8 :: more

theorem takesAlong_iff {code : Nat} :
    (isHighSurrogate code && decide (6 ≤ rest.length) && (utf8 "\\u").isPrefixOf rest) = true ↔
      isHighSurrogate code = true ∧ CodeAhead rest := by
  have hprefix : (utf8 "\\u").isPrefixOf rest = true ↔
      ∃ more, rest = Ascii.backslash :: 'u'.toUInt8 :: more := by
    rw [List.isPrefixOf_iff_prefix]
    exact ⟨fun ⟨more, h⟩ => ⟨more, h.symm⟩, fun ⟨more, h⟩ => ⟨more, h.symm⟩⟩
  rw [Bool.and_eq_true, Bool.and_eq_true, decide_eq_true_eq, hprefix, and_assoc, CodeAhead]

theorem readUnicode_single {code : Nat} {c₁ : Cursor} (hcode : readCode c = .ok (code, c₁))
    (h : ¬ (isHighSurrogate code = true ∧ CodeAhead c₁.rest)) :
    readUnicode c = .ok (encodeCode code, c₁) := by
  rw [readUnicode, hcode]
  exact if_neg fun htakes => h (takesAlong_iff.mp htakes)

theorem readUnicode_pair {high : Nat} {c₁ : Cursor} (hcode : readCode c = .ok (high, c₁))
    (hhigh : isHighSurrogate high = true) (hahead : CodeAhead c₁.rest) :
    readUnicode c = (readCode (c₁.skip 2)).map fun low => (pairBytes high low.1, low.2) := by
  rw [readUnicode, hcode]
  refine (if_pos (takesAlong_iff.mpr ⟨hhigh, hahead⟩)).trans ?_
  cases readCode (c₁.skip 2) with
  | error fault => rfl
  | ok low =>
      rw [Except.map, pairBytes]
      show (if isLowSurrogate low.1 = true then _ else _) = _
      split <;> rfl

/-- The parts that a reader has read come to the given bytes, whatever parts follow them up to the
end of the string. -/
def Yields (glyphs : List Glyph) (bytes rest : Bytes) : Prop :=
  ∀ {more : List Glyph} {text behind : Bytes}, Parts text more →
    rest = text ++ Ascii.quote :: behind → bytesOf (glyphs ++ more) = bytes ++ bytesOf more

theorem Grammar.Parts.single {glyph : Glyph} (h : Part text glyph) : Parts text [glyph] := by
  have hparts := Parts.cons h .nil
  rwa [List.append_nil] at hparts

theorem Grammar.Code.length {code : Nat} (h : Code text code) : text.length = 4 := by
  cases h
  rfl

/-- A code that is a part of a string is ahead of what is read before it. -/
theorem codeAhead_of_parts {code : Nat} {glyphs : List Glyph}
    (h : Parts text (.code code :: glyphs)) (behind : Bytes) :
    CodeAhead (text ++ Ascii.quote :: behind) := by
  cases h with
  | cons hpart _ =>
      cases hpart with
      | unicode hdigits =>
          have hlength := hdigits.length
          refine ⟨?_, _, rfl⟩
          simp only [List.length_append, List.length_cons]
          omega

theorem bytesOf_code {code : Nat} {glyphs : List Glyph}
    (h : ∀ {low more}, glyphs = .code low :: more → isHighSurrogate code = false) :
    bytesOf (.code code :: glyphs) = encodeCode code ++ bytesOf glyphs := by
  cases glyphs with
  | nil => rfl
  | cons glyph more =>
      cases glyph with
      | byte b => rfl
      | code low => simp only [bytesOf, h rfl, Bool.false_eq_true, if_false]

theorem readUnicode_sound {bytes : Bytes} (h : readUnicode c = .ok (bytes, behind)) :
    ∃ text glyphs, Parts (Ascii.backslash :: 'u'.toUInt8 :: text) glyphs ∧
      c.rest = text ++ behind.rest ∧ Yields glyphs bytes behind.rest := by
  have hread := h
  simp only [readUnicode, bind_eq_ok, Prod.exists] at h
  obtain ⟨code, c₁, hcode, -⟩ := h
  obtain ⟨digits, hdigits, hrest⟩ := readCode_recognizes.sound hcode
  by_cases htakes : isHighSurrogate code = true ∧ CodeAhead c₁.rest
  · rw [readUnicode_pair hcode htakes.1 htakes.2, map_eq_ok] at hread
    obtain ⟨⟨low, c₂⟩, hlow, heq⟩ := hread
    obtain ⟨rfl, rfl⟩ := Prod.mk.inj heq
    obtain ⟨-, more, hahead⟩ := htakes.2
    obtain ⟨digits', hdigits', hrest'⟩ := readCode_recognizes.sound hlow
    have hmore : more = digits' ++ c₂.rest := by
      rw [← hrest', Cursor.skip, hahead]
      rfl
    refine ⟨_, _, .cons (.unicode hdigits) (.single (.unicode hdigits')), ?_, ?_⟩
    · rw [hrest, hahead, hmore]
      exact (List.append_assoc digits (Ascii.backslash :: 'u'.toUInt8 :: digits') c₂.rest).symm
    · intro more text behind' _ _
      simp [bytesOf, htakes.1]
  · rw [readUnicode_single hcode htakes] at hread
    obtain ⟨rfl, rfl⟩ := Prod.mk.inj (Except.ok.inj hread)
    refine ⟨_, _, .single (.unicode hdigits), hrest, ?_⟩
    intro more text behind' hmore hbehind
    refine bytesOf_code fun {low glyphs} hcons => ?_
    subst hcons
    rw [← Bool.not_eq_true]
    exact fun hhigh => htakes ⟨hhigh, hbehind ▸ codeAhead_of_parts hmore _⟩

/-! ## Pieces -/

/-- A piece is one part of a string, or two. -/
theorem readPiece_sound {bytes : Bytes} (h : readPiece c = .ok (some bytes, behind)) :
    ∃ text glyphs, Parts text glyphs ∧ c.rest = text ++ behind.rest ∧
      Yields glyphs bytes behind.rest := by
  obtain ⟨o, crest⟩ := c
  cases crest with
  | nil => cases h
  | cons b rest =>
      simp only [readPiece] at h
      split at h
      · cases h
      · next hquote =>
          split at h
          · cases h
          · next hcontrol =>
              split at h
              · next hbackslash =>
                  subst hbackslash
                  cases rest with
                  | nil => cases h
                  | cons e rest =>
                      simp only at h
                      split at h
                      · next hu =>
                          subst hu
                          simp only [bind_eq_ok, Prod.exists] at h
                          obtain ⟨piece, c₁, hunicode, heq⟩ := h
                          obtain ⟨hbytes, rfl⟩ := Prod.mk.inj (Except.ok.inj heq)
                          obtain rfl := Option.some.inj hbytes
                          obtain ⟨text, glyphs, hparts, hrest, hyields⟩ :=
                            readUnicode_sound hunicode
                          refine ⟨_, glyphs, hparts, ?_, hyields⟩
                          show _ = Ascii.backslash :: 'u'.toUInt8 :: (text ++ _)
                          rw [← hrest]
                          rfl
                      · split at h
                        · next byte hshort =>
                            obtain ⟨hbytes, rfl⟩ := Prod.mk.inj (Except.ok.inj h)
                            obtain rfl := Option.some.inj hbytes
                            exact ⟨_, _, .single (.short (shortEscape?_eq_some.mp hshort)), rfl,
                              fun _ _ => rfl⟩
                        · cases h
              · next hplain =>
                  obtain ⟨hbytes, rfl⟩ := Prod.mk.inj (Except.ok.inj h)
                  obtain rfl := Option.some.inj hbytes
                  exact ⟨_, _, .single (.plain (UInt8.not_lt.mp hcontrol) hquote hplain), rfl,
                    fun _ _ => rfl⟩

theorem readPiece_end (h : readPiece c = .ok (none, behind)) :
    c.rest = Ascii.quote :: behind.rest := by
  obtain ⟨o, crest⟩ := c
  cases crest with
  | nil => cases h
  | cons b rest =>
      simp only [readPiece] at h
      split at h
      · next hquote =>
          obtain ⟨-, rfl⟩ := Prod.mk.inj (Except.ok.inj h)
          rw [hquote]
          rfl
      · split at h
        · cases h
        · split at h
          · cases rest with
            | nil => cases h
            | cons e rest =>
                simp only at h
                split at h
                · simp only [bind_eq_ok, Prod.exists] at h
                  obtain ⟨piece, c₁, -, heq⟩ := h
                  cases heq
                · split at h
                  · cases h
                  · cases h
          · cases h

theorem Grammar.Parts.append {text' : Bytes} {glyphs glyphs' : List Glyph} (h : Parts text glyphs)
    (h' : Parts text' glyphs') : Parts (text ++ text') (glyphs ++ glyphs') := by
  induction h with
  | nil => exact h'
  | cons hpart _ ih =>
      rw [List.append_assoc]
      exact .cons hpart ih

theorem readPieces_sound {n : Nat} {bytes : Bytes} (h : readPieces n c = .ok (bytes, behind)) :
    ∃ text glyphs, Parts text glyphs ∧ bytes = bytesOf glyphs ∧
      c.rest = text ++ Ascii.quote :: behind.rest := by
  induction n generalizing c bytes with
  | zero => cases h
  | succ n ih =>
      simp only [readPieces, bind_eq_ok, Prod.exists] at h
      obtain ⟨piece, c₁, hpiece, h⟩ := h
      cases piece with
      | none =>
          obtain ⟨rfl, rfl⟩ := Prod.mk.inj (Except.ok.inj h)
          exact ⟨[], [], .nil, rfl, readPiece_end hpiece⟩
      | some bytes₁ =>
          simp only [bind_eq_ok, Prod.exists] at h
          obtain ⟨more, c₂, hmore, heq⟩ := h
          obtain ⟨rfl, rfl⟩ := Prod.mk.inj (Except.ok.inj heq)
          obtain ⟨text₁, glyphs₁, hparts₁, hrest₁, hyields⟩ := readPiece_sound hpiece
          obtain ⟨text, glyphs, hparts, rfl, hrest⟩ := ih hmore
          refine ⟨_, _, hparts₁.append hparts, (hyields hparts hrest).symm, ?_⟩
          rw [hrest₁, hrest, List.append_assoc]

/-! ## Completeness -/

theorem readPiece_byte {b : UInt8} (h : Part text (.byte b)) (offset : Nat) (rest : Bytes) :
    ∃ offset', readPiece ⟨offset, text ++ rest⟩ = .ok (some [b], ⟨offset', rest⟩) := by
  cases h with
  | plain hlow hquote hbackslash =>
      refine ⟨offset + 1, ?_⟩
      simp only [readPiece, List.cons_append, hquote, UInt8.not_lt.mpr hlow, hbackslash, if_false]
      rfl
  | @short letter _ hshort =>
      have hletter := shortEscape?_eq_some.mpr hshort
      have hne : letter ≠ 'u'.toUInt8 := by
        rintro rfl
        cases hletter
      refine ⟨offset + 1 + 1, ?_⟩
      simp only [readPiece, List.cons_append, List.nil_append, hne, hletter, if_false]
      rfl

theorem readPiece_unicode {offset : Nat} {bytes : Bytes}
    (h : readUnicode ⟨offset + 1 + 1, text⟩ = .ok (bytes, behind)) :
    readPiece ⟨offset, Ascii.backslash :: 'u'.toUInt8 :: text⟩ = .ok (some bytes, behind) := by
  exact bind_eq_ok.mpr ⟨_, h, rfl⟩

/-- A code is a piece, unless it is the first half of a surrogate pair and another one follows. -/
theorem readPiece_code {code : Nat} (h : Part text (.code code)) (offset : Nat) (rest : Bytes)
    (halone : ¬ (isHighSurrogate code = true ∧ CodeAhead rest)) :
    ∃ offset', readPiece ⟨offset, text ++ rest⟩ =
      .ok (some (encodeCode code), ⟨offset', rest⟩) := by
  cases h with
  | @unicode digits _ hdigits =>
      obtain ⟨offset', hcode⟩ := readCode_recognizes.complete
        (c := ⟨offset + 1 + 1, digits ++ rest⟩) hdigits rfl stops_none
      exact ⟨offset', readPiece_unicode (readUnicode_single hcode halone)⟩

theorem readPiece_pair {text' : Bytes} {high low : Nat} (h : Part text (.code high))
    (h' : Part text' (.code low)) (offset : Nat) (rest : Bytes)
    (hhigh : isHighSurrogate high = true) :
    ∃ offset', readPiece ⟨offset, text ++ (text' ++ rest)⟩ =
      .ok (some (pairBytes high low), ⟨offset', rest⟩) := by
  cases h with
  | @unicode digits _ hdigits =>
      cases h' with
      | @unicode digits' _ hdigits' =>
          obtain ⟨o₁, hcode⟩ := readCode_recognizes.complete
            (c := ⟨offset + 1 + 1, digits ++ (Ascii.backslash :: 'u'.toUInt8 :: (digits' ++ rest))⟩)
            hdigits rfl stops_none
          have hahead : CodeAhead (Ascii.backslash :: 'u'.toUInt8 :: (digits' ++ rest)) := by
            have hlength := hdigits'.length
            refine ⟨?_, _, rfl⟩
            simp only [List.length_append, List.length_cons]
            omega
          obtain ⟨o₂, hlow⟩ := readCode_recognizes.complete
            (c := ⟨o₁ + 2, digits' ++ rest⟩) hdigits' rfl stops_none
          refine ⟨o₂, readPiece_unicode ((readUnicode_pair hcode hhigh hahead).trans ?_)⟩
          rw [show Cursor.skip ⟨o₁, _⟩ 2 = ⟨o₁ + 2, digits' ++ rest⟩ from rfl, hlow]
          rfl

theorem readPieces_cons {n : Nat} {bytes more : Bytes} {c₁ : Cursor}
    (h : readPiece c = .ok (some bytes, c₁)) (hmore : readPieces n c₁ = .ok (more, behind)) :
    readPieces (n + 1) c = .ok (bytes ++ more, behind) := by
  rw [readPieces]
  refine bind_eq_ok.mpr ⟨_, h, ?_⟩
  exact bind_eq_ok.mpr ⟨_, hmore, rfl⟩

theorem not_codeAhead {glyphs : List Glyph} (h : Parts text glyphs)
    (hglyphs : ∀ low more, glyphs ≠ .code low :: more) (rest : Bytes) :
    ¬ CodeAhead (text ++ Ascii.quote :: rest) := by
  rintro ⟨-, more, hahead⟩
  cases h with
  | nil => cases hahead
  | @cons part _ glyph _ hpart _ =>
      cases hpart with
      | plain _ _ hbackslash => exact hbackslash (List.cons.inj hahead).1
      | short hshort =>
          have hletter := shortEscape?_eq_some.mpr hshort
          obtain ⟨-, htail⟩ := List.cons.inj hahead
          obtain ⟨rfl, -⟩ := List.cons.inj htail
          cases hletter
      | unicode => exact hglyphs _ _ rfl

/-- A string is read to its end: by the cases in which its parts are taken one by one or in
pairs. -/
theorem readPieces_complete {glyphs : List Glyph} (h : Parts text glyphs) (n : Nat)
    (hn : glyphs.length ≤ n) (offset : Nat) (rest : Bytes) :
    ∃ offset', readPieces (n + 1) ⟨offset, text ++ Ascii.quote :: rest⟩ =
      .ok (bytesOf glyphs, ⟨offset', rest⟩) := by
  induction glyphs using bytesOf.induct generalizing text offset n with
  | case1 =>
      cases h
      exact ⟨offset + 1, rfl⟩
  | case2 b glyphs ih =>
      cases h with
      | @cons part more _ _ hpart hmore =>
          obtain ⟨n, rfl⟩ := Nat.exists_eq_add_one_of_ne_zero (Nat.ne_zero_of_lt hn)
          obtain ⟨o₁, hpiece⟩ := readPiece_byte hpart offset (more ++ Ascii.quote :: rest)
          obtain ⟨o₂, hpieces⟩ := ih hmore n (Nat.le_of_succ_le_succ hn) o₁
          rw [List.append_assoc]
          exact ⟨o₂, readPieces_cons hpiece hpieces⟩
  | case3 high low glyphs hhigh ih =>
      cases h with
      | @cons part _ _ _ hpart hrest =>
          cases hrest with
          | @cons part' more _ _ hpart' hmore =>
              obtain ⟨n, rfl⟩ := Nat.exists_eq_add_one_of_ne_zero (Nat.ne_zero_of_lt hn)
              obtain ⟨o₁, hpiece⟩ :=
                readPiece_pair hpart hpart' offset (more ++ Ascii.quote :: rest) hhigh
              obtain ⟨o₂, hpieces⟩ := ih hmore n (Nat.le_of_succ_le (Nat.le_of_succ_le_succ hn)) o₁
              rw [List.append_assoc, List.append_assoc, bytesOf, if_pos hhigh]
              exact ⟨o₂, readPieces_cons hpiece hpieces⟩
  | case4 high low glyphs hhigh ih =>
      cases h with
      | @cons part more _ _ hpart hmore =>
          obtain ⟨n, rfl⟩ := Nat.exists_eq_add_one_of_ne_zero (Nat.ne_zero_of_lt hn)
          obtain ⟨o₁, hpiece⟩ := readPiece_code hpart offset (more ++ Ascii.quote :: rest)
            fun htakes => hhigh htakes.1
          obtain ⟨o₂, hpieces⟩ := ih hmore n (Nat.le_of_succ_le_succ hn) o₁
          rw [List.append_assoc, bytesOf, if_neg hhigh]
          exact ⟨o₂, readPieces_cons hpiece hpieces⟩
  | case5 code glyphs hne ih =>
      cases h with
      | @cons part more _ _ hpart hmore =>
          obtain ⟨n, rfl⟩ := Nat.exists_eq_add_one_of_ne_zero (Nat.ne_zero_of_lt hn)
          obtain ⟨o₁, hpiece⟩ := readPiece_code hpart offset (more ++ Ascii.quote :: rest)
            fun htakes => not_codeAhead hmore hne rest htakes.2
          obtain ⟨o₂, hpieces⟩ := ih hmore n (Nat.le_of_succ_le_succ hn) o₁
          rw [List.append_assoc, bytesOf_code fun {low more} hcons => absurd hcons (hne low more)]
          exact ⟨o₂, readPieces_cons hpiece hpieces⟩

theorem Grammar.Parts.length_le {glyphs : List Glyph} (h : Parts text glyphs) :
    glyphs.length ≤ text.length := by
  induction h with
  | nil => exact Nat.le_refl 0
  | @cons part rest glyph glyphs hpart _ ih =>
      have hpos : 0 < part.length := by
        cases hpart <;> exact Nat.succ_pos _
      rw [List.length_cons, List.length_append]
      omega

theorem readText_recognizes : Recognizes (fun _ => false) readText (Led Text) where
  sound := by
    intro c behind bytes h
    obtain ⟨gap, hgap, hskip⟩ := Cursor.skipGap_rest c
    simp only [readText] at h
    split at h
    · cases h
    · next c₁ hquote =>
        obtain ⟨inner, glyphs, hparts, rfl, hrest⟩ := readPieces_sound h
        refine ⟨_, ⟨gap, _, hgap, .quoted hparts, rfl⟩, ?_⟩
        rw [hskip, Cursor.accept_eq_some hquote, hrest]
        simp
  complete := by
    intro c text rest bytes h hrest _
    obtain ⟨gap, part, hgap, hpart, rfl⟩ := h
    obtain @⟨inner, glyphs, hparts⟩ := hpart
    have hquote : c.rest = gap ++ Ascii.quote :: (inner ++ Ascii.quote :: rest) := by
      rw [hrest]
      simp
    obtain ⟨o, hskip⟩ := Cursor.skipGap_of_append hquote hgap (stops_cons_iff.mpr rfl)
    have hlength := hparts.length_le
    obtain ⟨offset, hpieces⟩ := readPieces_complete hparts (inner ++ Ascii.quote :: rest).length
      (by rw [List.length_append]; omega) (o + 1) rest
    refine ⟨offset, ?_⟩
    simp only [readText, hskip, Cursor.accept_cons]
    exact hpieces

end

end Json

end BearerAuth
