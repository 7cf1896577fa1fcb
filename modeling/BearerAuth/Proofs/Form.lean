import BearerAuth.Form
import BearerAuth.Proofs.Bytes

/-!
# Form fields are read back

What stands for a byte is read back as that byte, whatever comes after it
(`decode_encodeByte`), and no encoded name or value has one of the bytes that separate fields
and values (`separator_not_mem_encode`).  So a list of fields is found again by splitting the
text at every `&` and each piece at its first `=`, and by decoding both parts
(`fields_read_back`), and looking a name up in the text is looking it up in the list
(`lookup_eq`, `decodeFields_encodeFields`).
-/

namespace BearerAuth

namespace Form

/-! ## One byte -/

theorem hexDigit?_hexDigit {n : Nat} (h : n < 16) : Bytes.hexDigit? (hexDigit n) = some n := by
  revert n
  decide

theorem decode_cons {b : UInt8} (h : b ≠ Ascii.percent) (rest : Bytes) :
    decode (b :: rest) = (if b = Ascii.plus then Ascii.space else b) :: decode rest := by
  match rest with
  | [] => simp [decode]
  | [d] => simp [decode]
  | d :: e :: rest => simp [decode, h]

theorem decode_encodeByte (b : UInt8) (rest : Bytes) :
    decode (encodeByte b ++ rest) = b :: decode rest := by
  rw [encodeByte]
  split
  · next hplain =>
      have hpercent : b ≠ Ascii.percent := by
        rintro rfl
        exact absurd hplain (by decide)
      have hplus : b ≠ Ascii.plus := by
        rintro rfl
        exact absurd hplain (by decide)
      rw [List.singleton_append, decode_cons hpercent, if_neg hplus]
  · split
    · next hspace =>
        rw [List.singleton_append, decode_cons (by decide), if_pos rfl, hspace]
    · have hlt := b.toNat_lt
      have hhigh : b.toNat / 16 < 16 := by omega
      have hlow : b.toNat % 16 < 16 := by omega
      have hsum : 16 * (b.toNat / 16) + b.toNat % 16 = b.toNat := by omega
      simp only [List.cons_append, List.nil_append, decode, if_true, hexDigit?_hexDigit hhigh,
        hexDigit?_hexDigit hlow, hsum]
      simp

theorem isPlain_hexDigit {n : Nat} (h : n < 16) : isPlain (hexDigit n) = true := by
  revert n
  decide

/-- What stands for a byte is made of bytes that stand for themselves, plus signs and percent
signs. -/
theorem mem_encodeByte {b c : UInt8} (h : c ∈ encodeByte b) :
    isPlain c = true ∨ c ∈ [Ascii.plus, Ascii.percent] := by
  rw [encodeByte] at h
  split at h
  · next hplain =>
      obtain rfl := List.mem_singleton.mp h
      exact .inl hplain
  · split at h
    · obtain rfl := List.mem_singleton.mp h
      exact .inr (by decide)
    · have hlt := b.toNat_lt
      simp only [List.mem_cons, List.not_mem_nil, or_false] at h
      rcases h with rfl | rfl | rfl
      · exact .inr (by decide)
      · exact .inl (isPlain_hexDigit (by omega))
      · exact .inl (isPlain_hexDigit (by omega))

/-- The bytes that separate fields, and names from values. -/
def IsSeparator (b : UInt8) : Prop := b = Ascii.ampersand ∨ b = Ascii.equals

/-! ## Names and values -/

theorem decode_encode (s : Bytes) : decode (encode s) = s := by
  induction s with
  | nil => rfl
  | cons b rest ih =>
      change decode (encodeByte b ++ encode rest) = b :: rest
      rw [decode_encodeByte, ih]

theorem mem_encode {c : UInt8} {s : Bytes} (h : c ∈ encode s) :
    isPlain c = true ∨ c ∈ [Ascii.plus, Ascii.percent] := by
  obtain ⟨b, -, hb⟩ := List.mem_flatMap.mp h
  exact mem_encodeByte hb

/-- Separators never stand for themselves. -/
theorem separator_not_mem_encode {c : UInt8} (hc : IsSeparator c) (s : Bytes) : c ∉ encode s := by
  intro hmem
  rcases hc with rfl | rfl
  · exact absurd (mem_encode hmem) (by decide)
  · exact absurd (mem_encode hmem) (by decide)

/-! ## Fields -/

theorem decodeField_encodeField (field : Bytes × Bytes) :
    decodeField (encodeField field) = field := by
  have hname : Ascii.equals ∉ encode field.1 := separator_not_mem_encode (.inr rfl) field.1
  rw [decodeField, encodeField, Bytes.cut_append _ hname]
  simp only [decode_encode]

theorem ampersand_not_mem_encodeField (field : Bytes × Bytes) :
    Ascii.ampersand ∉ encodeField field := by
  rw [encodeField, List.mem_append, List.mem_cons]
  rintro (hmem | heq | hmem)
  · exact separator_not_mem_encode (.inl rfl) field.1 hmem
  · cases heq
  · exact separator_not_mem_encode (.inl rfl) field.2 hmem

theorem encodeField_ne_nil (field : Bytes × Bytes) : encodeField field ≠ [] := by
  simp [encodeField]

theorem split_encodeFields {fields : Fields} (h : fields ≠ []) :
    Bytes.split Ascii.ampersand (encodeFields fields) = fields.map encodeField := by
  refine Bytes.split_join (by simpa using h) ?_
  intro piece hpiece
  obtain ⟨field, -, rfl⟩ := List.mem_map.mp hpiece
  exact ampersand_not_mem_encodeField field

theorem map_decodeField_encodeField (fields : Fields) :
    (fields.map encodeField).map decodeField = fields := by
  rw [List.map_map]
  exact (List.map_congr_left fun field _ => decodeField_encodeField field).trans (List.map_id _)

/-- A list of fields is read back, whatever names and values it has. -/
theorem fields_read_back {fields : Fields} (h : fields ≠ []) :
    (Bytes.split Ascii.ampersand (encodeFields fields)).map decodeField = fields := by
  rw [split_encodeFields h, map_decodeField_encodeField]

/-- A list of encoded fields is made of what stands for their bytes, and of separators. -/
theorem mem_encodeFields {c : UInt8} {fields : Fields} (h : c ∈ encodeFields fields) :
    isPlain c = true ∨ c ∈ [Ascii.plus, Ascii.percent, Ascii.ampersand, Ascii.equals] := by
  have hencoded {s : Bytes} (hmem : c ∈ encode s) :
      isPlain c = true ∨ c ∈ [Ascii.plus, Ascii.percent, Ascii.ampersand, Ascii.equals] := by
    rcases mem_encode hmem with hplain | hsign
    · exact .inl hplain
    · exact .inr (List.mem_append_left [Ascii.ampersand, Ascii.equals] hsign)
  rcases Bytes.mem_of_mem_join h with rfl | ⟨piece, hpiece, hmem⟩
  · exact .inr (by decide)
  · obtain ⟨field, -, rfl⟩ := List.mem_map.mp hpiece
    rw [encodeField, List.mem_append, List.mem_cons] at hmem
    rcases hmem with hname | rfl | hvalue
    · exact hencoded hname
    · exact .inr (by decide)
    · exact hencoded hvalue

/-- An empty field is not lost: even that one is written with an equals sign. -/
theorem decodeFields_encodeFields (fields : Fields) :
    decodeFields (encodeFields fields) = fields := by
  cases fields with
  | nil => rfl
  | cons field fields =>
      have hkept : ∀ piece ∈ (field :: fields).map encodeField, (!piece.isEmpty) = true := by
        intro piece hpiece
        obtain ⟨other, -, rfl⟩ := List.mem_map.mp hpiece
        simp [encodeField_ne_nil]
      rw [decodeFields, split_encodeFields (List.cons_ne_nil field fields),
        List.filter_eq_self.mpr hkept, map_decodeField_encodeField]

/-! ## Looking a field up -/

theorem lookup_eq (text name : Bytes) : lookup text name = (decodeFields text).lookup name := by
  rw [lookup]
  induction decodeFields text with
  | nil => rfl
  | cons field fields ih =>
      by_cases heq : field.1 = name
      · rw [List.find?_cons_of_pos (by simpa using heq), ← heq]
        exact List.lookup_cons_self.symm
      · rw [List.find?_cons_of_neg (by simpa using heq), ih, List.lookup_cons,
          beq_false_of_ne (Ne.symm heq)]

end Form

end BearerAuth
