import BearerAuth.Proofs.Form

/-!
# Encoded text

Encoded names and values are made of bytes that stand for themselves, of plus
signs, and of percent signs that have two hexadecimal digits in upper case
behind them (`Encoded`, `encoded_encode`).  Every byte string is read back from
its encoded text, and every list of fields from the encoded list, the one
without fields apart: the empty text has one piece, and not none
(`encoded_is_read_back`).
-/

namespace BearerAuth

namespace Form

/-! ## What encoded text looks like -/

/-- The bytes that stand for themselves, in their order. -/
def unreserved : Bytes :=
  utf8 "-.0123456789ABCDEFGHIJKLMNOPQRSTUVWXYZ_abcdefghijklmnopqrstuvwxyz~"

/-- The digits of what is written behind a percent sign. -/
def upperHexDigits : Bytes := utf8 "0123456789ABCDEF"

inductive Encoded : Bytes → Prop
  | nil : Encoded []
  | plain {b : UInt8} {rest : Bytes} : b ∈ unreserved → Encoded rest → Encoded (b :: rest)
  | space {rest : Bytes} : Encoded rest → Encoded (Ascii.plus :: rest)
  | escape {high low : UInt8} {rest : Bytes} : high ∈ upperHexDigits → low ∈ upperHexDigits →
      Encoded rest → Encoded (Ascii.percent :: high :: low :: rest)

theorem filter_isPlain : ((List.range 256).map Nat.toUInt8).filter isPlain = unreserved := by
  decide +kernel

theorem isPlain_iff (b : UInt8) : isPlain b = true ↔ b ∈ unreserved := by
  have hbyte : b ∈ (List.range 256).map Nat.toUInt8 :=
    List.mem_map.mpr ⟨b.toNat, List.mem_range.mpr b.toNat_lt, UInt8.ofNat_toNat⟩
  rw [← filter_isPlain, List.mem_filter]
  exact (and_iff_right hbyte).symm

theorem hexDigit_mem : ∀ n < 16, hexDigit n ∈ upperHexDigits := by
  decide

theorem Encoded.byte (b : UInt8) {rest : Bytes} (h : Encoded rest) :
    Encoded (encodeByte b ++ rest) := by
  rw [encodeByte]
  split
  · next hplain => exact .plain ((isPlain_iff b).mp hplain) h
  · split
    · exact .space h
    · have hlt := b.toNat_lt
      exact .escape (hexDigit_mem _ (by omega)) (hexDigit_mem _ (by omega)) h

theorem encoded_encode (s : Bytes) : Encoded (encode s) := by
  induction s with
  | nil => exact .nil
  | cons b rest ih => exact ih.byte b

/-! ## Reading it back -/

/-- The field that a text stands for, if it has an equals sign: the first one is between the name
and the value. -/
def field? (piece : Bytes) : Option (Bytes × Bytes) :=
  (Bytes.cut Ascii.equals piece).map fun parts => (decode parts.1, decode parts.2)

/-- The fields that a text stands for, if all its pieces stand for one. -/
def fields? (text : Bytes) : Option Fields := (Bytes.split Ascii.ampersand text).mapM field?

theorem field?_encodeField (field : Bytes × Bytes) : field? (encodeField field) = some field := by
  have hname : Ascii.equals ∉ encode field.1 := separator_not_mem_encode (.inr rfl) field.1
  rw [field?, encodeField, Bytes.cut_append _ hname, Option.map_some, decode_encode, decode_encode]

theorem mapM_field? (fields : Fields) : (fields.map encodeField).mapM field? = some fields := by
  induction fields with
  | nil => rfl
  | cons field fields ih =>
      rw [List.map_cons, List.mapM_cons, field?_encodeField, ih]
      rfl

theorem fields?_encodeFields {fields : Fields} (h : fields ≠ []) :
    fields? (encodeFields fields) = some fields := by
  rw [fields?, split_encodeFields h, mapM_field?]

/-- **Encoded text is read back**: a byte string from its encoded text, and a list with fields by
splitting the encoded list at every `&` and each piece at its first `=`.  So no two lists with
fields are encoded alike. -/
theorem encoded_is_read_back :
    (∀ s : Bytes, decode (encode s) = s ∧ Encoded (encode s)) ∧
    ∀ fields : Fields, fields ≠ [] →
      fields? (encodeFields fields) = some fields ∧
      ∀ other : Fields, other ≠ [] → encodeFields other = encodeFields fields →
        other = fields := by
  refine ⟨fun s => ⟨decode_encode s, encoded_encode s⟩, ?_⟩
  intro fields hne
  have hread := fields?_encodeFields hne
  refine ⟨hread, ?_⟩
  intro other hother heq
  rw [← heq, fields?_encodeFields hother] at hread
  exact Option.some.inj hread

/-- Fields that are empty, or have separators, escapes and bytes beyond ASCII in them. -/
def awkwardFields : Fields :=
  [([], []), (utf8 "a=b&c", utf8 "+ %41"), ([], []), ([0], [255])]

theorem awkward_fields_read_back :
    awkwardFields ≠ [] ∧ encodeFields awkwardFields = utf8 "=&a%3Db%26c=%2B+%2541&=&%00=%FF" ∧
      fields? (utf8 "=&a%3Db%26c=%2B+%2541&=&%00=%FF") = some awkwardFields := by
  have hne : awkwardFields ≠ [] := List.cons_ne_nil _ _
  have htext : encodeFields awkwardFields = utf8 "=&a%3Db%26c=%2B+%2541&=&%00=%FF" := by decide
  obtain ⟨-, hfields⟩ := encoded_is_read_back
  refine ⟨hne, htext, ?_⟩
  rw [← htext]
  exact (hfields awkwardFields hne).1

end Form

end BearerAuth
