import BearerAuth.Json.Writer
import BearerAuth.Proofs.Bytes
import BearerAuth.Proofs.Json.Recognition
import BearerAuth.Proofs.Json.Same

/-!
# What is written is read back

The text of a value is one of the grammar, with no white space in it and with that very value
(`Writable.grammar`), so the reader gives the value back.  That holds of the values that a reader
can give at all, floating-point numbers apart: integers that fit a register, distinct keys, and
no more values in one another than a text may nest (`Writable`).  Being one of them does not
depend on the order of members (`Writable.same`), so the order in which they are written makes no
difference either, and what was read once is written and read again without loss
(`written_is_read_back`).
-/

namespace BearerAuth

namespace Json

open Grammar

/-! ## Strings -/

theorem hexDigit?_hexDigit {n : Nat} (h : n < 16) : Bytes.hexDigit? (hexDigit n) = some n := by
  revert n
  decide

/-- What an escaped byte is in the grammar: a code when the byte is a control character that has
no letter of its own. -/
def glyph (b : UInt8) : Glyph :=
  if 32 ≤ b ∨ b ∈ shortEscapes.map Prod.snd then .byte b else .code b.toNat

theorem code_control {b : UInt8} (h : b < 32) :
    Code [48, 48, hexDigit (b.toNat / 16), hexDigit (b.toNat % 16)] b.toNat := by
  have hlt : b.toNat < 32 := UInt8.lt_iff_toNat_lt.mp h
  have hzero : Bytes.hexDigit? 48 = some 0 := rfl
  have hcode := Code.digits hzero hzero
    (hexDigit?_hexDigit (show b.toNat / 16 < 16 by omega))
    (hexDigit?_hexDigit (show b.toNat % 16 < 16 by omega))
  rwa [show 16 * (16 * (16 * 0 + 0) + b.toNat / 16) + b.toNat % 16 = b.toNat by omega] at hcode

theorem part_escape (b : UInt8) : Part (escape b) (glyph b) := by
  have hshort (letter : UInt8) {b : UInt8} (h : (letter, b) ∈ shortEscapes) :
      Part [Ascii.backslash, letter] (glyph b) := by
    rw [glyph, if_pos (.inr (List.mem_map.mpr ⟨_, h, rfl⟩))]
    exact .short h
  by_cases hmem : b ∈ shortEscapes.map Prod.snd
  · simp only [shortEscapes, List.map_cons, List.map_nil, List.mem_cons, List.not_mem_nil,
      or_false] at hmem
    rcases hmem with rfl | rfl | rfl | rfl | rfl | rfl | rfl | rfl
    · exact hshort Ascii.quote (by decide)
    · exact hshort Ascii.backslash (by decide)
    -- a slash has a short escape, but the writer leaves it as it is
    · exact .plain (by decide) (by decide) (by decide)
    · exact hshort 'b'.toUInt8 (by decide)
    · exact hshort 'f'.toUInt8 (by decide)
    · exact hshort 'n'.toUInt8 (by decide)
    · exact hshort 'r'.toUInt8 (by decide)
    · exact hshort 't'.toUInt8 (by decide)
  · have hne (special : UInt8) (h : special ∈ shortEscapes.map Prod.snd) : b ≠ special :=
      fun heq => hmem (heq ▸ h)
    have hquote := hne Ascii.quote (by decide)
    have hbackslash := hne Ascii.backslash (by decide)
    rw [escape, if_neg hquote, if_neg hbackslash, if_neg (hne 8 (by decide)),
      if_neg (hne 12 (by decide)), if_neg (hne Ascii.lineFeed (by decide)),
      if_neg (hne Ascii.carriageReturn (by decide)), if_neg (hne Ascii.tab (by decide)), glyph]
    by_cases hlow : b < 32
    · rw [if_pos hlow, if_neg (by simp [hmem, UInt8.not_le.mpr hlow])]
      exact .unicode (code_control hlow)
    · rw [if_neg hlow, if_pos (.inl (UInt8.not_lt.mp hlow))]
      exact .plain (UInt8.not_lt.mp hlow) hquote hbackslash

theorem bytesOf_glyph (b : UInt8) (glyphs : List Glyph) :
    bytesOf (glyph b :: glyphs) = b :: bytesOf glyphs := by
  rw [glyph]
  split
  · rfl
  · next h =>
      have hlt : b.toNat < 32 := UInt8.lt_iff_toNat_lt.mp (UInt8.not_le.mp fun hle => h (.inl hle))
      have hsingle : encodeCode b.toNat = [b] := by
        rw [encodeCode, if_pos (by omega)]
        simp
      -- a control character is no half of a pair, so it is read alone
      have halone : isHighSurrogate b.toNat = false := by
        rw [isHighSurrogate, Bool.and_eq_false_iff]
        exact .inl (decide_eq_false (by omega))
      rw [bytesOf_code fun _ => halone, hsingle]
      rfl

theorem parts_escape (s : Bytes) : Parts (s.flatMap escape) (s.map glyph) := by
  induction s with
  | nil => exact .nil
  | cons b rest ih =>
      rw [List.flatMap_cons, List.map_cons]
      exact .cons (part_escape b) ih

theorem bytesOf_map_glyph (s : Bytes) : bytesOf (s.map glyph) = s := by
  induction s with
  | nil => rfl
  | cons b rest ih => rw [List.map_cons, bytesOf_glyph, ih]

theorem text_quoted (s : Bytes) : Grammar.Text (quoted s) s := by
  have htext := Grammar.Text.quoted (parts_escape s)
  rwa [bytesOf_map_glyph] at htext

/-! ## Integers -/

theorem digits_ofNat (n : Nat) : Digits (Bytes.ofNat n) :=
  ⟨Bytes.ofNat_ne_nil n, fun _ hb => Bytes.isDigit_of_mem_ofNat hb⟩

theorem number_ofInt {n : Int} (h : Clock.fits n = true) : Number (Bytes.ofInt n) (.int n) := by
  have hnumber {sign : Bytes} {negative : Bool} (hsign : Sign sign negative) {m : Nat}
      (hn : signed negative (Bytes.ofNat m) = n) : Number (sign ++ Bytes.ofNat m) (.int n) := by
    have htext := NumeralText.parts hsign (digits_ofNat m) .absent .absent
    rw [List.append_nil, List.append_nil] at htext
    subst hn
    exact .integer htext ⟨rfl, rfl, fits_iff.mp h⟩
  cases n with
  | ofNat m =>
      refine hnumber .absent (m := m) ?_
      rw [signed, Bytes.digitsValue_ofNat]
      rfl
  | negSucc m =>
      refine hnumber .minus (m := m + 1) ?_
      rw [signed, Bytes.digitsValue_ofNat]
      rfl

/-! ## Arrays and objects -/

section

variable {V : Bytes → Json → Prop}

theorem gap_nil : Gap [] := nofun

theorem items_write {items : List Json} (hne : items ≠ [])
    (h : ∀ item ∈ items, V item.write item) : Items V (writeItems items) items := by
  induction items with
  | nil => exact absurd rfl hne
  | cons item rest ih =>
      have hitem := h item List.mem_cons_self
      cases rest with
      | nil =>
          have hitems := Items.one gap_nil hitem gap_nil
          rwa [List.nil_append, List.append_nil] at hitems
      | cons next rest =>
          have hrest := ih (List.cons_ne_nil _ _) fun other hother =>
            h other (List.mem_cons_of_mem _ hother)
          exact .more gap_nil hitem gap_nil hrest

theorem entry_write (key : Bytes) {value : Json} (h : V value.write value) :
    Entry V (quoted key ++ Ascii.colon :: value.write) (key, value) :=
  .pair gap_nil (text_quoted key) gap_nil gap_nil h

theorem entries_write {members : Members} (hne : members ≠ [])
    (h : ∀ member ∈ members, V member.2.write member.2) :
    Entries V (writeMembers members) members := by
  induction members with
  | nil => exact absurd rfl hne
  | cons member rest ih =>
      obtain ⟨key, value⟩ := member
      have hentry := entry_write key (h (key, value) List.mem_cons_self)
      cases rest with
      | nil =>
          have hentries := Entries.one hentry gap_nil
          rwa [List.append_nil] at hentries
      | cons next rest =>
          have hrest := ih (List.cons_ne_nil _ _) fun other hother =>
            h other (List.mem_cons_of_mem _ hother)
          have hentries := Entries.more hentry gap_nil hrest
          rwa [List.append_assoc] at hentries

theorem put_of_not_mem {members : Members} {key : Bytes} (h : key ∉ members.keys) (value : Json) :
    members.put key value = members ++ [(key, value)] := by
  induction members with
  | nil => rfl
  | cons member rest ih =>
      obtain ⟨k, v⟩ := member
      obtain ⟨hk, hrest⟩ : key ≠ k ∧ key ∉ Members.keys rest := by
        simpa [Members.keys] using h
      rw [Members.put, if_neg (Ne.symm hk), ih hrest]
      rfl

theorem putAll_of_nodup {before entries : Members} (h : (before ++ entries).keys.Nodup) :
    putAll before entries = before ++ entries := by
  induction entries generalizing before with
  | nil => rw [List.append_nil]; rfl
  | cons entry rest ih =>
      obtain ⟨key, value⟩ := entry
      have hkey : key ∉ before.keys := by
        intro hmem
        rw [Members.keys, List.map_append, List.nodup_append] at h
        exact h.2.2 key hmem key List.mem_cons_self rfl
      have happend : before ++ (key, value) :: rest = (before ++ [(key, value)]) ++ rest := by
        rw [List.append_assoc]
        rfl
      rw [happend] at h ⊢
      rw [← ih h, ← put_of_not_mem hkey]
      rfl

theorem gathers_self {members : Members} (h : members.keys.Nodup) : Gathers members members := by
  have hgathers := (gathers_putAll members).1
  have hself : ([] ++ members : Members).keys.Nodup := h
  rwa [putAll_of_nodup hself] at hgathers

theorem mem_putAll {before entries : Members} {member : Bytes × Json}
    (h : member ∈ putAll before entries) : member ∈ before ∨ member ∈ entries := by
  have hput {members : Members} {key : Bytes} {value : Json}
      (h : member ∈ members.put key value) : member ∈ members ∨ member = (key, value) := by
    induction members with
    | nil => exact .inr (List.mem_singleton.mp h)
    | cons first rest ih =>
        obtain ⟨k, v⟩ := first
        rw [Members.put] at h
        split at h
        · next hk =>
            rcases List.mem_cons.mp h with rfl | h
            · exact .inr (hk ▸ rfl)
            · exact .inl (List.mem_cons_of_mem _ h)
        · rcases List.mem_cons.mp h with rfl | h
          · exact .inl List.mem_cons_self
          · exact (ih h).imp_left (List.mem_cons_of_mem _)
  induction entries generalizing before with
  | nil => exact .inl h
  | cons entry rest ih =>
      rcases ih h with hbefore | hrest
      · rcases hput hbefore with hbefore | rfl
        · exact .inl hbefore
        · exact .inr List.mem_cons_self
      · exact .inr (List.mem_cons_of_mem _ hrest)

theorem Grammar.Items.derived {inner : Bytes} {items : List Json} (h : Items V inner items) :
    ∀ item ∈ items, ∃ text, V text item := by
  induction h with
  | one _ hitem _ =>
      intro item hmem
      obtain rfl := List.mem_singleton.mp hmem
      exact ⟨_, hitem⟩
  | more _ hitem _ _ ih =>
      intro item hmem
      rcases List.mem_cons.mp hmem with rfl | hmem
      · exact ⟨_, hitem⟩
      · exact ih item hmem

theorem Grammar.Entries.derived {inner : Bytes} {entries : List (Bytes × Json)}
    (h : Entries V inner entries) : ∀ entry ∈ entries, ∃ text, V text entry.2 := by
  have hvalue {text : Bytes} {entry : Bytes × Json} (h : Entry V text entry) :
      ∃ text, V text entry.2 := by
    obtain ⟨-, -, -, -, hvalue⟩ := h
    exact ⟨_, hvalue⟩
  induction h with
  | one hentry _ =>
      intro entry hmem
      obtain rfl := List.mem_singleton.mp hmem
      exact hvalue hentry
  | more hentry _ _ ih =>
      intro entry hmem
      rcases List.mem_cons.mp hmem with rfl | hmem
      · exact hvalue hentry
      · exact ih entry hmem

end

/-! ## Values that can be read back -/

/-- No floating-point number is in the value, its integers fit a register, its objects have
distinct keys, and it nests no more than so many values. -/
inductive Writable : Nat → Json → Prop
  | null {depth : Nat} : Writable (depth + 1) .null
  | bool {depth : Nat} (b : Bool) : Writable (depth + 1) (.bool b)
  | int {depth : Nat} {n : Int} : Clock.fits n = true → Writable (depth + 1) (.int n)
  | text {depth : Nat} (s : Bytes) : Writable (depth + 1) (.text s)
  | array {depth : Nat} {items : List Json} :
      (∀ item ∈ items, Writable depth item) → Writable (depth + 1) (.array items)
  | object {depth : Nat} {members : Members} :
      members.keys.Nodup → (∀ member ∈ members, Writable depth member.2) →
      Writable (depth + 1) (.object members)

section

variable {depth : Nat} {v w : Json}

theorem writable_of_depth (hdistinct : v.Distinct)
    (hint : ∀ n, Within (.int n) v → Clock.fits n = true) (hdouble : ∀ x, ¬ Within (.double x) v)
    (hdepth : v.depth ≤ depth) : Writable depth v := by
  induction depth generalizing v with
  | zero => exact absurd hdepth (Nat.not_le.mpr v.depth_pos)
  | succ depth ih =>
      cases v with
      | null => exact .null
      | bool b => exact .bool b
      | int n => exact .int (hint n .self)
      | double x => exact absurd .self (hdouble x)
      | text s => exact .text s
      | array items =>
          refine .array fun item hitem => ih (ItemsDistinct.of_mem hdistinct hitem) ?_ ?_ ?_
          · exact fun n hn => hint n (.item hitem hn)
          · exact fun x hx => hdouble x (.item hitem hx)
          · exact Nat.le_trans (depth_le_depthOfItems hitem) (Nat.le_of_succ_le_succ hdepth)
      | object members =>
          refine .object hdistinct.1 fun member hmember =>
            ih (MembersDistinct.of_mem hdistinct.2 hmember) ?_ ?_ ?_
          · exact fun n hn => hint n (.member hmember hn)
          · exact fun x hx => hdouble x (.member hmember hx)
          · exact Nat.le_trans (depth_le_depthOfMembers hmember) (Nat.le_of_succ_le_succ hdepth)

theorem Writable.same (h : Writable depth v) (hsame : v.Same w) (hw : w.Distinct) :
    Writable depth w := by
  induction h generalizing w with
  | null =>
      cases hsame
      exact .null
  | bool b =>
      cases hsame
      exact .bool b
  | int hn =>
      cases hsame
      exact .int hn
  | text s =>
      cases hsame
      exact .text s
  | @array depth items _ ih =>
      cases hsame with
      | @array _ items' hlength hitems =>
          refine .array fun item hitem => ?_
          obtain ⟨i, hi⟩ := List.mem_iff_getElem?.mp hitem
          obtain ⟨hlt, -⟩ := List.getElem?_eq_some_iff.mp hi
          have hother : items[i]? = some items[i] := List.getElem?_eq_getElem (hlength ▸ hlt)
          exact ih _ (List.mem_of_getElem? hother) (hitems i _ item hother hi)
            (ItemsDistinct.of_mem hw hitem)
  | @object depth members _ _ ih =>
      cases hsame with
      | @object _ members' hkeys hvalues =>
          refine .object hw.1 fun member hmember => ?_
          have hkey : member.1 ∈ members'.keys := List.mem_map.mpr ⟨member, hmember, rfl⟩
          obtain ⟨other, hother⟩ : ∃ other, members.get? member.1 = some other := by
            refine Option.ne_none_iff_exists'.mp fun hnone => ?_
            exact Members.get?_eq_none_iff.mp hnone ((hkeys _).mpr hkey)
          exact ih _ (Members.mem_of_get? hother)
            (hvalues _ _ _ hother (Members.get?_of_mem hw.1 hmember))
            (MembersDistinct.of_mem hw.2 hmember)

theorem Writable.grammar (h : Writable depth v) : Value depth v.write v := by
  induction h with
  | null => exact .null
  | bool b =>
      cases b with
      | false => exact .false
      | true => exact .true
  | int hn => exact .number (number_ofInt hn)
  | text s => exact .text (text_quoted s)
  | @array depth items _ ih =>
      cases items with
      | nil => exact .emptyArray gap_nil
      | cons item rest => exact .array (items_write (List.cons_ne_nil _ _) ih)
  | @object depth members hkeys _ ih =>
      cases members with
      | nil => exact .emptyObject gap_nil
      | cons member rest =>
          exact .object (entries_write (List.cons_ne_nil _ _) ih) (gathers_self hkeys)

/-- What a text stands for can be written, floating-point numbers apart. -/
theorem writable_of_grammar {text : Bytes} (h : Value depth text v)
    (hdouble : ∀ x, ¬ Within (.double x) v) : Writable depth v := by
  induction depth generalizing text v with
  | zero => exact h.elim
  | succ depth ih =>
      cases h with
      | null => exact .null
      | true => exact .bool true
      | false => exact .bool false
      | number hnumber =>
          cases hnumber with
          | integer _ hinteger => exact .int (fits_iff.mpr hinteger.2.2)
          | double _ _ _ => exact absurd .self (hdouble _)
      | text _ => exact .text _
      | emptyArray _ => exact .array nofun
      | array hitems =>
          refine .array fun item hitem => ?_
          obtain ⟨text, htext⟩ := hitems.derived item hitem
          exact ih htext fun x hx => hdouble x (.item hitem hx)
      | emptyObject _ => exact .object .nil nofun
      | object hentries hgathers =>
          obtain rfl := hgathers.eq_putAll
          refine .object (gathers_putAll _).2 fun member hmember => ?_
          obtain ⟨text, htext⟩ := hentries.derived member ((mem_putAll hmember).resolve_left nofun)
          exact ih htext fun x hx => hdouble x (.member hmember hx)

/-! ## Reading back -/

theorem parse_of_value {text : Bytes} (h : Value maxDepth text v) : parse text = .ok v := by
  obtain ⟨offset, hread⟩ := (readValue_recognizes maxDepth).complete (c := ⟨0, text⟩)
    ⟨[], text, gap_nil, h, rfl⟩ (List.append_nil text).symm .nil
  rw [parse]
  exact bind_eq_ok.mpr ⟨_, hread, rfl⟩

theorem value_of_parse {text : Bytes} (h : parse text = .ok v) :
    ∃ part, Value maxDepth part v := by
  cases document_of_parse h with
  | value _ hpart _ => exact ⟨_, hpart⟩

/-- **What is written is read back**, in whatever order the members of objects are written.  Take
a value without floating-point numbers, and the same value with its members in any order.  If the
integers in it fit a register, its keys are distinct and no more than 64 values are nested, the
text is parsed, and it is the value that was written.  All of this holds of a value that was
itself read from a text. -/
theorem written_is_read_back (v w : Json) (hdouble : ∀ x, ¬ Within (.double x) v)
    (hsame : v.Same w) (hkeys : w.Distinct) :
    (v.Distinct → (∀ n, Within (.int n) v → -(2 ^ 63) ≤ n ∧ n < 2 ^ 63) → v.depth ≤ 64 →
      parse w.write = .ok w ∧ w.Same v) ∧
    ∀ text, parse text = .ok v → parse w.write = .ok w ∧ w.Same v := by
  have hread (h : Writable maxDepth v) : parse w.write = .ok w ∧ w.Same v :=
    ⟨parse_of_value (h.same hsame hkeys).grammar, hsame.symm⟩
  constructor
  · intro hdistinct hint hdepth
    exact hread (writable_of_depth hdistinct (fun n hn => fits_iff.mpr (hint n hn)) hdouble hdepth)
  · intro text htext
    obtain ⟨part, hpart⟩ := value_of_parse htext
    exact hread (writable_of_grammar hpart hdouble)

/-- The least integer of a register, and bytes that need escapes or are no UTF-8. -/
def awkward : Members :=
  [(utf8 "n", .int (-(2 ^ 63))), ([0, 255], .text [Ascii.quote, 31, 127])]

/-- Both members are read back when the last is written first, and so is what a text with an
escape for each of its bytes was read as. -/
theorem awkward_members_read_back :
    (parse (write (.object awkward.reverse)) = .ok (.object awkward.reverse) ∧
      Same (.object awkward.reverse) (.object awkward)) ∧
    parse (utf8 "\"\\u001F\\/\"") = .ok (.text [31, 47]) ∧
    parse (write (.text [31, 47])) = .ok (.text [31, 47]) ∧
    Same (.text [31, 47]) (.text [31, 47]) := by
  have hsame : Same (.object awkward) (.object awkward.reverse) := by
    refine .object (by simp [Members.keys]) fun key a b ha hb => ?_
    have hmem : (key, b) ∈ awkward := List.mem_reverse.mp (Members.mem_of_get? hb)
    obtain rfl := Option.some.inj (ha.symm.trans (Members.get?_of_mem (by decide) hmem))
    exact .refl a
  have hparts {part : Json} (h : Within part (.object awkward)) :
      part = .object awkward ∨ part = .int (-(2 ^ 63)) ∨ ∃ s, part = .text s := by
    cases h with
    | self => exact .inl rfl
    | member hmember h =>
        simp only [awkward, List.mem_cons, List.not_mem_nil, or_false] at hmember
        rcases hmember with rfl | rfl
        · cases h
          exact .inr (.inl rfl)
        · cases h
          exact .inr (.inr ⟨_, rfl⟩)
  have hdouble (x : Binary64) (h : Within (.double x) (.object awkward)) : False := by
    rcases hparts h with h | h | ⟨s, h⟩ <;> cases h
  have hint (n : Int) (h : Within (.int n) (.object awkward)) : -(2 ^ 63) ≤ n ∧ n < 2 ^ 63 := by
    rcases hparts h with h | h | ⟨s, h⟩
    · cases h
    · obtain rfl := Json.int.inj h
      decide
    · cases h
  have hescape : parse (utf8 "\"\\u001F\\/\"") = .ok (.text [31, 47]) := by rfl
  have hnone (x : Binary64) (h : Within (.double x) (.text [31, 47])) : False := by cases h
  exact ⟨(written_is_read_back _ _ hdouble hsame ⟨by decide, trivial, trivial, trivial⟩).1
      ⟨by decide, trivial, trivial, trivial⟩ hint (by decide), hescape,
    (written_is_read_back (.text [31, 47]) _ hnone (.refl _) trivial).2 _ hescape⟩

end

end Json

end BearerAuth
