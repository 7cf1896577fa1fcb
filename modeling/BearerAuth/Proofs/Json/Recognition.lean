import BearerAuth.Proofs.Json.Members
import BearerAuth.Proofs.Json.Strings
import Mathlib.Data.List.Induction

/-!
# The reader reads the grammar

A text is parsed to a value just when the grammar derives the value from the text
(`parse_eq_ok_iff`).  The reader of values is recursive in the depth that is left, and so is the
grammar, so the proof is an induction on that depth (`readValue_recognizes`): arrays and objects
are read as their grammar says when the values in them are.

The loops over items and entries are bounded by the length of the text; a list of them is never
longer than that, since there is a comma for each but the last.
-/

namespace BearerAuth

namespace Json

open Grammar

section

variable {V : Bytes → Json → Prop} {read : Reader Json} {text rest : Bytes} {c behind : Cursor}

/-! ## Between tokens -/

theorem isNumeric_of_isGap {b : UInt8} (h : isGap b = true) : isNumeric b = false := by
  simp only [isGap, Bool.or_eq_true, beq_iff_eq] at h
  rcases h with ((rfl | rfl) | rfl) | rfl <;> rfl

theorem stops_gap {gap : Bytes} (hgap : Gap gap) {b : UInt8} (hb : isNumeric b = false)
    (rest : Bytes) : Stops isNumeric (gap ++ b :: rest) := by
  cases gap with
  | nil => exact stops_cons_iff.mpr hb
  | cons g more => exact stops_cons_iff.mpr (isNumeric_of_isGap (hgap g List.mem_cons_self))

theorem skipGap_accept {gap : Bytes} (hgap : Gap gap) {b : UInt8} (hb : isGap b = false)
    (offset : Nat) (rest : Bytes) :
    ∃ o, Cursor.skipGap ⟨offset, gap ++ b :: rest⟩ = ⟨o, b :: rest⟩ :=
  Cursor.skipGap_of_append rfl hgap (stops_cons_iff.mpr hb)

/-- What is read in front of a byte is read up to the white space before the byte. -/
theorem read_before {α : Type} {read : Reader α} {grammar : Bytes → α → Prop} {a : α}
    (hread : Recognizes isNumeric read grammar) (h : grammar text a) {gap : Bytes} (hgap : Gap gap)
    (b : UInt8) (hskipped : isGap b = false) (hb : isNumeric b = false) (offset : Nat)
    (rest : Bytes) :
    ∃ c₁ o, read ⟨offset, text ++ (gap ++ b :: rest)⟩ = .ok (a, c₁) ∧
      c₁.skipGap = ⟨o, b :: rest⟩ := by
  obtain ⟨o₁, hvalue⟩ := hread.complete
    (c := ⟨offset, text ++ (gap ++ b :: rest)⟩) h rfl (stops_gap hgap hb rest)
  obtain ⟨o₂, hskip⟩ := skipGap_accept hgap hskipped o₁ rest
  exact ⟨_, o₂, hvalue, hskip⟩

/-! ## Arrays -/

/-- A value begins with a byte that is neither white space nor the end of an array. -/
def Begins (V : Bytes → Json → Prop) : Prop :=
  ∀ {text value}, V text value →
    ∃ b more, text = b :: more ∧ isGap b = false ∧ b ≠ Ascii.closeBracket

theorem readItems_sound (hread : Recognizes isNumeric read (Led V)) {n : Nat} {items : List Json}
    (h : readItems read n c = .ok (items, behind)) :
    ∃ inner, Items V inner items ∧ c.rest = inner ++ Ascii.closeBracket :: behind.rest := by
  induction n generalizing c items with
  | zero => cases h
  | succ n ih =>
      simp only [readItems, bind_eq_ok, Prod.exists] at h
      obtain ⟨item, c₁, hitem, h⟩ := h
      obtain ⟨_, ⟨gap, part, hgap, hpart, rfl⟩, hrest⟩ := hread.sound hitem
      obtain ⟨gap', hgap', hskip⟩ := Cursor.skipGap_rest c₁
      split at h
      · next c₂ hclose =>
          obtain ⟨rfl, rfl⟩ := Prod.mk.inj (Except.ok.inj h)
          refine ⟨_, .one hgap hpart hgap', ?_⟩
          rw [hrest, hskip, Cursor.accept_eq_some hclose]
          simp
      · split at h
        · cases h
        · next c₂ hcomma =>
            simp only [bind_eq_ok, Prod.exists] at h
            obtain ⟨more, c₃, hmore, heq⟩ := h
            obtain ⟨rfl, rfl⟩ := Prod.mk.inj (Except.ok.inj heq)
            obtain ⟨inner, hinner, hrest'⟩ := ih hmore
            refine ⟨_, .more hgap hpart hgap' hinner, ?_⟩
            rw [hrest, hskip, Cursor.accept_eq_some hcomma, hrest']
            simp

theorem readItems_last {value : Json} {c₁ : Cursor} (hvalue : read c = .ok (value, c₁)) {o : Nat}
    (hskip : c₁.skipGap = ⟨o, Ascii.closeBracket :: rest⟩) (n : Nat) :
    readItems read (n + 1) c = .ok ([value], ⟨o + 1, rest⟩) := by
  rw [readItems]
  refine bind_eq_ok.mpr ⟨_, hvalue, ?_⟩
  simp only [hskip, Cursor.accept_cons]

theorem readItems_more {value : Json} {values : List Json} {c₁ : Cursor}
    (hvalue : read c = .ok (value, c₁)) {o : Nat}
    (hskip : c₁.skipGap = ⟨o, Ascii.comma :: rest⟩) {n : Nat}
    (hvalues : readItems read n ⟨o + 1, rest⟩ = .ok (values, behind)) :
    readItems read (n + 1) c = .ok (value :: values, behind) := by
  have hopen : Cursor.accept ⟨o, Ascii.comma :: rest⟩ Ascii.closeBracket = none := rfl
  rw [readItems]
  refine bind_eq_ok.mpr ⟨_, hvalue, ?_⟩
  simp only [hskip, hopen, Cursor.accept_cons]
  exact bind_eq_ok.mpr ⟨_, hvalues, rfl⟩

theorem readItems_complete (hread : Recognizes isNumeric read (Led V)) {inner : Bytes}
    {items : List Json} (h : Items V inner items) (n : Nat) (hn : items.length ≤ n) (offset : Nat)
    (rest : Bytes) :
    ∃ offset', readItems read n ⟨offset, inner ++ Ascii.closeBracket :: rest⟩ =
      .ok (items, ⟨offset', rest⟩) := by
  induction h generalizing n offset with
  | @one gap part gap' value hgap hpart hgap' =>
      obtain ⟨n, rfl⟩ := Nat.exists_eq_add_one_of_ne_zero (Nat.ne_zero_of_lt hn)
      obtain ⟨c₁, o, hvalue, hskip⟩ := read_before hread ⟨gap, part, hgap, hpart, rfl⟩ hgap'
        Ascii.closeBracket rfl rfl offset rest
      rw [← List.append_assoc gap, List.append_assoc]
      exact ⟨o + 1, readItems_last hvalue hskip n⟩
  | @more gap part gap' inner value values hgap hpart hgap' _ ih =>
      obtain ⟨n, rfl⟩ := Nat.exists_eq_add_one_of_ne_zero (Nat.ne_zero_of_lt hn)
      obtain ⟨c₁, o, hvalue, hskip⟩ := read_before hread ⟨gap, part, hgap, hpart, rfl⟩ hgap'
        Ascii.comma rfl rfl offset (inner ++ Ascii.closeBracket :: rest)
      obtain ⟨offset', hvalues⟩ := ih n (Nat.le_of_succ_le_succ hn) (o + 1)
      rw [← List.append_assoc gap, List.append_assoc (gap ++ part), List.append_assoc gap']
      exact ⟨offset', readItems_more hvalue hskip hvalues⟩

theorem Grammar.Items.length_le {inner : Bytes} {items : List Json} (h : Items V inner items) :
    items.length ≤ inner.length + 1 := by
  induction h with
  | one => exact Nat.succ_le_succ (Nat.zero_le _)
  | more _ _ _ _ ih =>
      simp only [List.length_append, List.length_cons]
      omega

theorem skipGap_items (hbegins : Begins V) {inner : Bytes} {items : List Json}
    (h : Items V inner items) (offset : Nat) (rest : Bytes) :
    (Cursor.skipGap ⟨offset, inner ++ rest⟩).accept Ascii.closeBracket = none := by
  have hfirst {gap part : Bytes} {value : Json} (hgap : Gap gap) (hpart : V part value)
      (rest : Bytes) :
      (Cursor.skipGap ⟨offset, gap ++ (part ++ rest)⟩).accept Ascii.closeBracket = none := by
    obtain ⟨b, more, rfl, hb, hne⟩ := hbegins hpart
    obtain ⟨o, hskip⟩ := skipGap_accept hgap hb offset (more ++ rest)
    rw [List.cons_append, hskip]
    exact Cursor.accept_of_stops (stops_cons_iff.mpr (beq_eq_false_iff_ne.mpr hne))
  cases h with
  | one hgap hpart _ =>
      rw [List.append_assoc, List.append_assoc]
      exact hfirst hgap hpart _
  | more hgap hpart _ _ =>
      rw [List.append_assoc, List.append_assoc]
      exact hfirst hgap hpart _

theorem readArray_sound (hread : Recognizes isNumeric read (Led V)) {value : Json}
    (h : readArray read c = .ok (value, behind)) :
    ∃ text, ValueOf V (Ascii.openBracket :: text) value ∧ c.rest = text ++ behind.rest := by
  rw [readArray] at h
  split at h
  · next c₁ hclose =>
      obtain ⟨rfl, rfl⟩ := Prod.mk.inj (Except.ok.inj h)
      obtain ⟨gap, hgap, hskip⟩ := Cursor.skipGap_rest c
      refine ⟨_, .emptyArray hgap, ?_⟩
      rw [hskip, Cursor.accept_eq_some hclose, List.append_assoc]
      rfl
  · simp only [bind_eq_ok, Prod.exists] at h
    obtain ⟨items, c₁, hitems, heq⟩ := h
    obtain ⟨rfl, rfl⟩ := Prod.mk.inj (Except.ok.inj heq)
    obtain ⟨inner, hinner, hrest⟩ := readItems_sound hread hitems
    refine ⟨_, .array hinner, ?_⟩
    rw [hrest, List.append_assoc]
    rfl

theorem readArray_empty {gap : Bytes} (hgap : Gap gap) (offset : Nat) (rest : Bytes) :
    ∃ offset', readArray read ⟨offset, gap ++ Ascii.closeBracket :: rest⟩ =
      .ok (.array [], ⟨offset', rest⟩) := by
  obtain ⟨o, hskip⟩ := skipGap_accept hgap (b := Ascii.closeBracket) rfl offset rest
  refine ⟨o + 1, ?_⟩
  rw [readArray, hskip, Cursor.accept_cons]

theorem readArray_items (hread : Recognizes isNumeric read (Led V)) (hbegins : Begins V)
    {inner : Bytes} {items : List Json} (h : Items V inner items) (offset : Nat) (rest : Bytes) :
    ∃ offset', readArray read ⟨offset, inner ++ Ascii.closeBracket :: rest⟩ =
      .ok (.array items, ⟨offset', rest⟩) := by
  have hlength := h.length_le
  obtain ⟨offset', hitems⟩ := readItems_complete hread h
    ((inner ++ Ascii.closeBracket :: rest).length + 1)
    (by rw [List.length_append]; omega) offset rest
  refine ⟨offset', ?_⟩
  rw [readArray, skipGap_items hbegins h]
  exact bind_eq_ok.mpr ⟨_, hitems, rfl⟩

/-! ## Objects -/

/-- Entries put into an object one after the other. -/
def putAll (before : Members) (entries : List (Bytes × Json)) : Members :=
  entries.foldl (fun members entry => members.put entry.1 entry.2) before

theorem eraseDups_concat (keys : List Bytes) (key : Bytes) :
    (keys ++ [key]).eraseDups =
      if key ∈ keys.eraseDups then keys.eraseDups else keys.eraseDups ++ [key] := by
  rw [List.eraseDups_append]
  by_cases h : key ∈ keys
  · rw [if_pos (List.mem_eraseDups.mpr h)]
    simp [List.removeAll, h]
  · rw [if_neg fun hmem => h (List.mem_eraseDups.mp hmem)]
    simp [List.removeAll, h, List.eraseDups_cons]

/-- Entries put one after the other make up an object with distinct keys, each with its last
value. -/
theorem gathers_putAll (entries : List (Bytes × Json)) :
    Gathers entries (putAll [] entries) ∧ (putAll [] entries).keys.Nodup := by
  induction entries using List.reverseRecOn with
  | nil => exact ⟨⟨rfl, fun _ => rfl⟩, .nil⟩
  | append_singleton entries entry ih =>
      obtain ⟨⟨hkeys, hlast⟩, hnodup⟩ := ih
      have hput : putAll [] (entries ++ [entry]) = (putAll [] entries).put entry.1 entry.2 := by
        rw [putAll, List.foldl_append]
        rfl
      rw [hput]
      refine ⟨⟨?_, fun key => ?_⟩, Members.nodup_keys_put hnodup _ _⟩
      · rw [Members.keys_put, hkeys, List.map_append, List.map_singleton, eraseDups_concat]
      · rw [Members.get?_put, hlast, List.reverse_concat, List.find?_cons]
        by_cases h : entry.1 = key
        · rw [if_pos h, beq_iff_eq.mpr h]
          rfl
        · rw [if_neg h, beq_eq_false_iff_ne.mpr h]

theorem Grammar.Gathers.eq_putAll {entries : List (Bytes × Json)} {members : Members}
    (h : Gathers entries members) : members = putAll [] entries := by
  obtain ⟨⟨hkeys, hlast⟩, hnodup⟩ := gathers_putAll entries
  have hsame : members.keys = (putAll [] entries).keys := h.keys.trans hkeys.symm
  exact Members.ext_of_keys hsame (hsame ▸ hnodup) fun key => (h.last key).trans (hlast key).symm

theorem readMember_recognizes (hread : Recognizes isNumeric read (Led V)) :
    Recognizes isNumeric (readMember read) (Entry V) where
  sound := by
    intro c behind entry h
    simp only [readMember, bind_eq_ok, Prod.exists] at h
    obtain ⟨name, c₁, hname, h⟩ := h
    obtain ⟨_, ⟨gap, key, hgap, hkey, rfl⟩, hrest⟩ := readText_recognizes.sound hname
    obtain ⟨gap₁, hgap₁, hskip⟩ := Cursor.skipGap_rest c₁
    split at h
    · cases h
    · next c₂ hcolon =>
        simp only [bind_eq_ok, Prod.exists] at h
        obtain ⟨value, c₃, hvalue, heq⟩ := h
        obtain ⟨rfl, rfl⟩ := Prod.mk.inj (Except.ok.inj heq)
        obtain ⟨_, ⟨gap₂, text, hgap₂, htext, rfl⟩, hrest'⟩ := hread.sound hvalue
        refine ⟨_, .pair hgap hkey hgap₁ hgap₂ htext, ?_⟩
        rw [hrest, hskip, Cursor.accept_eq_some hcolon, hrest']
        simp
  complete := by
    intro c text rest entry h hrest hstops
    obtain @⟨gap, key, gap₁, gap₂, part, name, value, hgap, hkey, hgap₁, hgap₂, hpart⟩ := h
    obtain ⟨o₁, hname⟩ := readText_recognizes.complete
      ⟨gap, key, hgap, hkey, rfl⟩
      (show c.rest = gap ++ key ++ (gap₁ ++ Ascii.colon :: (gap₂ ++ (part ++ rest))) by
        rw [hrest]; simp) stops_none
    obtain ⟨o₂, hskip⟩ := skipGap_accept hgap₁ (b := Ascii.colon) rfl o₁ (gap₂ ++ (part ++ rest))
    obtain ⟨offset, hvalue⟩ := hread.complete (c := ⟨o₂ + 1, gap₂ ++ (part ++ rest)⟩)
      ⟨gap₂, part, hgap₂, hpart, rfl⟩ (List.append_assoc ..).symm hstops
    refine ⟨offset, ?_⟩
    rw [readMember]
    refine bind_eq_ok.mpr ⟨_, hname, ?_⟩
    simp only [hskip, Cursor.accept_cons]
    exact bind_eq_ok.mpr ⟨_, hvalue, rfl⟩

theorem readMembers_sound (hread : Recognizes isNumeric read (Led V)) {n : Nat}
    {before members : Members} (h : readMembers read n before c = .ok (members, behind)) :
    ∃ inner entries, Entries V inner entries ∧ members = putAll before entries ∧
      c.rest = inner ++ Ascii.closeBrace :: behind.rest := by
  induction n generalizing c before with
  | zero => cases h
  | succ n ih =>
      simp only [readMembers, bind_eq_ok] at h
      obtain ⟨⟨entry, c₁⟩, hentry, h⟩ := h
      obtain ⟨text, htext, hrest⟩ := (readMember_recognizes hread).sound hentry
      obtain ⟨gap, hgap, hskip⟩ := Cursor.skipGap_rest c₁
      split at h
      · next c₂ hclose =>
          obtain ⟨rfl, rfl⟩ := Prod.mk.inj (Except.ok.inj h)
          refine ⟨_, _, .one htext hgap, rfl, ?_⟩
          rw [hrest, hskip, Cursor.accept_eq_some hclose, List.append_assoc]
      · split at h
        · cases h
        · next c₂ hcomma =>
            obtain ⟨inner, entries, hinner, rfl, hrest'⟩ := ih h
            refine ⟨_, _, .more htext hgap hinner, rfl, ?_⟩
            rw [hrest, hskip, Cursor.accept_eq_some hcomma, hrest']
            simp

theorem readMembers_last {n : Nat} {before : Members} {entry : Bytes × Json} {c₁ : Cursor}
    (hentry : readMember read c = .ok (entry, c₁)) {o : Nat}
    (hskip : c₁.skipGap = ⟨o, Ascii.closeBrace :: rest⟩) :
    readMembers read (n + 1) before c = .ok (before.put entry.1 entry.2, ⟨o + 1, rest⟩) := by
  rw [readMembers]
  refine bind_eq_ok.mpr ⟨_, hentry, ?_⟩
  simp only [hskip, Cursor.accept_cons]

theorem readMembers_more {n : Nat} {before members : Members} {entry : Bytes × Json} {c₁ : Cursor}
    (hentry : readMember read c = .ok (entry, c₁)) {o : Nat}
    (hskip : c₁.skipGap = ⟨o, Ascii.comma :: rest⟩)
    (hmembers : readMembers read n (before.put entry.1 entry.2) ⟨o + 1, rest⟩ =
      .ok (members, behind)) :
    readMembers read (n + 1) before c = .ok (members, behind) := by
  have hopen : Cursor.accept ⟨o, Ascii.comma :: rest⟩ Ascii.closeBrace = none := rfl
  rw [readMembers]
  refine bind_eq_ok.mpr ⟨_, hentry, ?_⟩
  simp only [hskip, hopen, Cursor.accept_cons]
  exact hmembers

theorem readMembers_complete (hread : Recognizes isNumeric read (Led V)) {inner : Bytes}
    {entries : List (Bytes × Json)} (h : Entries V inner entries) (n : Nat)
    (hn : entries.length ≤ n) (before : Members) (offset : Nat) (rest : Bytes) :
    ∃ offset', readMembers read n before ⟨offset, inner ++ Ascii.closeBrace :: rest⟩ =
      .ok (putAll before entries, ⟨offset', rest⟩) := by
  induction h generalizing n before offset with
  | @one text gap entry hentry hgap =>
      obtain ⟨n, rfl⟩ := Nat.exists_eq_add_one_of_ne_zero (Nat.ne_zero_of_lt hn)
      obtain ⟨c₁, o, hmember, hskip⟩ := read_before (readMember_recognizes hread) hentry hgap
        Ascii.closeBrace rfl rfl offset rest
      rw [List.append_assoc]
      exact ⟨o + 1, readMembers_last hmember hskip⟩
  | @more text gap inner entry entries hentry hgap _ ih =>
      obtain ⟨n, rfl⟩ := Nat.exists_eq_add_one_of_ne_zero (Nat.ne_zero_of_lt hn)
      obtain ⟨c₁, o, hmember, hskip⟩ := read_before (readMember_recognizes hread) hentry hgap
        Ascii.comma rfl rfl offset (inner ++ Ascii.closeBrace :: rest)
      obtain ⟨offset', hmembers⟩ :=
        ih n (Nat.le_of_succ_le_succ hn) (before.put entry.1 entry.2) (o + 1)
      rw [List.append_assoc, List.append_assoc]
      exact ⟨offset', readMembers_more hmember hskip hmembers⟩

theorem Grammar.Entries.length_le {inner : Bytes} {entries : List (Bytes × Json)}
    (h : Entries V inner entries) : entries.length ≤ inner.length + 1 := by
  induction h with
  | one => exact Nat.succ_le_succ (Nat.zero_le _)
  | more _ _ _ ih =>
      simp only [List.length_append, List.length_cons]
      omega

theorem skipGap_entries {inner : Bytes} {entries : List (Bytes × Json)}
    (h : Entries V inner entries) (offset : Nat) (rest : Bytes) :
    (Cursor.skipGap ⟨offset, inner ++ rest⟩).accept Ascii.closeBrace = none := by
  have hfirst {text : Bytes} {entry : Bytes × Json} (hentry : Entry V text entry) (rest : Bytes) :
      (Cursor.skipGap ⟨offset, text ++ rest⟩).accept Ascii.closeBrace = none := by
    obtain @⟨gap, key, gap₁, gap₂, part, name, value, hgap, ⟨hparts⟩, -, -, -⟩ := hentry
    rw [List.append_assoc, List.cons_append, List.cons_append]
    obtain ⟨o, hskip⟩ := skipGap_accept hgap (b := Ascii.quote) rfl offset _
    rw [hskip]
    rfl
  cases h with
  | one hentry _ =>
      rw [List.append_assoc]
      exact hfirst hentry _
  | more hentry _ _ =>
      rw [List.append_assoc]
      exact hfirst hentry _

theorem readObject_sound (hread : Recognizes isNumeric read (Led V)) {value : Json}
    (h : readObject read c = .ok (value, behind)) :
    ∃ text, ValueOf V (Ascii.openBrace :: text) value ∧ c.rest = text ++ behind.rest := by
  rw [readObject] at h
  split at h
  · next c₁ hclose =>
      obtain ⟨rfl, rfl⟩ := Prod.mk.inj (Except.ok.inj h)
      obtain ⟨gap, hgap, hskip⟩ := Cursor.skipGap_rest c
      refine ⟨_, .emptyObject hgap, ?_⟩
      rw [hskip, Cursor.accept_eq_some hclose, List.append_assoc]
      rfl
  · simp only [bind_eq_ok, Prod.exists] at h
    obtain ⟨members, c₁, hmembers, heq⟩ := h
    obtain ⟨rfl, rfl⟩ := Prod.mk.inj (Except.ok.inj heq)
    obtain ⟨inner, entries, hinner, rfl, hrest⟩ := readMembers_sound hread hmembers
    refine ⟨_, .object hinner (gathers_putAll entries).1, ?_⟩
    rw [hrest, List.append_assoc]
    rfl

theorem readObject_empty {gap : Bytes} (hgap : Gap gap) (offset : Nat) (rest : Bytes) :
    ∃ offset', readObject read ⟨offset, gap ++ Ascii.closeBrace :: rest⟩ =
      .ok (.object [], ⟨offset', rest⟩) := by
  obtain ⟨o, hskip⟩ := skipGap_accept hgap (b := Ascii.closeBrace) rfl offset rest
  refine ⟨o + 1, ?_⟩
  rw [readObject, hskip, Cursor.accept_cons]

theorem readObject_entries (hread : Recognizes isNumeric read (Led V)) {inner : Bytes}
    {entries : List (Bytes × Json)} {members : Members} (h : Entries V inner entries)
    (hmembers : Gathers entries members) (offset : Nat) (rest : Bytes) :
    ∃ offset', readObject read ⟨offset, inner ++ Ascii.closeBrace :: rest⟩ =
      .ok (.object members, ⟨offset', rest⟩) := by
  have hlength := h.length_le
  obtain ⟨offset', hentries⟩ := readMembers_complete hread h
    ((inner ++ Ascii.closeBrace :: rest).length + 1)
    (by rw [List.length_append]; omega) [] offset rest
  refine ⟨offset', ?_⟩
  rw [readObject, skipGap_entries h, hmembers.eq_putAll]
  exact bind_eq_ok.mpr ⟨_, hentries, rfl⟩

/-! ## Values -/

theorem literal?_sound {s : Bytes} {value : Json} {length : Nat}
    (h : literal? s = some (value, length)) : ValueOf V (s.take length) value := by
  rw [literal?] at h
  split at h
  · next hname =>
      obtain ⟨more, rfl⟩ := List.isPrefixOf_iff_prefix.mp hname
      obtain ⟨rfl, rfl⟩ := Prod.mk.inj (Option.some.inj h)
      exact .true
  · split at h
    · next hname =>
        obtain ⟨more, rfl⟩ := List.isPrefixOf_iff_prefix.mp hname
        obtain ⟨rfl, rfl⟩ := Prod.mk.inj (Option.some.inj h)
        exact .false
    · split at h
      · next hname =>
          obtain ⟨more, rfl⟩ := List.isPrefixOf_iff_prefix.mp hname
          obtain ⟨rfl, rfl⟩ := Prod.mk.inj (Option.some.inj h)
          exact .null
      · cases h

/-- A byte with which a number begins. -/
def BeginsNumber (b : UInt8) : Prop := b = Ascii.minus ∨ Bytes.isDigit b = true

theorem BeginsNumber.ne {b other : UInt8} (h : BeginsNumber b) (hminus : other ≠ Ascii.minus)
    (hdigit : Bytes.isDigit other = false) : b ≠ other := by
  rcases h with rfl | h
  · exact Ne.symm hminus
  · exact beq_eq_false_iff_ne.mp (beq_of_class h hdigit)

theorem Grammar.Number.head {value : Json} (h : Number text value) :
    ∃ b more, text = b :: more ∧ BeginsNumber b := by
  obtain ⟨numeral, hnumeral⟩ : ∃ numeral, NumeralText text numeral := by
    cases h with
    | integer htext => exact ⟨_, htext⟩
    | double htext => exact ⟨_, htext⟩
  obtain @⟨sign, whole, point, power, _, _, _, hsign, hwhole, -, -⟩ := hnumeral
  cases hsign with
  | absent =>
      obtain ⟨b, more, rfl, hb⟩ := Digits.head hwhole
      exact ⟨b, more ++ (point ++ power), rfl, .inr hb⟩
  | minus => exact ⟨Ascii.minus, whole ++ (point ++ power), rfl, .inl rfl⟩

theorem literal?_number {b : UInt8} (h : BeginsNumber b) (more : Bytes) :
    literal? (b :: more) = none := by
  have hname (letter : UInt8) (name : Bytes) (hminus : letter ≠ Ascii.minus)
      (hdigit : Bytes.isDigit letter = false) :
      ¬ List.isPrefixOf (letter :: name) (b :: more) = true := by
    have hne : (letter == b) = false := beq_eq_false_iff_ne.mpr (Ne.symm (h.ne hminus hdigit))
    simp [List.isPrefixOf, hne]
  have htrue : ¬ (utf8 "true").isPrefixOf (b :: more) = true :=
    hname 't'.toUInt8 (utf8 "rue") (by decide) rfl
  have hfalse : ¬ (utf8 "false").isPrefixOf (b :: more) = true :=
    hname 'f'.toUInt8 (utf8 "alse") (by decide) rfl
  have hnull : ¬ (utf8 "null").isPrefixOf (b :: more) = true :=
    hname 'n'.toUInt8 (utf8 "ull") (by decide) rfl
  rw [literal?, if_neg htrue, if_neg hfalse, if_neg hnull]

theorem begins_valueOf : Begins (ValueOf V) := by
  intro text value h
  cases h with
  | null => exact ⟨_, _, rfl, rfl, by decide⟩
  | true => exact ⟨_, _, rfl, rfl, by decide⟩
  | false => exact ⟨_, _, rfl, rfl, by decide⟩
  | number hnumber =>
      obtain ⟨b, more, rfl, hb⟩ := hnumber.head
      refine ⟨b, more, rfl, ?_, hb.ne (by decide) rfl⟩
      simp only [isGap, Bool.or_eq_false_iff, beq_eq_false_iff_ne]
      exact ⟨⟨⟨hb.ne (by decide) rfl, hb.ne (by decide) rfl⟩, hb.ne (by decide) rfl⟩,
        hb.ne (by decide) rfl⟩
  | text htext =>
      cases htext
      exact ⟨_, _, rfl, rfl, by decide⟩
  | emptyArray => exact ⟨_, _, rfl, rfl, by decide⟩
  | array => exact ⟨_, _, rfl, rfl, by decide⟩
  | emptyObject => exact ⟨_, _, rfl, rfl, by decide⟩
  | object => exact ⟨_, _, rfl, rfl, by decide⟩

theorem begins_value (depth : Nat) : Begins (Value depth) := by
  cases depth with
  | zero => exact fun h => h.elim
  | succ depth => exact begins_valueOf

theorem readValue_sound {depth : Nat}
    (ih : Recognizes isNumeric (readValue depth) (Led (Value depth))) {value : Json}
    (h : readValue (depth + 1) c = .ok (value, behind)) :
    ∃ text, Led (Value (depth + 1)) text value ∧ c.rest = text ++ behind.rest := by
  obtain ⟨gap, hgap, hskip⟩ := Cursor.skipGap_rest c
  simp only [readValue] at h
  generalize c.skipGap = c₁ at h hskip
  obtain ⟨o, crest⟩ := c₁
  -- it is enough to find the value behind the white space
  suffices hvalue : ∃ text, Led (ValueOf (Value depth)) text value ∧ crest = text ++ behind.rest by
    obtain ⟨_, ⟨gap', part, hgap', hpart, rfl⟩, hrest⟩ := hvalue
    refine ⟨gap ++ gap' ++ part, ⟨gap ++ gap', part, ?_, hpart, rfl⟩, ?_⟩
    · intro b hb
      exact (List.mem_append.mp hb).elim (hgap b) (hgap' b)
    · rw [hskip, hrest, List.append_assoc, List.append_assoc, List.append_assoc]
  have hplain {text : Bytes} (hpart : ValueOf (Value depth) text value) :
      Led (ValueOf (Value depth)) text value := ⟨[], text, nofun, hpart, rfl⟩
  cases crest with
  | nil => cases h
  | cons b more =>
      simp only at h
      split at h
      · simp only [bind_eq_ok, Prod.exists] at h
        obtain ⟨s, c₂, hs, heq⟩ := h
        obtain ⟨rfl, rfl⟩ := Prod.mk.inj (Except.ok.inj heq)
        obtain ⟨_, ⟨gap', part, hgap', hpart, rfl⟩, hrest⟩ := readText_recognizes.sound hs
        exact ⟨_, ⟨gap', part, hgap', .text hpart, rfl⟩, hrest⟩
      · split at h
        · next hbrace =>
            subst hbrace
            obtain ⟨text, hvalue, hrest⟩ := readObject_sound ih h
            exact ⟨_, hplain hvalue, congrArg (Ascii.openBrace :: ·) hrest⟩
        · split at h
          · next hbracket =>
              subst hbracket
              obtain ⟨text, hvalue, hrest⟩ := readArray_sound ih h
              exact ⟨_, hplain hvalue, congrArg (Ascii.openBracket :: ·) hrest⟩
          · split at h
            · next found length hliteral =>
                obtain ⟨rfl, rfl⟩ := Prod.mk.inj (Except.ok.inj h)
                exact ⟨_, hplain (literal?_sound hliteral), (List.take_append_drop ..).symm⟩
            · obtain ⟨text, hnumber, hrest⟩ := readNumber_recognizes.sound h
              exact ⟨_, hplain (.number hnumber), hrest⟩

theorem readValue_cons {depth : Nat} {o : Nat} {b : UInt8} (hskip : c.skipGap = ⟨o, b :: rest⟩) :
    readValue (depth + 1) c =
      if b = Ascii.quote then
        readText ⟨o, b :: rest⟩ >>= fun (s, c) => .ok (.text s, c)
      else if b = Ascii.openBrace then readObject (readValue depth) ⟨o + 1, rest⟩
      else if b = Ascii.openBracket then readArray (readValue depth) ⟨o + 1, rest⟩
      else match literal? (b :: rest) with
        | some (value, length) => .ok (value, Cursor.skip ⟨o, b :: rest⟩ length)
        | none => readNumber ⟨o, b :: rest⟩ := by
  rw [readValue]
  simp only [hskip]
  rfl

theorem readValue_literal {depth : Nat} {name : Bytes} {value : Json} {o : Nat}
    (hliteral : literal? (name ++ rest) = some (value, name.length))
    (hname : ∃ b more, name = b :: more ∧ b ≠ Ascii.quote ∧ b ≠ Ascii.openBrace ∧
      b ≠ Ascii.openBracket) (hskip : c.skipGap = ⟨o, name ++ rest⟩) :
    readValue (depth + 1) c = .ok (value, ⟨o + name.length, rest⟩) := by
  obtain ⟨b, more, rfl, hquote, hbrace, hbracket⟩ := hname
  rw [List.cons_append] at hskip hliteral
  rw [readValue_cons hskip, if_neg hquote, if_neg hbrace, if_neg hbracket, hliteral]
  have hdrop : (b :: (more ++ rest)).drop (b :: more).length = rest :=
    show ((b :: more) ++ rest).drop (b :: more).length = rest from List.drop_left
  simp only [Cursor.skip, hdrop]

theorem readValue_complete {depth : Nat}
    (ih : Recognizes isNumeric (readValue depth) (Led (Value depth))) {value : Json}
    (h : Led (Value (depth + 1)) text value) (hrest : c.rest = text ++ rest)
    (hstops : Stops isNumeric rest) :
    ∃ offset, readValue (depth + 1) c = .ok (value, ⟨offset, rest⟩) := by
  obtain ⟨gap, part, hgap, hpart, rfl⟩ := h
  obtain ⟨o, hskip⟩ : ∃ o, c.skipGap = ⟨o, part ++ rest⟩ := by
    obtain ⟨b, more, rfl, hb, -⟩ := begins_valueOf hpart
    exact Cursor.skipGap_of_append (hrest.trans (List.append_assoc ..)) hgap
      (stops_cons_iff.mpr hb)
  cases hpart with
  | null =>
      exact ⟨_, readValue_literal rfl ⟨_, _, rfl, by decide, by decide, by decide⟩ hskip⟩
  | true =>
      exact ⟨_, readValue_literal rfl ⟨_, _, rfl, by decide, by decide, by decide⟩ hskip⟩
  | false =>
      exact ⟨_, readValue_literal rfl ⟨_, _, rfl, by decide, by decide, by decide⟩ hskip⟩
  | number hnumber =>
      obtain ⟨offset, hread⟩ := readNumber_recognizes.complete
        (c := ⟨o, part ++ rest⟩) hnumber rfl hstops
      obtain ⟨b, more, rfl, hb⟩ := hnumber.head
      refine ⟨offset, ?_⟩
      rw [readValue_cons hskip, if_neg (hb.ne (by decide) rfl), if_neg (hb.ne (by decide) rfl),
        if_neg (hb.ne (by decide) rfl), literal?_number hb]
      exact hread
  | @text _ s htext =>
      obtain ⟨offset, hread⟩ := readText_recognizes.complete
        (c := ⟨o, part ++ rest⟩) ⟨[], part, nofun, htext, rfl⟩ rfl stops_none
      cases htext with
      | quoted hparts =>
          refine ⟨offset, ?_⟩
          rw [readValue_cons hskip, if_pos rfl]
          exact bind_eq_ok.mpr ⟨_, hread, rfl⟩
  | @emptyArray gap' hgap' =>
      obtain ⟨offset, hread⟩ := @readArray_empty (readValue depth) gap' hgap' (o + 1) rest
      rw [List.cons_append, List.append_assoc] at hskip
      refine ⟨offset, ?_⟩
      rw [readValue_cons hskip, if_neg (by decide), if_neg (by decide), if_pos rfl]
      exact hread
  | @array inner items hitems =>
      obtain ⟨offset, hread⟩ := readArray_items ih (begins_value depth) hitems (o + 1) rest
      rw [List.cons_append, List.append_assoc] at hskip
      refine ⟨offset, ?_⟩
      rw [readValue_cons hskip, if_neg (by decide), if_neg (by decide), if_pos rfl]
      exact hread
  | @emptyObject gap' hgap' =>
      obtain ⟨offset, hread⟩ := @readObject_empty (readValue depth) gap' hgap' (o + 1) rest
      rw [List.cons_append, List.append_assoc] at hskip
      refine ⟨offset, ?_⟩
      rw [readValue_cons hskip, if_neg (by decide), if_pos rfl]
      exact hread
  | @object inner entries members hentries hmembers =>
      obtain ⟨offset, hread⟩ := readObject_entries ih hentries hmembers (o + 1) rest
      rw [List.cons_append, List.append_assoc] at hskip
      refine ⟨offset, ?_⟩
      rw [readValue_cons hskip, if_neg (by decide), if_pos rfl]
      exact hread

theorem readValue_recognizes (depth : Nat) :
    Recognizes isNumeric (readValue depth) (Led (Value depth)) := by
  induction depth with
  | zero =>
      constructor
      · intro c behind value h
        simp only [readValue] at h
        split at h
        · cases h
        · cases h
      · rintro c text rest value ⟨_, _, _, hpart, _⟩
        exact hpart.elim
  | succ depth ih => exact ⟨readValue_sound ih, readValue_complete ih⟩

/-! ## Texts -/

theorem document_of_parse {text : Bytes} {value : Json} (h : parse text = .ok value) :
    Document text value := by
  simp only [parse, bind_eq_ok, Prod.exists] at h
  obtain ⟨found, c₁, hvalue, h⟩ := h
  obtain ⟨_, ⟨gap, part, hgap, hpart, rfl⟩, hrest⟩ := (readValue_recognizes maxDepth).sound hvalue
  obtain ⟨gap', hgap', hskip⟩ := Cursor.skipGap_rest c₁
  split at h
  · next hend =>
      obtain rfl := Except.ok.inj h
      rw [hend, List.append_nil] at hskip
      have hdocument := Document.value hgap hpart hgap'
      rwa [← hskip, ← List.append_assoc, ← hrest] at hdocument
  · cases h

/-- **A text is parsed just when it is one of the grammar**, to the value that it has there: no
other text is parsed, none of the grammar is refused, and arrays keep the order of their items,
keys the last of their values, and integers that fit are integers. -/
theorem parse_eq_ok_iff (text : Bytes) (value : Json) :
    parse text = .ok value ↔ Document text value := by
  constructor
  · exact document_of_parse
  · intro h
    obtain @⟨gap, part, gap', _, hgap, hpart, hgap'⟩ := h
    have hstops : Stops isNumeric gap' := by
      cases gap' with
      | nil => exact .nil
      | cons b more => exact stops_cons_iff.mpr (isNumeric_of_isGap (hgap' b List.mem_cons_self))
    obtain ⟨o₁, hvalue⟩ := (readValue_recognizes maxDepth).complete
      (c := ⟨0, gap ++ (part ++ gap')⟩) ⟨gap, part, hgap, hpart, rfl⟩
      (List.append_assoc ..).symm hstops
    obtain ⟨o₂, hskip⟩ := Cursor.skipGap_of_append (c := ⟨o₁, gap'⟩) (List.append_nil gap').symm
      hgap' .nil
    rw [parse]
    refine bind_eq_ok.mpr ⟨_, hvalue, ?_⟩
    simp only [hskip]

/-- Zeros may lead, and of two values of a key the last one counts. -/
example : parse (utf8 " \x7b\"a\": 1, \"a\": [02, -1]\x7d ") =
    .ok (.object [(utf8 "a", .array [.int 2, .int (-1)])]) := by rfl

end

end Json

end BearerAuth
