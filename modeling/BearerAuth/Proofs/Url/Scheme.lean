import BearerAuth.Proofs.Bytes
import BearerAuth.Url

/-!
# The scheme of a URL text

The name of the scheme stands before the first `://` (`cutScheme_eq_some_iff`).
Two names are known, in any case of their letters (`readScheme_eq_ok_iff`):
another case gives a text that reads alike (`parse_change_case`).
-/

namespace BearerAuth

namespace Url

/-! ## The first separator -/

theorem cutScheme_eq_some {text name rest : Bytes} (h : cutScheme text = some (name, rest)) :
    text = name ++ utf8 "://" ++ rest := by
  induction text generalizing name with
  | nil => cases h
  | cons b text ih =>
      rw [cutScheme] at h
      split at h
      · next hprefix =>
          obtain ⟨after, hafter⟩ := List.isPrefixOf_iff_prefix.mp hprefix
          obtain ⟨rfl, rfl⟩ := Prod.mk.inj (Option.some.inj h)
          rw [← hafter]
          rfl
      · obtain ⟨⟨before, after⟩, hcut, hparts⟩ := Option.map_eq_some_iff.mp h
        obtain ⟨rfl, rfl⟩ := Prod.mk.inj hparts
        rw [ih hcut]
        rfl

theorem cutScheme_append {name : Bytes} (rest : Bytes) (h : Ascii.colon ∉ name) :
    cutScheme (name ++ utf8 "://" ++ rest) = some (name, rest) := by
  induction name with
  | nil => rfl
  | cons b name ih =>
      simp only [List.mem_cons, not_or] at h
      have hprefix : (utf8 "://").isPrefixOf (b :: (name ++ utf8 "://" ++ rest)) = false := by
        rw [show utf8 "://" = Ascii.colon :: utf8 "//" by decide, List.isPrefixOf]
        simp [h.1]
      simp only [List.cons_append, cutScheme, hprefix, ih h.2]
      rfl

/-- A text begins with a name, in front of its first `://`, and the rest stands behind. -/
structure Begins (text name rest : Bytes) : Prop where
  text_eq : text = name ++ utf8 "://" ++ rest
  first : ∀ before after, text = before ++ utf8 "://" ++ after → name.length ≤ before.length

theorem length_le_of_cutScheme {text name rest before after : Bytes}
    (h : cutScheme text = some (name, rest)) (htext : text = before ++ utf8 "://" ++ after) :
    name.length ≤ before.length := by
  induction text generalizing name before with
  | nil => cases h
  | cons b text ih =>
      rw [cutScheme] at h
      split at h
      · obtain ⟨rfl, -⟩ := Prod.mk.inj (Option.some.inj h)
        exact Nat.zero_le _
      · next hprefix =>
          obtain ⟨⟨name', rest'⟩, hcut, hparts⟩ := Option.map_eq_some_iff.mp h
          obtain ⟨rfl, rfl⟩ := Prod.mk.inj hparts
          cases before with
          | nil =>
              refine absurd (List.isPrefixOf_iff_prefix.mpr ?_) hprefix
              rw [htext, List.append_assoc]
              exact List.prefix_append _ _
          | cons c before => exact Nat.succ_le_succ (ih hcut (List.cons.inj htext).2)

theorem cutScheme_ne_none {before after : Bytes} :
    cutScheme (before ++ utf8 "://" ++ after) ≠ none := by
  induction before with
  | nil => exact nofun
  | cons b before ih =>
      rw [List.cons_append, List.cons_append, cutScheme]
      split
      · exact nofun
      · simpa using ih

theorem cutScheme_eq_some_iff {text name rest : Bytes} :
    cutScheme text = some (name, rest) ↔ Begins text name rest := by
  constructor
  · intro h
    exact ⟨cutScheme_eq_some h, fun _ _ => length_le_of_cutScheme h⟩
  · intro h
    cases hcut : cutScheme text with
    | none => exact absurd hcut (h.text_eq ▸ cutScheme_ne_none)
    | some parts =>
        obtain ⟨name', rest'⟩ := parts
        have htext := cutScheme_eq_some hcut
        have hlength := Nat.le_antisymm (h.first _ _ htext) (length_le_of_cutScheme hcut h.text_eq)
        rw [h.text_eq, List.append_assoc, List.append_assoc] at htext
        obtain ⟨rfl, hrest⟩ := List.append_inj htext hlength
        rw [List.append_cancel_left hrest]

theorem exists_begins {text before after : Bytes} (h : text = before ++ utf8 "://" ++ after) :
    ∃ name rest, Begins text name rest := by
  obtain ⟨⟨name, rest⟩, hcut⟩ := Option.ne_none_iff_exists'.mp (h ▸ cutScheme_ne_none)
  exact ⟨name, rest, cutScheme_eq_some_iff.mp hcut⟩

theorem Begins.append {text name rest : Bytes} (h : Begins text name rest) (more : Bytes) :
    Begins (text ++ more) name (rest ++ more) := by
  refine ⟨by rw [h.text_eq, List.append_assoc], ?_⟩
  intro before after htext
  refine Nat.le_of_not_lt fun hlt => ?_
  -- Such a separator would stand in the text itself.
  have hlength : (before ++ utf8 "://").length ≤ text.length := by
    rw [h.text_eq]
    simp only [List.length_append, show (utf8 "://").length = 3 from rfl]
    omega
  obtain ⟨after', hafter⟩ := List.prefix_of_prefix_length_le ⟨after, htext.symm⟩
    (List.prefix_append text more) hlength
  exact Nat.not_lt_of_le (h.first before after' hafter.symm) hlt

/-! ## Known schemes -/

def schemeOf (name : Bytes) : Except Fault Bytes :=
  if name = [] then .error .notAbsolute
  else if Bytes.toLower name = utf8 "http" ∨ Bytes.toLower name = utf8 "https" then
    .ok (Bytes.toLower name)
  else .error (.unsupportedScheme (Bytes.toLower name))

theorem readScheme_of_begins {text name rest : Bytes} (h : Begins text name rest) :
    readScheme text = (schemeOf name).map fun scheme => (scheme, rest) := by
  rw [readScheme, cutScheme_eq_some_iff.mpr h, schemeOf]
  cases name with
  | nil => rfl
  | cons b name =>
      simp only [reduceCtorEq, if_false]
      split <;> rfl

theorem readScheme_eq_ok_iff {text scheme rest : Bytes} :
    readScheme text = .ok (scheme, rest) ↔ ∃ name, Begins text name rest ∧
      scheme = Bytes.toLower name ∧ (scheme = utf8 "http" ∨ scheme = utf8 "https") := by
  constructor
  · intro h
    cases hcut : cutScheme text with
    | none =>
        rw [readScheme, hcut] at h
        cases h
    | some parts =>
        obtain ⟨name, rest'⟩ := parts
        have hbegins := cutScheme_eq_some_iff.mp hcut
        rw [readScheme_of_begins hbegins, map_eq_ok] at h
        obtain ⟨scheme', hscheme, hparts⟩ := h
        obtain ⟨rfl, rfl⟩ := Prod.mk.inj hparts
        rw [schemeOf] at hscheme
        split at hscheme
        · cases hscheme
        · split at hscheme
          · next hknown =>
              obtain rfl := Except.ok.inj hscheme
              exact ⟨name, hbegins, rfl, hknown⟩
          · cases hscheme
  · rintro ⟨name, hbegins, rfl, hknown⟩
    have hne : name ≠ [] := by
      rintro rfl
      exact absurd hknown (by decide)
    rw [readScheme_of_begins hbegins, schemeOf, if_neg hne, if_pos hknown]
    rfl

/-- What is read as a scheme is one of the two, and its text in lower case, in
front of `://`. -/
theorem readScheme_eq_ok {text scheme rest : Bytes} (h : readScheme text = .ok (scheme, rest)) :
    (scheme = utf8 "http" ∨ scheme = utf8 "https") ∧
      ∃ name, scheme = Bytes.toLower name ∧ text = name ++ utf8 "://" ++ rest := by
  obtain ⟨name, hbegins, hscheme, hknown⟩ := readScheme_eq_ok_iff.mp h
  exact ⟨hknown, name, hscheme, hbegins.text_eq⟩

theorem readScheme_append {scheme : Bytes} (rest : Bytes)
    (h : scheme = utf8 "http" ∨ scheme = utf8 "https") :
    readScheme (scheme ++ utf8 "://" ++ rest) = .ok (scheme, rest) := by
  rcases h with rfl | rfl
  · rw [readScheme, cutScheme_append rest (by decide)]
    rfl
  · rw [readScheme, cutScheme_append rest (by decide)]
    rfl

/-! ## The case of a scheme -/

theorem schemeOf_congr {name name' : Bytes} (h : Bytes.toLower name' = Bytes.toLower name) :
    schemeOf name' = schemeOf name := by
  have hnil (s : Bytes) : Bytes.toLower s = [] ↔ s = [] := List.map_eq_nil_iff
  have hempty : name' = [] ↔ name = [] := by rw [← hnil, h, hnil]
  simp only [schemeOf, h, hempty]

/-- A separator stays the first one when letters in front of it change their case. -/
theorem Begins.change_case {text name name' rest : Bytes} (h : Begins text name rest)
    (hcase : Bytes.toLower name' = Bytes.toLower name) :
    Begins (name' ++ utf8 "://" ++ rest) name' rest := by
  refine ⟨rfl, ?_⟩
  intro before after htext
  have hlowered : Bytes.toLower text = Bytes.toLower (before ++ utf8 "://" ++ after) := by
    rw [← htext, h.text_eq]
    simp only [Bytes.toLower, List.map_append] at hcase ⊢
    rw [hcase]
  have hdrop : Bytes.toLower (text.drop before.length) = Bytes.toLower (utf8 "://" ++ after) := by
    simp only [Bytes.toLower, List.map_drop] at hlowered ⊢
    rw [hlowered, ← List.map_drop, List.append_assoc, List.drop_left]
  -- What is a separator in lower case is one as it stands.
  have hprefix : utf8 "://" <+: text.drop before.length := by
    rw [← List.isPrefixOf_iff_prefix, ← Bytes.isPrefixOf_toLower rfl, hdrop,
      Bytes.isPrefixOf_toLower rfl, List.isPrefixOf_iff_prefix]
    exact List.prefix_append _ _
  obtain ⟨behind, hbehind⟩ := hprefix
  have hfirst := h.first (text.take before.length) behind (by
    rw [List.append_assoc, hbehind, List.take_append_drop])
  have hlength : name'.length = name.length := by
    simpa [Bytes.toLower] using congrArg List.length hcase
  rw [List.length_take] at hfirst
  omega

theorem parse_change_case {text name name' rest : Bytes} (h : Begins text name rest)
    (hcase : Bytes.toLower name' = Bytes.toLower name) :
    parse (name' ++ utf8 "://" ++ rest) = parse text := by
  have hread : readScheme (name' ++ utf8 "://" ++ rest) = readScheme text := by
    rw [readScheme_of_begins (h.change_case hcase), readScheme_of_begins h, schemeOf_congr hcase]
  rw [parse, parse, hread]

end Url

end BearerAuth
