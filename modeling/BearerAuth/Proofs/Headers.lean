import BearerAuth.Message
import BearerAuth.Proofs.Bytes

/-!
# Setting headers

Setting a header leaves one header of its name, with the value as it is stored, and all
others as they were (`values_set`, `others_set`).  So when headers are set one after the other,
the last of each name is left, and no two names are the same (`mem_setAll`, `Apart.setAll`).  A
header is `Safe` when its name is a name
and its value holds no line break and no NUL.  Trimming takes no such byte away and adds none
(`isValue_trim`), so setting safe headers leaves safe headers (`safe_setAll`).
-/

namespace BearerAuth

namespace Headers

/-! ## What is set -/

@[simp] theorem sameLetters_self (name : Bytes) : Bytes.sameLetters name name = true :=
  beq_self_eq_true _

/-- The headers of all other names. -/
def others (headers : Headers) (name : Bytes) : Headers :=
  headers.filter fun header => !Bytes.sameLetters header.1 name

theorem values_set (headers : Headers) (name value : Bytes) :
    (headers.set name value).values name = [Bytes.trim value] := by
  have hnone : headers.filter (fun header =>
      Bytes.sameLetters header.1 name && !Bytes.sameLetters header.1 name) = [] := by
    rw [List.filter_eq_nil_iff]
    intro header _
    simp
  rw [values, set, insert, List.filter_append, List.filter_filter, hnone]
  simp

theorem others_set (headers : Headers) (name value : Bytes) :
    (headers.set name value).others name = headers.others name := by
  rw [others, set, insert, List.filter_append, List.filter_filter]
  simp [others]

/-- What stands after a header was replaced: the others, and the new one. -/
theorem mem_set {headers : Headers} {name value : Bytes} {header : Bytes × Bytes}
    (h : header ∈ headers.set name value) :
    header ∈ headers ∨ header = (name, Bytes.trim value) := by
  rw [set, insert, List.mem_append] at h
  rcases h with h | h
  · exact .inl (List.mem_filter.mp h).1
  · exact .inr (List.mem_singleton.mp h)

theorem mem_set_iff {headers : Headers} {name value : Bytes} {header : Bytes × Bytes} :
    header ∈ headers.set name value ↔
      header ∈ headers ∧ Bytes.sameLetters header.1 name = false ∨
        header = (name, Bytes.trim value) := by
  simp [set, insert]

/-! ## Setting one after the other -/

/-- No two headers have the same name. -/
def Apart (headers : Headers) : Prop :=
  headers.Pairwise fun header other => Bytes.sameLetters header.1 other.1 = false

/-- A header is the last of its name. -/
def Last (headers : Headers) (header : Bytes × Bytes) : Prop :=
  ∃ before after, headers = before ++ header :: after ∧
    ∀ later ∈ after, Bytes.sameLetters header.1 later.1 = false

theorem Apart.set {headers : Headers} (h : Apart headers) (name value : Bytes) :
    Apart (headers.set name value) := by
  rw [Apart, Headers.set, insert, List.pairwise_append]
  refine ⟨h.filter _, List.pairwise_singleton _ _, ?_⟩
  intro header hheader new hnew
  obtain rfl := List.mem_singleton.mp hnew
  simpa using (List.mem_filter.mp hheader).2

theorem Apart.setAll {headers : Headers} (h : Apart headers) (more : Headers) :
    Apart (more.foldl (fun headers header => headers.set header.1 header.2) headers) := by
  induction more generalizing headers with
  | nil => exact h
  | cons first more ih => exact ih (h.set first.1 first.2)

theorem last_cons {first header : Bytes × Bytes} {more : Headers} :
    Last (first :: more) header ↔
      header = first ∧ (∀ later ∈ more, Bytes.sameLetters header.1 later.1 = false) ∨
        Last more header := by
  constructor
  · rintro ⟨before, after, hsplit, hlater⟩
    cases before with
    | nil =>
        obtain ⟨rfl, rfl⟩ := List.cons.inj hsplit
        exact .inl ⟨rfl, hlater⟩
    | cons front before =>
        obtain ⟨-, rfl⟩ := List.cons.inj hsplit
        exact .inr ⟨before, after, rfl, hlater⟩
  · rintro (⟨rfl, hlater⟩ | ⟨before, after, rfl, hlater⟩)
    · exact ⟨[], more, rfl, hlater⟩
    · exact ⟨first :: before, after, rfl, hlater⟩

/-- What is left of headers that were set one after the other: of each name the last, and of
those that were there before the ones with other names. -/
theorem mem_setAll {headers more : Headers} {header : Bytes × Bytes} :
    header ∈ more.foldl (fun headers header => headers.set header.1 header.2) headers ↔
      header ∈ headers ∧ (∀ later ∈ more, Bytes.sameLetters header.1 later.1 = false) ∨
        ∃ last, Last more last ∧ header = (last.1, Bytes.trim last.2) := by
  induction more generalizing headers with
  | nil =>
      have hnone (last : Bytes × Bytes) : ¬ Last [] last := by
        rintro ⟨before, after, hsplit, -⟩
        simp at hsplit
      simp [hnone]
  | cons first more ih =>
      rw [List.foldl_cons, ih, mem_set_iff]
      constructor
      · rintro (⟨⟨hold, hfirst⟩ | rfl, hlater⟩ | ⟨last, hlast, rfl⟩)
        · exact .inl ⟨hold, List.forall_mem_cons.mpr ⟨hfirst, hlater⟩⟩
        · exact .inr ⟨first, last_cons.mpr (.inl ⟨rfl, hlater⟩), rfl⟩
        · exact .inr ⟨last, last_cons.mpr (.inr hlast), rfl⟩
      · rintro (⟨hold, hnone⟩ | ⟨last, hlast, rfl⟩)
        · obtain ⟨hfirst, hlater⟩ := List.forall_mem_cons.mp hnone
          exact .inl ⟨.inl ⟨hold, hfirst⟩, hlater⟩
        · rcases last_cons.mp hlast with ⟨rfl, hlater⟩ | hlast
          · exact .inl ⟨.inr rfl, hlater⟩
          · exact .inr ⟨last, hlast, rfl⟩

/-! ## Safe headers -/

/-- A header whose name is one and whose value has no line break and no NUL. -/
def Safe (header : Bytes × Bytes) : Prop :=
  isName header.1 = true ∧ isValue header.2 = true

theorem isValue_of_subset {value value' : Bytes} (hsubset : value ⊆ value')
    (h : isValue value' = true) : isValue value = true := by
  rw [isValue, List.all_eq_true] at h ⊢
  intro b hb
  exact h b (hsubset hb)

/-- Trimming decides nothing: line breaks and NUL are no blanks. -/
theorem isValue_trim (value : Bytes) : isValue (Bytes.trim value) = isValue value := by
  rw [Bool.eq_iff_iff]
  constructor
  · intro h
    rw [isValue, List.all_eq_true] at h ⊢
    intro b hb
    by_cases hblank : Bytes.isBlank b = true
    · have hcases : b = Ascii.space ∨ b = Ascii.tab := by
        simpa [Bytes.isBlank] using hblank
      rcases hcases with rfl | rfl
      · rfl
      · rfl
    · exact h b (Bytes.mem_trim hb (Bool.eq_false_iff.mpr hblank))
  · intro h
    exact isValue_of_subset (Bytes.trim_subset value) h

theorem safe_set {headers : Headers} {name value : Bytes} (h : ∀ header ∈ headers, Safe header)
    (hname : isName name = true) (hvalue : isValue value = true) :
    ∀ header ∈ headers.set name value, Safe header := by
  intro header hheader
  rcases mem_set hheader with hold | rfl
  · exact h header hold
  · exact ⟨hname, (isValue_trim value).trans hvalue⟩

theorem safe_setAll {headers more : Headers} (h : ∀ header ∈ headers, Safe header)
    (hmore : ∀ header ∈ more, Safe header) :
    ∀ header ∈ more.foldl (fun headers header => headers.set header.1 header.2) headers,
      Safe header := by
  induction more generalizing headers with
  | nil => exact h
  | cons first more ih =>
      have hfirst := hmore first List.mem_cons_self
      refine ih (safe_set h hfirst.1 hfirst.2) ?_
      intro header hheader
      exact hmore header (List.mem_cons_of_mem _ hheader)

end Headers

end BearerAuth
