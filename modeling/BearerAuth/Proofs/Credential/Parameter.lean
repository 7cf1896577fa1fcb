import BearerAuth.Credential
import BearerAuth.Proofs.Form

/-!
# Tokens in parameters

A parameter is looked for in the form that a request posts, and then in the
query of its target.  The query of a target is found between its first
question mark and the number sign behind it, whatever stands in the path in
front and in the fragment behind (`query?_targetText`), and each text is read
as a list of fields of which the first of the name counts
(`parameter_of_form_or_query`).  A form need not be written as this library
writes one.
-/

namespace BearerAuth

namespace Credential

/-! ## Targets -/

/-- A target with a path, a query and an optional fragment. -/
def targetText (path : Bytes) (query : Form.Fields) (fragment : Option Bytes) : Bytes :=
  path ++ Ascii.question :: (Form.encodeFields query ++
    (fragment.map (Ascii.hash :: ·)).getD [])

/-- The query of a target is cut out of it as it was put in: encoded fields have no number
sign. -/
theorem query?_targetText {path : Bytes} (hpath : Ascii.question ∉ path) (query : Form.Fields)
    (fragment : Option Bytes) :
    query? (targetText path query fragment) = some (Form.encodeFields query) := by
  have hhash : Ascii.hash ∉ Form.encodeFields query := by
    intro hmem
    exact absurd (Form.mem_encodeFields hmem) (by decide)
  have hstop : ∀ b ∈ ((fragment.map (Ascii.hash :: ·)).getD []).head?,
      (b != Ascii.hash) = false := by
    intro b hb
    cases fragment with
    | none => cases hb
    | some fragment =>
        obtain rfl := Option.some.inj hb
        rfl
  rw [query?, targetText, Bytes.cut_append _ hpath, Option.map_some,
    Bytes.takeWhile_append_of_stop hstop, Bytes.takeWhile_ne_of_not_mem hhash]

/-! ## Forms -/

/-- A request posts a form: its method is one of those that carry a body, and its first media
type is that of forms, with or without parameters behind it. -/
structure PostsForm (request : Request) : Prop where
  method : request.method ∈ [utf8 "POST", utf8 "PUT", utf8 "PATCH"]
  mediaType : formMediaType <+: request.headers.first (utf8 "Content-Type")

theorem hasForm_iff {request : Request} : hasForm request = true ↔ PostsForm request := by
  simp only [hasForm, Bool.and_eq_true, Bool.or_eq_true, beq_iff_eq, List.isPrefixOf_iff_prefix]
  constructor
  · rintro ⟨hmethod, htype⟩
    exact ⟨by simpa [or_assoc] using hmethod, htype⟩
  · intro h
    exact ⟨by simpa [or_assoc] using h.method, h.mediaType⟩

instance (request : Request) : Decidable (PostsForm request) := decidable_of_iff _ hasForm_iff

/-! ## Parameters -/

section

variable {request : Request} {path name value : Bytes} {query : Form.Fields}
  {fragment : Option Bytes}

theorem fromQuery_eq (hpath : Ascii.question ∉ path)
    (htarget : request.target = targetText path query fragment) :
    fromQuery request name = (query.lookup name).getD [] := by
  rw [fromQuery, htarget, query?_targetText hpath]
  simp only [Form.lookup_eq, Form.decodeFields_encodeFields]

theorem fromParameter_of_form (hform : PostsForm request)
    (hfield : (Form.decodeFields request.body).lookup name = some value) :
    fromParameter request name = value := by
  rw [fromParameter, if_pos (hasForm_iff.mpr hform), Form.lookup_eq, hfield]

theorem fromParameter_of_query
    (hform : PostsForm request → (Form.decodeFields request.body).lookup name = none) :
    fromParameter request name = fromQuery request name := by
  rw [fromParameter]
  split
  · next hposts => rw [Form.lookup_eq, hform (hasForm_iff.mp hposts)]
  · rfl

/-- **A parameter is found in the form that is posted, and else in the query.**  The first field
of the name counts in each, also when its value is empty.  The form is any list of fields that
the body is read as: the body may be the encoded list, or any other text for it. -/
theorem parameter_of_form_or_query (name : Bytes) (cookie : Option Bytes) {path : Bytes}
    (hpath : Ascii.question ∉ path) (query : Form.Fields) (fragment : Option Bytes)
    {request : Request} (htarget : request.target = targetText path query fragment) :
    (∀ form value, PostsForm request → Form.decodeFields request.body = form →
      form.lookup name = some value →
      extract request (some { queryParameter := some name, cookie }) = value) ∧
    ((∀ form, PostsForm request → Form.decodeFields request.body = form →
        form.lookup name = none) →
      extract request (some { queryParameter := some name, cookie }) =
        (query.lookup name).getD []) ∧
    ∀ form, Form.decodeFields (Form.encodeFields form) = form := by
  refine ⟨?_, ?_, Form.decodeFields_encodeFields⟩
  · rintro form value hposts rfl hfield
    exact fromParameter_of_form hposts hfield
  · intro hform
    have hnone : PostsForm request → (Form.decodeFields request.body).lookup name = none := by
      intro hposts
      exact hform _ hposts rfl
    exact (fromParameter_of_query hnone).trans (fromQuery_eq hpath htarget)

end

/-- A request that posts a field with an empty value and one more of its name. -/
def emptyFieldPost : Request where
  method := utf8 "PUT"
  target := targetText (utf8 "/a#b") [(utf8 "n", utf8 "q"), (utf8 "m", utf8 "r&s")]
    (some (utf8 "?n=z"))
  headers := [(utf8 "content-type", utf8 "application/x-www-form-urlencoded; charset=UTF-8"),
    (utf8 "Content-Type", utf8 "text/plain")]
  body := Form.encodeFields [(utf8 "n", []), (utf8 "n", utf8 "x")]

/-- The empty value of the form counts and not that of the query; a name that the form does not
have is found in the query. -/
theorem empty_field_counts :
    Ascii.question ∉ utf8 "/a#b" ∧ PostsForm emptyFieldPost ∧
    extract emptyFieldPost (some { queryParameter := some (utf8 "n") }) = [] ∧
    extract emptyFieldPost (some { queryParameter := some (utf8 "m") }) = utf8 "r&s" := by
  have hpath : Ascii.question ∉ utf8 "/a#b" := by decide
  have hposts : PostsForm emptyFieldPost := by decide
  have htarget : emptyFieldPost.target =
      targetText (utf8 "/a#b") [(utf8 "n", utf8 "q"), (utf8 "m", utf8 "r&s")]
        (some (utf8 "?n=z")) := rfl
  obtain ⟨hform, -, hread⟩ := parameter_of_form_or_query (utf8 "n") none hpath _ _ htarget
  obtain ⟨-, hquery, -⟩ := parameter_of_form_or_query (utf8 "m") none hpath _ _ htarget
  refine ⟨hpath, hposts, hform _ _ hposts (hread _) (by decide), ?_⟩
  refine (hquery ?_).trans (by decide)
  rintro form - rfl
  exact (congrArg (List.lookup (utf8 "m")) (hread _)).trans (by decide)

/-- A request that posts a field whose value has a star, which encoded fields never have. -/
def starredPost : Request where
  method := utf8 "POST"
  target := targetText (utf8 "/") [(utf8 "n", utf8 "q")] none
  headers := [(utf8 "Content-Type", formMediaType)]
  body := utf8 "n=a*b"

/-- A body that is no encoded list of fields is a form for all that, and comes before the
query. -/
theorem starred_field_counts :
    PostsForm starredPost ∧ (∀ form, starredPost.body ≠ Form.encodeFields form) ∧
    extract starredPost (some { queryParameter := some (utf8 "n") }) = utf8 "a*b" := by
  refine ⟨by decide, ?_, by decide⟩
  intro form hbody
  have hstar : '*'.toUInt8 ∈ Form.encodeFields form := hbody ▸ (by decide)
  exact absurd (Form.mem_encodeFields hstar) (by decide)

end Credential

end BearerAuth
