import BearerAuth.Credential
import BearerAuth.Proofs.Bytes
import Mathlib.Data.Set.List

/-!
# Tokens in cookies

A cookie header is made of pieces between semicolons.  A piece with an equals
sign is a cookie with blanks around it, and any other is none
(`cookiePair?_text`); so the cookies of a request are those that are written in
its headers, one header after the other (`flatMap_headerText`), and the first of a name
gives its value, without the quotes around it (`first_cookie_of_name`).  Every
header is made of such pieces, so no request is left out (`exists_headers`).
-/

namespace BearerAuth

namespace Credential

/-! ## Pieces -/

/-- A cookie that can be written: its name ends at the first equals sign and the cookie at the
first semicolon, and no blank stands where blanks are dropped. -/
structure Cookie where
  name : Bytes
  value : Bytes
  name_unequal : Ascii.equals ∉ name := by decide
  name_whole : Ascii.semicolon ∉ name := by decide
  name_begins : ∀ b ∈ name.head?, Bytes.isBlank b = false := by decide
  value_whole : Ascii.semicolon ∉ value := by decide
  value_ends : ∀ b ∈ value.getLast?, Bytes.isBlank b = false := by decide

def Cookie.text (cookie : Cookie) : Bytes := cookie.name ++ Ascii.equals :: cookie.value

def Cookie.pair (cookie : Cookie) : Bytes × Bytes := (cookie.name, cookie.value)

/-- What stands between two semicolons of a cookie header: a cookie with blanks around it, or
a text without an equals sign. -/
inductive Piece where
  | cookie (before : Bytes) (cookie : Cookie) (after : Bytes)
      (hbefore : ∀ b ∈ before, Bytes.isBlank b = true := by decide)
      (hafter : ∀ b ∈ after, Bytes.isBlank b = true := by decide)
  | other (text : Bytes) (hunequal : Ascii.equals ∉ text := by decide)
      (hwhole : Ascii.semicolon ∉ text := by decide)

namespace Piece

def text : Piece → Bytes
  | .cookie before pair after .. => before ++ pair.text ++ after
  | .other text .. => text

def cookie? : Piece → Option Cookie
  | .cookie _ pair .. => some pair
  | .other .. => none

end Piece

/-- The pieces of a header with semicolons between them. -/
def headerText (pieces : List Piece) : Bytes :=
  Bytes.join Ascii.semicolon (pieces.map Piece.text)

/-- The cookies of some headers, in order. -/
def written (headers : List (List Piece)) : List Cookie := headers.flatten.filterMap Piece.cookie?

/-! ## Reading pieces -/

section

variable {before after : Bytes}

theorem Cookie.surrounded (cookie : Cookie) (hbefore : ∀ b ∈ before, Bytes.isBlank b = true)
    (hafter : ∀ b ∈ after, Bytes.isBlank b = true) :
    Bytes.Surrounded before cookie.text after := by
  refine ⟨hbefore, ?_, ?_, hafter⟩
  · intro b hb
    rw [text, List.head?_append, List.head?_cons, Option.or_some] at hb
    obtain rfl := Option.some.inj hb
    cases hname : cookie.name.head? with
    | none => rfl
    | some first => exact cookie.name_begins first hname
  · intro b hb
    rw [text, List.getLast?_append, List.getLast?_cons] at hb
    obtain rfl := Option.some.inj hb
    cases hvalue : cookie.value.getLast? with
    | none => rfl
    | some last => exact cookie.value_ends last hvalue

theorem semicolon_not_mem_blanks (hblank : ∀ b ∈ before, Bytes.isBlank b = true) :
    Ascii.semicolon ∉ before := by
  intro hmem
  exact absurd (hblank _ hmem) (by decide)

theorem Piece.whole (piece : Piece) : Ascii.semicolon ∉ piece.text := by
  cases piece with
  | cookie before pair after hbefore hafter =>
      simp only [text, Cookie.text, List.mem_append, List.mem_cons, not_or]
      exact ⟨⟨semicolon_not_mem_blanks hbefore, pair.name_whole, by decide, pair.value_whole⟩,
        semicolon_not_mem_blanks hafter⟩
  | other text hunequal hwhole => exact hwhole

theorem cookiePair?_text (piece : Piece) :
    cookiePair? piece.text = piece.cookie?.map Cookie.pair := by
  cases piece with
  | cookie before pair after hbefore hafter =>
      rw [cookiePair?, Piece.text, Bytes.trim_surrounded (pair.surrounded hbefore hafter)]
      exact Bytes.cut_append _ pair.name_unequal
  | other text hunequal hwhole =>
      have htrim : Ascii.equals ∉ Bytes.trim text := by
        intro hmem
        exact hunequal (Bytes.trim_subset text hmem)
      exact Bytes.cut_of_not_mem htrim

theorem filterMap_headerText (pieces : List Piece) :
    (Bytes.split Ascii.semicolon (headerText pieces)).filterMap cookiePair? =
      (pieces.filterMap Piece.cookie?).map Cookie.pair := by
  cases pieces with
  | nil => rfl
  | cons piece pieces =>
      have hwhole : ∀ text ∈ (piece :: pieces).map Piece.text, Ascii.semicolon ∉ text := by
        intro text htext
        obtain ⟨other, -, rfl⟩ := List.mem_map.mp htext
        exact other.whole
      rw [headerText, Bytes.split_join (by simp) hwhole, List.filterMap_map, List.map_filterMap]
      exact congrArg (List.filterMap · (piece :: pieces)) (funext cookiePair?_text)

end

/-! ## Every header is written so -/

theorem exists_piece {text : Bytes} (h : Ascii.semicolon ∉ text) :
    ∃ piece : Piece, piece.text = text := by
  obtain ⟨before, after, hsurrounded, htext⟩ := Bytes.exists_surrounded text
  cases hcut : Bytes.cut Ascii.equals (Bytes.trim text) with
  | none =>
      have hunequal : Ascii.equals ∉ text := by
        intro hmem
        exact Bytes.not_mem_of_cut_eq_none hcut (Bytes.mem_trim hmem (by decide))
      exact ⟨.other text hunequal h, rfl⟩
  | some pair =>
      obtain ⟨hpair, hunequal⟩ := Bytes.cut_eq_some hcut
      have hwhole : Ascii.semicolon ∉ pair.1 ++ Ascii.equals :: pair.2 := by
        intro hmem
        exact h (Bytes.trim_subset text (hpair ▸ hmem))
      simp only [List.mem_append, List.mem_cons, not_or] at hwhole
      have hbegins : ∀ b ∈ pair.1.head?, Bytes.isBlank b = false := by
        intro b hb
        refine hsurrounded.begins b ?_
        rw [hpair, List.head?_append, Option.mem_def.mp hb]
        rfl
      have hends : ∀ b ∈ pair.2.getLast?, Bytes.isBlank b = false := by
        intro b hb
        refine hsurrounded.ends b ?_
        rw [hpair, List.getLast?_append, List.getLast?_cons, Option.mem_def.mp hb]
        rfl
      refine ⟨.cookie before ⟨pair.1, pair.2, hunequal, hwhole.1, hbegins, hwhole.2.2, hends⟩
        after hsurrounded.before hsurrounded.after, ?_⟩
      rw [Piece.text, Cookie.text, ← hpair, ← htext]

theorem exists_pieces (value : Bytes) : ∃ pieces, headerText pieces = value := by
  have hpieces : ∀ text ∈ Bytes.split Ascii.semicolon value, text ∈ Set.range Piece.text := by
    intro text htext
    exact exists_piece (Bytes.not_mem_of_mem_split htext)
  obtain ⟨pieces, hmap⟩ := (Set.range_list_map Piece.text).ge hpieces
  exact ⟨pieces, by rw [headerText, hmap, Bytes.join_split]⟩

theorem exists_headers (request : Request) :
    ∃ headers : List (List Piece),
      request.headers.values (utf8 "Cookie") = headers.map headerText := by
  obtain ⟨headers, hmap⟩ := (Set.range_list_map headerText).ge fun value _ => exists_pieces value
  exact ⟨headers, hmap.symm⟩

/-! ## Values -/

/-- A value stands in double quotes: they are two, one at either end. -/
structure Quoted (value : Bytes) : Prop where
  two_le : 2 ≤ value.length
  begins : value.head? = some Ascii.quote
  ends : value.getLast? = some Ascii.quote

theorem unquote_of_quoted {value : Bytes} (h : Quoted value) :
    unquote value = value.tail.dropLast := by
  obtain ⟨rest, rfl⟩ := List.head?_eq_some_iff.mp h.begins
  have hends : rest.getLast? = some Ascii.quote := by
    cases rest with
    | nil => exact absurd h.two_le (by decide)
    | cons b rest => exact h.ends
  exact if_pos hends

/-- One quote alone stays, at either end and in the place of the whole value. -/
theorem unquote_of_not_quoted {value : Bytes} (h : ¬ Quoted value) : unquote value = value := by
  unfold unquote
  split
  · next rest =>
      refine if_neg ?_
      intro hends
      cases rest with
      | nil => cases hends
      | cons b rest => exact h ⟨by simp, rfl, hends⟩
  · rfl

/-! ## Headers -/

theorem flatMap_headerText (headers : List (List Piece)) :
    (headers.map headerText).flatMap (fun value =>
        (Bytes.split Ascii.semicolon value).filterMap cookiePair?) =
      (written headers).map Cookie.pair := by
  induction headers with
  | nil => rfl
  | cons pieces headers ih =>
      rw [List.map_cons, List.flatMap_cons, ih, filterMap_headerText, written, written,
        List.flatten_cons, List.filterMap_append, List.map_append]

section

variable {request : Request} {all earlier later : List Cookie} {cookie : Cookie} {name : Bytes}

theorem find?_eq_none_of_name (h : ∀ cookie ∈ all, cookie.name ≠ name) :
    (all.map Cookie.pair).find? (fun pair => pair.1 == name) = none := by
  rw [List.find?_eq_none]
  intro pair hpair
  obtain ⟨cookie, hcookie, rfl⟩ := List.mem_map.mp hpair
  simpa [Cookie.pair] using h cookie hcookie

theorem fromCookie_of_first
    (h : cookies request = (earlier ++ cookie :: later).map Cookie.pair)
    (hearlier : ∀ other ∈ earlier, other.name ≠ name) (hname : cookie.name = name) :
    fromCookie request name = unquote cookie.value := by
  have hfirst : (cookie.pair.1 == name) = true := beq_iff_eq.mpr hname
  rw [fromCookie, h, List.map_append, List.find?_append, find?_eq_none_of_name hearlier,
    List.map_cons, List.find?_cons, hfirst]
  rfl

theorem fromCookie_of_none (h : cookies request = all.map Cookie.pair)
    (hnone : ∀ cookie ∈ all, cookie.name ≠ name) : fromCookie request name = [] := by
  rw [fromCookie, h, find?_eq_none_of_name hnone]

end

/-- **The first cookie of a name gives its value.**  It is the first in the order of the headers
and, in a header, of the pieces; its name is the given one exactly, and a pair of quotes around
its value is dropped. -/
theorem first_cookie_of_name (name : Bytes) {request : Request} {headers : List (List Piece)}
    (h : request.headers.values (utf8 "Cookie") = headers.map headerText) :
    (∀ earlier cookie later, written headers = earlier ++ cookie :: later →
      (∀ other ∈ earlier, other.name ≠ name) → cookie.name = name →
      (Quoted cookie.value →
        extract request (some { cookie := some name }) = cookie.value.tail.dropLast) ∧
      (¬ Quoted cookie.value →
        extract request (some { cookie := some name }) = cookie.value)) ∧
    ((∀ cookie ∈ written headers, cookie.name ≠ name) →
      extract request (some { cookie := some name }) = []) := by
  have hcookies : cookies request = (written headers).map Cookie.pair := by
    rw [cookies, h, flatMap_headerText]
  constructor
  · intro earlier cookie later hsplit hearlier hname
    rw [hsplit] at hcookies
    have hvalue := fromCookie_of_first hcookies hearlier hname
    constructor
    · intro hquoted
      exact hvalue.trans (unquote_of_quoted hquoted)
    · intro hbare
      exact hvalue.trans (unquote_of_not_quoted hbare)
  · intro hnone
    exact fromCookie_of_none hcookies hnone

/-- Two cookies of one name, the first of them quoted and with blanks around it, and one whose
value is a quote. -/
def sessionCookies : List (List Piece) :=
  [[.cookie [] { name := utf8 "a", value := utf8 "1" } [], .other (utf8 " flag"),
    .cookie [Ascii.tab] { name := utf8 "b", value := utf8 "\"x=1\"" } [Ascii.space], .other []],
   [.cookie [] { name := utf8 "b", value := utf8 "2" } [], .other [],
    .cookie [] { name := utf8 "c", value := [Ascii.quote] } []]]

def sessionRequest : Request where
  headers := [(utf8 "Cookie", utf8 "a=1; flag;\tb=\"x=1\" ;"), (utf8 "Host", utf8 "h"),
    (utf8 "COOKIE", utf8 "b=2;;c=\"")]

/-- Of the two cookies the first counts, without its quotes; a quote alone stays; and a piece
without an equals sign is no cookie. -/
theorem first_session_cookie :
    sessionRequest.headers.values (utf8 "Cookie") = sessionCookies.map headerText ∧
    extract sessionRequest (some { cookie := some (utf8 "b") }) = utf8 "x=1" ∧
    extract sessionRequest (some { cookie := some (utf8 "c") }) = utf8 "\"" ∧
    extract sessionRequest (some { cookie := some (utf8 "flag") }) = [] := by
  have hwritten : sessionRequest.headers.values (utf8 "Cookie") =
      sessionCookies.map headerText := by decide
  refine ⟨hwritten, ?_, ?_, ?_⟩
  · obtain ⟨hfirst, -⟩ := first_cookie_of_name (utf8 "b") hwritten
    exact (hfirst [{ name := utf8 "a", value := utf8 "1" }] _ _ rfl (by decide) rfl).1
      ⟨by decide, rfl, rfl⟩
  · obtain ⟨hfirst, -⟩ := first_cookie_of_name (utf8 "c") hwritten
    exact (hfirst [{ name := utf8 "a", value := utf8 "1" },
      { name := utf8 "b", value := utf8 "\"x=1\"" }, { name := utf8 "b", value := utf8 "2" }]
      _ _ rfl (by decide) rfl).2 fun hquoted => absurd hquoted.two_le (by decide)
  · obtain ⟨-, hnone⟩ := first_cookie_of_name (utf8 "flag") hwritten
    exact hnone (by decide)

end Credential

end BearerAuth
