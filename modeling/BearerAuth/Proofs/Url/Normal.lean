import BearerAuth.Proofs.Url.Print
import Mathlib.Tactic.Tauto

/-!
# Normal forms of URLs

A text is laid out in one way (`Layout.unique`), and accepted just when a URL
in normal form is written in it (`parse_iff_written`).  The number of the port
may be written with any number of digits; what names no port is refused
(`parse_of_not_port`).  A fragment makes no difference
(`parse_append_fragment_iff`), nor does the case of the scheme.
-/

namespace BearerAuth

namespace Url

/-! ## Fragments -/

theorem resolveTarget_append (text fragment : Bytes) :
    resolveTarget (text ++ Ascii.hash :: fragment) = resolveTarget text := by
  rw [resolveTarget, resolveTarget, Bytes.takeWhile_append_of_stop (by simp)]

/-- A fragment behind an absolute text makes no difference. -/
theorem parse_append_fragment {text name rest : Bytes} (h : Begins text name rest)
    (fragment : Bytes) : parse (text ++ Ascii.hash :: fragment) = parse text := by
  have hauthority : ((rest ++ Ascii.hash :: fragment).takeWhile fun b => !endsAuthority b) =
      rest.takeWhile fun b => !endsAuthority b :=
    Bytes.takeWhile_append_of_stop (by simp [endsAuthority])
  have hlength : (rest.takeWhile fun b => !endsAuthority b).length ≤ rest.length :=
    (List.takeWhile_prefix _).length_le
  rw [parse, parse, readScheme_of_begins (h.append _), readScheme_of_begins h]
  cases schemeOf name with
  | error fault => rfl
  | ok scheme =>
      simp only [Except.map, bind, Except.bind]
      rw [hauthority, List.drop_append_of_le_length hlength, resolveTarget_append]

/-- A text that is accepted with a fragment has its `://` in front of it. -/
theorem exists_begins_of_parse {text fragment : Bytes} {url : Url}
    (h : parse (text ++ Ascii.hash :: fragment) = .ok url) :
    ∃ name rest, Begins text name rest := by
  obtain ⟨authority, behind, hread⟩ := exists_reading h
  obtain ⟨hscheme, name, hname, htext⟩ := readScheme_eq_ok hread.scheme
  have hnot : Ascii.hash ∉ name ++ utf8 "://" := by
    intro hmem
    rcases List.mem_append.mp hmem with hmem | hmem
    · have hlower : Bytes.lower Ascii.hash ∈ url.scheme := hname ▸ List.mem_map_of_mem hmem
      rcases hscheme with heq | heq <;> rw [heq] at hlower <;> exact absurd hlower (by decide)
    · exact absurd hmem (by decide)
  obtain ⟨after, hafter⟩ : name ++ utf8 "://" <+: text := by
    rcases List.append_eq_append_iff.mp htext with
      ⟨inside, hinside, hfragment⟩ | ⟨inside, hinside, -⟩
    · cases inside with
      | nil => exact ⟨[], by simpa using hinside⟩
      | cons b inside =>
          obtain rfl : Ascii.hash = b := (List.cons.inj hfragment).1
          exact absurd (hinside ▸ by simp) hnot
    · exact ⟨inside, hinside.symm⟩
  exact exists_begins hafter.symm

theorem parse_append_fragment_iff {text fragment : Bytes} {url : Url} :
    parse (text ++ Ascii.hash :: fragment) = .ok url ↔ parse text = .ok url := by
  constructor
  · intro h
    obtain ⟨name, rest, hbegins⟩ := exists_begins_of_parse h
    rwa [parse_append_fragment hbegins] at h
  · intro h
    obtain ⟨authority, behind, hread⟩ := exists_reading h
    obtain ⟨-, name, -, htext⟩ := readScheme_eq_ok hread.scheme
    obtain ⟨name, rest, hbegins⟩ := exists_begins htext
    rwa [parse_append_fragment hbegins]

/-! ## Layouts -/

/-- A text is a name, `://`, an authority and what stands behind it.  The
separator is the first one, and the authority ends at the first slash, question
mark or hash. -/
structure Layout (text name authority behind : Bytes) : Prop where
  begins : Begins text name (authority ++ behind)
  authority : ∀ b ∈ authority, endsAuthority b = false
  behind : ∀ b ∈ behind.head?, endsAuthority b = true

theorem Layout.unique {text name authority behind name' authority' behind' : Bytes}
    (h : Layout text name authority behind) (h' : Layout text name' authority' behind') :
    name = name' ∧ authority = authority' ∧ behind = behind' := by
  have hcut := cutScheme_eq_some_iff.mpr h.begins
  rw [cutScheme_eq_some_iff.mpr h'.begins] at hcut
  obtain ⟨rfl, hrest⟩ := Prod.mk.inj (Option.some.inj hcut)
  have hauthority : authority = authority' := by
    rw [← takeWhile_authority h.authority h.behind, ← hrest,
      takeWhile_authority h'.authority h'.behind]
  subst hauthority
  exact ⟨rfl, rfl, (List.append_cancel_left hrest).symm⟩

/-- The parts of a URL, where they are written in a text. -/
structure Written (text : Bytes) (url : Url) (name authority behind port : Bytes) : Prop where
  layout : Layout text name authority behind
  scheme : url.scheme = Bytes.toLower name
  spells : Spells authority url.host port
  port : NamesPort url.scheme port url.port
  target : url.target = resolveTarget behind

/-! ## Normal forms -/

/-- The bytes that no host has. -/
def noHost : Bytes := utf8 "/?#@ \t\r\n"

theorem isPlain_iff {b : UInt8} : isPlain b = true ↔ b ∉ noHost := by
  have hbytes : noHost = [Ascii.slash, Ascii.question, Ascii.hash, Ascii.atSign, Ascii.space,
    Ascii.tab, Ascii.carriageReturn, Ascii.lineFeed] := by decide
  simp only [hbytes, isPlain, endsAuthority, isGap, Bool.and_eq_true, Bool.not_eq_true',
    Bool.or_eq_false_iff, beq_eq_false_iff_ne, bne_iff_ne, List.mem_cons, List.not_mem_nil,
    or_false, not_or]
  tauto

/-- What a URL is that was read from a text. -/
structure Normal (url : Url) : Prop where
  scheme : url.scheme = utf8 "http" ∨ url.scheme = utf8 "https"
  host_ne_nil : url.host ≠ []
  host : ∀ b ∈ noHost, b ∉ url.host
  port_digits : ∀ b ∈ url.port, Bytes.isDigit b = true
  port_begins : url.port.head? ≠ some Ascii.zero
  port_low : 1 ≤ Bytes.digitsValue url.port
  port_high : Bytes.digitsValue url.port ≤ 65535
  target_begins : url.target.head? = some Ascii.slash
  target : Ascii.hash ∉ url.target

theorem Reading.normal {text authority behind : Bytes} {url : Url}
    (h : Reading text authority behind url) : url.Normal := by
  have hurl := wellFormed_of_parse h.parse_eq
  obtain ⟨n, hlow, hhigh, hport⟩ := hurl.port
  obtain ⟨rest, htarget⟩ := hurl.target
  refine ⟨hurl.scheme, hurl.host_ne_nil, ?_, ?_, ?_, ?_, ?_, ?_, ?_⟩
  · exact fun b hb hmem => isPlain_iff.mp (hurl.host_plain b hmem) hb
  · rw [hport]
    exact fun b hb => Bytes.isDigit_of_mem_ofNat hb
  · rw [hport]
    exact Bytes.head?_ofNat hlow
  · rwa [hport, Bytes.digitsValue_ofNat]
  · rwa [hport, Bytes.digitsValue_ofNat]
  · rw [htarget]
    rfl
  · rw [h.target]
    exact hash_not_mem_resolveTarget behind

theorem Reading.written {text authority behind : Bytes} {url : Url}
    (h : Reading text authority behind url) :
    ∃ name port, Written text url name authority behind port := by
  obtain ⟨name, hbegins, hscheme, -⟩ := readScheme_eq_ok_iff.mp h.scheme
  obtain ⟨port, hsplit, hport⟩ := h.host_and_port
  exact ⟨name, port, ⟨hbegins, h.ends_not, h.ends⟩,
    hscheme, splitAuthority_eq_ok_iff.mp hsplit, resolvePort_eq_ok_iff.mp hport, h.target⟩

theorem Written.reading {text name authority behind port : Bytes} {url : Url}
    (h : Written text url name authority behind port) (hurl : url.Normal) :
    Reading text authority behind url := by
  refine ⟨readScheme_eq_ok_iff.mpr ⟨name, h.layout.begins, h.scheme, hurl.scheme⟩, ?_,
    h.layout.behind,
    ⟨port, splitAuthority_eq_ok_iff.mpr h.spells, resolvePort_eq_ok_iff.mpr h.port⟩,
    hurl.host_ne_nil, h.target⟩
  intro b hb
  rcases h.spells.mem hb with hb | hb | hb
  · exact isPlain_iff.mpr fun hmem => hurl.host b hmem hb
  · exact isPlain_of_isDigit (h.port.isDigit hb)
  · simp only [List.mem_cons, List.not_mem_nil, or_false] at hb
    rcases hb with rfl | rfl | rfl <;> rfl

theorem parse_iff_written {text : Bytes} {url : Url} :
    parse text = .ok url ↔
      url.Normal ∧ ∃ name authority behind port, Written text url name authority behind port := by
  rw [parse_iff_reading]
  constructor
  · rintro ⟨authority, behind, hread⟩
    obtain ⟨name, port, hwritten⟩ := hread.written
    exact ⟨hread.normal, name, authority, behind, port, hwritten⟩
  · rintro ⟨hurl, name, authority, behind, port, hwritten⟩
    exact ⟨authority, behind, hwritten.reading hurl⟩

/-- A port text that names no port is refused, wherever it is written. -/
theorem parse_of_not_port {text name authority behind host port : Bytes}
    (hlayout : Layout text name authority behind) (hspells : Spells authority host port)
    (hport : ∀ scheme n, ¬ NamesPort scheme port n) : ∃ fault, parse text = .error fault := by
  cases hparse : parse text with
  | error fault => exact ⟨fault, rfl⟩
  | ok url =>
      obtain ⟨-, name', authority', behind', port', hwritten⟩ := parse_iff_written.mp hparse
      obtain ⟨-, rfl, -⟩ := hlayout.unique hwritten.layout
      have hsplit := splitAuthority_eq_ok_iff.mpr hspells
      rw [splitAuthority_eq_ok_iff.mpr hwritten.spells] at hsplit
      obtain ⟨-, rfl⟩ := Prod.mk.inj (Except.ok.inj hsplit)
      exact absurd hwritten.port (hport _ _)

/-- What is accepted is in normal form, with the port that its text names, and
what names no port is refused.  Neither another case of the scheme nor a
fragment makes a difference; for a fragment behind a text without `://` that is
said of acceptance only, since the separator may then stand in the fragment and
the text is refused for its scheme. -/
theorem texts_are_normalized :
    (∀ text url, parse text = .ok url ↔
      url.Normal ∧ ∃ name authority behind port, Written text url name authority behind port) ∧
    (∀ text name authority behind host port, Layout text name authority behind →
      Spells authority host port → port ≠ [] →
      (∃ b ∈ port, Bytes.isDigit b = false) ∨ Bytes.digitsValue port = 0 ∨
        65535 < Bytes.digitsValue port →
      ∃ fault, parse text = .error fault) ∧
    (∀ text name name' rest, Begins text name rest →
      Bytes.toLower name' = Bytes.toLower name →
      parse (name' ++ utf8 "://" ++ rest) = parse text) ∧
    ∀ text fragment,
      (∀ url, parse (text ++ Ascii.hash :: fragment) = .ok url ↔ parse text = .ok url) ∧
      (utf8 "://" <:+: text → parse (text ++ Ascii.hash :: fragment) = parse text) := by
  refine ⟨fun _ _ => parse_iff_written, ?_, fun _ _ _ _ => parse_change_case, ?_⟩
  · intro text name authority behind host port hlayout hspells hne hbad
    refine parse_of_not_port hlayout hspells ?_
    intro scheme n hport
    cases hport with
    | implied => exact hne rfl
    | number _ hdigits hlow hhigh =>
        rcases hbad with ⟨b, hb, hdigit⟩ | hzero | hlarge
        · simp [hdigits b hb] at hdigit
        · omega
        · omega
  · intro text fragment
    refine ⟨fun _ => parse_append_fragment_iff, ?_⟩
    rintro ⟨before, after, htext⟩
    obtain ⟨name, rest, hbegins⟩ := exists_begins htext.symm
    exact parse_append_fragment hbegins fragment

/-- An address with zeros in front of its port, a port text that a register of
64 bits would take for 80, another case of a scheme, and a fragment that looks
like a URL. -/
theorem awkward_texts_normalized :
    parse (utf8 "HTTPS://[fe80::1]:000443?x#y") =
        .ok ⟨utf8 "https", utf8 "fe80::1", utf8 "443", utf8 "/?x"⟩ ∧
      Normal ⟨utf8 "https", utf8 "fe80::1", utf8 "443", utf8 "/?x"⟩ ∧
    Layout (utf8 "http://h:18446744073709551696/") (utf8 "http")
        (utf8 "h:18446744073709551696") (utf8 "/") ∧
      Spells (utf8 "h:18446744073709551696") (utf8 "h") (utf8 "18446744073709551696") ∧
      (∃ fault, parse (utf8 "http://h:18446744073709551696/") = .error fault) ∧
    Begins (utf8 "http://h/") (utf8 "http") (utf8 "h/") ∧
      parse (utf8 "hTTp" ++ utf8 "://" ++ utf8 "h/") = parse (utf8 "http://h/") ∧
    utf8 "://" <:+: utf8 "http://h" ∧
      parse (utf8 "http://h" ++ Ascii.hash :: utf8 "http://i") = parse (utf8 "http://h") := by
  obtain ⟨hnormal, hport, hcase, hfragment⟩ := texts_are_normalized
  have hread : parse (utf8 "HTTPS://[fe80::1]:000443?x#y") =
      .ok ⟨utf8 "https", utf8 "fe80::1", utf8 "443", utf8 "/?x"⟩ := rfl
  have hlayout : Layout (utf8 "http://h:18446744073709551696/") (utf8 "http")
      (utf8 "h:18446744073709551696") (utf8 "/") :=
    ⟨cutScheme_eq_some_iff.mp rfl,
      fun b hb => Bool.eq_false_iff.mpr (List.any_eq_false.mp rfl b hb),
      fun b hb => Option.some.inj hb ▸ rfl⟩
  have hspells : Spells (utf8 "h:18446744073709551696") (utf8 "h") (utf8 "18446744073709551696") :=
    splitAuthority_eq_ok_iff.mp rfl
  have hbegins : Begins (utf8 "http://h/") (utf8 "http") (utf8 "h/") :=
    cutScheme_eq_some_iff.mp rfl
  have hsep : utf8 "://" <:+: utf8 "http://h" := ⟨utf8 "http", utf8 "h", rfl⟩
  exact ⟨hread, ((hnormal _ _).mp hread).1, hlayout, hspells,
    hport _ _ _ _ _ _ hlayout hspells (by decide) (.inr (.inr (by decide))), hbegins,
    hcase _ _ (utf8 "hTTp") _ hbegins (by decide), hsep, (hfragment _ _).2 hsep⟩

end Url

end BearerAuth
