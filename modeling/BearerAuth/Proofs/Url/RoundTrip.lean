import BearerAuth.Proofs.Url.Print

/-!
# Which URLs are read back from their texts

Printing puts brackets around a host with a colon and around no other.  A host
with a bracket of its own may not be found again:
`HostDelimited` says which hosts are, and `print_reads_back` that
the URL is then read back as it was, and refused otherwise.
-/

namespace BearerAuth

namespace Url

/-! ## Delimited hosts -/

/-- The printed host ends where the host ends: inside brackets there is no
closing one, and outside of them the host does not begin with an opening one. -/
def HostDelimited (host : Bytes) : Prop :=
  if Ascii.colon ∈ host then Ascii.closeBracket ∉ host else host.head? ≠ some Ascii.openBracket

theorem hostDelimited_of_not_mem {host : Bytes} (hopen : Ascii.openBracket ∉ host)
    (hclose : Ascii.closeBracket ∉ host) : HostDelimited host := by
  rw [HostDelimited]
  split
  · exact hclose
  · exact fun hhead => hopen (List.mem_of_mem_head? hhead)

/-! ## Reading an authority -/

/-- A host that was read begins with an opening bracket only when it stood in
brackets, and then has no closing one. -/
theorem not_mem_of_splitAuthority {authority host port : Bytes}
    (h : splitAuthority authority = .ok (host, port))
    (hhead : host.head? = some Ascii.openBracket) : Ascii.closeBracket ∉ host := by
  cases splitAuthority_eq_ok_iff.mp h with
  | name hother => exact absurd hhead hother
  | namePort hother => exact absurd (by rw [List.head?_append, hhead]; rfl) hother
  | literal hclose => exact hclose
  | literalPort _ hclose => exact hclose

/-! ## Reading a printed authority -/

/-- What is printed behind a host, and the port text in it. -/
inductive PortPart : Bytes → Bytes → Prop
  | absent : PortPart [] []
  | present {text : Bytes} (h : ∀ b ∈ text, Bytes.isDigit b = true) :
      PortPart (Ascii.colon :: text) text

theorem PortPart.not_mem {part port : Bytes} (h : PortPart part port) {b : UInt8}
    (hdigit : Bytes.isDigit b = false) (hcolon : b ≠ Ascii.colon) : b ∉ part := by
  cases h with
  | absent => exact List.not_mem_nil
  | present hport =>
      intro hb
      rcases List.mem_cons.mp hb with hb | hb
      · exact hcolon hb
      · exact absurd (hport b hb) (by simp [hdigit])

theorem spells_bracketed {host part port : Bytes} (hhost : Ascii.closeBracket ∉ host)
    (hpart : PortPart part port) :
    Spells (Ascii.openBracket :: (host ++ Ascii.closeBracket :: part)) host port := by
  cases hpart with
  | absent => exact .literal hhost
  | present => exact .literalPort _ hhost

theorem spells_plain {host part port : Bytes} (hcolon : Ascii.colon ∉ host)
    (hhead : host.head? ≠ some Ascii.openBracket) (hne : host ≠ [])
    (hpart : PortPart part port) : Spells (host ++ part) host port := by
  cases hpart with
  | absent =>
      rw [List.append_nil]
      exact .name hhead hcolon
  | present hport =>
      obtain ⟨b, rest, rfl⟩ := List.exists_cons_of_ne_nil hne
      exact .namePort hhead fun hmem => absurd (hport _ hmem) (by decide)

theorem splitAuthority_of_delimited {host part port : Bytes} (h : HostDelimited host)
    (hne : host ≠ []) (hpart : PortPart part port) :
    splitAuthority (bracketedHost host ++ part) = .ok (host, port) := by
  rw [HostDelimited] at h
  rw [splitAuthority_eq_ok_iff, bracketedHost]
  by_cases hcolon : Ascii.colon ∈ host
  · rw [if_pos hcolon] at h ⊢
    rw [List.cons_append, List.append_assoc]
    exact spells_bracketed h hpart
  · rw [if_neg hcolon] at h ⊢
    exact spells_plain hcolon h hne hpart

/-- From a host that is not delimited only a port with a bracket in it is read. -/
theorem mem_port_of_not_delimited {host part port host' port' : Bytes} (h : ¬ HostDelimited host)
    (hhost : host.head? = some Ascii.openBracket → Ascii.closeBracket ∉ host)
    (hpart : PortPart part port)
    (hsplit : splitAuthority (bracketedHost host ++ part) = .ok (host', port')) :
    Ascii.closeBracket ∈ port' := by
  rw [HostDelimited] at h
  rw [bracketedHost] at hsplit
  by_cases hcolon : Ascii.colon ∈ host
  · -- The bracket inside closes the host, the one behind it falls into the port.
    rw [if_pos hcolon] at h hsplit
    obtain ⟨before, after, hparts, hbefore⟩ :=
      List.eq_append_cons_of_mem (Decidable.not_not.mp h)
    rw [hparts] at hsplit
    simp only [List.cons_append, List.append_assoc] at hsplit
    rw [splitAuthority_openBracket, Bytes.cut_append _ hbefore] at hsplit
    cases after with
    | nil => cases hsplit
    | cons b after =>
        simp only [List.cons_append] at hsplit
        split at hsplit
        · obtain ⟨-, rfl⟩ := Prod.mk.inj (Except.ok.inj hsplit)
          simp
        · cases hsplit
  · -- The host begins with a bracket that nothing closes.
    rw [if_neg hcolon] at h hsplit
    have hhead := Decidable.not_not.mp h
    obtain ⟨inside, rfl⟩ := List.head?_eq_some_iff.mp hhead
    have hinside : Ascii.closeBracket ∉ inside ++ part := by
      intro hmem
      rcases List.mem_append.mp hmem with hmem | hmem
      · exact hhost hhead (List.mem_cons_of_mem _ hmem)
      · exact hpart.not_mem rfl (by decide) hmem
    rw [List.cons_append, splitAuthority_openBracket, Bytes.cut_of_not_mem hinside] at hsplit
    cases hsplit

/-! ## The port -/

theorem resolvePort_ofNat {scheme : Bytes} {n : Nat} (hlow : 1 ≤ n) (hhigh : n ≤ 65535) :
    resolvePort scheme (Bytes.ofNat n) = .ok (Bytes.ofNat n) := by
  have hvalue := Bytes.digitsValue_ofNat n
  have hport : NamesPort scheme (Bytes.ofNat n) (Bytes.ofNat (Bytes.digitsValue (Bytes.ofNat n))) :=
    .number (Bytes.ofNat_ne_nil n) (fun b hb => Bytes.isDigit_of_mem_ofNat hb)
      (by rwa [hvalue]) (by rwa [hvalue])
  rw [hvalue] at hport
  exact resolvePort_eq_ok_iff.mpr hport

theorem exists_portPart {url : Url} (h : url.WellFormed) :
    ∃ part port, url.authority = bracketedHost url.host ++ part ∧ PortPart part port ∧
      resolvePort url.scheme port = .ok url.port := by
  obtain ⟨n, hlow, hhigh, hport⟩ := h.port
  rw [authority]
  by_cases hdefault : url.port = defaultPort url.scheme
  · refine ⟨[], [], ?_, .absent, ?_⟩
    · simp [hdefault]
    · rw [hdefault]
      rfl
  · refine ⟨Ascii.colon :: url.port, url.port, ?_, .present ?_, ?_⟩
    · simp [hdefault]
    · rw [hport]
      exact fun b hb => Bytes.isDigit_of_mem_ofNat hb
    · rw [hport]
      exact resolvePort_ofNat hlow hhigh

/-! ## Reading a printed URL -/

theorem readScheme_print {url : Url} (h : url.WellFormed) :
    readScheme url.print = .ok (url.scheme, url.authority ++ url.target) := by
  rw [print, List.append_assoc _ url.authority]
  exact readScheme_append _ h.scheme

theorem endsAuthority_target {url : Url} (h : url.WellFormed) :
    ∀ b ∈ url.target.head?, endsAuthority b = true := by
  obtain ⟨rest, htarget⟩ := h.target
  intro b hb
  rw [htarget] at hb
  obtain rfl := Option.some.inj hb
  rfl

theorem reading_print {text : Bytes} {url : Url} (h : parse text = .ok url)
    (hhost : HostDelimited url.host) : Reading url.print url.authority url.target url := by
  have hurl := wellFormed_of_parse h
  obtain ⟨authority, behind, hread⟩ := exists_reading h
  obtain ⟨part, port, hauthority, hpart, hport⟩ := exists_portPart hurl
  refine ⟨readScheme_print hurl, fun b => isPlain_of_mem_authority hurl,
    endsAuthority_target hurl, ⟨port, ?_, hport⟩, hurl.host_ne_nil, ?_⟩
  · rw [hauthority]
    exact splitAuthority_of_delimited hhost hurl.host_ne_nil hpart
  · rw [hread.target, resolveTarget_resolveTarget]

/-- The text of a URL whose host is not delimited has no reading. -/
theorem not_parse_print {text : Bytes} {url url' : Url} (h : parse text = .ok url)
    (hhost : ¬ HostDelimited url.host) : parse url.print ≠ .ok url' := by
  intro h'
  have hurl := wellFormed_of_parse h
  obtain ⟨_, _, hread⟩ := exists_reading h
  obtain ⟨_, hsplit, -⟩ := hread.host_and_port
  obtain ⟨authority, behind, hread'⟩ := exists_reading h'
  obtain ⟨port', hsplit', hport'⟩ := hread'.host_and_port
  obtain ⟨part, port, hauthority, hpart, -⟩ := exists_portPart hurl
  obtain ⟨-, rfl⟩ := hread'.authority_eq (readScheme_print hurl)
    (fun b => isPlain_of_mem_authority hurl) (endsAuthority_target hurl)
  rw [hauthority] at hsplit'
  have hmem := mem_port_of_not_delimited hhost (not_mem_of_splitAuthority hsplit) hpart hsplit'
  exact absurd ((resolvePort_eq_ok_iff.mp hport').isDigit hmem) (by decide)

/-- A URL that was read from a text is read back from its own text exactly when
its host is delimited there; otherwise its text is refused. -/
theorem print_reads_back {text : Bytes} {url : Url} (h : parse text = .ok url) :
    (HostDelimited url.host → parse url.print = .ok url) ∧
      (¬ HostDelimited url.host → ∃ fault, parse url.print = .error fault) := by
  constructor
  · intro hhost
    exact (reading_print h hhost).parse_eq
  · intro hhost
    cases hparse : parse url.print with
    | error fault => exact ⟨fault, rfl⟩
    | ok url' => exact absurd hparse (not_parse_print h hhost)

/-- An address with colons, a port, a query and a fragment. -/
theorem literal_reads_back :
    parse (utf8 "HTTP://[::1]:09000/i?x=1#f") =
        .ok ⟨utf8 "http", utf8 "::1", utf8 "9000", utf8 "/i?x=1"⟩ ∧
      parse (print ⟨utf8 "http", utf8 "::1", utf8 "9000", utf8 "/i?x=1"⟩) =
        .ok ⟨utf8 "http", utf8 "::1", utf8 "9000", utf8 "/i?x=1"⟩ := by
  have hread : parse (utf8 "HTTP://[::1]:09000/i?x=1#f") =
      .ok ⟨utf8 "http", utf8 "::1", utf8 "9000", utf8 "/i?x=1"⟩ := rfl
  exact ⟨hread, (print_reads_back hread).1 (hostDelimited_of_not_mem (by decide) (by decide))⟩

/-- The bracket that a host in brackets begins with is not put in brackets again. -/
theorem bracket_in_host_lost :
    parse (utf8 "http://[[a]/") = .ok ⟨utf8 "http", utf8 "[a", utf8 "80", utf8 "/"⟩ ∧
      print ⟨utf8 "http", utf8 "[a", utf8 "80", utf8 "/"⟩ = utf8 "http://[a/" ∧
      parse (utf8 "http://[a/") = .error .unterminatedLiteral := by
  exact ⟨rfl, rfl, rfl⟩

end Url

end BearerAuth
