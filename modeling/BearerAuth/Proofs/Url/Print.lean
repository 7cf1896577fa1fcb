import BearerAuth.Proofs.Url.Reading

/-!
# What is read as a URL, and how it is printed

`WellFormed` lists what every URL has that was read from a text
(`wellFormed_of_parse`).  On such URLs printing loses nothing
(`print_injective`): the authority ends at the first slash of the target, and a
host with a colon is in brackets, so that the last colon outside of them is the
one before the port.
-/

namespace BearerAuth

namespace Url

/-- What holds of every URL that was read from a text. -/
structure WellFormed (url : Url) : Prop where
  scheme : url.scheme = utf8 "http" ∨ url.scheme = utf8 "https"
  host_ne_nil : url.host ≠ []
  host_plain : ∀ b ∈ url.host, isPlain b = true
  port : ∃ n, 1 ≤ n ∧ n ≤ 65535 ∧ url.port = Bytes.ofNat n
  target : ∃ rest, url.target = Ascii.slash :: rest

theorem wellFormed_of_parse {text : Bytes} {url : Url} (h : parse text = .ok url) :
    url.WellFormed := by
  obtain ⟨authority, behind, hread⟩ := exists_reading h
  obtain ⟨port, hsplit, hport⟩ := hread.host_and_port
  refine ⟨(readScheme_eq_ok hread.scheme).1, hread.host_ne_nil, ?_, resolvePort_eq_ok hport, ?_⟩
  · intro b hb
    exact hread.plain b (mem_of_splitAuthority hsplit hb)
  · rw [hread.target]
    exact resolveTarget_eq behind

/-! ## Printing -/

theorem bracketedHost_injective {host host' : Bytes}
    (h : bracketedHost host = bracketedHost host') : host = host' := by
  simp only [bracketedHost] at h
  by_cases hc : Ascii.colon ∈ host <;> by_cases hc' : Ascii.colon ∈ host'
  · simpa [hc, hc'] using h
  · simp only [hc, hc', if_true, if_false] at h
    exact absurd (h ▸ by simp [hc]) hc'
  · simp only [hc, hc', if_true, if_false] at h
    exact absurd (h ▸ by simp [hc']) hc
  · simpa [hc, hc'] using h

theorem getLast?_bracketedHost {host : Bytes} (h : Ascii.colon ∈ bracketedHost host) :
    (bracketedHost host).getLast? = some Ascii.closeBracket := by
  rw [bracketedHost] at h ⊢
  by_cases hc : Ascii.colon ∈ host
  · simp only [hc, if_true]
    rw [← List.cons_append, List.getLast?_concat]
  · simp [hc] at h

/-- A printed host is never a printed host with a port. -/
theorem bracketedHost_ne_append {host host' : Bytes} {n : Nat} :
    bracketedHost host ≠ bracketedHost host' ++ Ascii.colon :: Bytes.ofNat n := by
  intro h
  have hlast := getLast?_bracketedHost (h ▸ by simp : Ascii.colon ∈ bracketedHost host)
  rw [h, List.getLast?_append, List.getLast?_cons] at hlast
  obtain ⟨b, hb⟩ : ∃ b, (Bytes.ofNat n).getLast? = some b :=
    Option.isSome_iff_exists.mp (by simp [List.getLast?_isSome, Bytes.ofNat_ne_nil])
  rw [hb] at hlast
  obtain rfl : b = Ascii.closeBracket := by simpa using hlast
  exact Bytes.not_mem_ofNat rfl (List.mem_of_getLast? hb)

theorem authority_injective {url url' : Url} (hurl : url.WellFormed) (hurl' : url'.WellFormed)
    (hscheme : url.scheme = url'.scheme) (h : url.authority = url'.authority) :
    url.host = url'.host ∧ url.port = url'.port := by
  obtain ⟨n, -, -, hport⟩ := hurl.port
  obtain ⟨n', -, -, hport'⟩ := hurl'.port
  simp only [authority] at h
  simp only [hscheme, hport, hport'] at h ⊢
  by_cases hd : Bytes.ofNat n = defaultPort url'.scheme <;>
    by_cases hd' : Bytes.ofNat n' = defaultPort url'.scheme
  · simp only [hd, hd', if_true] at h
    exact ⟨bracketedHost_injective h, hd.trans hd'.symm⟩
  · simp only [hd, hd', if_true, if_false] at h
    exact absurd h bracketedHost_ne_append
  · simp only [hd, hd', if_true, if_false] at h
    exact absurd h.symm bracketedHost_ne_append
  · simp only [hd, hd', if_false] at h
    have hrev := congrArg List.reverse h
    simp only [List.reverse_append, List.reverse_cons, List.append_assoc,
      List.cons_append, List.nil_append] at hrev
    have hdigits (m : Nat) : Ascii.colon ∉ (Bytes.ofNat m).reverse := by
      simpa using Bytes.not_mem_ofNat rfl
    obtain ⟨hports, hhosts⟩ := Bytes.append_sep_inj (hdigits n) (hdigits n') hrev
    exact ⟨bracketedHost_injective (List.reverse_inj.mp hhosts), List.reverse_inj.mp hports⟩

theorem isPlain_of_isDigit {b : UInt8} (h : Bytes.isDigit b = true) : isPlain b = true := by
  cases hplain : isPlain b with
  | true => rfl
  | false =>
      simp only [isPlain, endsAuthority, isGap, Bool.and_eq_false_iff, Bool.not_eq_false',
        Bool.or_eq_true, beq_iff_eq, bne_eq_false_iff_eq] at hplain
      rcases hplain with (((rfl | rfl) | rfl) | (((rfl | rfl) | rfl) | rfl)) | rfl <;> cases h

theorem isPlain_of_mem_bracketedHost {url : Url} (h : url.WellFormed) {b : UInt8}
    (hb : b ∈ bracketedHost url.host) : isPlain b = true := by
  rw [bracketedHost] at hb
  split at hb
  · rcases List.mem_cons.mp hb with rfl | hb
    · rfl
    · rcases List.mem_append.mp hb with hb | hb
      · exact h.host_plain b hb
      · obtain rfl := List.mem_singleton.mp hb
        rfl
  · exact h.host_plain b hb

theorem isPlain_of_mem_authority {url : Url} (h : url.WellFormed) {b : UInt8}
    (hb : b ∈ url.authority) : isPlain b = true := by
  obtain ⟨n, -, -, hport⟩ := h.port
  simp only [authority, hport] at hb
  split at hb
  · exact isPlain_of_mem_bracketedHost h hb
  · rcases List.mem_append.mp hb with hb | hb
    · exact isPlain_of_mem_bracketedHost h hb
    · rcases List.mem_cons.mp hb with rfl | hb
      · rfl
      · exact isPlain_of_isDigit (Bytes.isDigit_of_mem_ofNat hb)

theorem slash_not_mem_authority {url : Url} (h : url.WellFormed) :
    Ascii.slash ∉ url.authority := fun hmem =>
  absurd (isPlain_of_mem_authority h hmem) (by decide)

theorem scheme_append_injective {s s' t t' : Bytes} (hs : s = utf8 "http" ∨ s = utf8 "https")
    (hs' : s' = utf8 "http" ∨ s' = utf8 "https")
    (h : s ++ utf8 "://" ++ t = s' ++ utf8 "://" ++ t') : s = s' ∧ t = t' := by
  have hcolon {s : Bytes} (hs : s = utf8 "http" ∨ s = utf8 "https") : Ascii.colon ∉ s := by
    rcases hs with rfl | rfl <;> decide
  have hsep : utf8 "://" = Ascii.colon :: utf8 "//" := by decide
  simp only [hsep, List.append_assoc, List.cons_append] at h
  obtain ⟨hscheme, hrest⟩ := Bytes.append_sep_inj (hcolon hs) (hcolon hs') h
  exact ⟨hscheme, List.append_cancel_left hrest⟩

/-- URLs that were read from texts and print alike are the same. -/
theorem print_injective {url url' : Url} (hurl : url.WellFormed) (hurl' : url'.WellFormed)
    (h : url.print = url'.print) : url = url' := by
  obtain ⟨rest, htarget⟩ := hurl.target
  obtain ⟨rest', htarget'⟩ := hurl'.target
  simp only [print] at h
  rw [List.append_assoc _ _ url.target, List.append_assoc _ _ url'.target] at h
  obtain ⟨hscheme, h⟩ := scheme_append_injective hurl.scheme hurl'.scheme h
  rw [htarget, htarget'] at h
  obtain ⟨hauthority, hrest⟩ := Bytes.append_sep_inj (slash_not_mem_authority hurl)
    (slash_not_mem_authority hurl') h
  obtain ⟨hhost, hport⟩ := authority_injective hurl hurl' hscheme hauthority
  obtain ⟨scheme, host, port, target⟩ := url
  obtain ⟨scheme', host', port', target'⟩ := url'
  simp_all

end Url

end BearerAuth
