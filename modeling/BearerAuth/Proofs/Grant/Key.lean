import BearerAuth.Grant.Pool
import BearerAuth.Proofs.Url.Print

/-!
# Keys of the pool

A key is put together from parts with their lengths in front, so it can be
taken apart again in one way only: each part ends where its length says, and a
bar, which is no digit, ends the scopes.  The URL in a key stands for one URL
only, since the pool is asked about URLs that were read from texts.
`key_injective`: equal keys have equal parts.
-/

namespace BearerAuth

namespace Pool

abbrev bar : UInt8 := 124

theorem keyPart_append_inj {p q s t : Bytes} (h : keyPart p ++ s = keyPart q ++ t) :
    p = q ∧ s = t := by
  simp only [keyPart, List.append_assoc, List.cons_append] at h
  obtain ⟨hlength, hrest⟩ :=
    Bytes.append_sep_inj (Bytes.not_mem_ofNat rfl) (Bytes.not_mem_ofNat rfl) h
  exact List.append_inj hrest (Bytes.ofNat_injective hlength)

theorem keyPart_ne_bar (p s t : Bytes) : keyPart p ++ s ≠ bar :: t := by
  intro h
  cases hdigits : Bytes.ofNat p.length with
  | nil => exact Bytes.ofNat_ne_nil _ hdigits
  | cons b rest =>
      simp only [keyPart, hdigits, List.cons_append, List.cons.injEq] at h
      have hdigit : Bytes.isDigit b = true :=
        Bytes.isDigit_of_mem_ofNat (hdigits ▸ List.mem_cons_self)
      rw [h.1] at hdigit
      cases hdigit

theorem keyParts_inj : ∀ {ps qs : List Bytes} {s t : Bytes},
    ps.flatMap keyPart ++ bar :: s = qs.flatMap keyPart ++ bar :: t → ps = qs ∧ s = t
  | [], [], _, _, h => ⟨rfl, by simpa using h⟩
  | [], q :: qs, s, t, h => by
      rw [List.flatMap_cons, List.append_assoc] at h
      exact absurd h.symm (keyPart_ne_bar q _ s)
  | p :: ps, [], s, t, h => by
      rw [List.flatMap_cons, List.append_assoc] at h
      exact absurd h (keyPart_ne_bar p _ t)
  | p :: ps, q :: qs, s, t, h => by
      rw [List.flatMap_cons, List.flatMap_cons, List.append_assoc, List.append_assoc] at h
      obtain ⟨rfl, hrest⟩ := keyPart_append_inj h
      obtain ⟨rfl, hst⟩ := keyParts_inj hrest
      exact ⟨rfl, hst⟩

/-- Equal keys have equal parts, the endpoint as far as it is printed. -/
theorem key_eq_iff {endpoint endpoint' : Url} {pre pre' : Settings.PreAuthorization}
    {schedule schedule' : Settings.Schedule} :
    key endpoint pre schedule = key endpoint' pre' schedule' ↔
      endpoint.print = endpoint'.print ∧ pre.clientId = pre'.clientId ∧
        pre.clientSecret = pre'.clientSecret ∧ pre.scopes = pre'.scopes ∧
        schedule = schedule' := by
  constructor
  · intro h
    have hbar : utf8 "|" = [bar] := by decide
    simp only [key, hbar, List.append_assoc, List.singleton_append] at h
    obtain ⟨hprint, h⟩ := keyPart_append_inj h
    obtain ⟨hid, h⟩ := keyPart_append_inj h
    obtain ⟨hsecret, h⟩ := keyPart_append_inj h
    obtain ⟨hscopes, h⟩ := keyParts_inj h
    have hnot (n : Int) : bar ∉ Bytes.ofInt n := Bytes.not_mem_ofInt rfl (by decide)
    obtain ⟨hbase, hgiveUp⟩ := Bytes.append_sep_inj (hnot _) (hnot _) h
    obtain ⟨baseDelay, giveUpAfter⟩ := schedule
    obtain ⟨baseDelay', giveUpAfter'⟩ := schedule'
    obtain rfl : baseDelay = baseDelay' := Bytes.ofInt_injective hbase
    obtain rfl : giveUpAfter = giveUpAfter' := Bytes.ofInt_injective hgiveUp
    exact ⟨hprint, hid, hsecret, hscopes, rfl⟩
  · rintro ⟨hprint, hid, hsecret, hscopes, rfl⟩
    simp only [key, hprint, hid, hsecret, hscopes]

theorem key_injective {endpoint endpoint' : Url} {pre pre' : Settings.PreAuthorization}
    {schedule schedule' : Settings.Schedule} (hurl : endpoint.WellFormed)
    (hurl' : endpoint'.WellFormed) (h : key endpoint pre schedule = key endpoint' pre' schedule') :
    endpoint = endpoint' ∧ pre.clientId = pre'.clientId ∧ pre.clientSecret = pre'.clientSecret ∧
      pre.scopes = pre'.scopes ∧ schedule = schedule' := by
  obtain ⟨hprint, hrest⟩ := key_eq_iff.mp h
  exact ⟨Url.print_injective hurl hurl' hprint, hrest⟩

end Pool

end BearerAuth
