import BearerAuth.Proofs.Url.Authority
import BearerAuth.Proofs.Url.Scheme
import Mathlib.Data.List.TakeWhile

/-!
# Where the parts of a URL stand in its text

A text that is read as a URL is a scheme, `://`, an authority and what stands
behind it (`parse_iff_reading`).  The authority is the longest run of bytes
without a slash, a question mark or a hash, so a text has no two readings
(`Reading.authority_eq`).
-/

namespace BearerAuth

namespace Url

/-! ## Cutting off the authority -/

/-- A byte that may stand in an authority, and so in a host. -/
def isPlain (b : UInt8) : Bool := !endsAuthority b && !isGap b && b != Ascii.atSign

theorem endsAuthority_of_isPlain {b : UInt8} (h : isPlain b = true) : endsAuthority b = false := by
  simp only [isPlain, Bool.and_eq_true, Bool.not_eq_true'] at h
  exact h.1.1

theorem takeWhile_authority {authority behind : Bytes}
    (hinside : ∀ b ∈ authority, endsAuthority b = false)
    (hends : ∀ b ∈ behind.head?, endsAuthority b = true) :
    ((authority ++ behind).takeWhile fun b => !endsAuthority b) = authority := by
  rw [Bytes.takeWhile_append_of_stop fun b hb => by simp [hends b hb], List.takeWhile_eq_self_iff]
  exact fun b hb => by simp [hinside b hb]

/-- Behind the longest run of bytes that do not end the authority stands
nothing, or one that does. -/
theorem behind_authority (rest : Bytes) :
    ∃ behind, rest = (rest.takeWhile fun b => !endsAuthority b) ++ behind ∧
      rest.drop (rest.takeWhile fun b => !endsAuthority b).length = behind ∧
      ∀ b ∈ behind.head?, endsAuthority b = true := by
  have hsplit : (rest.takeWhile fun b => !endsAuthority b) ++
      rest.dropWhile (fun b => !endsAuthority b) = rest := List.takeWhile_append_dropWhile
  refine ⟨_, hsplit.symm, (congrArg (List.drop _) hsplit.symm).trans List.drop_left, ?_⟩
  intro b hb
  have hstop := List.head?_dropWhile_not (fun b => !endsAuthority b) rest
  rw [Option.mem_def.mp hb] at hstop
  simpa using hstop

/-! ## Targets -/

theorem resolveTarget_eq (text : Bytes) : ∃ rest, resolveTarget text = Ascii.slash :: rest := by
  rw [resolveTarget]
  split <;> exact ⟨_, rfl⟩

theorem resolveTarget_eq_ite (text : Bytes) :
    resolveTarget text =
      if (text.takeWhile (· != Ascii.hash)).head? = some Ascii.slash then
        text.takeWhile (· != Ascii.hash)
      else Ascii.slash :: text.takeWhile (· != Ascii.hash) := by
  rw [resolveTarget]
  split
  · next rest heq =>
      rw [heq]
      rfl
  · next hother =>
      have hhead : (text.takeWhile (· != Ascii.hash)).head? ≠ some Ascii.slash := by
        intro hslash
        obtain ⟨rest, heq⟩ := List.head?_eq_some_iff.mp hslash
        exact hother rest heq
      rw [if_neg hhead]

theorem hash_not_mem_resolveTarget (text : Bytes) : Ascii.hash ∉ resolveTarget text := by
  rw [resolveTarget_eq_ite]
  split
  · exact Bytes.not_mem_takeWhile_ne
  · exact List.not_mem_cons_of_ne_of_not_mem (by decide) Bytes.not_mem_takeWhile_ne

theorem resolveTarget_resolveTarget (text : Bytes) :
    resolveTarget (resolveTarget text) = resolveTarget text := by
  obtain ⟨rest, hslash⟩ := resolveTarget_eq text
  rw [resolveTarget_eq_ite (resolveTarget text),
    Bytes.takeWhile_ne_of_not_mem (hash_not_mem_resolveTarget text), hslash]
  rfl

/-! ## Readings -/

/-- A text as a scheme, an authority and what stands behind, with the URL whose
parts they are. -/
structure Reading (text authority behind : Bytes) (url : Url) : Prop where
  scheme : readScheme text = .ok (url.scheme, authority ++ behind)
  plain : ∀ b ∈ authority, isPlain b = true
  ends : ∀ b ∈ behind.head?, endsAuthority b = true
  host_and_port : ∃ port, splitAuthority authority = .ok (url.host, port) ∧
    resolvePort url.scheme port = .ok url.port
  host_ne_nil : url.host ≠ []
  target : url.target = resolveTarget behind

theorem Reading.ends_not {text authority behind : Bytes} {url : Url}
    (h : Reading text authority behind url) : ∀ b ∈ authority, endsAuthority b = false :=
  fun b hb => endsAuthority_of_isPlain (h.plain b hb)

theorem exists_reading {text : Bytes} {url : Url} (h : parse text = .ok url) :
    ∃ authority behind, Reading text authority behind url := by
  obtain ⟨⟨scheme, rest⟩, hscheme, h⟩ := bind_eq_ok.mp h
  obtain ⟨huser, h⟩ := unless_eq_ok.mp h
  obtain ⟨hgap, h⟩ := unless_eq_ok.mp h
  obtain ⟨⟨host, portText⟩, hauthority, h⟩ := bind_eq_ok.mp h
  obtain ⟨hempty, h⟩ := unless_eq_ok.mp h
  obtain ⟨port, hport, h⟩ := bind_eq_ok.mp h
  obtain rfl := Except.ok.inj h
  obtain ⟨behind, hrest, hbehind, hends⟩ := behind_authority rest
  refine ⟨_, behind, hrest ▸ hscheme, ?_, hends, ⟨portText, hauthority, hport⟩,
    by simpa using hempty, congrArg resolveTarget hbehind⟩
  · intro b hb
    have hinside := List.all_eq_true.mp List.all_takeWhile b hb
    have hnogap : isGap b = false := by
      simp only [List.any_eq_true, not_exists, not_and, Bool.not_eq_true] at hgap
      exact hgap b hb
    have hat : b ≠ Ascii.atSign := fun heq => huser (heq ▸ hb)
    simp only [isPlain, Bool.and_eq_true, bne_iff_ne]
    exact ⟨⟨hinside, by simp [hnogap]⟩, hat⟩

theorem Reading.parse_eq {text authority behind : Bytes} {url : Url}
    (h : Reading text authority behind url) : parse text = .ok url := by
  obtain ⟨port, hsplit, hport⟩ := h.host_and_port
  have htake := takeWhile_authority h.ends_not h.ends
  refine bind_eq_ok.mpr ⟨_, h.scheme, ?_⟩
  simp only [htake]
  refine unless_eq_ok.mpr ⟨fun hat => absurd (h.plain _ hat) (by decide), ?_⟩
  refine unless_eq_ok.mpr ⟨?_, ?_⟩
  · intro hgap
    obtain ⟨b, hb, hgap⟩ := List.any_eq_true.mp hgap
    have hplain := h.plain b hb
    simp [isPlain, hgap] at hplain
  · refine bind_eq_ok.mpr ⟨_, hsplit, ?_⟩
    refine unless_eq_ok.mpr ⟨by simpa using h.host_ne_nil, ?_⟩
    refine bind_eq_ok.mpr ⟨_, hport, ?_⟩
    rw [List.drop_left, ← h.target]

theorem parse_iff_reading {text : Bytes} {url : Url} :
    parse text = .ok url ↔ ∃ authority behind, Reading text authority behind url :=
  ⟨exists_reading, fun ⟨_, _, h⟩ => h.parse_eq⟩

theorem Reading.authority_eq {text authority behind scheme authority' behind' : Bytes} {url : Url}
    (h : Reading text authority behind url)
    (hscheme : readScheme text = .ok (scheme, authority' ++ behind'))
    (hplain : ∀ b ∈ authority', isPlain b = true)
    (hends : ∀ b ∈ behind'.head?, endsAuthority b = true) :
    url.scheme = scheme ∧ authority = authority' := by
  obtain ⟨heq, happend⟩ := Prod.mk.inj (Except.ok.inj (h.scheme.symm.trans hscheme))
  refine ⟨heq, ?_⟩
  rw [← takeWhile_authority h.ends_not h.ends, happend,
    takeWhile_authority (fun b hb => endsAuthority_of_isPlain (hplain b hb)) hends]

/-! ## Parts -/

/-- The pieces of a URL text: the name of the scheme, the authority, the path
with the query, and the fragment with its hash. -/
structure Parts where
  name : Bytes
  authority : Bytes
  path : Bytes
  fragment : Bytes

def Parts.text (parts : Parts) : Bytes :=
  parts.name ++ utf8 "://" ++ (parts.authority ++ (parts.path ++ parts.fragment))

/-- The path with the query, behind a slash in any case. -/
def Parts.target (parts : Parts) : Bytes :=
  if parts.path.head? = some Ascii.slash then parts.path else Ascii.slash :: parts.path

/-- The pieces are as long as they can be: each ends where the next begins. -/
structure Parts.Cut (parts : Parts) : Prop where
  authority : ∀ b ∈ parts.authority, isPlain b = true
  path_begins : ∀ b ∈ parts.path.head?, b = Ascii.slash ∨ b = Ascii.question
  path : Ascii.hash ∉ parts.path
  fragment : ∀ b ∈ parts.fragment.head?, b = Ascii.hash

theorem Reading.exists_parts {text authority behind : Bytes} {url : Url}
    (h : Reading text authority behind url) :
    ∃ parts : Parts, parts.Cut ∧ parts.text = text ∧ parts.target = url.target := by
  obtain ⟨-, name, -, htext⟩ := readScheme_eq_ok h.scheme
  refine ⟨⟨name, authority, behind.takeWhile (· != Ascii.hash),
    behind.dropWhile (· != Ascii.hash)⟩, ⟨h.plain, ?_, ?_, ?_⟩, ?_, ?_⟩
  · intro b hb
    cases behind with
    | nil => cases hb
    | cons c rest =>
        rw [List.takeWhile_cons] at hb
        split at hb
        · next hhash =>
            obtain rfl := Option.some.inj hb
            have hends := h.ends c rfl
            simp only [endsAuthority, Bool.or_eq_true, beq_iff_eq] at hends
            exact hends.resolve_right (bne_iff_ne.mp hhash)
        · cases hb
  · exact Bytes.not_mem_takeWhile_ne
  · intro b hb
    have hstop := List.head?_dropWhile_not (· != Ascii.hash) behind
    rw [Option.mem_def.mp hb] at hstop
    simpa using hstop
  · rw [Parts.text, List.takeWhile_append_dropWhile]
    exact htext.symm
  · rw [h.target, resolveTarget_eq_ite]
    rfl

end Url

end BearerAuth
