import BearerAuth.Proofs.Json.Merge
import BearerAuth.Proofs.Settings.Admissible

/-!
# A null takes a default away

A rule's settings are laid over the defaults of its handler.  Where the rule has a null, at an
option of the policy or of one of its sections, the outcome is that of settings in which neither
has the option at all (`policy_of_null`): the merged value has a null there, and decoding does not
tell a null from a member that is not there (`ofJson_remove`).

That an option is taken away has to be seen in three ways: the keys that are not known stay the
same ones in the same order, no other member changes, and the option is lacking before and after.
`ReadAlike` says the three of two objects, and decoders read such objects alike.
-/

namespace BearerAuth

namespace Settings

open Json (Members)

/-! ## Options -/

/-- The sections of a policy that have options of their own. -/
def sections : List String := ["token_from", "pre_authorization", "retry"]

/-- The path of an option: of the policy, or of one of its sections. -/
inductive IsOption : List Bytes → Prop
  | policy {key : String} : key ∈ policyFields → IsOption [utf8 key]
  | location {key : String} : key ∈ locationFields → IsOption [utf8 "token_from", utf8 key]
  | preAuthorization {key : String} : key ∈ preAuthorizationFields →
      IsOption [utf8 "pre_authorization", utf8 key]
  | retry {key : String} : key ∈ retryFields → IsOption [utf8 "retry", utf8 key]

/-! ## Objects that read alike -/

def unknownKeys (known : List String) (members : Members) : List Bytes :=
  members.keys.filter fun key => !(known.map utf8).contains key

/-- Two objects have the same members but for nulls, and the same unknown keys. -/
structure ReadAlike (known : List String) (members members' : Members) : Prop where
  unknown : unknownKeys known members = unknownKeys known members'
  present : ∀ key, members.present? key = members'.present? key

section

variable {known : List String} {members members' : Members} {place key : String}

theorem find?_unknown (known : List String) (members : Members) :
    (members.find? fun member => !(known.map utf8).contains member.1).map Prod.fst =
      (unknownKeys known members).head? := by
  rw [unknownKeys, Members.keys, List.head?_filter, List.find?_map]
  rfl

theorem onlyKnown_congr (place : String)
    (h : unknownKeys known members = unknownKeys known members') :
    onlyKnown place known members = onlyKnown place known members' := by
  have hfind := find?_unknown known members
  rw [h, ← find?_unknown known members'] at hfind
  rw [onlyKnown, onlyKnown]
  generalize (members.find? fun member => !(known.map utf8).contains member.1) = found at hfind ⊢
  generalize (members'.find? fun member => !(known.map utf8).contains member.1) = found' at hfind ⊢
  cases found with
  | none => rw [Option.map_eq_none_iff.mp hfind.symm]
  | some member =>
      obtain ⟨member', rfl, hkey⟩ := Option.map_eq_some_iff.mp hfind.symm
      simp only [hkey]

theorem text?_congr (h : members.present? (utf8 key) = members'.present? (utf8 key)) :
    text? members place key = text? members' place key := by rw [text?, text?, h]

theorem text_congr (h : members.present? (utf8 key) = members'.present? (utf8 key)) :
    text members place key = text members' place key := by rw [text, text, text?_congr h]

theorem flag_congr (h : members.present? (utf8 key) = members'.present? (utf8 key)) :
    flag members place key = flag members' place key := by rw [flag, flag, h]

theorem texts_congr (h : members.present? (utf8 key) = members'.present? (utf8 key)) :
    texts members place key = texts members' place key := by rw [texts, texts, h]

theorem readSection_congr {α : Type} {decode : Members → Except Fault α}
    (h : members.present? (utf8 key) = members'.present? (utf8 key)) :
    (section? members key decode) = section? members' key decode := by rw [section?, section?, h]

theorem ReadAlike.locationOf (h : ReadAlike locationFields members members') :
    Settings.locationOf members = Settings.locationOf members' := by
  have hknown := onlyKnown_congr "token_from" h.unknown
  rw [locationFields] at hknown
  simp only [Settings.locationOf, hknown, text?_congr (h.present _)]

theorem ReadAlike.preAuthorization (h : ReadAlike preAuthorizationFields members members') :
    PreAuthorization.ofMembers members = PreAuthorization.ofMembers members' := by
  have hknown := onlyKnown_congr "pre_authorization" h.unknown
  rw [preAuthorizationFields] at hknown
  simp only [PreAuthorization.ofMembers, hknown, flag_congr (h.present _),
    text_congr (h.present _), texts_congr (h.present _)]

theorem ReadAlike.retryTexts (h : ReadAlike retryFields members members') :
    RetryTexts.ofMembers members = RetryTexts.ofMembers members' := by
  have hknown := onlyKnown_congr "retry" h.unknown
  rw [retryFields] at hknown
  simp only [RetryTexts.ofMembers, hknown, text_congr (h.present _)]

/-- The policy depends on the members that are read alike, and on what the sections come to. -/
theorem ofMembers_congr (hunknown : unknownKeys policyFields members =
      unknownKeys policyFields members')
    (hplain : ∀ key, key ∉ sections →
      members.present? (utf8 key) = members'.present? (utf8 key))
    (hlocation :
      (section? members "token_from" locationOf) = section? members' "token_from" locationOf)
    (hpre : (section? members "pre_authorization" PreAuthorization.ofMembers) =
      (section? members' "pre_authorization" PreAuthorization.ofMembers))
    (hretry : (section? members "retry" RetryTexts.ofMembers) =
      (section? members' "retry" RetryTexts.ofMembers)) :
    Policy.ofMembers members = Policy.ofMembers members' := by
  simp only [Policy.ofMembers, onlyKnown_congr "configuration" hunknown, hlocation, hpre, hretry,
    texts_congr (hplain "required_scope" (by decide)),
    texts_congr (hplain "target_audience" (by decide)),
    texts_congr (hplain "trusted_issuers" (by decide)),
    text_congr (hplain "scope_strategy" (by decide)),
    text_congr (hplain "introspection_url" (by decide)),
    readSection_congr (hplain "introspection_request_headers" (by decide))]

/-! ## An option taken away -/

theorem unknownKeys_erase {key : Bytes} (hkey : key ∈ known.map utf8) (members : Members) :
    unknownKeys known (members.erase key) = unknownKeys known members := by
  have hcontains : (known.map utf8).contains key = true := List.contains_iff_mem.mpr hkey
  induction members with
  | nil => rfl
  | cons member rest ih =>
      obtain ⟨k, v⟩ := member
      rw [Members.erase_cons]
      by_cases hk : k = key
      · subst hk
        rw [if_pos rfl, ih, unknownKeys, unknownKeys, Members.keys, Members.keys, List.map_cons,
          List.filter_cons_of_neg (by simp only [hcontains]; decide)]
      · rw [if_neg hk]
        simp only [unknownKeys, Members.keys, List.map_cons, List.filter_cons] at ih ⊢
        rw [ih]

theorem present?_erase {key : Bytes} (hnull : members.get? key = some .null) (key' : Bytes) :
    (members.erase key).present? key' = members.present? key' := by
  rw [Members.present?, Members.get?_erase]
  by_cases h : key = key'
  · subst h
    rw [if_pos rfl, Members.present?, hnull]
  · rw [if_neg h, Members.present?]

theorem ReadAlike.erase {key : Bytes} (hkey : key ∈ known.map utf8)
    (hnull : members.get? key = some .null) : ReadAlike known (members.erase key) members :=
  ⟨unknownKeys_erase hkey members, present?_erase hnull⟩

theorem ofMembers_erase {key : Bytes} (hkey : key ∈ policyFields.map utf8)
    (hnull : members.get? key = some .null) :
    Policy.ofMembers (members.erase key) = Policy.ofMembers members := by
  have h := ReadAlike.erase hkey hnull
  exact ofMembers_congr h.unknown (fun _ _ => h.present _) (readSection_congr (h.present _))
    (readSection_congr (h.present _)) (readSection_congr (h.present _))

theorem utf8_injective : Function.Injective utf8 := by
  intro s t h
  have hdata : s.toByteArray.data = t.toByteArray.data := Array.toList_inj.mp h
  exact String.toByteArray_inj.mp (ByteArray.ext hdata)

theorem readSection_alter {α : Type} {decode : Members → Except Fault α} {inner : Members}
    {option : Bytes} {other : String} (hinner : members.get? (utf8 key) = some (.object inner))
    (hdecode : other = key → decode (inner.erase option) = decode inner) :
    (section? (members.alter (utf8 key) (Json.remove [option])) other decode) =
      (section? members other decode) := by
  rw [section?, section?, Members.present?, Members.present?, Members.get?_alter]
  by_cases h : other = key
  · subst h
    rw [if_pos rfl, hinner]
    exact congrArg (Except.map some) (hdecode rfl)
  · rw [if_neg fun heq => h (utf8_injective heq).symm]

/-- An option of a section that its decoder does not miss is not missed by the policy. -/
theorem ofMembers_alter {inner : Members} {option : Bytes} (hkey : key ∈ sections)
    (hinner : members.get? (utf8 key) = some (.object inner))
    (hlocation : "token_from" = key → locationOf (inner.erase option) = locationOf inner)
    (hpre : "pre_authorization" = key →
      PreAuthorization.ofMembers (inner.erase option) = PreAuthorization.ofMembers inner)
    (hretry : "retry" = key →
      RetryTexts.ofMembers (inner.erase option) = RetryTexts.ofMembers inner) :
    Policy.ofMembers (members.alter (utf8 key) (Json.remove [option])) =
      Policy.ofMembers members := by
  refine ofMembers_congr ?_ ?_ (readSection_alter hinner hlocation)
    (readSection_alter hinner hpre) (readSection_alter hinner hretry)
  · rw [unknownKeys, Members.keys_alter, unknownKeys]
  · intro other hother
    have hne : utf8 key ≠ utf8 other := fun h => hother (utf8_injective h ▸ hkey)
    rw [Members.present?, Members.get?_alter, if_neg hne, Members.present?]

end

/-! ## Decoding what is merged -/

theorem get?_of_at? {members : Members} {key : Bytes} {value : Json}
    (h : Json.at? (.object members) [key] = some value) : members.get? key = some value := by
  rw [Json.at?] at h
  cases hfound : members.get? key with
  | none => simp [hfound] at h
  | some found => simpa [hfound, Json.at?] using h

theorem object_of_at? {members : Members} {key option : Bytes} {value : Json}
    (h : Json.at? (.object members) [key, option] = some value) :
    ∃ inner : Members, members.get? key = some (.object inner) ∧
      inner.get? option = some value := by
  rw [Json.at?] at h
  cases hfound : members.get? key with
  | none => simp [hfound] at h
  | some found =>
      simp only [hfound] at h
      cases found with
      | object inner => exact ⟨inner, rfl, get?_of_at? h⟩
      | _ => cases h

/-- **An option that is null is as good as none**: a policy is decoded alike with it and without. -/
theorem ofJson_remove {value : Json} {path : List Bytes} (hpath : IsOption path)
    (hnull : value.at? path = some .null) :
    Policy.ofJson (value.remove path) = Policy.ofJson value := by
  cases value with
  | object members =>
      cases hpath with
      | policy hkey => exact ofMembers_erase (List.mem_map_of_mem hkey) (get?_of_at? hnull)
      | location hkey =>
          obtain ⟨inner, hinner, hoption⟩ := object_of_at? hnull
          have h := ReadAlike.erase (List.mem_map_of_mem hkey) hoption
          exact ofMembers_alter (by decide) hinner (fun _ => h.locationOf) nofun nofun
      | preAuthorization hkey =>
          obtain ⟨inner, hinner, hoption⟩ := object_of_at? hnull
          have h := ReadAlike.erase (List.mem_map_of_mem hkey) hoption
          exact ofMembers_alter (by decide) hinner nofun (fun _ => h.preAuthorization) nofun
      | retry hkey =>
          obtain ⟨inner, hinner, hoption⟩ := object_of_at? hnull
          have h := ReadAlike.erase (List.mem_map_of_mem hkey) hoption
          exact ofMembers_alter (by decide) hinner nofun nofun (fun _ => h.retryTexts)
  | _ => cases hpath <;> cases hnull

/-- **A rule's null takes a default away**: where a rule has a null at an option, the merged
settings decode as if neither the defaults nor the rule had the option, to the same policy or to
the same fault. -/
theorem policy_of_null {defaults rule : Members} {path : List Bytes}
    (hdistinct : (Json.object rule).Distinct) (hpath : IsOption path)
    (hnull : (Json.object rule).at? path = some .null) :
    Policy.ofJson (Json.merge (.object defaults) (.object rule)) =
      Policy.ofJson
        (Json.merge ((Json.object defaults).remove path) ((Json.object rule).remove path)) := by
  rw [← Json.remove_merge, ofJson_remove hpath (Json.at?_merge hdistinct hnull rfl _)]

/-- Defaults with a scope for the client that authorizes itself. -/
def scopedDefaults : Members :=
  [(utf8 "introspection_url", .text (utf8 "http://i/")),
   (utf8 "pre_authorization", .object
     [(utf8 "client_id", .text (utf8 "c")),
      (utf8 "scope", .array [.text (utf8 "introspect")])])]

def scopelessRule : Members :=
  [(utf8 "pre_authorization", .object [(utf8 "scope", .null)])]

/-- The scope of the defaults is not there under the rule, the identifier is. -/
theorem scope_taken_away :
    Policy.ofJson (Json.merge (.object scopedDefaults) (.object scopelessRule)) =
      Policy.ofJson (.object
        [(utf8 "introspection_url", .text (utf8 "http://i/")),
         (utf8 "pre_authorization", .object [(utf8 "client_id", .text (utf8 "c"))])]) := by
  have hdistinct : (Json.object scopelessRule).Distinct :=
    ⟨by decide, ⟨by decide, trivial, trivial⟩, trivial⟩
  have hpath : IsOption [utf8 "pre_authorization", utf8 "scope"] :=
    .preAuthorization (by decide)
  exact policy_of_null hdistinct hpath rfl

end Settings

end BearerAuth
