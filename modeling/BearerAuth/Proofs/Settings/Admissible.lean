import BearerAuth.Proofs.Bytes
import BearerAuth.Settings.Policy

/-!
# Admissible settings

What an object has to be like to make up a policy, said of its members alone: only known ones, and
each of them lacking or of its kind (`Admits`).  And what the policy then is: every field mirrors
its member, or has its default where the member is lacking (`Reflects`).  A decoder reads one
member after the other and stops at the first fault; `ofMembers_eq_ok` says that it comes to the
same, put together from one lemma for each kind of member.

A member that is null is as good as absent, but for the headers of the request: those are members
of a section that has no known names, and none of them may be null.
-/

namespace BearerAuth

namespace Settings

/-! ## Members -/

def Lacks (members : Json.Members) (key : String) : Prop :=
  members.get? (utf8 key) = none ∨ members.get? (utf8 key) = some .null

/-- A member meets a condition, unless it is lacking. -/
def Meets (members : Json.Members) (key : String) (condition : Json → Prop) : Prop :=
  ∀ value, members.get? (utf8 key) = some value → value ≠ .null → condition value

/-- A field is what a member stands for, and has its default when the member is lacking. -/
def Mirrors {α : Type} (members : Json.Members) (key : String) (stands : Json → α → Prop)
    (default field : α) : Prop :=
  Lacks members key ∧ field = default ∨
    ∃ value, members.get? (utf8 key) = some value ∧ stands value field

/-- All members are known ones. -/
def KnownOnly (known : List String) (members : Json.Members) : Prop :=
  ∀ member ∈ members, member.1 ∈ known.map utf8

/-! ## Kinds of values -/

def IsText (value : Json) (s : Bytes) : Prop := value = .text s

def IsSomeText (value : Json) (s : Option Bytes) : Prop := ∃ t, value = .text t ∧ s = some t

def IsFlag (value : Json) (b : Bool) : Prop := value = .bool b

def IsTexts (value : Json) (ss : List Bytes) : Prop := value = .array (ss.map .text)

def IsSection {α : Type} (inside : Json.Members → α → Prop) (value : Json) (field : Option α) :
    Prop :=
  ∃ inner a, value = .object inner ∧ field = some a ∧ inside inner a

/-- The name of a strategy, in any case of its letters; no name at all is that of `none`. -/
def Names (name : Bytes) (strategy : Scope.Strategy) : Prop :=
  name = [] ∧ strategy = .none ∨ Bytes.sameLetters name strategy.name = true

/-- A text that is not empty, and a URL. -/
def IsUrl (text : Bytes) (url : Url) : Prop := text ≠ [] ∧ Url.parse text = .ok url

/-- An object of valid header names with valid values, and the headers in byte order of their
names. -/
def IsHeaders (value : Json) (headers : Headers) : Prop :=
  ∃ listed : Headers, value = .object (listed.map fun header => (header.1, .text header.2)) ∧
    (∀ header ∈ listed, Headers.isName header.1 = true ∧ Headers.isValue header.2 = true) ∧
    headers = Bytes.sortOn Prod.fst listed

/-! ## Admissible objects -/

def locationFields : List String := ["header", "query_parameter", "cookie"]

def preAuthorizationFields : List String :=
  ["enabled", "client_id", "client_secret", "scope", "token_url"]

def retryFields : List String := ["max_delay", "give_up_after"]

structure AdmitsLocation (members : Json.Members) : Prop where
  known : KnownOnly locationFields members
  texts : ∀ key ∈ locationFields, Meets members key fun value => ∃ s, IsText value s
  single : ∀ key ∈ locationFields, ∀ other ∈ locationFields,
    ¬ Lacks members key → ¬ Lacks members other → key = other

/-- An object says how a client authorizes itself, with all it takes when it does. -/
structure AdmitsPreAuthorization (members : Json.Members) : Prop where
  known : KnownOnly preAuthorizationFields members
  enabled : Meets members "enabled" fun value => ∃ b, IsFlag value b
  clientId : Meets members "client_id" fun value => ∃ s, IsText value s
  clientSecret : Meets members "client_secret" fun value => ∃ s, IsText value s
  scopes : Meets members "scope" fun value => ∃ ss, IsTexts value ss
  tokenUrl : Meets members "token_url" fun value => ∃ s, IsText value s
  complete : members.get? (utf8 "enabled") = some (.bool true) →
    (∃ s, members.get? (utf8 "client_id") = some (.text s) ∧ s ≠ []) ∧
    (∃ s, members.get? (utf8 "client_secret") = some (.text s) ∧ s ≠ []) ∧
    ∃ s url, members.get? (utf8 "token_url") = some (.text s) ∧ IsUrl s url

structure AdmitsRetry (members : Json.Members) : Prop where
  known : KnownOnly retryFields members
  texts : ∀ key ∈ retryFields, Meets members key fun value => ∃ s, IsText value s

/-- A value is an object under a condition. -/
def IsObject (condition : Json.Members → Prop) (value : Json) : Prop :=
  ∃ inner, value = .object inner ∧ condition inner

/-- The members of an object make up a policy. -/
structure Admits (members : Json.Members) : Prop where
  known : KnownOnly policyFields members
  requiredScopes : Meets members "required_scope" fun value => ∃ ss, IsTexts value ss
  targetAudiences : Meets members "target_audience" fun value => ∃ ss, IsTexts value ss
  trustedIssuers : Meets members "trusted_issuers" fun value => ∃ ss, IsTexts value ss
  scopeStrategy : Meets members "scope_strategy" fun value =>
    ∃ name strategy, IsText value name ∧ Names name strategy
  introspectionUrl : ∃ s url,
    members.get? (utf8 "introspection_url") = some (.text s) ∧ IsUrl s url
  tokenFrom : Meets members "token_from" (IsObject AdmitsLocation)
  headers : Meets members "introspection_request_headers" fun value =>
    ∃ headers, IsHeaders value headers
  preAuthorization : Meets members "pre_authorization" (IsObject AdmitsPreAuthorization)
  retry : Meets members "retry" (IsObject AdmitsRetry)

/-! ## Fields -/

structure ReflectsLocation (members : Json.Members) (location : Credential.Location) : Prop where
  header : Mirrors members "header" IsSomeText none location.header
  queryParameter : Mirrors members "query_parameter" IsSomeText none location.queryParameter
  cookie : Mirrors members "cookie" IsSomeText none location.cookie

/-- A pre-authorization has what an object gives; its endpoint is that of the token URL, and is
there when it is enabled. -/
structure ReflectsPreAuthorization (members : Json.Members) (pre : PreAuthorization) : Prop where
  enabled : Mirrors members "enabled" IsFlag false pre.enabled
  clientId : Mirrors members "client_id" IsText [] pre.clientId
  clientSecret : Mirrors members "client_secret" IsText [] pre.clientSecret
  scopes : Mirrors members "scope" IsTexts [] pre.scopes
  tokenUrl : Mirrors members "token_url" IsText [] pre.tokenUrl
  endpoint : ∀ url, pre.endpoint = some url → Url.parse pre.tokenUrl = .ok url

structure ReflectsRetry (members : Json.Members) (retry : RetryTexts) : Prop where
  maxDelay : Mirrors members "max_delay" IsText [] retry.maxDelay
  giveUpAfter : Mirrors members "give_up_after" IsText [] retry.giveUpAfter

/-- Every field of a policy mirrors its member. -/
structure Reflects (members : Json.Members) (policy : Policy) : Prop where
  requiredScopes : Mirrors members "required_scope" IsTexts [] policy.requiredScopes
  targetAudiences : Mirrors members "target_audience" IsTexts [] policy.targetAudiences
  trustedIssuers : Mirrors members "trusted_issuers" IsTexts [] policy.trustedIssuers
  scopeStrategy : ∃ name, Mirrors members "scope_strategy" IsText [] name ∧
    Names name policy.scopeStrategy
  introspectionUrl : Mirrors members "introspection_url" IsText [] policy.introspectionUrl
  endpoint : Url.parse policy.introspectionUrl = .ok policy.endpoint
  tokenFrom : Mirrors members "token_from" (IsSection ReflectsLocation) none policy.tokenFrom
  headers : Mirrors members "introspection_request_headers" IsHeaders [] policy.headers
  preAuthorization : Mirrors members "pre_authorization" (IsSection ReflectsPreAuthorization) none
    policy.preAuthorization
  retry : Mirrors members "retry" (IsSection ReflectsRetry) none policy.retry

/-! ## Members that are read -/

section

variable {α : Type} {members : Json.Members} {place key : String} {stands : Json → α → Prop}
  {default field : α}

theorem present?_eq_none : members.present? (utf8 key) = none ↔ Lacks members key := by
  rw [Json.Members.present?, Lacks]
  cases members.get? (utf8 key) with
  | none => simp
  | some value => cases value <;> simp

theorem present?_eq_some {value : Json} :
    members.present? (utf8 key) = some value ↔
      members.get? (utf8 key) = some value ∧ value ≠ .null := by
  rw [Json.Members.present?]
  cases members.get? (utf8 key) with
  | none => simp
  | some found =>
      cases found with
      | null => simp [eq_comm]
      | _ =>
          simp only [Option.some.injEq]
          exact ⟨fun h => ⟨h, by simp [← h]⟩, And.left⟩

/-- A reader that gives the default for a lacking member, and otherwise what the member stands
for, reads the field that mirrors it. -/
theorem eq_ok_iff_mirrors {outcome : Except Fault α}
    (hlacking : members.present? (utf8 key) = none → outcome = .ok default)
    (hread : ∀ value, members.present? (utf8 key) = some value →
      (outcome = .ok field ↔ stands value field))
    (hnull : ¬ stands .null field) :
    outcome = .ok field ↔ Mirrors members key stands default field := by
  rw [Mirrors]
  cases hfound : members.present? (utf8 key) with
  | none =>
      have hlacks := present?_eq_none.mp hfound
      rw [hlacking hfound, Except.ok.injEq]
      constructor
      · exact fun h => .inl ⟨hlacks, h.symm⟩
      · rintro (⟨-, rfl⟩ | ⟨value, hvalue, hstands⟩)
        · rfl
        · rcases hlacks with hnone | hsome
          · cases hnone.symm.trans hvalue
          · cases hsome.symm.trans hvalue
            exact absurd hstands hnull
  | some value =>
      obtain ⟨hvalue, hne⟩ := present?_eq_some.mp hfound
      rw [hread value hfound]
      constructor
      · exact fun h => .inr ⟨value, hvalue, h⟩
      · rintro (⟨hnone | hnull', -⟩ | ⟨value', hvalue', hstands⟩)
        · cases hnone.symm.trans hvalue
        · exact absurd (Option.some.inj (hvalue.symm.trans hnull')) hne
        · cases hvalue.symm.trans hvalue'
          exact hstands

theorem meets_iff_mirrors {condition : Json → Prop} (default : α)
    (h : ∀ value, condition value ↔ ∃ a, stands value a) :
    Meets members key condition ↔ ∃ field, Mirrors members key stands default field := by
  constructor
  · intro hmeets
    cases hfound : members.present? (utf8 key) with
    | none => exact ⟨default, .inl ⟨present?_eq_none.mp hfound, rfl⟩⟩
    | some value =>
        obtain ⟨hvalue, hne⟩ := present?_eq_some.mp hfound
        obtain ⟨a, ha⟩ := (h value).mp (hmeets value hvalue hne)
        exact ⟨a, .inr ⟨value, hvalue, ha⟩⟩
  · rintro ⟨field, ⟨hnone | hnull, -⟩ | ⟨value', hvalue', hstands⟩⟩ value hvalue hne
    · cases hnone.symm.trans hvalue
    · exact absurd (Option.some.inj (hvalue.symm.trans hnull)) hne
    · obtain rfl : value = value' := Option.some.inj (hvalue.symm.trans hvalue')
      exact (h value).mpr ⟨field, hstands⟩

theorem onlyKnown_eq_ok {known : List String} {u : Unit} :
    onlyKnown place known members = .ok u ↔ KnownOnly known members := by
  have hfind := @List.find?_eq_none _ (fun member => !(known.map utf8).contains member.1) members
  rw [onlyKnown, KnownOnly]
  cases hfound : members.find? fun member => !(known.map utf8).contains member.1 with
  | none => simpa using hfind.mp hfound
  | some member =>
      rw [hfound] at hfind
      simpa using hfind

theorem text?_eq_ok {s : Option Bytes} :
    text? members place key = .ok s ↔ Mirrors members key IsSomeText none s := by
  refine eq_ok_iff_mirrors (fun h => by simp [text?, h]) ?_ (by simp [IsSomeText])
  intro value hfound
  obtain ⟨-, hne⟩ := present?_eq_some.mp hfound
  rw [text?, hfound]
  cases value with
  | null => exact absurd rfl hne
  | text t => simp [IsSomeText, eq_comm]
  | _ => simp [IsSomeText, wrongType]

theorem text_eq_ok {s : Bytes} :
    text members place key = .ok s ↔ Mirrors members key IsText [] s := by
  rw [text, map_eq_ok]
  simp only [text?_eq_ok, Mirrors]
  constructor
  · rintro ⟨found, ⟨hlacks, rfl⟩ | ⟨value, hvalue, t, ht, rfl⟩, rfl⟩
    · exact .inl ⟨hlacks, rfl⟩
    · exact .inr ⟨value, hvalue, ht⟩
  · rintro (⟨hlacks, rfl⟩ | ⟨value, hvalue, hs⟩)
    · exact ⟨none, .inl ⟨hlacks, rfl⟩, rfl⟩
    · exact ⟨some s, .inr ⟨value, hvalue, s, hs, rfl⟩, rfl⟩

theorem flag_eq_ok {b : Bool} :
    flag members place key = .ok b ↔ Mirrors members key IsFlag false b := by
  refine eq_ok_iff_mirrors (fun h => by simp [flag, h]) ?_ (by simp [IsFlag])
  intro value hfound
  obtain ⟨-, hne⟩ := present?_eq_some.mp hfound
  rw [flag, hfound]
  cases value with
  | null => exact absurd rfl hne
  | bool c => simp [IsFlag]
  | _ => simp [IsFlag, wrongType]

theorem textItems_eq_ok {path : Bytes} {index : Nat} {items : List Json} {ss : List Bytes} :
    textItems path index items = .ok ss ↔ items = ss.map .text := by
  induction items generalizing index ss with
  | nil => simp [textItems, eq_comm]
  | cons item rest ih =>
      cases item with
      | text s =>
          rw [textItems, map_eq_ok]
          simp only [ih]
          cases ss with
          | nil => simp
          | cons t ts =>
              simp only [List.map_cons, List.cons.injEq, Json.text.injEq]
              constructor
              · rintro ⟨_, hrest, rfl, rfl⟩
                exact ⟨rfl, hrest⟩
              · rintro ⟨rfl, hrest⟩
                exact ⟨ts, hrest, rfl, rfl⟩
      | _ =>
          simp only [textItems, wrongType, reduceCtorEq, false_iff]
          intro h
          cases ss <;> simp at h

theorem texts_eq_ok {ss : List Bytes} :
    texts members place key = .ok ss ↔ Mirrors members key IsTexts [] ss := by
  refine eq_ok_iff_mirrors (fun h => by simp [texts, h]) ?_ (by simp [IsTexts])
  intro value hfound
  obtain ⟨-, hne⟩ := present?_eq_some.mp hfound
  rw [texts, hfound]
  cases value with
  | null => exact absurd rfl hne
  | array items => simp [IsTexts, textItems_eq_ok]
  | _ => simp [IsTexts, wrongType]

theorem readSection_eq_ok {decode : Json.Members → Except Fault α} {field : Option α} :
    (section? members key decode = .ok field) ↔
      Mirrors members key (IsSection fun inner a => decode inner = .ok a) none field := by
  refine eq_ok_iff_mirrors (fun h => by simp [section?, h]) ?_ (by simp [IsSection])
  intro value hfound
  obtain ⟨-, hne⟩ := present?_eq_some.mp hfound
  rw [section?, hfound]
  cases value with
  | null => exact absurd rfl hne
  | object inner =>
      rw [map_eq_ok]
      simp [IsSection, eq_comm, and_comm]
  | _ => simp [IsSection, wrongType]

end

theorem url_eq_ok {path : String} {s : Bytes} {found : Url} :
    url path s = .ok found ↔ Url.parse s = .ok found := by
  rw [url]
  cases Url.parse s <;> simp

theorem ofName_eq_some {name : Bytes} {strategy : Scope.Strategy} :
    Scope.Strategy.ofName name = some strategy ↔ Names name strategy := by
  have hname (other : Scope.Strategy) :
      Bytes.sameLetters name other.name = true ↔ Bytes.toLower name = other.name := by
    rw [Bytes.sameLetters, beq_iff_eq]
    cases other <;> exact Iff.rfl
  have hempty : name = [] ↔ Bytes.toLower name = [] := by simp [Bytes.toLower]
  rw [Names, hname, hempty, Scope.Strategy.ofName]
  generalize Bytes.toLower name = lowered
  constructor
  · simp only [Bool.or_eq_true, List.isEmpty_iff, beq_iff_eq]
    split
    · next h =>
        rintro ⟨⟩
        exact h.imp (fun h => ⟨h, rfl⟩) id
    · split
      · next h =>
          rintro ⟨⟩
          exact .inr h
      · split
        · next h =>
            rintro ⟨⟩
            exact .inr h
        · split
          · next h =>
              rintro ⟨⟩
              exact .inr h
          · rintro ⟨⟩
  · rintro (⟨rfl, rfl⟩ | rfl)
    · rfl
    · cases strategy <;> decide

theorem headersOf_cons_eq_ok {name : Bytes} {value : Json} {rest : Json.Members}
    {headers : Headers} :
    headersOf ((name, value) :: rest) = .ok headers ↔
      ∃ s others, value = .text s ∧ Headers.isName name = true ∧ Headers.isValue s = true ∧
        headersOf rest = .ok others ∧ headers = (name, s) :: others := by
  cases value with
  | text s =>
      rw [headersOf]
      cases hname : Headers.isName name with
      | false => simp
      | true =>
          cases hvalue : Headers.isValue s with
          | false =>
              simp only [Bool.not_true, Bool.not_false, Bool.false_eq_true, if_false, if_true,
                reduceCtorEq, false_iff]
              rintro ⟨t, others, ht, -, hvalid, -⟩
              cases ht
              cases hvalue.symm.trans hvalid
          | true =>
              simp only [Bool.not_true, Bool.false_eq_true, if_false, map_eq_ok]
              constructor
              · rintro ⟨others, hothers, rfl⟩
                exact ⟨s, others, rfl, trivial, hvalue, hothers, rfl⟩
              · rintro ⟨t, others, ht, -, -, hothers, rfl⟩
                cases ht
                exact ⟨others, hothers, rfl⟩
  | _ => simp [headersOf, wrongType]

theorem headersOf_eq_ok {members : Json.Members} {headers : Headers} :
    headersOf members = .ok headers ↔
      members = headers.map (fun header => (header.1, .text header.2)) ∧
        ∀ header ∈ headers, Headers.isName header.1 = true ∧ Headers.isValue header.2 = true := by
  induction members generalizing headers with
  | nil => cases headers <;> simp [headersOf]
  | cons member rest ih =>
      obtain ⟨name, value⟩ := member
      simp only [headersOf_cons_eq_ok, ih]
      constructor
      · rintro ⟨s, others, rfl, hname, hvalue, ⟨rfl, hvalid⟩, rfl⟩
        exact ⟨rfl, List.forall_mem_cons.mpr ⟨⟨hname, hvalue⟩, hvalid⟩⟩
      · rintro ⟨hmembers, hvalid⟩
        cases headers with
        | nil => cases hmembers
        | cons header headers =>
            obtain ⟨hheader, rfl⟩ := List.cons.inj hmembers
            obtain ⟨rfl, rfl⟩ := Prod.mk.inj hheader
            obtain ⟨⟨hname, hvalue⟩, hvalid⟩ := List.forall_mem_cons.mp hvalid
            exact ⟨header.2, headers, rfl, hname, hvalue, ⟨rfl, hvalid⟩, rfl⟩

/-! ## Sections -/

section

variable {α : Type} {members : Json.Members} {key : String} {stands : Json → α → Prop}
  {default field : α}

theorem Mirrors.meets (h : Mirrors members key stands default field) :
    Meets members key fun value => ∃ a, stands value a :=
  (meets_iff_mirrors default fun _ => Iff.rfl).mpr ⟨field, h⟩

theorem Meets.mirrors (h : Meets members key fun value => ∃ a, stands value a) (default : α) :
    ∃ field, Mirrors members key stands default field :=
  (meets_iff_mirrors default fun _ => Iff.rfl).mp h

theorem exists_isText_iff (value : Json) :
    (∃ s, IsText value s) ↔ ∃ s : Option Bytes, IsSomeText value s :=
  ⟨fun ⟨s, hs⟩ => ⟨some s, s, hs, rfl⟩, fun ⟨_, s, hs, _⟩ => ⟨s, hs⟩⟩

theorem Mirrors.lacks_iff {field : Option Bytes} (h : Mirrors members key IsSomeText none field) :
    Lacks members key ↔ field = none := by
  rcases h with ⟨hlacks, rfl⟩ | ⟨value, hvalue, t, rfl, rfl⟩
  · exact iff_of_true hlacks rfl
  · simp [Lacks, hvalue]

theorem Mirrors.stands_of_ne (h : Mirrors members key stands default field)
    (hne : field ≠ default) :
    ∃ value, members.get? (utf8 key) = some value ∧ stands value field :=
  h.resolve_left fun hlacks => hne hlacks.2

theorem Mirrors.eq_text {s t : Bytes} (h : Mirrors members key IsText [] s)
    (ht : members.get? (utf8 key) = some (.text t)) : s = t := by
  rcases h with ⟨hlacks, -⟩ | ⟨value, hvalue, hs⟩
  · simp [Lacks, ht] at hlacks
  · obtain rfl : Json.text t = value := Option.some.inj (ht.symm.trans hvalue)
    exact (Json.text.inj hs).symm

/-- At most one location is named when at most one is found. -/
theorem ReflectsLocation.single_iff {location : Credential.Location}
    (h : ReflectsLocation members location) :
    (∀ key ∈ locationFields, ∀ other ∈ locationFields,
        ¬ Lacks members key → ¬ Lacks members other → key = other) ↔
      ¬ 1 < ([location.header, location.queryParameter, location.cookie].filter
        Option.isSome).length := by
  simp only [locationFields, List.mem_cons, List.not_mem_nil, or_false, forall_eq_or_imp,
    forall_eq, h.header.lacks_iff, h.queryParameter.lacks_iff, h.cookie.lacks_iff]
  cases location.header <;> cases location.queryParameter <;> cases location.cookie <;> simp

theorem locationOf_eq_ok {location : Credential.Location} :
    locationOf members = .ok location ↔
      AdmitsLocation members ∧ ReflectsLocation members location := by
  simp only [locationOf, bind_eq_ok, unless_eq_ok, text?_eq_ok, onlyKnown_eq_ok]
  constructor
  · rintro ⟨-, hknown, header, hheader, queryParameter, hquery, cookie, hcookie, hsingle, heq⟩
    obtain rfl := Except.ok.inj heq
    have hreflects : ReflectsLocation members ⟨header, queryParameter, cookie⟩ :=
      ⟨hheader, hquery, hcookie⟩
    have htexts : ∀ key ∈ locationFields, Meets members key fun value => ∃ s, IsText value s := by
      simp only [locationFields, List.forall_mem_cons, exists_isText_iff]
      exact ⟨hheader.meets, hquery.meets, hcookie.meets, nofun⟩
    exact ⟨⟨hknown, htexts, hreflects.single_iff.mpr hsingle⟩, hreflects⟩
  · rintro ⟨hadmits, hreflects⟩
    exact ⟨⟨⟩, hadmits.known, _, hreflects.header, _, hreflects.queryParameter, _,
      hreflects.cookie, hreflects.single_iff.mp hadmits.single, rfl⟩

theorem AdmitsLocation.reflects (h : AdmitsLocation members) :
    ∃ location, ReflectsLocation members location := by
  have htexts := h.texts
  simp only [locationFields, List.forall_mem_cons, exists_isText_iff] at htexts
  obtain ⟨hheader, hquery, hcookie, -⟩ := htexts
  obtain ⟨header, hheader⟩ := hheader.mirrors none
  obtain ⟨queryParameter, hquery⟩ := hquery.mirrors none
  obtain ⟨cookie, hcookie⟩ := hcookie.mirrors none
  exact ⟨⟨header, queryParameter, cookie⟩, hheader, hquery, hcookie⟩

theorem preAuthorization_eq_ok {pre : PreAuthorization} :
    PreAuthorization.ofMembers members = .ok pre ↔
      AdmitsPreAuthorization members ∧ ReflectsPreAuthorization members pre := by
  simp only [PreAuthorization.ofMembers, bind_eq_ok, flag_eq_ok, text_eq_ok, texts_eq_ok,
    onlyKnown_eq_ok]
  constructor
  · rintro ⟨-, hknown, enabled, henabled, clientId, hid, clientSecret, hsecret, scopes, hscopes,
      tokenUrl, hurl, h⟩
    cases enabled with
    | false =>
        obtain rfl := Except.ok.inj h
        have hdisabled : members.get? (utf8 "enabled") ≠ some (.bool true) := by
          rcases henabled with ⟨hnone | hnull, -⟩ | ⟨value, hvalue, rfl⟩
          · simp [hnone]
          · simp [hnull]
          · simp [hvalue]
        exact ⟨⟨hknown, henabled.meets, hid.meets, hsecret.meets, hscopes.meets, hurl.meets,
            fun htrue => absurd htrue hdisabled⟩,
          ⟨henabled, hid, hsecret, hscopes, hurl, nofun⟩⟩
    | true =>
        simp only [Bool.not_true, Bool.false_eq_true, if_false, unless_eq_ok, bind_eq_ok,
          url_eq_ok, List.isEmpty_iff] at h
        obtain ⟨hidNe, hsecretNe, hurlNe, endpoint, hparse, heq⟩ := h
        obtain rfl := Except.ok.inj heq
        obtain ⟨_, hidMember, rfl⟩ := hid.stands_of_ne hidNe
        obtain ⟨_, hsecretMember, rfl⟩ := hsecret.stands_of_ne hsecretNe
        obtain ⟨_, hurlMember, rfl⟩ := hurl.stands_of_ne hurlNe
        refine ⟨⟨hknown, henabled.meets, hid.meets, hsecret.meets, hscopes.meets, hurl.meets,
            fun _ => ⟨⟨clientId, hidMember, hidNe⟩, ⟨clientSecret, hsecretMember, hsecretNe⟩,
              tokenUrl, endpoint, hurlMember, hurlNe, hparse⟩⟩,
          ⟨henabled, hid, hsecret, hscopes, hurl, ?_⟩⟩
        rintro url ⟨⟩
        exact hparse
  · rintro ⟨hadmits, hreflects⟩
    refine ⟨⟨⟩, hadmits.known, _, hreflects.enabled, _, hreflects.clientId, _,
      hreflects.clientSecret, _, hreflects.scopes, _, hreflects.tokenUrl, ?_⟩
    obtain ⟨clientId, clientSecret, scopes, tokenUrl, endpoint⟩ := pre
    cases endpoint with
    | none => rfl
    | some endpoint =>
        obtain ⟨_, henabled, rfl⟩ :=
          hreflects.enabled.stands_of_ne (by simp [PreAuthorization.enabled])
        obtain ⟨⟨s, hid, hidNe⟩, ⟨t, hsecret, hsecretNe⟩, u, url, hurl, hurlNe, -⟩ :=
          hadmits.complete henabled
        obtain rfl := hreflects.clientId.eq_text hid
        obtain rfl := hreflects.clientSecret.eq_text hsecret
        obtain rfl := hreflects.tokenUrl.eq_text hurl
        simp only [PreAuthorization.enabled, Option.isSome_some, Bool.not_true,
          Bool.false_eq_true, if_false, unless_eq_ok, bind_eq_ok, url_eq_ok, List.isEmpty_iff]
        exact ⟨hidNe, hsecretNe, hurlNe, endpoint, hreflects.endpoint endpoint rfl, rfl⟩

theorem AdmitsPreAuthorization.reflects (h : AdmitsPreAuthorization members) :
    ∃ pre, ReflectsPreAuthorization members pre := by
  obtain ⟨enabled, henabled⟩ := h.enabled.mirrors false
  obtain ⟨clientId, hid⟩ := h.clientId.mirrors []
  obtain ⟨clientSecret, hsecret⟩ := h.clientSecret.mirrors []
  obtain ⟨scopes, hscopes⟩ := h.scopes.mirrors []
  obtain ⟨tokenUrl, hurl⟩ := h.tokenUrl.mirrors []
  cases enabled with
  | false => exact ⟨⟨clientId, clientSecret, scopes, tokenUrl, none⟩, henabled, hid, hsecret,
      hscopes, hurl, nofun⟩
  | true =>
      obtain ⟨_, htrue, rfl⟩ := henabled.stands_of_ne (by decide)
      obtain ⟨-, -, s, url, hs, -, hparse⟩ := h.complete htrue
      obtain rfl := hurl.eq_text hs
      refine ⟨⟨clientId, clientSecret, scopes, tokenUrl, some url⟩, henabled, hid, hsecret,
        hscopes, hurl, ?_⟩
      rintro url ⟨⟩
      exact hparse

theorem retryTexts_eq_ok {retry : RetryTexts} :
    RetryTexts.ofMembers members = .ok retry ↔
      AdmitsRetry members ∧ ReflectsRetry members retry := by
  simp only [RetryTexts.ofMembers, bind_eq_ok, text_eq_ok, onlyKnown_eq_ok]
  constructor
  · rintro ⟨-, hknown, maxDelay, hdelay, giveUpAfter, hlimit, heq⟩
    obtain rfl := Except.ok.inj heq
    have htexts : ∀ key ∈ retryFields, Meets members key fun value => ∃ s, IsText value s := by
      simp only [retryFields, List.forall_mem_cons]
      exact ⟨hdelay.meets, hlimit.meets, nofun⟩
    exact ⟨⟨hknown, htexts⟩, hdelay, hlimit⟩
  · rintro ⟨hadmits, hreflects⟩
    exact ⟨⟨⟩, hadmits.known, _, hreflects.maxDelay, _, hreflects.giveUpAfter, rfl⟩

theorem AdmitsRetry.reflects (h : AdmitsRetry members) : ∃ retry, ReflectsRetry members retry := by
  obtain ⟨maxDelay, hdelay⟩ := (h.texts "max_delay" (by decide)).mirrors []
  obtain ⟨giveUpAfter, hlimit⟩ := (h.texts "give_up_after" (by decide)).mirrors []
  exact ⟨⟨maxDelay, giveUpAfter⟩, hdelay, hlimit⟩

end

/-! ## The whole policy -/

section

variable {members : Json.Members}

theorem readSection_eq_ok_iff {α : Type} {key : String} {field : Option α}
    {decode : Json.Members → Except Fault α} {admits : Json.Members → Prop}
    {reflects : Json.Members → α → Prop}
    (h : ∀ inner a, decode inner = .ok a ↔ admits inner ∧ reflects inner a) :
    (section? members key decode = .ok field) ↔
      Meets members key (IsObject admits) ∧
        Mirrors members key (IsSection reflects) none field := by
  rw [readSection_eq_ok]
  constructor
  · intro hfield
    constructor
    · intro value hvalue hne
      obtain ⟨_, inner, a, rfl, -, ha⟩ := hfield.meets value hvalue hne
      exact ⟨inner, rfl, ((h inner a).mp ha).1⟩
    · rcases hfield with hlacks | ⟨value, hvalue, inner, a, rfl, rfl, ha⟩
      · exact .inl hlacks
      · exact .inr ⟨_, hvalue, inner, a, rfl, rfl, ((h inner a).mp ha).2⟩
  · rintro ⟨hmeets, hlacks | ⟨value, hvalue, inner, a, rfl, rfl, ha⟩⟩
    · exact .inl hlacks
    · obtain ⟨_, heq, hadmits⟩ := hmeets _ hvalue nofun
      obtain rfl := Json.object.inj heq
      exact .inr ⟨_, hvalue, inner, a, rfl, rfl, (h inner a).mpr ⟨hadmits, ha⟩⟩

theorem headers_eq_ok_iff {key : String} {headers : Headers} :
    (∃ found, section? members key headersOf = .ok found ∧
        headers = Bytes.sortOn Prod.fst (found.getD [])) ↔
      Mirrors members key IsHeaders [] headers := by
  simp only [readSection_eq_ok, headersOf_eq_ok]
  constructor
  · rintro ⟨found, ⟨hlacks, rfl⟩ | ⟨_, hvalue, inner, listed, rfl, rfl, rfl, hvalid⟩, rfl⟩
    · exact .inl ⟨hlacks, rfl⟩
    · exact .inr ⟨_, hvalue, listed, rfl, hvalid, rfl⟩
  · rintro (⟨hlacks, rfl⟩ | ⟨_, hvalue, listed, rfl, hvalid, rfl⟩)
    · exact ⟨none, .inl ⟨hlacks, rfl⟩, rfl⟩
    · exact ⟨some listed, .inr ⟨_, hvalue, _, listed, rfl, rfl, rfl, hvalid⟩, rfl⟩

theorem ofMembers_eq_ok {policy : Policy} :
    Policy.ofMembers members = .ok policy ↔ Admits members ∧ Reflects members policy := by
  simp only [Policy.ofMembers, bind_eq_ok, texts_eq_ok, text_eq_ok, onlyKnown_eq_ok]
  constructor
  · rintro ⟨-, hknown, scopes, hscopes, audiences, haudiences, issuers, hissuers, name, hname, h⟩
    split at h
    · next strategy hstrategy =>
        simp only [bind_eq_ok, unless_eq_ok, text_eq_ok, url_eq_ok, List.isEmpty_iff,
          readSection_eq_ok_iff @locationOf_eq_ok, readSection_eq_ok_iff @preAuthorization_eq_ok,
          readSection_eq_ok_iff @retryTexts_eq_ok] at h
        obtain ⟨_, ⟨⟩, url, hurl, hne, endpoint, hparse, location, ⟨hlocation, hlocation'⟩, headers,
          hheaders, pre, ⟨hpre, hpre'⟩, retry, ⟨hretry, hretry'⟩, heq⟩ := h
        obtain rfl := Except.ok.inj heq
        have hnames := ofName_eq_some.mp hstrategy
        have hheaders := headers_eq_ok_iff.mp ⟨headers, hheaders, rfl⟩
        obtain ⟨_, hmember, rfl⟩ := hurl.stands_of_ne hne
        refine ⟨⟨hknown, hscopes.meets, haudiences.meets, hissuers.meets, ?_,
          ⟨url, endpoint, hmember, hne, hparse⟩, hlocation, hheaders.meets, hpre, hretry⟩,
          hscopes, haudiences, hissuers, ⟨name, hname, hnames⟩, hurl, hparse, hlocation', hheaders,
          hpre', hretry'⟩
        intro value hvalue hne
        obtain ⟨s, rfl⟩ := hname.meets value hvalue hne
        exact ⟨s, strategy, rfl, hname.eq_text hvalue ▸ hnames⟩
    · simp only [bind_eq_ok] at h
      obtain ⟨_, hstrategy, -⟩ := h
      cases hstrategy
  · rintro ⟨hadmits, hreflects⟩
    obtain ⟨name, hname, hnames⟩ := hreflects.scopeStrategy
    refine ⟨⟨⟩, hadmits.known, _, hreflects.requiredScopes, _, hreflects.targetAudiences, _,
      hreflects.trustedIssuers, name, hname, ?_⟩
    obtain ⟨s, url, hmember, hne, -⟩ := hadmits.introspectionUrl
    obtain rfl := hreflects.introspectionUrl.eq_text hmember
    obtain ⟨headers, hheaders, heq⟩ := headers_eq_ok_iff.mpr hreflects.headers
    simp only [ofName_eq_some.mpr hnames, bind_eq_ok, unless_eq_ok, text_eq_ok, url_eq_ok,
      List.isEmpty_iff, readSection_eq_ok_iff @locationOf_eq_ok,
      readSection_eq_ok_iff @preAuthorization_eq_ok, readSection_eq_ok_iff @retryTexts_eq_ok]
    refine ⟨_, rfl, _, hreflects.introspectionUrl, hne, _, hreflects.endpoint, _,
      ⟨hadmits.tokenFrom, hreflects.tokenFrom⟩, headers, hheaders, _,
      ⟨hadmits.preAuthorization, hreflects.preAuthorization⟩, _, ⟨hadmits.retry, hreflects.retry⟩,
      ?_⟩
    rw [← heq]

theorem Admits.names (h : Admits members) :
    ∃ name strategy, Mirrors members "scope_strategy" IsText [] name ∧ Names name strategy := by
  have hmirrors : ∃ name, Mirrors members "scope_strategy"
      (fun value name => IsText value name ∧ ∃ strategy, Names name strategy) [] name :=
    (meets_iff_mirrors [] (by simp)).mp h.scopeStrategy
  obtain ⟨name, ⟨hlacks, rfl⟩ | ⟨value, hvalue, htext, strategy, hnames⟩⟩ := hmirrors
  · exact ⟨[], .none, .inl ⟨hlacks, rfl⟩, .inl ⟨rfl, rfl⟩⟩
  · exact ⟨name, strategy, .inr ⟨value, hvalue, htext⟩, hnames⟩

theorem IsObject.mirrors {α : Type} {key : String} {admits : Json.Members → Prop}
    {reflects : Json.Members → α → Prop} (h : Meets members key (IsObject admits))
    (hadmits : ∀ inner, admits inner → ∃ a, reflects inner a) :
    ∃ field, Mirrors members key (IsSection reflects) none field := by
  refine Meets.mirrors (fun value hvalue hne => ?_) none
  obtain ⟨inner, rfl, hinner⟩ := h value hvalue hne
  obtain ⟨a, ha⟩ := hadmits inner hinner
  exact ⟨some a, inner, a, rfl, rfl, ha⟩

theorem Admits.reflects (h : Admits members) : ∃ policy, Reflects members policy := by
  obtain ⟨scopes, hscopes⟩ := h.requiredScopes.mirrors []
  obtain ⟨audiences, haudiences⟩ := h.targetAudiences.mirrors []
  obtain ⟨issuers, hissuers⟩ := h.trustedIssuers.mirrors []
  obtain ⟨name, strategy, hname, hnames⟩ := h.names
  obtain ⟨url, endpoint, hurl, -, hparse⟩ := h.introspectionUrl
  obtain ⟨location, hlocation⟩ := IsObject.mirrors h.tokenFrom fun _ => AdmitsLocation.reflects
  obtain ⟨headers, hheaders⟩ := h.headers.mirrors []
  obtain ⟨pre, hpre⟩ :=
    IsObject.mirrors h.preAuthorization fun _ => AdmitsPreAuthorization.reflects
  obtain ⟨retry, hretry⟩ := IsObject.mirrors h.retry fun _ => AdmitsRetry.reflects
  exact ⟨⟨scopes, audiences, issuers, strategy, url, endpoint, location, headers, pre, retry⟩,
    hscopes, haudiences, hissuers, ⟨name, hname, hnames⟩, .inr ⟨_, hurl, rfl⟩, hparse, hlocation,
    hheaders, hpre, hretry⟩

/-- **A value makes up a policy just when it is an object whose members are admissible**, and
the policy is the one that reflects them: all its fields are those of the members, or the
defaults where members are lacking, and its endpoints are those of the URLs. -/
theorem policy_of_admissible (value : Json) :
    ((∃ policy, Policy.ofJson value = .ok policy) ↔
      ∃ members, value = .object members ∧ Admits members) ∧
    ∀ policy, Policy.ofJson value = .ok policy ↔
      ∃ members, value = .object members ∧ Admits members ∧ Reflects members policy := by
  have hpolicy (policy : Policy) : Policy.ofJson value = .ok policy ↔
      ∃ members, value = .object members ∧ Admits members ∧ Reflects members policy := by
    cases value with
    | object members => simp [Policy.ofJson, ofMembers_eq_ok]
    | _ => simp [Policy.ofJson, wrongType]
  refine ⟨?_, hpolicy⟩
  simp only [hpolicy]
  constructor
  · rintro ⟨policy, members, hvalue, hadmits, -⟩
    exact ⟨members, hvalue, hadmits⟩
  · rintro ⟨members, hvalue, hadmits⟩
    obtain ⟨policy, hreflects⟩ := hadmits.reflects
    exact ⟨policy, members, hvalue, hadmits, hreflects⟩

end

end Settings

end BearerAuth
