import BearerAuth.Json.Reader
import BearerAuth.Proofs.Json.Merge
import Mathlib.Data.List.Forall2

/-!
# Secrets that stand for one another

Two runs that differ in their secrets alone are compared with a `Pairing`: it says which secret of
one run stands where which secret of the other does, and the same for tokens.  A value of one run
and a value of the other are paired when they are the same but for one text, which is paired: in
the settings of a rule that is the client's secret (`Rules`), in an answer to a token request the
token (`Answers`).

Both are objects that agree but for the value of one key (`Objects`), and laying one over another
keeps them so (`Objects.merge`).
-/

namespace BearerAuth

open Json

/-! ## Lists that are paired item by item -/

section

variable {α β : Type} {items : α → β → Prop} {l : List α} {l' : List β}

theorem forall₂_getElem? (h : List.Forall₂ items l l') (i : Nat) :
    Option.Rel items l[i]? l'[i]? := by
  induction h generalizing i with
  | nil => exact .none
  | cons hitem _ ih =>
      cases i with
      | zero => exact .some hitem
      | succ i => exact ih i

theorem forall₂_set (h : List.Forall₂ items l l') (i : Nat) {a : α} {b : β} (hitem : items a b) :
    List.Forall₂ items (l.set i a) (l'.set i b) := by
  induction h generalizing i with
  | nil => exact .nil
  | cons hold hrest ih =>
      cases i with
      | zero => exact .cons hitem hrest
      | succ i => exact .cons hold (ih i)

end

/-- Which secrets of clients stand for one another in two runs, and which tokens do.  For secrets
that is one to one, and only the empty text stands for the empty one. -/
structure Pairing where
  Secrets : Bytes → Bytes → Prop
  Tokens : Bytes → Bytes → Prop
  noSecret : Secrets [] []
  noToken : Tokens [] []
  oneToOne : ∀ {a b c d : Bytes}, Secrets a b → Secrets c d → (a = c ↔ b = d)
  nil_iff : ∀ {a b : Bytes}, Tokens a b → (a = [] ↔ b = [])

namespace Pairing

theorem Secrets.isEmpty_eq {σ : Pairing} {a b : Bytes} (h : σ.Secrets a b) :
    a.isEmpty = b.isEmpty := by
  rw [Bool.eq_iff_iff, List.isEmpty_iff, List.isEmpty_iff]
  exact σ.oneToOne h σ.noSecret

theorem Tokens.isEmpty_eq {σ : Pairing} {a b : Bytes} (h : σ.Tokens a b) :
    a.isEmpty = b.isEmpty := by
  rw [Bool.eq_iff_iff, List.isEmpty_iff, List.isEmpty_iff]
  exact σ.nil_iff h

/-! ## Values -/

/-- Two paired texts, or one value that is no text. -/
inductive Strings (texts : Bytes → Bytes → Prop) : Json → Json → Prop
  | text {a b : Bytes} : texts a b → Strings texts (.text a) (.text b)
  | same {value : Json} : (∀ s, value ≠ .text s) → Strings texts value value

/-- Members with the same keys in the same order, whose values are the same but for one key. -/
def Fields (key : Bytes) (values : Json → Json → Prop) : Members → Members → Prop :=
  List.Forall₂ fun a b => a.1 = b.1 ∧ (a.1 = key → values a.2 b.2) ∧ (a.1 ≠ key → a.2 = b.2)

/-- Two objects that agree but for the value of one key, or one value that is no object. -/
inductive Objects (key : Bytes) (values : Json → Json → Prop) : Json → Json → Prop
  | object {members members' : Members} : Fields key values members members' →
      Objects key values (.object members) (.object members')
  | same {value : Json} : (∀ members, value ≠ .object members) → Objects key values value value

/-- How a client authorizes itself, but for its secret. -/
def Clients (σ : Pairing) : Json → Json → Prop := Objects (utf8 "client_secret") (Strings σ.Secrets)

/-- The settings of a rule, but for the client's secret. -/
def Rules (σ : Pairing) : Json → Json → Prop := Objects (utf8 "pre_authorization") σ.Clients

/-- Answers to token requests, but for the token. -/
def Answers (σ : Pairing) : Json → Json → Prop := Objects (utf8 "access_token") (Strings σ.Tokens)

/-- Two texts of paired values, or one text, whose value, if it has one, is paired with itself. -/
inductive Sources (values : Json → Json → Prop) : Bytes → Bytes → Prop
  | same {text : Bytes} : (∀ value, parse text = .ok value → values value value) →
      Sources values text text
  | read {text text' : Bytes} {value value' : Json} : parse text = .ok value →
      parse text' = .ok value' → values value value' → Sources values text text'

/-- Both texts have values, which are paired, or they are one text that has none. -/
theorem Sources.parsed {values : Json → Json → Prop} {text text' : Bytes}
    (h : Sources values text text') :
    (∃ value value', parse text = .ok value ∧ parse text' = .ok value' ∧ values value value') ∨
      text = text' ∧ ∃ fault, parse text = .error fault := by
  cases h with
  | read hvalue hvalue' hvalues => exact .inl ⟨_, _, hvalue, hvalue', hvalues⟩
  | same hself =>
      cases hvalue : parse text with
      | ok value => exact .inl ⟨value, value, rfl, rfl, hself value hvalue⟩
      | error fault => exact .inr ⟨rfl, fault, rfl⟩

/-! ## Members -/

section

variable {texts : Bytes → Bytes → Prop} {key k : Bytes} {values : Json → Json → Prop}
  {members members' : Members}

theorem Fields.same (h : ∀ member ∈ members, member.1 = key → values member.2 member.2) :
    Fields key values members members :=
  List.forall₂_same.mpr fun member hmember => ⟨rfl, h member hmember, fun _ => rfl⟩

theorem Fields.single {value value' : Json} (h : values value value') :
    Fields key values [(key, value)] [(key, value')] :=
  .cons ⟨rfl, fun _ => h, fun hne => absurd rfl hne⟩ .nil

theorem Fields.get?_ne (h : Fields key values members members') (hk : k ≠ key) :
    members.get? k = members'.get? k := by
  induction h with
  | nil => rfl
  | @cons a b rest rest' hab _ ih =>
      obtain ⟨keyOf, old⟩ := a
      obtain ⟨keyOf', old'⟩ := b
      obtain ⟨hkey, -, hother⟩ := hab
      obtain rfl : keyOf = keyOf' := hkey
      by_cases hfound : keyOf = k
      · subst hfound
        simp only [Members.get?, if_true]
        exact congrArg some (hother hk)
      · simp only [Members.get?, hfound, if_false]
        exact ih

theorem Fields.get?_key (h : Fields key values members members') :
    Option.Rel values (members.get? key) (members'.get? key) := by
  induction h with
  | nil => exact .none
  | @cons a b rest rest' hab _ ih =>
      obtain ⟨keyOf, old⟩ := a
      obtain ⟨keyOf', old'⟩ := b
      obtain ⟨hkey, hvalues, -⟩ := hab
      obtain rfl : keyOf = keyOf' := hkey
      by_cases hfound : keyOf = key
      · simp only [Members.get?, hfound, if_true]
        exact .some (hvalues hfound)
      · simp only [Members.get?, hfound, if_false]
        exact ih

theorem Fields.present?_ne (h : Fields key values members members') (hk : k ≠ key) :
    members.present? k = members'.present? k := by
  rw [Members.present?, Members.present?, h.get?_ne hk]

/-- No value is paired with `null` but itself. -/
def KeepsNull (values : Json → Json → Prop) : Prop :=
  ∀ {value value' : Json}, values value value' → (value = .null ↔ value' = .null)

theorem Strings.keepsNull : KeepsNull (Strings texts) := by
  intro value value' h
  cases h with
  | text => simp
  | same => rfl

theorem Objects.keepsNull : KeepsNull (Objects key values) := by
  intro value value' h
  cases h with
  | object => simp
  | same => rfl

theorem Fields.present?_key (hnull : KeepsNull values) (h : Fields key values members members') :
    Option.Rel values (members.present? key) (members'.present? key) := by
  rw [Members.present?, Members.present?]
  have hfound := h.get?_key
  generalize members.get? key = found at hfound ⊢
  generalize members'.get? key = found' at hfound ⊢
  cases hfound with
  | none => exact .none
  | @some value value' hvalues =>
      by_cases hvalue : value = .null
      · obtain rfl := hvalue
        obtain rfl := (hnull hvalues).mp rfl
        exact .none
      · have hvalue' : value' ≠ .null := fun h => hvalue ((hnull hvalues).mpr h)
        split
        · next heq => exact absurd (Option.some.inj heq) hvalue
        · split
          · next heq => exact absurd (Option.some.inj heq) hvalue'
          · exact .some hvalues

theorem Fields.put (h : Fields key values members members') {value value' : Json}
    (hkey : k = key → values value value') (hother : k ≠ key → value = value') :
    Fields key values (members.put k value) (members'.put k value') := by
  induction h with
  | nil => exact .cons ⟨rfl, hkey, hother⟩ .nil
  | @cons a b rest rest' hab hrest ih =>
      obtain ⟨keyOf, old⟩ := a
      obtain ⟨keyOf', old'⟩ := b
      obtain rfl : keyOf = keyOf' := hab.1
      by_cases hfound : keyOf = k
      · simp only [Members.put, hfound, if_true]
        exact .cons ⟨rfl, hkey, hother⟩ hrest
      · simp only [Members.put, hfound, if_false]
        exact .cons hab ih

end

/-! ## Laying values over one another -/

/-- Values laid over one another are paired when they were. -/
def Merges (values : Json → Json → Prop) : Prop :=
  ∀ {base base' upper upper' : Json}, values base base' → values upper upper' →
    values (merge base upper) (merge base' upper')

section

variable {σ : Pairing} {texts : Bytes → Bytes → Prop} {key : Bytes}
  {values : Json → Json → Prop}

theorem Strings.merge : Merges (Strings texts) := by
  intro base base' upper upper' hbase hupper
  cases hupper with
  | text hpair =>
      simp only [Json.merge]
      exact .text hpair
  | same hnot =>
      cases upper with
      | object members =>
          -- a text under an object leaves nothing behind, whichever text it was
          cases hbase with
          | text =>
              simp only [Json.merge]
              exact .same hnot
          | same =>
              refine .same fun s => ?_
              cases base <;> simp [Json.merge]
      | _ =>
          simp only [Json.merge]
          exact .same hnot

theorem Fields.merge (hvalues : Merges values) {members members' upper upper' : Members}
    (h : Fields key values members members') (hupper : Fields key values upper upper') :
    Fields key values (mergeMembers members upper) (mergeMembers members' upper') := by
  induction hupper generalizing members members' with
  | nil =>
      rw [mergeMembers, mergeMembers]
      exact h
  | @cons a b rest rest' hab _ ih =>
      obtain ⟨k, value⟩ := a
      obtain ⟨k', value'⟩ := b
      obtain ⟨hkey, hsecret, hother⟩ := hab
      obtain rfl : k = k' := hkey
      rw [mergeMembers, mergeMembers]
      refine ih (h.put (fun hk => ?_) fun hk => ?_)
      · obtain rfl := hk
        have hfound := h.get?_key
        generalize members.get? k = found at hfound ⊢
        generalize members'.get? k = found' at hfound ⊢
        cases hfound with
        | none => exact hsecret rfl
        | some hold => exact hvalues hold (hsecret rfl)
      · rw [h.get?_ne hk, show value = value' from hother hk]

theorem Objects.merge (hvalues : Merges values) : Merges (Objects key values) := by
  intro base base' upper upper' hbase hupper
  cases hupper with
  | object hfields =>
      cases hbase with
      | object hbase =>
          simp only [Json.merge]
          exact .object (hbase.merge hvalues hfields)
      | same hnot =>
          cases base with
          | object found => exact absurd rfl (hnot found)
          | _ =>
              simp only [Json.merge]
              exact .object hfields
  | same hnot =>
      rw [merge_of_not_object hnot, merge_of_not_object hnot]
      exact .same hnot

theorem Rules.merge : Merges σ.Rules :=
  Objects.merge (Objects.merge Strings.merge)

end

end Pairing

end BearerAuth
