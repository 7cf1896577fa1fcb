import BearerAuth.Json.Merge
import BearerAuth.Proofs.Json.Members

/-!
# Merging, path by path

A member can be taken out of a value by its path (`remove`), and it makes no difference whether it
is taken out of the merged value or out of both values before they are merged (`remove_merge`).
What is laid over a value keeps its place there, unless an object is laid over an object
(`at?_merge_replaced`): a path that leads to anything but an object leads to the same in the merged
value (`at?_merge`).  For that the keys of an object have to be distinct, since `put` gives a key
one value and `mergeMembers` puts them one by one.
-/

namespace BearerAuth

namespace Json

/-! ## Distinct keys -/

mutual

/-- No object, at any depth, has two members of one key. -/
def Distinct : Json → Prop
  | .array items => ItemsDistinct items
  | .object members => (Members.keys members).Nodup ∧ MembersDistinct members
  | _ => True

def ItemsDistinct : List Json → Prop
  | [] => True
  | item :: rest => Distinct item ∧ ItemsDistinct rest

def MembersDistinct : List (Bytes × Json) → Prop
  | [] => True
  | (_, value) :: rest => Distinct value ∧ MembersDistinct rest

end

theorem MembersDistinct.of_get? {members : Members} {key : Bytes} {value : Json}
    (h : MembersDistinct members) (hvalue : members.get? key = some value) : value.Distinct := by
  induction members with
  | nil => cases hvalue
  | cons member rest ih =>
      rw [Members.get?] at hvalue
      split at hvalue
      · cases hvalue
        exact h.1
      · exact ih h.2 hvalue

/-! ## Removing a member -/

namespace Members

def erase (members : Members) (key : Bytes) : Members :=
  members.filter fun member => member.1 ≠ key

/-- The members with the value of a key changed. -/
def alter (members : Members) (key : Bytes) (change : Json → Json) : Members :=
  members.map fun member => if member.1 = key then (key, change member.2) else member

end Members

/-- A value without the member at a path of object keys; the value itself when the path leads
nowhere. -/
def remove : List Bytes → Json → Json
  | key :: path, .object members =>
      .object (if path.isEmpty then Members.erase members key
        else Members.alter members key (remove path))
  | _, value => value

namespace Members

section

variable {members : Members} {key : Bytes} {change : Json → Json}

theorem erase_cons (k : Bytes) (v : Json) (rest : Members) :
    erase ((k, v) :: rest) key = if k = key then erase rest key else (k, v) :: erase rest key := by
  rw [erase, List.filter_cons]
  by_cases h : k = key
  · simp [h, erase]
  · simp [h, erase]

theorem alter_cons (k : Bytes) (v : Json) (rest : Members) :
    alter ((k, v) :: rest) key change =
      (k, if k = key then change v else v) :: alter rest key change := by
  rw [alter, List.map_cons]
  split
  · next h => rw [← h, alter]
  · rfl

theorem get?_erase (key' : Bytes) :
    (members.erase key).get? key' = if key = key' then none else members.get? key' := by
  induction members with
  | nil => simp [erase, get?]
  | cons member rest ih =>
      obtain ⟨k, v⟩ := member
      rw [erase_cons, get?]
      by_cases hk : k = key
      · subst hk
        rw [if_pos rfl, ih]
        split <;> rfl
      · rw [if_neg hk, get?, ih]
        by_cases hk' : k = key'
        · subst hk'
          simp [Ne.symm hk]
        · simp [hk']

theorem get?_alter (key' : Bytes) :
    (members.alter key change).get? key' =
      if key = key' then (members.get? key').map change else members.get? key' := by
  induction members with
  | nil => simp [alter, get?]
  | cons member rest ih =>
      obtain ⟨k, v⟩ := member
      rw [alter_cons, get?, get?, ih]
      by_cases hk' : k = key'
      · subst hk'
        by_cases hk : k = key
        · simp [hk]
        · simp [hk, Ne.symm hk]
      · simp [hk']

theorem keys_alter : (members.alter key change).keys = members.keys := by
  rw [keys, keys, alter, List.map_map]
  refine List.map_congr_left fun member _ => ?_
  rw [Function.comp_apply]
  split
  · next h => exact h.symm
  · rfl

theorem erase_put_self (value : Json) : (members.put key value).erase key = members.erase key := by
  induction members with
  | nil => simp [put, erase]
  | cons member rest ih =>
      obtain ⟨k, v⟩ := member
      by_cases hk : k = key
      · rw [put, if_pos hk, erase_cons, erase_cons]
        simp only [hk, if_true]
      · rw [put, if_neg hk, erase_cons, erase_cons, ih]

theorem erase_put {key' : Bytes} (hne : key' ≠ key) (value : Json) :
    (members.put key' value).erase key = (members.erase key).put key' value := by
  induction members with
  | nil => simp [put, erase, hne]
  | cons member rest ih =>
      obtain ⟨k, v⟩ := member
      rw [put, erase_cons]
      by_cases hk : k = key'
      · subst hk
        rw [if_pos rfl, if_neg hne, erase_cons, if_neg hne, put, if_pos rfl]
      · by_cases hk' : k = key
        · rw [if_neg hk, if_pos hk', erase_cons, if_pos hk', ih]
        · rw [if_neg hk, if_neg hk', erase_cons, if_neg hk', put, if_neg hk, ih]

theorem alter_put (key' : Bytes) (value : Json) :
    (members.put key' value).alter key change =
      (members.alter key change).put key' (if key' = key then change value else value) := by
  induction members with
  | nil => rw [put, alter_cons]; rfl
  | cons member rest ih =>
      obtain ⟨k, v⟩ := member
      rw [put, alter_cons]
      by_cases hk : k = key'
      · subst hk
        rw [if_pos rfl, alter_cons, put, if_pos rfl]
      · rw [if_neg hk, alter_cons, put, if_neg hk, ih]

end

end Members

/-! ## Removing from what is merged -/

/-- A key that is not in the overrides keeps its value, one that is has its two values merged. -/
theorem get?_mergeMembers {overrides : Members} (hkeys : overrides.keys.Nodup) (base : Members)
    (key : Bytes) :
    Members.get? (mergeMembers base overrides) key = match overrides.get? key with
      | none => base.get? key
      | some value => some (match base.get? key with
        | some old => merge old value
        | none => value) := by
  induction overrides generalizing base with
  | nil => rfl
  | cons member rest ih =>
      obtain ⟨k, v⟩ := member
      obtain ⟨hk, hrest⟩ := List.nodup_cons.mp hkeys
      rw [mergeMembers, ih hrest, Members.get?_put, Members.get?]
      by_cases h : k = key
      · subst h
        rw [Members.get?_eq_none_iff.mpr hk]
        cases base.get? k with
        | none => simp
        | some old => simp
      · simp only [h, if_false]

theorem erase_mergeMembers (base : Members) (overrides : Members) (key : Bytes) :
    Members.erase (mergeMembers base overrides) key =
      mergeMembers (base.erase key) (overrides.erase key) := by
  induction overrides generalizing base with
  | nil => rfl
  | cons member rest ih =>
      obtain ⟨k, v⟩ := member
      rw [mergeMembers, ih, Members.erase_cons]
      by_cases hk : k = key
      · rw [if_pos hk, hk, Members.erase_put_self]
      · rw [if_neg hk, mergeMembers, Members.erase_put hk, Members.get?_erase, if_neg (Ne.symm hk)]

/-- A change of the values of a key that goes through `merge` goes through `mergeMembers`. -/
theorem alter_mergeMembers {change : Json → Json}
    (h : ∀ base overrides, change (merge base overrides) = merge (change base) (change overrides))
    (base overrides : Members) (key : Bytes) :
    Members.alter (mergeMembers base overrides) key change =
      mergeMembers (base.alter key change) (overrides.alter key change) := by
  induction overrides generalizing base with
  | nil => rfl
  | cons member rest ih =>
      obtain ⟨k, v⟩ := member
      rw [mergeMembers, ih, Members.alter_cons, mergeMembers, Members.alter_put,
        Members.get?_alter]
      congr 2
      by_cases hk : k = key
      · subst hk
        cases base.get? k with
        | none => simp
        | some old => simp [h]
      · simp [hk, Ne.symm hk]

theorem merge_of_not_object {base overrides : Json} (h : ∀ members, overrides ≠ .object members) :
    merge base overrides = overrides := by
  cases overrides with
  | object members => exact absurd rfl (h members)
  | _ => rfl

theorem merge_remove_object {base : Json} (h : base.isObject = false) (members : Members)
    (path : List Bytes) :
    merge base (remove path (.object members)) = remove path (.object members) := by
  cases path <;> cases base <;> first | rfl | cases h

/-- **A member taken out of both values is taken out of the merged one**, at every path, whatever
the two values have there. -/
theorem remove_merge (base overrides : Json) (path : List Bytes) :
    (merge base overrides).remove path = merge (base.remove path) (overrides.remove path) := by
  induction path generalizing base overrides with
  | nil => rfl
  | cons key path ih =>
      cases overrides with
      | object members =>
          cases base with
          | object under =>
              rw [merge, remove, remove, remove, merge]
              split
              · rw [erase_mergeMembers]
              · rw [alter_mergeMembers ih]
          | _ => exact (merge_remove_object rfl members (key :: path)).symm
      | _ => rfl

/-- An object stands at the end of a path. -/
def ObjectAt (value : Json) (path : List Bytes) : Prop :=
  ∃ members, value.at? path = some (.object members)

theorem merge_of_not_objects {base overrides : Json}
    (h : ¬ (base.ObjectAt [] ∧ overrides.ObjectAt [])) : merge base overrides = overrides := by
  cases overrides with
  | object members =>
      cases base with
      | object under => exact absurd ⟨⟨under, rfl⟩, members, rfl⟩ h
      | _ => rfl
  | _ => rfl

/-- **What is laid over a value replaces what is there**, along every path, unless an object is laid
over an object. -/
theorem at?_merge_replaced {overrides value : Json} {path : List Bytes}
    (hdistinct : overrides.Distinct) (hat : overrides.at? path = some value) {base : Json}
    (hclash : ¬ (base.ObjectAt path ∧ overrides.ObjectAt path)) :
    (merge base overrides).at? path = some value := by
  induction path generalizing base overrides with
  | nil => rwa [merge_of_not_objects hclash]
  | cons key path ih =>
      cases overrides with
      | object members =>
          cases base with
          | object under =>
              obtain ⟨hkeys, hmembers⟩ := hdistinct
              rw [at?] at hat
              rw [merge, at?, get?_mergeMembers hkeys]
              cases hfound : Members.get? members key with
              | none => simp [hfound] at hat
              | some found =>
                  simp only [hfound] at hat ⊢
                  cases hold : Members.get? under key with
                  | none => exact hat
                  | some old =>
                      refine ih (hmembers.of_get? hfound) hat ?_
                      rintro ⟨hunder, hover⟩
                      refine hclash ⟨?_, ?_⟩
                      · simpa only [ObjectAt, at?, hold] using hunder
                      · simpa only [ObjectAt, at?, hfound] using hover
          | _ => exact hat
      | _ => cases hat

/-- **What is laid over a value is there in the merged value**, along every path that does not
end at an object. -/
theorem at?_merge {overrides value : Json} {path : List Bytes} (hdistinct : overrides.Distinct)
    (hat : overrides.at? path = some value) (hvalue : value.isObject = false) (base : Json) :
    (merge base overrides).at? path = some value := by
  refine at?_merge_replaced hdistinct hat ?_
  rintro ⟨-, members, hobject⟩
  obtain rfl := Option.some.inj (hat.symm.trans hobject)
  cases hvalue

end Json

end BearerAuth
