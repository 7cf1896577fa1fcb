import BearerAuth.Json.Basic

/-!
# Looking members up

What `put` does to an object, seen through `get?` and `keys`, which together determine an object
whose keys are distinct (`ext_of_keys`).
-/

namespace BearerAuth

namespace Json

namespace Members

theorem get?_put (members : Members) (key : Bytes) (value : Json) (key' : Bytes) :
    (members.put key value).get? key' = if key = key' then some value else members.get? key' := by
  induction members with
  | nil => rfl
  | cons member rest ih =>
      obtain ⟨k, v⟩ := member
      by_cases hk : k = key
      · subst hk
        simp only [put, if_true, get?]
        split <;> rfl
      · simp only [put, hk, if_false, get?, ih]
        by_cases hk' : k = key'
        · subst hk'
          simp [Ne.symm hk]
        · simp [hk']

theorem get?_eq_none_iff {members : Members} {key : Bytes} :
    members.get? key = none ↔ key ∉ members.keys := by
  induction members with
  | nil => simp [get?, keys]
  | cons member rest ih =>
      rw [get?, keys, List.map_cons, List.mem_cons]
      by_cases hk : member.1 = key
      · simp [hk]
      · simp [hk, Ne.symm hk, ih, keys]

theorem keys_put (members : Members) (key : Bytes) (value : Json) :
    (members.put key value).keys =
      if key ∈ members.keys then members.keys else members.keys ++ [key] := by
  induction members with
  | nil => simp [put, keys]
  | cons member rest ih =>
      obtain ⟨k, v⟩ := member
      rw [put]
      by_cases hk : k = key
      · rw [if_pos hk, if_pos (hk ▸ List.mem_cons_self)]
        rfl
      · have hmem : key ∈ keys ((k, v) :: rest) ↔ key ∈ keys rest := by
          simp [keys, Ne.symm hk]
        rw [if_neg hk]
        show k :: (put rest key value).keys = _
        rw [ih]
        by_cases h : key ∈ keys rest
        · rw [if_pos h, if_pos (hmem.mpr h)]
          rfl
        · rw [if_neg h, if_neg fun h' => h (hmem.mp h')]
          rfl

theorem nodup_keys_put {members : Members} (h : members.keys.Nodup) (key : Bytes) (value : Json) :
    (members.put key value).keys.Nodup := by
  rw [keys_put]
  split
  · exact h
  · next hkey =>
      rw [List.nodup_append]
      refine ⟨h, by simp, ?_⟩
      rintro k hk _ (hmem : _ ∈ [key]) rfl
      exact hkey (List.mem_singleton.mp hmem ▸ hk)

theorem ext_of_keys {members members' : Members} (hkeys : members.keys = members'.keys)
    (hnodup : members.keys.Nodup) (hvalues : ∀ key, members.get? key = members'.get? key) :
    members = members' := by
  induction members generalizing members' with
  | nil =>
      cases members' with
      | nil => rfl
      | cons => cases hkeys
  | cons member rest ih =>
      obtain ⟨k, v⟩ := member
      cases members' with
      | nil => cases hkeys
      | cons member' rest' =>
          obtain ⟨k', v'⟩ := member'
          obtain ⟨rfl, hrest⟩ := List.cons.inj hkeys
          obtain ⟨hk, hnodup⟩ := List.nodup_cons.mp hnodup
          have hv := hvalues k
          simp only [get?, if_true, Option.some.injEq] at hv
          subst hv
          congr 1
          refine ih hrest hnodup fun key => ?_
          have hkey := hvalues key
          by_cases h : k = key
          · subst h
            rw [get?_eq_none_iff.mpr hk, get?_eq_none_iff.mpr fun hmem => hk (hrest ▸ hmem)]
          · simpa only [get?, h, if_false] using hkey

end Members

end Json

end BearerAuth
