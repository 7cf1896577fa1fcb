import BearerAuth.Proofs.Json.Merge
import BearerAuth.Proofs.Json.Same

/-!
# The merged value at every path

What two values have at a path decides what the merged value has there, and that is said without
the merging of the members one by one (`merge_by_paths`): the value laid over wins wherever the two
do not both have objects, and where they do each key is looked up by itself.

The laws of `merge` as an operation follow.  Laying a value over again changes nothing, down to the
order of the members (`merge_merge`): its keys are all there, so each keeps its place.
-/

namespace BearerAuth

namespace Json

section

variable {base overrides value : Json} {path : List Bytes} {key : Bytes} {under above : Members}

/-! ## Paths -/

theorem at?_append (value : Json) (path rest : List Bytes) :
    value.at? (path ++ rest) = (value.at? path).bind fun inner => inner.at? rest := by
  induction path generalizing value with
  | nil => rfl
  | cons key path ih =>
      cases value with
      | object members =>
          rw [List.cons_append, at?, at?]
          cases Members.get? members key with
          | none => rfl
          | some found => exact ih found
      | _ => rfl

theorem at?_snoc (h : value.at? path = some (.object under)) (key : Bytes) :
    value.at? (path ++ [key]) = under.get? key := by
  rw [at?_append, h]
  show at? (.object under) [key] = _
  rw [at?]
  cases Members.get? under key <;> rfl

/-- Where both values have objects, so has the merged one, and it is merged from these. -/
theorem at?_merge_objects (hdistinct : overrides.Distinct)
    (hunder : base.at? path = some (.object under))
    (habove : overrides.at? path = some (.object above)) :
    (merge base overrides).at? path = some (.object (mergeMembers under above)) ∧
      above.keys.Nodup := by
  induction path generalizing base overrides with
  | nil =>
      obtain rfl : base = .object under := Option.some.inj hunder
      obtain rfl : overrides = .object above := Option.some.inj habove
      exact ⟨rfl, hdistinct.1⟩
  | cons key path ih =>
      cases overrides with
      | object members =>
          cases base with
          | object members' =>
              obtain ⟨hkeys, hmembers⟩ := hdistinct
              rw [at?] at hunder habove
              rw [merge, at?, get?_mergeMembers hkeys]
              cases hfound : Members.get? members key with
              | none => simp [hfound] at habove
              | some found =>
                  cases hold : Members.get? members' key with
                  | none => simp [hold] at hunder
                  | some old =>
                      simp only [hfound, hold] at hunder habove
                      exact ih (hmembers.of_get? hfound) hunder habove
          | _ => cases hunder
      | _ => cases habove

/-- A key that is not laid over keeps what it has. -/
theorem at?_merge_kept (hdistinct : overrides.Distinct)
    (hunder : base.ObjectAt path) (habove : overrides.ObjectAt path)
    (hlacks : overrides.at? (path ++ [key]) = none) :
    (merge base overrides).at? (path ++ [key]) = base.at? (path ++ [key]) := by
  obtain ⟨under, hunder⟩ := hunder
  obtain ⟨above, habove⟩ := habove
  obtain ⟨hmerged, hkeys⟩ := at?_merge_objects hdistinct hunder habove
  rw [at?_snoc habove] at hlacks
  rw [at?_snoc hmerged, at?_snoc hunder, get?_mergeMembers hkeys, hlacks]

/-- Nothing comes from anywhere else. -/
theorem at?_of_at?_merge (hdistinct : overrides.Distinct)
    (hat : (merge base overrides).at? path = some value) :
    (∃ value, base.at? path = some value) ∨ ∃ value, overrides.at? path = some value := by
  induction path generalizing base overrides with
  | nil => exact .inl ⟨base, rfl⟩
  | cons key path ih =>
      cases overrides with
      | object members =>
          cases base with
          | object members' =>
              obtain ⟨hkeys, hmembers⟩ := hdistinct
              rw [merge, at?, get?_mergeMembers hkeys] at hat
              rw [at?, at?]
              cases hfound : Members.get? members key with
              | none =>
                  simp only [hfound] at hat
                  exact .inl ⟨value, hat⟩
              | some found =>
                  simp only [hfound] at hat ⊢
                  cases hold : Members.get? members' key with
                  | none =>
                      simp only [hold] at hat
                      exact .inr ⟨value, hat⟩
                  | some old =>
                      simp only [hold] at hat
                      exact ih (hmembers.of_get? hfound) hat
          | _ => exact .inr ⟨value, hat⟩
      | _ => cases hat

/-! ## Laying over twice -/

theorem nodup_keys_mergeMembers (h : under.keys.Nodup) (above : Members) :
    Members.keys (mergeMembers under above) |>.Nodup := by
  induction above generalizing under with
  | nil => exact h
  | cons member rest ih => exact ih (Members.nodup_keys_put h _ _)

theorem keys_mergeMembers (h : ∀ key ∈ above.keys, key ∈ under.keys) :
    Members.keys (mergeMembers under above) = under.keys := by
  induction above generalizing under with
  | nil => rfl
  | cons member rest ih =>
      obtain ⟨key, value⟩ := member
      obtain ⟨hkey, hrest⟩ := List.forall_mem_cons.mp h
      have hput (value : Json) : Members.keys (under.put key value) = under.keys := by
        rw [Members.keys_put, if_pos hkey]
      rw [mergeMembers, ih fun other hother => (hput _).symm ▸ hrest other hother, hput]

theorem mergeMembers_eq_left (hunder : under.keys.Nodup) (habove : above.keys.Nodup)
    (h : ∀ key value, above.get? key = some value →
      ∃ old, under.get? key = some old ∧ merge old value = old) :
    mergeMembers under above = under := by
  have hkeys : Members.keys (mergeMembers under above) = under.keys := by
    refine keys_mergeMembers fun key hkey => Decidable.byContradiction fun hnot => ?_
    cases hfound : above.get? key with
    | none => exact Members.get?_eq_none_iff.mp hfound hkey
    | some value =>
        obtain ⟨old, hold, -⟩ := h key value hfound
        exact nomatch hold.symm.trans (Members.get?_eq_none_iff.mpr hnot)
  refine Members.ext_of_keys hkeys (hkeys ▸ hunder) fun key => ?_
  rw [get?_mergeMembers habove]
  cases hfound : above.get? key with
  | none => rfl
  | some value =>
      obtain ⟨old, hold, hmerge⟩ := h key value hfound
      simp only [hold, hmerge]

theorem merge_null (overrides : Json) : merge .null overrides = overrides := by
  cases overrides <;> rfl

mutual

theorem merge_merge : ∀ (overrides : Json), overrides.Distinct → ∀ base : Json, base.Distinct →
    merge (merge base overrides) overrides = merge base overrides
  | .object above, ⟨hkeys, hmembers⟩, base, hbase => by
      have hself {key : Bytes} {value : Json} (hvalue : Members.get? above key = some value) :
          merge value value = value := by
        have hnull := merge_merge_members above _ (Members.mem_of_get? hvalue)
          (hmembers.of_get? hvalue) .null trivial
        rwa [merge_null] at hnull
      cases base with
      | object under =>
          obtain ⟨hunder, hvalues⟩ := hbase
          refine congrArg Json.object (mergeMembers_eq_left (nodup_keys_mergeMembers hunder above)
            hkeys fun key value hvalue => ?_)
          rw [get?_mergeMembers hkeys, hvalue]
          refine ⟨_, rfl, ?_⟩
          cases hold : Members.get? under key with
          | none => exact hself hvalue
          | some old =>
              exact merge_merge_members above _ (Members.mem_of_get? hvalue)
                (hmembers.of_get? hvalue) old (hvalues.of_get? hold)
      | _ =>
          exact congrArg Json.object (mergeMembers_eq_left hkeys hkeys fun key value hvalue =>
            ⟨value, hvalue, hself hvalue⟩)
  | .null, _, _, _ | .bool _, _, _, _ | .int _, _, _, _ | .double _, _, _, _ | .text _, _, _, _
  | .array _, _, _, _ => rfl

/-- The values of members are laid over once and for all. -/
theorem merge_merge_members : ∀ (above : Members), ∀ member ∈ above, member.2.Distinct →
    ∀ base : Json, base.Distinct →
      merge (merge base member.2) member.2 = merge base member.2
  | (_, value) :: rest, member, h => by
      rcases List.mem_cons.mp h with heq | h
      · exact heq ▸ merge_merge value
      · exact merge_merge_members rest member h

end

theorem merge_self (h : value.Distinct) : merge value value = value := by
  have hnull := merge_merge value h .null trivial
  rwa [merge_null] at hnull

/-- **The merged value, path by path**, for all values whose objects have distinct keys.  What is
laid over is there, an object apart; where both have objects a key that is not laid over keeps what
it has; where they do not both have objects what is laid over replaces what was there, as it does
where there was nothing; and there is nothing else.  So nothing is laid over without a change to
anything, a value over itself changes nothing, and neither does the same once more. -/
theorem merge_by_paths {base overrides : Json} (hbase : base.Distinct)
    (hoverrides : overrides.Distinct) :
    (∀ path value, overrides.at? path = some value → value.isObject = false →
      (merge base overrides).at? path = some value) ∧
    (∀ path key, base.ObjectAt path → overrides.ObjectAt path →
      overrides.at? (path ++ [key]) = none →
      (merge base overrides).at? (path ++ [key]) = base.at? (path ++ [key])) ∧
    (∀ path value, base.at? path = none ∨ ¬ base.ObjectAt path ∨ ¬ overrides.ObjectAt path →
      overrides.at? path = some value → (merge base overrides).at? path = some value) ∧
    (∀ path value, (merge base overrides).at? path = some value →
      (∃ value, base.at? path = some value) ∨ ∃ value, overrides.at? path = some value) ∧
    (base.isObject = true → merge base (.object []) = base) ∧
    merge base base = base ∧
    merge (merge base overrides) overrides = merge base overrides := by
  refine ⟨?_, ?_, ?_, ?_, ?_, merge_self hbase, merge_merge overrides hoverrides base hbase⟩
  · exact fun path value hat hvalue => at?_merge hoverrides hat hvalue base
  · exact fun path key hunder habove hlacks => at?_merge_kept hoverrides hunder habove hlacks
  · intro path value hclash hat
    refine at?_merge_replaced hoverrides hat fun ⟨⟨under, hunder⟩, habove⟩ => ?_
    rcases hclash with hnone | hnot | hnot
    · exact nomatch hunder.symm.trans hnone
    · exact hnot ⟨under, hunder⟩
    · exact hnot habove
  · exact fun path value hat => at?_of_at?_merge hoverrides hat
  · intro hobject
    cases base with
    | object under => rfl
    | _ => cases hobject

/-- Defaults with a section and a flag. -/
def sectionAndFlag : Json :=
  .object [(utf8 "section", .object [(utf8 "x", .int 1), (utf8 "y", .int 2)]),
    (utf8 "flag", .bool true)]

/-- A rule that changes one member of the section and replaces the flag by a section. -/
def flagReplaced : Json :=
  .object [(utf8 "section", .object [(utf8 "y", .null)]), (utf8 "flag", .object [])]

theorem flag_replaced_section_merged :
    let merged := merge sectionAndFlag flagReplaced
    merged.at? [utf8 "section", utf8 "x"] = some (.int 1) ∧
      merged.at? [utf8 "section", utf8 "y"] = some .null ∧
      merged.at? [utf8 "flag"] = some (.object []) ∧
      merge merged flagReplaced = merged := by
  have hbase : sectionAndFlag.Distinct :=
    ⟨by decide, ⟨by decide, trivial, trivial, trivial⟩, trivial, trivial⟩
  have hoverrides : flagReplaced.Distinct :=
    ⟨by decide, ⟨by decide, trivial, trivial⟩, ⟨by decide, trivial⟩, trivial⟩
  obtain ⟨hlaid, hkept, hreplaced, -, -, -, hagain⟩ := merge_by_paths hbase hoverrides
  refine ⟨?_, hlaid _ _ rfl rfl, hreplaced _ _ (.inr (.inl ?_)) rfl, hagain⟩
  · exact hkept [utf8 "section"] (utf8 "x") ⟨_, rfl⟩ ⟨_, rfl⟩ rfl
  · rintro ⟨members, hflag⟩
    cases hflag

end

end Json

end BearerAuth
