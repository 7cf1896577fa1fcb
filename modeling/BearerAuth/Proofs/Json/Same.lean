import BearerAuth.Proofs.Json.Merge

/-!
# Values that are the same but for the order of members

An object is a map from keys to values: two objects are the same when they have the same keys and,
under each key, the same value (`Same`).  The order in which the members are held is not looked
at, on any level.

What a value is made of is said by `Within`, for the values that stand in it, and by `depth`, for
the number of them that are nested in one another.
-/

namespace BearerAuth

namespace Json

/-! ## What a value is made of -/

/-- A value stands somewhere in another, or is that value itself. -/
inductive Within (part : Json) : Json → Prop
  | self : Within part part
  | item {item : Json} {items : List Json} :
      item ∈ items → Within part item → Within part (.array items)
  | member {member : Bytes × Json} {members : List (Bytes × Json)} :
      member ∈ members → Within part member.2 → Within part (.object members)

mutual

/-- How many values are nested in one another at most, the value itself counted. -/
def depth : Json → Nat
  | .array items => depthOfItems items + 1
  | .object members => depthOfMembers members + 1
  | _ => 1

def depthOfItems : List Json → Nat
  | [] => 0
  | item :: rest => max (depth item) (depthOfItems rest)

def depthOfMembers : List (Bytes × Json) → Nat
  | [] => 0
  | (_, value) :: rest => max (depth value) (depthOfMembers rest)

end

section

variable {item : Json} {items : List Json} {member : Bytes × Json} {members : Members}

theorem depth_pos (value : Json) : 0 < value.depth := by
  cases value <;> exact Nat.succ_pos _

theorem depth_le_depthOfItems (h : item ∈ items) : item.depth ≤ depthOfItems items := by
  induction items with
  | nil => cases h
  | cons first rest ih =>
      rw [depthOfItems]
      rcases List.mem_cons.mp h with rfl | h
      · exact Nat.le_max_left ..
      · exact Nat.le_trans (ih h) (Nat.le_max_right ..)

theorem depth_le_depthOfMembers (h : member ∈ members) :
    member.2.depth ≤ depthOfMembers members := by
  induction members with
  | nil => cases h
  | cons first rest ih =>
      obtain ⟨key, value⟩ := first
      rw [depthOfMembers]
      rcases List.mem_cons.mp h with rfl | h
      · exact Nat.le_max_left ..
      · exact Nat.le_trans (ih h) (Nat.le_max_right ..)

theorem ItemsDistinct.of_mem (h : ItemsDistinct items) (hitem : item ∈ items) :
    item.Distinct := by
  induction items with
  | nil => cases hitem
  | cons first rest ih =>
      rcases List.mem_cons.mp hitem with rfl | hitem
      · exact h.1
      · exact ih h.2 hitem

theorem MembersDistinct.of_mem (h : MembersDistinct members) (hmember : member ∈ members) :
    member.2.Distinct := by
  induction members with
  | nil => cases hmember
  | cons first rest ih =>
      rcases List.mem_cons.mp hmember with rfl | hmember
      · exact h.1
      · exact ih h.2 hmember

end

/-! ## Members and their values -/

namespace Members

variable {members : Members} {key : Bytes} {value : Json}

theorem mem_of_get? (h : members.get? key = some value) : (key, value) ∈ members := by
  induction members with
  | nil => cases h
  | cons member rest ih =>
      obtain ⟨k, v⟩ := member
      rw [get?] at h
      split at h
      · next hk =>
          obtain rfl := Option.some.inj h
          exact hk ▸ List.mem_cons_self
      · exact List.mem_cons_of_mem _ (ih h)

theorem get?_of_mem (hkeys : members.keys.Nodup) (h : (key, value) ∈ members) :
    members.get? key = some value := by
  induction members with
  | nil => cases h
  | cons member rest ih =>
      obtain ⟨k, v⟩ := member
      obtain ⟨hk, hkeys⟩ := List.nodup_cons.mp hkeys
      rw [get?]
      rcases List.mem_cons.mp h with heq | h
      · obtain ⟨rfl, rfl⟩ := Prod.mk.inj heq
        rw [if_pos rfl]
      · have hmem : key ∈ keys rest := List.mem_map.mpr ⟨_, h, rfl⟩
        rw [if_neg fun (heq : k = key) => hk (heq ▸ hmem)]
        exact ih hkeys h

end Members

/-! ## Sameness -/

/-- The same value, where objects are compared as maps from keys to values. -/
inductive Same : Json → Json → Prop
  | null : Same .null .null
  | bool (b : Bool) : Same (.bool b) (.bool b)
  | int (n : Int) : Same (.int n) (.int n)
  | double (x : Binary64) : Same (.double x) (.double x)
  | text (s : Bytes) : Same (.text s) (.text s)
  | array {items items' : List Json} : items.length = items'.length →
      (∀ (i : Nat) (a b : Json), items[i]? = some a → items'[i]? = some b → Same a b) →
      Same (.array items) (.array items')
  | object {members members' : Members} : (∀ key, key ∈ members.keys ↔ key ∈ members'.keys) →
      (∀ key a b, members.get? key = some a → members'.get? key = some b → Same a b) →
      Same (.object members) (.object members')

theorem Same.symm {v w : Json} (h : v.Same w) : w.Same v := by
  induction h with
  | null => exact .null
  | bool b => exact .bool b
  | int n => exact .int n
  | double x => exact .double x
  | text s => exact .text s
  | array hlength _ ih => exact .array hlength.symm fun i a b ha hb => ih i b a hb ha
  | object hkeys _ ih =>
      exact .object (fun key => (hkeys key).symm) fun key a b ha hb => ih key b a hb ha

mutual

theorem Same.refl : ∀ v : Json, v.Same v
  | .null => .null
  | .bool b => .bool b
  | .int n => .int n
  | .double x => .double x
  | .text s => .text s
  | .array items => by
      refine .array rfl fun i a b ha hb => ?_
      obtain rfl := Option.some.inj (ha.symm.trans hb)
      exact sameItems_refl items a (List.mem_of_getElem? ha)
  | .object members => by
      refine .object (fun _ => .rfl) fun key a b ha hb => ?_
      obtain rfl := Option.some.inj (ha.symm.trans hb)
      exact sameMembers_refl members _ (Members.mem_of_get? ha)

theorem sameItems_refl : ∀ (items : List Json) (item : Json), item ∈ items → item.Same item
  | first :: rest, item, h => by
      rcases List.mem_cons.mp h with heq | h
      · exact heq ▸ Same.refl first
      · exact sameItems_refl rest item h

theorem sameMembers_refl : ∀ (members : List (Bytes × Json)) (member : Bytes × Json),
    member ∈ members → member.2.Same member.2
  | (key, value) :: rest, member, h => by
      rcases List.mem_cons.mp h with heq | h
      · exact heq ▸ Same.refl value
      · exact sameMembers_refl rest member h

end

end Json

end BearerAuth
