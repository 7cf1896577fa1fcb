import BearerAuth.Proofs.Scope.Matching
import Mathlib.Logic.Relation

/-!
# Broader grants

Under every strategy that matches scopes, what one scope grants to another is
a preorder (`grants_refl`, `grants_trans`).  With wildcards a grant is itself a
scope there, and a star in it a segment like others.  So a list of grants that
is made broader, in any number of steps, covers all that it covered
(`covers_of_broadens`).
-/

namespace BearerAuth

namespace Scope

/-- One scope, when it is granted alone, covers another. -/
def Strategy.Grants (strategy : Strategy) (grant required : Bytes) : Prop :=
  strategy.Covers [grant] required

theorem Strategy.covers_iff_grants {strategy : Strategy} {granted : List Bytes}
    {required : Bytes} :
    strategy.Covers granted required ↔ ∃ grant ∈ granted, strategy.Grants grant required :=
  covers_iff

/-! ## One scope and another -/

theorem exact_grants_iff {p q : Bytes} : Strategy.exact.Grants p q ↔ p = q := by
  rw [Strategy.Grants, exact_covers_iff, List.mem_singleton]
  exact eq_comm

theorem hierarchic_grants_iff {p q : Bytes} :
    Strategy.hierarchic.Grants p q ↔ p = q ∨ p ++ [Ascii.point] <+: q := by
  simp [Strategy.Grants, Strategy.Covers, Strategy.matcher?, coversHierarchic_iff]

theorem wildcard_grants_iff {p q : Bytes} :
    Strategy.wildcard.Grants p q ↔ SegmentsCover (segments p) (segments q) := by
  simp [Strategy.Grants, Strategy.Covers, Strategy.matcher?, coversWildcard_iff]

/-! ## The order -/

theorem SegmentsCover.refl (p : List Bytes) : SegmentsCover p p := by
  refine ⟨Nat.le_refl _, .inl rfl, ?_⟩
  intro i g r hg hr
  exact .inl (Option.some.inj (hg.symm.trans hr))

theorem SegmentCovers.trans {p q r : Bytes} (hpq : SegmentCovers p q)
    (hqr : SegmentCovers q r) : SegmentCovers p r := by
  rcases hpq with rfl | ⟨hstar, hq⟩
  · exact hqr
  · rcases hqr with rfl | ⟨-, hr⟩
    · exact .inr ⟨hstar, hq⟩
    · exact .inr ⟨hstar, hr⟩

theorem SegmentCovers.eq_star {p : Bytes} (h : SegmentCovers p star) : p = star :=
  h.elim id And.left

/-- A grant of the same length ends in a star where the other one does. -/
theorem SegmentsCover.getLast?_eq_star {p q : List Bytes} (h : SegmentsCover p q)
    (hlength : p.length = q.length) (hstar : q.getLast? = some star) :
    p.getLast? = some star := by
  rw [List.getLast?_eq_getElem?] at hstar ⊢
  rw [← hlength] at hstar
  have hlt : p.length - 1 < p.length := by
    have hinside := (List.getElem?_eq_some_iff.mp hstar).1
    omega
  have hlast := List.getElem?_eq_getElem hlt
  rw [hlast, (h.each _ _ _ hlast hstar).eq_star]

theorem SegmentsCover.trans {p q r : List Bytes} (hpq : SegmentsCover p q)
    (hqr : SegmentsCover q r) : SegmentsCover p r := by
  refine ⟨Nat.le_trans hpq.length_le hqr.length_le, ?_, ?_⟩
  · rcases hpq.ends with hlength | hstar
    · rcases hqr.ends with hlength' | hstar
      · exact .inl (hlength.trans hlength')
      · exact .inr (hpq.getLast?_eq_star hlength hstar)
    · exact .inr hstar
  · intro i g s hg hs
    have hlt : i < p.length := (List.getElem?_eq_some_iff.mp hg).1
    have hmiddle := List.getElem?_eq_getElem (Nat.lt_of_lt_of_le hlt hpq.length_le)
    exact (hpq.each i _ _ hg hmiddle).trans (hqr.each i _ _ hmiddle hs)

section

variable {strategy : Strategy} {granted granted' : List Bytes} {p q r required : Bytes}

theorem grants_refl (h : strategy ≠ .none) (p : Bytes) : strategy.Grants p p := by
  cases strategy with
  | none => exact absurd rfl h
  | exact => exact exact_grants_iff.mpr rfl
  | hierarchic => exact hierarchic_grants_iff.mpr (.inl rfl)
  | wildcard => exact wildcard_grants_iff.mpr (.refl _)

theorem grants_trans (hpq : strategy.Grants p q) (hqr : strategy.Grants q r) :
    strategy.Grants p r := by
  cases strategy with
  | none =>
      obtain ⟨_, hmatcher, -⟩ := hpq
      cases hmatcher
  | exact =>
      rw [exact_grants_iff] at hpq hqr ⊢
      exact hpq.trans hqr
  | hierarchic =>
      rw [hierarchic_grants_iff] at hpq hqr ⊢
      rcases hqr with rfl | hqr
      · exact hpq
      · rcases hpq with rfl | hpq
        · exact .inr hqr
        · exact .inr (hpq.trans ((List.prefix_append q _).trans hqr))
  | wildcard =>
      rw [wildcard_grants_iff] at hpq hqr ⊢
      exact hpq.trans hqr

/-! ## Lists of grants -/

/-- One way of making a list of grants broader. -/
inductive Strategy.Broadens (strategy : Strategy) : List Bytes → List Bytes → Prop
  | replace {grant grant' : Bytes} (front back : List Bytes) (h : strategy.Grants grant' grant) :
      strategy.Broadens (front ++ grant :: back) (front ++ grant' :: back)
  | add (front : List Bytes) (grant : Bytes) (back : List Bytes) :
      strategy.Broadens (front ++ back) (front ++ grant :: back)
  | duplicate {granted : List Bytes} {grant : Bytes} (h : grant ∈ granted) :
      strategy.Broadens granted (grant :: granted)
  | reorder {granted granted' : List Bytes} (h : granted.Perm granted') :
      strategy.Broadens granted granted'

theorem Strategy.Broadens.exists_grants (hne : strategy ≠ .none)
    (h : strategy.Broadens granted granted') (hp : p ∈ granted) :
    ∃ grant ∈ granted', strategy.Grants grant p := by
  have hkept (hmem : p ∈ granted') : ∃ grant ∈ granted', strategy.Grants grant p :=
    ⟨p, hmem, grants_refl hne p⟩
  cases h with
  | replace front back hgrants =>
      rcases List.mem_append.mp hp with hp | hp
      · exact hkept (List.mem_append_left _ hp)
      · rcases List.mem_cons.mp hp with rfl | hp
        · exact ⟨_, List.mem_append_right _ List.mem_cons_self, hgrants⟩
        · exact hkept (List.mem_append_right _ (List.mem_cons_of_mem _ hp))
  | add front grant back =>
      rcases List.mem_append.mp hp with hp | hp
      · exact hkept (List.mem_append_left _ hp)
      · exact hkept (List.mem_append_right _ (List.mem_cons_of_mem _ hp))
  | duplicate => exact hkept (List.mem_cons_of_mem _ hp)
  | reorder hperm => exact hkept (hperm.mem_iff.mp hp)

theorem Strategy.Broadens.covers (hne : strategy ≠ .none)
    (h : strategy.Broadens granted granted') (hcovers : strategy.Covers granted required) :
    strategy.Covers granted' required := by
  obtain ⟨p, hp, hgrants⟩ := covers_iff_grants.mp hcovers
  obtain ⟨grant, hgrant, hgrants'⟩ := h.exists_grants hne hp
  exact covers_iff_grants.mpr ⟨grant, hgrant, grants_trans hgrants' hgrants⟩

theorem covers_of_broadens (hne : strategy ≠ .none)
    (h : Relation.ReflTransGen strategy.Broadens granted granted')
    (hcovers : strategy.Covers granted required) : strategy.Covers granted' required := by
  induction h with
  | refl => exact hcovers
  | tail _ hstep ih => exact hstep.covers hne ih

theorem covers_of_exact (hne : strategy ≠ .none)
    (h : Strategy.exact.Covers granted required) : strategy.Covers granted required :=
  Strategy.covers_iff_grants.mpr ⟨required, exact_covers_iff.mp h, grants_refl hne required⟩

/-- Under every strategy that matches scopes granting is a preorder, and a
list of grants keeps what it covers when it is made broader.  The exact
strategy covers least. -/
theorem granting_is_preorder (hne : strategy ≠ .none) :
    (∀ p, strategy.Grants p p) ∧
    (∀ p q r, strategy.Grants p q → strategy.Grants q r → strategy.Grants p r) ∧
    (∀ granted granted' required, Relation.ReflTransGen strategy.Broadens granted granted' →
      strategy.Covers granted required → strategy.Covers granted' required) ∧
    ∀ granted required, Strategy.exact.Covers granted required →
      strategy.Covers granted required :=
  ⟨grants_refl hne, fun _ _ _ => grants_trans, fun _ _ _ => covers_of_broadens hne,
    fun _ _ => covers_of_exact hne⟩

/-- One star grants a scope with stars at its end, which grants one that has a
star further in.  Four steps broaden the second grant. -/
theorem stars_grant_stars :
    Strategy.wildcard ≠ .none ∧
    Strategy.wildcard.Grants (utf8 "*") (utf8 "a.*.*") ∧
    Strategy.wildcard.Grants (utf8 "a.*.*") (utf8 "a.b.*.d") ∧
    Strategy.wildcard.Grants (utf8 "*") (utf8 "a.b.*.d") ∧
    Relation.ReflTransGen Strategy.wildcard.Broadens [utf8 "a.*.*"]
      [utf8 "*", utf8 "x", utf8 "*"] ∧
    Strategy.wildcard.Covers [utf8 "*", utf8 "x", utf8 "*"] (utf8 "a.b.*.d") ∧
    Strategy.exact.Covers [utf8 "*"] (utf8 "*") ∧
    Strategy.wildcard.Covers [utf8 "*"] (utf8 "*") := by
  have hne : Strategy.wildcard ≠ .none := by decide
  obtain ⟨-, htrans, hbroadens, hexact⟩ := granting_is_preorder hne
  have houter : Strategy.wildcard.Grants (utf8 "*") (utf8 "a.*.*") := ⟨_, rfl, by decide⟩
  have hinner : Strategy.wildcard.Grants (utf8 "a.*.*") (utf8 "a.b.*.d") := ⟨_, rfl, by decide⟩
  have hsame : Strategy.exact.Covers [utf8 "*"] (utf8 "*") := ⟨_, rfl, by decide⟩
  have hsteps : Relation.ReflTransGen Strategy.wildcard.Broadens [utf8 "a.*.*"]
      [utf8 "*", utf8 "x", utf8 "*"] := by
    have hreplace := Strategy.Broadens.replace [] [] houter
    have hduplicate : Strategy.wildcard.Broadens [utf8 "*"] [utf8 "*", utf8 "*"] :=
      .duplicate List.mem_cons_self
    have hadd : Strategy.wildcard.Broadens [utf8 "*", utf8 "*"] [utf8 "*", utf8 "*", utf8 "x"] :=
      .add [utf8 "*", utf8 "*"] (utf8 "x") []
    have hreorder : Strategy.wildcard.Broadens [utf8 "*", utf8 "*", utf8 "x"]
        [utf8 "*", utf8 "x", utf8 "*"] := .reorder (.cons _ (.swap _ _ _))
    exact .tail (.tail (.tail (.single hreplace) hduplicate) hadd) hreorder
  exact ⟨hne, houter, hinner, htrans _ _ _ houter hinner, hsteps,
    hbroadens _ _ _ hsteps hinner, hsame, hexact _ _ hsame⟩

end

end Scope

end BearerAuth
