import BearerAuth.Proofs.Bytes
import BearerAuth.Scope

/-!
# What granted scopes cover

A scope is read as the segments between its points, in one way only
(`segments_eq_iff`).  By that reading a grant covers a required scope
hierarchically when it is the scope or, with a point behind it, a prefix of it
(`hierarchic_covers_iff`); and with wildcards when it is not longer, agrees
segment by segment up to stars, and ends in a star where it is shorter
(`wildcard_covers_iff`).
-/

namespace BearerAuth

namespace Scope

/-- Granted scopes cover a required one, under a strategy that matches scopes. -/
def Strategy.Covers (strategy : Strategy) (granted : List Bytes) (required : Bytes) : Prop :=
  ∃ covers, strategy.matcher? = some covers ∧ covers granted required = true

/-! ## Segments -/

/-- The segments that a scope is made of: without points, and with one between
each and the next. -/
structure HasSegments (scope : Bytes) (parts : List Bytes) : Prop where
  ne_nil : parts ≠ []
  plain : ∀ part ∈ parts, Ascii.point ∉ part
  joined : Bytes.join Ascii.point parts = scope

theorem segments_eq_iff {scope : Bytes} {parts : List Bytes} :
    segments scope = parts ↔ HasSegments scope parts := by
  rw [segments, Bytes.split_eq_iff]
  exact ⟨fun ⟨hne, hplain, hjoin⟩ => ⟨hne, hplain, hjoin⟩,
    fun h => ⟨h.ne_nil, h.plain, h.joined⟩⟩

theorem hasSegments_segments (scope : Bytes) : HasSegments scope (segments scope) :=
  segments_eq_iff.mp rfl

theorem segments_ne_nil (scope : Bytes) : segments scope ≠ [] :=
  (hasSegments_segments scope).ne_nil

/-! ## Parents -/

theorem isParent_iff {grant required : List Bytes} :
    isParent grant required = true ↔ ∃ next rest, required = grant ++ next :: rest := by
  induction grant generalizing required with
  | nil =>
      cases required with
      | nil => simp [isParent]
      | cons next rest => simp [isParent]
  | cons g grant ih =>
      cases required with
      | nil => simp [isParent]
      | cons r required =>
          simp only [isParent, Bool.and_eq_true, beq_iff_eq, ih, List.cons_append,
            List.cons.injEq, exists_and_left]
          exact ⟨fun ⟨hgr, h⟩ => ⟨hgr.symm, h⟩, fun ⟨hrg, h⟩ => ⟨hrg.symm, h⟩⟩

/-- One list of segments continues another just when the scope continues the
other behind a point. -/
theorem segments_eq_append_iff {grant required : Bytes} :
    (∃ next rest, segments required = segments grant ++ next :: rest) ↔
      grant ++ [Ascii.point] <+: required := by
  constructor
  · rintro ⟨next, rest, hsegments⟩
    refine ⟨Bytes.join Ascii.point (next :: rest), ?_⟩
    calc grant ++ [Ascii.point] ++ Bytes.join Ascii.point (next :: rest)
        = grant ++ Ascii.point :: Bytes.join Ascii.point (next :: rest) := by simp
      _ = Bytes.join Ascii.point (segments grant ++ next :: rest) := by
          rw [Bytes.join_append (segments_ne_nil grant) (List.cons_ne_nil _ _),
            (hasSegments_segments grant).joined]
      _ = required := by rw [← hsegments, (hasSegments_segments required).joined]
  · rintro ⟨behind, rfl⟩
    obtain ⟨next, rest, hbehind⟩ := List.exists_cons_of_ne_nil (segments_ne_nil behind)
    refine ⟨next, rest, ?_⟩
    rw [← hbehind, List.append_assoc]
    exact Bytes.split_append_sep grant behind

/-- The lengths that are compared first exclude no parent. -/
theorem coversHierarchic_iff {required grant : Bytes} :
    coversHierarchic required grant = true ↔
      grant = required ∨ grant ++ [Ascii.point] <+: required := by
  simp only [coversHierarchic, Bool.or_eq_true, Bool.and_eq_true, beq_iff_eq, decide_eq_true_eq,
    isParent_iff, segments_eq_append_iff]
  constructor
  · rintro (heq | ⟨-, hparent⟩)
    · exact .inl heq
    · exact .inr hparent
  · rintro (heq | hparent)
    · exact .inl heq
    · have hlength := hparent.length_le
      rw [List.length_append] at hlength
      exact .inr ⟨by omega, hparent⟩

/-! ## Stars -/

/-- One segment of a grant covers one of a required scope: a star covers any
that is not empty, and each covers itself. -/
def SegmentCovers (g r : Bytes) : Prop := g = r ∨ g = star ∧ r ≠ []

theorem segmentCovers_iff {g r : Bytes} : segmentCovers g r = true ↔ SegmentCovers g r := by
  simp only [segmentCovers, SegmentCovers, Bool.or_eq_true, Bool.and_eq_true, beq_iff_eq,
    Bool.not_eq_true', List.isEmpty_eq_false_iff]
  exact Or.comm

/-- The segments of a grant cover those of a required scope: there are not more
of them, a shorter grant ends in a star, and segment by segment one covers the
other. -/
structure SegmentsCover (grant required : List Bytes) : Prop where
  length_le : grant.length ≤ required.length
  ends : grant.length = required.length ∨ grant.getLast? = some star
  each : ∀ (i : Nat) (g r : Bytes), grant[i]? = some g → required[i]? = some r → SegmentCovers g r

theorem SegmentsCover.singleton_iff {g r : Bytes} {required : List Bytes} :
    SegmentsCover [g] (r :: required) ↔ (required = [] ∨ g = star) ∧ SegmentCovers g r := by
  constructor
  · intro h
    refine ⟨?_, h.each 0 g r rfl rfl⟩
    rcases h.ends with hlength | hlast
    · exact .inl (List.length_eq_zero_iff.mp (Nat.succ.inj hlength).symm)
    · exact .inr (Option.some.inj hlast)
  · rintro ⟨hends, hcovers⟩
    refine ⟨Nat.succ_le_succ (Nat.zero_le _), ?_, ?_⟩
    · rcases hends with rfl | rfl
      · exact .inl rfl
      · exact .inr rfl
    · intro i g' r' hg hr
      cases i with
      | zero =>
          obtain rfl := Option.some.inj hg
          obtain rfl := Option.some.inj hr
          exact hcovers
      | succ i => cases hg

theorem SegmentsCover.cons_iff {g r next : Bytes} {grant required : List Bytes} :
    SegmentsCover (g :: next :: grant) (r :: required) ↔
      SegmentCovers g r ∧ SegmentsCover (next :: grant) required := by
  have hlast : (g :: next :: grant).getLast? = (next :: grant).getLast? := rfl
  constructor
  · intro h
    refine ⟨h.each 0 g r rfl rfl, Nat.le_of_succ_le_succ h.length_le, ?_, ?_⟩
    · rcases h.ends with hlength | hstar
      · exact .inl (Nat.succ.inj hlength)
      · exact .inr (hlast ▸ hstar)
    · exact fun i => h.each (i + 1)
  · rintro ⟨hcovers, h⟩
    refine ⟨Nat.succ_le_succ h.length_le, ?_, ?_⟩
    · rcases h.ends with hlength | hstar
      · exact .inl (congrArg Nat.succ hlength)
      · exact .inr (hlast ▸ hstar)
    · intro i g' r' hg hr
      cases i with
      | zero =>
          obtain rfl := Option.some.inj hg
          obtain rfl := Option.some.inj hr
          exact hcovers
      | succ i => exact h.each i g' r' hg hr

theorem segmentsCover_iff {g : Bytes} {grant required : List Bytes} :
    segmentsCover (g :: grant) required = true ↔ SegmentsCover (g :: grant) required := by
  induction grant generalizing g required with
  | nil =>
      cases required with
      | nil => exact ⟨nofun, fun h => absurd h.length_le (Nat.not_succ_le_zero _)⟩
      | cons r required =>
          rw [SegmentsCover.singleton_iff]
          simp only [segmentsCover, Bool.and_eq_true, Bool.or_eq_true, List.isEmpty_iff,
            beq_iff_eq, segmentCovers_iff]
  | cons next grant ih =>
      cases required with
      | nil => exact ⟨nofun, fun h => absurd h.length_le (Nat.not_succ_le_zero _)⟩
      | cons r required =>
          rw [SegmentsCover.cons_iff, ← ih]
          simp only [segmentsCover, Bool.and_eq_true, segmentCovers_iff]

theorem coversWildcard_iff {required grant : Bytes} :
    coversWildcard required grant = true ↔ SegmentsCover (segments grant) (segments required) := by
  obtain ⟨g, rest, hgrant⟩ := List.exists_cons_of_ne_nil (segments_ne_nil grant)
  rw [coversWildcard, hgrant]
  exact segmentsCover_iff

/-! ## Lists of grants -/

theorem Strategy.covers_iff {strategy : Strategy} {granted : List Bytes} {required : Bytes} :
    strategy.Covers granted required ↔ ∃ grant ∈ granted, strategy.Covers [grant] required := by
  cases strategy <;> simp [Covers, matcher?]

theorem exact_covers_iff {granted : List Bytes} {required : Bytes} :
    Strategy.exact.Covers granted required ↔ required ∈ granted := by
  simp [Strategy.Covers, Strategy.matcher?]

/-- A list covers a scope hierarchically just when it has the scope, or one
that is a prefix of it together with a point behind. -/
theorem hierarchic_covers_iff (granted : List Bytes) (required : Bytes) :
    Strategy.hierarchic.Covers granted required ↔
      ∃ grant ∈ granted, grant = required ∨ grant ++ [Ascii.point] <+: required := by
  simp only [Strategy.Covers, Strategy.matcher?, Option.some.injEq, exists_eq_left',
    List.any_eq_true, coversHierarchic_iff]

/-- A list covers a scope with wildcards just when the segments of one of its
grants cover the segments of the scope. -/
theorem wildcard_covers_iff (granted : List Bytes) (required : Bytes) :
    Strategy.wildcard.Covers granted required ↔
      ∃ grant ∈ granted, ∃ gs rs, HasSegments grant gs ∧ HasSegments required rs ∧
        gs.length ≤ rs.length ∧ (gs.length = rs.length ∨ gs.getLast? = some star) ∧
        ∀ (i : Nat) (g r : Bytes), gs[i]? = some g → rs[i]? = some r →
          g = r ∨ g = star ∧ r ≠ [] := by
  simp only [Strategy.Covers, Strategy.matcher?, Option.some.injEq, exists_eq_left',
    List.any_eq_true, coversWildcard_iff]
  constructor
  · rintro ⟨grant, hgrant, hcovers⟩
    exact ⟨grant, hgrant, _, _, hasSegments_segments grant, hasSegments_segments required,
      hcovers.length_le, hcovers.ends, hcovers.each⟩
  · rintro ⟨grant, hgrant, gs, rs, hgs, hrs, hlength, hends, heach⟩
    obtain rfl := segments_eq_iff.mpr hgs
    obtain rfl := segments_eq_iff.mpr hrs
    exact ⟨grant, hgrant, hlength, hends, heach⟩

end Scope

end BearerAuth
