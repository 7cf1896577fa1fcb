import BearerAuth.Proofs.Timespan.Terms
import Mathlib.Algebra.Order.BigOperators.Group.List
import Mathlib.Algebra.Order.Round
import Mathlib.Data.Rat.Floor
import Mathlib.Tactic.FieldSimp
import Mathlib.Tactic.Linarith
import Mathlib.Tactic.Ring

/-!
# Reading time spans

A text of a time span has a sign or none, and either `0` or terms.  The terms
have an exact sum, a fraction: adding them up in units of a small enough power
of ten loses nothing (`scaledSum_exact`), and the rounding is that of the exact
sum (`total?_eq_some`).  So a span is read just when the exact sum is no more
than a register holds, and it is the signed sum rounded once
(`reads_exact_sum`).
-/

namespace BearerAuth

namespace Timespan

/-! ## Exact sums -/

def Component.exact (c : Component) : ℚ := c.digits * c.nanos / 10 ^ c.places

section

variable {parts : List Component} {places : Nat}

theorem foldl_places_le (parts : List Component) (init : Nat) :
    init ≤ parts.foldl (fun places c => max places c.places) init ∧
      ∀ c ∈ parts, c.places ≤ parts.foldl (fun places c => max places c.places) init := by
  induction parts generalizing init with
  | nil => exact ⟨Nat.le_refl init, nofun⟩
  | cons first parts ih =>
      obtain ⟨hinit, hrest⟩ := ih (max init first.places)
      rw [List.foldl_cons]
      refine ⟨(Nat.le_max_left _ _).trans hinit, ?_⟩
      intro c hc
      rcases List.mem_cons.mp hc with rfl | hc
      · exact (Nat.le_max_right _ _).trans hinit
      · exact hrest c hc

theorem places_le_commonPlaces {c : Component} (h : c ∈ parts) :
    c.places ≤ commonPlaces parts :=
  (foldl_places_le parts 0).2 c h

theorem scaledSum_exact (h : ∀ c ∈ parts, c.places ≤ places) :
    (scaledSum places parts : ℚ) = (parts.map Component.exact).sum * 10 ^ places := by
  induction parts with
  | nil => simp [scaledSum]
  | cons first parts ih =>
      have hfirst : (10 : ℚ) ^ places = 10 ^ first.places * 10 ^ (places - first.places) := by
        rw [← pow_add, Nat.add_sub_cancel' (h first List.mem_cons_self)]
      have hrest := ih fun c hc => h c (List.mem_cons_of_mem _ hc)
      have hcons : scaledSum places (first :: parts) =
          first.digits * first.nanos * 10 ^ (places - first.places) + scaledSum places parts := rfl
      rw [hcons, List.map_cons, List.sum_cons, add_mul, ← hrest, Component.exact, hfirst]
      push_cast
      field_simp

/-- The sum is that of the exact values, rounded; it is refused just when the exact one is more
than a register holds. -/
theorem total?_eq_some {n : Nat} :
    total? parts = some n ↔
      (parts.map Component.exact).sum ≤ 2 ^ 63 - 1 ∧
        (n : ℤ) = round (parts.map Component.exact).sum := by
  have hplaces : ∀ c ∈ parts, c.places ≤ commonPlaces parts := fun c => places_le_commonPlaces
  have hsum := scaledSum_exact hplaces
  -- From here on the scaled sum is a multiple of the exact one, whatever that is.
  generalize (parts.map Component.exact).sum = exact at hsum ⊢
  have hscale : (0 : ℚ) < 10 ^ commonPlaces parts := by positivity
  have hfits : scaledSum (commonPlaces parts) parts ≤
      Clock.top.toNat * 10 ^ commonPlaces parts ↔ exact ≤ 2 ^ 63 - 1 := by
    have htop : Clock.top.toNat = 2 ^ 63 - 1 := by decide
    rw [htop, ← Nat.cast_le (α := ℚ), hsum]
    push_cast
    rw [mul_le_mul_iff_left₀ hscale]
    norm_num
  have hrounded : ((2 * scaledSum (commonPlaces parts) parts + 10 ^ commonPlaces parts) /
      (2 * 10 ^ commonPlaces parts) : ℕ) = round exact := by
    rw [round_eq, Int.natCast_ediv, ← Rat.floor_natCast_div_natCast]
    push_cast
    rw [hsum]
    congr 1
    field_simp
  rw [total?]
  simp only [Nat.pow_eq, hfits, Option.ite_none_right_eq_some, Option.some.injEq]
  refine and_congr_right fun _ => ?_
  rw [← hrounded]
  omega

end

/-! ## What terms stand for -/

namespace Term

def value (term : Term) : ℚ :=
  Bytes.digitsValue term.whole +
    Bytes.digitsValue (term.fraction.getD []) / 10 ^ (term.fraction.getD []).length

def nanos (term : Term) : ℚ := term.value * term.unit.2

theorem exact_component (term : Term) : term.component.exact = term.nanos := by
  simp only [Component.exact, component, nanos, value, Bytes.digitsValue_append]
  push_cast
  field_simp

theorem nanos_nonneg (term : Term) : 0 ≤ term.nanos := by
  rw [nanos, value]
  positivity

end Term

/-! ## Texts -/

/-- What may stand in front. -/
inductive Sign where
  | none
  | plus
  | minus
  deriving DecidableEq, Repr

namespace Sign

def text : Sign → Bytes
  | .none => []
  | .plus => [Ascii.plus]
  | .minus => [Ascii.minus]

def factor : Sign → ℚ
  | .none | .plus => 1
  | .minus => -1

end Sign

/-- What stands behind the sign: `0` alone, or at least one term. -/
inductive Body where
  | zero
  | terms (first : Term) (rest : List Term)

namespace Body

def text : Body → Bytes
  | .zero => [Ascii.zero]
  | .terms first rest => (first :: rest).flatMap Term.text

def exact : Body → ℚ
  | .zero => 0
  | .terms first rest => ((first :: rest).map Term.nanos).sum

theorem exact_nonneg (body : Body) : 0 ≤ body.exact := by
  cases body with
  | zero => exact le_refl 0
  | terms first rest =>
      refine List.sum_nonneg ?_
      intro x hx
      obtain ⟨term, -, rfl⟩ := List.mem_map.mp hx
      exact term.nanos_nonneg

theorem resumes (body : Body) : Resumes body.text := by
  cases body with
  | zero =>
      intro b hb
      obtain rfl := Option.some.inj hb
      exact .inl rfl
  | terms first rest => exact resumes_flatMap (first :: rest)

theorem zero_ne_terms (first : Term) (rest : List Term) :
    zero.text ≠ (terms first rest).text := by
  intro h
  have hlength := length_le (first :: rest)
  rw [← text, ← h] at hlength
  simp only [text, List.length_cons, List.length_nil] at hlength
  omega

theorem text_injective {body body' : Body} (h : body.text = body'.text) : body = body' := by
  cases body with
  | zero =>
      cases body' with
      | zero => rfl
      | terms first rest => exact absurd h (zero_ne_terms first rest)
  | terms first rest =>
      cases body' with
      | zero => exact absurd h.symm (zero_ne_terms first rest)
      | terms first' rest' =>
          obtain ⟨rfl, rfl⟩ := List.cons.inj (flatMap_text_inj h)
          rfl

end Body

/-! ## Reading without a sign -/

/-- The number of nanoseconds of a text without a sign. -/
def magnitude? (body : Bytes) : Option Nat :=
  if body = utf8 "0" then some 0
  else if body.isEmpty then none
  else (components? body.length body).bind total?

theorem map_exact_component (terms : List Term) :
    (terms.map Term.component).map Component.exact = terms.map Term.nanos := by
  rw [List.map_map]
  exact List.map_congr_left fun term _ => term.exact_component

theorem magnitude?_terms (first : Term) (rest : List Term) :
    magnitude? (Body.terms first rest).text = total? ((first :: rest).map Term.component) := by
  have hzero : (first :: rest).flatMap Term.text ≠ utf8 "0" := (Body.zero_ne_terms first rest).symm
  have hempty : ¬ ((first :: rest).flatMap Term.text).isEmpty = true := by
    rw [List.isEmpty_iff]
    intro h
    exact absurd (eq_nil_of_flatMap h) (List.cons_ne_nil first rest)
  have hlength := length_le (first :: rest)
  rw [Body.text, magnitude?, if_neg hzero, if_neg hempty, components?_flatMap (by omega)]
  rfl

/-- A text without a sign is read just from a body whose sum a register holds, and rounded. -/
theorem magnitude?_eq_some {text : Bytes} {n : Nat} :
    magnitude? text = some n ↔ ∃ body : Body, text = body.text ∧ body.exact ≤ 2 ^ 63 - 1 ∧
      (n : ℤ) = round body.exact := by
  constructor
  · intro h
    by_cases hzero : text = utf8 "0"
    · rw [magnitude?, if_pos hzero] at h
      obtain rfl := Option.some.inj h
      exact ⟨.zero, hzero, by norm_num [Body.exact], round_zero.symm⟩
    · rw [magnitude?, if_neg hzero] at h
      split at h
      · cases h
      · next hempty =>
          obtain ⟨parts, hparts, htotal⟩ := Option.bind_eq_some_iff.mp h
          obtain ⟨terms, rfl, rfl⟩ := exists_terms hparts
          rw [total?_eq_some, map_exact_component] at htotal
          cases terms with
          | nil => exact absurd rfl hempty
          | cons first rest => exact ⟨.terms first rest, rfl, htotal⟩
  · rintro ⟨body, rfl, hbody⟩
    cases body with
    | zero =>
        obtain rfl : n = 0 := Int.ofNat_eq_zero.mp (hbody.2.trans round_zero)
        rfl
    | terms first rest =>
        rw [magnitude?_terms, total?_eq_some, map_exact_component]
        exact hbody

/-! ## Reading with a sign -/

/-- The whole number nearest to a fraction; of two that are equally near, the one that is further
from zero. -/
def nearest (x : ℚ) : ℤ := if 0 ≤ x then round x else -round (-x)

theorem nearest_of_nonneg {x : ℚ} (h : 0 ≤ x) : nearest x = round x := if_pos h

theorem round_nonneg {x : ℚ} (h : 0 ≤ x) : 0 ≤ round x := by
  rw [round_eq]
  exact Int.floor_nonneg.mpr (by linarith)

theorem round_le_top {x : ℚ} (h : x ≤ 2 ^ 63 - 1) : round x ≤ 2 ^ 63 - 1 := by
  rw [round_eq, ← Int.lt_add_one_iff, Int.floor_lt]
  push_cast
  linarith

theorem nearest_neg {x : ℚ} (h : 0 ≤ x) : nearest (-x) = -round x := by
  rcases h.eq_or_lt with rfl | hpos
  · -- Zero is on neither side.
    simp [nearest]
  · rw [nearest, if_neg (by linarith), neg_neg]

theorem parse_eq (s : Bytes) :
    parse s = (magnitude? (sign s).2).map fun n : Nat =>
      if (sign s).1 then -(n : Int) else (n : Int) := by
  simp only [parse, magnitude?]
  split
  · simp
  · split
    · rfl
    · cases components? (sign s).2.length (sign s).2 with
      | none => rfl
      | some parts =>
          simp only [Option.bind_some]
          cases total? parts <;> rfl

namespace Sign

def negative : Sign → Bool
  | .minus => true
  | _ => false

theorem text_injective {sign sign' : Sign} (h : sign.text = sign'.text) : sign = sign' := by
  cases sign <;> cases sign' <;> first | rfl | cases h

theorem sign_append (sign : Sign) {body : Bytes} (h : Resumes body) :
    Timespan.sign (sign.text ++ body) = (sign.negative, body) := by
  cases sign with
  | plus => rfl
  | minus => rfl
  | none =>
      rw [text, List.nil_append]
      unfold Timespan.sign
      split
      · exact absurd (h Ascii.minus rfl) (by decide)
      · exact absurd (h Ascii.plus rfl) (by decide)
      · rfl

theorem exists_sign (s : Bytes) :
    ∃ sign : Sign, s = sign.text ++ (Timespan.sign s).2 ∧ sign.negative = (Timespan.sign s).1 := by
  unfold Timespan.sign
  split
  · exact ⟨.minus, rfl, rfl⟩
  · exact ⟨.plus, rfl, rfl⟩
  · exact ⟨.none, rfl, rfl⟩

theorem nearest_factor (sign : Sign) {x : ℚ} (h : 0 ≤ x) :
    nearest (sign.factor * x) = if sign.negative then -round x else round x := by
  cases sign with
  | none => exact (congrArg nearest (one_mul x)).trans (nearest_of_nonneg h)
  | plus => exact (congrArg nearest (one_mul x)).trans (nearest_of_nonneg h)
  | minus => exact (congrArg nearest (neg_one_mul x)).trans (nearest_neg h)

end Sign

/-- A span is read just from a sign and a body whose sum a register holds, and it is the signed
sum rounded once. -/
theorem parse_eq_some_iff {text : Bytes} {n : Span} :
    parse text = some n ↔ ∃ (sign : Sign) (body : Body), text = sign.text ++ body.text ∧
      body.exact ≤ 2 ^ 63 - 1 ∧ n = nearest (sign.factor * body.exact) := by
  rw [parse_eq, Option.map_eq_some_iff]
  constructor
  · rintro ⟨m, hm, rfl⟩
    obtain ⟨body, hbody, hfits, hrounded⟩ := magnitude?_eq_some.mp hm
    obtain ⟨sign, htext, hnegative⟩ := Sign.exists_sign text
    refine ⟨sign, body, hbody ▸ htext, hfits, ?_⟩
    rw [sign.nearest_factor body.exact_nonneg, ← hrounded, hnegative]
  · rintro ⟨sign, body, rfl, hfits, rfl⟩
    rw [sign.sign_append body.resumes, sign.nearest_factor body.exact_nonneg]
    obtain ⟨m, hm⟩ := Int.eq_ofNat_of_zero_le (round_nonneg body.exact_nonneg)
    exact ⟨m, magnitude?_eq_some.mpr ⟨body, rfl, hfits, hm.symm⟩, by rw [hm]⟩

/-- A text has one sign and one body at most. -/
theorem text_inj {sign sign' : Sign} {body body' : Body}
    (h : sign.text ++ body.text = sign'.text ++ body'.text) : sign = sign' ∧ body = body' := by
  have hread : (sign.negative, body.text) = (sign'.negative, body'.text) := by
    rw [← sign.sign_append body.resumes, h, sign'.sign_append body'.resumes]
  have hbody := (Prod.mk.inj hread).2
  rw [hbody] at h
  exact ⟨Sign.text_injective (List.append_cancel_right h), Body.text_injective hbody⟩

theorem parse_bounded {text : Bytes} {n : Span} (h : parse text = some n) :
    -(2 ^ 63 - 1) ≤ n ∧ n ≤ 2 ^ 63 - 1 := by
  obtain ⟨sign, body, -, hfits, rfl⟩ := parse_eq_some_iff.mp h
  have hnonneg := round_nonneg body.exact_nonneg
  have hle := round_le_top hfits
  rw [sign.nearest_factor body.exact_nonneg]
  split
  · exact ⟨Int.neg_le_neg hle, by lia⟩
  · exact ⟨by lia, hle⟩

/-- **The texts of time spans.**  A span is read just from a sign or none, and `0` alone or terms
with nothing between them, whose exact sum is no more than a register holds.  It is the signed sum,
rounded once with halves away from zero, and so at most as far from zero as the greatest
register.  No text is made up of a sign and terms in two ways. -/
theorem reads_exact_sum (text : Bytes) :
    (∀ n : Span, parse text = some n ↔
      ∃ (sign : Sign) (body : Body), text = sign.text ++ body.text ∧
        body.exact ≤ 2 ^ 63 - 1 ∧ n = nearest (sign.factor * body.exact)) ∧
    (∀ (sign sign' : Sign) (body body' : Body), text = sign.text ++ body.text →
      text = sign'.text ++ body'.text → sign = sign' ∧ body = body') ∧
    ∀ n : Span, parse text = some n → -(2 ^ 63 - 1) ≤ n ∧ n ≤ 2 ^ 63 - 1 := by
  refine ⟨fun n => parse_eq_some_iff, ?_, fun n => parse_bounded⟩
  intro sign sign' body body' h h'
  exact text_inj (h.symm.trans h')

/-- Half a microsecond and three halves of a nanosecond. -/
def halves : Body := .terms
  { whole := [], fraction := some (utf8 "5"), unit := (utf8 "us", 1000) }
  [{ whole := utf8 "1", fraction := some (utf8 "5"), unit := (utf8 "ns", 1) }]

/-- Halves add up to a half, which is rounded away from zero. -/
theorem halves_read :
    utf8 "-.5us1.5ns" = Sign.minus.text ++ halves.text ∧ halves.exact = 1003 / 2 ∧
      parse (utf8 "-.5us1.5ns") = some (-502) ∧
      ∀ (sign : Sign) (body : Body),
        utf8 "-.5us1.5ns" = sign.text ++ body.text → sign = .minus ∧ body = halves := by
  have htext : utf8 "-.5us1.5ns" = Sign.minus.text ++ halves.text := by decide
  have hexact : halves.exact = 1003 / 2 := by decide +kernel
  obtain ⟨hread, hunique, -⟩ := reads_exact_sum (utf8 "-.5us1.5ns")
  refine ⟨htext, hexact, (hread (-502)).mpr ⟨.minus, halves, htext, ?_, ?_⟩, ?_⟩
  · rw [hexact]
    norm_num
  · rw [hexact, Sign.nearest_factor .minus (by norm_num), Sign.negative, if_pos rfl, round_eq]
    norm_num
  · intro sign body h
    exact hunique sign .minus body halves h htext

end Timespan

end BearerAuth
