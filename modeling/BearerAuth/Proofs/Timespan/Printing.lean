import BearerAuth.Proofs.Timespan.Reading

/-!
# Printing time spans

A span is printed as a whole number of one unit: the largest from seconds down
to nanoseconds that divides it, and nanoseconds for zero (`exists_suits`).  A
whole number of any unit is read back as long as a register holds it
(`parse_count`), and no text is two of them (`count_inj`).  So a printed span
is read back exactly when it is no further from zero than the greatest
register, the least register being too far, and no two spans are printed alike
(`printed_is_read_back`).
-/

namespace BearerAuth

namespace Timespan

/-! ## Whole numbers of a unit -/

/-- The sign that a number is printed with: there is no plus. -/
def Sign.of (n : ℤ) : Sign := if n < 0 then .minus else .none

@[simp] theorem Sign.negative_of (n : ℤ) : (Sign.of n).negative = decide (n < 0) := by
  rw [Sign.of]
  split
  · next hneg => exact (decide_eq_true hneg).symm
  · next hnonneg => exact (decide_eq_false hnonneg).symm

theorem ofInt_eq (n : ℤ) : Bytes.ofInt n = (Sign.of n).text ++ Bytes.ofNat n.natAbs := by
  cases n with
  | ofNat n => rfl
  | negSucc n =>
      rw [Sign.of, if_pos (Int.negSucc_lt_zero n)]
      rfl

theorem Sign.of_mul (n : ℤ) {k : Nat} (h : 0 < k) : Sign.of (n * k) = Sign.of n := by
  have hneg : n * k < 0 ↔ n < 0 := by
    rw [mul_neg_iff]
    omega
  simp only [of, hneg]

theorem signed_natAbs (n : ℤ) :
    (if (Sign.of n).negative then -(n.natAbs : ℤ) else (n.natAbs : ℤ)) = n := by
  rw [Sign.negative_of]
  split
  · next hneg =>
      have hle : n ≤ 0 := le_of_lt (of_decide_eq_true hneg)
      rw [Int.ofNat_natAbs_of_nonpos hle, neg_neg]
  · next hnonneg =>
      have hle : 0 ≤ n := not_lt.mp fun hneg => hnonneg (decide_eq_true hneg)
      exact Int.natAbs_of_nonneg hle

theorem spelled_pos : ∀ unit ∈ spellings, 0 < unit.2 := by
  decide

section

variable {unit unit' : Bytes × Nat}

/-- A whole number with its unit. -/
def Term.counting (count : Nat) (h : unit ∈ spellings) : Term where
  whole := Bytes.ofNat count
  fraction := none
  unit := unit
  whole_digits _ := Bytes.isDigit_of_mem_ofNat
  fraction_digits := nofun
  has_digit := .inl (Bytes.ofNat_ne_nil count)
  known := h

/-- The body that is nothing but a whole number with its unit. -/
def Body.counting (count : Nat) (h : unit ∈ spellings) : Body := .terms (.counting count h) []

theorem Body.counting_text (count : Nat) (h : unit ∈ spellings) :
    (Body.counting count h).text = Bytes.ofNat count ++ unit.1 :=
  List.append_nil _

theorem Term.counting_nanos (count : Nat) (h : unit ∈ spellings) :
    (Term.counting count h).nanos = count * unit.2 := by
  have hempty : Bytes.digitsValue [] = 0 := rfl
  simp [nanos, value, counting, Bytes.digitsValue_ofNat, hempty]

theorem Body.counting_exact (count : Nat) (h : unit ∈ spellings) :
    (Body.counting count h).exact = ((count * unit.2 : ℕ) : ℚ) := by
  simp [exact, counting, Term.counting_nanos]

theorem count_text (count : ℤ) (h : unit ∈ spellings) :
    Bytes.ofInt count ++ unit.1 =
      (Sign.of count).text ++ (Body.counting count.natAbs h).text := by
  rw [ofInt_eq, List.append_assoc, Body.counting_text]

/-- A whole number of a unit is read back, if a register holds so many nanoseconds. -/
theorem parse_count (h : unit ∈ spellings) {count : ℤ} (hfits : |count * unit.2| ≤ 2 ^ 63 - 1) :
    parse (Bytes.ofInt count ++ unit.1) = some (count * unit.2) := by
  have habs : count.natAbs * unit.2 = (count * unit.2).natAbs := by
    rw [Int.natAbs_mul, Int.natAbs_natCast]
  have hexact : (Body.counting count.natAbs h).exact = ((count * unit.2).natAbs : ℤ) := by
    rw [Body.counting_exact, habs, Int.cast_natCast]
  have hsign : Sign.of (count * unit.2) = Sign.of count := Sign.of_mul count (spelled_pos unit h)
  refine parse_eq_some_iff.mpr ⟨_, _, count_text count h, ?_, ?_⟩
  · rw [hexact, Int.natCast_natAbs]
    exact_mod_cast hfits
  · rw [Sign.nearest_factor _ (Body.exact_nonneg _), hexact, round_intCast, ← hsign, signed_natAbs]

theorem count_inj (h : unit ∈ spellings) (h' : unit' ∈ spellings) {count count' : ℤ}
    (htext : Bytes.ofInt count ++ unit.1 = Bytes.ofInt count' ++ unit'.1) :
    count = count' ∧ unit = unit' := by
  rw [count_text count h, count_text count' h'] at htext
  obtain ⟨hsign, hbody⟩ := text_inj htext
  have hterm : Term.counting count.natAbs h = Term.counting count'.natAbs h' := by
    injection hbody
  have hwhole : Bytes.ofNat count.natAbs = Bytes.ofNat count'.natAbs := congrArg Term.whole hterm
  refine ⟨?_, congrArg Term.unit hterm⟩
  rw [← signed_natAbs count, ← signed_natAbs count', hsign, Bytes.ofNat_injective hwhole]

end

/-! ## The unit of a span -/

/-- The units that spans are printed in, with their lengths in nanoseconds. -/
def printedUnits : List (Bytes × Nat) :=
  [(utf8 "s", 1000000000), (utf8 "ms", 1000000), (utf8 "us", 1000), (utf8 "ns", 1)]

theorem spelled_of_printed : ∀ unit ∈ printedUnits, unit ∈ spellings := by
  decide

/-- A unit suits a span: it is the largest that divides it, and the nanosecond for zero, which
all of them divide. -/
structure Suits (unit : Bytes × Nat) (n : Span) : Prop where
  printed : unit ∈ printedUnits
  divides : (unit.2 : ℤ) ∣ n
  largest : n ≠ 0 → ∀ other ∈ printedUnits, (other.2 : ℤ) ∣ n → other.2 ≤ unit.2
  zero : n = 0 → unit.2 = 1

theorem Suits.unique {unit other : Bytes × Nat} {n : Span} (h : Suits unit n)
    (h' : Suits other n) : other = unit := by
  have hlength : other.2 = unit.2 := by
    by_cases hzero : n = 0
    · rw [h.zero hzero, h'.zero hzero]
    · exact Nat.le_antisymm (h.largest hzero other h'.printed h'.divides)
        (h'.largest hzero unit h.printed h.divides)
  have hinj : ∀ unit ∈ printedUnits, ∀ other ∈ printedUnits, other.2 = unit.2 → other = unit := by
    decide
  exact hinj unit h.printed other h'.printed hlength

/-- The first listed unit that divides a span is the largest: longer ones are listed before it. -/
theorem Suits.of_find? {unit : Bytes × Nat} {n : ℤ} (hne : n ≠ 0)
    (h : printedUnits.find? (fun unit => n % unit.2 = 0) = some unit) : Suits unit n where
  printed := List.mem_of_find?_eq_some h
  divides := Int.dvd_of_emod_eq_zero (by simpa using List.find?_some h)
  largest := by
    intro _ other hother hdivides
    obtain ⟨-, before, after, hlist, hbefore⟩ := List.find?_eq_some_iff_append.mp h
    have hsorted : printedUnits.Pairwise fun unit unit' => unit'.2 ≤ unit.2 := by decide
    rw [hlist] at hother hsorted
    rcases List.mem_append.mp hother with hlonger | hshorter
    · have hnot := hbefore other hlonger
      simp [Int.emod_eq_zero_of_dvd hdivides] at hnot
    · rcases List.mem_cons.mp hshorter with rfl | hshorter
      · exact Nat.le_refl _
      · exact List.rel_of_pairwise_cons (List.pairwise_append.mp hsorted).2.1 hshorter
  zero hzero := absurd hzero hne

theorem format_of_ne_zero {n : ℤ} (hne : n ≠ 0) :
    ∃ unit, printedUnits.find? (fun unit => n % unit.2 = 0) = some unit ∧
      format n = Bytes.ofInt (n / unit.2) ++ unit.1 := by
  by_cases hs : n % 1000000000 = 0
  · refine ⟨(utf8 "s", 1000000000), ?_, ?_⟩
    · simp only [printedUnits, List.find?_cons, Nat.cast_ofNat, hs, decide_true]
    · rw [format, if_pos ⟨hne, hs⟩]
      rfl
  · by_cases hms : n % 1000000 = 0
    · refine ⟨(utf8 "ms", 1000000), ?_, ?_⟩
      · simp only [printedUnits, List.find?_cons, Nat.cast_ofNat, hs, hms, decide_true,
          decide_false]
      · rw [format, if_neg (hs ·.2), if_pos ⟨hne, hms⟩]
        rfl
    · by_cases hus : n % 1000 = 0
      · refine ⟨(utf8 "us", 1000), ?_, ?_⟩
        · simp only [printedUnits, List.find?_cons, Nat.cast_ofNat, hs, hms, hus, decide_true,
            decide_false]
        · rw [format, if_neg (hs ·.2), if_neg (hms ·.2), if_pos ⟨hne, hus⟩]
          rfl
      · refine ⟨(utf8 "ns", 1), ?_, ?_⟩
        · simp only [printedUnits, List.find?_cons, Nat.cast_ofNat, Nat.cast_one, Int.emod_one,
            hs, hms, hus, decide_true, decide_false]
        · rw [format, if_neg (hs ·.2), if_neg (hms ·.2), if_neg (hus ·.2), Nat.cast_one,
            Int.ediv_one]

theorem exists_suits (n : ℤ) :
    ∃ unit, Suits unit n ∧ format n = Bytes.ofInt (n / unit.2) ++ unit.1 := by
  by_cases hzero : n = 0
  · subst hzero
    exact ⟨(utf8 "ns", 1), ⟨by decide, by decide, fun hne => absurd rfl hne, fun _ => rfl⟩, rfl⟩
  · obtain ⟨unit, hfind, htext⟩ := format_of_ne_zero hzero
    exact ⟨unit, .of_find? hzero hfind, htext⟩

/-- **Printed spans are read back** exactly when they are no further from zero than the greatest
register, and no two are printed alike.  A span is printed as a whole number of the one unit that
suits it. -/
theorem printed_is_read_back (n : Span) :
    (parse (format n) = some n ↔ |n| ≤ 2 ^ 63 - 1) ∧
    (∀ m : Span, format m = format n → m = n) ∧
    ∃ unit, Suits unit n ∧ (∀ other, Suits other n → other = unit) ∧
      format n = Bytes.ofInt (n / unit.2) ++ unit.1 := by
  obtain ⟨unit, hsuits, htext⟩ := exists_suits n
  have hunit := spelled_of_printed unit hsuits.printed
  refine ⟨⟨?_, ?_⟩, ?_, unit, hsuits, fun other => hsuits.unique, htext⟩
  · intro h
    exact abs_le.mpr (parse_bounded h)
  · intro h
    have hcount : n / unit.2 * unit.2 = n := Int.ediv_mul_cancel hsuits.divides
    rw [htext, parse_count hunit (by rw [hcount]; exact h), hcount]
  · intro m h
    obtain ⟨unit', hsuits', htext'⟩ := exists_suits m
    rw [htext, htext'] at h
    obtain ⟨hcount, hunit'⟩ := count_inj (spelled_of_printed unit' hsuits'.printed) hunit h
    rw [← Int.ediv_mul_cancel hsuits'.divides, hcount, hunit', Int.ediv_mul_cancel hsuits.divides]

/-- The span that is furthest below zero among those that are read back, and the one below it. -/
theorem furthest_span_read_back :
    |(-9223372036854775807 : ℤ)| ≤ 2 ^ 63 - 1 ∧
    format (-9223372036854775807) = utf8 "-9223372036854775807ns" ∧
    parse (utf8 "-9223372036854775807ns") = some (-9223372036854775807) ∧
    parse (format (-9223372036854775808)) ≠ some (-9223372036854775808) := by
  have hfits : |(-9223372036854775807 : ℤ)| ≤ 2 ^ 63 - 1 := by decide
  have htext : format (-9223372036854775807) = utf8 "-9223372036854775807ns" := by decide +kernel
  refine ⟨hfits, htext, ?_, ?_⟩
  · rw [← htext]
    exact (printed_is_read_back _).1.mpr hfits
  · intro h
    exact absurd ((printed_is_read_back _).1.mp h) (by decide)

end Timespan

end BearerAuth
