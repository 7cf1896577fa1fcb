import BearerAuth.Proofs.Bytes
import BearerAuth.Timespan
import Mathlib.Logic.Basic

/-!
# Terms of a time span

A term is a number with a unit.  A number ends where no digit follows, and a
unit is the longest that fits: since another term begins with a digit or a
point, `m` is not taken for `ms`.  So a term is read back from any text it
begins (`component?_append`), and terms that stand one after the other are the
only ones of their text (`flatMap_text_inj`).
-/

namespace BearerAuth

namespace Timespan

/-! ## Numbers -/

/-- A fraction with the point before it. -/
def pointed : Option Bytes → Bytes
  | none => []
  | some digits => Ascii.point :: digits

/-- A number is all there is of it: no digit follows, and no point when the number has none. -/
structure Cut (whole : Bytes) (fraction : Option Bytes) (rest : Bytes) : Prop where
  whole_digits : ∀ b ∈ whole, Bytes.isDigit b = true
  fraction_digits : ∀ b ∈ fraction.getD [], Bytes.isDigit b = true
  stops : ∀ b ∈ rest.head?, Bytes.isDigit b = false
  unpointed : fraction = none → ∀ b ∈ rest.head?, b ≠ Ascii.point

/-- The component of a number that has been cut, and what follows its unit. -/
def measured (whole fraction rest : Bytes) : Option (Component × Bytes) :=
  if whole.isEmpty && fraction.isEmpty then none
  else (unit? rest).map fun unit =>
    ({ digits := Bytes.digitsValue (whole ++ fraction)
       places := fraction.length
       nanos := unit.1 }, unit.2)

section

variable {whole rest s : Bytes} {fraction : Option Bytes}

theorem Cut.pointed_stops (h : Cut whole fraction rest) :
    ∀ b ∈ (pointed fraction ++ rest).head?, Bytes.isDigit b = false := by
  cases fraction with
  | none => exact h.stops
  | some digits =>
      intro b hb
      obtain rfl := Option.some.inj hb
      decide

theorem Cut.takeWhile (h : Cut whole fraction rest) :
    (whole ++ (pointed fraction ++ rest)).takeWhile Bytes.isDigit = whole :=
  Bytes.takeWhile_run h.whole_digits h.pointed_stops

theorem Cut.dropWhile (h : Cut whole fraction rest) :
    (whole ++ (pointed fraction ++ rest)).dropWhile Bytes.isDigit = pointed fraction ++ rest :=
  Bytes.dropWhile_run h.whole_digits h.pointed_stops

theorem Cut.not_pointed (h : Cut whole none rest) {digits rest' : Bytes} :
    rest ≠ pointed (some digits) ++ rest' := by
  rintro rfl
  exact h.unpointed rfl Ascii.point rfl rfl

theorem Cut.unique (h : Cut whole fraction rest) {whole' rest' : Bytes} {fraction' : Option Bytes}
    (h' : Cut whole' fraction' rest')
    (htext : whole ++ (pointed fraction ++ rest) = whole' ++ (pointed fraction' ++ rest')) :
    whole = whole' ∧ fraction = fraction' ∧ rest = rest' := by
  have hwhole : whole = whole' := by rw [← h.takeWhile, htext, h'.takeWhile]
  have hbehind : pointed fraction ++ rest = pointed fraction' ++ rest' := by
    rw [← h.dropWhile, htext, h'.dropWhile]
  refine ⟨hwhole, ?_⟩
  cases fraction with
  | none =>
      cases fraction' with
      | none => exact ⟨rfl, hbehind⟩
      | some digits' => exact absurd hbehind h.not_pointed
  | some digits =>
      cases fraction' with
      | none => exact absurd hbehind.symm h'.not_pointed
      | some digits' =>
          obtain ⟨-, hafter⟩ := List.cons.inj hbehind
          have hdigits : digits = digits' :=
            calc digits = (digits ++ rest).takeWhile Bytes.isDigit :=
                  (Bytes.takeWhile_run h.fraction_digits h.stops).symm
              _ = (digits' ++ rest').takeWhile Bytes.isDigit :=
                  congrArg (List.takeWhile Bytes.isDigit) hafter
              _ = digits' := Bytes.takeWhile_run h'.fraction_digits h'.stops
          subst hdigits
          exact ⟨rfl, List.append_cancel_left hafter⟩

theorem exists_cut (s : Bytes) :
    ∃ whole fraction rest, s = whole ++ (pointed fraction ++ rest) ∧ Cut whole fraction rest := by
  have hdigits := Bytes.mem_takeWhile (p := Bytes.isDigit) (s := s)
  have hstops := Bytes.head?_dropWhile (p := Bytes.isDigit) (s := s)
  have hs := List.takeWhile_append_dropWhile (p := Bytes.isDigit) (l := s)
  generalize s.takeWhile Bytes.isDigit = whole at hdigits hs
  generalize s.dropWhile Bytes.isDigit = behind at hstops hs
  by_cases hpoint : behind.head? = some Ascii.point
  · obtain ⟨after, rfl⟩ := List.head?_eq_some_iff.mp hpoint
    refine ⟨whole, some (after.takeWhile Bytes.isDigit), after.dropWhile Bytes.isDigit, ?_,
      hdigits, Bytes.mem_takeWhile, Bytes.head?_dropWhile, nofun⟩
    rw [pointed, List.cons_append, List.takeWhile_append_dropWhile, hs]
  · refine ⟨whole, none, behind, hs.symm, hdigits, nofun, hstops, ?_⟩
    rintro - b hb rfl
    exact hpoint hb

theorem Cut.component? (h : Cut whole fraction rest) :
    component? (whole ++ (pointed fraction ++ rest)) =
      measured whole (fraction.getD []) rest := by
  unfold Timespan.component?
  rw [h.takeWhile, h.dropWhile]
  cases fraction with
  | none =>
      simp only [pointed, List.nil_append]
      split
      · exact absurd rfl (h.unpointed rfl Ascii.point rfl)
      · rfl
  | some digits =>
      have htake := Bytes.takeWhile_run h.fraction_digits h.stops
      have hdrop := Bytes.dropWhile_run h.fraction_digits h.stops
      change measured whole ((digits ++ rest).takeWhile Bytes.isDigit)
        ((digits ++ rest).dropWhile Bytes.isDigit) = _
      rw [Option.getD_some] at htake hdrop ⊢
      rw [htake, hdrop]

end

/-! ## Units -/

/-- What can stand behind a term: nothing, or the beginning of another one. -/
def Resumes (rest : Bytes) : Prop :=
  ∀ b ∈ rest.head?, Bytes.isDigit b = true ∨ b = Ascii.point

theorem unit_begins : ∀ unit ∈ spellings, unit.1 ≠ [] ∧
    ∀ b ∈ unit.1.head?, Bytes.isDigit b = false ∧ b ≠ Ascii.point := by
  decide

theorem unit?_append {unit : Bytes × Nat} (h : unit ∈ spellings) {rest : Bytes}
    (hrest : Resumes rest) : unit? (unit.1 ++ rest) = some (unit.2, rest) := by
  -- Only `m` is the beginning of a longer unit.
  have hlonger : (utf8 "ms").isPrefixOf (utf8 "m" ++ rest) = false := by
    cases rest with
    | nil => rfl
    | cons b rest =>
        have hletter : (115 == b) = false := by
          rw [beq_eq_false_iff_ne]
          rintro rfl
          exact absurd (hrest 115 rfl) (by decide)
        change (true && ((115 == b) && true)) = false
        rw [hletter]
        rfl
  simp only [spellings, List.mem_cons, List.not_mem_nil, or_false] at h
  rcases h with rfl | rfl | rfl | rfl | rfl | rfl | rfl | rfl
  case inr.inr.inr.inr.inr.inr.inl =>
    simp only [unit?, spellings, List.find?_cons, hlonger]
    rfl
  all_goals rfl

theorem unit?_eq_some {s rest : Bytes} {nanos : Nat} (h : unit? s = some (nanos, rest)) :
    ∃ unit ∈ spellings, s = unit.1 ++ rest ∧ unit.2 = nanos := by
  obtain ⟨unit, hfound, hpair⟩ := Option.map_eq_some_iff.mp h
  obtain ⟨rfl, rfl⟩ := Prod.mk.inj hpair
  have hfits : unit.1.isPrefixOf s = true :=
    List.find?_some (p := fun entry : Bytes × Nat => entry.1.isPrefixOf s) hfound
  have happend := List.prefix_iff_eq_append.mp (List.isPrefixOf_iff_prefix.mp hfits)
  exact ⟨unit, List.mem_of_find?_eq_some hfound, happend.symm, rfl⟩

/-! ## Terms -/

/-- A number with its unit, as it is written: digits, perhaps a point with further digits, and
the unit.  At least one digit stands before or behind the point. -/
@[ext]
structure Term where
  whole : Bytes
  fraction : Option Bytes
  unit : Bytes × Nat
  whole_digits : ∀ b ∈ whole, Bytes.isDigit b = true := by decide
  fraction_digits : ∀ b ∈ fraction.getD [], Bytes.isDigit b = true := by decide
  has_digit : whole ≠ [] ∨ fraction.getD [] ≠ [] := by decide
  known : unit ∈ spellings := by decide

namespace Term

def text (term : Term) : Bytes := term.whole ++ (pointed term.fraction ++ term.unit.1)

def component (term : Term) : Component where
  digits := Bytes.digitsValue (term.whole ++ term.fraction.getD [])
  places := (term.fraction.getD []).length
  nanos := term.unit.2

section

variable {term term' : Term} {rest rest' : Bytes}

theorem text_append (term : Term) (rest : Bytes) :
    term.text ++ rest = term.whole ++ (pointed term.fraction ++ (term.unit.1 ++ rest)) := by
  simp only [text, List.append_assoc]

theorem cut (term : Term) (rest : Bytes) :
    Cut term.whole term.fraction (term.unit.1 ++ rest) := by
  obtain ⟨hunit, hbegins⟩ := unit_begins term.unit term.known
  obtain ⟨b, spelling, hspelling⟩ := List.exists_cons_of_ne_nil hunit
  rw [hspelling] at hbegins ⊢
  exact ⟨term.whole_digits, term.fraction_digits, fun b hb => (hbegins b hb).1,
    fun _ b hb => (hbegins b hb).2⟩

theorem component?_append (term : Term) (h : Resumes rest) :
    component? (term.text ++ rest) = some (term.component, rest) := by
  have hdigit : ¬ (term.whole.isEmpty && (term.fraction.getD []).isEmpty) = true := by
    simpa only [Bool.and_eq_true, List.isEmpty_iff, not_and_or] using term.has_digit
  rw [text_append, (term.cut rest).component?, measured, if_neg hdigit, unit?_append term.known h]
  rfl

theorem exists_term {s : Bytes} {c : Component} (h : component? s = some (c, rest)) :
    ∃ term : Term, s = term.text ++ rest ∧ term.component = c := by
  obtain ⟨whole, fraction, behind, rfl, hcut⟩ := exists_cut s
  rw [hcut.component?, measured] at h
  split at h
  · cases h
  · next hdigit =>
      simp only [Bool.and_eq_true, List.isEmpty_iff, not_and_or] at hdigit
      obtain ⟨⟨nanos, after⟩, hunit, hpair⟩ := Option.map_eq_some_iff.mp h
      obtain ⟨rfl, rfl⟩ := Prod.mk.inj hpair
      obtain ⟨unit, hknown, rfl, rfl⟩ := unit?_eq_some hunit
      refine ⟨⟨whole, fraction, unit, hcut.whole_digits, hcut.fraction_digits, hdigit, hknown⟩,
        ?_, rfl⟩
      rw [text_append]

theorem text_append_inj (h : Resumes rest) (h' : Resumes rest')
    (htext : term.text ++ rest = term'.text ++ rest') : term = term' ∧ rest = rest' := by
  rw [text_append, text_append] at htext
  obtain ⟨hwhole, hfraction, hbehind⟩ := (term.cut rest).unique (term'.cut rest') htext
  have hpair : some (term.unit.2, rest) = some (term'.unit.2, rest') := by
    rw [← unit?_append term.known h, hbehind, unit?_append term'.known h']
  obtain ⟨hnanos, rfl⟩ := Prod.mk.inj (Option.some.inj hpair)
  have hspelling := List.append_cancel_right hbehind
  exact ⟨Term.ext hwhole hfraction (Prod.ext hspelling hnanos), rfl⟩

theorem resumes_text (term : Term) (rest : Bytes) : Resumes (term.text ++ rest) := by
  rw [text_append]
  intro b hb
  cases hwhole : term.whole with
  | cons digit whole =>
      rw [hwhole] at hb
      obtain rfl := Option.some.inj hb
      exact .inl (term.whole_digits digit (hwhole ▸ List.mem_cons_self))
  | nil =>
      cases hfraction : term.fraction with
      | some digits =>
          rw [hwhole, hfraction] at hb
          obtain rfl := Option.some.inj hb
          exact .inr rfl
      | none =>
          rcases term.has_digit with hdigit | hdigit
          · exact absurd hwhole hdigit
          · exact absurd (hfraction ▸ rfl) hdigit

theorem two_le_length (term : Term) : 2 ≤ term.text.length := by
  have hunit : 0 < term.unit.1.length := List.length_pos_iff.mpr (unit_begins _ term.known).1
  have hnumber : 0 < term.whole.length + (pointed term.fraction).length := by
    rcases term.has_digit with hdigit | hdigit
    · exact Nat.add_pos_left (List.length_pos_iff.mpr hdigit) _
    · cases hfraction : term.fraction with
      | none => exact absurd (hfraction ▸ rfl) hdigit
      | some digits => exact Nat.add_pos_right _ (Nat.succ_pos _)
  simp only [text, List.length_append]
  omega

end

end Term

/-! ## Sequences of terms -/

section

variable {terms terms' : List Term}

theorem resumes_flatMap (terms : List Term) : Resumes (terms.flatMap Term.text) := by
  cases terms with
  | nil => exact nofun
  | cons term terms =>
      rw [List.flatMap_cons]
      exact term.resumes_text _

theorem length_le (terms : List Term) : 2 * terms.length ≤ (terms.flatMap Term.text).length := by
  induction terms with
  | nil => exact Nat.le_refl 0
  | cons term terms ih =>
      have hterm := term.two_le_length
      rw [List.flatMap_cons, List.length_append, List.length_cons]
      omega

theorem eq_nil_of_flatMap (h : terms.flatMap Term.text = []) : terms = [] := by
  have hlength := length_le terms
  rw [h, List.length_nil] at hlength
  exact List.length_eq_zero_iff.mp (by omega)

theorem flatMap_text_inj (h : terms.flatMap Term.text = terms'.flatMap Term.text) :
    terms = terms' := by
  induction terms generalizing terms' with
  | nil => exact (eq_nil_of_flatMap h.symm).symm
  | cons term terms ih =>
      cases terms' with
      | nil => exact eq_nil_of_flatMap h
      | cons term' terms' =>
          obtain ⟨rfl, hrest⟩ :=
            Term.text_append_inj (resumes_flatMap terms) (resumes_flatMap terms') h
          rw [ih hrest]

theorem components?_append (term : Term) {rest : Bytes} (h : Resumes rest) (n : Nat) :
    components? (n + 1) (term.text ++ rest) =
      (components? n rest).map (term.component :: ·) := by
  have hfirst := term.component?_append h
  cases htext : term.text ++ rest with
  | nil =>
      rw [htext] at hfirst
      cases hfirst
  | cons b behind =>
      rw [htext] at hfirst
      simp only [components?, hfirst]

theorem components?_flatMap {n : Nat} (h : terms.length ≤ n) :
    components? n (terms.flatMap Term.text) = some (terms.map Term.component) := by
  induction terms generalizing n with
  | nil => cases n <;> rfl
  | cons term terms ih =>
      obtain ⟨n, rfl⟩ := Nat.exists_eq_add_one_of_ne_zero (Nat.ne_of_gt (Nat.zero_lt_of_lt h))
      rw [List.flatMap_cons, components?_append term (resumes_flatMap terms),
        ih (Nat.le_of_succ_le_succ h)]
      rfl

/-- Components are only read where terms are written. -/
theorem exists_terms {n : Nat} {s : Bytes} {parts : List Component}
    (h : components? n s = some parts) :
    ∃ terms : List Term, s = terms.flatMap Term.text ∧ terms.map Term.component = parts := by
  fun_induction components? n s generalizing parts with
  | case1 n =>
      obtain rfl := Option.some.inj h
      exact ⟨[], rfl, rfl⟩
  | case2 b rest => cases h
  | case3 n s hne hnone => cases h
  | case4 n s hne first rest hfirst ih =>
      obtain ⟨others, hothers, rfl⟩ := Option.map_eq_some_iff.mp h
      obtain ⟨term, rfl, rfl⟩ := Term.exists_term hfirst
      obtain ⟨terms, rfl, rfl⟩ := ih hothers
      exact ⟨term :: terms, rfl, rfl⟩

end

end Timespan

end BearerAuth
