import BearerAuth.Proofs.Timeline.Step
import Mathlib.Data.List.Basic
import Mathlib.Order.Monotone.Basic

/-!
# One caller more

When one more caller is put in at a position, the tickets of those from there on move up by
one (`shift`).  Taking it out again is `unshift`, which has no ticket for the caller itself.
Lists of tickets, and of what carries tickets, are taken back with `List.filterMap`; joining
the line, leaving a list and looking for the first of a list go along with that.  Which of two
timers goes first does too, if the order of timers of one instant is `Ties.Lawful`.
-/

namespace BearerAuth

namespace Timeline

/-! ## Tickets -/

/-- The ticket of a caller after another has been put in at a position. -/
def shift (p k : Nat) : Nat := if k < p then k else k + 1

/-- The ticket of a caller before another was put in at a position. -/
def unshift (p k : Nat) : Option Nat :=
  if k < p then some k else if k = p then none else some (k - 1)

section

variable {p k k' : Nat}

@[simp] theorem unshift_self (p : Nat) : unshift p p = none := by
  simp [unshift]

@[simp] theorem unshift_shift (p k : Nat) : unshift p (shift p k) = some k := by
  rw [shift]
  split
  · next hlt => simp [unshift, hlt]
  · next hle =>
      have hlt : ¬ k + 1 < p := by omega
      have hne : ¬ k + 1 = p := by omega
      simp [unshift, hlt, hne]

theorem unshift_eq_some : unshift p k' = some k ↔ k' = shift p k := by
  constructor
  · intro h
    rw [unshift] at h
    split at h
    · next hlt =>
        obtain rfl := Option.some.inj h
        simp [shift, hlt]
    · split at h
      · cases h
      · next hle hne =>
          obtain rfl := Option.some.inj h
          rw [shift, if_neg (by omega)]
          omega
  · rintro rfl
    exact unshift_shift p k

theorem shift_ne (p k : Nat) : shift p k ≠ p := by
  rw [shift]
  split <;> omega

theorem shift_inj (h : shift p k = shift p k') : k = k' := by
  have heq := congrArg (unshift p) h
  simpa using heq

theorem eq_or_shift (p k' : Nat) : k' = p ∨ ∃ k, k' = shift p k := by
  cases h : unshift p k' with
  | none =>
      left
      rw [unshift] at h
      split at h
      · cases h
      · split at h
        · assumption
        · cases h
  | some k => exact .inr ⟨k, unshift_eq_some.mp h⟩

theorem lt_of_shift_lt {n : Nat} (hp : p ≤ n) (h : shift p k < n + 1) : k < n := by
  rw [shift] at h
  split at h <;> omega

theorem filterMap_eq_range {α β : Type} (f : α → Option β) (l : List α) :
    l.filterMap f = (List.range l.length).filterMap fun k => l[k]?.bind f := by
  have hcount : (List.range l.length).map (fun k => l[k]?) = l.map some := by
    refine List.ext_getElem? fun k => ?_
    rw [List.getElem?_map, List.getElem?_map]
    rcases Nat.lt_or_ge k l.length with hlt | hle
    · rw [List.getElem?_range hlt, List.getElem?_eq_getElem hlt, Option.map_some,
        List.getElem?_eq_getElem hlt]
      rfl
    · rw [List.getElem?_eq_none (by simpa using hle), List.getElem?_eq_none hle]
      rfl
  have hboth : ((List.range l.length).map fun k => l[k]?).filterMap (fun a => a.bind f) =
      (l.map some).filterMap fun a => a.bind f := congrArg _ hcount
  rw [List.filterMap_map, List.filterMap_map] at hboth
  exact hboth.symm

theorem filterMap_range_shift {α : Type} (f : Nat → Option α) (hnone : f p = none) {n : Nat}
    (hp : p ≤ n) :
    (List.range (n + 1)).filterMap f = (List.range n).filterMap fun k => f (shift p k) := by
  induction n with
  | zero =>
      obtain rfl := Nat.le_zero.mp hp
      simp [hnone]
  | succ n ih =>
      rw [List.range_succ, List.filterMap_append]
      rcases Nat.lt_or_eq_of_le hp with hlt | rfl
      · rw [ih (Nat.le_of_lt_succ hlt), List.range_succ (n := n), List.filterMap_append]
        have hlast : shift p n = n + 1 := by simp [shift, Nat.not_lt.mpr (Nat.le_of_lt_succ hlt)]
        simp only [List.filterMap_cons, List.filterMap_nil, hlast]
      · have hsame : ∀ k ∈ List.range (n + 1), f (shift (n + 1) k) = f k := by
          intro k hk
          rw [shift, if_pos (List.mem_range.mp hk)]
        rw [List.filterMap_congr hsame]
        simp [hnone]

end

/-! ## Lists -/

section

variable {α β : Type} {f : α → Option β}

theorem filterMap_erase_of_none [DecidableEq α] {c : α} (h : f c = none) (l : List α) :
    (l.erase c).filterMap f = l.filterMap f := by
  induction l with
  | nil => rfl
  | cons a rest ih =>
      rw [List.erase_cons]
      split
      · next heq =>
          obtain rfl := eq_of_beq heq
          rw [List.filterMap_cons, h]
      · rw [List.filterMap_cons, List.filterMap_cons, ih]

theorem filterMap_erase [DecidableEq α] [DecidableEq β] {c : α} {d : β} (h : f c = some d)
    (hinj : ∀ a, f a = some d → a = c) (l : List α) :
    (l.erase c).filterMap f = (l.filterMap f).erase d := by
  induction l with
  | nil => rfl
  | cons a rest ih =>
      rw [List.erase_cons]
      split
      · next heq =>
          obtain rfl := eq_of_beq heq
          rw [List.filterMap_cons, h]
          simp
      · next hne =>
          rw [List.filterMap_cons, List.filterMap_cons, ih]
          cases hfa : f a with
          | none => rfl
          | some b =>
              have hbd : ¬ (b == d) = true := by
                intro heq
                obtain rfl := eq_of_beq heq
                exact hne (beq_iff_eq.mpr (hinj a hfa))
              rw [List.erase_cons, if_neg hbd]

theorem filterMap_filter_of_none {keep : α → Bool} (h : ∀ a, keep a = false → f a = none)
    (l : List α) : (l.filter keep).filterMap f = l.filterMap f := by
  induction l with
  | nil => rfl
  | cons a rest ih =>
      rw [List.filter_cons]
      split
      · rw [List.filterMap_cons, List.filterMap_cons, ih]
      · next hdrop => rw [List.filterMap_cons, h a (Bool.eq_false_iff.mpr hdrop), ih]

theorem filterMap_filter {keep : α → Bool} {keep' : β → Bool}
    (h : ∀ {a b}, f a = some b → keep a = keep' b) (l : List α) :
    (l.filter keep).filterMap f = (l.filterMap f).filter keep' := by
  induction l with
  | nil => rfl
  | cons a rest ih =>
      rw [List.filter_cons, List.filterMap_cons]
      cases hfa : f a with
      | none =>
          split
          · rw [List.filterMap_cons, hfa, ih]
          · exact ih
      | some b =>
          rw [List.filter_cons, ← h hfa]
          split
          · rw [List.filterMap_cons, hfa, ih]
          · exact ih

/-- The first of a list by instants is the first among the counterparts, when it has one. -/
theorem first?_filterMap {instant : α → Instant} {instant' : β → Instant}
    (h : ∀ {a b}, f a = some b → instant' b = instant a) {l : List α} {a : α} {b : β}
    (hfirst : first? (fun x y => decide (instant x < instant y)) l = some a) (hb : f a = some b) :
    first? (fun x y => decide (instant' x < instant' y)) (l.filterMap f) = some b := by
  induction l generalizing a b with
  | nil => cases hfirst
  | cons c rest ih =>
      rw [first?] at hfirst
      rw [List.filterMap_cons]
      cases hrest : first? (fun x y => decide (instant x < instant y)) rest with
      | none =>
          rw [hrest] at hfirst
          obtain rfl := Option.some.inj hfirst
          rw [first?_eq_none hrest, hb]
          rfl
      | some d =>
          rw [hrest] at hfirst
          simp only [decide_eq_true_eq] at hfirst
          split at hfirst
          · next hlt =>
              obtain rfl := Option.some.inj hfirst
              have hkept := ih hrest hb
              cases hfc : f c with
              | none => exact hkept
              | some c' =>
                  rw [first?, hkept]
                  simp only [h hb, h hfc, decide_eq_true_eq, if_pos hlt]
          · next hnot =>
              obtain rfl := Option.some.inj hfirst
              rw [hb]
              cases hothers : first? (fun x y => decide (instant' x < instant' y))
                  (rest.filterMap f) with
              | none => simp only [first?, hothers]
              | some e =>
                  obtain ⟨x, hx, hfx⟩ := List.mem_filterMap.mp (first?_mem hothers)
                  have hle := earliest_of_first? hrest x hx
                  have hnot' : ¬ instant' e < instant' b := by
                    rw [h hfx, h hb]
                    intro hlt
                    exact hnot (Int.lt_of_le_of_lt hle hlt)
                  simp only [first?, hothers, decide_eq_true_eq, if_neg hnot']

end

/-! ## Alarms and the line -/

/-- The alarm of a caller after another has been put in; `σ` takes turns to turns. -/
def Alarm.moved (σ : Nat → Nat) (p : Ticket) (a : Alarm) : Alarm :=
  ⟨a.instant, σ a.since, shift p a.ticket⟩

/-- What is asked of the order of timers of one instant so that another timer makes no difference:
it is an order, and goes by no more than which of two timers was set first and which of their jobs
has the lower ticket. -/
structure Ties.Lawful (ties : Ties) : Prop extends ties.IsOrder where
  moved : ∀ {σ : Nat → Nat} {p : Ticket} {a b : Alarm}, StrictMono σ → a.instant = b.instant →
    ties (a.moved σ p) (b.moved σ p) = ties a b

theorem precedes_moved {ties : Ties} (hties : ties.Lawful) {σ : Nat → Nat} (hσ : StrictMono σ)
    {p : Ticket} {a b : Alarm} :
    (a.moved σ p).precedes ties (b.moved σ p) = a.precedes ties b := by
  rw [Bool.eq_iff_iff, precedes_iff, precedes_iff]
  refine or_congr Iff.rfl (and_congr_right fun heq => ?_)
  rw [hties.moved hσ (show a.instant = b.instant from heq)]

def lineWithout (p : Ticket) (line : List Ticket) : List Ticket := line.filterMap (unshift p)

section

variable {p k : Ticket} {line more : List Ticket}

theorem mem_lineWithout : k ∈ lineWithout p line ↔ shift p k ∈ line := by
  simp only [lineWithout, List.mem_filterMap, unshift_eq_some]
  constructor
  · rintro ⟨k', hk', rfl⟩
    exact hk'
  · intro hk
    exact ⟨_, hk, rfl⟩

@[simp] theorem lineWithout_nil : lineWithout p [] = [] := rfl

@[simp] theorem lineWithout_cons_self : lineWithout p (p :: line) = lineWithout p line := by
  simp [lineWithout]

@[simp] theorem lineWithout_cons_shift :
    lineWithout p (shift p k :: line) = k :: lineWithout p line := by
  simp [lineWithout]

theorem lineWithout_append :
    lineWithout p (line ++ more) = lineWithout p line ++ lineWithout p more :=
  List.filterMap_append

theorem lineWithout_erase :
    lineWithout p (line.erase (shift p k)) = (lineWithout p line).erase k :=
  filterMap_erase (unshift_shift p k) (fun _ h => unshift_eq_some.mp h) line

theorem lineWithout_erase_self : lineWithout p (line.erase p) = lineWithout p line :=
  filterMap_erase_of_none (unshift_self p) line

theorem join_lineWithout :
    join (lineWithout p line) (lineWithout p more) = lineWithout p (join line more) := by
  induction more generalizing line with
  | nil => rfl
  | cons ticket rest ih =>
      rw [join]
      rcases eq_or_shift p ticket with rfl | ⟨k, rfl⟩
      · rw [lineWithout_cons_self, ← ih]
        split
        · rfl
        · rw [lineWithout_append, lineWithout_cons_self, lineWithout_nil, List.append_nil]
      · rw [lineWithout_cons_shift, join, ← ih]
        have hiff : (lineWithout p line).contains k = line.contains (shift p k) := by
          rw [Bool.eq_iff_iff, List.contains_iff_mem, List.contains_iff_mem]
          exact mem_lineWithout
        rw [hiff]
        split
        · rfl
        · rw [lineWithout_append, lineWithout_cons_shift, lineWithout_nil]

end

end Timeline

end BearerAuth
