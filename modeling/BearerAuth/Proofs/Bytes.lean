import BearerAuth.Bytes
import Mathlib.Algebra.Group.Nat.Defs

/-!
# Cutting bytes and reading decimal text back

`cut` undoes putting a separator between two texts, as long as the first of
them has none (`cut_append`), so two such texts that are equal have equal parts
(`append_sep_inj`).  `split` undoes putting separators between any number of
texts that have none, and no other pieces make up a text (`split_eq_iff`).
Trimming finds a text again among blanks (`trim_surrounded`), and takes nothing
but blanks away (`exists_surrounded`).
Decimal text is made of digits only, without zeros in front, and is read back
by `digitsValue`.  Sorting puts everything in order and adds nothing
(`sortOn_sorted`, `mem_of_mem_sortOn`).
Readers of bytes are written step by step, and each step may fail.  When the
whole succeeds so did every step: `bind_eq_ok` for a step that gives a value,
`unless_eq_ok` for a condition that must not hold.
-/

namespace BearerAuth

/-! ## Steps that succeed -/

section

variable {ε α β : Type}

theorem bind_eq_ok {step : Except ε α} {next : α → Except ε β} {value : β} :
    step >>= next = .ok value ↔ ∃ a, step = .ok a ∧ next a = .ok value := by
  cases step with
  | ok a => exact ⟨fun h => ⟨a, rfl, h⟩, fun ⟨_, ha, h⟩ => Except.ok.inj ha ▸ h⟩
  | error fault => exact ⟨nofun, fun ⟨_, ha, _⟩ => nomatch ha⟩

theorem unless_eq_ok {condition : Prop} [Decidable condition] {fault : ε}
    {next : PUnit → Except ε β} {value : β} :
    (if condition then (throw fault : Except ε PUnit) >>= next else next ⟨⟩) = .ok value ↔
      ¬ condition ∧ next ⟨⟩ = .ok value := by
  by_cases h : condition
  · simp only [h, if_true, not_true_eq_false, false_and, iff_false]
    exact fun hok => by cases hok
  · simp [h]

theorem map_eq_ok {f : α → β} {step : Except ε α} {value : β} :
    step.map f = .ok value ↔ ∃ a, step = .ok a ∧ f a = value := by
  cases step <;> simp [Except.map]

end

namespace Bytes

/-! ## All bytes of a text

What holds of every byte of a text is decided byte by byte, and not for every byte there is,
whatever else is imported. -/

instance (priority := 2000) decidableText {p : UInt8 → Prop} [DecidablePred p] (s : Bytes) :
    Decidable (∀ b ∈ s, p b) :=
  List.decidableBAll p s

instance (priority := 2000) decidableOptional {p : UInt8 → Prop} [DecidablePred p]
    (b? : Option UInt8) : Decidable (∀ b ∈ b?, p b) :=
  Option.decidableForallMem b?

/-! ## Case -/

theorem lower_eq_iff {b c : UInt8} (hc : c < 65) : lower b = c ↔ b = c := by
  simp only [lower, Bool.and_eq_true, decide_eq_true_eq, UInt8.lt_iff_toNat_lt,
    UInt8.le_iff_toNat_le, ← UInt8.toNat_inj] at hc ⊢
  split
  · next hupper =>
      simp only [UInt8.toNat_add, UInt8.reduceToNat] at hc hupper ⊢
      omega
  · rfl

theorem isPrefixOf_toLower {mark : Bytes} (h : mark.all (· < 65)) (s : Bytes) :
    mark.isPrefixOf (toLower s) = mark.isPrefixOf s := by
  induction mark generalizing s with
  | nil => rfl
  | cons c mark ih =>
      simp only [List.all_cons, Bool.and_eq_true, decide_eq_true_eq] at h
      cases s with
      | nil => rfl
      | cons b s =>
          have hbyte : (c == lower b) = (c == b) := by
            rw [Bool.eq_iff_iff, beq_iff_eq, beq_iff_eq, eq_comm, lower_eq_iff h.1, eq_comm]
          have hrest := ih h.2 s
          simp only [toLower, List.map_cons, List.isPrefixOf] at hrest ⊢
          rw [hbyte, hrest]

/-! ## Cutting -/

theorem cut_append {sep : UInt8} {before : Bytes} (after : Bytes) (h : sep ∉ before) :
    cut sep (before ++ sep :: after) = some (before, after) := by
  induction before with
  | nil => simp [cut]
  | cons b before ih =>
      simp only [List.mem_cons, not_or] at h
      simp [cut, Ne.symm h.1, ih h.2]

/-- Texts in front of the first separator, and texts behind it, agree when the
whole does. -/
theorem append_sep_inj {sep : UInt8} {s t s' t' : Bytes} (hs : sep ∉ s) (hs' : sep ∉ s')
    (h : s ++ sep :: t = s' ++ sep :: t') : s = s' ∧ t = t' := by
  have hcut := cut_append t hs
  rw [h, cut_append t' hs'] at hcut
  simpa using hcut.symm

theorem cut_eq_some {sep : UInt8} {s before after : Bytes} (h : cut sep s = some (before, after)) :
    s = before ++ sep :: after ∧ sep ∉ before := by
  induction s generalizing before after with
  | nil => cases h
  | cons b rest ih =>
      by_cases hb : b = sep
      · simp only [cut, hb, if_true, Option.some.injEq, Prod.mk.injEq] at h
        obtain ⟨rfl, rfl⟩ := h
        exact ⟨by simp [hb], by simp⟩
      · simp only [cut, hb, if_false, Option.map_eq_some_iff] at h
        obtain ⟨⟨before', after'⟩, hcut, hparts⟩ := h
        obtain ⟨rfl, rfl⟩ := Prod.mk.inj hparts
        obtain ⟨rfl, hnot⟩ := ih hcut
        exact ⟨rfl, by simp [Ne.symm hb, hnot]⟩

theorem cutLast_eq_some {sep : UInt8} {s before after : Bytes}
    (h : cutLast sep s = some (before, after)) :
    s = before ++ sep :: after ∧ sep ∉ after := by
  rw [cutLast] at h
  obtain ⟨⟨first, last⟩, hcut, hparts⟩ := Option.map_eq_some_iff.mp h
  obtain ⟨rfl, rfl⟩ := Prod.mk.inj hparts
  obtain ⟨hs, hnot⟩ := cut_eq_some hcut
  refine ⟨?_, by simpa using hnot⟩
  rw [← List.reverse_reverse s, hs]
  simp

theorem cut_of_not_mem {sep : UInt8} {s : Bytes} (h : sep ∉ s) : cut sep s = none := by
  induction s with
  | nil => rfl
  | cons b rest ih =>
      simp only [List.mem_cons, not_or] at h
      simp [cut, Ne.symm h.1, ih h.2]

theorem not_mem_of_cut_eq_none {sep : UInt8} {s : Bytes} (h : cut sep s = none) : sep ∉ s := by
  intro hmem
  obtain ⟨before, after, rfl, hbefore⟩ := List.eq_append_cons_of_mem hmem
  rw [cut_append after hbefore] at h
  cases h

theorem cutLast_append {sep : UInt8} (before : Bytes) {after : Bytes} (h : sep ∉ after) :
    cutLast sep (before ++ sep :: after) = some (before, after) := by
  have hcut : cut sep (before ++ sep :: after).reverse = some (after.reverse, before.reverse) := by
    rw [List.reverse_append, List.reverse_cons, List.append_assoc]
    exact cut_append _ (by simpa using h)
  rw [cutLast, hcut]
  simp

theorem cutLast_of_not_mem {sep : UInt8} {s : Bytes} (h : sep ∉ s) : cutLast sep s = none := by
  rw [cutLast, cut_of_not_mem (by simpa using h)]
  rfl

theorem not_mem_of_cutLast_eq_none {sep : UInt8} {s : Bytes} (h : cutLast sep s = none) :
    sep ∉ s := by
  rw [cutLast, Option.map_eq_none_iff] at h
  simpa using not_mem_of_cut_eq_none h

theorem takeWhile_append_of_stop {p : UInt8 → Bool} {s more : Bytes}
    (h : ∀ b ∈ more.head?, p b = false) : (s ++ more).takeWhile p = s.takeWhile p := by
  induction s with
  | nil =>
      cases more with
      | nil => rfl
      | cons b more => simp [h b rfl]
  | cons b s ih => rw [List.cons_append, List.takeWhile_cons, List.takeWhile_cons, ih]

theorem mem_takeWhile {p : UInt8 → Bool} {s : Bytes} : ∀ b ∈ s.takeWhile p, p b = true :=
  List.all_eq_true.mp List.all_takeWhile

theorem head?_dropWhile {p : UInt8 → Bool} {s : Bytes} :
    ∀ b ∈ (s.dropWhile p).head?, p b = false := by
  intro b hb
  have hnot := List.head?_dropWhile_not p s
  rw [Option.mem_def.mp hb] at hnot
  simpa using hnot

theorem takeWhile_run {p : UInt8 → Bool} {run rest : Bytes} (hrun : ∀ b ∈ run, p b = true)
    (hrest : ∀ b ∈ rest.head?, p b = false) : (run ++ rest).takeWhile p = run := by
  rw [List.takeWhile_append_of_pos hrun]
  cases rest with
  | nil => exact List.append_nil run
  | cons b rest => rw [List.takeWhile_cons_of_neg (by simp [hrest b rfl]), List.append_nil]

theorem dropWhile_run {p : UInt8 → Bool} {run rest : Bytes} (hrun : ∀ b ∈ run, p b = true)
    (hrest : ∀ b ∈ rest.head?, p b = false) : (run ++ rest).dropWhile p = rest := by
  rw [List.dropWhile_append_of_pos hrun]
  cases rest with
  | nil => rfl
  | cons b rest => rw [List.dropWhile_cons_of_neg (by simp [hrest b rfl])]

theorem not_mem_takeWhile_ne {sep : UInt8} {s : Bytes} : sep ∉ s.takeWhile (· != sep) := by
  intro hmem
  have hkept := mem_takeWhile _ hmem
  simp at hkept

theorem takeWhile_ne_of_not_mem {sep : UInt8} {s : Bytes} (h : sep ∉ s) :
    s.takeWhile (· != sep) = s := by
  induction s with
  | nil => rfl
  | cons b rest ih =>
      simp only [List.mem_cons, not_or] at h
      rw [List.takeWhile_cons_of_pos (by simpa using Ne.symm h.1), ih h.2]

/-! ## Splitting -/

theorem split_ne_nil (sep : UInt8) (s : Bytes) : split sep s ≠ [] := by
  cases s with
  | nil => exact List.cons_ne_nil _ _
  | cons b rest =>
      rw [split]
      split
      · exact List.cons_ne_nil _ _
      · split <;> exact List.cons_ne_nil _ _

theorem split_cons_self (sep : UInt8) (rest : Bytes) :
    split sep (sep :: rest) = [] :: split sep rest := by
  rw [split, if_pos rfl]

theorem exists_split_cons {sep b : UInt8} (h : b ≠ sep) (rest : Bytes) :
    ∃ piece pieces, split sep rest = piece :: pieces ∧
      split sep (b :: rest) = (b :: piece) :: pieces := by
  obtain ⟨piece, pieces, hsplit⟩ := List.exists_cons_of_ne_nil (split_ne_nil sep rest)
  exact ⟨piece, pieces, hsplit, by rw [split, if_neg h, hsplit]⟩

theorem split_of_not_mem {sep : UInt8} {s : Bytes} (h : sep ∉ s) : split sep s = [s] := by
  induction s with
  | nil => rfl
  | cons b rest ih =>
      simp only [List.mem_cons, not_or] at h
      simp [split, Ne.symm h.1, ih h.2]

theorem split_append_sep {sep : UInt8} (s t : Bytes) :
    split sep (s ++ sep :: t) = split sep s ++ split sep t := by
  induction s with
  | nil => exact split_cons_self sep t
  | cons b s ih =>
      rw [List.cons_append]
      by_cases hb : b = sep
      · rw [hb, split_cons_self, split_cons_self, ih]
        rfl
      · obtain ⟨piece, pieces, hs, hcons⟩ := exists_split_cons hb s
        obtain ⟨piece', pieces', hs', hcons'⟩ := exists_split_cons hb (s ++ sep :: t)
        rw [ih, hs] at hs'
        obtain ⟨rfl, rfl⟩ := List.cons.inj hs'
        rw [hcons', hcons]
        rfl

theorem split_append {sep : UInt8} {piece : Bytes} (h : sep ∉ piece) (rest : Bytes) :
    split sep (piece ++ sep :: rest) = piece :: split sep rest := by
  rw [split_append_sep, split_of_not_mem h]
  rfl

theorem split_join {sep : UInt8} {pieces : List Bytes} (hne : pieces ≠ [])
    (h : ∀ piece ∈ pieces, sep ∉ piece) : split sep (join sep pieces) = pieces := by
  induction pieces with
  | nil => exact absurd rfl hne
  | cons piece rest ih =>
      have hpiece : sep ∉ piece := h piece List.mem_cons_self
      cases rest with
      | nil => exact split_of_not_mem hpiece
      | cons next pieces =>
          have hrest := ih (List.cons_ne_nil next pieces) fun other hother =>
            h other (List.mem_cons_of_mem _ hother)
          rw [join, split_append hpiece, hrest]

theorem not_mem_of_mem_split {sep : UInt8} {s piece : Bytes} (h : piece ∈ split sep s) :
    sep ∉ piece := by
  induction s generalizing piece with
  | nil =>
      obtain rfl := List.mem_singleton.mp h
      exact List.not_mem_nil
  | cons b rest ih =>
      by_cases hb : b = sep
      · rw [hb, split_cons_self] at h
        rcases List.mem_cons.mp h with rfl | h
        · exact List.not_mem_nil
        · exact ih h
      · obtain ⟨first, pieces, hrest, hcons⟩ := exists_split_cons hb rest
        rw [hcons] at h
        rw [hrest] at ih
        rcases List.mem_cons.mp h with rfl | h
        · exact List.not_mem_cons_of_ne_of_not_mem (Ne.symm hb) (ih List.mem_cons_self)
        · exact ih (List.mem_cons_of_mem _ h)

theorem join_append {sep : UInt8} {front back : List Bytes} (hfront : front ≠ [])
    (hback : back ≠ []) : join sep (front ++ back) = join sep front ++ sep :: join sep back := by
  induction front with
  | nil => exact absurd rfl hfront
  | cons piece front ih =>
      cases front with
      | nil =>
          obtain ⟨next, pieces, rfl⟩ := List.exists_cons_of_ne_nil hback
          rfl
      | cons next front =>
          have hrest := ih (List.cons_ne_nil next front)
          simp only [List.cons_append] at hrest
          simp only [List.cons_append, join, hrest, List.append_assoc]

theorem mem_of_mem_join {sep b : UInt8} {pieces : List Bytes} (h : b ∈ join sep pieces) :
    b = sep ∨ ∃ piece ∈ pieces, b ∈ piece := by
  induction pieces with
  | nil => cases h
  | cons piece rest ih =>
      cases rest with
      | nil => exact .inr ⟨piece, List.mem_cons_self, h⟩
      | cons next rest =>
          rw [join, List.mem_append, List.mem_cons] at h
          rcases h with hpiece | hsep | hrest
          · exact .inr ⟨piece, List.mem_cons_self, hpiece⟩
          · exact .inl hsep
          · rcases ih hrest with hsep | ⟨other, hother, hmem⟩
            · exact .inl hsep
            · exact .inr ⟨other, List.mem_cons_of_mem _ hother, hmem⟩

theorem join_split (sep : UInt8) (s : Bytes) : join sep (split sep s) = s := by
  induction s with
  | nil => rfl
  | cons b rest ih =>
      by_cases hb : b = sep
      · rw [hb, split_cons_self, ← List.singleton_append,
          join_append (List.cons_ne_nil _ _) (split_ne_nil sep rest), ih]
        rfl
      · obtain ⟨piece, pieces, hrest, hcons⟩ := exists_split_cons hb rest
        rw [hrest] at ih
        rw [hcons]
        cases pieces with
        | nil => exact congrArg (b :: ·) ih
        | cons next pieces => exact congrArg (b :: ·) ih

theorem split_eq_iff {sep : UInt8} {s : Bytes} {pieces : List Bytes} :
    split sep s = pieces ↔
      pieces ≠ [] ∧ (∀ piece ∈ pieces, sep ∉ piece) ∧ join sep pieces = s := by
  constructor
  · rintro rfl
    exact ⟨split_ne_nil sep s, fun _ => not_mem_of_mem_split, join_split sep s⟩
  · rintro ⟨hne, hplain, rfl⟩
    exact split_join hne hplain

/-! ## Trimming -/

/-- A text with blanks around it and none at its own ends. -/
structure Surrounded (before body after : Bytes) : Prop where
  before : ∀ b ∈ before, isBlank b = true
  begins : ∀ b ∈ body.head?, isBlank b = false
  ends : ∀ b ∈ body.getLast?, isBlank b = false
  after : ∀ b ∈ after, isBlank b = true

theorem trim_surrounded {before body after : Bytes} (h : Surrounded before body after) :
    trim (before ++ body ++ after) = body := by
  rw [trim, List.append_assoc]
  cases body with
  | nil =>
      -- With nothing in the middle all is dropped from the front.
      have hblank : ∀ b ∈ before ++ after, isBlank b = true := by
        intro b hb
        rcases List.mem_append.mp hb with hb | hb
        · exact h.before b hb
        · exact h.after b hb
      have hfront : (before ++ after ++ []).dropWhile isBlank = [] := dropWhile_run hblank nofun
      rw [List.append_nil] at hfront
      rw [List.nil_append, hfront]
      rfl
  | cons b body =>
      have hafter : ∀ b ∈ after.reverse, isBlank b = true := by
        intro b hb
        exact h.after b (List.mem_reverse.mp hb)
      have hends : ∀ c ∈ (b :: body).reverse.head?, isBlank c = false := by
        rw [List.head?_reverse]
        exact h.ends
      have hbegins : ∀ c ∈ (b :: body ++ after).head?, isBlank c = false := h.begins
      rw [dropWhile_run h.before hbegins, List.reverse_append, dropWhile_run hafter hends,
        List.reverse_reverse]

/-- Every text is the trimmed one with the blanks that were around it. -/
theorem exists_surrounded (s : Bytes) :
    ∃ before after, Surrounded before (trim s) after ∧ s = before ++ trim s ++ after := by
  have hfront : s = s.takeWhile isBlank ++ s.dropWhile isBlank :=
    List.takeWhile_append_dropWhile.symm
  have hback : s.dropWhile isBlank =
      trim s ++ ((s.dropWhile isBlank).reverse.takeWhile isBlank).reverse := by
    rw [trim, ← List.reverse_append, List.takeWhile_append_dropWhile, List.reverse_reverse]
  refine ⟨s.takeWhile isBlank, ((s.dropWhile isBlank).reverse.takeWhile isBlank).reverse,
    ⟨mem_takeWhile, ?_, ?_, ?_⟩, ?_⟩
  · intro b hb
    have hhead : b ∈ (s.dropWhile isBlank).head? := by
      rw [hback, List.head?_append, Option.mem_def.mp hb]
      rfl
    exact head?_dropWhile b hhead
  · intro b hb
    rw [trim, List.getLast?_reverse] at hb
    exact head?_dropWhile b hb
  · intro b hb
    exact mem_takeWhile b (List.mem_reverse.mp hb)
  · rw [List.append_assoc, ← hback]
    exact hfront

theorem trim_subset (s : Bytes) : trim s ⊆ s := by
  obtain ⟨before, after, -, hs⟩ := exists_surrounded s
  intro b hb
  rw [hs]
  exact List.mem_append_left after (List.mem_append_right before hb)

theorem mem_trim {s : Bytes} {b : UInt8} (hb : b ∈ s) (hblank : isBlank b = false) :
    b ∈ trim s := by
  obtain ⟨before, after, hsurrounded, hs⟩ := exists_surrounded s
  rw [hs, List.mem_append, List.mem_append] at hb
  rcases hb with (hbefore | hbody) | hafter
  · exact absurd (hsurrounded.before b hbefore) (by simp [hblank])
  · exact hbody
  · exact absurd (hsurrounded.after b hafter) (by simp [hblank])

/-! ## Decimal text -/

theorem digit_byte {c : Char} (h : c.isDigit) :
    isDigit c.toNat.toUInt8 = true ∧ c.toNat.toUInt8.toNat = c.toNat := by
  obtain ⟨hlow, hhigh⟩ := Char.isDigit_iff_toNat.mp h
  have hlow : 48 ≤ c.toNat := hlow
  have hhigh : c.toNat ≤ 57 := hhigh
  have hvalue : c.toNat.toUInt8.toNat = c.toNat := by
    simp only [Nat.toUInt8_eq, UInt8.toNat_ofNat']
    omega
  refine ⟨?_, hvalue⟩
  simp only [isDigit, Bool.and_eq_true, decide_eq_true_eq, UInt8.le_iff_toNat_le, hvalue]
  exact ⟨hlow, hhigh⟩

theorem isDigit_of_mem_ofNat {n : Nat} {b : UInt8} (h : b ∈ ofNat n) : isDigit b = true := by
  obtain ⟨c, hc, rfl⟩ := List.mem_map.mp h
  exact (digit_byte (Nat.isDigit_of_mem_toDigits (by decide) (by decide) hc)).1

theorem ofNat_ne_nil (n : Nat) : ofNat n ≠ [] := by
  simp [ofNat, Nat.toDigits_ne_nil]

theorem foldl_digits {cs : List Char} (init : Nat) (h : ∀ c ∈ cs, c.isDigit) :
    (cs.map fun c => c.toNat.toUInt8).foldl (fun n b => 10 * n + (b.toNat - 48)) init =
      Nat.ofDigitChars 10 cs init := by
  induction cs generalizing init with
  | nil => simp
  | cons c cs ih =>
      rw [List.map_cons, List.foldl_cons, Nat.ofDigitChars_cons,
        (digit_byte (h c List.mem_cons_self)).2]
      exact ih _ fun c' hc' => h c' (List.mem_cons_of_mem _ hc')

theorem digitsValue_ofNat (n : Nat) : digitsValue (ofNat n) = n := by
  rw [digitsValue, ofNat]
  rw [foldl_digits 0 fun c hc => Nat.isDigit_of_mem_toDigits (by decide) (by decide) hc]
  exact Nat.ofDigitChars_ten_toDigits

theorem ofNat_injective {m n : Nat} (h : ofNat m = ofNat n) : m = n := by
  rw [← digitsValue_ofNat m, h, digitsValue_ofNat]

theorem foldl_digitsValue (init : Nat) (digits : Bytes) :
    digits.foldl (fun n b => 10 * n + (b.toNat - 48)) init =
      init * 10 ^ digits.length + digitsValue digits := by
  induction digits generalizing init with
  | nil => simp [digitsValue]
  | cons b digits ih =>
      rw [digitsValue, List.foldl_cons, List.foldl_cons, ih, ih (10 * 0 + _), List.length_cons,
        Nat.pow_succ]
      grind

theorem digitsValue_append (s t : Bytes) :
    digitsValue (s ++ t) = digitsValue s * 10 ^ t.length + digitsValue t := by
  rw [digitsValue, List.foldl_append, foldl_digitsValue, ← digitsValue]

theorem not_mem_ofNat {n : Nat} {b : UInt8} (h : isDigit b = false) : b ∉ ofNat n := fun hmem => by
  rw [isDigit_of_mem_ofNat hmem] at h
  cases h

theorem head?_ofNat {n : Nat} (h : 0 < n) : (ofNat n).head? ≠ some Ascii.zero := by
  induction n using Nat.strongRecOn with
  | ind n ih =>
      by_cases hsmall : n < 10
      · rw [ofNat, Nat.toDigits_of_lt_base hsmall]
        exact (by decide : ∀ k < 10, 0 < k →
          ([k.digitChar].map fun c => c.toNat.toUInt8).head? ≠ some Ascii.zero) n hsmall h
      · -- The text begins with that of the quotient.
        have hquotient := ih (n / 10) (by omega) (by omega)
        obtain ⟨b, rest, hcons⟩ := List.exists_cons_of_ne_nil (ofNat_ne_nil (n / 10))
        have htext : ofNat n = ofNat (n / 10) ++ [(n % 10).digitChar.toNat.toUInt8] := by
          simp only [ofNat, Nat.toDigits_of_base_le (by decide : 1 < 10) (Nat.le_of_not_lt hsmall),
            List.map_append, List.map_cons, List.map_nil]
        rw [hcons] at htext hquotient
        rw [htext]
        exact hquotient

theorem ofInt_injective {m n : Int} (h : ofInt m = ofInt n) : m = n := by
  cases m with
  | ofNat m =>
      cases n with
      | ofNat n => rw [ofNat_injective h]
      | negSucc n =>
          have hmem : Ascii.minus ∈ ofNat m := (show ofNat m = _ from h) ▸ List.mem_cons_self
          exact absurd hmem (not_mem_ofNat rfl)
  | negSucc m =>
      cases n with
      | ofNat n =>
          have hmem : Ascii.minus ∈ ofNat n := (show _ = ofNat n from h) ▸ List.mem_cons_self
          exact absurd hmem (not_mem_ofNat rfl)
      | negSucc n =>
          have hdigits := ofNat_injective (List.cons.inj h).2
          rw [Nat.succ.inj hdigits]

theorem not_mem_ofInt {n : Int} {b : UInt8} (hdigit : isDigit b = false)
    (hminus : b ≠ Ascii.minus) : b ∉ ofInt n := by
  cases n with
  | ofNat n => exact not_mem_ofNat hdigit
  | negSucc n =>
      simp only [ofInt, List.mem_cons, not_or]
      exact ⟨hminus, not_mem_ofNat hdigit⟩

/-! ## Order -/

theorem le_total (s t : Bytes) : le s t = true ∨ le t s = true := by
  induction s generalizing t with
  | nil => exact .inl rfl
  | cons a s ih =>
      cases t with
      | nil => exact .inr rfl
      | cons b t =>
          simp only [le, Bool.or_eq_true, Bool.and_eq_true, decide_eq_true_eq, beq_iff_eq]
          rcases Nat.lt_trichotomy a.toNat b.toNat with hlt | heq | hgt
          · exact .inl (.inl (UInt8.lt_iff_toNat_lt.mpr hlt))
          · obtain rfl := UInt8.toNat_inj.mp heq
            rcases ih t with hle | hle
            · exact .inl (.inr ⟨rfl, hle⟩)
            · exact .inr (.inr ⟨rfl, hle⟩)
          · exact .inr (.inl (UInt8.lt_iff_toNat_lt.mpr hgt))

theorem le_trans {s t u : Bytes} (h : le s t = true) (h' : le t u = true) : le s u = true := by
  induction s generalizing t u with
  | nil => rfl
  | cons a s ih =>
      cases t with
      | nil => cases h
      | cons b t =>
          cases u with
          | nil => cases h'
          | cons c u =>
              simp only [le, Bool.or_eq_true, Bool.and_eq_true, decide_eq_true_eq,
                beq_iff_eq] at h h' ⊢
              rcases h with hlt | ⟨rfl, hle⟩
              · rcases h' with hlt' | ⟨rfl, -⟩
                · exact .inl (UInt8.lt_trans hlt hlt')
                · exact .inl hlt
              · rcases h' with hlt' | ⟨rfl, hle'⟩
                · exact .inl hlt'
                · exact .inr ⟨rfl, ih hle hle'⟩

theorem mem_insertOn {α : Type} {key : α → Bytes} {x y : α} {xs : List α}
    (h : y ∈ insertOn key x xs) : y = x ∨ y ∈ xs := by
  induction xs with
  | nil => exact .inl (List.mem_singleton.mp h)
  | cons z rest ih =>
      rw [insertOn] at h
      split at h
      · exact List.mem_cons.mp h
      · rcases List.mem_cons.mp h with rfl | h
        · exact .inr List.mem_cons_self
        · rcases ih h with rfl | h
          · exact .inl rfl
          · exact .inr (List.mem_cons_of_mem _ h)

theorem mem_of_mem_sortOn {α : Type} {key : α → Bytes} {y : α} {xs : List α}
    (h : y ∈ sortOn key xs) : y ∈ xs := by
  induction xs with
  | nil => exact h
  | cons x rest ih =>
      rcases mem_insertOn h with rfl | h
      · exact List.mem_cons_self
      · exact List.mem_cons_of_mem _ (ih h)

theorem sortOn_sorted {α : Type} (key : α → Bytes) (xs : List α) :
    (sortOn key xs).Pairwise fun x y => le (key x) (key y) = true := by
  have hinsert (x : α) {ys : List α}
      (hys : ys.Pairwise fun x y => le (key x) (key y) = true) :
      (insertOn key x ys).Pairwise fun x y => le (key x) (key y) = true := by
    induction ys with
    | nil => exact List.pairwise_singleton _ _
    | cons y rest ih =>
        obtain ⟨hy, hrest⟩ := List.pairwise_cons.mp hys
        rw [insertOn]
        split
        · next hle =>
            refine List.pairwise_cons.mpr ⟨?_, hys⟩
            intro z hz
            rcases List.mem_cons.mp hz with rfl | hz
            · exact hle
            · exact le_trans hle (hy z hz)
        · next hnot =>
            refine List.pairwise_cons.mpr ⟨?_, ih hrest⟩
            intro z hz
            rcases mem_insertOn hz with rfl | hz
            · exact (le_total _ _).resolve_left hnot
            · exact hy z hz
  induction xs with
  | nil => exact .nil
  | cons x rest ih => exact hinsert x ih

end Bytes

end BearerAuth
