import BearerAuth.Proofs.Bytes
import BearerAuth.Url

/-!
# Hosts and ports in an authority

`Spells` says how an authority is written, and `NamesPort` what port its port
text names: with them an authority is cut into host and port text
(`splitAuthority_eq_ok_iff`) and the port is resolved (`resolvePort_eq_ok_iff`).
Port texts may be of any length.  Read digit by digit, no number that is
reached on the way overflows a register (`portNumber?_eq_register`).
-/

namespace BearerAuth

namespace Url

/-! ## Hosts -/

theorem splitAuthority_openBracket (inside : Bytes) :
    splitAuthority (Ascii.openBracket :: inside) = match Bytes.cut Ascii.closeBracket inside with
      | none => .error .unterminatedLiteral
      | some (host, []) => .ok (host, [])
      | some (host, b :: port) =>
          if b = Ascii.colon then .ok (host, port) else .error .contentAfterLiteral :=
  rfl

theorem splitAuthority_of_head {authority : Bytes}
    (h : authority.head? ≠ some Ascii.openBracket) :
    splitAuthority authority = match Bytes.cutLast Ascii.colon authority with
      | none => .ok (authority, [])
      | some parts => .ok parts := by
  unfold splitAuthority
  split
  · exact absurd rfl h
  · rfl

/-- How an authority is written, with its host and its port text.  A host in
brackets ends at the first closing one, any other at the last colon, and the
port text is empty when there is none. -/
inductive Spells : Bytes → Bytes → Bytes → Prop
  | name {host : Bytes} (hhead : host.head? ≠ some Ascii.openBracket)
      (hcolon : Ascii.colon ∉ host) : Spells host host []
  | namePort {host port : Bytes}
      (hhead : (host ++ Ascii.colon :: port).head? ≠ some Ascii.openBracket)
      (hcolon : Ascii.colon ∉ port) : Spells (host ++ Ascii.colon :: port) host port
  | literal {host : Bytes} (hclose : Ascii.closeBracket ∉ host) :
      Spells (Ascii.openBracket :: (host ++ [Ascii.closeBracket])) host []
  | literalPort {host : Bytes} (port : Bytes) (hclose : Ascii.closeBracket ∉ host) :
      Spells (Ascii.openBracket :: (host ++ Ascii.closeBracket :: Ascii.colon :: port)) host port

theorem splitAuthority_eq_ok_iff {authority host port : Bytes} :
    splitAuthority authority = .ok (host, port) ↔ Spells authority host port := by
  constructor
  · intro h
    by_cases hhead : authority.head? = some Ascii.openBracket
    · obtain ⟨inside, rfl⟩ := List.head?_eq_some_iff.mp hhead
      rw [splitAuthority_openBracket] at h
      split at h
      · cases h
      · next hcut =>
          obtain ⟨rfl, rfl⟩ := Prod.mk.inj (Except.ok.inj h)
          obtain ⟨rfl, hclose⟩ := Bytes.cut_eq_some hcut
          exact .literal hclose
      · next hcut =>
          split at h
          · next hcolon =>
              obtain ⟨rfl, rfl⟩ := Prod.mk.inj (Except.ok.inj h)
              obtain ⟨rfl, hclose⟩ := Bytes.cut_eq_some hcut
              exact hcolon ▸ .literalPort _ hclose
          · cases h
    · rw [splitAuthority_of_head hhead] at h
      split at h
      · next hcut =>
          obtain ⟨rfl, rfl⟩ := Prod.mk.inj (Except.ok.inj h)
          exact .name hhead (Bytes.not_mem_of_cutLast_eq_none hcut)
      · next hcut =>
          obtain rfl := Except.ok.inj h
          obtain ⟨rfl, hcolon⟩ := Bytes.cutLast_eq_some hcut
          exact .namePort hhead hcolon
  · intro h
    cases h with
    | name hhead hcolon => rw [splitAuthority_of_head hhead, Bytes.cutLast_of_not_mem hcolon]
    | namePort hhead hcolon => rw [splitAuthority_of_head hhead, Bytes.cutLast_append _ hcolon]
    | literal hclose => rw [splitAuthority_openBracket, Bytes.cut_append _ hclose]
    | literalPort port hclose =>
        rw [splitAuthority_openBracket, Bytes.cut_append _ hclose]
        rfl

theorem Spells.mem {authority host port : Bytes} (h : Spells authority host port) {b : UInt8}
    (hb : b ∈ authority) :
    b ∈ host ∨ b ∈ port ∨ b ∈ [Ascii.openBracket, Ascii.closeBracket, Ascii.colon] := by
  cases h with
  | name => exact .inl hb
  | namePort =>
      rw [List.mem_append, List.mem_cons] at hb
      rcases hb with hb | rfl | hb
      · exact .inl hb
      · exact .inr (.inr (by simp))
      · exact .inr (.inl hb)
  | literal =>
      rw [List.mem_cons, List.mem_append, List.mem_singleton] at hb
      rcases hb with rfl | hb | rfl <;> simp [*]
  | literalPort =>
      rw [List.mem_cons, List.mem_append, List.mem_cons, List.mem_cons] at hb
      rcases hb with rfl | hb | rfl | rfl | hb <;> simp [*]

theorem mem_of_splitAuthority {authority host port : Bytes}
    (h : splitAuthority authority = .ok (host, port)) {b : UInt8} (hb : b ∈ host) :
    b ∈ authority := by
  cases splitAuthority_eq_ok_iff.mp h with
  | name => exact hb
  | namePort => exact List.mem_append_left _ hb
  | literal => exact List.mem_cons_of_mem _ (List.mem_append_left _ hb)
  | literalPort => exact List.mem_cons_of_mem _ (List.mem_append_left _ hb)

/-! ## Ports -/

/-- The port that a port text names under a scheme: the port that the scheme
implies when the text is empty, and else the number from 1 to 65535 that it
writes, with as many zeros in front as there may be. -/
inductive NamesPort (scheme : Bytes) : Bytes → Bytes → Prop
  | implied : NamesPort scheme [] (defaultPort scheme)
  | number {text : Bytes} (hne : text ≠ []) (hdigits : ∀ b ∈ text, Bytes.isDigit b = true)
      (hlow : 1 ≤ Bytes.digitsValue text) (hhigh : Bytes.digitsValue text ≤ 65535) :
      NamesPort scheme text (Bytes.ofNat (Bytes.digitsValue text))

theorem NamesPort.isDigit {scheme text port : Bytes} (h : NamesPort scheme text port) {b : UInt8}
    (hb : b ∈ text) : Bytes.isDigit b = true := by
  cases h with
  | implied => cases hb
  | number _ hdigits => exact hdigits b hb

theorem defaultPort_eq (scheme : Bytes) :
    ∃ n, 1 ≤ n ∧ n ≤ 65535 ∧ defaultPort scheme = Bytes.ofNat n := by
  rw [defaultPort]
  split
  · exact ⟨443, by decide, by decide, by decide⟩
  · exact ⟨80, by decide, by decide, by decide⟩

theorem portNumber?_eq_some_iff {text : Bytes} {n : Nat} :
    portNumber? text = some n ↔
      (∀ b ∈ text, Bytes.isDigit b = true) ∧ Bytes.digitsValue text = n ∧ 1 ≤ n ∧ n ≤ 65535 := by
  rw [portNumber?]
  by_cases hdigits : text.all Bytes.isDigit = true
  · have hall := List.all_eq_true.mp hdigits
    rw [if_pos hdigits]
    simp only
    split
    · next hrange =>
        refine ⟨nofun, ?_⟩
        rintro ⟨-, rfl, hlow, hhigh⟩
        omega
    · next hrange =>
        constructor
        · intro h
          obtain rfl := Option.some.inj h
          exact ⟨hall, rfl, by omega, by omega⟩
        · rintro ⟨-, rfl, -, -⟩
          rfl
  · rw [if_neg hdigits]
    exact ⟨nofun, fun h => absurd (List.all_eq_true.mpr h.1) hdigits⟩

theorem resolvePort_eq_ok_iff {scheme text port : Bytes} :
    resolvePort scheme text = .ok port ↔ NamesPort scheme text port := by
  rw [resolvePort]
  cases text with
  | nil =>
      constructor
      · intro h
        exact Except.ok.inj h ▸ .implied
      · intro h
        cases h with
        | implied => rfl
        | number hne => exact absurd rfl hne
  | cons b text =>
      simp only [List.isEmpty_cons, Bool.false_eq_true, if_false]
      constructor
      · intro h
        cases hnumber : portNumber? (b :: text) with
        | none =>
            rw [hnumber] at h
            cases h
        | some n =>
            rw [hnumber] at h
            obtain rfl := Except.ok.inj h
            obtain ⟨hdigits, rfl, hlow, hhigh⟩ := portNumber?_eq_some_iff.mp hnumber
            exact .number (List.cons_ne_nil _ _) hdigits hlow hhigh
      · intro h
        cases h with
        | number hne hdigits hlow hhigh =>
            rw [portNumber?_eq_some_iff.mpr ⟨hdigits, rfl, hlow, hhigh⟩]

theorem resolvePort_eq_ok {scheme text port : Bytes} (h : resolvePort scheme text = .ok port) :
    ∃ n, 1 ≤ n ∧ n ≤ 65535 ∧ port = Bytes.ofNat n := by
  cases resolvePort_eq_ok_iff.mp h with
  | implied => exact defaultPort_eq scheme
  | number _ _ hlow hhigh => exact ⟨_, hlow, hhigh, rfl⟩

/-! ## Ports in a register -/

/-- Reading a port text into a register of 64 bits, digit by digit, as long as
the number so far is one of a port. -/
def portInRegister : UInt64 → Bytes → Option UInt64
  | n, [] => if n = 0 ∨ 65535 < n then none else some n
  | n, b :: rest =>
      if Bytes.isDigit b ∧ n ≤ 65535 then portInRegister (n * 10 + (b.toUInt64 - 48)) rest else none

theorem le_foldl_digits (text : Bytes) (n : Nat) :
    n ≤ text.foldl (fun n b => 10 * n + (b.toNat - 48)) n := by
  induction text generalizing n with
  | nil => exact Nat.le_refl n
  | cons b text ih => exact Nat.le_trans (by simp only; omega) (ih _)

theorem toNat_shift {n : UInt64} {b : UInt8} (hn : n ≤ 65535) (hb : Bytes.isDigit b = true) :
    (n * 10 + (b.toUInt64 - 48)).toNat = 10 * n.toNat + (b.toNat - 48) := by
  simp only [Bytes.isDigit, Bool.and_eq_true, decide_eq_true_eq, UInt8.le_iff_toNat_le,
    UInt64.le_iff_toNat_le, UInt8.reduceToNat, UInt64.reduceToNat] at hn hb
  have hdigit : (b.toUInt64 - 48).toNat = b.toNat - 48 := by
    rw [UInt64.toNat_sub_of_le _ _ (by simpa [UInt64.le_iff_toNat_le] using hb.1)]
    rfl
  rw [UInt64.toNat_add, UInt64.toNat_mul, hdigit]
  simp only [UInt64.reduceToNat]
  omega

theorem portInRegister_eq_some_iff {text : Bytes} {n : UInt64} (hn : n.toNat ≤ 655359) {m : Nat} :
    (portInRegister n text).map UInt64.toNat = some m ↔
      (∀ b ∈ text, Bytes.isDigit b = true) ∧
        text.foldl (fun n b => 10 * n + (b.toNat - 48)) n.toNat = m ∧ 1 ≤ m ∧ m ≤ 65535 := by
  induction text generalizing n with
  | nil =>
      simp only [portInRegister, ← UInt64.toNat_inj, UInt64.lt_iff_toNat_lt, UInt64.reduceToNat,
        List.foldl_nil]
      split
      · next hrange =>
          refine ⟨nofun, ?_⟩
          rintro ⟨-, rfl, hlow, hhigh⟩
          omega
      · next hrange =>
          simp only [Option.map_some, Option.some.injEq]
          exact ⟨by rintro rfl; exact ⟨by simp, rfl, by omega, by omega⟩, fun h => h.2.1⟩
  | cons b text ih =>
      rw [portInRegister, List.foldl_cons]
      split
      · next hstep =>
          obtain ⟨hdigit, hroom⟩ := hstep
          have hshift := toNat_shift hroom hdigit
          have hroom' : (n * 10 + (b.toUInt64 - 48)).toNat ≤ 655359 := by
            simp only [Bytes.isDigit, Bool.and_eq_true, decide_eq_true_eq, UInt8.le_iff_toNat_le,
              UInt64.le_iff_toNat_le, UInt8.reduceToNat, UInt64.reduceToNat] at hroom hdigit
            omega
          rw [ih hroom', hshift]
          simp [hdigit]
      · next hstep =>
          refine ⟨nofun, ?_⟩
          rintro ⟨hdigits, hvalue, -, hhigh⟩
          -- Digits only make the number greater.
          refine absurd ⟨hdigits b List.mem_cons_self, ?_⟩ hstep
          have hle := le_foldl_digits text (10 * n.toNat + (b.toNat - 48))
          simp only [UInt64.le_iff_toNat_le, UInt64.reduceToNat]
          omega

/-- However long a port text is, the register ends up with its number. -/
theorem portNumber?_eq_register (text : Bytes) :
    portNumber? text = (portInRegister 0 text).map UInt64.toNat := by
  refine Option.ext fun m => ?_
  rw [portNumber?_eq_some_iff, portInRegister_eq_some_iff (by decide)]
  rfl

end Url

end BearerAuth
