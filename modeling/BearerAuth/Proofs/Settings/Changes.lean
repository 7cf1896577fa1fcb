import BearerAuth.Proofs.Json.Reader
import BearerAuth.Settings.Store
import Mathlib.Data.List.Induction

/-!
# What a store shows of its history

A store is what a list of changes has made of an empty one.  What it says about an authenticator is
decided by the last change that was about that authenticator and was not refused: `Last` says so of
the list alone, without a store.  A change of the flag keeps the defaults, so the flag and the
defaults may be those of different changes (`shows_last_changes`).

The proof is one for both.  A part of the entry is read off the store, each change either gives it
a value or leaves it alone, and then the last of those that give one has given it
(`last_iff_of_step`).
-/

namespace BearerAuth

namespace Settings

/-! ## Histories -/

/-- A change that is asked of a store. -/
inductive Change where
  | set (id : Bytes) (enabled : Bool) (text : Bytes)
  | setEnabled (id : Bytes) (enabled : Bool)
  deriving DecidableEq, Repr

/-- White space only, or nothing at all: space, tab, line feed, vertical tab, form feed, carriage
return. -/
def Blank (text : Bytes) : Prop := ∀ b ∈ text, b = 32 ∨ (9 ≤ b ∧ b ≤ 13)

/-- A text stands for defaults. -/
inductive StandsFor (text : Bytes) : Json.Members → Prop
  | blank : Blank text → StandsFor text []
  | object {members : Json.Members} :
      Json.parse text = .ok (.object members) → StandsFor text members

/-- A change gives an authenticator its flag.  One whose text stands for no defaults is refused and
gives nothing. -/
inductive GivesFlag (id : Bytes) : Change → Bool → Prop
  | set {enabled : Bool} {text : Bytes} {defaults : Json.Members} :
      StandsFor text defaults → GivesFlag id (.set id enabled text) enabled
  | setEnabled (enabled : Bool) : GivesFlag id (.setEnabled id enabled) enabled

/-- A change gives an authenticator its defaults. -/
inductive GivesDefaults (id : Bytes) : Change → Json.Members → Prop
  | set {enabled : Bool} {text : Bytes} {defaults : Json.Members} :
      StandsFor text defaults → GivesDefaults id (.set id enabled text) defaults

/-- The value that the last change to give one has given, or the one from the beginning when none
has. -/
inductive Last {α : Type} (gives : Change → α → Prop) (initial : α) (changes : List Change) :
    α → Prop
  | given {before behind : List Change} {change : Change} {value : α} :
      changes = before ++ change :: behind → gives change value →
      (∀ later ∈ behind, ∀ other, ¬ gives later other) → Last gives initial changes value
  | initial : (∀ change ∈ changes, ∀ other, ¬ gives change other) →
      Last gives initial changes initial

theorem Last.snoc {α : Type} {gives : Change → α → Prop} {initial value : α}
    {changes : List Change} {change : Change} (h : Last gives initial changes value)
    (hnot : ∀ other, ¬ gives change other) : Last gives initial (changes ++ [change]) value := by
  cases h with
  | given hsplit hvalue hbehind =>
      refine .given (hsplit ▸ List.append_assoc ..) hvalue ?_
      exact List.forall_mem_append.mpr ⟨hbehind, List.forall_mem_singleton.mpr hnot⟩
  | initial hnone =>
      exact .initial (List.forall_mem_append.mpr ⟨hnone, List.forall_mem_singleton.mpr hnot⟩)

namespace Store

/-- The store after a change; one that is refused leaves it as it is. -/
def apply (store : Store) : Change → Store
  | .set id enabled text => match store.set id enabled text with
    | .ok changed => changed
    | .error _ => store
  | .setEnabled id enabled => store.setEnabled id enabled

def after (changes : List Change) : Store := changes.foldl apply []

/-! ## One change -/

section

variable {store : Store} {id : Bytes} {enabled : Bool} {text : Bytes}

theorem entry_put (store : Store) (id : Bytes) (new : Entry) (id' : Bytes) :
    (store.put id new).entry id' = if id = id' then new else store.entry id' := by
  induction store with
  | nil => rfl
  | cons head rest ih =>
      obtain ⟨key, old⟩ := head
      by_cases hkey : key = id
      · subst hkey
        simp only [put, if_true, entry]
        split <;> rfl
      · simp only [put, hkey, if_false, entry, ih]
        by_cases hid : key = id'
        · subst hid
          simp [Ne.symm hkey]
        · simp [hid]

theorem isBlankText_iff : Bytes.isBlankText text = true ↔ Blank text := by
  simp [Bytes.isBlankText, Blank, Bytes.isSpace, Ascii.space]

theorem readDefaults_eq_ok {defaults : Json.Members} :
    readDefaults id text = .ok defaults ↔ StandsFor text defaults := by
  rw [readDefaults]
  constructor
  · intro h
    split at h
    · next hblank =>
        cases h
        exact .blank (isBlankText_iff.mp hblank)
    · split at h
      · cases h
      · next hparse =>
          cases h
          exact .object hparse
      · cases h
  · rintro (hblank | hparse)
    · rw [if_pos (isBlankText_iff.mpr hblank)]
    · simp only [Json.not_blank_of_parse hparse, Bool.false_eq_true, if_false, hparse]

theorem apply_set {defaults : Json.Members} (h : StandsFor text defaults) :
    store.apply (.set id enabled text) = store.put id ⟨enabled, defaults⟩ := by
  have hset : store.set id enabled text = .ok (store.put id ⟨enabled, defaults⟩) := by
    rw [set, readDefaults_eq_ok.mpr h]
    rfl
  rw [apply, hset]

theorem set_eq_error :
    (∃ fault, store.set id enabled text = .error fault) ↔
      ∀ defaults, ¬ StandsFor text defaults := by
  simp only [set, ← @readDefaults_eq_ok id]
  cases readDefaults id text <;> simp [Except.map]

theorem apply_refused (h : ∀ defaults, ¬ StandsFor text defaults) :
    store.apply (.set id enabled text) = store := by
  obtain ⟨fault, hfault⟩ := set_eq_error.mpr h
  rw [apply, hfault]

end

/-! ## The last change -/

section

variable {α : Type} {gives : Change → α → Prop}

theorem read_foldl_spared {read : Store → α}
    (hspares : ∀ (store : Store) change, (∀ value, ¬ gives change value) →
      read (store.apply change) = read store)
    {changes : List Change} (h : ∀ change ∈ changes, ∀ value, ¬ gives change value)
    (store : Store) : read (changes.foldl apply store) = read store := by
  induction changes generalizing store with
  | nil => rfl
  | cons first rest ih =>
      obtain ⟨hfirst, hrest⟩ := List.forall_mem_cons.mp h
      exact (ih hrest (store.apply first)).trans (hspares store first hfirst)

/-- What is read off the store after some changes is what the last of them that gave it a value has
given. -/
theorem last_iff_of_step (read : Store → α)
    (hgives : ∀ (store : Store) change value, gives change value →
      read (store.apply change) = value)
    (hspares : ∀ (store : Store) change, (∀ value, ¬ gives change value) →
      read (store.apply change) = read store)
    (changes : List Change) (value : α) :
    Last gives (read []) changes value ↔ value = read (after changes) := by
  constructor
  · intro h
    cases h with
    | given hsplit hvalue hbehind =>
        rw [hsplit, after, List.foldl_append, List.foldl_cons, read_foldl_spared hspares hbehind]
        exact (hgives _ _ _ hvalue).symm
    | initial hnone => exact (read_foldl_spared hspares hnone []).symm
  · rintro rfl
    induction changes using List.reverseRecOn with
    | nil => exact .initial nofun
    | append_singleton changes change ih =>
        rw [after, List.foldl_append, List.foldl_cons, List.foldl_nil]
        by_cases hchange : ∃ value, gives change value
        · obtain ⟨value, hvalue⟩ := hchange
          rw [hgives _ _ _ hvalue]
          exact .given rfl hvalue nofun
        · have hnot : ∀ value, ¬ gives change value := not_exists.mp hchange
          rw [hspares _ _ hnot]
          exact ih.snoc hnot

end

theorem isEnabled_given {id : Bytes} {store : Store} {change : Change} {enabled : Bool}
    (h : GivesFlag id change enabled) : (store.apply change).isEnabled id = enabled := by
  cases h with
  | set hstands => rw [apply_set hstands, isEnabled, entry_put, if_pos rfl]
  | setEnabled => rw [apply, setEnabled, isEnabled, entry_put, if_pos rfl]

/-- A change to a text leaves an entry alone unless the text stands for defaults of that entry. -/
theorem entry_set_spared {id id' : Bytes} {enabled : Bool} {text : Bytes} (store : Store)
    (h : ∀ defaults, StandsFor text defaults → id' ≠ id) :
    (store.apply (.set id' enabled text)).entry id = store.entry id := by
  by_cases hstands : ∃ defaults, StandsFor text defaults
  · obtain ⟨defaults, hdefaults⟩ := hstands
    rw [apply_set hdefaults, entry_put, if_neg (h defaults hdefaults)]
  · rw [apply_refused (not_exists.mp hstands)]

theorem isEnabled_spared {id : Bytes} {store : Store} {change : Change}
    (h : ∀ enabled, ¬ GivesFlag id change enabled) :
    (store.apply change).isEnabled id = store.isEnabled id := by
  cases change with
  | set id' enabled text =>
      refine congrArg Entry.enabled (entry_set_spared store fun defaults hdefaults => ?_)
      rintro rfl
      exact h enabled (.set hdefaults)
  | setEnabled id' enabled =>
      have hne : id' ≠ id := by
        rintro rfl
        exact h enabled (.setEnabled enabled)
      rw [apply, setEnabled, isEnabled, entry_put, if_neg hne, isEnabled]

theorem defaults_given {id : Bytes} {store : Store} {change : Change} {defaults : Json.Members}
    (h : GivesDefaults id change defaults) :
    ((store.apply change).entry id).defaults = defaults := by
  cases h with
  | set hstands => rw [apply_set hstands, entry_put, if_pos rfl]

theorem defaults_spared {id : Bytes} {store : Store} {change : Change}
    (h : ∀ defaults, ¬ GivesDefaults id change defaults) :
    ((store.apply change).entry id).defaults = (store.entry id).defaults := by
  cases change with
  | set id' enabled text =>
      refine congrArg Entry.defaults (entry_set_spared store fun defaults hdefaults => ?_)
      rintro rfl
      exact h defaults (.set hdefaults)
  | setEnabled id' enabled =>
      rw [apply, setEnabled, entry_put]
      split
      · next heq => rw [heq]
      · rfl

/-! ## Effective settings -/

section

variable {store : Store} {id text : Bytes}

theorem effective_blank (h : Blank text) :
    store.effective id text = .ok (.object (store.entry id).defaults) := by
  rw [effective, if_pos (isBlankText_iff.mpr h)]

theorem effective_null (h : Json.parse text = .ok .null) :
    store.effective id text = .ok (.object (store.entry id).defaults) := by
  simp only [effective, Json.not_blank_of_parse h, h, Bool.false_eq_true, if_false]

theorem effective_rule {value : Json} (h : Json.parse text = .ok value) (hnull : value ≠ .null) :
    store.effective id text = .ok (Json.merge (.object (store.entry id).defaults) value) := by
  simp only [effective, Json.not_blank_of_parse h, h, Bool.false_eq_true, if_false]

theorem effective_eq_error :
    (∃ fault, store.effective id text = .error fault) ↔
      ¬ Blank text ∧ ∃ fault, Json.parse text = .error fault := by
  by_cases hblank : Blank text
  · simp [effective_blank hblank, hblank]
  · cases hparse : Json.parse text with
    | error fault =>
        have hnot : ¬ Bytes.isBlankText text = true := fun h => hblank (isBlankText_iff.mp h)
        simp only [effective, if_neg hnot, hparse]
        exact ⟨fun _ => ⟨hblank, fault, rfl⟩, fun _ => ⟨_, rfl⟩⟩
    | ok value =>
        by_cases hnull : value = .null
        · simp [effective_null (hnull ▸ hparse)]
        · simp [effective_rule hparse hnull]

end

/-- **The last changes decide what a store shows**, whatever changes there were, of this and of
other authenticators.  The flag is that of the last change that set it, and the defaults are those
of the last that set these, `{}` before any.  A rule's text is refused when it is neither blank nor
a JSON text; what is effective otherwise are the defaults alone, under a blank text or a `null`,
and the rule's value laid over them.  A change is refused when its text stands for no defaults, and
then it might as well not have been asked for. -/
theorem shows_last_changes (changes : List Change) (id : Bytes) :
    (∀ enabled, Last (GivesFlag id) false changes enabled ↔
      enabled = (after changes).isEnabled id) ∧
    (∃ defaults : Json.Members,
      (∀ other, Last (GivesDefaults id) [] changes other ↔ other = defaults) ∧
      ∀ text,
        ((∃ fault, (after changes).effective id text = .error fault) ↔
          ¬ Blank text ∧ ∃ fault, Json.parse text = .error fault) ∧
        (Blank text ∨ Json.parse text = .ok .null →
          (after changes).effective id text = .ok (.object defaults)) ∧
        ∀ value, Json.parse text = .ok value → value ≠ .null →
          (after changes).effective id text = .ok (Json.merge (.object defaults) value)) ∧
    ∀ enabled text,
      ((∃ fault, (after changes).set id enabled text = .error fault) ↔
        ∀ defaults, ¬ StandsFor text defaults) ∧
      ((∀ defaults, ¬ StandsFor text defaults) → ∀ later,
        after (changes ++ .set id enabled text :: later) = after (changes ++ later)) := by
  refine ⟨?_, ⟨((after changes).entry id).defaults, ?_, fun text => ⟨effective_eq_error, ?_, ?_⟩⟩,
    fun enabled text => ⟨set_eq_error, fun hrefused later => ?_⟩⟩
  · exact last_iff_of_step (fun store => store.isEnabled id)
      (fun _ _ _ => isEnabled_given) (fun _ _ => isEnabled_spared) changes
  · exact last_iff_of_step (fun store => (store.entry id).defaults)
      (fun _ _ _ => defaults_given) (fun _ _ => defaults_spared) changes
  · rintro (hblank | hnull)
    · exact effective_blank hblank
    · exact effective_null hnull
  · intro value hvalue hnull
    exact effective_rule hvalue hnull
  · rw [after, after, List.foldl_append, List.foldl_append, List.foldl_cons,
      apply_refused hrefused]

/-- An authenticator is set, then it is enabled, and then it is set to a text that is no object. -/
def refusedAtLast : List Change :=
  [.set (utf8 "a") false (utf8 "\x7b\"k\":1\x7d"), .setEnabled (utf8 "a") true,
   .set (utf8 "a") false (utf8 "[1]")]

/-- The flag is that of the second change and the defaults are those of the first. -/
theorem refusal_leaves_both :
    (after refusedAtLast).isEnabled (utf8 "a") = true ∧
    (after refusedAtLast).effective (utf8 "a") (utf8 "null") =
      .ok (.object [(utf8 "k", .int 1)]) := by
  obtain ⟨hflag, ⟨defaults, hdefaults, htexts⟩, -⟩ := shows_last_changes refusedAtLast (utf8 "a")
  have hobject : StandsFor (utf8 "\x7b\"k\":1\x7d") [(utf8 "k", .int 1)] := .object rfl
  have hrefused (other : Json.Members) : ¬ StandsFor (utf8 "[1]") other := by
    rintro (hblank | hparse)
    · exact absurd (isBlankText_iff.mpr hblank) (by decide)
    · cases hparse
  have henabled : Last (GivesFlag (utf8 "a")) false refusedAtLast true := by
    let first : Change := .set (utf8 "a") false (utf8 "\x7b\"k\":1\x7d")
    refine @Last.given _ _ _ _ [first] _ _ _ rfl (.setEnabled true) ?_
    intro later hlater other hgives
    obtain rfl := List.mem_singleton.mp hlater
    cases hgives with
    | set hstands => exact hrefused _ hstands
  have hlast : Last (GivesDefaults (utf8 "a")) [] refusedAtLast [(utf8 "k", .int 1)] := by
    refine @Last.given _ _ _ _ [] _ _ _ rfl (.set hobject) ?_
    intro later hlater other hgives
    cases hgives with
    | @set enabled text _ hstands =>
        obtain ⟨rfl, rfl⟩ : enabled = false ∧ text = utf8 "[1]" := by simpa using hlater
        exact hrefused _ hstands
  obtain rfl := (hdefaults _).mp hlast
  exact ⟨((hflag true).mp henabled).symm, (htexts _).2.1 (.inr rfl)⟩

end Store

end Settings

end BearerAuth
