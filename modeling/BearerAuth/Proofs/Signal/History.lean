import BearerAuth.Signal
import Mathlib.Data.List.Induction

/-!
# Histories of operations

What a list of operations means for sources, tokens and subscriptions, said of
the list alone and without a board: which sources there are, what a token
watches, which sources have been canceled, which holder a subscription has
come to, and so which callbacks are due (`Due`).  Each of these is followed by
what one more operation does to it.
-/

namespace BearerAuth

namespace Signal

/-! ## Numbers

Sources, tokens and holders are numbered in the order of creation. -/

def Operation.makesSource : Operation → Bool
  | .newSource => true
  | _ => false

def Operation.makesToken : Operation → Bool
  | .newToken _ => true
  | _ => false

def Operation.makesHolder : Operation → Bool
  | .subscribe .. | .newHolder | .moveNew _ => true
  | _ => false

/-- How many sources have been made, and so the number of the next one. -/
def sourcesIn (ops : List Operation) : Nat := ops.countP Operation.makesSource

def tokensIn (ops : List Operation) : Nat := ops.countP Operation.makesToken

def holdersIn (ops : List Operation) : Nat := ops.countP Operation.makesHolder

/-! ## Sources and tokens -/

/-- A source was made and has not gone away. -/
def HasSource (ops : List Operation) (source : Nat) : Prop :=
  ∃ past future, ops = past ++ .newSource :: future ∧
    source = sourcesIn past ∧ .dropSource source ∉ future

/-- A token was made of a source and has not been dropped. -/
def TokenOf (ops : List Operation) (token source : Nat) : Prop :=
  ∃ past future, ops = past ++ .newToken (some source) :: future ∧
    token = tokensIn past ∧ HasSource past source ∧ .dropToken token ∉ future

/-- A source was there and was told to cancel. -/
def Canceled (ops : List Operation) (source : Nat) : Prop :=
  ∃ past future, ops = past ++ .cancel source :: future ∧ HasSource past source

/-! ## Subscriptions -/

/-- Where a subscription is after an operation, when it was in `place` and
`fresh` is the number of the next holder.  It goes from holder to holder with
the moves, and is nowhere any more once its holder lets go or takes over
another. -/
def follow (fresh : Nat) : Operation → Option Nat → Option Nat
  | .release holder, place | .destroy holder, place =>
      if place = some holder then none else place
  | .moveNew source, place => if place = some source then some fresh else place
  | .moveInto target source, place =>
      if target = source then place
      else if place = some target then none
      else if place = some source then some target
      else place
  | _, place => place

/-- Where a subscription is after some operations, that was in `place` before
them. -/
def heldAfter (past : List Operation) (place : Option Nat) : List Operation → Option Nat
  | [] => place
  | op :: later => heldAfter (past ++ [op]) (follow (holdersIn past) op place) later

/-- The holder of a subscription that was made behind `past`, after the
operations behind it. -/
def holderOf (past : List Operation) (subscription : Operation) (later : List Operation) :
    Option Nat :=
  heldAfter (past ++ [subscription]) (some (holdersIn past)) later

/-- **Which callbacks are due.**  A callback subscribed through a token is due
when the source of the token was canceled before, or is canceled while a holder
has the subscription. -/
inductive Due (past : List Operation) (token : Nat) (name : Bytes) (future : List Operation) :
    Prop
  | atOnce {source : Nat} (watched : TokenOf past token source)
      (canceled : Canceled past source)
  | whileHeld {source : Nat} {between after : List Operation}
      (watched : TokenOf past token source) (split : future = between ++ .cancel source :: after)
      (canceling : HasSource (past ++ .subscribe token (.named name) :: between) source)
      (held : holderOf past (.subscribe token (.named name)) between ≠ none)

/-- The operation at a position subscribes a callback that is due. -/
def DueAt (ops : List Operation) (position : Nat) : Prop :=
  ∃ past token name future, ops = past ++ .subscribe token (.named name) :: future ∧
    past.length = position ∧ Due past token name future

/-- The name of the callback that is subscribed at a position. -/
def nameAt (ops : List Operation) (position : Nat) : Option Bytes :=
  match ops[position]? with
  | some (.subscribe _ (.named name)) => some name
  | _ => none

/-! ## Operations that can be asked for -/

/-- What a caller keeps to: a callback has something to call, and what takes
over a subscription is there. -/
def Allowed (past : List Operation) : Operation → Prop
  | .subscribe _ callback => callback ≠ .blank
  | .moveInto target _ => target < holdersIn past
  | _ => True

instance (past : List Operation) : (op : Operation) → Decidable (Allowed past op)
  | .subscribe _ callback => inferInstanceAs (Decidable (callback ≠ .blank))
  | .moveInto target _ => inferInstanceAs (Decidable (target < holdersIn past))
  | .newSource | .newToken _ | .newHolder | .release _ | .destroy _ | .moveNew _ | .cancel _
  | .sourceCanceled _ | .tokenCanceled _ | .dropSource _ | .dropToken _ => .isTrue trivial

/-- All operations of a list are ones that can be asked for at their time. -/
def Proper (ops : List Operation) : Prop :=
  ∀ past op future, ops = past ++ op :: future → Allowed past op

theorem proper_iff {ops : List Operation} :
    Proper ops ↔ ∀ i : Fin ops.length, Allowed (ops.take i) ops[i] := by
  constructor
  · intro h i
    exact h (ops.take i) ops[i] (ops.drop (i + 1)) (by simp)
  · rintro h past op future rfl
    simpa using h ⟨past.length, by simp⟩

instance (ops : List Operation) : Decidable (Proper ops) := decidable_of_iff _ proper_iff.symm

/-! ## One more operation -/

section

variable {ops past future between : List Operation} {op x : Operation} {source token : Nat}

theorem snoc_eq_split :
    ops ++ [op] = past ++ x :: future ↔
      (ops = past ∧ op = x ∧ future = []) ∨
        ∃ behind, future = behind ++ [op] ∧ ops = past ++ x :: behind := by
  constructor
  · intro h
    rcases List.eq_nil_or_concat future with rfl | ⟨behind, last, rfl⟩
    · obtain ⟨hops, hop⟩ := List.append_inj' h rfl
      exact .inl ⟨hops, List.singleton_inj.mp hop, rfl⟩
    · rw [List.concat_eq_append, ← List.cons_append, ← List.append_assoc] at h
      obtain ⟨hops, hop⟩ := List.append_inj' h rfl
      obtain rfl := List.singleton_inj.mp hop
      exact .inr ⟨behind, List.concat_eq_append, hops⟩
  · rintro (⟨rfl, rfl, rfl⟩ | ⟨behind, rfl, rfl⟩)
    · rfl
    · rw [List.append_assoc, List.cons_append]

/-- An operation of a longer list is the last one, or one of those before. -/
theorem exists_split_snoc {P : List Operation → List Operation → Prop} :
    (∃ past future, ops ++ [op] = past ++ x :: future ∧ P past future) ↔
      (op = x ∧ P ops []) ∨
        ∃ past future, ops = past ++ x :: future ∧ P past (future ++ [op]) := by
  simp only [snoc_eq_split]
  constructor
  · rintro ⟨past, future, ⟨rfl, rfl, rfl⟩ | ⟨behind, rfl, rfl⟩, h⟩
    · exact .inl ⟨rfl, h⟩
    · exact .inr ⟨past, behind, rfl, h⟩
  · rintro (⟨rfl, h⟩ | ⟨past, behind, rfl, h⟩)
    · exact ⟨ops, [], .inl ⟨rfl, rfl, rfl⟩, h⟩
    · exact ⟨past, behind ++ [op], .inr ⟨behind, rfl, rfl⟩, h⟩

theorem sourcesIn_snoc :
    sourcesIn (ops ++ [op]) = sourcesIn ops + if op.makesSource then 1 else 0 := by
  simp [sourcesIn, List.countP_append, List.countP_cons]

theorem tokensIn_snoc :
    tokensIn (ops ++ [op]) = tokensIn ops + if op.makesToken then 1 else 0 := by
  simp [tokensIn, List.countP_append, List.countP_cons]

theorem holdersIn_snoc :
    holdersIn (ops ++ [op]) = holdersIn ops + if op.makesHolder then 1 else 0 := by
  simp [holdersIn, List.countP_append, List.countP_cons]

theorem hasSource_snoc :
    HasSource (ops ++ [op]) source ↔
      (op = .newSource ∧ source = sourcesIn ops) ∨
        (HasSource ops source ∧ op ≠ .dropSource source) := by
  simp only [HasSource, exists_split_snoc, List.not_mem_nil, not_false_iff, and_true,
    List.mem_append, List.mem_singleton, not_or]
  constructor
  · rintro (hnew | ⟨past, future, hops, hsource, hdropped, hop⟩)
    · exact .inl hnew
    · exact .inr ⟨⟨past, future, hops, hsource, hdropped⟩, Ne.symm hop⟩
  · rintro (hnew | ⟨⟨past, future, hops, hsource, hdropped⟩, hop⟩)
    · exact .inl hnew
    · exact .inr ⟨past, future, hops, hsource, hdropped, Ne.symm hop⟩

theorem tokenOf_snoc :
    TokenOf (ops ++ [op]) token source ↔
      (op = .newToken (some source) ∧ token = tokensIn ops ∧ HasSource ops source) ∨
        (TokenOf ops token source ∧ op ≠ .dropToken token) := by
  simp only [TokenOf, exists_split_snoc, List.not_mem_nil, not_false_iff, and_true,
    List.mem_append, List.mem_singleton, not_or]
  constructor
  · rintro (hnew | ⟨past, future, hops, htoken, hsource, hdropped, hop⟩)
    · exact .inl hnew
    · exact .inr ⟨⟨past, future, hops, htoken, hsource, hdropped⟩, Ne.symm hop⟩
  · rintro (hnew | ⟨⟨past, future, hops, htoken, hsource, hdropped⟩, hop⟩)
    · exact .inl hnew
    · exact .inr ⟨past, future, hops, htoken, hsource, hdropped, Ne.symm hop⟩

theorem canceled_snoc :
    Canceled (ops ++ [op]) source ↔
      (op = .cancel source ∧ HasSource ops source) ∨ Canceled ops source :=
  exists_split_snoc

theorem proper_snoc : Proper (ops ++ [op]) ↔ Proper ops ∧ Allowed ops op := by
  constructor
  · intro h
    refine ⟨?_, h ops op [] rfl⟩
    rintro past x future rfl
    exact h past x (future ++ [op]) (by rw [List.append_assoc, List.cons_append])
  · rintro ⟨hops, hop⟩ past x future h
    rcases snoc_eq_split.mp h with ⟨rfl, rfl, -⟩ | ⟨behind, -, rfl⟩
    · exact hop
    · exact hops past x behind rfl

/-! ## No source and no token before it is made -/

theorem HasSource.lt (h : HasSource ops source) : source < sourcesIn ops := by
  obtain ⟨past, future, rfl, rfl, -⟩ := h
  simp [sourcesIn, List.countP_append, List.countP_cons, Operation.makesSource]

theorem TokenOf.lt (h : TokenOf ops token source) : token < tokensIn ops := by
  obtain ⟨past, future, rfl, rfl, -, -⟩ := h
  simp [tokensIn, List.countP_append, List.countP_cons, Operation.makesToken]

theorem TokenOf.source_lt (h : TokenOf ops token source) : source < sourcesIn ops := by
  obtain ⟨past, future, rfl, -, hsource, -⟩ := h
  refine Nat.lt_of_lt_of_le hsource.lt ?_
  simp [sourcesIn, List.countP_append]

theorem TokenOf.unique {source' : Nat} (h : TokenOf ops token source)
    (h' : TokenOf ops token source') : source = source' := by
  induction ops using List.reverseRecOn with
  | nil =>
      obtain ⟨past, future, hops, -⟩ := h
      simp at hops
  | append_singleton ops op ih =>
      rcases tokenOf_snoc.mp h with ⟨rfl, rfl, -⟩ | ⟨h, -⟩
      · rcases tokenOf_snoc.mp h' with ⟨hop, -, -⟩ | ⟨h', -⟩
        · exact Option.some.inj (Operation.newToken.inj hop)
        · exact absurd h'.lt (Nat.lt_irrefl _)
      · rcases tokenOf_snoc.mp h' with ⟨-, rfl, -⟩ | ⟨h', -⟩
        · exact absurd h.lt (Nat.lt_irrefl _)
        · exact ih h h'

/-- A token that was made of no source never watches one. -/
theorem not_tokenOf_default (h : ops = past ++ .newToken none :: future) :
    ¬ TokenOf ops (tokensIn past) source := by
  subst h
  induction future using List.reverseRecOn with
  | nil =>
      rw [tokenOf_snoc]
      rintro (⟨hop, -, -⟩ | ⟨hbefore, -⟩)
      · cases hop
      · exact absurd hbefore.lt (Nat.lt_irrefl _)
  | append_singleton future op ih =>
      rw [← List.cons_append, ← List.append_assoc, tokenOf_snoc]
      rintro (⟨-, hcount, -⟩ | ⟨hbefore, -⟩)
      · simp [tokensIn, List.countP_append, List.countP_cons, Operation.makesToken] at hcount
      · exact ih hbefore

/-! ## Cancellation of a longer list -/

theorem canceled_append {later : List Operation} :
    Canceled (past ++ later) source ↔ Canceled past source ∨
      ∃ between after, later = between ++ .cancel source :: after ∧
        HasSource (past ++ between) source := by
  induction later using List.reverseRecOn with
  | nil => simp
  | append_singleton later op ih =>
      rw [← List.append_assoc, canceled_snoc, ih, exists_split_snoc]
      exact or_left_comm

/-! ## Following a subscription -/

@[simp] theorem follow_none {fresh : Nat} : follow fresh op none = none := by
  cases op <;> simp [follow]

@[simp] theorem heldAfter_none {later : List Operation} : heldAfter past none later = none := by
  induction later generalizing past with
  | nil => rfl
  | cons op later ih => rw [heldAfter, follow_none, ih]

theorem heldAfter_append {place : Option Nat} {later : List Operation} :
    heldAfter past place (between ++ later) =
      heldAfter (past ++ between) (heldAfter past place between) later := by
  induction between generalizing past place with
  | nil => simp [heldAfter]
  | cons op between ih =>
      rw [List.cons_append, heldAfter, ih, heldAfter, List.append_assoc]
      rfl

theorem holderOf_snoc {later : List Operation} :
    holderOf past x (later ++ [op]) =
      follow (holdersIn (past ++ x :: later)) op (holderOf past x later) := by
  rw [holderOf, heldAfter_append, heldAfter, heldAfter, List.append_assoc]
  rfl

theorem holderOf_ne_none {later : List Operation}
    (h : holderOf past x (between ++ later) ≠ none) : holderOf past x between ≠ none := by
  intro hnone
  rw [holderOf, heldAfter_append, ← holderOf, hnone, heldAfter_none] at h
  exact h rfl

/-! ## Subscriptions that are kept -/

/-- A callback was subscribed at a position, to a source that was not canceled
then, and `place` is where its subscription has come to. -/
def Kept (ops : List Operation) (position source : Nat) (name : Bytes) (place : Option Nat) :
    Prop :=
  ∃ token past future, ops = past ++ .subscribe token (.named name) :: future ∧
    past.length = position ∧ TokenOf past token source ∧ ¬ Canceled past source ∧
      holderOf past (.subscribe token (.named name)) future = place

section

variable {position : Nat} {name : Bytes} {place : Option Nat}

theorem kept_snoc :
    Kept (ops ++ [op]) position source name place ↔
      (∃ token, op = .subscribe token (.named name) ∧ ops.length = position ∧
          TokenOf ops token source ∧ ¬ Canceled ops source ∧ some (holdersIn ops) = place) ∨
        ∃ before, Kept ops position source name before ∧
          follow (holdersIn ops) op before = place := by
  constructor
  · rintro ⟨token, past, future, hops, hlength, htoken, hcanceled, hplace⟩
    rcases snoc_eq_split.mp hops with ⟨rfl, rfl, rfl⟩ | ⟨behind, rfl, rfl⟩
    · exact .inl ⟨token, rfl, hlength, htoken, hcanceled, hplace⟩
    · rw [holderOf_snoc] at hplace
      exact .inr ⟨_, ⟨token, past, behind, rfl, hlength, htoken, hcanceled, rfl⟩, hplace⟩
  · rintro (⟨token, rfl, rfl, htoken, hcanceled, rfl⟩ |
      ⟨before, ⟨token, past, future, rfl, rfl, htoken, hcanceled, rfl⟩, rfl⟩)
    · exact ⟨token, ops, [], rfl, rfl, htoken, hcanceled, rfl⟩
    · exact ⟨token, past, future ++ [op], by rw [List.append_assoc, List.cons_append], rfl,
        htoken, hcanceled, holderOf_snoc⟩

theorem Kept.lt (h : Kept ops position source name place) : position < ops.length := by
  obtain ⟨token, past, future, rfl, rfl, -⟩ := h
  simp

theorem Kept.nameAt_eq (h : Kept ops position source name place) :
    nameAt ops position = some name := by
  obtain ⟨token, past, future, rfl, rfl, -⟩ := h
  simp [nameAt]

/-! ## Callbacks that are due -/

theorem Due.mono {later : List Operation} (h : Due past token name future) :
    Due past token name (future ++ later) := by
  cases h with
  | atOnce watched canceled => exact .atOnce watched canceled
  | whileHeld watched split canceling held =>
      subst split
      exact .whileHeld watched (List.append_assoc ..) canceling held

theorem Due.canceled (h : Due past token name future) :
    ∃ source, TokenOf past token source ∧
      Canceled (past ++ .subscribe token (.named name) :: future) source := by
  cases h with
  | atOnce watched canceled => exact ⟨_, watched, canceled_append.mpr (.inl canceled)⟩
  | whileHeld watched split canceling held =>
      subst split
      exact ⟨_, watched, _, _, by rw [List.append_assoc, List.cons_append], canceling⟩

/-- A subscription that is still held when its source has been canceled is due. -/
theorem due_of_held (htoken : TokenOf past token source)
    (hcanceled : Canceled (past ++ .subscribe token (.named name) :: future) source)
    (hheld : holderOf past (.subscribe token (.named name)) future ≠ none) :
    Due past token name future := by
  rcases canceled_append.mp hcanceled with hbefore | ⟨between, after, hsplit, hsource⟩
  · exact .atOnce htoken hbefore
  · cases between with
    | nil => cases hsplit
    | cons op between =>
        obtain ⟨rfl, rfl⟩ := List.cons.inj hsplit
        exact .whileHeld htoken rfl hsource (holderOf_ne_none hheld)

/-- What one more operation makes due: the callback that it subscribes to a
canceled source, or those that are held for the source that it cancels. -/
theorem dueAt_snoc :
    DueAt (ops ++ [op]) position ↔ DueAt ops position ∨
      (∃ token name source, op = .subscribe token (.named name) ∧ ops.length = position ∧
        TokenOf ops token source ∧ Canceled ops source) ∨
      ∃ source name holder, op = .cancel source ∧ HasSource ops source ∧
        ¬ Canceled ops source ∧ Kept ops position source name (some holder) := by
  constructor
  · rintro ⟨past, token, name, future, hops, hlength, hdue⟩
    rcases snoc_eq_split.mp hops with ⟨rfl, rfl, rfl⟩ | ⟨behind, rfl, rfl⟩
    · cases hdue with
      | atOnce watched canceled =>
          exact .inr (.inl ⟨token, name, _, rfl, hlength, watched, canceled⟩)
      | whileHeld watched split canceling held => simp at split
    · cases hdue with
      | atOnce watched canceled =>
          exact .inl ⟨past, token, name, behind, rfl, hlength, .atOnce watched canceled⟩
      | @whileHeld source between after watched split canceling held =>
          rcases snoc_eq_split.mp split with ⟨rfl, rfl, rfl⟩ | ⟨after', rfl, rfl⟩
          · -- The last operation cancels; it makes nothing due that an earlier one made due.
            by_cases hcanceled : Canceled (past ++ .subscribe token (.named name) :: behind) source
            · exact .inl ⟨past, token, name, behind, rfl, hlength,
                due_of_held watched hcanceled held⟩
            · obtain ⟨holder, hholder⟩ := Option.ne_none_iff_exists'.mp held
              refine .inr (.inr ⟨source, name, holder, rfl, canceling, hcanceled,
                token, past, behind, rfl, hlength, watched, ?_, hholder⟩)
              exact fun hbefore => hcanceled (canceled_append.mpr (.inl hbefore))
          · exact .inl ⟨past, token, name, _, rfl, hlength, .whileHeld watched rfl canceling held⟩
  · rintro (⟨past, token, name, future, rfl, rfl, hdue⟩ |
      ⟨token, name, source, rfl, rfl, htoken, hcanceled⟩ |
      ⟨source, name, holder, rfl, hsource, -, token, past, future, rfl, rfl, htoken, -, hholder⟩)
    · exact ⟨past, token, name, future ++ [op], by rw [List.append_assoc, List.cons_append], rfl,
        hdue.mono⟩
    · exact ⟨ops, token, name, [], rfl, rfl, .atOnce htoken hcanceled⟩
    · exact ⟨past, token, name, future ++ [.cancel source],
        by rw [List.append_assoc, List.cons_append], rfl,
        .whileHeld htoken rfl hsource (by simp [hholder])⟩

theorem DueAt.lt (h : DueAt ops position) : position < ops.length := by
  obtain ⟨past, token, name, future, rfl, rfl, -⟩ := h
  simp

/-- A callback whose subscription was kept is due once its source has been canceled, and not
before. -/
theorem Kept.canceled_of_dueAt (h : Kept ops position source name place)
    (hdue : DueAt ops position) : Canceled ops source := by
  obtain ⟨token, past, future, rfl, rfl, htoken, -, -⟩ := h
  obtain ⟨past', token', name', future', hops, hlength, hdue⟩ := hdue
  obtain ⟨rfl, hcons⟩ := List.append_inj hops hlength.symm
  obtain ⟨hsub, rfl⟩ := List.cons.inj hcons
  obtain ⟨rfl, hname⟩ := Operation.subscribe.inj hsub
  obtain rfl := Callback.named.inj hname
  obtain ⟨source', htoken', hcanceled⟩ := hdue.canceled
  exact htoken.unique htoken' ▸ hcanceled

theorem nameAt_append {later : List Operation} (h : position < ops.length) :
    nameAt (ops ++ later) position = nameAt ops position := by
  rw [nameAt, nameAt, List.getElem?_append_left h]

end

end

end Signal

end BearerAuth
