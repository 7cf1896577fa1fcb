import BearerAuth.Proofs.Signal.History

/-!
# What a board shows of its history

Which sources and tokens there are, what a token watches and which signals have
been canceled can be read off a board, and is what the history of its
operations says, as long as none of them fails (`Reports`, `reports_run`).  The
signal of a source has the number of the source.
-/

namespace BearerAuth

namespace Signal

/-! ## Slots

Sources, tokens and holders are slots that may be empty; beyond the last one
there is nothing either. -/

section

variable {α : Type} {slots : List (Option α)} {slot : Option α} {i j : Nat}

theorem slot_append :
    (slots ++ [slot])[j]?.join = if j = slots.length then slot else slots[j]?.join := by
  rcases Nat.lt_trichotomy j slots.length with hlt | rfl | hgt
  · rw [List.getElem?_append_left hlt, if_neg (Nat.ne_of_lt hlt)]
  · simp
  · rw [List.getElem?_eq_none (by simp; omega), List.getElem?_eq_none (Nat.le_of_lt hgt),
      if_neg (Nat.ne_of_gt hgt)]

theorem slot_set (h : i < slots.length) :
    (slots.set i slot)[j]?.join = if i = j then slot else slots[j]?.join := by
  rw [List.getElem?_set]
  by_cases heq : i = j
  · simp [heq, heq ▸ h]
  · simp [heq]

theorem slot_set_none :
    (slots.set i none)[j]?.join = if i = j then none else slots[j]?.join := by
  by_cases hlt : i < slots.length
  · exact slot_set hlt
  · have hle := Nat.le_of_not_lt hlt
    rw [List.set_eq_of_length_le hle]
    by_cases heq : i = j
    · simp [← heq, List.getElem?_eq_none hle]
    · simp [heq]

theorem slot_lt {a : α} (h : slots[i]?.join = some a) : i < slots.length := by
  refine Nat.lt_of_not_le fun hle => ?_
  rw [List.getElem?_eq_none hle] at h
  cases h

end

namespace Board

section

variable {board board' : Board} {signal other holder : Nat} {held : Option Subscription}

/-! ## Looking up what was changed -/

theorem state_of_le (h : board.signals.length ≤ signal) : board.state signal = {} := by
  rw [state, List.getElem?_eq_none h]
  rfl

theorem state_setState {state : State} :
    (board.setState signal state).state other =
      if signal = other ∧ signal < board.signals.length then state else board.state other := by
  simp only [Board.state, setState, List.getElem?_set]
  by_cases heq : signal = other
  · subst heq
    by_cases hlt : signal < board.signals.length
    · simp [hlt]
    · simp [hlt]
  · simp [heq]

theorem state_append :
    ({ board with signals := board.signals ++ [{}] } : Board).state signal =
      board.state signal := by
  simp only [state]
  rcases Nat.lt_trichotomy signal board.signals.length with hlt | rfl | hgt
  · rw [List.getElem?_append_left hlt]
  · simp
  · rw [List.getElem?_eq_none (by simp; omega), List.getElem?_eq_none (Nat.le_of_lt hgt)]

theorem held_lt {subscription : Subscription} (h : board.held holder = some subscription) :
    holder < board.holders.length :=
  slot_lt h

theorem held_setHolder_none :
    (board.setHolder holder none).held other =
      if holder = other then none else board.held other :=
  slot_set_none

theorem held_setHolder (h : holder < board.holders.length) :
    (board.setHolder holder held).held other =
      if holder = other then held else board.held other :=
  slot_set h

theorem held_addHolder :
    (board.addHolder held).2.held other =
      if other = board.holders.length then held else board.held other :=
  slot_append

/-! ## Letting go -/

/-- A holder that lets go takes its subscription out of the signal, and nothing else. -/
theorem state_release :
    (board.release holder).state signal =
      { board.state signal with
        live := (board.state signal).live.filter fun entry =>
          board.held holder != some ⟨signal, entry.1⟩ } := by
  have hkept (hother : ∀ entry, (board.held holder != some ⟨signal, entry⟩) = true) :
      ((board.state signal).live.filter fun entry =>
        board.held holder != some ⟨signal, entry.1⟩) = (board.state signal).live :=
    List.filter_eq_self.mpr fun entry _ => hother entry.1
  rw [release]
  cases hheld : board.held holder with
  | none =>
      rw [hheld] at hkept
      rw [hkept fun _ => rfl]
  | some subscription =>
      obtain ⟨target, number⟩ := subscription
      refine state_setState.trans ?_
      by_cases heq : target = signal
      · subst heq
        by_cases hlt : target < board.signals.length
        · rw [if_pos ⟨rfl, hlt⟩]
          refine congrArg (fun live => { board.state target with live }) ?_
          refine List.filter_congr fun entry _ => ?_
          simp [bne, eq_comm]
        · simp [hlt, state_of_le (Nat.le_of_not_lt hlt)]
      · rw [hheld] at hkept
        rw [if_neg fun h => heq h.1, hkept fun _ => by simp [heq]]

theorem held_release :
    (board.release holder).held other =
      if holder = other then none else board.held other := by
  rw [release]
  cases hheld : board.held holder with
  | none =>
      by_cases heq : holder = other
      · subst heq
        simp [hheld]
      · simp [heq]
  | some subscription => exact held_setHolder_none

/-! ## Canceling -/

/-- A signal that is canceled for the first time is left with nothing live; no other signal
changes, and one that was canceled stays as it is. -/
theorem state_cancel (h : signal < board.signals.length) :
    (board.cancel signal).state other =
      if signal = other ∧ (board.state signal).canceled = false then
        { board.state signal with canceled := true, live := [] }
      else board.state other := by
  rw [cancel]
  cases hcanceled : (board.state signal).canceled with
  | true => simp
  | false =>
      refine state_setState.trans ?_
      simp [h]

theorem canceled_cancel (h : signal < board.signals.length) :
    ((board.cancel signal).state other).canceled =
      (decide (signal = other) || (board.state other).canceled) := by
  rw [state_cancel h]
  by_cases heq : signal = other
  · subst heq
    cases hcanceled : (board.state signal).canceled with
    | true => simp [hcanceled]
    | false => simp
  · simp [heq]

theorem ends_cancel (board : Board) (source : Nat) :
    (board.apply (.cancel source)).2.signals.length = board.signals.length ∧
      (board.apply (.cancel source)).2.sources = board.sources ∧
      (board.apply (.cancel source)).2.tokens = board.tokens ∧
      (board.apply (.cancel source)).2.holders = board.holders := by
  simp only [apply, cancel]
  split
  · exact ⟨rfl, rfl, rfl, rfl⟩
  · split
    · exact ⟨rfl, rfl, rfl, rfl⟩
    · exact ⟨List.length_set, rfl, rfl, rfl⟩

/-! ## Sources, tokens and flags -/

/-- Two boards have the same sources and tokens, and the same signals are canceled. -/
structure SameEnds (board board' : Board) : Prop where
  signals : board'.signals.length = board.signals.length
  sources : board'.sources = board.sources
  tokens : board'.tokens = board.tokens
  canceled : ∀ signal, (board'.state signal).canceled = (board.state signal).canceled

theorem SameEnds.refl (board : Board) : SameEnds board board := ⟨rfl, rfl, rfl, fun _ => rfl⟩

theorem SameEnds.trans {board'' : Board} (h : SameEnds board board')
    (h' : SameEnds board' board'') : SameEnds board board'' where
  signals := h'.signals.trans h.signals
  sources := h'.sources.trans h.sources
  tokens := h'.tokens.trans h.tokens
  canceled signal := (h'.canceled signal).trans (h.canceled signal)

theorem sameEnds_setState {state : State}
    (h : state.canceled = (board.state signal).canceled) :
    SameEnds board (board.setState signal state) := by
  refine ⟨List.length_set, rfl, rfl, ?_⟩
  intro other
  rw [state_setState]
  split
  · next heq => rw [h, heq.1]
  · rfl

theorem sameEnds_setHolder : SameEnds board (board.setHolder holder held) :=
  ⟨rfl, rfl, rfl, fun _ => rfl⟩

theorem sameEnds_addHolder : SameEnds board (board.addHolder held).2 :=
  ⟨rfl, rfl, rfl, fun _ => rfl⟩

theorem sameEnds_release : SameEnds board (board.release holder) := by
  rw [release]
  split
  · exact .refl board
  · refine SameEnds.trans (sameEnds_setState ?_) sameEnds_setHolder
    rfl

theorem sameEnds_subscribe {watched : Option Nat} {callback : Callback} :
    SameEnds board (board.subscribe watched callback).2 := by
  cases watched with
  | none => exact sameEnds_addHolder
  | some signal =>
      simp only [subscribe]
      split
      · cases callback with
        | named name => exact ⟨rfl, rfl, rfl, fun _ => rfl⟩
        | blank => exact .refl board
      · refine SameEnds.trans (sameEnds_setState ?_) sameEnds_addHolder
        rfl

end

/-! ## Runs -/

/-- What some operations answer, one after the other. -/
def answers (board : Board) (ops : List Operation) : List Answer :=
  (board.trace ops).map Prod.fst

/-- None of some operations fails. -/
def Passes (board : Board) (ops : List Operation) : Prop := .nothingToCall ∉ board.answers ops

section

variable {board : Board} {ops later : List Operation} {op : Operation} {signal : Nat}
  {callback : Callback}

theorem answers_cons : board.answers (op :: ops) = (board.apply op).1 ::
    if (board.apply op).1 = .nothingToCall then [] else (board.apply op).2.answers ops := by
  simp only [answers, trace, List.map_cons]
  split <;> rfl

theorem passes_cons : board.Passes (op :: ops) ↔
    (board.apply op).1 ≠ .nothingToCall ∧ (board.apply op).2.Passes ops := by
  rw [Passes, answers_cons, List.mem_cons, not_or, eq_comm]
  refine and_congr_right fun hne => ?_
  rw [if_neg hne, Passes]

theorem run_append (h : board.Passes ops) :
    board.run (ops ++ later) = (board.run ops).run later := by
  induction ops generalizing board with
  | nil => rfl
  | cons op ops ih =>
      obtain ⟨hop, hops⟩ := passes_cons.mp h
      simp only [List.cons_append, run, if_neg hop, ih hops]

theorem passes_append :
    board.Passes (ops ++ later) ↔ board.Passes ops ∧ (board.run ops).Passes later := by
  induction ops generalizing board with
  | nil => simp [Passes, answers, trace, run]
  | cons op ops ih =>
      rw [List.cons_append, passes_cons, passes_cons, ih, and_assoc]
      refine and_congr_right fun hop => ?_
      simp only [run, if_neg hop]

theorem run_snoc (h : board.Passes ops) :
    board.run (ops ++ [op]) = ((board.run ops).apply op).2 := by
  rw [run_append h]
  simp only [run, ite_self]

theorem passes_snoc : board.Passes (ops ++ [op]) ↔
    board.Passes ops ∧ ((board.run ops).apply op).1 ≠ .nothingToCall := by
  rw [passes_append, passes_cons]
  simp [Passes, answers, trace]

/-- A subscription fails just when there is nothing to call and it is time to call it. -/
theorem subscribe_fails_iff :
    (board.subscribe (some signal) callback).1 = .nothingToCall ↔
      (board.state signal).canceled = true ∧ callback = .blank := by
  cases hcanceled : (board.state signal).canceled with
  | true => cases callback <;> simp [subscribe, hcanceled, addHolder]
  | false => simp [subscribe, hcanceled, addHolder]

/-- An operation that fails subscribes a callback with nothing to call, and leaves the board as
it is. -/
theorem apply_fails (h : (board.apply op).1 = .nothingToCall) :
    (∃ token, op = .subscribe token .blank) ∧ (board.apply op).2 = board := by
  cases op with
  | subscribe token callback =>
      rw [apply] at h ⊢
      cases hsignal : board.tokenSignal token with
      | none =>
          rw [hsignal] at h
          cases h
      | some signal =>
          rw [hsignal] at h
          obtain ⟨hcanceled, rfl⟩ := subscribe_fails_iff.mp h
          refine ⟨⟨token, rfl⟩, ?_⟩
          simp only [subscribe, if_pos hcanceled]
  | cancel source =>
      rw [apply] at h
      split at h
      · cases h
      · cases h
  | moveInto target source =>
      rw [apply] at h
      split at h
      · cases h
      · cases h
  | _ => cases h

end

end Board

theorem Proper.passes {ops : List Operation} (h : Proper ops) : Board.Passes {} ops := by
  induction ops using List.reverseRecOn with
  | nil => exact List.not_mem_nil
  | append_singleton ops op ih =>
      obtain ⟨hbefore, hallowed⟩ := proper_snoc.mp h
      refine Board.passes_snoc.mpr ⟨ih hbefore, fun hfails => ?_⟩
      obtain ⟨⟨token, rfl⟩, -⟩ := Board.apply_fails hfails
      exact hallowed rfl

/-! ## Boards and histories -/

/-- The sources of a board are those of its history. -/
structure ShowsSources (ops : List Operation) (board : Board) : Prop where
  signals : board.signals.length = sourcesIn ops
  sources : board.sources.length = sourcesIn ops
  source_iff : ∀ source signal,
    board.sourceSignal source = some signal ↔ HasSource ops source ∧ signal = source

/-- The tokens of a board watch what they watch by its history. -/
structure ShowsTokens (ops : List Operation) (board : Board) : Prop where
  tokens : board.tokens.length = tokensIn ops
  token_iff : ∀ token signal, board.tokenSignal token = some signal ↔ TokenOf ops token signal

/-- The signals that are canceled on a board are those canceled by its history. -/
def ShowsCanceled (ops : List Operation) (board : Board) : Prop :=
  ∀ signal, (board.state signal).canceled = true ↔ Canceled ops signal

/-- A board shows what its history says of sources, tokens and cancellation. -/
structure Reports (ops : List Operation) (board : Board) : Prop where
  sources : ShowsSources ops board
  tokens : ShowsTokens ops board
  canceled : ShowsCanceled ops board

section

variable {ops : List Operation} {board board' : Board} {op : Operation}

theorem ShowsSources.not_hasSource (h : ShowsSources ops board) {source : Nat}
    (hnone : board.sourceSignal source = none) : ¬ HasSource ops source := by
  intro hhas
  have hsome := (h.source_iff source source).mpr ⟨hhas, rfl⟩
  cases hnone.symm.trans hsome

/-! ### What an operation leaves as it is -/

theorem ShowsSources.keep (h : ShowsSources ops board) (hmake : op.makesSource = false)
    (hdrop : ∀ source, op ≠ .dropSource source)
    (hsignals : board'.signals.length = board.signals.length)
    (hsources : board'.sources = board.sources) : ShowsSources (ops ++ [op]) board' := by
  have hcount : sourcesIn (ops ++ [op]) = sourcesIn ops := by simp [sourcesIn_snoc, hmake]
  have hnew : op ≠ .newSource := by
    rintro rfl
    cases hmake
  refine ⟨by rw [hsignals, h.signals, hcount], by rw [hsources, h.sources, hcount], ?_⟩
  intro source signal
  rw [Board.sourceSignal, hsources, ← Board.sourceSignal, h.source_iff, hasSource_snoc]
  simp [hnew, hdrop]

theorem ShowsTokens.keep (h : ShowsTokens ops board) (hmake : op.makesToken = false)
    (hdrop : ∀ token, op ≠ .dropToken token) (htokens : board'.tokens = board.tokens) :
    ShowsTokens (ops ++ [op]) board' := by
  have hcount : tokensIn (ops ++ [op]) = tokensIn ops := by simp [tokensIn_snoc, hmake]
  have hnew (source : Option Nat) : op ≠ .newToken source := by
    rintro rfl
    cases hmake
  refine ⟨by rw [htokens, h.tokens, hcount], ?_⟩
  intro token signal
  rw [Board.tokenSignal, htokens, ← Board.tokenSignal, h.token_iff, tokenOf_snoc]
  simp [hnew, hdrop]

theorem ShowsCanceled.keep (h : ShowsCanceled ops board) (hcancel : ∀ source, op ≠ .cancel source)
    (hsame : ∀ signal, (board'.state signal).canceled = (board.state signal).canceled) :
    ShowsCanceled (ops ++ [op]) board' := by
  intro signal
  rw [hsame, h, canceled_snoc]
  simp [hcancel]

/-! ### What an operation changes -/

theorem ShowsSources.newSource (h : ShowsSources ops board) :
    ShowsSources (ops ++ [.newSource]) (board.apply .newSource).2 := by
  refine ⟨?_, ?_, ?_⟩
  · simp [Board.apply, sourcesIn_snoc, Operation.makesSource, h.signals]
  · simp [Board.apply, sourcesIn_snoc, Operation.makesSource, h.sources]
  · intro source signal
    have hslot : (board.apply .newSource).2.sourceSignal source =
        if source = board.sources.length then some board.signals.length
        else board.sourceSignal source := slot_append
    rw [hslot, hasSource_snoc, h.sources, h.signals]
    split
    · next heq => simp [heq, eq_comm]
    · next hne => simp [hne, h.source_iff]

theorem ShowsSources.dropSource (h : ShowsSources ops board) (source : Nat) :
    ShowsSources (ops ++ [.dropSource source]) (board.apply (.dropSource source)).2 := by
  refine ⟨?_, ?_, ?_⟩
  · simpa [Board.apply, sourcesIn_snoc, Operation.makesSource] using h.signals
  · simpa [Board.apply, sourcesIn_snoc, Operation.makesSource] using h.sources
  · intro other signal
    have hslot : (board.apply (.dropSource source)).2.sourceSignal other =
        if source = other then none else board.sourceSignal other := slot_set_none
    rw [hslot, hasSource_snoc]
    split
    · next heq => simp [heq]
    · next hne => simp [hne, h.source_iff]

theorem ShowsTokens.newToken (h : ShowsTokens ops board) (hsources : ShowsSources ops board)
    (source : Option Nat) :
    ShowsTokens (ops ++ [.newToken source]) (board.apply (.newToken source)).2 := by
  refine ⟨?_, ?_⟩
  · simp [Board.apply, tokensIn_snoc, Operation.makesToken, h.tokens]
  · intro token signal
    have hslot : (board.apply (.newToken source)).2.tokenSignal token =
        if token = board.tokens.length then source.bind board.sourceSignal
        else board.tokenSignal token := slot_append
    rw [hslot, tokenOf_snoc, h.tokens]
    split
    · next heq =>
        have hold : ¬ TokenOf ops token signal := fun hold => absurd hold.lt (by omega)
        cases source with
        | none => simp [hold]
        | some source =>
            simp only [Option.bind_some, hsources.source_iff, Operation.newToken.injEq,
              Option.some.injEq, heq, true_and, heq ▸ hold, false_and, or_false]
            constructor
            · rintro ⟨hsource, rfl⟩
              exact ⟨rfl, hsource⟩
            · rintro ⟨rfl, hsource⟩
              exact ⟨hsource, rfl⟩
    · next hne => simp [hne, h.token_iff]

theorem ShowsTokens.dropToken (h : ShowsTokens ops board) (token : Nat) :
    ShowsTokens (ops ++ [.dropToken token]) (board.apply (.dropToken token)).2 := by
  refine ⟨?_, ?_⟩
  · simpa [Board.apply, tokensIn_snoc, Operation.makesToken] using h.tokens
  · intro other signal
    have hslot : (board.apply (.dropToken token)).2.tokenSignal other =
        if token = other then none else board.tokenSignal other := slot_set_none
    rw [hslot, tokenOf_snoc]
    split
    · next heq => simp [heq]
    · next hne => simp [hne, h.token_iff]

theorem ShowsCanceled.cancel (h : ShowsCanceled ops board) (hsources : ShowsSources ops board)
    (source : Nat) :
    ShowsCanceled (ops ++ [.cancel source]) (board.apply (.cancel source)).2 := by
  intro other
  rw [canceled_snoc, ← h]
  simp only [Board.apply]
  cases hsource : board.sourceSignal source with
  | none =>
      have hnot := hsources.not_hasSource hsource
      refine ⟨.inr, ?_⟩
      rintro (⟨hop, hhas⟩ | hcanceled)
      · obtain rfl := Operation.cancel.inj hop
        exact absurd hhas hnot
      · exact hcanceled
  | some signal =>
      obtain ⟨hhas, rfl⟩ := (hsources.source_iff source signal).mp hsource
      have hlt : signal < board.signals.length := hsources.signals ▸ hhas.lt
      rw [Board.canceled_cancel hlt, Bool.or_eq_true, decide_eq_true_eq, Operation.cancel.injEq]
      refine or_congr_left ⟨?_, And.left⟩
      rintro rfl
      exact ⟨rfl, hhas⟩

/-! ### A run -/

theorem Reports.keep (h : Reports ops board) (hsource : op.makesSource = false)
    (htoken : op.makesToken = false) (hdropSource : ∀ source, op ≠ .dropSource source)
    (hdropToken : ∀ token, op ≠ .dropToken token) (hcancel : ∀ source, op ≠ .cancel source)
    (hsame : Board.SameEnds board board') : Reports (ops ++ [op]) board' where
  sources := h.sources.keep hsource hdropSource hsame.signals hsame.sources
  tokens := h.tokens.keep htoken hdropToken hsame.tokens
  canceled := h.canceled.keep hcancel hsame.canceled

theorem Reports.step (h : Reports ops board) (op : Operation) :
    Reports (ops ++ [op]) (board.apply op).2 := by
  cases op with
  | newSource =>
      exact ⟨h.sources.newSource, h.tokens.keep rfl nofun rfl,
        h.canceled.keep nofun fun _ => congrArg State.canceled Board.state_append⟩
  | newToken source =>
      exact ⟨h.sources.keep rfl nofun rfl rfl, h.tokens.newToken h.sources source,
        h.canceled.keep nofun fun _ => rfl⟩
  | dropSource source =>
      exact ⟨h.sources.dropSource source, h.tokens.keep rfl nofun rfl,
        h.canceled.keep nofun fun _ => rfl⟩
  | dropToken token =>
      exact ⟨h.sources.keep rfl nofun rfl rfl, h.tokens.dropToken token,
        h.canceled.keep nofun fun _ => rfl⟩
  | cancel source =>
      obtain ⟨hsignals, hsources, htokens, -⟩ := Board.ends_cancel board source
      exact ⟨h.sources.keep rfl nofun hsignals hsources, h.tokens.keep rfl nofun htokens,
        h.canceled.cancel h.sources source⟩
  | subscribe token callback => exact h.keep rfl rfl nofun nofun nofun Board.sameEnds_subscribe
  | newHolder => exact h.keep rfl rfl nofun nofun nofun Board.sameEnds_addHolder
  | release holder => exact h.keep rfl rfl nofun nofun nofun Board.sameEnds_release
  | destroy holder => exact h.keep rfl rfl nofun nofun nofun Board.sameEnds_release
  | moveNew source =>
      exact h.keep rfl rfl nofun nofun nofun
        (Board.sameEnds_setHolder.trans Board.sameEnds_addHolder)
  | moveInto target source =>
      refine h.keep rfl rfl nofun nofun nofun ?_
      simp only [Board.apply]
      split
      · exact .refl board
      · exact (Board.sameEnds_release.trans Board.sameEnds_setHolder).trans
          Board.sameEnds_setHolder
  | sourceCanceled source => exact h.keep rfl rfl nofun nofun nofun (.refl board)
  | tokenCanceled token => exact h.keep rfl rfl nofun nofun nofun (.refl board)

theorem not_hasSource_nil {source : Nat} : ¬ HasSource [] source := by
  rintro ⟨past, future, hops, -⟩
  simp at hops

theorem reports_nil : Reports [] {} := by
  refine ⟨⟨rfl, rfl, ?_⟩, ⟨rfl, ?_⟩, ?_⟩
  · intro source signal
    simp [Board.sourceSignal, not_hasSource_nil]
  · intro token signal
    simp [Board.tokenSignal, TokenOf]
  · intro signal
    simp [Board.state, Canceled]

/-- Every board shows the history of its operations, as long as none of them fails. -/
theorem reports_run (h : Board.Passes {} ops) : Reports ops (Board.run {} ops) := by
  induction ops using List.reverseRecOn with
  | nil => exact reports_nil
  | append_singleton ops op ih =>
      have hbefore := (Board.passes_snoc.mp h).1
      rw [Board.run_snoc hbefore]
      exact (ih hbefore).step op

end

end Signal

end BearerAuth
