import BearerAuth.Proofs.Signal.Ledger

/-!
# Subscribing before or after a cancellation

A signal that is canceled has nothing live, on every board (`settled_run`).  So
a subscription just before the cancellation of its source comes to the same as
one just after it: what was live has run, and what is subscribed as well, in
the cancellation or at once (`Board.ended_before`, `Board.ended_after`).  Only
a callback without anything to call is not treated alike: a cancellation passes
over it, and subscribing it to a canceled signal fails
(`subscribe_cancel_either_way`).
-/

namespace BearerAuth

namespace Signal

/-- The callbacks that are called where a callback is to run. -/
def Callback.names : Callback → List Bytes
  | .named name => [name]
  | .blank => []

/-- What the cancellation of a signal and a subscription to it come to: whatever was live before
and the callback that is subscribed have run, and nothing is live. -/
structure Ended (board : Board) (signal : Nat) (callback : Callback) (board' : Board) : Prop where
  runs : board'.runs =
    board.runs ++ (Board.callable (board.state signal).live ++ callback.names)
  live : (board'.state signal).live = []
  canceled : (board'.state signal).canceled = true

/-- Nothing is live in a signal that is canceled. -/
def Settled (board : Board) : Prop :=
  ∀ signal, (board.state signal).canceled = true → (board.state signal).live = []

namespace Board

section

variable {board : Board} {signal other source token : Nat} {callback : Callback}

/-! ## One operation -/

theorem apply_subscribe (h : board.tokenSignal token = some signal) (callback : Callback) :
    board.apply (.subscribe token callback) = board.subscribe (some signal) callback := by
  rw [apply, h]

theorem apply_cancel (h : board.sourceSignal source = some signal) :
    board.apply (.cancel source) = (.nothing, board.cancel signal) := by
  rw [apply, h]

theorem cancel_canceled (h : (board.state signal).canceled = true) :
    board.cancel signal = board :=
  if_pos h

theorem runs_cancel (h : (board.state signal).canceled = false) :
    (board.cancel signal).runs = board.runs ++ callable (board.state signal).live := by
  rw [cancel, if_neg (Bool.eq_false_iff.mp h)]
  rfl

theorem subscribe_canceled (h : (board.state signal).canceled = true) (callback : Callback) :
    (board.subscribe (some signal) callback).2.runs = board.runs ++ callback.names ∧
      (board.subscribe (some signal) callback).2.state = board.state := by
  simp only [subscribe, if_pos h]
  cases callback with
  | named name => exact ⟨rfl, rfl⟩
  | blank => exact ⟨(List.append_nil _).symm, rfl⟩

theorem subscribe_live (hlt : signal < board.signals.length)
    (h : (board.state signal).canceled = false) (callback : Callback) :
    (board.subscribe (some signal) callback).2.runs = board.runs ∧
      ∀ other, (board.subscribe (some signal) callback).2.state other =
        if signal = other then
          { board.state signal with
            next := (board.state signal).next + 1
            live := (board.state signal).live ++ [((board.state signal).next, callback)] }
        else board.state other := by
  simp only [subscribe, if_neg (Bool.eq_false_iff.mp h)]
  refine ⟨rfl, ?_⟩
  intro other
  refine state_setState.trans ?_
  simp [hlt]

/-! ## Two operations -/

theorem subscribe_then_cancel (hsource : board.sourceSignal source = some signal)
    (htoken : board.tokenSignal token = some signal) (callback : Callback) :
    board.run [.subscribe token callback, .cancel source] =
        (if (board.subscribe (some signal) callback).1 = .nothingToCall then board
          else (board.subscribe (some signal) callback).2.cancel signal) ∧
      (.nothingToCall ∈ board.answers [.subscribe token callback, .cancel source] ↔
        (board.subscribe (some signal) callback).1 = .nothingToCall) := by
  have hstill : (board.subscribe (some signal) callback).2.sourceSignal source = some signal := by
    rw [sourceSignal, sameEnds_subscribe.sources, ← sourceSignal, hsource]
  rw [answers_cons, run, apply_subscribe htoken]
  by_cases hfails : (board.subscribe (some signal) callback).1 = .nothingToCall
  · have hsame := (@apply_fails _ (.subscribe token callback)
      (by rw [apply_subscribe htoken, hfails])).2
    rw [apply_subscribe htoken] at hsame
    simp [hfails, hsame]
  · simp [hfails, Ne.symm hfails, run, answers, trace, apply_cancel hstill]

theorem cancel_then_subscribe (hsource : board.sourceSignal source = some signal)
    (htoken : board.tokenSignal token = some signal) (callback : Callback) :
    board.run [.cancel source, .subscribe token callback] =
        ((board.cancel signal).subscribe (some signal) callback).2 ∧
      (.nothingToCall ∈ board.answers [.cancel source, .subscribe token callback] ↔
        ((board.cancel signal).subscribe (some signal) callback).1 = .nothingToCall) := by
  have hstill : (board.cancel signal).tokenSignal token = some signal := by
    have htokens := (ends_cancel board source).2.2.1
    rw [apply_cancel hsource] at htokens
    rw [tokenSignal, htokens, ← tokenSignal, htoken]
  simp [run, answers, trace, apply_cancel hsource, apply_subscribe hstill, eq_comm]

theorem callable_append (live : List (Nat × Callback)) (number : Nat) (callback : Callback) :
    callable (live ++ [(number, callback)]) = callable live ++ callback.names := by
  rw [callable, List.filterMap_append, ← callable]
  cases callback <;> rfl

theorem ended_canceled (h : Settled board) (hcanceled : (board.state signal).canceled = true)
    (callback : Callback) :
    Ended board signal callback (board.subscribe (some signal) callback).2 := by
  obtain ⟨hruns, hstate⟩ := subscribe_canceled hcanceled callback
  have hlive := h signal hcanceled
  refine ⟨?_, ?_, ?_⟩
  · rw [hruns, hlive]
    rfl
  · rw [hstate, hlive]
  · rw [hstate, hcanceled]

theorem ended_blank (h : Settled board) (hcanceled : (board.state signal).canceled = true) :
    Ended board signal .blank board := by
  have hlive := h signal hcanceled
  refine ⟨?_, hlive, hcanceled⟩
  rw [hlive]
  exact (List.append_nil _).symm

theorem ended_before (h : Settled board) (hlt : signal < board.signals.length)
    (callback : Callback) :
    Ended board signal callback ((board.subscribe (some signal) callback).2.cancel signal) := by
  cases hcanceled : (board.state signal).canceled with
  | true =>
      -- The cancellation that follows is not the first and does nothing.
      have hended := ended_canceled h hcanceled callback
      rwa [cancel_canceled hended.canceled]
  | false =>
      obtain ⟨hruns, hstate⟩ := subscribe_live hlt hcanceled callback
      have hsignal := hstate signal
      rw [if_pos rfl] at hsignal
      have hnot : ((board.subscribe (some signal) callback).2.state signal).canceled = false := by
        rw [hsignal, hcanceled]
      have hlt' : signal < (board.subscribe (some signal) callback).2.signals.length :=
        sameEnds_subscribe.signals.symm ▸ hlt
      have hcancel := (state_cancel hlt').trans (if_pos ⟨rfl, hnot⟩)
      refine ⟨?_, ?_, ?_⟩
      · rw [runs_cancel hnot, hruns, hsignal, callable_append]
      · rw [hcancel]
      · rw [hcancel]

/-- What is subscribed just after a cancellation runs behind all that was live. -/
theorem ended_after (h : Settled board) (hlt : signal < board.signals.length)
    (callback : Callback) :
    Ended board signal callback ((board.cancel signal).subscribe (some signal) callback).2 := by
  cases hcanceled : (board.state signal).canceled with
  | true =>
      rw [cancel_canceled hcanceled]
      exact ended_canceled h hcanceled callback
  | false =>
      have hcancel := (state_cancel hlt).trans (if_pos ⟨rfl, hcanceled⟩)
      have hdone : ((board.cancel signal).state signal).canceled = true := by rw [hcancel]
      obtain ⟨hruns, hstate⟩ := subscribe_canceled hdone callback
      refine ⟨?_, ?_, ?_⟩
      · rw [hruns, runs_cancel hcanceled, List.append_assoc]
      · rw [hstate, hcancel]
      · rw [hstate, hdone]

end

end Board

/-! ## Every board -/

section

variable {ops : List Operation} {board : Board}

theorem Settled.subscribe (h : Settled board) (hreports : Reports ops board) (token : Nat)
    (callback : Callback) : Settled (board.apply (.subscribe token callback)).2 := by
  intro other hother
  rw [Board.apply, Board.sameEnds_subscribe.canceled] at hother
  have hbefore := h other hother
  rw [Board.apply]
  cases hsignal : board.tokenSignal token with
  | none => exact hbefore
  | some signal =>
      have hlt : signal < board.signals.length :=
        hreports.sources.signals ▸ ((hreports.tokens.token_iff token signal).mp hsignal).source_lt
      cases hcanceled : (board.state signal).canceled with
      | true =>
          rw [(Board.subscribe_canceled hcanceled callback).2]
          exact hbefore
      | false =>
          have hne : signal ≠ other := by
            rintro rfl
            exact Bool.noConfusion (hcanceled.symm.trans hother)
          rw [(Board.subscribe_live hlt hcanceled callback).2, if_neg hne]
          exact hbefore

theorem Settled.cancel (h : Settled board) (hreports : Reports ops board) (source : Nat) :
    Settled (board.apply (.cancel source)).2 := by
  cases hsource : board.sourceSignal source with
  | none =>
      rw [Board.apply, hsource]
      exact h
  | some signal =>
      obtain ⟨hhas, rfl⟩ := (hreports.sources.source_iff source signal).mp hsource
      have hlt : signal < board.signals.length := hreports.sources.signals ▸ hhas.lt
      rw [Board.apply_cancel hsource]
      intro other hother
      rw [Board.state_cancel hlt] at hother ⊢
      split at hother
      · next hsame => rw [if_pos hsame]
      · next hsame =>
          rw [if_neg hsame]
          exact h other hother

theorem Settled.quiet (h : Settled board) {op : Operation} (hop : op.isQuiet = true) :
    Settled (board.apply op).2 := by
  intro signal hcanceled
  rw [Board.state_apply hop] at hcanceled ⊢
  rw [h signal hcanceled]
  rfl

theorem Settled.step (h : Settled board) (hreports : Reports ops board) (op : Operation) :
    Settled (board.apply op).2 := by
  cases op with
  | subscribe token callback => exact h.subscribe hreports token callback
  | cancel source => exact h.cancel hreports source
  | _ => exact h.quiet rfl

/-- A signal that is canceled has nothing live. -/
theorem settled_run (h : Board.Passes {} ops) : Settled (Board.run {} ops) := by
  induction ops using List.reverseRecOn with
  | nil =>
      intro signal hcanceled
      cases hcanceled
  | append_singleton ops op ih =>
      have hbefore := (Board.passes_snoc.mp h).1
      rw [Board.run_snoc hbefore]
      exact (ih hbefore).step (reports_run hbefore) op

/-! ## Either way -/

/-- **Subscribing and canceling commute but for errors.**  Whatever has happened before, a callback
that is subscribed through a token of a source and the cancellation of the source come to the same
in either order.  A callback without anything to call fails, and no other, just when it is
subscribed to what is canceled already; the failure leaves the board as it is. -/
theorem subscribe_cancel_either_way (hpasses : Board.Passes {} ops) {source token : Nat}
    (hsource : HasSource ops source) (htoken : TokenOf ops token source) (callback : Callback) :
    let board := Board.run {} ops
    let before : List Operation := [.subscribe token callback, .cancel source]
    let after : List Operation := [.cancel source, .subscribe token callback]
    Ended board source callback (board.run before) ∧
      Ended board source callback (board.run after) ∧
      (.nothingToCall ∈ board.answers before ↔ callback = .blank ∧ Canceled ops source) ∧
      (.nothingToCall ∈ board.answers after ↔ callback = .blank) ∧
      ∀ op, (board.apply op).1 = .nothingToCall → (board.apply op).2 = board := by
  intro board before after
  have hreports := reports_run hpasses
  have hsettled := settled_run hpasses
  have hsignal : board.sourceSignal source = some source :=
    (hreports.sources.source_iff source source).mpr ⟨hsource, rfl⟩
  have hwatched : board.tokenSignal token = some source :=
    (hreports.tokens.token_iff token source).mpr htoken
  have hlt : source < board.signals.length := hreports.sources.signals ▸ hsource.lt
  have hdone : ((board.cancel source).state source).canceled = true := by
    rw [Board.canceled_cancel hlt, decide_eq_true rfl, Bool.true_or]
  have hfails : (board.subscribe (some source) callback).1 = .nothingToCall ↔
      Canceled ops source ∧ callback = .blank := by
    rw [Board.subscribe_fails_iff, hreports.canceled]
  obtain ⟨hbefore, hanswers⟩ := Board.subscribe_then_cancel hsignal hwatched callback
  obtain ⟨hafter, hanswers'⟩ := Board.cancel_then_subscribe hsignal hwatched callback
  refine ⟨?_, ?_, ?_, ?_, fun _ hfailed => (Board.apply_fails hfailed).2⟩
  · rw [hbefore]
    split
    · next hfailed =>
        -- There is no cancellation any more: the source was canceled before.
        obtain ⟨hcanceled, rfl⟩ := hfails.mp hfailed
        exact Board.ended_blank hsettled ((hreports.canceled source).mpr hcanceled)
    · exact Board.ended_before hsettled hlt callback
  · rw [hafter]
    exact Board.ended_after hsettled hlt callback
  · rw [hanswers, hfails, and_comm]
  · rw [hanswers', Board.subscribe_fails_iff, and_iff_right hdone]

/-- A callback that is there and one without anything to call are live, and one more without
anything to call is subscribed: it fails behind the cancellation only. -/
theorem subscribed_either_way :
    let ops : List Operation :=
      [.newSource, .newToken (some 0), .subscribe 0 (.named [97]), .subscribe 0 .blank]
    let board := Board.run {} ops
    (Board.Passes {} ops ∧ HasSource ops 0 ∧ TokenOf ops 0 0) ∧
      Ended board 0 .blank (board.run [.subscribe 0 .blank, .cancel 0]) ∧
      Ended board 0 .blank (board.run [.cancel 0, .subscribe 0 .blank]) ∧
      .nothingToCall ∉ board.answers [.subscribe 0 .blank, .cancel 0] ∧
      .nothingToCall ∈ board.answers [.cancel 0, .subscribe 0 .blank] := by
  intro ops board
  have hpasses : .nothingToCall ∉ Board.answers {} ops := by decide
  have hsource : HasSource ops 0 := ⟨[], _, rfl, rfl, by decide⟩
  have htoken : TokenOf ops 0 0 :=
    ⟨[.newSource], _, rfl, rfl, ⟨[], [], rfl, rfl, by decide⟩, by decide⟩
  obtain ⟨hbefore, hafter, -, hfails, -⟩ :=
    subscribe_cancel_either_way hpasses hsource htoken .blank
  exact ⟨⟨hpasses, hsource, htoken⟩, hbefore, hafter, by decide, hfails.mpr rfl⟩

/-- The two orders do not answer alike: a callback without anything to call is passed over where
it is live, and fails where it is to run at once. -/
theorem blank_fails_once_canceled :
    let board := Board.run {} [.newSource, .newToken (some 0)]
    board.answers [.subscribe 0 .blank, .cancel 0] = [.number 0, .nothing] ∧
      board.answers [.cancel 0, .subscribe 0 .blank] = [.nothing, .nothingToCall] := by
  decide

end

end Signal

end BearerAuth
