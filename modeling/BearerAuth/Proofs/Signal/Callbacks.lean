import BearerAuth.Proofs.Signal.Ledger
import Mathlib.Data.List.Basic

/-!
# Callbacks run when they are due

The names of the callbacks that have run, in order, are those of the
subscriptions that are due, each once (`Fired`).  What an operation adds to
them is what it makes due: nothing, the callback that it subscribes to a
canceled source, or those that the ledger has as live for the source that it
cancels.
-/

namespace BearerAuth

namespace Signal

/-- The positions of the subscriptions whose callbacks have run, in the order of the runs. -/
structure Fired (ops : List Operation) (board : Board) (fired : List Nat) : Prop where
  nodup : fired.Nodup
  runs : board.runs = fired.filterMap (nameAt ops)
  due : ∀ position, position ∈ fired ↔ DueAt ops position

section

variable {ops : List Operation} {board board' : Board} {op : Operation} {ledger : List Entry}
  {fired new : List Nat}

theorem Fired.add (h : Fired ops board fired) (hnodup : new.Nodup)
    (hnew : ∀ position, position ∈ new ↔
      DueAt (ops ++ [op]) position ∧ ¬ DueAt ops position)
    (hruns : board'.runs = board.runs ++ new.filterMap (nameAt (ops ++ [op]))) :
    Fired (ops ++ [op]) board' (fired ++ new) := by
  refine ⟨?_, ?_, ?_⟩
  · rw [List.nodup_append]
    refine ⟨h.nodup, hnodup, ?_⟩
    rintro position hfired other hother rfl
    exact ((hnew position).mp hother).2 ((h.due position).mp hfired)
  · rw [hruns, h.runs, List.filterMap_append]
    refine congrArg (· ++ _) (List.filterMap_congr ?_)
    intro position hfired
    exact (nameAt_append ((h.due position).mp hfired).lt).symm
  · intro position
    rw [List.mem_append, h.due, hnew]
    constructor
    · rintro (hdue | ⟨hdue, -⟩)
      · exact dueAt_snoc.mpr (.inl hdue)
      · exact hdue
    · intro hdue
      by_cases hbefore : DueAt ops position
      · exact .inl hbefore
      · exact .inr ⟨hdue, hbefore⟩

theorem Fired.keep (h : Fired ops board fired)
    (hdue : ∀ position, DueAt (ops ++ [op]) position → DueAt ops position)
    (hruns : board'.runs = board.runs) : Fired (ops ++ [op]) board' fired := by
  have hadd : Fired (ops ++ [op]) board' (fired ++ []) := by
    refine h.add .nil ?_ (by simp [hruns])
    intro position
    simpa using hdue position
  rwa [List.append_nil] at hadd

/-! ## Operations that run nothing -/

theorem Fired.quiet (h : Fired ops board fired) (hop : op.isQuiet = true) :
    Fired (ops ++ [op]) (board.apply op).2 fired := by
  refine h.keep ?_ (Board.runs_apply hop)
  intro position hdue
  rcases dueAt_snoc.mp hdue with hbefore | ⟨_, _, _, rfl, -⟩ | ⟨_, _, _, rfl, -⟩
  · exact hbefore
  · cases hop
  · cases hop

theorem Fired.subscribe (h : Fired ops board fired) {token : Nat} {callback : Callback}
    (hnot : ∀ source, TokenOf ops token source → ¬ Canceled ops source)
    (hruns : board'.runs = board.runs) :
    Fired (ops ++ [.subscribe token callback]) board' fired := by
  refine h.keep ?_ hruns
  intro position hdue
  rcases dueAt_snoc.mp hdue with hbefore | ⟨_, _, source, hop, -, htoken, hcanceled⟩ |
    ⟨_, _, _, hop, -⟩
  · exact hbefore
  · obtain ⟨rfl, -⟩ := Operation.subscribe.inj hop
    exact absurd hcanceled (hnot source htoken)
  · cases hop

/-! ## Operations that run callbacks -/

theorem Fired.atOnce (h : Fired ops board fired) {token source : Nat} {name : Bytes}
    (htoken : TokenOf ops token source) (hcanceled : Canceled ops source)
    (hruns : board'.runs = board.runs ++ [name]) :
    Fired (ops ++ [.subscribe token (.named name)]) board' (fired ++ [ops.length]) := by
  refine h.add (List.pairwise_singleton _ _) ?_ ?_
  · intro position
    rw [List.mem_singleton]
    constructor
    · rintro rfl
      refine ⟨dueAt_snoc.mpr (.inr (.inl ⟨token, name, source, rfl, rfl, htoken, hcanceled⟩)), ?_⟩
      exact fun hbefore => absurd hbefore.lt (Nat.lt_irrefl _)
    · rintro ⟨hdue, hbefore⟩
      rcases dueAt_snoc.mp hdue with hdue | ⟨_, _, _, -, hposition, -⟩ | ⟨_, _, _, hop, -⟩
      · exact absurd hdue hbefore
      · exact hposition.symm
      · cases hop
  · rw [hruns]
    simp [nameAt]

/-- The subscriptions that the ledger has as live for a source are those that are kept for it
and held. -/
theorem Books.mem_live (h : Books ops board ledger) {source position : Nat} :
    position ∈ (ledger.filter (Entry.isLive source)).map Entry.position ↔
      ∃ name holder, Kept ops position source name (some holder) := by
  simp only [h.kept, List.mem_map, List.mem_filter, Entry.isLive, Bool.and_eq_true, beq_iff_eq,
    Option.isSome_iff_exists]
  constructor
  · rintro ⟨entry, ⟨hentry, rfl, holder, hplace⟩, rfl⟩
    exact ⟨entry.name, holder, entry.number, hplace ▸ hentry⟩
  · rintro ⟨name, holder, number, hentry⟩
    exact ⟨_, ⟨hentry, rfl, holder, rfl⟩, rfl⟩

theorem Books.callable_live (h : Books ops board ledger) {source : Nat}
    (hnot : ¬ Canceled ops source) (later : List Operation) :
    Board.callable (board.state source).live =
      ((ledger.filter (Entry.isLive source)).map Entry.position).filterMap
        (nameAt (ops ++ later)) := by
  rw [h.live source hnot, Board.callable, List.filterMap_map, List.filterMap_map]
  refine List.filterMap_congr ?_
  intro entry hentry
  have hkept := (h.kept _ _ _ _).mpr ⟨entry.number, (List.mem_filter.mp hentry).1⟩
  exact ((nameAt_append hkept.lt).trans hkept.nameAt_eq).symm

/-- A source that is canceled for the first time runs the callbacks of its live subscriptions. -/
theorem Fired.cancel (h : Fired ops board fired) (hbooks : Books ops board ledger)
    {source : Nat} (hhas : HasSource ops source) (hnot : ¬ Canceled ops source)
    (hruns : board'.runs = board.runs ++ Board.callable (board.state source).live) :
    Fired (ops ++ [.cancel source]) board'
      (fired ++ (ledger.filter (Entry.isLive source)).map Entry.position) := by
  refine h.add ?_ ?_ ?_
  · exact hbooks.positions.sublist (List.filter_sublist.map _)
  · intro position
    rw [hbooks.mem_live]
    constructor
    · rintro ⟨name, holder, hkept⟩
      refine ⟨dueAt_snoc.mpr (.inr (.inr ⟨source, name, holder, rfl, hhas, hnot, hkept⟩)), ?_⟩
      exact fun hbefore => hnot (hkept.canceled_of_dueAt hbefore)
    · rintro ⟨hdue, hbefore⟩
      rcases dueAt_snoc.mp hdue with hdue | ⟨_, _, _, hop, -⟩ |
        ⟨_, name, holder, hop, -, -, hkept⟩
      · exact absurd hdue hbefore
      · cases hop
      · obtain rfl := Operation.cancel.inj hop
        exact ⟨name, holder, hkept⟩
  · rw [hruns, hbooks.callable_live hnot]

/-- A cancellation that finds no source, or a source that was canceled before, runs nothing. -/
theorem Fired.cancelAgain (h : Fired ops board fired) {source : Nat}
    (hagain : HasSource ops source → Canceled ops source) (hruns : board'.runs = board.runs) :
    Fired (ops ++ [.cancel source]) board' fired := by
  refine h.keep ?_ hruns
  intro position hdue
  rcases dueAt_snoc.mp hdue with hbefore | ⟨_, _, _, hop, -⟩ | ⟨_, _, _, hop, hhas, hnot, -⟩
  · exact hbefore
  · cases hop
  · obtain rfl := Operation.cancel.inj hop
    exact absurd (hagain hhas) hnot

/-! ## One operation -/

theorem subscribe_step (hreports : Reports ops board) (hbooks : Books ops board ledger)
    (hfired : Fired ops board fired) (token : Nat) (name : Bytes) :
    ∃ ledger' new,
      Books (ops ++ [.subscribe token (.named name)])
        (board.apply (.subscribe token (.named name))).2 ledger' ∧
      Fired (ops ++ [.subscribe token (.named name)])
        (board.apply (.subscribe token (.named name))).2 (fired ++ new) := by
  simp only [Board.apply]
  cases hsignal : board.tokenSignal token with
  | none =>
      have hnone (source : Nat) : ¬ TokenOf ops token source := by
        rw [← hreports.tokens.token_iff, hsignal]
        exact (Option.some_ne_none source).symm
      refine ⟨_, [], hbooks.unheld (fun source h => absurd h (hnone source)) rfl, ?_⟩
      rw [List.append_nil]
      exact hfired.subscribe (fun source h => absurd h (hnone source)) rfl
  | some source =>
      have htoken := (hreports.tokens.token_iff token source).mp hsignal
      simp only [Board.subscribe]
      by_cases hcanceled : (board.state source).canceled = true
      · have hbefore := (hreports.canceled source).mp hcanceled
        rw [if_pos hcanceled]
        refine ⟨_, [ops.length], hbooks.unheld ?_ rfl, hfired.atOnce htoken hbefore rfl⟩
        intro other hother
        exact htoken.unique hother ▸ hbefore
      · have hnot := mt (hreports.canceled source).mpr hcanceled
        have hlt : source < board.signals.length := hreports.sources.signals ▸ htoken.source_lt
        rw [if_neg hcanceled]
        refine ⟨_, [], hbooks.subscribe htoken hnot hlt rfl, ?_⟩
        rw [List.append_nil]
        refine hfired.subscribe ?_ rfl
        intro other hother
        exact htoken.unique hother ▸ hnot

theorem cancel_step (hreports : Reports ops board) (hbooks : Books ops board ledger)
    (hfired : Fired ops board fired) (source : Nat) :
    ∃ new, Fired (ops ++ [.cancel source]) (board.apply (.cancel source)).2 (fired ++ new) := by
  simp only [Board.apply]
  cases hsource : board.sourceSignal source with
  | none =>
      have hnot := hreports.sources.not_hasSource hsource
      refine ⟨[], ?_⟩
      rw [List.append_nil]
      exact hfired.cancelAgain (fun hhas => absurd hhas hnot) rfl
  | some signal =>
      obtain ⟨hhas, rfl⟩ := (hreports.sources.source_iff source signal).mp hsource
      simp only [Board.cancel]
      by_cases hcanceled : (board.state signal).canceled = true
      · have hbefore := (hreports.canceled signal).mp hcanceled
        refine ⟨[], ?_⟩
        rw [if_pos hcanceled, List.append_nil]
        exact hfired.cancelAgain (fun _ => hbefore) rfl
      · have hnot := mt (hreports.canceled signal).mpr hcanceled
        rw [if_neg hcanceled]
        exact ⟨_, hfired.cancel hbooks hhas hnot rfl⟩

/-- Whatever the operation, it can be entered, and what it runs is what it makes due. -/
theorem step (hreports : Reports ops board) (hbooks : Books ops board ledger)
    (hfired : Fired ops board fired) (hallowed : Allowed ops op) :
    ∃ ledger' new, Books (ops ++ [op]) (board.apply op).2 ledger' ∧
      Fired (ops ++ [op]) (board.apply op).2 (fired ++ new) := by
  cases op with
  | subscribe token callback =>
      cases callback with
      | named name => exact subscribe_step hreports hbooks hfired token name
      | blank => exact absurd rfl hallowed
  | cancel source =>
      obtain ⟨new, hnew⟩ := cancel_step hreports hbooks hfired source
      exact ⟨_, new, hbooks.cancel hreports.sources source, hnew⟩
  | _ => exact ⟨_, [], hbooks.quiet rfl hallowed, (List.append_nil fired).symm ▸ hfired.quiet rfl⟩

end

/-! ## A run -/

theorem books_nil : Books [] {} [] := by
  refine ⟨rfl, ?_, .nil, ?_, nofun, nofun, fun _ _ => rfl⟩
  · intro position source name place
    simp [Kept]
  · intro holder subscription
    simp [Board.held]

theorem fired_nil : Fired [] {} [] := by
  refine ⟨.nil, rfl, ?_⟩
  intro position
  simp [DueAt]

/-- What has run at some point of a run is the beginning of what has run at its end. -/
theorem fired_run {ops : List Operation} (h : Proper ops) :
    ∃ ledger fired, Books ops (Board.run {} ops) ledger ∧ Fired ops (Board.run {} ops) fired ∧
      ∀ done rest, ops = done ++ rest →
        ∃ now, now <+: fired ∧ Fired done (Board.run {} done) now := by
  induction ops using List.reverseRecOn with
  | nil =>
      refine ⟨[], [], books_nil, fired_nil, ?_⟩
      intro done rest hsplit
      obtain ⟨rfl, rfl⟩ := List.nil_eq_append_iff.mp hsplit
      exact ⟨[], List.prefix_rfl, fired_nil⟩
  | append_singleton ops op ih =>
      obtain ⟨hbefore, hallowed⟩ := proper_snoc.mp h
      obtain ⟨ledger, fired, hbooks, hfired, hpoints⟩ := ih hbefore
      obtain ⟨ledger', new, hbooks', hfired'⟩ :=
        step (reports_run hbefore.passes) hbooks hfired hallowed
      rw [← Board.run_snoc hbefore.passes] at hbooks' hfired'
      refine ⟨ledger', fired ++ new, hbooks', hfired', ?_⟩
      intro done rest hsplit
      rcases List.eq_nil_or_concat rest with rfl | ⟨rest, last, rfl⟩
      · rw [List.append_nil] at hsplit
        subst hsplit
        exact ⟨fired ++ new, List.prefix_rfl, hfired'⟩
      · rw [List.concat_eq_append, ← List.append_assoc] at hsplit
        obtain ⟨hops, -⟩ := List.append_inj' hsplit rfl
        obtain ⟨now, hprefix, hnow⟩ := hpoints done rest hops
        exact ⟨now, hprefix.trans (List.prefix_append fired new), hnow⟩

/-! ## Answers -/

section

variable {ops : List Operation} {board : Board}

theorem Reports.isCanceled_token (h : Reports ops board) (token : Nat) :
    board.isCanceled (board.tokenSignal token) = true ↔
      ∃ source, TokenOf ops token source ∧ Canceled ops source := by
  cases hsignal : board.tokenSignal token with
  | none =>
      have hnone (source : Nat) : ¬ TokenOf ops token source := by
        rw [← h.tokens.token_iff, hsignal]
        exact nofun
      simp [Board.isCanceled, hnone]
  | some signal =>
      have htoken := (h.tokens.token_iff token signal).mp hsignal
      rw [Board.isCanceled, h.canceled]
      constructor
      · intro hcanceled
        exact ⟨signal, htoken, hcanceled⟩
      · rintro ⟨source, htoken', hcanceled⟩
        exact htoken.unique htoken' ▸ hcanceled

theorem Reports.isCanceled_source (h : Reports ops board) (source : Nat) :
    board.isCanceled (board.sourceSignal source) = true ↔
      HasSource ops source ∧ Canceled ops source := by
  cases hsignal : board.sourceSignal source with
  | none => simp [Board.isCanceled, h.sources.not_hasSource hsignal]
  | some signal =>
      obtain ⟨hhas, rfl⟩ := (h.sources.source_iff source signal).mp hsignal
      rw [Board.isCanceled, h.canceled]
      exact (and_iff_right hhas).symm

/-- A callback that is subscribed through a token that watches nothing is never due. -/
theorem not_dueAt_default {past future before behind : List Operation} {name : Bytes}
    (h : ops = past ++ .newToken none :: future)
    (h' : ops = before ++ .subscribe (tokensIn past) (.named name) :: behind) :
    ¬ DueAt ops before.length := by
  rintro ⟨before', token, name', behind', hops, hlength, hdue⟩
  obtain ⟨rfl, hcons⟩ := List.append_inj (hops.symm.trans h') hlength
  obtain ⟨hsub, -⟩ := List.cons.inj hcons
  obtain ⟨rfl, -⟩ := Operation.subscribe.inj hsub
  obtain ⟨source, htoken, -⟩ := hdue.canceled
  rcases List.append_eq_append_iff.mp (h.symm.trans h') with
    ⟨between, hbefore, hbetween⟩ | ⟨later, hpast, -⟩
  · -- The token was made before: it watches nothing.
    cases between with
    | nil => cases hbetween
    | cons op between =>
        obtain ⟨rfl, -⟩ := List.cons.inj hbetween
        exact not_tokenOf_default hbefore htoken
  · -- The token was made later: there was none of its number.
    have hlt := htoken.lt
    simp only [hpast, tokensIn, List.countP_append] at hlt
    omega

end

/-- **Callbacks run when they are due, and once.**  Along any run of operations that can be asked
for, what has run at any point are the callbacks of the subscriptions that are due by then, each
subscription once and in the order in which they ran.  A token is canceled just when its source
has been, a source just when it has been told to, and a token that watches nothing is not
canceled and runs nothing. -/
theorem callbacks_run_when_due {ops : List Operation} (h : Proper ops) :
    (∃ fired : List Nat, fired.Nodup ∧ ∀ done rest, ops = done ++ rest →
      ∃ now, now <+: fired ∧ (Board.run {} done).runs = now.filterMap (nameAt done) ∧
        ∀ position, position ∈ now ↔ DueAt done position) ∧
    (∀ token, ∃ canceled,
      ((Board.run {} ops).apply (.tokenCanceled token)).1 = .flag canceled ∧
        (canceled = true ↔ ∃ source, TokenOf ops token source ∧ Canceled ops source)) ∧
    (∀ source, ∃ canceled,
      ((Board.run {} ops).apply (.sourceCanceled source)).1 = .flag canceled ∧
        (canceled = true ↔ HasSource ops source ∧ Canceled ops source)) ∧
    ∀ past future, ops = past ++ .newToken none :: future →
      ((Board.run {} ops).apply (.tokenCanceled (tokensIn past))).1 = .flag false ∧
        ∀ before name behind,
          ops = before ++ .subscribe (tokensIn past) (.named name) :: behind →
            ¬ DueAt ops before.length := by
  have hreports := reports_run h.passes
  refine ⟨?_, ?_, ?_, ?_⟩
  · obtain ⟨ledger, fired, -, hfired, hpoints⟩ := fired_run h
    refine ⟨fired, hfired.nodup, ?_⟩
    intro done rest hsplit
    obtain ⟨now, hprefix, hnow⟩ := hpoints done rest hsplit
    exact ⟨now, hprefix, hnow.runs, hnow.due⟩
  · intro token
    exact ⟨_, rfl, hreports.isCanceled_token token⟩
  · intro source
    exact ⟨_, rfl, hreports.isCanceled_source source⟩
  · intro past future hdefault
    constructor
    · have hnot : (Board.run {} ops).isCanceled ((Board.run {} ops).tokenSignal (tokensIn past)) ≠
          true := by
        rw [ne_eq, hreports.isCanceled_token]
        rintro ⟨source, htoken, -⟩
        exact not_tokenOf_default hdefault htoken
      exact congrArg Answer.flag (Bool.eq_false_iff.mpr hnot)
    · intro before name behind hsub
      exact not_dueAt_default hdefault hsub

/-- Two subscriptions, the second of which is given up when its holder takes over the first. -/
def takenOver : List Operation :=
  [.newSource, .newToken (some 0), .subscribe 0 (.named (utf8 "first")),
   .subscribe 0 (.named (utf8 "second")), .moveInto 1 0, .release 0, .dropToken 0, .cancel 0]

/-- The first callback runs and the second does not. -/
theorem first_callback_runs :
    Proper takenOver ∧ (Board.run {} takenOver).runs = [utf8 "first"] ∧
      (∃ position, DueAt takenOver position ∧ nameAt takenOver position = some (utf8 "first")) ∧
      ¬ DueAt takenOver 3 := by
  have hproper : Proper takenOver := by decide
  have hfirst : (Board.run {} takenOver).runs = [utf8 "first"] := rfl
  obtain ⟨⟨fired, -, hpoints⟩, -⟩ := callbacks_run_when_due hproper
  obtain ⟨now, -, hruns, hdue⟩ := hpoints takenOver [] (List.append_nil _).symm
  rw [hfirst] at hruns
  refine ⟨hproper, hfirst, ?_, ?_⟩
  · obtain ⟨position, hmem, hname⟩ := List.mem_filterMap.mp (hruns ▸ List.mem_cons_self)
    exact ⟨position, (hdue position).mp hmem, hname⟩
  · intro hsecond
    have hmem : utf8 "second" ∈ now.filterMap (nameAt takenOver) :=
      List.mem_filterMap.mpr ⟨3, (hdue 3).mpr hsecond, rfl⟩
    rw [← hruns, List.mem_singleton] at hmem
    exact absurd hmem (by decide)

end Signal

end BearerAuth
