import BearerAuth.Proofs.Signal.Board

/-!
# The subscriptions of a board

A ledger has one entry for every subscription that was kept: where in the
history it was made, for which source, under which number, and which holder
has it now.  The holders of a board and the live subscriptions of its signals
are what the ledger says (`Books`), and every operation can be entered: as a
new entry (`Books.subscribe`), or by moving the entries there are
(`Books.carry`).
-/

namespace BearerAuth

namespace Signal

/-! ## What an operation does to holders -/

/-- The holder whose subscription an operation ends. -/
def letsGo : Operation → Option Nat
  | .release holder | .destroy holder => some holder
  | .moveInto target source => if target = source then none else some target
  | _ => none

/-- Operations that neither subscribe nor cancel. -/
def Operation.isQuiet : Operation → Bool
  | .subscribe .. | .cancel _ => false
  | _ => true

theorem follow_eq_none {fresh holder : Nat} {op : Operation} :
    follow fresh op (some holder) = none ↔ letsGo op = some holder := by
  cases op with
  | release other => simp [follow, letsGo, eq_comm]
  | destroy other => simp [follow, letsGo, eq_comm]
  | moveNew source => by_cases h : holder = source <;> simp [follow, letsGo, h]
  | moveInto target source =>
      by_cases heq : target = source
      · simp [follow, letsGo, heq]
      · by_cases htarget : holder = target
        · simp [follow, letsGo, heq, htarget]
        · by_cases hsource : holder = source
          · simp [follow, letsGo, heq, hsource, Ne.symm heq]
          · simp [follow, letsGo, heq, htarget, hsource, Ne.symm htarget]
  | _ => simp [follow, letsGo]

namespace Board

section

variable {board : Board} {op : Operation} {holder : Nat} {subscription : Subscription}

theorem held_release_iff {other : Nat} :
    (board.release other).held holder = some subscription ↔
      board.held holder = some subscription ∧ holder ≠ other := by
  rw [held_release]
  by_cases heq : other = holder
  · simp [heq]
  · simp [heq, Ne.symm heq]

theorem length_holders_release {other : Nat} :
    (board.release other).holders.length = board.holders.length := by
  rw [release]
  split
  · rfl
  · exact List.length_set

theorem held_length : board.held board.holders.length = none := by
  rw [Board.held, List.getElem?_eq_none (Nat.le_refl _)]
  rfl

theorem held_addHolder_none : (board.addHolder none).2.held holder = board.held holder := by
  rw [held_addHolder]
  split
  · next heq => rw [heq, held_length]
  · rfl

theorem held_moveNew {source : Nat} :
    (board.apply (.moveNew source)).2.held holder = some subscription ↔
      (holder = board.holders.length ∧ board.held source = some subscription) ∨
        (holder ≠ source ∧ board.held holder = some subscription) := by
  have hlength : (board.setHolder source none).holders.length = board.holders.length :=
    List.length_set
  simp only [apply, held_addHolder, hlength, held_setHolder_none]
  by_cases hnew : holder = board.holders.length
  · simp [hnew, held_length]
  · by_cases heq : source = holder
    · simp [hnew, heq]
    · simp [hnew, heq, Ne.symm heq]

theorem held_moveInto {target source : Nat} (h : target < board.holders.length)
    (hne : target ≠ source) :
    (board.apply (.moveInto target source)).2.held holder = some subscription ↔
      (holder = target ∧ board.held source = some subscription) ∨
        (holder ≠ target ∧ holder ≠ source ∧ board.held holder = some subscription) := by
  simp only [apply, if_neg hne, held_setHolder_none,
    held_setHolder (length_holders_release ▸ h), held_release]
  by_cases htarget : holder = target
  · simp [htarget, hne, Ne.symm hne]
  · by_cases hsource : source = holder
    · simp [htarget, hsource]
    · simp [htarget, hsource, Ne.symm htarget, Ne.symm hsource]

/-- Behind an operation that does not subscribe, a holder has the subscription that has come
to it. -/
theorem held_apply (hop : ∀ token callback, op ≠ .subscribe token callback)
    (hallowed : ∀ target source, op = .moveInto target source → target < board.holders.length) :
    (board.apply op).2.held holder = some subscription ↔
      ∃ before, board.held before = some subscription ∧
        follow board.holders.length op (some before) = some holder := by
  cases op with
  | subscribe token callback => exact absurd rfl (hop token callback)
  | newHolder =>
      have hheld : (board.apply .newHolder).2.held holder = board.held holder :=
        held_addHolder_none
      simp [hheld, follow]
  | release other => exact held_release_iff.trans (by simp [follow])
  | destroy other => exact held_release_iff.trans (by simp [follow])
  | moveNew source =>
      rw [held_moveNew]
      simp only [follow, Option.some.injEq]
      constructor
      · rintro (⟨rfl, hheld⟩ | ⟨hne, hheld⟩)
        · exact ⟨source, hheld, by simp⟩
        · exact ⟨holder, hheld, by simp [hne]⟩
      · rintro ⟨before, hheld, hfollow⟩
        by_cases hbefore : before = source
        · simp only [hbefore, if_true, Option.some.injEq] at hfollow hheld
          exact .inl ⟨hfollow.symm, hheld⟩
        · simp only [hbefore, if_false, Option.some.injEq] at hfollow
          exact .inr ⟨hfollow ▸ hbefore, hfollow ▸ hheld⟩
  | moveInto target source =>
      by_cases heq : target = source
      · simp [apply, follow, heq]
      · rw [held_moveInto (hallowed target source rfl) heq]
        simp only [follow, heq, if_false, Option.some.injEq]
        constructor
        · rintro (⟨rfl, hheld⟩ | ⟨htarget, hsource, hheld⟩)
          · exact ⟨source, hheld, by simp [Ne.symm heq]⟩
          · exact ⟨holder, hheld, by simp [htarget, hsource]⟩
        · rintro ⟨before, hheld, hfollow⟩
          by_cases htarget : before = target
          · simp [htarget] at hfollow
          · by_cases hsource : before = source
            · simp only [hsource, Ne.symm heq, if_true, if_false, Option.some.injEq]
                at hfollow hheld
              exact .inl ⟨hfollow.symm, hheld⟩
            · simp only [htarget, hsource, if_false, Option.some.injEq] at hfollow
              exact .inr ⟨hfollow ▸ htarget, hfollow ▸ hsource, hfollow ▸ hheld⟩
  | cancel source =>
      have hheld : (board.apply (.cancel source)).2.held holder = board.held holder := by
        rw [Board.held, (ends_cancel board source).2.2.2, ← Board.held]
      simp [hheld, follow]
  | _ => simp [follow]; rfl

theorem state_apply {signal : Nat} (hop : op.isQuiet = true) :
    (board.apply op).2.state signal =
      { board.state signal with
        live := (board.state signal).live.filter fun row =>
          (letsGo op).bind board.held != some ⟨signal, row.1⟩ } := by
  have hkept (hnone : letsGo op = none) :
      ((board.state signal).live.filter fun row =>
        (letsGo op).bind board.held != some ⟨signal, row.1⟩) = (board.state signal).live :=
    List.filter_eq_self.mpr fun row _ => by rw [hnone]; rfl
  cases op with
  | subscribe token callback => cases hop
  | cancel source => cases hop
  | newSource =>
      rw [hkept rfl]
      exact state_append
  | release holder => exact state_release
  | destroy holder => exact state_release
  | moveInto target source =>
      by_cases heq : target = source
      · rw [hkept (by simp [letsGo, heq])]
        simp [apply, heq]
      · simp only [apply, letsGo, if_neg heq]
        exact state_release
  | _ =>
      rw [hkept rfl]
      rfl

theorem runs_release {other : Nat} : (board.release other).runs = board.runs := by
  rw [release]
  split <;> rfl

theorem runs_apply (hop : op.isQuiet = true) : (board.apply op).2.runs = board.runs := by
  cases op with
  | subscribe token callback => cases hop
  | cancel source => cases hop
  | release holder => exact runs_release
  | destroy holder => exact runs_release
  | moveInto target source =>
      simp only [apply]
      split
      · rfl
      · exact runs_release
  | _ => rfl

theorem length_holders_apply (hop : ∀ token callback, op ≠ .subscribe token callback) :
    (board.apply op).2.holders.length =
      board.holders.length + if op.makesHolder then 1 else 0 := by
  cases op with
  | subscribe token callback => exact absurd rfl (hop token callback)
  | cancel source => exact congrArg List.length (ends_cancel board source).2.2.2
  | newHolder => exact List.length_append
  | release holder => exact length_holders_release
  | destroy holder => exact length_holders_release
  | moveNew source =>
      refine List.length_append.trans ?_
      simp [setHolder, Operation.makesHolder]
  | moveInto target source =>
      simp only [apply]
      split
      · rfl
      · simp [setHolder, length_holders_release, Operation.makesHolder]
  | _ => rfl

end

end Board

/-! ## Ledgers -/

/-- What is known of a subscription: the position in the history at which it was made, its
source, its number there, the name of its callback, and the holder that has it. -/
structure Entry where
  position : Nat
  source : Nat
  number : Nat
  name : Bytes
  place : Option Nat

namespace Entry

def subscription (entry : Entry) : Subscription := ⟨entry.source, entry.number⟩

/-- What its signal has of a subscription. -/
def row (entry : Entry) : Nat × Callback := (entry.number, .named entry.name)

def after (fresh : Nat) (op : Operation) (entry : Entry) : Entry :=
  { entry with place := follow fresh op entry.place }

/-- A holder has the subscription, and it is one to a given source. -/
def isLive (source : Nat) (entry : Entry) : Bool := entry.source == source && entry.place.isSome

end Entry

/-- The ledger has the subscriptions that the history keeps, and holders and signals have what
the ledger says. -/
structure Books (ops : List Operation) (board : Board) (ledger : List Entry) : Prop where
  holders : board.holders.length = holdersIn ops
  kept : ∀ position source name place, Kept ops position source name place ↔
    ∃ number, ⟨position, source, number, name, place⟩ ∈ ledger
  positions : (ledger.map Entry.position).Nodup
  held : ∀ holder subscription, board.held holder = some subscription ↔
    ∃ entry ∈ ledger, entry.place = some holder ∧ entry.subscription = subscription
  fresh : ∀ entry ∈ ledger, entry.number < (board.state entry.source).next
  apart : ∀ entry ∈ ledger, ∀ other ∈ ledger,
    entry.subscription = other.subscription → entry = other
  live : ∀ source, ¬ Canceled ops source →
    (board.state source).live = (ledger.filter (Entry.isLive source)).map Entry.row

section

variable {ops : List Operation} {board board' : Board} {op : Operation} {ledger : List Entry}

theorem Books.letsGo_iff (h : Books ops board ledger) {entry : Entry} (hentry : entry ∈ ledger)
    {holder : Nat} (hplace : entry.place = some holder) (op : Operation) :
    (letsGo op).bind board.held = some entry.subscription ↔ letsGo op = some holder := by
  constructor
  · intro hbind
    obtain ⟨other, hgoes, hheld⟩ := Option.bind_eq_some_iff.mp hbind
    obtain ⟨entry', hentry', hplace', hsame⟩ := (h.held other entry.subscription).mp hheld
    obtain rfl := h.apart entry' hentry' entry hentry hsame
    rw [hgoes, ← hplace', hplace]
  · intro hgoes
    rw [hgoes, Option.bind_some]
    exact (h.held holder entry.subscription).mpr ⟨entry, hentry, hplace, rfl⟩

theorem Books.isLive_after (h : Books ops board ledger) {entry : Entry} (hentry : entry ∈ ledger)
    (source fresh : Nat) :
    (entry.after fresh op).isLive source =
      (((letsGo op).bind board.held != some ⟨source, entry.number⟩) && entry.isLive source) := by
  rw [Bool.eq_iff_iff]
  simp only [Entry.isLive, Entry.after, Bool.and_eq_true, beq_iff_eq, bne_iff_ne,
    Option.isSome_iff_ne_none]
  cases hplace : entry.place with
  | none => simp
  | some holder =>
      have hgoes := h.letsGo_iff hentry hplace op
      constructor
      · rintro ⟨rfl, hfollow⟩
        exact ⟨fun hbind => hfollow (follow_eq_none.mpr (hgoes.mp hbind)), rfl, nofun⟩
      · rintro ⟨hbind, rfl, -⟩
        exact ⟨rfl, fun hfollow => hbind (hgoes.mpr (follow_eq_none.mp hfollow))⟩

theorem Books.carry_kept (h : Books ops board ledger)
    (hkeeps : ∀ token name source, op = .subscribe token (.named name) →
      TokenOf ops token source → Canceled ops source)
    (position source : Nat) (name : Bytes) (place : Option Nat) :
    Kept (ops ++ [op]) position source name place ↔ ∃ number,
      ⟨position, source, number, name, place⟩ ∈ ledger.map (Entry.after (holdersIn ops) op) := by
  rw [kept_snoc]
  constructor
  · rintro (⟨token, hop, -, htoken, hnot, -⟩ | ⟨before, hkept, rfl⟩)
    · exact absurd (hkeeps token name source hop htoken) hnot
    · obtain ⟨number, hentry⟩ := (h.kept position source name before).mp hkept
      exact ⟨number, List.mem_map.mpr ⟨_, hentry, rfl⟩⟩
  · rintro ⟨number, hmem⟩
    obtain ⟨entry, hentry, heq⟩ := List.mem_map.mp hmem
    cases heq
    exact .inr ⟨entry.place, (h.kept _ _ _ _).mpr ⟨entry.number, hentry⟩, rfl⟩

theorem Books.carry_held (h : Books ops board ledger)
    (hheld : ∀ holder subscription, board'.held holder = some subscription ↔
      ∃ before, board.held before = some subscription ∧
        follow (holdersIn ops) op (some before) = some holder)
    (holder : Nat) (subscription : Subscription) :
    board'.held holder = some subscription ↔
      ∃ entry ∈ ledger.map (Entry.after (holdersIn ops) op),
        entry.place = some holder ∧ entry.subscription = subscription := by
  rw [hheld]
  constructor
  · rintro ⟨before, hbefore, hfollow⟩
    obtain ⟨entry, hentry, hplace, rfl⟩ := (h.held before subscription).mp hbefore
    refine ⟨_, List.mem_map_of_mem hentry, ?_, rfl⟩
    rw [Entry.after, hplace, hfollow]
  · rintro ⟨entry', hentry', hplace, rfl⟩
    obtain ⟨entry, hentry, rfl⟩ := List.mem_map.mp hentry'
    rw [Entry.after] at hplace
    cases hbefore : entry.place with
    | none => simp [hbefore] at hplace
    | some before =>
        exact ⟨before, (h.held before _).mpr ⟨entry, hentry, hbefore, rfl⟩, hbefore ▸ hplace⟩

/-- An operation that makes no new subscription moves those there are, and ends the one that
it lets go. -/
theorem Books.carry (h : Books ops board ledger)
    (hkeeps : ∀ token name source, op = .subscribe token (.named name) →
      TokenOf ops token source → Canceled ops source)
    (hholders : board'.holders.length = holdersIn (ops ++ [op]))
    (hheld : ∀ holder subscription, board'.held holder = some subscription ↔
      ∃ before, board.held before = some subscription ∧
        follow (holdersIn ops) op (some before) = some holder)
    (hnext : ∀ signal, (board'.state signal).next = (board.state signal).next)
    (hlive : ∀ signal, ¬ Canceled (ops ++ [op]) signal →
      (board'.state signal).live = (board.state signal).live.filter fun row =>
        (letsGo op).bind board.held != some ⟨signal, row.1⟩) :
    Books (ops ++ [op]) board' (ledger.map (Entry.after (holdersIn ops) op)) := by
  refine ⟨hholders, h.carry_kept hkeeps, ?_, h.carry_held hheld, ?_, ?_, ?_⟩
  · rw [List.map_map]
    exact h.positions
  · intro entry' hentry'
    obtain ⟨entry, hentry, rfl⟩ := List.mem_map.mp hentry'
    exact (hnext _).symm ▸ h.fresh entry hentry
  · intro entry' hentry' other' hother' hsame
    obtain ⟨entry, hentry, rfl⟩ := List.mem_map.mp hentry'
    obtain ⟨other, hother, rfl⟩ := List.mem_map.mp hother'
    rw [h.apart entry hentry other hother hsame]
  · intro source hcanceled
    have hbefore : ¬ Canceled ops source := fun hbefore =>
      hcanceled (canceled_snoc.mpr (.inr hbefore))
    rw [hlive source hcanceled, h.live source hbefore, List.filter_map, List.filter_map,
      List.map_map, List.filter_filter]
    refine congrArg (List.map Entry.row) (List.filter_congr ?_)
    intro entry hentry
    exact (h.isLive_after hentry source (holdersIn ops)).symm

theorem Books.unheld (h : Books ops board ledger) {token : Nat} {callback : Callback}
    (hkeeps : ∀ source, TokenOf ops token source → Canceled ops source)
    (hboard' : board' = { board with runs := board'.runs, holders := board.holders ++ [none] }) :
    Books (ops ++ [.subscribe token callback]) board'
      (ledger.map (Entry.after (holdersIn ops) (.subscribe token callback))) := by
  have hheld (holder : Nat) : board'.held holder = board.held holder := by
    rw [hboard']
    exact Board.held_addHolder_none
  have hstate (signal : Nat) : board'.state signal = board.state signal := by
    rw [hboard']
    rfl
  refine h.carry ?_ ?_ ?_ ?_ ?_
  · rintro token' name source hop htoken
    obtain ⟨rfl, -⟩ := Operation.subscribe.inj hop
    exact hkeeps source htoken
  · rw [holdersIn_snoc, hboard', ← h.holders]
    exact List.length_append
  · intro holder subscription
    simp [hheld, follow]
  · intro signal
    rw [hstate]
  · intro signal _
    rw [hstate]
    exact (List.filter_eq_self.mpr fun row _ => rfl).symm

/-! ### A new subscription -/

def opening (ops : List Operation) (board : Board) (source : Nat) (name : Bytes) : Entry :=
  ⟨ops.length, source, (board.state source).next, name, some (holdersIn ops)⟩

/-- A signal in which a callback has become live. -/
def State.opened (state : State) (callback : Callback) : State :=
  { state with next := state.next + 1, live := state.live ++ [(state.next, callback)] }

variable {source token : Nat} {name : Bytes}

theorem Books.opening_kept (h : Books ops board ledger) (htoken : TokenOf ops token source)
    (hnot : ¬ Canceled ops source) (position source' : Nat) (name' : Bytes)
    (place : Option Nat) :
    Kept (ops ++ [.subscribe token (.named name)]) position source' name' place ↔
      ∃ number, ⟨position, source', number, name', place⟩ ∈
        ledger ++ [opening ops board source name] := by
  rw [kept_snoc]
  constructor
  · rintro (⟨token', hop, rfl, htoken', -, rfl⟩ | ⟨before, hkept, rfl⟩)
    · obtain ⟨rfl, hname⟩ := Operation.subscribe.inj hop
      obtain rfl := Callback.named.inj hname
      obtain rfl := htoken.unique htoken'
      exact ⟨_, List.mem_append_right _ List.mem_cons_self⟩
    · obtain ⟨number, hentry⟩ := (h.kept _ _ _ _).mp hkept
      exact ⟨number, List.mem_append_left _ hentry⟩
  · rintro ⟨number, hmem⟩
    rcases List.mem_append.mp hmem with hentry | hentry
    · exact .inr ⟨place, (h.kept _ _ _ _).mpr ⟨number, hentry⟩, rfl⟩
    · cases List.mem_singleton.mp hentry
      exact .inl ⟨token, rfl, rfl, htoken, hnot, rfl⟩

theorem Books.opening_positions (h : Books ops board ledger) (source : Nat) (name : Bytes) :
    ((ledger ++ [opening ops board source name]).map Entry.position).Nodup := by
  rw [List.map_append, List.nodup_append]
  refine ⟨h.positions, by simp, ?_⟩
  intro position hposition other hother
  obtain ⟨entry, hentry, rfl⟩ := List.mem_map.mp hposition
  have hlt := ((h.kept _ _ _ _).mpr ⟨entry.number, hentry⟩).lt
  cases List.mem_singleton.mp hother
  exact Nat.ne_of_lt hlt

theorem Books.opening_held (h : Books ops board ledger) (source : Nat) (name : Bytes)
    (holder : Nat) (subscription : Subscription) :
    (if holder = board.holders.length then some ⟨source, (board.state source).next⟩
        else board.held holder) = some subscription ↔
      ∃ entry ∈ ledger ++ [opening ops board source name],
        entry.place = some holder ∧ entry.subscription = subscription := by
  constructor
  · intro hsome
    split at hsome
    · next hnew =>
        obtain rfl := Option.some.inj hsome
        refine ⟨_, List.mem_append_right _ List.mem_cons_self, ?_, rfl⟩
        rw [hnew, h.holders]
        rfl
    · obtain ⟨entry, hentry, hplace, rfl⟩ := (h.held _ _).mp hsome
      exact ⟨entry, List.mem_append_left _ hentry, hplace, rfl⟩
  · rintro ⟨entry, hmem, hplace, rfl⟩
    rcases List.mem_append.mp hmem with hentry | hentry
    · have hsome := (h.held _ _).mpr ⟨entry, hentry, hplace, rfl⟩
      rw [if_neg (Nat.ne_of_lt (Board.held_lt hsome)), hsome]
    · cases List.mem_singleton.mp hentry
      rw [if_pos (h.holders.trans (Option.some.inj hplace)).symm]
      rfl

theorem Books.opening_fresh (h : Books ops board ledger) (name : Bytes)
    (hstate : ∀ signal, board'.state signal =
      if source = signal then (board.state source).opened (.named name) else board.state signal) :
    ∀ entry ∈ ledger ++ [opening ops board source name],
      entry.number < (board'.state entry.source).next := by
  intro entry hmem
  rw [hstate]
  rcases List.mem_append.mp hmem with hentry | hentry
  · have hfresh := h.fresh entry hentry
    split
    · next heq => exact Nat.lt_succ_of_lt (heq ▸ hfresh)
    · exact hfresh
  · cases List.mem_singleton.mp hentry
    simp [opening, State.opened]

theorem Books.opening_apart (h : Books ops board ledger) (source : Nat) (name : Bytes) :
    ∀ entry ∈ ledger ++ [opening ops board source name],
      ∀ other ∈ ledger ++ [opening ops board source name],
        entry.subscription = other.subscription → entry = other := by
  have hnumber {entry : Entry} (hentry : entry ∈ ledger) :
      entry.subscription ≠ (opening ops board source name).subscription := by
    intro hsame
    obtain ⟨rfl, hnext⟩ := Subscription.mk.inj hsame
    exact Nat.ne_of_lt (h.fresh entry hentry) hnext
  intro entry hmem other hmem' hsame
  rcases List.mem_append.mp hmem with hentry | hentry
  · rcases List.mem_append.mp hmem' with hother | hother
    · exact h.apart entry hentry other hother hsame
    · cases List.mem_singleton.mp hother
      exact absurd hsame (hnumber hentry)
  · rcases List.mem_append.mp hmem' with hother | hother
    · cases List.mem_singleton.mp hentry
      exact absurd hsame.symm (hnumber hother)
    · rw [List.mem_singleton.mp hentry, List.mem_singleton.mp hother]

theorem Books.opening_live (h : Books ops board ledger)
    (hstate : ∀ signal, board'.state signal =
      if source = signal then (board.state source).opened (.named name) else board.state signal)
    {signal : Nat} (hnot : ¬ Canceled ops signal) :
    (board'.state signal).live =
      ((ledger ++ [opening ops board source name]).filter (Entry.isLive signal)).map
        Entry.row := by
  rw [hstate, List.filter_append, List.map_append, ← h.live signal hnot]
  by_cases heq : source = signal
  · subst heq
    simp [opening, State.opened, Entry.isLive, Entry.row]
  · simp [opening, Entry.isLive, heq]

/-- A subscription that is kept is a new entry. -/
theorem Books.subscribe (h : Books ops board ledger) (htoken : TokenOf ops token source)
    (hnot : ¬ Canceled ops source) (hlt : source < board.signals.length)
    (hboard' : board' =
      ((board.setState source ((board.state source).opened (.named name))).addHolder
        (some ⟨source, (board.state source).next⟩)).2) :
    Books (ops ++ [.subscribe token (.named name)]) board'
      (ledger ++ [opening ops board source name]) := by
  have hheld (holder : Nat) : board'.held holder =
      if holder = board.holders.length then some ⟨source, (board.state source).next⟩
      else board.held holder := by
    rw [hboard']
    exact Board.held_addHolder
  have hstate (signal : Nat) : board'.state signal =
      if source = signal then (board.state source).opened (.named name)
      else board.state signal := by
    rw [hboard']
    refine Board.state_setState.trans ?_
    simp [hlt]
  refine ⟨?_, h.opening_kept htoken hnot, h.opening_positions source name, ?_,
    h.opening_fresh name hstate, h.opening_apart source name, ?_⟩
  · rw [holdersIn_snoc, hboard', ← h.holders]
    exact List.length_append
  · intro holder subscription
    rw [hheld]
    exact h.opening_held source name holder subscription
  · intro signal hcanceled
    exact h.opening_live hstate fun hbefore => hcanceled (canceled_snoc.mpr (.inr hbefore))

/-! ### Other operations -/

/-- A cancellation moves no subscription; those to its source are live no longer. -/
theorem Books.cancel (h : Books ops board ledger) (hsources : ShowsSources ops board)
    (source : Nat) :
    Books (ops ++ [.cancel source]) (board.apply (.cancel source)).2
      (ledger.map (Entry.after (holdersIn ops) (.cancel source))) := by
  have hstate (signal : Nat) :
      ((board.apply (.cancel source)).2.state signal).next = (board.state signal).next ∧
        (¬ Canceled (ops ++ [.cancel source]) signal →
          ((board.apply (.cancel source)).2.state signal).live = (board.state signal).live) := by
    simp only [Board.apply]
    cases hsource : board.sourceSignal source with
    | none => exact ⟨rfl, fun _ => rfl⟩
    | some target =>
        obtain ⟨hhas, rfl⟩ := (hsources.source_iff source target).mp hsource
        rw [Board.state_cancel (hsources.signals ▸ hhas.lt)]
        split
        · next heq =>
            obtain ⟨rfl, -⟩ := heq
            exact ⟨rfl, fun hnot => absurd (canceled_snoc.mpr (.inl ⟨rfl, hhas⟩)) hnot⟩
        · exact ⟨rfl, fun _ => rfl⟩
  have hsub : ∀ token callback, Operation.cancel source ≠ .subscribe token callback := by
    rintro token callback heq
    cases heq
  have hmove : ∀ target other, Operation.cancel source = .moveInto target other →
      target < board.holders.length := by
    rintro target other heq
    cases heq
  refine h.carry ?_ ?_ ?_ ?_ ?_
  · intro token name _ heq
    exact absurd heq (hsub token _)
  · rw [Board.length_holders_apply hsub, holdersIn_snoc, h.holders]
  · intro holder subscription
    rw [Board.held_apply hsub hmove, h.holders]
  · intro signal
    exact (hstate signal).1
  · intro signal hnot
    rw [(hstate signal).2 hnot]
    exact (List.filter_eq_self.mpr fun row _ => rfl).symm

theorem Books.quiet (h : Books ops board ledger) (hop : op.isQuiet = true)
    (hallowed : Allowed ops op) :
    Books (ops ++ [op]) (board.apply op).2 (ledger.map (Entry.after (holdersIn ops) op)) := by
  have hsub : ∀ token callback, op ≠ .subscribe token callback := by
    rintro token callback rfl
    cases hop
  have hmove : ∀ target source, op = .moveInto target source → target < board.holders.length := by
    rintro target source rfl
    exact h.holders ▸ hallowed
  refine h.carry ?_ ?_ ?_ ?_ ?_
  · intro token name source heq
    exact absurd heq (hsub token _)
  · rw [Board.length_holders_apply hsub, holdersIn_snoc, h.holders]
  · intro holder subscription
    rw [Board.held_apply hsub hmove, h.holders]
  · intro signal
    rw [Board.state_apply hop]
  · intro signal _
    rw [Board.state_apply hop]

end

end Signal

end BearerAuth
