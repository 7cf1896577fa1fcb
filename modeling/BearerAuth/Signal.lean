import BearerAuth.Bytes

/-!
# Cancellation signals

A signal is canceled at most once, and for good.  Sources cancel it, tokens
watch it, and a holder keeps a callback subscribed to it: the callback runs
when the signal is canceled, unless its holder has let go of it before.  A
callback subscribed to a canceled signal runs at once.

All sources, tokens and holders live on one `Board`, each numbered in the
order of creation, so that a run of operations goes over the board one by one.
-/

namespace BearerAuth

namespace Signal

/-- What is subscribed: a callback, told apart by its name, or one without
anything to call. -/
inductive Callback where
  | named (name : Bytes)
  | blank
  deriving DecidableEq, Repr

/-- A signal: whether it has been canceled, the number of the next
subscription and the subscriptions that are live.  A number is not bounded
here; one of 64 bits would come round again after 2^64 subscriptions to one
signal. -/
structure State where
  canceled : Bool := false
  next : Nat := 1
  live : List (Nat × Callback) := []
  deriving DecidableEq, Repr

/-- A subscription: a signal and the number of the subscription there. -/
structure Subscription where
  signal : Nat
  number : Nat
  deriving DecidableEq, Repr

/-- All signals with the sources, tokens and holders that refer to them, and
the names of the callbacks that have run, in order. -/
structure Board where
  signals : List State := []
  sources : List (Option Nat) := []
  tokens : List (Option Nat) := []
  holders : List (Option Subscription) := []
  runs : List Bytes := []
  deriving DecidableEq, Repr

/-- What an operation answers. -/
inductive Answer where
  | nothing
  | number (n : Nat)
  | flag (value : Bool)
  /-- The operation failed: a callback without anything to call was to run. -/
  | nothingToCall
  deriving DecidableEq, Repr

inductive Operation where
  /-- A new source with a signal of its own. -/
  | newSource
  /-- A new token of a source, or one that watches nothing. -/
  | newToken (source : Option Nat)
  /-- Subscribes a callback to the signal of a token; a new holder keeps
  it. -/
  | subscribe (token : Nat) (callback : Callback)
  /-- A new holder of nothing. -/
  | newHolder
  /-- A holder lets go of its subscription. -/
  | release (holder : Nat)
  /-- A holder goes away, and lets go of its subscription. -/
  | destroy (holder : Nat)
  /-- A new holder takes over the subscription of another. -/
  | moveNew (source : Nat)
  /-- A holder lets go of its subscription and takes over that of another;
  taking over from itself changes nothing. -/
  | moveInto (target source : Nat)
  /-- A source cancels its signal. -/
  | cancel (source : Nat)
  /-- Whether the signal of a source has been canceled. -/
  | sourceCanceled (source : Nat)
  /-- Whether the signal of a token has been canceled. -/
  | tokenCanceled (token : Nat)
  /-- A source goes away. -/
  | dropSource (source : Nat)
  /-- A token watches nothing any more. -/
  | dropToken (token : Nat)
  deriving DecidableEq, Repr

namespace Board

/-! ## Looking things up -/

def sourceSignal (board : Board) (source : Nat) : Option Nat :=
  board.sources[source]?.join

def tokenSignal (board : Board) (token : Nat) : Option Nat :=
  board.tokens[token]?.join

def held (board : Board) (holder : Nat) : Option Subscription :=
  board.holders[holder]?.join

def state (board : Board) (signal : Nat) : State := board.signals[signal]?.getD {}

def isCanceled (board : Board) : Option Nat → Bool
  | none => false
  | some signal => (board.state signal).canceled

/-! ## Changing the board -/

def setState (board : Board) (signal : Nat) (state : State) : Board :=
  { board with signals := board.signals.set signal state }

def setHolder (board : Board) (holder : Nat) (held : Option Subscription) : Board :=
  { board with holders := board.holders.set holder held }

def addHolder (board : Board) (held : Option Subscription) : Answer × Board :=
  (.number board.holders.length, { board with holders := board.holders ++ [held] })

/-- A holder lets go: its subscription is live no longer. -/
def release (board : Board) (holder : Nat) : Board :=
  match board.held holder with
  | none => board
  | some subscription =>
      let state := board.state subscription.signal
      let live := state.live.filter fun entry => entry.1 != subscription.number
      (board.setState subscription.signal { state with live }).setHolder holder none

/-- The names of callbacks that have something to call. -/
def callable (live : List (Nat × Callback)) : List Bytes :=
  live.filterMap fun entry => match entry.2 with
    | .named name => some name
    | .blank => none

/-- A signal is canceled: every live callback runs, and none stays live. -/
def cancel (board : Board) (signal : Nat) : Board :=
  let state := board.state signal
  if state.canceled then board
  else
    let board := board.setState signal { state with canceled := true, live := [] }
    { board with runs := board.runs ++ callable state.live }

def subscribe (board : Board) (signal : Option Nat) (callback : Callback) : Answer × Board :=
  match signal with
  | none => board.addHolder none
  | some signal =>
      let state := board.state signal
      if state.canceled then match callback with
        | .named name => { board with runs := board.runs ++ [name] }.addHolder none
        | .blank => (.nothingToCall, board)
      else
        let live := state.live ++ [(state.next, callback)]
        let board := board.setState signal { state with next := state.next + 1, live }
        board.addHolder (some ⟨signal, state.next⟩)

/-! ## Operations -/

def apply (board : Board) : Operation → Answer × Board
  | .newSource =>
      let board' := { board with
        signals := board.signals ++ [{}]
        sources := board.sources ++ [some board.signals.length] }
      (.number board.sources.length, board')
  | .newToken source =>
      let signal := source.bind board.sourceSignal
      (.number board.tokens.length, { board with tokens := board.tokens ++ [signal] })
  | .subscribe token callback => board.subscribe (board.tokenSignal token) callback
  | .newHolder => board.addHolder none
  | .release holder => (.nothing, board.release holder)
  | .destroy holder => (.nothing, board.release holder)
  | .moveNew source => (board.setHolder source none).addHolder (board.held source)
  | .moveInto target source =>
      if target = source then (.nothing, board)
      else
        let board := board.release target
        (.nothing, (board.setHolder target (board.held source)).setHolder source none)
  | .cancel source => match board.sourceSignal source with
    | none => (.nothing, board)
    | some signal => (.nothing, board.cancel signal)
  | .sourceCanceled source => (.flag (board.isCanceled (board.sourceSignal source)), board)
  | .tokenCanceled token => (.flag (board.isCanceled (board.tokenSignal token)), board)
  | .dropSource source => (.nothing, { board with sources := board.sources.set source none })
  | .dropToken token => (.nothing, { board with tokens := board.tokens.set token none })

def runsOf (board : Board) (name : Bytes) : Nat := board.runs.count name

/-- The answers of a run of operations, each with the board behind it.  The run
is over when an operation fails. -/
def trace (board : Board) : List Operation → List (Answer × Board)
  | [] => []
  | operation :: rest =>
      let step := board.apply operation
      step :: if step.1 = .nothingToCall then [] else trace step.2 rest

def run (board : Board) : List Operation → Board
  | [] => board
  | operation :: rest =>
      let step := board.apply operation
      if step.1 = .nothingToCall then step.2 else run step.2 rest

end Board

end Signal

end BearerAuth
