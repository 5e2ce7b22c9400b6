import Mathlib.Data.List.AList
import Mathlib.Data.List.Sort
import Mathlib.Data.Finset.Erase
import Mathlib.Data.Finset.Insert

/-!
# The state of an elastic rendezvous and what a node does to it

`_RendezvousState` of the dynamic rendezvous, the seven actions by which the executor of a node
edits its copy of it, the four operations that choose the next action, and `_sanitize`, by which
the holder of the copy drops the nodes that had no heartbeat.

Times are integers, in microseconds. Every reading of a clock is an argument. An action or
operation fails where the Python code raises a `KeyError` or compares a deadline that is `None`.
-/

namespace PyTorchCore.Rendezvous

/-- The settings that `DynamicRendezvousHandler` accepts. -/
structure RendezvousSettings where
  min_nodes : Nat
  max_nodes : Nat
  last_call : Int
  keep_alive_interval : Int
  keep_alive_max_attempt : Nat
  cache_duration : Int
  min_nodes_pos : 1 ≤ min_nodes
  min_le_max : min_nodes ≤ max_nodes

/-- The shared state.  `participants` maps a node to its rank. -/
structure RendezvousState (ν : Type) where
  round : Nat
  complete : Bool
  deadline : Option Int
  closed : Bool
  participants : AList fun _ : ν => Nat
  wait_list : Finset ν
  last_heartbeats : AList fun _ : ν => Int

/-- The readings of the clocks during one iteration of the executor. -/
structure Clock where
  /-- `time.monotonic()`: the test for a cached state, and the time of the sync. -/
  cacheNow : Int
  syncedNow : Int
  /-- `datetime.utcnow()` of `_sanitize`. -/
  expireNow : Int
  /-- `time.monotonic()` of the operation. -/
  opNow : Int
  /-- `datetime.utcnow()` compared with the deadline of the round. -/
  deadlineNow : Int
  /-- `datetime.utcnow()` of `_should_keep_alive`. -/
  intervalNow : Int
  /-- `datetime.utcnow()` of `_keep_alive`. -/
  heartbeatNow : Int
  /-- `datetime.utcnow()` of the new deadline. -/
  lastCallNow : Int

inductive Action where
  | keepAlive
  | addToParticipants
  | addToWaitList
  | removeFromParticipants
  | removeFromWaitList
  | markRendezvousComplete
  | markRendezvousClosed
  | sync
  | errorClosed
  | errorTimeout
  | finish
deriving DecidableEq

/-- The exceptions of the Python code that no design asks for. -/
inductive PyError where
  | keyError
  | typeError
deriving DecidableEq

section Defs

variable {ν : Type} [LinearOrder ν]

/-- `len(state.participants)`. -/
def RendezvousState.numParticipants (state : RendezvousState ν) : Nat :=
  state.participants.keys.length

/-- `_RendezvousState()`. -/
def RendezvousState.new : RendezvousState ν where
  round := 0
  complete := false
  deadline := none
  closed := false
  participants := ∅
  wait_list := ∅
  last_heartbeats := ∅

def removeParticipantEpilogue (settings : RendezvousSettings) (state : RendezvousState ν) :
    RendezvousState ν :=
  if state.complete then
    if state.numParticipants = 0 then { state with complete := false, round := state.round + 1 }
    else state
  else if state.numParticipants < settings.min_nodes then { state with deadline := none }
  else state

/-- One round of the loop of `_sanitize`; the flag is `participant_removed`. -/
def removeDeadNode (p : RendezvousState ν × Bool) (dead_node : ν) : RendezvousState ν × Bool :=
  ({ p.1 with
      last_heartbeats := p.1.last_heartbeats.erase dead_node
      participants := p.1.participants.erase dead_node
      wait_list := p.1.wait_list.erase dead_node },
    p.2 || decide (dead_node ∈ p.1.participants))

/-- The nodes whose heartbeat is older than the keep-alive window. -/
def deadNodes (settings : RendezvousSettings) (now : Int) (state : RendezvousState ν) : List ν :=
  (state.last_heartbeats.entries.filter fun e =>
    decide (e.2 < now - settings.keep_alive_interval * settings.keep_alive_max_attempt)).map
      Sigma.fst

def sanitize (settings : RendezvousSettings) (now : Int) (state : RendezvousState ν) :
    RendezvousState ν :=
  let p := (deadNodes settings now state).foldl removeDeadNode (state, false)
  if p.2 then removeParticipantEpilogue settings p.1 else p.1

/-! ### The actions -/

def keepAlive (node : ν) (now : Int) (state : RendezvousState ν) : RendezvousState ν :=
  { state with last_heartbeats := state.last_heartbeats.insert node now }

/-- `enumerate(sorted(state.participants))`, written back rank by rank. -/
def assignRanks (participants : AList fun _ : ν => Nat) : AList fun _ : ν => Nat :=
  (participants.keys.insertionSort (· ≤ ·)).zipIdx.foldl
    (fun participants p => participants.replace p.1 p.2) participants

def markRendezvousComplete (state : RendezvousState ν) : RendezvousState ν :=
  { state with
    complete := true
    deadline := none
    participants := assignRanks state.participants }

def addToParticipants (settings : RendezvousSettings) (c : Clock) (node : ν)
    (state : RendezvousState ν) : RendezvousState ν :=
  let state := { state with
    wait_list := state.wait_list.erase node
    participants := state.participants.insert node 0 }
  let state := keepAlive node c.heartbeatNow state
  let state := if state.numParticipants = settings.min_nodes then
    { state with deadline := some (c.lastCallNow + settings.last_call) } else state
  if state.numParticipants = settings.max_nodes then markRendezvousComplete state else state

def addToWaitList (c : Clock) (node : ν) (state : RendezvousState ν) : RendezvousState ν :=
  keepAlive node c.heartbeatNow { state with wait_list := insert node state.wait_list }

def removeFromParticipants (settings : RendezvousSettings) (node : ν)
    (state : RendezvousState ν) : Except PyError (RendezvousState ν) :=
  if node ∉ state.participants then .error .keyError
  else if node ∉ state.last_heartbeats then .error .keyError
  else .ok (removeParticipantEpilogue settings { state with
    participants := state.participants.erase node
    last_heartbeats := state.last_heartbeats.erase node })

def removeFromWaitList (node : ν) (state : RendezvousState ν) :
    Except PyError (RendezvousState ν) :=
  if node ∉ state.wait_list then .error .keyError
  else if node ∉ state.last_heartbeats then .error .keyError
  else .ok { state with
    wait_list := state.wait_list.erase node
    last_heartbeats := state.last_heartbeats.erase node }

def markRendezvousClosed (state : RendezvousState ν) : RendezvousState ν :=
  { state with closed := true }

/-- The branch of `run` that edits the local state. -/
def perform (settings : RendezvousSettings) (c : Clock) (node : ν) (state : RendezvousState ν) :
    Action → Except PyError (RendezvousState ν)
  | .keepAlive => .ok (keepAlive node c.heartbeatNow state)
  | .addToParticipants => .ok (addToParticipants settings c node state)
  | .addToWaitList => .ok (addToWaitList c node state)
  | .removeFromParticipants => removeFromParticipants settings node state
  | .removeFromWaitList => removeFromWaitList node state
  | .markRendezvousComplete => .ok (markRendezvousComplete state)
  | .markRendezvousClosed => .ok (markRendezvousClosed state)
  | .sync | .errorClosed | .errorTimeout | .finish => .ok state

/-! ### The operations -/

def shouldKeepAlive (settings : RendezvousSettings) (c : Clock) (node : ν)
    (state : RendezvousState ν) : Bool :=
  match state.last_heartbeats.lookup node with
  | none => false
  | some last_heartbeat => decide (last_heartbeat ≤ c.intervalNow - settings.keep_alive_interval)

/-- `_RendezvousExitOp`. -/
def exitOp (c : Clock) (node : ν) (state : RendezvousState ν) (deadline : Int) : Action :=
  if node ∈ state.participants then
    if c.opNow > deadline then .errorTimeout else .removeFromParticipants
  else .finish

/-- Five seconds on top of the deadline of the operation. -/
def rollbackPeriod : Int := 5000000

/-- The part of `_RendezvousJoinOp` after the test of the operation's deadline.
`none` means that no branch returned. -/
def joinInTime (settings : RendezvousSettings) (c : Clock) (node : ν)
    (state : RendezvousState ν) : Except PyError (Option Action) :=
  if state.complete then
    if state.numParticipants < settings.max_nodes ∧ node ∉ state.wait_list then
      .ok (some .addToWaitList)
    else .ok none
  else if node ∈ state.participants then
    if state.numParticipants ≥ settings.min_nodes then
      match state.deadline with
      | none => .error .typeError
      | some deadline =>
        if deadline < c.deadlineNow then .ok (some .markRendezvousComplete) else .ok none
    else .ok none
  else .ok (some .addToParticipants)

/-- `_RendezvousJoinOp`. -/
def joinOp (settings : RendezvousSettings) (c : Clock) (node : ν) (state : RendezvousState ν)
    (deadline : Int) : Except PyError Action :=
  if state.closed then .ok .errorClosed
  else if state.complete ∧ node ∈ state.participants then .ok .finish
  else if c.opNow > deadline then
    if c.opNow ≤ deadline + rollbackPeriod ∧ node ∈ state.participants then
      .ok .removeFromParticipants
    else if c.opNow ≤ deadline + rollbackPeriod ∧ node ∈ state.wait_list then
      .ok .removeFromWaitList
    else .ok .errorTimeout
  else
    match joinInTime settings c node state with
    | .error e => .error e
    | .ok (some action) => .ok action
    | .ok none => .ok (if shouldKeepAlive settings c node state then .keepAlive else .sync)

/-- `_RendezvousCloseOp`. -/
def closeOp (c : Clock) (state : RendezvousState ν) (deadline : Int) : Action :=
  if state.closed then .finish
  else if c.opNow > deadline then .errorTimeout
  else .markRendezvousClosed

/-- `_RendezvousKeepAliveOp`. -/
def keepAliveOp (settings : RendezvousSettings) (c : Clock) (node : ν)
    (state : RendezvousState ν) (deadline : Int) : Action :=
  if shouldKeepAlive settings c node state then
    if c.opNow > deadline then .errorTimeout else .keepAlive
  else .finish

end Defs

inductive Op where
  | exit
  | join
  | close
  | keepAlive
deriving DecidableEq

/-- The call of the state handler. -/
def Op.handle {ν : Type} [LinearOrder ν] (op : Op) (settings : RendezvousSettings) (c : Clock)
    (node : ν) (state : RendezvousState ν) (deadline : Int) : Except PyError Action :=
  match op with
  | .exit => .ok (exitOp c node state deadline)
  | .join => joinOp settings c node state deadline
  | .close => .ok (closeOp c state deadline)
  | .keepAlive => .ok (keepAliveOp settings c node state deadline)

end PyTorchCore.Rendezvous
