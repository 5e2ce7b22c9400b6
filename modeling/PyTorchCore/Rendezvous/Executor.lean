import PyTorchCore.Lib.FencedStore
import PyTorchCore.Lib.Machine
import PyTorchCore.Rendezvous.State

/-!
# The executor and the system of all nodes

Every node holds a copy of the shared state. The backend is a fenced store, so an iteration
touches what the nodes share exactly once, and the iterations of the nodes are the atomic steps of
the system.
-/

namespace PyTorchCore.Rendezvous

open Lib

/-- `_BackendRendezvousStateHolder`. -/
structure StateHolder (ν τ : Type) where
  state : RendezvousState ν
  token : Option τ
  dirty : Bool
  last_sync_time : Int

/-- Where the thread of a node is in `next_rendezvous`. -/
inductive Phase where
  | idle
  | exit (deadline : Int)
  | join (deadline : Int)
  /-- The join operation has finished; rank and world size are not read yet. -/
  | world
deriving DecidableEq

structure NodeState (ν τ : Type) where
  holder : StateHolder ν τ
  phase : Phase

/-- What a call of `next_rendezvous` returned. -/
structure Return (ν : Type) where
  node : ν
  round : Nat
  rank : Nat
  world_size : Nat
deriving DecidableEq

/-- The states the backend has stored, the nodes, and the calls that returned. -/
structure System (ν τ : Type) where
  log : List (RendezvousState ν)
  nodes : ν → NodeState ν τ
  returned : List (Return ν)

/-- The steps of the system. -/
inductive Move (ν : Type) where
  /-- `next_rendezvous` is called. -/
  | nextRendezvous (node : ν) (deadline : Int)
  /-- One iteration of the operation that `next_rendezvous` runs. -/
  | iterate (node : ν) (c : Clock)
  /-- `next_rendezvous` reads rank and world size and returns. -/
  | getWorld (node : ν)
  /-- One iteration of the keep-alive operation. -/
  | keepAlive (node : ν) (c : Clock) (deadline : Int)
  /-- One iteration of the close operation. -/
  | setClosed (node : ν) (c : Clock) (deadline : Int)
  /-- `is_closed` or `num_nodes_waiting`. -/
  | sync (node : ν) (c : Clock)

/-- How a step ended. -/
inductive Outcome where
  | done
  /-- The executor took an action and goes on. -/
  | acted (action : Action)
  | closedError
  | timeoutError
  /-- An exception in the executor. -/
  | failed (e : PyError)
  /-- `_get_world` does not find the node among the participants. -/
  | notParticipant
  /-- The step is not one the node can take now. -/
  | disabled
deriving DecidableEq

section Defs

variable {ν τ : Type} [LinearOrder ν] [DecidableEq τ]
variable (settings : RendezvousSettings) (F : Fence (RendezvousState ν) τ)

def StateHolder.new : StateHolder ν τ where
  state := RendezvousState.new
  token := none
  dirty := false
  last_sync_time := -1

/-- What `sync` does with the state it got. -/
def StateHolder.load (c : Clock) (state : RendezvousState ν) (token : Option τ) :
    StateHolder ν τ where
  state := sanitize settings c.expireNow state
  token := token
  dirty := false
  last_sync_time := c.syncedNow

/-- The state of the last sync is recent enough. -/
def StateHolder.isCached (h : StateHolder ν τ) (c : Clock) : Bool :=
  decide (settings.cache_duration > 0) &&
    decide (h.last_sync_time ≥ max (c.cacheNow - settings.cache_duration) 0)

/-- `sync`: the stored states afterwards and the new holder. -/
def StateHolder.sync (log : List (RendezvousState ν)) (h : StateHolder ν τ) (c : Clock) :
    List (RendezvousState ν) × StateHolder ν τ :=
  if h.dirty then
    match F.set log h.state h.token with
    | (log', some (state, token, _)) => (log', load settings c state (some token))
    | (log', none) => (log', load settings c h.state none)
  else if h.isCached settings c then (log, h)
  else
    match F.current log with
    | some (state, token) => (log, load settings c state (some token))
    | none => (log, load settings c RendezvousState.new none)

/-- What one iteration of `run` does after the sync. -/
def StateHolder.act (op : Op) (node : ν) (deadline : Int) (c : Clock) (h : StateHolder ν τ) :
    StateHolder ν τ × Outcome :=
  match op.handle settings c node h.state deadline with
  | .error e => (h, .failed e)
  | .ok .finish => (h, .done)
  | .ok .errorClosed => (h, .closedError)
  | .ok .errorTimeout => (h, .timeoutError)
  | .ok .sync => (h, .acted .sync)
  | .ok action =>
    match perform settings c node h.state action with
    | .error e => (h, .failed e)
    | .ok state => ({ h with state := state, dirty := true }, .acted action)

/-- The system after `node` has gone on. -/
def System.put (s : System ν τ) (node : ν) (log : List (RendezvousState ν)) (h : StateHolder ν τ)
    (phase : Phase) : System ν τ :=
  { s with log := log, nodes := Function.update s.nodes node ⟨h, phase⟩ }

/-- One iteration of `run`. -/
def System.runOnce (s : System ν τ) (op : Op) (node : ν) (deadline : Int) (c : Clock)
    (next : Outcome → Phase) : System ν τ × Outcome :=
  let synced := (s.nodes node).holder.sync settings F s.log c
  let acted := synced.2.act settings op node deadline c
  (s.put node synced.1 acted.1 (next acted.2), acted.2)

/-- The phase after an iteration that began in phase `here`: a finished operation
leads to `there`, an exception leaves `next_rendezvous`. -/
def Phase.after (here there : Phase) : Outcome → Phase
  | .done => there
  | .acted _ => here
  | _ => .idle

def System.step (s : System ν τ) : Move ν → System ν τ × Outcome
  | .nextRendezvous node deadline =>
    match (s.nodes node).phase with
    | .idle => (s.put node s.log (s.nodes node).holder (.exit deadline), .done)
    | _ => (s, .disabled)
  | .iterate node c =>
    match (s.nodes node).phase with
    | .exit deadline =>
      s.runOnce settings F .exit node deadline c (Phase.after (.exit deadline) (.join deadline))
    | .join deadline =>
      s.runOnce settings F .join node deadline c (Phase.after (.join deadline) .world)
    | _ => (s, .disabled)
  | .getWorld node =>
    match (s.nodes node).phase with
    | .world =>
      let state := (s.nodes node).holder.state
      let idle := s.put node s.log (s.nodes node).holder .idle
      match state.participants.lookup node with
      | none => (idle, .notParticipant)
      | some rank =>
        ({ idle with
            returned := s.returned ++ [⟨node, state.round, rank, state.numParticipants⟩] },
          .done)
    | _ => (s, .disabled)
  | .keepAlive node c deadline =>
    s.runOnce settings F .keepAlive node deadline c fun _ => (s.nodes node).phase
  | .setClosed node c deadline =>
    s.runOnce settings F .close node deadline c fun _ => (s.nodes node).phase
  | .sync node c =>
    let synced := (s.nodes node).holder.sync settings F s.log c
    (s.put node synced.1 synced.2 (s.nodes node).phase, .done)

/-- The system: nothing stored, every node with a new handler. -/
def machine : Machine (System ν τ) (Move ν) Outcome where
  init := { log := [], nodes := fun _ => ⟨StateHolder.new, .idle⟩, returned := [] }
  step s m := s.step settings F m

end Defs

end PyTorchCore.Rendezvous
