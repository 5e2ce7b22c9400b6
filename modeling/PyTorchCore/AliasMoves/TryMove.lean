import PyTorchCore.IrGraph.NodeLists
import Mathlib.Data.Finset.Basic

/-!
# Moving a node next to another one

`tryMove` walks from the node to the move point and keeps a working set: the node and what it
cannot be moved past.

The fuel bounds how deep the blocks nest.
-/

namespace PyTorchCore.AliasMoves

open IrGraph

/-- What `tryMove` reads of an `AliasDb`. -/
structure AliasDb (L E : Type) where
  graph : Graph
  writeIndex_ : NodeId → Option (Finset L)
  elementMap_ : ValueId → Option E
  /-- `collectAllContainedMemoryLocations`. -/
  containedLocations : E → Finset L
  /-- `Node::hasSideEffects`. -/
  hasSideEffects : NodeId → Bool

inductive MoveSide where
  | before
  | after
deriving DecidableEq

def MoveSide.reversed : MoveSide → MoveSide
  | .before => .after
  | .after => .before

/-- `WorkingSet`; `node_to_index_` is used for membership in `nodes_` only. -/
structure WorkingSet (L : Type) where
  nodes_ : List NodeId
  mover_ : Option NodeId
  moverWrites_ : Finset L
  moverReads_ : Finset L
  moverUsers_ : List NodeId
  users_ : List NodeId
  writes_ : Finset L
  reads_ : Finset L

namespace AliasDb

variable {L E : Type} [DecidableEq L] (db : AliasDb L E) (s : NodeLists) (fuel : ℕ)

def inputsOf (n : NodeId) : List (Option ValueId) :=
  match db.graph.nodes n with
  | some node => node.inputs
  | none => []

def outputsOf (n : NodeId) : List ValueId :=
  match db.graph.nodes n with
  | some node => node.outputs
  | none => []

def blocksOf (n : NodeId) : List BlockId :=
  match db.graph.nodes n with
  | some node => node.blocks
  | none => []

def usesOf (v : ValueId) : List Use :=
  match db.graph.values v with
  | some value => value.uses
  | none => []

def nodesOf (b : BlockId) : List NodeId :=
  match s.blocks b with
  | some block => block.nodes
  | none => []

/-- What `getWritesImpl` and `getReadsImpl` have in common: a node, then the nodes of its
blocks. -/
def collectNested (own : NodeId → Finset L) : ℕ → NodeId → Finset L → Finset L
  | 0, _, ret => ret
  | fuel + 1, n, ret =>
    (db.blocksOf n).foldl (fun ret b =>
      (nodesOf s b).foldl (fun ret node => collectNested own fuel node ret) ret) (ret ∪ own n)

def ownWrites (n : NodeId) : Finset L :=
  (db.writeIndex_ n).getD ∅

/-- The locations that the inputs of a node may alias, with what they contain. -/
def ownReads (n : NodeId) : Finset L :=
  (db.inputsOf n).foldl (fun ret input =>
    match input.bind db.elementMap_ with
    | some el => ret ∪ db.containedLocations el
    | none => ret) ∅

def getWrites (n : NodeId) : Finset L :=
  db.collectNested s db.ownWrites fuel n ∅

def getReads (n : NodeId) : Finset L :=
  db.collectNested s db.ownReads fuel n ∅

def findSameBlock (target n : NodeId) : Option NodeId :=
  (s.owningBlock n).bind fun b => s.climbTo b fuel (some target)

def getUsersSameBlock (n : NodeId) : List NodeId :=
  (db.outputsOf n).flatMap fun output =>
    (db.usesOf output).filterMap fun use => findSameBlock s fuel use.user n

/-- The constructor of `WorkingSet`. -/
def workingSet (mover : NodeId) : WorkingSet L where
  nodes_ := []
  mover_ := some mover
  moverWrites_ := db.getWrites s fuel mover
  moverReads_ := db.getReads s fuel mover
  moverUsers_ := db.getUsersSameBlock s fuel mover
  users_ := []
  writes_ := ∅
  reads_ := ∅

def add (ws : WorkingSet L) (n : NodeId) : WorkingSet L :=
  { ws with
    nodes_ := ws.nodes_ ++ [n]
    users_ := ws.users_ ++ db.getUsersSameBlock s fuel n
    writes_ := ws.writes_ ∪ db.getWrites s fuel n
    reads_ := ws.reads_ ∪ db.getReads s fuel n }

def eraseMover (ws : WorkingSet L) : WorkingSet L :=
  { ws with mover_ := none, moverWrites_ := ∅, moverReads_ := ∅, moverUsers_ := [] }

def producesFor (ws : WorkingSet L) (n : NodeId) : Bool :=
  (ws.mover_.isSome && n ∈ ws.moverUsers_) || n ∈ ws.users_

def consumesFrom (ws : WorkingSet L) (n : NodeId) : Bool :=
  let users := db.getUsersSameBlock s fuel n
  (match ws.mover_ with
    | some mover => mover ∈ users
    | none => false) || users.any (· ∈ ws.nodes_)

def hasDataDependency (ws : WorkingSet L) (n : NodeId) : Except ListFailure Bool :=
  match ws.mover_.orElse fun _ => ws.nodes_.head? with
  | none => .ok false
  | some pivot => do
    let isAfter ← s.isAfter fuel n pivot
    if isAfter then pure (producesFor ws n) else pure (db.consumesFrom s fuel ws n)

def hasMutabilityDependency (ws : WorkingSet L) (n : NodeId) : Bool :=
  let nWrites := db.getWrites s fuel n
  let nReads := db.getReads s fuel n
  decide (ws.reads_ ∩ nWrites ≠ ∅) ||
    (ws.mover_.isSome && decide (ws.moverReads_ ∩ nWrites ≠ ∅)) ||
    decide (ws.writes_ ∩ nReads ≠ ∅) ||
    (ws.mover_.isSome && decide (ws.moverWrites_ ∩ nReads ≠ ∅))

def dependsOn (ws : WorkingSet L) (n : NodeId) : Except ListFailure Bool :=
  if ws.mover_.isNone && ws.nodes_.isEmpty then .ok false
  else do
    let data ← db.hasDataDependency s fuel ws n
    pure (data || db.hasMutabilityDependency s fuel ws n)

/-- `next_in_graph[direction]` of a node, and what follows up to the end of the list. -/
def following (n : NodeId) (isAfter : Bool) (block : ListBlock) : List NodeId :=
  ((if isAfter then block.full.reverse else block.full).dropWhile (· ≠ n)).tail

/-- The loop from the node to the move point; there is no result where a node with side
effects is in the way. -/
def scan (movePoint : NodeId) : List NodeId → WorkingSet L →
    Except ListFailure (Option (WorkingSet L))
  | [], _ => .error .assertion
  | curNode :: rest, ws =>
    if curNode = movePoint then .ok (some ws)
    else if db.hasSideEffects curNode then .ok none
    else do
      let depends ← db.dependsOn s fuel ws curNode
      scan movePoint rest (if depends then db.add s fuel ws curNode else ws)

def move (s : NodeLists) (toMove movePoint : NodeId) : MoveSide → Except ListFailure NodeLists
  | .before => s.moveBefore toMove movePoint
  | .after => s.moveAfter toMove movePoint

def moveAll (side : MoveSide) : NodeId → List NodeId → NodeLists → Except ListFailure NodeLists
  | _, [], s => .ok s
  | curNode, n :: rest, s => do
    let s ← move s n curNode side
    moveAll side n rest s

def tryMove (toMove movePoint : NodeId) (moveSide : MoveSide) (dryRun : Bool) :
    Except ListFailure (NodeLists × Bool) :=
  if s.owningBlock toMove ≠ s.owningBlock movePoint then .ok (s, false)
  else if toMove = movePoint then .ok (s, true)
  else do
    let isAfter ← s.isAfter fuel toMove movePoint
    let isBefore ← s.isBefore fuel toMove movePoint
    let b ← NodeLists.get (s.owningBlock toMove)
    let block ← NodeLists.get (s.blocks b)
    let nodes := following toMove isAfter block
    let toMoveIsOnMoveSide :=
      (decide (moveSide = .before) && isBefore) || (decide (moveSide = .after) && isAfter)
    if toMoveIsOnMoveSide && nodes.head? = some movePoint then .ok (s, true)
    else if db.hasSideEffects toMove || (!toMoveIsOnMoveSide && db.hasSideEffects movePoint) then
      .ok (s, false)
    else do
      match ← db.scan s fuel movePoint nodes (db.workingSet s fuel toMove) with
      | none => .ok (s, false)
      | some ws =>
        let ws := if toMoveIsOnMoveSide then eraseMover ws else ws
        let depends ← db.dependsOn s fuel ws movePoint
        if depends then .ok (s, false)
        else if dryRun then .ok (s, true)
        else if toMoveIsOnMoveSide then do
          let s ← move s toMove movePoint moveSide
          let s ← moveAll moveSide.reversed movePoint ws.nodes_ s
          pure (s, true)
        else do
          let s ← moveAll moveSide movePoint (toMove :: ws.nodes_) s
          pure (s, true)

end AliasDb

end PyTorchCore.AliasMoves
