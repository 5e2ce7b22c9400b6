import PyTorchCore.IrGraph.Graph
import Mathlib.Data.Int.Notation

/-!
# Node lists and topological positions

Every block keeps its nodes in a circular list between its Param and its Return node, and every
node a 64-bit position, so that `isBefore` compares two numbers instead of walking the list.
`assignTopoPosition` gives an inserted node a position: a fixed step past the last node, a fixed
step in front of the first, the midpoint between two neighbours, or, where there is no room, new
positions for the whole list.

A signed addition that leaves the 64-bit range is an error of its own.
-/

namespace PyTorchCore.IrGraph

/-- The fields of `Block` that the lists use. -/
structure ListBlock where
  owningNode : Option NodeId
  param : NodeId
  ret : NodeId
  nodes : List NodeId

def ListBlock.full (block : ListBlock) : List NodeId :=
  block.param :: block.nodes ++ [block.ret]

/-- What an edit of a list can raise. -/
inductive ListFailure where
  /-- An assertion on the arguments. -/
  | assertion
  /-- The assertion of `reIndexTopology`. -/
  | noRoom
  /-- Signed overflow. -/
  | overflow
deriving DecidableEq, Repr

/-- The blocks of a graph, with their lists. -/
structure NodeLists where
  owningBlock : NodeId → Option BlockId
  topoPosition : NodeId → ℤ
  blocks : BlockId → Option ListBlock
  nextNode : ℕ
  nextBlock : ℕ

/-- `INT64_MIN` and `INT64_MAX`. -/
def kLowerBound : ℤ := -9223372036854775808
def kUpperBound : ℤ := 9223372036854775807
def kMidPoint : ℤ := 0
/-- `2 ^ 40`. -/
def kAppendInterval : ℤ := 1099511627776

/-- A `topo_position_t`. -/
def int64 (z : ℤ) : Except ListFailure ℤ :=
  if kLowerBound ≤ z ∧ z ≤ kUpperBound then .ok z else .error .overflow

/-- `prev()` of a node inside a list. -/
def prevOf (x : NodeId) : List NodeId → Option NodeId
  | a :: b :: rest => if b = x then some a else prevOf x (b :: rest)
  | _ => none

/-- `next()` of a node inside a list. -/
def nextOf (x : NodeId) : List NodeId → Option NodeId
  | a :: b :: rest => if a = x then some b else nextOf x (b :: rest)
  | _ => none

/-- The list with `x` linked in behind `n`. -/
def linkAfter (n x : NodeId) : List NodeId → List NodeId
  | [] => []
  | a :: rest => if a = n then a :: x :: rest else a :: linkAfter n x rest

namespace NodeLists

/-- Before the first block is made. -/
def empty : NodeLists where
  owningBlock _ := none
  topoPosition _ := 0
  blocks _ := none
  nextNode := 0
  nextBlock := 0

variable (s : NodeLists)

def get {α : Type} : Option α → Except ListFailure α
  | some a => .ok a
  | none => .error .assertion

def assert (cond : Bool) : Except ListFailure Unit :=
  if cond then .ok () else .error .assertion

def setPosition (n : NodeId) (position : ℤ) : NodeLists :=
  { s with topoPosition := Function.update s.topoPosition n position }

def setBlock (b : BlockId) (block : ListBlock) : NodeLists :=
  { s with blocks := Function.update s.blocks b (some block) }

def setOwningBlock (n : NodeId) (b : Option BlockId) : NodeLists :=
  { s with owningBlock := Function.update s.owningBlock n b }

def inBlockList (n : NodeId) : Bool :=
  (s.owningBlock n).isSome

/-- The kind of the node is `prim::Return`. -/
def isReturn (n : NodeId) : Bool :=
  match (s.owningBlock n).bind s.blocks with
  | some block => n = block.ret
  | none => false

def reIndexTopology (b : BlockId) : Except ListFailure NodeLists := do
  let block ← get (s.blocks b)
  let (s, _) ← block.nodes.foldlM (fun (state : NodeLists × ℤ) node => do
    let (s, curPos) := state
    if curPos ≤ kUpperBound - kAppendInterval then
      let curPos ← int64 (curPos + kAppendInterval)
      pure (s.setPosition node curPos, curPos)
    else .error .noRoom) (s, kLowerBound)
  pure s

def assignTopoPosition (x : NodeId) : Except ListFailure NodeLists := do
  let b ← get (s.owningBlock x)
  let block ← get (s.blocks b)
  let prev ← get (prevOf x block.full)
  let next ← get (nextOf x block.full)
  let prevPos := s.topoPosition prev
  let nextPos := s.topoPosition next
  if next = block.ret then
    -- append to the end of the list
    if prev = block.param then
      pure (s.setPosition x kMidPoint)
    else if prevPos ≥ kUpperBound - kAppendInterval then
      s.reIndexTopology b
    else do
      let position ← int64 (prevPos + kAppendInterval)
      pure (s.setPosition x position)
  else if prev = block.param then
    -- prepend
    if nextPos ≤ kLowerBound + kAppendInterval then
      s.reIndexTopology b
    else do
      let position ← int64 (nextPos - kAppendInterval)
      pure (s.setPosition x position)
  else do
    -- insert between two existing nodes
    let difference ← int64 (nextPos - prevPos)
    let posBetween ← int64 (prevPos + difference.tdiv 2)
    if posBetween = prevPos then s.reIndexTopology b
    else pure (s.setPosition x posBetween)

def insertAfter (x n : NodeId) : Except ListFailure NodeLists := do
  assert (!s.inBlockList x && s.inBlockList n)
  let b ← get (s.owningBlock n)
  assert (!s.isReturn n)
  let block ← get (s.blocks b)
  let nodes := (linkAfter n x (block.param :: block.nodes)).tail
  ((s.setBlock b { block with nodes := nodes }).setOwningBlock x (some b)).assignTopoPosition x

/-- `Node::insertBefore`: the list is circular, so the Return node precedes the Param
node. -/
def insertBefore (x n : NodeId) : Except ListFailure NodeLists := do
  assert (s.inBlockList n)
  let b ← get (s.owningBlock n)
  let block ← get (s.blocks b)
  s.insertAfter x ((prevOf n block.full).getD block.ret)

def removeFromList (x : NodeId) : Except ListFailure NodeLists := do
  assert (s.inBlockList x)
  let b ← get (s.owningBlock x)
  let block ← get (s.blocks b)
  pure ((s.setBlock b { block with nodes := block.nodes.erase x }).setOwningBlock x none)

def moveAfter (x n : NodeId) : Except ListFailure NodeLists := do
  let s ← s.removeFromList x
  s.insertAfter x n

def moveBefore (x n : NodeId) : Except ListFailure NodeLists := do
  let s ← s.removeFromList x
  s.insertBefore x n

/-- `Graph::create`: the node is in no list, at position 0. -/
def create : NodeLists :=
  { s.setPosition s.nextNode 0 with nextNode := s.nextNode + 1 }

/-- `Block::Block`: an empty list between two new sentinels. -/
def addBlock (owningNode : Option NodeId) : NodeLists :=
  let ret := s.nextNode
  let param := s.nextNode + 1
  let b := s.nextBlock
  let s := s.setBlock b ⟨owningNode, param, ret, []⟩
  let s := (s.setOwningBlock ret (some b)).setPosition ret kUpperBound
  let s := (s.setOwningBlock param (some b)).setPosition param kLowerBound
  { s with nextNode := param + 1, nextBlock := b + 1 }

/-- The inner loop of `isBeforeOrAfter`: climb from a node until a given block. -/
def climbTo (b : BlockId) : ℕ → Option NodeId → Option NodeId
  | 0, _ => none
  | _ + 1, none => none
  | fuel + 1, some rhs =>
    match s.owningBlock rhs with
    | none => none
    | some b' =>
      if b = b' then some rhs else climbTo b fuel ((s.blocks b').bind ListBlock.owningNode)

/-- The outer loop of `isBeforeOrAfter`: the first ancestors in a common block. -/
def commonAncestors (n : NodeId) (fuel : ℕ) : ℕ → Option NodeId →
    Except ListFailure (NodeId × NodeId)
  | 0, _ => .error .assertion
  | _ + 1, none => .error .assertion
  | left + 1, some lhs =>
    match s.owningBlock lhs with
    | none => .error .assertion
    | some b =>
      match s.climbTo b fuel (some n) with
      | some rhs => .ok (lhs, rhs)
      | none => commonAncestors n fuel left ((s.blocks b).bind ListBlock.owningNode)

/-- `Node::isBefore`; the fuel bounds how deep the blocks nest. -/
def isBefore (fuel : ℕ) (x n : NodeId) : Except ListFailure Bool :=
  if s.owningBlock x = s.owningBlock n then .ok (s.topoPosition x < s.topoPosition n)
  else do
    let (lhs, rhs) ← s.commonAncestors n fuel fuel (some x)
    pure (s.topoPosition lhs < s.topoPosition rhs)

def isAfter (fuel : ℕ) (x n : NodeId) : Except ListFailure Bool :=
  if s.owningBlock x = s.owningBlock n then .ok (s.topoPosition x > s.topoPosition n)
  else do
    let (lhs, rhs) ← s.commonAncestors n fuel fuel (some x)
    pure (s.topoPosition lhs > s.topoPosition rhs)

end NodeLists

/-- The edits of the lists; `remove` also stands for what destroying a node does here. -/
inductive ListEdit where
  | create
  | addBlock (owningNode : Option NodeId)
  | insertBefore (x n : NodeId)
  | insertAfter (x n : NodeId)
  | moveBefore (x n : NodeId)
  | moveAfter (x n : NodeId)
  | remove (x : NodeId)

/-- Carry out one edit. -/
def ListEdit.apply (s : NodeLists) : ListEdit → Except ListFailure NodeLists
  | .create => .ok s.create
  | .addBlock owningNode => .ok (s.addBlock owningNode)
  | .insertBefore x n => s.insertBefore x n
  | .insertAfter x n => s.insertAfter x n
  | .moveBefore x n => s.moveBefore x n
  | .moveAfter x n => s.moveAfter x n
  | .remove x => s.removeFromList x

/-- A run of edits; it ends with the first that raises. -/
def runLists (s : NodeLists) (edits : List ListEdit) : Except ListFailure NodeLists :=
  edits.foldlM ListEdit.apply s

end PyTorchCore.IrGraph
