import Mathlib.Data.Nat.Notation
import Mathlib.Logic.Function.Basic

/-!
# The node graph of the JIT IR

Nodes, values and blocks are records behind pointers; a node keeps its inputs, and a value its
uses. The edits of `Node` change both sides by hand: offsets of shifted inputs are patched one use
at a time, each found by `findUseForInput`.

A pointer that was freed is never handed out again. An edit raises where an assertion of the
source fails, where `findUseForInput` finds nothing, or where an argument was freed.
-/

namespace PyTorchCore.IrGraph

/-- Pointers. -/
abbrev NodeId := ℕ
abbrev ValueId := ℕ
abbrev BlockId := ℕ

/-- `Use`: a node and a position among its inputs. -/
structure Use where
  user : NodeId
  offset : ℕ
deriving DecidableEq, Repr

/-- `Value`, with the node that produces it. -/
structure Value where
  node : NodeId
  offset : ℕ
  uses : List Use

/-- `Node`.  While an edit is under way an input can be the null pointer. -/
structure Node where
  inputs : List (Option ValueId)
  outputs : List ValueId
  blocks : List BlockId
  owningBlock : Option BlockId

/-- `Block`, with its Param node, its Return node and the nodes between them. -/
structure Block where
  param : NodeId
  ret : NodeId
  nodes : List NodeId

/-- What an edit can raise. -/
inductive Failure where
  /-- An assertion on the arguments. -/
  | assertion
  /-- `findUseForInput` runs to the end of the list. -/
  | useNotFound
  /-- An argument was freed. -/
  | dangling
  /-- The blocks nest deeper than the fuel. -/
  | nesting
deriving DecidableEq, Repr

/-- `Graph`: the live nodes, values and blocks. -/
structure Graph where
  nodes : NodeId → Option Node
  values : ValueId → Option Value
  blocks : BlockId → Option Block
  nextNode : ℕ
  nextValue : ℕ
  nextBlock : ℕ

/-- A graph without nodes. -/
def Graph.empty : Graph where
  nodes _ := none
  values _ := none
  blocks _ := none
  nextNode := 0
  nextValue := 0
  nextBlock := 0

namespace Graph

/-- Follow a pointer. -/
def get {α : Type} : Option α → Except Failure α
  | some a => .ok a
  | none => .error .dangling

/-- `AT_ASSERT`. -/
def assert (cond : Bool) : Except Failure Unit :=
  if cond then .ok () else .error .assertion

variable (g : Graph)

def setNode (n : NodeId) (rec : Node) : Graph :=
  { g with nodes := Function.update g.nodes n (some rec) }

def setValue (v : ValueId) (rec : Value) : Graph :=
  { g with values := Function.update g.values v (some rec) }

def setBlock (b : BlockId) (rec : Block) : Graph :=
  { g with blocks := Function.update g.blocks b (some rec) }

def inputAt (n : NodeId) (i : ℕ) : Option ValueId :=
  (g.nodes n).bind fun rec => (rec.inputs[i]?).join

/-- `Node::findUseForInput`: the value at a position and its record, provided the use is in its
list. -/
def findUseForInput (n : NodeId) (i : ℕ) : Except Failure (ValueId × Value) :=
  match g.inputAt n i with
  | none => .error .useNotFound
  | some v =>
    match g.values v with
    | none => .error .useNotFound
    | some value =>
      if (⟨n, i⟩ : Use) ∈ value.uses then .ok (v, value) else .error .useNotFound

/-- `findUseForInput(i)->offset = offset`. -/
def moveUse (n : NodeId) (i offset : ℕ) : Except Failure Graph := do
  let (v, value) ← g.findUseForInput n i
  pure (g.setValue v { value with uses := value.uses.replace ⟨n, i⟩ ⟨n, offset⟩ })

/-- Append a use to a value's list. -/
def addUse (v : ValueId) (use : Use) : Except Failure Graph := do
  let value ← get (g.values v)
  pure (g.setValue v { value with uses := value.uses ++ [use] })

/-- `Node::dropInput`: the use is erased and the input is null. -/
def dropInput (n : NodeId) (i : ℕ) : Except Failure Graph := do
  let node ← get (g.nodes n)
  assert (i < node.inputs.length)
  let (v, value) ← g.findUseForInput n i
  let g := g.setValue v { value with uses := value.uses.erase ⟨n, i⟩ }
  pure (g.setNode n { node with inputs := node.inputs.set i none })

/-- `Node::insertInput`: the uses behind the position move up one by one. -/
def insertInput (n : NodeId) (i : ℕ) (v : ValueId) : Except Failure Graph := do
  let node ← get (g.nodes n)
  assert (i ≤ node.inputs.length)
  let g ← (List.range' i (node.inputs.length - i)).foldlM
    (fun g use => g.moveUse n use (use + 1)) g
  let g := g.setNode n { node with inputs := node.inputs.insertIdx i (some v) }
  g.addUse v ⟨n, i⟩

def addInput (n : NodeId) (v : ValueId) : Except Failure Graph := do
  let node ← get (g.nodes n)
  let g ← g.addUse v ⟨n, node.inputs.length⟩
  pure (g.setNode n { node with inputs := node.inputs ++ [some v] })

def replaceInput (n : NodeId) (i : ℕ) (newValue : ValueId) : Except Failure Graph := do
  let g ← g.dropInput n i
  let node ← get (g.nodes n)
  let g := g.setNode n { node with inputs := node.inputs.set i (some newValue) }
  g.addUse newValue ⟨n, i⟩

/-- `Node::replaceInputWith`: the loop reads the inputs while it replaces them. -/
def replaceInputWith (n : NodeId) (src dst : ValueId) : Except Failure Graph := do
  let node ← get (g.nodes n)
  (List.range node.inputs.length).foldlM
    (fun g i => if g.inputAt n i = some src then g.replaceInput n i dst else pure g) g

/-- `Node::removeInput`: the uses behind the position move down one by one. -/
def removeInput (n : NodeId) (i : ℕ) : Except Failure Graph := do
  let g ← g.dropInput n i
  let node ← get (g.nodes n)
  let g ← (List.range' (i + 1) (node.inputs.length - (i + 1))).foldlM
    (fun g j => g.moveUse n j (j - 1)) g
  pure (g.setNode n { node with inputs := node.inputs.eraseIdx i })

def removeAllInputs (n : NodeId) : Except Failure Graph := do
  let node ← get (g.nodes n)
  let g ← (List.range node.inputs.length).foldlM (fun g i => g.dropInput n i) g
  let node ← get (g.nodes n)
  pure (g.setNode n { node with inputs := [] })

/-- One round of `permuteInputs`: `at` raises behind the end, the assertion on a position
taken before. -/
def permuteInput (n : NodeId) (state : Graph × List (Option ValueId)) (move : ℕ × ℕ) :
    Except Failure (Graph × List (Option ValueId)) := do
  let (g, newInputs) := state
  let node ← get (g.nodes n)
  assert (move.1 < node.inputs.length)
  assert (g.inputAt n move.1).isSome
  let newInputs := newInputs ++ [g.inputAt n move.1]
  let g ← g.moveUse n move.1 move.2
  pure (g.setNode n { node with inputs := node.inputs.set move.1 none }, newInputs)

def permuteInputs (n : NodeId) (newOrder : List ℕ) : Except Failure Graph := do
  let node ← get (g.nodes n)
  assert (newOrder.length = node.inputs.length)
  let (g, newInputs) ← newOrder.zipIdx.foldlM (permuteInput n) (g, [])
  let node ← get (g.nodes n)
  pure (g.setNode n { node with inputs := newInputs })

/-- `new Value(node, offset)`. -/
def newValue (n : NodeId) (offset : ℕ) : Graph :=
  { g.setValue g.nextValue ⟨n, offset, []⟩ with nextValue := g.nextValue + 1 }

def setOffset (v : ValueId) (f : ℕ → ℕ) : Except Failure Graph := do
  let value ← get (g.values v)
  pure (g.setValue v { value with offset := f value.offset })

def addOutput (n : NodeId) : Except Failure Graph := do
  let node ← get (g.nodes n)
  pure ((g.newValue n node.outputs.length).setNode n
    { node with outputs := node.outputs ++ [g.nextValue] })

def insertOutput (n : NodeId) (i : ℕ) : Except Failure Graph := do
  let node ← get (g.nodes n)
  assert (i ≤ node.outputs.length)
  let outputs := node.outputs.insertIdx i g.nextValue
  (outputs.drop (i + 1)).foldlM (fun g v => g.setOffset v (· + 1))
    ((g.newValue n i).setNode n { node with outputs })

def eraseOutput (n : NodeId) (i : ℕ) : Except Failure Graph := do
  let node ← get (g.nodes n)
  assert (i < node.outputs.length)
  let v ← get (node.outputs[i]?)
  let value ← get (g.values v)
  assert value.uses.isEmpty
  let outputs := node.outputs.eraseIdx i
  let g := { g.setNode n { node with outputs } with
    values := Function.update g.values v none }
  (outputs.drop i).foldlM (fun g v => g.setOffset v (· - 1)) g

/-- One round of `permuteOutputs`; what is left of the old outputs is null where a
position was taken. -/
def permuteOutput (state : Graph × List (Option ValueId) × List ValueId) (move : ℕ × ℕ) :
    Except Failure (Graph × List (Option ValueId) × List ValueId) := do
  let (g, outputs, newOutputs) := state
  assert (move.1 < outputs.length)
  match (outputs[move.1]?).join with
  | none => .error .assertion
  | some v =>
    let g ← g.setOffset v (fun _ => move.2)
    pure (g, outputs.set move.1 none, newOutputs ++ [v])

def permuteOutputs (n : NodeId) (newOrder : List ℕ) : Except Failure Graph := do
  let node ← get (g.nodes n)
  assert (newOrder.length = node.outputs.length)
  let (g, _, newOutputs) ← newOrder.zipIdx.foldlM permuteOutput (g, node.outputs.map some, [])
  pure (g.setNode n { node with outputs := newOutputs })

/-- `Node::removeAllOutputs`, from the last output to the first. -/
def removeAllOutputs (n : NodeId) : Except Failure Graph := do
  let node ← get (g.nodes n)
  (List.range node.outputs.length).reverse.foldlM (fun g i => g.eraseOutput n i) g

/-- `new Node(graph, kind)`: the node is not yet in a block. -/
def newNode : Graph :=
  { g.setNode g.nextNode ⟨[], [], [], none⟩ with nextNode := g.nextNode + 1 }

/-- `Graph::create` without inputs. -/
def create (numOutputs : ℕ) : Except Failure Graph :=
  (List.range numOutputs).foldlM (fun h _ => h.addOutput g.nextNode) g.newNode

/-- `Node::addBlock`: the block brings its Return and its Param node. -/
def addBlock (n : NodeId) : Except Failure Graph := do
  let node ← get (g.nodes n)
  let ret := g.nextNode
  let g := g.newNode
  let param := g.nextNode
  let g := g.newNode
  let b := g.nextBlock
  let g := { g.setBlock b ⟨param, ret, []⟩ with nextBlock := b + 1 }
  let g := (g.setNode ret ⟨[], [], [], some b⟩).setNode param ⟨[], [], [], some b⟩
  pure (g.setNode n { node with blocks := node.blocks ++ [b] })

def appendNode (b : BlockId) (n : NodeId) : Except Failure Graph := do
  let node ← get (g.nodes n)
  assert node.owningBlock.isNone
  let block ← get (g.blocks b)
  let g := g.setBlock b { block with nodes := block.nodes ++ [n] }
  pure (g.setNode n { node with owningBlock := some b })

def removeFromList (n : NodeId) : Except Failure Graph := do
  let node ← get (g.nodes n)
  let b ← get node.owningBlock
  let block ← get (g.blocks b)
  let g := g.setBlock b { block with nodes := block.nodes.erase n }
  pure (g.setNode n { node with owningBlock := none })

/-- A destroyed node leaves its list, if it is in one. -/
def unlist (n : NodeId) : Except Failure Graph := do
  let node ← get (g.nodes n)
  if node.owningBlock.isSome then g.removeFromList n else pure g

def freeNode (n : NodeId) : Except Failure Graph := do
  let _ ← get (g.nodes n)
  pure { g with nodes := Function.update g.nodes n none }

/-- `Node::destroy`, `eraseBlock` and `Block::destroy`: the blocks are destroyed from the last one
on, each with its nodes from the last one on and then its Return and its Param node. -/
def destroyWith : ℕ → Graph → NodeId → Except Failure Graph
  | 0, _, _ => .error .nesting
  | fuel + 1, g, n => do
    let g ← g.removeAllOutputs n
    let node ← get (g.nodes n)
    let g ← node.blocks.reverse.foldlM (fun g b => do
      let node ← get (g.nodes n)
      let g := g.setNode n { node with blocks := node.blocks.dropLast }
      let block ← get (g.blocks b)
      let g ← g.removeAllInputs block.ret
      let g ← block.nodes.reverse.foldlM (destroyWith fuel) g
      let g ← destroyWith fuel g block.ret
      let g ← destroyWith fuel g block.param
      pure { g with blocks := Function.update g.blocks b none }) g
    let g ← g.removeAllInputs n
    let g ← g.unlist n
    g.freeNode n

end Graph

/-- The edits of a node, and those that make and place nodes. -/
inductive Edit where
  | create (numOutputs : ℕ)
  | addBlock (n : NodeId)
  | appendNode (b : BlockId) (n : NodeId)
  | removeFromList (n : NodeId)
  | addInput (n : NodeId) (v : ValueId)
  | insertInput (n : NodeId) (i : ℕ) (v : ValueId)
  | replaceInput (n : NodeId) (i : ℕ) (newValue : ValueId)
  | replaceInputWith (n : NodeId) (src dst : ValueId)
  | removeInput (n : NodeId) (i : ℕ)
  | removeAllInputs (n : NodeId)
  | permuteInputs (n : NodeId) (newOrder : List ℕ)
  | addOutput (n : NodeId)
  | insertOutput (n : NodeId) (i : ℕ)
  | eraseOutput (n : NodeId) (i : ℕ)
  | removeAllOutputs (n : NodeId)
  | permuteOutputs (n : NodeId) (newOrder : List ℕ)
  | destroy (n : NodeId)

/-- Carry out one edit; the fuel is for `destroy`. -/
def Edit.apply (fuel : ℕ) (g : Graph) : Edit → Except Failure Graph
  | .create numOutputs => g.create numOutputs
  | .addBlock n => g.addBlock n
  | .appendNode b n => g.appendNode b n
  | .removeFromList n => g.removeFromList n
  | .addInput n v => g.addInput n v
  | .insertInput n i v => g.insertInput n i v
  | .replaceInput n i newValue => g.replaceInput n i newValue
  | .replaceInputWith n src dst => g.replaceInputWith n src dst
  | .removeInput n i => g.removeInput n i
  | .removeAllInputs n => g.removeAllInputs n
  | .permuteInputs n newOrder => g.permuteInputs n newOrder
  | .addOutput n => g.addOutput n
  | .insertOutput n i => g.insertOutput n i
  | .eraseOutput n i => g.eraseOutput n i
  | .removeAllOutputs n => g.removeAllOutputs n
  | .permuteOutputs n newOrder => g.permuteOutputs n newOrder
  | .destroy n => Graph.destroyWith fuel g n

/-- A run of edits; it ends with the first that raises. -/
def run (fuel : ℕ) (g : Graph) (edits : List Edit) : Except Failure Graph :=
  edits.foldlM (Edit.apply fuel) g

end PyTorchCore.IrGraph
