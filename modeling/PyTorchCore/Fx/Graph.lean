import PyTorchCore.Fx.Argument
import PyTorchCore.Lib.LinkedRing
import PyTorchCore.Lib.Machine

/-!
# FX graphs

The nodes of a `Graph` are a ring of objects, linked in both directions through a root that is not
a node of the graph. The objects are numbered in the order of their creation, the root first, and
the fields of a node are maps from its number.
-/

namespace PyTorchCore.Fx

open Lib

universe u v

inductive Op
  | placeholder
  | callMethod
  | callModule
  | callFunction
  | getAttr
  | output
  | root
deriving DecidableEq

inductive Target (F : Type v) where
  | callable (f : F)
  | str (name : String)

/-- The check of `Node.__init__`. -/
def Op.accepts {F : Type v} : Op → Target F → Bool
  | .callFunction, .callable _ => true
  | .callFunction, .str _ => false
  | _, .callable _ => false
  | _, .str _ => true

/-- `_insert`, a bound method. -/
inductive InsertPoint
  | prepend (n : Nat)
  | append (n : Nat)

def InsertPoint.node : InsertPoint → Nat
  | .prepend n => n
  | .append n => n

/-- A graph with its nodes.  `points` are the `orig_insert` of the `_InsertPoint` objects that
were made. -/
structure Graph (C : Type u) (F : Type v) where
  op : Nat → Op
  target : Nat → Target F
  args : Nat → List (Argument C)
  kwargs : Nat → List (String × Argument C)
  inputNodes : Nat → List Nat
  users : Nat → List Nat
  prev : Nat → Nat
  next : Nat → Nat
  erased : Nat → Bool
  size : Nat
  len : Int
  insert : InsertPoint
  points : List InsertPoint

namespace Graph

variable {C : Type u} {F : Type v}

def root : Nat := 0

/-- `Graph()`. -/
def empty : Graph C F where
  op := fun _ => .root
  target := fun _ => .str ""
  args := fun _ => []
  kwargs := fun _ => []
  inputNodes := fun _ => []
  users := fun _ => []
  prev := fun n => n
  next := fun n => n
  erased := fun _ => false
  size := 1
  len := 0
  insert := .prepend root
  points := []

def removeFromList (self : Nat) (g : Graph C F) : Graph C F :=
  let p := g.prev self
  let n := g.next self
  { g with next := Function.update g.next p n, prev := Function.update g.prev n p }

def prepend (self x : Nat) (g : Graph C F) : Graph C F :=
  if self = x then g
  else
    let g := g.removeFromList x
    let p := g.prev self
    { g with
      next := Function.update (Function.update g.next p x) x self
      prev := Function.update (Function.update g.prev x p) self x }

def append (self x : Nat) (g : Graph C F) : Graph C F :=
  g.prepend (g.next self) x

/-- `old_use.users.pop(self)`, for all nodes of a list. -/
def popUsers (self : Nat) : List Nat → Graph C F → Except (Graph C F) (Graph C F)
  | [], g => .ok g
  | oldUse :: rest, g =>
    if self ∈ g.users oldUse then
      popUsers self rest
        { g with users := Function.update g.users oldUse ((g.users oldUse).erase self) }
    else .error g

/-- `new_use.users.setdefault(self)`, for all nodes of a list. -/
def addUsers (self : Nat) (newUses : List Nat) (g : Graph C F) : Graph C F :=
  newUses.foldl (fun g newUse =>
    { g with users := Function.update g.users newUse (setdefault self (g.users newUse)) }) g

def updateArgsKwargs (self : Nat) (newArgs : List (Argument C))
    (newKwargs : List (String × Argument C)) (g : Graph C F) : Except (Graph C F) (Graph C F) := do
  let g := { g with
    args := Function.update g.args self newArgs
    kwargs := Function.update g.kwargs self newKwargs }
  let g ← g.popUsers self (g.inputNodes self)
  let inputs := inputNodesOf newArgs newKwargs
  pure ({ g with inputNodes := Function.update g.inputNodes self inputs }.addUsers self inputs)

/-- Assignment to `args`. -/
def setArgs (self : Nat) (a : List (Argument C)) (g : Graph C F) :
    Except (Graph C F) (Graph C F) :=
  g.updateArgsKwargs self (mapArgs .node a) (g.kwargs self)

/-- Assignment to `kwargs`. -/
def setKwargs (self : Nat) (k : List (String × Argument C)) (g : Graph C F) :
    Except (Graph C F) (Graph C F) :=
  g.updateArgsKwargs self (g.args self) (mapItems .node k)

/-- An index into a list, which counts from the end if it is negative. -/
def listIndex (length : Nat) (idx : Int) : Option Nat :=
  let i := if idx < 0 then idx + length else idx
  if 0 ≤ i ∧ i < length then some i.toNat else none

def updateArg (self : Nat) (idx : Int) (arg : Argument C) (g : Graph C F) :
    Except (Graph C F) (Graph C F) :=
  match listIndex (g.args self).length idx with
  | none => .error g
  | some i => g.setArgs self ((g.args self).set i arg)

/-- Assignment to an item of a dict. -/
def dictSet (key : String) (arg : Argument C) :
    List (String × Argument C) → List (String × Argument C)
  | [] => [(key, arg)]
  | item :: rest => if item.1 = key then (key, arg) :: rest else item :: dictSet key arg rest

def updateKwarg (self : Nat) (key : String) (arg : Argument C) (g : Graph C F) :
    Except (Graph C F) (Graph C F) :=
  g.setKwargs self (dictSet key arg (g.kwargs self))

def maybeReplaceNode (old new n : Nat) : Argument C :=
  .node (if n = old then new else n)

def replaceInputWith (self oldInput newInput : Nat) (g : Graph C F) :
    Except (Graph C F) (Graph C F) :=
  g.updateArgsKwargs self (mapArgs (maybeReplaceNode oldInput newInput) (g.args self))
    (mapItems (maybeReplaceNode oldInput newInput) (g.kwargs self))

/-- The loop of `replace_all_uses_with`. -/
def replaceUses (self replaceWith : Nat) :
    List Nat → Graph C F → Except (Graph C F) (Graph C F)
  | [], g => .ok g
  | useNode :: rest, g => do
    let g ← g.replaceInputWith useNode self replaceWith
    replaceUses self replaceWith rest g

def replaceAllUsesWith (self replaceWith : Nat) (g : Graph C F) :
    Except (Graph C F) (Graph C F) := do
  let g ← g.replaceUses self replaceWith (g.users self)
  if g.users self = [] then pure g else throw g

/-- `_insert(n)`. -/
def insertNode (n : Nat) (g : Graph C F) : Graph C F :=
  match g.insert with
  | .prepend self => g.prepend self n
  | .append self => g.append self n

/-- A new object, as `Node.__init__` makes it. -/
def newNode (op : Op) (target : Target F) (args : List (Argument C))
    (kwargs : List (String × Argument C)) (g : Graph C F) : Except (Graph C F) (Graph C F) := do
  let n := g.size
  if op = .root ∨ op.accepts target = false then throw g
  let g := { g with
    op := Function.update g.op n op
    target := Function.update g.target n target
    inputNodes := Function.update g.inputNodes n []
    size := n + 1 }
  let g ← g.updateArgsKwargs n (mapArgs .node args) (mapItems .node kwargs)
  pure { g with
    users := Function.update g.users n []
    prev := Function.update g.prev n n
    next := Function.update g.next n n
    erased := Function.update g.erased n false }

def createNode (op : Op) (target : Target F) (args : Option (List (Argument C)))
    (kwargs : Option (List (String × Argument C))) (g : Graph C F) :
    Except (Graph C F) (Graph C F) := do
  let n := g.size
  let g ← g.newNode op target (args.getD []) (kwargs.getD [])
  let g := g.insertNode n
  pure { g with len := g.len + 1 }

def eraseNode (toErase : Nat) (g : Graph C F) : Except (Graph C F) (Graph C F) := do
  if g.users toErase ≠ [] then throw g
  let g := g.removeFromList toErase
  let g := { g with erased := Function.update g.erased toErase true, len := g.len - 1 }
  let g ← g.setArgs toErase (mapArgs (fun _ => .none) (g.args toErase))
  g.setKwargs toErase (mapItems (fun _ => .none) (g.kwargs toErase))

/-- A new `_InsertPoint`. -/
def setInsert (point : InsertPoint) (g : Graph C F) : Graph C F :=
  { g with insert := point, points := g.points ++ [g.insert] }

def insertingBefore (n : Option Nat) (g : Graph C F) : Graph C F :=
  match n with
  | none => g.setInsert (.append root)
  | some n => g.setInsert (.prepend n)

def insertingAfter (n : Option Nat) (g : Graph C F) : Graph C F :=
  match n with
  | none => g.setInsert (.prepend root)
  | some n => g.setInsert (.append n)

/-- `_InsertPoint.__exit__`. -/
def exitInsertPoint (point : Nat) (g : Graph C F) : Graph C F :=
  match g.points[point]? with
  | none => g
  | some origInsert => { g with insert := origInsert }

/-- A node of the graph that is not erased. -/
def Live (g : Graph C F) (n : Nat) : Prop :=
  root < n ∧ n < g.size ∧ g.erased n = false

instance (g : Graph C F) (n : Nat) : Decidable (g.Live n) :=
  inferInstanceAs (Decidable (_ ∧ _ ∧ _))

end Graph

/-- The operations on a graph and its nodes. -/
inductive Action (C : Type u) (F : Type v) where
  | createNode (op : Op) (target : Target F) (args : Option (List (Argument C)))
      (kwargs : Option (List (String × Argument C)))
  | eraseNode (toErase : Nat)
  | prepend (self x : Nat)
  | append (self x : Nat)
  | setArgs (self : Nat) (a : List (Argument C))
  | setKwargs (self : Nat) (k : List (String × Argument C))
  | updateArg (self : Nat) (idx : Int) (arg : Argument C)
  | updateKwarg (self : Nat) (key : String) (arg : Argument C)
  | replaceAllUsesWith (self replaceWith : Nat)
  | replaceInputWith (self oldInput newInput : Nat)
  | insertingBefore (n : Option Nat)
  | insertingAfter (n : Option Nat)
  | exitInsertPoint (point : Nat)

/-- An operation returns, or it raises. -/
inductive Outcome
  | done
  | raised
deriving DecidableEq

section Steps

variable {C : Type u} {F : Type v}

/-- One operation. -/
def Action.run (g : Graph C F) : Action C F → Except (Graph C F) (Graph C F)
  | .createNode op target args kwargs => g.createNode op target args kwargs
  | .eraseNode toErase => g.eraseNode toErase
  | .prepend self x => .ok (g.prepend self x)
  | .append self x => .ok (g.append self x)
  | .setArgs self a => g.setArgs self a
  | .setKwargs self k => g.setKwargs self k
  | .updateArg self idx arg => g.updateArg self idx arg
  | .updateKwarg self key arg => g.updateKwarg self key arg
  | .replaceAllUsesWith self replaceWith => g.replaceAllUsesWith self replaceWith
  | .replaceInputWith self oldInput newInput => g.replaceInputWith self oldInput newInput
  | .insertingBefore n => .ok (g.insertingBefore n)
  | .insertingAfter n => .ok (g.insertingAfter n)
  | .exitInsertPoint point => .ok (g.exitInsertPoint point)

def editing (C : Type u) (F : Type v) : Machine (Graph C F) (Action C F) Outcome where
  init := Graph.empty
  step g action :=
    match action.run g with
    | .ok g => (g, .done)
    | .error g => (g, .raised)

/-- The objects in the arguments that an operation is given. -/
def Action.argumentNodes : Action C F → List Nat
  | .createNode _ _ args kwargs => nodesOfArgs (args.getD []) ++ nodesOfItems (kwargs.getD [])
  | .setArgs _ a => nodesOfArgs a
  | .setKwargs _ k => nodesOfItems k
  | .updateArg _ _ arg => arg.nodes
  | .updateKwarg _ _ arg => arg.nodes
  | _ => []

/-- The nodes that an operation is applied to. -/
def Action.operands : Action C F → List Nat
  | .createNode .. => []
  | .eraseNode toErase => [toErase]
  | .prepend self x => [self, x]
  | .append self x => [self, x]
  | .setArgs self _ => [self]
  | .setKwargs self _ => [self]
  | .updateArg self _ _ => [self]
  | .updateKwarg self _ _ => [self]
  | .replaceAllUsesWith self replaceWith => [self, replaceWith]
  | .replaceInputWith self oldInput newInput => [self, oldInput, newInput]
  | .insertingBefore n => n.toList
  | .insertingAfter n => n.toList
  | .exitInsertPoint _ => []

/-- A node is replaced by another one. -/
def Action.replacesByOther : Action C F → Bool
  | .replaceAllUsesWith self replaceWith => self ≠ replaceWith
  | _ => true

/-- The operation is applied to nodes that are not erased; the objects in its arguments
exist. -/
def Action.Applies (g : Graph C F) (action : Action C F) : Prop :=
  (∀ n ∈ action.operands, g.Live n) ∧ (∀ n ∈ action.argumentNodes, n < g.size) ∧
    action.replacesByOther = true

/-- A new node goes in front of the root, behind it, or next to a node that is not erased. -/
def Action.Placed (g : Graph C F) : Action C F → Prop
  | .createNode .. => g.insert.node = Graph.root ∨ g.Live g.insert.node
  | _ => True

instance (g : Graph C F) (action : Action C F) : Decidable (action.Applies g) :=
  inferInstanceAs (Decidable (_ ∧ _ ∧ _))

instance (g : Graph C F) : (action : Action C F) → Decidable (action.Placed g)
  | .createNode .. => inferInstanceAs (Decidable (_ ∨ _))
  | .eraseNode .. | .prepend .. | .append .. | .setArgs .. | .setKwargs .. | .updateArg ..
  | .updateKwarg .. | .replaceAllUsesWith .. | .replaceInputWith .. | .insertingBefore ..
  | .insertingAfter .. | .exitInsertPoint .. => .isTrue trivial

end Steps

end PyTorchCore.Fx
