import Mathlib.Data.List.Nodup

/-!
# Graphs of the JIT

The IR that the passes work on: a block is a list of nodes, and a node is an
operator, a `prim::If` with two blocks or a `prim::Loop` with one.  What is known of
an operator is a parameter.  The outputs of a `prim::If` and the values that a
`prim::Loop` carries are listed together with the values of the blocks that belong to
them by position.

A graph carries what the JIT's lint checks: every value is defined once, and used only in its
scope.
-/

namespace PyTorchCore.Jit

open List

universe u v

/-- An output of a `prim::If`, with the outputs of the two blocks in its position. -/
structure Join (V : Type u) where
  output : V
  thenOutput : V
  elseOutput : V
deriving DecidableEq

/-- A value that a `prim::Loop` carries: the input and the output of the node, and the
input and the output of its block. -/
structure Carry (V : Type u) where
  initial : V
  blockInput : V
  blockOutput : V
  output : V
deriving DecidableEq

/-- The nodes of a block, each with the ones behind it.  The number of a node stands
for its address. -/
inductive Nodes (V : Type u) (Op : Type v)
  | nil
  | op (id : Nat) (o : Op) (inputs outputs : List V) (next : Nodes V Op)
  /-- `prim::If`. -/
  | ifThenElse (id : Nat) (cond : V) (joins : List (Join V)) (thenNodes elseNodes : Nodes V Op)
      (next : Nodes V Op)
  /-- `prim::Loop`; its block takes the trip count and returns the next condition. -/
  | loop (id : Nat) (maxTrip cond trip blockCond : V) (carries : List (Carry V))
      (body : Nodes V Op) (next : Nodes V Op)
deriving DecidableEq

namespace Nodes

variable {V : Type u} {Op : Type v}

/-- The values that are in scope behind the nodes. -/
def topDefs : Nodes V Op → List V
  | nil => []
  | op _ _ _ outputs next => outputs ++ next.topDefs
  | ifThenElse _ _ joins _ _ next => joins.map Join.output ++ next.topDefs
  | loop _ _ _ _ _ carries _ next => carries.map Carry.output ++ next.topDefs

/-- All values that the nodes and their blocks define. -/
def defs : Nodes V Op → List V
  | nil => []
  | op _ _ _ outputs next => outputs ++ next.defs
  | ifThenElse _ _ joins thenNodes elseNodes next =>
    thenNodes.defs ++ elseNodes.defs ++ joins.map Join.output ++ next.defs
  | loop _ _ _ trip _ carries body next =>
    trip :: carries.map Carry.blockInput ++ body.defs ++ carries.map Carry.output ++ next.defs

/-- Every use is in the scope of the definition.  `scope` are the values defined
before. -/
def Scoped : List V → Nodes V Op → Prop
  | _, nil => True
  | scope, op _ _ inputs outputs next =>
    (∀ v ∈ inputs, v ∈ scope) ∧ next.Scoped (outputs ++ scope)
  | scope, ifThenElse _ cond joins thenNodes elseNodes next =>
    cond ∈ scope ∧ thenNodes.Scoped scope ∧ elseNodes.Scoped scope ∧
      (∀ join ∈ joins, join.thenOutput ∈ thenNodes.topDefs ++ scope) ∧
      (∀ join ∈ joins, join.elseOutput ∈ elseNodes.topDefs ++ scope) ∧
      next.Scoped (joins.map Join.output ++ scope)
  | scope, loop _ maxTrip cond trip blockCond carries body next =>
    let bodyScope := trip :: carries.map Carry.blockInput ++ scope
    maxTrip ∈ scope ∧ cond ∈ scope ∧ (∀ carry ∈ carries, carry.initial ∈ scope) ∧
      body.Scoped bodyScope ∧ blockCond ∈ body.topDefs ++ bodyScope ∧
      (∀ carry ∈ carries, carry.blockOutput ∈ body.topDefs ++ bodyScope) ∧
      next.Scoped (carries.map Carry.output ++ scope)

section Membership

variable {v : V} {id : Nat} {o : Op} {inputs outputs : List V} {joins : List (Join V)}
  {carries : List (Carry V)} {maxTrip cond trip blockCond : V}
  {thenNodes elseNodes body next : Nodes V Op}

theorem mem_defs_op : v ∈ (op id o inputs outputs next).defs ↔ v ∈ outputs ∨ v ∈ next.defs := by
  rw [defs, mem_append]

theorem mem_defs_ifThenElse : v ∈ (ifThenElse id cond joins thenNodes elseNodes next).defs ↔
      v ∈ thenNodes.defs ∨ v ∈ elseNodes.defs ∨ v ∈ joins.map Join.output ∨ v ∈ next.defs := by
  simp only [defs, mem_append, or_assoc]

/-- The definitions of a loop. -/
theorem mem_defs_loop : v ∈ (loop id maxTrip cond trip blockCond carries body next).defs ↔
      v = trip ∨ v ∈ carries.map Carry.blockInput ∨ v ∈ body.defs ∨
        v ∈ carries.map Carry.output ∨ v ∈ next.defs := by
  simp [defs]

end Membership

end Nodes

/-- A graph in SSA form. -/
structure Graph (V : Type u) (Op : Type v) where
  inputs : List V
  nodes : Nodes V Op
  outputs : List V
  defined_once : (inputs ++ nodes.defs).Nodup
  uses_scoped : nodes.Scoped inputs
  outputs_scoped : ∀ v ∈ outputs, v ∈ nodes.topDefs ++ inputs

end PyTorchCore.Jit
