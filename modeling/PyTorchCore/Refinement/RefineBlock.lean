import PyTorchCore.Refinement.ValueRefinement

/-!
# The refiners

`IntegerValueRefiner` and `ListLenRefiner` walk over the nodes of a block and of the blocks of
every `prim::If` once, with a stack of active refinements. What both do is one definition,
`refineBlock`, in which the places where they differ are functions of the refiner.

A `prim::Loop` is not entered.
-/

namespace PyTorchCore.Refinement

open Jit

variable {X W E : Type} {M : Memory X W}

/-- The passes; the lists of the second one are `lists_to_refine_`. -/
inductive Refiner
  | integers
  | lengths (lists : Nat → Bool)

def ListRefinement.single (v : Nat) (k : Int) : ListRefinement :=
  Function.update ListRefinement.empty v (some k)

/-- `tryFindRefinement`; the refinements of the outermost block come first. -/
def tryFindRefinement (active : List ListRefinement) (v : Nat) : Option Int :=
  active.findSome? (· v)

section Comparisons

/-- What a comparison refines that has this value on one side: the value itself, or the list
whose length it is. -/
def Refiner.key (refiner : Refiner) (st : Refs X) (v : Nat) : Option Nat :=
  match refiner with
  | .integers => some v
  | .lengths lists => (st.lenOf v).filter lists

def Refiner.learnFromSide (refiner : Refiner) (eq : Bool) (constInput nonConstInput output : Nat)
    (st : Refs X) : Refs X :=
  match st.constInt constInput, refiner.key st nonConstInput with
  | some k, some v =>
    st.setInfo output
      (if eq then .trueRefinements (.single v k) else .falseRefinements (.single v k))
  | _, _ => st

def Refiner.learnComparison (refiner : Refiner) (op : Op M E) (inputs outputs : List Nat)
    (st : Refs X) : Refs X :=
  match op, inputs, outputs with
  | .compareInt eq, [a, b], [o] =>
    refiner.learnFromSide eq b a o (refiner.learnFromSide eq a b o st)
  | _, _, _ => st

end Comparisons

section Replacements

/-- The inputs of a node that are refined integers: the constants that are inserted, from `fresh`
on, and the replacement of its inputs. -/
def refineInputs (isInt : Nat → Bool) (find : Nat → Option Int) :
    List Nat → (Nat → Nat) → Nat → List Int × (Nat → Nat)
  | [], replaced, _ => ([], replaced)
  | v :: vs, replaced, fresh =>
    match if isInt (replaced v) then find (replaced v) else none with
    | some k =>
      let rest := refineInputs isInt find vs
        (fun w => if replaced w = replaced v then fresh else replaced w) (fresh + 1)
      (k :: rest.1, rest.2)
    | none => refineInputs isInt find vs replaced fresh

/-- The outputs of a block that are refined integers: the constants that are inserted at its
end, and its outputs. -/
def refineOutputs (isInt : Nat → Bool) (find : Nat → Option Int) :
    List Nat → Nat → List Int × List Nat
  | [], _ => ([], [])
  | v :: vs, fresh =>
    match if isInt v then find v else none with
    | some k =>
      let rest := refineOutputs isInt find vs (fresh + 1)
      (k :: rest.1, fresh :: rest.2)
    | none =>
      let rest := refineOutputs isInt find vs fresh
      (rest.1, v :: rest.2)

/-- Only integers are replaced in the inputs of nodes. -/
def Refiner.refineInputs (refiner : Refiner) (types : Types) (active : List ListRefinement)
    (inputs : List Nat) (fresh : Nat) : List Int × (Nat → Nat) :=
  match refiner with
  | .integers =>
    Refinement.refineInputs types.isInt (tryFindRefinement active) inputs id fresh
  | .lengths _ => ([], id)

/-- Only integers are replaced in the outputs of blocks. -/
def Refiner.refineOutputs (refiner : Refiner) (types : Types) (active : List ListRefinement)
    (outputs : List Nat) (fresh : Nat) : List Int × List Nat :=
  match refiner with
  | .integers => Refinement.refineOutputs types.isInt (tryFindRefinement active) outputs fresh
  | .lengths _ => ([], outputs)

def Refiner.knownLen (refiner : Refiner) (active : List ListRefinement) (op : Op M E)
    (inputs : List Nat) : Option Int :=
  match refiner, op, inputs with
  | .lengths _, .len, [l] => tryFindRefinement active l
  | _, _, _ => none

def Refs.insertConstants (st : Refs X) (ks : List Int) : Refs X :=
  ks.foldl Refs.insertConstant st

/-- The nodes of inserted constants; the first one is the value `fresh`. -/
def insertConstants (fresh : Nat) : List Int → Nodes Nat (Op M E) → Nodes Nat (Op M E)
  | [], next => next
  | k :: ks, next => .op fresh (.constant (.int k)) [] [fresh] (insertConstants (fresh + 1) ks next)

end Replacements

section Operators

/-- The node of the output of a constant or of a length. -/
def Refs.register (op : Op M E) (inputs outputs : List Nat) (st : Refs X) : Refs X :=
  match op, inputs, outputs with
  | .constant c, _, [o] => { st with constant := Function.update st.constant o (some c) }
  | .len, [l], [o] => { st with lenOf := Function.update st.lenOf o (some l) }
  | _, _, _ => st

/-- What becomes of a node without blocks. -/
structure Visit (X : Type) where
  /-- The constants that are inserted before the node. -/
  constants : List Int
  inputs : List Nat
  throws : Bool
  st : Refs X

def Refs.replaceLen (st : Refs X) (outputs : List Nat) (known : Option Int) : Refs X :=
  match known, outputs with
  | some k, [o] => (st.insertConstant k).replaceAllUsesWith o st.fresh
  | some k, _ => st.insertConstant k
  | none, _ => st

/-- A node without blocks. -/
def Refiner.visit (refiner : Refiner) (types : Types) (active : List ListRefinement)
    (op : Op M E) (inputs outputs : List Nat) (st : Refs X) : Visit X :=
  let used := inputs.map st.subst
  let learned := refiner.learnComparison op used outputs st
  let refined := refiner.refineInputs types active used learned.fresh
  let used := used.map refined.2
  let known := refiner.knownLen active op used
  let replaced := (learned.insertConstants refined.1).replaceLen outputs known
  let handled := handleCommonRefinentOperators types op used outputs replaced
  { constants := refined.1 ++ known.toList
    inputs := used
    throws := handled.2
    st := handled.1.register op used outputs }

end Operators

section Branches

/-- What is known in a block of a `prim::If`. -/
def Refs.conditionRefinements (st : Refs X) (cond : Nat) (b : Bool) : ListRefinement :=
  match st.info cond with
  | some m => m.side b
  | none => .empty

/-- The outputs of the blocks of a `prim::If`. -/
def withOutputs : List (Join Nat) → List Nat → List Nat → List (Join Nat)
  | j :: joins, t :: ts, e :: es =>
    { j with thenOutput := t, elseOutput := e } :: withOutputs joins ts es
  | _, _, _ => []

/-- `removeIfNodeOutputsWithRefinements` for one `block_index`. -/
def removeOutputs (isInt : Nat → Bool) (scope : List Nat) (source other : Join Nat → Nat)
    (otherBlock : ListRefinement) : List (Join Nat) → Refs X → Refs X
  | [], st => st
  | j :: joins, st =>
    removeOutputs isInt scope source other otherBlock joins
      (match st.constInt (other j), otherBlock (source j) with
        | some k, some k' =>
          if isInt (source j) ∧ source j ∈ scope ∧ (st.constant (source j)).isNone ∧ k' = k then
            st.replaceAllUsesWith j.output (source j)
          else st
        | _, _ => st)

def Refiner.removeIfNodeOutputsWithRefinements (refiner : Refiner) (types : Types)
    (scope : List Nat) (trueBlock falseBlock : ListRefinement) (joins : List (Join Nat))
    (st : Refs X) : Refs X :=
  match refiner with
  | .integers =>
    removeOutputs types.isInt scope Join.elseOutput Join.thenOutput trueBlock joins
      (removeOutputs types.isInt scope Join.thenOutput Join.elseOutput falseBlock joins st)
  | .lengths _ => st

end Branches

def replaceUses (subst : Nat → Nat) : Nodes Nat (Op M E) → Nodes Nat (Op M E)
  | .nil => .nil
  | .op id op inputs outputs next => .op id op (inputs.map subst) outputs (replaceUses subst next)
  | .ifThenElse id cond joins thenNodes elseNodes next =>
    .ifThenElse id (subst cond)
      (joins.map fun j =>
        { j with thenOutput := subst j.thenOutput, elseOutput := subst j.elseOutput })
      (replaceUses subst thenNodes) (replaceUses subst elseNodes) (replaceUses subst next)
  | .loop id maxTrip cond trip blockCond carries body next =>
    .loop id (subst maxTrip) (subst cond) trip (subst blockCond)
      (carries.map fun c =>
        { c with initial := subst c.initial, blockOutput := subst c.blockOutput })
      (replaceUses subst body) (replaceUses subst next)

/-- A block after the walk, with the refinements behind its nodes. -/
structure Refined {X W : Type} (M : Memory X W) (E : Type) where
  nodes : Nodes Nat (Op M E)
  outputs : List Nat
  refinements : ListRefinement
  throws : Bool
  st : Refs X

/-- What is done behind the blocks of a `prim::If`. -/
def Refiner.leaveIf (refiner : Refiner) (types : Types) (scope : List Nat)
    (joins : List (Join Nat)) (curr : ListRefinement) (trueBlock falseBlock : Refined M E) :
    ListRefinement × Bool × Refs X :=
  joinIfRefinements types joins trueBlock.throws falseBlock.throws curr trueBlock.refinements
    falseBlock.refinements
    (refiner.removeIfNodeOutputsWithRefinements types scope trueBlock.refinements
      falseBlock.refinements joins falseBlock.st)

/-- The walk over a block. `outer` are the active refinements of the blocks around it, and `curr`
those of the block. -/
def refineBlock (refiner : Refiner) (types : Types) : Nodes Nat (Op M E) → List Nat → List Nat →
    List ListRefinement → ListRefinement → Refs X → Refined M E
  | .nil, outputs, _, outer, curr, st =>
    let refined := refiner.refineOutputs types (outer ++ [curr]) (outputs.map st.subst) st.fresh
    { nodes := insertConstants st.fresh refined.1 .nil
      outputs := refined.2
      refinements := curr
      throws := false
      st := st.insertConstants refined.1 }
  | .op id op inputs outs next, outputs, scope, outer, curr, st =>
    let visited := refiner.visit types (outer ++ [curr]) op inputs outs st
    let rest := refineBlock refiner types next outputs (outs ++ scope) outer curr visited.st
    { rest with
      nodes := insertConstants st.fresh visited.constants
        (.op id op visited.inputs outs rest.nodes)
      throws := visited.throws || rest.throws }
  | .ifThenElse id cond joins thenNodes elseNodes next, outputs, scope, outer, curr, st =>
    let refined := refiner.refineInputs types (outer ++ [curr]) [st.subst cond] st.fresh
    let used := refined.2 (st.subst cond)
    let inserted := st.insertConstants refined.1
    let trueBlock := refineBlock refiner types thenNodes (joins.map Join.thenOutput) scope
      (outer ++ [curr]) (inserted.conditionRefinements used true) inserted
    let falseBlock := refineBlock refiner types elseNodes (joins.map Join.elseOutput) scope
      (outer ++ [curr]) (trueBlock.st.conditionRefinements used false) trueBlock.st
    let joins' := withOutputs joins trueBlock.outputs falseBlock.outputs
    let joined := refiner.leaveIf types scope joins' curr trueBlock falseBlock
    let rest := refineBlock refiner types next outputs (joins.map Join.output ++ scope) outer
      joined.1 joined.2.2
    { rest with
      nodes := insertConstants st.fresh refined.1
        (.ifThenElse id used joins' trueBlock.nodes falseBlock.nodes rest.nodes)
      throws := joined.2.1 || rest.throws }
  | .loop id maxTrip cond trip blockCond carries body next, outputs, scope, outer, curr, st =>
    let refined := refiner.refineInputs types (outer ++ [curr])
      ((maxTrip :: cond :: carries.map Carry.initial).map st.subst) st.fresh
    let used := fun v => refined.2 (st.subst v)
    let rest := refineBlock refiner types next outputs (carries.map Carry.output ++ scope) outer
      curr (st.insertConstants refined.1)
    { rest with
      nodes := insertConstants st.fresh refined.1
        (.loop id (used maxTrip) (used cond) trip (st.subst blockCond)
          (carries.map fun c =>
            { c with initial := used c.initial, blockOutput := st.subst c.blockOutput })
          (replaceUses st.subst body) rest.nodes) }

/-- `P` holds of the active refinements and the state at every point of the walk that an execution
of the nodes reaches. -/
def AtEveryPoint (refiner : Refiner) (types : Types)
    (P : List ListRefinement → State X W → Prop) : Nodes Nat (Op M E) → List Nat →
    List ListRefinement → ListRefinement → Refs X → State X W → Prop
  | .nil, _, outer, curr, _, s => P (outer ++ [curr]) s
  | .op _ op inputs outs next, scope, outer, curr, st, s =>
    let visited := refiner.visit types (outer ++ [curr]) op inputs outs st
    P (outer ++ [curr]) s ∧
      ((s.perform op inputs outs).outcome = .finished →
        AtEveryPoint refiner types P next (outs ++ scope) outer curr visited.st
          (s.perform op inputs outs).state)
  | .ifThenElse _ cond joins thenNodes elseNodes next, scope, outer, curr, st, s =>
    let refined := refiner.refineInputs types (outer ++ [curr]) [st.subst cond] st.fresh
    let used := refined.2 (st.subst cond)
    let inserted := st.insertConstants refined.1
    let trueBlock := refineBlock refiner types thenNodes (joins.map Join.thenOutput) scope
      (outer ++ [curr]) (inserted.conditionRefinements used true) inserted
    let falseBlock := refineBlock refiner types elseNodes (joins.map Join.elseOutput) scope
      (outer ++ [curr]) (trueBlock.st.conditionRefinements used false) trueBlock.st
    let joins' := withOutputs joins trueBlock.outputs falseBlock.outputs
    let joined := refiner.leaveIf types scope joins' curr trueBlock falseBlock
    let behind := fun (r : Result X W E) (sources : List Nat) => r.outcome = .finished →
      (r.state.move sources (joins.map Join.output) : Result X W E).outcome = .finished →
        AtEveryPoint refiner types P next (joins.map Join.output ++ scope) outer joined.1
          joined.2.2 (r.state.move sources (joins.map Join.output) : Result X W E).state
    P (outer ++ [curr]) s ∧
      match s.env cond with
      | some (.bool true) =>
        AtEveryPoint refiner types P thenNodes scope (outer ++ [curr])
            (inserted.conditionRefinements used true) inserted s ∧
          behind (run thenNodes s) (joins.map Join.thenOutput)
      | some (.bool false) =>
        AtEveryPoint refiner types P elseNodes scope (outer ++ [curr])
            (trueBlock.st.conditionRefinements used false) trueBlock.st s ∧
          behind (run elseNodes s) (joins.map Join.elseOutput)
      | _ => True
  | .loop _ maxTrip cond trip blockCond carries body next, scope, outer, curr, st, s =>
    let refined := refiner.refineInputs types (outer ++ [curr])
      ((maxTrip :: cond :: carries.map Carry.initial).map st.subst) st.fresh
    P (outer ++ [curr]) s ∧
      ((runLoop (run body) maxTrip cond trip blockCond carries s).outcome = .finished →
        AtEveryPoint refiner types P next (carries.map Carry.output ++ scope) outer curr
          (st.insertConstants refined.1)
          (runLoop (run body) maxTrip cond trip blockCond carries s).state)

def RefineIntegerValues (types : Types) (nodes : Nodes Nat (Op M E)) (outputs scope : List Nat)
    (outer : List ListRefinement) (refinements : ListRefinement) (st : Refs X) : Refined M E :=
  refineBlock .integers types nodes outputs scope outer refinements st

def RefineListLens (lists : Nat → Bool) (types : Types) (nodes : Nodes Nat (Op M E))
    (outputs scope : List Nat) (outer : List ListRefinement) (refinements : ListRefinement)
    (st : Refs X) : Refined M E :=
  refineBlock (.lengths lists) types nodes outputs scope outer refinements st

end PyTorchCore.Refinement
