import PyTorchCore.Lib.Overwrite

/-!
# Functionalization

A `FunctionalTensorWrapper` holds a value without aliases. The wrappers of one storage share an
`Alias`: a base tensor, the updates that were committed by in-place operators and not yet applied,
and a generation that counts the updates. A wrapper remembers the views that lead from the base to
it, and the generation of which its value is.

A view operator, with its arguments, is given by its outputs: the sizes of each and the elements
of the base that it sees.
-/

namespace PyTorchCore.Functionalization

open Lib

universe u v

structure Tensor (V : Type u) where
  sizes : List Nat
  elems : List V
deriving DecidableEq

/-- An output of a view operator. -/
structure View where
  sizes : List Nat
  sees : List Nat
deriving DecidableEq

/-- The outputs of a view operator. -/
abbrev ViewOp := List View

structure ViewMeta where
  op : ViewOp
  outIndex : Nat
deriving DecidableEq

/-- The output that a `ViewMeta` is for. -/
def ViewOp.output (op : ViewOp) (outIdx : Nat) : View :=
  op.getD outIdx { sizes := [], sees := [] }

/-- The output that a `ViewMeta` is for. -/
def ViewMeta.view (m : ViewMeta) : View :=
  m.op.output m.outIndex

variable {V : Type u} [Inhabited V]

/-- The elements that a view sees. -/
def View.apply (view : View) (base : Tensor V) : Tensor V where
  sizes := view.sizes
  elems := select base.elems view.sees

/-- The base with the elements that a view sees overwritten. -/
def View.writeBack (view : View) (base mutatedView : Tensor V) : Tensor V where
  sizes := base.sizes
  elems := overwrite base.elems view.sees mutatedView.elems

def ViewMeta.forwardFn (m : ViewMeta) (base : Tensor V) (outIdx : Nat) : Tensor V :=
  (m.op.output outIdx).apply base

def ViewMeta.reverseFn (m : ViewMeta) (base mutatedView : Tensor V) (outIdx : Nat) : Tensor V :=
  (m.op.output outIdx).writeBack base mutatedView

def ViewMeta.toOutIdx (m : ViewMeta) (outIdx : Nat) : ViewMeta :=
  if outIdx = m.outIndex then m else { m with outIndex := outIdx }

structure Update (V : Type u) where
  newVal : Tensor V
  viewMetas : List ViewMeta

structure Alias (V : Type u) where
  base : Tensor V
  updates : List (Update V)
  generation : Nat

/-- The bases of the views of an update: the loop that fills `tmp_values`. -/
def tmpValues (base : Tensor V) : List ViewMeta → List (Tensor V)
  | [] => []
  | m :: metas => base :: tmpValues (m.forwardFn base m.outIndex) metas

/-- `apply_update`.  The second loop goes through the views from the last to the first. -/
def applyUpdate (update : Update V) (base : Tensor V) : Tensor V :=
  (update.viewMetas.zip (tmpValues base update.viewMetas)).foldr
    (fun (m, tmpValue) t => m.reverseFn tmpValue t m.outIndex) update.newVal

def Alias.addUpdate (updatedVal : Tensor V) (metas : List ViewMeta) (a : Alias V) : Alias V :=
  { a with
    updates := a.updates ++ [{ newVal := updatedVal, viewMetas := metas }]
    generation := a.generation + 1 }

def Alias.applyUpdates (a : Alias V) : Alias V :=
  { a with
    base := a.updates.foldl (fun base update => applyUpdate update base) a.base
    updates := [] }

/-- `FunctionalTensorWrapper`; the storage is a number. -/
structure Wrapper (V : Type u) where
  value : Tensor V
  viewMetas : List ViewMeta
  generation : Nat
  storage : Nat

/-- The storages and the wrappers that were made so far. -/
structure State (V : Type u) where
  storage : Nat → Alias V
  storages : Nat
  wrapper : Nat → Wrapper V
  wrappers : Nat

namespace State

/-- No tensor. -/
def empty : State V where
  storage := fun _ => { base := { sizes := [], elems := [] }, updates := [], generation := 0 }
  storages := 0
  wrapper := fun _ =>
    { value := { sizes := [], elems := [] }, viewMetas := [], generation := 0, storage := 0 }
  wrappers := 0

def setWrapper (w : Nat) (wrapper : Wrapper V) (s : State V) : State V :=
  { s with wrapper := Function.update s.wrapper w wrapper }

def setStorage (k : Nat) (a : Alias V) (s : State V) : State V :=
  { s with storage := Function.update s.storage k a }

def aliasOf (s : State V) (w : Nat) : Alias V :=
  s.storage (s.wrapper w).storage

def replace (w : Nat) (other : Tensor V) (s : State V) : State V :=
  s.setWrapper w { s.wrapper w with value := other }

def commitUpdate (w : Nat) (s : State V) : State V :=
  let a := (s.aliasOf w).addUpdate (s.wrapper w).value (s.wrapper w).viewMetas
  (s.setStorage (s.wrapper w).storage a).setWrapper w
    { s.wrapper w with generation := a.generation }

def isUpToDate (s : State V) (w : Nat) : Bool :=
  (s.wrapper w).generation = (s.aliasOf w).generation

/-- The views, one after the other. -/
def replayViews (t : Tensor V) (metas : List ViewMeta) : Tensor V :=
  metas.foldl (fun t m => m.forwardFn t m.outIndex) t

def regenerateFromBase (w : Nat) (s : State V) : State V :=
  let t := replayViews (s.aliasOf w).base (s.wrapper w).viewMetas
  s.setWrapper w { s.wrapper w with value := t, generation := (s.aliasOf w).generation }

def applyUpdates (w : Nat) (s : State V) : State V :=
  s.setStorage (s.wrapper w).storage (s.aliasOf w).applyUpdates

def sync (w : Nat) (s : State V) : State V :=
  if s.isUpToDate w then s else (s.applyUpdates w).regenerateFromBase w

def mutateViewMeta (w : Nat) (m : ViewMeta) (s : State V) : State V :=
  (s.setWrapper w
    { s.wrapper w with viewMetas := (s.wrapper w).viewMetas ++ [m] }).regenerateFromBase w

/-- `to_functional_tensor`, which makes a new storage. -/
def toFunctionalTensor (t : Tensor V) (s : State V) : State V where
  storage := Function.update s.storage s.storages { base := t, updates := [], generation := 0 }
  storages := s.storages + 1
  wrapper := Function.update s.wrapper s.wrappers
    { value := t, viewMetas := [], generation := 0, storage := s.storages }
  wrappers := s.wrappers + 1

def createFunctionalTensorWithViewMeta (viewToWrap : Tensor V) (base : Nat) (m : ViewMeta)
    (outIdx : Nat) (s : State V) : State V where
  storage := s.storage
  storages := s.storages
  wrapper := Function.update s.wrapper s.wrappers
    { value := viewToWrap
      viewMetas := (s.wrapper base).viewMetas ++ [if outIdx ≠ 0 then m.toOutIdx outIdx else m]
      generation := 0
      storage := (s.wrapper base).storage }
  wrappers := s.wrappers + 1

end State

/-- An argument or a result of an operator. -/
inductive IValue (α : Type u) where
  | tensor (t : α)
  | tensorList (tensors : List α)

/-- The tensors of an argument or a result. -/
def IValue.toList {α : Type u} : IValue α → List α
  | .tensor t => [t]
  | .tensorList tensors => tensors

/-- The tensors of an argument are replaced. -/
def IValue.mapTo {α : Type u} {β : Type v} (f : α → β) : IValue α → IValue β
  | .tensor t => .tensor (f t)
  | .tensorList tensors => .tensorList (tensors.map f)

namespace State

/-- `sync` of the tensors of a list. -/
def syncAll (ws : List Nat) (s : State V) : State V :=
  ws.foldl (fun s w => s.sync w) s

def fromFunctionalTensor (s : State V) (arg : IValue Nat) : IValue (Tensor V) :=
  arg.mapTo (fun w => (s.wrapper w).value)

/-- The loop over the arguments in `functionalizeFallback`. -/
def unwrapArguments : List (IValue Nat) → State V → State V × List (IValue (Tensor V))
  | [], s => (s, [])
  | arg :: rest, s =>
    let s := s.syncAll arg.toList
    let value := s.fromFunctionalTensor arg
    let (s, values) := unwrapArguments rest s
    (s, value :: values)

/-- The loop over the results in `functionalizeFallback`. -/
def wrapReturns (returns : List (IValue (Tensor V))) (s : State V) : State V :=
  (returns.flatMap IValue.toList).foldl (fun s t => s.toFunctionalTensor t) s

def functionalizeFallback (op : List (IValue (Tensor V)) → List (IValue (Tensor V)))
    (arguments : List (IValue Nat)) (s : State V) : State V :=
  let (s, values) := s.unwrapArguments arguments
  s.wrapReturns (op values)

def viewKernel (op : ViewOp) (base : Nat) (s : State V) : State V :=
  let tmpOutput := op.map (fun view => view.apply (s.wrapper base).value)
  tmpOutput.zipIdx.foldl (fun s (viewToWrap, i) =>
    s.createFunctionalTensorWithViewMeta viewToWrap base { op := op, outIndex := 0 } i) s

def inplaceViewKernel (view : View) (self : Nat) (s : State V) : State V :=
  s.mutateViewMeta self { op := [view], outIndex := 0 }

/-- The kernel of an in-place operator that has an out-of-place variant. -/
def inplaceKernel (op : Tensor V → List (IValue (Tensor V)) → Tensor V) (self : Nat)
    (args : List (IValue Nat)) (s : State V) : State V :=
  let s := s.syncAll (self :: args.flatMap IValue.toList)
  let tmpOutput := op (s.wrapper self).value (args.map s.fromFunctionalTensor)
  (s.replace self tmpOutput).commitUpdate self

end State

end PyTorchCore.Functionalization
