import PyTorchCore.Functionalization.Wrapper
import PyTorchCore.Lib.Machine

/-!
# Programs with views

In its ordinary meaning a tensor is a part of a memory: its view operators see the memory of their
base, and an in-place operator overwrites the elements that its tensor sees.
-/

namespace PyTorchCore.Functionalization

open Lib

universe u

/-- A tensor as a part of a memory. -/
structure Geometry where
  storage : Nat
  sizes : List Nat
  sees : List Nat

/-- The memories and the tensors that were made so far. -/
structure Eager (V : Type u) where
  memory : Nat → Tensor V
  storages : Nat
  tensor : Nat → Geometry
  tensors : Nat

variable {V : Type u} [Inhabited V]

namespace Eager

/-- No tensor. -/
def empty : Eager V where
  memory := fun _ => { sizes := [], elems := [] }
  storages := 0
  tensor := fun _ => { storage := 0, sizes := [], sees := [] }
  tensors := 0

def read (e : Eager V) (w : Nat) : Tensor V where
  sizes := (e.tensor w).sizes
  elems := select (e.memory (e.tensor w).storage).elems (e.tensor w).sees

/-- A tensor with a memory of its own. -/
def allocate (t : Tensor V) (e : Eager V) : Eager V where
  memory := Function.update e.memory e.storages t
  storages := e.storages + 1
  tensor := Function.update e.tensor e.tensors
    { storage := e.storages, sizes := t.sizes, sees := List.range t.elems.length }
  tensors := e.tensors + 1

/-- The part of a part of a memory. -/
def viewOf (e : Eager V) (base : Nat) (view : View) : Geometry where
  storage := (e.tensor base).storage
  sizes := view.sizes
  sees := select (e.tensor base).sees view.sees

/-- A tensor that shares the memory of its base. -/
def addView (base : Nat) (view : View) (e : Eager V) : Eager V :=
  { e with
    tensor := Function.update e.tensor e.tensors (e.viewOf base view)
    tensors := e.tensors + 1 }

/-- The elements that a tensor sees are overwritten. -/
def write (self : Nat) (t : Tensor V) (e : Eager V) : Eager V :=
  let k := (e.tensor self).storage
  { e with
    memory := Function.update e.memory k
      { e.memory k with elems := overwrite (e.memory k).elems (e.tensor self).sees t.elems } }

end Eager

/-- An operation of a program. -/
inductive Instr (V : Type u) where
  | call (op : List (IValue (Tensor V)) → List (IValue (Tensor V))) (arguments : List (IValue Nat))
  | view (op : ViewOp) (base : Nat)
  | inplace (op : Tensor V → List (IValue (Tensor V)) → Tensor V) (self : Nat)
      (args : List (IValue Nat))
  | inplaceView (newView : View) (self : Nat)
  | sync (w : Nat)

namespace Instr

/-- The value that an in-place operator writes. -/
def written (e : Eager V) (op : Tensor V → List (IValue (Tensor V)) → Tensor V) (self : Nat)
    (args : List (IValue Nat)) : Tensor V :=
  op (e.read self) (args.map (IValue.mapTo e.read))

/-- An operation, in its ordinary meaning. -/
def eager (e : Eager V) : Instr V → Eager V
  | .call op arguments =>
    ((op (arguments.map (IValue.mapTo e.read))).flatMap IValue.toList).foldl
      (fun e t => e.allocate t) e
  | .view op base => op.foldl (fun e output => e.addView base output) e
  | .inplace op self args => e.write self (written e op self args)
  | .inplaceView newView self =>
    { e with tensor := Function.update e.tensor self (e.viewOf self newView) }
  | .sync _ => e

/-- An operation on wrappers. -/
def functionalized (s : State V) : Instr V → State V
  | .call op arguments => s.functionalizeFallback op arguments
  | .view op base => s.viewKernel op base
  | .inplace op self args => s.inplaceKernel op self args
  | .inplaceView newView self => s.inplaceViewKernel newView self
  | .sync w => s.sync w

def operands : Instr V → List Nat
  | .call _ arguments => arguments.flatMap IValue.toList
  | .view _ base => [base]
  | .inplace _ self args => self :: args.flatMap IValue.toList
  | .inplaceView _ self => [self]
  | .sync w => [w]

/-- The tensors exist, a view sees elements of its base, and an in-place operator writes a
tensor of the same size. -/
def Legal (e : Eager V) (i : Instr V) : Prop :=
  (∀ w ∈ i.operands, w < e.tensors) ∧
    match i with
    | .view op base => ∀ output ∈ op, InRange (e.tensor base).sees.length output.sees
    | .inplaceView newView self => InRange (e.tensor self).sees.length newView.sees
    | .inplace op self args =>
      (written e op self args).sizes = (e.tensor self).sizes ∧
        (written e op self args).elems.length = (e.tensor self).sees.length
    | _ => True

/-- No update is pending when a tensor is viewed in place, and no in-place operator writes
through a view that repeats an element. -/
def Replayable (s : State V) : Instr V → Prop
  | .inplaceView _ self => (s.aliasOf self).updates = []
  | .inplace _ self _ => ∀ m ∈ (s.wrapper self).viewMetas, m.view.sees.Nodup
  | _ => True

instance (e : Eager V) : (i : Instr V) → Decidable (i.Legal e)
  | .call .. => inferInstanceAs (Decidable (_ ∧ True))
  | .view op base => inferInstanceAs (Decidable (_ ∧
      ∀ output ∈ op, InRange (e.tensor base).sees.length output.sees))
  | .inplace .. => inferInstanceAs (Decidable (_ ∧ (_ = _ ∧ _ = _)))
  | .inplaceView .. => inferInstanceAs (Decidable (_ ∧ InRange _ _))
  | .sync _ => inferInstanceAs (Decidable (_ ∧ True))

instance (s : State V) : (i : Instr V) → Decidable (i.Replayable s)
  | .call .. => .isTrue trivial
  | .view .. => .isTrue trivial
  | .inplace .. => inferInstanceAs (Decidable (∀ m ∈ _, _))
  | .inplaceView .. => inferInstanceAs (Decidable (_ = _))
  | .sync _ => .isTrue trivial

end Instr

/-- Both meanings of a program. -/
def runs (V : Type u) [Inhabited V] : Machine (State V × Eager V) (Instr V) Unit where
  init := (State.empty, Eager.empty)
  step := fun (s, e) i => ((i.functionalized s, i.eager e), ())

/-- After `sync` every wrapper has the value of its tensor, and the updates that were committed
make the base the memory. -/
def Preserved (s : State V) (e : Eager V) : Prop :=
  s.wrappers = e.tensors ∧ (∀ w, w < e.tensors → ((s.sync w).wrapper w).value = e.read w) ∧
    ∀ k, k < e.storages → (s.storage k).applyUpdates.base = e.memory k

end PyTorchCore.Functionalization
