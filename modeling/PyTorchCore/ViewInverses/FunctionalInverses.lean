import Mathlib.Algebra.Ring.Int.Defs
import PyTorchCore.ViewInverses.TensorShape

/-!
# View inverses

The inverse of a view operator gets the base, a tensor of the shape of the view, and the
arguments of the operator.  It gives the base in which the elements that the view sees are
overwritten.
-/

namespace PyTorchCore.ViewInverses

open Lib

variable {V : Type}

namespace Tensor

def viewAs (t : Tensor V) (view : Option View) : Option (Tensor V) :=
  view.map t.take

/-- `copy_` of a tensor into a part of another one, one element after the other. -/
def copyInto (t : Tensor V) (view : View) (src : Tensor V) : Tensor V where
  toGeometry := t.toGeometry
  elem := (indices view.sizes).foldl
    (fun elem index => Function.update elem (view.sees index) (src.elem index)) t.elem

/-- A clone in which a part is overwritten. -/
def scatter (self src : Tensor V) (slice : Option View) : Option (Tensor V) := do
  let slice ← slice
  guard (slice.sizes = src.sizes)
  return self.copyInto slice src

def diagonalScatter (self src : Tensor V) (offset dim1 dim2 : Int) : Option (Tensor V) :=
  self.scatter src (diagonal self.toGeometry offset dim1 dim2)

def selectScatter (self src : Tensor V) (dim index : Int) : Option (Tensor V) :=
  self.scatter src (select self.toGeometry dim index)

def sliceScatter (self src : Tensor V) (dim : Int) (start stop : Option Int) (step : Int) :
    Option (Tensor V) :=
  self.scatter src (slice self.toGeometry dim start stop step)

end Tensor

open Tensor

section Inverses

def invertPermutation (dims : List Int) : Option (List Nat) :=
  (dims.zipIdx).foldlM
    (fun inverse d => (maybeWrapDim d.1 dims.length).map fun dim => inverse.set dim d.2)
    (List.replicate dims.length 0)

def permuteInverse (self : Tensor V) (dims : List Int) : Option (Tensor V) := do
  let dims_ ← invertPermutation dims
  self.viewAs (permute self.toGeometry (dims_.map Int.ofNat))

/-- `unsqueeze_to` for the dimensions from `dim` on. -/
def unsqueezeFrom (result : Tensor V) : List Nat → Nat → Option (Tensor V)
  | [], _ => some result
  | s :: sizes, dim =>
    if s = 1 then do
      let result ← result.viewAs (unsqueeze result.toGeometry dim)
      unsqueezeFrom result sizes (dim + 1)
    else unsqueezeFrom result sizes (dim + 1)

def unsqueezeTo (self : Tensor V) (sizes : List Nat) : Option (Tensor V) :=
  unsqueezeFrom self sizes 0

/-- `unsqueeze_to` for one dimension. -/
def unsqueezeToDim (self : Tensor V) (dim : Int) (sizes : List Nat) : Option (Tensor V) := do
  let dim ← maybeWrapDim dim sizes.length
  if sizes.length > 0 ∧ sizes.getD dim 0 = 1 then
    self.viewAs (unsqueeze self.toGeometry dim)
  else
    return self

end Inverses

section Reductions

variable [AddCommMonoid V]

def reduceIndex (reduceDims index : List Nat) : List Nat :=
  index.mapIdx fun d i => if d ∈ reduceDims then 0 else i

/-- `sum` with `keepdim`. -/
def sumKeepdim (t : Tensor V) (reduceDims : List Nat) : Tensor V where
  toGeometry := Geometry.contiguous
    (t.sizes.mapIdx fun d s => if d ∈ reduceDims then 1 else s)
  elem := fun index =>
    (((indices t.sizes).filter fun i => reduceIndex reduceDims i = index).map t.elem).sum

/-- `sum` of all elements. -/
def sumAll (t : Tensor V) : Tensor V where
  toGeometry := Geometry.contiguous []
  elem := fun _ => ((indices t.sizes).map t.elem).sum

/-- The dimensions that `sum_to` adds up. -/
def reduceDims (sizes shape : List Nat) : List Nat :=
  let leadingDims := sizes.length - shape.length
  List.range leadingDims
    ++ (List.range' leadingDims (sizes.length - leadingDims)).filter
      fun i => shape.getD (i - leadingDims) 0 = 1 ∧ sizes.getD i 0 ≠ 1

def sumTo (tensor : Tensor V) (shape : List Nat) : Option (Tensor V) :=
  if shape = [] then some (sumAll tensor)
  else
    let reduced := reduceDims tensor.sizes shape
    let sum := if reduced ≠ [] then sumKeepdim tensor reduced else tensor
    if tensor.sizes.length - shape.length > 0 then
      sum.viewAs (view sum.toGeometry (shape.map Int.ofNat))
    else some sum

/-- The folds that an element is in, for a step that is less than their size. -/
def foldsOf (size step foldCount i : Nat) : List Nat :=
  let left := if i > size then (i - size) / step else 0
  let left := if left * step ≤ i ∧ i < left * step + size then left else left + 1
  let right := i / step
  let right := if right ≥ foldCount then foldCount - 1 else right
  List.range' left (right + 1 - left)

def unfoldBackward (grad : Tensor V) (inputSizes : List Nat) (dim size step : Int) :
    Option (Tensor V) := do
  let dim ← maybeWrapDim dim inputSizes.length
  let size := size.toNat
  let step := step.toNat
  let zeros : Tensor V := { Geometry.contiguous inputSizes with elem := fun _ => 0 }
  if step ≥ size then
    return { zeros with
      elem := (indices grad.sizes).foldl
        (fun elem index => Function.update elem
          (index.dropLast.set dim (index.getD dim 0 * step + index.getLastD 0)) (grad.elem index))
        zeros.elem }
  else
    let foldCount := grad.sizes.getD dim 1
    return { zeros with
      elem := fun index =>
        let i := index.getD dim 0
        if i < min (inputSizes.getD dim 1) ((foldCount - 1) * step + size) then
          ((foldsOf size step foldCount i).map fun fold =>
            grad.elem (index.set dim fold ++ [i - fold * step])).sum
        else 0 }

end Reductions

/-- A view operator with its arguments.  An operator with several outputs comes with the number
of one of them. -/
inductive ViewOp where
  | diagonal (offset dim1 dim2 : Int)
  | expand (size : List Int) (implicit : Bool)
  | permute (dims : List Int)
  | reshapeAlias (size stride : List Nat)
  | select (dim index : Int)
  | slice (dim : Int) (start stop : Option Int) (step : Int)
  | split (mutatedViewIdx : Nat) (splitSize dim : Int)
  | splitWithSizes (mutatedViewIdx : Nat) (splitSizes : List Int) (dim : Int)
  | squeeze
  | squeezeDim (dim : Int)
  | t
  | transpose (dim0 dim1 : Int)
  | unsqueeze (dim : Int)
  | unbind (mutatedViewIdx : Nat) (dim : Int)
  | view (size : List Int)
  | unfold (dimension size step : Int)
  | alias_
  | detach
deriving DecidableEq

namespace ViewOp

/-- The output of a view operator. -/
def apply (g : Geometry) : ViewOp → Option View
  | .diagonal offset dim1 dim2 => ViewInverses.diagonal g offset dim1 dim2
  | .expand size _ => ViewInverses.expand g size
  | .permute dims => ViewInverses.permute g dims
  | .reshapeAlias size stride => ViewInverses.reshapeAlias g size stride
  | .select dim index => ViewInverses.select g dim index
  | .slice dim start stop step => ViewInverses.slice g dim start stop step
  | .split mutatedViewIdx splitSize dim =>
    (ViewInverses.split g splitSize dim).bind (·[mutatedViewIdx]?)
  | .splitWithSizes mutatedViewIdx splitSizes dim =>
    (ViewInverses.splitWithSizes g splitSizes dim).bind (·[mutatedViewIdx]?)
  | .squeeze => some (ViewInverses.squeeze g)
  | .squeezeDim dim => ViewInverses.squeezeDim g dim
  | .t => ViewInverses.t g
  | .transpose dim0 dim1 => ViewInverses.transpose g dim0 dim1
  | .unsqueeze dim => ViewInverses.unsqueeze g dim
  | .unbind mutatedViewIdx dim => (ViewInverses.unbind g dim).bind (·[mutatedViewIdx]?)
  | .view size => ViewInverses.view g size
  | .unfold dimension size step => ViewInverses.unfold g dimension size step
  | .alias_ => some (ViewInverses.alias_ g)
  | .detach => some (ViewInverses.detach g)

variable [AddCommMonoid V]

def inverse (base mutatedView : Tensor V) : ViewOp → Option (Tensor V)
  | .diagonal offset dim1 dim2 => base.diagonalScatter mutatedView offset dim1 dim2
  | .expand _ _ => sumTo mutatedView base.sizes
  | .permute dims => permuteInverse mutatedView dims
  | .reshapeAlias _ _ =>
    mutatedView.viewAs (reshape mutatedView.toGeometry (base.sizes.map Int.ofNat))
  | .select dim index => base.selectScatter mutatedView dim index
  | .slice dim start stop step => base.sliceScatter mutatedView dim start stop step
  | .split mutatedViewIdx splitSize dim => do
    let dim ← maybeWrapDim dim base.dim
    let dimSize : Int ← base.size dim
    let start := mutatedViewIdx * splitSize
    let stop := start + splitSize
    let stop := if stop > dimSize then dimSize else stop
    base.sliceScatter mutatedView dim (some start) (some stop) 1
  | .splitWithSizes mutatedViewIdx splitSizes dim => do
    let dim ← maybeWrapDim dim base.dim
    let dimSize : Int ← base.size dim
    let start := (splitSizes.take mutatedViewIdx).sum
    let stop := start + splitSizes.getD mutatedViewIdx 0
    let stop := if stop > dimSize then dimSize else stop
    base.sliceScatter mutatedView dim (some start) (some stop) 1
  | .squeeze => unsqueezeTo mutatedView base.sizes
  | .squeezeDim dim => unsqueezeToDim mutatedView dim base.sizes
  | .t => mutatedView.viewAs (ViewInverses.t mutatedView.toGeometry)
  | .transpose dim0 dim1 =>
    mutatedView.viewAs (ViewInverses.transpose mutatedView.toGeometry dim0 dim1)
  | .unsqueeze dim => mutatedView.viewAs (ViewInverses.squeezeDim mutatedView.toGeometry dim)
  | .unbind mutatedViewIdx dim => do
    let dim ← maybeWrapDim dim base.dim
    base.selectScatter mutatedView dim mutatedViewIdx
  | .view _ =>
    mutatedView.viewAs (ViewInverses.view mutatedView.toGeometry (base.sizes.map Int.ofNat))
  | .unfold dimension size step => unfoldBackward mutatedView base.sizes dimension size step
  | .alias_ => some mutatedView
  | .detach => some mutatedView

end ViewOp

end PyTorchCore.ViewInverses
