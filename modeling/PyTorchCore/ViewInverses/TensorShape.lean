import PyTorchCore.Lib.MultiIndex

/-!
# View operators

A tensor is its sizes, its strides and its elements by index.  A view operator computes the sizes
and the strides of its output from those of its input, and every element of the output is an
element of the input.  `none` stands for a failed check.
-/

namespace PyTorchCore.ViewInverses

open Lib
open List

/-- The sizes and the strides of a tensor. -/
structure Geometry where
  sizes : List Nat
  strides : List Nat
  strides_length : strides.length = sizes.length
deriving DecidableEq

/-- A tensor that is seen through another one: the element at `index` is the element of the
other one at `sees index`. -/
structure View extends Geometry where
  sees : List Nat → List Nat

structure Tensor (V : Type) extends Geometry where
  elem : List Nat → V

def Tensor.take {V : Type} (t : Tensor V) (view : View) : Tensor V where
  toGeometry := view.toGeometry
  elem := fun index => t.elem (view.sees index)

def int64Max : Int := 2 ^ 63 - 1

def maybeWrapDim (dim : Int) (dimPostExpr : Nat) : Option Nat :=
  let n : Int := if dimPostExpr = 0 then 1 else dimPostExpr
  if dim < -n ∨ dim > n - 1 then none
  else some (if dim < 0 then dim + n else dim).toNat

namespace Geometry

/-- The number of dimensions. -/
def dim (self : Geometry) : Nat :=
  self.sizes.length

/-- The number of elements. -/
def numel (self : Geometry) : Nat :=
  self.sizes.prod

/-- The size of a dimension, which may be counted from the end. -/
def size (self : Geometry) (dim : Int) : Option Nat := do
  guard (self.dim ≠ 0)
  let dim ← maybeWrapDim dim self.dim
  return self.sizes.getD dim 0

/-- Strides of a tensor that is stored in row-major order. -/
def contiguousStrides : List Nat → List Nat
  | [] => []
  | [_] => [1]
  | _ :: s :: sizes =>
    let rest := contiguousStrides (s :: sizes)
    max s 1 * rest.headD 1 :: rest

/-- There is a stride for each size. -/
theorem length_contiguousStrides :
    (sizes : List Nat) → (contiguousStrides sizes).length = sizes.length
  | [] => rfl
  | [_] => rfl
  | _ :: s :: sizes => by
    rw [contiguousStrides, length_cons, length_contiguousStrides, length_cons]
    rfl

/-- A tensor that is stored in row-major order. -/
def contiguous (sizes : List Nat) : Geometry where
  sizes := sizes
  strides := contiguousStrides sizes
  strides_length := length_contiguousStrides sizes

/-- All of a tensor. -/
def whole (self : Geometry) : View :=
  { self with sees := id }

end Geometry

open ViewInverses.Geometry

section Strided

def diagonal (self : Geometry) (offset dim1_ dim2_ : Int) : Option View := do
  let dim1 ← maybeWrapDim dim1_ self.dim
  let dim2 ← maybeWrapDim dim2_ self.dim
  guard (dim1 ≠ dim2)
  let size1 : Int := self.sizes.getD dim1 0
  let size2 : Int := self.sizes.getD dim2 0
  let diagSize : Int :=
    if offset ≥ 0 then max (min size1 (size2 - offset)) 0
    else max (min (size1 + offset) size2) 0
  return {
    sizes := (self.sizes.eraseIdx (max dim1 dim2)).eraseIdx (min dim1 dim2) ++ [diagSize.toNat]
    strides := (self.strides.eraseIdx (max dim1 dim2)).eraseIdx (min dim1 dim2)
      ++ [self.strides.getD dim1 0 + self.strides.getD dim2 0]
    strides_length := by simp [List.length_eraseIdx, self.strides_length]
    sees := fun index =>
      let k := index.getLastD 0
      let row := if offset ≥ 0 then k else k + (-offset).toNat
      let column := if offset ≥ 0 then k + offset.toNat else k
      if dim1 < dim2 then (index.dropLast.insertIdx dim1 row).insertIdx dim2 column
      else (index.dropLast.insertIdx dim2 column).insertIdx dim1 row }

/-- The geometry that `inferExpandGeometry` gives to one dimension. -/
def inferExpandDim (size stride : Nat) (targetSize : Int) : Option (Nat × Nat) :=
  let targetSize := if targetSize = -1 then (size : Int) else targetSize
  if (size : Int) ≠ targetSize then
    if size = 1 ∧ 0 ≤ targetSize then some (targetSize.toNat, 0) else none
  else some (size, stride)

/-- The geometry of the dimensions that the tensor does not have. -/
def inferLeadingDim (nextStride : Nat) (targetSize : Int) : Option (Nat × Nat) :=
  if targetSize = -1 then none else inferExpandDim 1 nextStride targetSize

/-- The leading dimensions of an expanded tensor, the last one first. -/
def inferLeadingDims (targets : List Int) (next : Nat × Nat) : Option (List (Nat × Nat)) :=
  match targets with
  | [] => some []
  | target :: targets => do
    let first ← inferLeadingDim (next.1 * next.2) target
    let rest ← inferLeadingDims targets first
    return first :: rest

/-- `inferExpandGeometry`: the sizes and the strides of an expanded tensor. -/
def inferExpandGeometry (self : Geometry) (sizes : List Int) : Option (List (Nat × Nat)) := do
  if self.dim = 0 then
    return ← sizes.mapM fun s => if s ≥ 0 then some (s.toNat, 0) else none
  let leading := sizes.length - self.dim
  let own ← ((self.sizes.zip self.strides).zip (sizes.drop leading)).mapM
    fun d => inferExpandDim d.1.1 d.1.2 d.2
  let new ← inferLeadingDims (sizes.take leading).reverse (own.headD (1, 1))
  return new.reverse ++ own

def expand (self : Geometry) (size : List Int) : Option View := do
  guard (self.dim ≤ size.length)
  let dims ← inferExpandGeometry self size
  let leading := size.length - self.dim
  return {
    sizes := dims.map Prod.fst
    strides := dims.map Prod.snd
    strides_length := by simp
    sees := fun index =>
      List.zipWith (fun i s => if s = 1 then 0 else i) (index.drop leading) self.sizes }

def permute (self : Geometry) (dims : List Int) : Option View := do
  guard (dims.length = self.dim)
  let dims ← dims.mapM fun dim => maybeWrapDim dim self.dim
  guard dims.Nodup
  return {
    sizes := dims.map fun dim => self.sizes.getD dim 0
    strides := dims.map fun dim => self.strides.getD dim 0
    strides_length := by simp
    sees := fun index => (List.range self.dim).map fun dim => index.getD (dims.idxOf dim) 0 }

def select (self : Geometry) (dim index : Int) : Option View := do
  guard (self.dim ≠ 0)
  let dim ← maybeWrapDim dim self.dim
  let size : Int := self.sizes.getD dim 0
  guard (-size ≤ index ∧ index < size)
  let index := if index < 0 then index + size else index
  return {
    sizes := self.sizes.eraseIdx dim
    strides := self.strides.eraseIdx dim
    strides_length := by simp [List.length_eraseIdx, self.strides_length]
    sees := fun i => i.insertIdx dim index.toNat }

def slice (self : Geometry) (dim : Int) (start stop : Option Int) (step : Int) : Option View := do
  guard (self.dim ≠ 0)
  let dim ← maybeWrapDim dim self.dim
  let size : Int := self.sizes.getD dim 0
  let startVal := start.getD 0
  let endVal := stop.getD int64Max
  guard (step > 0)
  let startVal := if startVal = int64Max then 0 else startVal
  let startVal := if startVal < 0 then startVal + size else startVal
  let endVal := if endVal < 0 then endVal + size else endVal
  let startVal := if startVal < 0 then 0 else if startVal ≥ size then size else startVal
  let endVal := if endVal < startVal then startVal else if endVal ≥ size then size else endVal
  let len := endVal - startVal
  return {
    sizes := self.sizes.set dim ((len + step - 1) / step).toNat
    strides := self.strides.modify dim (· * step.toNat)
    strides_length := by simp [self.strides_length]
    sees := fun index => index.modify dim fun i => startVal.toNat + i * step.toNat }

/-- The start of a piece; the end of the dimension is a valid one. -/
def narrowStart (start : Int) (curSize : Nat) : Option Int :=
  if start ≠ curSize then (maybeWrapDim start curSize).map Int.ofNat else some start

def narrow (self : Geometry) (dim start length : Int) : Option View := do
  guard (self.dim > 0)
  let curSize ← self.size dim
  let start ← narrowStart start curSize
  guard (length ≥ 0 ∧ start ≤ curSize - length)
  slice self dim (some start) (some (start + length)) 1

def split (self : Geometry) (splitSize dim : Int) : Option (List View) := do
  guard (self.dim ≠ 0)
  guard (splitSize ≥ 0)
  let dimSize ← self.size dim
  guard (splitSize > 0 ∨ dimSize = 0)
  let numSplits : Int :=
    if splitSize ≠ 0 then max ((dimSize + splitSize - 1) / splitSize) 1 else 1
  let lastSplitSize := splitSize - (splitSize * numSplits - dimSize)
  (List.range numSplits.toNat).mapM fun (i : Nat) =>
    narrow self dim (i * splitSize) (if i < numSplits - 1 then splitSize else lastSplitSize)

/-- The pieces of `split_with_sizes` from `startIdx` on, and where the last one ends. -/
def splitPieces (self : Geometry) (dim : Int) : List Int → Int → Option (List View × Int)
  | [], startIdx => some ([], startIdx)
  | length :: splitSizes, startIdx => do
    guard (length ≥ 0)
    let piece ← narrow self dim startIdx length
    let (pieces, stop) ← splitPieces self dim splitSizes (startIdx + length)
    return (piece :: pieces, stop)

def splitWithSizes (self : Geometry) (splitSizes : List Int) (dim : Int) : Option (List View) := do
  guard (self.dim ≠ 0)
  let dimSize ← self.size dim
  let (pieces, stop) ← splitPieces self dim splitSizes 0
  guard (stop = dimSize)
  return pieces

def inferSqueezeGeometry : List Nat → List Nat → List Nat × List Nat
  | s :: sizes, stride :: strides =>
    let rest := inferSqueezeGeometry sizes strides
    if s ≠ 1 then (s :: rest.1, stride :: rest.2) else rest
  | _, _ => ([], [])

theorem length_inferSqueezeGeometry : (sizes strides : List Nat) →
    (inferSqueezeGeometry sizes strides).2.length = (inferSqueezeGeometry sizes strides).1.length
  | [], _ => rfl
  | _ :: _, [] => rfl
  | s :: sizes, stride :: strides => by
    rw [inferSqueezeGeometry]
    split
    · exact congrArg (· + 1) (length_inferSqueezeGeometry sizes strides)
    · exact length_inferSqueezeGeometry sizes strides

/-- An index with 0 in every dimension of size 1. -/
def restoreSqueezed : List Nat → List Nat → List Nat
  | [], _ => []
  | s :: sizes, index =>
    if s ≠ 1 then index.headD 0 :: restoreSqueezed sizes index.tail
    else 0 :: restoreSqueezed sizes index

def squeeze (self : Geometry) : View :=
  let g := inferSqueezeGeometry self.sizes self.strides
  { sizes := g.1
    strides := g.2
    strides_length := length_inferSqueezeGeometry self.sizes self.strides
    sees := restoreSqueezed self.sizes }

/-- `squeeze.dim`. -/
def squeezeDim (self : Geometry) (dim : Int) : Option View := do
  let dim ← maybeWrapDim dim self.dim
  if self.dim = 0 ∨ self.sizes.getD dim 0 ≠ 1 then
    return self.whole
  return {
    sizes := self.sizes.eraseIdx dim
    strides := self.strides.eraseIdx dim
    strides_length := by simp [List.length_eraseIdx, self.strides_length]
    sees := fun index => index.insertIdx dim 0 }

def unsqueeze (self : Geometry) (dim : Int) : Option View := do
  let dim ← maybeWrapDim dim (self.dim + 1)
  let newStride :=
    if dim ≥ self.dim then 1 else self.sizes.getD dim 0 * self.strides.getD dim 0
  return {
    sizes := self.sizes.insertIdx dim 1
    strides := self.strides.insertIdx dim newStride
    strides_length := by simp [List.length_insertIdx, self.strides_length]
    sees := fun index => index.eraseIdx dim }

/-- A list with the elements at two places exchanged. -/
def swapAt (xs : List Nat) (i j : Nat) : List Nat :=
  (xs.set i (xs.getD j 0)).set j (xs.getD i 0)

def transpose (self : Geometry) (dim0 dim1 : Int) : Option View := do
  let dim0 ← maybeWrapDim dim0 self.dim
  let dim1 ← maybeWrapDim dim1 self.dim
  if dim0 = dim1 then
    return self.whole
  return {
    sizes := swapAt self.sizes dim0 dim1
    strides := swapAt self.strides dim0 dim1
    strides_length := by simp [swapAt, self.strides_length]
    sees := fun index => swapAt index dim0 dim1 }

def t (self : Geometry) : Option View := do
  guard (self.dim ≤ 2)
  transpose self 0 (if self.dim < 2 then 0 else 1)

def unbind (self : Geometry) (dim : Int) : Option (List View) := do
  let dim ← maybeWrapDim dim self.dim
  let size ← self.size dim
  (List.range size).mapM fun (i : Nat) => select self dim i

def unfold (self : Geometry) (dimension size step : Int) : Option View := do
  let dimension ← maybeWrapDim dimension self.dim
  let maxSize : Int := if self.dim = 0 then 1 else self.sizes.getD dimension 0
  guard (size ≤ maxSize)
  guard (step > 0)
  guard (size ≥ 0)
  return {
    sizes := self.sizes.modify dimension (fun s => ((s - size) / step + 1).toNat)
      ++ [size.toNat]
    strides := self.strides.modify dimension (step.toNat * ·)
      ++ [if self.dim = 0 then 1 else self.strides.getD dimension 0]
    strides_length := by simp [self.strides_length]
    sees := fun index => index.dropLast.set dimension
      (index.getD dimension 0 * step.toNat + index.getLastD 0) }

def alias_ (self : Geometry) : View :=
  self.whole

def detach (self : Geometry) : View :=
  alias_ self

end Strided

section Reshaped

/-- The product of the sizes that are given, and whether one is to be inferred. -/
def knownSizes : List Int → Bool → Nat → Option (Bool × Nat)
  | [], inferDim, newsize => some (inferDim, newsize)
  | s :: shape, inferDim, newsize =>
    if s = -1 then
      if inferDim then none else knownSizes shape true newsize
    else if s ≥ 0 then knownSizes shape inferDim (newsize * s.toNat)
    else none

def inferSize (shape : List Int) (numel : Nat) : Option (List Nat) := do
  let (inferDim, newsize) ← knownSizes shape false 1
  guard (numel = newsize ∨ (inferDim ∧ newsize > 0 ∧ numel % newsize = 0))
  guard (¬ inferDim ∨ newsize ≠ 0)
  return shape.map fun s => if s = -1 then numel / newsize else s.toNat

/-- The dimensions that a chunk takes, the last one first: their strides, what is left, and the
elements. -/
def takeChunk (base tensorNumel : Nat) : List Nat → Nat → List Nat × List Nat × Nat
  | [], viewNumel => ([], [], viewNumel)
  | s :: newshape, viewNumel =>
    if viewNumel < tensorNumel ∨ s = 1 then
      let rest := takeChunk base tensorNumel newshape (viewNumel * s)
      (viewNumel * base :: rest.1, rest.2)
    else ([], s :: newshape, viewNumel)

/-- The chunks of a shape and the strides of the new one, the last dimension first. -/
def strideChunks : List (Nat × Nat) → List Nat → Nat → Nat → Option (List Nat)
  | [], newshape, _, _ => if newshape = [] then some [] else none
  | d :: old, newshape, base, tensorNumel =>
    let tensorNumel := tensorNumel * d.1
    let next := old.headD (0, 0)
    if old = [] ∨ (next.1 ≠ 1 ∧ next.2 ≠ tensorNumel * base) then
      let chunk := takeChunk base tensorNumel newshape 1
      if chunk.2.2 ≠ tensorNumel then none
      else (strideChunks old chunk.2.1 next.2 1).map (chunk.1 ++ ·)
    else strideChunks old newshape base tensorNumel

/-- The strides with which a tensor is read with other sizes. -/
def newStrides (old : Geometry) (newshape : List Nat) : Option (List Nat) :=
  if old.sizes = [] then some (newshape.map fun _ => 1)
  else if old.numel = 0 then
    some (if old.sizes = newshape then old.strides else contiguousStrides newshape)
  else
    let dims := (old.sizes.zip old.strides).reverse
    (strideChunks dims newshape.reverse (dims.headD (0, 0)).2 1).map List.reverse

theorem length_takeChunk (base tensorNumel : Nat) (newshape : List Nat) (viewNumel : Nat) :
    (takeChunk base tensorNumel newshape viewNumel).1.length
        + (takeChunk base tensorNumel newshape viewNumel).2.1.length
      = newshape.length := by
  induction newshape generalizing viewNumel with
  | nil => rfl
  | cons s newshape ih =>
    rw [takeChunk]
    split
    · rw [length_cons, length_cons, Nat.add_right_comm, ih]
    · exact Nat.zero_add _

/-- There is a stride for each new size. -/
theorem length_strideChunks {old : List (Nat × Nat)} {newshape : List Nat} {base tensorNumel : Nat}
    {strides : List Nat} (h : strideChunks old newshape base tensorNumel = some strides) :
    strides.length = newshape.length := by
  induction old generalizing newshape base tensorNumel strides with
  | nil =>
    rw [strideChunks] at h
    split at h
    · next hempty =>
      cases h
      rw [hempty]
    · cases h
  | cons d old ih =>
    simp only [strideChunks] at h
    split at h
    · split at h
      · cases h
      · obtain ⟨rest, hrest, rfl⟩ := Option.map_eq_some_iff.mp h
        rw [length_append, ih hrest]
        exact length_takeChunk ..
    · exact ih h

theorem length_newStrides {old : Geometry} {newshape strides : List Nat}
    (h : newStrides old newshape = some strides) : strides.length = newshape.length := by
  rw [newStrides] at h
  split at h
  · cases h
    exact length_map ..
  · split at h
    · cases h
      split
      · next heq => rw [old.strides_length, heq]
      · exact length_contiguousStrides newshape
    · obtain ⟨rest, hrest, rfl⟩ := Option.map_eq_some_iff.mp h
      rw [length_reverse, length_strideChunks hrest, length_reverse]

/-- `computeStride`: the geometry with which a tensor is read with other sizes. -/
def computeStride (old : Geometry) (newshape : List Nat) : Option Geometry :=
  match h : newStrides old newshape with
  | some strides => some ⟨newshape, strides, length_newStrides h⟩
  | none => none

/-- `alias_with_sizes_and_strides`: the elements of a tensor, in row-major order, with another
geometry. -/
def aliasWithSizesAndStrides (self g : Geometry) : View :=
  { g with sees := fun index => unravel self.sizes (ravel g.sizes index) }

def view (self : Geometry) (size : List Int) : Option View := do
  let inferredSize ← inferSize size self.numel
  let g ← computeStride self inferredSize
  return aliasWithSizesAndStrides self g

/-- `reshape`.  A clone has the elements of the tensor in row-major order. -/
def reshape (self : Geometry) (proposedShape : List Int) : Option View := do
  let shape ← inferSize proposedShape self.numel
  match computeStride self shape with
  | some g => return aliasWithSizesAndStrides self g
  | none => view (contiguous self.sizes) (shape.map Int.ofNat)

/-- `_reshape_alias`.  Its only caller gives it the sizes and the strides of `reshape`. -/
def reshapeAlias (self : Geometry) (size stride : List Nat) : Option View := do
  guard (inferSize (size.map Int.ofNat) self.numel = some size)
  let g ← computeStride self size
  guard (g.strides = stride)
  return aliasWithSizesAndStrides self g

end Reshaped

end PyTorchCore.ViewInverses
