import PyTorchCore.Lib.LoopNest

/-!
# TensorIterator: operands, shape and strides

The part of `TensorIteratorBase` that decides which elements a kernel sees: the
broadcast shape, the byte strides of every operand, the order of the dimensions
and their merging.  Types and devices are left out, apart from the element size
an output is to be allocated with.

Byte strides and offsets are integers without bound.  Vectors are lists; reading
one outside its range gives `0`.
-/

namespace PyTorchCore.TensorIterator

/-- Geometry of a strided tensor.  Strides count elements. -/
structure TensorBase where
  sizes : List Nat
  strides : List Int
  element_size : ℕ+
  sameRank : strides.length = sizes.length
  deriving DecidableEq

namespace TensorBase

def numel (t : TensorBase) : Nat :=
  t.sizes.prod

end TensorBase

/-- An operand; `none` is an undefined tensor. -/
structure OperandInfo where
  tensor_base : Option TensorBase
  /-- Element size of `target_dtype`; for a defined tensor its own is used. -/
  target_element_size : ℕ+
  is_output : Bool
  will_resize : Bool
  is_read_write : Bool
  stride_bytes : List Int
  deriving DecidableEq

namespace OperandInfo

/-- `elementSize(op.target_dtype)`.  After `compute_types` a defined tensor has the
target type. -/
def elementSize (op : OperandInfo) : ℕ+ :=
  match op.tensor_base with
  | some t => t.element_size
  | none => op.target_element_size

end OperandInfo

/-- A tensor as the caller passes it. -/
structure ConfigTensor where
  tensor : Option TensorBase
  /-- Identity of the tensor object, for `is_same`. -/
  impl : Nat
  /-- Element size for an output that is undefined. -/
  target_element_size : ℕ+
  deriving DecidableEq

/-- What the caller of `build` asks for.  The outputs come first. -/
structure TensorIteratorConfig where
  tensors_ : List ConfigTensor
  num_outputs_ : Nat
  static_shape_ : Option (List Nat)
  resize_outputs_ : Bool
  is_reduction_ : Bool
  enforce_linear_iteration_ : Bool

/-- The state of the iterator under construction. -/
structure TensorIteratorBase where
  shape_ : List Nat
  perm_ : List Nat
  operands_ : List OperandInfo
  num_outputs_ : Nat
  is_reduction_ : Bool
  enforce_linear_iteration_ : Bool
  all_ops_same_shape_ : Bool
  has_coalesced_dimensions_ : Bool
  deriving DecidableEq

namespace TensorIteratorBase

def ndim (it : TensorIteratorBase) : Nat :=
  it.shape_.length

def ntensors (it : TensorIteratorBase) : Nat :=
  it.operands_.length

def numel (it : TensorIteratorBase) : Nat :=
  it.shape_.prod

end TensorIteratorBase

open TensorIteratorBase

/-! ## Operands and shape -/

def ConfigTensor.isSame (t t' : ConfigTensor) : Bool :=
  t.tensor.isSome && t'.tensor.isSome && t.impl == t'.impl

/-- The iterator after `populate_operands` and `mark_outputs`: the first tensors are
outputs, and those of them that are inputs too are read and written. -/
def populateOperands (config : TensorIteratorConfig) : TensorIteratorBase :=
  let outputs := config.tensors_.take config.num_outputs_
  let inputs := config.tensors_.drop config.num_outputs_
  { shape_ := []
    perm_ := []
    operands_ :=
      outputs.map (fun t =>
        ⟨t.tensor, t.target_element_size, true, false, inputs.any (t.isSame ·), []⟩) ++
      inputs.map (fun t => ⟨t.tensor, t.target_element_size, false, false, false, []⟩)
    num_outputs_ := config.num_outputs_
    is_reduction_ := config.is_reduction_
    enforce_linear_iteration_ := config.enforce_linear_iteration_
    all_ops_same_shape_ := false
    has_coalesced_dimensions_ := false }

/-- The loop of `infer_size_impl`, from the last dimension to the first. -/
def inferSizeLoop (a b : List Nat) (ndim : Nat) : Nat → List Nat → Except String (List Nat)
  | 0, expandedSizes => .ok expandedSizes
  | i + 1, expandedSizes =>
    let offset := ndim - 1 - i
    let sizeA := if offset < a.length then a.getD (a.length - 1 - offset) 1 else 1
    let sizeB := if offset < b.length then b.getD (b.length - 1 - offset) 1 else 1
    if sizeA = sizeB ∨ sizeA = 1 ∨ sizeB = 1 then
      inferSizeLoop a b ndim i ((if sizeA = 1 then sizeB else sizeA) :: expandedSizes)
    else
      .error ("The size of tensor a (" ++ toString sizeA ++
        ") must match the size of tensor b (" ++ toString sizeB ++
        ") at non-singleton dimension " ++ toString i)

def inferSize (a b : List Nat) : Except String (List Nat) :=
  let ndim := max a.length b.length
  inferSizeLoop a b ndim ndim []

/-- What the loop of `compute_shape` carries. -/
structure ShapeScan where
  shape_ : List Nat
  all_ops_same_shape_ : Bool
  has_scalars : Bool
  has_tensors : Bool

/-- One operand of `compute_shape`. -/
def ShapeScan.step (resize_outputs_ : Bool) (scan : ShapeScan) (op : OperandInfo) :
    Except String ShapeScan :=
  match op.tensor_base with
  | none => .ok scan
  | some t =>
    -- outputs that may be resized do not take part in the shape
    if resize_outputs_ && op.is_output then .ok scan
    else
      let shape := t.sizes
      let has_scalars := scan.has_scalars || shape.isEmpty
      let has_tensors := scan.has_tensors || !shape.isEmpty
      let same := scan.all_ops_same_shape_ && !(has_scalars && has_tensors)
      if scan.shape_.isEmpty then
        .ok ⟨shape, same, has_scalars, has_tensors⟩
      else if shape = scan.shape_ then
        .ok ⟨scan.shape_, same, has_scalars, has_tensors⟩
      else do
        let shape_ ← inferSize scan.shape_ shape
        .ok ⟨shape_, false, has_scalars, has_tensors⟩

def computeShape (config : TensorIteratorConfig) (it : TensorIteratorBase) :
    Except String TensorIteratorBase :=
  match config.static_shape_ with
  | some shape => .ok { it with shape_ := shape }
  | none => do
    let scan ← it.operands_.foldlM (ShapeScan.step config.resize_outputs_)
      ⟨it.shape_, true, false, false⟩
    .ok { it with
      shape_ := scan.shape_
      all_ops_same_shape_ := scan.all_ops_same_shape_ }

/-- One output of `mark_resize_outputs`. -/
def markResizeOutput (config : TensorIteratorConfig) (it : TensorIteratorBase)
    (op : OperandInfo) : Except String OperandInfo :=
  match op.tensor_base with
  | none => .ok op
  | some t =>
    if t.sizes = it.shape_ then .ok op
    else if config.resize_outputs_ && !op.is_read_write then
      .ok { op with will_resize := true }
    else if it.is_reduction_ then .ok op
    else .error ("output with shape " ++ toString t.sizes ++
      " doesn't match the broadcast shape " ++ toString it.shape_)

def markResizeOutputs (config : TensorIteratorConfig) (it : TensorIteratorBase) :
    Except String TensorIteratorBase :=
  if config.static_shape_.isSome then .ok it
  else do
    let outputs ← (it.operands_.take it.num_outputs_).mapM (markResizeOutput config it)
    .ok { it with operands_ := outputs ++ it.operands_.drop it.num_outputs_ }

/-- The check of `compute_types` that every input is defined. -/
def computeTypes (it : TensorIteratorBase) : Except String TensorIteratorBase :=
  if it.operands_.all fun op => op.tensor_base.isSome || op.is_output then .ok it
  else .error "Found undefined input tensor!"

/-- The part of `build` before the strides are set up. -/
def prepare (config : TensorIteratorConfig) : Except String TensorIteratorBase := do
  let it ← computeShape config (populateOperands config)
  let it ← markResizeOutputs config it
  computeTypes it

/-! ## Strides -/

/-- Byte strides of a tensor for the shape `shape_`, aligned at the last dimension.
`original_shape` is the shape of the tensor.  The source writes to
`ndim - original_shape.size() + i` for every dimension `i` of the tensor; should an
output that will be resized have the higher rank, the writes before the first
element are left out here. -/
def stridesFor (shape_ original_shape : List Nat) (original_stride : List Int)
    (element_size_in_bytes : ℕ+) : List Int :=
  (List.range shape_.length).map fun d =>
    if shape_.length ≤ d + original_shape.length then
      let i := d + original_shape.length - shape_.length
      if original_shape.getD i 1 = 1 ∧ shape_.getD d 1 ≠ 1 then 0
      else original_stride.getD i 0 * (element_size_in_bytes : Nat)
    else 0

def computeStrides (config : TensorIteratorConfig) (it : TensorIteratorBase) :
    TensorIteratorBase :=
  { it with
    operands_ := it.operands_.map fun op =>
      match op.tensor_base with
      | none => op
      | some t =>
        { op with
          stride_bytes := stridesFor it.shape_
            (if config.static_shape_.isSome then it.shape_ else t.sizes)
              t.strides t.element_size } }

/-- Compares two dimensions: `1` if `dim0` should come after `dim1`, `-1` if it should
come before, and `0` if the operands do not tell. -/
def shouldSwapLoop (is_reduction_ : Bool) (shape_ : List Nat) (dim0 dim1 : Nat) :
    List OperandInfo → Int
  | [] => 0
  | op :: ops =>
    if op.stride_bytes.isEmpty || op.will_resize then
      shouldSwapLoop is_reduction_ shape_ dim0 dim1 ops
    else
      let stride0 := op.stride_bytes.getD dim0 0
      let stride1 := op.stride_bytes.getD dim1 0
      if is_reduction_ && op.is_output && (stride0 == 0) != (stride1 == 0) then
        if stride1 = 0 then 1 else -1
      else if stride0 = 0 ∨ stride1 = 0 then
        shouldSwapLoop is_reduction_ shape_ dim0 dim1 ops
      else if stride0 < stride1 then -1
      else if stride0 > stride1 then 1
      else if shape_.getD dim0 0 > shape_.getD dim1 0 then 1
      else shouldSwapLoop is_reduction_ shape_ dim0 dim1 ops

def shouldSwap (it : TensorIteratorBase) (dim0 dim1 : Nat) : Int :=
  shouldSwapLoop it.is_reduction_ it.shape_ dim0 dim1 it.operands_

/-- `std::swap(perm[i], perm[j])`. -/
def swapAt (perm : List Nat) (i j : Nat) : List Nat :=
  (perm.set i (perm.getD j 0)).set j (perm.getD i 0)

/-- The inner loop of the insertion sort: `dim0` counts down to the front, `dim1` is
where the inserted dimension stands. -/
def insertDim (cmp : Nat → Nat → Int) : Nat → Nat → List Nat → List Nat
  | 0, _, perm => perm
  | dim0 + 1, dim1, perm =>
    let comparison := cmp (perm.getD dim0 0) (perm.getD dim1 0)
    if comparison > 0 then insertDim cmp dim0 dim0 (swapAt perm dim0 dim1)
    else if comparison < 0 then perm
    else insertDim cmp dim0 dim1 perm

/-- The insertion sort of `reorder_dimensions`. -/
def sortDims (cmp : Nat → Nat → Int) (perm : List Nat) : List Nat :=
  (List.range' 1 (perm.length - 1)).foldl (fun perm i => insertDim cmp i i perm) perm

/-- `reorder` of `permute_dimensions`. -/
def permuted {α : Type} [Inhabited α] (perm : List Nat) (data : List α) : List α :=
  perm.map fun i => data.getD i default

def permuteDimensions (it : TensorIteratorBase) (perm : List Nat) : TensorIteratorBase :=
  { it with
    shape_ := permuted perm it.shape_
    operands_ := it.operands_.map fun op =>
      if op.stride_bytes.isEmpty then op
      else { op with stride_bytes := permuted perm op.stride_bytes } }

/-- The permutation that `reorder_dimensions` settles on. -/
def reorderPerm (it : TensorIteratorBase) : List Nat :=
  if it.ndim = 1 then [0]
  else if it.enforce_linear_iteration_ then (List.range it.ndim).reverse
  else sortDims (shouldSwap it) (List.range it.ndim).reverse

def reorderDimensions (it : TensorIteratorBase) : TensorIteratorBase :=
  let perm := reorderPerm it
  if it.ndim = 1 then { it with perm_ := perm }
  else { permuteDimensions it perm with perm_ := perm }

/-! ## Outputs -/

inductive MemoryFormat where
  | contiguous
  | channelsLast
  deriving DecidableEq

/-- The strides of a contiguous tensor, and the stride a further dimension in front
would get. -/
def contiguousStridesLoop : List Nat → List Int × Int
  | [] => ([], 1)
  | size :: sizes =>
    let r := contiguousStridesLoop sizes
    (r.2 :: r.1, r.2 * max size 1)

def contiguousStrides (sizes : List Nat) : List Int :=
  (contiguousStridesLoop sizes).1

def emptyTensorRestride (memory_format : MemoryFormat) (sizes : List Nat) :
    Except String (List Int) :=
  match memory_format, sizes with
  | .contiguous, _ => .ok (contiguousStrides sizes)
  | .channelsLast, [_, c, h, w] => .ok [c * w * h, 1, c * w, c]
  | .channelsLast, _ => .error "required rank 4 tensor to use channels_last format"

def TensorBase.mk? (sizes : List Nat) (strides : List Int) (element_size : ℕ+) :
    Except String TensorBase :=
  if h : strides.length = sizes.length then .ok ⟨sizes, strides, element_size, h⟩
  else .error "mismatch in length of strides and shape"

/-- `TensorIterator::set_output`: allocates an undefined output, resizes one that is
marked, and leaves any other alone.  No strides is the source's empty `strides`. -/
def setOutput (op : OperandInfo) (sizes : List Nat) (strides : List Int)
    (memory_format : Option MemoryFormat) : Except String OperandInfo :=
  if op.tensor_base.isSome && !op.will_resize then .ok op
  else do
    let strides ←
      if strides.isEmpty then
        emptyTensorRestride (memory_format.getD .contiguous) sizes
      else if op.tensor_base.isSome && memory_format.isSome then
        .error "!options.memory_format_opt().has_value()"
      else .ok strides
    let tensor ← TensorBase.mk? sizes strides op.elementSize
    .ok { op with tensor_base := some tensor }

/-- The strides of a dense output in the order of the dimensions. -/
def compatibleStride : List Nat → Int → List Int
  | [], _ => []
  | size :: shape, next_stride => next_stride :: compatibleStride shape (next_stride * size)

/-- Inverts the permutation caused by `reorder_dimensions`. -/
def invertPerm {α : Type} [Inhabited α] (perm : List Nat) (input : List α) : List α :=
  (perm.zip input).foldl (fun res p => res.set p.1 p.2)
    (List.replicate input.length default)

/-- One output of `allocate_or_resize_outputs`. -/
def allocateOrResizeOutput (it : TensorIteratorBase) (op : OperandInfo) :
    Except String OperandInfo :=
  if op.tensor_base.isNone || op.will_resize then
    let stride_bytes := compatibleStride it.shape_ (op.elementSize : Nat)
    let inverted := it.perm_ == (List.range it.ndim).reverse
    let tensor_shape := invertPerm it.perm_ it.shape_
    let tensor_stride := (invertPerm it.perm_ stride_bytes).map fun stride =>
      stride / ((op.elementSize : Nat) : Int)
    setOutput { op with stride_bytes } tensor_shape (if inverted then [] else tensor_stride) none
  else
    setOutput op ((op.tensor_base.map TensorBase.sizes).getD []) [] none

def allocateOrResizeOutputs (it : TensorIteratorBase) : Except String TensorIteratorBase := do
  let outputs ← (it.operands_.take it.num_outputs_).mapM (allocateOrResizeOutput it)
  .ok { it with operands_ := outputs ++ it.operands_.drop it.num_outputs_ }

/-! ## Coalescing -/

def canCoalesce (it : TensorIteratorBase) (dim0 dim1 : Nat) : Bool :=
  let shape0 := it.shape_.getD dim0 0
  let shape1 := it.shape_.getD dim1 0
  if shape0 = 1 ∨ shape1 = 1 then true
  else it.operands_.all fun op =>
    shape0 * op.stride_bytes.getD dim0 0 == op.stride_bytes.getD dim1 0

/-- Replaces the stride of every operand at `dim0` with its stride at `dim1`. -/
def replaceStride (it : TensorIteratorBase) (dim0 dim1 : Nat) : TensorIteratorBase :=
  { it with
    operands_ := it.operands_.map fun op =>
      { op with stride_bytes := op.stride_bytes.set dim0 (op.stride_bytes.getD dim1 0) } }

def setShape (it : TensorIteratorBase) (dim size : Nat) : TensorIteratorBase :=
  { it with shape_ := it.shape_.set dim size }

/-- One round of the loop of `coalesce_dimensions`, with the loop variable `dim` and
the dimension `prev_dim` that is being extended. -/
def coalesceStep (acc : TensorIteratorBase × Nat) (dim : Nat) : TensorIteratorBase × Nat :=
  let it := acc.1
  let prev_dim := acc.2
  if canCoalesce it prev_dim dim then
    let size := it.shape_.getD prev_dim 0 * it.shape_.getD dim 0
    if it.shape_.getD prev_dim 0 = 1 then
      (setShape (replaceStride it prev_dim dim) prev_dim size, prev_dim)
    else
      (setShape it prev_dim size, prev_dim)
  else if prev_dim + 1 = dim then
    (it, prev_dim + 1)
  else
    (setShape (replaceStride it (prev_dim + 1) dim) (prev_dim + 1) (it.shape_.getD dim 0),
      prev_dim + 1)

/-- `shape_.resize(ndim)`, and the same for the strides. -/
def truncateDims (it : TensorIteratorBase) (ndim : Nat) : TensorIteratorBase :=
  { it with
    shape_ := it.shape_.take ndim
    operands_ := it.operands_.map fun op =>
      { op with stride_bytes := op.stride_bytes.take ndim } }

def coalesceDimensions (it : TensorIteratorBase) : TensorIteratorBase :=
  if it.ndim ≤ 1 then it
  else
    let r := (List.range' 1 (it.ndim - 1)).foldl coalesceStep (it, 0)
    { truncateDims r.1 (r.2 + 1) with has_coalesced_dimensions_ := true }

/-- The slow path of `build`. -/
def slowSetUp (config : TensorIteratorConfig) (it : TensorIteratorBase) :
    Except String TensorIteratorBase := do
  let it ← allocateOrResizeOutputs (reorderDimensions (computeStrides config it))
  .ok (coalesceDimensions it)

end PyTorchCore.TensorIterator
