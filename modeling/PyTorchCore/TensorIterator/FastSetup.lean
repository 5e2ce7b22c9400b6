import PyTorchCore.TensorIterator.SlowPath

/-!
# TensorIterator: fast setup

`fast_set_up` skips the computation of strides when the layouts of the operands allow a
one-dimensional walk.
-/

namespace PyTorchCore.TensorIterator

open Lib.LoopNest Lib.AmbiguousSort

/-! ## Layout flags -/

/-- The loop that the layout checks share: every stride has to be the product of the sizes before
it, dimensions of size one left out. -/
def stridesFollow (sizes : List Nat) (strides : List Int) : List Nat → Int → Bool
  | [], _ => true
  | d :: dims, expected =>
    if sizes.getD d 0 ≠ 1 then
      if strides.getD d 0 = expected then
        stridesFollow sizes strides dims (expected * sizes.getD d 0)
      else false
    else stridesFollow sizes strides dims expected

namespace TensorBase

/-- `compute_contiguous`. -/
def isContiguous (t : TensorBase) : Bool :=
  t.numel == 0 || stridesFollow t.sizes t.strides (List.range t.sizes.length).reverse 1

/-- `compute_channels_last_contiguous_2d`. -/
def isChannelsLastContiguous (t : TensorBase) : Bool :=
  t.sizes.length == 4 && stridesFollow t.sizes t.strides [1, 3, 2, 0] 1

/-- `compute_channels_last_contiguous_3d`. -/
def isChannelsLast3dContiguous (t : TensorBase) : Bool :=
  t.sizes.length == 5 && stridesFollow t.sizes t.strides [1, 4, 3, 2, 0] 1

/-- The dimensions of size two and more by ascending stride; the loop of the source returns at the
first of the others. -/
def sortedDims (t : TensorBase) : List Nat :=
  ((List.range t.sizes.length).filter fun d => 2 ≤ t.sizes.getD d 0).mergeSort
    fun a b => t.strides.getD a 0 ≤ t.strides.getD b 0

def computeNonOverlappingAndDense (t : TensorBase) : Bool :=
  if t.sizes.length = 1 then t.sizes.getD 0 0 < 2 || t.strides.getD 0 0 == 1
  else stridesFollow t.sizes t.strides t.sortedDims 1

/-- `is_non_overlapping_and_dense_`, as `refresh_contiguous` sets it. -/
def isNonOverlappingAndDense (t : TensorBase) : Bool :=
  t.isContiguous || t.isChannelsLastContiguous || t.isChannelsLast3dContiguous ||
    t.computeNonOverlappingAndDense

end TensorBase

/-! ## Classification and setup -/

inductive FastSetupType where
  | NONE
  | CONTIGUOUS
  | CHANNELS_LAST
  | NON_OVERLAPPING_DENSE
  deriving DecidableEq

/-- The tensors that count for the classification: defined and not to be resized. -/
def layoutTensors (it : TensorIteratorBase) : List TensorBase :=
  it.operands_.filterMap fun op => if op.will_resize then none else op.tensor_base

def computeFastSetupType (it : TensorIteratorBase) : FastSetupType :=
  let tensors := layoutTensors it
  if it.is_reduction_ || !it.all_ops_same_shape_ then .NONE
  else if it.enforce_linear_iteration_ then
    if tensors.all TensorBase.isContiguous then .CONTIGUOUS else .NONE
  else if tensors.all TensorBase.isContiguous then .CONTIGUOUS
  else if tensors.all TensorBase.isChannelsLastContiguous then .CHANNELS_LAST
  else if tensors.all TensorBase.isNonOverlappingAndDense then
    -- from the back: every tensor is compared with the last one
    match tensors.reverse with
    | [] => .NON_OVERLAPPING_DENSE
    | prev :: others =>
      if others.all fun t => t.strides == prev.strides then .NON_OVERLAPPING_DENSE else .NONE
  else .NONE

def lastDefined (it : TensorIteratorBase) : Option TensorBase :=
  (it.operands_.filterMap OperandInfo.tensor_base).getLast?

def fastOutputs (it : TensorIteratorBase) (setup_type : FastSetupType) :
    Except String (List OperandInfo) :=
  let outputs := it.operands_.take it.num_outputs_
  match setup_type with
  | .CONTIGUOUS => outputs.mapM fun op => setOutput op it.shape_ [] (some .contiguous)
  | .CHANNELS_LAST => outputs.mapM fun op => setOutput op it.shape_ [] (some .channelsLast)
  | .NON_OVERLAPPING_DENSE =>
    match lastDefined it with
    | none => .error "Can not find a defined tensor when fast allocating memory to outputs"
    | some t => outputs.mapM fun op => setOutput op it.shape_ t.strides none
  | .NONE => .error "Unsupported fast setup type"

/-- The one-dimensional shape and strides. -/
def collapse (it : TensorIteratorBase) : TensorIteratorBase :=
  { it with
    has_coalesced_dimensions_ := it.has_coalesced_dimensions_ || it.ndim > 1
    shape_ := if it.ndim ≥ 1 then [it.numel] else []
    operands_ := it.operands_.map fun op =>
      { op with
        stride_bytes := if it.ndim ≥ 1 then [((op.elementSize : Nat) : Int)] else [] } }

/-- `none` is the answer that the slow path has to be taken. -/
def fastSetUp (it : TensorIteratorBase) : Except String (Option TensorIteratorBase) :=
  match computeFastSetupType it with
  | .NONE => .ok none
  | setup_type => do
    let outputs ← fastOutputs it setup_type
    .ok (some (collapse
      { it with operands_ := outputs ++ it.operands_.drop it.num_outputs_ }))

/-- `build`, up to the data pointers. -/
def build (config : TensorIteratorConfig) : Except String TensorIteratorBase := do
  let it ← prepare config
  match ← fastSetUp it with
  | some it => .ok it
  | none => slowSetUp config it

end PyTorchCore.TensorIterator
