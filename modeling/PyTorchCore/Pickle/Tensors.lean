import PyTorchCore.Pickle.Device

/-!
# Tensors in a pickle

`pushLiteralTensor` writes the fields of a strided tensor and its storage. A storage is written by
the first tensor that reaches it: its key, its device, the scalar type of this tensor and the
number of whole elements of this type. Later tensors find it in the memo table. The bytes of the
storages stand in records of their own.

The unpickler makes a flat tensor from what was written for a storage, and `rebuildTensor` takes
the scalar type of the new tensor from this flat tensor. The bits for a pending conjugation and a
pending negation are not written.

The instructions stand between the protocol and `STOP`; a container around the tensors is left
out, so that they stay on the stack.
-/

namespace PyTorchCore.Pickle

/-- `ScalarType` without the quantized types. -/
inductive ScalarType where
  | byte | char | short | int | long | half | float | double | complexHalf | complexFloat
  | complexDouble | bool | bfloat16
  deriving DecidableEq, Repr

namespace ScalarType

/-- `toString`. -/
def name : ScalarType → Bytes
  | byte => ascii "Byte"
  | char => ascii "Char"
  | short => ascii "Short"
  | int => ascii "Int"
  | long => ascii "Long"
  | half => ascii "Half"
  | float => ascii "Float"
  | double => ascii "Double"
  | complexHalf => ascii "ComplexHalf"
  | complexFloat => ascii "ComplexFloat"
  | complexDouble => ascii "ComplexDouble"
  | bool => ascii "Bool"
  | bfloat16 => ascii "BFloat16"

def elementSize : ScalarType → Nat
  | byte | char | bool => 1
  | short | half | bfloat16 => 2
  | int | float | complexHalf => 4
  | long | double | complexFloat => 8
  | complexDouble => 16

/-- `isDifferentiableType`: the floating and the complex types. -/
def isDifferentiableType : ScalarType → Bool
  | byte | char | short | int | long | bool => false
  | _ => true

def storageName (type : ScalarType) : Bytes :=
  type.name ++ ascii "Storage"

/-- `CHECK_SCALAR` for one type after the other. -/
def ofStorageName (className : Bytes) : Option ScalarType :=
  [byte, char, short, int, long, half, float, double, complexHalf, complexFloat, complexDouble,
    bool, bfloat16].find? fun type => className == type.storageName

end ScalarType

/-- `StorageImpl`: the device of the memory and its bytes.  No device with memory has a
negative index other than -1. -/
structure Storage where
  device : Device
  bytes : Bytes
  hasMemory : -1 ≤ device.index

/-- `TensorImpl` of a strided tensor, with the address of its storage. -/
structure Tensor where
  storage : Nat
  dtype : ScalarType
  sizes : List Nat
  strides : List Nat
  storageOffset : Nat
  requiresGrad : Bool
  isConj : Bool := false
  isNeg : Bool := false

/-- The storages and tensors at their addresses, and the `use_count` of the tensors. -/
structure Memory where
  storage : Nat → Storage
  tensor : Nat → Tensor
  useCount : Nat → Nat

def Memory.storageOf (mem : Memory) (t : Tensor) : Storage :=
  mem.storage t.storage

namespace Tensors

/-- The instructions that a tensor is written with; the pushes of numbers are one. -/
inductive Instruction where
  | mark
  | tuple
  | emptyTuple
  | reduce
  | binPersId
  | int (n : Nat)
  | bool (b : Bool)
  | binUnicode (s : Bytes)
  | global (moduleName className : Bytes)
  | binPut (id : Nat)
  | binGet (id : Nat)

/-- The keys of the memo tables for strings, globals, storages and tensors. -/
inductive MemoKey where
  | string (s : Bytes)
  | global (moduleName className : Bytes)
  | storage (addr : Nat)
  | ivalue (ptr : Nat)
  deriving DecidableEq

/-- `Pickler`, with its memo tables as one. -/
structure Pickler where
  written : List Instruction := []
  memoId : Nat := 0
  memoized : MemoKey → Option Nat := fun _ => none
  tensorData : List Tensor := []

namespace Pickler

/-- `push<PickleOpCode>`. -/
def push (i : Instruction) (p : Pickler) : Pickler :=
  { p with written := p.written ++ [i] }

/-- What has an entry is taken from the memo table.  Otherwise it is written, and
`pushNextBinPut` gives the number of its entry. -/
def memoize (k : MemoKey) (pushImpl : Pickler → Pickler) (p : Pickler) : Pickler :=
  match p.memoized k with
  | some id => p.push (.binGet id)
  | none =>
    let q := pushImpl p
    { q.push (.binPut q.memoId) with
      memoId := q.memoId + 1
      memoized := Function.update q.memoized k (some q.memoId) }

def pushString (s : Bytes) : Pickler → Pickler :=
  memoize (.string s) (push (.binUnicode s))

def pushGlobal (moduleName className : Bytes) : Pickler → Pickler :=
  memoize (.global moduleName className) (push (.global moduleName className))

/-- The sizes or the strides as a tuple. -/
def pushInts (ns : List Nat) (p : Pickler) : Pickler :=
  (ns.foldl (fun p n => p.push (.int n)) (p.push .mark)).push .tuple

variable (mem : Memory)

/-- What `pushStorageOfTensor` writes for a storage without an entry. -/
def pushPersistentId (t : Tensor) (p : Pickler) : Pickler :=
  let p := (p.push .mark).pushString (ascii "storage")
  let p := p.pushGlobal (ascii "torch") t.dtype.storageName
  let p := p.pushString (decimal p.tensorData.length)
  let p := p.pushString (mem.storageOf t).device.str
  let p := p.push (.int ((mem.storageOf t).bytes.length / t.dtype.elementSize))
  (p.push .tuple).push .binPersId

def pushStorageOfTensor (t : Tensor) : Pickler → Pickler :=
  memoize (.storage t.storage) fun p =>
    { p.pushPersistentId mem t with tensorData := p.tensorData ++ [t] }

/-- What `pushLiteralTensor` writes behind the storage. -/
def pushFields (t : Tensor) (p : Pickler) : Pickler :=
  let p := ((p.push (.int t.storageOffset)).pushInts t.sizes).pushInts t.strides
  let p := p.push (.bool t.requiresGrad)
  -- the backward hooks
  let p := (p.pushGlobal (ascii "collections") (ascii "OrderedDict")).push .emptyTuple
  ((p.push .reduce).push .tuple).push .reduce

def pushLiteralTensor (t : Tensor) (p : Pickler) : Pickler :=
  let p := (p.pushGlobal (ascii "torch._utils") (ascii "_rebuild_tensor_v2")).push .mark
  (p.pushStorageOfTensor mem t).pushFields t

/-- `pushIValue` of a tensor. -/
def pushIValue (ptr : Nat) : Pickler → Pickler :=
  if 1 < mem.useCount ptr then memoize (.ivalue ptr) (pushLiteralTensor mem (mem.tensor ptr))
  else pushLiteralTensor mem (mem.tensor ptr)

/-- `pushIValue` of the tensors one after the other. -/
def pushAll (ptrs : List Nat) (p : Pickler) : Pickler :=
  ptrs.foldl (fun p ptr => p.pushIValue mem ptr) p

/-- `getWriteableTensorData`; `none` when its check fails. -/
def getWriteableTensorData (t : Tensor) : Option Bytes :=
  let s := mem.storageOf t
  if s.device.type = .CPU then some s.bytes
  else
    -- the whole elements are copied to the CPU
    let copy := s.bytes.take (s.bytes.length / t.dtype.elementSize * t.dtype.elementSize)
    if copy.length = s.bytes.length then some copy else none

end Pickler

/-- The functions in `globals_`. -/
inductive GlobalFunction where
  | rebuildTensor
  | orderedDict

/-- An `IValue` of the unpickler. -/
inductive Value where
  | none
  | int (n : Nat)
  | bool (b : Bool)
  | string (s : Bytes)
  | scalarType (type : ScalarType)
  | function (f : GlobalFunction)
  | tuple (elements : List Value)
  | tensor (t : Tensor)

/-- `Unpickler`, with the storages that it has made.  The top of the stack and the last mark
come first. -/
structure Unpickler where
  stack : List Value := []
  marks : List Nat := []
  memoTable : List Value := []
  storages : List Storage := []

def tupleToIntList (elements : List Value) : Option (List Nat) :=
  elements.mapM fun
    | .int n => some n
    | _ => none

/-- The record of a name; the records are named by their numbers. -/
def readRecord (records : List Bytes) (name : Bytes) : Option Bytes :=
  (records.zipIdx.find? fun record => decimal record.2 == name).map Prod.fst

def readGlobal (moduleName className : Bytes) : Option Value :=
  if moduleName = ascii "torch._utils" ∧ className = ascii "_rebuild_tensor_v2" then
    some (.function .rebuildTensor)
  else if moduleName = ascii "collections" ∧ className = ascii "OrderedDict" then
    some (.function .orderedDict)
  else if moduleName = ascii "torch" then
    (ScalarType.ofStorageName className).map .scalarType
  else none

/-- `rebuildTensor` for a tensor that is not quantized. -/
def rebuildTensor (elements : List Value) : Option Tensor :=
  match elements with
  | .tensor storageTensor :: .int storageOffset :: .tuple size :: .tuple stride ::
      .bool requiresGrad :: _ =>
      (tupleToIntList size).bind fun sizes =>
        (tupleToIntList stride).bind fun strides =>
          -- the check of `make_variable`
          if requiresGrad ∧ storageTensor.dtype.isDifferentiableType = false then none
          else some ⟨storageTensor.storage, storageTensor.dtype, sizes, strides, storageOffset,
            requiresGrad, false, false⟩
  | _ => none

/-- A tensor can be loaded on the device. -/
def supported (type : DeviceType) : Prop :=
  type = .CPU ∨ type = .CUDA ∨ type = .XPU

instance (type : DeviceType) : Decidable (supported type) :=
  inferInstanceAs (Decidable (_ ∨ _))

namespace Unpickler

/-- `stack_.emplace_back`. -/
def pushValue (v : Value) (u : Unpickler) : Unpickler :=
  { u with stack := v :: u.stack }

def setInput (memoId : Nat) (u : Unpickler) : Option Unpickler :=
  match u.stack with
  | [] => none
  | top :: _ =>
    if u.memoTable.length ≤ memoId then
      some { u with
        memoTable := u.memoTable ++ List.replicate (memoId - u.memoTable.length) .none ++ [top] }
    else some { u with memoTable := u.memoTable.set memoId top }

/-- The case `TUPLE`. -/
def makeTuple (u : Unpickler) : Option Unpickler :=
  match u.marks with
  | [] => none
  | start :: marks =>
    if start ≤ u.stack.length then
      let size := u.stack.length - start
      some { u with
        stack := .tuple (u.stack.take size).reverse :: u.stack.drop size
        marks := marks }
    else none

/-- The case `REDUCE`. -/
def reduce (u : Unpickler) : Option Unpickler :=
  match u.stack with
  | .tuple elements :: .function .rebuildTensor :: stack =>
    (rebuildTensor elements).map fun t => { u with stack := .tensor t :: stack }
  | _ :: .function .orderedDict :: stack => some { u with stack := .none :: stack }
  | _ => none

variable (records : List Bytes)

/-- The case `BINPERSID`: the storage and the flat tensor over it, moved to its device. -/
def loadStorage (u : Unpickler) : Option Unpickler :=
  match u.stack with
  | .tuple (.string kind :: .scalarType type :: .string key :: .string location :: .int numel ::
      _) :: stack =>
      if kind = ascii "storage" then
        (Device.ofString location).bind fun device =>
          (if 0 < numel then readRecord records key else some []).bind fun data =>
            if hsupported : supported device.type ∧ -1 ≤ device.index then
              some { u with
                stack := .tensor ⟨u.storages.length, type, [numel], [1], 0, false, false, false⟩ ::
                  stack
                storages := u.storages ++
                  [⟨device, data.take (numel * type.elementSize), hsupported.2⟩] }
            else none
      else none
  | _ => none

/-- The `switch` of `readInstruction`. -/
def exec (i : Instruction) (u : Unpickler) : Option Unpickler :=
  match i with
  | .mark => some { u with marks := u.stack.length :: u.marks }
  | .tuple => u.makeTuple
  | .emptyTuple => some (u.pushValue (.tuple []))
  | .reduce => u.reduce
  | .binPersId => u.loadStorage records
  | .int n => some (u.pushValue (.int n))
  | .bool b => some (u.pushValue (.bool b))
  | .binUnicode s => some (u.pushValue (.string s))
  | .global moduleName className => (readGlobal moduleName className).map fun v => u.pushValue v
  | .binPut id => u.setInput id
  | .binGet id => (u.memoTable[id]?).map fun v => u.pushValue v

/-- The instructions one after the other. -/
def execAll (is : List Instruction) (u : Unpickler) : Option Unpickler :=
  is.foldlM (fun u i => u.exec records i) u

end Unpickler

/-- What is on the stack when the tensors have been pickled and unpickled, with the last one
first, and the storages of the unpickler. -/
def reload (mem : Memory) (ptrs : List Nat) : Option (List Value × List Storage) :=
  let p := Pickler.pushAll mem ptrs {}
  (p.tensorData.mapM (Pickler.getWriteableTensorData mem)).bind fun records =>
    (Unpickler.execAll records p.written {}).map fun u => (u.stack, u.storages)

end Tensors

end PyTorchCore.Pickle
