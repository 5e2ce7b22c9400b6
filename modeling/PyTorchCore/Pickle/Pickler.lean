import PyTorchCore.Pickle.Opcodes
import PyTorchCore.Pickle.Value

/-!
# The pickler

`Pickler` writes a value and remembers what it has written.  Pointers, globals, strings and
devices have a memo table each, and the numbers of all entries come from one counter, `memo_id_`.
-/

namespace PyTorchCore.Pickle

/-- `Pickler`: the instructions written so far, the counter and the memo tables. -/
structure Pickler where
  written : List Instruction := []
  memoId : UInt32 := 0
  memoizedIvalues : List (Address × UInt32) := []
  memoizedGlobals : List (Bytes × UInt32) := []
  memoizedStrings : List (Bytes × UInt32) := []
  memoizedDevices : List (Bytes × UInt32) := []

namespace Pickler

/-- `push<PickleOpCode>` and the pushes of the arguments. -/
def push (i : Instruction) (p : Pickler) : Pickler :=
  { p with written := p.written ++ [i] }

def protocol (p : Pickler) : Pickler := p.push (.proto 2)

def stop (p : Pickler) : Pickler := p.push .stop

/-- `pushNextBinPut`, which returns the number that it has written. -/
def pushNextBinPut (p : Pickler) : UInt32 × Pickler :=
  (p.memoId,
    { p.push (if p.memoId ≤ 255 then .binPut p.memoId.toUInt8 else .longBinPut p.memoId) with
      memoId := p.memoId + 1 })

def pushBinGet (id : UInt32) (p : Pickler) : Pickler :=
  p.push (if id ≤ 255 then .binGet id.toUInt8 else .longBinGet id)

def pushInt (n : Int64) (p : Pickler) : Pickler :=
  if 0 ≤ n.toInt ∧ n.toInt ≤ 255 then p.push (.binInt1 (UInt8.ofNat n.toInt.toNat))
  else if 0 ≤ n.toInt ∧ n.toInt ≤ 65535 then p.push (.binInt2 (UInt16.ofNat n.toInt.toNat))
  else if -2147483648 ≤ n.toInt ∧ n.toInt ≤ 2147483647 then
    p.push (.binInt (Int32.ofInt n.toInt).toUInt32)
  else p.push (.long1 n.toUInt64)

def pushBool (value : Bool) (p : Pickler) : Pickler :=
  p.push (if value then .newTrue else .newFalse)

def pushDouble (bits : UInt64) (p : Pickler) : Pickler :=
  p.push (.binFloat bits)

def pushString (s : Bytes) (p : Pickler) : Pickler :=
  match p.memoizedStrings.lookup s with
  | some id => p.pushBinGet id
  | none =>
    let r := (p.push (.binUnicode s)).pushNextBinPut
    { r.2 with memoizedStrings := (s, r.1) :: r.2.memoizedStrings }

/-- The key of a global in its memo table, which is also what is written for it. -/
def globalKey (moduleName className : Bytes) : Bytes :=
  moduleName ++ ascii "\n" ++ (className ++ ascii "\n")

def pushGlobal (moduleName className : Bytes) (p : Pickler) : Pickler :=
  match p.memoizedGlobals.lookup (globalKey moduleName className) with
  | some id => p.pushBinGet id
  | none =>
    let r := (p.push (.global moduleName className)).pushNextBinPut
    { r.2 with
      memoizedGlobals := (globalKey moduleName className, r.1) :: r.2.memoizedGlobals }

def pushDevice (d : Device) (p : Pickler) : Pickler :=
  match p.memoizedDevices.lookup d.str with
  | some id => p.pushBinGet id
  | none =>
    let q := (p.pushGlobal (ascii "torch") (ascii "device")).pushString d.str
    let r := ((q.push .tuple1).push .reduce).pushNextBinPut
    { r.2 with memoizedDevices := (d.str, r.1) :: r.2.memoizedDevices }

def pushComplexDouble (re im : UInt64) (p : Pickler) : Pickler :=
  ((((p.pushGlobal (ascii "builtins") (ascii "complex")).pushDouble re).pushDouble im).push
    .tuple2).push .reduce

/-- The module of the globals that build lists. -/
def jitPickle : Bytes := ascii "torch.jit._pickle"

def pushSpecializedList {α : Type} (listName : Bytes) (itemPusher : α → Pickler → Pickler)
    (items : List α) (p : Pickler) : Pickler :=
  let q := (((p.pushGlobal jitPickle listName).push .mark).push .emptyList).push .mark
  (((items.foldl (fun q item => itemPusher item q) q).push .appends).push .tuple).push .reduce

def startTypeTag (p : Pickler) : Pickler :=
  p.pushGlobal jitPickle (ascii "restore_type_tag")

def endTypeTag (type : JitType) (p : Pickler) : Pickler :=
  ((p.pushString type.annotationStr).push .tuple2).push .reduce

/-- The lookup and the entry in `pushIValue` around the instructions of a value. -/
def memoizeByPointer (useCount : Address → Nat) (address : Option Address)
    (pushIValueImpl : Pickler → Pickler) (p : Pickler) : Pickler :=
  match address with
  | none => pushIValueImpl p
  | some a =>
    if 1 < useCount a then
      match p.memoizedIvalues.lookup a with
      | some id => p.pushBinGet id
      | none =>
        let r := (pushIValueImpl p).pushNextBinPut
        { r.2 with memoizedIvalues := (a, r.1) :: r.2.memoizedIvalues }
    else pushIValueImpl p

section PushIValue

variable (useCount : Address → Nat)

mutual

/-- `pushIValueImpl`, with `pushTuple`, `pushGenericList` and `pushDict`. -/
def pushIValueImpl : IValue → Pickler → Pickler
  | .tuple _ elements, p =>
    match elements with
    | [] => p.push .emptyTuple
    | [_] => (pushAll elements p).push .tuple1
    | [_, _] => (pushAll elements p).push .tuple2
    | [_, _, _] => (pushAll elements p).push .tuple3
    | _ => (pushAll elements (p.push .mark)).push .tuple
  | .double bits, p => p.pushDouble bits
  | .complexDouble _ re im, p => p.pushComplexDouble re im
  | .int n, p => p.pushInt n
  | .bool b, p => p.pushBool b
  | .string s, p => p.pushString s
  | .genericDict _ key value entries, p =>
    let q := (p.startTypeTag.push .emptyDict).push .mark
    ((pushEntries entries q).push .setItems).endTypeTag (.dict key value)
  | .none, p => p.push .none
  | .intList _ items, p => p.pushSpecializedList (ascii "build_intlist") pushInt items
  | .doubleList _ items, p => p.pushSpecializedList (ascii "build_doublelist") pushDouble items
  | .boolList _ items, p => p.pushSpecializedList (ascii "build_boollist") pushBool items
  | .genericList _ elem items, p =>
    let q := (p.startTypeTag.push .emptyList).push .mark
    ((pushAll items q).push .appends).endTypeTag (.list elem)
  | .device d, p => p.pushDevice d

/-- `pushIValue` for the values one after the other. -/
def pushAll : List IValue → Pickler → Pickler
  | [], p => p
  | v :: rest, p => pushAll rest (memoizeByPointer useCount v.address (pushIValueImpl v) p)

/-- `pushIValue` for the key and the value of every entry. -/
def pushEntries : List (IValue × IValue) → Pickler → Pickler
  | [], p => p
  | (key, value) :: rest, p =>
    pushEntries rest
      (memoizeByPointer useCount value.address (pushIValueImpl value)
        (memoizeByPointer useCount key.address (pushIValueImpl key) p))

end

def pushIValue (v : IValue) (p : Pickler) : Pickler :=
  memoizeByPointer useCount v.address (pushIValueImpl useCount v) p

/-- What is written for a value: the protocol, the value and the end. -/
def pickle (v : IValue) : Bytes :=
  (stop (pushIValue useCount v (protocol {}))).written.flatMap Instruction.encode

end PushIValue

end Pickler

end PyTorchCore.Pickle
