import PyTorchCore.Pickle.Opcodes
import PyTorchCore.Pickle.Value

/-!
# The unpickler

`Unpickler` is a stack machine. It builds objects in memory, which lists and dicts change later,
when `APPENDS` and `SETITEMS` fill them and when a global sets their type tags. A global stands on
the stack as its number in `globals_`, and `REDUCE` calls it with the value above.

Tensors, remote references and classes are left out.
-/

namespace PyTorchCore.Pickle

open List

/-- The place of an object in the memory of the unpickler. -/
abbrev Pointer := Nat

/-- An `IValue` of the unpickler. -/
inductive Value where
  | none
  | bool (b : Bool)
  | int (n : Int64)
  | double (bits : UInt64)
  | string (s : Bytes)
  | device (d : Device)
  | ref (p : Pointer)
  deriving DecidableEq

/-- The objects that an `IValue` holds by pointer. -/
inductive Object where
  | complex (re im : UInt64)
  | tuple (elements : List Value)
  | list (elem : JitType) (items : List Value)
  | dict (key value : JitType) (entries : List (Value × Value))

/-- The functions in `globals_`. -/
inductive GlobalFunction where
  | restoreTypeTag
  | buildList (elem : JitType)
  | complex
  | orderedDict
  | device

/-- `Unpickler`, with the memory of its objects.  The top of the stack and the last mark come
first. -/
structure Unpickler where
  heap : List Object := []
  stack : List Value := []
  globals : List GlobalFunction := []
  memoTable : List Value := []
  marks : List Nat := []
  emptyTuple : Option Pointer := none

namespace Value

/-- `DictKeyHash` accepts the key. -/
def hashable (heap : List Object) : Value → Bool
  | .int _ | .string _ | .double _ | .bool _ | .device _ => true
  | .ref p =>
    match heap[p]? with
    | some (.complex _ _) => true
    | _ => false
  | .none => false

/-- `DictKeyEqualTo` for hashable keys. -/
def keyEqual (heap : List Object) : Value → Value → Bool
  | .int m, .int n => m == n
  | .string s, .string t => s == t
  | .double x, .double y => doubleEqual x y
  | .bool b, .bool c => b == c
  | .device d, .device e => d == e
  | .ref p, .ref q =>
    match heap[p]?, heap[q]? with
    | some (.complex re im), some (.complex re' im') =>
      p == q || (doubleEqual re re' && doubleEqual im im')
    | _, _ => false
  | _, _ => false

/-- The element can be appended to a list of the type: `toInt`, `toDouble` and `toBool` do not
throw. -/
def fits : JitType → Value → Bool
  | .int, .int _ | .float, .double _ | .bool, .bool _ => true
  | .int, _ | .float, _ | .bool, _ => false
  | _, _ => true

end Value

/-- `insert_or_assign` of a dict. -/
def insertOrAssign (heap : List Object) (key value : Value)
    (entries : List (Value × Value)) : Option (List (Value × Value)) :=
  if key.hashable heap then
    if entries.any fun entry => entry.1.keyEqual heap key then
      some (entries.map fun entry =>
        if entry.1.keyEqual heap key then (entry.1, value) else entry)
    else some (entries ++ [(key, value)])
  else none

/-- The loop over the keys and values above a mark. -/
def insertAll (heap : List Object) :
    List Value → List (Value × Value) → Option (List (Value × Value))
  | [], entries => some entries
  | [_], _ => none
  | key :: value :: rest, entries =>
    (insertOrAssign heap key value entries).bind fun entries => insertAll heap rest entries

namespace Unpickler

/-- `stack_.emplace_back`. -/
def pushValue (v : Value) (u : Unpickler) : Unpickler :=
  { u with stack := v :: u.stack }

/-- `stack_.emplace_back` of a new object. -/
def pushObject (o : Object) (u : Unpickler) : Unpickler :=
  { u with heap := u.heap ++ [o], stack := .ref u.heap.length :: u.stack }

def setInput (memoId : Nat) (u : Unpickler) : Option Unpickler :=
  match u.stack with
  | [] => none
  | top :: _ =>
    if u.memoTable.length ≤ memoId then
      some { u with
        memoTable := u.memoTable ++ List.replicate (memoId - u.memoTable.length) .none ++ [top] }
    else some { u with memoTable := u.memoTable.set memoId top }

/-- The values above the last mark in their order, and the unpickler without them and without
the mark. -/
def popMark (u : Unpickler) : Option (List Value × Unpickler) :=
  match u.marks with
  | [] => none
  | start :: marks =>
    if start ≤ u.stack.length then
      some ((u.stack.take (u.stack.length - start)).reverse,
        { u with stack := u.stack.drop (u.stack.length - start), marks := marks })
    else none

/-- The elements of the tuple at the top of the stack, and the unpickler without it. -/
def popTuple (u : Unpickler) : Option (List Value × Unpickler) :=
  match u.stack with
  | .ref p :: stack =>
    match u.heap[p]? with
    | some (.tuple elements) => some (elements, { u with stack := stack })
    | _ => none
  | _ => none

/-- `readList`, with the values above the mark. -/
def readList (list : Value) (elements : List Value) (u : Unpickler) : Option Unpickler :=
  match list with
  | .ref p =>
    match u.heap[p]? with
    | some (.list elem items) =>
      if elements.all (Value.fits elem) then
        some { u with heap := u.heap.set p (.list elem (items ++ elements)) }
      else none
    | _ => none
  | _ => none

/-- `insert_or_assign` of the keys and values above the mark. -/
def readDict (dict : Value) (elements : List Value) (u : Unpickler) : Option Unpickler :=
  match dict with
  | .ref p =>
    match u.heap[p]? with
    | some (.dict key value entries) =>
      (insertAll u.heap elements entries).map fun entries =>
        { u with heap := u.heap.set p (.dict key value entries) }
    | _ => none
  | _ => none

def restoreContainerTypeTags (v : Value) (type : JitType) (u : Unpickler) : Option Unpickler :=
  match v with
  | .ref p =>
    match type, u.heap[p]? with
    | .dict key value, some (.dict _ _ entries) =>
      some { u with heap := u.heap.set p (.dict key value entries) }
    | .list elem, some (.list _ items) =>
      some { u with heap := u.heap.set p (.list elem items) }
    | _, _ => none
  | _ => none

/-- The function that `readGlobal` makes for a global. -/
def globalFunction (moduleName className : Bytes) : Option GlobalFunction :=
  if moduleName = ascii "torch.jit._pickle" then
    if className = ascii "restore_type_tag" then some .restoreTypeTag
    else if className = ascii "build_intlist" then some (.buildList .int)
    else if className = ascii "build_doublelist" then some (.buildList .float)
    else if className = ascii "build_boollist" then some (.buildList .bool)
    else none
  else if moduleName = ascii "builtins" ∧ className = ascii "complex" then some .complex
  else if moduleName = ascii "collections" ∧ className = ascii "OrderedDict" then
    some .orderedDict
  else if moduleName = ascii "torch" ∧ className = ascii "device" then some .device
  else none

/-- `readGlobal`: the function of a global, and its number on the stack. -/
def readGlobal (moduleName className : Bytes) (u : Unpickler) : Option Unpickler :=
  (globalFunction moduleName className).map fun f =>
    { u with
      globals := u.globals ++ [f]
      stack := .int (Int64.ofNat u.globals.length) :: u.stack }

section Exec

variable (typeParser : Bytes → Option JitType)

/-- A function of `globals_` takes its argument from the top of the stack. -/
def callGlobal (f : GlobalFunction) (u : Unpickler) : Option Unpickler :=
  match f with
  | .restoreTypeTag =>
    u.popTuple.bind fun r =>
      match r.1 with
      | v :: .string typeStr :: _ =>
        (typeParser typeStr).bind fun type =>
          (r.2.restoreContainerTypeTags v type).map (pushValue v)
      | _ => none
  | .buildList elem =>
    u.popTuple.bind fun r =>
      match r.1 with
      | .ref p :: _ =>
        match r.2.heap[p]? with
        | some (.list _ items) =>
          some (pushValue (.ref p) { r.2 with heap := r.2.heap.set p (.list elem items) })
        | _ => none
      | _ => none
  | .complex =>
    u.popTuple.bind fun r =>
      match r.1 with
      | [.double re, .double im] => some (r.2.pushObject (.complex re im))
      | _ => none
  | .orderedDict =>
    match u.stack with
    | [] => none
    | _ :: stack => some { u with stack := .none :: stack }
  | .device =>
    u.popTuple.bind fun r =>
      match r.1 with
      | .string s :: _ => (Device.ofString s).map fun d => r.2.pushValue (.device d)
      | _ => none

/-- `REDUCE` and `BUILD`: the number of the global stands below its argument. -/
def reduce (u : Unpickler) : Option Unpickler :=
  match u.stack with
  | arg :: .int idx :: stack =>
    if 0 ≤ idx.toInt then
      (u.globals[idx.toInt.toNat]?).bind fun f =>
        callGlobal typeParser f { u with stack := arg :: stack }
    else none
  | _ => none

/-- The `switch` of `readInstruction`. -/
def exec (i : Instruction) (u : Unpickler) : Option Unpickler :=
  match i with
  | .emptyList => some (u.pushObject (.list .any []))
  | .emptyTuple =>
    -- one object is enough, since tuples are not mutable
    match u.emptyTuple with
    | some p => some (u.pushValue (.ref p))
    | none => some { u.pushObject (.tuple []) with emptyTuple := some u.heap.length }
  | .binPut id => u.setInput id.toNat
  | .longBinPut id => u.setInput id.toNat
  | .mark => some { u with marks := u.stack.length :: u.marks }
  | .newTrue => some (u.pushValue (.bool true))
  | .newFalse => some (u.pushValue (.bool false))
  | .none => some (u.pushValue .none)
  | .binInt1 n => some (u.pushValue (.int (Int64.ofNat n.toNat)))
  | .binInt2 n => some (u.pushValue (.int (Int64.ofNat n.toNat)))
  | .binInt n => some (u.pushValue (.int (Int64.ofInt n.toInt32.toInt)))
  | .long1 n => some (u.pushValue (.int n.toInt64))
  | .binUnicode s => some (u.pushValue (.string s))
  | .binFloat bits => some (u.pushValue (.double bits))
  | .tuple => u.popMark.map fun r => r.2.pushObject (.tuple r.1)
  | .tuple1 =>
    match u.stack with
    | e₁ :: stack => some (pushObject (.tuple [e₁]) { u with stack := stack })
    | _ => none
  | .tuple2 =>
    match u.stack with
    | e₂ :: e₁ :: stack => some (pushObject (.tuple [e₁, e₂]) { u with stack := stack })
    | _ => none
  | .tuple3 =>
    match u.stack with
    | e₃ :: e₂ :: e₁ :: stack =>
      some (pushObject (.tuple [e₁, e₂, e₃]) { u with stack := stack })
    | _ => none
  | .emptyDict => some (u.pushObject (.dict .any .any []))
  | .appends =>
    u.popMark.bind fun r => r.2.stack.head?.bind fun list => r.2.readList list r.1
  | .list => u.popMark.map fun r => r.2.pushObject (.list .any r.1)
  | .dict =>
    u.popMark.bind fun r =>
      (insertAll r.2.heap r.1 []).map fun entries => r.2.pushObject (.dict .any .any entries)
  | .setItems =>
    u.popMark.bind fun r => r.2.stack.head?.bind fun dict => r.2.readDict dict r.1
  | .binGet id => (u.memoTable[id.toNat]?).map fun v => u.pushValue v
  | .longBinGet id => (u.memoTable[id.toNat]?).map fun v => u.pushValue v
  | .stop => some u
  | .global moduleName className => u.readGlobal moduleName className
  | .newObj =>
    match u.stack with
    | _ :: stack => some { u with stack := stack }
    | _ => none
  | .build => u.reduce typeParser
  | .reduce => u.reduce typeParser
  | .proto _ => none

/-- The loop of `run`, with a bound on its turns. -/
def loop : Nat → Bytes → Unpickler → Option Unpickler
  | 0, _, _ => none
  | turns + 1, bytes, u =>
    (readInstruction bytes).bind fun r =>
      (u.exec typeParser r.1).bind fun u =>
        if r.1 = .stop then some u else loop turns r.2 u

/-- `run`.  Every instruction has a byte, so the size of the input bounds the turns. -/
def run (bytes : Bytes) : Option Unpickler :=
  match bytes with
  | 0x80 :: 2 :: rest => loop typeParser rest.length rest {}
  | _ => none

/-- The instructions one after the other. -/
def execAll (is : List Instruction) (u : Unpickler) : Option Unpickler :=
  is.foldlM (fun u i => u.exec typeParser i) u

end Exec

section Run

variable {typeParser : Bytes → Option JitType} {u : Unpickler}

/-- Instructions one after the other. -/
theorem execAll_append (is js : List Instruction) (u : Unpickler) :
    execAll typeParser (is ++ js) u = (execAll typeParser is u).bind (execAll typeParser js) :=
  foldlM_append

variable {is : List Instruction}

theorem loop_encode (h : ∀ i ∈ is, i.Encodable ∧ i ≠ .stop)
    {turns : Nat} (hturns : is.length < turns) (u : Unpickler) :
    loop typeParser turns (is.flatMap Instruction.encode ++ Instruction.stop.encode) u =
      execAll typeParser is u := by
  induction is generalizing turns u with
  | nil =>
    obtain ⟨turns, rfl⟩ := Nat.exists_eq_succ_of_ne_zero (Nat.ne_of_gt hturns)
    rfl
  | cons i is ih =>
    obtain ⟨turns, rfl⟩ : ∃ n, turns = n + 1 :=
      Nat.exists_eq_succ_of_ne_zero (Nat.ne_of_gt (Nat.zero_lt_of_lt hturns))
    obtain ⟨hencodable, hstop⟩ := h i mem_cons_self
    have hread := readInstruction_encode hencodable
      (is.flatMap Instruction.encode ++ Instruction.stop.encode)
    have hrest := fun u => ih (fun j hj => h j (mem_cons_of_mem _ hj))
      (Nat.lt_of_succ_lt_succ hturns) u
    rw [flatMap_cons, append_assoc, loop, hread, Option.bind_some]
    simp only [if_neg hstop, hrest]
    rfl

theorem run_encode (h : ∀ i ∈ is, i.Encodable ∧ i ≠ .stop) :
    run typeParser ((Instruction.proto 2 :: is ++ [Instruction.stop]).flatMap Instruction.encode) =
      execAll typeParser is {} := by
  have hlength : ∀ is : List Instruction, is.length ≤ (is.flatMap Instruction.encode).length := by
    intro is
    induction is with
    | nil => exact Nat.le_refl 0
    | cons i is ih =>
      rw [flatMap_cons, length_append, length_cons]
      have : 1 ≤ i.encode.length := Nat.le_add_left 1 _
      omega
  have hbytes : (Instruction.proto 2 :: is ++ [Instruction.stop]).flatMap Instruction.encode =
      0x80 :: 2 :: (is.flatMap Instruction.encode ++ Instruction.stop.encode) := by
    rw [cons_append, flatMap_cons, flatMap_append, flatMap_singleton]
    rfl
  have hturns : is.length < (is.flatMap Instruction.encode ++ Instruction.stop.encode).length := by
    rw [length_append]
    exact Nat.lt_of_le_of_lt (hlength is) (Nat.lt_add_of_pos_right Nat.one_pos)
  rw [hbytes]
  exact loop_encode h hturns {}

end Run

end Unpickler

end PyTorchCore.Pickle
