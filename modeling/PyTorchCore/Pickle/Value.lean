import PyTorchCore.Pickle.Device
import Mathlib.Data.List.Dedup

/-!
# The values that are pickled

An acyclic `IValue` is written as a tree.  The values that the C++ code holds by an intrusive
pointer (complex numbers, tuples, lists and dicts) carry the address of their object, and an
object that several places share stands at each of them with its address.  A tree is well
formed when an address has one object, and when the keys of a dict are keys that a dict can
have.  `useCount` is the count of the references to an object: the places inside other
objects, the holder of the root, and the references from outside.
-/

namespace PyTorchCore.Pickle

open List

/-- The JIT types of the values. -/
inductive JitType where
  | any | none | bool | int | float | complex | str | device
  | list (elem : JitType)
  | dict (key value : JitType)
  | optional (elem : JitType)
  | tuple (elements : List JitType)

mutual

def JitType.annotationStr : JitType → Bytes
  | .any => ascii "Any"
  | .none => ascii "NoneType"
  | .bool => ascii "bool"
  | .int => ascii "int"
  | .float => ascii "float"
  | .complex => ascii "complex"
  | .str => ascii "str"
  | .device => ascii "Device"
  | .list elem => ascii "List[" ++ elem.annotationStr ++ ascii "]"
  | .dict key value =>
    ascii "Dict[" ++ key.annotationStr ++ ascii ", " ++ value.annotationStr ++ ascii "]"
  | .optional elem => ascii "Optional[" ++ elem.annotationStr ++ ascii "]"
  | .tuple [] => ascii "Tuple[()]"
  | .tuple (first :: rest) =>
    ascii "Tuple[" ++ first.annotationStr ++ JitType.annotationStrs rest ++ ascii "]"

/-- The further elements of a tuple type. -/
def JitType.annotationStrs : List JitType → Bytes
  | [] => []
  | type :: rest => ascii ", " ++ type.annotationStr ++ JitType.annotationStrs rest

end

/-- The element types whose lists have a representation of their own. -/
def JitType.specialized : JitType → Bool
  | .int | .float | .bool => true
  | _ => false

abbrev GenericType := { type : JitType // type.specialized = false }

/-- The address of an object that is held by an intrusive pointer. -/
abbrev Address := Nat

/-- `IValue`.  Doubles are their bits. -/
inductive IValue where
  | none
  | bool (b : Bool)
  | int (n : Int64)
  | double (bits : UInt64)
  | complexDouble (a : Address) (re im : UInt64)
  | string (s : Bytes)
  | device (d : Device)
  | tuple (a : Address) (elements : List IValue)
  | intList (a : Address) (items : List Int64)
  | doubleList (a : Address) (items : List UInt64)
  | boolList (a : Address) (items : List Bool)
  | genericList (a : Address) (elem : GenericType) (items : List IValue)
  | genericDict (a : Address) (key value : JitType) (entries : List (IValue × IValue))

namespace IValue

/-- `internalToPointer`, for the values that are held by pointer; strings are memoised by their
characters. -/
def address : IValue → Option Address
  | .complexDouble a _ _ | .tuple a _ | .intList a _ | .doubleList a _ | .boolList a _
  | .genericList a _ _ | .genericDict a _ _ _ => some a
  | _ => Option.none

/-- Lists and dicts can be written to. -/
def isMutable : IValue → Bool
  | .intList .. | .doubleList .. | .boolList .. | .genericList .. | .genericDict .. => true
  | _ => false

/-- The values directly inside, in the order in which they are visited. -/
def children : IValue → List IValue
  | .tuple _ elements => elements
  | .genericList _ _ items => items
  | .genericDict _ _ _ entries => entries.flatMap fun entry => [entry.1, entry.2]
  | _ => []

mutual

/-- A value and all values inside. -/
def subvalues : IValue → List IValue
  | .tuple a elements => .tuple a elements :: subvaluesOfAll elements
  | .genericList a elem items => .genericList a elem items :: subvaluesOfAll items
  | .genericDict a key value entries =>
    .genericDict a key value entries :: subvaluesOfEntries entries
  | v => [v]

def subvaluesOfAll : List IValue → List IValue
  | [] => []
  | v :: rest => v.subvalues ++ subvaluesOfAll rest

def subvaluesOfEntries : List (IValue × IValue) → List IValue
  | [] => []
  | (key, value) :: rest => key.subvalues ++ (value.subvalues ++ subvaluesOfEntries rest)

end

/-- The places inside objects that hold an object: the address of the holder, the number of
the place in it, and the address that is held. -/
def slots (root : IValue) : List ((Address × Nat) × Address) :=
  root.subvalues.flatMap fun v =>
    match v.address with
    | Option.none => []
    | some a => v.children.zipIdx.filterMap fun child =>
      child.1.address.map fun b => ((a, child.2), b)

/-- `use_count`, with `external` counting the references that are not part of the value. -/
def useCount (root : IValue) (external : Address → Nat) (b : Address) : Nat :=
  ((root.slots.filter fun slot => slot.2 == b).dedup).length +
    (if root.address = some b then 1 else 0) + external b

end IValue

def isNaN (bits : UInt64) : Bool :=
  0x7FF0000000000000 < bits &&& 0x7FFFFFFFFFFFFFFF

/-- `==` on doubles, for their bits. -/
def doubleEqual (x y : UInt64) : Bool :=
  !isNaN x && !isNaN y &&
    (x == y || (x &&& 0x7FFFFFFFFFFFFFFF == 0 && y &&& 0x7FFFFFFFFFFFFFFF == 0))

namespace IValue

/-- The keys that `DictKeyHash` accepts. -/
def hashable : IValue → Bool
  | .int _ | .string _ | .double _ | .complexDouble .. | .bool _ | .device _ => true
  | _ => false

/-- `DictKeyEqualTo` on such keys: the same object, or equal values. -/
def keyEqual : IValue → IValue → Bool
  | .int m, .int n => m == n
  | .string s, .string t => s == t
  | .double x, .double y => doubleEqual x y
  | .complexDouble a re im, .complexDouble b re' im' =>
    a == b || (doubleEqual re re' && doubleEqual im im')
  | .bool b, .bool c => b == c
  | .device d, .device e => d == e
  | _, _ => false

/-- An address has one object, and the keys of a dict are hashable and different. -/
structure WellFormed (root : IValue) : Prop where
  consistent : ∀ v ∈ root.subvalues, ∀ w ∈ root.subvalues, ∀ a,
    v.address = some a → w.address = some a → v = w
  hashable : ∀ a key value entries, IValue.genericDict a key value entries ∈ root.subvalues →
    ∀ entry ∈ entries, entry.1.hashable = true
  different : ∀ a key value entries, IValue.genericDict a key value entries ∈ root.subvalues →
    entries.Pairwise fun entry entry' => entry.1.keyEqual entry'.1 = false

/-- An unreadable device is the value or stands inside. -/
def HoldsUnreadable (root : IValue) : Prop :=
  ∃ d : Device, .device d ∈ root.subvalues ∧ d.Unreadable

def containerType : IValue → Option JitType
  | .genericList _ elem _ => some (.list elem)
  | .genericDict _ key value _ => some (.dict key value)
  | _ => Option.none

/-- The strings of a value that are written with their length: its characters or its type
tag. -/
def text : IValue → Option Bytes
  | .string s => some s
  | v => v.containerType.map JitType.annotationStr

section Subvalues

variable {root v w c : IValue} {a b : Address}

theorem subvaluesOfAll_eq (values : List IValue) :
    subvaluesOfAll values = values.flatMap subvalues := by
  induction values with
  | nil => rfl
  | cons v rest ih => rw [subvaluesOfAll, ih, flatMap_cons]

theorem subvaluesOfEntries_eq (entries : List (IValue × IValue)) : subvaluesOfEntries entries =
      (entries.flatMap fun entry => [entry.1, entry.2]).flatMap subvalues := by
  induction entries with
  | nil => rfl
  | cons entry rest ih =>
    rw [subvaluesOfEntries, ih]
    simp only [flatMap_cons, cons_append, nil_append]

theorem subvalues_eq (v : IValue) : v.subvalues = v :: v.children.flatMap subvalues := by
  cases v with
  | tuple a elements => rw [subvalues, subvaluesOfAll_eq, children]
  | genericList a elem items => rw [subvalues, subvaluesOfAll_eq, children]
  | genericDict a key value entries => rw [subvalues, subvaluesOfEntries_eq, children]
  | _ => simp only [subvalues, children, flatMap_nil]

/-- A value is one of its parts. -/
theorem mem_subvalues_self (v : IValue) : v ∈ v.subvalues := by
  rw [subvalues_eq]
  exact mem_cons_self

theorem mem_subvalues_iff : w ∈ v.subvalues ↔ w = v ∨ ∃ c ∈ v.children, w ∈ c.subvalues := by
  rw [subvalues_eq, mem_cons, mem_flatMap]

theorem sizeOf_child_lt (h : c ∈ v.children) : sizeOf c < sizeOf v := by
  cases v with
  | tuple a elements =>
    have := sizeOf_lt_of_mem (show c ∈ elements from h)
    simp only [tuple.sizeOf_spec]
    omega
  | genericList a elem items =>
    have := sizeOf_lt_of_mem (show c ∈ items from h)
    simp only [genericList.sizeOf_spec]
    omega
  | genericDict a key value entries =>
    obtain ⟨⟨k, w⟩, hentry, hc⟩ := mem_flatMap.mp (show c ∈ entries.flatMap _ from h)
    have := sizeOf_lt_of_mem hentry
    simp only [Prod.mk.sizeOf_spec] at this
    simp only [mem_cons, not_mem_nil, or_false] at hc
    simp only [genericDict.sizeOf_spec]
    rcases hc with rfl | rfl <;> omega
  | _ => cases h

/-- Induction on a value: a property holds of a value when it holds of those directly
inside. -/
theorem childInduction {P : IValue → Prop} (h : ∀ v, (∀ c ∈ v.children, P c) → P v)
    (v : IValue) : P v :=
  h v fun c hc =>
    have := sizeOf_child_lt hc
    childInduction h c
termination_by sizeOf v

theorem sizeOf_le_of_mem_subvalues : w ∈ v.subvalues → sizeOf w ≤ sizeOf v := by
  induction v using childInduction with
  | h v ih =>
    intro hw
    rcases mem_subvalues_iff.mp hw with rfl | ⟨c, hc, hw⟩
    · exact Nat.le_refl _
    · exact (ih c hc hw).trans (sizeOf_child_lt hc).le

theorem subvalues_trans : w ∈ v.subvalues → c ∈ w.subvalues → c ∈ v.subvalues := by
  induction v using childInduction with
  | h v ih =>
    intro hw hc
    rcases mem_subvalues_iff.mp hw with rfl | ⟨d, hd, hw⟩
    · exact hc
    · exact mem_subvalues_iff.mpr (.inr ⟨d, hd, ih d hd hw hc⟩)

/-- The parts of a part are parts. -/
theorem mem_subvalues_child (hv : v ∈ root.subvalues) (hc : c ∈ v.children) : c ∈ root.subvalues :=
  subvalues_trans hv (mem_subvalues_iff.mpr (.inr ⟨c, hc, mem_subvalues_self c⟩))

theorem eq_root_or_child :
    v ∈ root.subvalues → v = root ∨ ∃ w ∈ root.subvalues, v ∈ w.children := by
  induction root using childInduction with
  | h root ih =>
    intro hv
    rcases mem_subvalues_iff.mp hv with rfl | ⟨c, hc, hv⟩
    · exact .inl rfl
    · rcases ih c hc hv with rfl | ⟨w, hw, hmem⟩
      · exact .inr ⟨root, mem_subvalues_self root, hc⟩
      · exact .inr ⟨w, mem_subvalues_iff.mpr (.inr ⟨c, hc, hw⟩), hmem⟩

theorem HoldsUnreadable.of_child (hc : c ∈ v.children) (h : c.HoldsUnreadable) :
    v.HoldsUnreadable := by
  obtain ⟨d, hd, hunreadable⟩ := h
  exact ⟨d, mem_subvalues_iff.mpr (.inr ⟨c, hc, hd⟩), hunreadable⟩

theorem address_of_child (hc : c ∈ v.children) : ∃ a, v.address = some a := by
  cases v <;> first | exact ⟨_, rfl⟩ | cases hc

/-- The value `w` has the address `a` and is inside `v` or is `v`. -/
def Occurs (a : Address) (v : IValue) : Prop :=
  ∃ w ∈ v.subvalues, w.address = some a

/-- What occurs in a child occurs in the value. -/
theorem Occurs.child (hc : c ∈ v.children) (h : Occurs a c) : Occurs a v := by
  obtain ⟨w, hw, ha⟩ := h
  exact ⟨w, mem_subvalues_iff.mpr (.inr ⟨c, hc, hw⟩), ha⟩

/-- No object contains itself. -/
theorem address_not_mem_child (wf : root.WellFormed) (hv : v ∈ root.subvalues)
    (ha : v.address = some a) (hc : c ∈ v.children) : ¬ Occurs a c := by
  rintro ⟨w, hw, hwa⟩
  have hroot : w ∈ root.subvalues := subvalues_trans (mem_subvalues_child hv hc) hw
  have heq : w = v := wf.consistent w hroot v hv a hwa ha
  have hle := sizeOf_le_of_mem_subvalues hw
  have hlt := sizeOf_child_lt hc
  rw [heq] at hle
  omega

/-- The place `i` of the object at `a` holds the object at `b`. -/
def Slot (root : IValue) (a : Address) (i : Nat) (b : Address) : Prop :=
  ((a, i), b) ∈ root.slots

theorem slot_of_child {i : Nat} (hv : v ∈ root.subvalues) (ha : v.address = some a)
    (hc : v.children[i]? = some c) (hb : c.address = some b) : root.Slot a i b := by
  refine mem_flatMap.mpr ⟨v, hv, ?_⟩
  rw [ha]
  exact mem_filterMap.mpr ⟨(c, i), mem_zipIdx_iff_getElem?.mpr hc, by
    rw [hb]; rfl⟩

theorem one_lt_useCount {external : Address → Nat} {a' : Address} {i i' : Nat}
    (h : root.Slot a i b) (h' : root.Slot a' i' b) (hne : (a, i) ≠ (a', i')) :
    1 < root.useCount external b := by
  have hmem : ∀ place, (place, b) ∈ root.slots →
      (place, b) ∈ (root.slots.filter fun slot => slot.2 == b).dedup := by
    intro place hplace
    rw [mem_dedup, mem_filter]
    exact ⟨hplace, beq_self_eq_true b⟩
  have htwo : ∀ {l : List ((Address × Nat) × Address)} {x y}, x ∈ l → y ∈ l → x ≠ y →
      1 < l.length := by
    intro l x y hx hy hxy
    match l, hx, hy with
    | [z], hx, hy =>
      exact absurd ((mem_singleton.mp hx).trans (mem_singleton.mp hy).symm) hxy
    | _ :: _ :: _, _, _ => simp
  have hlen := htwo (hmem _ h) (hmem _ h') fun heq => hne (congrArg Prod.fst heq)
  rw [useCount]
  omega

end Subvalues

end IValue

end PyTorchCore.Pickle
