import PyTorchCore.Pickle.Pickler
import PyTorchCore.Pickle.Unpickler

/-!
# The round trip

A placement says for the addresses of the pickled value at which place of the unpickler's memory
their objects have come.  A value and a value of the unpickler correspond when they are equal, or
when the pointer is the place of the address; an object corresponds to a value when it has the
same kind, the same type tags and corresponding parts in the same order.
-/

namespace PyTorchCore.Pickle

open Option List

abbrev Placement := Address → Option Pointer

/-- The value of the unpickler for a pickled one. -/
def valueOf (φ : Placement) : IValue → Option Value
  | .none => some .none
  | .bool b => some (.bool b)
  | .int n => some (.int n)
  | .double bits => some (.double bits)
  | .string s => some (.string s)
  | .device d => some (.device d)
  | v => v.address.bind fun a => (φ a).map .ref

def Corresponds (φ : Placement) (v : IValue) (w : Value) : Prop :=
  valueOf φ v = some w

/-- The object is the one of the pickled value, up to the places of the objects inside. -/
def ObjectCorresponds (φ : Placement) : IValue → Object → Prop
  | .complexDouble _ re im, .complex re' im' => re' = re ∧ im' = im
  | .tuple _ elements, .tuple values => List.Forall₂ (Corresponds φ) elements values
  | .intList _ items, .list elem values => elem = .int ∧ values = items.map .int
  | .doubleList _ items, .list elem values => elem = .float ∧ values = items.map .double
  | .boolList _ items, .list elem values => elem = .bool ∧ values = items.map .bool
  | .genericList _ elem items, .list elem' values =>
    elem' = elem.val ∧ List.Forall₂ (Corresponds φ) items values
  | .genericDict _ key value entries, .dict key' value' values =>
    key' = key ∧ value' = value ∧ List.Forall₂ (fun entry entry' =>
      Corresponds φ entry.1 entry'.1 ∧ Corresponds φ entry.2 entry'.2) entries values
  | _, _ => False

/-- The value `w` in the memory of the unpickler equals the pickled value. -/
structure SameValue (root : IValue) (u : Unpickler) (w : Value) (φ : Placement) : Prop where
  value : Corresponds φ root w
  objects : ∀ v ∈ root.subvalues, ∀ a, v.address = some a →
    ∃ p o, φ a = some p ∧ u.heap[p]? = some o ∧ ObjectCorresponds φ v o
  identity : ∀ v ∈ root.subvalues, ∀ v' ∈ root.subvalues, v.isMutable = true →
    v'.isMutable = true → ∀ a a', v.address = some a → v'.address = some a' →
      φ a = φ a' → a = a'

/-- The run on the pickled bytes ends with the value alone on the stack and without marks. -/
def RoundTrips (typeParser : Bytes → Option JitType) (useCount : Address → Nat)
    (root : IValue) : Prop :=
  ∃ u w φ, Unpickler.run typeParser (Pickler.pickle useCount root) = some u ∧
    u.stack = [w] ∧ u.marks = [] ∧ SameValue root u w φ

inductive MemoKey where
  | ivalue (a : Address)
  | global (key : Bytes)
  | string (s : Bytes)
  | device (s : Bytes)
  deriving DecidableEq

namespace IValue

/-- The keys under which the parts of a value itself are entered in the memo tables. -/
def ownKeys : IValue → List MemoKey
  | .string s => [.string s]
  | .device d =>
    [.global (Pickler.globalKey (ascii "torch") (ascii "device")), .string d.str,
      .device d.str]
  | .complexDouble _ _ _ =>
    [.global (Pickler.globalKey (ascii "builtins") (ascii "complex"))]
  | .intList _ _ => [.global (Pickler.globalKey Pickler.jitPickle (ascii "build_intlist"))]
  | .doubleList _ _ => [.global (Pickler.globalKey Pickler.jitPickle (ascii "build_doublelist"))]
  | .boolList _ _ => [.global (Pickler.globalKey Pickler.jitPickle (ascii "build_boollist"))]
  | .genericList _ elem _ =>
    [.global (Pickler.globalKey Pickler.jitPickle (ascii "restore_type_tag")),
      .string (JitType.list elem).annotationStr]
  | .genericDict _ key value _ =>
    [.global (Pickler.globalKey Pickler.jitPickle (ascii "restore_type_tag")),
      .string (JitType.dict key value).annotationStr]
  | _ => []

/-- The key of the pointer, when the object has more than one reference. -/
def pointerKeys (useCount : Address → Nat) (v : IValue) : List MemoKey :=
  match v.address with
  | Option.none => []
  | some a => if 1 < useCount a then [.ivalue a] else []

/-- The keys of all entries that a value needs. -/
def memoKeys (useCount : Address → Nat) (root : IValue) : List MemoKey :=
  root.subvalues.flatMap fun v => v.ownKeys ++ v.pointerKeys useCount

/-- There are enough numbers for the entries of the memo tables. -/
def MemoFits (useCount : Address → Nat) (root : IValue) : Prop :=
  (root.memoKeys useCount).dedup.length ≤ 2 ^ 32

end IValue

section Correspondence

variable {φ φ' : Placement} {v : IValue} {w : Value} {o : Object} {a : Address}

theorem corresponds_ref (ha : v.address = some a) {p : Pointer} (hp : φ a = some p) :
    Corresponds φ v (.ref p) := by
  cases v <;> cases ha <;> simp [Corresponds, valueOf, IValue.address, hp]

theorem eq_ref_of_corresponds (ha : v.address = some a) (h : Corresponds φ v w) :
    ∃ p, φ a = some p ∧ w = .ref p := by
  have hbind : (φ a).map Value.ref = some w := by
    cases v <;> cases ha <;> exact h
  obtain ⟨p, hp, rfl⟩ := map_eq_some_iff.mp hbind
  exact ⟨p, hp, rfl⟩

/-- The placement `φ'` has the places of `φ`. -/
def Placement.Extends (φ φ' : Placement) : Prop :=
  ∀ a p, φ a = some p → φ' a = some p

/-- More objects placed, and the values still correspond. -/
theorem Corresponds.mono (hφ : φ.Extends φ') (h : Corresponds φ v w) : Corresponds φ' v w := by
  cases haddress : v.address with
  | none => cases v <;> first | exact h | cases haddress
  | some a =>
    obtain ⟨p, hp, rfl⟩ := eq_ref_of_corresponds haddress h
    exact corresponds_ref haddress (hφ a p hp)

theorem ObjectCorresponds.mono (hφ : φ.Extends φ') (h : ObjectCorresponds φ v o) :
    ObjectCorresponds φ' v o := by
  have hall : ∀ {vs : List IValue} {ws : List Value}, Forall₂ (Corresponds φ) vs ws →
      Forall₂ (Corresponds φ') vs ws := fun hvs => hvs.imp fun _ _ => Corresponds.mono hφ
  cases v <;> cases o <;> try exact h
  case tuple.tuple => exact hall h
  case genericList.list => exact ⟨h.1, hall h.2⟩
  case genericDict.dict =>
      exact ⟨h.1, h.2.1, h.2.2.imp fun _ _ hentry =>
        ⟨hentry.1.mono hφ, hentry.2.mono hφ⟩⟩

end Correspondence

end PyTorchCore.Pickle
