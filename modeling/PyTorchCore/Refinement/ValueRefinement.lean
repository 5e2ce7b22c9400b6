import PyTorchCore.Refinement.Execution

/-!
# What a boolean tells about other values

A comparison with a constant carries refinements: if it is true then a value, or the length of a
list, is known.
-/

namespace PyTorchCore.Refinement

open Jit
open Function

variable {X W E : Type} {M : Memory X W}

/-- `ListRefinement`: the integer that a value, or the length of a list, is known to be. -/
abbrev ListRefinement := Nat → Option Int

def ListRefinement.empty : ListRefinement :=
  fun _ => none

def intersectRefinements (ref1 ref2 : ListRefinement) : ListRefinement := fun v =>
  match ref1 v, ref2 v with
  | some k1, some k2 => if k1 = k2 then some k1 else none
  | _, _ => none

def unionRefinements (ref1 ref2 : ListRefinement) : ListRefinement :=
  fun v => (ref1 v).or (ref2 v)

structure BooleanRefinementMapping where
  trueRefine : ListRefinement
  falseRefine : ListRefinement

namespace BooleanRefinementMapping

/-- A mapping that tells nothing. -/
def empty : BooleanRefinementMapping :=
  { trueRefine := .empty, falseRefine := .empty }

def trueRefinements (trueRefine : ListRefinement) : BooleanRefinementMapping :=
  { trueRefine, falseRefine := .empty }

def falseRefinements (falseRefine : ListRefinement) : BooleanRefinementMapping :=
  { trueRefine := .empty, falseRefine }

/-- `intersectBooleanRefinementMapping`. -/
def intersect (m other : BooleanRefinementMapping) : BooleanRefinementMapping where
  trueRefine := intersectRefinements m.trueRefine other.trueRefine
  falseRefine := intersectRefinements m.falseRefine other.falseRefine

/-- The refinements of the negation. -/
def swap (m : BooleanRefinementMapping) : BooleanRefinementMapping where
  trueRefine := m.falseRefine
  falseRefine := m.trueRefine

/-- What is known if the boolean is `b`. -/
def side (m : BooleanRefinementMapping) (b : Bool) : ListRefinement :=
  if b then m.trueRefine else m.falseRefine

end BooleanRefinementMapping

/-- The static types of values, as far as the passes ask for them. -/
structure Types where
  isInt : Nat → Bool
  isBool : Nat → Bool
  isList : Nat → Bool

/-- The state of a refiner: `constant` and `lenOf` are what the graph tells of a value, `subst`
are the values whose uses were replaced, and `fresh` is the next value that is not in use. -/
structure Refs (X : Type) where
  fresh : Nat
  constant : Nat → Option (Val X)
  lenOf : Nat → Option Nat
  info : Nat → Option BooleanRefinementMapping
  subst : Nat → Nat
  changed : Bool

namespace Refs

/-- `constant_as<int64_t>`. -/
def constInt (st : Refs X) (v : Nat) : Option Int :=
  match st.constant v with
  | some (.int k) => some k
  | _ => none

/-- `constant_as<bool>`. -/
def constBool (st : Refs X) (v : Nat) : Option Bool :=
  match st.constant v with
  | some (.bool b) => some b
  | _ => none

/-- `info[v] = m`. -/
def setInfo (st : Refs X) (v : Nat) (m : BooleanRefinementMapping) : Refs X :=
  { st with info := Function.update st.info v (some m) }

@[simp] theorem info_setInfo_self (st : Refs X) (v : Nat) (m : BooleanRefinementMapping) :
    (st.setInfo v m).info v = some m :=
  update_self _ _ _

/-- The refinement of another value. -/
theorem info_setInfo_of_ne (st : Refs X) {v w : Nat} (h : w ≠ v) (m : BooleanRefinementMapping) :
    (st.setInfo v m).info w = st.info w :=
  update_of_ne h _ _

/-- `info[v]`, which makes an entry if there is none. -/
def touch (st : Refs X) (v : Nat) : BooleanRefinementMapping × Refs X :=
  match st.info v with
  | some m => (m, st)
  | none => (.empty, st.setInfo v .empty)

def replaceAllUsesWith (st : Refs X) (v newValue : Nat) : Refs X :=
  { st with subst := Function.update st.subst v newValue, changed := true }

/-- `insertConstant`; the constant is `st.fresh`. -/
def insertConstant (st : Refs X) (k : Int) : Refs X :=
  { st with
    fresh := st.fresh + 1
    constant := Function.update st.constant st.fresh (some (.int k))
    changed := true }

@[simp] theorem constant_insertConstant_self (st : Refs X) (k : Int) :
    (st.insertConstant k).constant st.fresh = some (.int k) :=
  update_self _ _ _

theorem constant_insertConstant_of_ne (st : Refs X) (k : Int) {w : Nat} (h : w ≠ st.fresh) :
    (st.insertConstant k).constant w = st.constant w :=
  update_of_ne h _ _

end Refs

section Operators

def compareWithConstant (eq : Bool) (constInput nonConstInput output : Nat) (st : Refs X) :
    Refs X :=
  match st.constBool constInput, st.info nonConstInput with
  | some c, some m => st.setInfo output (if c = eq then m else m.swap)
  | _, _ => st

/-- `handleCommonRefinentOperators`; the second component says that the block throws. -/
def handleCommonRefinentOperators (types : Types) (op : Op M E) (inputs outputs : List Nat)
    (st : Refs X) : Refs X × Bool :=
  match op, inputs, outputs with
  | .raise _, _, _ => (st, true)
  | .not, [a], [o] =>
    if types.isBool a then
      match st.info a with
      | some m => (st.setInfo o m.swap, false)
      | none => (st, false)
    else (st, false)
  | .compareBool eq, [a, b], [o] =>
    (compareWithConstant eq b a o (compareWithConstant eq a b o st), false)
  | _, _, _ => (st, false)

end Operators

section Joins

/-- The output of a `prim::If`: if it is not the constant `b` of one block, the other block was
taken. -/
def refineByConstant (b : Bool) (otherV : Nat) (otherBlock : ListRefinement) (st : Refs X) :
    BooleanRefinementMapping × Refs X :=
  let touched := st.touch otherV
  (if b then
      .falseRefinements (unionRefinements touched.1.falseRefine otherBlock)
    else .trueRefinements (unionRefinements touched.1.trueRefine otherBlock), touched.2)

/-- What an output of a `prim::If` tells, if no block throws. -/
def joinMapping (trueV falseV : Nat) (trueBlock falseBlock : ListRefinement) (st : Refs X) :
    BooleanRefinementMapping × Refs X :=
  match st.constBool trueV, st.constBool falseV with
  | some b, _ => refineByConstant b falseV falseBlock st
  | none, some b => refineByConstant b trueV trueBlock st
  | none, none =>
    match st.info trueV, st.info falseV with
    | some m1, some m2 => (m1.intersect m2, st)
    | _, _ => (.empty, st)

/-- The outputs of a `prim::If`, if no block throws.  The first one of which nothing can be told
ends the loop. -/
def joinOutputs (types : Types) (trueBlock falseBlock : ListRefinement) :
    List (Join Nat) → Refs X → Refs X
  | [], st => st
  | j :: joins, st =>
    if types.isBool j.output then
      if (st.info j.thenOutput).isNone ∧ (st.info j.elseOutput).isNone
          ∧ (st.constBool j.thenOutput).isNone ∧ (st.constBool j.elseOutput).isNone then st
      else
        let out := joinMapping j.thenOutput j.elseOutput trueBlock falseBlock st
        joinOutputs types trueBlock falseBlock joins (out.2.setInfo j.output out.1)
    else st

/-- The outputs of a `prim::If` take over what the outputs of a block tell. -/
def takeOver (source : Join Nat → Nat) : List (Join Nat) → Refs X → Refs X
  | [], st => st
  | j :: joins, st =>
    takeOver source joins
      (match st.info (source j) with
        | some m => st.setInfo j.output m
        | none => st)

/-- `joinIfRefinements`: what is known behind the `prim::If`, and whether its block throws. -/
def joinIfRefinements (types : Types) (joins : List (Join Nat)) (trueThrows falseThrows : Bool)
    (currBlock trueBlock falseBlock : ListRefinement) (st : Refs X) :
    ListRefinement × Bool × Refs X :=
  match trueThrows, falseThrows with
  | true, true => (currBlock, true, st)
  | true, false =>
    (unionRefinements currBlock falseBlock, false, takeOver Join.elseOutput joins st)
  | false, true =>
    (unionRefinements currBlock trueBlock, false, takeOver Join.thenOutput joins st)
  | false, false => (currBlock, false, joinOutputs types trueBlock falseBlock joins st)

end Joins

end PyTorchCore.Refinement
