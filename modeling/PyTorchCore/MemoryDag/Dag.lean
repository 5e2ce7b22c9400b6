import Mathlib.Data.Finset.Basic
import Mathlib.Data.List.FinRange

/-!
# The memory DAG

An element of the DAG stands for a value or for what values may contain.  It points to the
elements it may alias and has a set of elements it contains.  An element that points to
nothing is a memory location.  The queries follow the pointers and the containment and
keep what they find in two caches on each element.

The functions below recurse along the DAG and write the caches while they run.  They take a
fuel and have no result when it runs out; a sparse bit vector is a finite set that is
traversed by index.
-/

namespace PyTorchCore.MemoryDag

open Function

/-- The elements with their pointers and containments, as the builder leaves them. -/
structure MemoryDAG (n : ℕ) where
  pointsTo : Fin n → Finset (Fin n)
  containedElements : Fin n → Finset (Fin n)
  /-- `addToContainedElements` asserts "Elements cannot contain themselves". -/
  contained_ne : ∀ e, e ∉ containedElements e

/-- A set of elements. -/
abbrev MemoryLocations (n : ℕ) := Finset (Fin n)

structure Caches (n : ℕ) where
  cachedMemoryLocations_ : Fin n → Option (MemoryLocations n)
  cachedAllContainedMemoryLocations_ : Fin n → Option (MemoryLocations n)

namespace Caches

variable {n : ℕ}

def empty : Caches n := ⟨fun _ => none, fun _ => none⟩

def setMemoryLocations (c : Caches n) (e : Fin n) (m : MemoryLocations n) : Caches n :=
  { c with cachedMemoryLocations_ := Function.update c.cachedMemoryLocations_ e (some m) }

def setAllContained (c : Caches n) (e : Fin n) (m : MemoryLocations n) : Caches n :=
  { c with
    cachedAllContainedMemoryLocations_ :=
      Function.update c.cachedAllContainedMemoryLocations_ e (some m) }

variable {c : Caches n} {e : Fin n} {m : MemoryLocations n}

@[simp] theorem setMemoryLocations_self :
    (c.setMemoryLocations e m).cachedMemoryLocations_ e = some m :=
  update_self _ _ _

theorem setMemoryLocations_ne {x : Fin n} (hx : x ≠ e) :
    (c.setMemoryLocations e m).cachedMemoryLocations_ x = c.cachedMemoryLocations_ x :=
  update_of_ne hx _ _

@[simp] theorem setAllContained_self :
    (c.setAllContained e m).cachedAllContainedMemoryLocations_ e = some m :=
  update_self _ _ _

/-- Another entry of the second cache. -/
theorem setAllContained_ne {x : Fin n} (hx : x ≠ e) :
    (c.setAllContained e m).cachedAllContainedMemoryLocations_ x =
      c.cachedAllContainedMemoryLocations_ x :=
  update_of_ne hx _ _

end Caches

/-- The members of a set in the order of their indices. -/
def elems {n : ℕ} (m : MemoryLocations n) : List (Fin n) :=
  (List.finRange n).filter (· ∈ m)

namespace MemoryDAG

variable {n : ℕ} (dag : MemoryDAG n)

def getMemoryLocations : ℕ → Fin n → Caches n → Option (MemoryLocations n × Caches n)
  | 0, _, _ => none
  | fuel + 1, e, c =>
    match c.cachedMemoryLocations_ e with
    | some m => some (m, c)
    | none => do
      let (ret, c) ←
        if dag.pointsTo e = ∅ then some ({e}, c)
        else
          (elems (dag.pointsTo e)).foldlM
            (fun (state : MemoryLocations n × Caches n) el => do
              let (ret, c) := state
              let (m, c) ← getMemoryLocations fuel el c
              some (ret ∪ m, c)) (∅, c)
      some (ret, c.setMemoryLocations e ret)

/-- One iteration of the loops below: a call, and a write to the accumulator. -/
def visit (collect : Fin n → MemoryLocations n × Caches n → Option (MemoryLocations n × Caches n))
    (save : MemoryLocations n → Caches n → Caches n) (state : MemoryLocations n × Caches n)
    (el : Fin n) : Option (MemoryLocations n × Caches n) := do
  let (cont, c) ← collect el state
  some (cont, save cont c)

/-- `MemoryDAG::collectAllContainedMemoryLocationsImpl`, over the function it calls; `save` writes
to the accumulator. -/
def collectImpl (collect : Fin n → MemoryLocations n × Caches n →
    Option (MemoryLocations n × Caches n))
    (save : MemoryLocations n → Caches n → Caches n) (fuel : ℕ) (e : Fin n)
    (state : MemoryLocations n × Caches n) : Option (MemoryLocations n × Caches n) := do
  let (cont, c) := state
  let cont := insert e cont
  let c := save cont c
  let (locs, c) ← dag.getMemoryLocations fuel e c
  let state ← (elems locs).foldlM (visit collect save) (cont, c)
  (elems (dag.containedElements e)).foldlM (visit collect save) state

/-- `MemoryDAG::collectAllContainedMemoryLocations`. -/
def collectAllContained : ℕ → Fin n → MemoryLocations n × Caches n →
    Option (MemoryLocations n × Caches n)
  | 0, _, _ => none
  | fuel + 1, e, (cont, c) =>
    if e ∈ cont then some (cont, c)
    else
      match c.cachedAllContainedMemoryLocations_ e with
      | some m => some (cont ∪ m, c)
      | none => do
        let (cache, c) ←
          dag.collectImpl (collectAllContained fuel) (fun _ c => c) fuel e (∅, c)
        some (cont ∪ cache, c.setAllContained e cache)

/-- `MemoryDAG::getAllContainedMemoryLocations`: the cache of the element is the
accumulator. -/
def getAllContained (fuel : ℕ) (e : Fin n) (c : Caches n) :
    Option (MemoryLocations n × Caches n) :=
  match c.cachedAllContainedMemoryLocations_ e with
  | some m => some (m, c)
  | none =>
    dag.collectImpl (dag.collectAllContained fuel) (fun m c => c.setAllContained e m) fuel e
      (∅, c.setAllContained e ∅)

def mayAlias (fuel : ℕ) (a b : Fin n) (c : Caches n) : Option (Bool × Caches n) := do
  let (aMemLoc, c) ← dag.getMemoryLocations fuel a c
  let (bMemLoc, c) ← dag.getMemoryLocations fuel b c
  some (decide (aMemLoc ∩ bMemLoc ≠ ∅), c)

/-- `MemoryDAG::mayContainAlias` of two elements. -/
def mayContainAlias (fuel : ℕ) (a b : Fin n) (c : Caches n) : Option (Bool × Caches n) := do
  let (aLocs, c) ← dag.getAllContained fuel a c
  let (bLocs, c) ← dag.getAllContained fuel b c
  some (decide (aLocs ∩ bLocs ≠ ∅), c)

/-- `collectAllContainedMemoryLocations` for each element, into one accumulator. -/
def collectAll (fuel : ℕ) (es : List (Fin n)) (c : Caches n) :
    Option (MemoryLocations n × Caches n) :=
  es.foldlM (fun state e => dag.collectAllContained fuel e state) (∅, c)

/-- `MemoryDAG::mayContainAlias` of two arrays. -/
def mayContainAliasArrays (fuel : ℕ) (a b : List (Fin n)) (c : Caches n) :
    Option (Bool × Caches n) :=
  if a.length = 0 ∨ b.length = 0 then some (false, c)
  else do
    let (all_a_mlocs, c) ← dag.collectAll fuel a c
    let (all_b_mlocs, c) ← dag.collectAll fuel b c
    some (decide (all_a_mlocs ∩ all_b_mlocs ≠ ∅), c)

end MemoryDAG

end PyTorchCore.MemoryDag
