import Mathlib.Algebra.Module.Rat
import Mathlib.Data.Fintype.Basic

/-!
# The DDP reducer

`c10d::Reducer` of one rank, for dense parameters, without a communication hook and without a
static graph. A gradient is an element of a vector space over the rational numbers, so that sums
and averages are exact.

What the rank asks of the process group is recorded in `issued`, with the data as they were at
that time.
-/

namespace PyTorchCore.Ddp

universe u

/-- `bucket_indices`: the parameters by buckets.  A bucket that is empty is refused by
`initialize_buckets`. -/
structure Assignment (n : Nat) where
  buckets : List (List (Fin n))
  nonempty : ∀ b ∈ buckets, b ≠ []
  nodup : buckets.flatten.Nodup
  complete : ∀ v, v ∈ buckets.flatten

namespace Assignment

variable {n : Nat}

def bucket (A : Assignment n) (i : Nat) : List (Fin n) :=
  A.buckets.getD i []

/-- `variable_locators_`: the bucket of a parameter. -/
def locator (A : Assignment n) (v : Fin n) : Nat :=
  A.buckets.findIdx (fun b => v ∈ b)

end Assignment

/-- The options of a reducer, and the number of ranks. -/
structure Config (n : Nat) where
  assignment : Assignment n
  worldSize : Nat
  findUnusedParameters : Bool
  gradientAsBucketView : Bool

/-- The `grad` field of a parameter: undefined, a tensor of its own, or the view of the
bucket that belongs to the parameter. -/
inductive Grad (M : Type u)
  | undefined
  | stored (g : M)
  | bucketView
deriving DecidableEq

/-- What a rank asks of the process group, with its contribution. -/
inductive Collective (n : Nat) (M : Type u)
  | bucket (i : Nat) (values : Fin n → M)
  | usedMap (used : Fin n → Nat)

/-- A request without its data. -/
inductive Request
  | bucket (i : Nat)
  | usedMap
deriving DecidableEq

def Collective.request {n : Nat} {M : Type u} : Collective n M → Request
  | .bucket i _ => .bucket i
  | .usedMap _ => .usedMap

/-- The checks of the reducer that can fail. -/
inductive Failure
  | markedTwice
  | bucketOrder
  | undefinedGradient
  | aliasOfBucketView
  | notBucketView
  | bucketsNotLaunched
  | hooksNotExpected
  | finalizeNotRequired
  | noFutureWork
deriving DecidableEq

/-- The state of a reducer.  `contents` are the bucket views of the parameters. -/
structure Reducer (n : Nat) (M : Type u) where
  grad : Fin n → Grad M
  contents : Fin n → M
  replicaPending : Nat → Nat
  bucketPending : Nat → Nat
  futureWork : Nat → Bool
  nextBucket : Nat
  expectAutogradHooks : Bool
  requireFinalize : Bool
  hasMarkedUnusedParameters : Bool
  unusedParameters : List (Fin n)
  readyParams : Finset (Fin n)
  localUsedMap : Fin n → Nat
  localUsedMapReduced : Bool
  divFactor : Option Nat
  issued : List (Collective n M)
  /-- The number of finalize callbacks that were queued. -/
  callbacks : Nat

/-- `--` on a `size_t`. -/
def decrement (k : Nat) : Nat :=
  if k = 0 then 2 ^ 64 - 1 else k - 1

section Marking

variable {n : Nat} {M : Type u} [AddCommGroup M] [Module ℚ M] (cfg : Config n)

def markVariableReadyDense (v : Fin n) (d : Nat) (s : Reducer n M) :
    Except Failure (Reducer n M) :=
  match s.grad v with
  | .undefined =>
    if cfg.findUnusedParameters ∧ s.localUsedMap v ≠ 0 then .error .undefinedGradient
    else .ok { s with contents := Function.update s.contents v 0 }
  | .stored g =>
    let s := { s with contents := Function.update s.contents v ((d : ℚ)⁻¹ • g) }
    .ok (if cfg.gradientAsBucketView then
      { s with grad := Function.update s.grad v .bucketView } else s)
  | .bucketView =>
    if cfg.gradientAsBucketView then
      .ok { s with contents := Function.update s.contents v ((d : ℚ)⁻¹ • s.contents v) }
    else .error .aliasOfBucketView

section

omit [AddCommGroup M] [Module ℚ M]

/-- `all_reduce_bucket` of the bucket whose turn it is. -/
def allReduceBucket (s : Reducer n M) : Reducer n M :=
  { s with
    futureWork := Function.update s.futureWork s.nextBucket true
    issued := s.issued ++ [.bucket s.nextBucket s.contents] }

/-- The loop of `mark_bucket_ready`; the first argument bounds the number of buckets
that are left. -/
def launchReady : Nat → Reducer n M → Reducer n M
  | 0, s => s
  | k + 1, s =>
    if s.nextBucket < cfg.assignment.buckets.length ∧ s.bucketPending s.nextBucket = 0 then
      launchReady k { allReduceBucket s with nextBucket := s.nextBucket + 1 }
    else s

def markBucketReady (i : Nat) (s : Reducer n M) : Except Failure (Reducer n M) :=
  if i < s.nextBucket then .error .bucketOrder
  else if s.nextBucket < i then .ok s
  else .ok (launchReady cfg (cfg.assignment.buckets.length - s.nextBucket) s)

def allReduceLocalUsedMap (s : Reducer n M) : Reducer n M :=
  { s with issued := s.issued ++ [.usedMap s.localUsedMap] }

/-- The end of `mark_variable_ready`: behind the last bucket the used map is reduced and
the callback is queued. -/
def queueFinalize (s : Reducer n M) : Reducer n M :=
  if s.nextBucket = cfg.assignment.buckets.length then
    let s := if cfg.findUnusedParameters then allReduceLocalUsedMap s else s
    { s with callbacks := s.callbacks + 1 }
  else s

/-- The counters of `mark_variable_ready`. -/
def countDown (i : Nat) (s : Reducer n M) : Except Failure (Reducer n M) :=
  let s := { s with
    replicaPending := Function.update s.replicaPending i (decrement (s.replicaPending i)) }
  if s.replicaPending i = 0 then
    let s := { s with
      bucketPending := Function.update s.bucketPending i (decrement (s.bucketPending i)) }
    if s.bucketPending i = 0 then markBucketReady cfg i s else .ok s
  else .ok s

end

def markVariableReady (v : Fin n) (s : Reducer n M) : Except Failure (Reducer n M) :=
  if v ∈ s.readyParams then .error .markedTwice
  else
    let d := s.divFactor.getD cfg.worldSize
    let s := { s with
      readyParams := insert v s.readyParams
      requireFinalize := true
      divFactor := some d }
    (markVariableReadyDense cfg v d s).bind (fun s =>
      (countDown cfg (cfg.assignment.locator v) s).map (queueFinalize cfg))

/-- `mark_variable_ready` of several parameters. -/
def markAllReady : List (Fin n) → Reducer n M → Except Failure (Reducer n M)
  | [], s => .ok s
  | v :: vs, s => (markVariableReady cfg v s).bind (markAllReady vs)

omit [AddCommGroup M] [Module ℚ M] in
/-- The part of `autograd_hook` that records in `local_used_map_` that a parameter was
used, if its gradient is defined. -/
def markLocallyUsed (v : Fin n) (s : Reducer n M) : Reducer n M :=
  match s.grad v with
  | .undefined => s
  | _ =>
    if cfg.findUnusedParameters then
      { s with localUsedMap := Function.update s.localUsedMap v 1 }
    else s

def autogradHook (v : Fin n) (s : Reducer n M) : Except Failure (Reducer n M) :=
  if s.expectAutogradHooks then
    let s := markLocallyUsed cfg v s
    let unused := if s.hasMarkedUnusedParameters then [] else s.unusedParameters
    (markAllReady cfg unused { s with hasMarkedUnusedParameters := true }).bind
      (markVariableReady cfg v)
  else .ok s

section

omit [AddCommGroup M] [Module ℚ M]

/-- `reset_bucket_counting`; a bucket has one replica. -/
def resetBucketCounting (s : Reducer n M) : Reducer n M :=
  { s with
    nextBucket := 0
    replicaPending := fun i => (cfg.assignment.bucket i).length
    bucketPending := fun _ => 1 }

/-- `prepare_for_backward`, when `search_unused_parameters` finds `unused`. -/
def prepareForBackward (unused : List (Fin n)) (s : Reducer n M) : Reducer n M :=
  let s := resetBucketCounting cfg { s with expectAutogradHooks := true }
  { s with
    hasMarkedUnusedParameters := false
    readyParams := ∅
    unusedParameters := if cfg.findUnusedParameters then unused else s.unusedParameters }

end

omit [Module ℚ M] in
/-- `AccumulateGrad` of a parameter, before its hook.  The gradient may be undefined. -/
def accumulate (v : Fin n) (g : Option M) (s : Reducer n M) : Reducer n M :=
  match g with
  | none => s
  | some g =>
    match s.grad v with
    | .undefined => { s with grad := Function.update s.grad v (.stored g) }
    | .stored h => { s with grad := Function.update s.grad v (.stored (h + g)) }
    | .bucketView => { s with contents := Function.update s.contents v (s.contents v + g) }

/-- A backward pass: the parameters that are reached, in the order of their hooks. -/
def backward : List (Fin n × Option M) → Reducer n M → Except Failure (Reducer n M)
  | [], s => .ok s
  | (v, g) :: hooks, s => (autogradHook cfg v (accumulate v g s)).bind (backward hooks)

end Marking

section Finalize

variable {n : Nat} {M : Type u} (cfg : Config n)

/-- The part of `finalize_bucket_dense` that finds out whether a parameter was used by any rank. -/
def globalUnused (reducedMap : Fin n → Nat) (v : Fin n) (s : Reducer n M) : Bool × Reducer n M :=
  if cfg.findUnusedParameters then
    if s.localUsedMap v = 0 ∧ ¬ s.localUsedMapReduced then
      (reducedMap v = 0, { s with localUsedMap := reducedMap, localUsedMapReduced := true })
    else (s.localUsedMap v = 0, s)
  else (false, s)

/-- `finalize_bucket_dense` for one parameter, whose bucket view holds the result. -/
def finalizeVariable (reducedMap : Fin n → Nat) (v : Fin n) (s : Reducer n M) :
    Except Failure (Reducer n M) :=
  let (unused, s) := globalUnused cfg reducedMap v s
  if unused then .ok s
  else if cfg.gradientAsBucketView then
    match s.grad v with
    | .undefined => .ok { s with grad := Function.update s.grad v .bucketView }
    | .stored _ => .error .notBucketView
    | .bucketView => .ok s
  else .ok { s with grad := Function.update s.grad v (.stored (s.contents v)) }

/-- `finalize_bucket_dense`. -/
def finalizeVariables (reducedMap : Fin n → Nat) :
    List (Fin n) → Reducer n M → Except Failure (Reducer n M)
  | [], s => .ok s
  | v :: vs, s => (finalizeVariable cfg reducedMap v s).bind (finalizeVariables reducedMap vs)

/-- The loop of `finalize_backward` over the buckets.  `reduced` are the results of the
reductions, in the bucket views. -/
def finalizeBuckets (reduced : Fin n → M) (reducedMap : Fin n → Nat) :
    Nat → List (List (Fin n)) → Reducer n M → Except Failure (Reducer n M)
  | _, [], s => .ok s
  | i, b :: bs, s =>
    if s.futureWork i then
      (finalizeVariables cfg reducedMap b
        { s with contents := fun v => if v ∈ b then reduced v else s.contents v }).bind
        (finalizeBuckets reduced reducedMap (i + 1) bs)
    else .error .noFutureWork

/-- The callback with `finalize_backward`. -/
def finalizeBackward (reduced : Fin n → M) (reducedMap : Fin n → Nat) (s : Reducer n M) :
    Except Failure (Reducer n M) :=
  if s.nextBucket ≠ cfg.assignment.buckets.length then .error .bucketsNotLaunched
  else if ¬ s.expectAutogradHooks then .error .hooksNotExpected
  else if ¬ s.requireFinalize then .error .finalizeNotRequired
  else
    (finalizeBuckets cfg reduced reducedMap 0 cfg.assignment.buckets
      { s with expectAutogradHooks := false, requireFinalize := false, divFactor := none }).map
      (fun s => if cfg.findUnusedParameters then
        { s with localUsedMap := fun _ => 0, localUsedMapReduced := false } else s)

end Finalize

end PyTorchCore.Ddp
