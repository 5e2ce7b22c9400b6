import PyTorchCore.Ddp.Buckets
import PyTorchCore.Ddp.Reducer

/-!
# The communication hook

`all_reduce_bucket` hands a bucket to the communication hook. In the first iteration of a static
graph the hooks of the parameters only count, and `delay_all_reduce` reduces all buckets at the
end of the pass; it does not move `next_bucket_`.

The data of the gradients are left out; whether a gradient passes the checks of
`mark_variable_ready_dense` or `mark_variable_ready_sparse` is an argument.
-/

namespace PyTorchCore.Ddp
namespace CommHook

universe u v

structure GradBucket (D : Type u) (V : Type v) where
  index : Nat
  bucketCount : Nat
  offsets : List Nat
  lengths : List Nat
  parameters : List (Tensor D V)

def GradBucket.isLast {D : Type u} {V : Type v} (g : GradBucket D V) : Bool :=
  g.index == g.bucketCount - 1

/-- The parameters of the constructor of a reducer. -/
structure Config (D : Type u) (V : Type v) where
  params : List (Tensor D V)
  expectSparseGradients : List Bool
  findUnusedParameters : Bool
  flags : expectSparseGradients.length = params.length

/-- An assignment of the parameters to buckets, with the size limits. -/
structure Assigned (n : Nat) where
  buckets : List (List Nat × UInt64)
  perm : (buckets.map Prod.fst).flatten.Perm (List.range n)

/-- The checks of the reducer, and a read behind the end of a vector. -/
inductive Failure
  | buckets (e : BucketFailure)
  | priorReduction
  | notAllParameters
  | trainingStarted
  | outOfRange
  | markedTwice
  | gradient
  | bucketOrder
  | graphChanged
  | hooksNotExpected
  | finalizeNotRequired
  | noFutureWork
  | bucketsNotLaunched
  | noCallback
  | notDelayed
deriving DecidableEq

structure State (D : Type u) (V : Type v) where
  bucketing : Bucketing D V
  nextBucket : Nat := 0
  hasRebuiltBucket : Bool := false
  cachedVariables : Nat → Option (List (Tensor D V)) := fun _ => none
  staticGraph : Bool := false
  numIterations : Nat := 0
  expectAutogradHooks : Bool := false
  requireFinalize : Bool := false
  hasMarkedUnusedParameters : Bool := false
  unusedParameters : List Nat := []
  perIterationReadyParams : List Nat := []
  numGradHooksTriggered : Nat → Nat := fun _ => 0
  numGradHooksTriggeredPerIteration : Nat → Nat := fun _ => 0
  rebuiltParamIndices : List Nat := []
  /-- The number of finalize callbacks that were queued. -/
  callbacks : Nat := 0
  /-- The runs of the hook since `prepare_for_backward`. -/
  hookCalls : List (GradBucket D V) := []

section Model

variable {D : Type u} {V : Type v} [DecidableEq D] [DecidableEq V] (cfg : Config D V)

def State.buckets (s : State D V) : List (Bucket D V) := s.bucketing.buckets

def State.staticGraphFirstIteration (s : State D V) : Bool :=
  s.staticGraph && s.numIterations == 1

def State.staticGraphAfterFirstIteration (s : State D V) : Bool :=
  s.staticGraph && 1 < s.numIterations

def dynamicGraphFindUnused (s : State D V) : Bool :=
  !s.staticGraph && cfg.findUnusedParameters

def shouldRebuildBuckets (s : State D V) : Bool :=
  (s.staticGraph || !cfg.findUnusedParameters) && !s.hasRebuiltBucket

/-- A bucket takes the place of another. -/
def State.setBucket (s : State D V) (i : Nat) (bucket : Bucket D V) : State D V :=
  { s with bucketing := { s.bucketing with buckets := s.bucketing.buckets.set i bucket } }

def getVariablesForBucket (bucketIndex : Nat) (bucket : Bucket D V) (s : State D V) :
    Except Failure (List (Tensor D V) × State D V) :=
  match if s.hasRebuiltBucket then s.cachedVariables bucketIndex else none with
  | some variablesForBucket => .ok (variablesForBucket, s)
  | none =>
    match bucket.variableIndices.mapM fun variableIndex =>
      bucket.replica.vars[(s.bucketing.variableLocators variableIndex).intraBucketIndex]? with
    | none => .error .outOfRange
    | some variablesForBucket =>
      .ok (variablesForBucket,
        if s.hasRebuiltBucket then
          { s with
            cachedVariables :=
              Function.update s.cachedVariables bucketIndex (some variablesForBucket) }
        else s)

/-- `all_reduce_bucket` of the bucket in a position of `buckets_`. -/
def allReduceBucket (position : Nat) (s : State D V) : Except Failure (State D V) :=
  match s.buckets[position]? with
  | none => .error .outOfRange
  | some bucket =>
    (getVariablesForBucket s.nextBucket bucket s).map fun (variablesForBucket, s) =>
      let gradBucket : GradBucket D V :=
        { index := s.nextBucket
          bucketCount := s.buckets.length
          offsets := bucket.replica.offsets
          lengths := bucket.replica.lengths
          parameters := variablesForBucket }
      { s.setBucket position { bucket with futureWork := true } with
        hookCalls := s.hookCalls ++ [gradBucket] }

/-- The loop of `mark_bucket_ready`; the first argument bounds the number of buckets that are
left. -/
def launchReady : Nat → State D V → Except Failure (State D V)
  | 0, s => .ok s
  | k + 1, s =>
    match s.buckets[s.nextBucket]? with
    | none => .ok s
    | some bucket =>
      if bucket.pending = 0 then do
        let s ← allReduceBucket s.nextBucket s
        launchReady k { s with nextBucket := s.nextBucket + 1 }
      else .ok s

def markBucketReady (bucketIndex : Nat) (s : State D V) : Except Failure (State D V) :=
  if bucketIndex < s.nextBucket then .error .bucketOrder
  else if s.nextBucket < bucketIndex then .ok s
  else launchReady (s.buckets.length - s.nextBucket) s

/-- The counters of `mark_variable_ready`. -/
def countDown (variableIndex : Nat) (s : State D V) : Except Failure (State D V) :=
  let bucketIndex := (s.bucketing.variableLocators variableIndex).bucketIndex
  match s.buckets[bucketIndex]? with
  | none => .error .outOfRange
  | some bucket =>
    let bucket :=
      { bucket with
        replica := { bucket.replica with pending := decrement bucket.replica.pending } }
    if bucket.replica.pending = 0 then
      let bucket := { bucket with pending := decrement bucket.pending }
      if bucket.pending = 0 then markBucketReady bucketIndex (s.setBucket bucketIndex bucket)
      else .ok (s.setBucket bucketIndex bucket)
    else .ok (s.setBucket bucketIndex bucket)

def markVariableReady (passes : Nat → Bool) (variableIndex : Nat) (s : State D V) :
    Except Failure (State D V) :=
  if cfg.params.length ≤ variableIndex then .error .outOfRange
  else if variableIndex ∈ s.perIterationReadyParams then .error .markedTwice
  else if ¬ passes variableIndex then .error .gradient
  else
    (countDown variableIndex
      { s with
        perIterationReadyParams := variableIndex :: s.perIterationReadyParams
        requireFinalize := true }).map fun s =>
      if s.nextBucket = s.buckets.length then { s with callbacks := s.callbacks + 1 } else s

def pushRebuiltParams (s : State D V) (index : Nat) : State D V :=
  { s with rebuiltParamIndices := s.rebuiltParamIndices ++ [index] }

/-- The end of `autograd_hook`: the parameter is recorded for rebuilding and marked. -/
def pushAndMark (passes : Nat → Bool) (index : Nat) (s : State D V) :
    Except Failure (State D V) :=
  markVariableReady cfg passes index
    (if shouldRebuildBuckets cfg s then pushRebuiltParams s index else s)

def autogradHook (passes : Nat → Bool) (index : Nat) (s : State D V) :
    Except Failure (State D V) :=
  if ¬ s.expectAutogradHooks then .ok s
  else if s.staticGraphFirstIteration then
    .ok
      { s with
        numGradHooksTriggered :=
          Function.update s.numGradHooksTriggered index (s.numGradHooksTriggered index + 1) }
  else do
    let unused := if s.hasMarkedUnusedParameters then [] else s.unusedParameters
    let s ← unused.foldlM (fun s unusedIndex => markVariableReady cfg passes unusedIndex s)
      { s with hasMarkedUnusedParameters := true }
    if s.staticGraphAfterFirstIteration then
      if s.numGradHooksTriggeredPerIteration index = 0 then .error .graphChanged
      else
        let left := s.numGradHooksTriggeredPerIteration index - 1
        let s :=
          { s with
            numGradHooksTriggeredPerIteration :=
              Function.update s.numGradHooksTriggeredPerIteration index left }
        if left = 0 then pushAndMark cfg passes index s else .ok s
    else pushAndMark cfg passes index s

def finalizeBackward (s : State D V) : Except Failure (State D V) :=
  if ¬ s.expectAutogradHooks then .error .hooksNotExpected
  else if ¬ s.requireFinalize then .error .finalizeNotRequired
  else if ¬ s.buckets.all Bucket.futureWork then .error .noFutureWork
  else .ok { s with expectAutogradHooks := false, requireFinalize := false }

/-- The callback that `mark_variable_ready` queues. -/
def finalizeCallback (s : State D V) : Except Failure (State D V) :=
  if s.callbacks = 0 then .error .noCallback
  else if s.nextBucket ≠ s.buckets.length then .error .bucketsNotLaunched
  else
    finalizeBackward
      (if s.staticGraphAfterFirstIteration && shouldRebuildBuckets cfg s then
        { s.unusedParameters.foldl pushRebuiltParams s with callbacks := s.callbacks - 1 }
      else { s with callbacks := s.callbacks - 1 })

/-- `delay_all_reduce`, which is only called in the first iteration of a static graph. -/
def delayAllReduce (passes : Nat → Bool) (s : State D V) : Except Failure (State D V) :=
  if ¬ s.staticGraphFirstIteration then .error .notDelayed
  else if ¬ (List.range cfg.params.length).all passes then .error .gradient
  else do
    let s ← (List.range s.buckets.length).foldlM (fun s position => allReduceBucket position s)
      { s with
        unusedParameters :=
          (List.range cfg.params.length).filter fun i => s.numGradHooksTriggered i = 0
        requireFinalize := s.requireFinalize || 0 < cfg.params.length }
    finalizeBackward s

def resetBucketCounting (s : State D V) : State D V :=
  { s with
    nextBucket := 0
    bucketing :=
      { s.bucketing with
        buckets := s.bucketing.buckets.map fun bucket =>
          { bucket with
            replica := { bucket.replica with pending := bucket.replica.vars.length }
            pending := 1 } }
    numGradHooksTriggeredPerIteration :=
      if s.staticGraph then s.numGradHooksTriggered else s.numGradHooksTriggeredPerIteration }

/-- `prepare_for_backward`, when `search_unused_parameters` finds `unused`. -/
def prepareForBackward (unused : List Nat) (s : State D V) : State D V :=
  let s := resetBucketCounting { s with expectAutogradHooks := true }
  { s with
    hasMarkedUnusedParameters := false
    perIterationReadyParams := []
    unusedParameters := if dynamicGraphFindUnused cfg s then unused else s.unusedParameters
    hookCalls := [] }

/-- `rebuild_buckets`, when `sync_bucket_indices` leaves the buckets and the limits that are
received. -/
def rebuildBuckets (received : Assigned cfg.params.length) (s : State D V) :
    Except Failure (State D V) :=
  if s.requireFinalize then .error .priorReduction
  else if ¬ shouldRebuildBuckets cfg s ∨ s.rebuiltParamIndices.isEmpty then .ok s
  else if cfg.params.length ≠ s.rebuiltParamIndices.length then .error .notAllParameters
  else
    match initializeBuckets cfg.params cfg.expectSparseGradients s.expectAutogradHooks
      (received.buckets.map Prod.fst) (received.buckets.map Prod.snd) with
    | .error e => .error (.buckets e)
    | .ok bucketing =>
      .ok
        { s with
          hasRebuiltBucket := true
          rebuiltParamIndices := []
          bucketing := bucketing }

/-- `DistributedDataParallel.forward`: `prepare_for_forward`, `rebuild_buckets` and
`prepare_for_backward`. -/
def forward (gradEnabled requireGradSync : Bool) (received : Assigned cfg.params.length)
    (unused : List Nat) (s : State D V) : Except Failure (State D V) := do
  let sync := gradEnabled && requireGradSync
  let s := if sync then { s with numIterations := s.numIterations + 1 } else s
  let s ← if gradEnabled then rebuildBuckets cfg received s else .ok s
  .ok (if sync then prepareForBackward cfg unused s else s)

def getGradBuckets (s : State D V) : Except Failure (State D V) :=
  (List.range s.buckets.length).foldlM (fun s i =>
    match s.buckets[i]? with
    | none => .error .outOfRange
    | some bucket => (getVariablesForBucket i bucket s).map Prod.snd) s

/-- What can happen to a reducer. -/
inductive Op (n : Nat)
  | setStaticGraph
  | forward (gradEnabled requireGradSync : Bool) (received : Assigned n) (unused : List Nat)
  | autogradHook (passes : Nat → Bool) (index : Nat)
  | finalizeCallback
  | delayAllReduce (passes : Nat → Bool)
  | getGradBuckets
  | pushRebuiltParamsForAllIndices
  | rebuildBuckets (received : Assigned n)

/-- One operation. -/
def step (s : State D V) : Op cfg.params.length → Except Failure (State D V)
  | .setStaticGraph =>
    if s.numIterations ≠ 0 then .error .trainingStarted else .ok { s with staticGraph := true }
  | .forward gradEnabled requireGradSync received unused =>
    forward cfg gradEnabled requireGradSync received unused s
  | .autogradHook passes index => autogradHook cfg passes index s
  | .finalizeCallback => finalizeCallback cfg s
  | .delayAllReduce passes => delayAllReduce cfg passes s
  | .getGradBuckets => getGradBuckets s
  | .pushRebuiltParamsForAllIndices =>
    .ok (if shouldRebuildBuckets cfg s && s.rebuiltParamIndices.isEmpty then
      (List.range cfg.params.length).foldl pushRebuiltParams s else s)
  | .rebuildBuckets received => rebuildBuckets cfg received s

def run (constructed : Assigned cfg.params.length) (ops : List (Op cfg.params.length)) :
    Except Failure (State D V) :=
  match initializeBuckets cfg.params cfg.expectSparseGradients false
    (constructed.buckets.map Prod.fst) (constructed.buckets.map Prod.snd) with
  | .error e => .error (.buckets e)
  | .ok bucketing => ops.foldlM (step cfg) { bucketing := bucketing }

end Model

section Shapes

variable {D : Type u} {V : Type v}

/-- What stays the same of a bucket until the buckets are rebuilt. -/
structure Shape (D : Type u) (V : Type v) where
  variableIndices : List Nat
  vars : List (Tensor D V)
  offsets : List Nat
  lengths : List Nat

def shapeOf (bucket : Bucket D V) : Shape D V :=
  ⟨bucket.variableIndices, bucket.replica.vars, bucket.replica.offsets, bucket.replica.lengths⟩

/-- What the hook should be run with for a bucket. -/
def rightCall (params : List (Tensor D V)) (count i : Nat) (shape : Shape D V) : GradBucket D V :=
  ⟨i, count, shape.offsets, shape.lengths, variablesOf params shape.variableIndices⟩

/-- What the hook should be run with: every bucket with its position, its variables in order
and the number of buckets. -/
def rightCalls (params : List (Tensor D V)) (shapes : List (Shape D V)) : List (GradBucket D V) :=
  shapes.mapIdx (rightCall params shapes.length)

@[simp] theorem rightCalls_length (params : List (Tensor D V)) (shapes : List (Shape D V)) :
    (rightCalls params shapes).length = shapes.length :=
  List.length_mapIdx

/-- The part of a state on which the runs of the hook depend. -/
structure Core (D : Type u) (V : Type v) where
  locators : Nat → VariableLocator
  shapes : List (Shape D V)
  nextBucket : Nat
  rebuilt : Bool
  cached : Nat → Option (List (Tensor D V))
  staticGraph : Bool
  numIterations : Nat
  expected : Bool
  calls : List (GradBucket D V)

def State.core (s : State D V) : Core D V where
  locators := s.bucketing.variableLocators
  shapes := s.buckets.map shapeOf
  nextBucket := s.nextBucket
  rebuilt := s.hasRebuiltBucket
  cached := s.cachedVariables
  staticGraph := s.staticGraph
  numIterations := s.numIterations
  expected := s.expectAutogradHooks
  calls := s.hookCalls

/-- Whether the pass is in the first iteration of a static graph. -/
def Core.first (c : Core D V) : Bool := c.staticGraph && c.numIterations == 1

theorem setBucket_core {s : State D V} {i : Nat} {bucket bucket' : Bucket D V}
    (h : s.buckets[i]? = some bucket) (hshape : shapeOf bucket' = shapeOf bucket) :
    (s.setBucket i bucket').core = s.core := by
  have hset : (s.bucketing.buckets.set i bucket').map shapeOf =
    s.bucketing.buckets.map shapeOf := by
    refine List.ext_getElem? fun j => ?_
    have hi : i < s.bucketing.buckets.length := (List.getElem?_eq_some_iff.mp h).1
    rw [List.getElem?_map, List.getElem?_map]
    by_cases hij : i = j
    · subst hij
      rw [List.getElem?_set_self hi, show s.bucketing.buckets[i]? = some bucket from h]
      exact congrArg some hshape
    · rw [List.getElem?_set_ne hij]
  simp only [State.core, State.setBucket, State.buckets, hset]

/-- The locators fit the shapes. -/
structure Laid (params : List (Tensor D V)) (locators : Nat → VariableLocator)
    (shapes : List (Shape D V)) : Prop where
  vars : ∀ shape ∈ shapes, shape.vars = variablesOf params shape.variableIndices
  inRange : ∀ shape ∈ shapes, ∀ v ∈ shape.variableIndices, v < params.length
  located : ∀ i shape k v, shapes[i]? = some shape → shape.variableIndices[k]? = some v →
    locators v = ⟨i, k⟩

theorem mapM_of_forall {α β : Type _} {f : α → Option β} {l : List α} {l' : List β}
    (h : l.map f = l'.map some) : l.mapM f = some l' := by
  induction l generalizing l' with
  | nil => simp [List.map_eq_nil_iff.mp h.symm]
  | cons a l ih =>
    cases l' with
    | nil => cases h
    | cons b l' =>
      obtain ⟨ha, hl⟩ := List.cons.inj h
      simp [ha, ih hl]

theorem Laid.variables {params : List (Tensor D V)} {locators : Nat → VariableLocator}
    {shapes : List (Shape D V)} (h : Laid params locators shapes) {i : Nat} {shape : Shape D V}
    (hi : shapes[i]? = some shape) :
    (shape.variableIndices.mapM fun v => shape.vars[(locators v).intraBucketIndex]?) =
      some (variablesOf params shape.variableIndices) := by
  have hmem := List.mem_of_getElem? hi
  have hsome := variablesOf_some (h.inRange shape hmem)
  refine mapM_of_forall (Eq.trans ?_ hsome.symm)
  refine List.ext_getElem? fun k => ?_
  simp only [List.getElem?_map]
  cases hk : shape.variableIndices[k]? with
  | none => rfl
  | some v =>
    have hfound : (variablesOf params shape.variableIndices)[k]? = params[v]? := by
      have hget := congrArg (·[k]?) hsome
      simp only [List.getElem?_map, hk, Option.map_some] at hget
      cases hv : (variablesOf params shape.variableIndices)[k]? with
      | none => simp [hv] at hget
      | some t => simpa [hv] using hget
    simp [h.located i shape k v hi hk, h.vars shape hmem, hfound]

end Shapes

section Launching

open Lib (Meets)
open Option Function List

variable {D : Type u} {V : Type v} {params : List (Tensor D V)} {s : State D V}

/-- What holds at any time: the locators fit, and what is cached for an index are the variables
of the bucket in that position. -/
structure Base (params : List (Tensor D V)) (c : Core D V) : Prop where
  laid : Laid params c.locators c.shapes
  cached : ∀ i vs, c.cached i = some vs →
    ∃ shape, c.shapes[i]? = some shape ∧ vs = variablesOf params shape.variableIndices
  uncached : c.rebuilt = false → ∀ i, c.cached i = none
  iterations : c.numIterations = 0 → c.expected = false

/-- What holds in a pass that is not in the first iteration of a static graph: the hook was run
with the buckets up to `next_bucket_`. -/
structure Launched (params : List (Tensor D V)) (c : Core D V) : Prop where
  base : Base params c
  expected : c.expected = true
  notFirst : c.first = false
  inBounds : c.nextBucket ≤ c.shapes.length
  calls : c.calls = (rightCalls params c.shapes).take c.nextBucket

/-- What holds in a pass in the first iteration of a static graph: the hook was not run. -/
structure Fresh (c : Core D V) : Prop where
  expected : c.expected = true
  first : c.first = true
  nextBucket : c.nextBucket = 0
  calls : c.calls = []

/-- The invariant of a reducer. -/
def Inv (params : List (Tensor D V)) (c : Core D V) : Prop :=
  Base params c ∧ (c.expected = false ∨ Launched params c ∨ Fresh c)

variable {bucket : Bucket D V}

/-- What `get_variables_for_bucket` finds for a bucket. -/
theorem getVariablesForBucket_spec (h : Base params s.core) {i j : Nat}
    (hi : s.buckets[i]? = some bucket)
    (hj : j = i ∨ (s.hasRebuiltBucket = true → (s.cachedVariables j).isSome)) :
    ∃ vs s', getVariablesForBucket j bucket s = .ok (vs, s') ∧
      s'.core = { s.core with cached := s'.cachedVariables } ∧ Base params s'.core ∧
      s'.bucketing = s.bucketing ∧
      (s.hasRebuiltBucket = true → (s'.cachedVariables j).isSome) ∧
      (j = i → vs = variablesOf params bucket.variableIndices) := by
  have hshape : s.core.shapes[i]? = some (shapeOf bucket) := by
    simp [State.core, hi]
  have hfound := h.laid.variables hshape
  simp only [shapeOf, State.core] at hfound
  unfold getVariablesForBucket
  by_cases hrebuilt : s.hasRebuiltBucket = true
  · rw [if_pos hrebuilt]
    cases hcached : s.cachedVariables j with
    | some vs =>
      refine ⟨vs, s, rfl, rfl, h, rfl, by simp [hcached], ?_⟩
      rintro rfl
      obtain ⟨shape, hsame, rfl⟩ := h.cached j vs hcached
      obtain rfl := Option.some.inj (hshape.symm.trans hsame)
      rfl
    | none =>
      obtain rfl : j = i := by
        refine hj.resolve_right fun hsome => ?_
        have hnot := hsome hrebuilt
        simp [hcached] at hnot
      simp only [hfound, if_pos hrebuilt]
      refine ⟨_, _, rfl, rfl, ⟨h.laid, ?_, ?_, h.iterations⟩, rfl, by simp, fun _ => rfl⟩
      · intro k vs hvs
        by_cases hk : k = j
        · subst hk
          simp only [State.core, update_self, Option.some.injEq] at hvs
          exact ⟨_, hshape, hvs.symm⟩
        · simp only [State.core, update_of_ne hk] at hvs
          exact h.cached k vs hvs
      · intro hnot
        exact absurd (hrebuilt.symm.trans hnot) (by simp)
  · rw [if_neg hrebuilt]
    simp only [hfound, if_neg hrebuilt]
    exact ⟨_, s, rfl, rfl, h, rfl, fun hyes => absurd hyes hrebuilt, fun _ => rfl⟩

theorem allReduceBucket_spec (h : Base params s.core) {i : Nat}
    (hi : s.buckets[i]? = some bucket)
    (hj : s.nextBucket = i ∨
      (s.hasRebuiltBucket = true → (s.cachedVariables s.nextBucket).isSome)) :
    ∃ vs s', allReduceBucket i s = .ok s' ∧ s'.core = { s.core with
          cached := s'.cachedVariables
          calls := s.hookCalls ++ [⟨s.nextBucket, s.core.shapes.length, bucket.replica.offsets,
            bucket.replica.lengths, vs⟩] } ∧
      Base params s'.core ∧
      (s.hasRebuiltBucket = true → (s'.cachedVariables s.nextBucket).isSome) ∧
      (s.nextBucket = i → vs = variablesOf params bucket.variableIndices) := by
  obtain ⟨vs, s₁, hrun, hcore, hbase, hbuckets, hsome, hvs⟩ := getVariablesForBucket_spec h hi hj
  have hi₁ : s₁.buckets[i]? = some bucket := by
    rw [State.buckets, hbuckets]
    exact hi
  have hset : (s₁.setBucket i { bucket with futureWork := true }).core = s₁.core :=
    setBucket_core hi₁ rfl
  have hlength : s.core.shapes.length = s.buckets.length := by simp [State.core]
  have hlength₁ : s₁.buckets.length = s.buckets.length := by
    rw [State.buckets, State.buckets, hbuckets]
  have hcalls : s₁.hookCalls = s.hookCalls := congrArg Core.calls hcore
  have hnext : s₁.nextBucket = s.nextBucket := congrArg Core.nextBucket hcore
  have hwhole : ∀ calls, ({ s₁.setBucket i { bucket with futureWork := true } with
      hookCalls := calls } : State D V).core =
      { s.core with cached := s₁.cachedVariables, calls := calls } := by
    intro calls
    have hsame : ({ s₁.setBucket i { bucket with futureWork := true } with
        hookCalls := calls } : State D V).core =
        { (s₁.setBucket i { bucket with futureWork := true }).core with calls := calls } := rfl
    rw [hsame, hset, hcore]
  refine ⟨vs, { s₁.setBucket i { bucket with futureWork := true } with
    hookCalls := s₁.hookCalls ++ [⟨s₁.nextBucket, s₁.buckets.length, bucket.replica.offsets,
      bucket.replica.lengths, vs⟩] }, by simp only [allReduceBucket, hi, hrun, Except.map],
    ?_, ?_, hsome, hvs⟩
  · rw [hwhole, hcalls, hnext, hlength, hlength₁]
    rfl
  · rw [hwhole]
    have hbase' := hcore ▸ hbase
    exact ⟨hbase'.laid, hbase'.cached, hbase'.uncached, hbase'.iterations⟩

end Launching

section Passes

open Lib (Meets)

variable {D : Type u} {V : Type v} {cfg : Config D V}

variable {s : State D V}

section

variable (h : Launched cfg.params s.core)
include h

theorem Launched.launch {bucket : Bucket D V} (hi : s.buckets[s.nextBucket]? = some bucket) :
    ∃ s', allReduceBucket s.nextBucket s = .ok s' ∧
      Launched cfg.params { s' with nextBucket := s'.nextBucket + 1 }.core := by
  obtain ⟨vs, s', hrun, hcore, hbase, -, hvs⟩ := allReduceBucket_spec h.base hi (.inl rfl)
  obtain rfl := hvs rfl
  have hlt : s.core.nextBucket < s.core.shapes.length := by
    simpa [State.core] using (List.getElem?_eq_some_iff.mp hi).1
  have hshape : s.core.shapes[s.core.nextBucket]? = some (shapeOf bucket) := by
    simp [State.core, hi]
  have hnext : ({ s' with nextBucket := s'.nextBucket + 1 } : State D V).core =
      { s'.core with nextBucket := s'.core.nextBucket + 1 } := rfl
  refine ⟨s', hrun, ?_⟩
  rw [hnext]
  refine ⟨⟨hbase.laid, hbase.cached, hbase.uncached, hbase.iterations⟩, ?_, ?_, ?_, ?_⟩
  · rw [hcore]
    exact h.expected
  · rw [hcore]
    exact h.notFirst
  · rw [hcore]
    exact hlt
  · rw [hcore]
    have hcall : (rightCalls cfg.params s.core.shapes)[s.core.nextBucket]? =
        some (rightCall cfg.params s.core.shapes.length s.core.nextBucket (shapeOf bucket)) := by
      simp [rightCalls, hshape]
    have htake := List.take_add_one (l := rightCalls cfg.params s.core.shapes)
      (i := s.core.nextBucket)
    rw [hcall] at htake
    exact (congrArg (· ++ [_]) h.calls).trans htake.symm

theorem Launched.launchReady (k : Nat) :
    Meets (fun _ => True) (fun s => Launched cfg.params s.core) (launchReady k s) := by
  induction k generalizing s with
  | zero => exact h
  | succ k ih =>
    unfold CommHook.launchReady
    split
    · exact h
    case h_2 bucket hi =>
      split
      · obtain ⟨s', hrun, hnext⟩ := h.launch hi
        rw [hrun]
        exact ih hnext
      · exact h

theorem Launched.countDown (v : Nat) :
    Meets (fun _ => True) (fun s => Launched cfg.params s.core) (countDown v s) := by
  unfold CommHook.countDown
  simp only
  split
  · trivial
  case h_2 bucket hi =>
    have hset : ∀ bucket' : Bucket D V, shapeOf bucket' = shapeOf bucket → Launched cfg.params
          (s.setBucket (s.bucketing.variableLocators v).bucketIndex bucket').core := by
      intro bucket' hshape
      rw [setBucket_core hi hshape]
      exact h
    split
    · split
      · unfold markBucketReady
        split
        · trivial
        · split
          · exact hset _ rfl
          · refine Launched.launchReady ?_ _
            exact hset _ rfl
      · exact hset _ rfl
    · exact hset _ rfl

/-- Marking a variable ready keeps the launched buckets right. -/
theorem Launched.markVariableReady (passes : Nat → Bool) (v : Nat) :
    Meets (fun _ => True) (fun s => Launched cfg.params s.core)
      (markVariableReady cfg passes v s) := by
  unfold CommHook.markVariableReady
  split
  · trivial
  · split
    · trivial
    · split
      · trivial
      · have hmarked : Launched cfg.params ({ s with
            perIterationReadyParams := v :: s.perIterationReadyParams
            requireFinalize := true } : State D V).core := h
        have hcount := hmarked.countDown v
        generalize CommHook.countDown v ({ s with
            perIterationReadyParams := v :: s.perIterationReadyParams
            requireFinalize := true } : State D V) = result at hcount
        cases result with
        | error e => trivial
        | ok s' =>
          simp only [Except.map, Lib.meets_ok] at hcount ⊢
          split
          · exact hcount
          · exact hcount

theorem Launched.pushAndMark (passes : Nat → Bool) (v : Nat) :
    Meets (fun _ => True) (fun s => Launched cfg.params s.core) (pushAndMark cfg passes v s) := by
  unfold CommHook.pushAndMark
  split
  · exact Launched.markVariableReady (s := pushRebuiltParams s v) h passes v
  · exact h.markVariableReady passes v

end

/-- A hook of a parameter keeps the invariant; in the first iteration of a static graph it only
counts. -/
theorem Inv.autogradHook (h : Inv cfg.params s.core) (passes : Nat → Bool) (v : Nat) :
    Meets (fun _ => True) (fun s => Inv cfg.params s.core) (autogradHook cfg passes v s) := by
  unfold CommHook.autogradHook
  split
  · exact h
  case isFalse hexpected =>
    have hexpected : s.core.expected = true := not_not.mp hexpected
    split
    · exact h
    case isFalse hnotFirst =>
      have hlaunched : Launched cfg.params s.core := by
        rcases h.2 with hno | hlaunched | hfresh
        · exact absurd (hexpected.symm.trans hno) (by simp)
        · exact hlaunched
        · exact absurd hfresh.first hnotFirst
      have hinv : ∀ s : State D V, Launched cfg.params s.core → Inv cfg.params s.core :=
        fun s hs => ⟨hs.base, .inr (.inl hs)⟩
      have hunused : Meets (fun _ => True) (fun s : State D V => Launched cfg.params s.core)
          ((if s.hasMarkedUnusedParameters then [] else s.unusedParameters).foldlM
            (fun s unusedIndex => CommHook.markVariableReady cfg passes unusedIndex s)
            { s with hasMarkedUnusedParameters := true }) :=
        Meets.foldlM_invariant _ _ hlaunched fun i _ s hs => hs.markVariableReady passes i
      refine Meets.bind hunused fun s hs => ?_
      simp only
      split
      · split
        · trivial
        · split
          · refine Meets.mono (Launched.pushAndMark ?_ passes v) hinv
            exact hs
          · exact hinv _ hs
      · exact (hs.pushAndMark passes v).mono hinv

end Passes

section Delayed

open Lib (Meets)

variable {D : Type u} {V : Type v} {cfg : Config D V}

/-- What is known while `delay_all_reduce` goes through the buckets: the hook is run with the
index 0 only. -/
structure Delaying (params : List (Tensor D V)) (start : Core D V) (done : List Nat)
    (c : Core D V) : Prop where
  base : Base params c
  shapes : c.shapes = start.shapes
  nextBucket : c.nextBucket = 0
  cached : c.rebuilt = true → done ≠ [] → (c.cached 0).isSome
  count : c.calls.length = done.length
  index : ∀ call ∈ c.calls, call.index = 0
  head : ∀ call, c.calls[0]? = some call → (rightCalls params start.shapes)[0]? = some call

theorem Delaying.reduce {start : Core D V} {done : List Nat} {s : State D V}
    (h : Delaying cfg.params start done s.core) :
    Meets (fun _ => True) (fun s => Delaying cfg.params start (done ++ [done.length]) s.core)
      (allReduceBucket done.length s) := by
  cases hi : s.buckets[done.length]? with
  | none =>
    rw [allReduceBucket, hi]
    trivial
  | some bucket =>
    have hnext : s.nextBucket = 0 := h.nextBucket
    obtain ⟨vs, s', hrun, hcore, hbase, hsome, hvs⟩ := allReduceBucket_spec h.base hi (by
      by_cases hdone : done = []
      · exact .inl (by simp [hnext, hdone])
      · exact .inr fun hrebuilt => hnext ▸ h.cached hrebuilt hdone)
    rw [hrun, Lib.meets_ok]
    refine ⟨hbase, ?_, ?_, ?_, ?_, ?_, ?_⟩ <;> rw [hcore]
    · exact h.shapes
    · exact h.nextBucket
    · exact fun hrebuilt _ => hnext ▸ hsome hrebuilt
    · simp only [List.length_append, List.length_singleton]
      exact congrArg (· + 1) h.count
    · intro call hcall
      rcases List.mem_append.mp hcall with hbefore | hnew
      · exact h.index call hbefore
      · obtain rfl := List.mem_singleton.mp hnew
        exact hnext
    · intro call hcall
      by_cases hdone : done = []
      · subst hdone
        have hempty : s.hookCalls = [] := List.length_eq_zero_iff.mp h.count
        have hshape : start.shapes[0]? = some (shapeOf bucket) := by
          rw [← h.shapes]
          simpa [State.core] using ⟨bucket, hi, rfl⟩
        simp only [hempty, List.nil_append, List.getElem?_cons_zero, Option.some.injEq] at hcall
        rw [← hcall, hvs (by simp [hnext]), h.shapes]
        simp [rightCalls, hshape, rightCall, shapeOf, hnext]
      · have hpos : 0 < s.hookCalls.length := by
          rw [show s.hookCalls.length = done.length from h.count]
          exact List.length_pos_iff.mpr hdone
        rw [List.getElem?_append_left hpos] at hcall
        exact h.head call hcall

theorem pushAll_core (indices : List Nat) (s : State D V) :
    (indices.foldl pushRebuiltParams s).core = s.core := by
  induction indices generalizing s with
  | nil => rfl
  | cons i indices ih => exact ih (pushRebuiltParams s i)

variable {s s' : State D V}

theorem finalizeBackward_spec (h : finalizeBackward s = .ok s') :
    s.core.expected = true ∧ s'.core = { s.core with expected := false } := by
  unfold finalizeBackward at h
  split at h
  · cases h
  case isFalse hexpected =>
    split at h
    · cases h
    · split at h
      · cases h
      · cases h
        exact ⟨not_not.mp hexpected, rfl⟩

theorem finalizeCallback_spec (h : finalizeCallback cfg s = .ok s') :
    s.core.expected = true ∧ s.core.nextBucket = s.core.shapes.length ∧
      s'.core = { s.core with expected := false } := by
  unfold finalizeCallback at h
  split at h
  · cases h
  · split at h
    · cases h
    case isFalse hlaunched =>
      have hnext : s.core.nextBucket = s.core.shapes.length := by
        simpa [State.core] using not_not.mp hlaunched
      obtain ⟨hexpected, hcore⟩ := finalizeBackward_spec h
      have hsame : (if s.staticGraphAfterFirstIteration && shouldRebuildBuckets cfg s then
          { s.unusedParameters.foldl pushRebuiltParams s with callbacks := s.callbacks - 1 }
          else { s with callbacks := s.callbacks - 1 }).core = s.core := by
        split
        · exact pushAll_core s.unusedParameters s
        · rfl
      rw [hsame] at hexpected hcore
      exact ⟨hexpected, hnext, hcore⟩

theorem allReduceBucket_expected (i : Nat) (s : State D V) :
    Meets (fun _ => True) (fun s' => s'.expectAutogradHooks = s.expectAutogradHooks)
      (allReduceBucket i s) := by
  unfold allReduceBucket
  split
  · trivial
  case h_2 bucket _ =>
    unfold getVariablesForBucket
    split
    · rfl
    · cases bucket.variableIndices.mapM fun variableIndex =>
        bucket.replica.vars[(s.bucketing.variableLocators variableIndex).intraBucketIndex]? with
      | none => trivial
      | some vs =>
        by_cases hrebuilt : s.hasRebuiltBucket = true
        · simp only [if_pos hrebuilt]
          rfl
        · simp only [if_neg hrebuilt]
          rfl

theorem delayAllReduce_calls (h : Inv cfg.params s.core) {passes : Nat → Bool}
    (hrun : delayAllReduce cfg passes s = .ok s') :
    s.core.first = true ∧ s'.core.expected = false ∧ s'.core.shapes = s.core.shapes ∧
      Delaying cfg.params s'.core (List.range s.core.shapes.length) s'.core := by
  unfold delayAllReduce at hrun
  split at hrun
  · cases hrun
  case isFalse hfirst =>
    have hfirst : s.core.first = true := not_not.mp hfirst
    split at hrun
    · cases hrun
    · generalize hs₀ : ({ s with
        unusedParameters :=
          (List.range cfg.params.length).filter fun i => s.numGradHooksTriggered i = 0
        requireFinalize := s.requireFinalize || 0 < cfg.params.length } : State D V) = s₀ at hrun
      have hcore₀ : s₀.core = s.core := by
        subst hs₀
        rfl
      have hlength : s.buckets.length = s.core.shapes.length := by simp [State.core]
      rw [hlength] at hrun
      have hkept : Meets (fun _ => True) (fun t => t.expectAutogradHooks = s₀.expectAutogradHooks)
          ((List.range s.core.shapes.length).foldlM
            (fun s position => allReduceBucket position s) s₀) :=
        Meets.foldlM_invariant (fun t : State D V =>
          t.expectAutogradHooks = s₀.expectAutogradHooks) _ rfl fun i _ t ht =>
            (allReduceBucket_expected i t).mono fun _ hsame => hsame.trans ht
      have hdelaying : Fresh s.core → Meets (fun _ => True)
          (fun t => Delaying cfg.params s.core (List.range s.core.shapes.length) t.core)
          ((List.range s.core.shapes.length).foldlM
            (fun s position => allReduceBucket position s) s₀) := by
        intro hfresh
        refine Meets.foldlM (fun done (t : State D V) => Delaying cfg.params s.core done t.core) _
          ?_ fun front i rest hsplit t ht => ?_
        · rw [hcore₀]
          exact ⟨h.1, rfl, hfresh.nextBucket, fun _ hne => absurd rfl hne,
            by rw [hfresh.calls]; rfl, by simp [hfresh.calls], by simp [hfresh.calls]⟩
        · have hi : i = front.length := by
            have hget : (List.range s.core.shapes.length)[front.length]? = some i := by
              simp [hsplit]
            have hlt := (List.getElem?_eq_some_iff.mp hget).1
            rw [List.length_range] at hlt
            simpa [hlt] using hget.symm
          subst hi
          exact ht.reduce
      cases hloop : (List.range s.core.shapes.length).foldlM
          (fun s position => allReduceBucket position s) s₀ with
      | error e => simp [hloop, bind, Except.bind] at hrun
      | ok s₁ =>
        simp only [hloop, bind, Except.bind] at hrun
        obtain ⟨hexpected, hcore⟩ := finalizeBackward_spec hrun
        have hwas : s.core.expected = true := by
          rw [← hcore₀]
          exact (hkept.of_ok hloop).symm.trans hexpected
        have hfresh : Fresh s.core := by
          rcases h.2 with hno | hlaunched | hfresh
          · exact absurd (hwas.symm.trans hno) (by simp)
          · exact absurd (hfirst.symm.trans hlaunched.notFirst) (by simp)
          · exact hfresh
        have hdone := (hdelaying hfresh).of_ok hloop
        rw [hcore]
        exact ⟨hfirst, rfl, hdone.shapes,
          ⟨hdone.base.laid, hdone.base.cached, hdone.base.uncached, fun _ => rfl⟩, rfl,
          hdone.nextBucket, hdone.cached, hdone.count, hdone.index,
          by rw [show _ = s.core.shapes from hdone.shapes]; exact hdone.head⟩

end Delayed

section Runs

open Lib (Meets)

variable {D : Type u} {V : Type v} [DecidableEq D] [DecidableEq V] {cfg : Config D V}

section

omit [DecidableEq D] [DecidableEq V]

theorem Base.prepareForBackward {s : State D V} (h : Base cfg.params s.core)
    (hstarted : s.numIterations ≠ 0) (unused : List Nat) :
    Inv cfg.params (prepareForBackward cfg unused s).core := by
  have hcore : (CommHook.prepareForBackward cfg unused s).core =
      { s.core with nextBucket := 0, expected := true, calls := [] } := by
    simp [State.core, CommHook.prepareForBackward, resetBucketCounting, State.buckets, shapeOf,
      Function.comp_def]
  rw [hcore]
  have hbase : Base cfg.params
      ({ s.core with nextBucket := 0, expected := true, calls := [] } : Core D V) :=
    ⟨h.laid, h.cached, h.uncached, fun hzero => absurd hzero hstarted⟩
  refine ⟨hbase, .inr ?_⟩
  cases hfirst : s.core.first with
  | true => exact .inr ⟨rfl, hfirst, rfl, rfl⟩
  | false => exact .inl ⟨hbase, rfl, hfirst, Nat.zero_le _, rfl⟩

theorem laid_of_initialized {assigned : Assigned cfg.params.length} {b : Bucketing D V}
    (h : Initialized cfg.params assigned.buckets b) :
    Laid cfg.params b.variableLocators (b.buckets.map shapeOf) := by
  have hshape : ∀ (i : Nat) (shape : Shape D V), (b.buckets.map shapeOf)[i]? = some shape →
      ∃ (a : List Nat × UInt64) (bucket : Bucket D V), assigned.buckets[i]? = some a ∧
        Built cfg.params a.1 a.2 bucket ∧ shape = shapeOf bucket := by
    intro i shape hi
    rw [List.getElem?_map] at hi
    obtain ⟨bucket, hbucket, rfl⟩ := Option.map_eq_some_iff.mp hi
    obtain ⟨a, ha, hbuilt⟩ := h.bucket hbucket
    exact ⟨a, bucket, ha, hbuilt, rfl⟩
  refine ⟨fun shape hmem => ?_, fun shape hmem v hv => ?_, fun i shape k v hi hk => ?_⟩
  · obtain ⟨i, hi⟩ := List.mem_iff_getElem?.mp hmem
    obtain ⟨a, bucket, -, hbuilt, rfl⟩ := hshape i shape hi
    simp [shapeOf, hbuilt.vars, hbuilt.variableIndices]
  · obtain ⟨i, hi⟩ := List.mem_iff_getElem?.mp hmem
    obtain ⟨a, bucket, ha, hbuilt, rfl⟩ := hshape i shape hi
    have hflat : v ∈ (assigned.buckets.map Prod.fst).flatten :=
      List.mem_flatten.mpr ⟨a.1, List.mem_map_of_mem (List.mem_of_getElem? ha),
        hbuilt.variableIndices ▸ hv⟩
    exact List.mem_range.mp (assigned.perm.mem_iff.mp hflat)
  · obtain ⟨a, bucket, ha, hbuilt, rfl⟩ := hshape i shape hi
    exact h.located (assigned.perm.nodup_iff.mpr List.nodup_range) i a k v ha
      (hbuilt.variableIndices ▸ hk)

end

/-- Buckets are rebuilt between two passes only. -/
theorem Base.rebuildBuckets {s : State D V} (h : Base cfg.params s.core)
    (received : Assigned cfg.params.length) :
    Meets (fun _ => True) (fun s' => Base cfg.params s'.core ∧ s'.numIterations = s.numIterations ∧
        (s' = s ∨ s'.core.expected = false))
      (rebuildBuckets cfg received s) := by
  unfold CommHook.rebuildBuckets
  split
  · trivial
  · split
    · exact ⟨h, rfl, .inl rfl⟩
    case isFalse hdue =>
      split
      · trivial
      · have hinit := @initializeBuckets_meets D V _ _ cfg.params cfg.expectSparseGradients
          cfg.flags s.expectAutogradHooks (received.buckets.map Prod.fst)
          (received.buckets.map Prod.snd)
        split
        · trivial
        case h_2 bucketing hbuilt =>
          have hidle : s.expectAutogradHooks = false := by
            cases hexpected : s.expectAutogradHooks with
            | false => rfl
            | true => simp [initializeBuckets, hexpected] at hbuilt
          have hnever : s.hasRebuiltBucket = false := by
            have hshould := not_not.mp (not_or.mp hdue).1
            simp only [shouldRebuildBuckets, Bool.and_eq_true, Bool.not_eq_true'] at hshould
            exact hshould.2
          obtain ⟨-, hspec⟩ := hinit.of_ok hbuilt
          rw [← List.zip_of_prod rfl rfl] at hspec
          refine ⟨⟨laid_of_initialized hspec, ?_, nofun, fun _ => hidle⟩, rfl, .inr hidle⟩
          intro i vs hvs
          cases (h.uncached hnever i).symm.trans hvs

variable {s : State D V}

omit [DecidableEq D] [DecidableEq V] in
theorem Inv.getGradBuckets (h : Inv cfg.params s.core) :
    Meets (fun _ => True) (fun s' => Inv cfg.params s'.core) (getGradBuckets s) := by
  refine Meets.foldlM_invariant (fun t : State D V => Inv cfg.params t.core) _ h fun i _ t ht => ?_
  cases hi : t.buckets[i]? with
  | none => trivial
  | some bucket =>
    obtain ⟨vs, t', hrun, hcore, hbase, -⟩ := getVariablesForBucket_spec ht.1 hi (.inl rfl)
    simp only [hrun, Except.map, Lib.meets_ok]
    refine ⟨hbase, ?_⟩
    rw [hcore] at hbase ⊢
    rcases ht.2 with hno | hlaunched | hfresh
    · exact .inl hno
    · exact .inr (.inl ⟨hbase, hlaunched.expected, hlaunched.notFirst, hlaunched.inBounds,
        hlaunched.calls⟩)
    · exact .inr (.inr ⟨hfresh.expected, hfresh.first, hfresh.nextBucket, hfresh.calls⟩)

theorem Inv.rebuildBuckets (h : Inv cfg.params s.core) (received : Assigned cfg.params.length) :
    Meets (fun _ => True) (fun s' => Inv cfg.params s'.core) (rebuildBuckets cfg received s) := by
  refine (h.1.rebuildBuckets received).mono fun s' hs' => ?_
  obtain ⟨hbase, -, rfl | hidle⟩ := hs'
  · exact h
  · exact ⟨hbase, .inl hidle⟩

theorem Inv.forward (h : Inv cfg.params s.core)
    (gradEnabled requireGradSync : Bool) (received : Assigned cfg.params.length)
    (unused : List Nat) :
    Meets (fun _ => True) (fun s' => Inv cfg.params s'.core)
      (forward cfg gradEnabled requireGradSync received unused s) := by
  cases gradEnabled with
  | false => exact h
  | true =>
    cases requireGradSync with
    | false => exact (h.rebuildBuckets received).bind fun _ hs => hs
    | true =>
      have hbase : Base cfg.params
          ({ s with numIterations := s.numIterations + 1 } : State D V).core :=
        ⟨h.1.laid, h.1.cached, h.1.uncached, nofun⟩
      refine (hbase.rebuildBuckets received).bind fun s' hs' => ?_
      have hstarted : s'.numIterations ≠ 0 := by
        rw [hs'.2.1]
        exact Nat.succ_ne_zero _
      exact hs'.1.prepareForBackward hstarted unused

/-- Every call keeps the invariant of the buckets. -/
theorem Inv.step (h : Inv cfg.params s.core) (op : Op cfg.params.length) :
    Meets (fun _ => True) (fun s' => Inv cfg.params s'.core) (step cfg s op) := by
  have hfinal : ∀ {s s' : State D V}, Base cfg.params s.core →
      s'.core = { s.core with expected := false } → Inv cfg.params s'.core := by
    intro s s' hbase hcore
    rw [hcore]
    exact ⟨⟨hbase.laid, hbase.cached, hbase.uncached, fun _ => rfl⟩, .inl rfl⟩
  cases op with
  | setStaticGraph =>
    unfold CommHook.step
    simp only
    split
    · trivial
    case isFalse hstarted =>
      have hidle := h.1.iterations (not_not.mp hstarted)
      exact ⟨⟨h.1.laid, h.1.cached, h.1.uncached, fun _ => hidle⟩, .inl hidle⟩
  | forward gradEnabled requireGradSync received unused =>
    exact h.forward gradEnabled requireGradSync received unused
  | autogradHook passes index => exact h.autogradHook passes index
  | finalizeCallback =>
    cases hrun : finalizeCallback cfg s with
    | error e => simp [CommHook.step, hrun]
    | ok s' =>
      rw [CommHook.step, hrun]
      exact hfinal h.1 (finalizeCallback_spec hrun).2.2
  | delayAllReduce passes =>
    cases hrun : delayAllReduce cfg passes s with
    | error e => simp [CommHook.step, hrun]
    | ok s' =>
      rw [CommHook.step, hrun]
      obtain ⟨-, hidle, -, hdone⟩ := delayAllReduce_calls h hrun
      exact ⟨hdone.base, .inl hidle⟩
  | getGradBuckets => exact h.getGradBuckets
  | pushRebuiltParamsForAllIndices =>
    unfold CommHook.step
    simp only [Lib.meets_ok]
    split
    · rw [pushAll_core]
      exact h
    · exact h
  | rebuildBuckets received => exact h.rebuildBuckets received

theorem run_inv {constructed : Assigned cfg.params.length} {ops : List (Op cfg.params.length)}
    (h : run cfg constructed ops = .ok s) : Inv cfg.params s.core := by
  have hinit := @initializeBuckets_meets D V _ _ cfg.params cfg.expectSparseGradients
    cfg.flags false (constructed.buckets.map Prod.fst) (constructed.buckets.map Prod.snd)
  unfold run at h
  split at h
  · cases h
  case h_2 bucketing hbuilt =>
    obtain ⟨-, hspec⟩ := hinit.of_ok hbuilt
    rw [← List.zip_of_prod rfl rfl] at hspec
    have hstart : Inv cfg.params ({ bucketing := bucketing } : State D V).core :=
      ⟨⟨laid_of_initialized hspec, nofun, fun _ _ => rfl, fun _ => rfl⟩, .inl rfl⟩
    have hrun : Meets (fun _ => True) (fun s : State D V => Inv cfg.params s.core)
        (ops.foldlM (step cfg) { bucketing := bucketing }) :=
      Meets.foldlM_invariant _ _ hstart fun op _ s hs => hs.step op
    exact hrun.of_ok h

/-- In a pass the hook was run once with every bucket, and the last one is reported as such. -/
structure HooksRight (cfg : Config D V) (s : State D V) : Prop where
  once : s.hookCalls.Perm (rightCalls cfg.params (s.buckets.map shapeOf))
  last : ∀ call ∈ s.hookCalls, call.isLast = true ↔ call.index + 1 = s.buckets.length

omit [DecidableEq D] [DecidableEq V] in
theorem hooksRight_of_calls {s s' : State D V} (hshapes : s'.core.shapes = s.core.shapes)
    (hcalls : s'.core.calls = rightCalls cfg.params s.core.shapes) : HooksRight cfg s' := by
  have hsame : s'.hookCalls = rightCalls cfg.params (s'.buckets.map shapeOf) :=
    hcalls.trans (congrArg _ hshapes.symm)
  refine ⟨.of_eq hsame, fun call hmem => ?_⟩
  rw [hsame] at hmem
  obtain ⟨i, hi⟩ := List.mem_iff_getElem?.mp hmem
  simp only [rightCalls, List.getElem?_mapIdx, Option.map_eq_some_iff] at hi
  obtain ⟨shape, hshape, rfl⟩ := hi
  have hlt := (List.getElem?_eq_some_iff.mp hshape).1
  simp only [List.length_map] at hlt
  simp only [GradBucket.isLast, rightCall, List.length_map, beq_iff_eq]
  omega

/-- The operations that end a pass, with the gradients reduced. -/
def Op.Ends {n : Nat} : Op n → Prop
  | .finalizeCallback => True
  | .delayAllReduce _ => True
  | _ => False

/-- A pass that ends runs the hook once with every bucket if and only if it is not in the first
iteration of a static graph, or there is one bucket at most. -/
theorem hooksRight_iff {constructed : Assigned cfg.params.length}
    {ops : List (Op cfg.params.length)} {s s' : State D V}
    (hrun : run cfg constructed ops = .ok s) {op : Op cfg.params.length} (hends : op.Ends)
    (hstep : step cfg s op = .ok s') :
    HooksRight cfg s' ↔ s.staticGraphFirstIteration = false ∨ s.buckets.length ≤ 1 := by
  have hinv := run_inv hrun
  have hlength : s.core.shapes.length = s.buckets.length := by simp [State.core]
  have hright : s'.core.shapes = s.core.shapes →
      s'.core.calls = rightCalls cfg.params s.core.shapes → HooksRight cfg s' :=
    hooksRight_of_calls
  match op, hends with
  | .finalizeCallback, _ =>
    obtain ⟨hexpected, hnext, hcore⟩ := finalizeCallback_spec hstep
    rcases hinv.2 with hno | hlaunched | hfresh
    · exact absurd (hexpected.symm.trans hno) (by simp)
    · refine iff_of_true (hright (by rw [hcore]) ?_) (.inl hlaunched.notFirst)
      rw [hcore]
      have hcalls := hlaunched.calls
      rw [hnext, List.take_of_length_le (by simp)] at hcalls
      exact hcalls
    · have hnone : s.core.shapes.length = 0 := hnext.symm.trans hfresh.nextBucket
      refine iff_of_true (hright (by rw [hcore]) ?_) (.inr (by omega))
      rw [hcore, List.length_eq_zero_iff.mp hnone]
      exact hfresh.calls
  | .delayAllReduce passes, _ =>
    obtain ⟨hfirst, -, hshapes, hdone⟩ := delayAllReduce_calls hinv hstep
    have hcount : s'.core.calls.length = s.core.shapes.length := by simpa using hdone.count
    constructor
    · intro hooks
      by_contra hnot
      have hmany : 1 < s.core.shapes.length := by
        omega
      have hsecond : (rightCalls cfg.params s'.core.shapes)[1]? =
          some (rightCall cfg.params s'.core.shapes.length 1
            (s'.core.shapes.get ⟨1, hshapes ▸ hmany⟩)) := by
        simp [rightCalls, hshapes, hmany]
      have hmem := hooks.once.mem_iff.mpr (List.mem_of_getElem? hsecond)
      have hzero := hdone.index _ hmem
      cases hzero
    · intro hfew
      have hone : s.core.shapes.length ≤ 1 := by
        rcases hfew with hno | hfew
        · exact absurd (hfirst.symm.trans hno) (by simp)
        · omega
      refine hright hshapes (List.ext_getElem? fun i => ?_)
      rcases Nat.lt_or_ge i s.core.shapes.length with hi | hi
      · obtain rfl : i = 0 := by omega
        have hget := List.getElem?_eq_getElem (hcount ▸ hi : 0 < s'.core.calls.length)
        have hhead := hdone.head _ hget
        rw [hshapes] at hhead
        exact hget.trans hhead.symm
      · rw [List.getElem?_eq_none (by omega), List.getElem?_eq_none (by simpa using hi)]

end Runs

section Examples

/-- Two parameters, which are expected to have dense gradients. -/
def twoParameters : Config Unit Unit where
  params := [plainTensor 1 4, plainTensor 2 4]
  expectSparseGradients := [false, false]
  findUnusedParameters := false
  flags := rfl

def twoBuckets : Assigned twoParameters.params.length where
  buckets := [([0], 4), ([1], 8)]
  perm := by decide

def firstIteration (static : Bool) : List (Op twoParameters.params.length) :=
  (if static then [.setStaticGraph] else []) ++
    [.forward true true twoBuckets [], .autogradHook (fun _ => true) 0,
      .autogradHook (fun _ => true) 1]

/-- Two buckets without a static graph. -/
theorem hooksRight_iff_dynamic :
    ∃ s s', run twoParameters twoBuckets (firstIteration false) = .ok s ∧
      step twoParameters s .finalizeCallback = .ok s' ∧
      (HooksRight twoParameters s' ↔
        s.staticGraphFirstIteration = false ∨ s.buckets.length ≤ 1) := by
  have hends : (.finalizeCallback : Op twoParameters.params.length).Ends := trivial
  refine ⟨_, _, rfl, rfl, ?_⟩
  exact hooksRight_iff (show run twoParameters twoBuckets (firstIteration false) = .ok _ from rfl)
    hends rfl

/-- In the first iteration of a static graph the hook is run with the index 0 for both
buckets. -/
theorem delayAllReduce_misses : ∃ s s', run twoParameters twoBuckets (firstIteration true) = .ok s ∧
      step twoParameters s (.delayAllReduce fun _ => true) = .ok s' ∧
      s'.hookCalls.map GradBucket.index = [0, 0] ∧ ¬ HooksRight twoParameters s' := by
  refine ⟨_, _, rfl, rfl, rfl, fun hooks => ?_⟩
  have hindices := hooks.once.map GradBucket.index
  exact absurd hindices (by decide)

end Examples

end CommHook
end PyTorchCore.Ddp
