import PyTorchCore.Ddp.BucketAssignment
import PyTorchCore.Lib.Outcome

/-!
# The buckets of the reducer

`initialize_buckets` builds the buckets from the lists of variables and the size limits. A bucket
with a sparse gradient has one variable; those of any other bucket lie one behind the other in a
flat tensor.
-/

namespace PyTorchCore.Ddp

universe u v

/-- The checks of `initialize_buckets`, and a read behind the end of a vector. -/
inductive BucketFailure
  | duringAutograd
  | bucketCount
  | emptyBucket
  | sparseNotAlone
  | device
  | dtype
  | outOfRange
deriving DecidableEq

structure VariableLocator where
  bucketIndex : Nat
  intraBucketIndex : Nat
deriving DecidableEq

/-- `BucketReplica`, with the layout of the flat contents. -/
structure BucketReplica (D : Type u) (V : Type v) where
  /-- `variables`. -/
  vars : List (Tensor D V) := []
  offsets : List Nat := []
  lengths : List Nat := []
  pending : Nat := 0

/-- `Bucket`; there is one replica. -/
structure Bucket (D : Type u) (V : Type v) where
  replica : BucketReplica D V
  variableIndices : List Nat
  pending : Nat := 0
  expectSparseGradient : Bool
  bucketSizeLimit : UInt64
  /-- Whether `future_work` is set. -/
  futureWork : Bool := false

section Initialize

variable {D : Type u} {V : Type v} [DecidableEq D] [DecidableEq V]

/-- The local variables of the loop over the variables of a dense bucket. -/
structure Flattening (D : Type u) (V : Type v) where
  device : Option V := none
  dtype : Option D := none
  offset : Nat := 0
  replica : BucketReplica D V := {}

/-- A variable is put behind the others. -/
def flattenVariable (params : List (Tensor D V)) (f : Flattening D V) (variableIndex : Nat) :
    Except BucketFailure (Flattening D V) :=
  match params[variableIndex]? with
  | none => .error .outOfRange
  | some var =>
    if f.device.getD var.device ≠ var.device then .error .device
    else if f.dtype.getD var.scalarType ≠ var.scalarType then .error .dtype
    else
      .ok
        { device := some (f.device.getD var.device)
          dtype := some (f.dtype.getD var.scalarType)
          offset := f.offset + var.numel
          replica :=
            { f.replica with
              vars := f.replica.vars ++ [var]
              offsets := f.replica.offsets ++ [f.offset]
              lengths := f.replica.lengths ++ [var.numel] } }

/-- Whether a bucket expects a sparse gradient; if it has several variables, none of them
may. -/
def sparseBucket (expectSparseGradients : List Bool) : List Nat → Except BucketFailure Bool
  | [variableIndex] =>
    match expectSparseGradients[variableIndex]? with
    | none => .error .outOfRange
    | some sparse => .ok sparse
  | indices =>
    indices.foldlM (fun _ variableIndex =>
      match expectSparseGradients[variableIndex]? with
      | none => .error .outOfRange
      | some true => .error .sparseNotAlone
      | some false => .ok false) false

def initializeBucket (params : List (Tensor D V)) (expectSparseGradients : List Bool)
    (indices : List Nat) (limit : UInt64) : Except BucketFailure (Bucket D V) :=
  if indices.isEmpty then .error .emptyBucket
  else
    (sparseBucket expectSparseGradients indices).bind fun sparse =>
      if sparse then
        match indices.head?.bind (params[·]?) with
        | none => .error .outOfRange
        | some var => .ok ⟨{ vars := [var] }, indices, 0, true, limit, false⟩
      else
        (indices.foldlM (flattenVariable params) {}).map fun f =>
          ⟨f.replica, indices, 0, false, limit, false⟩

/-- The locators of the variables of a bucket, from a place in it on. -/
def setLocators (bucketIndex : Nat) :
    Nat → List Nat → (Nat → VariableLocator) → Nat → VariableLocator
  | _, [], locators => locators
  | intra, variableIndex :: indices, locators =>
    setLocators bucketIndex (intra + 1) indices
      (Function.update locators variableIndex ⟨bucketIndex, intra⟩)

structure Bucketing (D : Type u) (V : Type v) where
  buckets : List (Bucket D V) := []
  variableLocators : Nat → VariableLocator := fun _ => ⟨0, 0⟩

/-- The body of the loop over the buckets. -/
def addInitialized (params : List (Tensor D V)) (expectSparseGradients : List Bool)
    (b : Bucketing D V) (bucket : List Nat × UInt64) : Except BucketFailure (Bucketing D V) :=
  (initializeBucket params expectSparseGradients bucket.1 bucket.2).bind fun new =>
    if bucket.1.all (· < params.length) then
      .ok
        { buckets := b.buckets ++ [new]
          variableLocators := setLocators b.buckets.length 0 bucket.1 b.variableLocators }
    else .error .outOfRange

def initializeBuckets (params : List (Tensor D V)) (expectSparseGradients : List Bool)
    (expectAutogradHooks : Bool) (bucketIndices : List (List Nat))
    (perBucketSizes : List UInt64) : Except BucketFailure (Bucketing D V) :=
  if expectAutogradHooks then .error .duringAutograd
  else if bucketIndices.length ≠ perBucketSizes.length then .error .bucketCount
  else (bucketIndices.zip perBucketSizes).foldlM (addInitialized params expectSparseGradients) {}

end Initialize

section OneBucket

open Lib (Meets)
open Option Function List

variable {D : Type u} {V : Type v} [DecidableEq D] [DecidableEq V]
  {params : List (Tensor D V)} {flags : List Bool} {indices : List Nat} {limit : UInt64}

/-- What is asked of a bucket: it has parameters of one type and device, and only one if a sparse
gradient is expected. -/
structure FitsBucket (params : List (Tensor D V)) (flags : List Bool) (indices : List Nat) :
    Prop where
  nonempty : indices ≠ []
  inRange : ∀ i ∈ indices, i < params.length
  alone : ∀ i ∈ indices, flags[i]? = some true → indices.length = 1
  alike : ∀ i ∈ indices, ∀ j ∈ indices, params[i]?.map Tensor.key = params[j]?.map Tensor.key

def variablesOf (params : List (Tensor D V)) (indices : List Nat) : List (Tensor D V) :=
  indices.filterMap (params[·]?)

section

omit [DecidableEq D] [DecidableEq V]

theorem variablesOf_concat (indices : List Nat) {i : Nat} {var : Tensor D V}
    (hi : params[i]? = some var) :
    variablesOf params (indices ++ [i]) = variablesOf params indices ++ [var] := by
  simp [variablesOf, hi]

theorem variablesOf_some {order : List Nat} (horder : ∀ i ∈ order, i < params.length) :
    (variablesOf params order).map some = order.map (params[·]?) := by
  induction order with
  | nil => rfl
  | cons i order ih =>
    obtain ⟨hi, horder⟩ := forall_mem_cons.mp horder
    have hrest := ih horder
    simp only [variablesOf] at hrest
    simp [variablesOf, hi, hrest]

end

/-- What is known in the loop over the variables: type and device are those of the first. -/
structure Flattened (params : List (Tensor D V)) (done : List Nat) (f : Flattening D V) :
    Prop where
  vars : f.replica.vars = variablesOf params done
  device : f.device = (variablesOf params done).head?.map Tensor.device
  dtype : f.dtype = (variablesOf params done).head?.map Tensor.scalarType

/-- The loop over the variables fails only if they do not fit. -/
theorem flatten_meets :
    Meets (fun _ => ¬ FitsBucket params flags indices) (Flattened params indices)
      (indices.foldlM (flattenVariable params) {}) := by
  refine Meets.foldlM (Flattened params) _ ⟨rfl, rfl, rfl⟩ fun front i rest hsplit f hf => ?_
  have hmem : ∀ j ∈ front ++ [i], j ∈ indices := by
    intro j hj
    rw [hsplit]
    simp only [mem_append, mem_cons] at hj ⊢
    tauto
  have hi : i ∈ indices := hmem i (by simp)
  cases hvariable : params[i]? with
  | none =>
    simp only [flattenVariable, hvariable, Lib.meets_error]
    intro hfits
    exact absurd (hfits.inRange i hi) (by simpa using hvariable)
  | some var =>
    have hsame : FitsBucket params flags indices →
        ∀ first ∈ (variablesOf params front).head?, first.key = var.key := by
      intro hfits first hfirst
      obtain ⟨j, hj, hfound⟩ := mem_filterMap.mp (mem_of_mem_head? hfirst)
      have halike := hfits.alike j (hmem j (by simp [hj])) i hi
      simpa [hfound, hvariable] using halike
    simp only [flattenVariable, hvariable, hf.device, hf.dtype]
    cases hhead : (variablesOf params front).head? with
    | none =>
      have hnil : variablesOf params front = [] := head?_eq_none_iff.mp hhead
      simp only [map_none, getD_none, ne_eq, not_true_eq_false, if_false, Lib.meets_ok]
      exact ⟨by simp [variablesOf_concat front hvariable, hf.vars],
        by simp [variablesOf_concat front hvariable, hnil],
        by simp [variablesOf_concat front hvariable, hnil]⟩
    | some first =>
      obtain ⟨others, hothers⟩ : ∃ others, variablesOf params front = first :: others :=
        head?_eq_some_iff.mp hhead
      split
      case isTrue hdevice =>
        intro hfits
        exact hdevice (congrArg Prod.snd (hsame hfits first hhead))
      case isFalse =>
        split
        case isTrue hdtype =>
          intro hfits
          exact hdtype (congrArg Prod.fst (hsame hfits first hhead))
        case isFalse =>
          exact ⟨by simp [variablesOf_concat front hvariable, hf.vars],
            by simp [variablesOf_concat front hvariable, hothers],
            by simp [variablesOf_concat front hvariable, hothers]⟩

omit [DecidableEq D] [DecidableEq V] in
theorem sparseBucket_meets (hflags : flags.length = params.length) :
    Meets (fun _ => ¬ FitsBucket params flags indices)
      (fun sparse => sparse = true → indices.length = 1) (sparseBucket flags indices) := by
  have hrange : FitsBucket params flags indices → ∀ i ∈ indices, flags[i]? ≠ none := by
    intro hfits i hi hnone
    exact absurd (hflags ▸ hfits.inRange i hi) (by simpa using hnone)
  unfold sparseBucket
  split
  case h_1 i =>
    cases hflag : flags[i]? with
    | none => exact fun hfits => hrange hfits i (by simp) hflag
    | some sparse => exact fun _ => rfl
  case h_2 hseveral =>
    have hloop : Meets (fun _ => ¬ FitsBucket params flags indices) (fun sparse => sparse = false)
        (indices.foldlM (m := Except BucketFailure) (fun _ variableIndex =>
          match flags[variableIndex]? with
          | none => .error .outOfRange
          | some true => .error .sparseNotAlone
          | some false => .ok false) false) := by
      refine Meets.foldlM_invariant _ _ rfl fun i hi _ _ => ?_
      cases hflag : flags[i]? with
      | none => exact fun hfits => hrange hfits i hi hflag
      | some sparse =>
        cases sparse with
        | false => rfl
        | true =>
          intro hfits
          obtain ⟨j, rfl⟩ := length_eq_one_iff.mp (hfits.alone i hi hflag)
          exact hseveral j rfl
    exact hloop.mono fun sparse hfalse htrue => by simp [hfalse] at htrue

structure Built (params : List (Tensor D V)) (indices : List Nat) (limit : UInt64)
    (bucket : Bucket D V) : Prop where
  variableIndices : bucket.variableIndices = indices
  bucketSizeLimit : bucket.bucketSizeLimit = limit
  vars : bucket.replica.vars = variablesOf params indices

theorem initializeBucket_meets (hflags : flags.length = params.length) :
    Meets (fun _ => ¬ FitsBucket params flags indices) (Built params indices limit)
      (initializeBucket params flags indices limit) := by
  unfold initializeBucket
  split
  case isTrue hempty =>
    exact fun hfits => hfits.nonempty (by simpa using hempty)
  case isFalse hempty =>
    have hread : Meets (fun _ => ¬ FitsBucket params flags indices)
        (fun sparse => sparse = true → indices.length = 1) (sparseBucket flags indices) :=
      sparseBucket_meets hflags
    cases hsparse : sparseBucket flags indices with
    | error e => exact hread.of_error hsparse
    | ok sparse =>
      have halone := hread.of_ok hsparse
      cases sparse with
      | true =>
        obtain ⟨i, rfl⟩ := length_eq_one_iff.mp (halone rfl)
        simp only [Except.bind, if_true, head?_cons, bind_some]
        cases hvariable : params[i]? with
        | none =>
          intro hfits
          exact absurd (hfits.inRange i (by simp)) (by simpa using hvariable)
        | some var => exact ⟨rfl, rfl, by simp [variablesOf, hvariable]⟩
      | false =>
        have hloop : Meets (fun _ => ¬ FitsBucket params flags indices)
            (Flattened params indices) (indices.foldlM (flattenVariable params) {}) :=
          flatten_meets
        cases hrun : indices.foldlM (flattenVariable params) ({} : Flattening D V) with
        | error e => exact hloop.of_error hrun
        | ok f => exact ⟨rfl, rfl, (hloop.of_ok hrun).vars⟩

end OneBucket

section Locators

variable {bucketIndex intra : Nat} {indices : List Nat} {locators : Nat → VariableLocator}

theorem setLocators_of_notMem {v : Nat} (hv : v ∉ indices) :
    setLocators bucketIndex intra indices locators v = locators v := by
  induction indices generalizing intra locators with
  | nil => rfl
  | cons i indices ih =>
    obtain ⟨hne, hv⟩ := not_or.mp (List.mem_cons.not.mp hv)
    exact (ih hv).trans (Function.update_of_ne hne ..)

theorem setLocators_of_getElem? {v k : Nat} (hnodup : indices.Nodup) (hk : indices[k]? = some v) :
    setLocators bucketIndex intra indices locators v = ⟨bucketIndex, intra + k⟩ := by
  induction indices generalizing intra k locators with
  | nil => cases hk
  | cons i indices ih =>
    obtain ⟨hi, hnodup⟩ := List.nodup_cons.mp hnodup
    cases k with
    | zero =>
      obtain rfl : i = v := by simpa using hk
      exact (setLocators_of_notMem hi).trans (Function.update_self ..)
    | succ k =>
      have hrest : setLocators bucketIndex (intra + 1) indices
          (Function.update locators i ⟨bucketIndex, intra⟩) v =
            ⟨bucketIndex, intra + 1 + k⟩ := ih hnodup (by simpa using hk)
      simp only [setLocators, hrest, VariableLocator.mk.injEq, true_and]
      omega

end Locators

section AllBuckets

open Lib (Meets)

variable {D : Type u} {V : Type v} [DecidableEq D] [DecidableEq V]
  {params : List (Tensor D V)} {flags : List Bool}

/-- The buckets of some lists of variables with their limits, and the locators. -/
structure Initialized (params : List (Tensor D V)) (assigned : List (List Nat × UInt64))
    (b : Bucketing D V) : Prop where
  built : List.Forall₂ (fun a bucket => Built params a.1 a.2 bucket) assigned b.buckets
  located : (assigned.map Prod.fst).flatten.Nodup → ∀ i a k v, assigned[i]? = some a →
    a.1[k]? = some v → b.variableLocators v = ⟨i, k⟩

section

omit [DecidableEq D] [DecidableEq V]

/-- Building one more bucket keeps the buckets as laid out. -/
theorem Initialized.add {assigned : List (List Nat × UInt64)} {b : Bucketing D V}
    (h : Initialized params assigned b) {a : List Nat × UInt64} {bucket : Bucket D V}
    (hbuilt : Built params a.1 a.2 bucket) :
    Initialized params (assigned ++ [a])
      { buckets := b.buckets ++ [bucket]
        variableLocators := setLocators b.buckets.length 0 a.1 b.variableLocators } where
  built := List.rel_append h.built (.cons hbuilt .nil)
  located := by
    intro hnodup i a' k v ha' hk
    rw [List.map_append, List.flatten_append, List.nodup_append'] at hnodup
    obtain ⟨hbefore, hnew, hdisjoint⟩ := hnodup
    have hlength : assigned.length = b.buckets.length := h.built.length_eq
    rcases lt_trichotomy i assigned.length with hlt | rfl | hgt
    · rw [List.getElem?_append_left hlt] at ha'
      have hv : v ∈ (assigned.map Prod.fst).flatten :=
        List.mem_flatten.mpr ⟨a'.1, List.mem_map_of_mem (List.mem_of_getElem? ha'),
          List.mem_of_getElem? hk⟩
      have hnot : v ∉ a.1 := fun hmem => hdisjoint hv (by simpa using hmem)
      exact (setLocators_of_notMem hnot).trans (h.located hbefore i a' k v ha' hk)
    · obtain rfl : a = a' := by simpa using ha'
      have hset : setLocators b.buckets.length 0 a.1 b.variableLocators v =
          ⟨b.buckets.length, 0 + k⟩ := setLocators_of_getElem? (by simpa using hnew) hk
      simpa [hlength] using hset
    · have hnone : (assigned ++ [a])[i]? = none := by
        simp only [List.getElem?_eq_none_iff, List.length_append, List.length_singleton]
        omega
      cases hnone.symm.trans ha'

theorem Initialized.indices {assigned : List (List Nat × UInt64)} {b : Bucketing D V}
    (h : Initialized params assigned b) :
    b.buckets.map Bucket.variableIndices = assigned.map Prod.fst := by
  obtain ⟨hbuilt, -⟩ := h
  generalize b.buckets = buckets at hbuilt ⊢
  induction hbuilt with
  | nil => rfl
  | cons hbucket _ ih => simp [hbucket.variableIndices, ih]

theorem Initialized.limits {assigned : List (List Nat × UInt64)} {b : Bucketing D V}
    (h : Initialized params assigned b) :
    b.buckets.map Bucket.bucketSizeLimit = assigned.map Prod.snd := by
  obtain ⟨hbuilt, -⟩ := h
  generalize b.buckets = buckets at hbuilt ⊢
  induction hbuilt with
  | nil => rfl
  | cons hbucket _ ih => simp [hbucket.bucketSizeLimit, ih]

theorem Initialized.bucket {assigned : List (List Nat × UInt64)} {b : Bucketing D V}
    (h : Initialized params assigned b) {i : Nat} {bucket : Bucket D V}
    (hi : b.buckets[i]? = some bucket) :
    ∃ a, assigned[i]? = some a ∧ Built params a.1 a.2 bucket := by
  obtain ⟨hbuilt, -⟩ := h
  generalize b.buckets = buckets at hbuilt hi
  induction hbuilt generalizing i with
  | nil => cases hi
  | cons hbucket _ ih =>
    cases i with
    | zero =>
      cases hi
      exact ⟨_, rfl, hbucket⟩
    | succ i => exact ih hi

end

/-- `initialize_buckets` builds the buckets, and refuses only what does not fit. -/
theorem initializeBuckets_meets (hflags : flags.length = params.length) {during : Bool}
    {bucketIndices : List (List Nat)} {sizes : List UInt64} :
    Meets
      (fun _ => ¬ (during = false ∧ bucketIndices.length = sizes.length ∧
        ∀ indices ∈ bucketIndices, FitsBucket params flags indices))
      (fun b => bucketIndices.length = sizes.length ∧
        Initialized params (bucketIndices.zip sizes) b)
      (initializeBuckets params flags during bucketIndices sizes) := by
  unfold initializeBuckets
  split
  case isTrue hduring => exact fun h => by simp [h.1] at hduring
  case isFalse =>
    split
    case isTrue hcount => exact fun h => hcount h.2.1
    case isFalse hcount =>
      have hcount := not_not.mp hcount
      have hloop : Meets
          (fun _ => ¬ ∀ indices ∈ bucketIndices, FitsBucket params flags indices)
          (Initialized params (bucketIndices.zip sizes))
          ((bucketIndices.zip sizes).foldlM (addInitialized params flags) {}) := by
        refine Meets.foldlM (Initialized params) _
          ⟨.nil, by simp⟩ fun front a rest hsplit b hb => ?_
        have ha : a.1 ∈ bucketIndices := by
          have hmem : a ∈ bucketIndices.zip sizes := by simp [hsplit]
          exact (List.of_mem_zip (show (a.1, a.2) ∈ bucketIndices.zip sizes from hmem)).1
        have hbucket : Meets (fun _ => ¬ FitsBucket params flags a.1)
            (Built params a.1 a.2) (initializeBucket params flags a.1 a.2) :=
          initializeBucket_meets hflags
        unfold addInitialized
        cases hrun : initializeBucket params flags a.1 a.2 with
        | error e => exact fun hfits => hbucket.of_error hrun (hfits a.1 ha)
        | ok bucket =>
          split
          case isTrue => exact hb.add (hbucket.of_ok hrun)
          case isFalse hrange =>
            intro hfits
            exact hrange (by simpa using (hfits a.1 ha).inRange)
      cases hrun : (bucketIndices.zip sizes).foldlM (addInitialized params flags)
          ({} : Bucketing D V) with
      | error e => exact fun h => hloop.of_error hrun h.2.2
      | ok b => exact ⟨hcount, hloop.of_ok hrun⟩

end AllBuckets

end PyTorchCore.Ddp
