import Mathlib.Algebra.BigOperators.Group.List.Basic
import PyTorchCore.Ddp.Buckets

/-!
# Rebuilding the buckets

After the first backward pass the buckets are assigned once more, in the order in which the
gradients became ready. `sync_bucket_indices` sends the assignment of rank 0 to the others: first
all indices with the number of buckets behind them, then the sizes of the buckets, both as tensors
of 32-bit integers. The size limits are not sent.
-/

namespace PyTorchCore.Ddp

open List

universe u v

section Ints

/-- A `size_t` as an `int`. -/
def toInt (k : Nat) : Int32 := Int32.ofNat k

/-- An `int` as a `size_t`. -/
def ofInt (x : Int32) : Nat := (x.toInt % 2 ^ 64).toNat

theorem toInt_toInt {k : Nat} (hk : k < 2 ^ 31) : (toInt k).toInt = k :=
  Int32.toInt_ofNat_of_lt hk

theorem toInt_nonneg {k : Nat} (hk : k < 2 ^ 31) : 0 ≤ toInt k := by
  have hvalue := toInt_toInt hk
  rw [Int32.le_iff_toInt_le, hvalue]
  exact Int.natCast_nonneg k

theorem ofInt_toInt {k : Nat} (hk : k < 2 ^ 63) : ofInt (toInt k) = k ↔ k < 2 ^ 31 := by
  constructor
  · intro hsame
    have hupper := Int32.toInt_lt (toInt k)
    have hlower := Int32.le_toInt (toInt k)
    unfold ofInt at hsame
    omega
  · intro hlt
    have hvalue := toInt_toInt hlt
    unfold ofInt
    omega

end Ints

section Sync

/-- The ways in which `sync_bucket_indices` fails. -/
inductive SyncFailure
  | differentSizes
  | negativeSize
  | outOfRange
deriving DecidableEq

/-- `broadcast` of the tensor of rank 0 to a rank that has a tensor of its own. -/
def broadcast (root own : List Int32) : Except SyncFailure (List Int32) :=
  if root.length = own.length then .ok root else .error .differentSizes

/-- `indices_tensor`: the indices, and behind them the number of buckets. -/
def indicesTensor (bucketIndices : List (List Nat)) : List Int32 :=
  bucketIndices.flatten.map toInt ++ [toInt bucketIndices.length]

/-- `bucket_sizes_tensor` for a number of buckets that may not be the own one. -/
def bucketSizesTensor (numBuckets : Nat) (bucketSizes : List Nat) :
    Except SyncFailure (List Int32) :=
  if bucketSizes.isEmpty ∧ numBuckets ≠ 0 then .error .outOfRange
  else
    .ok ((List.range numBuckets).map fun i =>
      toInt (bucketSizes.getD (min i (bucketSizes.length - 1)) 0))

/-- The indices are cut into buckets. -/
def recut : List Int32 → List Int32 → Except SyncFailure (List (List Nat))
  | [], _ => .ok []
  | size :: sizes, indices =>
    if size < 0 then .error .negativeSize
    else if indices.length < ofInt size then .error .outOfRange
    else
      (recut sizes (indices.drop (ofInt size))).map fun buckets =>
        (indices.take (ofInt size)).map ofInt :: buckets

/-- `sync_bucket_indices` on a rank, where `root` is what rank 0 has. -/
def syncBucketIndices (root bucketIndices : List (List Nat)) :
    Except SyncFailure (List (List Nat)) := do
  let indices ← broadcast (indicesTensor root) (indicesTensor bucketIndices)
  match indices[bucketIndices.flatten.length]? with
  | none => .error .outOfRange
  | some numBuckets =>
    if numBuckets < 0 then .error .negativeSize
    else
      let rootSizes ← bucketSizesTensor (ofInt numBuckets) (root.map List.length)
      let ownSizes ← bucketSizesTensor (ofInt numBuckets) (bucketIndices.map List.length)
      let bucketSizes ← broadcast rootSizes ownSizes
      recut bucketSizes indices

theorem map_eq_ok_iff {α β ε : Type} {x : Except ε α} {f : α → β} {b : β} :
    x.map f = .ok b ↔ ∃ a, x = .ok a ∧ f a = b := by
  cases x <;> simp [Except.map]

theorem append_prefix_iff {α : Type} {front back l : List α} (hlength : front.length ≤ l.length) :
    front ++ back <+: l ↔ l.take front.length = front ∧ back <+: l.drop front.length := by
  constructor
  · intro hprefix
    obtain ⟨rest, rfl⟩ := hprefix
    exact ⟨by simp, rest, by simp⟩
  · rintro ⟨hfront, rest, hback⟩
    refine ⟨rest, ?_⟩
    calc front ++ back ++ rest = front ++ l.drop front.length := by
          rw [append_assoc, hback]
      _ = l.take front.length ++ l.drop front.length := by rw [hfront]
      _ = l := take_append_drop ..

theorem recut_eq_ok_iff {sizes indices : List Int32} {buckets : List (List Nat)} :
    recut sizes indices = .ok buckets ↔
      (∀ size ∈ sizes, 0 ≤ size) ∧ sizes.map ofInt = buckets.map List.length ∧
        buckets.flatten <+: indices.map ofInt := by
  induction sizes generalizing indices buckets with
  | nil =>
    cases buckets with
    | nil => simp [recut]
    | cons bucket buckets => simp [recut]
  | cons size sizes ih =>
    unfold recut
    split
    case isTrue hneg =>
      have hnot : ¬ 0 ≤ size := Int32.not_le.mpr hneg
      simp [hnot]
    case isFalse hnonneg =>
      have hsize : 0 ≤ size := Int32.not_lt.mp hnonneg
      cases buckets with
      | nil =>
        split
        · simp
        · cases recut sizes (indices.drop (ofInt size)) <;> simp [Except.map]
      | cons bucket buckets =>
        split
        case isTrue hshort =>
          simp only [reduceCtorEq, false_iff, map_cons, List.cons.injEq, flatten_cons]
          rintro ⟨-, ⟨hlength, -⟩, hprefix⟩
          have hle := hprefix.length_le
          simp only [length_append, length_map] at hle
          omega
        case isFalse hlong =>
          rw [map_eq_ok_iff]
          constructor
          · rintro ⟨rest, hrest, heq⟩
            obtain ⟨hbucket, rfl⟩ := List.cons.inj heq
            obtain ⟨hsizes, hlengths, hprefix⟩ := ih.mp hrest
            have hlength : bucket.length = ofInt size := by
              rw [← hbucket, length_map, length_take]
              omega
            refine ⟨by simpa [hsize] using hsizes, by simp [hlength, hlengths], ?_⟩
            rw [flatten_cons, append_prefix_iff (by simp [hlength]; omega), hlength]
            exact ⟨by rw [← map_take]; exact hbucket, by rwa [← map_drop]⟩
          · rintro ⟨hsizes, hlengths, hprefix⟩
            obtain ⟨hlength, hlengths⟩ := List.cons.inj hlengths
            have hle : bucket.length ≤ (indices.map ofInt).length := by
              simp only [length_map]
              omega
            rw [flatten_cons, append_prefix_iff hle, ← hlength] at hprefix
            obtain ⟨hbucket, hrest⟩ := hprefix
            refine ⟨buckets, ih.mpr ⟨fun s hs => hsizes s (by simp [hs]), hlengths, ?_⟩, ?_⟩
            · rwa [map_drop]
            · rw [map_take, hbucket]

/-- An `int` can hold the indices, the number of buckets and the size of every bucket. -/
structure FitsInt (bucketIndices : List (List Nat)) : Prop where
  count : bucketIndices.length < 2 ^ 31
  sizes : ∀ indices ∈ bucketIndices, indices.length < 2 ^ 31
  indices : ∀ indices ∈ bucketIndices, ∀ i ∈ indices, i < 2 ^ 31

variable {bucketSizes : List Nat}

theorem bucketSizesTensor_length {numBuckets : Nat} {t : List Int32}
    (h : bucketSizesTensor numBuckets bucketSizes = .ok t) : t.length = numBuckets := by
  unfold bucketSizesTensor at h
  split at h
  · cases h
  · cases h
    simp

theorem bucketSizesTensor_self (bucketSizes : List Nat) :
    bucketSizesTensor bucketSizes.length bucketSizes = .ok (bucketSizes.map toInt) := by
  have hnot : ¬ (bucketSizes.isEmpty ∧ bucketSizes.length ≠ 0) := by simp
  rw [bucketSizesTensor, if_neg hnot]
  congr 1
  refine ext_getElem (by simp) fun i hi _ => ?_
  have hlt : i < bucketSizes.length := by simpa using hi
  have hmin : min i (bucketSizes.length - 1) = i := by omega
  simp [hmin, hlt]

theorem bucketSizesTensor_other (numBuckets : Nat)
    (h : bucketSizes ≠ []) : ∃ t, bucketSizesTensor numBuckets bucketSizes = .ok t := by
  have hnot : ¬ (bucketSizes.isEmpty ∧ numBuckets ≠ 0) := by simp [h]
  exact ⟨_, by rw [bucketSizesTensor, if_neg hnot]⟩

theorem map_ofInt_toInt {l : List Nat} (hl : ∀ k ∈ l, k < 2 ^ 63) :
    (l.map toInt).map ofInt = l ↔ ∀ k ∈ l, k < 2 ^ 31 := by
  induction l with
  | nil => simp
  | cons k l ih =>
    obtain ⟨hk, hl⟩ := forall_mem_cons.mp hl
    simp only [map_cons, List.cons.injEq, ofInt_toInt hk, ih hl, forall_mem_cons]

/-- The sizes of a vector. -/
structure InMemory (bucketIndices : List (List Nat)) : Prop where
  count : bucketIndices.length < 2 ^ 63
  sizes : ∀ indices ∈ bucketIndices, indices.length < 2 ^ 63
  indices : ∀ indices ∈ bucketIndices, ∀ i ∈ indices, i < 2 ^ 63

/-- A rank with as many indices ends up with the assignment of rank 0 if an `int` can hold all
that is sent. -/
theorem syncBucketIndices_eq_iff {root bucketIndices : List (List Nat)} (hroot : InMemory root)
    (hlength : root.flatten.length = bucketIndices.flatten.length) (hne : bucketIndices ≠ []) :
    syncBucketIndices root bucketIndices = .ok root ↔ FitsInt root := by
  have hbroadcast : broadcast (indicesTensor root) (indicesTensor bucketIndices) =
      .ok (indicesTensor root) := by
    refine if_pos ?_
    simp only [indicesTensor, length_append, length_map, length_singleton, hlength]
  have hlast : (indicesTensor root)[bucketIndices.flatten.length]? = some (toInt root.length) := by
    have hle : (root.flatten.map toInt).length ≤ root.flatten.length := by
      rw [length_map]
    rw [← hlength, indicesTensor, getElem?_append_right hle, length_map, Nat.sub_self]
    rfl
  have hindices : root.flatten <+: (indicesTensor root).map ofInt ↔
      ∀ i ∈ root.flatten, i < 2 ^ 31 := by
    have hbound : ∀ i ∈ root.flatten, i < 2 ^ 63 := by
      intro i hi
      obtain ⟨indices, hmem, hi⟩ := mem_flatten.mp hi
      exact hroot.indices indices hmem i hi
    rw [← map_ofInt_toInt hbound, indicesTensor, map_append]
    constructor
    · intro hprefix
      have htake := prefix_iff_eq_take.mp hprefix
      exact (htake.trans (take_left' (by simp only [length_map]))).symm
    · intro hsame
      rw [hsame]
      exact prefix_append ..
  have hsizes : ((root.map List.length).map toInt).map ofInt = root.map List.length ↔
      ∀ indices ∈ root, indices.length < 2 ^ 31 := by
    rw [map_ofInt_toInt (by simpa using hroot.sizes)]
    simp
  have hown : bucketIndices.map List.length ≠ [] := by simpa using hne
  obtain ⟨own, hownSizes⟩ := bucketSizesTensor_other (ofInt (toInt root.length)) hown
  constructor
  · intro hsync
    simp only [syncBucketIndices, hbroadcast, bind, Except.bind, hlast] at hsync
    split at hsync
    · cases hsync
    · cases hrootSizes : bucketSizesTensor (ofInt (toInt root.length)) (root.map List.length) with
      | error e => simp [hrootSizes] at hsync
      | ok t =>
        have hsame : t.length = own.length :=
          (bucketSizesTensor_length hrootSizes).trans (bucketSizesTensor_length hownSizes).symm
        simp only [hrootSizes, hownSizes, broadcast, if_pos hsame] at hsync
        obtain ⟨-, hlengths, hprefix⟩ := recut_eq_ok_iff.mp hsync
        have hcount : ofInt (toInt root.length) = root.length := by
          have heq := congrArg List.length hlengths
          simpa [bucketSizesTensor_length hrootSizes] using heq
        have ht : t = (root.map List.length).map toInt := by
          have hself := bucketSizesTensor_self (root.map List.length)
          rw [length_map, ← hcount, hrootSizes] at hself
          exact Except.ok.inj hself
        exact ⟨(ofInt_toInt hroot.count).mp hcount, hsizes.mp (ht ▸ hlengths),
          fun indices hmem i hi =>
          hindices.mp hprefix i (mem_flatten.mpr ⟨indices, hmem, hi⟩)⟩
  · intro hfits
    have hcount : ofInt (toInt root.length) = root.length :=
      (ofInt_toInt hroot.count).mpr hfits.count
    have hnonneg : ¬ toInt root.length < 0 := Int32.not_lt.mpr (toInt_nonneg hfits.count)
    have hself := bucketSizesTensor_self (root.map List.length)
    rw [length_map] at hself
    rw [hcount] at hownSizes
    have hsame : ((root.map List.length).map toInt).length = own.length :=
      (bucketSizesTensor_length hself).trans (bucketSizesTensor_length hownSizes).symm
    simp only [syncBucketIndices, hbroadcast, bind, Except.bind, hlast, if_neg hnonneg, hcount,
      hself, hownSizes]
    rw [broadcast, if_pos hsame]
    refine recut_eq_ok_iff.mpr ⟨?_, hsizes.mpr hfits.sizes, hindices.mpr fun i hi => ?_⟩
    · intro size hsize
      obtain ⟨k, hk, rfl⟩ := mem_map.mp hsize
      obtain ⟨indices, hmem, rfl⟩ := mem_map.mp hk
      exact toInt_nonneg (hfits.sizes indices hmem)
    · obtain ⟨indices, hmem, hi⟩ := mem_flatten.mp hi
      exact hfits.indices indices hmem i hi

end Sync

section Rebuild

variable {D : Type u} {V : Type v} [DecidableEq D] [DecidableEq V]

/-- What all ranks have in common: the parameters, and for which of them a sparse gradient is
expected. -/
structure Parameters (D : Type u) (V : Type v) where
  params : List (Tensor D V)
  expectSparseGradients : List Bool
  nonempty : params ≠ []
  dense : ∀ t ∈ params, t.isSparse = false
  flags : expectSparseGradients.length = params.length
  inMemory : params.length < 2 ^ 63

/-- What `rebuild_buckets` reads and writes of a reducer. -/
structure RebuildingReducer (D : Type u) (V : Type v) where
  requireFinalize : Bool
  expectAutogradHooks : Bool
  staticGraph : Bool
  findUnusedParameters : Bool
  hasRebuiltBucket : Bool
  rebuiltParams : List (Tensor D V)
  rebuiltParamIndices : List Int64
  firstBucketBytesCap : Int64
  bucketBytesCap : Int64
  bucketing : Bucketing D V

/-- A rank, with its environment variable and the order of its hash maps. -/
structure Rank (D : Type u) (V : Type v) where
  reducer : RebuildingReducer D V
  ddpSetLastBucketCap : Bool
  order : HashOrder (Sigma fun _ : BucketKey D V => BucketAccumulator)

/-- The ways in which `rebuild_buckets` fails. -/
inductive RebuildFailure
  | priorReduction
  | differentLengths
  | notAllParameters
  | assignment (e : AssignmentFailure)
  | noBroadcast
  | sync (e : SyncFailure)
  | buckets (e : BucketFailure)
deriving DecidableEq

def pushRebuiltParams (P : Parameters D V) (s : RebuildingReducer D V) (index : Nat) :
    RebuildingReducer D V :=
  { s with
    rebuiltParams := s.rebuiltParams ++ variablesOf P.params [index]
    rebuiltParamIndices := s.rebuiltParamIndices ++ [Int64.ofNat index] }

def RebuildingReducer.shouldRebuildBuckets (s : RebuildingReducer D V) : Bool :=
  (s.staticGraph || !s.findUnusedParameters) && !s.hasRebuiltBucket

/-- The assignment that a rank computes, in the opposite order if the last bucket is to be the
small one. -/
def Rank.assign (P : Parameters D V) (rank : Rank D V) :
    Except AssignmentFailure (List (List Nat) × List UInt64) :=
  let s := rank.reducer
  let limits := [s.firstBucketBytesCap.toUInt64, s.bucketBytesCap.toUInt64]
  if rank.ddpSetLastBucketCap then
    (computeBucketAssignmentBySize rank.order s.rebuiltParams.reverse limits
      P.expectSparseGradients s.rebuiltParamIndices.reverse).map fun a =>
        (a.1.reverse, a.2.reverse)
  else
    computeBucketAssignmentBySize rank.order s.rebuiltParams limits P.expectSparseGradients
      s.rebuiltParamIndices

/-- `rebuild_buckets` on a rank, with `root` as rank 0. -/
def rebuildBuckets (P : Parameters D V) (root rank : Rank D V) :
    Except RebuildFailure (RebuildingReducer D V × Bool) :=
  let s := rank.reducer
  if s.requireFinalize then .error .priorReduction
  else if ¬ s.shouldRebuildBuckets ∨ s.rebuiltParams.isEmpty then .ok (s, false)
  else if s.rebuiltParams.length ≠ s.rebuiltParamIndices.length then .error .differentLengths
  else if P.params.length ≠ s.rebuiltParamIndices.length then .error .notAllParameters
  else
    match rank.assign P, root.assign P with
    | .error e, _ => .error (.assignment e)
    | .ok _, .error _ => .error .noBroadcast
    | .ok (bucketIndices, limits), .ok (rootIndices, _) =>
      match syncBucketIndices rootIndices bucketIndices with
      | .error e => .error (.sync e)
      | .ok bucketIndices =>
        match initializeBuckets P.params P.expectSparseGradients s.expectAutogradHooks
          bucketIndices limits with
        | .error e => .error (.buckets e)
        | .ok bucketing =>
          .ok
            ({ s with
                hasRebuiltBucket := true
                rebuiltParams := []
                rebuiltParamIndices := []
                bucketing := bucketing }, true)

end Rebuild

section Ready

variable {D : Type u} {V : Type v} [DecidableEq D] [DecidableEq V] {P : Parameters D V}

/-- A backward pass is finished, and the parameters were recorded in the order in which their
gradients became ready. -/
structure Ready (P : Parameters D V) (rank : Rank D V) (readyOrder : List Nat) : Prop where
  finished : rank.reducer.requireFinalize = false
  noHooks : rank.reducer.expectAutogradHooks = false
  due : rank.reducer.shouldRebuildBuckets = true
  complete : readyOrder.Perm (List.range P.params.length)
  params : rank.reducer.rebuiltParams = variablesOf P.params readyOrder
  indices : rank.reducer.rebuiltParamIndices = readyOrder.map Int64.ofNat

section

omit [DecidableEq D] [DecidableEq V]

/-- An assignment of all parameters, from which buckets can be built. -/
structure ValidAssignment (P : Parameters D V) (a : List (List Nat) × List UInt64) : Prop where
  perm : a.1.flatten.Perm (List.range P.params.length)
  limits : a.1.length = a.2.length
  fits : ∀ indices ∈ a.1, FitsBucket P.params P.expectSparseGradients indices

/-- Reversing indices and limits keeps an assignment valid. -/
theorem ValidAssignment.reverse {a : List (List Nat) × List UInt64} (h : ValidAssignment P a) :
    ValidAssignment P (a.1.reverse, a.2.reverse) where
  perm := ((reverse_perm a.1).flatten).trans h.perm
  limits := by simpa using h.limits
  fits := fun indices hmem => h.fits indices (mem_reverse.mp hmem)

theorem ValidAssignment.inMemory {a : List (List Nat) × List UInt64} (h : ValidAssignment P a) :
    InMemory a.1 := by
  have htotal : a.1.flatten.length = P.params.length := by simpa using h.perm.length_eq
  have hsmall := P.inMemory
  refine ⟨?_, fun indices hmem => ?_, fun indices hmem i hi => ?_⟩
  · have hcount : a.1.length ≤ a.1.flatten.length := by
      have hone : ∀ k ∈ a.1.map List.length, 1 ≤ k := by
        intro k hk
        obtain ⟨indices, hmem, rfl⟩ := mem_map.mp hk
        exact length_pos_iff.mpr (h.fits indices hmem).nonempty
      simpa using length_le_sum_of_one_le _ hone
    omega
  · have hsize : indices.length ≤ a.1.flatten.length :=
      (sublist_flatten_of_mem hmem).length_le
    omega
  · have hlt := (h.fits indices hmem).inRange i hi
    omega

end

theorem toNat_ofNat {i : Nat} (hi : i < 2 ^ 63) : (Int64.ofNat i).toUInt64.toNat = i := by
  show i % 2 ^ 64 = i
  omega

omit [DecidableEq D] [DecidableEq V] in
theorem arguments_of_order {order : List Nat}
    (hcomplete : order.Perm (List.range P.params.length)) :
    Arguments (variablesOf P.params order) P.expectSparseGradients (order.map Int64.ofNat) ∧
      indicesOf (variablesOf P.params order) (order.map Int64.ofNat) = order := by
  have hrange : ∀ i ∈ order, i < P.params.length := fun i hi =>
    mem_range.mp (hcomplete.mem_iff.mp hi)
  have hsome := variablesOf_some hrange
  have hlength : (variablesOf P.params order).length = order.length := by
    simpa using congrArg List.length hsome
  have htotal : order.length = P.params.length := by simpa using hcomplete.length_eq
  have hpos := length_pos_iff.mpr P.nonempty
  have hsmall := P.inMemory
  have hback : ∀ i ∈ order, (Int64.ofNat i).toUInt64.toNat = i := fun i hi =>
    toNat_ofNat ((hrange i hi).trans hsmall)
  have hindices : (order.map Int64.ofNat).map (fun k => k.toUInt64.toNat) = order := by
    rw [map_map]
    exact (map_congr_left hback).trans (map_id order)
  have hne : order ≠ [] := length_pos_iff.mp (htotal ▸ hpos)
  refine ⟨⟨?_, ?_, ?_, ?_, ?_, ?_⟩, ?_⟩
  · exact length_pos_iff.mp (by omega)
  · intro t ht
    obtain ⟨i, -, hi⟩ := mem_filterMap.mp ht
    exact P.dense t (mem_of_getElem? hi)
  · exact .inr (by rw [P.flags, hlength, htotal])
  · exact .inr (by rw [length_map, hlength])
  · have hnodup : order.Nodup := hcomplete.nodup_iff.mpr nodup_range
    rw [← hindices] at hnodup
    exact hnodup.of_map
  · refine .inr fun k hk => ?_
    obtain ⟨i, hi, rfl⟩ := mem_map.mp hk
    rw [hback i hi, P.flags]
    exact hrange i hi
  · simpa [indicesOf, hne] using hindices

theorem validAssignment_of_groups {order : List Nat}
    (hcomplete : order.Perm (List.range P.params.length)) {limits : List UInt64}
    {groups : List (Group D V)}
    (hgrouped : Grouped limits P.expectSparseGradients
      (entriesOf (variablesOf P.params order) (order.map Int64.ofNat)) groups) :
    ValidAssignment P (groups.map fun g => g.entries.map Prod.fst, groups.map Group.limit) := by
  obtain ⟨harguments, hindices⟩ := arguments_of_order hcomplete
  have hrange : ∀ i ∈ order, i < P.params.length := fun i hi =>
    mem_range.mp (hcomplete.mem_iff.mp hi)
  have hfst := (entriesOf_indices harguments.indexCount).trans hindices
  have hsnd : (entriesOf (variablesOf P.params order) (order.map Int64.ofNat)).map Prod.snd =
      variablesOf P.params order := entriesOf_tensors
  have hentries : ∀ e ∈ entriesOf (variablesOf P.params order) (order.map Int64.ofNat),
      P.params[e.1]? = some e.2 := by
    have hsame : (entriesOf (variablesOf P.params order) (order.map Int64.ofNat)).map
          (fun e => P.params[e.1]?) =
        (entriesOf (variablesOf P.params order) (order.map Int64.ofNat)).map
          (fun e => some e.2) := by
      calc _ = ((entriesOf (variablesOf P.params order) (order.map Int64.ofNat)).map
              Prod.fst).map (P.params[·]?) := by rw [map_map]; rfl
        _ = (variablesOf P.params order).map some := by rw [hfst, variablesOf_some hrange]
        _ = ((entriesOf (variablesOf P.params order) (order.map Int64.ofNat)).map
              Prod.snd).map some := by rw [hsnd]
        _ = _ := by rw [map_map]; rfl
    exact List.map_inj_left.mp hsame
  have hparams : ∀ g ∈ groups, ∀ e ∈ g.entries, P.params[e.1]? = some e.2 := fun g hg e he =>
    hentries e (hgrouped.perm.mem_iff.mp (List.mem_flatMap.mpr ⟨g, hg, he⟩))
  refine ⟨?_, by simp, fun indices hmem => ?_⟩
  · have hflat : (groups.map fun g => g.entries.map Prod.fst).flatten =
        (groups.flatMap Group.entries).map Prod.fst := by
      rw [List.map_flatMap, List.flatMap_def]
    have hperm := (hgrouped.perm.map Prod.fst).trans (.of_eq hfst)
    exact hflat ▸ hperm.trans hcomplete
  · obtain ⟨g, hg, rfl⟩ := mem_map.mp hmem
    refine ⟨by simpa using hgrouped.nonempty g hg, ?_, ?_, ?_⟩
    · intro i hi
      obtain ⟨e, he, rfl⟩ := mem_map.mp hi
      exact (List.getElem?_eq_some_iff.mp (hparams g hg e he)).1
    · intro i hi hflag
      obtain ⟨e, he, rfl⟩ := mem_map.mp hi
      have hflags : P.expectSparseGradients ≠ [] := by
        rintro hnil
        simp [hnil] at hflag
      have hsparse : classOf P.expectSparseGradients e = none :=
        if_pos (by simp [expectsSparse, hflags, hflag])
      have hkey : g.key = none := (hgrouped.classes g hg e he).symm.trans hsparse
      simpa using (hgrouped.sparseAlone g hg hkey).1
    · intro i hi j hj
      obtain ⟨e, he, rfl⟩ := mem_map.mp hi
      obtain ⟨e', he', rfl⟩ := mem_map.mp hj
      rw [hparams g hg e he, hparams g hg e' he']
      cases hkey : g.key with
      | none =>
        obtain ⟨e₀, he₀⟩ := List.length_eq_one_iff.mp (hgrouped.sparseAlone g hg hkey).1
        rw [he₀, List.mem_singleton] at he he'
        rw [he, he']
      | some key =>
        have hclass : ∀ e ∈ g.entries, e.2.key = key := by
          intro e he
          have hclass := (hgrouped.classes g hg e he).trans hkey
          unfold classOf at hclass
          split at hclass
          · cases hclass
          · exact Option.some.inj hclass
        simp [hclass e he, hclass e' he']

/-- A rank that is ready gets an assignment. -/
theorem Ready.assign {rank : Rank D V} {readyOrder : List Nat} (h : Ready P rank readyOrder) :
    ∃ a, rank.assign P = .ok a ∧ ValidAssignment P a := by
  simp only [Rank.assign, h.params, h.indices]
  have hassigns : ∀ order : List Nat, order.Perm (List.range P.params.length) →
      ∃ a, computeBucketAssignmentBySize rank.order (variablesOf P.params order)
        [rank.reducer.firstBucketBytesCap.toUInt64, rank.reducer.bucketBytesCap.toUInt64]
        P.expectSparseGradients (order.map Int64.ofNat) = .ok a ∧ ValidAssignment P a := by
    intro order hcomplete
    obtain ⟨groups, hrun, hgrouped, -⟩ := computeBucketAssignmentBySize_groups rank.order
      (cons_ne_nil _ _) (arguments_of_order hcomplete).1
    exact ⟨_, hrun, validAssignment_of_groups hcomplete hgrouped⟩
  split
  case isTrue =>
    have hcomplete := (reverse_perm readyOrder).trans h.complete
    obtain ⟨a, ha, hvalid⟩ := hassigns readyOrder.reverse hcomplete
    refine ⟨(a.1.reverse, a.2.reverse), ?_, hvalid.reverse⟩
    have hreverse : (variablesOf P.params readyOrder).reverse =
        variablesOf P.params readyOrder.reverse := filterMap_reverse.symm
    rw [hreverse, ← map_reverse, ha]
    rfl
  case isFalse => exact hassigns readyOrder h.complete

end Ready

section Ranks

variable {D : Type u} {V : Type v} [DecidableEq D] [DecidableEq V] {P : Parameters D V}

/-- A rank whose buckets are to be rebuilt. -/
structure ReadyRank (P : Parameters D V) where
  rank : Rank D V
  readyOrder : List Nat
  ready : Ready P rank readyOrder

/-- `compute_bucket_assignment_by_size` for the order in which the gradients of a rank became
ready: the buckets. -/
def ReadyRank.ownBuckets (r : ReadyRank P) : List (List Nat) :=
  (r.rank.assign P).toOption.elim [] Prod.fst

/-- The same for the size limits. -/
def ReadyRank.ownLimits (r : ReadyRank P) : List UInt64 :=
  (r.rank.assign P).toOption.elim [] Prod.snd

/-- The assignment of a rank is that of its own buckets. -/
theorem ReadyRank.assign (r : ReadyRank P) : r.rank.assign P = .ok (r.ownBuckets, r.ownLimits) ∧
      ValidAssignment P (r.ownBuckets, r.ownLimits) := by
  obtain ⟨a, ha, hvalid⟩ := r.ready.assign
  have hbuckets : r.ownBuckets = a.1 := by simp [ReadyRank.ownBuckets, ha, Except.toOption]
  have hlimits : r.ownLimits = a.2 := by simp [ReadyRank.ownLimits, ha, Except.toOption]
  rw [hbuckets, hlimits]
  exact ⟨ha, hvalid⟩

/-- A rank has rebuilt its buckets as those of rank 0, with the limits of rank 0. -/
def RebuiltAs (root rank : ReadyRank P) : Prop :=
  ∃ s, rebuildBuckets P root.rank rank.rank = .ok (s, true) ∧
    s.bucketing.buckets.map Bucket.variableIndices = root.ownBuckets ∧
    s.bucketing.buckets.map Bucket.bucketSizeLimit = root.ownLimits

theorem rebuiltAs_iff (root rank : ReadyRank P) :
    RebuiltAs root rank ↔ FitsInt root.ownBuckets ∧ rank.ownLimits = root.ownLimits := by
  obtain ⟨hroot, hrootValid⟩ := root.assign
  obtain ⟨hown, hownValid⟩ := rank.assign
  have htotal : root.ownBuckets.flatten.length = rank.ownBuckets.flatten.length :=
    hrootValid.perm.length_eq.trans hownValid.perm.length_eq.symm
  have hne : rank.ownBuckets ≠ [] := by
    intro hnil
    have hlength := hownValid.perm.length_eq
    rw [hnil] at hlength
    exact P.nonempty (length_eq_zero_iff.mp (by simpa using hlength.symm))
  have hsync := syncBucketIndices_eq_iff hrootValid.inMemory htotal hne
  have hinit := @initializeBuckets_meets D V _ _ P.params P.expectSparseGradients P.flags
    rank.rank.reducer.expectAutogradHooks
  have hready := rank.ready
  have hcount : rank.rank.reducer.rebuiltParamIndices.length = P.params.length := by
    rw [hready.indices, length_map]
    simpa using hready.complete.length_eq
  have hparams : rank.rank.reducer.rebuiltParams.length = P.params.length := by
    have hsome := @variablesOf_some D V P.params _ fun i hi =>
      mem_range.mp (hready.complete.mem_iff.mp hi)
    have hlength : (variablesOf P.params rank.readyOrder).length = rank.readyOrder.length := by
      simpa using congrArg List.length hsome
    rw [hready.params, hlength]
    simpa using hready.complete.length_eq
  have hsome : ¬ (¬ rank.rank.reducer.shouldRebuildBuckets ∨
      rank.rank.reducer.rebuiltParams.isEmpty) := by
    have hpos := length_pos_iff.mpr P.nonempty
    have hfilled : rank.rank.reducer.rebuiltParams ≠ [] :=
      length_pos_iff.mp (hparams ▸ hpos)
    simp [hready.due, hfilled]
  simp only [RebuiltAs, rebuildBuckets, hready.finished, Bool.false_eq_true, if_false,
    if_neg hsome, hcount, hparams, ne_eq, not_true_eq_false, hown, hroot]
  constructor
  · rintro ⟨s, hrun, hbuckets, hlimits⟩
    cases hreceived : syncBucketIndices root.ownBuckets rank.ownBuckets with
    | error e => simp [hreceived] at hrun
    | ok received =>
      simp only [hreceived] at hrun
      cases hinitialized : initializeBuckets P.params P.expectSparseGradients
          rank.rank.reducer.expectAutogradHooks received rank.ownLimits with
      | error e => simp [hinitialized] at hrun
      | ok bucketing =>
        simp only [hinitialized] at hrun
        obtain rfl := (Prod.mk.inj (Except.ok.inj hrun)).1
        obtain ⟨hlength, hspec⟩ := hinit.of_ok hinitialized
        have hreceivedRoot : received = root.ownBuckets := by
          rw [← hbuckets, hspec.indices, map_fst_zip hlength.le]
        have hownRoot : rank.ownLimits = root.ownLimits := by
          rw [← hlimits, hspec.limits, map_snd_zip hlength.ge]
        exact ⟨hsync.mp (hreceivedRoot ▸ hreceived), hownRoot⟩
  · rintro ⟨hfits, hlimits⟩
    have hreceived := hsync.mpr hfits
    have hlength : root.ownBuckets.length = rank.ownLimits.length := by
      rw [hlimits]
      exact hrootValid.limits
    simp only [hreceived]
    cases hinitialized : initializeBuckets P.params P.expectSparseGradients
        rank.rank.reducer.expectAutogradHooks root.ownBuckets rank.ownLimits with
    | error e =>
      exact absurd ⟨hready.noHooks, hlength, hrootValid.fits⟩ (hinit.of_error hinitialized)
    | ok bucketing =>
      obtain ⟨-, hspec⟩ := hinit.of_ok hinitialized
      refine ⟨_, rfl, ?_, ?_⟩
      · rw [hspec.indices, map_fst_zip hlength.le]
      · rw [hspec.limits, map_snd_zip hlength.ge, hlimits]

/-- All ranks rebuild their buckets as those of rank 0 if and only if an `int` can hold what
rank 0 sends, and every rank has computed the size limits of rank 0 for itself. -/
theorem rebuildBuckets_iff (root : ReadyRank P) (ranks : List (ReadyRank P)) :
    (∀ rank ∈ root :: ranks, RebuiltAs root rank) ↔
      FitsInt root.ownBuckets ∧ ∀ rank ∈ ranks, rank.ownLimits = root.ownLimits := by
  simp only [forall_mem_cons, rebuiltAs_iff, and_true]
  constructor
  · rintro ⟨hfits, hranks⟩
    exact ⟨hfits, fun rank hrank => (hranks rank hrank).2⟩
  · rintro ⟨hfits, hlimits⟩
    exact ⟨hfits, fun rank hrank => ⟨hfits, hlimits rank hrank⟩⟩

end Ranks

section Examples

def threeParameters : Parameters Unit Unit where
  params := [plainTensor 1 4, plainTensor 1 4, plainTensor 2 4]
  expectSparseGradients := [false, false, false]
  nonempty := by simp
  dense := by simp [plainTensor]
  flags := rfl
  inMemory := by simp

/-- A rank with a first bucket of four bytes and others of eight. -/
def rankOfOrder (readyOrder : List Nat) : Rank Unit Unit where
  reducer :=
    { requireFinalize := false
      expectAutogradHooks := false
      staticGraph := false
      findUnusedParameters := false
      hasRebuiltBucket := false
      rebuiltParams := variablesOf threeParameters.params readyOrder
      rebuiltParamIndices := readyOrder.map Int64.ofNat
      firstBucketBytesCap := 4
      bucketBytesCap := 8
      bucketing := {} }
  ddpSetLastBucketCap := false
  order := HashOrder.asIs _

/-- A rank that is ready, for any order of the three parameters. -/
def readyRank (readyOrder : List Nat) (h : readyOrder.Perm (List.range 3)) :
    ReadyRank threeParameters where
  rank := rankOfOrder readyOrder
  readyOrder := readyOrder
  ready := ⟨rfl, rfl, rfl, h, rfl, rfl⟩

/-- Rank 0 has two buckets and the other rank has three, with as many limits. -/
theorem rebuildBuckets_asserts :
    rebuildBuckets threeParameters (readyRank [0, 1, 2] (by decide)).rank
        (readyRank [0, 2, 1] (by decide)).rank = .error (.buckets .bucketCount) ∧
      ¬ RebuiltAs (readyRank [0, 1, 2] (by decide)) (readyRank [0, 2, 1] (by decide)) := by
  have hfails : rebuildBuckets threeParameters (readyRank [0, 1, 2] (by decide)).rank
      (readyRank [0, 2, 1] (by decide)).rank = .error (.buckets .bucketCount) := rfl
  refine ⟨hfails, ?_⟩
  rintro ⟨s, hrun, -⟩
  cases hfails.symm.trans hrun

end Examples

end PyTorchCore.Ddp
