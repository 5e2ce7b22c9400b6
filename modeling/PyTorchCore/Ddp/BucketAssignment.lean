import Mathlib.Algebra.Group.Nat.Defs
import Mathlib.Data.List.AList
import Mathlib.Data.List.GetD
import Mathlib.Data.List.Sort

/-!
# The assignment of tensors to buckets

`compute_bucket_assignment_by_size` goes through the tensors once and keeps an open bucket for
every type and device, which is closed when it reaches its limit. A tensor with a sparse gradient
has a bucket for itself. At the end the open buckets are appended, in the order of a hash map, and
if the tensors come without indices the buckets are sorted by their smallest index.
-/

namespace PyTorchCore.Ddp

open Option Function List

universe u v

structure Tensor (D : Type u) (V : Type v) where
  scalarType : D
  device : V
  numel : Nat
  elementSize : Nat
  isSparse : Bool
deriving DecidableEq

/-- `numel() * element_size()`. -/
def Tensor.bytes {D : Type u} {V : Type v} (t : Tensor D V) : UInt64 :=
  UInt64.ofNat (t.numel * t.elementSize)

/-- `BucketKey`: buckets do not mix types or devices. -/
abbrev BucketKey (D : Type u) (V : Type v) := D × V

/-- `BucketKey(tensor.scalar_type(), tensor.device())`. -/
def Tensor.key {D : Type u} {V : Type v} (t : Tensor D V) : BucketKey D V :=
  (t.scalarType, t.device)

structure BucketAccumulator where
  indices : List Nat := []
  size : UInt64 := 0
  sizeLimit : UInt64 := 0

/-- The order in which a hash map is gone through, of which nothing is known. -/
structure HashOrder (α : Type u) where
  apply : List α → List α
  perm : ∀ l, (apply l).Perm l

/-- The ways in which no assignment is returned: the checks of the code, and a read behind
the end of a vector. -/
inductive AssignmentFailure
  | sparseTensor
  | flagsSize
  | noTensors
  | outOfRange
deriving DecidableEq

section Assignment

variable {D : Type u} {V : Type v} [DecidableEq D] [DecidableEq V]

/-- The local variables of `compute_bucket_assignment_by_size`. -/
structure Assigning (D : Type u) (V : Type v) where
  result : List (List Nat × UInt64)
  /-- `bucket_size_limit_iterators`, as places in the list of limits. -/
  limitIterators : BucketKey D V → Option Nat
  buckets : AList fun _ : BucketKey D V => BucketAccumulator

/-- Before the first tensor. -/
def Assigning.start : Assigning D V where
  result := []
  limitIterators := fun _ => none
  buckets := ∅

/-- `tensor_index`: the index of `tensors[i]`. -/
def tensorIndex (tensorIndices : List Int64) (i : Nat) : Option Nat :=
  if tensorIndices.isEmpty then some i
  else (tensorIndices[i]?).map fun k => k.toUInt64.toNat

def expectsSparse (expectSparseGradient : List Bool) (index : Nat) : Option Bool :=
  if expectSparseGradient.isEmpty then some false else expectSparseGradient[index]?

/-- A tensor is put into the bucket of its type and device. -/
def addToBucket (limits : List UInt64) (index : Nat) (t : Tensor D V) (s : Assigning D V) :
    Except AssignmentFailure (Assigning D V) :=
  let open_ := (s.buckets.lookup t.key).getD {}
  let position := (s.limitIterators t.key).getD 0
  match limits[position]? with
  | none => .error .outOfRange
  | some limit =>
    let bucket : BucketAccumulator :=
      { indices := open_.indices ++ [index]
        size := open_.size + t.bytes
        sizeLimit := limit }
    if limit ≤ bucket.size then
      let next := if position + 1 < limits.length then position + 1 else position
      .ok
        { result := s.result ++ [(bucket.indices, bucket.sizeLimit)]
          limitIterators := Function.update s.limitIterators t.key (some next)
          buckets := s.buckets.insert t.key {} }
    else
      .ok
        { s with
          limitIterators := Function.update s.limitIterators t.key (some position)
          buckets := s.buckets.insert t.key bucket }

/-- The body of the loop over the tensors. -/
def assignTensor (limits : List UInt64) (expectSparseGradient : List Bool)
    (tensorIndices : List Int64) (s : Assigning D V) (entry : Tensor D V × Nat) :
    Except AssignmentFailure (Assigning D V) :=
  let (t, i) := entry
  if t.isSparse then .error .sparseTensor
  else
    match tensorIndex tensorIndices i with
    | none => .error .outOfRange
    | some index =>
      match expectsSparse expectSparseGradient index with
      | none => .error .outOfRange
      | some true => .ok { s with result := s.result ++ [([index], 0)] }
      | some false => addToBucket limits index t s

/-- The buckets that are still open, in the order of the hash map. -/
def remainingBuckets (order : HashOrder (Sigma fun _ : BucketKey D V => BucketAccumulator))
    (s : Assigning D V) : List (List Nat × UInt64) :=
  (order.apply s.buckets.entries).filterMap fun bucket =>
    if bucket.2.indices.isEmpty then none else some (bucket.2.indices, bucket.2.sizeLimit)

/-- `*std::min_element` of the indices of a bucket. -/
def smallestIndex (indices : List Nat) : Nat :=
  indices.min?.getD 0

/-- The buckets by their smallest index. -/
def sortBuckets (result : List (List Nat × UInt64)) : List (List Nat × UInt64) :=
  result.insertionSort fun a b => smallestIndex a.1 ≤ smallestIndex b.1

/-- `compute_bucket_assignment_by_size`: the buckets and their size limits. -/
def computeBucketAssignmentBySize
    (order : HashOrder (Sigma fun _ : BucketKey D V => BucketAccumulator))
    (tensors : List (Tensor D V)) (limits : List UInt64) (expectSparseGradient : List Bool)
    (tensorIndices : List Int64) :
    Except AssignmentFailure (List (List Nat) × List UInt64) :=
  if ¬ (expectSparseGradient.isEmpty ∨ tensors.length = expectSparseGradient.length) then
    .error .flagsSize
  else if tensors.isEmpty then .error .noTensors
  else
    (tensors.zipIdx.foldlM (assignTensor limits expectSparseGradient tensorIndices)
      .start).map fun s =>
        let result := s.result ++ remainingBuckets order s
        let sorted := if tensorIndices.isEmpty then sortBuckets result else result
        (sorted.map Prod.fst, sorted.map Prod.snd)

end Assignment

section Groups

variable {D : Type u} {V : Type v} [DecidableEq D] [DecidableEq V]

abbrev Entry (D : Type u) (V : Type v) := Nat × Tensor D V

/-- What an entry shares with the others of its bucket: its type and device, or nothing if
its gradient is sparse. -/
def classOf (expectSparseGradient : List Bool) (e : Entry D V) : Option (BucketKey D V) :=
  if expectsSparse expectSparseGradient e.1 = some true then none else some e.2.key

/-- A bucket with the tensors that are in it. -/
structure Group (D : Type u) (V : Type v) where
  key : Option (BucketKey D V)
  entries : List (Entry D V)
  limit : UInt64

def Group.bucket (g : Group D V) : List Nat × UInt64 :=
  (g.entries.map Prod.fst, g.limit)

def ofKey (key : Option (BucketKey D V)) (groups : List (Group D V)) : List (Group D V) :=
  groups.filter fun g => g.key = key

/-- The size of some tensors, added up in `size_t`. -/
def totalBytes (entries : List (Entry D V)) : UInt64 :=
  entries.foldl (fun size e => size + e.2.bytes) 0

/-- The limit for the `k`-th bucket of a type and device: the last one stays. -/
def limitAt (limits : List UInt64) (k : Nat) : UInt64 :=
  limits.getD (min k (limits.length - 1)) 0

/-- A group holds to a limit if it would not reach it without its last tensor, which may be
its only one. -/
def Group.Least (g : Group D V) (limit : UInt64) : Prop :=
  g.limit = limit ∧ (g.entries.dropLast = [] ∨ totalBytes g.entries.dropLast < limit)

/-- The buckets of one type and device, filled one after the other: all but the last one
reach their limit. -/
structure FilledUp (limits : List UInt64) (groups : List (Group D V)) : Prop where
  least : ∀ k (g : Group D V), groups[k]? = some g → g.Least (limitAt limits k)
  reached : ∀ k g, groups[k]? = some g → k + 1 < groups.length →
    limitAt limits k ≤ totalBytes g.entries

/-- An assignment of tensors to buckets: the buckets of a class are, in a row, the tensors of the
class in their order. -/
structure Grouped (limits : List UInt64) (expectSparseGradient : List Bool)
    (entries : List (Entry D V)) (groups : List (Group D V)) : Prop where
  nonempty : ∀ g ∈ groups, g.entries ≠ []
  classes : ∀ g ∈ groups, ∀ e ∈ g.entries, classOf expectSparseGradient e = g.key
  inOrder : ∀ key, (ofKey key groups).flatMap Group.entries =
    entries.filter fun e => classOf expectSparseGradient e = key
  sparseAlone : ∀ g ∈ groups, g.key = none → g.entries.length = 1 ∧ g.limit = 0
  filled : ∀ key, FilledUp limits (ofKey (some key) groups)

omit [DecidableEq D] [DecidableEq V] in
@[simp] theorem totalBytes_concat (entries : List (Entry D V)) (e : Entry D V) :
    totalBytes (entries ++ [e]) = totalBytes entries + e.2.bytes := by
  simp [totalBytes]

@[simp] theorem ofKey_append (key : Option (BucketKey D V)) (groups groups' : List (Group D V)) :
    ofKey key (groups ++ groups') = ofKey key groups ++ ofKey key groups' :=
  filter_append ..

theorem ofKey_singleton (key : Option (BucketKey D V)) (g : Group D V) :
    ofKey key [g] = if g.key = key then [g] else [] := by
  by_cases h : g.key = key
  · simp [ofKey, h]
  · simp [ofKey, h]

theorem getElem?_limits {limits : List UInt64} (h : limits ≠ []) (k : Nat) :
    limits[min k (limits.length - 1)]? = some (limitAt limits k) := by
  have hpos := length_pos_iff.mpr h
  have hlt : min k (limits.length - 1) < limits.length := by omega
  rw [limitAt, getD_eq_getElem _ _ hlt, getElem?_eq_getElem hlt]

end Groups

section Loop

variable {D : Type u} {V : Type v} [DecidableEq D] [DecidableEq V]

/-- What is known after some of the tensors: the groups that were closed, and for each type
and device the tensors in its open bucket. -/
structure Tracks (limits : List UInt64) (flags : List Bool) (done : List (Entry D V))
    (s : Assigning D V) (closed : List (Group D V)) (rest : BucketKey D V → List (Entry D V)) :
    Prop where
  result : s.result = closed.map Group.bucket
  nonempty : ∀ g ∈ closed, g.entries ≠ []
  sparse : (ofKey none closed).flatMap Group.entries =
    done.filter fun e => classOf flags e = none
  dense : ∀ key, (ofKey (some key) closed).flatMap Group.entries ++ rest key =
    done.filter fun e => classOf flags e = some key
  sparseAlone : ∀ g ∈ closed, g.key = none → g.entries.length = 1 ∧ g.limit = 0
  filled : ∀ key k g, (ofKey (some key) closed)[k]? = some g →
    g.Least (limitAt limits k) ∧ limitAt limits k ≤ totalBytes g.entries
  isOpen : ∀ key, rest key = [] ∨
    totalBytes (rest key) < limitAt limits (ofKey (some key) closed).length
  short : ∀ key, (rest key).dropLast = [] ∨
    totalBytes (rest key).dropLast < limitAt limits (ofKey (some key) closed).length
  position : ∀ key, (s.limitIterators key).getD 0 =
    min (ofKey (some key) closed).length (limits.length - 1)
  indices : ∀ key, ((s.buckets.lookup key).getD {}).indices = (rest key).map Prod.fst
  size : ∀ key, ((s.buckets.lookup key).getD {}).size = totalBytes (rest key)
  sizeLimit : ∀ key, rest key ≠ [] →
    ((s.buckets.lookup key).getD {}).sizeLimit =
      limitAt limits (ofKey (some key) closed).length

variable {limits : List UInt64} {flags : List Bool} {done : List (Entry D V)}
  {s : Assigning D V} {closed : List (Group D V)} {rest : BucketKey D V → List (Entry D V)}

theorem tracks_start : Tracks limits flags [] (Assigning.start : Assigning D V) []
    (fun _ => []) where
  result := rfl
  nonempty := by simp
  sparse := rfl
  dense := fun _ => rfl
  sparseAlone := by simp
  filled := by simp [ofKey]
  isOpen := fun _ => .inl rfl
  short := fun _ => .inl rfl
  position := by simp [Assigning.start, ofKey]
  indices := fun _ => rfl
  size := fun _ => rfl
  sizeLimit := by simp

variable {e : Entry D V}
section

variable (h : Tracks limits flags done s closed rest)
include h

theorem Tracks.addSparse (hclass : classOf flags e = none) :
    Tracks limits flags (done ++ [e]) { s with result := s.result ++ [([e.1], 0)] }
      (closed ++ [⟨none, [e], 0⟩]) rest where
  result := by simp [h.result, Group.bucket]
  nonempty := by
    simpa [or_imp, forall_and] using h.nonempty
  sparse := by
    rw [ofKey_append, ofKey_singleton, flatMap_append, h.sparse, filter_append]
    simp [hclass]
  dense := fun key => by
    rw [ofKey_append, ofKey_singleton, filter_append, ← h.dense key]
    simp [hclass]
  sparseAlone := by
    simpa [or_imp, forall_and] using h.sparseAlone
  filled := fun key => by simpa [ofKey_singleton] using h.filled key
  isOpen := fun key => by simpa [ofKey_singleton] using h.isOpen key
  short := fun key => by simpa [ofKey_singleton] using h.short key
  position := fun key => by simpa [ofKey_singleton] using h.position key
  indices := h.indices
  size := h.size
  sizeLimit := fun key => by simpa [ofKey_singleton] using h.sizeLimit key

theorem Tracks.addOpen (hclass : classOf flags e = some e.2.key) {limit : UInt64}
    (hlimit : limit = limitAt limits (ofKey (some e.2.key) closed).length)
    (hopen : totalBytes (rest e.2.key ++ [e]) < limit) :
    Tracks limits flags (done ++ [e])
      { s with
        limitIterators := update s.limitIterators e.2.key
          (some ((s.limitIterators e.2.key).getD 0))
        buckets := s.buckets.insert e.2.key
          { indices := (rest e.2.key).map Prod.fst ++ [e.1]
            size := totalBytes (rest e.2.key) + e.2.bytes
            sizeLimit := limit } }
      closed (update rest e.2.key (rest e.2.key ++ [e])) where
  result := h.result
  nonempty := h.nonempty
  sparse := by
    rw [filter_append, ← h.sparse]
    simp [hclass]
  dense := fun key => by
    rw [filter_append, ← h.dense key]
    by_cases hkey : key = e.2.key
    · subst hkey
      simp [hclass]
    · simp [hclass, update_of_ne hkey, Ne.symm hkey]
  sparseAlone := h.sparseAlone
  filled := h.filled
  isOpen := fun key => by
    by_cases hkey : key = e.2.key
    · subst hkey
      rw [update_self, ← hlimit]
      exact .inr hopen
    · rw [update_of_ne hkey]
      exact h.isOpen key
  short := fun key => by
    by_cases hkey : key = e.2.key
    · subst hkey
      simpa using h.isOpen e.2.key
    · simpa [update_of_ne hkey] using h.short key
  position := fun key => by
    by_cases hkey : key = e.2.key
    · subst hkey
      simpa using h.position e.2.key
    · simpa [update_of_ne hkey] using h.position key
  indices := fun key => by
    by_cases hkey : key = e.2.key
    · subst hkey
      simp
    · rw [AList.lookup_insert_ne hkey, update_of_ne hkey]
      exact h.indices key
  size := fun key => by
    by_cases hkey : key = e.2.key
    · subst hkey
      simp
    · rw [AList.lookup_insert_ne hkey, update_of_ne hkey]
      exact h.size key
  sizeLimit := fun key => by
    by_cases hkey : key = e.2.key
    · subst hkey
      simp [hlimit]
    · rw [AList.lookup_insert_ne hkey, update_of_ne hkey]
      exact h.sizeLimit key

theorem Tracks.addClosing (hclass : classOf flags e = some e.2.key) {limit : UInt64} {next : Nat}
    (hlimit : limit = limitAt limits (ofKey (some e.2.key) closed).length)
    (hreached : limit ≤ totalBytes (rest e.2.key ++ [e]))
    (hnext : next = min ((ofKey (some e.2.key) closed).length + 1) (limits.length - 1)) :
    Tracks limits flags (done ++ [e])
      { result := s.result ++ [((rest e.2.key).map Prod.fst ++ [e.1], limit)]
        limitIterators := update s.limitIterators e.2.key (some next)
        buckets := s.buckets.insert e.2.key {} }
      (closed ++ [⟨some e.2.key, rest e.2.key ++ [e], limit⟩])
      (update rest e.2.key []) where
  result := by simp [h.result, Group.bucket]
  nonempty := by
    simpa [or_imp, forall_and] using h.nonempty
  sparse := by
    rw [ofKey_append, ofKey_singleton, filter_append, ← h.sparse]
    simp [hclass]
  dense := fun key => by
    rw [ofKey_append, ofKey_singleton, filter_append, ← h.dense key]
    by_cases hkey : key = e.2.key
    · subst hkey
      simp [hclass]
    · simp [hclass, update_of_ne hkey, Ne.symm hkey]
  sparseAlone := by
    simpa [or_imp, forall_and] using h.sparseAlone
  filled := fun key k g hg => by
    rw [ofKey_append, ofKey_singleton] at hg
    by_cases hkey : e.2.key = key
    · subst hkey
      rw [if_pos rfl] at hg
      rcases lt_or_ge k (ofKey (some e.2.key) closed).length with hlt | hge
      · rw [List.getElem?_append_left hlt] at hg
        exact h.filled e.2.key k g hg
      · rw [List.getElem?_append_right hge] at hg
        obtain ⟨hk, rfl⟩ := List.getElem?_eq_some_iff.mp hg
        have hlast : k = (ofKey (some e.2.key) closed).length := by
          simp only [List.length_singleton] at hk
          omega
        subst hlast
        simp only [Group.Least, Nat.sub_self, List.getElem_cons_zero, List.dropLast_concat,
          ← hlimit, true_and]
        exact ⟨hlimit ▸ h.isOpen e.2.key, hreached⟩
    · rw [if_neg (by simpa using hkey), append_nil] at hg
      exact h.filled key k g hg
  isOpen := fun key => by
    by_cases hkey : key = e.2.key
    · subst hkey
      exact .inl (update_self ..)
    · simpa [ofKey_singleton, update_of_ne hkey, Ne.symm hkey] using h.isOpen key
  short := fun key => by
    by_cases hkey : key = e.2.key
    · subst hkey
      simp
    · simpa [ofKey_singleton, update_of_ne hkey, Ne.symm hkey] using h.short key
  position := fun key => by
    by_cases hkey : key = e.2.key
    · subst hkey
      simp [ofKey_singleton, hnext]
    · simpa [ofKey_singleton, update_of_ne hkey, Ne.symm hkey] using h.position key
  indices := fun key => by
    by_cases hkey : key = e.2.key
    · subst hkey
      simp
    · rw [AList.lookup_insert_ne hkey, update_of_ne hkey]
      exact h.indices key
  size := fun key => by
    by_cases hkey : key = e.2.key
    · subst hkey
      simp [totalBytes]
    · rw [AList.lookup_insert_ne hkey, update_of_ne hkey]
      exact h.size key
  sizeLimit := fun key hrest => by
    by_cases hkey : key = e.2.key
    · subst hkey
      exact absurd (update_self ..) hrest
    · rw [update_of_ne hkey] at hrest
      rw [AList.lookup_insert_ne hkey, h.sizeLimit key hrest]
      simp [ofKey_singleton, Ne.symm hkey]

theorem Tracks.addToBucket (hlimits : limits ≠ [])
    (hclass : classOf flags e = some e.2.key) :
    ∃ s' closed' rest', Ddp.addToBucket limits e.1 e.2 s = .ok s' ∧
      Tracks limits flags (done ++ [e]) s' closed' rest' := by
  have hindices := h.indices e.2.key
  have hsize := h.size e.2.key
  have hposition := h.position e.2.key
  simp only [Ddp.addToBucket, hindices, hsize, hposition, getElem?_limits hlimits]
  split
  case isTrue hreached =>
    rw [← totalBytes_concat] at hreached
    refine ⟨_, _, _, rfl, h.addClosing hclass rfl hreached ?_⟩
    split <;> omega
  case isFalse hopen =>
    rw [← totalBytes_concat, UInt64.not_le] at hopen
    have htracks := h.addOpen hclass rfl hopen
    rw [hposition] at htracks
    exact ⟨_, _, _, rfl, htracks⟩

end

def entryOf (tensorIndices : List Int64) (entry : Tensor D V × Nat) : Entry D V :=
  ((tensorIndex tensorIndices entry.2).getD 0, entry.1)

/-- What the code needs of a tensor: it is dense, it has an index, and if there are flags,
the index has one. -/
structure Assignable (flags : List Bool) (tensorIndices : List Int64)
    (entry : Tensor D V × Nat) : Prop where
  dense : entry.1.isSparse = false
  index : (tensorIndex tensorIndices entry.2).isSome
  flag : (expectsSparse flags (entryOf tensorIndices entry).1).isSome

variable {tensorIndices : List Int64}

theorem Tracks.assignTensor (h : Tracks limits flags done s closed rest) (hlimits : limits ≠ [])
    {entry : Tensor D V × Nat}
    (hentry : Assignable flags tensorIndices entry) :
    ∃ s' closed' rest', Ddp.assignTensor limits flags tensorIndices s entry = .ok s' ∧
      Tracks limits flags (done ++ [entryOf tensorIndices entry]) s' closed' rest' := by
  obtain ⟨t, i⟩ := entry
  obtain ⟨index, hindex⟩ := isSome_iff_exists.mp hentry.index
  have hentryOf : entryOf tensorIndices (t, i) = (index, t) := by
    rw [entryOf, hindex, getD_some]
  obtain ⟨sparse, hsparse⟩ := isSome_iff_exists.mp hentry.flag
  rw [hentryOf] at hsparse ⊢
  have hdense : t.isSparse = false := hentry.dense
  simp only [Ddp.assignTensor, hdense, Bool.false_eq_true, if_false, hindex, hsparse]
  cases sparse with
  | true => exact ⟨_, _, _, rfl, h.addSparse (if_pos hsparse)⟩
  | false => exact h.addToBucket hlimits (if_neg fun hflag => by cases hsparse.symm.trans hflag)

/-- The loop over the tensors keeps what `Tracks` says. -/
theorem Tracks.loop (hlimits : limits ≠ [])
    (todo : List (Tensor D V × Nat)) (htodo : ∀ entry ∈ todo, Assignable flags tensorIndices entry)
    (h : Tracks limits flags done s closed rest) :
    ∃ s' closed' rest', todo.foldlM (Ddp.assignTensor limits flags tensorIndices) s = .ok s' ∧
        Tracks limits flags (done ++ todo.map (entryOf tensorIndices)) s' closed' rest' := by
  induction todo generalizing done s closed rest with
  | nil => exact ⟨s, closed, rest, rfl, by simpa using h⟩
  | cons entry todo ih =>
    obtain ⟨hentry, htodo⟩ := forall_mem_cons.mp htodo
    obtain ⟨s₁, closed₁, rest₁, hstep, h₁⟩ := h.assignTensor hlimits hentry
    obtain ⟨s₂, closed₂, rest₂, hrun, h₂⟩ := ih htodo h₁
    refine ⟨s₂, closed₂, rest₂, ?_, by simpa using h₂⟩
    rw [foldlM_cons, hstep]
    exact hrun

end Loop

section Remaining

variable {D : Type u} {V : Type v} [DecidableEq D] [DecidableEq V]
  {limits : List UInt64} {flags : List Bool} {done : List (Entry D V)}
  {s : Assigning D V} {closed : List (Group D V)} {rest : BucketKey D V → List (Entry D V)}

def remainingGroups (rest : BucketKey D V → List (Entry D V))
    (buckets : List (Sigma fun _ : BucketKey D V => BucketAccumulator)) : List (Group D V) :=
  buckets.filterMap fun bucket =>
    if (rest bucket.1).isEmpty then none
    else some ⟨some bucket.1, rest bucket.1, bucket.2.sizeLimit⟩

section

omit [DecidableEq D] [DecidableEq V]

theorem remainingGroups_cons (bucket : Sigma fun _ : BucketKey D V => BucketAccumulator)
    (buckets : List (Sigma fun _ : BucketKey D V => BucketAccumulator)) :
    remainingGroups rest (bucket :: buckets) = (if (rest bucket.1).isEmpty then []
        else [⟨some bucket.1, rest bucket.1, bucket.2.sizeLimit⟩]) ++
        remainingGroups rest buckets := by
  by_cases hrest : (rest bucket.1).isEmpty
  · rw [remainingGroups, filterMap_cons, if_pos hrest, if_pos hrest]
    rfl
  · rw [remainingGroups, filterMap_cons, if_neg hrest, if_neg hrest]
    rfl

theorem mem_remainingGroups {buckets : List (Sigma fun _ : BucketKey D V => BucketAccumulator)}
    {g : Group D V} :
    g ∈ remainingGroups rest buckets ↔
      ∃ key accumulator, (⟨key, accumulator⟩ : Sigma fun _ => BucketAccumulator) ∈ buckets ∧
        rest key ≠ [] ∧ g = ⟨some key, rest key, accumulator.sizeLimit⟩ := by
  simp only [remainingGroups, mem_filterMap]
  constructor
  · rintro ⟨⟨key, accumulator⟩, hmem, hg⟩
    by_cases hrest : rest key = []
    · simp [hrest] at hg
    · exact ⟨key, accumulator, hmem, hrest, by simpa [hrest] using hg.symm⟩
  · rintro ⟨key, accumulator, hmem, hrest, rfl⟩
    exact ⟨⟨key, accumulator⟩, hmem, by simp [hrest]⟩

end

theorem ofKey_none_remaining (buckets : List (Sigma fun _ : BucketKey D V => BucketAccumulator)) :
    ofKey none (remainingGroups rest buckets) = [] := by
  refine filter_eq_nil_iff.mpr fun g hg => ?_
  obtain ⟨key, accumulator, -, -, rfl⟩ := mem_remainingGroups.mp hg
  simp

/-- The open buckets of one key, as the hash map gives them. -/
theorem ofKey_remaining {buckets : List (Sigma fun _ : BucketKey D V => BucketAccumulator)}
    (hnodup : buckets.NodupKeys) (key : BucketKey D V) :
    ofKey (some key) (remainingGroups rest buckets) =
      match buckets.dlookup key with
      | none => []
      | some accumulator =>
        if (rest key).isEmpty then [] else [⟨some key, rest key, accumulator.sizeLimit⟩] := by
  induction buckets with
  | nil => rfl
  | cons bucket buckets ih =>
    obtain ⟨key', accumulator⟩ := bucket
    obtain ⟨hnot, hnodup⟩ := nodupKeys_cons.mp hnodup
    have ih := ih hnodup
    rw [remainingGroups_cons, ofKey_append, ih]
    by_cases hkey : key = key'
    · subst hkey
      have hnone : buckets.dlookup key = none := dlookup_eq_none.mpr hnot
      rw [hnone, dlookup_cons_eq, append_nil]
      split
      · rfl
      · exact (ofKey_singleton _ _).trans (if_pos rfl)
    · rw [dlookup_cons_ne _ _ hkey]
      have hempty : ofKey (some key) (if (rest key').isEmpty then []
          else [⟨some key', rest key', accumulator.sizeLimit⟩]) = [] := by
        split
        · rfl
        · exact (ofKey_singleton _ _).trans (if_neg (by simpa using Ne.symm hkey))
      rw [hempty, nil_append]

section

variable (h : Tracks limits flags done s closed rest)
  (order : HashOrder (Sigma fun _ : BucketKey D V => BucketAccumulator))
include h order

theorem Tracks.remainingBuckets :
    Ddp.remainingBuckets order s =
      (remainingGroups rest (order.apply s.buckets.entries)).map Group.bucket := by
  rw [Ddp.remainingBuckets, remainingGroups, map_filterMap]
  refine filterMap_congr fun bucket hbucket => ?_
  have hmem : bucket ∈ s.buckets.entries := (order.perm _).mem_iff.mp hbucket
  have hlookup : s.buckets.lookup bucket.1 = some bucket.2 := AList.mem_lookup_iff.mpr hmem
  have hindices : bucket.2.indices = (rest bucket.1).map Prod.fst := by
    simpa [hlookup] using h.indices bucket.1
  by_cases hrest : rest bucket.1 = []
  · simp [hindices, hrest]
  · simp [hindices, hrest, Group.bucket]

/-- At the end every key has at most one open bucket. -/
theorem Tracks.ofKey_remaining (key : BucketKey D V) :
    ofKey (some key) (remainingGroups rest (order.apply s.buckets.entries)) =
      if rest key = [] then []
      else [⟨some key, rest key, limitAt limits (ofKey (some key) closed).length⟩] := by
  have hperm := order.perm s.buckets.entries
  have hnodup : (order.apply s.buckets.entries).NodupKeys :=
    (perm_nodupKeys hperm).mpr s.buckets.nodupKeys
  have hlookup : (order.apply s.buckets.entries).dlookup key = s.buckets.lookup key :=
    perm_dlookup key hnodup hperm
  rw [Ddp.ofKey_remaining hnodup, hlookup]
  have hindices := h.indices key
  have hlimit := h.sizeLimit key
  cases hfound : s.buckets.lookup key with
  | none =>
    have hrest : rest key = [] := by simpa [hfound] using hindices
    simp [hrest]
  | some accumulator =>
    by_cases hrest : rest key = []
    · simp [hrest]
    · have hsame : accumulator.sizeLimit = limitAt limits (ofKey (some key) closed).length := by
        simpa [hfound] using hlimit hrest
      simp [hrest, hsame]

end

omit [DecidableEq D] [DecidableEq V] in
theorem filledUp_concat {groups : List (Group D V)} {g : Group D V}
    (hfilled : ∀ (k : Nat) (g : Group D V), groups[k]? = some g →
      g.Least (limitAt limits k) ∧ limitAt limits k ≤ totalBytes g.entries)
    (hg : g.Least (limitAt limits groups.length)) : FilledUp limits (groups ++ [g]) where
  least := fun k g' hk => by
    rcases lt_trichotomy k groups.length with hlt | rfl | hgt
    · rw [getElem?_append_left hlt] at hk
      exact (hfilled k g' hk).1
    · obtain rfl : g = g' := by simpa using hk
      exact hg
    · have hnone : (groups ++ [g])[k]? = none := by
        simp only [getElem?_eq_none_iff, length_append, length_singleton]
        omega
      cases hnone.symm.trans hk
  reached := fun k g' hk hnext => by
    have hlt : k < groups.length := by simpa using hnext
    rw [getElem?_append_left hlt] at hk
    exact (hfilled k g' hk).2

theorem Tracks.grouped (h : Tracks limits flags done s closed rest)
    (order : HashOrder (Sigma fun _ : BucketKey D V => BucketAccumulator)) :
    Grouped limits flags done (closed ++ remainingGroups rest (order.apply s.buckets.entries)) where
  nonempty := fun g hg => by
    rcases mem_append.mp hg with hclosed | hrest
    · exact h.nonempty g hclosed
    · obtain ⟨key, accumulator, -, hne, rfl⟩ := mem_remainingGroups.mp hrest
      exact hne
  classes := fun g hg e he => by
    have hin : e ∈ done.filter fun e => classOf flags e = g.key := by
      rcases mem_append.mp hg with hclosed | hrest
      · have hmem : e ∈ (ofKey g.key closed).flatMap Group.entries :=
          mem_flatMap.mpr ⟨g, mem_filter.mpr ⟨hclosed, by simp⟩, he⟩
        cases hkey : g.key with
        | none =>
          rw [hkey] at hmem
          exact h.sparse ▸ hmem
        | some key =>
          rw [hkey] at hmem
          exact h.dense key ▸ mem_append_left _ hmem
      · obtain ⟨key, accumulator, -, -, rfl⟩ := mem_remainingGroups.mp hrest
        exact h.dense key ▸ mem_append_right _ he
    simpa using (mem_filter.mp hin).2
  inOrder := fun key => by
    cases key with
    | none =>
      rw [ofKey_append, ofKey_none_remaining, append_nil]
      exact h.sparse
    | some key =>
      rw [ofKey_append, h.ofKey_remaining order, flatMap_append, ← h.dense key]
      by_cases hrest : rest key = []
      · simp [hrest]
      · simp [hrest]
  sparseAlone := fun g hg hkey => by
    rcases mem_append.mp hg with hclosed | hrest
    · exact h.sparseAlone g hclosed hkey
    · obtain ⟨key, accumulator, -, -, rfl⟩ := mem_remainingGroups.mp hrest
      cases hkey
  filled := fun key => by
    rw [ofKey_append, h.ofKey_remaining order]
    by_cases hrest : rest key = []
    · rw [if_pos hrest, append_nil]
      exact ⟨fun k g hk => (h.filled key k g hk).1, fun k g hk _ => (h.filled key k g hk).2⟩
    · rw [if_neg hrest]
      exact filledUp_concat (h.filled key) ⟨rfl, h.short key⟩

end Remaining

section Partition

variable {D : Type u} {V : Type v} [DecidableEq D] [DecidableEq V]
  {limits : List UInt64} {flags : List Bool} {entries : List (Entry D V)}
  {groups : List (Group D V)}

variable (h : Grouped limits flags entries groups)
include h

theorem Grouped.filter_flatMap (key : Option (BucketKey D V)) :
    (groups.flatMap Group.entries).filter (fun e => classOf flags e = key) =
      (ofKey key groups).flatMap Group.entries := by
  have hclasses := h.classes
  clear h
  induction groups with
  | nil => rfl
  | cons g groups ih =>
    obtain ⟨hg, hgroups⟩ := forall_mem_cons.mp hclasses
    have ih := ih hgroups
    rw [flatMap_cons, filter_append, ih]
    by_cases hkey : g.key = key
    · have hall : g.entries.filter (fun e => classOf flags e = key) = g.entries :=
        filter_eq_self.mpr fun e he => by simp [hg e he, hkey]
      simp [hall, ofKey, hkey]
    · have hnone : g.entries.filter (fun e => classOf flags e = key) = [] :=
        filter_eq_nil_iff.mpr fun e he => by simp [hg e he, hkey]
      simp [hnone, ofKey, hkey]

/-- A grouping contains every tensor once. -/
theorem Grouped.perm :
    (groups.flatMap Group.entries).Perm entries := by
  refine perm_iff_count.mpr fun e => ?_
  let sameClass : Entry D V → Bool := fun e' => classOf flags e' = classOf flags e
  have hself : sameClass e = true := by simp [sameClass]
  calc (groups.flatMap Group.entries).count e
      = ((groups.flatMap Group.entries).filter sameClass).count e :=
        (count_filter hself).symm
    _ = (entries.filter sameClass).count e := by
        rw [h.filter_flatMap, h.inOrder]
    _ = entries.count e := count_filter hself

/-- The order of buckets of different keys does not matter. -/
theorem Grouped.congr {groups' : List (Group D V)}
    (hmem : ∀ g ∈ groups', g ∈ groups) (hkeys : ∀ key, ofKey key groups' = ofKey key groups) :
    Grouped limits flags entries groups' where
  nonempty := fun g hg => h.nonempty g (hmem g hg)
  classes := fun g hg => h.classes g (hmem g hg)
  inOrder := fun key => (hkeys key).symm ▸ h.inOrder key
  sparseAlone := fun g hg => h.sparseAlone g (hmem g hg)
  filled := fun key => (hkeys (some key)).symm ▸ h.filled key

end Partition

section Sorting

variable {D : Type u} {V : Type v} [DecidableEq D] [DecidableEq V]
  {limits : List UInt64} {flags : List Bool} {entries : List (Entry D V)}
  {groups : List (Group D V)}

def Group.smallest (g : Group D V) : Nat := smallestIndex g.bucket.1

/-- The groups by their smallest index. -/
def sortGroups (groups : List (Group D V)) : List (Group D V) :=
  groups.insertionSort fun a b => a.smallest ≤ b.smallest

section

omit [DecidableEq D] [DecidableEq V]

theorem sortBuckets_map (groups : List (Group D V)) :
    sortBuckets (groups.map Group.bucket) = (sortGroups groups).map Group.bucket :=
  (map_insertionSort _ _ Group.bucket groups fun _ _ _ _ => Iff.rfl).symm

theorem Group.smallest_mem {g : Group D V} (hne : g.entries ≠ []) :
    g.smallest ∈ g.entries.map Prod.fst := by
  have hmap : g.entries.map Prod.fst ≠ [] := by simpa using hne
  obtain ⟨m, hm⟩ := isSome_iff_exists.mp (isSome_min?_of_ne_nil hmap)
  have hsmallest : g.smallest = m := by
    simp [Group.smallest, smallestIndex, Group.bucket, hm]
  exact hsmallest ▸ min?_mem hm

end

theorem ofKey_sortGroups {key : Option (BucketKey D V)}
    (hsorted : (ofKey key groups).Pairwise fun a b => a.smallest ≤ b.smallest) :
    ofKey key (sortGroups groups) = ofKey key groups := by
  have hsub : (ofKey key groups).Sublist (sortGroups groups) :=
    sublist_insertionSort hsorted filter_sublist
  have hfilter : (ofKey key groups).Sublist (ofKey key (sortGroups groups)) := by
    have hkeep : ofKey key (ofKey key groups) = ofKey key groups := by simp [ofKey]
    have hle := hsub.filter fun g => g.key = key
    exact hkeep ▸ hle
  have hlength : (ofKey key groups).length = (ofKey key (sortGroups groups)).length :=
    ((perm_insertionSort _ groups).filter _).length_eq.symm
  exact (hfilter.eq_of_length hlength).symm

section

variable (h : Grouped limits flags entries groups)
  (hindices : (entries.map Prod.fst).Pairwise (· < ·))
include h hindices

theorem Grouped.sorted_class (key : Option (BucketKey D V)) :
    (ofKey key groups).Pairwise fun a b => a.smallest < b.smallest := by
  have hclass : ((ofKey key groups).flatMap Group.entries).Pairwise fun a b => a.1 < b.1 := by
    rw [h.inOrder key]
    exact (pairwise_map.mp hindices).filter _
  obtain ⟨-, hbetween⟩ := pairwise_flatMap.mp hclass
  refine hbetween.imp_of_mem fun {a b} ha hb hab => ?_
  have hane := h.nonempty a (mem_filter.mp ha).1
  have hbne := h.nonempty b (mem_filter.mp hb).1
  obtain ⟨x, hx, hxa⟩ := mem_map.mp (Group.smallest_mem hane)
  obtain ⟨y, hy, hyb⟩ := mem_map.mp (Group.smallest_mem hbne)
  rw [← hxa, ← hyb]
  exact hab x hx y hy

theorem Grouped.sortGroups :
    Grouped limits flags entries (sortGroups groups) :=
  h.congr (fun _ hg => (mem_insertionSort _).mp hg) fun key =>
    ofKey_sortGroups ((h.sorted_class hindices key).imp Nat.le_of_lt)

end

omit [DecidableEq D] [DecidableEq V] in
theorem sortGroups_ordered (hne : ∀ g ∈ groups, g.entries ≠ [])
    (hnodup : ((groups.flatMap Group.entries).map Prod.fst).Nodup) :
    (Ddp.sortGroups groups).Pairwise fun a b => a.smallest < b.smallest := by
  have hperm := perm_insertionSort (fun a b : Group D V => a.smallest ≤ b.smallest) groups
  have hle : (Ddp.sortGroups groups).Pairwise fun a b => a.smallest ≤ b.smallest :=
    pairwise_insertionSort _ groups
  have hdisjoint : groups.Pairwise fun a b => a.smallest ≠ b.smallest := by
    have hapart := (pairwise_flatMap.mp (pairwise_map.mp hnodup)).2
    refine hapart.imp_of_mem fun {a b} ha hb hab => ?_
    obtain ⟨x, hx, hxa⟩ := mem_map.mp (Group.smallest_mem (hne a ha))
    obtain ⟨y, hy, hyb⟩ := mem_map.mp (Group.smallest_mem (hne b hb))
    rw [← hxa, ← hyb]
    exact hab x hx y hy
  have hdistinct : (Ddp.sortGroups groups).Pairwise fun a b => a.smallest ≠ b.smallest :=
    (hperm.pairwise_iff fun hab => Ne.symm hab).mpr hdisjoint
  exact (hle.and hdistinct).imp fun hab => lt_of_le_of_ne hab.1 hab.2

end Sorting

section Results

variable {D : Type u} {V : Type v} [DecidableEq D] [DecidableEq V]

def indicesOf (tensors : List (Tensor D V)) (tensorIndices : List Int64) : List Nat :=
  if tensorIndices.isEmpty then List.range tensors.length
  else tensorIndices.map fun k => k.toUInt64.toNat

/-- The tensors with their indices, in input order. -/
def entriesOf (tensors : List (Tensor D V)) (tensorIndices : List Int64) : List (Entry D V) :=
  tensors.zipIdx.map (entryOf tensorIndices)

variable {tensors : List (Tensor D V)} {limits : List UInt64} {flags : List Bool}
  {tensorIndices : List Int64}

/-- What is asked of the arguments: the tensors are dense, and where there are flags or
indices, every tensor has one. -/
structure Arguments (tensors : List (Tensor D V)) (flags : List Bool)
    (tensorIndices : List Int64) : Prop where
  nonempty : tensors ≠ []
  dense : ∀ t ∈ tensors, t.isSparse = false
  flagCount : flags = [] ∨ flags.length = tensors.length
  indexCount : tensorIndices = [] ∨ tensorIndices.length = tensors.length
  nodup : tensorIndices.Nodup
  flagged : flags = [] ∨ ∀ k ∈ tensorIndices, k.toUInt64.toNat < flags.length

section

omit [DecidableEq D] [DecidableEq V]

theorem entriesOf_indices (h : tensorIndices = [] ∨ tensorIndices.length = tensors.length) :
    (entriesOf tensors tensorIndices).map Prod.fst = indicesOf tensors tensorIndices := by
  refine ext_getElem? fun i => ?_
  rcases h with rfl | hlength
  · rcases lt_or_ge i tensors.length with hlt | hge
    · simp [entriesOf, indicesOf, entryOf, tensorIndex, hlt]
    · simp [entriesOf, indicesOf, hge]
  · by_cases hempty : tensorIndices = []
    · have htensors : tensors = [] := by simpa [hempty] using hlength.symm
      simp [entriesOf, indicesOf, htensors, hempty]
    · rcases lt_or_ge i tensors.length with hlt | hge
      · have hlt' : i < tensorIndices.length := hlength ▸ hlt
        simp [entriesOf, indicesOf, entryOf, tensorIndex, hempty, hlt, hlt']
      · have hge' : tensorIndices.length ≤ i := hlength ▸ hge
        simp [entriesOf, indicesOf, hempty, hge, hge']

theorem entriesOf_tensors : (entriesOf tensors tensorIndices).map Prod.snd = tensors := by
  simp [entriesOf, entryOf, comp_def]

/-- The indices that tensors go by are distinct. -/
theorem Arguments.nodup_indices (h : Arguments tensors flags tensorIndices) :
    (indicesOf tensors tensorIndices).Nodup := by
  unfold indicesOf
  split
  · exact nodup_range
  · refine h.nodup.map fun a b hab => ?_
    have hsame : a.toUInt64 = b.toUInt64 := UInt64.toNat_inj.mp hab
    cases a
    cases b
    exact congrArg Int64.ofUInt64 hsame

theorem Arguments.assignable (h : Arguments tensors flags tensorIndices) :
    ∀ entry ∈ tensors.zipIdx, Assignable flags tensorIndices entry := by
  rintro ⟨t, i⟩ hmem
  obtain ⟨hlt, ht⟩ := mem_zipIdx' hmem
  have hdense : t.isSparse = false := h.dense t (ht ▸ getElem_mem hlt)
  have hindex : ∃ index, tensorIndex tensorIndices i = some index ∧
      (flags = [] ∨ index < flags.length) := by
    rcases h.indexCount with hnone | hlength
    · refine ⟨i, by simp [tensorIndex, hnone], ?_⟩
      rcases h.flagCount with hnone | hcount
      · exact .inl hnone
      · exact .inr (hcount.symm ▸ hlt)
    · have hne : tensorIndices ≠ [] := by
        rintro rfl
        exact absurd hlt (by simp [← hlength])
      have hlt' : i < tensorIndices.length := hlength ▸ hlt
      refine ⟨tensorIndices[i].toUInt64.toNat, by simp [tensorIndex, hne, hlt'], ?_⟩
      exact h.flagged.imp_right fun hflagged => hflagged _ (getElem_mem hlt')
  obtain ⟨index, hindex, hflag⟩ := hindex
  refine ⟨hdense, by simp [hindex], ?_⟩
  have hentry : (entryOf tensorIndices (t, i)).1 = index := by simp [entryOf, hindex]
  rw [hentry]
  rcases hflag with rfl | hlt'
  · rfl
  · unfold expectsSparse
    split
    · rfl
    · simp [hlt']

end

theorem computeBucketAssignmentBySize_groups
    (order : HashOrder (Sigma fun _ : BucketKey D V => BucketAccumulator))
    (hlimits : limits ≠ []) (h : Arguments tensors flags tensorIndices) :
    ∃ groups : List (Group D V),
      computeBucketAssignmentBySize order tensors limits flags tensorIndices =
          .ok (groups.map fun g => g.entries.map Prod.fst, groups.map Group.limit) ∧
        Grouped limits flags (entriesOf tensors tensorIndices) groups ∧
        (tensorIndices = [] → groups.Pairwise fun a b => a.smallest < b.smallest) := by
  have hstart : Tracks limits flags [] (Assigning.start : Assigning D V) [] fun _ => [] :=
    tracks_start
  obtain ⟨s, closed, rest, hrun, htracks⟩ := hstart.loop hlimits tensors.zipIdx h.assignable
  have hgrouped : Grouped limits flags (entriesOf tensors tensorIndices)
      (closed ++ remainingGroups rest (order.apply s.buckets.entries)) := by
    simpa [entriesOf] using htracks.grouped order
  have hresult : s.result ++ remainingBuckets order s =
      (closed ++ remainingGroups rest (order.apply s.buckets.entries)).map Group.bucket := by
    rw [htracks.result, htracks.remainingBuckets order, map_append]
  have hflags : flags.isEmpty ∨ tensors.length = flags.length :=
    h.flagCount.imp (fun hempty => by simp [hempty]) Eq.symm
  have htensors : ¬ tensors.isEmpty := by simpa using h.nonempty
  simp only [computeBucketAssignmentBySize, if_neg (not_not.mpr hflags), if_neg htensors, hrun,
    Except.map, hresult]
  generalize closed ++ remainingGroups rest (order.apply s.buckets.entries) = groups at hgrouped
  by_cases hempty : tensorIndices = []
  · have hindices : (entriesOf tensors tensorIndices).map Prod.fst = List.range tensors.length :=
      (entriesOf_indices h.indexCount).trans (if_pos (by simp [hempty]))
    have hsorted : ((entriesOf tensors tensorIndices).map Prod.fst).Pairwise (· < ·) :=
      hindices ▸ pairwise_lt_range
    have hunique : ((groups.flatMap Group.entries).map Prod.fst).Nodup :=
      (hgrouped.perm.map Prod.fst).nodup_iff.mpr (hindices ▸ nodup_range)
    refine ⟨sortGroups groups, ?_, hgrouped.sortGroups hsorted,
      fun _ => sortGroups_ordered hgrouped.nonempty hunique⟩
    simp [hempty, sortBuckets_map, Group.bucket, comp_def]
  · refine ⟨groups, ?_, hgrouped, fun hnil => absurd hnil hempty⟩
    simp [hempty, Group.bucket, comp_def]

/-- `compute_bucket_assignment_by_size` assigns every tensor to one bucket: a tensor with a sparse
gradient alone, the others with those of their type and device, in input order. The `k`-th bucket
of a type and device holds to the `k`-th limit, and reaches it if it is not the last one. -/
theorem computeBucketAssignmentBySize_assigns
    (order : HashOrder (Sigma fun _ : BucketKey D V => BucketAccumulator))
    (hlimits : limits ≠ []) (h : Arguments tensors flags tensorIndices) :
    ∃ groups : List (Group D V),
      computeBucketAssignmentBySize order tensors limits flags tensorIndices =
          .ok (groups.map fun g => g.entries.map Prod.fst, groups.map Group.limit) ∧
        Grouped limits flags (entriesOf tensors tensorIndices) groups ∧
        (groups.flatMap Group.entries).Perm (entriesOf tensors tensorIndices) ∧
        (entriesOf tensors tensorIndices).map Prod.fst = indicesOf tensors tensorIndices ∧
        (entriesOf tensors tensorIndices).map Prod.snd = tensors ∧
        (indicesOf tensors tensorIndices).Nodup ∧
        (tensorIndices = [] → groups.Pairwise fun a b => smallestIndex (a.entries.map Prod.fst) <
            smallestIndex (b.entries.map Prod.fst)) := by
  obtain ⟨groups, hrun, hgrouped, hordered⟩ :=
    computeBucketAssignmentBySize_groups order hlimits h
  exact ⟨groups, hrun, hgrouped, hgrouped.perm, entriesOf_indices h.indexCount,
    entriesOf_tensors, h.nodup_indices, hordered⟩

end Results

section Examples

/-- A hash map that is gone through as it is. -/
def HashOrder.asIs (α : Type u) : HashOrder α where
  apply := id
  perm := List.Perm.refl

/-- Tensors of one type on one device. -/
def plainTensor (numel elementSize : Nat) : Tensor Unit Unit :=
  ⟨(), (), numel, elementSize, false⟩

/-- A tensor of floats or of doubles on the one device. -/
def tensorOf (isDouble : Bool) (numel : Nat) : Tensor Bool Unit :=
  ⟨isDouble, (), numel, if isDouble then 8 else 4, false⟩

/-- Four tensors of a float and one of a double, under indices of their own; the gradient
of the one with index two is sparse. -/
theorem computeBucketAssignmentBySize_assigns_two : ∃ groups : List (Group Bool Unit),
    computeBucketAssignmentBySize (HashOrder.asIs _)
        [tensorOf false 1, tensorOf true 1, tensorOf false 1, tensorOf false 1, tensorOf false 1]
        [4, 100] [false, false, true, false, false] [3, 1, 2, 0, 4] =
          .ok (groups.map fun g => g.entries.map Prod.fst, groups.map Group.limit) ∧
      Grouped [4, 100] [false, false, true, false, false]
        (entriesOf [tensorOf false 1, tensorOf true 1, tensorOf false 1, tensorOf false 1,
          tensorOf false 1] [3, 1, 2, 0, 4]) groups ∧
      groups.map (fun g => g.entries.map Prod.fst) = [[3], [1], [2], [0, 4]] := by
  have hlimits : [(4 : UInt64), 100] ≠ [] := by simp
  have hflagged : ∀ k ∈ [(3 : Int64), 1, 2, 0, 4], k.toUInt64.toNat < 5 := by
    simp only [forall_mem_cons, not_mem_nil, false_imp_iff, implies_true, and_true]
    decide
  have harguments : Arguments [tensorOf false 1, tensorOf true 1, tensorOf false 1,
      tensorOf false 1, tensorOf false 1] [false, false, true, false, false] [3, 1, 2, 0, 4] :=
    ⟨by simp, by simp [tensorOf], .inr rfl, .inr rfl, by decide, .inr hflagged⟩
  obtain ⟨groups, hrun, hgrouped, -⟩ :=
    computeBucketAssignmentBySize_assigns (HashOrder.asIs _) hlimits harguments
  refine ⟨groups, hrun, hgrouped, ?_⟩
  have hresult : computeBucketAssignmentBySize (HashOrder.asIs _)
      [tensorOf false 1, tensorOf true 1, tensorOf false 1, tensorOf false 1, tensorOf false 1]
      [4, 100] [false, false, true, false, false] [3, 1, 2, 0, 4] =
        .ok ([[3], [1], [2], [0, 4]], [4, 4, 0, 100]) := by
    decide +kernel
  rw [hresult] at hrun
  exact (congrArg Prod.fst (Except.ok.inj hrun)).symm

/-- An empty bucket reaches a limit of zero, a size of `2 ^ 64` bytes does not reach a limit
of one, and an index behind the flags is not assigned. -/
theorem computeBucketAssignmentBySize_deviates :
    (computeBucketAssignmentBySize (HashOrder.asIs _) [plainTensor 1 8] [0] [] [] =
        .ok ([[0]], [0]) ∧ (0 : UInt64) ≤ totalBytes ([] : List (Entry Unit Unit))) ∧
      computeBucketAssignmentBySize (HashOrder.asIs _)
          [plainTensor (2 ^ 61) 8, plainTensor 1 8] [1] [] [] = .ok ([[0, 1]], [1]) ∧
      computeBucketAssignmentBySize (HashOrder.asIs _) [plainTensor 1 8] [1] [false] [1] =
        .error .outOfRange := by
  refine ⟨⟨rfl, by decide⟩, rfl, rfl⟩

end Examples

end PyTorchCore.Ddp
