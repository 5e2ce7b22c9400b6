import Mathlib.Algebra.Order.BigOperators.Group.Finset
import Mathlib.Data.List.GetD

/-!
# DistributedSampler

Every replica takes each `num_replicas`-th of the indices, from its rank on.  Before, the list
of indices is padded with its own beginning or its tail is dropped, so that its length is a
multiple of the number of replicas.
-/

namespace PyTorchCore.Data

open List

inductive Raised
  | valueError
  | zeroDivisionError
  | assertionError
  deriving DecidableEq

/-- `math.ceil(a / b)`, for quotients that floats do not round across an integer. -/
def ceilQuotient (a b : Int) : Except Raised Int :=
  if b = 0 then .error .zeroDivisionError else .ok (-(-a).fdiv b)

section Slices

variable {α : Type}

/-- A bound of a slice of a list of `len` elements; negative ones count from the end. -/
def sliceBound (len : Nat) (bound : Int) : Nat :=
  if bound < 0 then (bound + len).toNat else min bound.toNat len

/-- `xs[:stop]` -/
def upTo (xs : List α) (stop : Int) : List α :=
  xs.take (sliceBound xs.length stop)

/-- `xs[start:stop:step]` for a positive step. -/
def strided (xs : List α) (start stop : Int) (step : Nat) : List α :=
  (List.range
    ((sliceBound xs.length stop - sliceBound xs.length start + step - 1) / step)).filterMap
    fun k => xs[sliceBound xs.length start + k * step]?

/-- `xs * times` -/
def repeated (xs : List α) (times : Int) : List α :=
  (List.replicate times.toNat xs).flatten

end Slices

structure DistributedSampler where
  datasetSize : Nat
  numReplicas : Int
  rank : Int
  epoch : Int
  dropLast : Bool
  numSamples : Int
  totalSize : Int
  shuffle : Bool
  seed : Int

namespace DistributedSampler

/-- The samples of each rank.  An even split drops nothing. -/
def samplesOf (datasetSize : Nat) (numReplicas : Int) (dropLast : Bool) : Except Raised Int :=
  if dropLast ∧ (datasetSize : Int).fmod numReplicas ≠ 0 then
    ceilQuotient (datasetSize - numReplicas) numReplicas
  else ceilQuotient datasetSize numReplicas

/-- `__init__`; the check of the rank leaves a positive number of replicas. -/
def init (datasetSize : Nat) (numReplicas rank : Int) (shuffle : Bool) (seed : Int)
    (dropLast : Bool) : Except Raised DistributedSampler := do
  if rank ≥ numReplicas ∨ rank < 0 then throw .valueError
  let numSamples ← samplesOf datasetSize numReplicas dropLast
  return ⟨datasetSize, numReplicas, rank, 0, dropLast, numSamples, numSamples * numReplicas,
    shuffle, seed⟩

def setEpoch (s : DistributedSampler) (epoch : Int) : DistributedSampler :=
  { s with epoch := epoch }

/-- The indices with extra ones, or without their tail. -/
def evened (dropLast : Bool) (totalSize : Int) (indices : List Nat) :
    Except Raised (List Nat) :=
  if dropLast then .ok (upTo indices totalSize)
  else
    let paddingSize := totalSize - indices.length
    if paddingSize ≤ indices.length then .ok (indices ++ upTo indices paddingSize)
    else do
      let times ← ceilQuotient paddingSize indices.length
      return indices ++ upTo (repeated indices times) paddingSize

/-- `__iter__`; `randperm` is the permutation that a generator with the given seed returns. -/
def iter (randperm : Int → Nat → List Nat) (s : DistributedSampler) :
    Except Raised (List Nat) := do
  let indices :=
    if s.shuffle then randperm (s.seed + s.epoch) s.datasetSize else List.range s.datasetSize
  let indices ← evened s.dropLast s.totalSize indices
  if (indices.length : Int) ≠ s.totalSize then throw .assertionError
  let indices := strided indices s.rank s.totalSize s.numReplicas.toNat
  if (indices.length : Int) ≠ s.numSamples then throw .assertionError
  return indices

end DistributedSampler

open DistributedSampler (samplesOf evened setEpoch)

/-- The lists of all ranks are the dataset, up to the padding or the dropped tail. -/
structure Covers (datasetSize numReplicas : Nat) (dropLast : Bool) (lists : Nat → List Nat) :
    Prop where
  indices : ∀ rank < numReplicas, ∀ i ∈ lists rank, i < datasetSize
  padded : dropLast = false → (∀ i < datasetSize, ∃ rank < numReplicas, i ∈ lists rank) ∧
    datasetSize ≤ ∑ rank ∈ Finset.range numReplicas, (lists rank).length ∧
    ∑ rank ∈ Finset.range numReplicas, (lists rank).length < datasetSize + numReplicas
  dropped : dropLast = true →
    (∀ i, ∑ rank ∈ Finset.range numReplicas, (lists rank).count i ≤ 1) ∧
    ((Finset.range datasetSize).filter fun i => ∀ rank < numReplicas, i ∉ lists rank).card <
      numReplicas

section Strided

variable {xs : List Nat} {samples replicas rank : Nat}

theorem sum_turns (f : Nat → Nat) (samples replicas : Nat) :
    ∑ rank ∈ Finset.range replicas, ∑ k ∈ Finset.range samples, f (rank + k * replicas) =
      ∑ i ∈ Finset.range (samples * replicas), f i := by
  induction samples with
  | zero => simp
  | succ samples ih =>
    simp only [Finset.sum_range_succ, Finset.sum_add_distrib, ih]
    rw [Nat.succ_mul, Finset.sum_range_add]
    simp only [Nat.add_comm]

theorem count_map_range (f : Nat → Nat) (n i : Nat) :
    ((List.range n).map f).count i = ∑ k ∈ Finset.range n, if f k = i then 1 else 0 := by
  induction n with
  | zero => rfl
  | succ n ih =>
    rw [range_succ, map_append, count_append, ih, Finset.sum_range_succ]
    simp [count_singleton]

/-- The replica of a rank takes its indices from there in steps of `replicas`. -/
theorem strided_eq (hlength : xs.length = samples * replicas) (hrank : rank < replicas) :
    strided xs rank (samples * replicas : Nat) replicas =
      (List.range samples).map fun k => xs.getD (rank + k * replicas) 0 := by
  have hplace : ∀ k < samples, rank + k * replicas < xs.length := by
    intro k hk
    calc rank + k * replicas < (k + 1) * replicas := by rw [Nat.succ_mul]; omega
      _ ≤ xs.length := hlength ▸ Nat.mul_le_mul_right replicas hk
  have hstop : sliceBound xs.length (samples * replicas : Nat) = samples * replicas := by
    rw [sliceBound, if_neg (by omega), hlength]
    exact Nat.min_self _
  cases samples with
  | zero =>
    rw [strided, hstop, Nat.zero_mul, Nat.zero_sub, Nat.zero_add, Nat.div_eq_of_lt (by omega)]
    rfl
  | succ samples =>
    have hstart : sliceBound xs.length rank = rank := by
      have := hplace 0 (Nat.succ_pos samples)
      rw [sliceBound, if_neg (by omega)]
      exact min_eq_left (by simp only [Int.toNat_natCast]; omega)
    have hcount : ((samples + 1) * replicas - rank + replicas - 1) / replicas = samples + 1 := by
      rw [Nat.succ_mul]
      exact Nat.div_eq_of_lt_le (by rw [Nat.succ_mul]; omega) (by simp only [Nat.succ_mul]; omega)
    rw [strided, hstop, hstart, hcount]
    refine filterMap_eq_map_iff_forall_eq_some.mpr fun k hk => ?_
    rw [getElem?_eq_getElem (hplace k (mem_range.mp hk)), getD_eq_getElem]

theorem sum_count_strided (hlength : xs.length = samples * replicas) (i : Nat) :
    ∑ rank ∈ Finset.range replicas,
      (strided xs rank (samples * replicas : Nat) replicas).count i = xs.count i := by
  have hxs : (List.range (samples * replicas)).map (fun k => xs.getD k 0) = xs := by
    refine ext_getElem (by rw [length_map, length_range, hlength]) fun k _ hk => ?_
    rw [getElem_map, getElem_range, getD_eq_getElem]
  calc ∑ rank ∈ Finset.range replicas, (strided xs rank (samples * replicas : Nat) replicas).count i
      = ∑ rank ∈ Finset.range replicas, ∑ k ∈ Finset.range samples,
          if xs.getD (rank + k * replicas) 0 = i then 1 else 0 :=
        Finset.sum_congr rfl fun rank hrank => by
          rw [strided_eq hlength (Finset.mem_range.mp hrank), count_map_range]
    _ = ∑ k ∈ Finset.range (samples * replicas), if xs.getD k 0 = i then 1 else 0 :=
        sum_turns (fun k => if xs.getD k 0 = i then 1 else 0) samples replicas
    _ = xs.count i := by rw [← count_map_range, hxs]

end Strided

section Indices

variable {datasetSize replicas samples : Nat} {indices : List Nat}

theorem upTo_ofNat (xs : List Nat) (stop : Nat) : upTo xs stop = xs.take stop := by
  rw [upTo, sliceBound, if_neg (by omega), Int.toNat_natCast, take_eq_take_iff]
  omega

theorem ceilQuotient_eq {a b q : Int} (hb : 0 < b) (hlow : q * b < a + b) (hhigh : a ≤ q * b) :
    ceilQuotient a b = .ok q := by
  have hdiv : -a / b = -q := by
    refine ((Int.ediv_emod_unique (r := q * b - a) hb).mpr ⟨?_, by omega, by omega⟩).1
    rw [Int.mul_neg, Int.mul_comm b]
    omega
  rw [ceilQuotient, if_neg hb.ne', Int.fdiv_eq_ediv_of_nonneg _ hb.le, hdiv, Int.neg_neg]

/-- The lists that the ranks get of a list with a multiple of their number. -/
def shares (xs : List Nat) (samples replicas rank : Nat) : List Nat :=
  strided xs rank (samples * replicas : Nat) replicas

theorem length_shares (hlength : indices.length = samples * replicas) {rank : Nat}
    (hrank : rank < replicas) : (shares indices samples replicas rank).length = samples := by
  rw [shares, strided_eq hlength hrank, length_map, length_range]

theorem mem_shares (hlength : indices.length = samples * replicas) {i : Nat} :
    i ∈ indices ↔ ∃ rank < replicas, i ∈ shares indices samples replicas rank := by
  have hsum := sum_count_strided hlength i
  rw [← count_pos_iff, ← hsum, Finset.sum_pos_iff]
  simp only [Finset.mem_range, count_pos_iff, shares]

/-- The list that the slices are taken of: the indices without their tail, or with some of them
again. -/
theorem covers_shares (dropLast : Bool) (xs : List Nat) (hlength : xs.length = samples * replicas)
    (hperm : indices.Perm (List.range datasetSize)) (hmem : ∀ i ∈ xs, i ∈ indices)
    (hpadded : dropLast = false → (∀ i ∈ indices, i ∈ xs) ∧ datasetSize ≤ samples * replicas ∧
      samples * replicas < datasetSize + replicas)
    (hdropped : dropLast = true →
      xs = indices.take (samples * replicas) ∧ datasetSize < samples * replicas + replicas) :
    Covers datasetSize replicas dropLast (shares xs samples replicas) where
  indices rank hrank i hi :=
    mem_range.mp (hperm.mem_iff.mp (hmem i ((mem_shares hlength).mpr ⟨rank, hrank, hi⟩)))
  padded hdrop := by
    obtain ⟨hall, hlow, hhigh⟩ := hpadded hdrop
    have hsum : ∑ rank ∈ Finset.range replicas, (shares xs samples replicas rank).length =
        samples * replicas := by
      rw [Finset.sum_const_nat fun rank hrank => length_shares hlength (Finset.mem_range.mp hrank),
        Finset.card_range, Nat.mul_comm]
    refine ⟨fun i hi => ?_, hsum ▸ hlow, hsum ▸ hhigh⟩
    exact (mem_shares hlength).mp (hall i (hperm.mem_iff.mpr (mem_range.mpr hi)))
  dropped hdrop := by
    obtain ⟨htake, hsize⟩ := hdropped hdrop
    have hnodup : indices.Nodup := hperm.nodup_iff.mpr nodup_range
    constructor
    · intro i
      have hsum := sum_count_strided hlength i
      simp only [shares]
      rw [hsum, htake]
      exact nodup_iff_count_le_one.mp (hnodup.sublist (take_sublist _ _)) i
    · have hsub : ((Finset.range datasetSize).filter fun i =>
          ∀ rank < replicas, i ∉ shares xs samples replicas rank) ⊆
            (indices.drop (samples * replicas)).toFinset := by
        intro i hi
        obtain ⟨hin, hout⟩ := Finset.mem_filter.mp hi
        have hi' : i ∈ indices := hperm.mem_iff.mpr (mem_range.mpr (Finset.mem_range.mp hin))
        rw [← take_append_drop (samples * replicas) indices, mem_append, ← htake] at hi'
        refine mem_toFinset.mpr (hi'.resolve_left fun hxs => ?_)
        obtain ⟨rank, hrank, hshare⟩ := (mem_shares hlength).mp hxs
        exact hout rank hrank hshare
      have hcard := (Finset.card_le_card hsub).trans (toFinset_card_le _)
      rw [htake, length_take, hperm.length_eq, length_range] at hlength
      rw [length_drop, hperm.length_eq, length_range] at hcard
      omega

end Indices

section Iteration

variable {randperm : Int → Nat → List Nat} {datasetSize replicas samples : Nat}

theorem samplesOf_eq (datasetSize : Nat) (hreplicas : 1 ≤ replicas) (dropLast : Bool) :
    ∃ samples : Nat, samplesOf datasetSize replicas dropLast = .ok (samples : Int) ∧
      (dropLast = false → datasetSize ≤ samples * replicas ∧
        samples * replicas < datasetSize + replicas) ∧
      (dropLast = true → samples * replicas ≤ datasetSize ∧
        datasetSize < samples * replicas + replicas) := by
  have hpos : (0 : Int) < replicas := by omega
  have hmod : (datasetSize : Int).fmod replicas = ((datasetSize % replicas : Nat) : Int) :=
    Int.fmod_eq_emod_of_nonneg _ hpos.le
  obtain ⟨turns, hturns⟩ : ∃ turns, turns * replicas + datasetSize % replicas = datasetSize :=
    ⟨_, Nat.div_add_mod' datasetSize replicas⟩
  have hrest := Nat.mod_lt datasetSize hreplicas
  rw [samplesOf, hmod]
  by_cases hzero : datasetSize % replicas = 0
  · refine ⟨turns, ?_, fun _ => by omega, fun _ => by omega⟩
    rw [hzero, if_neg fun h => h.2 rfl]
    exact ceilQuotient_eq hpos (by omega) (by omega)
  · cases dropLast with
    | false =>
      have hsucc : (turns + 1) * replicas = turns * replicas + replicas := Nat.succ_mul _ _
      refine ⟨turns + 1, ?_, fun _ => by omega, nofun⟩
      rw [if_neg fun h => Bool.noConfusion h.1]
      exact ceilQuotient_eq hpos (by omega) (by omega)
    | true =>
      refine ⟨turns, ?_, nofun, fun _ => by omega⟩
      rw [if_pos ⟨rfl, by omega⟩]
      exact ceilQuotient_eq hpos (by omega) (by omega)

theorem length_repeated (xs : List Nat) (times : Int) :
    (repeated xs times).length = times.toNat * xs.length := by
  rw [repeated, length_flatten, map_replicate, sum_replicate_nat]

theorem mem_repeated {xs : List Nat} {times : Int} {i : Nat} (h : i ∈ repeated xs times) :
    i ∈ xs := by
  obtain ⟨ys, hys, hi⟩ := mem_flatten.mp h
  exact eq_of_mem_replicate hys ▸ hi

theorem evened_padded {indices : List Nat} (hlow : indices.length ≤ samples * replicas)
    (hhigh : samples * replicas < indices.length + replicas) :
    ∃ padding : List Nat, evened false (samples * replicas : Nat) indices =
      .ok (indices ++ padding) ∧ (indices ++ padding).length = samples * replicas ∧
      ∀ i ∈ padding, i ∈ indices := by
  obtain ⟨missing, hmissing⟩ := Nat.exists_eq_add_of_le hlow
  have hsub : ((samples * replicas : Nat) : Int) - indices.length = (missing : Nat) := by omega
  simp only [evened, hsub, Bool.false_eq_true, if_false]
  split_ifs with hfew
  · refine ⟨indices.take missing, by rw [upTo_ofNat], ?_, fun i hi => mem_of_mem_take hi⟩
    rw [length_append, length_take]
    omega
  · have hpos : 1 ≤ indices.length := by
      by_contra hzero
      have hone : samples < 1 := Nat.lt_of_mul_lt_mul_right (a := replicas) (by omega)
      obtain rfl : samples = 0 := by omega
      omega
    obtain ⟨times, htimes, henough, -⟩ := samplesOf_eq missing hpos false
    rw [samplesOf, if_neg fun h => Bool.noConfusion h.1] at htimes
    refine ⟨(repeated indices times).take missing, ?_, ?_,
      fun i hi => mem_repeated (mem_of_mem_take hi)⟩
    · rw [htimes, ← upTo_ofNat]
      rfl
    · rw [length_append, length_take, length_repeated, Int.toNat_natCast,
        min_eq_left (henough rfl).1, hmissing]

end Iteration

/-- All replicas have the same number of samples; together they have every index, with repetitions
only from the padding, or without it all but a tail shorter than the number of replicas. -/
theorem distributedSampler_covers {randperm : Int → Nat → List Nat}
    (hperm : ∀ seed n, (randperm seed n).Perm (List.range n)) (datasetSize : Nat) {replicas : Nat}
    (hreplicas : 1 ≤ replicas) (shuffle : Bool) (seed epoch : Int) (dropLast : Bool) :
    ∃ (samples : Nat) (lists : Nat → List Nat), (∀ rank < replicas, ∃ s : DistributedSampler,
        DistributedSampler.init datasetSize replicas rank shuffle seed dropLast = .ok s ∧
        s.numSamples = samples ∧ (s.setEpoch epoch).iter randperm = .ok (lists rank) ∧
        (lists rank).length = samples) ∧
      Covers datasetSize replicas dropLast lists := by
  obtain ⟨samples, hsamples, hpadded, hdropped⟩ := samplesOf_eq datasetSize hreplicas dropLast
  obtain ⟨indices, hindices⟩ : ∃ indices, indices = if shuffle then
    randperm (seed + epoch) datasetSize else List.range datasetSize := ⟨_, rfl⟩
  have hperm' : indices.Perm (List.range datasetSize) := by
    rw [hindices]
    split
    · exact hperm _ _
    · exact .refl _
  have hsize : indices.length = datasetSize := by rw [hperm'.length_eq, length_range]
  rw [← hsize] at hpadded hdropped
  obtain ⟨xs, hxs, hlength, hmem, hall, htake⟩ : ∃ xs : List Nat,
      evened dropLast (samples * replicas : Nat) indices = .ok xs ∧
      xs.length = samples * replicas ∧ (∀ i ∈ xs, i ∈ indices) ∧
      (dropLast = false → ∀ i ∈ indices, i ∈ xs) ∧
      (dropLast = true → xs = indices.take (samples * replicas)) := by
    cases dropLast with
    | true =>
      refine ⟨indices.take (samples * replicas), by rw [evened, if_pos rfl, upTo_ofNat], ?_,
        fun i hi => mem_of_mem_take hi, nofun, fun _ => rfl⟩
      rw [length_take]
      exact min_eq_left (hdropped rfl).1
    | false =>
      obtain ⟨padding, heq, hlength, hmem⟩ := evened_padded (hpadded rfl).1 (hpadded rfl).2
      exact ⟨indices ++ padding, heq, hlength, fun i hi => (mem_append.mp hi).elim id (hmem i),
        fun _ i hi => mem_append_left _ hi, nofun⟩
  rw [hsize] at hpadded hdropped
  refine ⟨samples, shares xs samples replicas, fun rank hrank => ?_,
    covers_shares dropLast xs hlength hperm' hmem
      (fun hdrop => ⟨hall hdrop, hpadded hdrop⟩) fun hdrop => ⟨htake hdrop, (hdropped hdrop).2⟩⟩
  have hshares := length_shares hlength hrank
  refine ⟨⟨datasetSize, replicas, rank, 0, dropLast, samples, samples * replicas, shuffle, seed⟩,
    ?_, rfl, ?_, hshares⟩
  · rw [DistributedSampler.init, if_neg (by omega)]
    simp only [bind, Except.bind, pure, Except.pure, hsamples]
  · rw [shares] at hshares
    have hcast : (samples : Int) * replicas = (samples * replicas : Nat) := rfl
    simp only [DistributedSampler.iter, setEpoch, ← hindices, hcast, hxs,
      bind, Except.bind, hlength, ne_eq,
      not_true_eq_false, if_false, Int.toNat_natCast, hshares]
    rfl

/-- Five indices over three replicas, in the second epoch. -/
theorem distributedSampler_covers_fiveOverThree : ∃ (samples : Nat) (lists : Nat → List Nat),
      (∀ rank : Nat, rank < 3 → ∃ s : DistributedSampler,
        DistributedSampler.init 5 (3 : Nat) rank true 0 false = .ok s ∧ s.numSamples = samples ∧
        (s.setEpoch 1).iter (fun _ n => (List.range n).reverse) = .ok (lists rank) ∧
        (lists rank).length = samples) ∧ Covers 5 3 false lists :=
  distributedSampler_covers (fun _ n => reverse_perm (List.range n)) 5 (by decide : 1 ≤ 3) true 0 1
    false

end PyTorchCore.Data
