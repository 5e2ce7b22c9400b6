import Mathlib.Algebra.Order.Ring.Int
import PyTorchCore.Lib.DenseNest
import PyTorchCore.TensorIterator.Iterator

/-!
# Non-overlapping and dense tensors

`compute_non_overlapping_and_dense` sorts the dimensions by stride and compares the strides
with the products of the sizes.  The running product is an `int`: every product is cut to
32 bits.
-/

namespace PyTorchCore.Core

open List
open Lib (Axis InBounds)
open Lib.LoopNest
open TensorIterator (compatibleStride)

/-- Sizes and strides of a tensor, both not negative. -/
structure TensorImpl where
  sizes : List ℕ
  strides : List ℕ
  sameRank : strides.length = sizes.length

namespace TensorImpl

variable (t : TensorImpl)

def dim : ℕ := t.sizes.length

def size (i : ℕ) : ℕ := t.sizes.getD i 0

def stride (i : ℕ) : ℕ := t.strides.getD i 0

/-- The index tuples are in bijection with the offsets below the number of elements. -/
def NonOverlappingAndDense : Prop :=
  Set.BijOn (fun idx => dot idx t.strides) {idx | InBounds idx t.sizes}
    (Set.Iio t.sizes.prod)

def sortsBefore (a b : ℕ) : Bool :=
  if t.size a < 2 then false
  else if t.size b < 2 then true
  else t.stride a < t.stride b

/-- `perm` after `std::sort`, which may leave dimensions that compare equal in any order. -/
structure Sorted (perm : List ℕ) : Prop where
  isPerm : perm.Perm (List.range t.dim)
  sorted : perm.Pairwise fun a b => t.sortsBefore b a = false

/-- The conversion of a 64-bit number to `int`. -/
def toInt (x : ℤ) : ℤ := x.bmod (2 ^ 32)

/-- The loop over the sorted dimensions. -/
def requireLoop : List ℕ → ℤ → Bool
  | [], _ => true
  | i :: perm, require_stride =>
    if t.size i < 2 then true
    else if (t.stride i : ℤ) ≠ require_stride then false
    else requireLoop perm (toInt (require_stride * t.size i))

def computeNonOverlappingAndDense (perm : List ℕ) : Bool :=
  if t.dim = 1 then t.size 0 < 2 || t.stride 0 == 1
  else t.requireLoop perm 1

/-! ## Along the sorted dimensions -/

/-- The dimensions of size two and more. -/
def largeDims (perm : List ℕ) : List ℕ :=
  perm.filter fun i => 2 ≤ t.size i

def largeSizes (perm : List ℕ) : List ℕ :=
  (t.largeDims perm).map t.size

def largeStrides (perm : List ℕ) : List ℤ :=
  (t.largeDims perm).map fun i => (t.stride i : ℤ)

def axis (i : ℕ) : Axis ℕ := ⟨t.size i, t.stride i⟩

variable {t} {perm : List ℕ}

theorem dense_map_axis (dims : List ℕ) (z : ℕ) : Lib.LoopNest.Dense z (dims.map t.axis) ↔
    dims.map (fun i => (t.stride i : ℤ)) = compatibleStride (dims.map t.size) z := by
  induction dims generalizing z with
  | nil => simp [Lib.LoopNest.Dense, compatibleStride]
  | cons i dims ih =>
    have hnext : t.size i • z = z * t.size i := Nat.mul_comm _ _
    simp only [map_cons, Lib.LoopNest.Dense, compatibleStride, cons.injEq, axis, Nat.cast_inj]
    rw [hnext]
    exact and_congr_right fun _ => (ih _).trans (by rw [Nat.cast_mul])

theorem map_axis_range : (List.range t.dim).map (fun i => (t.axis i).size) = t.sizes ∧
    (List.range t.dim).map (fun i => (t.axis i).stride) = t.strides := by
  constructor
  · refine ext_getElem (by simp [dim]) fun i h₁ h₂ => ?_
    simp [axis, size, h₂]
  · refine ext_getElem (by simp [dim, t.sameRank]) fun i h₁ h₂ => ?_
    simp [axis, stride, h₂]

theorem Sorted.largeDims (hperm : t.Sorted perm) :
    (t.largeDims perm).Pairwise fun a b => t.stride a ≤ t.stride b := by
  refine (hperm.sorted.filter _).imp_of_mem fun {a b} ha hb h => ?_
  have ha' : 2 ≤ t.size a := of_decide_eq_true (mem_filter.mp ha).2
  have hb' : 2 ≤ t.size b := of_decide_eq_true (mem_filter.mp hb).2
  rw [sortsBefore, if_neg (by omega), if_neg (by omega)] at h
  exact Nat.le_of_not_lt (of_decide_eq_false h)

theorem nonOverlappingAndDense_iff_offsets (hsizes : ∀ s ∈ t.sizes, 1 ≤ s)
    (hperm : perm.Perm (List.range t.dim)) : t.NonOverlappingAndDense ↔
      (offsets ((t.largeDims perm).map t.axis)).Perm
        (List.range (volume ((t.largeDims perm).map t.axis))) := by
  have hwalk : SameWalk (perm.map t.axis) ((t.largeDims perm).map t.axis) := by
    have hfilter : (perm.map t.axis).filter (fun a => a.size ≠ 1) =
        (t.largeDims perm).map t.axis := by
      rw [filter_map, TensorImpl.largeDims]
      refine congrArg _ (filter_congr fun i hi => ?_)
      have hdim : i < t.sizes.length := mem_range.mp (hperm.mem_iff.mp hi)
      have hpos : 1 ≤ t.size i := by
        rw [size, getD_eq_getElem _ _ hdim]
        exact hsizes _ (getElem_mem hdim)
      rw [Function.comp, decide_eq_decide, axis]
      dsimp only
      omega
    exact hfilter ▸ sameWalk_filter _
  have hall : (perm.map t.axis).Perm ((List.range t.dim).map t.axis) := hperm.map _
  have hvolume : volume (perm.map t.axis) = t.sizes.prod := by
    rw [volume, (hall.map _).prod_eq, map_map]
    exact congrArg _ map_axis_range.1
  have hbij := bijOn_iff ((List.range t.dim).map t.axis)
  simp only [map_map, Function.comp_def, map_axis_range, volume] at hbij
  rw [← hwalk.offsets_eq, ← hwalk.1, hvolume]
  exact hbij.trans ⟨(offsets_perm hall).trans, (offsets_perm hall).symm.trans⟩

theorem two_le_of_largeDims {a : Axis ℕ} (ha : a ∈ (t.largeDims perm).map t.axis) :
    2 ≤ a.size := by
  obtain ⟨i, hi, rfl⟩ := mem_map.mp ha
  exact of_decide_eq_true (mem_filter.mp hi).2

/-- A layout covers the offsets when its strides are the products of the sizes before. -/
theorem dense_iff_strides (hsizes : ∀ s ∈ t.sizes, 1 ≤ s) (hperm : perm.Perm (List.range t.dim))
    (hsorted : (t.largeDims perm).Pairwise fun a b => t.stride a ≤ t.stride b) :
    t.NonOverlappingAndDense ↔ t.largeStrides perm = compatibleStride (t.largeSizes perm) 1 := by
  rw [nonOverlappingAndDense_iff_offsets hsizes hperm,
    offsets_perm_range_iff (fun _ => two_le_of_largeDims) (pairwise_map.mpr hsorted)]
  exact dense_map_axis _ 1

/-! ## The running product -/

theorem toInt_eq_iff {x : ℤ} (hx : 0 < x) : toInt x = x ↔ x < 2 ^ 31 := by
  unfold toInt
  constructor
  · intro h
    have hlt := Int.bmod_lt (x := x) (m := 2 ^ 32) (by norm_num)
    omega
  · intro h
    exact Int.bmod_eq_of_le (by omega) (by omega)

theorem Sorted.eq_nil_of_small {i : ℕ} (h : ∀ j ∈ perm, t.sortsBefore j i = false)
    (hi : t.size i < 2) : t.largeDims perm = [] := by
  refine filter_eq_nil_iff.mpr fun j hj hlarge => ?_
  have hj := h j hj
  rw [sortsBefore, if_neg (Nat.not_lt.mpr (of_decide_eq_true hlarge)), if_pos hi] at hj
  cases hj

theorem requireLoop_iff (hsorted : perm.Pairwise fun a b => t.sortsBefore b a = false) (z : ℤ) :
    t.requireLoop perm (toInt z) = true ↔
      t.largeStrides perm = (compatibleStride (t.largeSizes perm) z).map toInt := by
  unfold largeStrides largeSizes
  induction perm generalizing z with
  | nil => simp [requireLoop, largeDims, compatibleStride]
  | cons i perm ih =>
    obtain ⟨hhead, htail⟩ := pairwise_cons.mp hsorted
    by_cases hi : t.size i < 2
    · have hnil : t.largeDims (i :: perm) = [] :=
        Sorted.eq_nil_of_small (forall_mem_cons.mpr ⟨by simp [sortsBefore, hi], hhead⟩) hi
      simp [requireLoop, hi, hnil, compatibleStride]
    · have hcons : t.largeDims (i :: perm) = i :: t.largeDims perm :=
        filter_cons_of_pos (decide_eq_true (Nat.le_of_not_lt hi))
      have hproduct : toInt (toInt z * t.size i) = toInt (z * t.size i) :=
        Int.bmod_mul_bmod
      rw [requireLoop, if_neg hi, hcons, hproduct]
      simp only [map_cons, compatibleStride, cons.injEq]
      by_cases hstride : (t.stride i : ℤ) = toInt z
      · rw [if_neg (by simpa using hstride), ih htail]
        exact (and_iff_right hstride).symm
      · rw [if_pos hstride]
        simp [hstride]

theorem map_toInt_eq_iff {sizes : List ℕ} {z : ℤ} (hz : 0 < z) (hsizes : ∀ s ∈ sizes, 0 < s)
    (hne : sizes ≠ []) : (compatibleStride sizes z).map toInt = compatibleStride sizes z ↔
      z * (sizes.dropLast.prod : ℕ) < 2 ^ 31 := by
  induction sizes generalizing z with
  | nil => exact absurd rfl hne
  | cons s sizes ih =>
    simp only [compatibleStride, map_cons, cons.injEq, toInt_eq_iff hz]
    cases sizes with
    | nil => simp [compatibleStride]
    | cons s' sizes =>
      have hs : 0 < s := hsizes s mem_cons_self
      have hnext := ih (z := z * s) (Int.mul_pos hz (Int.natCast_pos.mpr hs))
        (fun t ht => hsizes t (mem_cons_of_mem _ ht))
        (cons_ne_nil _ _)
      rw [hnext, dropLast_cons_of_ne_nil (cons_ne_nil _ _), prod_cons, Nat.cast_mul, mul_assoc]
      refine and_iff_right_of_imp fun h => lt_of_le_of_lt ?_ h
      have hrest : 0 < ((s' :: sizes).dropLast.prod : ℕ) :=
        List.prod_pos fun t ht => hsizes t (mem_cons_of_mem _ (dropLast_subset _ ht))
      exact le_mul_of_one_le_right hz.le (by exact_mod_cast Nat.mul_pos hs hrest)

theorem compute_iff_strides (hperm : t.Sorted perm) :
    t.computeNonOverlappingAndDense perm = true ↔
      t.largeStrides perm = (compatibleStride (t.largeSizes perm) 1).map toInt := by
  have hone : toInt 1 = 1 := (toInt_eq_iff Int.one_pos).mpr (by norm_num)
  have hloop := requireLoop_iff hperm.sorted 1
  rw [hone] at hloop
  rw [← hloop, computeNonOverlappingAndDense]
  split
  · next hdim =>
    have hrange : perm = [0] := perm_singleton.mp (by simpa [hdim] using hperm.isPerm)
    rw [hrange]
    by_cases hsize : t.size 0 < 2
    · simp [requireLoop, hsize]
    · simp [requireLoop, hsize]
  · exact Iff.rfl

/-- **`compute_non_overlapping_and_dense`** is right exactly where the products it compares
with stay below `2 ^ 31`, or make no difference. -/
theorem computeNonOverlappingAndDense_iff (t : TensorImpl) (hsizes : ∀ s ∈ t.sizes, 1 ≤ s)
    {perm : List ℕ} (hperm : t.Sorted perm) :
    (t.computeNonOverlappingAndDense perm = true ↔ t.NonOverlappingAndDense) ↔
      (t.largeSizes perm).dropLast.prod < 2 ^ 31 ∨
        t.largeStrides perm ≠ compatibleStride (t.largeSizes perm) 1 ∧
          t.largeStrides perm ≠ (compatibleStride (t.largeSizes perm) 1).map toInt := by
  rw [compute_iff_strides hperm, dense_iff_strides hsizes hperm.isPerm hperm.largeDims]
  have hproducts : (t.largeSizes perm).dropLast.prod < 2 ^ 31 ↔
      (compatibleStride (t.largeSizes perm) 1).map toInt =
        compatibleStride (t.largeSizes perm) 1 := by
    by_cases hnil : t.largeSizes perm = []
    · simp [hnil, compatibleStride]
    · have hlarge : ∀ s ∈ t.largeSizes perm, 0 < s := by
        intro s hs
        obtain ⟨i, hi, rfl⟩ := mem_map.mp hs
        have := of_decide_eq_true (mem_filter.mp hi).2
        omega
      rw [map_toInt_eq_iff Int.one_pos hlarge hnil, Int.one_mul]
      norm_cast
  rw [hproducts]
  constructor
  · intro h
    by_cases hstrides : t.largeStrides perm = compatibleStride (t.largeSizes perm) 1
    · exact .inl ((h.mpr hstrides).symm.trans hstrides)
    · exact .inr ⟨hstrides, fun hcut => hstrides (h.mp hcut)⟩
  · rintro (h | ⟨hproducts, hcut⟩)
    · rw [h]
    · exact iff_of_false hcut hproducts

/-- A tensor in row-major order is dense. -/
theorem computeNonOverlappingAndDense_rowMajor :
    let t : TensorImpl := ⟨[2, 3], [3, 1], rfl⟩
    t.Sorted [1, 0] ∧
      (t.computeNonOverlappingAndDense [1, 0] = true ↔ t.NonOverlappingAndDense) := by
  intro t
  have hsorted : t.Sorted [1, 0] := ⟨by decide, by decide⟩
  exact ⟨hsorted, (computeNonOverlappingAndDense_iff t (by decide) hsorted).mpr (.inl (by decide))⟩

/-- The columns of a tensor with `2 ^ 32` elements: the product is cut to zero. -/
theorem computeNonOverlappingAndDense_columns :
    let t : TensorImpl := ⟨[2 ^ 31, 2], [1, 2 ^ 31], rfl⟩
    t.Sorted [0, 1] ∧
      t.computeNonOverlappingAndDense [0, 1] = false ∧ t.NonOverlappingAndDense := by
  intro t
  have hsorted : t.Sorted [0, 1] := ⟨by decide, by decide⟩
  exact ⟨hsorted, by decide, (dense_iff_strides (by decide) hsorted.isPerm hsorted.largeDims).mpr
    (by decide)⟩

end TensorImpl
end PyTorchCore.Core
