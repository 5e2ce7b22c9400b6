import Mathlib.Data.Int.ConditionallyCompleteOrder
import Mathlib.Order.ConditionallyCompleteLattice.Basic
import Mathlib.Algebra.BigOperators.Ring.List
import Mathlib.Algebra.Order.BigOperators.Group.Finset
import Mathlib.Algebra.Order.Ring.Int
import PyTorchCore.Lib.MultiIndex
import PyTorchCore.TensorIterator.Iterator

/-!
# 32-bit indexing

`can_use_32bit_indexing` adds up the signed extents of every operand, so that dimensions of
opposite sign cancel.  Sums and products are 64-bit integers.
-/

namespace PyTorchCore.TensorIterator

open Lib Finset

/-- The result of an operation on 64-bit integers. -/
def int64 (x : ℤ) : ℤ := x.bmod (2 ^ 64)

def int32Max : ℤ := 2 ^ 31 - 1

/-- The extent of an operand in a dimension. -/
def extent (shape_ : List ℕ) (stride_bytes : List ℤ) (dim : ℕ) : ℤ :=
  ((shape_.getD dim 0 : ℤ) - 1) * stride_bytes.getD dim 0

def maxOffset (shape_ : List ℕ) (stride_bytes : List ℤ) : ℤ :=
  (List.range shape_.length).foldl
    (fun max_offset dim => int64 (max_offset + int64 (extent shape_ stride_bytes dim))) 1

def canUse32bitIndexing (it : TensorIteratorBase) : Bool :=
  if int64 it.numel > int32Max then false
  else it.operands_.all fun op => !decide (maxOffset it.shape_ op.stride_bytes > int32Max)

/-- The byte offset of an index tuple in its first dimensions. -/
def partialOffset (stride_bytes : List ℤ) (idx : List ℕ) (dims : ℕ) : ℤ :=
  ∑ dim ∈ range dims, idx.getD dim 0 * stride_bytes.getD dim 0

/-- Elements and offsets can be counted with 32 bits. -/
structure IndexesIn32 (it : TensorIteratorBase) : Prop where
  numel : it.numel ≤ int32Max
  offsets : ∀ op ∈ it.operands_, ∀ idx, InBounds idx it.shape_ → ∀ dims ≤ it.ndim,
    partialOffset op.stride_bytes idx dims ∈ Set.Icc (-2 ^ 31) int32Max

section Offsets

variable {shape_ : List ℕ} {stride_bytes : List ℤ}

theorem maxOffset_eq : maxOffset shape_ stride_bytes =
    int64 (1 + ∑ dim ∈ range shape_.length, extent shape_ stride_bytes dim) := by
  unfold maxOffset
  induction shape_.length with
  | zero => rfl
  | succ n ih =>
    rw [List.range_succ, List.foldl_append, ih, sum_range_succ]
    simp only [List.foldl_cons, List.foldl_nil, int64, Int.bmod_add_bmod, Int.add_bmod_bmod]
    rw [add_assoc]

/-- A partial offset lies between the sums of the extents of one sign. -/
theorem partialOffset_mem {idx : List ℕ} (hidx : InBounds idx shape_) {dims : ℕ}
    (hdims : dims ≤ shape_.length) : partialOffset stride_bytes idx dims ∈
      Set.Icc (∑ dim ∈ range shape_.length, min 0 (extent shape_ stride_bytes dim))
        (∑ dim ∈ range shape_.length, max 0 (extent shape_ stride_bytes dim)) := by
  have hsub : range dims ⊆ range shape_.length := range_subset_range.mpr hdims
  have hterm : ∀ dim ∈ range dims, (idx.getD dim 0 : ℤ) * stride_bytes.getD dim 0 ∈
      Set.Icc (min 0 (extent shape_ stride_bytes dim))
        (max 0 (extent shape_ stride_bytes dim)) := by
    intro dim hdim
    have hlt := (inBounds_iff.mp hidx).2 dim (mem_range.mp (hsub hdim))
    have hle : (idx.getD dim 0 : ℤ) ≤ shape_.getD dim 0 - 1 := by omega
    have hnonneg : (0 : ℤ) ≤ idx.getD dim 0 := Int.natCast_nonneg _
    rcases le_total 0 (stride_bytes.getD dim 0) with hpos | hneg
    · exact ⟨(min_le_left _ _).trans (mul_nonneg hnonneg hpos),
        (mul_le_mul_of_nonneg_right hle hpos).trans (le_max_right _ _)⟩
    · exact ⟨(min_le_right _ _).trans (mul_le_mul_of_nonpos_right hle hneg),
        (mul_nonpos_of_nonneg_of_nonpos hnonneg hneg).trans (le_max_left _ _)⟩
  constructor
  · calc ∑ dim ∈ range shape_.length, min 0 (extent shape_ stride_bytes dim)
        ≤ ∑ dim ∈ range dims, min 0 (extent shape_ stride_bytes dim) :=
          sum_le_sum_of_subset_of_nonpos' hsub fun _ _ _ => min_le_left _ _
      _ ≤ partialOffset stride_bytes idx dims := sum_le_sum fun dim hdim => (hterm dim hdim).1
  · calc partialOffset stride_bytes idx dims
        ≤ ∑ dim ∈ range dims, max 0 (extent shape_ stride_bytes dim) :=
          sum_le_sum fun dim hdim => (hterm dim hdim).2
      _ ≤ ∑ dim ∈ range shape_.length, max 0 (extent shape_ stride_bytes dim) :=
          sum_le_sum_of_subset_of_nonneg hsub fun _ _ _ => le_max_left _ _

/-- The index tuple with the last index in some dimensions, and the first in the others. -/
def cornerIndex (shape_ : List ℕ) (last : ℕ → Bool) : List ℕ :=
  (List.range shape_.length).map fun dim => if last dim then shape_.getD dim 0 - 1 else 0

theorem getD_cornerIndex {dim : ℕ} (hdim : dim < shape_.length) (last : ℕ → Bool) :
    (cornerIndex shape_ last).getD dim 0 = if last dim then shape_.getD dim 0 - 1 else 0 := by
  simp [cornerIndex, List.getD_eq_getElem?_getD, List.getElem?_range hdim]

theorem size_pos (hshape : 0 ∉ shape_) {dim : ℕ} (hdim : dim < shape_.length) :
    1 ≤ shape_.getD dim 0 := by
  rw [List.getD_eq_getElem _ _ hdim]
  exact Nat.pos_of_ne_zero fun h => hshape (h ▸ List.getElem_mem hdim)

theorem inBounds_cornerIndex (hshape : 0 ∉ shape_) (last : ℕ → Bool) :
    InBounds (cornerIndex shape_ last) shape_ := by
  refine inBounds_iff.mpr ⟨by simp [cornerIndex], fun dim hdim => ?_⟩
  have hpos := size_pos hshape hdim
  rw [getD_cornerIndex hdim]
  split
  · omega
  · omega

/-- The offset of a corner is the sum of the extents of its dimensions. -/
theorem partialOffset_cornerIndex (hshape : 0 ∉ shape_) (last : ℕ → Bool) :
    partialOffset stride_bytes (cornerIndex shape_ last) shape_.length =
      ∑ dim ∈ range shape_.length, if last dim then extent shape_ stride_bytes dim else 0 := by
  refine sum_congr rfl fun dim hdim => ?_
  have hdim : dim < shape_.length := mem_range.mp hdim
  rw [getD_cornerIndex hdim]
  split
  · rw [extent, Nat.cast_sub (size_pos hshape hdim), Nat.cast_one]
  · rw [Nat.cast_zero, zero_mul]

end Offsets

section Iterator

variable (it : TensorIteratorBase)

/-- The extents of one sign of an operand stay within 32 bits. -/
def ExtentsIn32 (op : OperandInfo) : Prop :=
  -2 ^ 31 ≤ ∑ dim ∈ range it.ndim, min 0 (extent it.shape_ op.stride_bytes dim) ∧
    ∑ dim ∈ range it.ndim, max 0 (extent it.shape_ op.stride_bytes dim) ≤ int32Max

/-- The byte offset of the last index tuple. -/
def lastOffset (op : OperandInfo) : ℤ :=
  partialOffset op.stride_bytes (cornerIndex it.shape_ fun _ => true) it.ndim

/-- The number of elements or the last offset of an operand is above the limit, in 64 bits. -/
def FarElement : Prop :=
  int32Max < int64 it.numel ∨ ∃ op ∈ it.operands_, int32Max < int64 (1 + lastOffset it op)

/-- These numbers are exact in 64 bits, and an operand that has a negative extent keeps the
extents of one sign within 32 bits. -/
structure SignsIn32 : Prop where
  numel : int64 it.numel = it.numel
  offsets : ∀ op ∈ it.operands_, int64 (1 + lastOffset it op) = 1 + lastOffset it op
  negative : ∀ op ∈ it.operands_,
    (∃ dim ∈ range it.ndim, extent it.shape_ op.stride_bytes dim < 0) → ExtentsIn32 it op

variable {it}

/-- The sums of the extents of one sign are offsets of corners, and bound all others. -/
theorem indexesIn32_iff (hshape : 0 ∉ it.shape_) : IndexesIn32 it ↔
    it.numel ≤ int32Max ∧ ∀ op ∈ it.operands_, ExtentsIn32 it op := by
  constructor
  · intro h
    refine ⟨h.numel, fun op hop => ?_⟩
    have hcorner := fun last => h.offsets op hop _ (inBounds_cornerIndex hshape last) it.ndim le_rfl
    simp only [TensorIteratorBase.ndim, partialOffset_cornerIndex hshape] at hcorner
    constructor
    · refine (hcorner fun dim => decide (extent it.shape_ op.stride_bytes dim ≤ 0)).1.trans_eq ?_
      refine sum_congr rfl fun dim _ => ?_
      rw [min_comm, min_def]
      simp
    · refine le_of_eq_of_le ?_
        (hcorner fun dim => decide (0 ≤ extent it.shape_ op.stride_bytes dim)).2
      refine sum_congr rfl fun dim _ => ?_
      rw [max_def]
      simp
  · rintro ⟨hnumel, h⟩
    refine ⟨hnumel, fun op hop idx hidx dims hdims => ?_⟩
    have hmem := @partialOffset_mem _ op.stride_bytes _ hidx _ hdims
    obtain ⟨hlow, hhigh⟩ := h op hop
    exact ⟨hlow.trans hmem.1, hmem.2.trans hhigh⟩

theorem indexesIn32_of_empty (hshape : 0 ∈ it.shape_) : IndexesIn32 it := by
  refine ⟨?_, fun op _ idx hidx => ?_⟩
  · rw [TensorIteratorBase.numel, List.prod_eq_zero hshape]
    decide
  · obtain ⟨dim, hdim, hsize⟩ := List.mem_iff_getElem.mp hshape
    have hlt := (inBounds_iff.mp hidx).2 dim hdim
    rw [List.getD_eq_getElem _ _ hdim, hsize] at hlt
    exact absurd hlt (Nat.not_lt_zero _)

theorem lastOffset_eq (hshape : 0 ∉ it.shape_) (op : OperandInfo) :
    lastOffset it op = ∑ dim ∈ range it.ndim, extent it.shape_ op.stride_bytes dim :=
  partialOffset_cornerIndex hshape fun _ => true

theorem canUse32bitIndexing_eq_true (hshape : 0 ∉ it.shape_) :
    canUse32bitIndexing it = true ↔ ¬ FarElement it := by
  unfold canUse32bitIndexing
  split
  · next h => simp [FarElement, h]
  · next h =>
    simp only [List.all_eq_true, Bool.not_eq_true', decide_eq_false_iff_not, maxOffset_eq,
      FarElement, lastOffset_eq hshape, not_or, not_exists, not_and]
    exact (and_iff_right h).symm

theorem lastOffset_split (hshape : 0 ∉ it.shape_) (op : OperandInfo) : lastOffset it op =
    ∑ dim ∈ range it.ndim, min 0 (extent it.shape_ op.stride_bytes dim) +
      ∑ dim ∈ range it.ndim, max 0 (extent it.shape_ op.stride_bytes dim) := by
  rw [lastOffset_eq hshape, ← sum_add_distrib]
  exact sum_congr rfl fun dim _ => by rw [min_add_max, zero_add]

/-- Small numbers are exact in 64 bits. -/
theorem ExtentsIn32.exact {op : OperandInfo} (h : ExtentsIn32 it op) (hshape : 0 ∉ it.shape_) :
    int64 (1 + lastOffset it op) = 1 + lastOffset it op := by
  have hneg : ∑ dim ∈ range it.ndim, min 0 (extent it.shape_ op.stride_bytes dim) ≤ 0 :=
    sum_nonpos fun _ _ => min_le_left _ _
  have hpos : 0 ≤ ∑ dim ∈ range it.ndim, max 0 (extent it.shape_ op.stride_bytes dim) :=
    sum_nonneg fun _ _ => le_max_left _ _
  obtain ⟨hlow, hhigh⟩ := h
  rw [lastOffset_split hshape]
  rw [int32Max] at hhigh
  exact Int.bmod_eq_of_le (by omega) (by omega)

/-- An operand without negative extents is as large as its last offset. -/
theorem extentsIn32_of_nonneg {op : OperandInfo} (hshape : 0 ∉ it.shape_)
    (hnonneg : ∀ dim ∈ range it.ndim, 0 ≤ extent it.shape_ op.stride_bytes dim)
    (hlast : 1 + lastOffset it op ≤ int32Max) : ExtentsIn32 it op := by
  have hneg : ∑ dim ∈ range it.ndim, min 0 (extent it.shape_ op.stride_bytes dim) = 0 :=
    sum_eq_zero fun dim hdim => min_eq_left (hnonneg dim hdim)
  rw [lastOffset_split hshape, hneg, zero_add] at hlast
  exact ⟨by rw [hneg]; decide, by omega⟩

/-- **`can_use_32bit_indexing`** is right exactly when there are no elements, an element is so far
away that it is seen, or the signs hide nothing. -/
theorem canUse32bitIndexing_iff (it : TensorIteratorBase) :
    (canUse32bitIndexing it = true → IndexesIn32 it) ↔
      0 ∈ it.shape_ ∨ FarElement it ∨ SignsIn32 it := by
  by_cases hshape : 0 ∈ it.shape_
  · exact iff_of_true (fun _ => indexesIn32_of_empty hshape) (.inl hshape)
  rw [canUse32bitIndexing_eq_true hshape, or_iff_right hshape]
  constructor
  · intro h
    by_cases hfar : FarElement it
    · exact .inl hfar
    · obtain ⟨hnumel, hextents⟩ := (indexesIn32_iff hshape).mp (h hfar)
      refine .inr ⟨?_, fun op hop => (hextents op hop).exact hshape, fun op hop _ =>
        hextents op hop⟩
      rw [int32Max] at hnumel
      exact Int.bmod_eq_of_le (by omega) (by omega)
  · rintro hright hfar
    have hsigns := hright.resolve_left hfar
    rw [FarElement, not_or, hsigns.numel, not_lt] at hfar
    refine (indexesIn32_iff hshape).mpr ⟨hfar.1, fun op hop => ?_⟩
    by_cases hnegative : ∃ dim ∈ range it.ndim, extent it.shape_ op.stride_bytes dim < 0
    · exact hsigns.negative op hop hnegative
    · push Not at hnegative
      have hlast := fun h => hfar.2 ⟨op, hop, h⟩
      rw [hsigns.offsets op hop, imp_false, not_lt] at hlast
      exact extentsIn32_of_nonneg hshape hnegative hlast

end Iterator

/-- The iterator of a flip of `2 ^ 15` by `2 ^ 15` overlapping elements of four bytes. -/
def flipped : TensorIteratorBase where
  shape_ := [2 ^ 15, 2 ^ 15]
  perm_ := [1, 0]
  operands_ := [⟨none, Nat.succPNat 3, true, false, false, [-4, -2 ^ 17]⟩,
    ⟨none, Nat.succPNat 3, false, false, false, [4, 4]⟩,
    ⟨none, Nat.succPNat 3, false, false, false, [0, 0]⟩]
  num_outputs_ := 1
  is_reduction_ := false
  enforce_linear_iteration_ := false
  all_ops_same_shape_ := true
  has_coalesced_dimensions_ := false

/-- An operand with a negative stride. -/
theorem canUse32bitIndexing_flipped :
    canUse32bitIndexing flipped = true ∧ ¬ IndexesIn32 flipped := by
  refine ⟨by decide, fun h => ?_⟩
  have hlast := h.offsets _ List.mem_cons_self [2 ^ 15 - 1, 2 ^ 15 - 1]
    (.cons (by decide) (.cons (by decide) .nil)) 2 le_rfl
  exact absurd hlast.1 (by decide)

end PyTorchCore.TensorIterator
