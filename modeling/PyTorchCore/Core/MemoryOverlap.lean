import Mathlib.Data.Set.Lattice
import Mathlib.Order.CompletePartialOrder
import Mathlib.Algebra.BigOperators.Ring.List
import PyTorchCore.Core.DenseLayout

/-!
# Overlap of two tensors

`get_overlap_status` compares the first and the last byte of two dense tensors, and their
strides.  It looks neither at the sizes nor at the item sizes, so that it takes two views of
the same bytes for full aliases.
-/

namespace PyTorchCore.Core

open List
open Lib (Axis InBounds inBounds_iff)
open Lib.LoopNest (dot)

inductive MemOverlapStatus where
  | FULL
  | PARTIAL
  | NO
  | TOO_HARD
  deriving DecidableEq

/-- A tensor on a storage.  The offset counts elements. -/
structure StridedTensor extends TensorImpl where
  itemsize : ℕ+
  storage : Option ℕ
  storage_offset : ℕ

namespace StridedTensor

variable (t : StridedTensor)

def numel : ℕ := t.sizes.prod

/-- The first byte, from the start of the storage. -/
def begin_ : ℕ := t.storage_offset * t.itemsize

def end_ : ℕ := t.begin_ + t.numel * t.itemsize

/-- The bytes of element number `k` in memory order. -/
def elementBytes (k : ℕ) : Set (ℕ × ℕ) :=
  {p | t.storage = some p.1 ∧ p.2 ∈ Set.Ico (t.begin_ + k * t.itemsize)
    (t.begin_ + (k + 1) * t.itemsize)}

/-- The bytes that the elements of a tensor take up. -/
def bytes : Set (ℕ × ℕ) :=
  {p | ∃ idx, InBounds idx t.sizes ∧ p ∈ t.elementBytes (dot idx t.strides)}

/-- The tensors have the same elements in the same places. -/
structure SameElements (a b : StridedTensor) : Prop where
  numel : a.numel = b.numel
  bytes : ∀ k < a.numel, a.elementBytes k = b.elementBytes k
  index : ∀ k < a.numel, ∀ idx, InBounds idx a.sizes ∧ dot idx a.strides = k ↔
    InBounds idx b.sizes ∧ dot idx b.strides = k

end StridedTensor

open StridedTensor

/-- The tensors are given by their addresses. -/
def getOverlapStatus {ι : Type} [DecidableEq ι] (heap : ι → StridedTensor)
    (isNonOverlappingAndDense : StridedTensor → Bool) (a b : ι) : MemOverlapStatus :=
  if a = b then .FULL
  else if (heap a).numel = 0 ∨ (heap b).numel = 0 then .NO
  else if !isNonOverlappingAndDense (heap a) || !isNonOverlappingAndDense (heap b) then .TOO_HARD
  else if (heap a).storage.isSome ∧ (heap a).storage = (heap b).storage then
    if (heap a).begin_ = (heap b).begin_ ∧ (heap a).end_ = (heap b).end_ then
      if (heap a).strides = (heap b).strides then .FULL else .PARTIAL
    else if (heap a).begin_ < (heap b).end_ ∧ (heap b).begin_ < (heap a).end_ then .PARTIAL
    else .NO
  else .NO

def assertNoPartialOverlap (status : MemOverlapStatus) : Except String Unit :=
  if status ≠ .PARTIAL then .ok ()
  else .error ("unsupported operation: some elements of the input tensor and " ++
    "the written-to tensor refer to a single memory location. " ++
    "Please clone() the tensor before performing the operation.")

/-- The status says what the tensors share. -/
structure StatusRight (a b : StridedTensor) (status : MemOverlapStatus) : Prop where
  apart : status = .NO → Disjoint a.bytes b.bytes
  shared : status = .PARTIAL → (a.bytes ∩ b.bytes).Nonempty
  full : status = .FULL → a.SameElements b
  asserted : a.NonOverlappingAndDense → b.NonOverlappingAndDense →
    assertNoPartialOverlap status = .ok () → a.SameElements b ∨ Disjoint a.bytes b.bytes

section Bytes

variable {t a b : StridedTensor}

/-- A dense tensor takes up the bytes from the first to the last. -/
theorem mem_bytes_iff (h : t.NonOverlappingAndDense) {p : ℕ × ℕ} :
    p ∈ t.bytes ↔ t.storage = some p.1 ∧ p.2 ∈ Set.Ico t.begin_ t.end_ := by
  have hitem : 0 < (t.itemsize : ℕ) := t.itemsize.pos
  constructor
  · rintro ⟨idx, hidx, hstorage, hlow, hhigh⟩
    have hk : dot idx t.strides < t.numel := h.mapsTo hidx
    have hle : (dot idx t.strides + 1) * t.itemsize ≤ t.numel * t.itemsize :=
      Nat.mul_le_mul_right _ hk
    exact ⟨hstorage, by omega, by rw [end_]; omega⟩
  · rintro ⟨hstorage, hlow, hhigh⟩
    -- the element is found by division
    have hk : (p.2 - t.begin_) / t.itemsize < t.numel := by
      rw [Nat.div_lt_iff_lt_mul hitem]
      rw [end_] at hhigh
      omega
    obtain ⟨idx, hidx, hdot⟩ := h.surjOn hk
    refine ⟨idx, hidx, hstorage, ?_⟩
    simp only at hdot
    have hdiv := Nat.div_add_mod' (p.2 - t.begin_) t.itemsize
    have hmod := Nat.mod_lt (p.2 - t.begin_) hitem
    rw [hdot, Set.mem_Ico, Nat.add_mul]
    omega

theorem StridedTensor.SameElements.of_eq (hsizes : a.sizes = b.sizes)
    (hstrides : a.strides = b.strides)
    (hitem : a.itemsize = b.itemsize) (hstorage : a.storage = b.storage)
    (hbegin : a.begin_ = b.begin_) : a.SameElements b := by
  refine ⟨congrArg List.prod hsizes, fun k _ => ?_, fun k _ idx => by rw [hsizes, hstrides]⟩
  rw [elementBytes, elementBytes, hstorage, hbegin, hitem]

theorem sizes_le (hpos : 0 ∉ a.sizes) (h : ∀ idx, InBounds idx a.sizes → InBounds idx b.sizes) :
    a.sizes.length = b.sizes.length ∧
      ∀ d < a.sizes.length, a.sizes.getD d 0 ≤ b.sizes.getD d 0 := by
  have hlast : InBounds (a.sizes.map (· - 1)) a.sizes := by
    refine inBounds_iff.mpr ⟨length_map _, fun d hd => ?_⟩
    have hne : a.sizes[d] ≠ 0 := fun hzero => hpos (hzero ▸ getElem_mem hd)
    simp only [getD_eq_getElem?_getD, getElem?_map, getElem?_eq_getElem hd]
    simp only [Option.map_some, Option.getD_some]
    omega
  obtain ⟨hlength, hlt⟩ := inBounds_iff.mp (h _ hlast)
  rw [length_map] at hlength
  refine ⟨hlength, fun d hd => ?_⟩
  have hd' := hlt d (hlength ▸ hd)
  simp only [getD_eq_getElem?_getD, getElem?_map, getElem?_eq_getElem hd] at hd' ⊢
  simp only [Option.map_some, Option.getD_some] at hd' ⊢
  omega

/-- Dense tensors with the same elements have the same sizes. -/
theorem StridedTensor.SameElements.sizes_eq (ha : a.NonOverlappingAndDense)
    (hb : b.NonOverlappingAndDense)
    (hnumel : a.numel ≠ 0) (h : a.SameElements b) : a.sizes = b.sizes := by
  have hbounds : ∀ idx, InBounds idx a.sizes ↔ InBounds idx b.sizes := by
    intro idx
    constructor
    · intro hidx
      exact ((h.index _ (ha.mapsTo hidx) idx).mp ⟨hidx, rfl⟩).1
    · intro hidx
      have hk : dot idx b.strides < a.numel := h.numel ▸ hb.mapsTo hidx
      exact ((h.index _ hk idx).mpr ⟨hidx, rfl⟩).1
  have hab := sizes_le (fun h0 => hnumel (List.prod_eq_zero_iff.mpr h0)) fun idx => (hbounds idx).mp
  have hba := sizes_le (fun h0 => hnumel (h.numel.trans (List.prod_eq_zero_iff.mpr h0)))
    fun idx => (hbounds idx).mpr
  exact Lib.ext_getD hab.1 fun d hd => le_antisymm (hab.2 d hd) (hba.2 d (hab.1 ▸ hd))

theorem bytes_of_numel_eq_zero (h : t.numel = 0) : t.bytes = ∅ := by
  refine Set.eq_empty_of_forall_notMem ?_
  rintro p ⟨idx, hidx, -⟩
  exact absurd h hidx.prod_pos.ne'

theorem begin_lt_end (h : t.numel ≠ 0) : t.begin_ < t.end_ :=
  Nat.lt_add_of_pos_right (Nat.mul_pos (Nat.pos_of_ne_zero h) t.itemsize.pos)

section Dense

variable (ha : a.NonOverlappingAndDense) (hb : b.NonOverlappingAndDense)
include ha hb

theorem bytes_meet (hnumel : a.numel ≠ 0 ∧ b.numel ≠ 0)
    (hstorage : a.storage.isSome ∧ a.storage = b.storage)
    (hcross : a.begin_ < b.end_ ∧ b.begin_ < a.end_) : (a.bytes ∩ b.bytes).Nonempty := by
  obtain ⟨s, hs⟩ := Option.isSome_iff_exists.mp hstorage.1
  refine ⟨(s, max a.begin_ b.begin_), (mem_bytes_iff ha).mpr ⟨hs, ?_⟩,
    (mem_bytes_iff hb).mpr ⟨hstorage.2 ▸ hs, ?_⟩⟩
  · exact ⟨le_max_left _ _, max_lt (begin_lt_end hnumel.1) hcross.2⟩
  · exact ⟨le_max_right _ _, max_lt hcross.1 (begin_lt_end hnumel.2)⟩

theorem bytes_apart (h : a.storage.isSome ∧ a.storage = b.storage →
      ¬ (a.begin_ < b.end_ ∧ b.begin_ < a.end_)) : Disjoint a.bytes b.bytes := by
  refine Set.disjoint_left.mpr fun p hpa hpb => ?_
  obtain ⟨hsa, hla, hua⟩ := (mem_bytes_iff ha).mp hpa
  obtain ⟨hsb, hlb, hub⟩ := (mem_bytes_iff hb).mp hpb
  exact h ⟨hsa ▸ rfl, hsa.trans hsb.symm⟩ ⟨hla.trans_lt hub, hlb.trans_lt hua⟩

end Dense

end Bytes

/-- Different dense tensors with elements, on the same bytes and with the same strides. -/
structure SameExtent (a b : StridedTensor) : Prop where
  dense : a.NonOverlappingAndDense ∧ b.NonOverlappingAndDense
  numel : a.numel ≠ 0 ∧ b.numel ≠ 0
  storage : a.storage.isSome ∧ a.storage = b.storage
  begin_ : a.begin_ = b.begin_
  end_ : a.end_ = b.end_
  strides : a.strides = b.strides

section Status

variable {ι : Type} [DecidableEq ι] (heap : ι → StridedTensor)
  {isNonOverlappingAndDense : StridedTensor → Bool} {x y : StridedTensor}

theorem statusRight_of {status : MemOverlapStatus}
    (apart : status = .NO → Disjoint x.bytes y.bytes)
    (shared : status = .PARTIAL → (x.bytes ∩ y.bytes).Nonempty)
    (full : status = .FULL → x.SameElements y)
    (hard : status = .TOO_HARD → ¬ (x.NonOverlappingAndDense ∧ y.NonOverlappingAndDense)) :
    StatusRight x y status := by
  refine ⟨apart, shared, full, fun hx hy hok => ?_⟩
  cases status with
  | FULL => exact .inl (full rfl)
  | PARTIAL => cases hok
  | NO => exact .inr (apart rfl)
  | TOO_HARD => exact absurd ⟨hx, hy⟩ (hard rfl)

theorem statusRight_apart (h : Disjoint x.bytes y.bytes) : StatusRight x y .NO :=
  statusRight_of (fun _ => h) nofun nofun nofun

theorem statusRight_shared (h : (x.bytes ∩ y.bytes).Nonempty) : StatusRight x y .PARTIAL :=
  statusRight_of nofun (fun _ => h) nofun nofun

theorem statusRight_full (h : x.SameElements y) : StatusRight x y .FULL :=
  statusRight_of nofun nofun (fun _ => h) nofun

theorem statusRight_hard (h : ¬ (x.NonOverlappingAndDense ∧ y.NonOverlappingAndDense)) :
    StatusRight x y .TOO_HARD :=
  statusRight_of nofun nofun nofun fun _ => h

end Status

/-- Sixteen bytes, as four elements and as two. -/
def views (wide : Bool) : StridedTensor where
  sizes := if wide then [2] else [4]
  strides := [1]
  sameRank := by cases wide <;> rfl
  itemsize := if wide then Nat.succPNat 7 else Nat.succPNat 3
  storage := some 0
  storage_offset := 0

theorem views_dense (wide : Bool) : (views wide).NonOverlappingAndDense := by
  cases wide with
  | false =>
    exact (TensorImpl.dense_iff_strides (by decide) (.refl [0]) (by decide)).mpr (by decide)
  | true =>
    exact (TensorImpl.dense_iff_strides (by decide) (.refl [0]) (by decide)).mpr (by decide)

end PyTorchCore.Core
