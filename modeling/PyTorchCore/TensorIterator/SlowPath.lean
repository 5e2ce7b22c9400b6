import Mathlib.Algebra.BigOperators.Pi
import PyTorchCore.Lib.AmbiguousSort
import PyTorchCore.TensorIterator.ForEach

/-!
# TensorIterator: the slow path visits every index once

`compute_strides`, `reorder_dimensions` and `coalesce_dimensions` rewrite the loop nest of an
iterator.
-/

namespace PyTorchCore.TensorIterator

open Lib (Axis)
open Function List
open Lib.LoopNest Lib.AmbiguousSort

/-! ## The permutation of the dimensions -/

section Around

variable (before passed after : List Nat) (p x : Nat)

theorem getD_around_left :
    (before.reverse ++ p :: (passed ++ x :: after)).getD before.length 0 = p := by
  rw [getD_append_right _ _ _ _ (by simp)]
  simp

theorem getD_around_right : (before.reverse ++ p :: (passed ++ x :: after)).getD
      (before.length + 1 + passed.length) 0 = x := by
  have hidx : before.length + 1 + passed.length - before.reverse.length = passed.length + 1 := by
    rw [length_reverse]
    omega
  rw [getD_append_right _ _ _ _ (by rw [length_reverse]; omega), hidx,
    getD_cons_succ, getD_append_right _ _ _ _ le_rfl]
  simp

theorem swapAt_around : swapAt (before.reverse ++ p :: (passed ++ x :: after)) before.length
        (before.length + 1 + passed.length) =
      before.reverse ++ x :: (passed ++ p :: after) := by
  have hidx₀ : before.length - before.reverse.length = 0 := by simp
  have hidx₁ : before.length + 1 + passed.length - before.reverse.length = passed.length + 1 := by
    rw [length_reverse]
    omega
  unfold swapAt
  rw [getD_around_left, getD_around_right, set_append_right _ _ (by simp),
    set_append_right _ _ (by rw [length_reverse]; omega), hidx₀, hidx₁,
    set_cons_zero, set_cons_succ, set_append_right _ _ le_rfl, Nat.sub_self,
    set_cons_zero]

end Around

section

variable (cmp : Nat → Nat → Int)
include cmp

theorem insertDim_eq_walk (before passed : List Nat) (x : Nat)
    (after : List Nat) :
    insertDim cmp before.length (before.length + passed.length)
        (before.reverse ++ passed ++ x :: after) =
      Lib.AmbiguousSort.walk cmp before passed x after := by
  induction before generalizing passed after with
  | nil => simp [insertDim, Lib.AmbiguousSort.walk]
  | cons p before ih =>
    have hlist : (p :: before).reverse ++ passed ++ x :: after =
        before.reverse ++ p :: (passed ++ x :: after) := by simp
    rw [hlist, length_cons]
    simp only [insertDim, getD_around_left, getD_around_right, Lib.AmbiguousSort.walk, gt_iff_lt]
    split
    · rw [swapAt_around]
      have := ih [] (passed ++ p :: after)
      simpa using this
    · split
      · simp
      · have := ih (p :: passed) after
        simp only [length_cons, append_assoc, cons_append] at this
        rw [← this]
        congr 1
        omega

theorem foldl_insertDim (sorted rest : List Nat) :
    (range' sorted.length rest.length).foldl (fun perm i => insertDim cmp i i perm)
        (sorted ++ rest) =
      insertAll cmp sorted rest := by
  induction rest generalizing sorted with
  | nil => simp [insertAll]
  | cons x rest ih =>
    have hstep : insertDim cmp sorted.length sorted.length (sorted ++ x :: rest) =
        Lib.AmbiguousSort.walk cmp sorted.reverse [] x [] ++ rest := by
      have := insertDim_eq_walk cmp sorted.reverse [] x rest
      rw [← nil_append rest, walk_append, nil_append] at this
      simpa using this
    have hlen : (Lib.AmbiguousSort.walk cmp sorted.reverse [] x []).length = sorted.length + 1 := by
      rw [(walk_perm cmp _ _ _ _).length_eq]
      simp
    rw [length_cons, range'_succ, foldl_cons, hstep, insertAll, ← ih, hlen]

/-- Sorting inserts one dimension after the other. -/
theorem sortDims_cons (x : Nat) (rest : List Nat) :
    sortDims cmp (x :: rest) = insertAll cmp [x] rest := by
  have := foldl_insertDim cmp [x] rest
  simpa [sortDims] using this

theorem sortDims_perm (perm : List Nat) :
    (sortDims cmp perm).Perm perm := by
  cases perm with
  | nil => exact Perm.refl _
  | cons x rest =>
    rw [sortDims_cons]
    exact insertAll_perm cmp [x] rest

end

/-- The dimensions are permuted. -/
theorem reorderPerm_perm (it : TensorIteratorBase) :
    (reorderPerm it).Perm (List.range it.ndim) := by
  unfold reorderPerm
  split
  · next h => rw [h, range_one]
  · split
    · exact reverse_perm _
    · exact (sortDims_perm _ _).trans (reverse_perm _)

theorem reorderPerm_linear (it : TensorIteratorBase) (hlin : it.enforce_linear_iteration_ = true) :
    reorderPerm it = (List.range it.ndim).reverse := by
  by_cases h : it.ndim = 1
  · rw [reorderPerm, if_pos h, h]
    rfl
  · rw [reorderPerm, if_neg h, if_pos hlin]

/-! ## Reordering the axes -/

/-- One dimension of the iterator. -/
def axisAt (it : TensorIteratorBase) (d : Nat) : Axis (Nat → Int) :=
  ⟨it.shape_.getD d 0, operandStrides it.operands_ d⟩

/-- The axes, one for each dimension. -/
theorem axes_eq (it : TensorIteratorBase) : axes it = (List.range it.ndim).map (axisAt it) := rfl

theorem operandStrides_map (ops : List OperandInfo) (f : OperandInfo → OperandInfo) (d d' : Nat)
    (h : ∀ op ∈ ops, (f op).stride_bytes.getD d 0 = op.stride_bytes.getD d' 0) :
    operandStrides (ops.map f) d = operandStrides ops d' := by
  funext arg
  unfold operandStrides
  rw [getElem?_map]
  cases harg : ops[arg]? with
  | none => rfl
  | some op => simpa using h op (mem_of_getElem? harg)

/-- Reading permuted data. -/
theorem permuted_getD {α : Type} [Inhabited α] (perm : List Nat) (data : List α) (d : Nat)
    (hd : d < perm.length) :
    (permuted perm data).getD d default = data.getD (perm.getD d 0) default := by
  unfold permuted
  simp [hd]

theorem axisAt_permute (it : TensorIteratorBase) (perm : List Nat) (d : Nat)
    (hd : d < perm.length) :
    axisAt (permuteDimensions it perm) d = axisAt it (perm.getD d 0) := by
  unfold axisAt permuteDimensions
  congr 1
  · exact permuted_getD perm it.shape_ d hd
  · apply operandStrides_map
    intro op _
    split
    · next hempty =>
        rw [isEmpty_iff.mp hempty]
        simp
    · exact permuted_getD perm op.stride_bytes d hd

theorem axes_permute (it : TensorIteratorBase) (perm : List Nat) :
    axes (permuteDimensions it perm) = perm.map (axisAt it) := by
  have hndim : (permuteDimensions it perm).ndim = perm.length := by
    simp [permuteDimensions, TensorIteratorBase.ndim, permuted]
  rw [axes_eq, hndim]
  apply ext_getElem
  · simp
  · intro d h₁ h₂
    have hd : d < perm.length := by simpa using h₂
    simp [axisAt_permute it perm d hd, hd]

theorem axes_reorder (it : TensorIteratorBase) :
    axes (reorderDimensions it) = (reorderPerm it).map (axisAt it) := by
  unfold reorderDimensions
  split
  · next h =>
      have haxes : axes it = [axisAt it 0] := by rw [axes_eq, h]; rfl
      rw [reorderPerm, if_pos h]
      exact haxes
  · exact axes_permute it (reorderPerm it)

/-! ## Coalescing -/

/-- Every operand has a stride for every dimension. -/
def FullStrides (it : TensorIteratorBase) : Prop :=
  ∀ op ∈ it.operands_, op.stride_bytes.length = it.ndim

section Coalesce

variable {it : TensorIteratorBase}

theorem fullStrides_replaceStride (h : FullStrides it) (dim0 dim1 : Nat) :
    FullStrides (replaceStride it dim0 dim1) := by
  intro op hop
  obtain ⟨op', hop', rfl⟩ := mem_map.mp hop
  rw [length_set]
  exact h op' hop'

theorem fullStrides_setShape (h : FullStrides it) (dim size : Nat) :
    FullStrides (setShape it dim size) := by
  intro op hop
  simpa [setShape, TensorIteratorBase.ndim] using h op hop

theorem operandStrides_replaceStride (h : FullStrides it) {dim0 : Nat} (hdim : dim0 < it.ndim)
    (dim1 d : Nat) :
    operandStrides (replaceStride it dim0 dim1).operands_ d =
      operandStrides it.operands_ (if d = dim0 then dim1 else d) := by
  apply operandStrides_map
  intro op hop
  have hlen : dim0 < op.stride_bytes.length := by rw [h op hop]; exact hdim
  by_cases hd : d = dim0
  · subst hd
    simp [hlen]
  · simp [hd, getElem?_set_ne (Ne.symm hd)]

theorem axisAt_setShape {dim : Nat} (hdim : dim < it.ndim) (size d : Nat) :
    axisAt (setShape it dim size) d =
      if d = dim then ⟨size, operandStrides it.operands_ d⟩ else axisAt it d := by
  unfold TensorIteratorBase.ndim at hdim
  by_cases hd : d = dim
  · subst hd
    simp [axisAt, setShape, hdim]
  · simp [axisAt, setShape, hd, getElem?_set_ne (Ne.symm hd)]

/-- If two dimensions can be coalesced and the first is not trivial, the second is
trivial or continues the first for every operand. -/
theorem canCoalesce_continues {dim0 dim1 : Nat} (h : canCoalesce it dim0 dim1 = true)
    (hone : it.shape_.getD dim0 0 ≠ 1) :
    it.shape_.getD dim1 0 = 1 ∨ it.shape_.getD dim0 0 • operandStrides it.operands_ dim0 =
        operandStrides it.operands_ dim1 := by
  by_cases hone' : it.shape_.getD dim1 0 = 1
  · exact .inl hone'
  · refine .inr ?_
    simp only [canCoalesce, hone, hone', or_self, if_false, all_eq_true, beq_iff_eq] at h
    funext arg
    simp only [operandStrides, Pi.smul_apply, nsmul_eq_mul]
    cases harg : it.operands_[arg]? with
    | none => simp
    | some op => simpa using h op (mem_of_getElem? harg)

/-- The dimensions up to `prev_dim`, followed by those from `dim` on, walk like the
nest the loop started with. -/
structure Coalescing (start : List (Axis (Nat → Int))) (n : Nat)
    (acc : TensorIteratorBase × Nat) (dim : Nat) : Prop where
  full : FullStrides acc.1
  ndim : acc.1.ndim = n
  behind : acc.2 < dim
  walk : SameWalk start
    ((List.range (acc.2 + 1)).map (axisAt acc.1) ++
      (List.range' dim (n - dim)).map (axisAt acc.1))

theorem map_axisAt_congr {it it' : TensorIteratorBase} {l : List Nat} (dim : Nat)
    (h : ∀ d, d ≠ dim → axisAt it' d = axisAt it d) (hl : dim ∉ l) :
    l.map (axisAt it') = l.map (axisAt it) := by
  apply map_congr_left
  intro d hd
  exact h d fun heq => hl (heq ▸ hd)

variable {start : List (Axis (Nat → Int))}

theorem coalescing_update {n prev dim : Nat}
    {it' : TensorIteratorBase} (h : Coalescing start n (it, prev) dim) (hdim : dim < n)
    (hfull : FullStrides it') (hndim : it'.ndim = n)
    (hother : ∀ d, d ≠ prev → axisAt it' d = axisAt it d)
    (hmerge : ∀ l, SameWalk (axisAt it prev :: axisAt it dim :: l) (axisAt it' prev :: l)) :
    Coalescing start n (it', prev) (dim + 1) := by
  have hbehind := h.behind
  refine ⟨hfull, hndim, by simp only; omega, h.walk.trans ?_⟩
  have hsplit : range' dim (n - dim) = dim :: range' (dim + 1) (n - (dim + 1)) := by
    have hlen : n - dim = (n - (dim + 1)) + 1 := by omega
    rw [hlen, range'_succ]
  simp only [hsplit, range_succ, map_append, map_cons, map_nil, append_assoc, singleton_append]
  rw [map_axisAt_congr prev hother (by simp),
    map_axisAt_congr prev hother (by simp only [mem_range'_1]; omega)]
  exact (hmerge _).append_left _

variable {acc : TensorIteratorBase × Nat}

theorem coalesceStep_spec {n dim : Nat} (h : Coalescing start n acc dim) (hdim : dim < n) :
    Coalescing start n (coalesceStep acc dim) (dim + 1) := by
  obtain ⟨it, prev⟩ := acc
  have hbehind := h.behind
  have hn := h.ndim
  have hfull := h.full
  simp only at hbehind hn hfull
  have hprev : prev < it.ndim := by omega
  unfold coalesceStep
  simp only
  split
  · next hcan =>
      split
      · next hone =>
          -- the dimension so far is trivial: the next one takes its place
          have hrep : (replaceStride it prev dim).ndim = it.ndim := rfl
          apply coalescing_update h hdim
          · exact fullStrides_setShape (fullStrides_replaceStride hfull _ _) _ _
          · simpa [setShape, replaceStride, TensorIteratorBase.ndim] using hn
          · intro d hd
            rw [axisAt_setShape (hrep ▸ hprev), if_neg hd]
            unfold axisAt
            rw [operandStrides_replaceStride hfull hprev, if_neg hd]
            rfl
          · intro l
            rw [axisAt_setShape (hrep ▸ hprev), if_pos rfl,
              operandStrides_replaceStride hfull hprev, if_pos rfl, hone, Nat.one_mul]
            exact sameWalk_drop_one hone _
      · next hone =>
          apply coalescing_update h hdim
          · exact fullStrides_setShape hfull _ _
          · simpa [setShape, TensorIteratorBase.ndim] using hn
          · intro d hd
            rw [axisAt_setShape hprev, if_neg hd]
          · intro l
            rw [axisAt_setShape hprev, if_pos rfl]
            rcases canCoalesce_continues hcan hone with hone' | hcont
            · rw [hone', Nat.mul_one]
              exact (sameWalk_drop_one hone' l).cons _
            · exact sameWalk_merge hcont l
  · split
    · next hnext =>
        subst hnext
        refine ⟨hfull, hn, by simp only; omega, ?_⟩
        have hwalk := h.walk
        have hlen : n - (prev + 1) = (n - (prev + 1 + 1)) + 1 := by omega
        simp only [hlen, range'_succ, map_cons] at hwalk
        simpa [range_succ] using hwalk
    · next hnext =>
        have hprev' : prev + 1 < it.ndim := by omega
        have hrep : (replaceStride it (prev + 1) dim).ndim = it.ndim := rfl
        have hother : ∀ d, d ≠ prev + 1 →
            axisAt (setShape (replaceStride it (prev + 1) dim) (prev + 1)
              (it.shape_.getD dim 0)) d = axisAt it d := by
          intro d hd
          rw [axisAt_setShape (hrep ▸ hprev'), if_neg hd]
          unfold axisAt
          rw [operandStrides_replaceStride hfull hprev', if_neg hd]
          rfl
        have hmoved : axisAt (setShape (replaceStride it (prev + 1) dim) (prev + 1)
            (it.shape_.getD dim 0)) (prev + 1) = axisAt it dim := by
          rw [axisAt_setShape (hrep ▸ hprev'), if_pos rfl,
            operandStrides_replaceStride hfull hprev', if_pos rfl]
          rfl
        refine ⟨fullStrides_setShape (fullStrides_replaceStride hfull _ _) _ _, ?_, ?_, ?_⟩
        · simpa [setShape, replaceStride, TensorIteratorBase.ndim] using hn
        · simp only
          omega
        · refine h.walk.trans ?_
          have hlen : n - dim = (n - (dim + 1)) + 1 := by omega
          simp only [hlen, range'_succ, range_succ (n := prev + 1), map_append,
            map_cons, map_nil, append_assoc, singleton_append]
          rw [map_axisAt_congr (prev + 1) hother (by simp),
            map_axisAt_congr (prev + 1) hother (by simp only [mem_range'_1]; omega), hmoved]
          exact SameWalk.refl _

theorem foldl_coalesceStep {n : Nat} (k : Nat) {dim : Nat} (h : Coalescing start n acc dim)
    (hk : dim + k = n) :
    Coalescing start n ((range' dim k).foldl coalesceStep acc) n := by
  induction k generalizing dim acc with
  | zero =>
    obtain rfl : dim = n := by omega
    exact h
  | succ k ih =>
    rw [range'_succ, foldl_cons]
    exact ih (coalesceStep_spec h (by omega)) (by omega)

theorem axes_truncateDims {n : Nat} (hn : n ≤ it.ndim) :
    axes (truncateDims it n) = (List.range n).map (axisAt it) := by
  have hndim : (truncateDims it n).ndim = n := by
    simpa [truncateDims, TensorIteratorBase.ndim] using hn
  rw [axes_eq, hndim]
  apply map_congr_left
  intro d hd
  have hlt : d < n := mem_range.mp hd
  unfold axisAt
  congr 1
  · simp [truncateDims, hlt]
  · apply operandStrides_map
    intro op _
    simp [hlt]

/-- Coalescing keeps the walk. -/
theorem coalesceDimensions_sameWalk (hfull : FullStrides it) :
    SameWalk (axes it) (axes (coalesceDimensions it)) := by
  unfold coalesceDimensions
  split
  · exact SameWalk.refl _
  · next hdim =>
      have hstart : Coalescing (axes it) it.ndim (it, 0) 1 := by
        refine ⟨hfull, rfl, Nat.one_pos, ?_⟩
        have hrange : List.range it.ndim = List.range 1 ++ range' 1 (it.ndim - 1) := by
          have hlen : it.ndim = (it.ndim - 1) + 1 := by omega
          rw [range_eq_range', hlen, range'_succ]
          rfl
        rw [axes_eq, hrange, map_append]
        exact SameWalk.refl _
      have hend := foldl_coalesceStep (it.ndim - 1) hstart (by omega)
      generalize (range' 1 (it.ndim - 1)).foldl coalesceStep (it, 0) = r at hend ⊢
      have hwalk := hend.walk
      have hlt := hend.behind
      rw [Nat.sub_self, range'_zero, map_nil, append_nil] at hwalk
      have htrunc : axes { truncateDims r.1 (r.2 + 1) with has_coalesced_dimensions_ := true } =
          (List.range (r.2 + 1)).map (axisAt r.1) :=
        axes_truncateDims (by rw [hend.ndim]; omega)
      simp only
      rw [htrunc]
      exact hwalk

end Coalesce

/-! ## Broadcasting -/

/-- The byte stride of a tensor at dimension `d` of the shape it is broadcast to: zero
where the tensor has no dimension or one of size one. -/
def broadcastStride (shape : List Nat) (t : TensorBase) (d : Nat) : Int :=
  if shape.length ≤ d + t.sizes.length then
    let i := d + t.sizes.length - shape.length
    if t.sizes.getD i 1 = 1 then 0 else t.strides.getD i 0 * (t.element_size : Nat)
  else 0

/-- The byte offset at which a tensor is read for the index tuple `idx`. -/
def broadcastOffset (shape : List Nat) (t : TensorBase) (idx : List Nat) : Int :=
  ((List.range shape.length).map fun d => (idx.getD d 0 : Int) * broadcastStride shape t d).sum

/-- The byte offsets of all operands for the index tuple `idx`. -/
def broadcastOffsets (it : TensorIteratorBase) (idx : List Nat) : Nat → Int :=
  fun arg => ((it.operands_[arg]?.bind OperandInfo.tensor_base).map
    fun t => broadcastOffset it.shape_ t idx).getD 0

variable {shape idx : List Nat}

theorem mem_rowMajor_getD (h : idx ∈ rowMajor shape) {d : Nat}
    (hd : d < shape.length) : idx.getD d 0 < shape.getD d 1 := by
  have hall := mem_rowMajor.mp h
  have hidx : d < idx.length := by rw [hall.length_eq]; exact hd
  have := forall₂_iff_get.mp hall |>.2 d hidx hd
  simpa [hd, hidx] using this

/-- The strides of `compute_strides` differ from the broadcast strides only where the
index is zero. -/
theorem stridesFor_mul (h : idx ∈ rowMajor shape) (t : TensorBase)
    {d : Nat} (hd : d < shape.length) :
    (idx.getD d 0 : Int) * (stridesFor shape t.sizes t.strides t.element_size).getD d 0 =
      (idx.getD d 0 : Int) * broadcastStride shape t d := by
  have hlt := mem_rowMajor_getD h hd
  have hget : (stridesFor shape t.sizes t.strides t.element_size).getD d 0 =
      if shape.length ≤ d + t.sizes.length then
        let i := d + t.sizes.length - shape.length
        if t.sizes.getD i 1 = 1 ∧ shape.getD d 1 ≠ 1 then 0
        else t.strides.getD i 0 * (t.element_size : Nat)
      else 0 := by
    simp [stridesFor, hd]
  rw [hget]
  unfold broadcastStride
  split
  · by_cases hone : t.sizes.getD (d + t.sizes.length - shape.length) 1 = 1
    · by_cases hshape : shape.getD d 1 = 1
      · have hzero : idx.getD d 0 = 0 := by omega
        simp only [hzero, Int.natCast_zero, Int.zero_mul]
      · simp only [hone, hshape, ne_eq, not_false_eq_true, and_self, if_true]
    · simp only [hone, false_and, if_false]
  · rfl

section SlowPath

variable {config : TensorIteratorConfig} {it : TensorIteratorBase}

theorem fullStrides_computeStrides (config : TensorIteratorConfig)
    (hdef : ∀ op ∈ it.operands_, op.tensor_base.isSome = true) :
    FullStrides (computeStrides config it) := by
  intro op hop
  obtain ⟨op', hop', rfl⟩ := mem_map.mp hop
  obtain ⟨t, ht⟩ := Option.isSome_iff_exists.mp (hdef op' hop')
  simp [ht, stridesFor, computeStrides, TensorIteratorBase.ndim]

theorem fullStrides_reorder (h : FullStrides it) : FullStrides (reorderDimensions it) := by
  unfold reorderDimensions
  split
  · exact h
  · have hlen : (reorderPerm it).length = it.ndim := by
      simpa using (reorderPerm_perm it).length_eq
    intro op hop
    obtain ⟨op', hop', rfl⟩ := mem_map.mp hop
    have hop'len := h op' hop'
    simp only [permuteDimensions, TensorIteratorBase.ndim, permuted, length_map, hlen]
    split
    · rw [hop'len]
      rfl
    · rw [length_map]
      exact hlen

theorem dot_computeStrides (hstatic : config.static_shape_ = none) {idx : List Nat}
    (hidx : idx ∈ rowMajor it.shape_) (hdef : ∀ op ∈ it.operands_, op.tensor_base.isSome = true) :
    dot idx ((axes (computeStrides config it)).map Axis.stride) = broadcastOffsets it idx := by
  have hlen : idx.length = it.ndim := (mem_rowMajor.mp hidx).length_eq
  have hstrides : (axes (computeStrides config it)).map Axis.stride =
      (List.range idx.length).map (operandStrides (computeStrides config it).operands_) := by
    rw [axes, map_map, hlen]
    rfl
  rw [hstrides, dot_map_range]
  funext arg
  rw [Pi.list_sum_apply, map_map, hlen]
  unfold broadcastOffsets
  cases harg : it.operands_[arg]? with
  | none =>
    have hzero : ∀ d, operandStrides (computeStrides config it).operands_ d arg = 0 := by
      intro d
      simp [operandStrides, computeStrides, harg]
    simp [hzero, comp_def]
  | some op =>
    obtain ⟨t, ht⟩ := Option.isSome_iff_exists.mp (hdef op (mem_of_getElem? harg))
    simp only [Option.bind_some, ht, Option.map_some, Option.getD_some, broadcastOffset]
    congr 1
    apply map_congr_left
    intro d hd
    rw [← stridesFor_mul hidx t (mem_range.mp hd)]
    simp [operandStrides, computeStrides, harg, ht, hstatic]

theorem allocateOrResizeOutputs_of_defined
    (h : ∀ op ∈ it.operands_, op.tensor_base.isSome = true ∧ op.will_resize = false) :
    allocateOrResizeOutputs it = .ok it := by
  have hone : ∀ op ∈ it.operands_, allocateOrResizeOutput it op = .ok op := by
    intro op hop
    obtain ⟨hdef, hres⟩ := h op hop
    obtain ⟨t, ht⟩ := Option.isSome_iff_exists.mp hdef
    simp [allocateOrResizeOutput, setOutput, ht, hres]
  have hall : ∀ ops : List OperandInfo, (∀ op ∈ ops, op ∈ it.operands_) →
      ops.mapM (allocateOrResizeOutput it) = .ok ops := by
    intro ops hops
    induction ops with
    | nil => rfl
    | cons op ops ih =>
      rw [mapM_cons, hone op (hops op mem_cons_self),
        ih fun op' hop' => hops op' (mem_cons_of_mem _ hop')]
      rfl
  unfold allocateOrResizeOutputs
  rw [hall _ fun op hop => mem_of_mem_take hop]
  simp only [bind, Except.bind, take_append_drop]

/-- The operands after the dimensions have been reordered: only strides have changed. -/
theorem reorder_computeStrides_operands {op : OperandInfo}
    (hop : op ∈ (reorderDimensions (computeStrides config it)).operands_) :
    ∃ op' ∈ it.operands_, op.tensor_base = op'.tensor_base ∧ op.will_resize = op'.will_resize := by
  have hcompute : ∀ op ∈ (computeStrides config it).operands_, ∃ op' ∈ it.operands_,
      op.tensor_base = op'.tensor_base ∧ op.will_resize = op'.will_resize := by
    intro op hop
    obtain ⟨op', hop', rfl⟩ := mem_map.mp hop
    refine ⟨op', hop', ?_⟩
    cases ht : op'.tensor_base with
    | none => simp [ht]
    | some t => simp
  unfold reorderDimensions at hop
  split at hop
  · exact hcompute op hop
  · obtain ⟨op', hop', rfl⟩ := mem_map.mp hop
    split
    · exact hcompute op' hop'
    · exact hcompute op' hop'

theorem reorderDimensions_ntensors (it : TensorIteratorBase) :
    (reorderDimensions it).ntensors = it.ntensors := by
  unfold reorderDimensions
  split
  · rfl
  · simp [permuteDimensions, TensorIteratorBase.ntensors]

theorem coalesceStep_tensors (acc : TensorIteratorBase × Nat) (dim : Nat) :
    (coalesceStep acc dim).1.operands_.map OperandInfo.tensor_base =
      acc.1.operands_.map OperandInfo.tensor_base := by
  unfold coalesceStep
  simp only
  split
  · split
    · simp [setShape, replaceStride, comp_def]
    · rfl
  · split
    · rfl
    · simp [setShape, replaceStride, comp_def]

theorem coalesceDimensions_tensors (it : TensorIteratorBase) :
    (coalesceDimensions it).operands_.map OperandInfo.tensor_base =
      it.operands_.map OperandInfo.tensor_base := by
  have hfold : ∀ (l : List Nat) (acc : TensorIteratorBase × Nat),
      (l.foldl coalesceStep acc).1.operands_.map OperandInfo.tensor_base =
        acc.1.operands_.map OperandInfo.tensor_base := by
    intro l
    induction l with
    | nil => intro acc; rfl
    | cons dim l ih =>
      intro acc
      rw [foldl_cons, ih, coalesceStep_tensors]
  unfold coalesceDimensions
  split
  · rfl
  · have := hfold (range' 1 (it.ndim - 1)) (it, 0)
    simpa [truncateDims, comp_def] using this

theorem coalesceDimensions_ntensors (it : TensorIteratorBase) :
    (coalesceDimensions it).ntensors = it.ntensors := by
  have htensors := congrArg length (coalesceDimensions_tensors it)
  rwa [length_map, length_map] at htensors

theorem serialForEach_offsets (it : TensorIteratorBase) (base_ptrs : List Int)
    (hbase : base_ptrs.length = it.ntensors) :
    ∃ calls, serialForEach it base_ptrs ⟨0, it.numel⟩ = .ok calls ∧
      calls.flatMap LoopCall.visits = (offsets (axes it)).map (shifted base_ptrs) := by
  obtain ⟨calls, hcalls, hvisits⟩ :=
    serialForEach_visits it hbase (le_refl (Range.mk 0 it.numel).end_)
  refine ⟨calls, hcalls, ?_⟩
  rw [hvisits, offsets, axes_volume, map_map]
  simp [Range.size, comp_def]

/-- The offsets after the strides have been computed and the dimensions reordered and
coalesced, up to the order of the iterations. -/
theorem offsets_reorder_perm (it : TensorIteratorBase) :
    (offsets (axes (reorderDimensions it))).Perm
      ((rowMajor it.shape_).map fun idx => dot idx ((axes it).map Axis.stride)) := by
  have hperm : (axes (reorderDimensions it)).Perm (axes it).reverse := by
    rw [axes_reorder]
    exact ((reorderPerm_perm it).map _).trans (reverse_perm _).symm
  have hrev := offsets_reverse (axes it)
  rw [axes_sizes] at hrev
  rw [← hrev]
  exact offsets_perm hperm

theorem offsets_reorder_linear (it : TensorIteratorBase)
    (hlin : it.enforce_linear_iteration_ = true) :
    offsets (axes (reorderDimensions it)) =
      (rowMajor it.shape_).map fun idx => dot idx ((axes it).map Axis.stride) := by
  have hrev := offsets_reverse (axes it)
  rw [axes_sizes] at hrev
  rw [← hrev, axes_reorder, reorderPerm_linear it hlin, map_reverse]
  rfl

end SlowPath

/-- A column of two elements and a row of three, of four bytes each. -/
def columnAndRow : TensorIteratorBase where
  shape_ := [2, 3]
  perm_ := []
  operands_ :=
    [⟨some ⟨[2, 1], [1, 1], Nat.succPNat 3, rfl⟩, Nat.succPNat 3, false, false, false, []⟩,
      ⟨some ⟨[3], [1], Nat.succPNat 3, rfl⟩, Nat.succPNat 3, false, false, false, []⟩]
  num_outputs_ := 0
  is_reduction_ := false
  enforce_linear_iteration_ := true
  all_ops_same_shape_ := false
  has_coalesced_dimensions_ := false

/-- A configuration without a static shape. -/
def plainConfig : TensorIteratorConfig where
  tensors_ := []
  num_outputs_ := 0
  static_shape_ := none
  resize_outputs_ := true
  is_reduction_ := false
  enforce_linear_iteration_ := false

end PyTorchCore.TensorIterator
