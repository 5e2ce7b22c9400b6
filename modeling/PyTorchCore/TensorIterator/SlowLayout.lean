import PyTorchCore.TensorIterator.Prepared

/-!
# TensorIterator: the slow path on operands of one layout

When all tensors are dense along one order of the dimensions, the slow path sorts the dimensions
into that order.
-/

namespace PyTorchCore.TensorIterator

open Option List
open Lib Lib.LoopNest Lib.AmbiguousSort

/-! ## Outputs -/

/-- The operand after an output has been allocated or resized, if it has to be. -/
def allocated (sizes : List Nat) (strides : List Int) (h : strides.length = sizes.length)
    (op : OperandInfo) : OperandInfo :=
  if op.tensor_base.isSome && !op.will_resize then op
  else { op with tensor_base := some ⟨sizes, strides, op.elementSize, h⟩ }

variable {strides : List Int} {sizes : List Nat}

theorem elementSize_allocated (h : strides.length = sizes.length) (op : OperandInfo) :
    (allocated sizes strides h op).elementSize = op.elementSize := by
  unfold allocated
  split
  · rfl
  · rfl

theorem setOutput_strides (op : OperandInfo)
    (h : strides.length = sizes.length) (hne : strides ≠ []) :
    setOutput op sizes strides none = .ok (allocated sizes strides h op) := by
  unfold setOutput allocated
  split
  · rfl
  · simp [hne, TensorBase.mk?, h, bind, Except.bind]

theorem setOutput_format (op : OperandInfo)
    (h : strides.length = sizes.length) {memory_format : Option MemoryFormat}
    (hformat : emptyTensorRestride (memory_format.getD .contiguous) sizes = .ok strides) :
    setOutput op sizes [] memory_format = .ok (allocated sizes strides h op) := by
  unfold setOutput allocated
  split
  · rfl
  · simp [hformat, TensorBase.mk?, h, bind, Except.bind]

theorem map_take_append_drop {α : Type} (f : α → α) (n : Nat) (l : List α)
    (h : ∀ a ∈ l.drop n, f a = a) : (l.take n).map f ++ l.drop n = l.map f := by
  have hdrop : l.drop n = (l.drop n).map f := by
    rw [List.map_congr_left h, List.map_id']
  nth_rewrite 1 [hdrop]
  rw [← List.map_append, List.take_append_drop]

/-! ## The strides of the slow path -/

section Slow

variable {config : TensorIteratorConfig} {it : TensorIteratorBase}

def sizeAt (it : TensorIteratorBase) (d : Nat) : Nat :=
  it.shape_.getD d 0

theorem stridesFor_same (shape : List Nat) (t : TensorBase) (h : t.sizes = shape) (d : Nat) :
    (stridesFor shape t.sizes t.strides t.element_size).getD d 0 =
      (t.element_size : Nat) * t.strides.getD d 0 := by
  by_cases hd : d < shape.length
  · have hidx : d + shape.length - shape.length = d := by omega
    simp only [stridesFor, h, getD_eq_getElem?_getD, getElem?_map,
      getElem?_range hd, map_some, getD_some]
    rw [if_pos (by omega), hidx, if_neg fun h => h.2 h.1]
    exact Int.mul_comm _ _
  · have hlen : t.strides.length ≤ d := by
      rw [t.sameRank, h]
      omega
    rw [getD_eq_default _ _ (by simp [stridesFor]; omega), getD_eq_default _ _ hlen, Int.mul_zero]

/-- The strides that vote are those of the tensors in bytes. -/
theorem votes_spec (hp : Prepared it) (hstatic : config.static_shape_ = none)
    {s : Nat → Int} (hs : s ∈ votingStrides (computeStrides config it).operands_) :
    ∃ t ∈ layoutTensors it, ∀ d, s d = (t.element_size : Nat) * t.strides.getD d 0 := by
  obtain ⟨op', hop', hvote⟩ := mem_filterMap.mp hs
  obtain ⟨op, hop, rfl⟩ := mem_map.mp hop'
  cases ht : op.tensor_base with
  | none =>
    simp [ht, hp.fresh op hop] at hvote
  | some t =>
    simp only [ht, hstatic, isSome_none, Bool.false_eq_true, if_false] at hvote
    split at hvote
    · cases hvote
    · next hskip =>
        have hres : op.will_resize = false := by
          simp only [Bool.or_eq_true, not_or, Bool.not_eq_true] at hskip
          exact hskip.2
        cases hvote
        refine ⟨t, mem_layoutTensors.mpr ⟨op, hop, ht, hres⟩, ?_⟩
        exact stridesFor_same it.shape_ t (hp.sameShape op hop t ht hres)

/-- Some tensor votes. -/
theorem votes_ne_nil (config : TensorIteratorConfig) (hne : layoutTensors it ≠ [])
    (hdim : 0 < it.ndim) :
    votingStrides (computeStrides config it).operands_ ≠ [] := by
  obtain ⟨t, ht⟩ := exists_mem_of_ne_nil _ hne
  obtain ⟨op, hop, htensor, hres⟩ := mem_layoutTensors.mp ht
  have hmem : (fun d => (stridesFor it.shape_
      (if config.static_shape_.isSome then it.shape_ else t.sizes) t.strides
      t.element_size).getD d 0) ∈ votingStrides (computeStrides config it).operands_ := by
    unfold votingStrides computeStrides
    rw [mem_filterMap]
    refine ⟨_, mem_map_of_mem hop, ?_⟩
    have hlen : (stridesFor it.shape_ (if config.static_shape_.isSome then it.shape_ else t.sizes)
        t.strides t.element_size).length = it.ndim := by
      simp [stridesFor, TensorIteratorBase.ndim]
    simp only [htensor, hres, Bool.or_false]
    rw [if_neg]
    intro hempty
    rw [isEmpty_iff.mp hempty] at hlen
    simp only [length_nil] at hlen
    omega
  exact ne_nil_of_mem hmem

theorem shouldSwap_eq (hred : it.is_reduction_ = false) : shouldSwap (computeStrides config it) =
      compareBy (sizeAt it) (votingStrides (computeStrides config it).operands_) := by
  funext p x
  unfold shouldSwap compareBy
  have hred' : (computeStrides config it).is_reduction_ = false := hred
  rw [hred', shouldSwapLoop_eq]
  rfl

/-- A layout that the tensors share, and into whose order the slow path brings the
dimensions. -/
structure Layout (config : TensorIteratorConfig) (it : TensorIteratorBase) (order : List Nat)
    (stride : Nat → Int) : Prop where
  perm : order.Perm (List.range it.ndim)
  dense : DenseOrder (sizeAt it) stride order 1
  tensors : ∀ t ∈ layoutTensors it, ∀ d, 1 < sizeAt it d → t.strides.getD d 0 = stride d
  sorted : SortedOn (large (sizeAt it)) stride (reorderPerm (computeStrides config it))

/-- No size is zero. -/
theorem sizeAt_pos (hnumel : it.numel ≠ 0) {d : Nat} (hd : d < it.ndim) : 0 < sizeAt it d := by
  have hmem : sizeAt it d ∈ it.shape_ := by
    unfold sizeAt
    rw [getD_eq_getElem _ _ hd]
    exact getElem_mem hd
  refine Nat.pos_of_ne_zero fun hzero => hnumel ?_
  exact prod_eq_zero_iff.mpr (hzero ▸ hmem)

/-- A dimension of size two or more exists. -/
theorem lt_ndim_of_large {d : Nat} (h : 1 < sizeAt it d) : d < it.ndim := by
  by_contra hd
  unfold sizeAt at h
  rw [getD_eq_default _ _ (by unfold TensorIteratorBase.ndim at hd; omega)] at h
  omega

variable {stride : Nat → Int}

/-- The strides that vote have the layout in common. -/
theorem commonLayout (hp : Prepared it) (hstatic : config.static_shape_ = none)
    (hnumel : it.numel ≠ 0) {order : List Nat}
    (hperm : order.Perm (List.range it.ndim)) (hdense : DenseOrder (sizeAt it) stride order 1)
    (htensors : ∀ t ∈ layoutTensors it, ∀ d, 1 < sizeAt it d → t.strides.getD d 0 = stride d) :
    CommonLayout (sizeAt it) stride (votingStrides (computeStrides config it).operands_) := by
  refine ⟨?_, ?_⟩
  · intro s hs
    obtain ⟨t, ht, hsd⟩ := votes_spec hp hstatic hs
    refine ⟨(t.element_size : Nat), by exact_mod_cast t.element_size.pos, ?_⟩
    intro d hd
    rw [hsd d, htensors t ht d hd]
  · intro d hd
    have hmem : d ∈ order := hperm.mem_iff.mpr (mem_range.mpr (lt_ndim_of_large hd))
    have hpos : ∀ e ∈ order, 0 < sizeAt it e := fun e he =>
      sizeAt_pos hnumel (mem_range.mp (hperm.mem_iff.mp he))
    have := hdense.le hpos hmem (by omega)
    omega

theorem Layout.densePerm {order : List Nat}
    (h : Layout config it order stride) (hnumel : it.numel ≠ 0) :
    DenseOrder (sizeAt it) stride (reorderPerm (computeStrides config it)) 1 := by
  apply h.dense.of_sorted _ _ h.sorted
  · intro d hd
    exact sizeAt_pos hnumel (mem_range.mp (h.perm.mem_iff.mp hd))
  · exact (reorderPerm_perm (computeStrides config it)).trans h.perm.symm

/-! ## The slow path, operand by operand -/

theorem stride_bytes_computeStrides (hp : Prepared it) (config : TensorIteratorConfig)
    {op : OperandInfo} (hop : op ∈ (computeStrides config it).operands_) :
    op.stride_bytes = [] ∨ op.stride_bytes.length = it.ndim := by
  obtain ⟨op', hop', rfl⟩ := mem_map.mp hop
  cases ht : op'.tensor_base with
  | none =>
    left
    simpa [ht] using hp.fresh op' hop'
  | some t =>
    right
    simp [stridesFor, TensorIteratorBase.ndim]

theorem permuted_self_of_one {α : Type} [Inhabited α] {data : List α} (h : data.length = 1) :
    permuted [0] data = data := by
  obtain ⟨a, rfl⟩ := length_eq_one_iff.mp h
  rfl

theorem reorderDimensions_eq (it : TensorIteratorBase)
    (h : ∀ op ∈ it.operands_, op.stride_bytes = [] ∨ op.stride_bytes.length = it.ndim) :
    reorderDimensions it =
      { permuteDimensions it (reorderPerm it) with perm_ := reorderPerm it } := by
  unfold reorderDimensions
  split
  · next hone =>
      have hperm : reorderPerm it = [0] := by rw [reorderPerm, if_pos hone]
      have hshape : permuted [0] it.shape_ = it.shape_ := permuted_self_of_one hone
      have hops : it.operands_.map (fun op =>
          if op.stride_bytes.isEmpty then op
          else { op with stride_bytes := permuted [0] op.stride_bytes }) = it.operands_ := by
        rw [List.map_congr_left (g := id), List.map_id]
        intro op hop
        rcases h op hop with hnil | hlen
        · simp [hnil]
        · rw [hone] at hlen
          rw [permuted_self_of_one hlen]
          simp
      simp only [hperm, permuteDimensions, hshape, hops]
  · rfl

def slowStrideBytes (it : TensorIteratorBase) (perm : List Nat) (op : OperandInfo) : List Int :=
  compatibleStride (permuted perm it.shape_) (op.elementSize : Nat)

def slowStrides (it : TensorIteratorBase) (perm : List Nat) (op : OperandInfo) : List Int :=
  if perm = (List.range it.ndim).reverse then contiguousStrides it.shape_
  else (invertPerm perm (slowStrideBytes it perm op)).map
    fun stride => stride / ((op.elementSize : Nat) : Int)

variable {perm : List Nat}

theorem length_slowStrideBytes (hperm : perm.Perm (List.range it.ndim))
    (op : OperandInfo) : (slowStrideBytes it perm op).length = it.ndim := by
  have hlen : perm.length = it.ndim := by simpa using hperm.length_eq
  simp [slowStrideBytes, permuted, hlen]

theorem length_slowStrides (hperm : perm.Perm (List.range it.ndim))
    (op : OperandInfo) : (slowStrides it perm op).length = it.shape_.length := by
  unfold slowStrides
  split
  · exact length_contiguousStrides _
  · rw [length_map, length_invertPerm, length_slowStrideBytes hperm]
    rfl

/-- An operand after the slow path has reordered the dimensions and allocated outputs,
given the operand before. -/
def slowOperand (config : TensorIteratorConfig) (it : TensorIteratorBase) (perm : List Nat)
    (hperm : perm.Perm (List.range it.ndim)) (op : OperandInfo) : OperandInfo :=
  match op.tensor_base with
  | some t =>
    if op.will_resize then
      { op with
        tensor_base := some ⟨it.shape_, slowStrides it perm op, op.elementSize,
          length_slowStrides hperm op⟩
        stride_bytes := slowStrideBytes it perm op }
    else
      { op with
        stride_bytes := permuted perm (stridesFor it.shape_
          (if config.static_shape_.isSome then it.shape_ else t.sizes) t.strides
          t.element_size) }
  | none =>
    { op with
      tensor_base := some ⟨it.shape_, slowStrides it perm op, op.elementSize,
        length_slowStrides hperm op⟩
      stride_bytes := slowStrideBytes it perm op }

theorem permuted_nil_iff (hperm : perm.Perm (List.range it.ndim))
    {data : List Int} (hlen : data.length = it.ndim) (hempty : data.isEmpty = true) :
    permuted perm data = data := by
  rw [isEmpty_iff.mp hempty] at hlen ⊢
  have hzero : it.ndim = 0 := hlen.symm
  rw [hzero] at hperm
  rw [hperm.eq_nil]
  rfl

/-- The operand after `reorder_dimensions`. -/
def reorderedOperand (config : TensorIteratorConfig) (it : TensorIteratorBase) (perm : List Nat)
    (op : OperandInfo) : OperandInfo :=
  match op.tensor_base with
  | none => op
  | some t =>
    { op with
      stride_bytes := permuted perm (stridesFor it.shape_
        (if config.static_shape_.isSome then it.shape_ else t.sizes) t.strides
        t.element_size) }

theorem reorder_operands (hp : Prepared it) : reorderDimensions (computeStrides config it) =
      { it with
        shape_ := permuted (reorderPerm (computeStrides config it)) it.shape_
        perm_ := reorderPerm (computeStrides config it)
        operands_ := it.operands_.map
          (reorderedOperand config it (reorderPerm (computeStrides config it))) } := by
  have hperm := reorderPerm_perm (computeStrides config it)
  rw [reorderDimensions_eq (computeStrides config it) fun op hop =>
    stride_bytes_computeStrides hp config hop]
  generalize reorderPerm (computeStrides config it) = perm at hperm ⊢
  simp only [permuteDimensions, computeStrides, List.map_map]
  congr 1
  apply List.map_congr_left
  intro op hop
  cases ht : op.tensor_base with
  | none => simp [reorderedOperand, ht, hp.fresh op hop]
  | some t =>
    simp only [Function.comp, reorderedOperand, ht]
    have hlen : ∀ shape, (stridesFor it.shape_ shape t.strides t.element_size).length =
        it.ndim := by
      simp [stridesFor, TensorIteratorBase.ndim]
    generalize (if config.static_shape_.isSome then it.shape_ else t.sizes) = shape
    by_cases hempty : (stridesFor it.shape_ shape t.strides t.element_size).isEmpty = true
    · rw [if_pos hempty, permuted_nil_iff hperm (hlen shape) hempty]
    · rw [if_neg hempty]

section Allocate

variable {perm : List Nat} (hperm : perm.Perm (List.range it.ndim))

theorem setOutput_slow {op op' : OperandInfo}
    (hop' : (op'.tensor_base.isSome && !op'.will_resize) = false)
    (hsize : op'.elementSize = op.elementSize) :
    setOutput op' it.shape_ (if perm == (List.range it.ndim).reverse then []
        else (invertPerm perm (slowStrideBytes it perm op)).map
          fun stride => stride / ((op.elementSize : Nat) : Int)) none =
    .ok { op' with
      tensor_base := some ⟨it.shape_, slowStrides it perm op, op.elementSize,
        length_slowStrides hperm op⟩ } := by
  have hlen := length_slowStrides hperm op
  have hall : allocated it.shape_ (slowStrides it perm op) hlen op' = { op' with
        tensor_base := some ⟨it.shape_, slowStrides it perm op, op.elementSize, hlen⟩ } := by
    unfold allocated
    rw [hop', hsize]
    rfl
  rw [← hall]
  by_cases hinv : perm = (List.range it.ndim).reverse
  · rw [if_pos (by simpa using hinv)]
    apply setOutput_format op' hlen
    unfold slowStrides
    rw [if_pos hinv]
    rfl
  · have hstrides : slowStrides it perm op = (invertPerm perm (slowStrideBytes it perm op)).map
          fun stride => stride / ((op.elementSize : Nat) : Int) := by
      unfold slowStrides
      rw [if_neg hinv]
    rw [if_neg (by simpa using hinv)]
    simp only [hstrides] at hlen ⊢
    apply setOutput_strides op' hlen
    intro hnil
    rw [hnil] at hlen
    apply hinv
    have hzero : it.ndim = 0 := hlen.symm
    rw [hzero] at hperm ⊢
    exact hperm.eq_nil

theorem allocateOrResizeOutput_reordered (config : TensorIteratorConfig) (op : OperandInfo) :
    allocateOrResizeOutput { it with
        shape_ := permuted perm it.shape_
        perm_ := perm
        operands_ := it.operands_.map (reorderedOperand config it perm) }
      (reorderedOperand config it perm op) =
    .ok (slowOperand config it perm hperm op) := by
  have hndim : (permuted perm it.shape_).length = it.shape_.length := by
    rw [permuted, length_map, hperm.length_eq, length_range]
    rfl
  have hback : invertPerm perm (permuted perm it.shape_) = it.shape_ :=
    invertPerm_permuted hperm rfl
  have hresized : op.tensor_base.isSome = false ∨ op.will_resize = true → allocateOrResizeOutput
        { it with
          shape_ := permuted perm it.shape_
          perm_ := perm
          operands_ := it.operands_.map (reorderedOperand config it perm) }
        (reorderedOperand config it perm op) =
      .ok { op with
        tensor_base := some ⟨it.shape_, slowStrides it perm op, op.elementSize,
          length_slowStrides hperm op⟩
        stride_bytes := slowStrideBytes it perm op } := by
    intro h
    obtain ⟨strides, hre⟩ : ∃ strides, reorderedOperand config it perm op =
        { op with stride_bytes := strides } := by
      unfold reorderedOperand
      split
      · exact ⟨op.stride_bytes, rfl⟩
      · exact ⟨_, rfl⟩
    have hcond : ((reorderedOperand config it perm op).tensor_base.isNone ||
        (reorderedOperand config it perm op).will_resize) = true := by
      rw [hre]
      rcases h with h | h
      · simp only [Bool.or_eq_true, isNone_iff_eq_none]
        exact .inl (by simpa using h)
      · simp [h]
    have hgoes : (op.tensor_base.isSome && !op.will_resize) = false := by
      rcases h with h | h
      · simp [h]
      · simp [h]
    unfold allocateOrResizeOutput
    rw [if_pos hcond, hre]
    simp only [TensorIteratorBase.ndim, hback, hndim]
    exact setOutput_slow hperm hgoes rfl
  rcases hdef : op.tensor_base with _ | t
  · rw [hresized (.inl (by simp [hdef]))]
    simp only [slowOperand, hdef]
  · cases hres : op.will_resize with
    | true =>
      rw [hresized (.inr hres)]
      simp [slowOperand, hdef, hres]
    | false =>
      unfold allocateOrResizeOutput
      rw [if_neg (by simp [reorderedOperand, hdef, hres])]
      simp [setOutput, reorderedOperand, slowOperand, hdef, hres]

end Allocate

/-- Outputs are allocated along the new order of the dimensions. -/
theorem allocate_reordered (hp : Prepared it) :
    allocateOrResizeOutputs (reorderDimensions (computeStrides config it)) = .ok { it with
        shape_ := permuted (reorderPerm (computeStrides config it)) it.shape_
        perm_ := reorderPerm (computeStrides config it)
        operands_ := it.operands_.map
          (slowOperand config it (reorderPerm (computeStrides config it))
            (reorderPerm_perm (computeStrides config it))) } := by
  have hperm : (reorderPerm (computeStrides config it)).Perm (List.range it.ndim) :=
    reorderPerm_perm (computeStrides config it)
  rw [reorder_operands hp]
  unfold allocateOrResizeOutputs
  simp only
  rw [← map_take, ← map_drop, mapM_map]
  have houtputs := mapM_ok (l := it.operands_.take it.num_outputs_)
    fun op _ => allocateOrResizeOutput_reordered hperm config op
  simp only [Function.comp_def] at houtputs ⊢
  rw [houtputs]
  simp only [bind, Except.bind]
  congr 2
  have hinputs : (it.operands_.drop it.num_outputs_).map
      (reorderedOperand config it (reorderPerm (computeStrides config it))) =
      (it.operands_.drop it.num_outputs_).map
        (slowOperand config it (reorderPerm (computeStrides config it)) hperm) := by
    apply map_congr_left
    intro op hop
    obtain ⟨hdef, hres⟩ := hp.inputs op hop
    obtain ⟨t, ht⟩ := isSome_iff_exists.mp hdef
    simp [reorderedOperand, slowOperand, ht, hres]
  rw [hinputs, ← map_append, take_append_drop]

/-! ## Walking through a layout -/

def elementSizes (it : TensorIteratorBase) : Nat → Int :=
  fun arg => ((it.operands_[arg]?).map fun op => ((op.elementSize : Nat) : Int)).getD 0

theorem dense_of_denseOrder {elts : Nat → Int} (axes : List (Axis (Nat → Int)))
    (dims : List Nat) (z : Nat)
    (h : Forall₂ (fun a d => a.size = sizeAt it d ∧
      (sizeAt it d ≠ 1 → a.stride = fun arg => stride d * elts arg)) axes dims)
    (hdims : DenseOrder (sizeAt it) stride dims z) :
    Dense (z • elts) (axes.filter fun a => a.size ≠ 1) := by
  induction h generalizing z with
  | nil => trivial
  | @cons a d axes dims had _ ih =>
    obtain ⟨hsize, hstride⟩ := had
    by_cases hone : sizeAt it d = 1
    · rw [filter_cons_of_neg (by simp [hsize, hone])]
      have := ih (z * sizeAt it d) hdims.2
      rwa [hone, Nat.mul_one] at this
    · rw [filter_cons_of_pos (by simp [hsize, hone])]
      refine ⟨?_, ?_⟩
      · rw [hstride hone, hdims.1 hone]
        funext arg
        simp
      · have := ih (z * sizeAt it d) hdims.2
        rw [hsize, ← mul_nsmul]
        exact this

section Walk

variable {perm : List Nat} (hperm : perm.Perm (List.range it.ndim)) {stride : Nat → Int}
  (hdense : DenseOrder (sizeAt it) stride perm 1)
include hperm hdense

theorem slowStrideBytes_getD (op : OperandInfo) {d : Nat} (hd : d < it.ndim)
    (hsize : sizeAt it d ≠ 1) :
    (invertPerm perm (slowStrideBytes it perm op)).getD d 0 =
      (op.elementSize : Nat) * stride d := by
  have hplen : perm.length = it.ndim := by simpa using hperm.length_eq
  have hcompat : DenseOrder (sizeAt it)
      (fun d => (invertPerm perm (slowStrideBytes it perm op)).getD d 0) perm
      (op.elementSize : Nat) := by
    apply denseOrder_compatibleStride
    intro k hk
    exact invertPerm_getD hperm (length_slowStrideBytes hperm op) k (by omega)
  have hscaled := hdense.scale (op.elementSize : Nat)
  rw [Nat.mul_one] at hscaled
  exact hcompat.unique hscaled (hperm.mem_iff.mpr (mem_range.mpr hd)) hsize

/-- An output has the strides of the layout. -/
theorem slowStrides_getD (hnumel : it.numel ≠ 0) (op : OperandInfo) {d : Nat}
    (hd : 1 < sizeAt it d) : (slowStrides it perm op).getD d 0 = stride d := by
  have hlt := lt_ndim_of_large hd
  unfold slowStrides
  split
  · next hinv =>
      have hpos : ∀ s ∈ it.shape_, 0 < s := by
        intro s hs
        exact Nat.pos_of_ne_zero fun hzero =>
          hnumel (prod_eq_zero_iff.mpr (hzero ▸ hs))
      have hcontig := denseOrder_contiguousStrides hpos
      rw [hinv] at hdense
      refine hcontig.unique hdense ?_ (by unfold sizeAt at hd; omega)
      rw [mem_reverse, mem_range]
      exact hlt
  · have hlen : d < (invertPerm perm (slowStrideBytes it perm op)).length := by
      rw [length_invertPerm, length_slowStrideBytes hperm]
      exact hlt
    have hbytes := slowStrideBytes_getD hperm hdense op hlt (by omega)
    rw [getD_eq_getElem _ _ hlen] at hbytes
    rw [getD_eq_getElem _ _ (by simpa using hlen), getElem_map, hbytes]
    exact Int.mul_ediv_cancel_left _ (by exact_mod_cast op.elementSize.pos.ne')

theorem slowOperand_stride (hp : Prepared it) (hstatic : config.static_shape_ = none)
    (htensors : ∀ t ∈ layoutTensors it, ∀ d, 1 < sizeAt it d → t.strides.getD d 0 = stride d)
    {op : OperandInfo} (hop : op ∈ it.operands_) {k : Nat} (hk : k < it.ndim)
    (hsize : 1 < sizeAt it (perm.getD k 0)) :
    (slowOperand config it perm hperm op).stride_bytes.getD k 0 =
      (op.elementSize : Nat) * stride (perm.getD k 0) := by
  have hplen : perm.length = it.ndim := by simpa using hperm.length_eq
  have hnew : (slowStrideBytes it perm op).getD k 0 =
      (op.elementSize : Nat) * stride (perm.getD k 0) := by
    have hbytes := slowStrideBytes_getD hperm hdense op (lt_ndim_of_large hsize) (by omega)
    rw [← hbytes]
    exact (invertPerm_getD hperm (length_slowStrideBytes hperm op) k hk).symm
  unfold slowOperand
  cases ht : op.tensor_base with
  | none => exact hnew
  | some t =>
    cases hres : op.will_resize with
    | true => exact hnew
    | false =>
      simp only [hstatic, isSome_none, Bool.false_eq_true, if_false]
      have hget := permuted_getD perm
        (stridesFor it.shape_ t.sizes t.strides t.element_size) k (by omega)
      refine hget.trans ?_
      have helem : op.elementSize = t.element_size := by simp [OperandInfo.elementSize, ht]
      rw [helem, ← htensors t (mem_layoutTensors.mpr ⟨op, hop, ht, hres⟩) _ hsize]
      exact stridesFor_same it.shape_ t (hp.sameShape op hop t ht hres) _

end Walk

/-- The iterator of the slow path before its dimensions are coalesced. -/
def slowReordered (config : TensorIteratorConfig) (it : TensorIteratorBase) (perm : List Nat)
    (hperm : perm.Perm (List.range it.ndim)) : TensorIteratorBase :=
  { it with
    shape_ := permuted perm it.shape_
    perm_ := perm
    operands_ := it.operands_.map (slowOperand config it perm hperm) }

theorem slowSetUp_eq (hp : Prepared it) :
    slowSetUp config it = .ok (coalesceDimensions (slowReordered config it
      (reorderPerm (computeStrides config it)) (reorderPerm_perm (computeStrides config it)))) := by
  unfold slowSetUp
  rw [allocate_reordered hp]
  rfl

theorem slowReordered_ndim (hperm : perm.Perm (List.range it.ndim)) :
    (slowReordered config it perm hperm).ndim = it.ndim := by
  simpa [slowReordered, TensorIteratorBase.ndim, permuted] using hperm.length_eq

theorem slowReordered_fullStrides (config : TensorIteratorConfig)
    (hperm : perm.Perm (List.range it.ndim)) :
    FullStrides (slowReordered config it perm hperm) := by
  intro op hop
  rw [slowReordered_ndim]
  obtain ⟨op', _, rfl⟩ := mem_map.mp hop
  have hplen : perm.length = it.ndim := by simpa using hperm.length_eq
  unfold slowOperand
  split
  · split
    · exact length_slowStrideBytes hperm op'
    · simpa [permuted] using hplen
  · exact length_slowStrideBytes hperm op'

/-- Every operand is walked through in the order of the layout. -/
theorem slowReordered_offsets (hp : Prepared it) (hstatic : config.static_shape_ = none)
    {order : List Nat} {stride : Nat → Int}
    (hlayout : it.numel ≠ 0 → Layout config it order stride) :
    offsets (axes (slowReordered config it (reorderPerm (computeStrides config it))
        (reorderPerm_perm (computeStrides config it)))) =
      (List.range it.numel).map fun n => n • elementSizes it := by
  have hperm : (reorderPerm (computeStrides config it)).Perm (List.range it.ndim) :=
    reorderPerm_perm (computeStrides config it)
  have hvolume : volume (axes (slowReordered config it (reorderPerm (computeStrides config it))
      hperm)) = it.numel := by
    rw [axes_volume]
    have hshape : (permuted (reorderPerm (computeStrides config it)) it.shape_).Perm it.shape_ := by
      have := hperm.map fun i => it.shape_.getD i default
      refine this.trans (Perm.of_eq ?_)
      exact map_getD_range it.shape_
    exact hshape.prod_eq
  by_cases hnumel : it.numel = 0
  · rw [offsets, hvolume, hnumel]
    rfl
  · have hl := hlayout hnumel
    have hdense := hl.densePerm hnumel
    have hplen : (reorderPerm (computeStrides config it)).length = it.ndim := by
      simpa using hperm.length_eq
    have hcorr : Forall₂ (fun a d => a.size = sizeAt it d ∧
        (sizeAt it d ≠ 1 → a.stride = fun arg => stride d * elementSizes it arg))
        (axes (slowReordered config it (reorderPerm (computeStrides config it)) hperm))
        (reorderPerm (computeStrides config it)) := by
      rw [axes_eq, slowReordered_ndim]
      apply forall₂_iff_get.mpr
      refine ⟨by simp [hplen], ?_⟩
      intro k h₁ h₂
      have hk : k < it.ndim := by simpa using h₁
      have hdim : (reorderPerm (computeStrides config it)).get ⟨k, h₂⟩ =
          (reorderPerm (computeStrides config it)).getD k 0 := by
        rw [getD_eq_getElem _ _ h₂]
        rfl
      rw [hdim]
      simp only [get_eq_getElem, getElem_map, getElem_range]
      refine ⟨permuted_getD _ it.shape_ k (by omega), ?_⟩
      intro hne
      have hlt : (reorderPerm (computeStrides config it)).getD k 0 < it.ndim := by
        rw [← hdim]
        exact mem_range.mp (hperm.mem_iff.mp (get_mem _ _))
      have hlarge : 1 < sizeAt it ((reorderPerm (computeStrides config it)).getD k 0) := by
        have := sizeAt_pos hnumel hlt
        omega
      funext arg
      simp only [axisAt, operandStrides, elementSizes, slowReordered, getElem?_map]
      cases harg : it.operands_[arg]? with
      | none => simp
      | some op =>
        simp only [map_some, getD_some]
        rw [slowOperand_stride hperm hdense hp hstatic hl.tensors (mem_of_getElem? harg) hk hlarge]
        exact Int.mul_comm _ _
    have hfilter := dense_of_denseOrder _ _ 1 hcorr hdense
    rw [one_nsmul] at hfilter
    rw [(sameWalk_filter _).offsets_eq, offsets_dense hfilter, ← (sameWalk_filter _).1, hvolume]

end Slow

end PyTorchCore.TensorIterator
