import PyTorchCore.Core.DenseLayout
import PyTorchCore.TensorIterator.SlowLayout

/-!
# Dense strides

`infer_dense_strides` sorts the dimensions of a tensor as `reorder_dimensions` does, in a loop
of its own, and gives them the strides of a dense tensor in that order.
-/

namespace PyTorchCore.TensorIterator

open List
open Lib.AmbiguousSort
open PyTorchCore.Core (TensorImpl)

section Infer

variable (t : TensorImpl)

/-- `should_swap` of `infer_dense_strides`. -/
def inferShouldSwap (dim0 dim1 : ℕ) : ℤ :=
  let stride0 := t.stride dim0
  let stride1 := t.stride dim1
  if stride0 = 0 ∨ stride1 = 0 then 0
  else if stride0 < stride1 then -1
  else if stride0 > stride1 then 1
  else if t.size dim0 > t.size dim1 then 1
  else 0

/-- The inner loop, with the values that `j` still takes. -/
def swapLoop (cmp : ℕ → ℕ → ℤ) (i : ℕ) : List ℕ → ℕ → List ℕ → List ℕ
  | [], _, perm => perm
  | j :: js, dim1, perm =>
    let dim0 := i - j
    let comparison := cmp (perm.getD dim0 0) (perm.getD dim1 0)
    if comparison > 0 then swapLoop cmp i js dim0 (swapAt perm dim0 dim1)
    else if comparison < 0 then perm
    else swapLoop cmp i js dim1 perm

/-- The sorted `perm`. -/
def inferPerm : List ℕ :=
  (List.range' 1 (t.dim - 1)).foldl
    (fun perm i => swapLoop (inferShouldSwap t) i (List.range' 1 i) i perm)
    (List.range t.dim).reverse

/-- The loop that fills `out_strides`. -/
def strideLoop : List ℕ → ℕ → List ℕ → List ℕ
  | [], _, out_strides => out_strides
  | idx :: perm, curr_stride, out_strides =>
    strideLoop perm (if t.size idx > 1 then curr_stride * t.size idx else curr_stride)
      (out_strides.set idx curr_stride)

def inferDenseStrides : List ℕ :=
  if t.dim = 0 then []
  else if t.dim = 1 then [1]
  else strideLoop t (inferPerm t) 1 (List.replicate t.dim 0)

/-- The tensor on elements of some size. -/
def ofImpl (element_size : ℕ+) : TensorBase where
  sizes := t.sizes
  strides := t.strides.map Nat.cast
  element_size
  sameRank := by rw [length_map, t.sameRank]

end Infer

/-- A unary operation into an undefined output. -/
def unaryConfig (input : TensorBase) (target_element_size : ℕ+) : TensorIteratorConfig where
  tensors_ := [⟨none, 0, target_element_size⟩, ⟨some input, 1, target_element_size⟩]
  num_outputs_ := 1
  static_shape_ := none
  resize_outputs_ := true
  is_reduction_ := false
  enforce_linear_iteration_ := false

/-- The strides of the first output that the slow path allocates. -/
def slowOutputStrides (config : TensorIteratorConfig) : Except String (Option (List ℤ)) := do
  let it ← prepare config
  let it ← allocateOrResizeOutputs (reorderDimensions (computeStrides config it))
  .ok ((it.operands_.head?.bind OperandInfo.tensor_base).map TensorBase.strides)

/-! ## The two sorts -/

theorem swapLoop_eq (cmp : ℕ → ℕ → ℤ) {i k : ℕ} (hk : k ≤ i) (dim1 : ℕ) (perm : List ℕ) :
    swapLoop cmp i (List.range' (i - k + 1) k) dim1 perm = insertDim cmp k dim1 perm := by
  induction k generalizing dim1 perm with
  | zero => rfl
  | succ k ih =>
    have hdim0 : i - (i - (k + 1) + 1) = k := by omega
    have hnext : i - (k + 1) + 1 + 1 = i - k + 1 := by omega
    rw [range'_succ, swapLoop, insertDim, hdim0, hnext]
    simp only [ih (by omega)]

theorem inferPerm_eq (t : TensorImpl) :
    inferPerm t = sortDims (inferShouldSwap t) (List.range t.dim).reverse := by
  have hloop : (fun perm i => swapLoop (inferShouldSwap t) i (List.range' 1 i) i perm) =
      fun perm i => insertDim (inferShouldSwap t) i i perm := by
    funext perm i
    have hi := swapLoop_eq (inferShouldSwap t) (Nat.le_refl i) i perm
    rwa [Nat.sub_self] at hi
  rw [inferPerm, sortDims, hloop, length_reverse, length_range]

theorem inferPerm_perm (t : TensorImpl) : (inferPerm t).Perm (List.range t.dim) := by
  rw [inferPerm_eq]
  exact (sortDims_perm _ _).trans (reverse_perm _)

theorem compareBy_eq {size : ℕ → ℕ} {s : ℕ → ℤ} {t : TensorImpl} {e : ℤ} (he : 0 < e)
    (hsize : ∀ d, size d = t.size d) (hs : ∀ d, s d = e * t.stride d) :
    compareBy size [s] = inferShouldSwap t := by
  funext p x
  have hzero : ∀ d, s d = 0 ↔ t.stride d = 0 := fun d => by
    rw [hs, Int.mul_eq_zero, or_iff_right he.ne', Int.natCast_eq_zero]
  have hlt : ∀ a b, s a < s b ↔ t.stride a < t.stride b := fun a b => by
    rw [hs, hs, Int.mul_lt_mul_left he, Int.ofNat_lt]
  simp [compareBy, compareStrides, inferShouldSwap, hzero, hlt, hsize]

/-! ## The strides -/

theorem compatibleStride_mul (shape : List ℕ) (z w : ℤ) :
    compatibleStride shape (z * w) = (compatibleStride shape w).map (z * ·) := by
  induction shape generalizing w with
  | nil => rfl
  | cons s shape ih => rw [compatibleStride, compatibleStride, map_cons, mul_assoc, ih]

theorem compatibleStride_append (shape shape' : List ℕ) (z : ℤ) :
    compatibleStride (shape ++ shape') z =
      compatibleStride shape z ++ compatibleStride shape' (z * (shape.prod : ℕ)) := by
  induction shape generalizing z with
  | nil => simp [compatibleStride]
  | cons s shape ih =>
    rw [cons_append, compatibleStride, ih, compatibleStride, cons_append, prod_cons, Nat.cast_mul,
      mul_assoc]

theorem contiguousStrides_eq {sizes : List ℕ} (hpos : ∀ s ∈ sizes, 0 < s) :
    contiguousStrides sizes = (compatibleStride sizes.reverse 1).reverse := by
  induction sizes with
  | nil => rfl
  | cons s sizes ih =>
    have hpos' : ∀ s ∈ sizes, 0 < s := fun s hs => hpos s (mem_cons_of_mem _ hs)
    rw [reverse_cons, compatibleStride_append, reverse_append, ← ih hpos', contiguousStrides,
      contiguousStridesLoop, contiguousStridesLoop_next hpos', Int.one_mul, prod_reverse]
    rfl

theorem invertPerm_reverse_range (input : List ℤ) :
    invertPerm (List.range input.length).reverse input = input.reverse := by
  refine ext_getElem (by rw [length_invertPerm, length_reverse]) fun d h₁ h₂ => ?_
  rw [length_reverse] at h₂
  have hget := invertPerm_getD (reverse_perm _) (rfl : input.length = _) (input.length - 1 - d)
    (by omega)
  have hd : (List.range input.length).reverse.getD (input.length - 1 - d) 0 = d := by
    rw [getD_eq_getElem _ _ (by simp; omega), getElem_reverse, getElem_range]
    simp only [length_range]
    omega
  rw [hd, getD_eq_getElem _ _ h₁, getD_eq_getElem _ _ (by omega)] at hget
  rw [hget, getElem_reverse]

theorem invertPerm_map {f : ℤ → ℤ} (perm : List ℕ) (hf : f 0 = 0) (input : List ℤ) :
    (invertPerm perm input).map f = invertPerm perm (input.map f) := by
  have hfold : ∀ (l : List (ℕ × ℤ)) (res : List ℤ),
    (l.foldl (fun res p => res.set p.1 p.2) res).map f =
      (l.map (Prod.map id f)).foldl (fun res p => res.set p.1 p.2) (res.map f) := by
    intro l
    induction l with
    | nil => exact fun _ => rfl
    | cons p l ih =>
      intro res
      rw [foldl_cons, ih, map_set, map_cons, foldl_cons]
      rfl
  have hdefault : f default = default := hf
  rw [invertPerm, hfold, invertPerm, length_map, map_replicate, ← zip_map_right, hdefault]

/-- The loop writes what `invert_perm` writes. -/
theorem strideLoop_eq (t : TensorImpl) (hsizes : ∀ i < t.dim, 1 ≤ t.size i) {perm : List ℕ}
    (hperm : ∀ i ∈ perm, i < t.dim) (curr : ℕ) (out : List ℕ) :
    (strideLoop t perm curr out).map Nat.cast =
      (perm.zip (compatibleStride (perm.map t.size) curr)).foldl (fun res p => res.set p.1 p.2)
        (out.map (Nat.cast : ℕ → ℤ)) := by
  induction perm generalizing curr out with
  | nil => rfl
  | cons idx perm ih =>
    have hsize := hsizes idx (hperm idx mem_cons_self)
    have hnext : (if t.size idx > 1 then curr * t.size idx else curr) = curr * t.size idx := by
      split
      · rfl
      · rw [show t.size idx = 1 by omega, Nat.mul_one]
    rw [strideLoop, hnext, ih fun i hi => hperm i (mem_cons_of_mem _ hi)]
    simp [compatibleStride]

theorem inferDenseStrides_eq {t : TensorImpl} (hsizes : ∀ s ∈ t.sizes, 1 ≤ s) :
    (inferDenseStrides t).map Nat.cast =
      invertPerm (inferPerm t) (compatibleStride ((inferPerm t).map t.size) 1) := by
  have hperm := inferPerm_perm t
  have hlength : (inferPerm t).length = t.dim := by simpa using hperm.length_eq
  have hloop : inferDenseStrides t =
      strideLoop t (inferPerm t) 1 (List.replicate t.dim 0) := by
    unfold inferDenseStrides
    split
    · next h => simp [inferPerm, h, strideLoop]
    · split
      · next h => simp [inferPerm, h, strideLoop]
      · rfl
  rw [hloop, strideLoop_eq t _ fun i hi => mem_range.mp (hperm.mem_iff.mp hi)]
  · simp [invertPerm, hlength]
  · intro i hi
    rw [TensorImpl.size, getD_eq_getElem _ _ hi]
    exact hsizes _ (getElem_mem hi)

/-! ## The slow path -/

section Unary

variable (t : TensorImpl) (element_size target_element_size : ℕ+)

/-- The iterator of the unary operation before its strides are set up. -/
def unaryIterator : TensorIteratorBase where
  shape_ := t.sizes
  perm_ := []
  operands_ := [⟨none, target_element_size, true, false, false, []⟩,
    ⟨some (ofImpl t element_size), target_element_size, false, false, false, []⟩]
  num_outputs_ := 1
  is_reduction_ := false
  enforce_linear_iteration_ := false
  all_ops_same_shape_ := true
  has_coalesced_dimensions_ := false

theorem prepare_unary : prepare (unaryConfig (ofImpl t element_size) target_element_size) =
    .ok (unaryIterator t element_size target_element_size) := by
  simp [prepare, computeShape, populateOperands, unaryConfig, unaryIterator, ShapeScan.step, ofImpl,
    markResizeOutputs, markResizeOutput, computeTypes, ConfigTensor.isSame, bind, Except.bind, pure,
    Except.pure]

/-- The permutation of the slow path is the one inferred here. -/
theorem reorderPerm_unary :
    reorderPerm (computeStrides (unaryConfig (ofImpl t element_size) target_element_size)
      (unaryIterator t element_size target_element_size)) = inferPerm t := by
  have hpos : (0 : ℤ) < (element_size : ℕ) := Int.natCast_pos.mpr element_size.pos
  by_cases hone : t.dim = 1
  · have hdim : (computeStrides (unaryConfig (ofImpl t element_size) target_element_size)
        (unaryIterator t element_size target_element_size)).ndim = 1 := hone
    rw [reorderPerm, if_pos hdim, inferPerm, hone]
    rfl
  · have hdim : (computeStrides (unaryConfig (ofImpl t element_size) target_element_size)
        (unaryIterator t element_size target_element_size)).ndim = t.dim := rfl
    rw [reorderPerm, hdim, if_neg hone, if_neg (by simp [computeStrides, unaryIterator]),
      inferPerm_eq]
    by_cases hzero : t.dim = 0
    · rw [hzero]
      rfl
    have hvotes : votingStrides (computeStrides
        (unaryConfig (ofImpl t element_size) target_element_size)
        (unaryIterator t element_size target_element_size)).operands_ =
        [fun d => (stridesFor t.sizes t.sizes (ofImpl t element_size).strides element_size).getD
          d 0] := by
      have hne : stridesFor t.sizes t.sizes (ofImpl t element_size).strides element_size ≠ [] := by
        refine ne_nil_of_length_pos ?_
        rw [stridesFor, length_map, length_range]
        exact Nat.pos_of_ne_zero hzero
      simp [votingStrides, computeStrides, unaryIterator, unaryConfig, ofImpl] at hne ⊢
      simp [hne]
    rw [shouldSwap_eq rfl, hvotes]
    refine congrFun (congrArg _ (compareBy_eq hpos (fun _ => rfl) fun d => ?_)) _
    have hsame := stridesFor_same t.sizes (ofImpl t element_size) rfl d
    refine hsame.trans (congrArg _ ?_)
    rw [ofImpl, getD_eq_getElem?_getD, getElem?_map, TensorImpl.stride, getD_eq_getElem?_getD]
    cases t.strides[d]? with
    | none => rfl
    | some s => rfl

/-- The slow path gives the output of a unary operation the dense strides. -/
theorem slowOutputStrides_unary (hsizes : ∀ s ∈ t.sizes, 1 ≤ s) :
    slowOutputStrides (unaryConfig (ofImpl t element_size) target_element_size) =
      .ok (some ((inferDenseStrides t).map Nat.cast)) := by
  have hprepare := prepare_unary t element_size target_element_size
  have hstrides : slowStrides (unaryIterator t element_size target_element_size) (inferPerm t)
      ⟨none, target_element_size, true, false, false, []⟩ =
      (inferDenseStrides t).map Nat.cast := by
    rw [inferDenseStrides_eq hsizes]
    have hndim : (unaryIterator t element_size target_element_size).ndim = t.dim := rfl
    unfold slowStrides
    rw [hndim]
    split
    · next hinverted =>
      have hsizes' : (List.range t.dim).reverse.map t.size = t.sizes.reverse := by
        rw [map_reverse]
        exact congrArg reverse TensorImpl.map_axis_range.1
      have hlength : (compatibleStride t.sizes.reverse 1).length = t.dim := by
        rw [length_compatibleStride, length_reverse]
        rfl
      rw [hinverted, hsizes', ← hlength, invertPerm_reverse_range]
      exact contiguousStrides_eq hsizes
    · have hpos : ((target_element_size : ℕ) : ℤ) ≠ 0 :=
        Int.natCast_ne_zero.mpr target_element_size.ne_zero
      have hbytes : slowStrideBytes (unaryIterator t element_size target_element_size) (inferPerm t)
          ⟨none, target_element_size, true, false, false, []⟩ =
          (compatibleStride ((inferPerm t).map t.size) 1).map
            (((target_element_size : ℕ) : ℤ) * ·) := by
        rw [← compatibleStride_mul, Int.mul_one]
        rfl
      rw [hbytes, ← invertPerm_map _ (Int.mul_zero ((target_element_size : ℕ) : ℤ)), map_map]
      refine (map_congr_left fun x _ => ?_).trans (map_id _)
      exact Int.mul_ediv_cancel_left x hpos
  unfold slowOutputStrides
  rw [hprepare]
  simp only [bind, Except.bind]
  rw [allocate_reordered (prepared_of_prepare hprepare rfl rfl)]
  refine congrArg (fun strides => Except.ok (some strides)) (Eq.trans ?_ hstrides)
  rw [← reorderPerm_unary t element_size target_element_size]

end Unary

/-! ## Dense results -/

section DenseResult

variable {t : TensorImpl}

theorem dense_iff_denseOrder {perm : List ℕ} (hsizes : ∀ i ∈ perm, 1 ≤ t.size i) (z : ℕ) :
    Lib.LoopNest.Dense z ((t.largeDims perm).map t.axis) ↔
      DenseOrder t.size (fun i => (t.stride i : ℤ)) perm z := by
  induction perm generalizing z with
  | nil => exact Iff.rfl
  | cons i perm ih =>
    have hi := hsizes i mem_cons_self
    have ih := fun z => ih (fun j hj => hsizes j (mem_cons_of_mem _ hj)) z
    by_cases hlarge : 2 ≤ t.size i
    · have hcons : t.largeDims (i :: perm) = i :: t.largeDims perm :=
        filter_cons_of_pos (decide_eq_true hlarge)
      have hnext : t.size i • z = z * t.size i := Nat.mul_comm _ _
      rw [hcons, map_cons, Lib.LoopNest.Dense, TensorImpl.axis, DenseOrder, ← ih, hnext,
        Nat.cast_inj]
      exact and_congr_left fun _ => ⟨fun h _ => h, fun h => h (by omega)⟩
    · have hone : t.size i = 1 := by omega
      have hskip : t.largeDims (i :: perm) = t.largeDims perm :=
        filter_cons_of_neg (by rwa [decide_eq_true_eq])
      rw [hskip, ih, DenseOrder, hone, Nat.mul_one]
      exact ⟨fun h => ⟨fun hne => absurd rfl hne, h⟩, fun h => h.2⟩

theorem size_pos_of_dim (hsizes : ∀ s ∈ t.sizes, 1 ≤ s) {i : ℕ} (hi : i < t.dim) :
    1 ≤ t.size i := by
  rw [TensorImpl.size, getD_eq_getElem _ _ hi]
  exact hsizes _ (getElem_mem hi)

/-- Dense tensors are dense along their dimensions by ascending stride. -/
theorem denseOrder_of_nonOverlapping (hsizes : ∀ s ∈ t.sizes, 1 ≤ s)
    (h : t.NonOverlappingAndDense) : ∃ order : List ℕ, order.Perm (List.range t.dim) ∧
      DenseOrder t.size (fun i => (t.stride i : ℤ)) order 1 := by
  refine ⟨(List.range t.dim).mergeSort fun a b => t.stride a ≤ t.stride b, mergeSort_perm _ _, ?_⟩
  have hperm := mergeSort_perm (List.range t.dim) fun a b => t.stride a ≤ t.stride b
  have hsorted : ((List.range t.dim).mergeSort fun a b => t.stride a ≤ t.stride b).Pairwise
      fun a b => t.stride a ≤ t.stride b := by
    refine (pairwise_mergeSort (fun a b c => ?_) (fun a b => ?_) _).imp of_decide_eq_true
    · simp only [decide_eq_true_eq]
      exact le_trans
    · simp only [Bool.or_eq_true, decide_eq_true_eq]
      exact Nat.le_total _ _
  refine (dense_iff_denseOrder (fun i hi =>
    size_pos_of_dim hsizes (mem_range.mp (hperm.mem_iff.mp hi))) 1).mp ?_
  rw [TensorImpl.nonOverlappingAndDense_iff_offsets hsizes hperm] at h
  exact (Lib.LoopNest.offsets_perm_range_iff (fun _ => TensorImpl.two_le_of_largeDims)
    (pairwise_map.mpr (hsorted.filter _))).mp h

theorem nonOverlapping_of_denseOrder (hsizes : ∀ s ∈ t.sizes, 1 ≤ s) {perm : List ℕ}
    (hperm : perm.Perm (List.range t.dim))
    (h : DenseOrder t.size (fun i => (t.stride i : ℤ)) perm 1) : t.NonOverlappingAndDense := by
  rw [TensorImpl.nonOverlappingAndDense_iff_offsets hsizes hperm,
    Lib.LoopNest.offsets_dense ((dense_iff_denseOrder (fun i hi =>
      size_pos_of_dim hsizes (mem_range.mp (hperm.mem_iff.mp hi))) 1).mpr h)]
  simp

end DenseResult

end PyTorchCore.TensorIterator
