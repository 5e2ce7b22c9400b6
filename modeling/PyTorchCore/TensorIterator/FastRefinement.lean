import PyTorchCore.TensorIterator.SlowLayout

/-!
# TensorIterator: the fast setup agrees with the slow path

Every classification of `compute_fast_setup_type` gives a layout: an order of the dimensions along
which all tensors are dense.

Both setups visit the same offsets, and they allocate outputs of the same strides, but for empty
tensors.
-/

namespace PyTorchCore.TensorIterator

open Lib Lib.LoopNest Lib.AmbiguousSort OperandInfo
open Function List

/-! ## Layouts of single tensors -/

section Flags

variable {t : TensorBase}

def DenseAlong (t : TensorBase) (order : List Nat) : Prop :=
  order.Perm (List.range t.sizes.length) ∧
    DenseOrder (fun d => t.sizes.getD d 0) (fun d => t.strides.getD d 0) order 1

theorem denseAlong_of_contiguous (h : t.isContiguous = true) (hnumel : t.numel ≠ 0) :
    DenseAlong t (List.range t.sizes.length).reverse := by
  unfold TensorBase.isContiguous at h
  rw [Bool.or_eq_true, beq_iff_eq] at h
  exact ⟨reverse_perm _, denseOrder_of_stridesFollow (h.resolve_left hnumel)⟩

theorem denseAlong_of_channelsLast (h : t.isChannelsLastContiguous = true) :
    t.sizes.length = 4 ∧ DenseAlong t [1, 3, 2, 0] := by
  unfold TensorBase.isChannelsLastContiguous at h
  rw [Bool.and_eq_true, beq_iff_eq] at h
  refine ⟨h.1, ?_, denseOrder_of_stridesFollow h.2⟩
  rw [h.1]
  decide

theorem denseAlong_of_channelsLast3d (h : t.isChannelsLast3dContiguous = true) :
    DenseAlong t [1, 4, 3, 2, 0] := by
  unfold TensorBase.isChannelsLast3dContiguous at h
  rw [Bool.and_eq_true, beq_iff_eq] at h
  refine ⟨?_, denseOrder_of_stridesFollow h.2⟩
  rw [h.1]
  decide

theorem size_pos_of_numel (hnumel : t.numel ≠ 0) {d : Nat} (hd : d < t.sizes.length) :
    0 < t.sizes.getD d 0 := by
  rw [getD_eq_getElem _ _ hd]
  exact Nat.pos_of_ne_zero fun hzero =>
    hnumel (prod_eq_zero_iff.mpr (hzero ▸ getElem_mem hd))

/-- A tensor that counts as dense is dense along some order. -/
theorem denseAlong_of_computed (h : t.computeNonOverlappingAndDense = true)
    (hnumel : t.numel ≠ 0) : ∃ order, DenseAlong t order := by
  unfold TensorBase.computeNonOverlappingAndDense at h
  split at h
  · next hone =>
      refine ⟨[0], by rw [hone]; exact Perm.refl _, ?_, trivial⟩
      intro hsize
      have hpos := size_pos_of_numel hnumel (d := 0) (by omega)
      rw [Bool.or_eq_true, decide_eq_true_eq, beq_iff_eq] at h
      rcases h with h | h
      · simp only at hsize
        omega
      · exact h
  · -- the sorted dimensions, followed by those of size one
    refine ⟨t.sortedDims ++
      (List.range t.sizes.length).filter (fun d => !decide (2 ≤ t.sizes.getD d 0)), ?_, ?_⟩
    · have hsorted : t.sortedDims.Perm
          ((List.range t.sizes.length).filter fun d => 2 ≤ t.sizes.getD d 0) :=
        mergeSort_perm _ _
      exact (hsorted.append_right _).trans (filter_append_perm _ _)
    · apply DenseOrder.append (denseOrder_of_stridesFollow h)
      intro d hd
      obtain ⟨hrange, hsmall⟩ := mem_filter.mp hd
      have hpos := size_pos_of_numel hnumel (mem_range.mp hrange)
      simp only [Bool.not_eq_true', decide_eq_false_iff_not] at hsmall
      omega

theorem denseAlong_of_dense (h : t.isNonOverlappingAndDense = true) (hnumel : t.numel ≠ 0) :
    ∃ order, DenseAlong t order := by
  unfold TensorBase.isNonOverlappingAndDense at h
  simp only [Bool.or_eq_true] at h
  rcases h with ((h | h) | h) | h
  · exact ⟨_, denseAlong_of_contiguous h hnumel⟩
  · exact ⟨_, (denseAlong_of_channelsLast h).2⟩
  · exact ⟨_, denseAlong_of_channelsLast3d h⟩
  · exact denseAlong_of_computed h hnumel

end Flags

/-! ## The classification -/

section Classify

variable {it : TensorIteratorBase}

theorem contiguous_of_type (h : computeFastSetupType it = .CONTIGUOUS) :
    ∀ t ∈ layoutTensors it, t.isContiguous = true := by
  unfold computeFastSetupType at h
  simp only at h
  split at h
  · cases h
  · split at h
    · split at h
      · next hall => exact all_eq_true.mp hall
      · cases h
    · split at h
      · next hall => exact all_eq_true.mp hall
      · split at h
        · cases h
        · split at h
          · split at h
            · cases h
            · split at h
              · cases h
              · cases h
          · cases h

/-- When the classification is channels last. -/
theorem channelsLast_of_type (h : computeFastSetupType it = .CHANNELS_LAST) :
    it.enforce_linear_iteration_ = false ∧ (¬ ∀ t ∈ layoutTensors it, t.isContiguous = true) ∧
      ∀ t ∈ layoutTensors it, t.isChannelsLastContiguous = true := by
  unfold computeFastSetupType at h
  simp only at h
  split at h
  · cases h
  · split at h
    · split at h
      · cases h
      · cases h
    · next hlin =>
        split at h
        · cases h
        · next hcontig =>
            split at h
            · next hall =>
                refine ⟨by simpa using hlin, ?_, all_eq_true.mp hall⟩
                rwa [all_eq_true] at hcontig
            · split at h
              · split at h
                · cases h
                · split at h
                  · cases h
                  · cases h
              · cases h

/-- When the classification is dense. -/
theorem dense_of_type (h : computeFastSetupType it = .NON_OVERLAPPING_DENSE) :
    it.enforce_linear_iteration_ = false ∧ (¬ ∀ t ∈ layoutTensors it, t.isContiguous = true) ∧
      (∀ t ∈ layoutTensors it, t.isNonOverlappingAndDense = true) ∧
      ∀ t ∈ layoutTensors it, ∀ t' ∈ layoutTensors it, t.strides = t'.strides := by
  unfold computeFastSetupType at h
  simp only at h
  split at h
  · cases h
  · split at h
    · split at h
      · cases h
      · cases h
    · next hlin =>
        split at h
        · cases h
        · next hcontig =>
            rw [all_eq_true] at hcontig
            split at h
            · cases h
            · split at h
              · next hall =>
                  refine ⟨by simpa using hlin, hcontig, all_eq_true.mp hall, ?_⟩
                  split at h
                  · next hnil =>
                      intro t ht
                      rw [reverse_eq_nil_iff.mp hnil] at ht
                      cases ht
                  · next prev others hrev =>
                      split at h
                      · next hothers =>
                          have hprev : ∀ t ∈ layoutTensors it, t.strides = prev.strides := by
                            intro t ht
                            rw [← mem_reverse, hrev] at ht
                            rcases mem_cons.mp ht with rfl | ht
                            · rfl
                            · simpa using all_eq_true.mp hothers t ht
                          intro t ht t' ht'
                          rw [hprev t ht, hprev t' ht']
                      · cases h
              · cases h

theorem flags_of_type (h : computeFastSetupType it ≠ .NONE) :
    it.is_reduction_ = false ∧ it.all_ops_same_shape_ = true := by
  unfold computeFastSetupType at h
  split at h
  · exact absurd rfl h
  · next hflags =>
      simpa only [Bool.or_eq_true, Bool.not_eq_true', not_or, Bool.not_eq_true,
        Bool.not_eq_false] using hflags

end Classify

/-! ## The layout of every classification -/

section Layouts

variable {config : TensorIteratorConfig} {it : TensorIteratorBase} {stride : Nat → Int}

theorem sortedOn_of_ascending {size : Nat → Nat} {dims : List Nat}
    (h : dims.Pairwise fun a b => 1 < size a → 1 < size b → stride a < stride b) :
    SortedOn (large size) stride dims := by
  refine (h.filter (large size)).imp_of_mem ?_
  intro a b ha hb hlt
  exact (hlt (by simpa [large] using (mem_filter.mp ha).2)
    (by simpa [large] using (mem_filter.mp hb).2)).le

theorem reorderPerm_sorted (hred : it.is_reduction_ = false)
    (hlinear : it.enforce_linear_iteration_ = true →
      SortedOn (large (sizeAt it)) stride (List.range it.ndim).reverse)
    (hsort : it.ndim ≠ 1 → SortedOn (large (sizeAt it)) stride
      (sortDims (compareBy (sizeAt it) (votingStrides (computeStrides config it).operands_))
        (List.range it.ndim).reverse)) :
    SortedOn (large (sizeAt it)) stride (reorderPerm (computeStrides config it)) := by
  have hndim : (computeStrides config it).ndim = it.ndim := rfl
  have hlin : (computeStrides config it).enforce_linear_iteration_ =
      it.enforce_linear_iteration_ := rfl
  unfold reorderPerm
  rw [hndim, hlin, shouldSwap_eq hred]
  split
  · exact sortedOn_singleton _ _ 0
  · next hone =>
      split
      · next h => exact hlinear h
      · exact hsort hone

theorem numel_of_prepared (hp : Prepared it) {t : TensorBase} (ht : t ∈ layoutTensors it) :
    t.sizes = it.shape_ ∧ t.numel = it.numel := by
  obtain ⟨op, hop, htensor, hres⟩ := mem_layoutTensors.mp ht
  have hsizes := hp.sameShape op hop t htensor hres
  exact ⟨hsizes, by rw [TensorBase.numel, hsizes]; rfl⟩

theorem denseOrder_of_denseAlong (hp : Prepared it) {t : TensorBase} (ht : t ∈ layoutTensors it)
    {order : List Nat} (h : DenseAlong t order) :
    order.Perm (List.range it.ndim) ∧
      DenseOrder (sizeAt it) (fun d => t.strides.getD d 0) order 1 := by
  obtain ⟨hperm, hdense⟩ := h
  have hsizes := (numel_of_prepared hp ht).1
  simp only [hsizes] at hperm hdense
  exact ⟨hperm, hdense⟩

theorem shape_pos (hnumel : it.numel ≠ 0) : ∀ s ∈ it.shape_, 0 < s := by
  intro s hs
  exact Nat.pos_of_ne_zero fun hzero => hnumel (prod_eq_zero_iff.mpr (hzero ▸ hs))

variable (hp : Prepared it) (hstatic : config.static_shape_ = none)
  (hred : it.is_reduction_ = false) (hnumel : it.numel ≠ 0)
include hp hstatic hred hnumel

theorem layout_contiguous (hall : ∀ t ∈ layoutTensors it, t.isContiguous = true) :
    Layout config it (List.range it.ndim).reverse
      fun d => (contiguousStrides it.shape_).getD d 0 := by
  have hdense : DenseOrder (sizeAt it) (fun d => (contiguousStrides it.shape_).getD d 0)
      (List.range it.ndim).reverse 1 := denseOrder_contiguousStrides (shape_pos hnumel)
  have hperm : (List.range it.ndim).reverse.Perm (List.range it.ndim) := reverse_perm _
  have htensors : ∀ t ∈ layoutTensors it, ∀ d, 1 < sizeAt it d →
      t.strides.getD d 0 = (contiguousStrides it.shape_).getD d 0 := by
    intro t ht d hd
    obtain ⟨hsizes, hn⟩ := numel_of_prepared hp ht
    have hown := (denseOrder_of_denseAlong hp ht
      (denseAlong_of_contiguous (hall t ht) (hn ▸ hnumel))).2
    rw [hsizes] at hown
    refine hown.unique hdense ?_ (by omega)
    rw [mem_reverse, mem_range]
    exact lt_ndim_of_large hd
  have hasc := hdense.ascending Nat.one_pos fun d hd =>
    sizeAt_pos hnumel (mem_range.mp (hperm.mem_iff.mp hd))
  refine ⟨hperm, hdense, htensors, ?_⟩
  apply reorderPerm_sorted hred
  · intro _
    exact sortedOn_of_ascending hasc
  · intro _
    exact sortDims_ascending (commonLayout hp hstatic hnumel hperm hdense htensors) hasc

/-- Channels-last tensors have the strides of the new outputs. -/
theorem layout_channelsLast
    (hlin : it.enforce_linear_iteration_ = false) (hne : layoutTensors it ≠ [])
    (hall : ∀ t ∈ layoutTensors it, t.isChannelsLastContiguous = true) :
    ∃ strides : List Int, emptyTensorRestride .channelsLast it.shape_ = .ok strides ∧
      strides.length = it.shape_.length ∧
      Layout config it [1, 3, 2, 0] fun d => strides.getD d 0 := by
  obtain ⟨t₀, ht₀⟩ := exists_mem_of_ne_nil _ hne
  have hrank : it.shape_.length = 4 := by
    rw [← (numel_of_prepared hp ht₀).1]
    exact (denseAlong_of_channelsLast (hall t₀ ht₀)).1
  obtain ⟨n, c, h, w, hshape⟩ : ∃ n c h w, it.shape_ = [n, c, h, w] := by
    match hs : it.shape_, hrank with
    | [n, c, h, w], _ => exact ⟨n, c, h, w, rfl⟩
  have hndim : it.ndim = 4 := hrank
  have hperm : [1, 3, 2, 0].Perm (List.range it.ndim) := by
    rw [hndim]
    decide
  have hdense : DenseOrder (sizeAt it) (fun d => [(c * w * h : Int), 1, c * w, c].getD d 0)
      [1, 3, 2, 0] 1 := by
    simp [DenseOrder, sizeAt, hshape]
  have htensors : ∀ t ∈ layoutTensors it, ∀ d, 1 < sizeAt it d →
      t.strides.getD d 0 = [(c * w * h : Int), 1, c * w, c].getD d 0 := by
    intro t ht d hd
    have hown := (denseOrder_of_denseAlong hp ht (denseAlong_of_channelsLast (hall t ht)).2).2
    refine hown.unique hdense ?_ (by omega)
    exact hperm.mem_iff.mpr (mem_range.mpr (lt_ndim_of_large hd))
  have hasc := hdense.ascending Nat.one_pos fun d hd =>
    sizeAt_pos hnumel (mem_range.mp (hperm.mem_iff.mp hd))
  refine ⟨[c * w * h, 1, c * w, c], by rw [hshape]; rfl, by rw [hrank]; rfl, hperm, hdense,
    htensors, ?_⟩
  apply reorderPerm_sorted hred
  · intro h
    rw [hlin] at h
    cases h
  · intro _
    rw [hndim]
    exact sortDims_channelsLast (commonLayout hp hstatic hnumel hperm hdense htensors)
      (votes_ne_nil config hne (by omega)) hasc

theorem layout_dense
    (hlin : it.enforce_linear_iteration_ = false) {t₀ : TensorBase} (ht₀ : t₀ ∈ layoutTensors it)
    (hdense₀ : t₀.isNonOverlappingAndDense = true)
    (hall : ∀ t ∈ layoutTensors it, t.strides = t₀.strides) :
    ∃ order, Layout config it order fun d => t₀.strides.getD d 0 := by
  obtain ⟨hsizes, hn⟩ := numel_of_prepared hp ht₀
  obtain ⟨order, halong⟩ := denseAlong_of_dense hdense₀ (hn ▸ hnumel)
  obtain ⟨hperm, hdense⟩ := denseOrder_of_denseAlong hp ht₀ halong
  have hpos : ∀ d ∈ order, 0 < sizeAt it d := fun d hd =>
    sizeAt_pos hnumel (mem_range.mp (hperm.mem_iff.mp hd))
  refine ⟨order, hperm, hdense, fun t ht d _ => by rw [hall t ht], ?_⟩
  apply reorderPerm_sorted hred
  · intro h
    rw [hlin] at h
    cases h
  · intro _
    by_cases hzero : it.ndim = 0
    · rw [hzero]
      exact Pairwise.nil
    · have hne : layoutTensors it ≠ [] := ne_nil_of_mem ht₀
      have hsort := sortDims_sameStrides (sizeAt it) (fun d => t₀.strides.getD d 0)
        (votes_ne_nil config hne (by omega))
        (by
          intro s hs
          obtain ⟨t, ht, hsd⟩ := votes_spec hp hstatic hs
          refine ⟨(t.element_size : Nat), by exact_mod_cast t.element_size.pos, ?_⟩
          intro d
          rw [hsd d, hall t ht])
        (List.range it.ndim).reverse
      refine hdense.sortedOn hpos ?_ hsort
      exact ((sortDims_perm _ _).trans (reverse_perm _)).trans hperm.symm

end Layouts

/-! ## The fast setup -/

section Fast

variable {config : TensorIteratorConfig} {it : TensorIteratorBase}

/-- The result of the fast setup with outputs of the given strides. -/
def fastResult (it : TensorIteratorBase) (strides : List Int)
    (h : strides.length = it.shape_.length) : TensorIteratorBase :=
  collapse { it with operands_ := it.operands_.map (allocated it.shape_ strides h) }

variable {strides : List Int}

theorem fastSetUp_of_outputs (hp : Prepared it)
    (h : strides.length = it.shape_.length) (htype : computeFastSetupType it ≠ .NONE)
    (houtputs : fastOutputs it (computeFastSetupType it) =
      .ok ((it.operands_.take it.num_outputs_).map (allocated it.shape_ strides h))) :
    fastSetUp it = .ok (some (fastResult it strides h)) := by
  have hinputs : ∀ op ∈ it.operands_.drop it.num_outputs_,
      allocated it.shape_ strides h op = op := by
    intro op hop
    obtain ⟨hdef, hres⟩ := hp.inputs op hop
    simp [allocated, hdef, hres]
  have hall := map_take_append_drop (allocated it.shape_ strides h) it.num_outputs_ it.operands_
    hinputs
  unfold fastSetUp fastResult
  rw [← hall]
  split
  · next hnone => exact absurd hnone htype
  · rw [houtputs]
    rfl

/-- The fast setup succeeds.  The strides of its outputs are those of a layout of the
operands, and contiguous if the iteration is linear. -/
theorem fastSetUp_spec (hp : Prepared it) (hstatic : config.static_shape_ = none)
    (htype : computeFastSetupType it ≠ .NONE) :
    ∃ strides h, fastSetUp it = .ok (some (fastResult it strides h)) ∧
      (it.numel ≠ 0 → ∃ order stride, Layout config it order stride ∧
        ∀ d, 1 < sizeAt it d → strides.getD d 0 = stride d) ∧
      (it.enforce_linear_iteration_ = true → strides = contiguousStrides it.shape_) := by
  obtain ⟨hred, -⟩ := flags_of_type htype
  cases hcase : computeFastSetupType it with
  | NONE => exact absurd hcase htype
  | CONTIGUOUS =>
    have hlen : (contiguousStrides it.shape_).length = it.shape_.length :=
      length_contiguousStrides _
    refine ⟨contiguousStrides it.shape_, hlen, ?_, ?_, fun _ => rfl⟩
    · apply fastSetUp_of_outputs hp hlen htype
      rw [hcase]
      exact mapM_ok fun op _ => setOutput_format op hlen rfl
    · intro hnumel
      exact ⟨_, _, layout_contiguous hp hstatic hred hnumel (contiguous_of_type hcase),
        fun _ _ => rfl⟩
  | CHANNELS_LAST =>
    obtain ⟨hlin, hcontig, hall⟩ := channelsLast_of_type hcase
    have hne : layoutTensors it ≠ [] := by
      intro hnil
      apply hcontig
      rw [hnil]
      simp
    have hnumel : it.numel ≠ 0 := by
      intro hzero
      apply hcontig
      intro t ht
      simp [TensorBase.isContiguous, (numel_of_prepared hp ht).2, hzero]
    obtain ⟨strides, hformat, hlen, hlayout⟩ :=
      layout_channelsLast hp hstatic hred hnumel hlin hne hall
    refine ⟨strides, hlen, ?_, fun _ => ⟨_, _, hlayout, fun _ _ => rfl⟩, ?_⟩
    · apply fastSetUp_of_outputs hp hlen htype
      rw [hcase]
      exact mapM_ok fun op _ => setOutput_format op hlen hformat
    · intro h
      rw [hlin] at h
      cases h
  | NON_OVERLAPPING_DENSE =>
    obtain ⟨hlin, hcontig, hall, hsame⟩ := dense_of_type hcase
    have hnumel : it.numel ≠ 0 := by
      intro hzero
      apply hcontig
      intro t ht
      simp [TensorBase.isContiguous, (numel_of_prepared hp ht).2, hzero]
    have hshape : it.shape_ ≠ [] := by
      intro hnil
      apply hcontig
      intro t ht
      simp [TensorBase.isContiguous, (numel_of_prepared hp ht).1, hnil, stridesFollow]
    have hsome : lastDefined it ≠ none := by
      intro hnone
      apply hcontig
      intro t ht
      obtain ⟨op, hop, htensor, _⟩ := mem_layoutTensors.mp ht
      have hmem : t ∈ it.operands_.filterMap tensor_base :=
        mem_filterMap.mpr ⟨op, hop, htensor⟩
      rw [getLast?_eq_none_iff.mp hnone] at hmem
      cases hmem
    obtain ⟨t₀, hlast⟩ := Option.ne_none_iff_exists'.mp hsome
    have ht₀ : t₀ ∈ layoutTensors it := (hp.lastDefined t₀ hlast).resolve_left hshape
    have hlen : t₀.strides.length = it.shape_.length := by
      rw [t₀.sameRank, (numel_of_prepared hp ht₀).1]
    have hnil : t₀.strides ≠ [] := by
      intro hnil
      rw [hnil] at hlen
      exact hshape (length_eq_zero_iff.mp hlen.symm)
    obtain ⟨order, hlayout⟩ := layout_dense hp hstatic hred hnumel hlin ht₀ (hall t₀ ht₀)
      fun t ht => hsame t ht t₀ ht₀
    refine ⟨t₀.strides, hlen, ?_, fun _ => ⟨_, _, hlayout, fun _ _ => rfl⟩, ?_⟩
    · apply fastSetUp_of_outputs hp hlen htype
      rw [hcase, fastOutputs]
      simp only [hlast]
      exact mapM_ok fun op _ => setOutput_strides op hlen hnil
    · intro h
      rw [hlin] at h
      cases h

theorem fastResult_offsets (h : strides.length = it.shape_.length) :
    offsets (axes (fastResult it strides h)) =
      (List.range it.numel).map fun n => n • elementSizes it := by
  have helts : ∀ d, it.ndim ≥ 1 → d = 0 →
      operandStrides (fastResult it strides h).operands_ d = elementSizes it := by
    rintro d hdim rfl
    funext arg
    simp only [operandStrides, elementSizes, fastResult, collapse, getElem?_map, Option.map_map]
    cases it.operands_[arg]? with
    | none => rfl
    | some op =>
      simp only [Option.map_some, Option.getD_some, Function.comp, elementSize_allocated]
      rw [if_pos (by exact hdim)]
      rfl
  by_cases hdim : it.ndim ≥ 1
  · have haxes : axes (fastResult it strides h) = [⟨it.numel, elementSizes it⟩] := by
      have hshape : (fastResult it strides h).shape_ = [it.numel] := if_pos hdim
      rw [axes_eq, TensorIteratorBase.ndim, hshape]
      simp [axisAt, hshape, helts 0 hdim rfl]
    have hdense : Dense (elementSizes it) [⟨it.numel, elementSizes it⟩] := ⟨rfl, trivial⟩
    rw [haxes, offsets_dense hdense]
    simp
  · have hnil : it.shape_ = [] := length_eq_zero_iff.mp (by
      unfold TensorIteratorBase.ndim at hdim
      omega)
    have hshape : (fastResult it strides h).shape_ = [] := if_neg hdim
    rw [axes_eq, TensorIteratorBase.ndim, hshape, TensorIteratorBase.numel, hnil]
    simp [offsets, offsetAt]

end Fast

/-! ## Agreement -/

/-- The strides of operand `arg` of an iterator. -/
def operandTensorStrides (it : TensorIteratorBase) (arg : Nat) : Option (List Int) :=
  (it.operands_.map OperandInfo.tensor_base)[arg]?.bind fun t => t.map TensorBase.strides

/-- The two setups have allocated outputs of the same strides where a stride matters. -/
def SameStrides (it fast slow : TensorIteratorBase) : Prop :=
  ∀ arg, arg < it.ntensors → ∃ f s, operandTensorStrides fast arg = some f ∧
    operandTensorStrides slow arg = some s ∧ ∀ d, 1 < sizeAt it d → f.getD d 0 = s.getD d 0

/-- The two setups visit the same tuples of offsets. -/
def SameVisits (it fast slow : TensorIteratorBase) : Prop :=
  ∀ base_ptrs : List Int, base_ptrs.length = it.ntensors →
    ∃ fastCalls slowCalls,
      serialForEach fast base_ptrs ⟨0, fast.numel⟩ = .ok fastCalls ∧
      serialForEach slow base_ptrs ⟨0, slow.numel⟩ = .ok slowCalls ∧
      (fastCalls.flatMap LoopCall.visits).Perm (slowCalls.flatMap LoopCall.visits)

theorem static_none_of_prepare {config : TensorIteratorConfig} {it : TensorIteratorBase}
    (h : prepare config = .ok it) (hsame : it.all_ops_same_shape_ = true) :
    config.static_shape_ = none := by
  by_contra hstatic
  obtain ⟨it₁, outputs, hshape, _, hsome, _⟩ := prepare_cases h
  obtain rfl := hsome hstatic
  obtain ⟨shape, hsh⟩ := Option.ne_none_iff_exists'.mp hstatic
  unfold computeShape at hshape
  rw [hsh] at hshape
  cases hshape
  cases hsame

/-- **Fast setup and slow path.** Whenever the fast setup applies, both setups visit the same
tuples of byte offsets, with the same strides if the tensors are not empty or the iteration is
linear. -/
theorem fastSetUp_agrees (config : TensorIteratorConfig) (it : TensorIteratorBase)
    (hprepare : prepare config = .ok it) (htype : computeFastSetupType it ≠ .NONE) :
    ∃ fast slow, fastSetUp it = .ok (some fast) ∧ slowSetUp config it = .ok slow ∧
      SameVisits it fast slow ∧
      (it.numel ≠ 0 ∨ it.enforce_linear_iteration_ = true → SameStrides it fast slow) := by
  obtain ⟨hred, hsame⟩ := flags_of_type htype
  have hp := prepared_of_prepare hprepare hred hsame
  have hstatic := static_none_of_prepare hprepare hsame
  obtain ⟨strides, hlen, hfast, hlayout, hlinear⟩ := fastSetUp_spec hp hstatic htype
  have hperm : (reorderPerm (computeStrides config it)).Perm (List.range it.ndim) :=
    reorderPerm_perm (computeStrides config it)
  refine ⟨_, _, hfast, slowSetUp_eq hp, ?_, ?_⟩
  · intro base_ptrs hbase
    have hslow : offsets (axes (slowReordered config it (reorderPerm (computeStrides config it))
        hperm)) = (List.range it.numel).map fun n => n • elementSizes it := by
      by_cases hnumel : it.numel = 0
      · exact @slowReordered_offsets config it hp hstatic [] 0 fun h => absurd hnumel h
      · obtain ⟨order, stride, hl, _⟩ := hlayout hnumel
        exact slowReordered_offsets hp hstatic fun _ => hl
    have hwalk := coalesceDimensions_sameWalk (slowReordered_fullStrides config hperm)
    obtain ⟨fastCalls, hfastCalls, hfastVisits⟩ := serialForEach_offsets
      (fastResult it strides hlen) base_ptrs
      (by simpa [fastResult, collapse, TensorIteratorBase.ntensors] using hbase)
    obtain ⟨slowCalls, hslowCalls, hslowVisits⟩ := serialForEach_offsets
      (coalesceDimensions (slowReordered config it (reorderPerm (computeStrides config it)) hperm))
      base_ptrs
      (by
        rw [coalesceDimensions_ntensors]
        simpa [slowReordered, TensorIteratorBase.ntensors] using hbase)
    refine ⟨fastCalls, slowCalls, hfastCalls, hslowCalls, Perm.of_eq ?_⟩
    rw [hfastVisits, hslowVisits, fastResult_offsets, ← hwalk.offsets_eq, hslow]
  · intro hcond arg harg
    have hagree : ∀ op d, 1 < sizeAt it d → strides.getD d 0 =
        (slowStrides it (reorderPerm (computeStrides config it)) op).getD d 0 := by
      intro op d hd
      rcases hcond with hnumel | hlin
      · obtain ⟨order, stride, hl, hstride⟩ := hlayout hnumel
        rw [hstride d hd, slowStrides_getD hperm (hl.densePerm hnumel) hnumel op hd]
      · have hinv : reorderPerm (computeStrides config it) = (List.range it.ndim).reverse :=
          reorderPerm_linear (computeStrides config it) hlin
        rw [hlinear hlin, slowStrides, if_pos hinv]
    obtain ⟨op, hop⟩ : ∃ op, it.operands_[arg]? = some op :=
      ⟨_, getElem?_eq_getElem harg⟩
    have hfastTensor : operandTensorStrides (fastResult it strides hlen) arg =
        (allocated it.shape_ strides hlen op).tensor_base.map TensorBase.strides := by
      simp [operandTensorStrides, fastResult, collapse, hop]
    have hslowTensor : operandTensorStrides (coalesceDimensions (slowReordered config it
        (reorderPerm (computeStrides config it)) hperm)) arg =
        (slowOperand config it (reorderPerm (computeStrides config it)) hperm op).tensor_base.map
          TensorBase.strides := by
      rw [operandTensorStrides, coalesceDimensions_tensors]
      simp [slowReordered, hop]
    rw [hfastTensor, hslowTensor]
    cases ht : op.tensor_base with
    | none =>
      refine ⟨strides, slowStrides it (reorderPerm (computeStrides config it)) op, ?_, ?_,
        hagree op⟩
      · simp [allocated, ht]
      · simp [slowOperand, ht]
    | some t =>
      cases hres : op.will_resize with
      | true =>
        refine ⟨strides, slowStrides it (reorderPerm (computeStrides config it)) op, ?_, ?_,
          hagree op⟩
        · simp [allocated, ht, hres]
        · simp [slowOperand, ht, hres]
      | false =>
        refine ⟨t.strides, t.strides, ?_, ?_, fun _ _ => rfl⟩
        · simp [allocated, ht, hres]
        · simp [slowOperand, ht, hres]

/-- One input of shape `(0, 2, 3)`, a transposed view of an empty tensor, and an output
to be allocated. -/
def emptyTransposed : TensorIteratorConfig where
  tensors_ := [⟨none, 0, Nat.succPNat 3⟩,
    ⟨some ⟨[0, 2, 3], [6, 1, 2], Nat.succPNat 3, rfl⟩, 1, Nat.succPNat 3⟩]
  num_outputs_ := 1
  static_shape_ := none
  resize_outputs_ := true
  is_reduction_ := false
  enforce_linear_iteration_ := false

/-- On an empty tensor the fast setup allocates a contiguous output, and the slow path keeps the
order of its dimensions. -/
theorem fastSetUp_emptyStrides :
    ∃ it fast slow, prepare emptyTransposed = .ok it ∧ computeFastSetupType it = .CONTIGUOUS ∧
      fastSetUp it = .ok (some fast) ∧ slowSetUp emptyTransposed it = .ok slow ∧
      operandTensorStrides fast 0 = some [6, 3, 1] ∧
      operandTensorStrides slow 0 = some [6, 1, 2] ∧ ¬ SameStrides it fast slow := by
  refine ⟨_, _, _, rfl, ?_, rfl, rfl, ?_, ?_, ?_⟩
  · decide
  · decide
  · decide
  · intro h
    obtain ⟨f, s, hf, hs, hd⟩ := h 0 (by decide)
    have hf' : f = [6, 3, 1] := by
      have : some f = some [6, 3, 1] := hf.symm.trans (by decide)
      exact Option.some.inj this
    have hs' : s = [6, 1, 2] := by
      have : some s = some [6, 1, 2] := hs.symm.trans (by decide)
      exact Option.some.inj this
    have := hd 1 (by decide)
    rw [hf', hs'] at this
    revert this
    decide

/-- Two channels-last inputs and an output to be allocated. -/
def channelsLastPair : TensorIteratorConfig where
  tensors_ := [⟨none, 0, Nat.succPNat 3⟩,
    ⟨some ⟨[2, 3, 1, 2], [6, 1, 7, 3], Nat.succPNat 3, rfl⟩, 1, Nat.succPNat 3⟩,
    ⟨some ⟨[2, 3, 1, 2], [6, 1, 6, 3], Nat.succPNat 7, rfl⟩, 2, Nat.succPNat 7⟩]
  num_outputs_ := 1
  static_shape_ := none
  resize_outputs_ := true
  is_reduction_ := false
  enforce_linear_iteration_ := false

theorem fastSetUp_agrees_channelsLast : ∃ it fast slow, prepare channelsLastPair = .ok it ∧
      computeFastSetupType it = .CHANNELS_LAST ∧ fastSetUp it = .ok (some fast) ∧
      slowSetUp channelsLastPair it = .ok slow ∧ SameVisits it fast slow ∧
      SameStrides it fast slow := by
  obtain ⟨it, hit⟩ : ∃ it, prepare channelsLastPair = .ok it := ⟨_, rfl⟩
  have htype : computeFastSetupType it = .CHANNELS_LAST := by
    cases hit
    decide
  have hnumel : it.numel ≠ 0 := by
    cases hit
    decide
  obtain ⟨fast, slow, hfast, hslow, hvisits, hstrides⟩ :=
    fastSetUp_agrees channelsLastPair it hit (by rw [htype]; decide)
  exact ⟨it, fast, slow, hit, htype, hfast, hslow, hvisits, hstrides (.inl hnumel)⟩

end PyTorchCore.TensorIterator
