import PyTorchCore.TensorIterator.Outputs

/-!
# TensorIterator: the state before the strides are set up

What `compute_shape`, `mark_resize_outputs` and `compute_types` establish for the
setup of the strides, in the case that all operands have the same shape.
-/

namespace PyTorchCore.TensorIterator

open Lib Lib.LoopNest Lib.AmbiguousSort
open Option List

/-! ## The shape -/

def takesPart (resize_outputs_ : Bool) (op : OperandInfo) : Bool :=
  !(resize_outputs_ && op.is_output)

/-- What the scan of `compute_shape` knows about the shapes seen so far. -/
structure ShapeScan.Seen (scan : ShapeScan) (seen : List (List Nat)) : Prop where
  scalars : scan.has_scalars = seen.any List.isEmpty
  tensors : scan.has_tensors = seen.any fun shape => !shape.isEmpty
  same : scan.all_ops_same_shape_ = true → ∀ shape ∈ seen, shape = scan.shape_
  nothing : seen = [] → scan.shape_ = []

def shapesOf (resize_outputs_ : Bool) (ops : List OperandInfo) : List (List Nat) :=
  (ops.filter (takesPart resize_outputs_)).filterMap fun op => op.tensor_base.map TensorBase.sizes

variable {resize_outputs_ : Bool} {scan scan' : ShapeScan} {seen : List (List Nat)}

theorem shapeScan_step {op : OperandInfo} (h : scan.Seen seen)
    (hstep : scan.step resize_outputs_ op = .ok scan') :
    scan'.Seen (seen ++ shapesOf resize_outputs_ [op]) := by
  unfold ShapeScan.step at hstep
  cases ht : op.tensor_base with
  | none =>
    simp only [ht] at hstep
    cases hstep
    have hnone : shapesOf resize_outputs_ [op] = [] := by
      rw [shapesOf, List.filter_cons]
      split
      · simp [ht]
      · rfl
    rw [hnone, List.append_nil]
    exact h
  | some t =>
    simp only [ht] at hstep
    split at hstep
    · next hskip =>
        cases hstep
        have hnone : shapesOf resize_outputs_ [op] = [] := by
          simp [shapesOf, takesPart, hskip]
        rw [hnone, List.append_nil]
        exact h
    · next hskip =>
        have hone : shapesOf resize_outputs_ [op] = [t.sizes] := by
          have htake : takesPart resize_outputs_ op = true := by
            rw [takesPart, Bool.not_eq_true', ← Bool.not_eq_true]
            exact hskip
          simp [shapesOf, htake, ht]
        rw [hone]
        have hscalars : (scan.has_scalars || t.sizes.isEmpty) =
            (seen ++ [t.sizes]).any List.isEmpty := by
          simp [h.scalars]
        have htensors : (scan.has_tensors || !t.sizes.isEmpty) =
            (seen ++ [t.sizes]).any fun shape => !shape.isEmpty := by
          simp [h.tensors]
        split at hstep
        · next hempty =>
            cases hstep
            refine ⟨hscalars, htensors, ?_, by simp⟩
            intro hsame shape hshape
            simp only [Bool.and_eq_true, Bool.not_eq_true'] at hsame
            obtain ⟨hsame, hmixed⟩ := hsame
            rcases List.mem_append.mp hshape with hshape | hshape
            · -- an earlier shape is that of a scalar, so this one is too
              have hnil : shape = [] := (h.same hsame shape hshape).trans
                (List.isEmpty_iff.mp hempty)
              have hany : (seen ++ [t.sizes]).any List.isEmpty = true := by
                rw [List.any_eq_true]
                exact ⟨shape, List.mem_append_left _ hshape, by simp [hnil]⟩
              rw [hscalars, hany, Bool.true_and, htensors] at hmixed
              have hlast : (!t.sizes.isEmpty) = false := by
                rw [List.any_append, Bool.or_eq_false_iff] at hmixed
                simpa using hmixed.2
              rw [hnil]
              simpa using hlast.symm
            · exact List.mem_singleton.mp hshape
        · next hempty =>
            split at hstep
            · next heq =>
                cases hstep
                refine ⟨hscalars, htensors, ?_, by simp⟩
                intro hsame shape hshape
                simp only [Bool.and_eq_true] at hsame
                rcases List.mem_append.mp hshape with hshape | hshape
                · exact h.same hsame.1 shape hshape
                · exact (List.mem_singleton.mp hshape).trans heq
            · cases hinfer : inferSize scan.shape_ t.sizes with
              | error e =>
                rw [hinfer] at hstep
                cases hstep
              | ok shape =>
                rw [hinfer] at hstep
                cases hstep
                refine ⟨hscalars, htensors, ?_, by simp⟩
                intro hsame
                cases hsame

theorem shapesOf_cons (resize_outputs_ : Bool) (op : OperandInfo) (ops : List OperandInfo) :
    shapesOf resize_outputs_ (op :: ops) =
      shapesOf resize_outputs_ [op] ++ shapesOf resize_outputs_ ops := by
  unfold shapesOf
  rw [← filterMap_append, ← filter_append]
  rfl

theorem shapeScan_foldlM (ops : List OperandInfo) (h : scan.Seen seen)
    (hfold : ops.foldlM (ShapeScan.step resize_outputs_) scan = .ok scan') :
    scan'.Seen (seen ++ shapesOf resize_outputs_ ops) := by
  induction ops generalizing scan seen with
  | nil =>
    cases hfold
    simpa [shapesOf] using h
  | cons op ops ih =>
    rw [foldlM_cons] at hfold
    cases hstep : scan.step resize_outputs_ op with
    | error e =>
      rw [hstep] at hfold
      cases hfold
    | ok next =>
      rw [hstep] at hfold
      have := ih (shapeScan_step h hstep) hfold
      rw [shapesOf_cons, ← append_assoc]
      exact this

/-! ## Resizing -/

section MarkResize

variable {config : TensorIteratorConfig} {it : TensorIteratorBase}

/-- An output after `mark_resize_outputs`: as it was, of the right shape or without a
tensor; or marked. -/
theorem markResizeOutput_cases {op op' : OperandInfo} (hred : it.is_reduction_ = false)
    (h : markResizeOutput config it op = .ok op') :
    (op' = op ∧ ∀ t, op.tensor_base = some t → t.sizes = it.shape_) ∨
      (config.resize_outputs_ = true ∧ op' = { op with will_resize := true }) := by
  unfold markResizeOutput at h
  cases ht : op.tensor_base with
  | none =>
    simp only [ht] at h
    cases h
    exact .inl ⟨rfl, fun t h => by cases h⟩
  | some t =>
    simp only [ht] at h
    split at h
    · next hsizes =>
        cases h
        refine .inl ⟨rfl, ?_⟩
        intro t' ht'
        cases ht'
        exact hsizes
    · split at h
      · next hresize =>
          cases h
          rw [Bool.and_eq_true] at hresize
          exact .inr ⟨hresize.1, rfl⟩
      · rw [hred] at h
        cases h

end MarkResize

/-- The operands before the strides are set up, all of them of the same shape. -/
structure Prepared (it : TensorIteratorBase) : Prop where
  /-- Strides are not set yet. -/
  fresh : ∀ op ∈ it.operands_, op.stride_bytes = []
  /-- Inputs are defined and not resized. -/
  inputs : ∀ op ∈ it.operands_.drop it.num_outputs_,
    op.tensor_base.isSome = true ∧ op.will_resize = false
  /-- A tensor that is not resized has the shape of the iterator. -/
  sameShape : ∀ op ∈ it.operands_, ∀ t, op.tensor_base = some t → op.will_resize = false →
    t.sizes = it.shape_
  /-- The last tensor that is defined counts for the layout. -/
  lastDefined : ∀ t, lastDefined it = some t → it.shape_ = [] ∨ t ∈ layoutTensors it

/-- The tensors of the layout are those that are not resized. -/
theorem mem_layoutTensors {it : TensorIteratorBase} {t : TensorBase} : t ∈ layoutTensors it ↔
      ∃ op ∈ it.operands_, op.tensor_base = some t ∧ op.will_resize = false := by
  unfold layoutTensors
  rw [mem_filterMap]
  constructor
  · rintro ⟨op, hop, h⟩
    split at h
    · cases h
    · next hres => exact ⟨op, hop, h, by simpa using hres⟩
  · rintro ⟨op, hop, ht, hres⟩
    exact ⟨op, hop, by simp [hres, ht]⟩

section Prepare

variable {config : TensorIteratorConfig} {it : TensorIteratorBase}

theorem populate_outputs {op : OperandInfo}
    (h : op ∈ (populateOperands config).operands_.take config.num_outputs_) :
    op.is_output = true ∧ op.will_resize = false ∧ op.stride_bytes = [] := by
  unfold populateOperands at h
  rw [take_append] at h
  rcases mem_append.mp h with h | h
  · obtain ⟨t, _, rfl⟩ := mem_map.mp (mem_of_mem_take h)
    exact ⟨rfl, rfl, rfl⟩
  · -- there are inputs only after `num_outputs_` outputs
    rw [length_map, length_take] at h
    by_cases hlen : config.num_outputs_ ≤ config.tensors_.length
    · rw [Nat.min_eq_left hlen, Nat.sub_self, take_zero] at h
      cases h
    · have hnil : config.tensors_.drop config.num_outputs_ = [] :=
        drop_eq_nil_iff.mpr (by omega)
      rw [hnil, map_nil, take_nil] at h
      cases h

theorem populate_inputs {op : OperandInfo}
    (h : op ∈ (populateOperands config).operands_.drop config.num_outputs_) :
    op.is_output = false ∧ op.will_resize = false ∧ op.stride_bytes = [] := by
  unfold populateOperands at h
  rw [drop_append] at h
  rcases mem_append.mp h with h | h
  · rw [drop_eq_nil_iff.mpr (by rw [length_map, length_take]; omega)] at h
    cases h
  · obtain ⟨t, _, rfl⟩ := mem_map.mp (mem_of_mem_drop h)
    exact ⟨rfl, rfl, rfl⟩

theorem prepare_cases (h : prepare config = .ok it) :
    ∃ it₁ outputs, computeShape config (populateOperands config) = .ok it₁ ∧
      (config.static_shape_ = none →
        (it₁.operands_.take it₁.num_outputs_).mapM (markResizeOutput config it₁) = .ok outputs ∧
        it = { it₁ with operands_ := outputs ++ it₁.operands_.drop it₁.num_outputs_ }) ∧
      (config.static_shape_ ≠ none → it = it₁) ∧
      ∀ op ∈ it.operands_, op.tensor_base.isSome = true ∨ op.is_output = true := by
  unfold prepare at h
  cases hshape : computeShape config (populateOperands config) with
  | error e =>
    rw [hshape] at h
    cases h
  | ok it₁ =>
    rw [hshape] at h
    simp only [bind, Except.bind] at h
    cases hresize : markResizeOutputs config it₁ with
    | error e =>
      rw [hresize] at h
      cases h
    | ok it₂ =>
      rw [hresize] at h
      simp only [computeTypes] at h
      split at h
      · next hall =>
          cases h
          have htypes : ∀ op ∈ it.operands_,
              op.tensor_base.isSome = true ∨ op.is_output = true := by
            intro op hop
            simpa using all_eq_true.mp hall op hop
          unfold markResizeOutputs at hresize
          cases hstatic : config.static_shape_ with
          | some shape =>
            rw [hstatic] at hresize
            cases hresize
            exact ⟨it, [], rfl, fun h => (by cases h), fun _ => rfl, htypes⟩
          | none =>
            rw [hstatic] at hresize
            cases houts : (it₁.operands_.take it₁.num_outputs_).mapM
                (markResizeOutput config it₁) with
            | error e =>
              rw [houts] at hresize
              cases hresize
            | ok outputs =>
              rw [houts] at hresize
              cases hresize
              exact ⟨it₁, outputs, rfl, fun _ => ⟨houts, rfl⟩, fun h => absurd rfl h, htypes⟩
      · cases h

theorem computeShape_cases {it₁ : TensorIteratorBase} (hstatic : config.static_shape_ = none)
    (h : computeShape config (populateOperands config) = .ok it₁) :
    ∃ scan : ShapeScan,
      scan.Seen (shapesOf config.resize_outputs_ (populateOperands config).operands_) ∧
      it₁ = { populateOperands config with
        shape_ := scan.shape_
        all_ops_same_shape_ := scan.all_ops_same_shape_ } := by
  unfold computeShape at h
  rw [hstatic] at h
  cases hfold : (populateOperands config).operands_.foldlM (ShapeScan.step config.resize_outputs_)
      ⟨(populateOperands config).shape_, true, false, false⟩ with
  | error e =>
    rw [hfold] at h
    cases h
  | ok scan =>
    rw [hfold] at h
    cases h
    have hstart : ShapeScan.Seen ⟨(populateOperands config).shape_, true, false, false⟩ [] :=
      ⟨rfl, rfl, fun _ shape hshape => absurd hshape not_mem_nil, fun _ => rfl⟩
    exact ⟨scan, by simpa using shapeScan_foldlM _ hstart hfold, rfl⟩

theorem getLast?_filterMap_of_last {α β : Type} (f : α → Option β) (l : List α) (a : α) (b : β)
    (hb : f a = some b) : ((l ++ [a]).filterMap f).getLast? = some b := by
  rw [filterMap_append]
  simp [hb]

/-- What is established before the strides. -/
theorem prepared_of_prepare (h : prepare config = .ok it) (hred : it.is_reduction_ = false)
    (hsame : it.all_ops_same_shape_ = true) : Prepared it := by
  obtain ⟨it₁, outputs, hshape, hnone, hsome, htypes⟩ := prepare_cases h
  by_cases hstatic : config.static_shape_ = none
  · obtain ⟨hmap, rfl⟩ := hnone hstatic
    obtain ⟨scan, hseen, rfl⟩ := computeShape_cases hstatic hshape
    simp only at hred hsame hmap htypes
    have hnum : (populateOperands config).num_outputs_ = config.num_outputs_ := rfl
    rw [hnum] at hmap htypes
    have hrounds := forall₂_of_mapM hmap
    have hlen := hrounds.length_eq
    -- the outputs
    have houtput : ∀ op ∈ outputs, ∃ op₀ ∈
        (populateOperands config).operands_.take config.num_outputs_,
        (op = op₀ ∧ ∀ t, op₀.tensor_base = some t → t.sizes = scan.shape_) ∨
          (config.resize_outputs_ = true ∧ op = { op₀ with will_resize := true }) := by
      intro op hop
      obtain ⟨k, hk, rfl⟩ := mem_iff_getElem.mp hop
      have hk₀ : k < ((populateOperands config).operands_.take config.num_outputs_).length := by
        omega
      refine ⟨_, getElem_mem hk₀, ?_⟩
      have hround := (forall₂_iff_get.mp hrounds).2 k hk₀ hk
      exact markResizeOutput_cases (by exact hred) hround
    -- the inputs take part in the shape
    have hinput : ∀ op ∈ (populateOperands config).operands_.drop config.num_outputs_, ∀ t,
        op.tensor_base = some t → t.sizes = scan.shape_ := by
      intro op hop t ht
      refine hseen.same hsame t.sizes ?_
      unfold shapesOf
      rw [mem_filterMap]
      refine ⟨op, mem_filter.mpr ⟨mem_of_mem_drop hop, ?_⟩, by simp [ht]⟩
      simp [takesPart, (populate_inputs hop).1]
    have hdropOut : outputs.length ≤ config.num_outputs_ := by
      rw [← hlen, length_take]
      omega
    have hins : ∀ op ∈ (outputs ++
        (populateOperands config).operands_.drop config.num_outputs_).drop config.num_outputs_,
        op ∈ (populateOperands config).operands_.drop config.num_outputs_ := by
      intro op hop
      rw [drop_append, drop_eq_nil_iff.mpr hdropOut, nil_append] at hop
      exact mem_of_mem_drop hop
    refine ⟨?_, ?_, ?_, ?_⟩
    · intro op hop
      rcases mem_append.mp hop with hop | hop
      · obtain ⟨op₀, hop₀, ⟨rfl, _⟩ | ⟨_, rfl⟩⟩ := houtput op hop
        · exact (populate_outputs hop₀).2.2
        · exact (populate_outputs hop₀).2.2
      · exact (populate_inputs hop).2.2
    · intro op hop
      have hin := hins op hop
      obtain ⟨hout, hres, _⟩ := populate_inputs hin
      refine ⟨?_, hres⟩
      rcases htypes op (mem_append_right _ hin) with hdef | hout'
      · exact hdef
      · rw [hout] at hout'
        cases hout'
    · intro op hop t ht hres
      rcases mem_append.mp hop with hop | hop
      · obtain ⟨op₀, hop₀, ⟨rfl, hsizes⟩ | ⟨_, rfl⟩⟩ := houtput op hop
        · exact hsizes t ht
        · cases hres
      · exact hinput op hop t ht
    · intro t ht
      unfold lastDefined at ht
      simp only [hnum] at ht
      rcases eq_nil_or_concat
        ((populateOperands config).operands_.drop config.num_outputs_) with hnil | ⟨front, op, hop⟩
      · -- no inputs: without resizing every output counts, with resizing none does
        cases hresize : config.resize_outputs_ with
        | true =>
          left
          apply hseen.nothing
          unfold shapesOf
          have hall : ∀ op ∈ (populateOperands config).operands_, op.is_output = true := by
            intro op hop
            have hdrop := take_append_drop config.num_outputs_ (populateOperands config).operands_
            rw [hnil, append_nil] at hdrop
            rw [← hdrop] at hop
            exact (populate_outputs hop).1
          have hfilter : (populateOperands config).operands_.filter
              (takesPart config.resize_outputs_) = [] := by
            rw [filter_eq_nil_iff]
            intro op hop
            simp [takesPart, hresize, hall op hop]
          rw [hfilter]
          rfl
        | false =>
          right
          rw [hnil, append_nil] at ht
          have hmem := mem_of_getLast? ht
          obtain ⟨op, hop, htensor⟩ := mem_filterMap.mp hmem
          rw [mem_layoutTensors]
          refine ⟨op, mem_append_left _ hop, htensor, ?_⟩
          obtain ⟨op₀, hop₀, ⟨rfl, _⟩ | ⟨hres, rfl⟩⟩ := houtput op hop
          · exact (populate_outputs hop₀).2.1
          · rw [hresize] at hres
            cases hres
      · right
        have hmem : op ∈ (populateOperands config).operands_.drop config.num_outputs_ := by
          rw [hop]
          simp
        obtain ⟨hout, hres, _⟩ := populate_inputs hmem
        have hdef : op.tensor_base.isSome = true := by
          rcases htypes op (mem_append_right _ hmem) with hdef | hout'
          · exact hdef
          · rw [hout] at hout'
            cases hout'
        obtain ⟨t', ht'⟩ := isSome_iff_exists.mp hdef
        rw [hop, concat_eq_append, ← append_assoc, getLast?_filterMap_of_last _ _ op t' ht'] at ht
        cases ht
        rw [mem_layoutTensors]
        exact ⟨op, mem_append_right _ hmem, ht', hres⟩
  · obtain rfl := hsome hstatic
    obtain ⟨shape, hsh⟩ := ne_none_iff_exists'.mp hstatic
    unfold computeShape at hshape
    rw [hsh] at hshape
    cases hshape
    cases hsame

end Prepare

end PyTorchCore.TensorIterator
