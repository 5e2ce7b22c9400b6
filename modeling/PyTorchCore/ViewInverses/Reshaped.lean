import PyTorchCore.ViewInverses.Rearranged
import Mathlib.Algebra.BigOperators.Ring.List
import Mathlib.Tactic.Ring

/-!
# The inverses of `view` and `_reshape_alias`

Both operators read the elements of the base, in row-major order, with other sizes. `reshape` can
always do so, as it clones a tensor whose strides do not allow it; `view` cannot.
-/

namespace PyTorchCore.ViewInverses

open Lib ViewInverses.Geometry
open Option List

variable {V : Type} {view' : View} {base v : Tensor V} {g : Geometry} {sizes newshape : List Nat}

section Sizes

/-- The product of the sizes that are given. -/
theorem knownSizes_prod (q : Nat) {shape : List Int} {inferDim inferDim' : Bool}
    {newsize newsize' : Nat}
    (h : knownSizes shape inferDim newsize = some (inferDim', newsize')) :
    (shape.map fun s => if s = -1 then q else s.toNat).prod * (newsize * if inferDim then q else 1)
      = newsize' * if inferDim' then q else 1 := by
  induction shape generalizing inferDim newsize with
  | nil =>
    cases h
    simp
  | cons s shape ih =>
    rw [knownSizes] at h
    rw [map_cons, prod_cons]
    split at h
    · next hs =>
      split at h
      · cases h
      · next hinfer =>
        rw [← ih h, if_pos hs, if_pos rfl, if_neg hinfer]
        ring
    · next hs =>
      split at h
      · rw [← ih h, if_neg hs]
        ring
      · cases h

/-- The inferred sizes have as many elements. -/
theorem inferSize_prod {shape : List Int} {numel : Nat} (h : inferSize shape numel = some sizes) :
    sizes.prod = numel := by
  obtain ⟨⟨inferDim, newsize⟩, hknown, h⟩ := bind_eq_some_iff.mp h
  obtain ⟨hcount, h⟩ := guard_bind_eq_some.mp h
  obtain ⟨hnonzero, h⟩ := guard_bind_eq_some.mp h
  cases h
  have hprod := knownSizes_prod (numel / newsize) hknown
  rw [Nat.one_mul, if_neg Bool.false_ne_true, Nat.mul_one] at hprod
  rw [hprod]
  cases inferDim with
  | false =>
    rcases hcount with hcount | ⟨hinfer, -⟩
    · rw [if_neg Bool.false_ne_true, Nat.mul_one, hcount]
    · cases hinfer
  | true =>
    rw [if_pos rfl]
    rcases hcount with hcount | ⟨-, -, hmod⟩
    · subst hcount
      exact Nat.mul_div_cancel' (Nat.dvd_refl _)
    · exact Nat.mul_div_cancel' (Nat.dvd_of_mod_eq_zero hmod)

theorem knownSizes_natCast (sizes : List Nat) (newsize : Nat) :
    knownSizes (sizes.map Int.ofNat) false newsize = some (false, newsize * sizes.prod) := by
  induction sizes generalizing newsize with
  | nil => simp [knownSizes]
  | cons s sizes ih =>
    have hnonneg : Int.ofNat s ≥ 0 := Int.natCast_nonneg s
    rw [map_cons, knownSizes, if_neg (by simp), if_pos hnonneg, ih, prod_cons,
      Int.ofNat_eq_natCast, Int.toNat_natCast, Nat.mul_assoc]

theorem inferSize_natCast (sizes : List Nat) :
    inferSize (sizes.map Int.ofNat) sizes.prod = some sizes := by
  simp only [inferSize, knownSizes_natCast]
  refine guard_bind_eq_some.mpr ⟨by simp, guard_bind_eq_some.mpr ⟨by simp, ?_⟩⟩
  rw [List.map_map]
  refine congrArg some (List.map_id'' (fun s => ?_) sizes)
  rw [Function.comp_apply, if_neg (by simp)]
  rfl

/-- `computeStride` keeps the sizes that it is given. -/
theorem sizes_computeStride {g' : Geometry} (h : computeStride g newshape = some g') :
    g'.sizes = newshape := by
  rw [computeStride] at h
  split at h
  · cases h
    rfl
  · cases h

end Sizes

section Contiguous

theorem takeChunk_all {base tensorNumel viewNumel : Nat} (hpos : 0 < tensorNumel)
    (hprod : viewNumel * newshape.prod = tensorNumel) :
    (takeChunk base tensorNumel newshape viewNumel).2 = ([], tensorNumel) := by
  induction newshape generalizing viewNumel with
  | nil => simpa [takeChunk] using hprod
  | cons s newshape ih =>
    rw [prod_cons, ← Nat.mul_assoc] at hprod
    have htaken : viewNumel < tensorNumel ∨ s = 1 := by
      rw [or_iff_not_imp_left, Nat.not_lt]
      intro hge
      have hone : viewNumel * (s * newshape.prod) = viewNumel * 1 := by
        refine Nat.le_antisymm ?_ (Nat.mul_le_mul_left _ (Nat.pos_of_ne_zero ?_))
        · rw [← Nat.mul_assoc, hprod, Nat.mul_one]
          exact hge
        · intro hzero
          rw [Nat.mul_assoc, hzero, Nat.mul_zero] at hprod
          exact hpos.ne hprod
      exact Nat.eq_one_of_mul_eq_one_right
        (Nat.eq_of_mul_eq_mul_left (Nat.lt_of_lt_of_le hpos hge) hone)
    rw [takeChunk, if_pos htaken]
    exact ih hprod

/-- Each dimension is as far from the next one as a contiguous chunk requires, the last dimension
first. -/
def Runs (base : Nat) : List (Nat × Nat) → Nat → Prop
  | [], _ => True
  | d :: old, tensorNumel =>
    (old = [] ∨ (old.headD (0, 0)).2 = tensorNumel * d.1 * base)
      ∧ Runs base old (tensorNumel * d.1)

variable {old : List (Nat × Nat)} {base tensorNumel : Nat}

theorem strideChunks_of_runs (hne : old ≠ [])
    (hruns : Runs base old tensorNumel) (hpos : 0 < tensorNumel * (old.map Prod.fst).prod)
    (hprod : newshape.prod = tensorNumel * (old.map Prod.fst).prod) :
    (strideChunks old newshape base tensorNumel).isSome := by
  induction old generalizing tensorNumel with
  | nil => exact absurd rfl hne
  | cons d old ih =>
    obtain ⟨hnext, hrest⟩ := hruns
    rw [map_cons, prod_cons, ← Nat.mul_assoc] at hpos hprod
    simp only [strideChunks]
    by_cases hold : old = []
    · subst hold
      rw [map_nil, prod_nil, Nat.mul_one] at hpos hprod
      have hall := @takeChunk_all newshape base _ 1 hpos ((Nat.one_mul _).trans hprod)
      rw [if_pos (.inl rfl), hall]
      simp [strideChunks]
    · have hstride := hnext.resolve_left hold
      rw [if_neg (by rintro (h | ⟨-, h⟩); exacts [hold h, h hstride])]
      exact ih hold hrest hpos hprod

theorem runs_concat {d : Nat × Nat}
    (hruns : Runs base old tensorNumel)
    (hd : old = [] ∨ d.2 = tensorNumel * (old.map Prod.fst).prod * base) :
    Runs base (old ++ [d]) tensorNumel := by
  induction old generalizing tensorNumel with
  | nil => exact ⟨.inl rfl, trivial⟩
  | cons e old ih =>
    obtain ⟨hnext, hrest⟩ := hruns
    have hd := hd.resolve_left (cons_ne_nil e old)
    rw [map_cons, prod_cons, ← Nat.mul_assoc] at hd
    refine ⟨.inr ?_, ih hrest (.inr hd)⟩
    cases old with
    | nil => simpa using hd
    | cons f old => exact hnext.resolve_left (cons_ne_nil f old)

theorem headD_contiguousStrides {s : Nat} (hpos : ∀ t ∈ sizes, 0 < t) :
    (contiguousStrides (s :: sizes)).headD 1 = sizes.prod := by
  induction sizes generalizing s with
  | nil => rfl
  | cons t sizes ih =>
    have ht : max t 1 = t := Nat.max_eq_left (hpos t mem_cons_self)
    rw [contiguousStrides, headD_cons, ih (fun t ht => hpos t (mem_cons_of_mem _ ht)),
      ht, prod_cons]

theorem runs_contiguous (hpos : ∀ t ∈ sizes, 0 < t) :
    Runs 1 (sizes.zip (contiguousStrides sizes)).reverse 1 := by
  induction sizes with
  | nil => trivial
  | cons s sizes ih =>
    cases sizes with
    | nil => exact ⟨.inl rfl, trivial⟩
    | cons t sizes =>
      have hrest : ∀ u ∈ t :: sizes, 0 < u := fun u hu => hpos u (mem_cons_of_mem _ hu)
      rw [contiguousStrides, zip_cons_cons, reverse_cons]
      refine runs_concat (ih hrest) (.inr ?_)
      rw [map_reverse, prod_reverse, map_fst_zip,
        headD_contiguousStrides (fun u hu => hrest u (mem_cons_of_mem _ hu)),
        Nat.max_eq_left (hrest t mem_cons_self), Nat.one_mul, Nat.mul_one, prod_cons]
      exact Nat.le_of_eq (length_contiguousStrides _).symm

theorem lastStride_contiguous (hne : sizes ≠ []) :
    ((sizes.zip (contiguousStrides sizes)).reverse.headD (0, 0)).2 = 1 := by
  induction sizes with
  | nil => exact absurd rfl hne
  | cons s sizes ih =>
    cases sizes with
    | nil => rfl
    | cons t sizes =>
      have hrest := ih (cons_ne_nil t sizes)
      rw [contiguousStrides, zip_cons_cons, reverse_cons]
      cases hrev : ((t :: sizes).zip (contiguousStrides (t :: sizes))).reverse with
      | nil =>
        rw [hrev] at hrest
        exact absurd hrest (by simp)
      | cons d old => rwa [hrev] at hrest

/-- A contiguous tensor can be viewed in any sizes. -/
theorem newStrides_contiguous (hprod : newshape.prod = sizes.prod) :
    (newStrides (contiguous sizes) newshape).isSome := by
  simp only [newStrides]
  split
  · rfl
  · next hne =>
    split
    · rfl
    · next hnumel =>
      have hpos : ∀ t ∈ sizes, 0 < t := by
        intro t ht
        refine Nat.pos_of_ne_zero fun hzero => hnumel ?_
        exact prod_eq_zero (hzero ▸ ht)
      have hdims : (((sizes.zip (contiguousStrides sizes)).reverse).map Prod.fst).prod
          = sizes.prod := by
        rw [map_reverse, prod_reverse, map_fst_zip]
        exact Nat.le_of_eq (length_contiguousStrides _).symm
      rw [isSome_map]
      show (strideChunks (sizes.zip (contiguousStrides sizes)).reverse newshape.reverse
        ((sizes.zip (contiguousStrides sizes)).reverse.headD (0, 0)).2 1).isSome
      have hsizes : sizes ≠ [] := hne
      rw [lastStride_contiguous hsizes]
      refine strideChunks_of_runs ?_ (runs_contiguous hpos) ?_ ?_
      · intro hempty
        have hlength := congrArg List.length hempty
        rw [length_reverse, length_zip, length_contiguousStrides, Nat.min_self] at hlength
        exact hne (length_eq_zero_iff.mp hlength)
      · rw [hdims, Nat.one_mul]
        exact Nat.pos_of_ne_zero hnumel
      · rw [hdims, Nat.one_mul, prod_reverse, hprod]

theorem computeStride_contiguous (hprod : newshape.prod = sizes.prod) :
    ∃ g', computeStride (contiguous sizes) newshape = some g' := by
  rw [computeStride]
  split
  · exact ⟨_, rfl⟩
  · next hnone => cases hnone ▸ newStrides_contiguous hprod

end Contiguous

section Laws

theorem lawful_aliased {back : Option View} {g g' : Geometry}
    (hprod : g.sizes.prod = base.sizes.prod) (hsizes : v.sizes = g.sizes)
    (hback : back = some (aliasWithSizesAndStrides v.toGeometry g')) (hg' : g'.sizes = base.sizes) :
    Lawful (aliasWithSizesAndStrides base.toGeometry g) base v (v.viewAs back) := by
  refine lawful_viewAs hback hg' (fun i hi => ?_) (fun b hb => ?_)
  · have hi : InBounds i g.sizes := hi
    show unravel v.sizes (ravel g'.sizes (unravel base.sizes (ravel g.sizes i))) = i
    rw [hg', ravel_unravel (hprod ▸ ravel_lt hi), hsizes, unravel_ravel hi]
  · have hlt : ravel base.sizes b < g.sizes.prod := hprod ▸ ravel_lt hb
    show InBounds (unravel v.sizes (ravel g'.sizes b)) g.sizes
      ∧ unravel base.sizes (ravel g.sizes (unravel v.sizes (ravel g'.sizes b))) = b
    rw [hg', hsizes]
    refine ⟨inBounds_unravel hlt, ?_⟩
    rw [ravel_unravel hlt, unravel_ravel hb]

theorem reshape_eq (hprod : newshape.prod = g.sizes.prod) : ∃ g', g'.sizes = newshape
      ∧ reshape g (newshape.map Int.ofNat) = some (aliasWithSizesAndStrides g g') := by
  have hinfer : inferSize (newshape.map Int.ofNat) g.numel = some newshape := by
    rw [Geometry.numel, ← hprod]
    exact inferSize_natCast newshape
  simp only [reshape, hinfer]
  rw [bind_eq_bind, bind_some]
  split
  · next g' hg' => exact ⟨g', sizes_computeStride hg', rfl⟩
  · obtain ⟨g', hg'⟩ := computeStride_contiguous hprod
    refine ⟨g', sizes_computeStride hg', ?_⟩
    have hinfer' : inferSize (newshape.map Int.ofNat) (contiguous g.sizes).numel
        = some newshape := hinfer
    simp only [view, hinfer']
    rw [bind_eq_bind, bind_some, hg']
    rfl

variable [AddCommMonoid V]

theorem lawful_reshapeAlias {size stride : List Nat}
    (h : (ViewOp.reshapeAlias size stride).apply base.toGeometry = some view')
    (hsizes : v.sizes = view'.sizes) :
    Lawful view' base v ((ViewOp.reshapeAlias size stride).inverse base v) := by
  obtain ⟨hinfer, h⟩ := guard_bind_eq_some.mp h
  obtain ⟨g, hg, h⟩ := bind_eq_some_iff.mp h
  obtain ⟨-, h⟩ := guard_bind_eq_some.mp h
  cases h
  have hprod : g.sizes.prod = base.sizes.prod := by
    rw [sizes_computeStride hg]
    exact inferSize_prod hinfer
  have hvprod : base.sizes.prod = v.sizes.prod := by
    rw [hsizes]
    exact hprod.symm
  obtain ⟨g', hg', hback⟩ := reshape_eq hvprod
  exact lawful_aliased hprod hsizes hback hg'

/-- The inverse of `view` is lawful exactly if the strides of its argument allow the old sizes. -/
theorem lawful_view_iff {size : List Int}
    (h : (ViewOp.view size).apply base.toGeometry = some view') (hsizes : v.sizes = view'.sizes) :
    Lawful view' base v ((ViewOp.view size).inverse base v) ↔
    (computeStride v.toGeometry base.sizes).isSome := by
  obtain ⟨inferred, hinfer, h⟩ := bind_eq_some_iff.mp h
  obtain ⟨g, hg, h⟩ := bind_eq_some_iff.mp h
  cases h
  have hprod : g.sizes.prod = base.sizes.prod := by
    rw [sizes_computeStride hg]
    exact inferSize_prod hinfer
  have hinfer' : inferSize (base.sizes.map Int.ofNat) v.numel = some base.sizes := by
    have hnumel : v.numel = base.sizes.prod := (congrArg List.prod hsizes).trans hprod
    rw [hnumel]
    exact inferSize_natCast base.sizes
  have hback : ViewInverses.view v.toGeometry (base.sizes.map Int.ofNat)
      = (computeStride v.toGeometry base.sizes).map (aliasWithSizesAndStrides v.toGeometry) := by
    simp only [view, hinfer']
    rw [bind_eq_bind, bind_some]
    cases computeStride v.toGeometry base.sizes <;> rfl
  constructor
  · rintro ⟨r, hr, -⟩
    have hr : (ViewInverses.view v.toGeometry (base.sizes.map Int.ofNat)).map v.take = some r := hr
    rw [hback] at hr
    cases hstride : computeStride v.toGeometry base.sizes with
    | some g' => rfl
    | none =>
      rw [hstride] at hr
      cases hr
  · intro hsome
    obtain ⟨g', hg'⟩ := isSome_iff_exists.mp hsome
    rw [hg'] at hback
    exact lawful_aliased hprod hsizes hback (sizes_computeStride hg')

end Laws

end PyTorchCore.ViewInverses
