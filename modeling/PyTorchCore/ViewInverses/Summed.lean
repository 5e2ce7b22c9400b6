import PyTorchCore.ViewInverses.Reshaped

/-!
# Inverses that add up

The inverses of `expand` and `unfold` are the backward formulas of the two operators: they add up
the values at all positions that see an element of the base, and ignore the base.
-/

namespace PyTorchCore.ViewInverses

open Lib ViewInverses.Geometry
open Option List

variable {V : Type} [AddCommMonoid V] {view' : View} {base v r : Tensor V} {g : Geometry}

section Sums

/-- The result is the sum of the view over the positions that see an element. -/
structure AddsUp (view : View) (base v r : Tensor V) : Prop where
  sizes : r.sizes = base.sizes
  elem : ∀ b, InBounds b base.sizes → r.elem b = ((view.seenBy b).map v.elem).sum

theorem sum_seenBy (hconsistent : Consistent view' v) {b i : List Nat} (hi : i ∈ view'.seenBy b) :
    ((view'.seenBy b).map v.elem).sum = (view'.seenBy b).length • v.elem i := by
  have hsame : ∀ x ∈ (view'.seenBy b).map v.elem, x = v.elem i := by
    intro x hx
    obtain ⟨j, hj, rfl⟩ := mem_map.mp hx
    obtain ⟨hjin, hjsees⟩ := View.mem_seenBy.mp hj
    obtain ⟨hiin, hisees⟩ := View.mem_seenBy.mp hi
    exact hconsistent j i hjin hiin (hjsees.trans hisees.symm)
  rw [sum_eq_card_nsmul _ _ hsame, length_map]

/-- An inverse that adds up is lawful exactly if the sums give the view back. -/
theorem lawful_iff_sumsBack {result : Option (Tensor V)} (hresult : result = some r)
    (hsum : AddsUp view' base v r)
    (hin : ∀ i, InBounds i view'.sizes → InBounds (view'.sees i) base.sizes)
    (hconsistent : Consistent view' v) :
    Lawful view' base v result ↔ SumsBack view' base v := by
  subst hresult
  constructor
  · rintro ⟨r', hr', hwritten⟩ b hb
    cases hr'
    constructor
    · intro i hi
      obtain ⟨hiin, hisees⟩ := View.mem_seenBy.mp hi
      rw [← sum_seenBy hconsistent hi, ← hsum.elem b hb, ← hisees]
      exact hwritten.seen i hiin
    · intro hempty
      have hunseen := hwritten.unseen b hb fun i hi hisees => by
        have hmem := View.mem_seenBy.mpr ⟨hi, hisees⟩
        rw [hempty] at hmem
        cases hmem
      rw [← hunseen, hsum.elem b hb, hempty]
      rfl
  · intro hsums
    refine ⟨r, rfl, hsum.sizes, fun i hi => ?_, fun b hb hunseen => ?_⟩
    · have hmem : i ∈ view'.seenBy (view'.sees i) := View.mem_seenBy.mpr ⟨hi, rfl⟩
      rw [hsum.elem _ (hin i hi), sum_seenBy hconsistent hmem]
      exact (hsums _ (hin i hi)).1 i hmem
    · have hempty : view'.seenBy b = [] := by
        refine eq_nil_iff_forall_not_mem.mpr fun i hi => ?_
        obtain ⟨hiin, hisees⟩ := View.mem_seenBy.mp hi
        exact hunseen i hiin hisees
      rw [hsum.elem b hb, hempty, (hsums b hb).2 hempty]
      rfl

theorem sum_filter_eq {sizes b : List Nat} (hb : InBounds b sizes) (f : List Nat → V) :
    (((indices sizes).filter fun i => i = b).map f).sum = f b := by
  have hsingle : ((indices sizes).filter fun i => i = b) = [b] := by
    rw [filter_eq, count_eq_one_of_mem (nodup_indices sizes) (mem_indices.mpr hb), replicate_one]
  rw [hsingle]
  simp

end Sums

section Expand

/-- A size of the base, and the size that it is expanded to. -/
def ExpandsTo (s target : Nat) : Prop :=
  s = target ∨ s = 1

theorem inferExpandDim_fst {size stride : Nat} {target : Int} {d : Nat × Nat}
    (h : inferExpandDim size stride target = some d) : ExpandsTo size d.1 := by
  simp only [inferExpandDim] at h
  generalize (if target = -1 then (size : Int) else target) = t at h
  split at h
  · split at h
    · next hone => exact .inr hone.1
    · cases h
  · cases h
    exact .inl rfl

variable {targets : List Int}

theorem expandOwn_spec {sizes strides : List Nat} {own : List (Nat × Nat)}
    (hstrides : strides.length = sizes.length) (htargets : targets.length = sizes.length)
    (h : ((sizes.zip strides).zip targets).mapM (fun d => inferExpandDim d.1.1 d.1.2 d.2)
      = some own) :
    Forall₂ ExpandsTo sizes (own.map Prod.fst) := by
  induction sizes generalizing strides targets own with
  | nil =>
    cases h
    exact .nil
  | cons s sizes ih =>
    cases strides with
    | nil => cases hstrides
    | cons stride strides =>
      cases targets with
      | nil => cases htargets
      | cons target targets =>
        rw [zip_cons_cons, zip_cons_cons, mapM_cons] at h
        obtain ⟨d, hd, h⟩ := bind_eq_some_iff.mp h
        obtain ⟨rest, hrest, h⟩ := bind_eq_some_iff.mp h
        cases h
        exact .cons (inferExpandDim_fst hd)
          (ih (Nat.succ.inj hstrides) (Nat.succ.inj htargets) hrest)

theorem length_inferLeadingDims {next : Nat × Nat}
    {dims : List (Nat × Nat)} (h : inferLeadingDims targets next = some dims) :
    dims.length = targets.length := by
  induction targets generalizing next dims with
  | nil =>
    cases h
    rfl
  | cons target targets ih =>
    obtain ⟨first, -, h⟩ := bind_eq_some_iff.mp h
    obtain ⟨rest, hrest, h⟩ := bind_eq_some_iff.mp h
    cases h
    exact congrArg (· + 1) (ih hrest)

/-- The view that `expand` gives. -/
structure IsExpansion (view : View) (base : Geometry) (leading own : List Nat) : Prop where
  sizes : view.sizes = leading ++ own
  expands : List.Forall₂ ExpandsTo base.sizes own
  sees : view.sees = fun index =>
    List.zipWith (fun i s => if s = 1 then 0 else i) (index.drop leading.length) base.sizes

/-- An expanded tensor has new leading dimensions, and its own dimensions with the size 1
replaced. -/
theorem expand_spec {size : List Int} (h : expand g size = some view') :
    ∃ leading own, IsExpansion view' g leading own := by
  obtain ⟨hle, h⟩ := guard_bind_eq_some.mp h
  obtain ⟨dims, hdims, h⟩ := bind_eq_some_iff.mp h
  cases h
  simp only [inferExpandGeometry] at hdims
  split at hdims
  · next hzero =>
    have hempty : g.sizes = [] := length_eq_zero_iff.mp hzero
    refine ⟨dims.map Prod.fst, [], (append_nil _).symm, by rw [hempty]; exact .nil, ?_⟩
    funext index
    simp [hempty]
  · obtain ⟨own, hown, hdims⟩ := bind_eq_some_iff.mp hdims
    obtain ⟨new, hnew, hdims⟩ := bind_eq_some_iff.mp hdims
    cases hdims
    have hlength : (new.reverse.map Prod.fst).length = size.length - g.dim := by
      rw [length_map, length_reverse, length_inferLeadingDims hnew, length_reverse, length_take]
      exact Nat.min_eq_left (Nat.sub_le _ _)
    refine ⟨new.reverse.map Prod.fst, own.map Prod.fst, map_append, ?_, ?_⟩
    · refine expandOwn_spec g.strides_length ?_ hown
      rw [length_drop]
      exact Nat.sub_sub_self hle
    · rw [hlength]

variable {leading own shape : List Nat}

theorem mem_reduceDims (hlength : own.length = shape.length) {d : Nat} :
    d ∈ reduceDims (leading ++ own) shape ↔
    d < leading.length ∨ (leading.length ≤ d ∧ d < leading.length + own.length
      ∧ shape.getD (d - leading.length) 0 = 1 ∧ own.getD (d - leading.length) 0 ≠ 1) := by
  have hleading : leading.length + own.length - shape.length = leading.length := by
    rw [hlength, Nat.add_sub_cancel]
  simp only [reduceDims, hleading, mem_append, mem_range, mem_filter,
    mem_range'_1, decide_eq_true_eq, length_append, Nat.add_sub_cancel_left]
  constructor
  · rintro (hlt | ⟨⟨hge, hlt⟩, hshape, hsize⟩)
    · exact .inl hlt
    · rw [getD_append_right _ _ _ _ hge] at hsize
      exact .inr ⟨hge, hlt, hshape, hsize⟩
  · rintro (hlt | ⟨hge, hlt, hshape, hsize⟩)
    · exact .inl hlt
    · rw [← getD_append_right _ _ _ _ hge] at hsize
      exact .inr ⟨⟨hge, hlt⟩, hshape, hsize⟩

section

variable (hexpands : Forall₂ ExpandsTo shape own)
include hexpands

/-- The dimensions to be reduced, leading and own ones. -/
theorem mapIdx_reduceDims {p q result : List Nat} {c : Nat}
    (hp : p.length = leading.length) (hq : q.length = own.length)
    (hresult : result.length = own.length)
    (hone : ∀ k < own.length, shape.getD k 0 = 1 → own.getD k 0 ≠ 1 → result.getD k 0 = c)
    (hother : ∀ k < own.length, ¬ (shape.getD k 0 = 1 ∧ own.getD k 0 ≠ 1) →
      result.getD k 0 = q.getD k 0) :
    (p ++ q).mapIdx (fun d i => if d ∈ reduceDims (leading ++ own) shape then c else i)
      = List.replicate leading.length c ++ result := by
  have hlength := hexpands.length_eq
  refine ext_getD (by simp [hp, hq, hresult]) fun k hk => ?_
  have hk' : k < (p ++ q).length := by simpa using hk
  rw [getD_eq_getElem _ _ hk, getElem_mapIdx]
  by_cases hlt : k < leading.length
  · rw [if_pos ((mem_reduceDims hlength.symm).mpr (.inl hlt)),
      getD_append _ _ _ _ (by simpa using hlt)]
    simp [hlt]
  · have hge := Nat.not_lt.mp hlt
    have hown : k - leading.length < own.length := by
      rw [length_append] at hk'
      omega
    rw [getD_append_right _ _ _ _ (by simpa using hge), length_replicate]
    by_cases hreduced : shape.getD (k - leading.length) 0 = 1 ∧ own.getD (k - leading.length) 0 ≠ 1
    · rw [if_pos ((mem_reduceDims hlength.symm).mpr (.inr ⟨hge, by omega, hreduced⟩)),
        hone _ hown hreduced.1 hreduced.2]
    · rw [if_neg, hother _ hown hreduced, ← getD_eq_getElem _ 0 hk',
        getD_append_right _ _ _ _ (hp ▸ hge), hp]
      intro hmem
      rcases (mem_reduceDims hlength.symm).mp hmem with h | ⟨-, -, h⟩
      · exact hlt h
      · exact hreduced h

theorem reduceIndex_eq {p q : List Nat}
    (hp : InBounds p leading) (hq : InBounds q own) :
    reduceIndex (reduceDims (leading ++ own) shape) (p ++ q) = List.replicate leading.length 0
        ++ List.zipWith (fun i s => if s = 1 then 0 else i) q shape := by
  have hlength := hexpands.length_eq
  have hqlength := hq.length_eq
  have hzip : ∀ k < own.length, (List.zipWith (fun i s => if s = 1 then 0 else i) q shape).getD k 0
      = if shape.getD k 0 = 1 then 0 else q.getD k 0 := by
    intro k hk
    rw [getD_eq_getElem _ _ (by simp [hqlength, hlength, hk]), getElem_zipWith,
      getD_eq_getElem _ _ (by omega), getD_eq_getElem _ _ (by omega)]
  refine mapIdx_reduceDims hexpands hp.length_eq hqlength ?_ ?_ ?_
  · rw [length_zipWith, hqlength, hlength, Nat.min_self]
  · intro k hk hone _
    rw [hzip k hk, if_pos hone]
  · intro k hk hnot
    rw [hzip k hk]
    split
    · next hone =>
      have hlt := (inBounds_iff.mp hq).2 k hk
      omega
    · rfl

theorem reduceSizes_eq :
    ((leading ++ own).mapIdx fun d s => if d ∈ reduceDims (leading ++ own) shape then 1 else s)
      = List.replicate leading.length 1 ++ shape := by
  have hlength := hexpands.length_eq
  refine mapIdx_reduceDims hexpands rfl rfl hlength (fun k _ hone _ => hone) fun k hk hnot => ?_
  have hk' : k < shape.length := hlength ▸ hk
  have hkey := (forall₂_iff_get.mp hexpands).2 k hk' hk
  rw [getD_eq_getElem _ _ hk, getD_eq_getElem _ _ hk'] at hnot ⊢
  rcases hkey with heq | hone
  · exact heq
  · have hone : shape[k] = 1 := hone
    have hown : own[k] = 1 := by
      by_contra hne
      exact hnot ⟨hone, hne⟩
    rw [hone, hown]

end

/-- An expansion sees elements of the base. -/
theorem IsExpansion.sees_inBounds (h : IsExpansion view' g leading own) {i : List Nat}
    (hi : InBounds i view'.sizes) : InBounds (view'.sees i) g.sizes := by
  rw [h.sizes] at hi
  obtain ⟨p, q, rfl, hp, hq⟩ := inBounds_append.mp hi
  rw [h.sees]
  simp only [← hp.length_eq, drop_left]
  have hexpands := h.expands
  clear hi h
  generalize g.sizes = shape at hexpands ⊢
  induction hexpands generalizing q with
  | nil =>
    cases hq
    exact .nil
  | @cons s target shape own hexpand _ ih =>
    cases hq with
    | @cons i _ q _ hhead htail =>
      refine .cons ?_ (ih q htail)
      show (if s = 1 then 0 else i) < s
      split
      · next hone => omega
      · next hne =>
        have heq : s = target := hexpand.resolve_right hne
        omega

/-- The sum over the reduced dimensions is the one over all positions that see the element. -/
theorem IsExpansion.sum_eq (h : IsExpansion view' g leading own) (hsizes : v.sizes = view'.sizes)
    (b : List Nat) :
    (((indices v.sizes).filter fun i =>
        reduceIndex (reduceDims v.sizes g.sizes) i = List.replicate leading.length 0 ++ b).map
          v.elem).sum
      = ((view'.seenBy b).map v.elem).sum := by
  congr 2
  rw [View.seenBy, hsizes]
  refine filter_congr fun i hi => ?_
  have hi := mem_indices.mp hi
  rw [h.sizes] at hi ⊢
  obtain ⟨p, q, rfl, hp, hq⟩ := inBounds_append.mp hi
  rw [reduceIndex_eq h.expands hp hq, h.sees]
  simp only [← hp.length_eq, drop_left, append_cancel_left_eq]

theorem mapIdx_id (i : List Nat) : i.mapIdx (fun _ x => x) = i :=
  ext_getD (by simp) (by simp)

theorem reduceIndex_nil (i : List Nat) : reduceIndex [] i = i := by
  simp [reduceIndex, mapIdx_id]

section

variable (h : IsExpansion view' base.toGeometry leading own) (hsizes : v.sizes = view'.sizes)
include h hsizes

theorem sum_spec :
    ∃ sum, (if reduceDims v.sizes base.sizes ≠ [] then
          sumKeepdim v (reduceDims v.sizes base.sizes) else v) = sum
      ∧ sum.sizes = List.replicate leading.length 1 ++ base.sizes
      ∧ (0 < leading.length → sum.toGeometry = contiguous sum.sizes)
      ∧ ∀ b, InBounds b base.sizes →
        sum.elem (List.replicate leading.length 0 ++ b) = ((view'.seenBy b).map v.elem).sum := by
  have hvsizes : v.sizes = leading ++ own := hsizes.trans h.sizes
  have hreduced : (v.sizes.mapIdx fun d s =>
      if d ∈ reduceDims v.sizes base.sizes then 1 else s)
        = List.replicate leading.length 1 ++ base.sizes := by
    rw [hvsizes]
    exact reduceSizes_eq h.expands
  refine ⟨_, rfl, ?_⟩
  by_cases hempty : reduceDims v.sizes base.sizes = []
  · rw [if_neg (not_not.mpr hempty)]
    have hzero : leading.length = 0 := by
      refine Nat.eq_zero_of_not_pos fun hpos => ?_
      have hmem : 0 ∈ reduceDims v.sizes base.sizes := by
        rw [hvsizes]
        exact (mem_reduceDims h.expands.length_eq.symm).mpr (.inl hpos)
      rw [hempty] at hmem
      cases hmem
    have hsame : v.sizes = base.sizes := by
      simpa [hempty, hzero, mapIdx_id] using hreduced
    refine ⟨by rw [hzero, hsame]; rfl, fun hpos => absurd hzero hpos.ne', fun b hb => ?_⟩
    rw [← h.sum_eq hsizes, hempty, hzero]
    simp only [reduceIndex_nil]
    exact (sum_filter_eq (hsame ▸ hb) v.elem).symm
  · rw [if_pos hempty]
    refine ⟨hreduced, fun _ => rfl, fun b hb => ?_⟩
    exact h.sum_eq hsizes b

theorem sumTo_spec :
    ∃ r, sumTo v base.sizes = some r ∧ AddsUp view' base v r := by
  rw [sumTo]
  split
  · next hscalar =>
    refine ⟨_, rfl, hscalar.symm, fun b hb => ?_⟩
    rw [hscalar] at hb
    cases hb
    have hall : view'.seenBy [] = indices v.sizes := by
      rw [View.seenBy, hsizes]
      refine filter_eq_self.mpr fun i _ => ?_
      rw [h.sees]
      simp [hscalar]
    rw [hall]
    rfl
  · obtain ⟨sum, hsum, hsumsizes, hcontiguous, helem⟩ := sum_spec h hsizes
    have hleading : v.sizes.length - base.sizes.length = leading.length := by
      rw [hsizes, h.sizes, length_append, ← h.expands.length_eq, Nat.add_sub_cancel]
    simp only [hsum, hleading]
    split
    · next hpos =>
      have hprod : base.sizes.prod = sum.sizes.prod := by
        rw [hsumsizes]
        simp
      obtain ⟨g', hg'⟩ := computeStride_contiguous hprod
      have hview : view sum.toGeometry (base.sizes.map Int.ofNat)
          = some (aliasWithSizesAndStrides sum.toGeometry g') := by
        have hinfer : inferSize (base.sizes.map Int.ofNat) sum.numel = some base.sizes := by
          rw [Geometry.numel, ← hprod]
          exact inferSize_natCast base.sizes
        rw [← hcontiguous hpos] at hg'
        simp only [view, hinfer]
        rw [bind_eq_bind, bind_some, hg']
        rfl
      have hg'sizes := sizes_computeStride hg'
      rw [hview]
      refine ⟨_, rfl, hg'sizes, fun b hb => ?_⟩
      rw [← helem b hb]
      show sum.elem (unravel sum.sizes (ravel g'.sizes b)) = _
      rw [hg'sizes, hsumsizes, unravel_replicate_one _ (ravel_lt hb), unravel_ravel hb]
    · next hnot =>
      have hzero : leading.length = 0 := Nat.eq_zero_of_not_pos hnot
      rw [hzero] at hsumsizes helem
      exact ⟨sum, rfl, hsumsizes, helem⟩

end

theorem lawful_expand_iff {size : List Int} {implicit : Bool}
    (h : (ViewOp.expand size implicit).apply base.toGeometry = some view')
    (hsizes : v.sizes = view'.sizes) (hconsistent : Consistent view' v) :
    Lawful view' base v ((ViewOp.expand size implicit).inverse base v) ↔
    SumsBack view' base v := by
  obtain ⟨leading, own, hexpansion⟩ := expand_spec h
  obtain ⟨r, hr, hsum⟩ := sumTo_spec hexpansion hsizes
  exact lawful_iff_sumsBack hr hsum (fun i hi => hexpansion.sees_inBounds hi) hconsistent

end Expand

end PyTorchCore.ViewInverses
