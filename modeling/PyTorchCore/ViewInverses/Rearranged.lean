import PyTorchCore.ViewInverses.Lawful

/-!
# Inverses that rearrange the view

Where a view sees every element of its base once, its inverse is a view of the view.
-/

namespace PyTorchCore.ViewInverses

open Lib
open List

variable {V : Type} [AddCommMonoid V] {view : View} {base v : Tensor V} {dim : Int} {d : Nat}

omit [AddCommMonoid V] in
/-- A view that undoes the view is a lawful inverse. -/
theorem lawful_viewAs {back : Option View} {view' : View} (hback : back = some view')
    (hsizes : view'.sizes = base.sizes)
    (hundo : ∀ i, InBounds i view.sizes → view'.sees (view.sees i) = i)
    (hview : ∀ b, InBounds b base.sizes →
      InBounds (view'.sees b) view.sizes ∧ view.sees (view'.sees b) = b) :
    Lawful view base v (v.viewAs back) :=
  ⟨v.take view', by rw [hback]; rfl, Written.of_inverse hsizes hundo hview⟩

section Whole

omit [AddCommMonoid V] in
theorem lawful_whole (hview : base.whole = view) (hsizes : v.sizes = view.sizes) :
    Lawful view base v (some v) := by
  subst hview
  refine ⟨v, rfl, hsizes, fun _ _ => rfl, fun b hb hunseen => ?_⟩
  exact absurd rfl (hunseen b hb)

theorem lawful_alias (h : ViewOp.alias_.apply base.toGeometry = some view)
    (hsizes : v.sizes = view.sizes) : Lawful view base v (ViewOp.alias_.inverse base v) :=
  lawful_whole (Option.some.inj h) hsizes

theorem lawful_detach (h : ViewOp.detach.apply base.toGeometry = some view)
    (hsizes : v.sizes = view.sizes) : Lawful view base v (ViewOp.detach.inverse base v) :=
  lawful_whole (Option.some.inj h) hsizes

end Whole

section Transposed

variable {i j : Nat}

@[simp] theorem length_swapAt (xs : List Nat) (i j : Nat) : (swapAt xs i j).length = xs.length := by
  simp [swapAt]

theorem getD_swapAt {xs : List Nat} (hi : i < xs.length) (hj : j < xs.length) {k : Nat}
    (hk : k < xs.length) :
    (swapAt xs i j).getD k 0 = xs.getD (if k = j then i else if k = i then j else k) 0 := by
  grind [swapAt]

theorem swapAt_swapAt {xs : List Nat} (hi : i < xs.length) (hj : j < xs.length) :
    swapAt (swapAt xs i j) i j = xs := by
  refine ext_getElem (by simp) fun k _ _ => ?_
  grind [swapAt]

theorem inBounds_swapAt {index sizes : List Nat} (h : InBounds index sizes)
    (hi : i < sizes.length) (hj : j < sizes.length) :
    InBounds (swapAt index i j) (swapAt sizes i j) := by
  rw [inBounds_iff] at h ⊢
  obtain ⟨hlength, hlt⟩ := h
  refine ⟨by simp [hlength], fun k hk => ?_⟩
  rw [length_swapAt] at hk
  rw [getD_swapAt (hlength ▸ hi) (hlength ▸ hj) (hlength ▸ hk), getD_swapAt hi hj hk]
  exact hlt _ (by split <;> [exact hi; (split <;> [exact hj; exact hk])])

omit [AddCommMonoid V] in
/-- The inverse of `transpose` is lawful. -/
theorem lawful_transposed {dim0 dim1 : Int}
    (h : transpose base.toGeometry dim0 dim1 = some view) (hsizes : v.sizes = view.sizes) :
    Lawful view base v (v.viewAs (transpose v.toGeometry dim0 dim1)) := by
  obtain ⟨d0, h0, h⟩ := Option.bind_eq_some_iff.mp h
  obtain ⟨d1, h1, h⟩ := Option.bind_eq_some_iff.mp h
  split at h
  · next heq =>
    cases h
    have hdim : v.dim = base.dim := congrArg List.length hsizes
    refine @lawful_viewAs V _ base v _ v.whole ?_ hsizes (fun _ _ => rfl) fun b hb => ⟨hb, rfl⟩
    simp only [transpose, hdim, h0, h1]
    exact if_pos heq
  · next hne =>
    cases h
    have hdim : v.dim = base.dim := (congrArg List.length hsizes).trans (length_swapAt ..)
    have hpos : base.dim ≠ 0 := by
      intro hzero
      rw [hzero] at h0 h1
      exact hne ((maybeWrapDim_zero h0).trans (maybeWrapDim_zero h1).symm)
    have hd0 : d0 < base.sizes.length := maybeWrapDim_lt h0 hpos
    have hd1 : d1 < base.sizes.length := maybeWrapDim_lt h1 hpos
    refine lawful_viewAs (by simp only [transpose, hdim, h0, h1]; exact if_neg hne) ?_ ?_ ?_
    · show swapAt v.sizes d0 d1 = base.sizes
      rw [hsizes, swapAt_swapAt hd0 hd1]
    · intro i hi
      have hlength := (length_swapAt base.sizes d0 d1) ▸ hi.length_eq
      exact swapAt_swapAt (hlength ▸ hd0) (hlength ▸ hd1)
    · intro b hb
      exact ⟨inBounds_swapAt hb hd0 hd1, swapAt_swapAt (hb.length_eq ▸ hd0) (hb.length_eq ▸ hd1)⟩

theorem lawful_transpose {dim0 dim1 : Int}
    (h : (ViewOp.transpose dim0 dim1).apply base.toGeometry = some view)
    (hsizes : v.sizes = view.sizes) :
    Lawful view base v ((ViewOp.transpose dim0 dim1).inverse base v) :=
  lawful_transposed h hsizes

theorem length_transpose {dim0 dim1 : Int} {g : Geometry}
    (h : transpose g dim0 dim1 = some view) : view.sizes.length = g.sizes.length := by
  obtain ⟨d0, -, h⟩ := Option.bind_eq_some_iff.mp h
  obtain ⟨d1, -, h⟩ := Option.bind_eq_some_iff.mp h
  split at h
  · cases h
    rfl
  · cases h
    exact length_swapAt ..

theorem lawful_t (h : ViewOp.t.apply base.toGeometry = some view)
    (hsizes : v.sizes = view.sizes) : Lawful view base v (ViewOp.t.inverse base v) := by
  obtain ⟨hle, h⟩ := guard_bind_eq_some.mp h
  have hdim : v.dim = base.dim := (congrArg List.length hsizes).trans (length_transpose h)
  have hinverse : ViewOp.t.inverse base v
      = v.viewAs (transpose v.toGeometry 0 (if base.dim < 2 then 0 else 1)) := by
    simp only [ViewOp.inverse, t, hdim]
    exact congrArg v.viewAs (by simp [guard, hle])
  rw [hinverse]
  exact lawful_transposed h hsizes

end Transposed

section Singletons

/-- The inverse of `unsqueeze` is lawful. -/
theorem lawful_unsqueeze (h : (ViewOp.unsqueeze dim).apply base.toGeometry = some view)
    (hsizes : v.sizes = view.sizes) :
    Lawful view base v ((ViewOp.unsqueeze dim).inverse base v) := by
  obtain ⟨d, hd, h⟩ := Option.bind_eq_some_iff.mp h
  cases h
  have hlt : d ≤ base.sizes.length := Nat.le_of_lt_succ (maybeWrapDim_lt hd (Nat.succ_ne_zero _))
  have hdim : v.dim = base.dim + 1 :=
    (congrArg List.length hsizes).trans (length_insertIdx_of_le_length hlt 1)
  have hone : ¬ (v.dim = 0 ∨ v.sizes.getD d 0 ≠ 1) := by
    rw [hdim, hsizes, getD_eq_getElem?_getD, getElem?_insertIdx_self, if_pos hlt]
    simp
  have hback : squeezeDim v.toGeometry dim = some
      { sizes := v.sizes.eraseIdx d
        strides := v.strides.eraseIdx d
        strides_length := by simp [length_eraseIdx, v.strides_length]
        sees := fun index => index.insertIdx d 0 } := by
    simp only [squeezeDim, hdim, hd]
    rw [← hdim]
    exact if_neg hone
  refine lawful_viewAs hback ?_ ?_ ?_
  · show v.sizes.eraseIdx d = base.sizes
    rw [hsizes, eraseIdx_insertIdx_self]
  · intro i hi
    exact (InBounds.of_insertIdx_one hlt hi).2
  · intro b hb
    exact ⟨InBounds.insertIdx hb Nat.one_pos d, eraseIdx_insertIdx_self 0⟩

/-- The inverse of `squeeze` in one dimension is lawful. -/
theorem lawful_squeezeDim (h : (ViewOp.squeezeDim dim).apply base.toGeometry = some view)
    (hsizes : v.sizes = view.sizes) :
    Lawful view base v ((ViewOp.squeezeDim dim).inverse base v) := by
  obtain ⟨d, hd, h⟩ := Option.bind_eq_some_iff.mp h
  simp only [ViewOp.inverse, unsqueezeToDim]
  rw [show base.sizes.length = base.dim from rfl, hd]
  split at h
  · next hwhole =>
    cases h
    have hnot : ¬ (base.dim > 0 ∧ base.sizes.getD d 0 = 1) := by
      rintro ⟨hpos, hone⟩
      rcases hwhole with hzero | hne
      · omega
      · exact hne hone
    simp only [Option.bind_eq_bind, Option.bind_some, if_neg hnot]
    exact lawful_whole rfl hsizes
  · next hwhole =>
    cases h
    obtain ⟨hpos, hone⟩ := not_or.mp hwhole
    have hone := not_not.mp hone
    have hlt : d < base.sizes.length := maybeWrapDim_lt hd hpos
    have hdim : v.dim + 1 = base.dim := by
      have hlength := congrArg List.length hsizes
      rw [length_eraseIdx_of_lt hlt] at hlength
      simp only [Geometry.dim]
      omega
    have hrestore : (base.sizes.eraseIdx d).insertIdx d 1 = base.sizes := by
      rw [getD_eq_getElem _ _ hlt] at hone
      rw [← hone]
      exact insertIdx_eraseIdx_getElem hlt
    have hboth : base.dim > 0 ∧ base.sizes.getD d 0 = 1 := ⟨Nat.pos_of_ne_zero hpos, hone⟩
    simp only [Option.bind_eq_bind, Option.bind_some, if_pos hboth]
    refine lawful_viewAs (by
      simp only [unsqueeze, hdim, maybeWrapDim_natCast (show d < base.dim from hlt)]
      rfl) ?_ ?_ ?_
    · show v.sizes.insertIdx d 1 = base.sizes
      rw [hsizes, hrestore]
    · intro i _
      exact eraseIdx_insertIdx_self 0
    · intro b hb
      rw [← hrestore] at hb
      exact InBounds.of_insertIdx_one (by rw [length_eraseIdx_of_lt hlt]; omega) hb

end Singletons

section Squeezed

/-- The numbers of an index for the dimensions whose size is not 1. -/
def squeezeIndex : List Nat → List Nat → List Nat
  | s :: sizes, i :: index =>
    if s ≠ 1 then i :: squeezeIndex sizes index else squeezeIndex sizes index
  | _, _ => []

omit [AddCommMonoid V] in
theorem sizes_inferSqueezeGeometry {sizes strides : List Nat}
    (hlength : strides.length = sizes.length) :
    (inferSqueezeGeometry sizes strides).1 = sizes.filter (· ≠ 1) := by
  induction sizes generalizing strides with
  | nil => rfl
  | cons s sizes ih =>
    cases strides with
    | nil => cases hlength
    | cons stride strides =>
      have hrest := ih (Nat.succ.inj hlength)
      rw [inferSqueezeGeometry]
      by_cases hs : s ≠ 1
      · rw [if_pos hs, filter_cons_of_pos (by simpa using hs), hrest]
      · rw [if_neg hs, filter_cons_of_neg (by simpa using hs), hrest]

variable {sizes index : List Nat}

/-- Putting the dimensions of size one back. -/
theorem restoreSqueezed_spec (h : InBounds index (sizes.filter (· ≠ 1))) :
    InBounds (restoreSqueezed sizes index) sizes
      ∧ squeezeIndex sizes (restoreSqueezed sizes index) = index := by
  induction sizes generalizing index with
  | nil =>
    cases h
    exact ⟨.nil, rfl⟩
  | cons s sizes ih =>
    rw [restoreSqueezed]
    by_cases hs : s ≠ 1
    · rw [filter_cons_of_pos (by simpa using hs)] at h
      cases h with
      | cons hhead htail =>
        obtain ⟨hin, heq⟩ := ih htail
        rw [if_pos hs, squeezeIndex, if_pos hs]
        exact ⟨.cons hhead hin, congrArg (_ :: ·) heq⟩
    · rw [filter_cons_of_neg (by simpa using hs)] at h
      obtain ⟨hin, heq⟩ := ih h
      rw [if_neg hs, squeezeIndex, if_neg hs]
      exact ⟨.cons (by omega) hin, heq⟩

theorem squeezeIndex_spec (h : InBounds index sizes) :
    InBounds (squeezeIndex sizes index) (sizes.filter (· ≠ 1))
      ∧ restoreSqueezed sizes (squeezeIndex sizes index) = index := by
  induction h with
  | nil => exact ⟨.nil, rfl⟩
  | @cons i s index sizes hi _ ih =>
    obtain ⟨hin, heq⟩ := ih
    rw [squeezeIndex, restoreSqueezed]
    by_cases hs : s ≠ 1
    · rw [if_pos hs, if_pos hs, filter_cons_of_pos (by simpa using hs)]
      exact ⟨.cons hi hin, congrArg (i :: ·) heq⟩
    · rw [if_neg hs, if_neg hs, filter_cons_of_neg (by simpa using hs), heq]
      exact ⟨hin, by rw [show i = 0 by omega]⟩

theorem insertIdx_append_length (xs ys : List Nat) (x : Nat) :
    (xs ++ ys).insertIdx xs.length x = xs ++ x :: ys := by
  induction xs with
  | nil => rfl
  | cons a xs ih => exact congrArg (a :: ·) ih

theorem eraseIdx_append_length (xs ys : List Nat) (x : Nat) :
    (xs ++ x :: ys).eraseIdx xs.length = xs ++ ys := by
  induction xs with
  | nil => rfl
  | cons a xs ih => exact congrArg (a :: ·) ih

omit [AddCommMonoid V] in
/-- The dimensions of size 1 are put back one after the other; those before `pre.length` are
there already. -/
theorem unsqueezeFrom_spec (sizes : List Nat) {pre : List Nat} {result : Tensor V}
    (hsizes : result.sizes = pre ++ sizes.filter (· ≠ 1)) :
    ∃ r, unsqueezeFrom result sizes pre.length = some r ∧ r.sizes = pre ++ sizes
      ∧ ∀ p q, p.length = pre.length → q.length = sizes.length →
        r.elem (p ++ q) = result.elem (p ++ squeezeIndex sizes q) := by
  induction sizes generalizing pre result with
  | nil =>
    refine ⟨result, rfl, hsizes, fun p q _ hq => ?_⟩
    rw [length_eq_zero_iff.mp hq, squeezeIndex]
    simp
  | cons s sizes ih =>
    rw [unsqueezeFrom]
    by_cases hs : s = 1
    · subst hs
      have hlt : pre.length < result.dim + 1 := by
        simp only [Geometry.dim, hsizes, length_append]
        omega
      obtain ⟨back, hback, hbacksizes, hbacksees⟩ : ∃ back,
          unsqueeze result.toGeometry pre.length = some back
            ∧ back.sizes = (pre ++ [1]) ++ sizes.filter (· ≠ 1)
            ∧ back.sees = fun index => index.eraseIdx pre.length := by
        refine ⟨_, by simp only [unsqueeze, maybeWrapDim_natCast hlt]; rfl, ?_, rfl⟩
        show result.sizes.insertIdx pre.length 1 = _
        rw [hsizes, insertIdx_append_length, append_assoc]
        rfl
      obtain ⟨r, hr, hrsizes, helem⟩ := @ih (pre ++ [1]) (result.take back) hbacksizes
      rw [length_append] at hr
      refine ⟨r, ?_, by rw [hrsizes]; simp, fun p q hp hq => ?_⟩
      · rw [if_pos rfl, hback]
        exact hr
      · obtain ⟨i, q, rfl⟩ := exists_cons_of_length_eq_add_one hq
        have hstep := helem (p ++ [i]) q (by simp [hp]) (Nat.succ.inj hq)
        rw [append_assoc] at hstep
        rw [show p ++ i :: q = p ++ ([i] ++ q) from rfl, hstep, squeezeIndex, if_neg (by simp)]
        show result.elem (back.sees _) = _
        rw [hbacksees, ← hp, append_assoc]
        exact congrArg result.elem (eraseIdx_append_length p (squeezeIndex sizes q) i)
    · rw [filter_cons_of_pos (by simpa using hs)] at hsizes
      obtain ⟨r, hr, hrsizes, helem⟩ := @ih (pre ++ [s]) result (by rw [hsizes]; simp)
      rw [length_append] at hr
      refine ⟨r, ?_, by rw [hrsizes]; simp, fun p q hp hq => ?_⟩
      · rw [if_neg hs]
        exact hr
      · obtain ⟨i, q, rfl⟩ := exists_cons_of_length_eq_add_one hq
        have hstep := helem (p ++ [i]) q (by simp [hp]) (Nat.succ.inj hq)
        rw [append_assoc] at hstep
        rw [show p ++ i :: q = p ++ ([i] ++ q) from rfl, hstep, squeezeIndex, if_pos hs]
        simp

theorem lawful_squeeze (h : ViewOp.squeeze.apply base.toGeometry = some view)
    (hsizes : v.sizes = view.sizes) : Lawful view base v (ViewOp.squeeze.inverse base v) := by
  cases h
  have hview : (squeeze base.toGeometry).sizes = base.sizes.filter (· ≠ 1) :=
    sizes_inferSqueezeGeometry base.strides_length
  obtain ⟨r, hr, hrsizes, helem⟩ := @unsqueezeFrom_spec V base.sizes [] v (hsizes.trans hview)
  refine ⟨r, hr, hrsizes, fun i hi => ?_, fun b hb hunseen => ?_⟩
  · rw [hview] at hi
    obtain ⟨hin, heq⟩ := restoreSqueezed_spec hi
    exact (helem [] _ rfl hin.length_eq).trans (congrArg v.elem heq)
  · obtain ⟨hin, heq⟩ := squeezeIndex_spec hb
    exact absurd heq (hunseen _ (hview ▸ hin))

end Squeezed

end PyTorchCore.ViewInverses
