import PyTorchCore.ViewInverses.Summed

/-!
# The inverse of `unfold`

`unfold` lists windows of a dimension, and the window as a new last dimension.  Windows may
overlap, and elements may be in none.
-/

namespace PyTorchCore.ViewInverses

open Lib ViewInverses.Geometry
open Option List

variable {V : Type} [AddCommMonoid V] {view' : View} {base v : Tensor V} {g : Geometry}
  {d size step : Nat}

/-- The element at place `l` of the window that `p` is in. -/
def windowElem (d step : Nat) (p : List Nat) (l : Nat) : List Nat :=
  p.set d (p.getD d 0 * step + l)

/-- The view that `unfold` gives: the windows of `size` elements, `step` apart, of dimension `d`. -/
structure IsUnfolding (view : View) (base : Geometry) (d size step : Nat) : Prop where
  step_pos : 0 < step
  dim : d < base.dim ∨ (base.dim = 0 ∧ d = 0)
  size_le : if base.dim = 0 then size ≤ 1 else size ≤ base.sizes.getD d 0
  sizes : view.sizes = base.sizes.modify d (fun s => (s - size) / step + 1) ++ [size]
  sees_eq : view.sees = fun i => i.dropLast.set d (i.getD d 0 * step + i.getLastD 0)

section Windows

theorem leftFold_le {i f left : Nat} (hstep : 0 < step)
    (hleft : left = if i > size then (i - size) / step else 0) :
    (if left * step ≤ i ∧ i < left * step + size then left else left + 1) ≤ f ↔
    i < f * step + size := by
  by_cases hgt : i > size
  · rw [if_pos hgt] at hleft
    have hmul : left * step ≤ i - size := hleft ▸ Nat.div_mul_le_self (i - size) step
    rw [if_neg (by omega), Nat.succ_le_iff, hleft, Nat.div_lt_iff_lt_mul hstep]
    omega
  · rw [if_neg hgt] at hleft
    subst hleft
    by_cases heq : i = size
    · rw [if_neg (by omega), Nat.zero_add, Nat.one_le_iff_ne_zero, heq]
      have hpos : 0 < f * step ↔ f ≠ 0 := by
        rw [Nat.mul_pos_iff_of_pos_right hstep, Nat.pos_iff_ne_zero]
      omega
    · rw [if_pos (by omega)]
      omega

theorem le_rightFold {i f foldCount : Nat} (hstep : 0 < step) (hcount : 0 < foldCount) :
    f ≤ (if i / step ≥ foldCount then foldCount - 1 else i / step) ↔
    f * step ≤ i ∧ f < foldCount := by
  rw [← Nat.le_div_iff_mul_le hstep]
  split <;> omega

theorem mem_foldsOf {foldCount i f : Nat} (hstep : 0 < step) (hcount : 0 < foldCount) :
    f ∈ foldsOf size step foldCount i ↔
    f * step ≤ i ∧ i < f * step + size ∧ f < foldCount := by
  have hleft := @leftFold_le size step i f _ hstep rfl
  have hright := @le_rightFold step i f foldCount hstep hcount
  simp only [foldsOf, mem_range'_1]
  omega

theorem nodup_foldsOf (size step foldCount i : Nat) : (foldsOf size step foldCount i).Nodup :=
  nodup_range'

end Windows

section Lists

variable {xs : List Nat}

theorem getD_modify {f : Nat → Nat} {k : Nat} (hk : k < xs.length) :
    (xs.modify d f).getD k 0 = if d = k then f (xs.getD k 0) else xs.getD k 0 := by
  rw [getD_eq_getElem _ _ (by simpa using hk), getElem_modify, getD_eq_getElem _ _ hk]

theorem getD_set {x k : Nat} (hk : k < xs.length) :
    (xs.set d x).getD k 0 = if d = k then x else xs.getD k 0 := by
  rw [getD_eq_getElem _ _ (by simpa using hk), getElem_set, getD_eq_getElem _ _ hk]

theorem modify_congr {f f' : Nat → Nat}
    (h : d < xs.length → f (xs.getD d 0) = f' (xs.getD d 0)) : xs.modify d f = xs.modify d f' := by
  refine ext_getD (by simp) fun k hk => ?_
  rw [length_modify] at hk
  rw [getD_modify hk, getD_modify hk]
  split
  · next heq =>
    subst heq
    exact h hk
  · rfl

end Lists

section Spec

/-- What `unfold` gives are windows. -/
theorem unfold_spec {dimension size step : Int} (h : unfold g dimension size step = some view') :
    ∃ d, maybeWrapDim dimension g.dim = some d ∧ IsUnfolding view' g d size.toNat step.toNat := by
  obtain ⟨d, hd, h⟩ := bind_eq_some_iff.mp h
  obtain ⟨hle, h⟩ := guard_bind_eq_some.mp h
  obtain ⟨hstep, h⟩ := guard_bind_eq_some.mp h
  obtain ⟨hsize, h⟩ := guard_bind_eq_some.mp h
  cases h
  obtain ⟨size, rfl⟩ := Int.eq_ofNat_of_zero_le hsize
  obtain ⟨step, rfl⟩ := Int.eq_ofNat_of_zero_le (Int.le_of_lt hstep)
  have hdim : d < g.dim ∨ (g.dim = 0 ∧ d = 0) := by
    by_cases hzero : g.dim = 0
    · exact .inr ⟨hzero, maybeWrapDim_zero (hzero ▸ hd)⟩
    · exact .inl (maybeWrapDim_lt hd hzero)
  have hle : if g.dim = 0 then size ≤ 1 else size ≤ g.sizes.getD d 0 := by
    split at hle
    · next hzero =>
      rw [if_pos hzero]
      simpa using hle
    · next hne =>
      rw [if_neg hne]
      simpa using hle
  refine ⟨d, hd, by omega, hdim, hle, ?_, ?_⟩
  · show g.sizes.modify d _ ++ _ = _
    congr 1
    refine modify_congr fun hlt => ?_
    have hne : g.dim ≠ 0 := Nat.ne_of_gt (Nat.zero_lt_of_lt hlt)
    rw [if_neg hne] at hle
    rw [Int.toNat_natCast, Int.toNat_natCast, ← Int.ofNat_sub hle, ← Int.natCast_ediv]
    exact Int.toNat_natCast _
  · rfl

variable (h : IsUnfolding view' g d size step)

include h

/-- An element of a window, by window and place. -/
theorem IsUnfolding.sees {p : List Nat} {l : Nat} (hp : p.length = g.dim) :
    view'.sees (p ++ [l]) = windowElem d step p l := by
  rw [h.sees_eq]
  simp only [dropLast_concat, getLastD_concat, windowElem]
  rcases h.dim with hlt | ⟨hzero, -⟩
  · rw [getD_append _ _ _ _ (hp ▸ hlt)]
  · rw [length_eq_zero_iff.mp (hp.trans hzero)]
    rfl

theorem IsUnfolding.exists_window {i : List Nat} (hi : InBounds i view'.sizes) :
    ∃ p l, i = p ++ [l] ∧ InBounds p (g.sizes.modify d fun s => (s - size) / step + 1)
      ∧ l < size ∧ p.length = g.dim := by
  rw [h.sizes] at hi
  obtain ⟨p, q, rfl, hp, hq⟩ := inBounds_append.mp hi
  cases hq with
  | cons hl hnil =>
    cases hnil
    exact ⟨p, _, rfl, hp, hl, by rw [hp.length_eq, length_modify]; rfl⟩

theorem IsUnfolding.window_lt {p : List Nat} {l : Nat}
    (hp : InBounds p (g.sizes.modify d fun s => (s - size) / step + 1)) (hl : l < size)
    (hd : d < g.dim) : p.getD d 0 * step + l < g.sizes.getD d 0 := by
  have hlt := (inBounds_iff.mp hp).2 d (by rwa [length_modify])
  rw [getD_modify hd, if_pos rfl] at hlt
  have hle := h.size_le
  have hne : g.dim ≠ 0 := Nat.ne_of_gt (Nat.zero_lt_of_lt hd)
  rw [if_neg hne] at hle
  have hmul := (Nat.le_div_iff_mul_le h.step_pos).mp (Nat.le_of_lt_succ hlt)
  omega

/-- Windows see elements of the base. -/
theorem IsUnfolding.sees_inBounds {i : List Nat} (hi : InBounds i view'.sizes) :
    InBounds (view'.sees i) g.sizes := by
  obtain ⟨p, l, rfl, hp, hl, hlength⟩ := h.exists_window hi
  rw [h.sees hlength, inBounds_iff, windowElem]
  refine ⟨by rw [length_set]; exact hlength, fun k hk => ?_⟩
  rw [getD_set (show k < p.length from hlength ▸ hk)]
  split
  · next heq =>
    subst heq
    exact h.window_lt hp hl hk
  · next hne =>
    have hlt := (inBounds_iff.mp hp).2 k (by rwa [length_modify])
    rwa [getD_modify hk, if_neg hne] at hlt

/-- Windows that do not overlap see every element once. -/
theorem IsUnfolding.injective (hle : size ≤ step) {i j : List Nat} (hi : InBounds i view'.sizes)
    (hj : InBounds j view'.sizes) (heq : view'.sees i = view'.sees j) : i = j := by
  obtain ⟨p, l, rfl, hp, hl, hlength⟩ := h.exists_window hi
  obtain ⟨p', l', rfl, hp', hl', hlength'⟩ := h.exists_window hj
  rw [h.sees hlength, h.sees hlength', windowElem, windowElem] at heq
  have hk : ∀ k, (p.set d (p.getD d 0 * step + l)).getD k 0
      = (p'.set d (p'.getD d 0 * step + l')).getD k 0 := fun k => by rw [heq]
  rcases h.dim with hd | ⟨hzero, -⟩
  · have hsum := hk d
    rw [getD_set (hlength ▸ hd), getD_set (hlength' ▸ hd), if_pos rfl, if_pos rfl] at hsum
    have hdiv : ∀ q m, m < size → (q * step + m) / step = q := by
      intro q m hm
      rw [Nat.add_comm, Nat.add_mul_div_right _ _ h.step_pos, Nat.div_eq_of_lt (by omega),
        Nat.zero_add]
    have hwindow : p.getD d 0 = p'.getD d 0 := by
      rw [← hdiv (p.getD d 0) l hl, hsum, hdiv _ _ hl']
    have hplace : l = l' := by
      rw [hwindow] at hsum
      exact Nat.add_left_cancel hsum
    have hrest : p = p' := by
      refine ext_getD (hlength.trans hlength'.symm) fun k hk' => ?_
      by_cases hkd : d = k
      · exact hkd ▸ hwindow
      · have hother := hk k
        rwa [getD_set hk', getD_set (hlength'.trans hlength.symm ▸ hk'), if_neg hkd,
          if_neg hkd] at hother
    rw [hrest, hplace]
  · have hone := h.size_le
    rw [if_pos hzero] at hone
    rw [length_eq_zero_iff.mp (hlength.trans hzero),
      length_eq_zero_iff.mp (hlength'.trans hzero), show l = l' by omega]

/-- The positions at which the windows see an element. -/
theorem IsUnfolding.mem_seenBy {b i : List Nat} (hb : InBounds b g.sizes) (hd : d < g.dim) :
    i ∈ view'.seenBy b ↔
    ∃ f ∈ foldsOf size step ((g.sizes.getD d 0 - size) / step + 1) (b.getD d 0),
      b.set d f ++ [b.getD d 0 - f * step] = i := by
  have hblength : b.length = g.dim := hb.length_eq
  have hdb : d < b.length := hblength ▸ hd
  rw [View.mem_seenBy]
  constructor
  · rintro ⟨hi, hsees⟩
    obtain ⟨p, l, rfl, hp, hl, hlength⟩ := h.exists_window hi
    have hdp : d < p.length := hlength ▸ hd
    rw [h.sees hlength, windowElem] at hsees
    have hbd : b.getD d 0 = p.getD d 0 * step + l := by
      rw [← hsees, getD_set hdp, if_pos rfl]
    have hcount := (inBounds_iff.mp hp).2 d (by rwa [length_modify])
    rw [getD_modify hd, if_pos rfl] at hcount
    refine ⟨p.getD d 0, (mem_foldsOf h.step_pos (Nat.succ_pos _)).mpr ?_, ?_⟩
    · omega
    · rw [hbd, Nat.add_sub_cancel_left, ← hsees, set_set, getD_eq_getElem _ _ hdp, set_getElem_self]
  · rintro ⟨f, hf, rfl⟩
    obtain ⟨hge, hlt, hcount⟩ := (mem_foldsOf h.step_pos (Nat.succ_pos _)).mp hf
    constructor
    · rw [h.sizes, inBounds_append]
      refine ⟨_, _, rfl, ?_, .cons (by omega) .nil⟩
      rw [inBounds_iff]
      refine ⟨by rw [length_set, length_modify]; exact hblength, fun k hk => ?_⟩
      rw [length_modify] at hk
      rw [getD_modify hk, getD_set (show k < b.length from hblength ▸ hk)]
      split
      · next heq =>
        subst heq
        exact hcount
      · exact (inBounds_iff.mp hb).2 k hk
    · rw [h.sees (by rw [length_set]; exact hblength), windowElem, getD_set hdb, if_pos rfl,
        Nat.add_sub_cancel' hge, set_set, getD_eq_getElem _ _ hdb, set_getElem_self]

end Spec

section Law

theorem IsUnfolding.sum_folds (h : IsUnfolding view' g d size step) {b : List Nat}
    (hb : InBounds b g.sizes) (hd : d < g.dim) (f : List Nat → V) :
    ((foldsOf size step ((g.sizes.getD d 0 - size) / step + 1) (b.getD d 0)).map fun fold =>
        f (b.set d fold ++ [b.getD d 0 - fold * step])).sum
      = ((view'.seenBy b).map f).sum := by
  have hdb : d < b.length := lt_of_lt_of_eq hd hb.length_eq.symm
  have hinjective : Function.Injective fun fold => b.set d fold ++ [b.getD d 0 - fold * step] := by
    intro fold fold' heq
    have hset := (List.append_inj' heq rfl).1
    have hgetD := congrArg (fun xs => xs.getD d 0) hset
    simpa only [getD_set hdb, if_pos] using hgetD
  have hperm : ((foldsOf size step ((g.sizes.getD d 0 - size) / step + 1) (b.getD d 0)).map
      fun fold => b.set d fold ++ [b.getD d 0 - fold * step]).Perm (view'.seenBy b) := by
    refine (List.perm_ext_iff_of_nodup ((nodup_foldsOf ..).map hinjective)
      ((nodup_indices _).filter _)).mpr fun i => ?_
    rw [List.mem_map]
    exact (h.mem_seenBy hb hd).symm
  have hsum := (hperm.map f).sum_eq
  rwa [List.map_map] at hsum

variable {dimension size step : Int}

theorem unfoldBackward_spec (hd : maybeWrapDim dimension base.dim = some d)
    (h : IsUnfolding view' base.toGeometry d size.toNat step.toNat)
    (hsizes : v.sizes = view'.sizes) :
    ∃ r, unfoldBackward v base.sizes dimension size step = some r ∧ AddsUp view' base v r := by
  have hwrap : maybeWrapDim dimension base.sizes.length = some d := hd
  simp only [unfoldBackward, hwrap]
  rw [bind_eq_bind, bind_some]
  split
  · next hge =>
    refine ⟨_, rfl, rfl, fun b hb => ?_⟩
    have hconsistent : ∀ i ∈ indices v.sizes, ∀ j ∈ indices v.sizes,
        view'.sees i = view'.sees j → v.elem i = v.elem j := by
      intro i hi j hj heq
      rw [hsizes] at hi hj
      rw [h.injective hge (mem_indices.mp hi) (mem_indices.mp hj) heq]
    have hcopy : ∀ i, view'.sees i = i.dropLast.set d (i.getD d 0 * step.toNat + i.getLastD 0) :=
      congrFun h.sees_eq
    simp only [hcopy] at hconsistent
    by_cases hseen : ∃ i, InBounds i view'.sizes ∧ view'.sees i = b
    · obtain ⟨i, hi, rfl⟩ := hseen
      have honly : view'.seenBy (view'.sees i) = (indices view'.sizes).filter fun j => j = i := by
        refine filter_congr fun j hj => decide_eq_decide.mpr ⟨fun heq => ?_, fun heq => ?_⟩
        · exact h.injective hge (mem_indices.mp hj) hi heq
        · rw [heq]
      rw [honly, sum_filter_eq hi, hcopy]
      exact foldl_update_of_seen _ v.elem _ hconsistent (hsizes ▸ mem_indices.mpr hi) _
    · have hnone : view'.seenBy b = [] := by
        refine eq_nil_iff_forall_not_mem.mpr fun i hi => hseen ⟨i, View.mem_seenBy.mp hi⟩
      rw [hnone, map_nil, sum_nil]
      refine foldl_update_of_unseen _ v.elem _ (fun i hi heq => hseen ⟨i, ?_, ?_⟩) _
      · rw [← hsizes]
        exact mem_indices.mp hi
      · rw [hcopy]
        exact heq
  · next hlt =>
    refine ⟨_, rfl, rfl, fun b hb => ?_⟩
    have hd' : d < base.dim := by
      rcases h.dim with hd' | ⟨hzero, -⟩
      · exact hd'
      · have hone := h.size_le
        rw [if_pos hzero] at hone
        have hpos := h.step_pos
        omega
    have hcount : v.sizes.getD d 1 = (base.sizes.getD d 0 - size.toNat) / step.toNat + 1 := by
      have hmodify : d < (base.sizes.modify d
          fun s => (s - size.toNat) / step.toNat + 1).length := by
        rwa [length_modify]
      rw [hsizes, h.sizes, getD_append _ _ _ _ hmodify, getD_eq_getElem _ _ hmodify,
        getElem_modify, if_pos rfl, getD_eq_getElem _ _ hd']
      rfl
    rw [← h.sum_folds hb hd' v.elem]
    show (if _ then _ else _) = _
    rw [hcount]
    split
    · rfl
    · next hout =>
      have hnone : foldsOf size.toNat step.toNat
          ((base.sizes.getD d 0 - size.toNat) / step.toNat + 1) (b.getD d 0) = [] := by
        refine eq_nil_iff_forall_not_mem.mpr fun f hf => hout (Nat.lt_min.mpr ⟨?_, ?_⟩)
        · have hin := (inBounds_iff.mp hb).2 d hd'
          rwa [getD_eq_getElem _ 0 hd', ← getD_eq_getElem _ 1 hd'] at hin
        · obtain ⟨-, hlast, hf⟩ := (mem_foldsOf h.step_pos (Nat.succ_pos _)).mp hf
          have hmul := Nat.mul_le_mul_right step.toNat (Nat.le_of_lt_succ hf)
          rw [Nat.add_sub_cancel]
          omega
      rw [hnone]
      rfl

theorem lawful_unfold_iff
    (h : (ViewOp.unfold dimension size step).apply base.toGeometry = some view')
    (hsizes : v.sizes = view'.sizes) (hconsistent : Consistent view' v) :
    Lawful view' base v ((ViewOp.unfold dimension size step).inverse base v) ↔
    SumsBack view' base v := by
  obtain ⟨d, hd, hunfolding⟩ := unfold_spec h
  obtain ⟨r, hr, hsum⟩ := unfoldBackward_spec hd hunfolding hsizes
  exact lawful_iff_sumsBack hr hsum (fun i hi => hunfolding.sees_inBounds hi) hconsistent

end Law

end PyTorchCore.ViewInverses
