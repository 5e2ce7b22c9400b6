import PyTorchCore.ViewInverses.Lawful

/-!
# Inverses that write into the base

`diagonal`, `select`, `slice`, `split`, `split_with_sizes` and `unbind` see a part of the base.
Their inverses copy the view into this part of a clone of the base.
-/

namespace PyTorchCore.ViewInverses

open Lib
open Option List

variable {V : Type} {g : Geometry} {view : View} {base v : Tensor V} {dim : Int} {d : Nat}

section Slices

theorem slice_wrapped (h : maybeWrapDim dim g.dim = some d) (start stop : Option Int)
    (step : Int) : slice g d start stop step = slice g dim start stop step := by
  rw [slice, slice, h, maybeWrapDim_wrapped h]

theorem size_wrapped (h : maybeWrapDim dim g.dim = some d) : g.size d = g.size dim := by
  rw [Geometry.size, Geometry.size, h, maybeWrapDim_wrapped h]

variable {size : Nat}

theorem wrapped_of_size (h : g.size dim = some size) :
    ∃ d, maybeWrapDim dim g.dim = some d := by
  obtain ⟨-, h⟩ := guard_bind_eq_some.mp h
  obtain ⟨d, hd, -⟩ := bind_eq_some_iff.mp h
  exact ⟨d, hd⟩

theorem narrowStart_of_nonneg {start start' : Int} (hstart : 0 ≤ start)
    (h : narrowStart start size = some start') : start' = start := by
  rw [narrowStart] at h
  split at h
  · obtain ⟨wrapped, hwrapped, rfl⟩ := map_eq_some_iff.mp h
    exact maybeWrapDim_of_nonneg hstart hwrapped
  · exact (Option.some.inj h).symm

theorem slice_of_narrow {start length : Int} (hsize : g.size dim = some size)
    (hstart : 0 ≤ start) (h : narrow g dim start length = some view) :
    slice g dim (some start) (some (start + length)) 1 = some view ∧ 0 ≤ length
      ∧ start + length ≤ size := by
  simp only [narrow, hsize] at h
  obtain ⟨-, h⟩ := guard_bind_eq_some.mp h
  rw [bind_eq_bind, bind_some] at h
  obtain ⟨start', hstart', h⟩ := bind_eq_some_iff.mp h
  obtain ⟨⟨hlength, hstop⟩, h⟩ := guard_bind_eq_some.mp h
  rw [narrowStart_of_nonneg hstart hstart'] at h hstop
  exact ⟨h, hlength, by omega⟩

end Slices

section Splits

variable {size : Nat}

/-- So many splits cover the size. -/
theorem le_mul_splitCount {splitSize count : Int} (hnonneg : splitSize ≥ 0)
    (hzero : splitSize > 0 ∨ size = 0)
    (hcount : (if splitSize ≠ 0 then max (((size : Int) + splitSize - 1) / splitSize) 1
      else (1 : Int)) = count) :
    (size : Int) ≤ splitSize * count := by
  rcases hzero with hpos | hempty
  · rw [if_pos (Int.ne_of_gt hpos)] at hcount
    have hceil : ((size : Int) + splitSize - 1) / splitSize ≤ count :=
      hcount ▸ Int.le_max_left _ _
    have hlt := Int.lt_mul_ediv_self_add hpos (x := (size : Int) + splitSize - 1)
    have hmul := Int.mul_le_mul_of_nonneg_left hceil hnonneg
    omega
  · subst hempty
    refine Int.mul_nonneg hnonneg ?_
    rw [← hcount]
    split
    · exact Int.le_trans Int.one_nonneg (Int.le_max_right _ _)
    · exact Int.one_nonneg

variable {idx : Nat}

theorem slice_of_split {splitSize : Int} (hsize : g.size dim = some size)
    (h : (ViewOp.split idx splitSize dim).apply g = some view) :
    slice g dim (some (idx * splitSize))
      (some (if idx * splitSize + splitSize > (size : Int) then (size : Int)
        else idx * splitSize + splitSize)) 1 = some view := by
  simp only [ViewOp.apply, split, hsize] at h
  obtain ⟨pieces, h, hpiece⟩ := Option.bind_eq_some_iff.mp h
  obtain ⟨-, h⟩ := guard_bind_eq_some.mp h
  obtain ⟨hnonneg, h⟩ := guard_bind_eq_some.mp h
  obtain ⟨hzero, h⟩ := guard_bind_eq_some.mp h
  obtain ⟨i, hi, hnarrow⟩ := getElem?_of_mapM h hpiece
  obtain ⟨hlt, rfl⟩ := List.getElem?_eq_some_iff.mp hi
  rw [List.getElem_range] at hnarrow
  rw [List.length_range] at hlt
  generalize hcount : (if splitSize ≠ 0 then max (((size : Int) + splitSize - 1) / splitSize) 1
    else (1 : Int)) = count at hnarrow hlt
  have hstart : 0 ≤ (idx : Int) * splitSize := Int.mul_nonneg (Int.natCast_nonneg _) hnonneg
  obtain ⟨hslice, -, hstop⟩ := slice_of_narrow hsize hstart hnarrow
  have hend : (if idx * splitSize + splitSize > (size : Int) then (size : Int)
        else idx * splitSize + splitSize)
      = idx * splitSize + (if (idx : Int) < count - 1 then splitSize
          else splitSize - (splitSize * count - size)) := by
    by_cases hlast : (idx : Int) < count - 1
    · rw [if_pos hlast] at hstop ⊢
      exact if_neg (by omega)
    · have hidx : (idx : Int) = count - 1 := by omega
      have hcover := le_mul_splitCount hnonneg hzero hcount
      rw [if_neg hlast, hidx, Int.sub_mul, Int.mul_comm count]
      split <;> omega
  rw [hend]
  exact hslice

theorem size_of_split {splitSize : Int}
    (h : (ViewOp.split idx splitSize dim).apply g = some view) :
    ∃ size, g.size dim = some size := by
  obtain ⟨pieces, h, -⟩ := bind_eq_some_iff.mp h
  obtain ⟨-, h⟩ := guard_bind_eq_some.mp h
  obtain ⟨-, h⟩ := guard_bind_eq_some.mp h
  obtain ⟨size, hsize, -⟩ := bind_eq_some_iff.mp h
  exact ⟨size, hsize⟩

variable {splitSizes : List Int}

/-- A piece of a split is a slice. -/
theorem slice_of_splitPieces {startIdx stop : Int} {pieces : List View}
    (hsize : g.size dim = some size) (hstart : 0 ≤ startIdx)
    (h : splitPieces g dim splitSizes startIdx = some (pieces, stop))
    (hpiece : pieces[idx]? = some view) :
    slice g dim (some (startIdx + (splitSizes.take idx).sum))
        (some (startIdx + (splitSizes.take idx).sum + splitSizes.getD idx 0)) 1 = some view
      ∧ startIdx + (splitSizes.take idx).sum + splitSizes.getD idx 0 ≤ size := by
  induction splitSizes generalizing startIdx pieces idx with
  | nil =>
    cases h
    cases hpiece
  | cons length splitSizes ih =>
    obtain ⟨hlength, h⟩ := guard_bind_eq_some.mp h
    obtain ⟨piece, hnarrow, h⟩ := bind_eq_some_iff.mp h
    obtain ⟨⟨rest, stop'⟩, hrest, h⟩ := bind_eq_some_iff.mp h
    cases h
    cases idx with
    | zero =>
      cases hpiece
      obtain ⟨hslice, -, hstop⟩ := slice_of_narrow hsize hstart hnarrow
      simpa using ⟨hslice, hstop⟩
    | succ idx =>
      have hnext := ih (by omega) hrest hpiece
      rw [take_succ_cons, sum_cons, getD_cons_succ, ← Int.add_assoc]
      exact hnext

theorem slice_of_splitWithSizes
    (h : (ViewOp.splitWithSizes idx splitSizes dim).apply g = some view) :
    ∃ size : Nat, g.size dim = some size ∧ slice g dim (some (splitSizes.take idx).sum)
        (some (if (splitSizes.take idx).sum + splitSizes.getD idx 0 > (size : Int) then (size : Int)
          else (splitSizes.take idx).sum + splitSizes.getD idx 0)) 1 = some view := by
  obtain ⟨pieces, h, hpiece⟩ := bind_eq_some_iff.mp h
  obtain ⟨-, h⟩ := guard_bind_eq_some.mp h
  obtain ⟨size, hsize, h⟩ := bind_eq_some_iff.mp h
  obtain ⟨⟨pieces', stop⟩, hpieces, h⟩ := bind_eq_some_iff.mp h
  obtain ⟨-, h⟩ := guard_bind_eq_some.mp h
  cases h
  obtain ⟨hslice, hstop⟩ := slice_of_splitPieces hsize (Int.le_refl 0) hpieces hpiece
  rw [Int.zero_add] at hslice hstop
  refine ⟨size, hsize, ?_⟩
  rw [if_neg (Int.not_lt.mpr hstop)]
  exact hslice

end Splits

section Laws

variable [AddCommMonoid V]

theorem lawful_diagonal {offset dim1 dim2 : Int}
    (h : (ViewOp.diagonal offset dim1 dim2).apply base.toGeometry = some view)
    (hconsistent : Consistent view v) (hsizes : v.sizes = view.sizes) :
    Lawful view base v ((ViewOp.diagonal offset dim1 dim2).inverse base v) := by
  have h : diagonal base.toGeometry offset dim1 dim2 = some view := h
  simp only [ViewOp.inverse, Tensor.diagonalScatter, h]
  exact lawful_scatter hconsistent hsizes

theorem lawful_select {index : Int}
    (h : (ViewOp.select dim index).apply base.toGeometry = some view)
    (hconsistent : Consistent view v) (hsizes : v.sizes = view.sizes) :
    Lawful view base v ((ViewOp.select dim index).inverse base v) := by
  have h : select base.toGeometry dim index = some view := h
  simp only [ViewOp.inverse, Tensor.selectScatter, h]
  exact lawful_scatter hconsistent hsizes

theorem lawful_slice {start stop : Option Int} {step : Int}
    (h : (ViewOp.slice dim start stop step).apply base.toGeometry = some view)
    (hconsistent : Consistent view v) (hsizes : v.sizes = view.sizes) :
    Lawful view base v ((ViewOp.slice dim start stop step).inverse base v) := by
  have h : slice base.toGeometry dim start stop step = some view := h
  simp only [ViewOp.inverse, Tensor.sliceScatter, h]
  exact lawful_scatter hconsistent hsizes

variable {idx : Nat}

theorem lawful_split {splitSize : Int}
    (h : (ViewOp.split idx splitSize dim).apply base.toGeometry = some view)
    (hconsistent : Consistent view v) (hsizes : v.sizes = view.sizes) :
    Lawful view base v ((ViewOp.split idx splitSize dim).inverse base v) := by
  obtain ⟨size, hsize⟩ := size_of_split h
  obtain ⟨d, hd⟩ := wrapped_of_size hsize
  have hinverse : (ViewOp.split idx splitSize dim).inverse base v = base.scatter v (some view) := by
    rw [← slice_of_split hsize h, ← slice_wrapped hd]
    simp only [ViewOp.inverse, hd, bind_eq_bind, bind_some, size_wrapped hd, hsize]
    rfl
  rw [hinverse]
  exact lawful_scatter hconsistent hsizes

/-- The inverse of `split_with_sizes` is lawful. -/
theorem lawful_splitWithSizes {splitSizes : List Int}
    (h : (ViewOp.splitWithSizes idx splitSizes dim).apply base.toGeometry = some view)
    (hconsistent : Consistent view v) (hsizes : v.sizes = view.sizes) :
    Lawful view base v ((ViewOp.splitWithSizes idx splitSizes dim).inverse base v) := by
  obtain ⟨size, hsize, hslice⟩ := slice_of_splitWithSizes h
  obtain ⟨d, hd⟩ := wrapped_of_size hsize
  have hinverse : (ViewOp.splitWithSizes idx splitSizes dim).inverse base v
      = base.scatter v (some view) := by
    rw [← hslice, ← slice_wrapped hd]
    simp only [ViewOp.inverse, hd, bind_eq_bind, bind_some, size_wrapped hd, hsize]
    rfl
  rw [hinverse]
  exact lawful_scatter hconsistent hsizes

/-- The inverse of `unbind` is lawful. -/
theorem lawful_unbind (h : (ViewOp.unbind idx dim).apply base.toGeometry = some view)
    (hconsistent : Consistent view v) (hsizes : v.sizes = view.sizes) :
    Lawful view base v ((ViewOp.unbind idx dim).inverse base v) := by
  obtain ⟨pieces, h, hpiece⟩ := Option.bind_eq_some_iff.mp h
  obtain ⟨d, hd, h⟩ := Option.bind_eq_some_iff.mp h
  obtain ⟨size, hsize, h⟩ := Option.bind_eq_some_iff.mp h
  obtain ⟨i, hi, hselect⟩ := getElem?_of_mapM h hpiece
  obtain ⟨_, rfl⟩ := List.getElem?_eq_some_iff.mp hi
  rw [List.getElem_range] at hselect
  have hinverse : (ViewOp.unbind idx dim).inverse base v = base.scatter v (some view) := by
    simp only [ViewOp.inverse, hd, Tensor.selectScatter, ← hselect]
    rfl
  rw [hinverse]
  exact lawful_scatter hconsistent hsizes

end Laws

end PyTorchCore.ViewInverses
