import PyTorchCore.ViewInverses.Pieces
import PyTorchCore.ViewInverses.Permuted
import PyTorchCore.ViewInverses.Unfolded

/-!
# Which view inverses are lawful

All inverses are lawful but three.  Those of `expand` and `unfold` are backward formulas: an
element that several positions see is added up, and one that no position sees becomes 0.  That of
`view` needs strides that allow it.
-/

namespace PyTorchCore.ViewInverses

open Lib ViewInverses.Geometry

section Main

variable {V : Type} [AddCommMonoid V]

/-- What the inverse of a view operator must do for a base and a tensor of the shape of the
view. -/
def LawfulAt (op : ViewOp) (base v : Tensor V) : Prop :=
  ∀ view, op.apply base.toGeometry = some view → v.sizes = view.sizes → Consistent view v →
    Lawful view base v (op.inverse base v)

/-- When the inverse of a view operator is lawful. -/
theorem viewInverse_lawful_iff (op : ViewOp) (base v : Tensor V) (view : View)
    (hview : op.apply base.toGeometry = some view) (hsizes : v.sizes = view.sizes)
    (hconsistent : Consistent view v) :
    Lawful view base v (op.inverse base v) ↔ Exact view base v op := by
  cases op with
  | diagonal offset dim1 dim2 =>
    exact iff_of_true (lawful_diagonal hview hconsistent hsizes) trivial
  | expand size implicit => exact lawful_expand_iff hview hsizes hconsistent
  | permute dims => exact iff_of_true (lawful_permute hview hsizes) trivial
  | reshapeAlias size stride => exact iff_of_true (lawful_reshapeAlias hview hsizes) trivial
  | select dim index => exact iff_of_true (lawful_select hview hconsistent hsizes) trivial
  | slice dim start stop step =>
    exact iff_of_true (lawful_slice hview hconsistent hsizes) trivial
  | split idx splitSize dim =>
    exact iff_of_true (lawful_split hview hconsistent hsizes) trivial
  | splitWithSizes idx splitSizes dim =>
    exact iff_of_true (lawful_splitWithSizes hview hconsistent hsizes) trivial
  | squeeze => exact iff_of_true (lawful_squeeze hview hsizes) trivial
  | squeezeDim dim => exact iff_of_true (lawful_squeezeDim hview hsizes) trivial
  | t => exact iff_of_true (lawful_t hview hsizes) trivial
  | transpose dim0 dim1 => exact iff_of_true (lawful_transpose hview hsizes) trivial
  | unsqueeze dim => exact iff_of_true (lawful_unsqueeze hview hsizes) trivial
  | unbind idx dim => exact iff_of_true (lawful_unbind hview hconsistent hsizes) trivial
  | view size => exact lawful_view_iff hview hsizes
  | unfold dimension size step => exact lawful_unfold_iff hview hsizes hconsistent
  | alias_ => exact iff_of_true (lawful_alias hview hsizes) trivial
  | detach => exact iff_of_true (lawful_detach hview hsizes) trivial

end Main

section Examples

/-- A tensor whose elements are all the same. -/
def full (g : Geometry) (x : Int) : Tensor Int :=
  { g with elem := fun _ => x }

theorem consistent_full (view : View) (g : Geometry) (x : Int) : Consistent view (full g x) := by
  intro i j _ _ _
  rfl

/-- The output of a view operator whose checks are passed. -/
def output (op : ViewOp) (g : Geometry) (h : (op.apply g).isSome) : View :=
  (op.apply g).get h

theorem apply_eq_output {op : ViewOp} {g : Geometry} (h : (op.apply g).isSome) :
    op.apply g = some (output op g h) :=
  (Option.some_get h).symm

/-- The second of the uneven pieces of a vector is put back. -/
theorem viewInverse_lawful_iff_split :
    Lawful (output (.split 1 3 (-1)) (contiguous [5]) rfl) (full (contiguous [5]) 0)
      (full (contiguous [2]) 7)
      ((ViewOp.split 1 3 (-1)).inverse (full (contiguous [5]) 0) (full (contiguous [2]) 7)) :=
  (viewInverse_lawful_iff (.split 1 3 (-1)) (full (contiguous [5]) 0) (full (contiguous [2]) 7)
    _ (apply_eq_output rfl) rfl (consistent_full _ _ _)).mpr trivial

def columns : Geometry where
  sizes := [2, 3]
  strides := [1, 2]
  strides_length := rfl

/-- An expanded element is doubled, the middle of two windows too, and a matrix stored column by
column cannot be read as a vector. -/
theorem sumsAndStrides_not_lawful :
    ¬ LawfulAt (.expand [2] false) (full (contiguous [1]) 0) (full (contiguous [2]) 5)
      ∧ ¬ LawfulAt (.unfold 0 2 1) (full (contiguous [3]) 0) (full (contiguous [2, 2]) 5)
      ∧ ¬ LawfulAt (.view [2, 3]) (full (contiguous [6]) 0) (full columns 5) := by
  refine ⟨fun h => ?_, fun h => ?_, fun h => ?_⟩
  · have hview := @apply_eq_output (.expand [2] false) (contiguous [1]) rfl
    have hlawful := h _ hview rfl (consistent_full _ _ _)
    have hsums := (lawful_expand_iff hview rfl (consistent_full _ _ _)).mp hlawful
    have htwice := (hsums [0] (by decide)).1 [0] (by decide)
    exact absurd htwice (by decide)
  · have hview := @apply_eq_output (.unfold 0 2 1) (contiguous [3]) rfl
    have hlawful := h _ hview rfl (consistent_full _ _ _)
    have hsums := (lawful_unfold_iff hview rfl (consistent_full _ _ _)).mp hlawful
    have htwice := (hsums [1] (by decide)).1 [0, 1] (by decide)
    exact absurd htwice (by decide)
  · have hview := @apply_eq_output (.view [2, 3]) (contiguous [6]) rfl
    have hlawful := h _ hview rfl (consistent_full _ _ _)
    exact absurd ((lawful_view_iff hview rfl).mp hlawful) (by decide)

end Examples

end PyTorchCore.ViewInverses
