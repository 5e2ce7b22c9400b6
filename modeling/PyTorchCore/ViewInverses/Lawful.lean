import Mathlib.Data.Option.Basic
import PyTorchCore.ViewInverses.FunctionalInverses

/-!
# What an inverse must do

The inverse of a view operator gives a tensor of the shape of the base, with the value of the view
at the elements that the view sees and the value of the base at the others.
-/

namespace PyTorchCore.ViewInverses

open Lib
open Function List

variable {V : Type}

/-- The value is the same at all positions that see the same element. -/
def Consistent (view : View) (v : Tensor V) : Prop :=
  ∀ i j, InBounds i view.sizes → InBounds j view.sizes → view.sees i = view.sees j →
    v.elem i = v.elem j

/-- A base in which the elements that a view sees are overwritten. -/
structure Written (view : View) (base v r : Tensor V) : Prop where
  sizes : r.sizes = base.sizes
  seen : ∀ i, InBounds i view.sizes → r.elem (view.sees i) = v.elem i
  unseen : ∀ b, InBounds b base.sizes → (∀ i, InBounds i view.sizes → view.sees i ≠ b) →
    r.elem b = base.elem b

/-- The positions of a view that see an element. -/
def View.seenBy (view : View) (b : List Nat) : List (List Nat) :=
  (indices view.sizes).filter fun i => view.sees i = b

/-- The result is `r`, and it is the base with the elements that the view sees overwritten. -/
def Lawful (view : View) (base v : Tensor V) (result : Option (Tensor V)) : Prop :=
  ∃ r, result = some r ∧ Written view base v r

section Conditions

variable [AddCommMonoid V]

/-- Adding up the value of the view at the positions that see an element gives that value again,
and an element that is not seen is 0. -/
def SumsBack (view : View) (base v : Tensor V) : Prop :=
  ∀ b, InBounds b base.sizes →
    (∀ i ∈ view.seenBy b, (view.seenBy b).length • v.elem i = v.elem i)
      ∧ (view.seenBy b = [] → base.elem b = 0)

/-- The condition under which the inverse of a view operator does what it must. -/
def Exact (view : View) (base v : Tensor V) : ViewOp → Prop
  | .expand _ _ => SumsBack view base v
  | .unfold _ _ _ => SumsBack view base v
  | .view _ => (computeStride v.toGeometry base.sizes).isSome
  | _ => True

end Conditions

section General

variable {view back : View} {base v r : Tensor V}

/-- The positions at which an element is seen. -/
theorem View.mem_seenBy {b i : List Nat} :
    i ∈ view.seenBy b ↔ InBounds i view.sizes ∧ view.sees i = b := by
  rw [View.seenBy, mem_filter, mem_indices, decide_eq_true_eq]

theorem Written.of_inverse (hsizes : back.sizes = base.sizes)
    (hback : ∀ i, InBounds i view.sizes → back.sees (view.sees i) = i)
    (hview : ∀ b, InBounds b base.sizes →
      InBounds (back.sees b) view.sizes ∧ view.sees (back.sees b) = b) :
    Written view base v (v.take back) where
  sizes := hsizes
  seen := fun i hi => congrArg v.elem (hback i hi)
  unseen := fun b hb hunseen => absurd (hview b hb).2 (hunseen _ (hview b hb).1)

end General

section Copies

variable {α β : Type} [DecidableEq α]

theorem foldl_update_of_unseen (sees : β → α) (src : β → V) (is : List β) {b : α}
    (hunseen : ∀ i ∈ is, sees i ≠ b) (elem : α → V) :
    is.foldl (fun elem i => update elem (sees i) (src i)) elem b = elem b := by
  induction is generalizing elem with
  | nil => rfl
  | cons j is ih =>
    rw [foldl_cons, ih (fun i hi => hunseen i (mem_cons_of_mem _ hi))]
    exact update_of_ne (hunseen j mem_cons_self).symm _ _

theorem foldl_update_of_seen (sees : β → α) (src : β → V) (is : List β)
    (hconsistent : ∀ i ∈ is, ∀ j ∈ is, sees i = sees j → src i = src j) {i : β} (hi : i ∈ is)
    (elem : α → V) :
    is.foldl (fun elem i => update elem (sees i) (src i)) elem (sees i) = src i := by
  induction is generalizing elem i with
  | nil => cases hi
  | cons j is ih =>
    have hrest : ∀ i ∈ is, ∀ j ∈ is, sees i = sees j → src i = src j := by
      intro i hi j hj
      exact hconsistent i (mem_cons_of_mem _ hi) j (mem_cons_of_mem _ hj)
    rw [foldl_cons]
    by_cases hlater : ∃ k ∈ is, sees k = sees i
    · obtain ⟨k, hk, heq⟩ := hlater
      rw [← heq, ih hrest hk]
      exact hconsistent k (mem_cons_of_mem _ hk) i hi heq
    · have hne : ∀ k ∈ is, sees k ≠ sees i := fun k hk heq => hlater ⟨k, hk, heq⟩
      have hij : i = j := by
        rcases mem_cons.mp hi with hij | hmem
        · exact hij
        · exact absurd rfl (hne i hmem)
      rw [foldl_update_of_unseen sees src is hne, hij, update_self]

end Copies

section Scatter

variable {view : View} {base v : Tensor V}

theorem Written.of_copyInto (hconsistent : Consistent view v) :
    Written view base v (base.copyInto view v) where
  sizes := rfl
  seen := fun _ hi =>
    foldl_update_of_seen view.sees v.elem (indices view.sizes)
      (fun _ hi _ hj => hconsistent _ _ (mem_indices.mp hi) (mem_indices.mp hj))
      (mem_indices.mpr hi) base.elem
  unseen := fun _ _ hunseen =>
    foldl_update_of_unseen view.sees v.elem (indices view.sizes)
      (fun _ hi => hunseen _ (mem_indices.mp hi)) base.elem

/-- Writing the view into the base is lawful. -/
theorem lawful_scatter (hconsistent : Consistent view v) (hsizes : v.sizes = view.sizes) :
    Lawful view base v (base.scatter v (some view)) :=
  ⟨base.copyInto view v, by simp [Tensor.scatter, hsizes], Written.of_copyInto hconsistent⟩

end Scatter

section Checks

variable {α β : Type}

/-- A check in front of a computation. -/
theorem guard_bind_eq_some {p : Prop} [Decidable p] {f : Unit → Option β} {x : β} :
    (guard p : Option Unit).bind f = some x ↔ p ∧ f () = some x := by
  by_cases hp : p
  · simp [guard, hp]
  · have hfail : (guard p : Option Unit) = none := if_neg hp
    rw [hfail]
    simp [hp]

theorem getElem?_of_mapM {f : α → Option β} {as : List α} {bs : List β} (h : as.mapM f = some bs)
    {k : Nat} {b : β} (hb : bs[k]? = some b) : ∃ a, as[k]? = some a ∧ f a = some b := by
  induction as generalizing bs k with
  | nil =>
    cases h
    cases hb
  | cons a as ih =>
    rw [mapM_cons] at h
    obtain ⟨first, hfirst, h⟩ := Option.bind_eq_some_iff.mp h
    obtain ⟨rest, hrest, h⟩ := Option.bind_eq_some_iff.mp h
    cases h
    cases k with
    | zero =>
      cases hb
      exact ⟨a, rfl, hfirst⟩
    | succ k => exact ih hrest hb

end Checks

section Dimensions

variable {dim : Int} {n d : Nat}

theorem maybeWrapDim_natCast (h : d < n) : maybeWrapDim (d : Int) n = some d := by
  have hn : n ≠ 0 := by omega
  simp only [maybeWrapDim, if_neg hn]
  rw [if_neg (by omega), if_neg (by omega), Int.toNat_natCast]

/-- A wrapped dimension exists. -/
theorem maybeWrapDim_lt (h : maybeWrapDim dim n = some d) (hn : n ≠ 0) : d < n := by
  simp only [maybeWrapDim, if_neg hn] at h
  split at h
  · cases h
  · cases h
    split <;> omega

theorem maybeWrapDim_of_nonneg (hdim : 0 ≤ dim) (h : maybeWrapDim dim n = some d) :
    (d : Int) = dim := by
  simp only [maybeWrapDim] at h
  generalize (if n = 0 then (1 : Int) else (n : Int)) = count at h
  split at h
  · cases h
  · cases h
    rw [if_neg (Int.not_lt.mpr hdim)]
    exact Int.toNat_of_nonneg hdim

theorem maybeWrapDim_zero (h : maybeWrapDim dim 0 = some d) : d = 0 := by
  simp only [maybeWrapDim, if_pos] at h
  split at h
  · cases h
  · cases h
    omega

theorem maybeWrapDim_wrapped (h : maybeWrapDim dim n = some d) : maybeWrapDim d n = some d := by
  by_cases hn : n = 0
  · subst hn
    rw [maybeWrapDim_zero h]
    rfl
  · exact maybeWrapDim_natCast (maybeWrapDim_lt h hn)

end Dimensions

end PyTorchCore.ViewInverses
