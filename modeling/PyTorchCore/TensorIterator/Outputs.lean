import PyTorchCore.Lib.Outcome
import PyTorchCore.TensorIterator.DimensionOrder

/-!
# TensorIterator: allocated outputs

The strides of the outputs that `allocate_or_resize_outputs` creates: dense, with the
dimensions in the order that `reorder_dimensions` has found.
-/

namespace PyTorchCore.TensorIterator

open Lib Lib.LoopNest Lib.AmbiguousSort
open List

/-! ## Inverting the permutation -/

variable {α : Type}

theorem foldl_set_getD (l : List (Nat × α)) (res : List α) (x : α) (i : Nat)
    (hi : i ∉ l.map Prod.fst) :
    (l.foldl (fun res p => res.set p.1 p.2) res).getD i x = res.getD i x := by
  induction l generalizing res with
  | nil => rfl
  | cons p l ih =>
    rw [map_cons, mem_cons, not_or] at hi
    rw [foldl_cons, ih _ hi.2]
    simp [getElem?_set_ne (Ne.symm hi.1)]

theorem length_foldl_set (l : List (Nat × α)) (res : List α) :
    (l.foldl (fun res p => res.set p.1 p.2) res).length = res.length := by
  induction l generalizing res with
  | nil => rfl
  | cons p l ih => rw [foldl_cons, ih, length_set]

theorem foldl_set_getD_mem {l : List (Nat × α)} {res : List α} {x : α}
    (hnodup : (l.map Prod.fst).Nodup) (hlt : ∀ p ∈ l, p.1 < res.length) {p : Nat × α}
    (hp : p ∈ l) : (l.foldl (fun res p => res.set p.1 p.2) res).getD p.1 x = p.2 := by
  induction l generalizing res with
  | nil => cases hp
  | cons q l ih =>
    rw [map_cons, nodup_cons] at hnodup
    rw [foldl_cons]
    rcases mem_cons.mp hp with rfl | hp
    · rw [foldl_set_getD _ _ _ _ hnodup.1]
      simp [hlt p mem_cons_self]
    · apply ih hnodup.2 _ hp
      intro r hr
      rw [length_set]
      exact hlt r (mem_cons_of_mem _ hr)

/-- Inverting keeps the length. -/
theorem length_invertPerm [Inhabited α] (perm : List Nat) (input : List α) :
    (invertPerm perm input).length = input.length := by
  unfold invertPerm
  rw [length_foldl_set, length_replicate]

section InvertPerm

variable {perm : List Nat} {n : Nat} (hperm : perm.Perm (List.range n))
include hperm

/-- Reading through the inverse permutation. -/
theorem invertPerm_getD {α : Type} [Inhabited α] {input : List α} (hlen : input.length = n)
    (k : Nat) (hk : k < n) :
    (invertPerm perm input).getD (perm.getD k 0) default = input.getD k default := by
  have hplen : perm.length = n := by simpa using hperm.length_eq
  have hkeys : (perm.zip input).map Prod.fst = perm := by
    rw [map_fst_zip]
    omega
  have hmem : (perm.getD k 0, input.getD k default) ∈ perm.zip input := by
    rw [mem_iff_getElem]
    have hlt : k < (perm.zip input).length := by
      rw [length_zip]
      omega
    refine ⟨k, hlt, ?_⟩
    simp [getElem_zip, hplen, hlen, hk]
  refine foldl_set_getD_mem ?_ ?_ hmem
  · rw [hkeys]
    exact hperm.nodup_iff.mpr nodup_range
  · intro p hp
    have hfst : p.1 ∈ perm := by
      rw [← hkeys]
      exact mem_map_of_mem hp
    have := mem_range.mp (hperm.mem_iff.mp hfst)
    rw [length_replicate, hlen]
    exact this

theorem exists_index (d : Nat) (hd : d < n) : ∃ k, k < n ∧ perm.getD k 0 = d := by
  have hmem : d ∈ perm := hperm.mem_iff.mpr (mem_range.mpr hd)
  obtain ⟨k, hk, rfl⟩ := mem_iff_getElem.mp hmem
  have hplen : perm.length = n := by simpa using hperm.length_eq
  exact ⟨k, by omega, by simp [hk]⟩

theorem invertPerm_permuted {shape : List Nat} (hlen : shape.length = n) :
    invertPerm perm (permuted perm shape) = shape := by
  have hplen : perm.length = n := by simpa using hperm.length_eq
  have hpermuted : (permuted perm shape).length = n := by simp [permuted, hplen]
  apply ext_getElem
  · rw [length_invertPerm, hpermuted, hlen]
  · intro d h₁ h₂
    obtain ⟨k, hk, rfl⟩ := exists_index hperm d (by omega)
    have hget := invertPerm_getD hperm hpermuted k hk
    rw [permuted_getD perm shape k (by omega)] at hget
    rw [getD_eq_getElem _ _ h₁, getD_eq_getElem _ _ h₂] at hget
    exact hget

end InvertPerm

/-! ## Strides of new outputs -/

@[simp] theorem length_compatibleStride (shape : List Nat) (z : Int) :
    (compatibleStride shape z).length = shape.length := by
  induction shape generalizing z with
  | nil => rfl
  | cons s shape ih => simp [compatibleStride, ih]

variable {stride : Nat → Int} {size : Nat → Nat}

theorem denseOrder_compatibleStride (dims : List Nat) (z : Nat) (h : ∀ k, k < dims.length →
      stride (dims.getD k 0) = (compatibleStride (dims.map size) z).getD k 0) :
    DenseOrder size stride dims z := by
  induction dims generalizing z with
  | nil => trivial
  | cons d dims ih =>
    refine ⟨fun _ => h 0 (by simp), ih (z * size d) ?_⟩
    intro k hk
    have := h (k + 1) (by simpa using hk)
    simpa [compatibleStride] using this

theorem denseOrder_append (dims dims' : List Nat)
    (z : Nat) : DenseOrder size stride (dims ++ dims') z ↔
      DenseOrder size stride dims z ∧ DenseOrder size stride dims' (z * (dims.map size).prod) := by
  induction dims generalizing z with
  | nil => simp [DenseOrder]
  | cons d dims ih =>
    simp [DenseOrder, ih, and_assoc, Nat.mul_assoc]

theorem denseOrder_map (f : Nat → Nat) (dims : List Nat)
    (z : Nat) : DenseOrder size stride (dims.map f) z ↔
      DenseOrder (size ∘ f) (stride ∘ f) dims z := by
  induction dims generalizing z with
  | nil => rfl
  | cons d dims ih => simp [DenseOrder, ih]

/-- There is a stride for each size. -/
@[simp] theorem length_contiguousStrides (sizes : List Nat) :
    (contiguousStrides sizes).length = sizes.length := by
  unfold contiguousStrides
  induction sizes with
  | nil => rfl
  | cons s sizes ih => simp [contiguousStridesLoop, ih]

theorem contiguousStridesLoop_next {sizes : List Nat} (hpos : ∀ s ∈ sizes, 0 < s) :
    (contiguousStridesLoop sizes).2 = (sizes.prod : Nat) := by
  induction sizes with
  | nil => rfl
  | cons s sizes ih =>
    have hs : max s 1 = s := Nat.max_eq_left (hpos s mem_cons_self)
    have hrec := ih fun t ht => hpos t (mem_cons_of_mem _ ht)
    simp only [contiguousStridesLoop, hrec, prod_cons]
    rw [hs]
    exact Int.mul_comm _ _

/-- Contiguous strides are dense in the reversed order. -/
theorem denseOrder_contiguousStrides {sizes : List Nat} (hpos : ∀ s ∈ sizes, 0 < s) :
    DenseOrder (fun d => sizes.getD d 0) (fun d => (contiguousStrides sizes).getD d 0)
      (List.range sizes.length).reverse 1 := by
  induction sizes with
  | nil => trivial
  | cons s sizes ih =>
    have hpos' : ∀ t ∈ sizes, 0 < t := fun t ht => hpos t (mem_cons_of_mem _ ht)
    rw [length_cons, range_succ_eq_map, reverse_cons, ← map_reverse,
      denseOrder_append, denseOrder_map]
    refine ⟨ih hpos', ?_, trivial⟩
    intro _
    have hprod : (((List.range sizes.length).reverse.map Nat.succ).map
        fun d => (s :: sizes).getD d 0).prod = sizes.prod := by
      rw [map_map, map_reverse, prod_reverse]
      congr 1
      exact map_getD_range sizes
    rw [hprod, Nat.one_mul]
    exact contiguousStridesLoop_next hpos'

end PyTorchCore.TensorIterator
