import Mathlib.Algebra.BigOperators.Group.List.Basic
import Mathlib.Data.List.GetD
import Mathlib.Data.List.Nodup
import Mathlib.Data.List.Range

/-!
# Indices of multi-dimensional arrays

The index of an element of an array with several dimensions is a list with one number for each
dimension.  In row-major order the last number runs fastest.
-/

namespace PyTorchCore.Lib

open List

/-- Every number is less than the size of its dimension. -/
abbrev InBounds (index sizes : List Nat) : Prop :=
  List.Forall₂ (· < ·) index sizes

/-- All indices, in row-major order. -/
def indices : List Nat → List (List Nat)
  | [] => [[]]
  | s :: sizes => (List.range s).flatMap fun i => (indices sizes).map (i :: ·)

/-- The place of an index in row-major order. -/
def ravel : List Nat → List Nat → Nat
  | _ :: sizes, i :: index => i * sizes.prod + ravel sizes index
  | _, _ => 0

/-- The index at a place in row-major order. -/
def unravel : List Nat → Nat → List Nat
  | [], _ => []
  | _ :: sizes, n => n / sizes.prod :: unravel sizes (n % sizes.prod)

theorem ext_getD {xs ys : List Nat} (hlength : xs.length = ys.length)
    (h : ∀ k < xs.length, xs.getD k 0 = ys.getD k 0) : xs = ys := by
  refine ext_getElem hlength fun k hx hy => ?_
  have hk := h k hx
  rwa [getD_eq_getElem _ _ hx, getD_eq_getElem _ _ hy] at hk

section InBounds

variable {index sizes : List Nat}

theorem inBounds_iff : InBounds index sizes ↔
    index.length = sizes.length ∧ ∀ d < sizes.length, index.getD d 0 < sizes.getD d 0 := by
  unfold InBounds
  rw [forall₂_iff_get]
  constructor
  · rintro ⟨hlength, hlt⟩
    refine ⟨hlength, fun d hd => ?_⟩
    rw [getD_eq_getElem _ _ (hlength ▸ hd), getD_eq_getElem _ _ hd]
    exact hlt d (hlength ▸ hd) hd
  · rintro ⟨hlength, hlt⟩
    refine ⟨hlength, fun d hindex hsizes => ?_⟩
    have h := hlt d hsizes
    rwa [getD_eq_getElem _ _ hindex, getD_eq_getElem _ _ hsizes] at h

theorem mem_indices : index ∈ indices sizes ↔ InBounds index sizes := by
  induction sizes generalizing index with
  | nil => simp [indices]
  | cons s sizes ih =>
    simp only [indices, mem_flatMap, mem_range, mem_map]
    constructor
    · rintro ⟨i, hi, rest, hrest, rfl⟩
      exact .cons hi (ih.mp hrest)
    · intro h
      cases h with
      | cons hi hrest => exact ⟨_, hi, _, ih.mpr hrest, rfl⟩

theorem nodup_indices : (sizes : List Nat) → (indices sizes).Nodup
  | [] => by simp [indices]
  | s :: sizes => by
    rw [indices, nodup_flatMap]
    constructor
    · intro i _
      exact (nodup_indices sizes).map (fun _ _ h => (List.cons.inj h).2)
    · refine Nodup.pairwise_of_forall_ne nodup_range ?_
      intro i _ j _ hij index hi hj
      obtain ⟨_, _, rfl⟩ := mem_map.mp hi
      obtain ⟨_, _, h⟩ := mem_map.mp hj
      exact hij (List.cons.inj h).1.symm

/-- An index of an array whose dimensions are listed in two parts. -/
theorem inBounds_append {leading : List Nat} : InBounds index (leading ++ sizes) ↔
    ∃ p q, index = p ++ q ∧ InBounds p leading ∧ InBounds q sizes := by
  induction leading generalizing index with
  | nil =>
    constructor
    · intro h
      exact ⟨[], index, rfl, .nil, h⟩
    · rintro ⟨p, q, rfl, hp, hq⟩
      cases hp
      exact hq
  | cons s leading ih =>
    constructor
    · intro h
      cases h with
      | cons hhead htail =>
        obtain ⟨p, q, rfl, hp, hq⟩ := ih.mp htail
        exact ⟨_ :: p, q, rfl, .cons hhead hp, hq⟩
    · rintro ⟨p, q, rfl, hp, hq⟩
      cases hp with
      | cons hhead htail => exact .cons hhead (ih.mpr ⟨_, q, rfl, htail, hq⟩)

/-- An index with a number for one more dimension. -/
theorem InBounds.insertIdx (h : InBounds index sizes) {i s : Nat} (hi : i < s) (d : Nat) :
    InBounds (index.insertIdx d i) (sizes.insertIdx d s) := by
  induction d generalizing index sizes with
  | zero => exact .cons hi h
  | succ d ih =>
    cases h with
    | nil => exact .nil
    | cons hhead htail => exact .cons hhead (ih htail)

/-- The number for a dimension of size 1 is 0. -/
theorem InBounds.of_insertIdx_one {d : Nat} (hd : d ≤ sizes.length)
    (h : InBounds index (sizes.insertIdx d 1)) :
    InBounds (index.eraseIdx d) sizes ∧ (index.eraseIdx d).insertIdx d 0 = index := by
  induction d generalizing index sizes with
  | zero =>
    cases h with
    | cons hhead htail =>
      obtain rfl := Nat.lt_one_iff.mp hhead
      exact ⟨htail, rfl⟩
  | succ d ih =>
    cases sizes with
    | nil => cases hd
    | cons s sizes =>
      cases h with
      | cons hhead htail =>
        obtain ⟨hrest, heq⟩ := ih (Nat.le_of_succ_le_succ hd) htail
        exact ⟨.cons hhead hrest, congrArg (_ :: ·) heq⟩

end InBounds

section RowMajor

variable {index sizes : List Nat}

theorem ravel_lt (h : InBounds index sizes) : ravel sizes index < sizes.prod := by
  induction h with
  | nil => simp [ravel]
  | @cons i s index sizes hi _ ih =>
    rw [ravel, prod_cons]
    calc i * sizes.prod + ravel sizes index
        < i * sizes.prod + sizes.prod := Nat.add_lt_add_left ih _
      _ = (i + 1) * sizes.prod := (Nat.succ_mul i sizes.prod).symm
      _ ≤ s * sizes.prod := Nat.mul_le_mul_right _ hi

theorem InBounds.prod_pos (h : InBounds index sizes) : 0 < sizes.prod :=
  Nat.zero_lt_of_lt (ravel_lt h)

theorem unravel_ravel (h : InBounds index sizes) : unravel sizes (ravel sizes index) = index := by
  induction h with
  | nil => rfl
  | @cons i s index sizes _ hrest ih =>
    have hlt := ravel_lt hrest
    have hpos : 0 < sizes.prod := Nat.zero_lt_of_lt hlt
    rw [ravel, unravel]
    congr 1
    · rw [Nat.add_comm, Nat.add_mul_div_right _ _ hpos, Nat.div_eq_of_lt hlt, Nat.zero_add]
    · rw [Nat.add_comm, Nat.add_mul_mod_self_right, Nat.mod_eq_of_lt hlt, ih]

theorem inBounds_unravel {n : Nat} (hn : n < sizes.prod) : InBounds (unravel sizes n) sizes := by
  induction sizes generalizing n with
  | nil => exact .nil
  | cons s sizes ih =>
    have hpos : 0 < sizes.prod := Nat.pos_of_lt_mul_left hn
    exact .cons ((Nat.div_lt_iff_lt_mul hpos).mpr hn) (ih (Nat.mod_lt _ hpos))

theorem ravel_unravel {n : Nat} (hn : n < sizes.prod) : ravel sizes (unravel sizes n) = n := by
  induction sizes generalizing n with
  | nil =>
    rw [prod_nil, Nat.lt_one_iff] at hn
    simp [ravel, hn]
  | cons s sizes ih =>
    have hpos : 0 < sizes.prod := Nat.pos_of_lt_mul_left hn
    rw [unravel, ravel, ih (Nat.mod_lt _ hpos)]
    exact Nat.div_add_mod' n sizes.prod

/-- Leading dimensions of size 1 do not move an element. -/
theorem unravel_replicate_one (leading : Nat) {n : Nat} (hn : n < sizes.prod) :
    unravel (List.replicate leading 1 ++ sizes) n
      = List.replicate leading 0 ++ unravel sizes n := by
  induction leading with
  | zero => rfl
  | succ leading ih =>
    have hprod : (List.replicate leading 1 ++ sizes).prod = sizes.prod := by simp
    rw [replicate_succ, replicate_succ, cons_append, cons_append, unravel,
      hprod, Nat.div_eq_of_lt hn, Nat.mod_eq_of_lt hn, ih]

end RowMajor

end PyTorchCore.Lib
