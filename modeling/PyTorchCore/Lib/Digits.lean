import Mathlib.Algebra.Order.BigOperators.GroupWithZero.List
import Mathlib.Algebra.Order.Ring.Int
import Mathlib.Data.List.Basic
import PyTorchCore.Lib.Span

/-!
# Digits of a counter

A box is all the tuples below given extents, in lexicographic order.  A counter that goes up to
the product of the extents has digits, one for each extent.  Division and remainder round to
zero.
-/

namespace PyTorchCore.Lib

open Function List

/-- The tuples below the extents. -/
def box : List ℤ → List (List ℤ)
  | [] => [[]]
  | e :: es => (span 0 e).flatMap fun i => (box es).map (i :: ·)

/-- The digits of a counter; the first is the most significant one. -/
def digits : List ℤ → ℤ → List ℤ
  | [], _ => []
  | e :: es, t => (t.tdiv es.prod).tmod e :: digits es t

section Digits

variable {es : List ℤ}

theorem prod_pos (h : ∀ e ∈ es, 0 < e) : 0 < es.prod :=
  List.prod_pos h

/-- Whole turns of the counter leave the digits alone. -/
theorem digits_add (h : ∀ e ∈ es, 0 < e) {turns rest : ℤ} (hturns : 0 ≤ turns)
    (hrest : 0 ≤ rest) : digits es (turns * es.prod + rest) = digits es rest := by
  induction es generalizing turns with
  | nil => rfl
  | cons e es ih =>
    obtain ⟨he, htail⟩ := forall_mem_cons.mp h
    have hprod := prod_pos htail
    have hmore : 0 ≤ turns * e := Int.mul_nonneg hturns he.le
    have hmul : 0 ≤ turns * e * es.prod := Int.mul_nonneg hmore hprod.le
    have hdiv : (turns * e * es.prod + rest).tdiv es.prod = turns * e + rest.tdiv es.prod := by
      rw [Int.tdiv_eq_ediv_of_nonneg (by omega), Int.tdiv_eq_ediv_of_nonneg hrest, Int.add_comm,
        Int.add_mul_ediv_right _ _ hprod.ne', Int.add_comm]
    have hquotient : 0 ≤ rest.tdiv es.prod := Int.tdiv_nonneg hrest hprod.le
    rw [prod_cons, ← mul_assoc, digits, digits, ih htail hmore, hdiv,
      Int.tmod_eq_emod_of_nonneg (by omega), Int.tmod_eq_emod_of_nonneg hquotient, Int.add_comm,
      Int.add_mul_emod_self_right]

theorem digits_zero (es : List ℤ) : digits es 0 = es.map fun _ => 0 := by
  induction es with
  | nil => rfl
  | cons e es ih => rw [digits, ih, map_cons, Int.zero_tdiv, Int.zero_tmod]

/-- The digits of a counter go through the box. -/
theorem map_digits (h : ∀ e ∈ es, 0 < e) : (span 0 es.prod).map (digits es) = box es := by
  induction es with
  | nil => rfl
  | cons e es ih =>
    obtain ⟨he, htail⟩ := forall_mem_cons.mp h
    have hprod := prod_pos htail
    rw [prod_cons, ← tiles_eq he.le hprod.le, tiles, map_flatMap, box, ← ih htail]
    refine flatMap_congr fun i hi => ?_
    rw [map_map, map_map]
    refine map_congr_left fun j hj => ?_
    rw [mem_span] at hi hj
    have hquotient : (i * es.prod + j).tdiv es.prod = i := by
      have hmul : 0 ≤ i * es.prod := Int.mul_nonneg hi.1 hprod.le
      rw [Int.tdiv_eq_ediv_of_nonneg (by omega), Int.add_comm,
        Int.add_mul_ediv_right _ _ hprod.ne', Int.ediv_eq_zero_of_lt hj.1 hj.2, zero_add]
    rw [comp_apply, comp_apply, digits, digits_add htail hi.1 hj.1, hquotient,
      Int.tmod_eq_emod_of_nonneg hi.1, Int.emod_eq_of_lt hi.1 hi.2]

/-- An extent that is not positive leaves an empty box. -/
theorem box_eq_nil (h : ∃ e ∈ es, e ≤ 0) : box es = [] := by
  induction es with
  | nil => simp at h
  | cons e es ih =>
    rcases (exists_mem_cons_iff _ _ _).mp h with he | htail
    · rw [box, span_of_le he]
      rfl
    · rw [box, ih htail]
      simp

theorem box_of_prod_nonpos (h : es.prod ≤ 0) : box es = [] := by
  refine box_eq_nil ?_
  by_contra hall
  push Not at hall
  exact absurd (prod_pos hall) (not_lt.mpr h)

end Digits

end PyTorchCore.Lib
