import Mathlib.Tactic.Ring

/-!
# Spans of integers

The integers from one bound up to another, in order: what a counting loop goes through.  There
are none if the second bound is not above the first.
-/

namespace PyTorchCore.Lib

open Function List

/-- The integers from `lo` up to `hi`. -/
def span (lo hi : ℤ) : List ℤ :=
  (List.range (hi - lo).toNat).map fun n : ℕ => lo + (n : ℤ)

/-- A span has the numbers from its start up to its end. -/
theorem mem_span {lo hi i : ℤ} : i ∈ span lo hi ↔ lo ≤ i ∧ i < hi := by
  simp only [span, mem_map, mem_range]
  constructor
  · rintro ⟨n, hn, rfl⟩
    exact ⟨by omega, by omega⟩
  · rintro ⟨hlo, hhi⟩
    exact ⟨(i - lo).toNat, by omega, by omega⟩

/-- A span that ends before it starts is empty. -/
theorem span_of_le {lo hi : ℤ} (h : hi ≤ lo) : span lo hi = [] := by
  rw [span, Int.toNat_of_nonpos (by omega)]
  rfl

theorem span_cons {lo hi : ℤ} (h : lo < hi) : span lo hi = lo :: span (lo + 1) hi := by
  have hcount : (hi - lo).toNat = (hi - (lo + 1)).toNat + 1 := by omega
  rw [span, span, hcount, range_succ_eq_map, map_cons, map_map]
  refine congrArg₂ List.cons (by simp) (map_congr_left fun n _ => ?_)
  simp only [comp_apply, Nat.succ_eq_add_one, Nat.cast_add, Nat.cast_one]
  ring

theorem span_append {lo mid hi : ℤ} (hlo : lo ≤ mid) (hhi : mid ≤ hi) :
    span lo hi = span lo mid ++ span mid hi := by
  have hcount : (hi - lo).toNat = (mid - lo).toNat + (hi - mid).toNat := by omega
  rw [span, span, span, hcount, range_add, map_append, map_map]
  refine congrArg (_ ++ ·) (map_congr_left fun n _ => ?_)
  simp only [comp_apply, Nat.cast_add]
  omega

theorem span_shift (lo hi by' : ℤ) : span (lo + by') (hi + by') = (span lo hi).map (· + by') := by
  rw [span, span, map_map, show hi + by' - (lo + by') = hi - lo by ring]
  refine map_congr_left fun n _ => ?_
  simp only [comp_apply]
  ring

/-- The tiles of a span. -/
def tiles (count size : ℤ) : List ℤ :=
  (span 0 count).flatMap fun outer => (span 0 size).map fun inner => outer * size + inner

/-- The tiles, with all places in them, are the whole span. -/
theorem tiles_eq {count size : ℤ} (hcount : 0 ≤ count) (hsize : 0 ≤ size) :
    tiles count size = span 0 (count * size) := by
  induction count, hcount using Int.leInduction with
  | base =>
    rw [tiles, span_of_le (Int.le_refl 0), zero_mul, span_of_le (Int.le_refl 0)]
    rfl
  | succ count hcount ih =>
    have hlast : span count (count + 1) = [count] := by
      rw [span_cons (by omega), span_of_le (Int.le_refl _)]
    have hmul : 0 ≤ count * size := Int.mul_nonneg hcount hsize
    have hnext : (count + 1) * size = count * size + size := by ring
    have htile : ((span 0 size).map fun inner => count * size + inner) =
        span (count * size) (count * size + size) := by
      have hshift := span_shift 0 size (count * size)
      rw [zero_add, Int.add_comm size] at hshift
      rw [hshift]
      exact map_congr_left fun n _ => Int.add_comm _ _
    have hle : count ≤ count + 1 := by omega
    calc tiles (count + 1) size
        = tiles count size ++ (span 0 size).map fun inner => count * size + inner := by
          rw [tiles, span_append hcount hle, flatMap_append, hlast, flatMap_singleton, ← tiles]
      _ = span 0 (count * size) ++ span (count * size) (count * size + size) := by
          rw [ih, htile]
      _ = span 0 ((count + 1) * size) := by
          rw [hnext]
          exact (span_append hmul (by omega)).symm

variable {total size : ℤ}

theorem tdiv_nonpos (htotal : total ≤ 0) (hsize : 0 ≤ size) : total.tdiv size ≤ 0 := by
  have hneg := Int.tdiv_nonneg (Int.neg_nonneg_of_nonpos htotal) hsize
  rw [Int.neg_tdiv] at hneg
  omega

theorem tmod_nonpos {total : ℤ} (size : ℤ) (htotal : total ≤ 0) : total.tmod size ≤ 0 := by
  have hneg := Int.tmod_nonneg size (Int.neg_nonneg_of_nonpos htotal)
  rw [Int.neg_tmod] at hneg
  omega

theorem roundUp_nonpos (htotal : total ≤ 0) (hsize : 0 < size) :
    (total + size - 1).tdiv size ≤ 0 := by
  rcases Int.le_total (total + size - 1) 0 with hle | hle
  · exact tdiv_nonpos hle hsize.le
  · rw [Int.tdiv_eq_ediv_of_nonneg hle, Int.ediv_eq_zero_of_lt hle (by omega)]

theorem le_roundUp (htotal : 0 ≤ total) (hsize : 0 < size) :
    0 ≤ (total + size - 1).tdiv size ∧ total ≤ (total + size - 1).tdiv size * size := by
  have hle : 0 ≤ total + size - 1 := by omega
  have hsum := Int.tdiv_mul_add_tmod (total + size - 1) size
  have hmod := Int.tmod_lt_of_pos (total + size - 1) hsize
  exact ⟨Int.tdiv_nonneg hle hsize.le, by omega⟩

theorem roundUp_of_tmod (htotal : 0 ≤ total) (hsize : 0 < size)
    (hmod : total.tmod size = 0) : (total + size - 1).tdiv size * size = total := by
  have hle : 0 ≤ total + size - 1 := by omega
  obtain ⟨count, rfl⟩ := Int.dvd_of_tmod_eq_zero hmod
  have hquotient : (size * count + size - 1).tdiv size = count := by
    rw [Int.tdiv_eq_ediv_of_nonneg hle,
      show size * count + size - 1 = (size - 1) + size * count by ring,
      Int.add_mul_ediv_left _ _ hsize.ne', Int.ediv_eq_zero_of_lt (by omega) (by omega), zero_add]
  rw [hquotient, mul_comm]

theorem span_tiles (total : ℤ) {size : ℤ} (hsize : 0 < size) :
    span 0 total = tiles (total.tdiv size) size ++
      (span 0 (total.tmod size)).map fun inner => inner + total.tdiv size * size := by
  rcases Int.le_total total 0 with htotal | htotal
  · rw [span_of_le htotal, tiles, span_of_le (tdiv_nonpos htotal hsize.le),
      span_of_le (tmod_nonpos size htotal)]
    rfl
  have hdiv : 0 ≤ total.tdiv size := Int.tdiv_nonneg htotal hsize.le
  have hmod : 0 ≤ total.tmod size := Int.tmod_nonneg size htotal
  have hsum : total.tdiv size * size + total.tmod size = total := Int.tdiv_mul_add_tmod total size
  have hmul : 0 ≤ total.tdiv size * size := Int.mul_nonneg hdiv hsize.le
  have hshift := span_shift 0 (total.tmod size) (total.tdiv size * size)
  rw [zero_add, Int.add_comm, hsum] at hshift
  rw [tiles_eq hdiv hsize.le, ← hshift]
  exact span_append hmul (by omega)

end PyTorchCore.Lib
