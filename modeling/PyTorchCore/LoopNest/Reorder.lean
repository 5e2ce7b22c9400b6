import PyTorchCore.LoopNest.Points
import Mathlib.Data.List.Sort

/-!
# Loops in another order

`LoopNest::reorder` puts the loops of a perfect nest in another order and leaves their bounds as
they are.  A bound that now stands outside a loop whose variable it uses has no value; nothing
looks at that.
-/

namespace PyTorchCore.LoopNest

open Lib Stmt
open List

section Reorder

def isTrivialPermutation (permutation : List ℕ) : Bool :=
  permutation = List.range permutation.length

def isValidPermutation (permutation : List ℕ) : Bool :=
  isTrivialPermutation (permutation.insertionSort (· ≤ ·))

/-- `LoopNest::reorder` of a perfect nest whose parent is a block. -/
def reorder (loops : List Head) (permutation : List ℕ) : Except String (List Head) :=
  if loops.length ≠ permutation.length then .error "invalid permutation size"
  else if isTrivialPermutation permutation then .ok loops
  else if !isValidPermutation permutation then .error "invalid permutation for reorder"
  else if loops.length < 2 then .ok loops
  else .ok (permutation.filterMap (loops[·]?))

theorem filterMap_range {α : Type} (xs : List α) :
    (List.range xs.length).filterMap (xs[·]?) = xs := by
  induction xs with
  | nil => rfl
  | cons x xs ih =>
    rw [length_cons, range_succ_eq_map, filterMap_cons, filterMap_map]
    exact congrArg (x :: ·) ih

theorem reorder_perm {loops loops' : List Head} {permutation : List ℕ}
    (h : reorder loops permutation = .ok loops') : loops'.Perm loops := by
  rw [reorder] at h
  split_ifs at h with hlength htrivial hvalid hsmall
  · exact Except.ok.inj h ▸ Perm.refl _
  · exact Except.ok.inj h ▸ Perm.refl _
  · cases h
    rw [Bool.not_eq_true, Bool.not_eq_false', isValidPermutation, isTrivialPermutation,
      decide_eq_true_eq] at hvalid
    have hsorted := perm_insertionSort (· ≤ ·) permutation
    have hrange : permutation.Perm (List.range loops.length) := by
      rw [Decidable.not_not.mp hlength, ← hsorted.length_eq, ← hvalid]
      exact hsorted.symm
    exact (hrange.filterMap _).trans (Perm.of_eq (filterMap_range loops))

variable {M : Type} [CommMonoid M] {step : ℕ → List ℤ → M} {env : Env}
variable {loops loops' : List Head} {permutation : List ℕ} {body : List Stmt}

/-- A reordered nest is right unless it comes to a bound that has no value there. -/
theorem reorder_iff (hnone : ∀ h ∈ loops, env h.var = none)
    (hnodup : (loops.map Head.var).Nodup) (h : reorder loops permutation = .ok loops')
    (hruns : execAll step env (nest loops body) ≠ 0) :
    execAll step env (nest loops' body) = execAll step env (nest loops body) ↔
      ¬ ReachesError env loops' := by
  have hperm := reorder_perm h
  have hnone' : ∀ h ∈ loops', env h.var = none := fun h hin => hnone h (hperm.mem_iff.mp hin)
  have hvars : (loops'.map Head.var).Perm (loops.map Head.var) := hperm.map _
  have hnodup' := hvars.nodup_iff.mpr hnodup
  rw [← points_eq_none_iff]
  rw [exec_nest] at hruns
  rw [exec_nest, exec_nest]
  cases hes : points env loops with
  | none =>
    rw [hes] at hruns
    exact absurd rfl hruns
  | some es =>
    rw [hes] at hruns
    cases hes' : points env loops' with
    | none => exact iff_of_false (fun heq => hruns heq.symm) fun hnot => hnot rfl
    | some es' =>
      refine iff_of_true ?_ (Option.some_ne_none es')
      have hsame : es'.Perm es := by
        rw [perm_ext_iff_of_nodup (points_nodup hnone' hnodup' hes')
          (points_nodup hnone hnodup hes)]
        intro e
        rw [mem_points_iff hnone' hnodup' hes', mem_points_iff hnone hnodup hes]
        simp only [hvars.mem_iff, hperm.mem_iff]
      exact (hsame.map _).prod_eq

end Reorder

end PyTorchCore.LoopNest
