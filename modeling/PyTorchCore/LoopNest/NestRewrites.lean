import PyTorchCore.LoopNest.Flatten
import PyTorchCore.LoopNest.Rewrites
import PyTorchCore.LoopNest.Tile

/-!
# Rewrites of a nest

Reordering, tiling and flattening run the innermost body at the points of the nest, once each, but
where a bound comes to stand outside the loop whose variable it uses, or where two negative extents
make a positive number of iterations.
-/

namespace PyTorchCore.LoopNest

open Lib Stmt
open Option List

section Right

variable {S : Simplifier} {env : Env} {flat : Var} {loops heads : List Head}
variable {body inner : List Stmt} {new : Stmt}

/-- The flat loop has the values of the nest for the variables, in order, and does what the nest
does. -/
def FlattenRight (env : Env) (flat : Var) (loops : List Head) (body : List Stmt)
    (heads : List Head) (new : Stmt) : Prop :=
  flatTuples flat env heads = tuples env heads ∧
    ∀ (M : Type) [Monoid M] (step : ℕ → List ℤ → M), execAll step env (nest loops body) ≠ 0 →
      new.exec step env = execAll step env (nest loops body)

section

variable (h : flatten S flat loops body = .ok (some new))
  (hloops : getLoopStmtsInLoopNest loops.length (normalizeNest S loops body) = .ok (heads, inner))
include h hloops

theorem flatten_eq : new = flattened flat heads inner := by
  match loops with
  | [] => cases h
  | [_] => cases h
  | first :: second :: rest =>
    have hflatten : flatten S flat (first :: second :: rest) body =
        (getLoopStmtsInLoopNest (first :: second :: rest).length
          (normalizeNest S (first :: second :: rest) body)).map
            fun p => some (flattened flat p.1 p.2) := rfl
    rw [hflatten, hloops] at h
    exact (Option.some.inj (Except.ok.inj h)).symm

theorem flatten_iff (hscoped : NestScoped loops body) (hscoped' : NestScoped heads inner)
    (hnone : ∀ u ∈ boundAll (nest loops body), env u = none)
    (hflat : flat ∉ varsAll (nest loops body)) {M : Type} [Monoid M] {step : ℕ → List ℤ → M}
    (hruns : execAll step env (nest loops body) ≠ 0) :
    FlattenRight env flat loops body heads new ↔ RunsOverBox env heads := by
  have hnest := getLoops_nest hloops
  have hflat' : flat ∉ varsAll (nest heads inner) := by
    rw [← hnest]
    exact fun hin => hflat (varsAll_normalizeNest loops body hin)
  have hnone' : ∀ head ∈ heads, env head.var = none := by
    intro head hin
    refine hnone _ (boundAll_normalizeNest (S := S) loops body ?_)
    rw [hnest, boundAll_nest]
    exact mem_append_left _ (mem_map_of_mem hin)
  have hstop : ∀ head ∈ heads, flat ∉ head.stop.vars := fun head hin hvar =>
    hflat' (mem_varsAll_nest.mpr (.inl ⟨head, hin, .inr (.inr hvar)⟩))
  have hsame := normalizeNest_exec (S := S) hscoped hruns
  have htuples : tuples env heads ≠ none := by
    intro hnopoints
    rw [tuples, map_eq_none_iff] at hnopoints
    rw [hnest, exec_nest, hnopoints] at hsame
    exact hruns hsame.symm
  have hiff := flatTuples_eq_iff hnone' hscoped'.nodup hstop htuples
  rw [flatten_eq h hloops]
  refine ⟨fun hright => hiff.mp hright.1, fun hbox => ⟨hiff.mpr hbox, fun M _ step hruns => ?_⟩⟩
  rw [flattened_exec hscoped' hnone' hflat' htuples (hiff.mpr hbox), ← hnest]
  exact normalizeNest_exec hscoped hruns

end

end Right

section Nests

/-- Two by three. -/
def rectangle : List Head :=
  [⟨0, .imm 0, .imm 2⟩, ⟨1, .imm 0, .imm 3⟩]

/-- Two extents below zero. -/
def negative : List Head :=
  [⟨0, .imm 0, .imm (-2)⟩, ⟨1, .imm 0, .imm (-3)⟩]

/-- The second loop goes up to the first. -/
def triangle : List Head :=
  [⟨0, .imm 0, .imm 3⟩, ⟨1, .imm 0, .var 0⟩]

/-- A body that tells the values of the variables. -/
def tell : List Stmt :=
  [.leaf 0 [.var 0, .var 1]]

def told (_ : ℕ) (values : List ℤ) : FreeMonoid (List ℤ) :=
  FreeMonoid.of values

theorem flatten_negative : flatten .keep 2 negative tell = .ok (some (flattened 2 negative tell)) ∧
    execAll told (fun _ => none) (nest negative tell) = 1 ∧
    (flattened 2 negative tell).exec told (fun _ => none) =
      ((FreeMonoid.ofList [[0, 0], [0, 1], [0, 2], [-1, 0], [-1, 1], [-1, 2]] :
        FreeMonoid (List ℤ)) : WithZero (FreeMonoid (List ℤ))) :=
  ⟨rfl, rfl, rfl⟩

theorem reorder_triangle : reorder triangle [1, 0] = .ok triangle.reverse ∧
    execAll told (fun _ => none) (nest triangle.reverse tell) = 0 ∧
    execAll told (fun _ => none) (nest triangle tell) =
      ((FreeMonoid.ofList [[1, 0], [2, 0], [2, 1]] : FreeMonoid (List ℤ)) :
        WithZero (FreeMonoid (List ℤ))) :=
  ⟨reorder_two _ _, rfl, rfl⟩

def summed (_ : ℕ) (values : List ℤ) : Multiplicative ℤ :=
  Multiplicative.ofAdd values.sum

/-- The inner loop of the rectangle. -/
def inner : For where
  var := 1
  start := .imm 0
  stop := .imm 3
  body := tell
  gpu := false

end Nests

end PyTorchCore.LoopNest
