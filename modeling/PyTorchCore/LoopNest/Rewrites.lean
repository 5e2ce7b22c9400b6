import PyTorchCore.LoopNest.Split
import Mathlib.Algebra.FreeMonoid.Basic

/-!
# Rewrites of one loop

The rewrites run the body of a loop for the values that the loop has, once and in order, with
exceptions.  Where the number of iterations is known to be divisible, `splitWithMask` makes no
mask, and then nothing adds the start of the loop to the index.  A 64-bit start that is zero in
its lower half is taken for zero by `splitWithTail`, and `unroll` counts with 32 bits.
-/

namespace PyTorchCore.LoopNest

open Lib Stmt
open List

section Right

inductive Rewrite where
  | sliceHead
  | sliceTail
  | splitWithTail
  | splitWithMask
  | normalize
  | unroll

variable (S : Simplifier) (inner outer tail : Var) (factor : ℤ)

/-- What stands in the place of the loop; nothing where the rewrite throws. -/
def Rewrite.apply (f : For) : Rewrite → Option (List Stmt)
  | .sliceHead => some (LoopNest.sliceHead S factor f)
  | .sliceTail => some (LoopNest.sliceTail S factor f)
  | .splitWithTail => some (LoopNest.splitWithTail S inner outer tail factor f)
  | .splitWithMask => LoopNest.splitWithMask S inner outer factor f
  | .normalize => some [(LoopNest.normalize S f).toStmt]
  | .unroll => LoopNest.unroll S f

/-- Whatever the body is, it is run for the values of the loop, once each and in order. -/
def RunsBody (f : For) (env : Env) (a b : ℤ) (rewrite : Rewrite) : Prop :=
  ∀ body, For.Scoped { f with body } → Fresh inner outer tail { f with body } →
    ∀ (M : Type) [Monoid M] (step : ℕ → List ℤ → M), iterations step env f.var body a b ≠ 0 →
      ∀ new, rewrite.apply S inner outer tail factor { f with body } = some new →
        execAll step env new = iterations step env f.var body a b

/-- Both bounds are known, the number of iterations is divisible and not zero, and the loop does
not start at zero. -/
def StartDropped (f : For) (a b : ℤ) : Prop :=
  (knownSize (S.expr f.start) (S.expr f.stop)).isSome ∧ (b - a).tmod factor = 0 ∧ a ≠ 0 ∧ a < b

/-- The rewrite runs the body for other values. -/
def Misses (f : For) (a b : ℤ) : Rewrite → Prop
  | .splitWithTail => isNormalized f = true ∧ a ≠ 0 ∧ a < b
  | .splitWithMask => StartDropped S factor f a b
  | .unroll => (S.expr f.start).isConstant = true ∧ (S.expr f.stop).isConstant = true ∧
      span (a.bmod (2 ^ 32)) (b.bmod (2 ^ 32)) ≠ span a b
  | _ => False

variable {S inner outer tail factor} {f : For} {env : Env} {a b : ℤ}

theorem splitWithMask_cases (hstart : f.start.eval env = some a)
    (hstop : f.stop.eval env = some b) {new : List Stmt}
    (h : splitWithMask S inner outer factor f = some new) :
    (f.start = .imm 0 ∧ new = [splitLoops inner outer factor f.var
      (div (sub (add (sub f.stop f.start) (.imm factor)) (.imm 1)) (.imm factor))
      [.cond (.binary .lt (.var f.var) f.stop) f.body []]]) ∨
    ((knownSize (S.expr f.start) (S.expr f.stop)).isSome ∧ (b - a).tmod factor = 0 ∧
      new = [splitLoops inner outer factor f.var
        (div (sub (add (sub f.stop f.start) (.imm factor)) (.imm 1)) (.imm factor)) f.body]) := by
  rw [splitWithMask] at h
  split_ifs at h with hneeded hzero
  · refine .inl ⟨?_, (Option.some.inj h).symm⟩
    cases hexpr : f.start with
    | imm value =>
      rw [hexpr] at hzero
      rw [Option.some.inj hzero]
    | var v =>
      rw [hexpr] at hzero
      cases hzero
    | binary op lhs rhs =>
      rw [hexpr] at hzero
      cases hzero
  · rw [Bool.not_eq_true, Bool.not_eq_false', Option.any_eq_true] at hneeded
    obtain ⟨size, hknown, hmod⟩ := hneeded
    have hsize := knownSize_eq (S.eval_expr hstart) (S.eval_expr hstop) hknown
    rw [hsize, decide_eq_true_eq] at hmod
    exact .inr ⟨by rw [hknown]; rfl, hmod, (Option.some.inj h).symm⟩

theorem iterations_word (v : Var) (lo hi : ℤ) :
    iterations (fun _ values => FreeMonoid.of values) env v [.leaf 0 [.var v]] lo hi =
      ((FreeMonoid.ofList ((span lo hi).map fun i => [i]) : FreeMonoid (List ℤ)) :
        WithZero (FreeMonoid (List ℤ))) := by
  rw [iterations]
  induction span lo hi with
  | nil => rfl
  | cons i is ih =>
    rw [map_cons, prod_cons, ih, map_cons, FreeMonoid.ofList_cons,
      WithZero.coe_mul, execAll_singleton, Stmt.exec]
    simp [evalAll, Expr.eval]

/-- A body that tells the value of the variable. -/
def telling (f : For) : For :=
  { f with body := [.leaf 0 [.var f.var]] }

theorem telling_scoped (h : f.Scoped) : (telling f).Scoped :=
  ⟨by simp [telling, boundAll, Stmt.bound], fun u hu => ⟨(h.bounds u hu).1,
    by simp [telling, boundAll, Stmt.bound]⟩⟩

theorem telling_fresh (h : Fresh inner outer tail f) : Fresh inner outer tail (telling f) := by
  obtain ⟨hinner, houter, htail, hdistinct⟩ := h
  rw [For.mem_vars, not_or, not_or, not_or] at hinner houter htail
  refine ⟨?_, ?_, ?_, hdistinct⟩
  · simp [telling, For.mem_vars, varsAll, Stmt.vars, Expr.vars, hinner]
  · simp [telling, For.mem_vars, varsAll, Stmt.vars, Expr.vars, houter]
  · simp [telling, For.mem_vars, varsAll, Stmt.vars, Expr.vars, htail]

theorem word_ne_zero (v : Var) (lo hi : ℤ) :
    iterations (fun _ values => FreeMonoid.of values) env v [.leaf 0 [.var v]] lo hi ≠ 0 := by
  rw [iterations_word]
  exact WithZero.coe_ne_zero

/-- Whoever tells the same values has gone through the same ones. -/
theorem span_of_word {v : Var} {lo hi lo' hi' : ℤ}
    (h : iterations (fun _ values => FreeMonoid.of values) env v [.leaf 0 [.var v]] lo hi =
      iterations (fun _ values => FreeMonoid.of values) env v [.leaf 0 [.var v]] lo' hi') :
    Lib.span lo hi = Lib.span lo' hi' := by
  rw [iterations_word, iterations_word, WithZero.coe_inj, FreeMonoid.ofList.apply_eq_iff_eq] at h
  exact map_injective_iff.mpr (fun _ _ hi => (List.cons.inj hi).1) h

section Exact

variable (hfactor : 1 ≤ factor) (h : f.Scoped) (hfresh : Fresh inner outer tail f)
  (hstart : f.start.eval env = some a) (hstop : f.stop.eval env = some b)
include hfactor h hfresh hstart hstop

/-- Where a rewrite misses values, a body that tells them shows it. -/
theorem not_misses {rewrite : Rewrite}
    (hright : RunsBody S inner outer tail factor f env a b rewrite) :
    ¬ Misses S factor f a b rewrite := by
  have hscoped := telling_scoped h
  have hfresh' := telling_fresh hfresh
  have htold := fun new => hright [.leaf 0 [.var f.var]] hscoped hfresh' (FreeMonoid (List ℤ))
    (fun _ values => FreeMonoid.of values) (word_ne_zero f.var a b) new
  have hcounts : ∀ {lo hi}, Lib.span lo hi = Lib.span a b → a < b → lo = a := by
    intro lo hi heq hlt
    rw [span_cons hlt] at heq
    by_cases hle : lo < hi
    · rw [span_cons hle] at heq
      exact (List.cons.inj heq).1
    · rw [span_of_le (not_lt.mp hle)] at heq
      cases heq
  cases rewrite with
  | sliceHead => exact id
  | sliceTail => exact id
  | normalize => exact id
  | splitWithTail =>
    rintro ⟨hnormal, ha, hlt⟩
    have hstarts : splitStart (telling f) a = 0 := if_pos hnormal
    have hsplit : execAll (fun _ values => FreeMonoid.of values) env
        (splitWithTail S inner outer tail factor (telling f)) = _ :=
      splitWithTail_exec hfactor hscoped hfresh' hstart hstop fun _ => word_ne_zero f.var a b
    rw [hstarts] at hsplit
    exact ha (hcounts (span_of_word (hsplit.symm.trans (htold _ rfl))) hlt).symm
  | splitWithMask =>
    rintro ⟨hknown, hmod, ha, hlt⟩
    obtain ⟨size, hsize⟩ := Option.isSome_iff_exists.mp hknown
    have hvalue := knownSize_eq (S.eval_expr hstart) (S.eval_expr hstop) hsize
    have hdivisible : size.tmod factor = 0 := hvalue ▸ hmod
    have hone := htold [splitLoops inner outer factor f.var
      (div (sub (add (sub f.stop f.start) (.imm factor)) (.imm 1)) (.imm factor))
      [.leaf 0 [.var f.var]]] (by simp [Rewrite.apply, splitWithMask, hsize, hdivisible])
    rw [execAll_singleton] at hone
    have hzero := (unmasked_exec hfactor hscoped hfresh' hstart hstop hmod).symm.trans hone
    exact ha (hcounts (span_of_word hzero) hlt).symm
  | unroll =>
    rintro ⟨hconst, hconst', hspan⟩
    obtain ⟨start, hintValue⟩ := Option.isSome_iff_exists.mp hconst
    obtain ⟨stop, hintValue'⟩ := Option.isSome_iff_exists.mp hconst'
    have hsome : (unroll S (telling f)).isSome = true := by
      simp [unroll, telling, Expr.immediate, hintValue, hintValue']
    obtain ⟨new, hnew⟩ := Option.isSome_iff_exists.mp hsome
    have hone := htold new hnew
    rw [unroll_cases (f := telling f) hstart hstop hnew,
      unrolled_exec hscoped (word_ne_zero f.var _ _)] at hone
    exact hspan (span_of_word hone)

end Exact

def Simplifier.keep : Simplifier where
  expr e := e
  block ss := ss
  eval_expr h := h
  exec_block _ := rfl
  vars_expr _ := List.Subset.refl _
  vars_block _ := List.Subset.refl _
  bound_block _ := List.Subset.refl _

/-- A loop from one to five. -/
def fromOne : For where
  var := 0
  start := .imm 1
  stop := .imm 5
  body := [.leaf 0 [.var 0]]
  gpu := false

theorem fromOne_scoped : fromOne.Scoped :=
  ⟨by decide, fun u hu => absurd hu (by simp [fromOne, Expr.vars])⟩

theorem fromOne_fresh : Fresh 1 2 3 fromOne :=
  ⟨by decide, by decide, by decide, by decide⟩

theorem fromOne_not_normalized : ¬ isNormalized fromOne = true := by
  simp [isNormalized, fromOne, Expr.immediate, Expr.intValue]

end Right

end PyTorchCore.LoopNest
