import PyTorchCore.LoopNest.Split
import Mathlib.Data.List.Nodup

/-!
# The points of a nest

A perfect nest runs its innermost body at points: the values that its loops give to their
variables.  There are none where a bound that is reached has no value.
-/

namespace PyTorchCore.LoopNest

open Lib Stmt
open Option Function List

/-- A `For` without its body. -/
structure Head where
  var : Var
  start : Expr
  stop : Expr

def Head.toFor (head : Head) (body : List Stmt) : For where
  var := head.var
  start := head.start
  stop := head.stop
  body := body
  gpu := false

/-- Perfectly nested loops, the outermost first. -/
def nest : List Head → List Stmt → List Stmt
  | [], body => body
  | head :: heads, body => [.loop head.var head.start head.stop (nest heads body)]

/-- The bound variables of one statement. -/
theorem boundAll_singleton (s : Stmt) : boundAll [s] = s.bound := by
  rw [boundAll, boundAll, append_nil]

theorem varsAll_singleton (s : Stmt) : varsAll [s] = s.vars := by
  rw [varsAll, varsAll, append_nil]

section Gather

variable {α : Type}

/-- The lists for the values of a span, one after another. -/
def gather (f : ℤ → Option (List α)) : List ℤ → Option (List α)
  | [] => some []
  | i :: is => (f i).bind fun xs => (gather f is).map (xs ++ ·)

variable {f : ℤ → Option (List α)}

theorem gather_eq_none {is : List ℤ} : gather f is = none ↔ ∃ i ∈ is, f i = none := by
  induction is with
  | nil => simp [gather]
  | cons i is ih =>
    rw [gather, exists_mem_cons_iff, ← ih]
    cases hi : f i with
    | none => simp
    | some xs => simp

theorem mem_gather {is : List ℤ} {xs : List α} (h : gather f is = some xs) {x : α} :
    x ∈ xs ↔ ∃ i ∈ is, ∃ ys, f i = some ys ∧ x ∈ ys := by
  induction is generalizing xs with
  | nil =>
    cases h
    simp
  | cons i is ih =>
    rw [gather, bind_eq_some_iff] at h
    obtain ⟨ys, hys, h⟩ := h
    obtain ⟨zs, hzs, rfl⟩ := map_eq_some_iff.mp h
    rw [mem_append, exists_mem_cons_iff, ih hzs, hys]
    simp

end Gather

def points (env : Env) : List Head → Option (List Env)
  | [] => some [env]
  | head :: heads =>
    (head.start.eval env).bind fun lo => (head.stop.eval env).bind fun hi =>
      gather (fun i => points (Function.update env head.var (some i)) heads) (span lo hi)

section Exec

variable {M : Type} [Monoid M] {step : ℕ → List ℤ → M}

/-- A nest runs its body at each of its points. -/
theorem exec_nest (env : Env) (heads : List Head) (body : List Stmt) :
    execAll step env (nest heads body) =
      match points env heads with
      | some es => (es.map fun e => execAll step e body).prod
      | none => 0 := by
  induction heads generalizing env with
  | nil => simp [nest, points]
  | cons head heads ih =>
    rw [nest, execAll_singleton, Stmt.exec, points]
    cases hstart : head.start.eval env with
    | none => rfl
    | some lo =>
      cases hstop : head.stop.eval env with
      | none => rfl
      | some hi =>
        simp only [bind_some, ih]
        induction span lo hi with
        | nil => rfl
        | cons i is ih' =>
          rw [map_cons, prod_cons, gather, ih']
          cases hfirst : points (update env head.var (some i)) heads with
          | none => exact zero_mul _
          | some es =>
            cases hrest : gather (fun i =>
                points (update env head.var (some i)) heads) is with
            | none => exact mul_zero _
            | some fs =>
              exact (prod_append.symm.trans (congrArg List.prod map_append.symm))

end Exec

section Membership

theorem Expr.eval_mono {env env' : Env} {e : Expr} {x : ℤ}
    (h : ∀ u, env u ≠ none → env' u = env u) (he : e.eval env = some x) :
    e.eval env' = some x := by
  induction e generalizing x with
  | imm value => exact he
  | var v =>
    rw [Expr.eval] at he ⊢
    rw [h v (by rw [he]; exact some_ne_none x), he]
  | binary op lhs rhs ihl ihr =>
    rw [Expr.eval, bind_eq_some_iff] at he
    obtain ⟨y, hy, he⟩ := he
    obtain ⟨z, hz, he⟩ := bind_eq_some_iff.mp he
    rw [Expr.eval, ihl hy, bind_some, ihr hz, bind_some, he]

/-- The variable of a loop lies within its bounds. -/
def Head.Within (e : Env) (head : Head) : Prop :=
  ∃ k lo hi, e head.var = some k ∧ head.start.eval e = some lo ∧ head.stop.eval e = some hi ∧
    lo ≤ k ∧ k < hi

variable {env : Env} {heads : List Head}

theorem update_none {head : Head} (hnone : ∀ h ∈ head :: heads, env h.var = none)
    (hnodup : ((head :: heads).map Head.var).Nodup) (i : ℤ) :
    ∀ h ∈ heads, update env head.var (some i) h.var = none := by
  intro h hh
  have hne : h.var ≠ head.var := fun heq =>
    (nodup_cons.mp hnodup).1 (heq ▸ mem_map_of_mem hh)
  rw [update_of_ne hne]
  exact hnone h (mem_cons_of_mem _ hh)

section

variable (hnone : ∀ h ∈ heads, env h.var = none) (hnodup : (heads.map Head.var).Nodup)
include hnone hnodup

/-- The points agree with the environment outside the nest, and the variables of the loops lie
within their bounds. -/
theorem mem_points_iff {es : List Env} (h : points env heads = some es) {e : Env} :
    e ∈ es ↔ (∀ u, u ∉ heads.map Head.var → e u = env u) ∧ ∀ head ∈ heads, head.Within e := by
  induction heads generalizing env es with
  | nil =>
    cases h
    rw [mem_singleton]
    constructor
    · rintro rfl
      exact ⟨fun _ _ => rfl, fun head hin => absurd hin not_mem_nil⟩
    · rintro ⟨hagree, -⟩
      exact funext fun u => hagree u not_mem_nil
  | cons head heads ih =>
    rw [points, bind_eq_some_iff] at h
    obtain ⟨lo, hlo, h⟩ := h
    obtain ⟨hi, hhi, h⟩ := bind_eq_some_iff.mp h
    have hrest := update_none hnone hnodup
    obtain ⟨hnot, hnodup'⟩ := nodup_cons.mp hnodup
    have hvar := hnone head mem_cons_self
    rw [mem_gather h]
    constructor
    · rintro ⟨i, hi', es, hes, he⟩
      rw [mem_span] at hi'
      obtain ⟨hagree, hwithin⟩ := (ih (hrest i) hnodup' hes).mp he
      have hhead : e head.var = some i := by
        rw [hagree head.var hnot, update_self]
      have hextends : ∀ u, env u ≠ none → e u = env u := by
        intro u hu
        have hne : u ≠ head.var := fun heq => hu (heq ▸ hvar)
        have hnotin : u ∉ heads.map Head.var := by
          intro hin
          obtain ⟨g, hg, rfl⟩ := mem_map.mp hin
          exact hu (hnone g (mem_cons_of_mem _ hg))
        rw [hagree u hnotin, update_of_ne hne]
      refine ⟨fun u hu => ?_, forall_mem_cons.mpr ⟨?_, hwithin⟩⟩
      · rw [map_cons, mem_cons, not_or] at hu
        rw [hagree u hu.2, update_of_ne hu.1]
      · exact ⟨i, lo, hi, hhead, Expr.eval_mono hextends hlo, Expr.eval_mono hextends hhi, hi'⟩
    · rintro ⟨hagree, hwithin⟩
      obtain ⟨⟨k, lo', hi', hk, hlo', hhi', hbounds⟩, hwithin⟩ :=
        forall_mem_cons.mp hwithin
      have hextends : ∀ u, env u ≠ none → e u = env u := by
        intro u hu
        refine hagree u fun hin => ?_
        obtain ⟨g, hg, rfl⟩ := mem_map.mp hin
        exact hu (hnone g hg)
      rw [Expr.eval_mono hextends hlo, some_inj] at hlo'
      rw [Expr.eval_mono hextends hhi, some_inj] at hhi'
      subst hlo' hhi'
      have hspan : k ∈ span lo hi := mem_span.mpr hbounds
      cases hes : points (update env head.var (some k)) heads with
      | none => rw [gather_eq_none.mpr ⟨k, hspan, hes⟩] at h; cases h
      | some es' =>
        refine ⟨k, hspan, es', hes, (ih (hrest k) hnodup' hes).mpr ⟨fun u hu => ?_, hwithin⟩⟩
        by_cases heq : u = head.var
        · rw [heq, update_self, hk]
        · rw [update_of_ne heq]
          refine hagree u ?_
          rw [map_cons, mem_cons, not_or]
          exact ⟨heq, hu⟩

theorem points_nodup {es : List Env} (h : points env heads = some es) : es.Nodup := by
  induction heads generalizing env es with
  | nil =>
    cases h
    exact nodup_singleton _
  | cons head heads ih =>
    rw [points, bind_eq_some_iff] at h
    obtain ⟨lo, -, hfrom⟩ := h
    obtain ⟨hi, -, hpoints⟩ := bind_eq_some_iff.mp hfrom
    clear hfrom
    have hrest := update_none hnone hnodup
    obtain ⟨hnot, hnodup'⟩ := nodup_cons.mp hnodup
    have hspan : (span lo hi).Nodup :=
      Nodup.map (fun a b hab => by simpa using hab) nodup_range
    generalize span lo hi = is at hpoints hspan
    induction is generalizing es with
    | nil =>
      cases hpoints
      exact nodup_nil
    | cons i is ih' =>
      rw [gather, bind_eq_some_iff] at hpoints
      obtain ⟨xs, hxs, hrests⟩ := hpoints
      obtain ⟨ys, hys, rfl⟩ := map_eq_some_iff.mp hrests
      obtain ⟨hi', hspan⟩ := nodup_cons.mp hspan
      refine nodup_append.mpr ⟨ih (hrest i) hnodup' hxs, ih' hys hspan, ?_⟩
      intro e he e' he' heq
      subst heq
      obtain ⟨j, hj, zs, hzs, he'⟩ := (mem_gather hys).mp he'
      have hone := ((mem_points_iff (hrest i) hnodup' hxs).mp he).1 head.var hnot
      have htwo := ((mem_points_iff (hrest j) hnodup' hzs).mp he').1 head.var hnot
      rw [hone, update_self, update_self, some_inj] at htwo
      exact hi' (htwo ▸ hj)

end

/-- A loop is reached with a bound that has no value there. -/
inductive ReachesError : Env → List Head → Prop where
  | bound {env : Env} {head : Head} {heads : List Head}
      (hnone : head.start.eval env = none ∨ head.stop.eval env = none) :
      ReachesError env (head :: heads)
  | iteration {env : Env} {head : Head} {heads : List Head} {lo hi i : ℤ}
      (hstart : head.start.eval env = some lo) (hstop : head.stop.eval env = some hi)
      (hmem : i ∈ span lo hi)
      (hreach : ReachesError (Function.update env head.var (some i)) heads) :
      ReachesError env (head :: heads)

theorem points_eq_none_iff : points env heads = none ↔ ReachesError env heads := by
  induction heads generalizing env with
  | nil => exact iff_of_false (nofun) nofun
  | cons head heads ih =>
    rw [points]
    constructor
    · intro h
      cases hlo : head.start.eval env with
      | none => exact .bound (.inl hlo)
      | some lo =>
        cases hhi : head.stop.eval env with
        | none => exact .bound (.inr hhi)
        | some hi =>
          rw [hlo, hhi, bind_some, bind_some, gather_eq_none] at h
          obtain ⟨i, hmem, hnone⟩ := h
          exact .iteration hlo hhi hmem (ih.mp hnone)
    · intro h
      cases h with
      | bound hnone =>
        rcases hnone with hnone | hnone
        · simp [hnone]
        · simp [hnone]
      | iteration hlo hhi hmem hreach =>
        rw [hlo, hhi, bind_some, bind_some, gather_eq_none]
        exact ⟨_, hmem, ih.mpr hreach⟩

end Membership

end PyTorchCore.LoopNest
