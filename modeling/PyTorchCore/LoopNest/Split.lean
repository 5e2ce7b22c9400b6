import PyTorchCore.LoopNest.Ir
import Mathlib.Algebra.BigOperators.Ring.List

/-!
# Loops cut and split

`sliceHead`, `sliceTail`, `splitWithTail`, `splitWithMask`, `normalize` and `unroll` of
`loopnest.cpp` put other statements in the place of a loop.

`IRSimplifier::simplify` is a parameter that keeps what expressions and statements mean.
-/

namespace PyTorchCore.LoopNest

open Lib Stmt
open Function List

/-- `IRSimplifier`: what has a value keeps it, and what runs without an error runs the same way. -/
structure Simplifier where
  expr : Expr → Expr
  block : List Stmt → List Stmt
  eval_expr : ∀ {env e x}, e.eval env = some x → (expr e).eval env = some x
  exec_block : ∀ {M : Type} [Monoid M] {step : ℕ → List ℤ → M} {env ss},
    execAll step env ss ≠ 0 → execAll step env (block ss) = execAll step env ss
  vars_expr : ∀ e, (expr e).vars ⊆ e.vars
  vars_block : ∀ ss, varsAll (block ss) ⊆ varsAll ss
  bound_block : ∀ ss, boundAll (block ss) ⊆ boundAll ss

/-- A `For`; `gpu` is that its options make it a block or a thread index. -/
structure For where
  var : Var
  start : Expr
  stop : Expr
  body : List Stmt
  gpu : Bool

namespace For

def toStmt (f : For) : Stmt :=
  .loop f.var f.start f.stop f.body

def vars (f : For) : List Var :=
  f.toStmt.vars

/-- The loops inside bind neither the variable of the loop nor those of its bounds, and these do
not mention it. -/
structure Scoped (f : For) : Prop where
  var : f.var ∉ boundAll f.body
  bounds : ∀ u ∈ f.start.vars ++ f.stop.vars, u ≠ f.var ∧ u ∉ boundAll f.body

end For

/-- `immLike` and the operators. -/
def add (lhs rhs : Expr) : Expr := .binary .add lhs rhs

def sub (lhs rhs : Expr) : Expr := .binary .sub lhs rhs

def mul (lhs rhs : Expr) : Expr := .binary .mul lhs rhs

def div (lhs rhs : Expr) : Expr := .binary .div lhs rhs

def mod (lhs rhs : Expr) : Expr := .binary .mod lhs rhs

section Rewrites

variable (S : Simplifier) (inner outer tail : Var) (factor : ℤ)

def isNormalized (f : For) : Bool :=
  f.start.immediate = some 0

def normalize (f : For) : For :=
  if isNormalized f then f
  else
    { f with
      body := S.block (substAll (replace f.var (add (.var f.var) f.start)) f.body)
      stop := S.expr (sub f.stop f.start)
      start := .imm 0 }

/-- The number of iterations, where it is known. -/
def knownSize (start stop : Expr) : Option ℤ :=
  start.intValue.bind fun a => stop.intValue.map fun b => b - a

def sliceHead (f : For) : List Stmt :=
  if (knownSize f.start f.stop).any (· ≤ factor) then [f.toStmt]
  else
    let head_end := .binary .min (add f.start (.imm factor)) f.stop
    let rest := { f with start := head_end }
    [.loop f.var f.start head_end f.body, (if f.gpu then normalize S rest else rest).toStmt]

def sliceTail (f : For) : List Stmt :=
  if (knownSize f.start f.stop).any (· ≤ factor) then [f.toStmt]
  else
    let tail_start := .binary .max f.start (sub f.stop (.imm factor))
    let rest := { f with stop := tail_start }
    [(if f.gpu then normalize S rest else rest).toStmt, .loop f.var tail_start f.stop f.body]

def splitLoops (var : Var) (split_count : Expr) (body : List Stmt) : Stmt :=
  .loop outer (.imm 0) split_count [.loop inner (.imm 0) (.imm factor)
    (substAll (replace var (add (mul (.var outer) (.imm factor)) (.var inner))) body)]

def splitWithTail (f : For) : List Stmt :=
  let f := normalize S f
  let tail_is_needed := !(knownSize f.start f.stop).any (·.tmod factor = 0)
  let size := sub f.stop f.start
  let split_count := div size (.imm factor)
  let tail_size := mod size (.imm factor)
  splitLoops inner outer factor f.var split_count f.body ::
    if tail_is_needed then
      [.loop tail (.imm 0) tail_size (substAll
        (replace f.var (add (.var tail) (mul split_count (.imm factor)))) f.body)]
    else []

def splitWithMask (f : For) : Option (List Stmt) :=
  let tail_is_needed := !(knownSize (S.expr f.start) (S.expr f.stop)).any (·.tmod factor = 0)
  let size := sub f.stop f.start
  let split_count := div (sub (add size (.imm factor)) (.imm 1)) (.imm factor)
  if tail_is_needed then
    if f.start.intValue = some 0 then
      some [splitLoops inner outer factor f.var split_count
        [.cond (.binary .lt (.var f.var) f.stop) f.body []]]
    else none
  else some [splitLoops inner outer factor f.var split_count f.body]

def unroll (f : For) : Option (List Stmt) :=
  (S.expr f.start).immediate.bind fun start_val => (S.expr f.stop).immediate.map fun stop_val =>
    [.block (S.block ((span start_val stop_val).flatMap fun current =>
      substAll (replace f.var (.imm current)) f.body))]

end Rewrites

section Iterations

variable {M : Type} [Monoid M] (step : ℕ → List ℤ → M)

/-- The body for the values of a span, once each and in order. -/
def iterations (env : Env) (v : Var) (body : List Stmt) (lo hi : ℤ) : WithZero M :=
  ((span lo hi).map fun i => execAll step (Function.update env v (some i)) body).prod

variable {step} {env : Env} {v : Var} {body : List Stmt} {lo mid hi : ℤ}

/-- A loop whose stop is not above its start does nothing. -/
theorem iterations_of_le (h : hi ≤ lo) : iterations step env v body lo hi = 1 := by
  rw [iterations, span_of_le h, map_nil, prod_nil]

theorem iterations_append (hlo : lo ≤ mid) (hhi : mid ≤ hi) : iterations step env v body lo hi =
      iterations step env v body lo mid * iterations step env v body mid hi := by
  rw [iterations, span_append hlo hhi, map_append, prod_append, iterations, iterations]

theorem iterations_cut (h : lo ≤ mid ∧ mid ≤ hi ∨ hi ≤ mid ∧ mid ≤ lo) :
    iterations step env v body lo hi =
      iterations step env v body lo mid * iterations step env v body mid hi := by
  rcases h with ⟨hlo, hhi⟩ | ⟨hhi, hlo⟩
  · exact iterations_append hlo hhi
  · rw [iterations_of_le (hhi.trans hlo), iterations_of_le hlo, iterations_of_le hhi, one_mul]

theorem iterations_ne_zero (h : iterations step env v body lo hi ≠ 0) {i : ℤ}
    (hi' : i ∈ span lo hi) : execAll step (update env v (some i)) body ≠ 0 := by
  intro hzero
  refine h (prod_eq_zero (mem_map.mpr ⟨i, hi', hzero⟩))

theorem iterations_shift (distance : ℤ) (body' : List Stmt)
    (h : ∀ i ∈ span lo hi, execAll step (update env v (some i)) body' =
      execAll step (update env v (some (i + distance))) body) :
    iterations step env v body' lo hi =
      iterations step env v body (lo + distance) (hi + distance) := by
  rw [iterations, iterations, span_shift, map_map]
  exact congrArg List.prod (map_congr_left h)

end Iterations

section Values

variable {env : Env} {e e' : Expr} {x y : ℤ}

section

variable (h : e.eval env = some x) (h' : e'.eval env = some y)
include h h'

/-- The sum of two expressions. -/
theorem eval_add :
    (add e e').eval env = some (x + y) := by
  rw [add, Expr.eval, h, h']
  rfl

theorem eval_sub :
    (sub e e').eval env = some (x - y) := by
  rw [sub, Expr.eval, h, h']
  rfl

theorem eval_mul :
    (mul e e').eval env = some (x * y) := by
  rw [mul, Expr.eval, h, h']
  rfl

theorem eval_div (hy : y ≠ 0) :
    (div e e').eval env = some (x.tdiv y) := by
  rw [div, Expr.eval, h, h']
  exact if_neg hy

theorem eval_mod (hy : y ≠ 0) :
    (mod e e').eval env = some (x.tmod y) := by
  rw [mod, Expr.eval, h, h']
  exact if_neg hy

end

theorem eval_of_intValue (h : e.intValue = some x) (env : Env) : e.eval env = some x := by
  cases e with
  | imm value => exact h
  | var v => cases h
  | binary op lhs rhs => cases h

theorem eval_update {u : Var} (hu : u ∉ e.vars) (z : Option ℤ) :
    e.eval (update env u z) = e.eval env := by
  refine Expr.eval_congr fun w hw => ?_
  have hne : w ≠ u := fun heq => hu (heq ▸ hw)
  rw [update_of_ne hne]

theorem knownSize_eq {start stop : Expr} {a b size : ℤ} (hstart : start.eval env = some a)
    (hstop : stop.eval env = some b) (h : knownSize start stop = some size) : size = b - a := by
  rw [knownSize, Option.bind_eq_some_iff] at h
  obtain ⟨a', ha, h⟩ := h
  obtain ⟨b', hb, rfl⟩ := Option.map_eq_some_iff.mp h
  have ha' := eval_of_intValue ha env
  have hb' := eval_of_intValue hb env
  rw [hstart, Option.some_inj] at ha'
  rw [hstop, Option.some_inj] at hb'
  rw [ha', hb']

end Values

section Normalize

variable {M : Type} [Monoid M] {step : ℕ → List ℤ → M} {S : Simplifier} {f : For} {env : Env}
variable {a b : ℤ}

theorem exec_toStmt (hstart : f.start.eval env = some a) (hstop : f.stop.eval env = some b) :
    f.toStmt.exec step env = iterations step env f.var f.body a b :=
  exec_loop hstart hstop

/-- The start can be added to the variable in the whole body. -/
theorem For.Scoped.replaceable (h : f.Scoped) : Replaceable f.var
    (add (.var f.var) f.start) f.body := by
  refine ⟨h.var, fun u hu => ?_⟩
  rw [add, Expr.vars, Expr.vars, singleton_append, mem_cons] at hu
  rcases hu with rfl | hu
  · exact h.var
  · exact (h.bounds u (mem_append_left _ hu)).2

theorem For.Scoped.start_fresh (h : f.Scoped) : f.var ∉ f.start.vars :=
  fun hin => (h.bounds f.var (mem_append_left _ hin)).1 rfl

theorem For.Scoped.stop_fresh (h : f.Scoped) : f.var ∉ f.stop.vars :=
  fun hin => (h.bounds f.var (mem_append_right _ hin)).1 rfl

theorem shifted_iteration (h : f.Scoped) (hstart : f.start.eval env = some a) (i : ℤ) :
    execAll step (update env f.var (some i))
        (substAll (replace f.var (add (.var f.var) f.start)) f.body) =
      execAll step (update env f.var (some (i + a))) f.body := by
  have hvalue : (add (.var f.var) f.start).eval (update env f.var (some i)) = some (i + a) := by
    refine eval_add (update_self _ _ _) ?_
    rw [eval_update h.start_fresh, hstart]
  rw [execAll_replace h.replaceable, hvalue, update_idem]

/-- Where a split starts to count: a start that is taken for zero is left out. -/
def splitStart (f : For) (start : ℤ) : ℤ :=
  if isNormalized f then 0 else start

theorem normalize_eval (hstart : f.start.eval env = some a) (hstop : f.stop.eval env = some b) :
    ∃ lo, (normalize S f).start.eval env = some lo ∧
      (normalize S f).stop.eval env = some (lo + (b - a)) := by
  rw [normalize]
  split
  · exact ⟨a, hstart, by rw [hstop, add_sub_cancel]⟩
  · exact ⟨0, rfl, by rw [Int.zero_add]; exact S.eval_expr (eval_sub hstop hstart)⟩

theorem normalize_var : (normalize S f).var = f.var := by
  rw [normalize]
  split
  · rfl
  · rfl

/-- The body of a normalized loop counts from zero. -/
theorem shifted_iterations (h : f.Scoped) (hstart : f.start.eval env = some a)
    (hruns : iterations step env f.var f.body a b ≠ 0) :
    iterations step env f.var
        (S.block (substAll (replace f.var (add (.var f.var) f.start)) f.body)) 0 (b - a) =
      iterations step env f.var f.body a b := by
  have hone : ∀ i ∈ span 0 (b - a), execAll step (update env f.var (some i))
      (S.block (substAll (replace f.var (add (.var f.var) f.start)) f.body)) =
        execAll step (update env f.var (some (i + a))) f.body := by
    intro i hi
    have hin : i + a ∈ span a b := by
      rw [mem_span] at hi ⊢
      omega
    have hshifted : execAll step (update env f.var (some i))
        (substAll (replace f.var (add (.var f.var) f.start)) f.body) ≠ 0 := by
      rw [shifted_iteration h hstart]
      exact iterations_ne_zero hruns hin
    rw [S.exec_block hshifted, shifted_iteration h hstart]
  have hshift := iterations_shift a _ hone
  rwa [Int.zero_add, Int.sub_add_cancel] at hshift

theorem normalize_iterations (h : f.Scoped) (hstart : f.start.eval env = some a)
    (hruns : isNormalized f = false → iterations step env f.var f.body a b ≠ 0) :
    iterations step env f.var (normalize S f).body 0 (b - a) =
      iterations step env f.var f.body (splitStart f a) (splitStart f a + (b - a)) := by
  rw [normalize, splitStart]
  split
  · rw [Int.zero_add]
  · next hnormal =>
      rw [add_sub_cancel]
      exact shifted_iterations h hstart (hruns (Bool.not_eq_true _ ▸ hnormal))

theorem normalize_exec (h : f.Scoped) (hstart : f.start.eval env = some a)
    (hstop : f.stop.eval env = some b) (hruns : iterations step env f.var f.body a b ≠ 0) :
    (normalize S f).toStmt.exec step env = iterations step env f.var f.body a b := by
  rw [normalize]
  split
  · exact exec_toStmt hstart hstop
  · exact (exec_toStmt rfl (S.eval_expr (eval_sub hstop hstart))).trans
      (shifted_iterations h hstart hruns)

end Normalize

section Slices

variable {M : Type} [Monoid M] {step : ℕ → List ℤ → M} {S : Simplifier} {f : For} {env : Env}
variable {a b factor : ℤ}

/-- A loop that stays, or is normalized because it is an index of a kernel. -/
theorem gpu_exec (h : f.Scoped) (hstart : f.start.eval env = some a)
    (hstop : f.stop.eval env = some b) (hruns : iterations step env f.var f.body a b ≠ 0) :
    (if f.gpu then normalize S f else f).toStmt.exec step env =
      iterations step env f.var f.body a b := by
  cases f.gpu with
  | true => exact normalize_exec h hstart hstop hruns
  | false => exact exec_toStmt hstart hstop

variable (hfactor : 1 ≤ factor) (h : f.Scoped) (hstart : f.start.eval env = some a)
  (hstop : f.stop.eval env = some b) (hruns : iterations step env f.var f.body a b ≠ 0)
include hfactor h hstart hstop hruns

theorem sliceHead_exec :
    execAll step env (sliceHead S factor f) = iterations step env f.var f.body a b := by
  rw [sliceHead]
  split
  · rw [execAll_singleton, exec_toStmt hstart hstop]
  · have hhead : (Expr.binary .min (add f.start (.imm factor)) f.stop).eval env =
        some (min (a + factor) b) := by
      rw [Expr.eval, eval_add hstart rfl, hstop]
      rfl
    have hscoped : For.Scoped
        { f with start := .binary .min (add f.start (.imm factor)) f.stop } := by
      refine ⟨h.var, fun u hu => h.bounds u ?_⟩
      simp only [add, Expr.vars, append_nil, mem_append] at hu ⊢
      tauto
    rw [Stmt.execAll, execAll_singleton, exec_loop hstart hhead]
    have hsplit := @iterations_cut M _ step env f.var f.body a (min (a + factor) b) b (by omega)
    rw [hsplit] at hruns ⊢
    exact congrArg _ (gpu_exec hscoped hhead hstop (right_ne_zero_of_mul hruns))

theorem sliceTail_exec :
    execAll step env (sliceTail S factor f) = iterations step env f.var f.body a b := by
  rw [sliceTail]
  split
  · rw [execAll_singleton, exec_toStmt hstart hstop]
  · have htail : (Expr.binary .max f.start (sub f.stop (.imm factor))).eval env =
        some (max a (b - factor)) := by
      rw [Expr.eval, eval_sub hstop rfl, hstart]
      rfl
    have hscoped : For.Scoped
        { f with stop := .binary .max f.start (sub f.stop (.imm factor)) } := by
      refine ⟨h.var, fun u hu => h.bounds u ?_⟩
      simp only [sub, Expr.vars, append_nil, mem_append] at hu ⊢
      tauto
    rw [Stmt.execAll, execAll_singleton, exec_loop htail hstop]
    have hsplit := @iterations_cut M _ step env f.var f.body a (max a (b - factor)) b (by omega)
    rw [hsplit] at hruns ⊢
    exact congrArg (· * _) (gpu_exec hscoped hstart htail (left_ne_zero_of_mul hruns))

end Slices

section Splits

variable {M : Type} [Monoid M] {step : ℕ → List ℤ → M} {S : Simplifier} {f : For} {env : Env}
variable {a b factor : ℤ} {inner outer tail : Var}

/-- The new variables of a split. -/
structure Fresh (inner outer tail : Var) (f : For) : Prop where
  inner_fresh : inner ∉ f.vars
  outer_fresh : outer ∉ f.vars
  tail_fresh : tail ∉ f.vars
  distinct : inner ≠ outer

theorem For.mem_vars {u : Var} : u ∈ f.vars ↔
    u = f.var ∨ u ∈ f.start.vars ∨ u ∈ f.stop.vars ∨ u ∈ varsAll f.body := by
  rw [For.vars, For.toStmt, Stmt.vars, mem_cons, mem_append, mem_append]
  tauto

theorem prod_tiles {N : Type} [Monoid N] (count size : ℤ) (g : ℤ → N) :
    ((tiles count size).map g).prod =
      ((span 0 count).map fun i => ((span 0 size).map fun j => g (i * size + j)).prod).prod := by
  rw [tiles]
  induction span 0 count with
  | nil => rfl
  | cons i is ih =>
    rw [flatMap_cons, map_append, prod_append, ih, map_cons, prod_cons, map_map]
    rfl

theorem splitLoops_exec {v : Var} {split_count : Expr} {body : List Stmt} {count : ℤ}
    (hinner : inner ∉ varsAll body) (houter : outer ∉ varsAll body) (hdistinct : inner ≠ outer)
    (hv : v ∉ boundAll body) (hcount : split_count.eval env = some count) :
    (splitLoops inner outer factor v split_count body).exec step env =
      ((tiles count factor).map fun i =>
        execAll step (update env v (some i)) body).prod := by
  have hreplaceable : Replaceable v (add (mul (.var outer) (.imm factor)) (.var inner)) body := by
    refine ⟨hv, fun u hu hbound => ?_⟩
    simp only [add, mul, Expr.vars, append_nil, mem_append, mem_singleton] at hu
    have hin := Stmt.boundAll_subset_varsAll body hbound
    rcases hu with rfl | rfl
    · exact houter hin
    · exact hinner hin
  rw [splitLoops, exec_loop rfl hcount, prod_tiles]
  refine congrArg List.prod (map_congr_left fun i _ => ?_)
  rw [execAll_singleton, exec_loop rfl rfl]
  refine congrArg List.prod (map_congr_left fun j _ => ?_)
  have hvalue : (add (mul (.var outer) (.imm factor)) (.var inner)).eval
      (update (update env outer (some i)) inner (some j)) = some (i * factor + j) := by
    refine eval_add (eval_mul ?_ rfl) (update_self _ _ _)
    rw [Expr.eval, update_of_ne hdistinct.symm, update_self]
  rw [execAll_replace hreplaceable, hvalue]
  refine Stmt.execAll_congr body (update_agree v _ fun w hw => ?_)
  have hwinner : w ≠ inner := fun heq => hinner (heq ▸ hw)
  have hwouter : w ≠ outer := fun heq => houter (heq ▸ hw)
  rw [update_of_ne hwinner, update_of_ne hwouter]

theorem normalize_scoped (h : f.Scoped) : (normalize S f).Scoped := by
  rw [normalize]
  split
  · exact h
  · have hbound : boundAll (S.block
        (substAll (replace f.var (add (.var f.var) f.start)) f.body)) ⊆ boundAll f.body := by
      refine Subset.trans (S.bound_block _) ?_
      rw [Stmt.boundAll_subst]
      exact Subset.refl _
    refine ⟨fun hin => h.var (hbound hin), fun u hu => ?_⟩
    rw [mem_append] at hu
    have hbounds : u ∈ f.start.vars ++ f.stop.vars := by
      rcases hu with hu | hu
      · cases hu
      · have := S.vars_expr _ hu
        rw [sub, Expr.vars, mem_append] at this
        exact mem_append.mpr this.symm
    exact ⟨(h.bounds u hbounds).1, fun hin => (h.bounds u hbounds).2 (hbound hin)⟩

/-- Normalizing brings in no variable. -/
theorem normalize_vars : (normalize S f).vars ⊆ f.vars := by
  rw [normalize]
  split
  · exact Subset.refl _
  · intro u hu
    rw [For.mem_vars] at hu ⊢
    rcases hu with hu | hu | hu | hu
    · exact .inl hu
    · cases hu
    · have := S.vars_expr _ hu
      rw [sub, Expr.vars, mem_append] at this
      tauto
    · rcases varsAll_replace u (S.vars_block _ hu) with hu | hu
      · exact .inr (.inr (.inr hu))
      · rw [add, Expr.vars, Expr.vars, singleton_append, mem_cons] at hu
        tauto

/-- Normalizing keeps the new variables fresh. -/
theorem Fresh.normalize (h : Fresh inner outer tail f) : Fresh inner outer tail (normalize S f) :=
  ⟨fun hin => h.inner_fresh (normalize_vars hin), fun hin => h.outer_fresh (normalize_vars hin),
    fun hin => h.tail_fresh (normalize_vars hin), h.distinct⟩

theorem tail_exec (h : f.Scoped) (hfresh : Fresh inner outer tail f) {count size : ℤ}
    {split_count tail_size : Expr} (hvars : split_count.vars ⊆ f.start.vars ++ f.stop.vars)
    (hcount : split_count.eval env = some count) (hsize : tail_size.eval env = some size) :
    (Stmt.loop tail (.imm 0) tail_size (substAll
      (replace f.var (add (.var tail) (mul split_count (.imm factor)))) f.body)).exec step env =
        ((span 0 size).map fun i =>
          execAll step (update env f.var (some (i + count * factor))) f.body).prod := by
  have htail := hfresh.tail_fresh
  rw [For.mem_vars, not_or, not_or, not_or] at htail
  have hreplaceable :
      Replaceable f.var (add (.var tail) (mul split_count (.imm factor))) f.body := by
    refine ⟨h.var, fun u hu => ?_⟩
    simp only [add, mul, Expr.vars, append_nil, mem_append, mem_singleton] at hu
    rcases hu with rfl | hu
    · exact fun hin => htail.2.2.2 (Stmt.boundAll_subset_varsAll _ hin)
    · exact (h.bounds u (hvars hu)).2
  have hnot : tail ∉ split_count.vars := by
    intro hin
    rcases mem_append.mp (hvars hin) with hin | hin
    · exact htail.2.1 hin
    · exact htail.2.2.1 hin
  rw [exec_loop rfl hsize]
  refine congrArg List.prod (map_congr_left fun i _ => ?_)
  have hvalue : (add (.var tail) (mul split_count (.imm factor))).eval
      (update env tail (some i)) = some (i + count * factor) := by
    refine eval_add (update_self _ _ _) (eval_mul ?_ rfl)
    rw [eval_update hnot, hcount]
  rw [execAll_replace hreplaceable, hvalue]
  refine Stmt.execAll_congr f.body (update_agree f.var _ fun w hw => ?_)
  have hne : w ≠ tail := fun heq => htail.2.2.2 (heq ▸ hw)
  rw [update_of_ne hne]

/-- Splitting with a tail keeps what the loop does, if normalizing does. -/
theorem splitWithTail_exec (hfactor : 1 ≤ factor) (h : f.Scoped)
    (hfresh : Fresh inner outer tail f) (hstart : f.start.eval env = some a)
    (hstop : f.stop.eval env = some b)
    (hruns : isNormalized f = false → iterations step env f.var f.body a b ≠ 0) :
    execAll step env (splitWithTail S inner outer tail factor f) =
      iterations step env f.var f.body (splitStart f a) (splitStart f a + (b - a)) := by
  obtain ⟨lo, hstart', hstop'⟩ := normalize_eval (S := S) hstart hstop
  have hscoped := normalize_scoped (S := S) h
  have hfresh' := hfresh.normalize (S := S)
  have hsize := eval_sub hstop' hstart'
  rw [add_sub_cancel_left] at hsize
  have himm : (Expr.imm factor).eval env = some factor := rfl
  have hcount := eval_div hsize himm (by omega)
  have hrest := eval_mod hsize himm (by omega)
  have hinner := hfresh'.inner_fresh
  have houter := hfresh'.outer_fresh
  rw [For.mem_vars, not_or, not_or, not_or] at hinner houter
  have hloops := @splitLoops_exec M _ step env factor inner outer _ _ _ _ hinner.2.2.2
    houter.2.2.2 hfresh.distinct hscoped.var hcount
  have htail := @tail_exec M _ step _ env factor inner outer tail hscoped hfresh' _ _ _ _
    (by intro u hu; simpa [div, sub, Expr.vars, or_comm] using hu) hcount hrest
  have hwhole : iterations step env f.var f.body (splitStart f a) (splitStart f a + (b - a)) =
      ((tiles ((b - a).tdiv factor) factor).map fun i =>
        execAll step (update env f.var (some i)) (normalize S f).body).prod *
      ((span 0 ((b - a).tmod factor)).map fun i => execAll step (update env f.var
        (some (i + (b - a).tdiv factor * factor))) (normalize S f).body).prod := by
    rw [← normalize_iterations (S := S) h hstart hruns, iterations,
      span_tiles (b - a) (by omega : 0 < factor), map_append, prod_append, map_map]
    rfl
  rw [splitWithTail, Stmt.execAll, hloops, normalize_var, hwhole]
  refine congrArg _ ?_
  split
  · rw [execAll_singleton]
    rw [normalize_var] at htail
    exact htail
  · next hnone =>
      rw [Bool.not_eq_true, Bool.not_eq_false', Option.any_eq_true] at hnone
      obtain ⟨size, hknown, hzero⟩ := hnone
      rw [knownSize_eq hstart' hstop' hknown, add_sub_cancel_left, decide_eq_true_eq] at hzero
      rw [hzero, span_of_le (Int.le_refl 0)]
      rfl

theorem prod_masked {N : Type} [Monoid N] {size total : ℤ} (hle : size ≤ total) (g : ℤ → N) :
    ((span 0 total).map fun i => if i < size then g i else 1).prod =
      ((span 0 size).map g).prod := by
  have hones : ∀ lo hi : ℤ, size ≤ lo →
      ((span lo hi).map fun i => if i < size then g i else 1).prod = 1 := by
    intro lo hi hlo
    refine prod_eq_one fun x hx => ?_
    obtain ⟨i, hi', rfl⟩ := mem_map.mp hx
    rw [mem_span] at hi'
    exact if_neg (by omega)
  rcases Int.le_total size 0 with hsize | hsize
  · rw [hones 0 total hsize, span_of_le hsize]
    rfl
  · rw [span_append hsize hle, map_append, prod_append, hones size total (Int.le_refl _), mul_one]
    refine congrArg List.prod (map_congr_left fun i hi => ?_)
    rw [mem_span] at hi
    exact if_pos hi.2

theorem eval_count (hfactor : 1 ≤ factor) (hstart : f.start.eval env = some a)
    (hstop : f.stop.eval env = some b) :
    (div (sub (add (sub f.stop f.start) (.imm factor)) (.imm 1)) (.imm factor)).eval env =
      some ((b - a + factor - 1).tdiv factor) :=
  eval_div (eval_sub (eval_add (eval_sub hstop hstart) rfl) rfl) rfl (by omega)

/-- Without a remainder no mask is needed. -/
theorem unmasked_exec (hfactor : 1 ≤ factor) (h : f.Scoped) (hfresh : Fresh inner outer tail f)
    (hstart : f.start.eval env = some a) (hstop : f.stop.eval env = some b)
    (hmod : (b - a).tmod factor = 0) :
    (splitLoops inner outer factor f.var
      (div (sub (add (sub f.stop f.start) (.imm factor)) (.imm 1)) (.imm factor))
      f.body).exec step env = iterations step env f.var f.body 0 (b - a) := by
  have hinner := hfresh.inner_fresh
  have houter := hfresh.outer_fresh
  rw [For.mem_vars, not_or, not_or, not_or] at hinner houter
  rw [splitLoops_exec hinner.2.2.2 houter.2.2.2 hfresh.distinct h.var
    (eval_count hfactor hstart hstop), iterations]
  rcases Int.le_total (b - a) 0 with hle | hle
  · rw [tiles, span_of_le (roundUp_nonpos hle (by omega)), span_of_le hle]
    rfl
  · rw [tiles_eq (le_roundUp hle (by omega)).1 (by omega), roundUp_of_tmod hle (by omega) hmod]

theorem masked_exec (hfactor : 1 ≤ factor) (h : f.Scoped) (hfresh : Fresh inner outer tail f)
    (hstart : f.start.eval env = some 0) (hstop : f.stop.eval env = some b) :
    (splitLoops inner outer factor f.var
      (div (sub (add (sub f.stop f.start) (.imm factor)) (.imm 1)) (.imm factor))
      [.cond (.binary .lt (.var f.var) f.stop) f.body []]).exec step env =
        iterations step env f.var f.body 0 b := by
  have hinner := hfresh.inner_fresh
  have houter := hfresh.outer_fresh
  rw [For.mem_vars, not_or, not_or, not_or] at hinner houter
  have hvars : ∀ u, u ∉ varsAll f.body → u ∉ f.stop.vars → u ≠ f.var →
      u ∉ varsAll [.cond (.binary .lt (.var f.var) f.stop) f.body []] := by
    intro u hbody hstop hvar hin
    simp [varsAll, Stmt.vars, Expr.vars, hbody, hstop, hvar] at hin
  have hbound : f.var ∉ boundAll [.cond (.binary .lt (.var f.var) f.stop) f.body []] := by
    simpa [boundAll, Stmt.bound] using h.var
  have hone : ∀ i : ℤ, execAll step (update env f.var (some i))
      [.cond (.binary .lt (.var f.var) f.stop) f.body []] =
        if i < b then execAll step (update env f.var (some i)) f.body else 1 := by
    intro i
    have hpredicate : (Expr.binary .lt (.var f.var) f.stop).eval
        (update env f.var (some i)) = some (if i < b then 1 else 0) := by
      rw [Expr.eval, Expr.eval, update_self, eval_update h.stop_fresh, hstop]
      rfl
    rw [execAll_singleton, Stmt.exec, hpredicate]
    by_cases hi : i < b
    · simp [hi]
    · simp [hi, Stmt.execAll]
  rw [splitLoops_exec (hvars _ hinner.2.2.2 hinner.2.2.1 hinner.1)
    (hvars _ houter.2.2.2 houter.2.2.1 houter.1) hfresh.distinct hbound
    (eval_count hfactor hstart hstop), Int.sub_zero]
  simp only [hone]
  rcases Int.le_total b 0 with hle | hle
  · rw [tiles, span_of_le (roundUp_nonpos hle (by omega)), iterations_of_le hle]
    rfl
  · obtain ⟨hcount, hcover⟩ := le_roundUp hle (by omega : 0 < factor)
    rw [tiles_eq hcount (by omega), prod_masked hcover, iterations]

/-- The numbers from which and up to which `unroll` counts. -/
theorem unroll_cases (hstart : f.start.eval env = some a) (hstop : f.stop.eval env = some b)
    {new : List Stmt} (hnew : unroll S f = some new) :
    new = [.block (S.block ((span (a.bmod (2 ^ 32)) (b.bmod (2 ^ 32))).flatMap fun current =>
      substAll (replace f.var (.imm current)) f.body))] := by
  rw [unroll, Option.bind_eq_some_iff] at hnew
  obtain ⟨a', ha, hnew⟩ := hnew
  obtain ⟨b', hb, rfl⟩ := Option.map_eq_some_iff.mp hnew
  obtain ⟨start, hconst, rfl⟩ := Option.map_eq_some_iff.mp ha
  obtain ⟨stop, hconst', rfl⟩ := Option.map_eq_some_iff.mp hb
  have ha' := eval_of_intValue hconst env
  have hb' := eval_of_intValue hconst' env
  rw [S.eval_expr hstart, Option.some_inj] at ha'
  rw [S.eval_expr hstop, Option.some_inj] at hb'
  rw [ha', hb']

theorem unrolled_exec (h : f.Scoped) {lo hi : ℤ}
    (hruns : iterations step env f.var f.body lo hi ≠ 0) :
    execAll step env [.block (S.block ((span lo hi).flatMap fun current =>
      substAll (replace f.var (.imm current)) f.body))] =
        iterations step env f.var f.body lo hi := by
  have hcopies : execAll step env ((span lo hi).flatMap fun current =>
      substAll (replace f.var (.imm current)) f.body) = iterations step env f.var f.body lo hi := by
    rw [execAll_flatMap, iterations]
    refine congrArg List.prod (map_congr_left fun i _ => ?_)
    exact execAll_replace ⟨h.var, fun u hu => absurd hu not_mem_nil⟩ env
  rw [execAll_singleton, Stmt.exec, S.exec_block (by rwa [hcopies]), hcopies]

end Splits

end PyTorchCore.LoopNest
