import PyTorchCore.IrSimplifier.Polynomials

/-!
# Expanding terms and polynomials

`TermExpander` makes products and sums of terms and polynomials again, after taking out a common
divisor, and merges broadcasts and ramps.
-/

namespace PyTorchCore.IrSimplifier

open Lib
open Option List

section Divisor

/-- The loop of `polyGCD`: the divisor so far and the operations that it saves; nothing where the
divisor becomes one. -/
def polyGCDLoop : List Term → ℕ → ℕ → Option (ℕ × ℕ)
  | [], GCD, opsSaved => some (GCD, opsSaved)
  | t :: terms, GCD, opsSaved =>
    let termScalar := t.scalar.natAbs
    let newGCD := Nat.gcd (max GCD termScalar) (min GCD termScalar)
    if newGCD = 1 then none
    else
      let opsSaved := if GCD ≠ newGCD then 0 else opsSaved
      polyGCDLoop terms newGCD (if newGCD = termScalar then opsSaved + 1 else opsSaved)

/-- `polyGCD`; nothing where factorizing saves nothing. -/
def polyGCD (scalar : ℤ) (terms : List Term) : Option ℕ :=
  (polyGCDLoop terms scalar.natAbs 1).bind fun (GCD, opsSaved) =>
    if opsSaved = 0 || GCD = 0 then none else some GCD

def factorizePolynomial (H : Hasher) (scalar : ℤ) (terms : List Term) : Option Term :=
  (polyGCD scalar terms).map fun GCD : ℕ =>
    H.newTerm (GCD : ℤ) [H.newPolynomial (scalar.tdiv (GCD : ℤ))
      (terms.map fun t => H.newTerm (t.scalar.tdiv (GCD : ℤ)) t.vars)]

variable {terms : List Term}

/-- The common divisor divides every coefficient. -/
theorem polyGCDLoop_dvd {GCD opsSaved divisor saved : ℕ}
    (h : polyGCDLoop terms GCD opsSaved = some (divisor, saved)) :
    divisor ∣ GCD ∧ ∀ t ∈ terms, divisor ∣ t.scalar.natAbs := by
  induction terms generalizing GCD opsSaved with
  | nil =>
    obtain ⟨rfl, -⟩ := Prod.mk.inj (Option.some.inj h)
    exact ⟨Nat.dvd_refl _, fun t ht => absurd ht not_mem_nil⟩
  | cons t terms ih =>
    rw [polyGCDLoop] at h
    split_ifs at h with hone
    all_goals
      obtain ⟨hgcd, hterms⟩ := ih h
      have hmax := hgcd.trans (Nat.gcd_dvd_left _ _)
      have hmin := hgcd.trans (Nat.gcd_dvd_right _ _)
      have hboth : divisor ∣ GCD ∧ divisor ∣ t.scalar.natAbs := by
        rcases Nat.le_total GCD t.scalar.natAbs with hle | hle
        · rw [max_eq_right hle] at hmax
          rw [min_eq_left hle] at hmin
          exact ⟨hmin, hmax⟩
        · rw [max_eq_left hle] at hmax
          rw [min_eq_right hle] at hmin
          exact ⟨hmax, hmin⟩
      exact ⟨hboth.1, forall_mem_cons.mpr ⟨hboth.2, hterms⟩⟩

variable {H : Hasher} {env : Env} {lane : ℕ}

theorem quotients_sum {divisor : ℤ} (h : ∀ t ∈ terms, divisor ∣ t.scalar) :
    divisor * evalSum env lane (terms.map fun t => H.newTerm (t.scalar.tdiv divisor) t.vars) =
      evalSum env lane terms := by
  induction terms with
  | nil => simp [evalSum]
  | cons t terms ih =>
    obtain ⟨hhead, htail⟩ := forall_mem_cons.mp h
    rw [map_cons, evalSum, evalSum, mul_add, ih htail, Hasher.newTerm_eval, t.eval_eq,
      ← mul_assoc, Int.mul_tdiv_cancel' hhead]

theorem factorizePolynomial_eval {scalar : ℤ} {term : Term}
    (h : factorizePolynomial H scalar terms = some term) :
    term.eval env lane = evalSum env lane terms + scalar := by
  obtain ⟨divisor, hdivisor, rfl⟩ := map_eq_some_iff.mp h
  obtain ⟨⟨GCD, opsSaved⟩, hloop, hsome⟩ := bind_eq_some_iff.mp hdivisor
  dsimp only at hsome
  split_ifs at hsome
  obtain rfl := Option.some.inj hsome
  obtain ⟨hscalar, hterms⟩ := polyGCDLoop_dvd hloop
  have hdvd : ∀ t ∈ terms, (GCD : ℤ) ∣ t.scalar := fun t ht =>
    Int.natCast_dvd.mpr (hterms t ht)
  rw [wrapped_eval, Hasher.newPolynomial_eval, mul_add, quotients_sum hdvd,
    Int.mul_tdiv_cancel' (Int.natCast_dvd.mpr hscalar)]

end Divisor

section Expand

variable (H : Hasher) (simplified expanded : Expr → Run Expr)

/-- A multiplication is lifted into the term. -/
def factors : Expr → List Expr
  | .binary .mul lhs rhs => [lhs, rhs]
  | node => [node]

def mergeFactors : List Expr → Option Expr → Run (Option Expr)
  | [], lastNode => pure lastNode
  | node :: nodes, none => mergeFactors nodes (some node)
  | node :: nodes, some lastNode => do
    match ← merge .mul lastNode node with
    | some ret => do
      let lastNode ← simplified ret
      mergeFactors nodes (some lastNode)
    | none => Recorded.fail

def mulNodes : List Expr → Option Expr → Option Expr
  | [], lastNode => lastNode
  | node :: nodes, none => mulNodes nodes (some node)
  | node :: nodes, some lastNode => mulNodes nodes (some (.binary .mul lastNode node))

/-- The scalar of a term in front of its factors; null where there is neither. -/
def scaleNode (scalar : ℤ) : Option Expr → Option Expr
  | some lastNode =>
    if scalar = 1 then some lastNode
    else if lastNode.lanes ≠ 1 then
      some (.binary .mul (.broadcast (.imm scalar) lastNode.lanes) lastNode)
    else some (.binary .mul (.imm scalar) lastNode)
  | none => if scalar = 1 then none else some (.imm scalar)

/-- `mutate(TermPtr)`. -/
def expandTerm (t : Term) : Run Expr :=
  if t.scalar = 0 then pure (.imm 0)
  else do
    let nodes ← Recorded.traverse expanded t.vars
    let nodes := nodes.flatMap factors
    let lastNode ← mergeFactors simplified (nodes.filter isMultilanePrimitive) none
    let lastNode := mulNodes (nodes.filter fun node => !isMultilanePrimitive node) lastNode
    Recorded.ofOption (scaleNode t.scalar lastNode)

/-- A term that is a broadcast or a ramp is merged. -/
def mergeNode (lastNode simpleNode : Expr) : Run (Option Expr) :=
  if isMultilanePrimitive simpleNode then merge .add lastNode simpleNode else pure none

def addNodes : List Term → Option Expr → Run (Option Expr)
  | [], lastNode => pure lastNode
  | node :: nodes, none => do
    let simpleNode ← expanded (.term node)
    addNodes nodes (some simpleNode)
  | node :: nodes, some lastNode => do
    let simpleNode ← expanded (.term node)
    match ← mergeNode lastNode simpleNode with
    | some ret => do
      let lastNode ← simplified ret
      addNodes nodes (some lastNode)
    | none => addNodes nodes (some (.binary .add lastNode simpleNode))

/-- The terms that are subtracted, negated back to positive. -/
def subNodes : List Term → Option Expr → Run (Option Expr)
  | [], lastNode => pure lastNode
  | node :: nodes, none => do
    let lastNode ← expanded (.term node)
    subNodes nodes (some lastNode)
  | node :: nodes, some lastNode => do
    let newRHS ← expanded (.term (negate H node))
    subNodes nodes (some (.binary .sub lastNode newRHS))

/-- The scalar of a polynomial behind its terms. -/
def addScalarNode (scalar : ℤ) : Option Expr → Option Expr
  | none => none
  | some lastNode =>
    if scalar < 0 then some (.binary .sub lastNode (.imm (-1 * scalar)))
    else some (.binary .add lastNode (.imm scalar))

/-- `mutate(PolynomialPtr)`.  Without a `Mod` there is no pattern for `simplifyRoundModPattern`. -/
def expandPolynomial (scalar : ℤ) (terms : List Term) : Run Expr :=
  if terms.isEmpty then pure (.imm scalar)
  else
    match factorizePolynomial H scalar terms with
    | some factorized => expanded (.term factorized)
    | none => do
      let vars := H.sortTerms terms
      let lastNode ← addNodes simplified expanded (vars.filter fun node => 0 < node.scalar) none
      let scalarWritten := lastNode.isNone && scalar != 0
      let lastNode := if scalarWritten then some (.imm scalar) else lastNode
      let lastNode ← subNodes H expanded (vars.filter fun node => node.scalar < 0) lastNode
      if scalarWritten || scalar == 0 then pure (lastNode.getD (.imm 0))
      else Recorded.ofOption (addScalarNode scalar lastNode)

end Expand

/-- `TermExpander`. -/
def expand (H : Hasher) : ℕ → Expr → Run Expr
  | 0, _ => Recorded.fail
  | _ + 1, .imm value => pure (.imm value)
  | _ + 1, .var v lanes => pure (.var v lanes)
  | fuel + 1, .broadcast value lanes => do
    let value_new ← Recorded.filter Event.isInsert (expand H fuel value)
    pure (.broadcast value_new lanes)
  | fuel + 1, .ramp base stride lanes => do
    let base_new ← Recorded.filter Event.isInsert (expand H fuel base)
    let stride_new ← Recorded.filter Event.isInsert (expand H fuel stride)
    pure (.ramp base_new stride_new lanes)
  | fuel + 1, .binary op lhs rhs => do
    let lhs_new ← expand H fuel lhs
    let rhs_new ← expand H fuel rhs
    pure (.binary op lhs_new rhs_new)
  | fuel + 1, .term t =>
    expandTerm (fun e => mutate H fuel e >>= expand H fuel) (expand H fuel) t
  | fuel + 1, .polynomial scalar terms =>
    expandPolynomial H (fun e => mutate H fuel e >>= expand H fuel) (expand H fuel) scalar terms

def simplify (H : Hasher) (fuel : ℕ) (e : Expr) : Run Expr := do
  let e ← mutate H fuel e
  expand H fuel e

section Values

variable {H : Hasher} {env : Env} {lane : ℕ} {simplified expanded : Expr → Run Expr}

/-- A product without factors is one. -/
def productEval (env : Env) (lane : ℕ) : Option Expr → ℤ
  | none => 1
  | some e => e.eval env lane

/-- A sum without summands is zero. -/
def sumEval (env : Env) (lane : ℕ) : Option Expr → ℤ
  | none => 0
  | some e => e.eval env lane

theorem factors_prod (nodes : List Expr) :
    evalProd env lane (nodes.flatMap factors) = evalProd env lane nodes := by
  induction nodes with
  | nil => rfl
  | cons node nodes ih =>
    have hnode : evalProd env lane (factors node) = node.eval env lane := by
      rw [factors.eq_def]
      split
      · simp [evalProd, Expr.eval, Op.apply]
      · simp [evalProd]
    rw [flatMap_cons, evalProd_append, ih, hnode, evalProd]

/-- Merging the factors of a term keeps the product. -/
theorem mergeFactors_ensures (hsimplified : AgainKeeps H env lane simplified)
    (nodes : List Expr) (lastNode : Option Expr) :
    Recorded.Ensures (Event.Right H env lane) (mergeFactors simplified nodes lastNode)
      fun result => productEval env lane result =
        productEval env lane lastNode * evalProd env lane nodes := by
  induction nodes generalizing lastNode with
  | nil => exact Recorded.Ensures.pure (mul_one _).symm
  | cons node nodes ih =>
    cases lastNode with
    | none =>
      refine (ih (some node)).mono fun result hresult => ?_
      rw [hresult, productEval, productEval, evalProd, one_mul]
    | some last =>
      refine Recorded.Ensures.bind (merge_ensures .mul last node) fun merged hmerged => ?_
      cases merged with
      | none => exact Recorded.Ensures.fail
      | some ret =>
        refine Recorded.Ensures.bind (hsimplified ret) fun next hnext => ?_
        refine (ih (some next)).mono fun result hresult => ?_
        rw [hresult, productEval, productEval, hnext, hmerged ret rfl, Op.apply, evalProd,
          mul_assoc]

theorem mulNodes_eval (nodes : List Expr) (lastNode : Option Expr) :
    productEval env lane (mulNodes nodes lastNode) =
      productEval env lane lastNode * evalProd env lane nodes := by
  induction nodes generalizing lastNode with
  | nil => exact (mul_one _).symm
  | cons node nodes ih =>
    cases lastNode with
    | none => rw [mulNodes, ih, productEval, productEval, evalProd, one_mul]
    | some last => rw [mulNodes, ih, productEval, productEval, Expr.eval, Op.apply, evalProd,
        mul_assoc]

variable {lastNode : Option Expr}

theorem scaleNode_eval {scalar : ℤ} {e : Expr}
    (h : scaleNode scalar lastNode = some e) :
    e.eval env lane = scalar * productEval env lane lastNode := by
  cases lastNode with
  | none =>
    rw [scaleNode] at h
    split_ifs at h
    cases h
    rw [Expr.eval, productEval, mul_one]
  | some last =>
    rw [scaleNode] at h
    split_ifs at h with hone hlanes
    · cases h
      rw [hone, one_mul, productEval]
    · cases h
      rw [Expr.eval, Op.apply, Expr.eval, Expr.eval, productEval]
    · cases h
      rw [Expr.eval, Op.apply, Expr.eval, productEval]

theorem expandTerm_keeps (hsimplified : AgainKeeps H env lane simplified)
    (hexpanded : AgainKeeps H env lane expanded) (t : Term) :
    Keeps H env lane (expandTerm simplified expanded t) (t.eval env lane) := by
  rw [expandTerm]
  split_ifs with hzero
  · refine Keeps.pure ?_
    rw [Expr.eval, t.eval_eq, hzero, zero_mul]
  · refine Recorded.Ensures.bind (Recorded.Ensures.traverse fun e _ => hexpanded e)
      fun nodes hnodes => ?_
    refine Recorded.Ensures.bind (mergeFactors_ensures hsimplified _ _) fun lastNode hlast => ?_
    refine Recorded.Ensures.ofOption fun e he => ?_
    rw [scaleNode_eval he, mulNodes_eval, hlast, productEval, one_mul, mul_comm (evalProd _ _ _),
      filter_prod, factors_prod, forall₂_prod hnodes, t.eval_eq]

theorem mergeNode_ensures (lastNode simpleNode : Expr) :
    Recorded.Ensures (Event.Right H env lane) (mergeNode lastNode simpleNode) fun result =>
      ∀ ret, result = some ret →
        ret.eval env lane = lastNode.eval env lane + simpleNode.eval env lane := by
  rw [mergeNode]
  split_ifs
  · exact merge_ensures .add lastNode simpleNode
  · exact Recorded.Ensures.pure fun ret hret => absurd hret (some_ne_none ret).symm

/-- Adding the expanded terms one by one keeps the sum. -/
theorem addNodes_ensures (hsimplified : AgainKeeps H env lane simplified)
    (hexpanded : AgainKeeps H env lane expanded) (nodes : List Term) (lastNode : Option Expr) :
    Recorded.Ensures (Event.Right H env lane) (addNodes simplified expanded nodes lastNode)
      fun result => sumEval env lane result =
        sumEval env lane lastNode + evalSum env lane nodes := by
  induction nodes generalizing lastNode with
  | nil => exact Recorded.Ensures.pure (add_zero _).symm
  | cons node nodes ih =>
    cases lastNode with
    | none =>
      refine Recorded.Ensures.bind (hexpanded _) fun simpleNode hsimple => ?_
      refine (ih (some simpleNode)).mono fun result hresult => ?_
      rw [hresult, sumEval, sumEval, hsimple, Expr.eval, evalSum, zero_add]
    | some last =>
      refine Recorded.Ensures.bind (hexpanded _) fun simpleNode hsimple => ?_
      rw [Expr.eval] at hsimple
      refine Recorded.Ensures.bind (mergeNode_ensures last simpleNode) fun merged hmerged => ?_
      cases merged with
      | none =>
        refine (ih (some (.binary .add last simpleNode))).mono fun result hresult => ?_
        rw [hresult, sumEval, sumEval, Expr.eval, Op.apply, hsimple, evalSum, add_assoc]
      | some ret =>
        refine Recorded.Ensures.bind (hsimplified ret) fun next hnext => ?_
        refine (ih (some next)).mono fun result hresult => ?_
        rw [hresult, sumEval, sumEval, hnext, hmerged ret rfl, hsimple, evalSum, add_assoc]

theorem subNodes_ensures (hexpanded : AgainKeeps H env lane expanded) (nodes : List Term)
    (lastNode : Option Expr) :
    Recorded.Ensures (Event.Right H env lane) (subNodes H expanded nodes lastNode)
      fun result => sumEval env lane result =
        sumEval env lane lastNode + evalSum env lane nodes := by
  induction nodes generalizing lastNode with
  | nil => exact Recorded.Ensures.pure (add_zero _).symm
  | cons node nodes ih =>
    cases lastNode with
    | none =>
      refine Recorded.Ensures.bind (hexpanded _) fun last hlast => ?_
      refine (ih (some last)).mono fun result hresult => ?_
      rw [hresult, sumEval, sumEval, hlast, Expr.eval, evalSum, zero_add]
    | some last =>
      refine Recorded.Ensures.bind (hexpanded _) fun newRHS hnew => ?_
      refine (ih (some (.binary .sub last newRHS))).mono fun result hresult => ?_
      rw [hresult, sumEval, sumEval, Expr.eval, Op.apply, hnew, Expr.eval, negate_eval, evalSum,
        sub_neg_eq_add, add_assoc]

theorem signs_sum (terms : List Term) :
    evalSum env lane (terms.filter fun node => 0 < node.scalar) +
      evalSum env lane (terms.filter fun node => node.scalar < 0) = evalSum env lane terms := by
  induction terms with
  | nil => simp [evalSum]
  | cons t terms ih =>
    rw [evalSum, ← ih]
    rcases lt_trichotomy t.scalar 0 with hneg | hzero | hpos
    · simp only [filter_cons, hneg, hneg.not_gt, decide_true, decide_false,
        Bool.false_eq_true, if_true, if_false, evalSum]
      ring
    · simp only [filter_cons, hzero, lt_irrefl, decide_false, Bool.false_eq_true, if_false]
      rw [t.eval_eq, hzero, zero_mul, zero_add]
    · simp only [filter_cons, hpos, hpos.not_gt, decide_true, decide_false,
        Bool.false_eq_true, if_true, if_false, evalSum]
      ring

theorem addScalarNode_eval {scalar : ℤ} {e : Expr}
    (h : addScalarNode scalar lastNode = some e) :
    e.eval env lane = sumEval env lane lastNode + scalar := by
  cases lastNode with
  | none => cases h
  | some last =>
    rw [addScalarNode] at h
    split_ifs at h
    · cases h
      simp [Expr.eval, Op.apply, sumEval]
    · cases h
      simp [Expr.eval, Op.apply, sumEval]

theorem getD_eval (lastNode : Option Expr) :
    (lastNode.getD (.imm 0)).eval env lane = sumEval env lane lastNode := by
  cases lastNode with
  | none => rw [getD_none, Expr.eval, sumEval]
  | some last => rw [getD_some, sumEval]

/-- Expanding a polynomial keeps its value, if the merges are right. -/
theorem expandPolynomial_keeps (hsimplified : AgainKeeps H env lane simplified)
    (hexpanded : AgainKeeps H env lane expanded) (scalar : ℤ) (terms : List Term) :
    Keeps H env lane (expandPolynomial H simplified expanded scalar terms)
      (evalSum env lane terms + scalar) := by
  rw [expandPolynomial]
  split_ifs with hempty
  · refine Keeps.pure ?_
    rw [Expr.eval, isEmpty_iff.mp hempty, evalSum, zero_add]
  · split
    · next factorized hfactorized =>
        refine (hexpanded _).congr ?_
        rw [Expr.eval, factorizePolynomial_eval hfactorized]
    · have hsum := @signs_sum env lane (H.sortTerms terms)
      rw [evalSum_perm (H.sortTerms_perm terms)] at hsum
      refine Recorded.Ensures.bind (addNodes_ensures hsimplified hexpanded _ _)
        fun added hadded => ?_
      rw [sumEval, zero_add] at hadded
      refine Recorded.Ensures.bind (subNodes_ensures hexpanded _ _) fun lastNode hlast => ?_
      by_cases hwritten : (added.isNone && scalar != 0) = true
      · obtain ⟨hnone, hscalar⟩ := Bool.and_eq_true_iff.mp hwritten
        rw [isNone_iff_eq_none.mp hnone, sumEval] at hadded
        rw [if_pos hwritten, sumEval, Expr.eval] at hlast
        rw [hwritten, Bool.true_or, if_pos rfl]
        refine Keeps.pure ?_
        rw [getD_eval, hlast, ← hsum, ← hadded]
        ring
      · rw [if_neg hwritten, hadded] at hlast
        rw [Bool.eq_false_of_not_eq_true hwritten, Bool.false_or]
        split_ifs with hzero
        · refine Keeps.pure ?_
          rw [getD_eval, hlast, hsum, eq_of_beq hzero, add_zero]
        · refine Recorded.Ensures.ofOption fun e he => ?_
          rw [addScalarNode_eval he, hlast, hsum]

/-- `expand` keeps values to any depth. -/
theorem expand_keeps (H : Hasher) (env : Env) (lane fuel : ℕ) :
    AgainKeeps H env lane (expand H fuel) := by
  induction fuel generalizing lane with
  | zero => exact fun e => Recorded.Ensures.fail
  | succ fuel ih =>
    intro e
    have hsimplified : AgainKeeps H env lane fun e => mutate H fuel e >>= expand H fuel :=
      fun e => Recorded.Ensures.bind (mutate_keeps H env lane fuel e) fun e' he' =>
        (ih lane e').congr he'
    cases e with
    | imm value => exact Keeps.pure rfl
    | var v lanes => exact Keeps.pure rfl
    | broadcast value lanes =>
      refine Recorded.Ensures.bind ((ih 0 value).filter right_zero) fun value_new hvalue => ?_
      refine Keeps.pure ?_
      rw [Expr.eval, Expr.eval, hvalue]
    | ramp base stride lanes =>
      refine Recorded.Ensures.bind ((ih 0 base).filter right_zero) fun base_new hbase => ?_
      refine Recorded.Ensures.bind ((ih 0 stride).filter right_zero)
        fun stride_new hstride => ?_
      refine Keeps.pure ?_
      rw [Expr.eval, Expr.eval, hbase, hstride]
    | binary op lhs rhs =>
      refine Recorded.Ensures.bind (ih lane lhs) fun lhs_new hlhs => ?_
      refine Recorded.Ensures.bind (ih lane rhs) fun rhs_new hrhs => ?_
      refine Keeps.pure ?_
      rw [Expr.eval, Expr.eval, hlhs, hrhs]
    | term t =>
      refine (expandTerm_keeps hsimplified (ih lane) t).congr ?_
      rw [Expr.eval]
    | polynomial scalar terms =>
      refine (expandPolynomial_keeps hsimplified (ih lane) scalar terms).congr ?_
      rw [Expr.eval]

theorem simplify_keeps (H : Hasher) (env : Env) (lane fuel : ℕ) :
    AgainKeeps H env lane (simplify H fuel) := fun e =>
  Recorded.Ensures.bind (mutate_keeps H env lane fuel e) fun e' he' =>
    (expand_keeps H env lane fuel e').congr he'

end Values

end PyTorchCore.IrSimplifier
