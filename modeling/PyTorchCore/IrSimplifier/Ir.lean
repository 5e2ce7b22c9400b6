import Mathlib.Algebra.BigOperators.Group.List.Basic
import Mathlib.Tactic.Ring

/-!
# Expressions with lanes

The integer expressions of `ir_simplifier.cpp` over `Add`, `Sub` and `Mul`: immediates, variables,
`Broadcast`s and `Ramp`s, and the `Term`s and `Polynomial`s into which the simplifier groups them.
An expression has a value at each lane; a scalar has the one lane zero.

`HashProvider` and the order by printed form are parameters.
-/

namespace PyTorchCore.IrSimplifier

open List

inductive Op where
  | add
  | sub
  | mul
  deriving DecidableEq

def Op.apply (x y : ℤ) : Op → ℤ
  | .add => x + y
  | .sub => x - y
  | .mul => x * y

mutual

inductive Expr : Type where
  | imm (value : ℤ)
  | var (v lanes : ℕ)
  | broadcast (value : Expr) (lanes : ℕ)
  | ramp (base stride : Expr) (lanes : ℕ)
  | binary (op : Op) (lhs rhs : Expr)
  | term (t : Term)
  | polynomial (scalar : ℤ) (vars : List Term)

/-- A scalar by the product of its variables. -/
inductive Term : Type where
  | mk (scalar : ℤ) (vars : List Expr)

end

namespace Term

def scalar : Term → ℤ
  | mk scalar _ => scalar

def vars : Term → List Expr
  | mk _ vars => vars

end Term

section Values

/-- The values of the variables at the lanes. -/
abbrev Env := ℕ → ℕ → ℤ

variable (env : Env)

mutual

def Expr.eval (lane : ℕ) : Expr → ℤ
  | .imm value => value
  | .var v _ => env v lane
  | .broadcast value _ => value.eval 0
  | .ramp base stride _ => base.eval 0 + lane * stride.eval 0
  | .binary op lhs rhs => op.apply (lhs.eval lane) (rhs.eval lane)
  | .term t => t.eval lane
  | .polynomial scalar vars => evalSum lane vars + scalar

def Term.eval (lane : ℕ) : Term → ℤ
  | .mk scalar vars => scalar * evalProd lane vars

def evalProd (lane : ℕ) : List Expr → ℤ
  | [] => 1
  | e :: es => e.eval lane * evalProd lane es

def evalSum (lane : ℕ) : List Term → ℤ
  | [] => 0
  | t :: ts => t.eval lane + evalSum lane ts

end

variable {env} {lane : ℕ}

theorem evalProd_eq (es : List Expr) :
    evalProd env lane es = (es.map (Expr.eval env lane)).prod := by
  induction es with
  | nil => simp [evalProd]
  | cons e es ih => simp [evalProd, ih]

theorem evalSum_eq (ts : List Term) : evalSum env lane ts = (ts.map (Term.eval env lane)).sum := by
  induction ts with
  | nil => simp [evalSum]
  | cons t ts ih => simp [evalSum, ih]

/-- The product over an appended list. -/
theorem evalProd_append (es fs : List Expr) :
    evalProd env lane (es ++ fs) = evalProd env lane es * evalProd env lane fs := by
  simp [evalProd_eq]

theorem evalSum_append (ts us : List Term) :
    evalSum env lane (ts ++ us) = evalSum env lane ts + evalSum env lane us := by
  simp [evalSum_eq]

theorem evalProd_perm {es fs : List Expr} (h : es.Perm fs) :
    evalProd env lane es = evalProd env lane fs := by
  rw [evalProd_eq, evalProd_eq]
  exact (h.map _).prod_eq

theorem evalSum_perm {ts us : List Term} (h : ts.Perm us) :
    evalSum env lane ts = evalSum env lane us := by
  rw [evalSum_eq, evalSum_eq]
  exact (h.map _).sum_eq

/-- A term is its coefficient times its variables. -/
theorem Term.eval_eq (t : Term) : t.eval env lane = t.scalar * evalProd env lane t.vars := by
  cases t with
  | mk scalar vars => rw [Term.eval, Term.scalar, Term.vars]

end Values

/-- `HashProvider`, and the order by printed form.  Different variables have different hashes. -/
structure Hasher where
  Hash : Type
  decEq : DecidableEq Hash
  hashVars : List Expr → Hash
  sortVars : List Expr → List Expr
  sortTerms : List Term → List Term
  hashVars_eq : ∀ {vs ws}, hashVars vs = hashVars ws →
    ∀ env lane, evalProd env lane vs = evalProd env lane ws
  sortVars_perm : ∀ vs, (sortVars vs).Perm vs
  sortTerms_perm : ∀ ts, (sortTerms ts).Perm ts

namespace Hasher

variable (H : Hasher)

instance : DecidableEq H.Hash :=
  H.decEq

/-- The constructor of `Term`, which sorts the variables. -/
def newTerm (scalar : ℤ) (vars : List Expr) : Term :=
  .mk scalar (H.sortVars vars)

/-- The constructor of `Polynomial`, which sorts the terms. -/
def newPolynomial (scalar : ℤ) (vars : List Term) : Expr :=
  .polynomial scalar (H.sortTerms vars)

variable {H} {env : Env} {lane : ℕ} {scalar : ℤ}

/-- `newTerm` keeps the product. -/
@[simp]
theorem newTerm_eval (vars : List Expr) :
    (H.newTerm scalar vars).eval env lane = scalar * evalProd env lane vars := by
  rw [newTerm, Term.eval, evalProd_perm (H.sortVars_perm vars)]

/-- `newPolynomial` keeps the sum. -/
@[simp]
theorem newPolynomial_eval (vars : List Term) :
    (H.newPolynomial scalar vars).eval env lane = evalSum env lane vars + scalar := by
  rw [newPolynomial, Expr.eval, evalSum_perm (H.sortTerms_perm vars)]

end Hasher

section Lanes

mutual

/-- `dtype().lanes()`. -/
def Expr.lanes : Expr → ℕ
  | .imm _ => 1
  | .var _ lanes => lanes
  | .broadcast _ lanes => lanes
  | .ramp _ _ lanes => lanes
  | .binary _ lhs _ => lhs.lanes
  | .term t => t.lanes
  | .polynomial _ vars => termsLanes vars

def Term.lanes : Term → ℕ
  | .mk _ vars => varsLanes vars

def varsLanes : List Expr → ℕ
  | [] => 1
  | e :: _ => e.lanes

def termsLanes : List Term → ℕ
  | [] => 1
  | t :: _ => t.lanes

end

end Lanes

section Encoding

def Op.encode : Op → ℤ
  | .add => 0
  | .sub => 1
  | .mul => 2

mutual

def Expr.encode : Expr → List ℤ
  | .imm value => [0, value]
  | .var v lanes => [1, v, lanes]
  | .broadcast value lanes => 2 :: lanes :: value.encode
  | .ramp base stride lanes => 3 :: lanes :: (base.encode ++ stride.encode)
  | .binary op lhs rhs => 4 :: op.encode :: (lhs.encode ++ rhs.encode)
  | .term t => 5 :: t.encode
  | .polynomial scalar vars => 6 :: scalar :: encodeTerms vars

def Term.encode : Term → List ℤ
  | .mk scalar vars => scalar :: encodeAll vars

def encodeAll : List Expr → List ℤ
  | [] => [0]
  | e :: es => 1 :: (e.encode ++ encodeAll es)

def encodeTerms : List Term → List ℤ
  | [] => [0]
  | t :: ts => 1 :: (t.encode ++ encodeTerms ts)

end

theorem Op.encode_inj {op op' : Op} (h : op.encode = op'.encode) : op = op' := by
  cases op <;> cases op' <;> first | rfl | cases h

mutual

theorem Expr.encode_inj : (e e' : Expr) → {r r' : List ℤ} →
    e.encode ++ r = e'.encode ++ r' → e = e' ∧ r = r'
  | .imm value, e', r, r', h => by
    cases e' <;> simp_all [Expr.encode]
  | .var v lanes, e', r, r', h => by
    cases e' <;> simp_all [Expr.encode]
  | .broadcast value lanes, e', r, r', h => by
    cases e' with
    | broadcast value' lanes' =>
      simp only [Expr.encode, cons_append, List.cons.injEq, true_and, Nat.cast_inj] at h
      obtain ⟨rfl, rfl⟩ := Expr.encode_inj value value' h.2
      exact ⟨by rw [h.1], rfl⟩
    | _ => simp [Expr.encode] at h
  | .ramp base stride lanes, e', r, r', h => by
    cases e' with
    | ramp base' stride' lanes' =>
      simp only [Expr.encode, cons_append, List.cons.injEq, true_and, Nat.cast_inj,
        append_assoc] at h
      obtain ⟨rfl, hrest⟩ := Expr.encode_inj base base' h.2
      obtain ⟨rfl, rfl⟩ := Expr.encode_inj stride stride' hrest
      exact ⟨by rw [h.1], rfl⟩
    | _ => simp [Expr.encode] at h
  | .binary op lhs rhs, e', r, r', h => by
    cases e' with
    | binary op' lhs' rhs' =>
      simp only [Expr.encode, cons_append, List.cons.injEq, true_and, append_assoc] at h
      obtain ⟨rfl, hrest⟩ := Expr.encode_inj lhs lhs' h.2
      obtain ⟨rfl, rfl⟩ := Expr.encode_inj rhs rhs' hrest
      exact ⟨by rw [Op.encode_inj h.1], rfl⟩
    | _ => simp [Expr.encode] at h
  | .term t, e', r, r', h => by
    cases e' with
    | term t' =>
      simp only [Expr.encode, cons_append, List.cons.injEq, true_and] at h
      obtain ⟨rfl, rfl⟩ := Term.encode_inj t t' h
      exact ⟨rfl, rfl⟩
    | _ => simp [Expr.encode] at h
  | .polynomial scalar vars, e', r, r', h => by
    cases e' with
    | polynomial scalar' vars' =>
      simp only [Expr.encode, cons_append, List.cons.injEq, true_and] at h
      obtain ⟨rfl, rfl⟩ := encodeTerms_inj vars vars' h.2
      exact ⟨by rw [h.1], rfl⟩
    | _ => simp [Expr.encode] at h

theorem Term.encode_inj : (t t' : Term) → {r r' : List ℤ} →
    t.encode ++ r = t'.encode ++ r' → t = t' ∧ r = r'
  | .mk scalar vars, .mk scalar' vars', r, r', h => by
    simp only [Term.encode, cons_append, List.cons.injEq] at h
    obtain ⟨rfl, rfl⟩ := encodeAll_inj vars vars' h.2
    exact ⟨by rw [h.1], rfl⟩

theorem encodeAll_inj : (es es' : List Expr) → {r r' : List ℤ} →
    encodeAll es ++ r = encodeAll es' ++ r' → es = es' ∧ r = r'
  | [], [], r, r', h => by simpa [encodeAll] using h
  | [], _ :: _, r, r', h => by simp [encodeAll] at h
  | _ :: _, [], r, r', h => by simp [encodeAll] at h
  | e :: es, e' :: es', r, r', h => by
    simp only [encodeAll, cons_append, List.cons.injEq, true_and, append_assoc] at h
    obtain ⟨rfl, hrest⟩ := Expr.encode_inj e e' h
    obtain ⟨rfl, rfl⟩ := encodeAll_inj es es' hrest
    exact ⟨rfl, rfl⟩

theorem encodeTerms_inj : (ts ts' : List Term) → {r r' : List ℤ} →
    encodeTerms ts ++ r = encodeTerms ts' ++ r' → ts = ts' ∧ r = r'
  | [], [], r, r', h => by simpa [encodeTerms] using h
  | [], _ :: _, r, r', h => by simp [encodeTerms] at h
  | _ :: _, [], r, r', h => by simp [encodeTerms] at h
  | t :: ts, t' :: ts', r, r', h => by
    simp only [encodeTerms, cons_append, List.cons.injEq, true_and, append_assoc] at h
    obtain ⟨rfl, hrest⟩ := Term.encode_inj t t' h
    obtain ⟨rfl, rfl⟩ := encodeTerms_inj ts ts' hrest
    exact ⟨rfl, rfl⟩

end

/-- A hash without collisions, and no order. -/
def Hasher.encoding : Hasher where
  Hash := List ℤ
  decEq := inferInstance
  hashVars := encodeAll
  sortVars vs := vs
  sortTerms ts := ts
  hashVars_eq h env lane := by
    rw [(encodeAll_inj _ _ (congrArg (· ++ []) h)).1]
  sortVars_perm _ := List.Perm.refl _
  sortTerms_perm _ := List.Perm.refl _

end Encoding

end PyTorchCore.IrSimplifier
