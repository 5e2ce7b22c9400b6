import Mathlib.Tactic.Ring

/-!
# Bounds and their overlap

A bound is a range of indices whose ends are expressions; a list of bounds is a box, with one
bound for each dimension.  The expressions here are those of one integer variable, with exact
arithmetic; simplifying one gives its polynomial, as an immediate where that is a constant.

A failed assertion is `none`.
-/

namespace PyTorchCore.BoundsOverlap

inductive Expr where
  | imm (value : ℤ)
  | var
  | add (lhs rhs : Expr)
  | sub (lhs rhs : Expr)
  | mul (lhs rhs : Expr)

/-- Coefficients, the constant one first. -/
abbrev Poly := List ℤ

namespace Poly

/-- Drop the leading zeros. -/
def normal : Poly → Poly
  | [] => []
  | c :: p =>
    match normal p with
    | [] => if c = 0 then [] else [c]
    | d :: q => c :: d :: q

def add : Poly → Poly → Poly
  | [], q => q
  | p, [] => p
  | c :: p, d :: q => (c + d) :: add p q

def scale (c : ℤ) (p : Poly) : Poly :=
  p.map (c * ·)

def mul : Poly → Poly → Poly
  | [], _ => []
  | c :: p, q => add (scale c q) (0 :: mul p q)

/-- The value at a point. -/
def eval (p : Poly) (v : ℤ) : ℤ :=
  p.foldr (fun c value => c + v * value) 0

end Poly

namespace Expr

def eval (v : ℤ) : Expr → ℤ
  | imm value => value
  | var => v
  | add lhs rhs => lhs.eval v + rhs.eval v
  | sub lhs rhs => lhs.eval v - rhs.eval v
  | mul lhs rhs => lhs.eval v * rhs.eval v

def poly : Expr → Poly
  | imm value => [value]
  | var => [0, 1]
  | add lhs rhs => Poly.add lhs.poly rhs.poly
  | sub lhs rhs => Poly.add lhs.poly (Poly.scale (-1) rhs.poly)
  | mul lhs rhs => Poly.mul lhs.poly rhs.poly

def ofPoly : Poly → Expr
  | [] => imm 0
  | [c] => imm c
  | c :: d :: p => add (imm c) (mul var (ofPoly (d :: p)))

def simplify (e : Expr) : Expr :=
  ofPoly (Poly.normal e.poly)

def isConstant : Expr → Bool
  | imm _ => true
  | _ => false

/-- The value of a constant. -/
def value : Expr → ℤ
  | imm value => value
  | _ => 0

/-- `immediateAs<int>` of a constant: a 64-bit one is cut to 32 bits. -/
def immediate (e : Expr) : ℤ :=
  e.value.bmod (2 ^ 32)

/-- The variable is found by `VarFinder`. -/
def hasVar : Expr → Bool
  | imm _ => false
  | var => true
  | add lhs rhs => lhs.hasVar || rhs.hasVar
  | sub lhs rhs => lhs.hasVar || rhs.hasVar
  | mul lhs rhs => lhs.hasVar || rhs.hasVar

/-- `SubstituteInClone` of an immediate for the variable. -/
def substitute (value : ℤ) : Expr → Expr
  | imm c => imm c
  | var => imm value
  | add lhs rhs => add (lhs.substitute value) (rhs.substitute value)
  | sub lhs rhs => sub (lhs.substitute value) (rhs.substitute value)
  | mul lhs rhs => mul (lhs.substitute value) (rhs.substitute value)

/-- `exprEquals`; `immediateEquals` does not cut the difference. -/
def equals (a b : Expr) : Bool :=
  let diff := simplify (sub a b)
  diff.isConstant && diff.value == 0

end Expr

structure Bound where
  start : Expr
  stop : Expr

abbrev IndexBounds := List Bound

inductive OverlapKind where
  | containedOrEqual
  | contains
  | partialOverlap
  | noOverlap
deriving DecidableEq

def Bound.equals (a b : Bound) : Bool :=
  a.start.equals b.start && a.stop.equals b.stop

def boundOverlap (a b : Bound) : OverlapKind :=
  if a.start.equals b.start && a.stop.equals b.stop then .containedOrEqual
  else
    let lowDiff := Expr.simplify (.sub a.start b.stop)
    let highDiff := Expr.simplify (.sub b.start a.stop)
    if lowDiff.isConstant && highDiff.isConstant &&
        (lowDiff.immediate > 0 || highDiff.immediate > 0) then .noOverlap
    else
      let diff_start := Expr.simplify (.sub b.start a.start)
      let diff_end := Expr.simplify (.sub b.stop a.stop)
      if diff_start.isConstant && diff_end.isConstant then
        if diff_start.immediate ≤ 0 && diff_end.immediate ≥ 0 then .containedOrEqual
        else if diff_start.immediate ≥ 0 && diff_end.immediate ≤ 0 then .contains
        else .partialOverlap
      else .partialOverlap

/-- `flattenBounds`; there is no bound of an empty list. -/
def flattenBounds : IndexBounds → Bound
  | [] => ⟨.imm 0, .imm 0⟩
  | first :: rest =>
    let ret := rest.foldl (fun ret a => ⟨.mul ret.start a.start, .mul ret.stop a.stop⟩) first
    ⟨ret.start.simplify, ret.stop.simplify⟩

/-- The loop of `overlaps` behind the first dimension. -/
def overlapsLoop : OverlapKind → List (Bound × Bound) → OverlapKind
  | overlap, [] => overlap
  | overlap, (a, b) :: rest =>
    let bOverlap := boundOverlap a b
    if bOverlap = .noOverlap then .noOverlap
    else
      let overlap :=
        if overlap = .containedOrEqual && bOverlap = .contains then .contains else overlap
      if overlap = .contains && bOverlap = .containedOrEqual then overlapsLoop overlap rest
      else if bOverlap ≠ overlap then .partialOverlap
      else overlapsLoop overlap rest

def overlaps (a b : IndexBounds) : OverlapKind :=
  if a.isEmpty && b.isEmpty then .containedOrEqual
  else if a.length ≠ b.length then boundOverlap (flattenBounds a) (flattenBounds b)
  else
    match a.zip b with
    | [] => .containedOrEqual
    | (first, first') :: rest => overlapsLoop (boundOverlap first first') rest

/-- The sign of a difference with a variable is guessed from its value at 1. -/
def guessDiff (b a : Expr) : Expr :=
  let diff := Expr.simplify (.sub b a)
  if !diff.isConstant && diff.hasVar then
    Expr.simplify (.sub (b.substitute 1) (a.substitute 1))
  else diff

/-- `subtractBound` of bounds that overlap. -/
def subtractOverlapping (a b : Bound) : List Bound :=
  if a.start.isConstant ≠ b.start.isConstant ∨ a.stop.isConstant ≠ b.stop.isConstant then [a]
  else
    let lowDiff := guessDiff b.start a.start
    let highDiff := guessDiff b.stop a.stop
    let hasHead := lowDiff.isConstant && lowDiff.immediate > 0
    let hasTail := highDiff.isConstant && highDiff.immediate < 0
    if !(lowDiff.isConstant && highDiff.isConstant) then [a]
    else
      (if hasHead then [⟨a.start, Expr.simplify (.sub b.start (.imm 1))⟩] else []) ++
        (if hasTail then [⟨Expr.simplify (.add b.stop (.imm 1)), a.stop⟩] else [])

def subtractBound (a b : Bound) : List Bound :=
  match boundOverlap a b with
  | .noOverlap => [a]
  | .containedOrEqual => []
  | _ => subtractOverlapping a b

/-- The slices of one dimension: the regions, and what remains of the dimension. -/
def sliceDimension (outer : List Bound) (a : Bound) (rest : List Bound) :
    List Bound → Bound → Option (List IndexBounds × Bound)
  | [], remaining => some ([], remaining)
  | slice :: slices, remaining => do
    let remaining ←
      if slice.equals a then some a
      else
        match subtractBound remaining slice with
        | [remaining] => some remaining
        | _ => none
    let (regions, remaining) ← sliceDimension outer a rest slices remaining
    some ((outer ++ slice :: rest) :: regions, remaining)

/-- The loop of `subtractIndicesBounds` from dimension `i` on. -/
def subtractLoop (i : ℕ) (remainingOuterBounds : List Bound) :
    List (Bound × Bound) → Option (List IndexBounds)
  | [] => some []
  | (a, b) :: rest =>
    if remainingOuterBounds.length ≠ i then none
    else do
      let (regions, remaining) ← sliceDimension remainingOuterBounds a (rest.map Prod.fst)
        (subtractBound a b) a
      let more ← subtractLoop (i + 1) (remainingOuterBounds ++ [remaining]) rest
      some (regions ++ more)

def subtractIndicesBounds (A B : IndexBounds) : Option (List IndexBounds) :=
  match overlaps A B with
  | .noOverlap => some [A]
  | .containedOrEqual => some []
  | _ => if A.length ≠ B.length then none else subtractLoop 0 [] (A.zip B)

/-! ## Simplified expressions -/

namespace Poly

theorem eval_cons (c : ℤ) (p : Poly) (v : ℤ) : eval (c :: p) v = c + v * eval p v :=
  rfl

/-- Adding polynomials adds their values. -/
theorem eval_add (p q : Poly) (v : ℤ) : eval (add p q) v = eval p v + eval q v := by
  induction p generalizing q with
  | nil =>
    rw [add]
    exact (Int.zero_add _).symm
  | cons c p ih =>
    cases q with
    | nil =>
      rw [add]
      · exact (Int.add_zero _).symm
      · exact nofun
    | cons d q =>
      rw [add, eval_cons, eval_cons, eval_cons, ih]
      ring

theorem eval_scale (c : ℤ) (p : Poly) (v : ℤ) : eval (scale c p) v = c * eval p v := by
  induction p with
  | nil => exact (Int.mul_zero c).symm
  | cons d p ih =>
    show eval (c * d :: scale c p) v = _
    rw [eval_cons, eval_cons, ih]
    ring

/-- Multiplying polynomials multiplies their values. -/
theorem eval_mul (p q : Poly) (v : ℤ) : eval (mul p q) v = eval p v * eval q v := by
  induction p with
  | nil => exact (Int.zero_mul _).symm
  | cons c p ih =>
    rw [mul, eval_add, eval_scale, eval_cons, eval_cons, ih]
    ring

theorem eval_normal (p : Poly) (v : ℤ) : eval (normal p) v = eval p v := by
  induction p with
  | nil => rfl
  | cons c p ih =>
    rw [normal, eval_cons, ← ih]
    split
    · next hp =>
        rw [hp]
        split
        · next hc => simp [eval, hc]
        · rfl
    · next hp => rw [hp, eval_cons]

end Poly

namespace Expr

theorem eval_poly (e : Expr) (v : ℤ) : Poly.eval e.poly v = e.eval v := by
  induction e with
  | imm value => simp [poly, Poly.eval, eval]
  | var => simp [poly, Poly.eval, eval]
  | add lhs rhs ihl ihr => rw [poly, Poly.eval_add, ihl, ihr, eval]
  | sub lhs rhs ihl ihr =>
    rw [poly, Poly.eval_add, Poly.eval_scale, ihl, ihr, eval]
    ring
  | mul lhs rhs ihl ihr => rw [poly, Poly.eval_mul, ihl, ihr, eval]

theorem eval_ofPoly (p : Poly) (v : ℤ) : (ofPoly p).eval v = Poly.eval p v := by
  induction p with
  | nil => rfl
  | cons c p ih =>
    cases p with
    | nil => simp [ofPoly, Poly.eval, eval]
    | cons d p =>
      show c + v * (ofPoly (d :: p)).eval v = _
      rw [ih]
      rfl

@[simp] theorem eval_simplify (e : Expr) (v : ℤ) : e.simplify.eval v = e.eval v := by
  rw [simplify, eval_ofPoly, Poly.eval_normal, eval_poly]

theorem eval_of_isConstant {e : Expr} (h : e.isConstant = true) (v : ℤ) : e.eval v = e.value := by
  cases e with
  | imm value => rfl
  | _ => cases h

/-- A constant difference is the difference at every value of the variable. -/
theorem eval_sub_of_isConstant {a b : Expr} (h : (simplify (sub a b)).isConstant = true) (v : ℤ) :
    a.eval v - b.eval v = (simplify (sub a b)).value := by
  rw [← eval_of_isConstant h v, eval_simplify, eval]

end Expr

end PyTorchCore.BoundsOverlap
