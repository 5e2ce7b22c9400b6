import PyTorchCore.IrSimplifier.Ir
import Mathlib.Tactic.Linarith
import Mathlib.Tactic.LinearCombination

/-!
# Broadcasts and ramps

`combineMultilane` and `mulMultilane` put one `Broadcast` or `Ramp` in the place of an operation
on two.
-/

namespace PyTorchCore.IrSimplifier

section Definitions

def isMultilanePrimitive : Expr → Bool
  | .broadcast _ _ => true
  | .ramp _ _ _ => true
  | _ => false

/-- `combineMultilane<Add>` and `combineMultilane<Sub>`; nothing where it returns null. -/
def combineMultilane (op : Op) (lhs rhs : Expr) : Except String (Option Expr) :=
  match lhs, rhs with
  | .broadcast bc lanes, .broadcast bcother lanes' =>
    if lanes ≠ lanes' then .error "multilane lane mismatch"
    else .ok (some (.broadcast (.binary op bc bcother) lanes))
  | .broadcast bc lanes, .ramp base stride lanes' =>
    if lanes ≠ lanes' then .error "multilane lane mismatch"
    else .ok (some (.ramp (.binary op bc base) stride lanes'))
  | .ramp base stride lanes, .ramp base' stride' lanes' =>
    if lanes ≠ lanes' then .error "multilane lane mismatch"
    else .ok (some (.ramp (.binary op base base') (.binary op stride stride') lanes))
  | .ramp base stride lanes, .broadcast bc lanes' =>
    if lanes ≠ lanes' then .error "multilane lane mismatch"
    else .ok (some (.ramp (.binary op base bc) stride lanes))
  | _, _ => .ok none

/-- `mulMultilane`; nothing where it returns null. -/
def mulMultilane (lhs rhs : Expr) : Except String (Option Expr) :=
  match lhs, rhs with
  | .broadcast bc lanes, .broadcast bcother lanes' =>
    if lanes ≠ lanes' then .error "multilane lane mismatch"
    else .ok (some (.broadcast (.binary .mul bc bcother) lanes))
  | .broadcast bc lanes, .ramp base stride lanes' =>
    if lanes ≠ lanes' then .error "multilane lane mismatch"
    else .ok (some (.ramp (.binary .mul bc base) (.binary .mul bc stride) lanes'))
  | .ramp base stride lanes, .ramp base' stride' lanes' =>
    if lanes ≠ lanes' then .error "multilane lane mismatch"
    else .ok (some (.ramp (.binary .mul base base') (.binary .mul stride stride') lanes'))
  | .ramp base stride lanes, .broadcast bc lanes' =>
    if lanes ≠ lanes' then .error "multilane lane mismatch"
    else .ok (some (.ramp (.binary .mul bc base) (.binary .mul bc stride) lanes))
  | _, _ => .ok none

/-- What each operation calls. -/
def multilane : Op → Expr → Expr → Except String (Option Expr)
  | .add => combineMultilane .add
  | .sub => combineMultilane .sub
  | .mul => mulMultilane

/-- A ramp that is subtracted from a broadcast does not rise, and the bases and strides of two
ramps that are multiplied cancel out; at lane zero nothing matters. -/
def MergeRight (env : Env) (lane : ℕ) : Op → Expr → Expr → Prop
  | .sub, .broadcast _ _, .ramp _ stride _ => lane = 0 ∨ stride.eval env 0 = 0
  | .mul, .ramp base stride _, .ramp base' stride' _ =>
    lane = 0 ∨ base.eval env 0 * stride'.eval env 0 + base'.eval env 0 * stride.eval env 0 +
      ((lane : ℤ) - 1) * (stride.eval env 0 * stride'.eval env 0) = 0
  | _, _, _ => True

end Definitions

section Right

variable {env : Env} {lane : ℕ}

theorem broadcast_sub_ramp_iff (value base stride : ℤ) (lane : ℕ) :
    value - base + (lane : ℤ) * stride = value - (base + (lane : ℤ) * stride) ↔
      lane = 0 ∨ stride = 0 := by
  rw [← Nat.cast_eq_zero (R := ℤ), ← mul_eq_zero]
  constructor
  · intro h
    linarith
  · intro h
    linarith

theorem ramp_mul_ramp_iff (base stride base' stride' : ℤ) (lane : ℕ) :
    base * base' + (lane : ℤ) * (stride * stride') =
        (base + (lane : ℤ) * stride) * (base' + (lane : ℤ) * stride') ↔
      lane = 0 ∨ base * stride' + base' * stride + ((lane : ℤ) - 1) * (stride * stride') = 0 := by
  rw [← Nat.cast_eq_zero (R := ℤ), ← mul_eq_zero]
  constructor
  · intro h
    linear_combination -h
  · intro h
    linear_combination -h

/-- The stride of a broadcast and a ramp. -/
def mixedStride (op : Op) (value stride : Expr) : Expr :=
  match op with
  | .mul => .binary .mul value stride
  | _ => stride

/-- The base of a ramp and a broadcast. -/
def mixedBase (op : Op) (base value : Expr) : Expr :=
  match op with
  | .mul => .binary .mul value base
  | _ => .binary op base value

/-- A merge that succeeds has equal lanes on both sides. -/
theorem checked_eq {lanes lanes' : ℕ} {e ret : Expr}
    (h : (if lanes ≠ lanes' then .error "multilane lane mismatch" else .ok (some e) :
      Except String (Option Expr)) = .ok (some ret)) : lanes = lanes' ∧ e = ret := by
  split_ifs at h with hlanes
  exact ⟨Decidable.not_not.mp hlanes, Option.some.inj (Except.ok.inj h)⟩

variable {lhs rhs ret : Expr}

theorem multilane_cases {op : Op} (h : multilane op lhs rhs = .ok (some ret)) :
    (∃ value value' lanes, lhs = .broadcast value lanes ∧ rhs = .broadcast value' lanes ∧
      ret = .broadcast (.binary op value value') lanes) ∨
    (∃ value base stride lanes, lhs = .broadcast value lanes ∧ rhs = .ramp base stride lanes ∧
      ret = .ramp (.binary op value base) (mixedStride op value stride) lanes) ∨
    (∃ base stride base' stride' lanes, lhs = .ramp base stride lanes ∧
      rhs = .ramp base' stride' lanes ∧
      ret = .ramp (.binary op base base') (.binary op stride stride') lanes) ∨
    (∃ base stride value lanes, lhs = .ramp base stride lanes ∧ rhs = .broadcast value lanes ∧
      ret = .ramp (mixedBase op base value) (mixedStride op value stride) lanes) := by
  cases lhs with
  | broadcast value lanes =>
    cases rhs with
    | broadcast value' lanes' =>
      have hret : lanes = lanes' ∧ .broadcast (.binary op value value') lanes = ret := by
        cases op <;> exact checked_eq h
      obtain ⟨rfl, rfl⟩ := hret
      exact .inl ⟨value, value', lanes, rfl, rfl, rfl⟩
    | ramp base stride lanes' =>
      have hret : lanes = lanes' ∧
          .ramp (.binary op value base) (mixedStride op value stride) lanes' = ret := by
        cases op <;> exact checked_eq h
      obtain ⟨rfl, rfl⟩ := hret
      exact .inr (.inl ⟨value, base, stride, lanes, rfl, rfl, rfl⟩)
    | _ => cases op <;> simp [multilane, combineMultilane, mulMultilane] at h
  | ramp base stride lanes =>
    cases rhs with
    | broadcast value lanes' =>
      have hret : lanes = lanes' ∧
          .ramp (mixedBase op base value) (mixedStride op value stride) lanes = ret := by
        cases op <;> exact checked_eq h
      obtain ⟨rfl, rfl⟩ := hret
      exact .inr (.inr (.inr ⟨base, stride, value, lanes, rfl, rfl, rfl⟩))
    | ramp base' stride' lanes' =>
      have hret : lanes = lanes' ∧
          .ramp (.binary op base base') (.binary op stride stride') lanes = ret := by
        cases op with
        | add => exact checked_eq h
        | sub => exact checked_eq h
        | mul =>
          obtain ⟨rfl, hret⟩ := checked_eq h
          exact ⟨rfl, hret⟩
      obtain ⟨rfl, rfl⟩ := hret
      exact .inr (.inr (.inl ⟨base, stride, base', stride', lanes, rfl, rfl, rfl⟩))
    | _ => cases op <;> simp [multilane, combineMultilane, mulMultilane] at h
  | _ => cases op <;> simp [multilane, combineMultilane, mulMultilane] at h

/-- The result of an operation on broadcasts and ramps is right at a lane exactly where the merge
is. -/
theorem multilane_iff {op : Op} (h : multilane op lhs rhs = .ok (some ret)) :
    ret.eval env lane = op.apply (lhs.eval env lane) (rhs.eval env lane) ↔
      MergeRight env lane op lhs rhs := by
  rcases multilane_cases h with ⟨value, value', lanes, rfl, rfl, rfl⟩ |
    ⟨value, base, stride, lanes, rfl, rfl, rfl⟩ |
    ⟨base, stride, base', stride', lanes, rfl, rfl, rfl⟩ |
    ⟨base, stride, value, lanes, rfl, rfl, rfl⟩
  · simp [Expr.eval, MergeRight]
  · cases op with
    | add =>
      simp only [Expr.eval, mixedStride, MergeRight, Op.apply, iff_true]
      ring
    | sub =>
      exact broadcast_sub_ramp_iff _ _ _ _
    | mul =>
      simp only [Expr.eval, mixedStride, MergeRight, Op.apply, iff_true]
      ring
  · cases op with
    | add =>
      simp only [Expr.eval, MergeRight, Op.apply, iff_true]
      ring
    | sub =>
      simp only [Expr.eval, MergeRight, Op.apply, iff_true]
      ring
    | mul =>
      exact ramp_mul_ramp_iff _ _ _ _ _
  · cases op with
    | add =>
      simp only [Expr.eval, mixedBase, mixedStride, MergeRight, Op.apply, iff_true]
      ring
    | sub =>
      simp only [Expr.eval, mixedBase, mixedStride, MergeRight, Op.apply, iff_true]
      ring
    | mul =>
      simp only [Expr.eval, mixedBase, mixedStride, MergeRight, Op.apply, iff_true]
      ring

theorem mergeRight_zero (op : Op) (lhs rhs : Expr) : MergeRight env 0 op lhs rhs := by
  cases op <;> cases lhs <;> cases rhs <;> simp [MergeRight]

end Right

end PyTorchCore.IrSimplifier
