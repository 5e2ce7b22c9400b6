import PyTorchCore.IrSimplifier.Expander

/-!
# What happens to the lanes

A broadcast and a ramp that are added, subtracted or multiplied become one broadcast or ramp,
which has the value of the operation at a lane exactly if the merge is right there.
-/

namespace PyTorchCore.IrSimplifier

/-- At each lane the merges are right exactly under their condition, and simplifying keeps the
value where the merges are right. -/
theorem lanes_iff (env : Env) (lane : ℕ) :
    (∀ (op : Op) (lhs rhs ret : Expr), multilane op lhs rhs = .ok (some ret) →
      (ret.eval env lane = op.apply (lhs.eval env lane) (rhs.eval env lane) ↔
        MergeRight env lane op lhs rhs)) ∧
    ∀ (H : Hasher) (fuel : ℕ) (e e' : Expr) (events : List Event),
      simplify H fuel e = some (e', events) → (∀ event ∈ events, event.Right H env lane) →
        e'.eval env lane = e.eval env lane :=
  ⟨fun _ _ _ _ h => multilane_iff h, fun H fuel e e' events =>
    simplify_keeps H env lane fuel e e' events⟩

/-- Four times the number three. -/
def threes : Expr :=
  .broadcast (.imm 3) 4

/-- The numbers from zero to three. -/
def counting : Expr :=
  .ramp (.imm 0) (.imm 1) 4

/-- Three minus the numbers from zero to three is three plus these numbers, also after
simplification. -/
theorem lanes_wrong : (∃ ret, multilane .sub threes counting = .ok (some ret) ∧
      ret.eval (fun _ _ => 0) 2 = 5 ∧
      Op.apply (threes.eval (fun _ _ => 0) 2) (counting.eval (fun _ _ => 0) 2) .sub = 1) ∧
    ∃ e' events, simplify Hasher.encoding 4 (.binary .sub threes counting) = some (e', events) ∧
      e'.eval (fun _ _ => 0) 2 = 5 ∧
      (Expr.binary .sub threes counting).eval (fun _ _ => 0) 2 = 1 := by
  refine ⟨⟨_, rfl, ?_, ?_⟩, ⟨_, _, rfl, ?_, ?_⟩⟩
  · simp [Expr.eval, Op.apply]
  · simp [threes, counting, Expr.eval, Op.apply]
  · simp [Expr.eval, Op.apply]
  · simp [threes, counting, Expr.eval, Op.apply]

/-- Three plus the numbers from zero to three. -/
theorem lanes_ramp : (∃ ret, multilane .add threes counting = .ok (some ret) ∧
      (ret.eval (fun _ _ => 0) 2 =
          Op.apply (threes.eval (fun _ _ => 0) 2) (counting.eval (fun _ _ => 0) 2) .add ↔
        MergeRight (fun _ _ => 0) 2 .add threes counting)) ∧
    ∃ e' events, simplify Hasher.encoding 4 (.binary .add threes counting) = some (e', events) ∧
      e'.eval (fun _ _ => 0) 2 = (Expr.binary .add threes counting).eval (fun _ _ => 0) 2 := by
  obtain ⟨hmerge, hsimplify⟩ := lanes_iff (fun _ _ => 0) 2
  refine ⟨⟨_, rfl, hmerge .add threes counting _ rfl⟩, ⟨_, _, rfl, ?_⟩⟩
  refine hsimplify Hasher.encoding 4 (.binary .add threes counting) _ _ rfl fun event hin => ?_
  obtain rfl := List.mem_singleton.mp hin
  exact trivial

end PyTorchCore.IrSimplifier
