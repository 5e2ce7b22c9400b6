import Mathlib.Data.List.Intervals
import Mathlib.Tactic.Linarith

/-!
# Slices of lists

`slice_indices_adjust` clamps the bounds of a slice to a list and counts the elements; `INT64_MAX`
stands for a bound that is `None`.  The peephole pass uses it to replace a slice of a
`prim::ListConstruct` by another `prim::ListConstruct`.  The bounds are `int64_t`, and a result
that does not fit is an overflow; the index of the loop in `optimizeSlice` is a `size_t`, which
wraps around.
-/

namespace PyTorchCore.Jit
namespace ListSlice

open List

def int64Min : Int := -2 ^ 63
def int64Max : Int := 2 ^ 63 - 1

inductive Failure
  | raised (message : String)
  | overflow

/-- The result of an operation on `int64_t`. -/
def checked (x : Int) : Except Failure Int :=
  if int64Min ≤ x ∧ x ≤ int64Max then .ok x else .error .overflow

/-- A bound in `PySlice_AdjustIndices`. -/
def adjust (length step bound : Int) : Except Failure Int :=
  if bound < 0 then do
    let bound ← checked (bound + length)
    return if bound < 0 then (if step < 0 then -1 else 0) else bound
  else if bound ≥ length then
    if step < 0 then checked (length - 1) else return length
  else return bound

/-- The count of the elements from `first` on that come before `last`, at the distance `step`. -/
def count (first last step : Int) : Except Failure Int := do
  let distance ← checked (last - first)
  let distance ← checked (distance - 1)
  checked (distance.tdiv step + 1)

/-- `start` after `PySlice_Unpack`. -/
def unpackStart (step start : Int) : Int :=
  if start = int64Max then (if step < 0 then int64Max else 0) else start

/-- `stop` after `PySlice_Unpack`. -/
def unpackStop (step stop : Int) : Int :=
  if stop = int64Max then (if step < 0 then int64Min else int64Max) else stop

/-- The count, and the adjusted `start`. -/
def sliceIndicesAdjust (length start stop step : Int) : Except Failure (Int × Int) :=
  if step = 0 then .error (.raised "List slice should have non-zero step")
  else if ¬ step ≥ -int64Max then .error (.raised "List slice step is out of bounds")
  else do
    let start ← adjust length step (unpackStart step start)
    let stop ← adjust length step (unpackStop step stop)
    if step < 0 then
      if stop < start then return (← count stop start (← checked (-step)), start)
      else return (0, start)
    else
      if start < stop then return (← count start stop step, start)
      else return (0, start)

/-- The indices that the callers visit. -/
def indices (step : Int) (r : Int × Int) : List Int :=
  (List.range r.1.toNat).map fun k : Nat => r.2 + k * step

section Peephole

variable {V : Type}

/-- A value as a `size_t`. -/
def sizeT (x : Int) : Nat :=
  (x % 2 ^ 64).toNat

def input (inputs : List V) (i : Nat) : Except Failure V :=
  match inputs[i]? with
  | some v => .ok v
  | none => .error (.raised "vector::_M_range_check")

/-- The loop of `optimizeSlice`. -/
def addInputs (inputs : List V) (step : Int) : Nat → Nat → Except Failure (List V)
  | 0, _ => .ok []
  | k + 1, i => do
    let v ← input inputs i
    return v :: (← addInputs inputs step k (sizeT (i + step)))

/-- The inputs of the new `prim::ListConstruct`.  A constant that is no integer is `none`. -/
def optimizeSlice (inputs : List V) (startVal endVal stepVal : Option Int) :
    Except Failure (List V) := do
  let step := stepVal.getD 1
  let r ← sliceIndicesAdjust inputs.length (startVal.getD int64Max) (endVal.getD int64Max) step
  addInputs inputs step (sizeT r.1) (sizeT r.2)

end Peephole

/-! ### Python -/

/-- A bound that is given, counted from the end if it is negative, and clamped to the list. -/
def clamp (length step bound : Int) : Int :=
  let bound := if bound < 0 then bound + length else bound
  if step < 0 then max (-1) (min bound (length - 1)) else max 0 (min bound length)

def pyStart (length step : Int) : Option Int → Int
  | none => if step < 0 then length - 1 else 0
  | some start => clamp length step start

def pyStop (length step : Int) : Option Int → Int
  | none => if step < 0 then -1 else length
  | some stop => clamp length step stop

/-- An index comes before the end of the slice. -/
def before (step stop index : Int) : Bool :=
  if step < 0 then stop < index else index < stop

/-- The indices `first`, `first + step`, ... in front of `last`. -/
def places (length first last step : Int) : List Int :=
  ((List.range length.toNat).map fun k : Nat => first + k * step).filter (before step last)

/-- The elements of `range(length)[start:stop:step]`. -/
def pySlice (length : Int) (start stop : Option Int) (step : Int) : List Int :=
  places length (pyStart length step start) (pyStop length step stop) step

/-- Nothing overflows, the indices are those of Python and lie in the list, and the pass puts the
elements at these indices. -/
def SliceAgrees (V : Type) (length : Int) (start stop : Option Int) (step : Int) : Prop :=
  (∃ r, sliceIndicesAdjust length (start.getD int64Max) (stop.getD int64Max) step = .ok r ∧
    indices step r = pySlice length start stop step) ∧
  (∀ i ∈ pySlice length start stop step, 0 ≤ i ∧ i < length) ∧
  ∀ (inputs : List V) (stepVal : Option Int), (inputs.length : Int) = length →
    stepVal.getD 1 = step →
    ∃ vs, optimizeSlice inputs start stop stepVal = .ok vs ∧
      vs.map some = (pySlice length start stop step).map fun i => inputs[i.toNat]?

/-- `INT64_MAX` is given, is taken for `None`, and with `None` the slice is not empty. -/
def Misread (length : Int) (start stop : Option Int) (step : Int) : Prop :=
  0 < length ∧
    (0 < step ∧ start = some int64Max ∧ (∀ b ∈ stop, 0 < b ∨ b < 0 ∧ -length < b) ∨
      step < 0 ∧ stop = some int64Max ∧ ∀ b ∈ start, -length ≤ b)

section Bounds

variable {length step : Int}

/-- A number in range stays. -/
theorem checked_eq {x : Int} (h : int64Min ≤ x) (h' : x ≤ int64Max) : checked x = .ok x :=
  if_pos ⟨h, h'⟩

theorem adjust_eq {bound : Int} (hlength : 0 ≤ length) (hmax : length < int64Max)
    (hbound : int64Min ≤ bound) : adjust length step bound = .ok (clamp length step bound) := by
  have hmin : int64Min = -2 ^ 63 := rfl
  unfold adjust clamp
  split
  · rw [checked_eq (by omega) (by omega)]
    refine congrArg Except.ok ?_
    dsimp only
    split_ifs <;> omega
  · dsimp only
    split_ifs
    · rw [checked_eq (by omega) (by omega)]
      exact congrArg Except.ok (by omega)
    all_goals exact congrArg Except.ok (by omega)

def Clamped (length step bound : Int) : Prop :=
  if step < 0 then -1 ≤ bound ∧ bound ≤ length - 1 else 0 ≤ bound ∧ bound ≤ length

theorem clamped_clamp (step : Int) (hlength : 0 ≤ length) (bound : Int) :
    Clamped length step (clamp length step bound) := by
  unfold Clamped clamp
  split <;> dsimp only <;> omega

theorem clamped_pyStart (step : Int) (hlength : 0 ≤ length) (start : Option Int) :
    Clamped length step (pyStart length step start) := by
  cases start with
  | none =>
    simp only [Clamped, pyStart]
    split <;> omega
  | some start => exact clamped_clamp step hlength start

theorem clamped_pyStop (step : Int) (hlength : 0 ≤ length) (stop : Option Int) :
    Clamped length step (pyStop length step stop) := by
  cases stop with
  | none =>
    simp only [Clamped, pyStop]
    split <;> omega
  | some stop => exact clamped_clamp step hlength stop

/-- The number of elements between two bounds that are `last - first` apart. -/
def steps (first last step : Int) : Int :=
  if first < last then (last - first - 1) / step + 1 else 0

variable {first last : Int}

/-- The count of a slice is the number of its steps. -/
theorem count_eq (hstep : 0 < step) (hlt : first < last)
    (hrange : last - first ≤ int64Max) : count first last step = .ok (steps first last step) := by
  have hmin : int64Min = -2 ^ 63 := rfl
  have hquot : 0 ≤ (last - first - 1) / step := Int.ediv_nonneg (by omega) hstep.le
  have hle : (last - first - 1) / step ≤ last - first - 1 := Int.ediv_le_self _ (by omega)
  unfold count
  rw [checked_eq (by omega) hrange]
  simp only [bind, Except.bind]
  rw [checked_eq (by omega) (by omega)]
  dsimp only
  rw [Int.tdiv_eq_ediv_of_nonneg (by omega), checked_eq (by omega) (by omega), steps, if_pos hlt]

theorem lt_steps_iff (first last : Int) (hstep : 0 < step) {k : Int} (hk : 0 ≤ k) :
    k < steps first last step ↔ first + k * step < last := by
  unfold steps
  split
  · have hdiv := Int.le_ediv_iff_mul_le (a := k) (b := last - first - 1) hstep
    omega
  · have : 0 ≤ k * step := Int.mul_nonneg hk hstep.le
    omega

/-- The count that the code returns. -/
def stepCount (first last step : Int) : Int :=
  if step < 0 then steps last first (-step) else steps first last step

theorem steps_le (first last : Int) (hstep : 0 < step) :
    0 ≤ steps first last step ∧ steps first last step ≤ max 0 (last - first) := by
  unfold steps
  split
  · have hquot : 0 ≤ (last - first - 1) / step := Int.ediv_nonneg (by omega) hstep.le
    have hle := Int.ediv_le_self (a := last - first - 1) step (by omega)
    omega
  · omega

theorem stepCount_le (hstep : step ≠ 0) (hfirst : Clamped length step first)
    (hlast : Clamped length step last) :
    0 ≤ stepCount first last step ∧ stepCount first last step ≤ length := by
  unfold stepCount
  unfold Clamped at hfirst hlast
  split
  · rename_i hneg
    rw [if_pos hneg] at hfirst hlast
    have := steps_le last first (show 0 < -step by omega)
    omega
  · rename_i hneg
    rw [if_neg hneg] at hfirst hlast
    have := steps_le first last (show 0 < step by omega)
    omega

theorem lt_stepCount_iff (first last : Int) (hstep : step ≠ 0) {k : Int} (hk : 0 ≤ k) :
    k < stepCount first last step ↔ before step last (first + k * step) = true := by
  unfold stepCount before
  split
  · have := lt_steps_iff last first (show 0 < -step by omega) hk
    rw [decide_eq_true_iff]
    rw [Int.mul_neg] at this
    omega
  · rw [decide_eq_true_iff]
    exact lt_steps_iff first last (by omega) hk

section

variable (hfirst : Clamped length step first) (hlast : Clamped length step last)
include hfirst hlast

theorem places_eq (hstep : step ≠ 0) (hlength : 0 ≤ length) :
    places length first last step = indices step (stepCount first last step, first) := by
  obtain ⟨hnonneg, hle⟩ := stepCount_le hstep hfirst hlast
  have hlt : ∀ k ∈ List.range length.toNat, before step last (first + (k : Int) * step) =
        decide (k < (stepCount first last step).toNat) := by
    intro k _
    have := lt_stepCount_iff first last hstep (Int.natCast_nonneg k)
    rw [Bool.eq_iff_iff, decide_eq_true_iff, ← this]
    omega
  have hrange : (List.range length.toNat).filter
      (fun k => decide (k < (stepCount first last step).toNat)) =
        List.range (stepCount first last step).toNat := by
    rw [← Ico.zero_bot, Ico.filter_lt, Ico.zero_bot, Nat.min_eq_right (by omega)]
  calc places length first last step = ((List.range length.toNat).filter
          fun k : Nat => before step last (first + (k : Int) * step)).map
            fun k : Nat => first + (k : Int) * step := filter_map
    _ = indices step (stepCount first last step, first) := by
        rw [filter_congr hlt, hrange, indices]

theorem places_inside :
    ∀ i ∈ places length first last step, 0 ≤ i ∧ i < length := by
  intro i hi
  obtain ⟨hmem, hbefore⟩ := mem_filter.mp hi
  obtain ⟨k, -, rfl⟩ := mem_map.mp hmem
  unfold before at hbefore
  unfold Clamped at hfirst hlast
  split at hbefore
  · rename_i hneg
    rw [if_pos hneg] at hfirst hlast
    have := Int.mul_nonneg (Int.natCast_nonneg k) (show 0 ≤ -step by omega)
    rw [Int.mul_neg] at this
    have := of_decide_eq_true hbefore
    omega
  · rename_i hneg
    rw [if_neg hneg] at hfirst hlast
    have := Int.mul_nonneg (Int.natCast_nonneg k) (show 0 ≤ step by omega)
    have := of_decide_eq_true hbefore
    omega

theorem places_eq_nil_iff (hstep : step ≠ 0) (hlength : 0 ≤ length) :
    places length first last step = [] ↔ before step last first = false := by
  have hcount := lt_stepCount_iff first last hstep le_rfl
  rw [Int.zero_mul, Int.add_zero] at hcount
  rw [places_eq hfirst hlast hstep hlength, indices, map_eq_nil_iff, range_eq_nil,
    ← Bool.not_eq_true, ← hcount]
  omega

end

theorem sliceIndicesAdjust_eq {start stop : Int} (hlength : 0 ≤ length) (hmax : length < int64Max)
    (hstep : step ≠ 0) (hmin : int64Min < step) (hstep' : step ≤ int64Max)
    (hstart : int64Min ≤ start) (hstop : int64Min ≤ stop) :
    sliceIndicesAdjust length start stop step =
      .ok (stepCount (clamp length step (unpackStart step start))
        (clamp length step (unpackStop step stop)) step,
        clamp length step (unpackStart step start)) := by
  have hmin' : int64Min = -2 ^ 63 := rfl
  have hmax' : int64Max = 2 ^ 63 - 1 := rfl
  have hstart' : int64Min ≤ unpackStart step start := by
    unfold unpackStart
    split <;> [split; skip] <;> omega
  have hstop' : int64Min ≤ unpackStop step stop := by
    unfold unpackStop
    split <;> [split; skip] <;> omega
  have hfirst := clamped_clamp step hlength (unpackStart step start)
  have hlast := clamped_clamp step hlength (unpackStop step stop)
  unfold sliceIndicesAdjust
  rw [if_neg hstep, if_neg (by omega), adjust_eq hlength hmax hstart',
    adjust_eq hlength hmax hstop']
  generalize clamp length step (unpackStart step start) = first at hfirst ⊢
  generalize clamp length step (unpackStop step stop) = last at hlast ⊢
  simp only [bind, Except.bind, stepCount]
  unfold Clamped at hfirst hlast
  by_cases hneg : step < 0
  · rw [if_pos hneg] at hfirst hlast
    simp only [if_pos hneg]
    rw [checked_eq (by omega) (by omega)]
    by_cases hlt : last < first
    · rw [if_pos hlt]
      simp only [count_eq (show 0 < -step by omega) hlt (by omega)]
      rfl
    · rw [if_neg hlt, steps, if_neg hlt]
      rfl
  · rw [if_neg hneg] at hfirst hlast
    simp only [if_neg hneg]
    by_cases hlt : first < last
    · rw [if_pos hlt, count_eq (by omega) hlt (by omega)]
      rfl
    · rw [if_neg hlt, steps, if_neg hlt]
      rfl

end Bounds

section Agreement

variable {length step : Int} {start stop : Option Int}

theorem misread_cases (hmax : length < int64Max) (h : Misread length start stop step) :
    before step (clamp length step (unpackStop step (stop.getD int64Max)))
        (clamp length step (unpackStart step (start.getD int64Max))) = true ∧
      before step (pyStop length step stop) (pyStart length step start) = false := by
  have hmax' : int64Max = 2 ^ 63 - 1 := rfl
  have hmin' : int64Min = -2 ^ 63 := rfl
  obtain ⟨hlength, ⟨hpos, rfl, h⟩ | ⟨hneg, rfl, h⟩⟩ := h
  · have hneg : ¬ step < 0 := by omega
    cases stop <;>
      simp [before, pyStart, pyStop, clamp, unpackStart, unpackStop, hneg] at h ⊢ <;>
      split_ifs <;> omega
  · cases start <;>
      simp [before, pyStart, pyStop, clamp, unpackStart, unpackStop, hneg] at h ⊢ <;>
      split_ifs <;> omega

theorem not_misread_cases (hmax : length < int64Max) (hstep : step ≠ 0)
    (h : ¬ Misread length start stop step) :
    (clamp length step (unpackStart step (start.getD int64Max)) = pyStart length step start ∧
      clamp length step (unpackStop step (stop.getD int64Max)) = pyStop length step stop) ∨
    before step (clamp length step (unpackStop step (stop.getD int64Max)))
        (clamp length step (unpackStart step (start.getD int64Max))) = false ∧
      before step (pyStop length step stop) (pyStart length step start) = false := by
  have hmax' : int64Max = 2 ^ 63 - 1 := rfl
  have hmin' : int64Min = -2 ^ 63 := rfl
  unfold Misread at h
  rcases lt_or_gt_of_ne hstep with hneg | hpos
  · cases start <;> cases stop <;>
      simp [before, pyStart, pyStop, clamp, unpackStart, unpackStop, hneg] at h ⊢ <;>
      split_ifs <;> omega
  · have hneg : ¬ step < 0 := by omega
    cases start <;> cases stop <;>
      simp [before, pyStart, pyStop, clamp, unpackStart, unpackStop, hneg] at h ⊢ <;>
      split_ifs <;> omega

theorem places_clamp_iff (hlength : 0 ≤ length) (hmax : length < int64Max) (hstep : step ≠ 0) :
    places length (clamp length step (unpackStart step (start.getD int64Max)))
        (clamp length step (unpackStop step (stop.getD int64Max))) step =
      pySlice length start stop step ↔ ¬ Misread length start stop step := by
  have hcode := places_eq_nil_iff
    (clamped_clamp step hlength (unpackStart step (start.getD int64Max)))
    (clamped_clamp step hlength (unpackStop step (stop.getD int64Max))) hstep hlength
  have hpy := places_eq_nil_iff (clamped_pyStart step hlength start)
    (clamped_pyStop step hlength stop) hstep hlength
  constructor
  · intro heq hmisread
    obtain ⟨hsome, hnone⟩ := misread_cases hmax hmisread
    exact absurd (hcode.mp (heq.trans (hpy.mpr hnone))) (by rw [hsome]; decide)
  · intro h
    rcases not_misread_cases hmax hstep h with ⟨hstart, hstop⟩ | ⟨hnone, hnone'⟩
    · rw [hstart, hstop, pySlice]
    · exact (hcode.mpr hnone).trans (hpy.mpr hnone').symm

/-- The loop of `optimizeSlice` picks the elements from `first` on, by steps. -/
theorem addInputs_eq {V : Type} (inputs : List V) (hlength : (inputs.length : Int) < int64Max) :
    (k : Nat) → (first : Int) → (∀ j < k, 0 ≤ first + j * step ∧ first + j * step < inputs.length) →
      ∃ vs, addInputs inputs step k (sizeT first) = .ok vs ∧
        vs.map some = (List.range k).map fun j : Nat => inputs[(first + j * step).toNat]?
  | 0, _, _ => ⟨[], rfl, rfl⟩
  | k + 1, first, h => by
    have hmax' : int64Max = 2 ^ 63 - 1 := rfl
    have hfirst : 0 ≤ first ∧ first < inputs.length := by simpa using h 0 (by omega)
    have hsize : sizeT first = first.toNat := by
      rw [sizeT, Int.emod_eq_of_lt hfirst.1 (by omega)]
    have hnext : sizeT ((first.toNat : Int) + step) = sizeT (first + step) := by
      rw [Int.toNat_of_nonneg hfirst.1]
    have hshift : ∀ j : Nat, first + step + j * step = first + (j + 1 : Nat) * step := by
      intro j
      rw [Nat.cast_succ, add_one_mul]
      omega
    obtain ⟨vs, hvs, hmap⟩ := addInputs_eq inputs hlength k (first + step) (by
      intro j hj
      rw [hshift]
      exact h (j + 1) (by omega))
    have hlt : first.toNat < inputs.length := by omega
    refine ⟨inputs[first.toNat] :: vs, ?_, ?_⟩
    · simp only [addInputs, hsize, input, getElem?_eq_getElem hlt, hnext, hvs, bind, Except.bind]
      rfl
    · rw [map_cons, hmap, range_succ_eq_map, map_cons, map_map]
      simp [hshift]

/-- A slice agrees with Python's unless `INT64_MAX` is given and misread as `None`. -/
theorem sliceAgrees_iff (V : Type) {length : Int} (start stop : Option Int) {step : Int}
    (hlength : 0 ≤ length) (hmax : length < int64Max)
    (hstart : ∀ b ∈ start, int64Min ≤ b ∧ b ≤ int64Max)
    (hstop : ∀ b ∈ stop, int64Min ≤ b ∧ b ≤ int64Max)
    (hstep : step ≠ 0) (hstepMin : int64Min < step) (hstepMax : step ≤ int64Max) :
    SliceAgrees V length start stop step ↔ ¬ Misread length start stop step := by
  have hmax' : int64Max = 2 ^ 63 - 1 := rfl
  have hbound : ∀ b : Option Int, (∀ x ∈ b, int64Min ≤ x ∧ x ≤ int64Max) →
      int64Min ≤ b.getD int64Max := by
    rintro (_ | x) h
    · simp only [Option.getD_none]
      omega
    · exact (h x rfl).1
  have hcode := sliceIndicesAdjust_eq hlength hmax hstep hstepMin hstepMax (hbound start hstart)
    (hbound stop hstop)
  have hfirst := clamped_clamp step hlength (unpackStart step (start.getD int64Max))
  have hlast := clamped_clamp step hlength (unpackStop step (stop.getD int64Max))
  have hplaces := places_eq hfirst hlast hstep hlength
  obtain ⟨hcount, hcount'⟩ := stepCount_le hstep hfirst hlast
  rw [← places_clamp_iff hlength hmax hstep]
  constructor
  · rintro ⟨⟨r, hr, hpy⟩, -⟩
    rw [hplaces, ← hpy]
    rw [hcode] at hr
    exact congrArg _ (Except.ok.inj hr)
  · intro hagree
    have hindices := hplaces.symm.trans hagree
    have hinside := places_inside hfirst hlast
    refine ⟨⟨_, hcode, hindices⟩, hagree ▸ hinside, ?_⟩
    rintro inputs stepVal rfl rfl
    unfold optimizeSlice
    simp only [hcode, bind, Except.bind]
    have hsize : ∀ {n : Int}, 0 ≤ n → n ≤ inputs.length → sizeT n = n.toNat := by
      intro n hn hn'
      rw [sizeT, Int.emod_eq_of_lt hn (by omega)]
    rw [hsize hcount hcount', ← hindices, indices, map_map]
    refine addInputs_eq inputs hmax _ _ fun j hj => ?_
    refine hinside _ (hplaces ▸ mem_map.mpr ⟨j, mem_range.mpr hj, rfl⟩)

/-- A slice that goes backwards. -/
theorem sliceAgrees_backwards : SliceAgrees Nat 5 none (some (-5)) (-2) := by
  refine (sliceAgrees_iff Nat none (some (-5)) (by decide) (by decide) nofun ?_ (by decide)
    (by decide) (by decide)).mpr ?_
  · rintro b ⟨⟩
    decide
  · rintro ⟨-, ⟨h, -⟩ | ⟨-, h, -⟩⟩
    · exact absurd h (by decide)
    · exact absurd (Option.some.inj h) (by decide)

/-- A start of `INT64_MAX` is past the end of a list of one element, and the code returns the
element. -/
theorem sliceAgrees_maxStart : ¬ SliceAgrees Nat 1 (some int64Max) none 1 := by
  rintro ⟨⟨r, hr, hpy⟩, -⟩
  have hcode : sliceIndicesAdjust 1 int64Max int64Max 1 = .ok (1, 0) := rfl
  obtain rfl := Except.ok.inj (hcode.symm.trans hr)
  revert hpy
  decide

end Agreement

end ListSlice
end PyTorchCore.Jit
