import Mathlib.Data.List.GetD
import Mathlib.Algebra.BigOperators.Ring.List
import Mathlib.Tactic.Abel
import PyTorchCore.TensorIterator.Iterator

/-!
# TensorIterator: the walk of a kernel

`serial_for_each` cuts a range of linear indices into two-dimensional blocks and calls the loop of
the kernel once for every block.
-/

namespace PyTorchCore.TensorIterator

open Lib (Axis)
open Function List
open Lib.LoopNest

/-- A half-open range of linear indices. -/
structure Range where
  begin_ : Nat
  end_ : Nat
  deriving DecidableEq

def Range.size (range : Range) : Nat :=
  range.end_ - range.begin_

structure DimCounter where
  shape : List Nat
  range : Range
  values : List Nat
  offset : Nat
  deriving DecidableEq

namespace DimCounter

/-- The loop of the constructor: digits of the start, and what is left of it. -/
def startValues : List Nat → Nat → List Nat × Nat
  | [], linear_offset => ([], linear_offset)
  | size :: shape, linear_offset =>
    if size > 0 then
      let r := startValues shape (linear_offset / size)
      (linear_offset % size :: r.1, r.2)
    else
      let r := startValues shape linear_offset
      (0 :: r.1, r.2)

def start (shape : List Nat) (range : Range) : Except String DimCounter :=
  if range.begin_ = 0 then
    .ok ⟨shape, range, List.replicate shape.length 0, 0⟩
  else
    let r := startValues shape range.begin_
    if r.2 = 0 then .ok ⟨shape, range, r.1, range.begin_⟩
    else .error "linear_offset == 0"

def isDone (c : DimCounter) : Bool :=
  c.offset ≥ c.range.end_

/-- The loop of `increment`, from some dimension on. -/
def carry : List Nat → List Nat → Nat → Except String (List Nat × Nat)
  | size :: shape, prev :: values, overflow =>
    if overflow > 0 then
      let value := prev + overflow
      if value ≥ size then
        if value - size < size then do
          let r ← carry shape values 1
          .ok ((value - size) :: r.1, r.2)
        else .error "value < size"
      else .ok (value :: values, 0)
    else .ok (prev :: values, overflow)
  | _, values, overflow => .ok (values, overflow)

/-- `carry` from dimension `i` on, with the assertion after the loop. -/
def carryFrom (c : DimCounter) (i overflow : Nat) : Except String (List Nat) := do
  let r ← carry (c.shape.drop i) (c.values.drop i) overflow
  if r.2 = 0 ∨ r.2 = 1 then .ok (c.values.take i ++ r.1)
  else .error "overflow == 0 || overflow == 1"

def increment (c : DimCounter) (step : Nat × Nat) : Except String DimCounter :=
  let offset := c.offset + step.1 * step.2
  if step.2 ≠ 1 then
    if step.1 = c.shape.getD 0 0 ∧ c.values.getD 0 0 = 0 then do
      let values ← c.carryFrom 1 step.2
      .ok { c with values, offset }
    else .error "step[0] == shape[0] && values[0] == 0"
  else do
    let values ← c.carryFrom 0 step.1
    .ok { c with values, offset }

def max2dStep (c : DimCounter) : Nat × Nat :=
  let step0 := min (c.shape.getD 0 0 - c.values.getD 0 0) (c.range.end_ - c.offset)
  if step0 = c.shape.getD 0 0 then
    (step0, min (c.shape.getD 1 0 - c.values.getD 1 0)
      ((c.range.end_ - c.offset) / c.shape.getD 0 0))
  else (step0, 1)

end DimCounter

structure LoopCall where
  ptrs : List Int
  strides : List Int
  size0 : Nat
  size1 : Nat
  deriving DecidableEq

/-- `strides` holds, dimension after dimension, one stride for every operand. -/
def getDataPtrs (base strides : List Int) (counter : List Nat) : List Int :=
  (List.range counter.length).foldl
    (fun ptrs dim => ptrs.mapIdx fun arg p =>
      p + counter.getD dim 0 * strides.getD (dim * base.length + arg) 0)
    base

/-- The loop over the counter.  Every round advances it, so that as many rounds as
the range has elements are enough. -/
def counterLoop (base strides : List Int) : Nat → DimCounter → Except String (List LoopCall)
  | 0, counter => if counter.isDone then .ok [] else .error "out of rounds"
  | rounds + 1, counter =>
    if counter.isDone then .ok []
    else do
      let ptrs := getDataPtrs base strides counter.values
      let step := counter.max2dStep
      let counter ← counter.increment step
      let calls ← counterLoop base strides rounds counter
      .ok (⟨ptrs, strides, step.1, step.2⟩ :: calls)

/-- `internal::serial_for_each`. -/
def internalSerialForEach (shape : List Nat) (strides base_ptrs : List Int) (range : Range) :
    Except String (List LoopCall) :=
  if shape.length ≤ 1 then
    if range.begin_ = 0 then .ok [⟨base_ptrs, strides, range.size, 1⟩]
    else .ok [⟨getDataPtrs base_ptrs strides [range.begin_], strides, range.size, 1⟩]
  else do
    let counter ← DimCounter.start shape range
    counterLoop base_ptrs strides range.size counter

/-- `get_strides`, padded to two dimensions. -/
def getStrides (it : TensorIteratorBase) : List Int :=
  ((List.range it.ndim).flatMap fun dim =>
    it.operands_.map fun op => op.stride_bytes.getD dim 0) ++
  List.replicate ((2 - it.ndim) * it.ntensors) 0

def serialForEach (it : TensorIteratorBase) (base_ptrs : List Int) (range : Range) :
    Except String (List LoopCall) :=
  if range.size = 0 then .ok []
  else internalSerialForEach it.shape_ (getStrides it) base_ptrs range

/-- The pointers a one-dimensional loop sees, one tuple for every iteration. -/
def visits1d (data strides : List Int) (size : Nat) : List (List Int) :=
  (List.range size).map fun i : Nat => data.mapIdx fun arg p => p + i * strides.getD arg 0

/-- `loop_2d_from_1d`, with the number of outer iterations left. -/
def loop2dFrom1d (strides : List Int) (size0 : Nat) : Nat → List Int → List (List Int)
  | 0, _ => []
  | size1 + 1, data =>
    visits1d data strides size0 ++
      loop2dFrom1d strides size0 size1
        (data.mapIdx fun arg p => p + strides.getD (data.length + arg) 0)

/-- The tuples of pointers that one call of the loop visits, in order. -/
def LoopCall.visits (call : LoopCall) : List (List Int) :=
  loop2dFrom1d call.strides call.size0 call.size1 call.ptrs

/-! ## Pointers as offsets from the base -/

/-- The strides of all operands at dimension `dim`. -/
def strideAt (strides : List Int) (ntensors dim : Nat) : Nat → Int :=
  fun arg => if arg < ntensors then strides.getD (dim * ntensors + arg) 0 else 0

def nest (shape : List Nat) (strides : List Int) (ntensors : Nat) : List (Axis (Nat → Int)) :=
  (List.range shape.length).map fun d => ⟨shape.getD d 0, strideAt strides ntensors d⟩

/-- The pointers at a given offset from the base pointers. -/
def shifted (base : List Int) (offset : Nat → Int) : List Int :=
  base.mapIdx fun arg p => p + offset arg

@[simp] theorem length_shifted (base : List Int) (offset : Nat → Int) :
    (shifted base offset).length = base.length := by
  simp [shifted]

@[simp] theorem shifted_zero (base : List Int) : shifted base 0 = base := by
  simp [shifted, mapIdx_eq_iff]

theorem shifted_shifted (base : List Int) (f g : Nat → Int) :
    shifted (shifted base f) g = shifted base (f + g) := by
  simp only [shifted, mapIdx_mapIdx]
  congr 1
  funext arg p
  exact add_assoc _ _ _

theorem mapIdx_eq_shifted {base : List Int} {f g : Nat → Int}
    (h : ∀ arg, arg < base.length → f arg = g arg) :
    (base.mapIdx fun arg p => p + f arg) = shifted base g := by
  apply ext_getElem
  · simp
  · intro arg h₁ h₂
    have harg : arg < base.length := by simpa using h₁
    simp [shifted, h arg harg]

theorem visits1d_shifted (base strides : List Int) (f : Nat → Int) (size : Nat) :
    visits1d (shifted base f) strides size =
      (List.range size).map fun i => shifted base (f + i • strideAt strides base.length 0) := by
  apply map_congr_left
  intro i _
  rw [← shifted_shifted]
  apply mapIdx_eq_shifted
  intro arg harg
  rw [length_shifted] at harg
  simp [strideAt, harg]

theorem loop2dFrom1d_shifted (base strides : List Int) (size0 size1 : Nat) (f : Nat → Int) :
    loop2dFrom1d strides size0 size1 (shifted base f) =
      (List.range size1).flatMap fun j => (List.range size0).map fun i =>
        shifted base (f + j • strideAt strides base.length 1 +
          i • strideAt strides base.length 0) := by
  induction size1 generalizing f with
  | zero => rfl
  | succ size1 ih =>
    have hnext : ((shifted base f).mapIdx fun arg p =>
        p + strides.getD ((shifted base f).length + arg) 0) =
        shifted base (f + strideAt strides base.length 1) := by
      rw [← shifted_shifted]
      apply mapIdx_eq_shifted
      intro arg harg
      rw [length_shifted] at harg
      rw [length_shifted, strideAt, if_pos harg, Nat.one_mul]
    rw [loop2dFrom1d, visits1d_shifted, hnext, ih, range_succ_eq_map, flatMap_cons, flatMap_map]
    simp only [zero_nsmul, add_zero, succ_nsmul', Nat.succ_eq_add_one, add_assoc]

/-- The pointers at a counter, as offsets. -/
theorem getDataPtrs_eq (base strides : List Int) (counter : List Nat) :
    getDataPtrs base strides counter = shifted base (dot counter
        ((List.range counter.length).map (strideAt strides base.length))) := by
  have hfold : ∀ n, (List.range n).foldl (fun ptrs dim => ptrs.mapIdx fun arg p =>
        p + counter.getD dim 0 * strides.getD (dim * base.length + arg) 0) base =
      shifted base
        (((List.range n).map fun d => counter.getD d 0 • strideAt strides base.length d).sum) := by
    intro n
    induction n with
    | zero => simp
    | succ n ih =>
      rw [range_succ, foldl_append, ih, map_append, sum_append, ← shifted_shifted]
      apply mapIdx_eq_shifted
      intro arg harg
      rw [length_shifted] at harg
      simp [strideAt, harg]
  rw [getDataPtrs, hfold, dot_map_range]

/-! ## The counter -/

/-- Adding to the first digit carries into the others. -/
theorem carry_digits (shape : List Nat) (n overflow : Nat) (hpos : ∀ s ∈ shape, 0 < s)
    (hov : 0 < overflow)
    (hfit : ∀ s rest, shape = s :: rest → n % s + overflow ≤ s) (hone : shape = [] → overflow = 1) :
    ∃ left, (left = 0 ∨ left = 1) ∧ DimCounter.carry shape (digits shape n) overflow =
        .ok (digits shape (n + overflow), left) := by
  induction shape generalizing n overflow with
  | nil =>
    obtain rfl := hone rfl
    exact ⟨1, .inr rfl, rfl⟩
  | cons s rest ih =>
    have hs : 0 < s := hpos s mem_cons_self
    have hle : n % s + overflow ≤ s := hfit s rest rfl
    have hsplit : s * (n / s) + n % s = n := Nat.div_add_mod n s
    simp only [digits, DimCounter.carry, if_pos hov]
    by_cases hfull : n % s + overflow ≥ s
    · -- the dimension is full: its index returns to zero and the next one advances
      have hsum : n + overflow = s * (n / s + 1) := by
        rw [Nat.mul_succ]
        omega
      have hzero : n % s + overflow - s = 0 := by omega
      obtain ⟨left, hleft, hrec⟩ := ih (n / s) 1
        (fun t ht => hpos t (mem_cons_of_mem _ ht)) Nat.one_pos
        (by
          intro t rest' hrest
          have ht : 0 < t := hpos t (by simp [hrest])
          have := Nat.mod_lt (n / s) ht
          omega)
        (fun _ => rfl)
      refine ⟨left, hleft, ?_⟩
      rw [if_pos hfull, hzero, if_pos hs, hrec, hsum, Nat.mul_mod_right,
        Nat.mul_div_cancel_left _ hs]
      rfl
    · have hlt : n % s + overflow < s := by omega
      have hsum : n + overflow = s * (n / s) + (n % s + overflow) := by omega
      refine ⟨0, .inl rfl, ?_⟩
      rw [if_neg hfull, hsum, Nat.mul_add_mod, Nat.mod_eq_of_lt hlt, Nat.mul_add_div hs,
        Nat.div_eq_of_lt hlt, Nat.add_zero]

section Step

variable {s0 s1 : Nat}

/-- A block stays within the first two dimensions, so that its iterations differ in
the first two indices only. -/
structure BlockFits (s0 s1 n : Nat) (step : Nat × Nat) : Prop where
  pos0 : 0 < step.1
  pos1 : 0 < step.2
  fits0 : n % s0 + step.1 ≤ s0
  fits1 : step.2 ≠ 1 → step.1 = s0 ∧ n % s0 = 0 ∧ n / s0 % s1 + step.2 ≤ s1

/-- A block ends within its range. -/
theorem max2dStep_fits {n : Nat} (rest : List Nat) {range : Range} (h0 : 0 < s0) (h1 : 0 < s1)
    (hn : n < range.end_) :
    let c : DimCounter := ⟨s0 :: s1 :: rest, range, digits (s0 :: s1 :: rest) n, n⟩
    BlockFits s0 s1 n c.max2dStep ∧ n + c.max2dStep.1 * c.max2dStep.2 ≤ range.end_ := by
  have hm0 : n % s0 < s0 := Nat.mod_lt n h0
  have hm1 : n / s0 % s1 < s1 := Nat.mod_lt _ h1
  simp only [DimCounter.max2dStep, digits, getD_cons_zero, getD_cons_succ]
  by_cases hfull : min (s0 - n % s0) (range.end_ - n) = s0
  · rw [if_pos hfull]
    have hz : n % s0 = 0 := by omega
    have hend : s0 ≤ range.end_ - n := by omega
    have hq : 0 < (range.end_ - n) / s0 := Nat.div_pos hend h0
    refine ⟨⟨?_, ?_, ?_, ?_⟩, ?_⟩
    · simp only
      omega
    · simp only
      omega
    · simp only
      omega
    · intro _
      refine ⟨hfull, hz, ?_⟩
      simp only
      omega
    · simp only
      rw [hfull]
      have hb : s0 * min (s1 - n / s0 % s1) ((range.end_ - n) / s0) ≤
          s0 * ((range.end_ - n) / s0) := Nat.mul_le_mul_left _ (by omega)
      have hd : s0 * ((range.end_ - n) / s0) ≤ range.end_ - n := Nat.mul_div_le _ _
      omega
  · rw [if_neg hfull]
    refine ⟨⟨?_, ?_, ?_, ?_⟩, ?_⟩
    · simp only
      omega
    · exact Nat.one_pos
    · simp only
      omega
    · intro h
      exact absurd rfl h
    · simp only
      omega

theorem increment_digits {n : Nat} {rest : List Nat} {range : Range} {step : Nat × Nat}
    (hpos : ∀ s ∈ s0 :: s1 :: rest, 0 < s) (hfits : BlockFits s0 s1 n step) :
    DimCounter.increment ⟨s0 :: s1 :: rest, range, digits (s0 :: s1 :: rest) n, n⟩ step =
      .ok ⟨s0 :: s1 :: rest, range, digits (s0 :: s1 :: rest) (n + step.1 * step.2),
        n + step.1 * step.2⟩ := by
  have h0 : 0 < s0 := hpos s0 (by simp)
  by_cases hone : step.2 = 1
  · obtain ⟨left, hleft, hc⟩ := carry_digits (s0 :: s1 :: rest) n step.1 hpos hfits.pos0 (by
        rintro s rest' h
        cases h
        exact hfits.fits0)
      (by simp)
    simp only [DimCounter.increment, DimCounter.carryFrom, hone, ne_eq, not_true_eq_false,
      if_false, drop_zero, take_zero, nil_append, Nat.mul_one]
    rw [hc]
    simp only [bind, Except.bind, if_pos hleft]
  · obtain ⟨hs, hz, hfit1⟩ := hfits.fits1 hone
    obtain ⟨left, hleft, hc⟩ := carry_digits (s1 :: rest) (n / s0) step.2
      (fun t ht => hpos t (mem_cons_of_mem _ ht)) hfits.pos1
      (by
        rintro s rest' h
        cases h
        exact hfit1)
      (by simp)
    have hsum : n + s0 * step.2 = s0 * (n / s0 + step.2) := by
      have := Nat.div_add_mod n s0
      rw [Nat.mul_add]
      omega
    have hdig : digits (s0 :: s1 :: rest) (n + s0 * step.2) =
        n % s0 :: digits (s1 :: rest) (n / s0 + step.2) := by
      rw [digits, hsum, Nat.mul_mod_right, Nat.mul_div_cancel_left _ h0, hz]
    have hhead : digits (s0 :: s1 :: rest) n = n % s0 :: digits (s1 :: rest) (n / s0) := rfl
    simp only [DimCounter.increment, DimCounter.carryFrom, hs, hhead, ne_eq, hone,
      not_false_eq_true, if_true, getD_cons_zero, hz, and_self, drop_succ_cons,
      drop_zero, take_succ_cons, take_zero]
    rw [hc, hdig, hz]
    simp [bind, Except.bind, if_pos hleft]

theorem offsetAt_block {M : Type} [AddCommMonoid M] {n i j : Nat} {step : Nat × Nat}
    (t0 t1 : M) (axes : List (Axis M)) (h0 : 0 < s0)
    (hfits : BlockFits s0 s1 n step) (hi : i < step.1) (hj : j < step.2) :
    offsetAt (⟨s0, t0⟩ :: ⟨s1, t1⟩ :: axes) (n + (step.1 * j + i)) =
      offsetAt (⟨s0, t0⟩ :: ⟨s1, t1⟩ :: axes) n + j • t1 + i • t0 := by
  have hsplit : s0 * (n / s0) + n % s0 = n := Nat.div_add_mod n s0
  have hfit0 := hfits.fits0
  by_cases hone : step.2 = 1
  · obtain rfl : j = 0 := by omega
    have hlt : n % s0 + i < s0 := by omega
    have hsum : n + (step.1 * 0 + i) = s0 * (n / s0) + (n % s0 + i) := by omega
    simp only [offsetAt]
    rw [hsum, Nat.mul_add_mod, Nat.mod_eq_of_lt hlt, Nat.mul_add_div h0, Nat.div_eq_of_lt hlt,
      Nat.add_zero, add_nsmul, zero_nsmul, add_zero]
    abel
  · obtain ⟨hs, hz, hfit1⟩ := hfits.fits1 hone
    have hlt : i < s0 := by omega
    have hsum : n + (step.1 * j + i) = s0 * (n / s0 + j) + i := by
      rw [hs, Nat.mul_add]
      omega
    have hlt1 : n / s0 % s1 + j < s1 := by omega
    have hpos1 : 0 < s1 := by omega
    have hq : n / s0 + j = s1 * (n / s0 / s1) + (n / s0 % s1 + j) := by
      have := Nat.div_add_mod (n / s0) s1
      omega
    simp only [offsetAt]
    rw [hsum, Nat.mul_add_mod, Nat.mod_eq_of_lt hlt, Nat.mul_add_div h0, Nat.div_eq_of_lt hlt,
      Nat.add_zero, hq, Nat.mul_add_mod, Nat.mod_eq_of_lt hlt1, Nat.mul_add_div hpos1,
      Nat.div_eq_of_lt hlt1, Nat.add_zero, add_nsmul, hz, zero_nsmul, zero_add]
    abel

end Step

/-! ## Whole ranges -/

section Ranges

variable (base strides : List Int)

/-- Reading a list element by element. -/
theorem map_getD_range (shape : List Nat) :
    ((List.range shape.length).map fun d => shape.getD d 0) = shape := by
  apply ext_getElem
  · simp
  · intro d h₁ h₂
    simp [h₂]

theorem nest_sizes (shape : List Nat) (n : Nat) : (nest shape strides n).map Axis.size = shape := by
  rw [nest, map_map]
  exact map_getD_range shape

theorem getDataPtrs_digits (shape : List Nat) (n : Nat) :
    getDataPtrs base strides (digits shape n) =
      shifted base (offsetAt (nest shape strides base.length) n) := by
  rw [getDataPtrs_eq, offsetAt_eq_dot, nest_sizes, length_digits]
  unfold nest
  rw [map_map]
  rfl

theorem block_visits {s0 s1 n : Nat} {rest : List Nat} {step : Nat × Nat} (h0 : 0 < s0)
    (hfits : BlockFits s0 s1 n step) :
    let shape := s0 :: s1 :: rest
    (LoopCall.mk (getDataPtrs base strides (digits shape n)) strides step.1 step.2).visits =
      (List.range (step.1 * step.2)).map fun k =>
        shifted base (offsetAt (nest shape strides base.length) (n + k)) := by
  intro shape
  have hnest : nest shape strides base.length =
      ⟨s0, strideAt strides base.length 0⟩ :: ⟨s1, strideAt strides base.length 1⟩ ::
        (List.range rest.length).map fun d =>
          ⟨rest.getD d 0, strideAt strides base.length (d + 2)⟩ := by
    simp [nest, shape, range_succ_eq_map, comp_def]
  unfold LoopCall.visits
  rw [getDataPtrs_digits, loop2dFrom1d_shifted, range_mul_eq_flatMap, map_flatMap]
  apply flatMap_congr
  intro j hj
  rw [map_map]
  apply map_congr_left
  intro i hi
  simp only [Function.comp]
  rw [hnest, offsetAt_block _ _ _ h0 hfits (mem_range.mp hi) (mem_range.mp hj)]

variable {shape : List Nat} {range : Range}

theorem counterLoop_visits {s0 s1 : Nat} {rest : List Nat}
    (hpos : ∀ s ∈ s0 :: s1 :: rest, 0 < s) (rounds n : Nat)
    (hrounds : range.end_ - n ≤ rounds) :
    let shape := s0 :: s1 :: rest
    ∃ calls, counterLoop base strides rounds ⟨shape, range, digits shape n, n⟩ = .ok calls ∧
      calls.flatMap LoopCall.visits = (List.range (range.end_ - n)).map fun k =>
        shifted base (offsetAt (nest shape strides base.length) (n + k)) := by
  intro shape
  induction rounds generalizing n with
  | zero =>
    have hdone : range.end_ ≤ n := by omega
    refine ⟨[], ?_, ?_⟩
    · simp [counterLoop, DimCounter.isDone, hdone]
    · simp [Nat.sub_eq_zero_of_le hdone]
  | succ rounds ih =>
    by_cases hdone : range.end_ ≤ n
    · refine ⟨[], ?_, ?_⟩
      · simp [counterLoop, DimCounter.isDone, hdone]
      · simp [Nat.sub_eq_zero_of_le hdone]
    · have h0 : 0 < s0 := hpos s0 (by simp)
      have h1 : 0 < s1 := hpos s1 (by simp)
      obtain ⟨hfits, hend⟩ := max2dStep_fits rest h0 h1 (Nat.lt_of_not_le hdone)
      generalize hstep : DimCounter.max2dStep ⟨shape, range, digits shape n, n⟩ = step
      rw [hstep] at hfits hend
      have hadvance : 0 < step.1 * step.2 := Nat.mul_pos hfits.pos0 hfits.pos1
      obtain ⟨calls, hcalls, hvisits⟩ := ih (n + step.1 * step.2) (by omega)
      refine ⟨⟨getDataPtrs base strides (digits shape n), strides, step.1, step.2⟩ :: calls, ?_, ?_⟩
      · simp only [counterLoop, DimCounter.isDone, ge_iff_le, hdone, decide_false,
          Bool.false_eq_true, if_false, shape]
        rw [hstep, increment_digits hpos hfits]
        simp only [bind, Except.bind]
        rw [hcalls]
      · have hsplit : range.end_ - n =
            step.1 * step.2 + (range.end_ - (n + step.1 * step.2)) := by omega
        rw [flatMap_cons, hvisits, block_visits base strides h0 hfits, hsplit,
          range_add, map_append, map_map]
        simp only [comp_def, Nat.add_assoc]
        rfl

theorem startValues_eq (hpos : ∀ s ∈ shape, 0 < s) (n : Nat) :
    DimCounter.startValues shape n = (digits shape n, n / shape.prod) := by
  induction shape generalizing n with
  | nil => simp [DimCounter.startValues, digits]
  | cons s shape ih =>
    have hs : 0 < s := hpos s mem_cons_self
    have hrec := ih (fun t ht => hpos t (mem_cons_of_mem _ ht)) (n / s)
    simp only [DimCounter.startValues, gt_iff_lt, hs, if_true, hrec, digits, prod_cons,
      Nat.div_div_eq_div_mul]

theorem start_eq (hpos : ∀ s ∈ shape, 0 < s) (hlt : range.begin_ < shape.prod) :
    DimCounter.start shape range = .ok ⟨shape, range, digits shape range.begin_, range.begin_⟩ := by
  unfold DimCounter.start
  by_cases hzero : range.begin_ = 0
  · rw [if_pos hzero, hzero, digits_zero]
  · rw [if_neg hzero, startValues_eq hpos]
    simp [Nat.div_eq_of_lt hlt]

theorem flat_visits (hdim : shape.length ≤ 1) (hend : range.end_ ≤ shape.prod)
    (hpad : shape = [] → strideAt strides base.length 0 = 0) :
    (LoopCall.mk (getDataPtrs base strides [range.begin_]) strides range.size 1).visits =
      (List.range range.size).map fun k =>
        shifted base (offsetAt (nest shape strides base.length) (range.begin_ + k)) := by
  unfold LoopCall.visits
  rw [getDataPtrs_eq, loop2dFrom1d_shifted]
  simp only [range_one, flatMap_cons, flatMap_nil, append_nil, zero_nsmul,
    add_zero, length_singleton, map_cons, map_nil, dot]
  apply map_congr_left
  intro k hk
  have hlt : range.begin_ + k < range.end_ := by
    have := mem_range.mp hk
    unfold Range.size at this
    omega
  rw [← add_nsmul]
  rcases shape with - | ⟨s, - | ⟨s1, rest⟩⟩
  · simp [nest, offsetAt, hpad rfl]
  · have hmod : (range.begin_ + k) % s = range.begin_ + k :=
      Nat.mod_eq_of_lt (by simpa using hlt.trans_le hend)
    simp [nest, offsetAt, hmod]
  · simp at hdim

theorem internalSerialForEach_walks (hpos : ∀ s ∈ shape, 0 < s) (hend : range.end_ ≤ shape.prod)
    (hstart : shape.length ≤ 1 ∨ range.begin_ < shape.prod)
    (hpad : shape = [] → strideAt strides base.length 0 = 0) :
    ∃ calls, internalSerialForEach shape strides base range = .ok calls ∧
      calls.flatMap LoopCall.visits = (List.range range.size).map fun k =>
        shifted base (offsetAt (nest shape strides base.length) (range.begin_ + k)) := by
  unfold internalSerialForEach
  by_cases hdim : shape.length ≤ 1
  · rw [if_pos hdim]
    refine ⟨[⟨getDataPtrs base strides [range.begin_], strides, range.size, 1⟩], ?_, ?_⟩
    · by_cases hzero : range.begin_ = 0
      · rw [if_pos hzero, hzero, getDataPtrs_eq]
        simp [dot]
      · rw [if_neg hzero]
    · rw [flatMap_cons, flatMap_nil, append_nil]
      exact flat_visits base strides hdim hend hpad
  · rw [if_neg hdim, start_eq hpos (hstart.resolve_left hdim)]
    rcases shape with - | ⟨s0, - | ⟨s1, rest⟩⟩
    · simp at hdim
    · simp at hdim
    · exact counterLoop_visits base strides hpos range.size range.begin_ le_rfl

end Ranges

/-! ## The loop nest of an iterator -/

/-- The strides of all operands at dimension `d`. -/
def operandStrides (operands : List OperandInfo) (d : Nat) : Nat → Int :=
  fun arg => ((operands[arg]?).map fun op => op.stride_bytes.getD d 0).getD 0

/-- The dimensions of the iterator, the first one fastest. -/
def axes (it : TensorIteratorBase) : List (Axis (Nat → Int)) :=
  (List.range it.ndim).map fun d => ⟨it.shape_.getD d 0, operandStrides it.operands_ d⟩

theorem axes_sizes (it : TensorIteratorBase) : (axes it).map Axis.size = it.shape_ := by
  rw [axes, map_map]
  exact map_getD_range it.shape_

theorem axes_volume (it : TensorIteratorBase) : volume (axes it) = it.numel := by
  unfold volume
  rw [axes_sizes]
  rfl

theorem getD_flatMap_rows {α β : Type} (f : Nat → α → β) (l : List α) (x : β) (n d i : Nat)
    (hd : d < n) (hi : i < l.length) :
    ((List.range n).flatMap fun d => l.map (f d)).getD (d * l.length + i) x =
      (l[i]?.map (f d)).getD x := by
  induction n generalizing d f with
  | zero => omega
  | succ n ih =>
    rw [range_succ_eq_map, flatMap_cons, flatMap_map]
    cases d with
    | zero => simp [getElem?_append_left, hi]
    | succ d =>
      have hle : (l.map (f 0)).length ≤ (d + 1) * l.length + i := by
        rw [length_map, Nat.succ_mul]
        omega
      have hidx : (d + 1) * l.length + i - (l.map (f 0)).length = d * l.length + i := by
        rw [length_map, Nat.succ_mul]
        omega
      rw [getD_append_right _ _ _ _ hle, hidx]
      exact ih (fun d => f (d + 1)) d (by omega)

theorem strideAt_getStrides (it : TensorIteratorBase) (d : Nat) (hd : d < it.ndim) :
    strideAt (getStrides it) it.ntensors d = operandStrides it.operands_ d := by
  funext arg
  unfold strideAt operandStrides
  by_cases harg : arg < it.ntensors
  · have hlen : ((List.range it.ndim).flatMap fun dim =>
        it.operands_.map fun op => op.stride_bytes.getD dim 0).length = it.ndim * it.ntensors := by
      simp [TensorIteratorBase.ntensors]
    have hlt : d * it.ntensors + arg < it.ndim * it.ntensors := by
      have := Nat.mul_le_mul_right it.ntensors (Nat.succ_le_of_lt hd)
      rw [Nat.succ_mul] at this
      omega
    rw [if_pos harg, getStrides, getD_append _ _ _ _ (by rw [hlen]; exact hlt)]
    exact getD_flatMap_rows (fun d op => op.stride_bytes.getD d 0) it.operands_ 0 it.ndim d arg
      hd harg
  · rw [if_neg harg, getElem?_eq_none (Nat.le_of_not_lt harg)]
    rfl

/-- **The walk.**  `serial_for_each` on `[begin, end)` makes the iterations
`begin, ..., end - 1` of the loop nest of the iterator, in order. -/
theorem serialForEach_visits (it : TensorIteratorBase) {base_ptrs : List Int} {range : Range}
    (hbase : base_ptrs.length = it.ntensors) (hend : range.end_ ≤ it.numel) :
    ∃ calls, serialForEach it base_ptrs range = .ok calls ∧
      calls.flatMap LoopCall.visits = (List.range range.size).map fun k =>
        shifted base_ptrs (offsetAt (axes it) (range.begin_ + k)) := by
  unfold serialForEach
  by_cases hsize : range.size = 0
  · exact ⟨[], by rw [if_pos hsize], by simp [hsize]⟩
  · have hlt : range.begin_ < range.end_ := by
      unfold Range.size at hsize
      omega
    have hnest : nest it.shape_ (getStrides it) base_ptrs.length = axes it := by
      apply map_congr_left
      intro d hd
      rw [hbase, strideAt_getStrides it d (mem_range.mp hd)]
    have hpad : it.shape_ = [] → strideAt (getStrides it) base_ptrs.length 0 = 0 := by
      intro hnil
      funext arg
      unfold strideAt getStrides
      rw [TensorIteratorBase.ndim, hnil]
      split
      · rw [getD_eq_getElem?_getD]
        simp [getElem?_replicate]
        split <;> rfl
      · rfl
    have hpos : ∀ s ∈ it.shape_, 0 < s := by
      intro s hs
      refine Nat.pos_of_ne_zero fun hzero => ?_
      rw [TensorIteratorBase.numel, prod_eq_zero_iff.mpr (hzero ▸ hs)] at hend
      omega
    rw [if_neg hsize, ← hnest]
    exact internalSerialForEach_walks base_ptrs (getStrides it) hpos hend
      (.inr (hlt.trans_le hend)) hpad

/-! ## Ranges that follow each other -/

section Cuts

variable {shape : List Nat} (base strides : List Int)

/-- The base pointers, moved by the index of every dimension at the linear index `k`. -/
def pointersAt (shape : List Nat) (base strides : List Int) (k : Nat) : List Int :=
  base.mapIdx fun arg p => p + ((List.range shape.length).map fun d =>
    (digits shape k).getD d 0 * strides.getD (d * base.length + arg) 0).sum

/-- Each range begins where the one before it ends. -/
def Consecutive : List Range → Nat → Nat → Prop
  | [], start, stop => start = stop
  | range :: ranges, start, stop =>
    range.begin_ = start ∧ start ≤ range.end_ ∧ Consecutive ranges range.end_ stop

theorem shifted_offsetAt_nest (k : Nat) :
    shifted base (offsetAt (nest shape strides base.length) k) =
      pointersAt shape base strides k := by
  have hsum : ∀ n arg, arg < base.length →
      ((List.range n).map fun d =>
        (digits shape k).getD d 0 * strides.getD (d * base.length + arg) 0).sum =
      ((List.range n).map fun d => (digits shape k).getD d 0 • strideAt strides base.length d).sum
        arg := by
    intro n arg harg
    induction n with
    | zero => rfl
    | succ n ih =>
      simp only [range_succ, map_append, sum_append, ih, Pi.add_apply]
      simp [strideAt, harg]
  rw [← getDataPtrs_digits, getDataPtrs_eq, dot_map_range, pointersAt, length_digits]
  exact (mapIdx_eq_shifted fun arg harg => hsum _ arg harg).symm

variable {range : Range}

theorem internalSerialForEach_pointers (hne : shape ≠ []) (hpos : ∀ s ∈ shape, 0 < s)
    (hend : range.end_ ≤ shape.prod) (hstart : shape.length ≤ 1 ∨ range.begin_ < shape.prod) :
    ∃ calls, internalSerialForEach shape strides base range = .ok calls ∧
      calls.flatMap LoopCall.visits =
        (List.range range.size).map fun k => pointersAt shape base strides (range.begin_ + k) := by
  simp only [← shifted_offsetAt_nest]
  exact internalSerialForEach_walks base strides hpos hend hstart fun h => absurd h hne

theorem Consecutive.le {ranges : List Range} {start stop : Nat}
    (h : Consecutive ranges start stop) : start ≤ stop := by
  induction ranges generalizing start with
  | nil => exact Nat.le_of_eq h
  | cons range ranges ih => exact h.2.1.trans (ih h.2.2)

/-- **Ranges.**  `internal::serial_for_each` on ranges that follow each other makes the
iterations from the first start to the last end, in order. -/
theorem internalSerialForEach_consecutive {ranges : List Range} {start stop : Nat}
    (hne : shape ≠ []) (hpos : ∀ s ∈ shape, 0 < s) (hranges : Consecutive ranges start stop)
    (hstop : stop ≤ shape.prod)
    (hstart : ∀ range ∈ ranges, shape.length ≤ 1 ∨ range.begin_ < shape.prod) :
    ∃ calls, ranges.mapM (internalSerialForEach shape strides base) = .ok calls ∧
      calls.flatten.flatMap LoopCall.visits =
        (List.range (stop - start)).map fun k => pointersAt shape base strides (start + k) := by
  induction ranges generalizing start with
  | nil =>
    cases hranges
    exact ⟨[], rfl, by simp⟩
  | cons range ranges ih =>
    obtain ⟨rfl, hsize, hrest⟩ := hranges
    obtain ⟨head, hhead, hvisits⟩ := internalSerialForEach_pointers base strides hne hpos
      (hrest.le.trans hstop) (hstart range mem_cons_self)
    obtain ⟨tail, htail, hothers⟩ := ih hrest fun r hr => hstart r (mem_cons_of_mem _ hr)
    refine ⟨head :: tail, ?_, ?_⟩
    · rw [mapM_cons, hhead, htail]
      rfl
    · have hle := hrest.le
      have hsplit : stop - range.begin_ = range.size + (stop - range.end_) := by
        unfold Range.size
        omega
      have hshift : range.begin_ + range.size = range.end_ := by
        unfold Range.size
        omega
      rw [flatten_cons, flatMap_append, hvisits, hothers, hsplit, range_add, map_append, map_map]
      simp only [comp_def, ← hshift, Nat.add_assoc]

/-- Two rows of three, in two ranges that meet within a row. -/
theorem internalSerialForEach_consecutive_rows :
    ∃ calls, [Range.mk 0 2, ⟨2, 6⟩].mapM (internalSerialForEach [3, 2] [1, 3] [0]) = .ok calls ∧
      calls.flatten.flatMap LoopCall.visits =
        (List.range 6).map fun k => pointersAt [3, 2] [0] [1, 3] (0 + k) :=
  internalSerialForEach_consecutive [0] [1, 3] (by decide) (by decide)
    (show Consecutive _ 0 6 from ⟨rfl, by decide, rfl, by decide, rfl⟩) (by decide) (by decide)

/-- The empty range behind the last element is refused. -/
theorem internalSerialForEach_end :
    internalSerialForEach [2, 2] [1, 2] [0] ⟨4, 4⟩ = .error "linear_offset == 0" := by
  decide

end Cuts

end PyTorchCore.TensorIterator
