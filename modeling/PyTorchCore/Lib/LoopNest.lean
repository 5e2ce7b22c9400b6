import Mathlib.Algebra.BigOperators.Group.List.Basic
import Mathlib.Data.List.Nodup
import Mathlib.Data.List.Range
import Mathlib.Data.Nat.ModEq
import Mathlib.Tactic.Ring

/-!
# Loop nests

A loop nest is a list of axes, each with a size and a stride; the first axis is the fastest.
-/

namespace PyTorchCore.Lib

open List

universe u

/-- One loop of a nest. -/
@[ext] structure Axis (M : Type u) where
  size : Nat
  stride : M

namespace LoopNest

section Walk

variable {M : Type u}

/-- The number of iterations of a nest. -/
def volume (axes : List (Axis M)) : Nat :=
  (axes.map Axis.size).prod

@[simp] theorem volume_nil : volume ([] : List (Axis M)) = 1 := rfl

@[simp] theorem volume_cons (a : Axis M) (l : List (Axis M)) :
    volume (a :: l) = a.size * volume l := by
  simp [volume]

variable [AddCommMonoid M]

/-- The offset of the `n`-th iteration; the first axis takes the lowest digit. -/
def offsetAt : List (Axis M) → Nat → M
  | [], _ => 0
  | a :: l, n => (n % a.size) • a.stride + offsetAt l (n / a.size)

/-- The offsets of all iterations, in order. -/
def offsets (axes : List (Axis M)) : List M :=
  (List.range (volume axes)).map (offsetAt axes)

@[simp] theorem offsets_nil : offsets ([] : List (Axis M)) = [0] := rfl

/-- Counting to a product is counting in blocks. -/
theorem range_mul_eq_flatMap (s m : Nat) : List.range (s * m) =
      (List.range m).flatMap fun q => (List.range s).map fun i => s * q + i := by
  induction m with
  | zero => simp
  | succ m ih =>
    rw [Nat.mul_succ, range_add, ih, range_succ, flatMap_append]
    simp

/-- The first axis runs through its indices for every iteration of the others. -/
theorem offsets_cons (a : Axis M) (l : List (Axis M)) : offsets (a :: l) =
      (offsets l).flatMap fun o => (List.range a.size).map fun i => i • a.stride + o := by
  unfold offsets
  rw [volume_cons, range_mul_eq_flatMap, map_flatMap, flatMap_map]
  congr 1
  funext q
  rw [map_map]
  apply map_congr_left
  intro i hi
  have hlt : i < a.size := mem_range.mp hi
  have hpos : 0 < a.size := by omega
  simp only [Function.comp, offsetAt]
  rw [Nat.mul_add_mod, Nat.mod_eq_of_lt hlt, Nat.mul_add_div hpos, Nat.div_eq_of_lt hlt,
    Nat.add_zero]

theorem offsets_concat (l : List (Axis M)) (a : Axis M) : offsets (l ++ [a]) =
      (List.range a.size).flatMap fun i => (offsets l).map fun o => i • a.stride + o := by
  induction l with
  | nil =>
    rw [nil_append, offsets_cons]
    simp [← map_eq_flatMap]
  | cons x l ih =>
    rw [cons_append, offsets_cons, ih, flatMap_assoc, offsets_cons]
    congr 1
    funext j
    rw [flatMap_map, map_flatMap]
    congr 1
    funext o
    rw [map_map]
    apply map_congr_left
    intro i _
    exact add_left_comm _ _ _

theorem flatMap_map_perm {α β γ : Type*} (f : α → β → γ) (xs : List α) (ys : List β) :
    (xs.flatMap fun x => ys.map (f x)).Perm (ys.flatMap fun y => xs.map fun x => f x y) := by
  induction xs with
  | nil => simp
  | cons x xs ih =>
    exact (ih.append_left _).trans (map_append_flatMap_perm ys (f x) _)

theorem offsets_swap (a b : Axis M) (l : List (Axis M)) :
    (offsets (a :: b :: l)).Perm (offsets (b :: a :: l)) := by
  rw [offsets_cons, offsets_cons, offsets_cons b, offsets_cons a, flatMap_assoc, flatMap_assoc]
  apply Perm.flatMap_left
  intro o _
  simp only [flatMap_map]
  refine (flatMap_map_perm (fun j i => i • a.stride + (j • b.stride + o)) _ _).trans ?_
  apply Perm.of_eq
  congr 1
  funext i
  apply map_congr_left
  intro j _
  exact add_left_comm _ _ _

variable {l r : List (Axis M)}

/-- Reordering the loops keeps the multiset of offsets. -/
theorem offsets_perm (h : l.Perm r) : (offsets l).Perm (offsets r) := by
  induction h with
  | nil => exact Perm.refl _
  | cons a _ ih =>
    rw [offsets_cons, offsets_cons]
    exact ih.flatMap_right _
  | swap a b l => exact offsets_swap b a l
  | trans _ _ ih₁ ih₂ => exact ih₁.trans ih₂

/-! ## Rewrites that keep the order -/

/-- Two nests that make the same iterations in the same order. -/
def SameWalk (l r : List (Axis M)) : Prop :=
  volume l = volume r ∧ ∀ n, offsetAt l n = offsetAt r n

theorem SameWalk.refl (l : List (Axis M)) : SameWalk l l :=
  ⟨rfl, fun _ => rfl⟩

theorem SameWalk.trans {l m r : List (Axis M)} (h : SameWalk l m) (h' : SameWalk m r) :
    SameWalk l r :=
  ⟨h.1.trans h'.1, fun n => (h.2 n).trans (h'.2 n)⟩

theorem SameWalk.offsets_eq (h : SameWalk l r) : offsets l = offsets r := by
  unfold offsets
  rw [h.1]
  exact map_congr_left fun n _ => h.2 n

theorem SameWalk.cons (a : Axis M) (h : SameWalk l r) : SameWalk (a :: l) (a :: r) := by
  refine ⟨?_, ?_⟩
  · rw [volume_cons, volume_cons, h.1]
  · intro n
    rw [offsetAt, offsetAt, h.2]

/-- A rewrite may be applied below any outer part of the list. -/
theorem SameWalk.append_left (h : SameWalk l r)
    (front : List (Axis M)) : SameWalk (front ++ l) (front ++ r) := by
  induction front with
  | nil => exact h
  | cons a front ih => exact ih.cons a

theorem sameWalk_drop_one {a : Axis M} (ha : a.size = 1) (l : List (Axis M)) :
    SameWalk (a :: l) l := by
  refine ⟨?_, ?_⟩
  · rw [volume_cons, ha, Nat.one_mul]
  · intro n
    rw [offsetAt, ha, Nat.mod_one, Nat.div_one, zero_nsmul, zero_add]

/-- Two neighbouring axes are one if the second continues the first. -/
theorem sameWalk_merge {a b : Axis M} (h : a.size • a.stride = b.stride) (l : List (Axis M)) :
    SameWalk (a :: b :: l) (⟨a.size * b.size, a.stride⟩ :: l) := by
  refine ⟨?_, ?_⟩
  · simp only [volume_cons]
    ring
  · intro n
    simp only [offsetAt]
    rw [Nat.mod_mul, Nat.div_div_eq_div_mul, ← h, ← mul_nsmul, ← add_assoc, add_nsmul]

theorem sameWalk_filter (l : List (Axis M)) : SameWalk l (l.filter fun a => a.size ≠ 1) := by
  induction l with
  | nil => exact SameWalk.refl _
  | cons a l ih =>
    by_cases ha : a.size = 1
    · rw [filter_cons_of_neg (by simpa using ha)]
      exact (sameWalk_drop_one ha l).trans ih
    · rw [filter_cons_of_pos (by simpa using ha)]
      exact ih.cons a

/-! ## Dense nests -/

/-- Every axis starts where the ones before it end: the strides are `g`, and then
`g` times the sizes so far. -/
def Dense (g : M) : List (Axis M) → Prop
  | [] => True
  | a :: l => a.stride = g ∧ Dense (a.size • g) l

theorem offsetAt_dense {g : M} {l : List (Axis M)} (h : Dense g l) (n : Nat) :
    offsetAt l n = (n % volume l) • g := by
  induction l generalizing g n with
  | nil => simp [offsetAt, Nat.mod_one]
  | cons a l ih =>
    obtain ⟨ha, hl⟩ := h
    rw [offsetAt, ih hl, ha, volume_cons, Nat.mod_mul, add_nsmul, ← mul_nsmul]

theorem offsets_dense {g : M} {l : List (Axis M)} (h : Dense g l) :
    offsets l = (List.range (volume l)).map fun n => n • g := by
  apply map_congr_left
  intro n hn
  rw [offsetAt_dense h, Nat.mod_eq_of_lt (mem_range.mp hn)]

/-! ## Index tuples -/

/-- The index tuples of a shape in row-major order: the last index is the fastest. -/
def rowMajor : List Nat → List (List Nat)
  | [] => [[]]
  | n :: shape => (List.range n).flatMap fun i => (rowMajor shape).map (i :: ·)

/-- The linear form of an index tuple. -/
def dot : List Nat → List M → M
  | i :: idx, s :: strides => i • s + dot idx strides
  | _, _ => 0

/-- The linear form as a sum over the positions. -/
theorem dot_map_range (idx : List Nat) (f : Nat → M) :
    dot idx ((List.range idx.length).map f) =
      ((List.range idx.length).map fun d => idx.getD d 0 • f d).sum := by
  induction idx generalizing f with
  | nil => rfl
  | cons i idx ih =>
    simp only [length_cons, range_succ_eq_map, map_cons, map_map, dot, sum_cons, getD_cons_zero]
    rw [ih]
    rfl

/-- The mixed radix digits of `n`, lowest first. -/
def digits : List Nat → Nat → List Nat
  | [], _ => []
  | s :: shape, n => n % s :: digits shape (n / s)

@[simp] theorem length_digits (shape : List Nat) (n : Nat) :
    (digits shape n).length = shape.length := by
  induction shape generalizing n with
  | nil => rfl
  | cons s shape ih => simp [digits, ih]

theorem digits_zero (shape : List Nat) : digits shape 0 = List.replicate shape.length 0 := by
  induction shape with
  | nil => rfl
  | cons s shape ih => simp [digits, ih, replicate_succ]

theorem offsetAt_eq_dot (axes : List (Axis M)) (n : Nat) :
    offsetAt axes n = dot (digits (axes.map Axis.size) n) (axes.map Axis.stride) := by
  induction axes generalizing n with
  | nil => rfl
  | cons a axes ih => simp [offsetAt, digits, dot, ih]

/-- The tuples are those with every index below its size. -/
theorem mem_rowMajor {shape idx : List Nat} : idx ∈ rowMajor shape ↔ Forall₂ (· < ·) idx shape := by
  induction shape generalizing idx with
  | nil => simp [rowMajor]
  | cons n shape ih =>
    simp only [rowMajor, mem_flatMap, mem_range, mem_map, ih]
    constructor
    · rintro ⟨i, hi, idx, h, rfl⟩
      exact Forall₂.cons hi h
    · intro h
      cases h with
      | cons hi h => exact ⟨_, hi, _, h, rfl⟩

/-- The nest with the axes in reverse order walks through the index tuples in
row-major order. -/
theorem offsets_reverse (axes : List (Axis M)) : offsets axes.reverse =
      (rowMajor (axes.map Axis.size)).map fun idx => dot idx (axes.map Axis.stride) := by
  induction axes with
  | nil => rfl
  | cons a axes ih =>
    rw [reverse_cons, offsets_concat, ih]
    simp only [map_cons, rowMajor, map_flatMap, map_map]
    rfl

end Walk

end LoopNest
end PyTorchCore.Lib
