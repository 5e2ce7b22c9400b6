import PyTorchCore.BoundsOverlap.Bounds

/-!
# Differences guessed at one

The ends of a bound may mention a variable.  `boundOverlap` goes by differences that are constant,
so that what it says holds for every value of it; but it reads the differences off as 32-bit
numbers.
-/

namespace PyTorchCore.BoundsOverlap

namespace Bound

/-- The start is not behind the stop. -/
def WellFormed (a : Bound) (v : ℤ) : Prop :=
  a.start.eval v ≤ a.stop.eval v

instance (a : Bound) (v : ℤ) : Decidable (a.WellFormed v) :=
  inferInstanceAs (Decidable (_ ≤ _))

/-- The integers of a bound at a value of the variable. -/
def Has (a : Bound) (v i : ℤ) : Prop :=
  a.start.eval v ≤ i ∧ i ≤ a.stop.eval v

end Bound

variable {a b : Bound} {v : ℤ}

/-! ## The verdict -/

section Verdict

/-- What a verdict says of two bounds at a value of the variable. -/
def TrueAt (a b : Bound) (v : ℤ) : OverlapKind → Prop
  | .noOverlap => ∀ i, ¬ (a.Has v i ∧ b.Has v i)
  | .containedOrEqual => ∀ i, a.Has v i → b.Has v i
  | .contains => ∀ i, b.Has v i → a.Has v i
  | .partialOverlap => True

theorem eval_of_equals {a b : Expr} (h : a.equals b = true) (v : ℤ) : a.eval v = b.eval v := by
  rw [Expr.equals, Bool.and_eq_true, beq_iff_eq] at h
  have hdiff := Expr.eval_sub_of_isConstant h.1 v
  omega

/-- The starts are equal, and so are the stops. -/
def SameEnds (a b : Bound) : Prop :=
  a.start.equals b.start = true ∧ a.stop.equals b.stop = true

variable (read : Expr → ℤ) (a b : Bound)

/-- The bounds are disjoint by constant differences, which are read off with `read`. -/
def Separated : Prop :=
  ((Expr.simplify (.sub a.start b.stop)).isConstant = true ∧
      (Expr.simplify (.sub b.start a.stop)).isConstant = true) ∧
    (read (Expr.simplify (.sub a.start b.stop)) > 0 ∨
      read (Expr.simplify (.sub b.start a.stop)) > 0)

/-- The starts and the stops have constant differences. -/
def SameShape : Prop :=
  (Expr.simplify (.sub b.start a.start)).isConstant = true ∧
    (Expr.simplify (.sub b.stop a.stop)).isConstant = true

/-- `a` lies in `b` by constant differences. -/
def Inside : Prop :=
  SameShape a b ∧ read (Expr.simplify (.sub b.start a.start)) ≤ 0 ∧
    read (Expr.simplify (.sub b.stop a.stop)) ≥ 0

/-- `b` lies in `a` by constant differences. -/
def Around : Prop :=
  SameShape a b ∧ read (Expr.simplify (.sub b.start a.start)) ≥ 0 ∧
    read (Expr.simplify (.sub b.stop a.stop)) ≤ 0

/-- What is read off the differences cut to 32 bits is so of the differences. -/
structure CutHarmless : Prop where
  separated : Separated Expr.immediate a b → Separated Expr.value a b
  inside : ¬ Separated Expr.immediate a b → Inside Expr.immediate a b → Inside Expr.value a b
  around : ¬ Separated Expr.immediate a b → ¬ Inside Expr.immediate a b →
    Around Expr.immediate a b → Around Expr.value a b

/-- The five ways to a verdict, with what was found out on each. -/
inductive Verdict : OverlapKind → Prop
  | same : SameEnds a b → Verdict .containedOrEqual
  | separated : ¬ SameEnds a b → Separated Expr.immediate a b → Verdict .noOverlap
  | inside : ¬ SameEnds a b → ¬ Separated Expr.immediate a b → Inside Expr.immediate a b →
      Verdict .containedOrEqual
  | around : ¬ SameEnds a b → ¬ Separated Expr.immediate a b → ¬ Inside Expr.immediate a b →
      Around Expr.immediate a b → Verdict .contains
  | none : ¬ SameEnds a b → ¬ Separated Expr.immediate a b → ¬ Inside Expr.immediate a b →
      ¬ Around Expr.immediate a b → Verdict .partialOverlap

theorem boundOverlap_verdict : Verdict a b (boundOverlap a b) := by
  simp only [boundOverlap, Bool.and_eq_true, Bool.or_eq_true, decide_eq_true_eq]
  split_ifs with hsame hseparated hshape hinside haround
  · exact .same hsame
  · exact .separated hsame hseparated
  · exact .inside hsame hseparated ⟨hshape, hinside⟩
  · exact .around hsame hseparated (fun h => hinside h.2) ⟨hshape, haround⟩
  · exact .none hsame hseparated (fun h => hinside h.2) fun h => haround h.2
  · exact .none hsame hseparated (fun h => hshape h.1) fun h => hshape h.1

variable {read a b}

theorem SameEnds.within (h : SameEnds a b) (v i : ℤ) (hi : a.Has v i) : b.Has v i := by
  have hstart := eval_of_equals h.1 v
  have hstop := eval_of_equals h.2 v
  obtain ⟨_, _⟩ := hi
  exact ⟨by omega, by omega⟩

/-- At a value at which both bounds are well formed, they are disjoint if their constant
differences say so. -/
theorem trueAt_noOverlap (ha : a.WellFormed v) (hb : b.WellFormed v) (h : Separated read a b) :
    TrueAt a b v .noOverlap ↔ Separated Expr.value a b := by
  obtain ⟨⟨hlow, hhigh⟩, -⟩ := h
  have hlow' := Expr.eval_sub_of_isConstant hlow v
  have hhigh' := Expr.eval_sub_of_isConstant hhigh v
  rw [Bound.WellFormed] at ha hb
  simp only [TrueAt, Separated, hlow, hhigh, true_and, Bound.Has]
  constructor
  · intro hapart
    by_contra hmeet
    exact hapart (max (a.start.eval v) (b.start.eval v)) ⟨⟨by omega, by omega⟩, by omega, by omega⟩
  · rintro hpositive i ⟨⟨_, _⟩, _, _⟩
    omega

theorem trueAt_containedOrEqual (ha : a.WellFormed v) (h : SameShape a b) :
    TrueAt a b v .containedOrEqual ↔ Inside Expr.value a b := by
  have hstart := Expr.eval_sub_of_isConstant h.1 v
  have hstop := Expr.eval_sub_of_isConstant h.2 v
  rw [Bound.WellFormed] at ha
  simp only [TrueAt, Inside, h, true_and, Bound.Has]
  constructor
  · intro hwithin
    have hfirst := hwithin _ ⟨le_rfl, ha⟩
    have hlast := hwithin _ ⟨ha, le_rfl⟩
    omega
  · rintro hsigns i ⟨_, _⟩
    omega

theorem trueAt_contains (hb : b.WellFormed v) (h : SameShape a b) :
    TrueAt a b v .contains ↔ Around Expr.value a b := by
  have hstart := Expr.eval_sub_of_isConstant h.1 v
  have hstop := Expr.eval_sub_of_isConstant h.2 v
  rw [Bound.WellFormed] at hb
  simp only [TrueAt, Around, h, true_and, Bound.Has]
  constructor
  · intro hwithin
    have hfirst := hwithin _ ⟨le_rfl, hb⟩
    have hlast := hwithin _ ⟨hb, le_rfl⟩
    omega
  · rintro hsigns i ⟨_, _⟩
    omega

/-- A verdict is true where the cut does no harm. -/
theorem Verdict.true_iff {kind : OverlapKind} (h : Verdict a b kind) (ha : a.WellFormed v)
    (hb : b.WellFormed v) : TrueAt a b v kind ↔ SameEnds a b ∨ CutHarmless a b := by
  cases h with
  | same hsame => exact iff_of_true (hsame.within v) (.inl hsame)
  | separated hsame hseparated =>
    rw [trueAt_noOverlap ha hb hseparated, or_iff_right hsame]
    exact ⟨fun h => ⟨fun _ => h, (absurd hseparated ·), (absurd hseparated ·)⟩,
      fun h => h.separated hseparated⟩
  | inside hsame hseparated hinside =>
    rw [trueAt_containedOrEqual ha hinside.1, or_iff_right hsame]
    exact ⟨fun h => ⟨(absurd · hseparated), fun _ _ => h, fun _ => (absurd hinside ·)⟩,
      fun h => h.inside hseparated hinside⟩
  | around hsame hseparated hinside haround =>
    rw [trueAt_contains hb haround.1, or_iff_right hsame]
    exact ⟨fun h => ⟨(absurd · hseparated), fun _ => (absurd · hinside), fun _ _ _ => h⟩,
      fun h => h.around hseparated hinside haround⟩
  | none hsame hseparated hinside haround =>
    exact iff_of_true trivial
      (.inr ⟨(absurd · hseparated), fun _ => (absurd · hinside), fun _ _ => (absurd · haround)⟩)

end Verdict

/-! ## The guess -/

section Guess

theorem poly_substitute (e : Expr) (c : ℤ) : (e.substitute c).poly = [e.eval c] := by
  induction e with
  | imm value => rfl
  | var => rfl
  | add lhs rhs ihl ihr => simp only [Expr.substitute, Expr.poly, ihl, ihr, Poly.add, Expr.eval]
  | sub lhs rhs ihl ihr =>
    simp [Expr.substitute, Expr.poly, ihl, ihr, Poly.add, Poly.scale, Expr.eval, sub_eq_add_neg]
  | mul lhs rhs ihl ihr =>
    simp [Expr.substitute, Expr.poly, ihl, ihr, Poly.mul, Poly.add, Poly.scale, Expr.eval]

theorem simplify_of_poly {e : Expr} {c : ℤ} (h : e.poly = [c]) : e.simplify = .imm c := by
  rw [Expr.simplify, h]
  by_cases hc : c = 0
  · simp [Poly.normal, hc, Expr.ofPoly]
  · simp [Poly.normal, hc, Expr.ofPoly]

theorem hasVar_ofPoly {p : Poly} (h : (Expr.ofPoly p).isConstant = false) :
    (Expr.ofPoly p).hasVar = true := by
  match p, h with
  | c :: d :: p, _ => simp [Expr.ofPoly, Expr.hasVar]

theorem guessDiff_eq (b a : Expr) : guessDiff b a = .imm (b.eval 1 - a.eval 1) := by
  rw [guessDiff]
  by_cases hconstant : (Expr.simplify (.sub b a)).isConstant = true
  · have hdiff := Expr.eval_sub_of_isConstant hconstant 1
    simp only [hconstant, Bool.not_true, Bool.false_and, Bool.false_eq_true, if_false, hdiff]
    cases hvalue : Expr.simplify (.sub b a) with
    | imm value => rfl
    | _ =>
      rw [hvalue] at hconstant
      cases hconstant
  · rw [Bool.not_eq_true] at hconstant
    have hvar : (Expr.simplify (.sub b a)).hasVar = true := hasVar_ofPoly hconstant
    simp only [hconstant, hvar, Bool.not_false, Bool.true_and, if_true]
    refine simplify_of_poly ?_
    simp [Expr.poly, poly_substitute, Poly.add, Poly.scale, sub_eq_add_neg]

end Guess

/-! ## The slices -/

section Slices

/-- One end is a constant in one bound and not in the other. -/
def Mixed (a b : Bound) : Prop :=
  a.start.isConstant ≠ b.start.isConstant ∨ a.stop.isConstant ≠ b.stop.isConstant

/-- How far `a` sticks out in front at one, cut to 32 bits. -/
def headAtOne (a b : Bound) : ℤ :=
  (b.start.eval 1 - a.start.eval 1).bmod (2 ^ 32)

/-- How far `b` reaches behind `a` at one, cut to 32 bits. -/
def tailAtOne (a b : Bound) : ℤ :=
  (b.stop.eval 1 - a.stop.eval 1).bmod (2 ^ 32)

/-- Where a bound sticks out at some value, it is seen to do so at one. -/
def GuessHolds (a b : Bound) : Prop :=
  ∀ v, a.WellFormed v → b.WellFormed v →
    (a.start.eval v < b.start.eval v → 0 < headAtOne a b) ∧
      (b.stop.eval v < a.stop.eval v → tailAtOne a b < 0)

/-- The slices have everything of `a` that is not in `b`. -/
def CoversAt (slices : List Bound) (a b : Bound) (v : ℤ) : Prop :=
  ∀ i, a.Has v i → ¬ b.Has v i → ∃ slice ∈ slices, slice.Has v i

theorem subtractOverlapping_mixed (h : Mixed a b) : subtractOverlapping a b = [a] := by
  rw [subtractOverlapping]
  exact if_pos h

theorem subtractOverlapping_eq (h : ¬ Mixed a b) : subtractOverlapping a b =
      (if 0 < headAtOne a b then [⟨a.start, Expr.simplify (.sub b.start (.imm 1))⟩] else []) ++
        (if tailAtOne a b < 0 then [⟨Expr.simplify (.add b.stop (.imm 1)), a.stop⟩] else []) := by
  rw [subtractOverlapping]
  refine (if_neg h).trans ?_
  simp only [guessDiff_eq, Expr.isConstant, Expr.immediate, Expr.value, Bool.true_and,
    Bool.and_self, Bool.not_true, Bool.false_eq_true, if_false, decide_eq_true_eq, gt_iff_lt]
  rfl

theorem covers_self (a b : Bound) (v : ℤ) : CoversAt [a] a b v :=
  fun _ hi _ => ⟨a, List.mem_singleton_self a, hi⟩

/-- Slices that are handed out wherever `a` sticks out cover what is not in `b`. -/
theorem covers_of_guess (h : ¬ Mixed a b)
    (hhead : a.start.eval v < b.start.eval v → 0 < headAtOne a b)
    (htail : b.stop.eval v < a.stop.eval v → tailAtOne a b < 0) :
    CoversAt (subtractOverlapping a b) a b v := by
  intro i hi hnot
  rw [subtractOverlapping_eq h]
  obtain ⟨hlo, hhi⟩ := hi
  by_cases hbelow : i < b.start.eval v
  · have hone := hhead (by omega)
    refine ⟨⟨a.start, Expr.simplify (.sub b.start (.imm 1))⟩, ?_, hlo, ?_⟩
    · rw [if_pos hone]
      exact List.mem_append_left _ (List.mem_singleton_self _)
    · simp only [Expr.eval_simplify, Expr.eval]
      omega
  · have habove : b.stop.eval v < i := by
      by_contra hle
      exact hnot ⟨by omega, by omega⟩
    have hone := htail (by omega)
    refine ⟨⟨Expr.simplify (.add b.stop (.imm 1)), a.stop⟩, ?_, ?_, hhi⟩
    · rw [if_pos hone]
      exact List.mem_append_right _ (List.mem_singleton_self _)
    · simp only [Expr.eval_simplify, Expr.eval]
      omega

/-- Each slice lies on its side of `b`, and no other covers what sticks out there. -/
theorem guess_of_covers (h : ¬ Mixed a b) (ha : a.WellFormed v) (hb : b.WellFormed v)
    (hcovers : CoversAt (subtractOverlapping a b) a b v) :
    (a.start.eval v < b.start.eval v → 0 < headAtOne a b) ∧
      (b.stop.eval v < a.stop.eval v → tailAtOne a b < 0) := by
  rw [subtractOverlapping_eq h] at hcovers
  rw [Bound.WellFormed] at ha hb
  constructor
  · intro hlt
    by_contra hguess
    -- The start of `a` lies below `b`, and only the tail is handed out.
    obtain ⟨slice, hslice, hlo, hhi⟩ :=
      hcovers (a.start.eval v) ⟨Int.le_refl _, ha⟩ fun hi => by
        have := hi.1
        omega
    rw [if_neg hguess, List.nil_append] at hslice
    split at hslice
    · rw [List.mem_singleton.mp hslice] at hlo
      simp only [Expr.eval_simplify, Expr.eval] at hlo
      omega
    · cases hslice
  · intro hlt
    by_contra hguess
    obtain ⟨slice, hslice, hlo, hhi⟩ :=
      hcovers (a.stop.eval v) ⟨ha, Int.le_refl _⟩ fun hi => by
        have := hi.2
        omega
    rw [if_neg hguess, List.append_nil] at hslice
    split at hslice
    · rw [List.mem_singleton.mp hslice] at hhi
      simp only [Expr.eval_simplify, Expr.eval] at hhi
      omega
    · cases hslice

theorem covers_overlapping_iff : (∀ v, a.WellFormed v → b.WellFormed v →
      CoversAt (subtractOverlapping a b) a b v) ↔ Mixed a b ∨ GuessHolds a b := by
  by_cases hmixed : Mixed a b
  · refine iff_of_true (fun v _ _ => ?_) (.inl hmixed)
    rw [subtractOverlapping_mixed hmixed]
    exact covers_self a b v
  · rw [or_iff_right hmixed]
    constructor
    · exact fun h v ha hb => guess_of_covers hmixed ha hb (h v ha hb)
    · exact fun h v ha hb => covers_of_guess hmixed (h v ha hb).1 (h v ha hb).2

/-- A bound inside another does not stick out at any value. -/
theorem Inside.guessHolds (h : Inside Expr.value a b) : GuessHolds a b := by
  intro v _ _
  have hstart := Expr.eval_sub_of_isConstant h.1.1 v
  have hstop := Expr.eval_sub_of_isConstant h.1.2 v
  obtain ⟨-, _, _⟩ := h
  exact ⟨fun _ => by omega, fun _ => by omega⟩

/-- The slices of a verdict that is true cover the rest where the bounds are separated by
constants, or mixed, or what sticks out is seen to do so. -/
theorem subtractBound_covers (hsame : ¬ SameEnds a b) (hcut : CutHarmless a b) :
    (∀ v, a.WellFormed v → b.WellFormed v → CoversAt (subtractBound a b) a b v) ↔
      Separated Expr.immediate a b ∨ Mixed a b ∨ GuessHolds a b := by
  have hverdict := boundOverlap_verdict a b
  rw [subtractBound]
  generalize boundOverlap a b = kind at hverdict
  cases hverdict with
  | same h => exact absurd h hsame
  | separated _ h => exact iff_of_true (fun v _ _ => covers_self a b v) (.inl h)
  | inside _ hseparated hinside =>
    have hvalue := hcut.inside hseparated hinside
    refine iff_of_true (fun v ha _ i hi hnot => absurd ?_ hnot) (.inr (.inr hvalue.guessHolds))
    exact (trueAt_containedOrEqual ha hinside.1).mpr hvalue i hi
  | around _ hseparated _ _ => exact covers_overlapping_iff.trans (or_iff_right hseparated).symm
  | none _ hseparated _ _ => exact covers_overlapping_iff.trans (or_iff_right hseparated).symm

/-- The verdict is true and the slices cover the rest exactly where no value makes both bounds
well formed, or the ends are the same, or cutting the differences to 32 bits does no harm and the
slices are found. -/
theorem subtractBound_covers_iff (a b : Bound) : (∀ v, a.WellFormed v → b.WellFormed v →
      TrueAt a b v (boundOverlap a b) ∧ CoversAt (subtractBound a b) a b v) ↔
        (∀ v, a.WellFormed v → ¬ b.WellFormed v) ∨ SameEnds a b ∨
          CutHarmless a b ∧ (Separated Expr.immediate a b ∨ Mixed a b ∨ GuessHolds a b) := by
  have hverdict := boundOverlap_verdict a b
  by_cases hnowhere : ∀ v, a.WellFormed v → ¬ b.WellFormed v
  · exact iff_of_true (fun v ha hb => absurd hb (hnowhere v ha)) (.inl hnowhere)
  rw [or_iff_right hnowhere]
  by_cases hsame : SameEnds a b
  · refine iff_of_true (fun v ha hb =>
      ⟨(hverdict.true_iff ha hb).mpr (.inl hsame), ?_⟩) (.inl hsame)
    intro i hi hnot
    exact absurd (hsame.within v i hi) hnot
  rw [or_iff_right hsame]
  constructor
  · intro h
    push Not at hnowhere
    obtain ⟨v, ha, hb⟩ := hnowhere
    have hcut := ((hverdict.true_iff ha hb).mp (h v ha hb).1).resolve_left hsame
    exact ⟨hcut, (subtractBound_covers hsame hcut).mp fun v ha hb => (h v ha hb).2⟩
  · rintro ⟨hcut, hslices⟩ v ha hb
    exact ⟨(hverdict.true_iff ha hb).mpr (.inr hcut),
      (subtractBound_covers hsame hcut).mpr hslices v ha hb⟩

/-- The range from `v` to 10 minus the range from `-v` to 10 is nothing, by the guess; at `-1`
the first of them starts first. -/
theorem subtractBound_uncovered : ∃ (a b : Bound) (v : ℤ), a.WellFormed v ∧ b.WellFormed v ∧
    ¬ CoversAt (subtractBound a b) a b v := by
  refine ⟨⟨.var, .imm 10⟩, ⟨.sub (.imm 0) .var, .imm 10⟩, -1, by decide, by decide, ?_⟩
  intro h
  obtain ⟨slice, hslice, -⟩ := h (-1) ⟨by decide, by decide⟩ fun hi => absurd hi.1 (by decide)
  cases hslice

end Slices

end PyTorchCore.BoundsOverlap
