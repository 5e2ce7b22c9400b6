import Mathlib.Data.List.Forall2
import Mathlib.Data.Set.Lattice
import PyTorchCore.BoundsOverlap.Bounds

/-!
# Boxes of constant bounds

A range is a bound whose ends are constants in order.
-/

namespace PyTorchCore.BoundsOverlap

open List

/-- The ends of a constant bound. -/
structure Range where
  lo : ℤ
  hi : ℤ
  le : lo ≤ hi

namespace Range

def bound (r : Range) : Bound :=
  ⟨.imm r.lo, .imm r.hi⟩

def Has (r : Range) (i : ℤ) : Prop :=
  r.lo ≤ i ∧ i ≤ r.hi

variable (r s : Range)

/-- Nothing in common. -/
def Apart : Prop :=
  r.hi < s.lo ∨ s.hi < r.lo

/-- `r` lies in `s`. -/
def Within : Prop :=
  s.lo ≤ r.lo ∧ r.hi ≤ s.hi

/-- They meet, and neither lies in the other. -/
def Partial : Prop :=
  ¬ r.Apart s ∧ ¬ r.Within s ∧ ¬ s.Within r

/-- The differences of the ends fit an `int`. -/
def DifferencesFit : Prop :=
  max r.hi s.hi - min r.lo s.lo < 2 ^ 31

instance : Decidable (r.DifferencesFit s) :=
  inferInstanceAs (Decidable (_ < _))

instance : Decidable (r.Apart s) :=
  inferInstanceAs (Decidable (_ ∨ _))

instance : Decidable (r.Within s) :=
  inferInstanceAs (Decidable (_ ∧ _))

instance : Decidable (r.Partial s) :=
  inferInstanceAs (Decidable (_ ∧ _))

/-- The verdict for one dimension. -/
def kind : OverlapKind :=
  if r.Within s then .containedOrEqual
  else if r.Apart s then .noOverlap
  else if s.Within r then .contains
  else .partialOverlap

variable {r s}

theorem apart_iff : r.Apart s ↔ ∀ i, ¬ (r.Has i ∧ s.Has i) := by
  have hr := r.le
  have hs := s.le
  constructor
  · intro h i hi
    obtain ⟨⟨_, _⟩, _, _⟩ := hi
    rcases h with h | h <;> omega
  · intro h
    by_contra hmeet
    rw [Apart, not_or] at hmeet
    refine h (max r.lo s.lo) ⟨⟨?_, ?_⟩, ?_, ?_⟩ <;> omega

theorem within_iff : r.Within s ↔ ∀ i, r.Has i → s.Has i := by
  have hr := r.le
  constructor
  · rintro ⟨hlo, hhi⟩ i ⟨hi, hi'⟩
    exact ⟨by omega, by omega⟩
  · intro h
    exact ⟨(h r.lo ⟨Int.le_refl _, hr⟩).1, (h r.hi ⟨hr, Int.le_refl _⟩).2⟩

theorem not_apart_of_within (h : r.Within s) : ¬ r.Apart s := by
  have hr := r.le
  rintro (hapart | hapart)
  · have := h.1
    omega
  · have := h.2
    omega

/-- No overlap is said of ranges that are apart. -/
theorem kind_noOverlap : r.kind s = .noOverlap ↔ r.Apart s := by
  rw [kind]
  split
  · next h => exact iff_of_false (nofun) (not_apart_of_within h)
  · split
    · next h => exact iff_of_true rfl h
    · next h =>
        refine iff_of_false ?_ h
        split
        · exact nofun
        · exact nofun

/-- Containment is said of a range within the other. -/
theorem kind_containedOrEqual : r.kind s = .containedOrEqual ↔ r.Within s := by
  rw [kind]
  split
  · next h => exact iff_of_true rfl h
  · next h =>
      refine iff_of_false ?_ h
      split
      · exact nofun
      · split
        · exact nofun
        · exact nofun

theorem kind_contains : r.kind s = .contains ↔ s.Within r ∧ ¬ r.Within s := by
  rw [kind]
  split
  · next h => exact iff_of_false (nofun) fun h' => h'.2 h
  · next hwithin =>
      split
      · next h =>
          refine iff_of_false (nofun) fun h' => not_apart_of_within h'.1 ?_
          exact h.symm
      · split
        · next h => exact iff_of_true rfl ⟨h, hwithin⟩
        · next h => exact iff_of_false (nofun) fun h' => h h'.1

/-- Partial overlap is said of the rest. -/
theorem kind_partialOverlap : r.kind s = .partialOverlap ↔ r.Partial s := by
  rw [kind, Partial]
  split
  · next h => exact iff_of_false (nofun) fun h' => h'.2.1 h
  · next hwithin =>
      split
      · next h => exact iff_of_false (nofun) fun h' => h'.1 h
      · next hapart =>
          split
          · next h => exact iff_of_false (nofun) fun h' => h'.2.2 h
          · next h => exact iff_of_true rfl ⟨hapart, hwithin, h⟩

end Range

section OneDimension

variable {r s : Range}

@[simp] theorem simplify_sub_imm (a b : ℤ) :
    Expr.simplify (.sub (.imm a) (.imm b)) = .imm (a - b) := by
  by_cases h : a + -b = 0
  · have h' : a - b = 0 := by omega
    simp [Expr.simplify, Expr.poly, Poly.add, Poly.scale, Poly.normal, h, h', Expr.ofPoly]
  · have h' : a + -b = a - b := by omega
    rw [h'] at h
    simp [Expr.simplify, Expr.poly, Poly.add, Poly.scale, Poly.normal, h, h', Expr.ofPoly]

@[simp] theorem simplify_add_imm (a b : ℤ) :
    Expr.simplify (.add (.imm a) (.imm b)) = .imm (a + b) := by
  by_cases h : a + b = 0
  · simp [Expr.simplify, Expr.poly, Poly.add, Poly.normal, h, Expr.ofPoly]
  · simp [Expr.simplify, Expr.poly, Poly.add, Poly.normal, h, Expr.ofPoly]

theorem equals_imm (a b : ℤ) : Expr.equals (.imm a) (.imm b) = decide (a = b) := by
  rw [Expr.equals, simplify_sub_imm]
  show (true && (a - b == 0)) = _
  rw [Bool.true_and, Bool.eq_iff_iff, beq_iff_eq, decide_eq_true_eq]
  exact sub_eq_zero

/-- Small differences are not cut. -/
theorem cut_of_fits {x : ℤ} (hlow : -2 ^ 31 < x) (hhigh : x < 2 ^ 31) : x.bmod (2 ^ 32) = x :=
  Int.bmod_eq_of_le (by omega) (by omega)

/-- The code's verdict on two bounds is the kind of the ranges. -/
theorem boundOverlap_bound (h : r.DifferencesFit s) :
    boundOverlap r.bound s.bound = r.kind s := by
  rw [Range.DifferencesFit] at h
  have hr := r.le
  have hs := s.le
  rw [boundOverlap]
  simp only [Range.bound, equals_imm, simplify_sub_imm, Expr.isConstant, Expr.immediate,
    Expr.value, Bool.and_eq_true, Bool.or_eq_true, decide_eq_true_eq, true_and]
  rw [cut_of_fits (x := r.lo - s.hi) (by omega) (by omega),
    cut_of_fits (x := s.lo - r.hi) (by omega) (by omega),
    cut_of_fits (x := s.lo - r.lo) (by omega) (by omega),
    cut_of_fits (x := s.hi - r.hi) (by omega) (by omega)]
  split_ifs with hequal happart hwithin hcontains
  · exact (Range.kind_containedOrEqual.mpr ⟨by omega, by omega⟩).symm
  · refine (Range.kind_noOverlap.mpr ?_).symm
    exact happart.symm.imp (fun h => by omega) fun h => by omega
  · exact (Range.kind_containedOrEqual.mpr ⟨by omega, by omega⟩).symm
  · refine (Range.kind_contains.mpr ⟨⟨by omega, by omega⟩, fun h => ?_⟩).symm
    obtain ⟨_, _⟩ := h
    omega
  · refine (Range.kind_partialOverlap.mpr ⟨?_, ?_, ?_⟩).symm
    · rintro (h | h) <;> omega
    · rintro ⟨_, _⟩
      omega
    · rintro ⟨_, _⟩
      omega

end OneDimension

/-! ## Boxes as sets -/

section Boxes

/-- The points of a box. -/
def Has (A : List Range) (x : List ℤ) : Prop :=
  List.Forall₂ Range.Has A x

def points (A : List Range) : Set (List ℤ) :=
  {x | Has A x}

/-- Membership in a box, dimension by dimension. -/
theorem has_cons {r : Range} {A : List Range} {x : List ℤ} :
    Has (r :: A) x ↔ ∃ i y, x = i :: y ∧ r.Has i ∧ Has A y := by
  constructor
  · intro h
    cases h with
    | cons hi hy => exact ⟨_, _, rfl, hi, hy⟩
  · rintro ⟨i, y, rfl, hi, hy⟩
    exact Forall₂.cons hi hy

@[simp] theorem has_cons_cons {r : Range} {A : List Range} {i : ℤ} {y : List ℤ} :
    Has (r :: A) (i :: y) ↔ r.Has i ∧ Has A y :=
  forall₂_cons

theorem exists_has (A : List Range) : ∃ x, Has A x := by
  induction A with
  | nil => exact ⟨[], Forall₂.nil⟩
  | cons r A ih =>
    obtain ⟨y, hy⟩ := ih
    exact ⟨r.lo :: y, Forall₂.cons ⟨Int.le_refl _, r.le⟩ hy⟩

variable {dims : List (Range × Range)}

theorem apart_boxes_iff : (∀ x, ¬ (Has (dims.map Prod.fst) x ∧ Has (dims.map Prod.snd) x)) ↔
    ∃ d ∈ dims, d.1.Apart d.2 := by
  induction dims with
  | nil =>
    refine iff_of_false (fun h => h [] ⟨Forall₂.nil, Forall₂.nil⟩) ?_
    rintro ⟨d, hd, -⟩
    cases hd
  | cons d dims ih =>
    simp only [exists_mem_cons_iff]
    constructor
    · intro h
      by_contra hnot
      rw [not_or] at hnot
      obtain ⟨hhead, htail⟩ := hnot
      rw [← ih] at htail
      push Not at htail
      obtain ⟨y, hy, hy'⟩ := htail
      rw [Range.apart_iff] at hhead
      push Not at hhead
      obtain ⟨i, hi, hi'⟩ := hhead
      exact h (i :: y) ⟨Forall₂.cons hi hy, Forall₂.cons hi' hy'⟩
    · rintro (h | h) x ⟨hx, hx'⟩
      · obtain ⟨i, y, rfl, hi, -⟩ := has_cons.mp hx
        exact Range.apart_iff.mp h i ⟨hi, (has_cons_cons.mp hx').1⟩
      · obtain ⟨i, y, rfl, -, hy⟩ := has_cons.mp hx
        exact ih.mpr h y ⟨hy, (has_cons_cons.mp hx').2⟩

theorem within_boxes_iff {f g : Range × Range → Range} :
    (∀ x, Has (dims.map f) x → Has (dims.map g) x) ↔ ∀ d ∈ dims, (f d).Within (g d) := by
  induction dims with
  | nil => exact iff_of_true (fun x h => h) fun d hd => absurd hd not_mem_nil
  | cons d dims ih =>
    rw [forall_mem_cons, Range.within_iff, ← ih]
    constructor
    · intro h
      refine ⟨fun i hi => ?_, fun y hy => ?_⟩
      · obtain ⟨y, hy⟩ := exists_has (dims.map f)
        exact (has_cons_cons.mp (h (i :: y) (Forall₂.cons hi hy))).1
      · have hi : (f d).Has (f d).lo := ⟨Int.le_refl _, (f d).le⟩
        exact (has_cons_cons.mp (h ((f d).lo :: y) (Forall₂.cons hi hy))).2
    · rintro ⟨hhead, htail⟩ x hx
      obtain ⟨i, y, rfl, hi, hy⟩ := has_cons.mp hx
      exact Forall₂.cons (hhead i hi) (htail y hy)

end Boxes

/-! ## The verdict -/

section Verdict

/-- The loop of `overlaps` over the verdicts for the dimensions. -/
def foldKinds : OverlapKind → List OverlapKind → OverlapKind
  | overlap, [] => overlap
  | overlap, bOverlap :: rest =>
    if bOverlap = .noOverlap then .noOverlap
    else
      let overlap :=
        if overlap = .containedOrEqual && bOverlap = .contains then .contains else overlap
      if overlap = .contains && bOverlap = .containedOrEqual then foldKinds overlap rest
      else if bOverlap ≠ overlap then .partialOverlap
      else foldKinds overlap rest

def boundsOf (d : Range × Range) : Bound × Bound :=
  (d.1.bound, d.2.bound)

def kindOf (d : Range × Range) : OverlapKind :=
  d.1.kind d.2

theorem overlapsLoop_eq (k : OverlapKind) {dims : List (Range × Range)}
    (hfit : ∀ d ∈ dims, d.1.DifferencesFit d.2) :
    overlapsLoop k (dims.map boundsOf) = foldKinds k (dims.map kindOf) := by
  induction dims generalizing k with
  | nil => rfl
  | cons d dims ih =>
    obtain ⟨hd, hdims⟩ := forall_mem_cons.mp hfit
    simp only [map_cons, boundsOf, overlapsLoop, boundOverlap_bound hd, foldKinds]
    simp only [ih _ hdims, kindOf]
    rfl

/-- Neither apart nor partial. -/
def Nested (k : OverlapKind) : Prop :=
  k = .containedOrEqual ∨ k = .contains

/-- A list that gets apart behind kinds of a sort, when its first kind is not apart. -/
theorem split_cons {P : OverlapKind → Prop} {k : OverlapKind} (hk : k ≠ .noOverlap)
    (ks : List OverlapKind) :
    (∃ front rest, k :: ks = front ++ .noOverlap :: rest ∧ ∀ f ∈ front, P f) ↔
      P k ∧ ∃ front rest, ks = front ++ .noOverlap :: rest ∧ ∀ f ∈ front, P f := by
  constructor
  · rintro ⟨front, rest, hsplit, hfront⟩
    cases front with
    | nil => exact absurd (List.cons.inj hsplit).1 hk
    | cons f front =>
      obtain ⟨rfl, rfl⟩ := List.cons.inj hsplit
      obtain ⟨hf, hfront⟩ := forall_mem_cons.mp hfront
      exact ⟨hf, front, rest, rfl, hfront⟩
  · rintro ⟨hP, front, rest, rfl, hfront⟩
    exact ⟨k :: front, rest, rfl, forall_mem_cons.mpr ⟨hP, hfront⟩⟩

theorem foldKinds_partial_no (ks : List OverlapKind) : foldKinds .partialOverlap ks = .noOverlap ↔
      ∃ front rest, ks = front ++ .noOverlap :: rest ∧ ∀ f ∈ front, f = .partialOverlap := by
  induction ks with
  | nil => simp [foldKinds]
  | cons k ks ih =>
    cases k with
    | noOverlap => exact iff_of_true rfl ⟨[], ks, rfl, fun f hf => absurd hf not_mem_nil⟩
    | partialOverlap =>
      rw [split_cons (k := .partialOverlap) nofun]
      exact ih.trans (and_iff_right rfl).symm
    | containedOrEqual =>
      rw [split_cons (k := .containedOrEqual) nofun]
      exact iff_of_false (nofun) fun h => nomatch h.1
    | contains =>
      rw [split_cons (k := .contains) nofun]
      exact iff_of_false (nofun) fun h => nomatch h.1

theorem foldKinds_noOverlap_no (ks : List OverlapKind) :
    foldKinds .noOverlap ks = .noOverlap ↔ ks = [] ∨ ∃ rest, ks = .noOverlap :: rest := by
  cases ks with
  | nil => exact iff_of_true rfl (.inl rfl)
  | cons k ks =>
    cases k with
    | noOverlap => exact iff_of_true rfl (.inr ⟨ks, rfl⟩)
    | partialOverlap => exact iff_of_false (nofun) (by simp)
    | containedOrEqual => exact iff_of_false (nofun) (by simp)
    | contains => exact iff_of_false (nofun) (by simp)

theorem foldKinds_nested_cons {k b : OverlapKind} (hk : Nested k) (hb : Nested b)
    (ks : List OverlapKind) : ∃ k', Nested k' ∧ foldKinds k (b :: ks) = foldKinds k' ks ∧
      (k' = .containedOrEqual ↔ k = .containedOrEqual ∧ b = .containedOrEqual) := by
  rcases hk with rfl | rfl
  · rcases hb with rfl | rfl
    · exact ⟨.containedOrEqual, .inl rfl, rfl, by simp⟩
    · exact ⟨.contains, .inr rfl, rfl, by simp⟩
  · rcases hb with rfl | rfl
    · exact ⟨.contains, .inr rfl, rfl, by simp⟩
    · exact ⟨.contains, .inr rfl, rfl, by simp⟩

variable {k : OverlapKind}

theorem foldKinds_nested_overlap (hk : Nested k) (ks : List OverlapKind) :
    foldKinds k (.partialOverlap :: ks) = .partialOverlap := by
  rcases hk with rfl | rfl
  · rfl
  · rfl

theorem nested_or (k : OverlapKind) : Nested k ∨ k = .partialOverlap ∨ k = .noOverlap := by
  cases k with
  | containedOrEqual => exact .inl (.inl rfl)
  | contains => exact .inl (.inr rfl)
  | partialOverlap => exact .inr (.inl rfl)
  | noOverlap => exact .inr (.inr rfl)

theorem foldKinds_nested_no (hk : Nested k) (ks : List OverlapKind) : foldKinds k ks = .noOverlap ↔
      ∃ front rest, ks = front ++ .noOverlap :: rest ∧ ∀ f ∈ front, Nested f := by
  induction ks generalizing k with
  | nil =>
    refine iff_of_false ?_ (by simp)
    rcases hk with rfl | rfl <;> exact nofun
  | cons b ks ih =>
    rcases nested_or b with hb | rfl | rfl
    · obtain ⟨k', hk', hfold, -⟩ := foldKinds_nested_cons hk hb ks
      have hno : b ≠ .noOverlap := by rcases hb with rfl | rfl <;> exact nofun
      rw [hfold, ih hk', split_cons hno, and_iff_right hb]
    · rw [foldKinds_nested_overlap hk, split_cons (k := .partialOverlap) nofun]
      refine iff_of_false (nofun) fun h => ?_
      rcases h.1 with h | h <;> cases h
    · exact iff_of_true rfl ⟨[], ks, rfl, fun f hf => absurd hf not_mem_nil⟩

theorem not_nested_overlap : ¬ Nested .partialOverlap := by
  rintro (h | h) <;> cases h

theorem not_nested_no : ¬ Nested .noOverlap := by
  rintro (h | h) <;> cases h

theorem foldKinds_not_nested (hk : ¬ Nested k) (ks : List OverlapKind) :
    ¬ Nested (foldKinds k ks) := by
  induction ks with
  | nil => exact hk
  | cons b ks ih =>
    rcases nested_or k with hk' | rfl | rfl
    · exact absurd hk' hk
    · cases b with
      | noOverlap => exact not_nested_no
      | partialOverlap => exact ih
      | containedOrEqual => exact not_nested_overlap
      | contains => exact not_nested_overlap
    · cases b with
      | noOverlap => exact not_nested_no
      | partialOverlap => exact not_nested_overlap
      | containedOrEqual => exact not_nested_overlap
      | contains => exact not_nested_overlap

/-- The fold is nested only where all the verdicts are, and then it tells whether all of them
are containments. -/
theorem foldKinds_nested {ks : List OverlapKind} :
    (Nested (foldKinds k ks) ↔ ∀ b ∈ k :: ks, Nested b) ∧
      (foldKinds k ks = .containedOrEqual ↔ ∀ b ∈ k :: ks, b = .containedOrEqual) := by
  induction ks generalizing k with
  | nil => simp [foldKinds]
  | cons b ks ih =>
    by_cases hk : Nested k
    · rcases nested_or b with hb | rfl | rfl
      · obtain ⟨k', hk', hfold, hequal⟩ := foldKinds_nested_cons hk hb ks
        rw [hfold, ih.1, ih.2]
        simp only [forall_mem_cons, hk, hb, hk', hequal, true_and, and_assoc]
      · rw [foldKinds_nested_overlap hk]
        exact ⟨iff_of_false not_nested_overlap (by simp [not_nested_overlap]), by simp⟩
      · exact ⟨iff_of_false not_nested_no (by simp [not_nested_no]), iff_of_false (nofun) (by simp)⟩
    · have hfold := foldKinds_not_nested hk (b :: ks)
      refine ⟨iff_of_false hfold fun h => hk (h k mem_cons_self), ?_⟩
      refine iff_of_false (fun h => hfold (.inl h)) fun h => hk (.inl ?_)
      exact h k mem_cons_self

/-- The fold from the verdict for the first dimension on. -/
def verdict (dims : List (Range × Range)) : OverlapKind :=
  match dims.map kindOf with
  | [] => .containedOrEqual
  | k :: ks => foldKinds k ks

theorem overlaps_eq {dims : List (Range × Range)}
    (hfit : ∀ d ∈ dims, d.1.DifferencesFit d.2) :
    overlaps ((dims.map Prod.fst).map Range.bound) ((dims.map Prod.snd).map Range.bound) =
      verdict dims := by
  cases dims with
  | nil => rfl
  | cons d dims =>
    obtain ⟨hd, hdims⟩ := forall_mem_cons.mp hfit
    have hzip : ((dims.map Prod.fst).map Range.bound).zip
        ((dims.map Prod.snd).map Range.bound) = dims.map boundsOf := by
      simp only [map_map, zip_map', Function.comp_def]
      rfl
    simp only [overlaps, map_cons, isEmpty_cons, Bool.false_and, length_cons,
      length_map, ne_eq, not_true_eq_false, zip_cons_cons, hzip, boundOverlap_bound hd,
      overlapsLoop_eq _ hdims]
    rfl

end Verdict

end PyTorchCore.BoundsOverlap
