import Mathlib.Order.CompletePartialOrder
import PyTorchCore.BoundsOverlap.Boxes

/-!
# The difference of boxes

One box minus another is taken dimension by dimension: what sticks out of the dimension on
either side is a piece, and the rest of the work is inside.
-/

namespace PyTorchCore.BoundsOverlap

open Function List

/-! ## The verdict -/

section Verdict

/-- The first dimension that is apart is found, and the loop gets to it. -/
def FrontAligned (dims : List (Range × Range)) : Prop :=
  ∃ front d rest, dims = front ++ d :: rest ∧ d.1.Apart d.2 ∧
    ((∀ f ∈ front, f.1.Partial f.2) ∨ ∀ f ∈ front, ¬ f.1.Apart f.2 ∧ ¬ f.1.Partial f.2) ∧
    (front = [] → ∀ second ∈ rest.head?, second.1.Apart second.2)

theorem kindOf_nested (d : Range × Range) :
    Nested (kindOf d) ↔ ¬ d.1.Apart d.2 ∧ ¬ d.1.Partial d.2 := by
  rw [← Range.kind_noOverlap, ← Range.kind_partialOverlap, ← kindOf]
  cases kindOf d with
  | containedOrEqual => exact iff_of_true (.inl rfl) (by simp)
  | contains => exact iff_of_true (.inr rfl) (by simp)
  | partialOverlap => exact iff_of_false not_nested_overlap (by simp)
  | noOverlap => exact iff_of_false not_nested_no (by simp)

variable {dims : List (Range × Range)}

theorem map_kindOf_split {P : OverlapKind → Prop} :
    (∃ front rest, dims.map kindOf = front ++ .noOverlap :: rest ∧ ∀ k ∈ front, P k) ↔
      ∃ front d rest, dims = front ++ d :: rest ∧ d.1.Apart d.2 ∧ ∀ f ∈ front, P (kindOf f) := by
  constructor
  · rintro ⟨front, rest, hsplit, hfront⟩
    obtain ⟨front', rest', rfl, rfl, hrest⟩ := map_eq_append_iff.mp hsplit
    obtain ⟨d, rest', rfl, hd, -⟩ := map_eq_cons_iff.mp hrest
    refine ⟨front', d, rest', rfl, Range.kind_noOverlap.mp hd, fun f hf => hfront _ ?_⟩
    exact mem_map_of_mem hf
  · rintro ⟨front, d, rest, rfl, hd, hfront⟩
    refine ⟨front.map kindOf, rest.map kindOf, ?_, forall_mem_map.mpr hfront⟩
    rw [map_append, map_cons, kindOf, Range.kind_noOverlap.mpr hd]

/-- No overlap is said when a dimension in front is apart. -/
theorem verdict_noOverlap :
    verdict dims = .noOverlap ↔ FrontAligned dims := by
  cases dims with
  | nil =>
    refine iff_of_false (nofun) ?_
    rintro ⟨front, d, rest, hsplit, -⟩
    simp at hsplit
  | cons d dims =>
    have hverdict : verdict (d :: dims) = foldKinds (kindOf d) (dims.map kindOf) := rfl
    rw [hverdict]
    rcases nested_or (kindOf d) with hd | hd | hd
    · rw [foldKinds_nested_no hd, map_kindOf_split]
      have hd' := (kindOf_nested d).mp hd
      constructor
      · rintro ⟨front, e, rest, rfl, he, hfront⟩
        refine ⟨d :: front, e, rest, rfl, he, .inr ?_, nofun⟩
        exact forall_mem_cons.mpr ⟨hd', fun f hf => (kindOf_nested f).mp (hfront f hf)⟩
      · rintro ⟨front, e, rest, hsplit, he, hfront, -⟩
        cases front with
        | nil =>
          obtain ⟨rfl, -⟩ := List.cons.inj hsplit
          exact absurd he hd'.1
        | cons f front =>
          cases hsplit
          refine ⟨front, e, rest, rfl, he, fun f hf => (kindOf_nested f).mpr ?_⟩
          rcases hfront with hfront | hfront
          · exact absurd (hfront d mem_cons_self) hd'.2
          · exact hfront f (mem_cons_of_mem d hf)
    · rw [hd, foldKinds_partial_no, map_kindOf_split]
      have hd' : d.1.Partial d.2 := Range.kind_partialOverlap.mp hd
      constructor
      · rintro ⟨front, e, rest, rfl, he, hfront⟩
        refine ⟨d :: front, e, rest, rfl, he, .inl ?_, nofun⟩
        exact forall_mem_cons.mpr ⟨hd', fun f hf => Range.kind_partialOverlap.mp (hfront f hf)⟩
      · rintro ⟨front, e, rest, hsplit, he, hfront, -⟩
        cases front with
        | nil =>
          obtain ⟨rfl, -⟩ := List.cons.inj hsplit
          exact absurd he hd'.1
        | cons f front =>
          cases hsplit
          refine ⟨front, e, rest, rfl, he, fun f hf => Range.kind_partialOverlap.mpr ?_⟩
          rcases hfront with hfront | hfront
          · exact hfront f (mem_cons_of_mem d hf)
          · exact absurd hd' (hfront d mem_cons_self).2
    · rw [hd, foldKinds_noOverlap_no]
      have hd' : d.1.Apart d.2 := Range.kind_noOverlap.mp hd
      constructor
      · intro h
        refine ⟨[], d, dims, rfl, hd', .inl (fun f hf => absurd hf not_mem_nil), ?_⟩
        intro _ second hsecond
        cases dims with
        | nil => cases hsecond
        | cons e dims =>
          cases hsecond
          rcases h with h | ⟨rest, h⟩
          · cases h
          · exact Range.kind_noOverlap.mp (List.cons.inj h).1
      · rintro ⟨front, e, rest, hsplit, he, hfront, hsecond⟩
        cases front with
        | nil =>
          cases hsplit
          cases dims with
          | nil => exact .inl rfl
          | cons e dims =>
            refine .inr ⟨dims.map kindOf, ?_⟩
            rw [map_cons, kindOf, Range.kind_noOverlap.mpr (hsecond rfl e rfl)]
        | cons f front =>
          obtain ⟨rfl, -⟩ := List.cons.inj hsplit
          rcases hfront with hfront | hfront
          · exact absurd hd' (hfront d mem_cons_self).1
          · exact absurd hd' (hfront d mem_cons_self).1

/-- Containment in every dimension is what the verdict says, but for its direction it goes by
the dimensions one by one. -/
theorem verdict_nested (dims : List (Range × Range)) :
    (Nested (verdict dims) ↔ ∀ d ∈ dims, Nested (kindOf d)) ∧
      (verdict dims = .containedOrEqual ↔ ∀ d ∈ dims, d.1.Within d.2) := by
  cases dims with
  | nil => exact ⟨iff_of_true (.inl rfl) (by simp), iff_of_true rfl (by simp)⟩
  | cons d dims =>
    have hverdict : verdict (d :: dims) = foldKinds (kindOf d) (dims.map kindOf) := rfl
    rw [hverdict, foldKinds_nested.1, foldKinds_nested.2]
    simp only [forall_mem_cons, forall_mem_map, kindOf, Range.kind_containedOrEqual, and_self]

end Verdict

/-! ## The difference -/

section Pieces

/-- What sticks out below. -/
def below (r s : Range) : List Range :=
  if h : r.lo < s.lo then [⟨r.lo, s.lo - 1, by omega⟩] else []

/-- What sticks out above. -/
def above (r s : Range) : List Range :=
  if h : s.hi < r.hi then [⟨s.hi + 1, r.hi, by omega⟩] else []

theorem Range.inside_le {r s : Range} (h : ¬ r.Apart s) : max r.lo s.lo ≤ min r.hi s.hi := by
  have hr := r.le
  have hs := s.le
  rw [Range.Apart, not_or] at h
  omega

def inside (r s : Range) : Range :=
  if h : r.Apart s then r else ⟨max r.lo s.lo, min r.hi s.hi, Range.inside_le h⟩

/-- The pieces of one box outside another. -/
def pieces : List (Range × Range) → List (List Range)
  | [] => []
  | d :: rest =>
    (below d.1 d.2 ++ above d.1 d.2).map (· :: rest.map Prod.fst) ++
      (pieces rest).map (inside d.1 d.2 :: ·)

variable {r s : Range} {i : ℤ}

section

variable (h : ¬ r.Apart s)
include h

theorem inside_has : (inside r s).Has i ↔ r.Has i ∧ s.Has i := by
  simp only [inside, h, dif_neg, not_false_eq_true, Range.Has]
  omega

theorem below_has : (∃ p ∈ below r s, p.Has i) ↔ r.Has i ∧ i < s.lo := by
  rw [Range.Apart, not_or] at h
  rw [below]
  split
  · simp only [mem_singleton, exists_eq_left, Range.Has]
    omega
  · next hlo =>
      refine iff_of_false (by simp) ?_
      rintro ⟨⟨_, _⟩, _⟩
      omega

theorem above_has : (∃ p ∈ above r s, p.Has i) ↔ r.Has i ∧ s.hi < i := by
  rw [Range.Apart, not_or] at h
  rw [above]
  split
  · simp only [mem_singleton, exists_eq_left, Range.Has]
    omega
  · next hhi =>
      refine iff_of_false (by simp) ?_
      rintro ⟨⟨_, _⟩, _⟩
      omega

theorem sides_has :
    (∃ p ∈ below r s ++ above r s, p.Has i) ↔ r.Has i ∧ ¬ s.Has i := by
  have hsplit : (∃ p ∈ below r s ++ above r s, p.Has i) ↔
      (∃ p ∈ below r s, p.Has i) ∨ ∃ p ∈ above r s, p.Has i := by
    simp only [mem_append, or_and_right, exists_or]
  rw [hsplit, below_has h, above_has h]
  simp only [Range.Has]
  omega

theorem sides_disjoint :
    (below r s ++ above r s).Pairwise fun p q => ∀ i, ¬ (p.Has i ∧ q.Has i) := by
  have hbelow : (below r s).Pairwise fun p q => ∀ i, ¬ (p.Has i ∧ q.Has i) := by
    rw [below]
    split
    · exact pairwise_singleton _ _
    · exact Pairwise.nil
  have habove : (above r s).Pairwise fun p q => ∀ i, ¬ (p.Has i ∧ q.Has i) := by
    rw [above]
    split
    · exact pairwise_singleton _ _
    · exact Pairwise.nil
  refine pairwise_append.mpr ⟨hbelow, habove, fun p hp q hq i hi => ?_⟩
  have hs := s.le
  have hlow := (below_has h).mp ⟨p, hp, hi.1⟩
  have hhigh := (above_has h).mp ⟨q, hq, hi.2⟩
  omega

end

variable {dims : List (Range × Range)}

/-- The pieces are the first box without the second. -/
theorem pieces_has (hmeet : ∀ d ∈ dims, ¬ d.1.Apart d.2) (x : List ℤ) :
    (∃ p ∈ pieces dims, Has p x) ↔ Has (dims.map Prod.fst) x ∧ ¬ Has (dims.map Prod.snd) x := by
  induction dims generalizing x with
  | nil =>
    refine iff_of_false (by simp [pieces]) ?_
    rintro ⟨h, h'⟩
    exact h' h
  | cons d rest ih =>
    obtain ⟨hd, hrest⟩ := forall_mem_cons.mp hmeet
    cases x with
    | nil =>
        refine iff_of_false ?_ fun h => by cases h.1
        rintro ⟨p, hp, hx⟩
        cases hx
        simp [pieces] at hp
    | cons i y =>
      have hsplit : (∃ p ∈ pieces (d :: rest), Has p (i :: y)) ↔
          (∃ p ∈ below d.1 d.2 ++ above d.1 d.2, p.Has i) ∧ Has (rest.map Prod.fst) y ∨
            (inside d.1 d.2).Has i ∧ ∃ p ∈ pieces rest, Has p y := by
        constructor
        · rintro ⟨p, hp, hx⟩
          rcases mem_append.mp hp with hp | hp
          · obtain ⟨side, hside, rfl⟩ := mem_map.mp hp
            obtain ⟨hi, hy⟩ := has_cons_cons.mp hx
            exact .inl ⟨⟨side, hside, hi⟩, hy⟩
          · obtain ⟨q, hq, rfl⟩ := mem_map.mp hp
            obtain ⟨hi, hy⟩ := has_cons_cons.mp hx
            exact .inr ⟨hi, q, hq, hy⟩
        · rintro (⟨⟨side, hside, hi⟩, hy⟩ | ⟨hi, q, hq, hy⟩)
          · exact ⟨_, mem_append_left _ (mem_map_of_mem hside), Forall₂.cons hi hy⟩
          · exact ⟨_, mem_append_right _ (mem_map_of_mem hq), Forall₂.cons hi hy⟩
      rw [hsplit, sides_has hd, inside_has hd, ih hrest, map_cons, map_cons,
        has_cons_cons, has_cons_cons]
      tauto

theorem pieces_disjoint (hmeet : ∀ d ∈ dims, ¬ d.1.Apart d.2) :
    (pieces dims).Pairwise fun P Q => ∀ x, ¬ (Has P x ∧ Has Q x) := by
  induction dims with
  | nil => exact Pairwise.nil
  | cons d rest ih =>
    obtain ⟨hd, hrest⟩ := forall_mem_cons.mp hmeet
    refine pairwise_append.mpr ⟨?_, ?_, ?_⟩
    · refine pairwise_map.mpr ((sides_disjoint hd).imp fun {p q} hpq x hx => ?_)
      obtain ⟨i, y, rfl, hi, -⟩ := has_cons.mp hx.1
      exact hpq i ⟨hi, (has_cons_cons.mp hx.2).1⟩
    · refine pairwise_map.mpr ((ih hrest).imp fun {P Q} hPQ x hx => ?_)
      obtain ⟨i, y, rfl, -, hy⟩ := has_cons.mp hx.1
      exact hPQ y ⟨hy, (has_cons_cons.mp hx.2).2⟩
    · intro P hP Q hQ x hx
      obtain ⟨side, hside, rfl⟩ := mem_map.mp hP
      obtain ⟨Q, -, rfl⟩ := mem_map.mp hQ
      obtain ⟨i, y, rfl, hi, -⟩ := has_cons.mp hx.1
      have hout := ((sides_has hd).mp ⟨side, hside, hi⟩).2
      exact hout ((inside_has hd).mp (has_cons_cons.mp hx.2).1).2

end Pieces

/-! ## The slices -/

section Slices

variable {r s : Range}

theorem guessDiff_imm (b a : ℤ) : guessDiff (.imm b) (.imm a) = .imm (b - a) := by
  rw [guessDiff, simplify_sub_imm]
  rfl

/-- The difference of two ranges is what sticks out on either side. -/
theorem subtractBound_bound (h : ¬ r.Apart s) (hfit : r.DifferencesFit s) :
    subtractBound r.bound s.bound = (below r s ++ above r s).map Range.bound := by
  have hoverlapping : subtractOverlapping r.bound s.bound =
      (below r s ++ above r s).map Range.bound := by
    have hfit' := hfit
    rw [Range.DifferencesFit] at hfit'
    have hr := r.le
    have hs := s.le
    simp only [subtractOverlapping, Range.bound, Expr.isConstant, guessDiff_imm, Expr.immediate,
      Expr.value, simplify_sub_imm, simplify_add_imm, below, above]
    rw [cut_of_fits (x := s.lo - r.lo) (by omega) (by omega),
      cut_of_fits (x := s.hi - r.hi) (by omega) (by omega)]
    by_cases hlo : r.lo < s.lo
    · by_cases hhi : s.hi < r.hi
      · simp [hlo, hhi, Range.bound]
      · simp [hlo, hhi, Range.bound]
    · by_cases hhi : s.hi < r.hi
      · simp [hlo, hhi, Range.bound]
      · simp [hlo, hhi]
  rw [subtractBound, boundOverlap_bound hfit]
  cases hkind : r.kind s with
  | containedOrEqual =>
    obtain ⟨hlo, hhi⟩ := Range.kind_containedOrEqual.mp hkind
    simp [below, above, Int.not_lt.mpr hlo, Int.not_lt.mpr hhi]
  | noOverlap => exact absurd (Range.kind_noOverlap.mp hkind) h
  | contains => exact hoverlapping
  | partialOverlap => exact hoverlapping

theorem subtractBound_below (hlo : r.lo < s.lo) (hle : s.lo ≤ r.hi)
    (hfit : r.hi - r.lo < 2 ^ 31) :
    subtractBound r.bound ⟨.imm r.lo, .imm (s.lo - 1)⟩ = [⟨.imm s.lo, .imm r.hi⟩] := by
  have hslice := subtractBound_bound (r := r) (s := ⟨r.lo, s.lo - 1, by omega⟩) (by
    rintro (h | h)
    · simp only at h
      omega
    · simp only at h
      omega) (by
    show max r.hi (s.lo - 1) - min r.lo r.lo < 2 ^ 31
    omega)
  simpa [below, above, Range.bound, show s.lo - 1 < r.hi by omega] using hslice

theorem subtractBound_above {lo hi top : ℤ} (hlo : lo ≤ hi) (hhi : hi < top)
    (hfit : top - lo < 2 ^ 31) :
    subtractBound ⟨.imm lo, .imm top⟩ ⟨.imm (hi + 1), .imm top⟩ = [⟨.imm lo, .imm hi⟩] := by
  have hslice := subtractBound_bound (r := ⟨lo, top, by omega⟩) (s := ⟨hi + 1, top, by omega⟩) (by
    rintro (h | h)
    · simp only at h
      omega
    · simp only at h
      omega) (by
    show max top top - min lo (hi + 1) < 2 ^ 31
    omega)
  simpa [below, above, Range.bound, show lo < hi + 1 by omega] using hslice

theorem equals_imm_bound (a b c d : ℤ) :
    Bound.equals ⟨.imm a, .imm b⟩ ⟨.imm c, .imm d⟩ = (decide (a = c) && decide (b = d)) := by
  rw [Bound.equals, equals_imm, equals_imm]

theorem sliceDimension_cons {outer rest slices : List Bound} {a slice remaining left : Bound}
    (hpart : slice.equals a = false) (hleft : subtractBound remaining slice = [left]) :
    sliceDimension outer a rest (slice :: slices) remaining =
      (sliceDimension outer a rest slices left).map fun done =>
        ((outer ++ slice :: rest) :: done.1, done.2) := by
  simp only [sliceDimension, hpart, hleft, Bool.false_eq_true, if_false, Option.bind_eq_bind,
    Option.bind_some]
  cases sliceDimension outer a rest slices left with
  | none => rfl
  | some done => rfl

/-- One turn of `subtractIndicesBounds`: the pieces of a dimension, and its inside. -/
theorem sliceDimension_eq (h : ¬ r.Apart s) (hfit : r.DifferencesFit s) (O R : List Range) :
    sliceDimension (O.map Range.bound) r.bound (R.map Range.bound)
        (subtractBound r.bound s.bound) r.bound =
      some ((below r s ++ above r s).map (fun p => (O ++ p :: R).map Range.bound),
        (inside r s).bound) := by
  have hs := s.le
  have h' := h
  rw [Range.Apart, not_or] at h'
  rw [subtractBound_bound h hfit]
  rw [Range.DifferencesFit] at hfit
  by_cases hlo : r.lo < s.lo
  · have hbelow := subtractBound_below hlo (by omega : s.lo ≤ r.hi) (by omega)
    have hhead : Bound.equals ⟨.imm r.lo, .imm (s.lo - 1)⟩ r.bound = false := by
      have : ¬ s.lo - 1 = r.hi := by omega
      simp [Range.bound, equals_imm_bound, this]
    by_cases hhi : s.hi < r.hi
    · have habove := subtractBound_above hs hhi (by omega)
      have htail : Bound.equals ⟨.imm (s.hi + 1), .imm r.hi⟩ r.bound = false := by
        have : ¬ s.hi + 1 = r.lo := by omega
        simp [Range.bound, equals_imm_bound, this]
      rw [below, above, dif_pos hlo, dif_pos hhi]
      refine (sliceDimension_cons hhead hbelow).trans ?_
      refine (congrArg _ (sliceDimension_cons htail habove)).trans ?_
      simp [sliceDimension, inside, h, Range.bound, max_eq_right hlo.le, min_eq_right hhi.le]
    · rw [below, above, dif_pos hlo, dif_neg hhi]
      refine (sliceDimension_cons hhead hbelow).trans ?_
      simp [sliceDimension, inside, h, Range.bound, max_eq_right hlo.le,
        min_eq_left (Int.not_lt.mp hhi)]
  · by_cases hhi : s.hi < r.hi
    · have habove := subtractBound_above (by omega : r.lo ≤ s.hi) hhi (by omega)
      have htail : Bound.equals ⟨.imm (s.hi + 1), .imm r.hi⟩ r.bound = false := by
        have : ¬ s.hi + 1 = r.lo := by omega
        simp [Range.bound, equals_imm_bound, this]
      rw [below, above, dif_neg hlo, dif_pos hhi]
      refine (sliceDimension_cons htail habove).trans ?_
      simp [sliceDimension, inside, h, Range.bound, max_eq_left (Int.not_lt.mp hlo),
        min_eq_right hhi.le]
    · rw [below, above, dif_neg hlo, dif_neg hhi]
      simp [sliceDimension, inside, h, Range.bound, max_eq_left (Int.not_lt.mp hlo),
        min_eq_left (Int.not_lt.mp hhi)]

theorem subtractLoop_eq {dims : List (Range × Range)} (hmeet : ∀ d ∈ dims, ¬ d.1.Apart d.2)
    (hfit : ∀ d ∈ dims, d.1.DifferencesFit d.2) (O : List Range) :
    subtractLoop O.length (O.map Range.bound) (dims.map boundsOf) =
      some ((pieces dims).map fun P => (O ++ P).map Range.bound) := by
  induction dims generalizing O with
  | nil => rfl
  | cons d rest ih =>
    obtain ⟨hd, hrest⟩ := forall_mem_cons.mp hmeet
    obtain ⟨hfitd, hfitrest⟩ := forall_mem_cons.mp hfit
    have hmore := ih hrest hfitrest (O ++ [inside d.1 d.2])
    have hslices := sliceDimension_eq hd hfitd O (rest.map Prod.fst)
    have hfirsts : (rest.map boundsOf).map Prod.fst = (rest.map Prod.fst).map Range.bound := by
      simp only [map_map]
      rfl
    simp only [map_append, map_cons, map_nil, length_append,
      length_cons, length_nil, Nat.zero_add] at hmore
    rw [map_cons, boundsOf, subtractLoop, if_neg (by simp), hfirsts, hslices]
    simp [hmore, pieces, comp_def]

end Slices

/-! ## Verdict and difference -/

section Right

/-- `overlaps` says how the boxes lie. -/
structure OverlapsRight (A B : List Range) (kind : OverlapKind) : Prop where
  noOverlap : kind = .noOverlap ↔ Disjoint (points A) (points B)
  containedOrEqual : kind = .containedOrEqual ↔ points A ⊆ points B
  contains : kind = .contains ↔ points B ⊂ points A
  partialOverlap : kind = .partialOverlap ↔
    ¬ Disjoint (points A) (points B) ∧ ¬ points A ⊆ points B ∧ ¬ points B ⊂ points A

/-- The regions are disjoint boxes that make up the difference. -/
def DifferenceRight (A B : List Range) (regions : Option (List IndexBounds)) : Prop :=
  ∃ boxes : List (List Range), regions = some (boxes.map fun P => P.map Range.bound) ∧
    boxes.Pairwise (fun P Q => Disjoint (points P) (points Q)) ∧
      ⋃ P ∈ boxes, points P = points A \ points B

/-- Of boxes that are apart, the first dimension that is apart is reached; of others, some
dimension overlaps in part, or one box lies in the other. -/
structure Aligned (dims : List (Range × Range)) : Prop where
  apart : (∃ d ∈ dims, d.1.Apart d.2) → FrontAligned dims
  meet : (∀ d ∈ dims, ¬ d.1.Apart d.2) →
    (∃ d ∈ dims, d.1.Partial d.2) ∨ (∀ d ∈ dims, d.1.Within d.2) ∨ ∀ d ∈ dims, d.2.Within d.1

variable {dims : List (Range × Range)}

variable {A B : List Range}

theorem disjoint_points : Disjoint (points A) (points B) ↔ ∀ x, ¬ (Has A x ∧ Has B x) := by
  rw [Set.disjoint_left]
  exact ⟨fun h x hx => h hx.1 hx.2, fun h x hx hx' => h x ⟨hx, hx'⟩⟩

theorem firsts_disjoint : Disjoint (points (dims.map Prod.fst)) (points (dims.map Prod.snd)) ↔
    ∃ d ∈ dims, d.1.Apart d.2 :=
  disjoint_points.trans apart_boxes_iff

theorem firsts_subset : points (dims.map Prod.fst) ⊆ points (dims.map Prod.snd) ↔
    ∀ d ∈ dims, d.1.Within d.2 :=
  within_boxes_iff

theorem seconds_subset : points (dims.map Prod.snd) ⊆ points (dims.map Prod.fst) ↔
    ∀ d ∈ dims, d.2.Within d.1 :=
  within_boxes_iff

theorem not_disjoint_of_subset (h : points A ⊆ points B) : ¬ Disjoint (points A) (points B) := by
  intro hdisjoint
  obtain ⟨x, hx⟩ := exists_has A
  exact Set.disjoint_left.mp hdisjoint hx (h hx)

theorem overlapsRight_of {kind : OverlapKind}
    (hno : kind = .noOverlap ↔ Disjoint (points A) (points B))
    (hequal : kind = .containedOrEqual ↔ points A ⊆ points B)
    (hcontains : kind = .contains ↔ points B ⊂ points A) : OverlapsRight A B kind := by
  refine ⟨hno, hequal, hcontains, ?_⟩
  rw [← hno, ← hequal, ← hcontains]
  cases kind with
  | containedOrEqual => simp
  | contains => simp
  | partialOverlap => simp
  | noOverlap => simp

theorem kinds_nested (hmeet : ∀ d ∈ dims, ¬ d.1.Apart d.2) :
    (∀ d ∈ dims, Nested (kindOf d)) ↔ ¬ ∃ d ∈ dims, d.1.Partial d.2 := by
  push Not
  refine forall₂_congr fun d hd => ?_
  rw [kindOf_nested]
  exact and_iff_right (hmeet d hd)

/-- The verdict of the code is right exactly for aligned boxes. -/
theorem overlapsRight_iff :
    OverlapsRight (dims.map Prod.fst) (dims.map Prod.snd) (verdict dims) ↔ Aligned dims := by
  by_cases hapart : ∃ d ∈ dims, d.1.Apart d.2
  · have hdisjoint := firsts_disjoint.mpr hapart
    have hsub : ¬ points (dims.map Prod.fst) ⊆ points (dims.map Prod.snd) :=
      fun h => not_disjoint_of_subset h hdisjoint
    have hsup : ¬ points (dims.map Prod.snd) ⊂ points (dims.map Prod.fst) :=
      fun h => not_disjoint_of_subset h.1 hdisjoint.symm
    constructor
    · intro h
      refine ⟨fun _ => verdict_noOverlap.mp (h.noOverlap.mpr hdisjoint), fun hmeet => ?_⟩
      obtain ⟨d, hd, h⟩ := hapart
      exact absurd h (hmeet d hd)
    · intro h
      have hkind := verdict_noOverlap.mpr (h.apart hapart)
      rw [hkind]
      refine overlapsRight_of (iff_of_true rfl hdisjoint) (iff_of_false ?_ hsub)
        (iff_of_false ?_ hsup)
      · exact nofun
      · exact nofun
  · have hmeet : ∀ d ∈ dims, ¬ d.1.Apart d.2 := fun d hd h => hapart ⟨d, hd, h⟩
    have hno : verdict dims = .noOverlap ↔
        Disjoint (points (dims.map Prod.fst)) (points (dims.map Prod.snd)) := by
      rw [firsts_disjoint]
      refine iff_of_false (fun h => ?_) hapart
      obtain ⟨front, d, rest, rfl, hd, -⟩ := verdict_noOverlap.mp h
      exact hapart ⟨d, by simp, hd⟩
    have hequal : verdict dims = .containedOrEqual ↔
        points (dims.map Prod.fst) ⊆ points (dims.map Prod.snd) := by
      rw [firsts_subset]
      exact (verdict_nested dims).2
    have hnested := (verdict_nested dims).1.trans (kinds_nested hmeet)
    constructor
    · intro h
      refine ⟨fun h => absurd h hapart, fun _ => ?_⟩
      by_contra hnot
      push Not at hnot
      obtain ⟨hpartly, hwithin, hwithin'⟩ := hnot
      have hkind : Nested (verdict dims) := hnested.mpr fun ⟨d, hd, h⟩ => hpartly d hd h
      rcases hkind with hkind | hkind
      · obtain ⟨d, hd, hnot⟩ := hwithin
        exact hnot ((verdict_nested dims).2.mp hkind d hd)
      · obtain ⟨d, hd, hnot⟩ := hwithin'
        exact hnot (seconds_subset.mp (h.contains.mp hkind).1 d hd)
    · intro h
      refine overlapsRight_of hno hequal ?_
      rw [Set.ssubset_def, seconds_subset, ← hequal]
      constructor
      · intro hkind
        refine ⟨?_, by rw [hkind]; exact nofun⟩
        rcases h.meet hmeet with h | h | h
        · exact absurd h (hnested.mp (.inr hkind))
        · rw [(verdict_nested dims).2.mpr h] at hkind
          cases hkind
        · exact h
      · rintro ⟨hall, hnot⟩
        have hkind : Nested (verdict dims) := by
          refine hnested.mpr ?_
          rintro ⟨d, hd, h⟩
          exact h.2.2 (hall d hd)
        exact hkind.resolve_left hnot

theorem subtractLoop_right (hmeet : ∀ d ∈ dims, ¬ d.1.Apart d.2)
    (hfit : ∀ d ∈ dims, d.1.DifferencesFit d.2) :
    DifferenceRight (dims.map Prod.fst) (dims.map Prod.snd)
      (subtractLoop 0 [] (dims.map boundsOf)) := by
  refine ⟨pieces dims, subtractLoop_eq hmeet hfit [], ?_, ?_⟩
  · exact (pieces_disjoint hmeet).imp disjoint_points.mpr
  · ext x
    simp only [Set.mem_iUnion, exists_prop]
    exact pieces_has hmeet x

theorem differenceRight_of_overlapsRight (hfit : ∀ d ∈ dims, d.1.DifferencesFit d.2)
    (h : OverlapsRight (dims.map Prod.fst) (dims.map Prod.snd) (verdict dims)) :
    DifferenceRight (dims.map Prod.fst) (dims.map Prod.snd)
      (subtractIndicesBounds ((dims.map Prod.fst).map Range.bound)
        ((dims.map Prod.snd).map Range.bound)) := by
  have hzip : ((dims.map Prod.fst).map Range.bound).zip ((dims.map Prod.snd).map Range.bound) =
      dims.map boundsOf := by
    simp only [map_map, zip_map', comp_def]
    rfl
  have hloop : ¬ Disjoint (points (dims.map Prod.fst)) (points (dims.map Prod.snd)) →
      DifferenceRight (dims.map Prod.fst) (dims.map Prod.snd)
        (subtractLoop 0 [] (dims.map boundsOf)) := fun hnot =>
    subtractLoop_right (fun d hd hapart => hnot (firsts_disjoint.mpr ⟨d, hd, hapart⟩)) hfit
  rw [subtractIndicesBounds, overlaps_eq hfit]
  cases hkind : verdict dims with
  | noOverlap =>
    refine ⟨[dims.map Prod.fst], rfl, pairwise_singleton _ _, ?_⟩
    simpa using (h.noOverlap.mp hkind).sdiff_eq_left.symm
  | containedOrEqual =>
    refine ⟨[], rfl, Pairwise.nil, ?_⟩
    simpa using (Set.sdiff_eq_empty.mpr (h.containedOrEqual.mp hkind)).symm
  | contains =>
    simp only [length_map, ne_eq, not_true_eq_false, if_false, hzip]
    refine hloop fun hdisjoint => ?_
    rw [h.noOverlap.mpr hdisjoint] at hkind
    cases hkind
  | partialOverlap =>
    simp only [length_map, ne_eq, not_true_eq_false, if_false, hzip]
    exact hloop (h.partialOverlap.mp hkind).1

/-- The verdict and the difference of two boxes whose ends are an `int` apart are right exactly
where the loops get it right. -/
theorem overlaps_right_iff (A B : List Range) (hlength : A.length = B.length)
    (hfit : ∀ d ∈ A.zip B, d.1.DifferencesFit d.2) :
    OverlapsRight A B (overlaps (A.map Range.bound) (B.map Range.bound)) ∧ DifferenceRight A B
          (subtractIndicesBounds (A.map Range.bound) (B.map Range.bound)) ↔
      Aligned (A.zip B) := by
  have hA : (A.zip B).map Prod.fst = A := map_fst_zip hlength.le
  have hB : (A.zip B).map Prod.snd = B := map_snd_zip hlength.ge
  have hright := @overlapsRight_iff (A.zip B)
  have hdifference := @differenceRight_of_overlapsRight (A.zip B) hfit
  rw [← overlaps_eq hfit, hA, hB] at hright hdifference
  exact ⟨fun h => hright.mp h.1, fun h => ⟨hright.mpr h, hdifference (hright.mpr h)⟩⟩

/-- Boxes that overlap in part in both dimensions. -/
theorem overlaps_right_partly :
    OverlapsRight [⟨0, 4, by decide⟩, ⟨0, 4, by decide⟩] [⟨2, 6, by decide⟩, ⟨2, 6, by decide⟩]
        (overlaps [⟨.imm 0, .imm 4⟩, ⟨.imm 0, .imm 4⟩] [⟨.imm 2, .imm 6⟩, ⟨.imm 2, .imm 6⟩]) ∧
      DifferenceRight [⟨0, 4, by decide⟩, ⟨0, 4, by decide⟩] [⟨2, 6, by decide⟩, ⟨2, 6, by decide⟩]
        (subtractIndicesBounds [⟨.imm 0, .imm 4⟩, ⟨.imm 0, .imm 4⟩]
          [⟨.imm 2, .imm 6⟩, ⟨.imm 2, .imm 6⟩]) := by
  refine (overlaps_right_iff [⟨0, 4, by decide⟩, ⟨0, 4, by decide⟩]
    [⟨2, 6, by decide⟩, ⟨2, 6, by decide⟩] rfl (by decide)).mpr ⟨?_, fun _ => .inl ?_⟩
  · rintro ⟨d, hd, hapart⟩
    obtain rfl : d = (⟨0, 4, by decide⟩, ⟨2, 6, by decide⟩) := by simpa using hd
    exact absurd hapart (by decide)
  · exact ⟨_, mem_cons_self, by decide⟩

/-- Boxes that are apart in their first dimension overlap in part, by the verdict. -/
theorem overlaps_disjoint_first : ∃ A B : List Range, A.length = B.length ∧ A ≠ [] ∧
    Disjoint (points A) (points B) ∧
      overlaps (A.map Range.bound) (B.map Range.bound) = .partialOverlap := by
  refine ⟨[⟨0, 0, by decide⟩, ⟨0, 0, by decide⟩], [⟨1, 1, by decide⟩, ⟨0, 0, by decide⟩], rfl,
    by decide, ?_, rfl⟩
  let dims : List (Range × Range) := [(⟨0, 0, by decide⟩, ⟨1, 1, by decide⟩),
    (⟨0, 0, by decide⟩, ⟨0, 0, by decide⟩)]
  have hapart : ∃ d ∈ dims, d.1.Apart d.2 := ⟨_, mem_cons_self, by decide⟩
  exact firsts_disjoint.mpr hapart

end Right

end PyTorchCore.BoundsOverlap
