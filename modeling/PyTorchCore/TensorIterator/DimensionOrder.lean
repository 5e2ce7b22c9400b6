import Mathlib.Data.Prod.Lex
import PyTorchCore.TensorIterator.FastSetup

/-!
# TensorIterator: the order of the dimensions of dense operands

When all operands have the same dense layout, `reorder_dimensions` brings the dimensions of size
two and more into the order of that layout.
-/

namespace PyTorchCore.TensorIterator

open Lib.LoopNest Lib.AmbiguousSort
open List

/-! ## Dense orders -/

/-- Along the list the strides of the dimensions of size other than one are `z`, and
then `z` times the sizes so far. -/
def DenseOrder (size : Nat → Nat) (stride : Nat → Int) : List Nat → Nat → Prop
  | [], _ => True
  | d :: dims, z =>
    (size d ≠ 1 → stride d = z) ∧ DenseOrder size stride dims (z * size d)

section DenseOrder

variable {size : Nat → Nat} {stride stride' : Nat → Int}

variable {dims : List Nat} {z : Nat}

theorem DenseOrder.unique (h : DenseOrder size stride dims z)
    (h' : DenseOrder size stride' dims z) {d : Nat} (hd : d ∈ dims) (hsize : size d ≠ 1) :
    stride d = stride' d := by
  induction dims generalizing z with
  | nil => cases hd
  | cons d' dims ih =>
    rcases mem_cons.mp hd with rfl | hd
    · rw [h.1 hsize, h'.1 hsize]
    · exact ih h.2 h'.2 hd

/-- Strides in bytes. -/
theorem DenseOrder.scale (h : DenseOrder size stride dims z)
    (e : Nat) : DenseOrder size (fun d => e * stride d) dims (e * z) := by
  induction dims generalizing z with
  | nil => trivial
  | cons d dims ih =>
    refine ⟨?_, ?_⟩
    · intro hsize
      simp only [h.1 hsize]
      rfl
    · rw [Nat.mul_assoc]
      exact ih h.2

theorem denseOrder_filter (p : Nat → Bool) (hp : ∀ d ∈ dims, p d = true ↔ size d ≠ 1) :
    DenseOrder size stride (dims.filter p) z ↔ DenseOrder size stride dims z := by
  induction dims generalizing z with
  | nil => rfl
  | cons d dims ih =>
    have hp' : ∀ d' ∈ dims, p d' = true ↔ size d' ≠ 1 :=
      fun d' hd' => hp d' (mem_cons_of_mem _ hd')
    by_cases hd : size d = 1
    · have hpd : p d = false := by
        have := hp d mem_cons_self
        simpa [hd] using this
      rw [filter_cons_of_neg (by simp [hpd])]
      simp only [DenseOrder, hd, Nat.mul_one]
      rw [ih hp']
      simp
    · rw [filter_cons_of_pos ((hp d mem_cons_self).mpr hd)]
      simp only [DenseOrder]
      rw [ih hp']

/-- Dimensions of size one may come last. -/
theorem DenseOrder.append {dims dims' : List Nat}
    (h : DenseOrder size stride dims z) (hone : ∀ d ∈ dims', size d = 1) :
    DenseOrder size stride (dims ++ dims') z := by
  induction dims generalizing z with
  | nil =>
    induction dims' generalizing z with
    | nil => trivial
    | cons d dims' ih =>
      refine ⟨fun hsize => absurd (hone d mem_cons_self) hsize, ?_⟩
      exact ih (fun d' hd' => hone d' (mem_cons_of_mem _ hd')) trivial
  | cons d dims ih => exact ⟨h.1, ih h.2⟩

theorem denseOrder_of_stridesFollow {sizes : List Nat} {strides : List Int}
    (h : stridesFollow sizes strides dims z = true) :
    DenseOrder (fun d => sizes.getD d 0) (fun d => strides.getD d 0) dims z := by
  induction dims generalizing z with
  | nil => trivial
  | cons d dims ih =>
    rw [stridesFollow] at h
    by_cases hsize : sizes.getD d 0 = 1
    · rw [if_neg (by simpa using hsize)] at h
      refine ⟨fun hne => absurd hsize hne, ?_⟩
      simp only [hsize, Nat.mul_one]
      exact ih h
    · rw [if_pos hsize] at h
      split at h
      · next hstride =>
          refine ⟨fun _ => hstride, ih ?_⟩
          exact h
      · cases h

/-- The strides outside a block are at least its volume. -/
theorem DenseOrder.le (h : DenseOrder size stride dims z)
    (hpos : ∀ d ∈ dims, 0 < size d) {d : Nat} (hd : d ∈ dims) (hsize : size d ≠ 1) :
    (z : Int) ≤ stride d := by
  induction dims generalizing z with
  | nil => cases hd
  | cons d' dims ih =>
    rcases mem_cons.mp hd with rfl | hd
    · exact le_of_eq (h.1 hsize).symm
    · have hrec := ih h.2 (fun e he => hpos e (mem_cons_of_mem _ he)) hd
      have hle : z ≤ z * size d' := Nat.le_mul_of_pos_right z (hpos d' mem_cons_self)
      omega

theorem DenseOrder.ascending (h : DenseOrder size stride dims z)
    (hz : 0 < z) (hpos : ∀ d ∈ dims, 0 < size d) :
    dims.Pairwise fun a b => 1 < size a → 1 < size b → stride a < stride b := by
  induction dims generalizing z with
  | nil => exact Pairwise.nil
  | cons d dims ih =>
    have hpos' : ∀ e ∈ dims, 0 < size e := fun e he => hpos e (mem_cons_of_mem _ he)
    refine Pairwise.cons ?_ (ih h.2 (Nat.mul_pos hz (hpos d mem_cons_self)) hpos')
    intro b hb hd hbsize
    have hfirst := h.1 (by omega)
    have hnext := h.2.le hpos' hb (by omega)
    have hgrow : z * 2 ≤ z * size d := Nat.mul_le_mul_left z hd
    omega

end DenseOrder

/-! ## Comparing dimensions -/

/-- The comparison of two dimensions, given the strides of the operands that take
part in it. -/
def compareStrides (size : Nat → Nat) (p x : Nat) : List (Nat → Int) → Int
  | [] => 0
  | s :: votes =>
    if s p = 0 ∨ s x = 0 then compareStrides size p x votes
    else if s p < s x then -1
    else if s p > s x then 1
    else if size p > size x then 1
    else compareStrides size p x votes

/-- The strides of the operands that are neither undefined nor to be resized. -/
def votingStrides (ops : List OperandInfo) : List (Nat → Int) :=
  ops.filterMap fun op =>
    if op.stride_bytes.isEmpty || op.will_resize then none
    else some fun d => op.stride_bytes.getD d 0

theorem shouldSwapLoop_eq (shape : List Nat) (p x : Nat) (ops : List OperandInfo) :
    shouldSwapLoop false shape p x ops =
      compareStrides (fun d => shape.getD d 0) p x (votingStrides ops) := by
  induction ops with
  | nil => rfl
  | cons op ops ih =>
    unfold votingStrides at ih ⊢
    rw [shouldSwapLoop, filterMap_cons]
    by_cases hskip : (op.stride_bytes.isEmpty || op.will_resize) = true
    · rw [if_pos hskip, if_pos hskip]
      exact ih
    · rw [if_neg hskip, if_neg hskip]
      simp only [Bool.false_and, Bool.false_eq_true, if_false, compareStrides, ih]

section Compare

variable {size : Nat → Nat} {stride : Nat → Int} {votes : List (Nat → Int)}

/-- On the dimensions of size two and more every operand has the strides of the common
layout, up to its element size. -/
structure CommonLayout (size : Nat → Nat) (stride : Nat → Int) (votes : List (Nat → Int)) :
    Prop where
  scaled : ∀ s ∈ votes, ∃ e : Int, 0 < e ∧ ∀ d, 1 < size d → s d = e * stride d
  positive : ∀ d, 1 < size d → 0 < stride d

theorem CommonLayout.tail {s : Nat → Int} (h : CommonLayout size stride (s :: votes)) :
    CommonLayout size stride votes :=
  ⟨fun t ht => h.scaled t (mem_cons_of_mem _ ht), h.positive⟩

/-- The strides of the first operand are a multiple of the layout. -/
theorem CommonLayout.head {s : Nat → Int} (h : CommonLayout size stride (s :: votes)) :
    ∃ e : Int, 0 < e ∧ ∀ d, 1 < size d → s d = e * stride d ∧ 0 < e * stride d := by
  obtain ⟨e, he, hs⟩ := h.scaled s mem_cons_self
  exact ⟨e, he, fun d hd => ⟨hs d hd, Int.mul_pos he (h.positive d hd)⟩⟩

variable {p x : Nat}

theorem compareStrides_large (h : CommonLayout size stride votes)
    (hp : 1 < size p) (hx : 1 < size x) (hvotes : votes ≠ []) (hne : stride p ≠ stride x) :
    compareStrides size p x votes = if stride p < stride x then -1 else 1 := by
  cases votes with
  | nil => exact absurd rfl hvotes
  | cons s votes =>
    obtain ⟨e, he, hs⟩ := h.head
    obtain ⟨hsp, hppos⟩ := hs p hp
    obtain ⟨hsx, hxpos⟩ := hs x hx
    have hlt : e * stride p < e * stride x ↔ stride p < stride x :=
      Int.mul_lt_mul_left he
    have hgt : e * stride x < e * stride p ↔ stride x < stride p :=
      Int.mul_lt_mul_left he
    simp only [compareStrides, hsp, hsx, gt_iff_lt, hlt, hgt]
    rw [if_neg (by omega)]
    split
    · rfl
    · rw [if_pos (by omega)]

theorem compareStrides_of_zero_right (h : ∀ s ∈ votes, s x = 0) :
    compareStrides size p x votes = 0 := by
  induction votes with
  | nil => rfl
  | cons s votes ih =>
    rw [compareStrides, if_pos (.inr (h s mem_cons_self))]
    exact ih fun t ht => h t (mem_cons_of_mem _ ht)

theorem compareStrides_of_zero_left (h : ∀ s ∈ votes, s p = 0) :
    compareStrides size p x votes = 0 := by
  induction votes with
  | nil => rfl
  | cons s votes ih =>
    rw [compareStrides, if_pos (.inl (h s mem_cons_self))]
    exact ih fun t ht => h t (mem_cons_of_mem _ ht)

theorem compareStrides_small_ne (h : CommonLayout size stride votes)
    (hp : 1 < size p) (hx : size x ≤ 1) (hzero : ¬ ∀ s ∈ votes, s x = 0) :
    compareStrides size p x votes ≠ 0 := by
  induction votes with
  | nil => exact absurd (by simp) hzero
  | cons s votes ih =>
    obtain ⟨e, he, hs⟩ := h.head
    obtain ⟨hsp, hppos⟩ := hs p hp
    rw [compareStrides]
    by_cases hsx : s x = 0
    · rw [if_pos (.inr hsx)]
      apply ih h.tail
      intro hall
      apply hzero
      intro t ht
      rcases mem_cons.mp ht with rfl | ht
      · exact hsx
      · exact hall t ht
    · rw [if_neg (by rw [not_or]; exact ⟨by omega, hsx⟩)]
      split
      · omega
      · split
        · omega
        · rw [if_pos (by omega)]
          omega

theorem compareStrides_small_before (h : CommonLayout size stride votes) {p d d' : Nat}
    (hd : 1 < size d) (hd' : 1 < size d') (hlt : stride d < stride d')
    (hneg : compareStrides size p d votes < 0) :
    0 < compareStrides size d' p votes ∧ compareStrides size p d' votes < 0 := by
  induction votes with
  | nil => simp [compareStrides] at hneg
  | cons s votes ih =>
    obtain ⟨e, he, hs⟩ := h.head
    obtain ⟨hsd, hdpos⟩ := hs d hd
    obtain ⟨hsd', hdpos'⟩ := hs d' hd'
    have hgrow : e * stride d < e * stride d' := (Int.mul_lt_mul_left he).mpr hlt
    by_cases hsp : s p = 0
    · rw [compareStrides, if_pos (.inl hsp)] at hneg
      rw [compareStrides, compareStrides, if_pos (.inr hsp), if_pos (.inl hsp)]
      exact ih h.tail hneg
    · rw [compareStrides, if_neg (by rw [not_or]; exact ⟨hsp, by omega⟩)] at hneg
      have hdne : s d' ≠ 0 := by omega
      have hup : s p < s d' := by omega
      have hdown : ¬ s d' < s p := by omega
      simp [compareStrides, hsp, hdne, hup, hdown]

/-! ## Sorting -/

/-- The dimensions of size two and more. -/
def large (size : Nat → Nat) (d : Nat) : Bool :=
  1 < size d

def compareBy (size : Nat → Nat) (votes : List (Nat → Int)) (p x : Nat) : Int :=
  compareStrides size p x votes
section

variable (h : CommonLayout size stride votes)
include h

theorem comparable_of_last {before : List Nat} {x : Nat} (hx : 1 < size x)
    (hlast : ∀ p ∈ before, 1 < size p → stride p < stride x) :
    Comparable (compareBy size votes) (large size) stride before x := by
  have hle : ∀ p ∈ before, 1 < size p → ¬ 0 < compareBy size votes p x := by
    intro p hp hlarge
    by_cases hvotes : votes = []
    · simp [compareBy, hvotes, compareStrides]
    · have hlt := hlast p hp hlarge
      rw [compareBy, compareStrides_large h hlarge hx hvotes (by omega), if_pos hlt]
      omega
  refine ⟨?_, ?_, ?_⟩
  · intro p hp hlarge
    have hlt := hlast p hp (by simpa [large] using hlarge)
    exact iff_of_false (hle p hp (by simpa [large] using hlarge)) (by omega)
  · by_cases hvotes : votes = []
    · left
      intro p _
      simp [compareBy, hvotes, compareStrides]
    · right
      intro p hp hlarge
      have hlt := hlast p hp (by simpa [large] using hlarge)
      rw [compareBy, compareStrides_large h (by simpa [large] using hlarge) hx hvotes (by omega),
        if_pos hlt]
      omega
  · intro front p back hb _ _ q hq hlarge
    refine (hlast q ?_ (by simpa [large] using hlarge)).le
    rw [hb]
    exact mem_append_right _ (mem_cons_of_mem _ hq)

theorem sortedOn_insert (sorted : List Nat) {x : Nat}
    (hsorted : SortedOn (large size) stride sorted)
    (hcmp : 1 < size x → Comparable (compareBy size votes) (large size) stride sorted.reverse x) :
    SortedOn (large size) stride
      (Lib.AmbiguousSort.walk (compareBy size votes) sorted.reverse [] x []) := by
  by_cases hx : 1 < size x
  · apply walk_sorted _ _ _ (by simpa [large] using hx) (hcmp hx)
    · simp
    · simp
    · simpa using hsorted
  · have hfilter := filter_walk_of_not_mem (compareBy size votes) (large size) sorted.reverse []
      [] (show large size x = false by simpa [large] using hx)
      (by
        by_cases hzero : ∀ s ∈ votes, s x = 0
        · left
          intro p
          exact compareStrides_of_zero_right hzero
        · right
          intro p hp
          exact compareStrides_small_ne h (by simpa [large] using hp) (by omega) hzero)
      (by simp)
    unfold SortedOn at hsorted ⊢
    rw [hfilter]
    simpa using hsorted

theorem insertAll_sorted_of_ascending
    (sorted rest : List Nat) (hsorted : SortedOn (large size) stride sorted)
    (hcross : ∀ a ∈ sorted, ∀ b ∈ rest, 1 < size a → 1 < size b → stride a < stride b)
    (hrest : rest.Pairwise fun a b => 1 < size a → 1 < size b → stride a < stride b) :
    SortedOn (large size) stride (insertAll (compareBy size votes) sorted rest) := by
  induction rest generalizing sorted with
  | nil => exact hsorted
  | cons x rest ih =>
    obtain ⟨hx, hrest'⟩ := pairwise_cons.mp hrest
    rw [insertAll]
    apply ih
    · apply sortedOn_insert h _ hsorted
      intro hlarge
      apply comparable_of_last h hlarge
      intro p hp hp'
      exact hcross p (mem_reverse.mp hp) x mem_cons_self hp' hlarge
    · intro a ha b hb
      have ha' := (walk_perm (compareBy size votes) sorted.reverse [] x []).mem_iff.mp ha
      simp only [reverse_reverse, append_nil, mem_append, mem_singleton] at ha'
      rcases ha' with ha' | rfl
      · exact hcross a ha' b (mem_cons_of_mem _ hb)
      · exact hx b hb
    · exact hrest'

theorem sortDims_ascending {dims : List Nat}
    (hdims : dims.Pairwise fun a b => 1 < size a → 1 < size b → stride a < stride b) :
    SortedOn (large size) stride (sortDims (compareBy size votes) dims) := by
  cases dims with
  | nil => exact Pairwise.nil
  | cons x rest =>
    obtain ⟨hx, hrest⟩ := pairwise_cons.mp hdims
    rw [sortDims_cons]
    apply insertAll_sorted_of_ascending h [x] rest
    · exact sortedOn_singleton _ _ x
    · intro a ha b hb
      rw [mem_singleton] at ha
      subst ha
      exact hx b hb
    · exact hrest

end

theorem eq_of_mem_after {a b p q : Nat} {front back : List Nat}
    (h : [b, a].reverse = back ++ p :: front) (hq : q ∈ front) : p = a ∧ q = b := by
  cases back with
  | nil =>
    obtain ⟨rfl, rfl⟩ := h
    exact ⟨rfl, mem_singleton.mp hq⟩
  | cons c back =>
    have hlen := congrArg List.length h
    simp only [length_reverse, length_cons, length_append, length_nil] at hlen
    have hfront : front = [] := length_eq_zero_iff.mp (by omega)
    rw [hfront] at hq
    cases hq

/-- The channels-last order: width, height and batch are in order already, and the channels move
to the front. -/
theorem sortDims_channelsLast (h : CommonLayout size stride votes) (hvotes : votes ≠ [])
    (hdims : [1, 3, 2, 0].Pairwise fun a b => 1 < size a → 1 < size b → stride a < stride b) :
    SortedOn (large size) stride (sortDims (compareBy size votes) [3, 2, 1, 0]) := by
  simp only [pairwise_cons, mem_cons, not_mem_nil, or_false, forall_eq_or_imp, forall_eq] at hdims
  obtain ⟨⟨h13, h12, h10⟩, ⟨h32, h30⟩, h20, -⟩ := hdims
  have hfirst : Lib.AmbiguousSort.walk (compareBy size votes) [3] [] 2 [] =
      if 0 < compareBy size votes 3 2 then [2, 3] else [3, 2] := by
    simp only [Lib.AmbiguousSort.walk, nil_append, reverse_cons, reverse_nil,
      append_nil, cons_append]
    split
    · rfl
    · split
      · rfl
      · rfl
  -- width and height
  have hsorted₁ : SortedOn (large size) stride
      (Lib.AmbiguousSort.walk (compareBy size votes) [3] [] 2 []) := by
    refine sortedOn_insert h [3] ?_ ?_
    · exact sortedOn_singleton _ _ 3
    · intro hlarge
      apply comparable_of_last h hlarge
      intro p hp hp'
      rw [reverse_singleton, mem_singleton] at hp
      subst hp
      exact h32 hp' hlarge
  have hmem₁ : ∀ p, p ∈ Lib.AmbiguousSort.walk (compareBy size votes) [3] [] 2 [] ↔
    p = 3 ∨ p = 2 := by
    intro p
    rw [(walk_perm (compareBy size votes) [3] [] 2 []).mem_iff]
    simp
  -- the channels
  have hsorted₂ : SortedOn (large size) stride (Lib.AmbiguousSort.walk (compareBy size votes)
        (Lib.AmbiguousSort.walk (compareBy size votes) [3] [] 2 []).reverse [] 1 []) := by
    apply sortedOn_insert h _ hsorted₁
    intro hlarge
    have hbefore : ∀ p ∈ (Lib.AmbiguousSort.walk (compareBy size votes) [3] [] 2 []).reverse,
      1 < size p →
        stride 1 < stride p := by
      intro p hp hp'
      rcases (hmem₁ p).mp (mem_reverse.mp hp) with rfl | rfl
      · exact h13 hlarge hp'
      · exact h12 hlarge hp'
    have hpos : ∀ p ∈ (Lib.AmbiguousSort.walk (compareBy size votes) [3] [] 2 []).reverse,
      1 < size p →
        compareBy size votes p 1 = 1 := by
      intro p hp hp'
      have hlt := hbefore p hp hp'
      rw [compareBy, compareStrides_large h hp' hlarge hvotes (by omega), if_neg (by omega)]
    refine ⟨?_, .inr ?_, ?_⟩
    · intro p hp hp'
      have hp'' : 1 < size p := by simpa [large] using hp'
      rw [hpos p hp hp'']
      exact iff_of_true Int.one_pos (hbefore p hp hp'')
    · intro p hp hp'
      rw [hpos p hp (by simpa [large] using hp')]
      omega
    · intro front p back hb _ hneg q hq hq'
      exfalso
      have hqlarge : 1 < size q := by simpa [large] using hq'
      have hqmem : q ∈ (Lib.AmbiguousSort.walk (compareBy size votes) [3] [] 2 []).reverse := by
        rw [hb]
        exact mem_append_right _ (mem_cons_of_mem _ hq)
      obtain ⟨hqp, hpq⟩ := compareStrides_small_before h hlarge hqlarge
        (hbefore q hqmem hqlarge) hneg
      rw [hfirst] at hb
      split at hb
      · next hswap =>
          obtain ⟨rfl, rfl⟩ := eq_of_mem_after hb hq
          unfold compareBy at hswap
          omega
      · next hswap =>
          obtain ⟨rfl, rfl⟩ := eq_of_mem_after hb hq
          unfold compareBy at hswap
          omega
  -- the batch
  rw [sortDims_cons]
  apply sortedOn_insert h _ hsorted₂
  intro hlarge
  apply comparable_of_last h hlarge
  intro p hp hp'
  have hmem := (walk_perm (compareBy size votes)
    (Lib.AmbiguousSort.walk (compareBy size votes) [3] [] 2 []).reverse [] 1 []).mem_iff.mp
      (mem_reverse.mp hp)
  simp only [reverse_reverse, append_nil, mem_append, mem_singleton, hmem₁] at hmem
  rcases hmem with (rfl | rfl) | rfl
  · exact h30 hp' hlarge
  · exact h20 hp' hlarge
  · exact h10 hp' hlarge

/-- Tensors with the same strides: all dimensions but those of stride zero are sorted
by stride, and then by size. -/
theorem sortDims_sameStrides (size : Nat → Nat) (strides : Nat → Int) {votes : List (Nat → Int)}
    (hvotes : votes ≠ [])
    (hscaled : ∀ s ∈ votes, ∃ e : Int, 0 < e ∧ ∀ d, s d = e * strides d) (dims : List Nat) :
    SortedOn (fun d => strides d ≠ 0) strides (sortDims (compareBy size votes) dims) := by
  have hzero : ∀ {p}, strides p = 0 → ∀ s ∈ votes, s p = 0 := by
    intro p hp s hs
    obtain ⟨e, _, he⟩ := hscaled s hs
    rw [he, hp, Int.mul_zero]
  have hpos : ∀ {p x}, strides p ≠ 0 → strides x ≠ 0 →
      (0 < compareBy size votes p x ↔ toLex (strides x, size x) < toLex (strides p, size p)) := by
    intro p x hp hx
    rw [Prod.Lex.toLex_lt_toLex]
    unfold compareBy
    induction votes with
    | nil => exact absurd rfl hvotes
    | cons s votes ih =>
      obtain ⟨e, he, hs⟩ := hscaled s mem_cons_self
      have hlt : ∀ a b, e * strides a < e * strides b ↔ strides a < strides b :=
        fun a b => Int.mul_lt_mul_left he
      have hne : ∀ a, strides a ≠ 0 → e * strides a ≠ 0 :=
        fun a ha => Int.mul_ne_zero (by omega) ha
      rw [compareStrides, hs p, hs x, if_neg (not_or.mpr ⟨hne p hp, hne x hx⟩)]
      simp only [gt_iff_lt, hlt]
      split
      · omega
      · split
        · omega
        · split
          · omega
          · by_cases hrest : votes = []
            · rw [hrest, compareStrides]
              omega
            · exact ih hrest (fun t ht => hscaled t (mem_cons_of_mem _ ht)) (fun hq t ht =>
                hzero hq t (mem_cons_of_mem _ ht))
  have hkey : SortedOn (fun d => strides d ≠ 0) (fun d => toLex (strides d, size d))
      (sortDims (compareBy size votes) dims) := by
    have hall : ∀ rest sorted : List Nat,
        SortedOn (fun d => strides d ≠ 0) (fun d => toLex (strides d, size d)) sorted →
        SortedOn (fun d => strides d ≠ 0) (fun d => toLex (strides d, size d))
          (insertAll (compareBy size votes) sorted rest) := by
      intro rest
      induction rest with
      | nil => exact fun sorted h => h
      | cons x rest ih =>
        intro sorted hsorted
        rw [insertAll]
        apply ih
        by_cases hx : strides x = 0
        · have hfilter := filter_walk_of_not_mem (compareBy size votes)
            (fun d => decide (strides d ≠ 0)) sorted.reverse []
            [] (show decide (strides x ≠ 0) = false by simpa using hx)
            (.inl fun p => compareStrides_of_zero_right (hzero hx)) (by simp)
          unfold SortedOn at hsorted ⊢
          rw [hfilter]
          simpa using hsorted
        · apply walk_sorted _ _ _ (by simpa using hx)
          · refine ⟨?_, .inl ?_, ?_⟩
            · intro p _ hp
              exact hpos (by simpa using hp) hx
            · intro p hp
              have hp' : strides p = 0 := by simpa using hp
              have hcmp : compareBy size votes p x = 0 :=
                compareStrides_of_zero_left (hzero hp')
              omega
            · intro _ p _ _ hp hneg
              have hp' : strides p = 0 := by simpa using hp
              have hcmp : compareBy size votes p x = 0 :=
                compareStrides_of_zero_left (hzero hp')
              omega
          · simp
          · simp
          · simpa using hsorted
    cases dims with
    | nil => exact Pairwise.nil
    | cons x rest =>
      rw [sortDims_cons]
      exact hall rest [x] (sortedOn_singleton _ _ x)
  exact hkey.imp fun {a b} h => by
    rcases Prod.Lex.toLex_le_toLex.mp h with h | h
    · exact h.le
    · exact h.1.le

end Compare

/-! ## The order that results -/

section Order

variable {size : Nat → Nat} {stride : Nat → Int} {perm order : List Nat}

theorem filter_large_eq (hperm : perm.Perm order)
    (hsorted : SortedOn (large size) stride perm)
    (hasc : order.Pairwise fun a b => 1 < size a → 1 < size b → stride a < stride b) :
    perm.filter (large size) = order.filter (large size) := by
  have hasc' : (order.filter (large size)).Pairwise fun a b => stride a < stride b := by
    have hfilter := hasc.filter (large size)
    refine hfilter.imp_of_mem ?_
    intro a b ha hb h
    exact h (by simpa [large] using (mem_filter.mp ha).2)
      (by simpa [large] using (mem_filter.mp hb).2)
  have hfilter := hperm.filter (large size)
  refine Perm.eq_of_pairwise ?_ hsorted (hasc'.imp fun h => h.le) hfilter
  intro a b ha hb hab hba
  by_contra hne
  have hdistinct : (order.filter (large size)).Pairwise fun a b => stride a ≠ stride b :=
    hasc'.imp fun h => h.ne
  have : Std.Symm fun a b => stride a ≠ stride b := ⟨fun _ _ h => h.symm⟩
  exact hdistinct.forall (hfilter.mem_iff.mp ha) hb hne (le_antisymm hab hba)

variable (h : DenseOrder size stride order 1) (hpos : ∀ d ∈ order, 0 < size d)
  (hperm : perm.Perm order)
include h hpos hperm

theorem DenseOrder.of_sorted
    (hsorted : SortedOn (large size) stride perm) : DenseOrder size stride perm 1 := by
  have hlarge : ∀ d ∈ order, large size d = true ↔ size d ≠ 1 := by
    intro d hd
    have := hpos d hd
    simp only [large, decide_eq_true_eq]
    omega
  rw [← denseOrder_filter (large size) fun d hd => hlarge d (hperm.mem_iff.mp hd),
    filter_large_eq hperm hsorted (h.ascending Nat.one_pos hpos), denseOrder_filter _ hlarge]
  exact h

/-- What is sorted by its strides, those of stride zero apart, is sorted where it is dense. -/
theorem DenseOrder.sortedOn (hsorted : SortedOn (fun d => stride d ≠ 0) stride perm) :
    SortedOn (large size) stride perm := by
  have hsub : perm.filter (large size) =
      (perm.filter fun d => decide (stride d ≠ 0)).filter (large size) := by
    rw [filter_filter]
    refine filter_congr fun d hd => ?_
    by_cases hlarge : 1 < size d
    · have hle := h.le hpos (hperm.mem_iff.mp hd) (by omega)
      have hnz : stride d ≠ 0 := by omega
      simp [large, hnz]
    · simp [large, hlarge]
  unfold SortedOn at hsorted ⊢
  rw [hsub]
  exact hsorted.filter _

end Order

end PyTorchCore.TensorIterator
