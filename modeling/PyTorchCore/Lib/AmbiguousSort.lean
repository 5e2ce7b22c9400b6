import Mathlib.Order.Lattice

/-!
# Insertion sort with ambiguous comparisons

A comparison may be positive (the first element belongs after the second), negative, or zero: it
does not tell. Inserting an element walks from the end of the sorted part to its front; it passes
the elements with which it cannot be compared, exchanges places with those that belong after it,
and stops at the first that belongs before it.

The result need not be sorted, since such a comparison need not be transitive.
-/

namespace PyTorchCore.Lib
namespace AmbiguousSort

open List

universe u v

variable {α : Type u} (cmp : α → α → Int)

/-- Inserts `x`.  The elements before it, last one first, are still to be compared;
`passed` stands between them and `x`, and `after` follows `x`. -/
def walk : List α → List α → α → List α → List α
  | [], passed, x, after => passed ++ x :: after
  | p :: before, passed, x, after =>
    if 0 < cmp p x then walk before [] x (passed ++ p :: after)
    else if cmp p x < 0 then (p :: before).reverse ++ passed ++ x :: after
    else walk before (p :: passed) x after

/-- Inserts the elements of the second list one after the other. -/
def insertAll : List α → List α → List α
  | sorted, [] => sorted
  | sorted, x :: rest => insertAll (walk cmp sorted.reverse [] x []) rest

theorem walk_append (before passed : List α) (x : α) (after rest : List α) :
    walk cmp before passed x (after ++ rest) = walk cmp before passed x after ++ rest := by
  induction before generalizing passed after with
  | nil => simp [walk]
  | cons p before ih =>
    simp only [walk]
    split
    · rw [← ih]
      simp
    · split
      · simp
      · exact ih _ _

theorem walk_perm (before passed : List α) (x : α) (after : List α) :
    (walk cmp before passed x after).Perm (before.reverse ++ passed ++ x :: after) := by
  induction before generalizing passed after with
  | nil => exact Perm.refl _
  | cons p before ih =>
    simp only [walk]
    split
    · refine (ih _ _).trans ?_
      -- the exchange of `p` and `x` around the passed elements
      simp only [append_nil, reverse_cons, append_assoc, singleton_append]
      refine Perm.append_left _ ?_
      have hout : (x :: (passed ++ p :: after)).Perm (x :: p :: (passed ++ after)) :=
        perm_middle.cons x
      have hin : (p :: x :: (passed ++ after)).Perm (p :: (passed ++ x :: after)) :=
        perm_middle.symm.cons p
      exact hout.trans ((Perm.swap p x _).trans hin)
    · split
      · exact Perm.refl _
      · refine (ih _ _).trans ?_
        simp

theorem insertAll_perm (sorted rest : List α) :
    (insertAll cmp sorted rest).Perm (sorted ++ rest) := by
  induction rest generalizing sorted with
  | nil => simp [insertAll]
  | cons x rest ih =>
    rw [insertAll]
    refine (ih _).trans ?_
    refine ((walk_perm cmp _ _ _ _).append_right rest).trans ?_
    simp

section Order

variable {K : Type v} [LinearOrder K] (D : α → Bool) (key : α → K)

/-- The elements of the kind `D` are in ascending order. -/
def SortedOn (l : List α) : Prop :=
  (l.filter D).Pairwise fun a b => key a ≤ key b

theorem sortedOn_singleton (x : α) : SortedOn D key [x] := by
  unfold SortedOn
  rw [filter_cons]
  split
  · exact pairwise_singleton _ _
  · exact Pairwise.nil

/-- Inserting an element of another kind keeps the order, unless the element is ambiguous towards
some elements of the kind only. -/
theorem filter_walk_of_not_mem (before passed : List α) {x : α} (after : List α) (hx : D x = false)
    (hdec : (∀ p, cmp p x = 0) ∨ (∀ p, D p = true → cmp p x ≠ 0))
    (hpassed : ∀ p ∈ passed, cmp p x = 0) :
    (walk cmp before passed x after).filter D = (before.reverse ++ passed ++ after).filter D := by
  induction before generalizing passed after with
  | nil => simp [walk, hx]
  | cons p before ih =>
    simp only [walk]
    split
    · next hpos =>
        have hnone : passed.filter D = [] := by
          rw [filter_eq_nil_iff]
          intro q hq hDq
          rcases hdec with hdec | hdec
          · rw [hdec p] at hpos
            omega
          · exact hdec q hDq (hpassed q hq)
        rw [ih _ _ (by simp)]
        simp [filter_cons, hnone]
    · split
      · simp [filter_cons, hx]
      · next hn hn' =>
          have hzero : cmp p x = 0 := by omega
          rw [ih _ _ (by
            intro q hq
            rcases mem_cons.mp hq with rfl | hq
            · exact hzero
            · exact hpassed q hq)]
          simp

/-- What makes the insertion of `x` keep the elements of the kind `D` in order. -/
structure Comparable (before : List α) (x : α) : Prop where
  /-- Comparisons within the kind follow the key. -/
  inside : ∀ p ∈ before, D p = true → (0 < cmp p x ↔ key x < key p)
  /-- Either no other element exchanges places with `x`, or no element of the kind is
  ambiguous towards it. -/
  outside : (∀ p, D p = false → ¬ 0 < cmp p x) ∨ (∀ p ∈ before, D p = true → cmp p x ≠ 0)
  /-- Another element stops the walk only where `x` belongs. -/
  stops : ∀ front p back, before = back ++ p :: front → D p = false → cmp p x < 0 →
    ∀ q ∈ front, D q = true → key q ≤ key x

/-- Fewer elements before are comparable too. -/
theorem Comparable.tail {before : List α} {p x : α}
    (h : Comparable cmp D key (p :: before) x) : Comparable cmp D key before x where
  inside := fun q hq => h.inside q (mem_cons_of_mem _ hq)
  outside := h.outside.imp id fun h q hq => h q (mem_cons_of_mem _ hq)
  stops := fun front q back hb => h.stops front q (p :: back) (by simp [hb])

theorem walk_sorted {before passed : List α} {x : α} {after : List α}
    (hx : D x = true) (hcmp : Comparable cmp D key before x)
    (hpassed : ∀ p ∈ passed, D p = true → key p ≤ key x ∧ ∀ q, D q = false → ¬ 0 < cmp q x)
    (hafter : ∀ p ∈ after, D p = true → key x ≤ key p)
    (hsorted : SortedOn D key (before.reverse ++ passed ++ after)) :
    SortedOn D key (walk cmp before passed x after) := by
  induction before generalizing passed after with
  | nil =>
    simp only [walk, SortedOn, filter_append, filter_cons, hx, if_true,
      reverse_nil, nil_append, pairwise_append, pairwise_cons,
      mem_filter, mem_cons] at hsorted ⊢
    refine ⟨hsorted.1, ⟨fun q hq => hafter q hq.1 hq.2, hsorted.2.1⟩, ?_⟩
    rintro a ha b (rfl | hb)
    · exact (hpassed a ha.1 ha.2).1
    · exact hsorted.2.2 a ha b hb
  | cons p before ih =>
    simp only [walk]
    have hsorted' := hsorted
    simp only [SortedOn, reverse_cons, append_assoc, filter_append,
      pairwise_append, mem_append, mem_filter, mem_singleton] at hsorted'
    split
    · next hpos =>
        -- the passed elements of the kind would be both at most `x` and at least `p`
        have hnone : passed.filter D = [] := by
          rw [filter_eq_nil_iff]
          intro q hq hDq
          obtain ⟨hle, hother⟩ := hpassed q hq hDq
          cases hDp : D p with
          | false => exact hother p hDp hpos
          | true =>
            have hlt := (hcmp.inside p mem_cons_self hDp).mp hpos
            have hpq := hsorted'.2.1.2.2 p ⟨rfl, hDp⟩ q (.inl ⟨hq, hDq⟩)
            exact absurd (hlt.trans_le hpq) (not_lt_of_ge hle)
        apply ih hcmp.tail
        · simp
        · intro q hq hDq
          rcases mem_append.mp hq with hq | hq
          · have : q ∈ passed.filter D := mem_filter.mpr ⟨hq, hDq⟩
            rw [hnone] at this
            cases this
          · rcases mem_cons.mp hq with rfl | hq
            · exact ((hcmp.inside q mem_cons_self hDq).mp hpos).le
            · exact hafter q hq hDq
        · have hfilter : (before.reverse ++ [] ++ (passed ++ p :: after)).filter D =
              ((p :: before).reverse ++ passed ++ after).filter D := by
            simp [filter_cons, hnone]
          unfold SortedOn
          rw [hfilter]
          exact hsorted
    · next hpos =>
        split
        · next hneg =>
            -- everything before `p` is at most `x`
            have hfront : ∀ q, q ∈ p :: before → D q = true → key q ≤ key x := by
              intro q hq hDq
              cases hDp : D p with
              | false =>
                rcases mem_cons.mp hq with rfl | hq
                · rw [hDp] at hDq
                  cases hDq
                · exact hcmp.stops before p [] rfl hDp hneg q hq hDq
              | true =>
                have hpx : key p ≤ key x :=
                  le_of_not_gt fun hlt => hpos ((hcmp.inside p mem_cons_self hDp).mpr hlt)
                rcases mem_cons.mp hq with rfl | hq
                · exact hpx
                · refine le_trans ?_ hpx
                  exact hsorted'.2.2 q ⟨mem_reverse.mpr hq, hDq⟩ p (.inl ⟨rfl, hDp⟩)
            have hbefore : ∀ q ∈ (p :: before).reverse ++ passed, D q = true → key q ≤ key x := by
              intro q hq hDq
              rcases mem_append.mp hq with hq | hq
              · exact hfront q (mem_reverse.mp hq) hDq
              · exact (hpassed q hq hDq).1
            unfold SortedOn at hsorted ⊢
            rw [filter_append, pairwise_append] at hsorted ⊢
            rw [filter_cons_of_pos hx, pairwise_cons]
            refine ⟨hsorted.1, ⟨?_, hsorted.2.1⟩, ?_⟩
            · intro q hq
              exact hafter q (mem_filter.mp hq).1 (mem_filter.mp hq).2
            · intro a ha b hb
              rcases mem_cons.mp hb with rfl | hb
              · exact hbefore a (mem_filter.mp ha).1 (mem_filter.mp ha).2
              · exact hsorted.2.2 a ha b hb
        · next hneg =>
            apply ih hcmp.tail
            · intro q hq hDq
              rcases mem_cons.mp hq with rfl | hq
              · refine ⟨le_of_not_gt fun hlt =>
                  hpos ((hcmp.inside q mem_cons_self hDq).mpr hlt), ?_⟩
                rcases hcmp.outside with hout | hout
                · exact hout
                · exact absurd (by omega) (hout q mem_cons_self hDq)
              · exact hpassed q hq hDq
            · exact hafter
            · have hlist : before.reverse ++ p :: passed ++ after =
                  (p :: before).reverse ++ passed ++ after := by simp
              rw [hlist]
              exact hsorted

end Order

end AmbiguousSort
end PyTorchCore.Lib
