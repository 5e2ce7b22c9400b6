import Mathlib.Data.List.Perm.Basic

/-!
# Reordering a list under dependencies

`KeepsOrder R old new` says that `new` is a permutation of `old` in which every pair of `old` with
`R u v`, `u` before `v`, keeps its order.
-/

namespace PyTorchCore.Lib

open List

universe u

variable {α : Type u} {R : α → α → Prop}

theorem pair_sublist_append {x y : α} {l l' : List α} : [x, y].Sublist (l ++ l') ↔
      [x, y].Sublist l ∨ (x ∈ l ∧ y ∈ l') ∨ [x, y].Sublist l' := by
  rw [sublist_append_iff]
  constructor
  · rintro ⟨front, back, hsplit, hfront, hback⟩
    rcases front with _ | ⟨a, _ | ⟨b, front⟩⟩
    · rw [nil_append] at hsplit
      exact .inr (.inr (hsplit ▸ hback))
    · cases hsplit
      exact .inr (.inl ⟨singleton_sublist.mp hfront, singleton_sublist.mp hback⟩)
    · obtain ⟨rfl, hrest⟩ := List.cons.inj hsplit
      obtain ⟨rfl, hnil⟩ := List.cons.inj hrest
      have hnil : front ++ back = [] := hnil.symm
      exact .inl ((append_eq_nil_iff.mp hnil).1 ▸ hfront)
  · rintro (h | ⟨hx, hy⟩ | h)
    · exact ⟨[x, y], [], rfl, h, nil_sublist _⟩
    · exact ⟨[x], [y], rfl, singleton_sublist.mpr hx, singleton_sublist.mpr hy⟩
    · exact ⟨[], [x, y], rfl, nil_sublist _, h⟩

/-- A permutation that keeps the order of dependent pairs. -/
structure KeepsOrder (R : α → α → Prop) (old new : List α) : Prop where
  perm : new.Perm old
  order : ∀ x y, R x y → [x, y].Sublist old → [x, y].Sublist new

namespace KeepsOrder

variable {a b c X Y : List α}

theorem refl (R : α → α → Prop) (a : List α) : KeepsOrder R a a :=
  ⟨Perm.refl a, fun _ _ _ h => h⟩

theorem trans (h : KeepsOrder R a b) (h' : KeepsOrder R b c) : KeepsOrder R a c :=
  ⟨h'.perm.trans h.perm, fun x y hR hxy => h'.order x y hR (h.order x y hR hxy)⟩

theorem append_left (h : KeepsOrder R a b) (X : List α) : KeepsOrder R (X ++ a) (X ++ b) := by
  refine ⟨h.perm.append_left X, fun x y hR hxy => ?_⟩
  rw [pair_sublist_append] at hxy ⊢
  rcases hxy with hX | ⟨hx, hy⟩ | ha
  · exact .inl hX
  · exact .inr (.inl ⟨hx, h.perm.mem_iff.mpr hy⟩)
  · exact .inr (.inr (h.order x y hR ha))

theorem append_right (h : KeepsOrder R a b) (Y : List α) : KeepsOrder R (a ++ Y) (b ++ Y) := by
  refine ⟨h.perm.append_right Y, fun x y hR hxy => ?_⟩
  rw [pair_sublist_append] at hxy ⊢
  rcases hxy with ha | ⟨hx, hy⟩ | hY
  · exact .inl (h.order x y hR ha)
  · exact .inr (.inl ⟨h.perm.mem_iff.mpr hx, hy⟩)
  · exact .inr (.inr hY)

/-- Elements may be moved behind one that depends on none of them. -/
theorem pass {m : α} (h : ∀ w ∈ a, ¬ R w m) : KeepsOrder R (a ++ [m]) (m :: a) := by
  refine ⟨(perm_append_singleton m a).symm, fun x y hR hxy => ?_⟩
  rcases pair_sublist_append.mp hxy with ha | ⟨hx, hy⟩ | hm
  · exact ha.cons m
  · rw [mem_singleton.mp hy] at hR
    exact absurd hR (h x hx)
  · have hlength := hm.length_le
    simp at hlength

theorem reverse (h : KeepsOrder (flip R) a b) : KeepsOrder R a.reverse b.reverse := by
  refine ⟨(reverse_perm b).trans (h.perm.trans (reverse_perm a).symm),
    fun x y hR hxy => ?_⟩
  have hflip : [y, x].Sublist a := by
    have := hxy.reverse
    rwa [reverse_reverse] at this
  exact (h.order y x hR hflip).reverse

end KeepsOrder

/-- A pass over a list behind the elements of `front`. -/
inductive Swept (R : α → α → Prop) : List α → List α → List α → List α → Prop where
  | nil {front : List α} : Swept R front [] [] []
  | take {front M D rest : List α} {m : α} (h : Swept R (front ++ [m]) M D rest) :
      Swept R front (m :: M) (m :: D) rest
  | pass {front M D rest : List α} {m : α} (hfree : ∀ w ∈ front, ¬ R w m)
      (h : Swept R front M D rest) : Swept R front (m :: M) D (m :: rest)

namespace Swept

variable {front M D rest : List α}

section

variable (h : Swept R front M D rest)
include h

/-- **A pass.**  What was taken stays behind what was passed. -/
theorem keepsOrder : KeepsOrder R (front ++ M) (rest ++ (front ++ D)) := by
  induction h with
  | nil => exact KeepsOrder.refl R _
  | @take front M D rest m _ ih =>
    rw [append_assoc, append_assoc] at ih
    exact ih
  | @pass front M D rest m hfree _ ih =>
    have hpass : KeepsOrder R (front ++ m :: M) (m :: (front ++ M)) := by
      have := (KeepsOrder.pass hfree).append_right M
      rwa [append_assoc] at this
    exact hpass.trans (ih.append_left [m])

/-- Everything behind the pass goes past one more element. -/
theorem past {p : α} (hp : ∀ x ∈ front ++ D, ¬ R x p) :
    KeepsOrder R (front ++ M ++ [p]) (rest ++ p :: (front ++ D)) := by
  have hfirst := h.keepsOrder.append_right [p]
  rw [append_assoc rest] at hfirst
  exact hfirst.trans ((KeepsOrder.pass hp).append_left rest)

/-- Only what was taken goes past one more element. -/
theorem split {p : α} (hp : ∀ x ∈ D, ¬ R x p) :
    KeepsOrder R (front ++ M ++ [p]) (rest ++ (front ++ p :: D)) := by
  have hfirst : KeepsOrder R (front ++ M ++ [p]) (rest ++ (front ++ (D ++ [p]))) := by
    have := h.keepsOrder.append_right [p]
    rwa [append_assoc rest, append_assoc front D] at this
  exact hfirst.trans (((KeepsOrder.pass hp).append_left front).append_left rest)

theorem sublist : D.Sublist M := by
  induction h with
  | nil => exact Sublist.refl []
  | take _ ih => exact ih.cons_cons _
  | pass _ _ ih => exact ih.cons _

/-- In a list without repetition the elements passed are those that were not taken. -/
theorem rest_eq [DecidableEq α] (hnodup : M.Nodup) : rest = M.filter (· ∉ D) := by
  induction h with
  | nil => rfl
  | @take front M D rest m h ih =>
    obtain ⟨hm, hM⟩ := nodup_cons.mp hnodup
    rw [filter_cons_of_neg (by simp), ih hM]
    refine filter_congr fun x hx => ?_
    have hxm : x ≠ m := fun heq => hm (heq ▸ hx)
    simp [hxm]
  | @pass front M D rest m _ h ih =>
    obtain ⟨hm, hM⟩ := nodup_cons.mp hnodup
    have hmD : m ∉ D := fun hD => hm (h.sublist.subset hD)
    rw [filter_cons_of_pos (by simp [hmD]), ih hM]

end

end Swept

end PyTorchCore.Lib
