import Mathlib.Data.List.Nodup

/-!
# Doubly linked rings

Nodes are linked by two maps, `next` and `prev`, that start and end at a root. A `Path` follows
one map through a list of nodes, and a ring is a path along `next` and a path along `prev` through
the same nodes in the opposite order.
-/

namespace PyTorchCore.Lib

open Function List

universe u

variable {α : Type u}

/-- The map leads from the first node through the list to the last node. -/
def Path (f : α → α) : α → List α → α → Prop
  | first, [], last => f first = last
  | first, x :: xs, last => f first = x ∧ Path f x xs last

/-- The nodes on the way to `root`.  The walk stops with `none` if it takes more than `fuel`
steps. -/
def walk [DecidableEq α] (f : α → α) (root : α) : Nat → α → Option (List α)
  | 0, _ => none
  | fuel + 1, cur =>
    if cur = root then some []
    else (walk f root fuel (f cur)).map (cur :: ·)

section Paths

variable {f : α → α} {first last x : α} {xs as bs : List α}

theorem path_append : Path f first (as ++ x :: bs) last ↔ Path f first as x ∧ Path f x bs last := by
  induction as generalizing first with
  | nil => rfl
  | cons a as ih =>
    rw [cons_append, Path, Path, ih, and_assoc]

theorem Path.eq_head (h : Path f first xs last) : f first = xs.head?.getD last := by
  cases xs with
  | nil => exact h
  | cons x xs => exact h.1

/-- A path does not depend on the nodes that it does not leave. -/
theorem Path.congr {g : α → α} (h : Path f first xs last)
    (hsame : ∀ a ∈ first :: xs, g a = f a) : Path g first xs last := by
  induction xs generalizing first with
  | nil => exact (hsame first mem_cons_self).trans h
  | cons x xs ih =>
    exact ⟨(hsame first mem_cons_self).trans h.1,
      ih h.2 (fun a ha => hsame a (mem_cons_of_mem _ ha))⟩

/-- The last node of a list, or the node in front of the list. -/
theorem append_getLast (first : α) (as : List α) : as = [] ∧ as.getLast?.getD first = first ∨
      ∃ bs b, as = bs ++ [b] ∧ as.getLast?.getD first = b := by
  rcases eq_nil_or_concat as with hnil | ⟨bs, b, hconcat⟩
  · left
    rw [hnil]
    exact ⟨rfl, rfl⟩
  · right
    rw [concat_eq_append] at hconcat
    refine ⟨bs, b, hconcat, ?_⟩
    rw [hconcat, getLast?_concat, Option.getD_some]

variable [DecidableEq α]

theorem Path.update {key value : α} (h : Path f first xs last) (hkey : key ∉ first :: xs) :
    Path (update f key value) first xs last :=
  h.congr (fun a ha => update_of_ne (fun heq : a = key => hkey (heq ▸ ha)) _ _)

/-- The node behind the first one is left out. -/
theorem Path.skip_second (h : Path f first (x :: xs) last) (hfirst : first ∉ xs) :
    Path (Function.update f first (f x)) first xs last := by
  cases xs with
  | nil =>
    rw [Path, Function.update_self]
    exact h.2
  | cons y ys =>
    rw [Path, Function.update_self]
    exact ⟨h.2.1, h.2.2.update hfirst⟩

theorem Path.insert_second {y : α} (h : Path f first xs last) (hy : y = xs.head?.getD last)
    (hfirst : first ∉ xs) (hx : x ∉ xs) (hne : x ≠ first) :
    Path (Function.update (Function.update f first x) x y) first (x :: xs) last := by
  refine ⟨?_, ?_⟩
  · rw [Function.update_of_ne hne.symm, Function.update_self]
  · cases xs with
    | nil =>
      rw [Path, Function.update_self]
      exact hy
    | cons z zs =>
      rw [Path, Function.update_self]
      exact ⟨hy, (h.2.update hfirst).update hx⟩

theorem Path.skip (h : Path f first (as ++ x :: bs) last)
    (hnodup : (first :: (as ++ x :: bs)).Nodup) :
    Path (Function.update f (as.getLast?.getD first) (f x)) first (as ++ bs) last := by
  rcases append_getLast first as with ⟨rfl, hlast⟩ | ⟨front, p, rfl, hlast⟩
  · rw [hlast]
    refine h.skip_second (fun hin => ?_)
    exact (nodup_cons.mp hnodup).1 (mem_append_right _ (mem_cons_of_mem _ hin))
  · rw [hlast]
    rw [append_assoc] at h hnodup ⊢
    obtain ⟨hfront, hback⟩ := path_append.mp h
    have hdisjoint := nodup_append.mp (cons_append ▸ hnodup :
      ((first :: front) ++ (p :: (x :: bs))).Nodup)
    refine path_append.mpr ⟨hfront.update (fun hin => ?_), hback.skip_second (fun hin => ?_)⟩
    · exact hdisjoint.2.2 p hin p mem_cons_self rfl
    · exact (nodup_cons.mp hdisjoint.2.1).1 (mem_cons_of_mem _ hin)

theorem Path.insert {y : α} (h : Path f first (as ++ bs) last) (hy : y = bs.head?.getD last)
    (hnodup : (first :: (as ++ bs)).Nodup) (hx : x ∉ first :: (as ++ bs)) :
    Path (Function.update (Function.update f (as.getLast?.getD first) x) x y) first
      (as ++ x :: bs) last := by
  rcases append_getLast first as with ⟨rfl, hlast⟩ | ⟨front, p, rfl, hlast⟩
  · rw [hlast]
    exact h.insert_second hy (nodup_cons.mp hnodup).1
      (fun hin => hx (mem_cons_of_mem _ hin)) (fun heq => hx (heq ▸ mem_cons_self))
  · rw [hlast]
    rw [append_assoc] at h hnodup hx ⊢
    obtain ⟨hfront, hback⟩ := path_append.mp h
    have hdisjoint := nodup_append.mp (cons_append ▸ hnodup : ((first :: front) ++ (p :: bs)).Nodup)
    have hx' : x ∉ (first :: front) ++ (p :: bs) := hx
    rw [mem_append, not_or] at hx'
    have hp : p ∉ first :: front := fun hin => hdisjoint.2.2 p hin p mem_cons_self rfl
    refine path_append.mpr ⟨(hfront.update hp).update hx'.1, ?_⟩
    exact hback.insert_second hy (nodup_cons.mp hdisjoint.2.1).1
      (fun hin => hx'.2 (mem_cons_of_mem _ hin))
      (fun heq => hx'.2 (heq ▸ mem_cons_self))

theorem Path.walk (h : Path f first xs last) (hlast : last ∉ xs) {fuel : Nat}
    (hfuel : xs.length < fuel) : walk f last fuel (f first) = some xs := by
  induction xs generalizing first fuel with
  | nil =>
    cases fuel with
    | zero => exact absurd hfuel (Nat.not_lt_zero _)
    | succ fuel =>
      have hstop : f first = last := h
      rw [hstop, Lib.walk, if_pos rfl]
  | cons x xs ih =>
    cases fuel with
    | zero => exact absurd hfuel (Nat.not_lt_zero _)
    | succ fuel =>
      have hne : x ≠ last := fun heq => hlast (heq ▸ mem_cons_self)
      rw [h.1, Lib.walk, if_neg hne, ih h.2 (fun hin => hlast (mem_cons_of_mem _ hin))
        (Nat.lt_of_succ_lt_succ hfuel)]
      rfl

end Paths

section Rings

/-- The nodes of a ring in the order of `next`. -/
structure Ring (root : α) (next prev : α → α) (order : List α) : Prop where
  nodup : (root :: order).Nodup
  forward : Path next root order root
  backward : Path prev root order.reverse root

theorem ring_nil {root : α} {next prev : α → α} (hnext : next root = root)
    (hprev : prev root = root) : Ring root next prev [] :=
  ⟨nodup_singleton root, hnext, hprev⟩

variable {root x : α} {next prev : α → α} {as bs order : List α}

theorem nodup_reverse_ring (h : (root :: order).Nodup) : (root :: order.reverse).Nodup := by
  obtain ⟨hroot, horder⟩ := nodup_cons.mp h
  exact nodup_cons.mpr ⟨fun hin => hroot (mem_reverse.mp hin), nodup_reverse.mpr horder⟩

theorem Ring.prev_eq (h : Ring root next prev (as ++ x :: bs)) :
    prev x = as.getLast?.getD root := by
  have hback := h.backward
  rw [reverse_append, reverse_cons, append_assoc] at hback
  have hx : prev x = as.reverse.head?.getD root := (path_append.mp hback).2.eq_head
  rw [head?_reverse] at hx
  exact hx

theorem Ring.next_eq (h : Ring root next prev (as ++ x :: bs)) :
    next x = bs.head?.getD root :=
  (path_append.mp h.forward).2.eq_head
section

variable (h : Ring root next prev order)
include h

theorem Ring.prev_root : prev root = order.getLast?.getD root := by
  rw [h.backward.eq_head, head?_reverse]

/-- The node behind a node of the ring, or behind the root. -/
theorem Ring.next_mem (hx : x ∈ root :: order) :
    next x ∈ root :: order := by
  have hhead : ∀ bs : List α, bs.head?.getD root ∈ root :: bs := by
    intro bs
    cases bs with
    | nil => exact mem_cons_self
    | cons b bs => exact mem_cons_of_mem _ mem_cons_self
  rcases mem_cons.mp hx with rfl | hin
  · rw [h.forward.eq_head]
    exact hhead order
  · obtain ⟨as, bs, rfl⟩ := append_of_mem hin
    rw [h.next_eq]
    rcases mem_cons.mp (hhead bs) with heq | hlater
    · rw [heq]
      exact mem_cons_self
    · exact mem_cons_of_mem _ (mem_append_right _ (mem_cons_of_mem _ hlater))

/-- The ring in the other direction. -/
theorem Ring.flip : Ring root prev next order.reverse where
  nodup := nodup_reverse_ring h.nodup
  forward := h.backward
  backward := by
    rw [reverse_reverse]
    exact h.forward

theorem Ring.prev_mem (hx : x ∈ root :: order) : prev x ∈ root :: order := by
  have hmem := h.flip.next_mem ((mem_cons.mp hx).elim (fun heq => heq ▸ mem_cons_self)
    fun hin => mem_cons_of_mem _ (mem_reverse.mpr hin))
  exact (mem_cons.mp hmem).elim (fun heq => heq ▸ mem_cons_self)
    fun hin => mem_cons_of_mem _ (mem_reverse.mp hin)

/-- The links undo each other. -/
theorem Ring.next_prev (hx : x ∈ root :: order) :
    next (prev x) = x := by
  have hpath : ∀ as bs : List α, order = as ++ bs →
      next (as.getLast?.getD root) = bs.head?.getD root := by
    rintro as bs rfl
    rcases append_getLast root as with ⟨rfl, hlast⟩ | ⟨front, p, rfl, hlast⟩
    · rw [hlast]
      exact h.forward.eq_head
    · rw [hlast]
      have hforward := h.forward
      rw [append_assoc] at hforward
      exact (path_append.mp hforward).2.eq_head
  rcases mem_cons.mp hx with rfl | hin
  · rw [h.prev_root]
    exact hpath order [] (append_nil order).symm
  · obtain ⟨as, bs, rfl⟩ := append_of_mem hin
    rw [h.prev_eq]
    exact hpath as (x :: bs) rfl

end

variable [DecidableEq α]

theorem Ring.unlink (h : Ring root next prev (as ++ x :: bs)) :
    Ring root (update next (prev x) (next x)) (update prev (next x) (prev x)) (as ++ bs) := by
  obtain ⟨hroot, hnodup⟩ := nodup_cons.mp h.nodup
  refine ⟨?_, ?_, ?_⟩
  · refine nodup_cons.mpr ⟨fun hin => hroot ?_, ?_⟩
    · rcases mem_append.mp hin with hfront | hback
      · exact mem_append_left _ hfront
      · exact mem_append_right _ (mem_cons_of_mem _ hback)
    · exact hnodup.sublist ((Sublist.refl as).append (sublist_cons_self x bs))
  · rw [h.prev_eq]
    exact h.forward.skip h.nodup
  · have hback := h.backward
    have hnodup' := nodup_reverse_ring h.nodup
    rw [reverse_append, reverse_cons, append_assoc] at hback hnodup'
    rw [h.next_eq, reverse_append, ← getLast?_reverse]
    exact hback.skip hnodup'

/-- A node is put in front of `y`, which is a node or the root. -/
theorem Ring.linkBefore {y : α} (h : Ring root next prev (as ++ bs))
    (hy : y = bs.head?.getD root) (hx : x ∉ root :: (as ++ bs)) :
    Ring root (update (update next (prev y) x) x y)
      (update (update prev x (prev y)) y x) (as ++ x :: bs) := by
  have hp : prev y = as.getLast?.getD root := by
    cases bs with
    | nil =>
      rw [append_nil] at h
      rw [hy]
      exact h.prev_root
    | cons z zs =>
      rw [hy]
      exact h.prev_eq
  have hxy : x ≠ y := by
    rintro rfl
    cases bs with
    | nil => exact hx (hy ▸ mem_cons_self)
    | cons z zs =>
      have hz : x = z := hy
      exact hx (mem_cons_of_mem _ (mem_append_right _ (hz ▸ mem_cons_self)))
  refine ⟨?_, ?_, ?_⟩
  · have hperm : (root :: (as ++ x :: bs)).Perm (x :: (root :: (as ++ bs))) :=
      (perm_middle.cons root).trans (Perm.swap x root _)
    exact hperm.nodup_iff.mpr (nodup_cons.mpr ⟨hx, h.nodup⟩)
  · rw [hp]
    exact h.forward.insert hy h.nodup hx
  · have hback := h.backward
    have hnodup := nodup_reverse_ring h.nodup
    rw [reverse_append] at hback hnodup
    rw [update_comm hxy, reverse_append, reverse_cons, append_assoc]
    have hy' : y = bs.reverse.getLast?.getD root := by
      rw [getLast?_reverse]
      exact hy
    have hp' : prev y = as.reverse.head?.getD root := by
      rw [head?_reverse]
      exact hp
    have hx' : x ∉ root :: (bs.reverse ++ as.reverse) := by
      rw [← reverse_append]
      intro hin
      rcases mem_cons.mp hin with hroot | hrest
      · exact hx (hroot ▸ mem_cons_self)
      · exact hx (mem_cons_of_mem _ (mem_reverse.mp hrest))
    have hinsert := hback.insert hp' hnodup hx'
    rw [← hy'] at hinsert
    exact hinsert

variable (h : Ring root next prev order)
include h

/-- A node that is not in the ring can be linked anywhere. -/
theorem Ring.update_outside (hx : x ∉ root :: order) (y z : α) :
    Ring root (update next x y) (update prev x z) order := by
  refine ⟨h.nodup, h.forward.update hx, h.backward.update (fun hin => hx ?_)⟩
  rcases mem_cons.mp hin with hroot | hrest
  · exact hroot ▸ mem_cons_self
  · exact mem_cons_of_mem _ (mem_reverse.mp hrest)

/-- A node is put in front of a node of the ring, or of the root. -/
theorem Ring.exists_linkBefore {y : α} (hy : y ∈ root :: order)
    (hx : x ∉ root :: order) :
    ∃ after, Ring root (update (update next (prev y) x) x y)
      (update (update prev x (prev y)) y x) after ∧ after.Perm (x :: order) := by
  rcases mem_cons.mp hy with rfl | hin
  · rw [← append_nil order] at h hx
    refine ⟨order ++ [x], h.linkBefore rfl hx, ?_⟩
    exact perm_append_singleton x order
  · obtain ⟨as, bs, rfl⟩ := append_of_mem hin
    exact ⟨_, h.linkBefore rfl hx, perm_middle⟩

theorem Ring.walk_next {fuel : Nat}
    (hfuel : order.length < fuel) : walk next root fuel (next root) = some order :=
  h.forward.walk (nodup_cons.mp h.nodup).1 hfuel

theorem Ring.walk_prev {fuel : Nat}
    (hfuel : order.length < fuel) : walk prev root fuel (prev root) = some order.reverse :=
  h.backward.walk (nodup_cons.mp (nodup_reverse_ring h.nodup)).1 (by rwa [length_reverse])

end Rings

end PyTorchCore.Lib
