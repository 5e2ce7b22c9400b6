import PyTorchCore.Functionalization.Wrapper

/-!
# Chains of views

The views of a wrapper lead from the base, one after the other.  Together they see a part of
the base, in the sizes of the last view.
-/

namespace PyTorchCore.Functionalization

open Lib
open List

universe u

variable {V : Type u} [Inhabited V]

def chainSizes (sizes : List Nat) : List ViewMeta → List Nat
  | [] => sizes
  | m :: metas => chainSizes m.view.sizes metas

/-- The elements of a base with `n` elements that the views see together. -/
def chainSees (n : Nat) : List ViewMeta → List Nat
  | [] => List.range n
  | m :: metas => select m.view.sees (chainSees m.view.sees.length metas)

/-- Every view sees elements of the one before it. -/
def ValidChain (n : Nat) : List ViewMeta → Prop
  | [] => True
  | m :: metas => InRange n m.view.sees ∧ ValidChain m.view.sees.length metas

section Chains

variable {n : Nat} {metas : List ViewMeta} {m : ViewMeta} {base t : Tensor V}

/-- A chain of views reads only elements that exist. -/
theorem inRange_chainSees (h : ValidChain n metas) : InRange n (chainSees n metas) := by
  induction metas generalizing n with
  | nil => exact inRange_range n
  | cons m metas ih => exact h.1.select (ih h.2)

theorem nodup_chainSees (h : ValidChain n metas) (hnodup : ∀ m ∈ metas, m.view.sees.Nodup) :
    (chainSees n metas).Nodup := by
  induction metas generalizing n with
  | nil => exact nodup_range
  | cons m metas ih =>
    exact nodup_select (hnodup m mem_cons_self)
      (ih h.2 (fun k hk => hnodup k (mem_cons_of_mem _ hk))) (inRange_chainSees h.2)

theorem select_range_of_inRange {ps : List Nat} (h : InRange n ps) :
    select (List.range n) ps = ps := by
  have hget : ∀ p ∈ ps, (List.range n).getD p default = p := by
    intro p hp
    have hlength : p < (List.range n).length := by
      rw [length_range]
      exact h p hp
    rw [getD_eq_getElem _ _ hlength, getElem_range]
  exact (map_congr_left hget).trans (map_id' ps)

theorem chainSizes_snoc (sizes : List Nat) (metas : List ViewMeta) (m : ViewMeta) :
    chainSizes sizes (metas ++ [m]) = m.view.sizes := by
  induction metas generalizing sizes with
  | nil => rfl
  | cons k metas ih => exact ih k.view.sizes

theorem chainSees_snoc (hm : InRange (chainSees n metas).length m.view.sees) :
    chainSees n (metas ++ [m]) = select (chainSees n metas) m.view.sees := by
  induction metas generalizing n with
  | nil =>
    rw [chainSees, length_range] at hm
    show select m.view.sees (List.range m.view.sees.length) = select (List.range n) m.view.sees
    rw [select_range, select_range_of_inRange hm]
  | cons k metas ih =>
    rw [chainSees, length_select] at hm
    show select k.view.sees (chainSees k.view.sees.length (metas ++ [m])) =
      select (select k.view.sees (chainSees k.view.sees.length metas)) m.view.sees
    rw [ih hm, select_select hm]

theorem validChain_snoc (h : ValidChain n metas)
    (hm : InRange (chainSees n metas).length m.view.sees) : ValidChain n (metas ++ [m]) := by
  induction metas generalizing n with
  | nil =>
    rw [chainSees, length_range] at hm
    exact ⟨hm, trivial⟩
  | cons k metas ih =>
    rw [chainSees, length_select] at hm
    exact ⟨h.1, ih h.2 hm⟩

/-- Replaying the views reads the elements of the whole chain. -/
theorem replayViews_eq (h : ValidChain base.elems.length metas) : State.replayViews base metas =
      { sizes := chainSizes base.sizes metas
        elems := select base.elems (chainSees base.elems.length metas) } := by
  induction metas generalizing base with
  | nil =>
    show base = { sizes := base.sizes, elems := select base.elems (List.range base.elems.length) }
    rw [select_range]
  | cons m metas ih =>
    have hlength : (m.view.apply base).elems.length = m.view.sees.length := length_select _ _
    have hih := @ih (m.view.apply base) (by rw [hlength]; exact h.2)
    rw [hlength] at hih
    show State.replayViews (m.view.apply base) metas = _
    rw [hih]
    show ({ sizes := _, elems := select (select base.elems m.view.sees) _ } : Tensor V) = _
    rw [select_select (inRange_chainSees h.2)]
    rfl

theorem applyUpdate_cons (t base : Tensor V) (m : ViewMeta) (metas : List ViewMeta) :
    applyUpdate { newVal := t, viewMetas := m :: metas } base =
      m.view.writeBack base (applyUpdate { newVal := t, viewMetas := metas } (m.view.apply base)) :=
  rfl

variable (h : ValidChain base.elems.length metas) (hnodup : ∀ m ∈ metas, m.view.sees.Nodup)
  (ht : t.elems.length = (chainSees base.elems.length metas).length)
include h hnodup ht

/-- An update overwrites the elements that its views see. -/
theorem elems_applyUpdate :
    (applyUpdate { newVal := t, viewMetas := metas } base).elems =
      overwrite base.elems (chainSees base.elems.length metas) t.elems := by
  induction metas generalizing base with
  | nil =>
    rw [chainSees, length_range] at ht
    exact (overwrite_range ht).symm
  | cons m metas ih =>
    have hlength : (m.view.apply base).elems.length = m.view.sees.length := length_select _ _
    have hrest : ∀ k ∈ metas, k.view.sees.Nodup :=
      fun k hk => hnodup k (mem_cons_of_mem _ hk)
    have hih := @ih (m.view.apply base) (by rw [hlength]; exact h.2) hrest (by
      rw [hlength, ht]
      exact length_select _ _)
    rw [hlength] at hih
    rw [applyUpdate_cons]
    show overwrite base.elems m.view.sees (applyUpdate _ (m.view.apply base)).elems = _
    rw [hih]
    exact overwrite_select (hnodup m mem_cons_self) (nodup_chainSees h.2 hrest)
      (inRange_chainSees h.2)

theorem applyUpdate_eq (hsizes : t.sizes = chainSizes base.sizes metas) :
    applyUpdate { newVal := t, viewMetas := metas } base =
      { base with elems := overwrite base.elems (chainSees base.elems.length metas) t.elems } := by
  have helems := elems_applyUpdate h hnodup ht
  have hbase : (applyUpdate { newVal := t, viewMetas := metas } base).sizes = base.sizes := by
    cases metas with
    | nil => exact hsizes
    | cons m metas => rfl
  rw [← hbase, ← helems]

end Chains

end PyTorchCore.Functionalization
