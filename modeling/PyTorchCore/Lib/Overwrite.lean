import Mathlib.Data.List.GetD
import Mathlib.Data.List.Nodup
import Mathlib.Data.List.Range

/-!
# Parts of a list, read and overwritten

A list of positions shows a part of a list: `select` reads the elements at the positions, and
`overwrite` replaces them.  Positions may be taken of a part again.
-/

namespace PyTorchCore.Lib

open List

universe u

variable {α : Type u}

/-- The elements at the positions. -/
def select [Inhabited α] (xs : List α) (ps : List Nat) : List α :=
  ps.map (fun p => xs.getD p default)

/-- The list with the elements at the positions replaced. -/
def overwrite (xs : List α) (ps : List Nat) (vs : List α) : List α :=
  xs.mapIdx (fun p x => if p ∈ ps then vs.getD (ps.idxOf p) x else x)

/-- All positions are in a list of this length. -/
def InRange (n : Nat) (ps : List Nat) : Prop :=
  ∀ p ∈ ps, p < n

instance (n : Nat) (ps : List Nat) : Decidable (InRange n ps) :=
  inferInstanceAs (Decidable (∀ p ∈ ps, p < n))

section Select

variable [Inhabited α] {xs : List α} {ps qs : List Nat}

@[simp] theorem length_select (xs : List α) (ps : List Nat) : (select xs ps).length = ps.length :=
  length_map ..

theorem getD_select {i : Nat} (hi : i < ps.length) (x : α) :
    (select xs ps).getD i x = xs.getD (ps.getD i default) default := by
  have hlength : i < (select xs ps).length := by
    rwa [length_select]
  rw [getD_eq_getElem _ _ hlength, getD_eq_getElem _ _ hi]
  exact getElem_map ..

theorem select_select (hqs : InRange ps.length qs) :
    select (select xs ps) qs = select xs (select ps qs) := by
  calc select (select xs ps) qs = qs.map (fun q => xs.getD (ps.getD q default) default) :=
        map_congr_left (fun q hq => getD_select (hqs q hq) default)
    _ = select xs (select ps qs) := by
        rw [select, select, map_map]
        rfl

theorem select_range (xs : List α) : select xs (List.range xs.length) = xs := by
  refine ext_getElem ?_ (fun i hi hx => ?_)
  · rw [length_select, length_range]
  · have hrange : i < (List.range xs.length).length := by
      rwa [length_range]
    rw [← getD_eq_getElem _ default hi, getD_select hrange,
      getD_eq_getElem (List.range xs.length) default hrange, getElem_range,
      getD_eq_getElem _ _ hx]

theorem inRange_range (n : Nat) : InRange n (List.range n) :=
  fun _ hp => mem_range.mp hp

/-- An index in range leads into range. -/
theorem InRange.getD_lt {n : Nat} (h : InRange n ps) {i : Nat} (hi : i < ps.length) :
    ps.getD i default < n := by
  rw [getD_eq_getElem _ _ hi]
  exact h _ (getElem_mem hi)

/-- Selecting positions of positions. -/
theorem InRange.select {n : Nat} (hps : InRange n ps) (hqs : InRange ps.length qs) :
    InRange n (select ps qs) := by
  intro p hp
  obtain ⟨q, hq, rfl⟩ := mem_map.mp hp
  exact hps.getD_lt (hqs q hq)

/-- Different positions of a list without repetitions. -/
theorem getD_inj (hps : ps.Nodup) {i j : Nat} (hi : i < ps.length) (hj : j < ps.length)
    (h : ps.getD i default = ps.getD j default) : i = j := by
  rw [getD_eq_getElem _ _ hi, getD_eq_getElem _ _ hj] at h
  exact (hps.getElem_inj_iff).mp h

theorem nodup_select (hps : ps.Nodup) (hqs : qs.Nodup) (hrange : InRange ps.length qs) :
    (select ps qs).Nodup :=
  hqs.map_on (fun i hi j hj h => getD_inj hps (hrange i hi) (hrange j hj) h)

theorem idxOf_getD (hps : ps.Nodup) {i : Nat} (hi : i < ps.length) :
    ps.idxOf (ps.getD i default) = i := by
  rw [getD_eq_getElem _ _ hi]
  exact hps.idxOf_getElem i hi

/-- The element at the index of an element. -/
theorem getD_idxOf {p : Nat} (hp : p ∈ ps) : ps.getD (ps.idxOf p) default = p := by
  have hi := idxOf_lt_length_of_mem hp
  rw [getD_eq_getElem _ _ hi]
  exact getElem_idxOf hi

theorem mem_select_iff (hps : ps.Nodup) (hrange : InRange ps.length qs) {p : Nat} :
    p ∈ select ps qs ↔ p ∈ ps ∧ ps.idxOf p ∈ qs := by
  constructor
  · intro hp
    obtain ⟨q, hq, rfl⟩ := mem_map.mp hp
    rw [idxOf_getD hps (hrange q hq)]
    refine ⟨?_, hq⟩
    rw [getD_eq_getElem _ _ (hrange q hq)]
    exact getElem_mem _
  · rintro ⟨hp, hq⟩
    exact mem_map.mpr ⟨ps.idxOf p, hq, getD_idxOf hp⟩

theorem idxOf_select (hps : ps.Nodup) (hqs : qs.Nodup) (hrange : InRange ps.length qs) {p : Nat}
    (hp : p ∈ ps) (hq : ps.idxOf p ∈ qs) : (select ps qs).idxOf p = qs.idxOf (ps.idxOf p) := by
  have hj := idxOf_lt_length_of_mem hq
  have hvalue : (select ps qs).getD (qs.idxOf (ps.idxOf p)) default = p := by
    rw [getD_select hj, getD_idxOf hq, getD_idxOf hp]
  have hindex := idxOf_getD (nodup_select hps hqs hrange) (i := qs.idxOf (ps.idxOf p))
    (by rwa [length_select])
  rw [hvalue] at hindex
  exact hindex

end Select

section Overwrite

@[simp] theorem length_overwrite (xs : List α) (ps : List Nat) (vs : List α) :
    (overwrite xs ps vs).length = xs.length :=
  length_mapIdx

variable [Inhabited α] {xs vs : List α} {ps qs : List Nat}

theorem getD_overwrite {p : Nat} (hp : p < xs.length) (x : α) : (overwrite xs ps vs).getD p x =
      if p ∈ ps then vs.getD (ps.idxOf p) (xs.getD p default) else xs.getD p default := by
  have hlength : p < (overwrite xs ps vs).length := by
    rwa [length_overwrite]
  rw [getD_eq_getElem _ _ hlength, getD_eq_getElem _ _ hp]
  exact getElem_mapIdx ..

theorem select_overwrite (hps : ps.Nodup) (hrange : InRange xs.length ps)
    (hlength : vs.length = ps.length) : select (overwrite xs ps vs) ps = vs := by
  refine ext_getElem ?_ (fun i hi hv => ?_)
  · rw [length_select, hlength]
  · have hi' : i < ps.length := by
      rwa [← hlength]
    have hmem : ps.getD i default ∈ ps := by
      rw [getD_eq_getElem _ _ hi']
      exact getElem_mem _
    rw [← getD_eq_getElem _ default hi, getD_select hi', getD_overwrite (hrange _ hmem),
      if_pos hmem, idxOf_getD hps hi', getD_eq_getElem _ _ hv]

theorem overwrite_range (hlength : vs.length = xs.length) :
    overwrite xs (List.range xs.length) vs = vs := by
  have hselect : select (overwrite xs (List.range xs.length) vs) (List.range xs.length) = vs :=
    select_overwrite nodup_range (inRange_range xs.length) (by rwa [length_range])
  have hall := select_range (overwrite xs (List.range xs.length) vs)
  rw [length_overwrite] at hall
  exact hall.symm.trans hselect

/-- A part of a part is written, and the part is written back. -/
theorem overwrite_select (hps : ps.Nodup) (hqs : qs.Nodup) (hqsRange : InRange ps.length qs) :
    overwrite xs ps (overwrite (select xs ps) qs vs) = overwrite xs (select ps qs) vs := by
  refine ext_getElem ?_ (fun p hp hp' => ?_)
  · rw [length_overwrite, length_overwrite]
  · have hx : p < xs.length := by
      rwa [length_overwrite] at hp
    rw [← getD_eq_getElem _ default hp, ← getD_eq_getElem _ default hp',
      getD_overwrite hx, getD_overwrite hx]
    by_cases hmem : p ∈ ps
    · have hi := idxOf_lt_length_of_mem hmem
      rw [if_pos hmem, getD_overwrite (by rwa [length_select])]
      rw [getD_select hi, getD_idxOf hmem]
      by_cases hq : ps.idxOf p ∈ qs
      · rw [if_pos hq, if_pos ((mem_select_iff hps hqsRange).mpr ⟨hmem, hq⟩),
          idxOf_select hps hqs hqsRange hmem hq]
      · rw [if_neg hq, if_neg (fun hin => hq ((mem_select_iff hps hqsRange).mp hin).2)]
    · rw [if_neg hmem, if_neg (fun hin => hmem ((mem_select_iff hps hqsRange).mp hin).1)]

end Overwrite

end PyTorchCore.Lib
