import PyTorchCore.ViewInverses.Rearranged

/-!
# The inverse of `permute`

`permute` lists the dimensions of its input in a new order, each once.  Its inverse lists, for
each dimension of the input, the place where it went.
-/

namespace PyTorchCore.ViewInverses

open Lib
open Option List

variable {V : Type} {view : View} {base v : Tensor V} {n : Nat} {ws : List Nat}

/-- Every dimension stands in the list once. -/
structure IsPermutation (n : Nat) (ws : List Nat) : Prop where
  length : ws.length = n
  nodup : ws.Nodup
  lt : ∀ w ∈ ws, w < n

section Lists

variable {k : Nat}

theorem getD_map_range (f : Nat → Nat) (hk : k < n) :
    ((List.range n).map f).getD k 0 = f k := by
  rw [getD_eq_getElem _ _ (by simpa using hk), getElem_map, getElem_range]

theorem getD_map {f : Nat → Nat} (hk : k < ws.length) :
    (ws.map f).getD k 0 = f (ws.getD k 0) := by
  rw [getD_eq_getElem _ _ (by simpa using hk), getElem_map, getD_eq_getElem _ _ hk]

variable (h : IsPermutation n ws)

include h

/-- A permutation has every number. -/
theorem IsPermutation.mem {j : Nat} (hj : j < n) : j ∈ ws := by
  have hsubset : ws ⊆ List.range n := fun w hw => mem_range.mpr (h.lt w hw)
  have hperm := (subperm_of_subset h.nodup hsubset).perm_of_length_le
    (by rw [length_range, h.length])
  exact hperm.mem_iff.mpr (mem_range.mpr hj)

theorem IsPermutation.idxOf_lt {j : Nat} (hj : j < n) : ws.idxOf j < n :=
  h.length ▸ idxOf_lt_length_of_mem (h.mem hj)

/-- The number at the place of `j` is `j`. -/
theorem IsPermutation.getD_idxOf {j : Nat} (hj : j < n) : ws.getD (ws.idxOf j) 0 = j := by
  have hlt := idxOf_lt_length_of_mem (h.mem hj)
  rw [getD_eq_getElem _ _ hlt, getElem_idxOf]

theorem IsPermutation.getD_lt (hk : k < n) : ws.getD k 0 < n := by
  rw [getD_eq_getElem _ _ (h.length ▸ hk)]
  exact h.lt _ (getElem_mem _)

/-- The place of the number at `k` is `k`. -/
theorem IsPermutation.idxOf_getD (hk : k < n) : ws.idxOf (ws.getD k 0) = k := by
  rw [getD_eq_getElem _ _ (h.length ▸ hk)]
  exact h.nodup.idxOf_getElem k (h.length ▸ hk)

/-- The places of the numbers are a permutation. -/
theorem IsPermutation.inverse : IsPermutation n ((List.range n).map fun j => ws.idxOf j) where
  length := by simp
  nodup := by
    refine Nodup.map_on ?_ nodup_range
    intro j hj k hk heq
    rw [← h.getD_idxOf (mem_range.mp hj), heq, h.getD_idxOf (mem_range.mp hk)]
  lt := by
    intro w hw
    obtain ⟨j, hj, rfl⟩ := mem_map.mp hw
    exact h.idxOf_lt (mem_range.mp hj)

theorem IsPermutation.idxOf_inverse (hk : k < n) :
    ((List.range n).map fun j => ws.idxOf j).idxOf k = ws.getD k 0 := by
  have hgetD := getD_map_range (fun j => ws.idxOf j) (h.getD_lt hk)
  have hidx := h.inverse.idxOf_getD (h.getD_lt hk)
  rwa [hgetD, h.idxOf_getD hk] at hidx

end Lists

section Inversion

/-- The list after the places of `ws` were written into it. -/
def placed (init : List Nat) (entries : List (Nat × Nat)) : List Nat :=
  entries.foldl (fun inverse d => inverse.set d.1 d.2) init

theorem length_placed (init : List Nat) (entries : List (Nat × Nat)) :
    (placed init entries).length = init.length := by
  induction entries generalizing init with
  | nil => rfl
  | cons d entries ih => exact (ih _).trans (length_set ..)

theorem getD_placed (hnodup : ws.Nodup) (k : Nat) (init : List Nat)
    (hlt : ∀ w ∈ ws, w < init.length) (j : Nat) :
    (placed init (ws.zipIdx k)).getD j 0 = if j ∈ ws then ws.idxOf j + k else init.getD j 0 := by
  induction ws generalizing k init with
  | nil => rfl
  | cons w ws ih =>
    obtain ⟨hnotmem, hnodup⟩ := nodup_cons.mp hnodup
    have hw := hlt w mem_cons_self
    have hstep := ih hnodup (k + 1) (init.set w k) (by
      intro w' hw'
      rw [length_set]
      exact hlt w' (mem_cons_of_mem _ hw'))
    rw [zipIdx_cons]
    refine hstep.trans ?_
    by_cases hj : j = w
    · subst hj
      rw [if_neg hnotmem, if_pos mem_cons_self, idxOf_cons_self, Nat.zero_add,
        getD_eq_getElem?_getD, getElem?_set_self hw]
      rfl
    · rw [getD_eq_getElem?_getD, getElem?_set_ne (Ne.symm hj),
        idxOf_cons_ne _ (Ne.symm hj), ← getD_eq_getElem?_getD]
      simp only [mem_cons, hj, false_or]
      split <;> omega

theorem foldlM_placed {dims : List Int} (hws : dims.mapM (maybeWrapDim · n) = some ws) (k : Nat)
    (init : List Nat) :
    (dims.zipIdx k).foldlM
        (fun inverse d => (maybeWrapDim d.1 n).map fun dim => inverse.set dim d.2) init
      = some (placed init (ws.zipIdx k)) := by
  induction dims generalizing ws k init with
  | nil =>
    cases hws
    rfl
  | cons dim dims ih =>
    rw [mapM_cons] at hws
    obtain ⟨w, hw, hws⟩ := bind_eq_some_iff.mp hws
    obtain ⟨rest, hrest, hws⟩ := bind_eq_some_iff.mp hws
    cases hws
    rw [zipIdx_cons, foldlM_cons, hw]
    exact ih hrest (k + 1) (init.set w k)

theorem invertPermutation_eq {dims : List Int}
    (hws : dims.mapM (maybeWrapDim · dims.length) = some ws)
    (h : IsPermutation dims.length ws) :
    invertPermutation dims = some ((List.range dims.length).map fun j => ws.idxOf j) := by
  rw [invertPermutation, foldlM_placed hws]
  congr 1
  refine ext_getD ?_ fun j hj => ?_
  · rw [length_placed, length_replicate, length_map, length_range]
  · rw [length_placed, length_replicate] at hj
    rw [getD_placed h.nodup 0 _ (by simpa using h.lt), if_pos (h.mem hj), getD_map_range _ hj]
    rfl

end Inversion

section Law

theorem mapM_natCast (hlt : ∀ w ∈ ws, w < n) :
    (ws.map Int.ofNat).mapM (maybeWrapDim · n) = some ws := by
  induction ws with
  | nil => rfl
  | cons w ws ih =>
    have hw : maybeWrapDim (Int.ofNat w) n = some w :=
      maybeWrapDim_natCast (hlt w mem_cons_self)
    rw [map_cons, mapM_cons, hw, ih (fun w' hw' => hlt w' (mem_cons_of_mem _ hw'))]
    rfl

theorem length_of_mapM {α β : Type} {f : α → Option β} {as : List α} {bs : List β}
    (h : as.mapM f = some bs) : bs.length = as.length := by
  induction as generalizing bs with
  | nil =>
    cases h
    rfl
  | cons a as ih =>
    rw [mapM_cons] at h
    obtain ⟨_, -, h⟩ := bind_eq_some_iff.mp h
    obtain ⟨rest, hrest, h⟩ := bind_eq_some_iff.mp h
    cases h
    exact congrArg (· + 1) (ih hrest)

/-- The output of `permute` for a list of dimensions that are counted from the start. -/
theorem length_permuted (g : Geometry) (ws : List Nat) :
    (ws.map fun dim => g.strides.getD dim 0).length =
      (ws.map fun dim => g.sizes.getD dim 0).length := by
  simp

def permuteView (g : Geometry) (ws : List Nat) : View where
  sizes := ws.map fun dim => g.sizes.getD dim 0
  strides := ws.map fun dim => g.strides.getD dim 0
  strides_length := length_permuted g ws
  sees := fun index => (List.range g.dim).map fun dim => index.getD (ws.idxOf dim) 0

variable {dims : List Int}

theorem permute_eq_some {g : Geometry} : permute g dims = some view ↔
    ∃ ws, dims.length = g.dim ∧ dims.mapM (maybeWrapDim · g.dim) = some ws ∧ ws.Nodup
      ∧ permuteView g ws = view := by
  constructor
  · intro h
    obtain ⟨hlength, h⟩ := guard_bind_eq_some.mp h
    obtain ⟨ws, hws, h⟩ := bind_eq_some_iff.mp h
    obtain ⟨hnodup, h⟩ := guard_bind_eq_some.mp h
    exact ⟨ws, hlength, hws, hnodup, Option.some.inj h⟩
  · rintro ⟨ws, hlength, hws, hnodup, rfl⟩
    refine guard_bind_eq_some.mpr ⟨hlength, bind_eq_some_iff.mpr ⟨ws, hws, ?_⟩⟩
    exact guard_bind_eq_some.mpr ⟨hnodup, rfl⟩

theorem isPermutation_of_mapM (hlength : dims.length = n)
    (hws : dims.mapM (maybeWrapDim · n) = some ws) (hnodup : ws.Nodup) : IsPermutation n ws where
  length := (length_of_mapM hws).trans hlength
  nodup := hnodup
  lt := by
    intro w hw
    obtain ⟨k, hk, rfl⟩ := getElem_of_mem hw
    obtain ⟨dim, hdim, hwrap⟩ := getElem?_of_mapM hws (getElem?_eq_getElem hk)
    refine maybeWrapDim_lt hwrap ?_
    have hpos := length_of_mapM hws
    omega

variable [AddCommMonoid V]

theorem lawful_permute (h : (ViewOp.permute dims).apply base.toGeometry = some view)
    (hsizes : v.sizes = view.sizes) :
    Lawful view base v ((ViewOp.permute dims).inverse base v) := by
  obtain ⟨ws, hlength, hws, hnodup, rfl⟩ := permute_eq_some.mp h
  have hperm := isPermutation_of_mapM hlength hws hnodup
  have hdim : v.dim = base.dim := by
    simp [Geometry.dim, hsizes, permuteView, hperm.length]
  obtain ⟨inv, hinv⟩ : ∃ inv, inv = (List.range base.dim).map fun j => ws.idxOf j := ⟨_, rfl⟩
  have hinverse : IsPermutation base.dim inv := hinv ▸ hperm.inverse
  have hresult : (ViewOp.permute dims).inverse base v
      = v.viewAs (permute v.toGeometry (inv.map Int.ofNat)) := by
    simp only [ViewOp.inverse, permuteInverse]
    rw [invertPermutation_eq (hlength ▸ hws) (hlength ▸ hperm), hlength, hinv]
    rfl
  have hback : permute v.toGeometry (inv.map Int.ofNat) = some (permuteView v.toGeometry inv) := by
    refine permute_eq_some.mpr ⟨inv, ?_, ?_, hinverse.nodup, rfl⟩
    · rw [length_map, hinverse.length, hdim]
    · rw [hdim]
      exact mapM_natCast hinverse.lt
  have hgetD : ∀ j < base.dim, inv.getD j 0 = ws.idxOf j := fun j hj => by
    rw [hinv, getD_map_range _ hj]
  have hidx : ∀ k < base.dim, inv.idxOf k = ws.getD k 0 := fun k hk => by
    rw [hinv, hperm.idxOf_inverse hk]
  rw [hresult]
  refine lawful_viewAs hback ?_ ?_ ?_
  · show inv.map (fun dim => v.sizes.getD dim 0) = base.sizes
    refine ext_getD (by rw [length_map, hinverse.length]; rfl) fun j hj => ?_
    rw [length_map] at hj
    have hj' : j < base.dim := hinverse.length ▸ hj
    rw [getD_map hj, hgetD j hj', hsizes]
    show (ws.map _).getD _ 0 = _
    rw [getD_map (hperm.length ▸ hperm.idxOf_lt hj'), hperm.getD_idxOf hj']
  · intro i hi
    have hilength : i.length = base.dim := by
      rw [hi.length_eq]
      simp only [permuteView, length_map, hperm.length]
    show (List.range v.dim).map (fun dim =>
      ((List.range base.dim).map _).getD (inv.idxOf dim) 0) = i
    rw [hdim]
    refine ext_getD (by rw [length_map, length_range, hilength]) fun k hk => ?_
    rw [length_map, length_range] at hk
    rw [getD_map_range _ hk, hidx k hk, getD_map_range _ (hperm.getD_lt hk), hperm.idxOf_getD hk]
  · intro b hb
    obtain ⟨hblength, hblt⟩ := inBounds_iff.mp hb
    have hundo : ∀ k < base.dim,
        ((permuteView v.toGeometry inv).sees b).getD k 0 = b.getD (ws.getD k 0) 0 := by
      intro k hk
      show ((List.range v.dim).map fun dim => b.getD (inv.idxOf dim) 0).getD k 0 = _
      rw [hdim, getD_map_range _ hk, hidx k hk]
    constructor
    · rw [inBounds_iff]
      simp only [permuteView, length_map, length_range, hdim, hperm.length, true_and]
      intro k hk
      have hk' : k < ws.length := hperm.length ▸ hk
      rw [getD_map hk', getD_map_range _ hk, hidx k hk]
      exact hblt _ (hperm.getD_lt hk)
    · show (List.range base.dim).map (fun dim => _) = b
      refine ext_getD (by rw [length_map, length_range, hblength]; rfl) fun j hj => ?_
      rw [length_map, length_range] at hj
      rw [getD_map_range _ hj, hundo _ (hperm.idxOf_lt hj), hperm.getD_idxOf hj]

end Law

end PyTorchCore.ViewInverses
