import Mathlib.Algebra.Group.Action.Defs
import Mathlib.Algebra.Order.BigOperators.GroupWithZero.List
import PyTorchCore.Lib.LoopNest
import PyTorchCore.Lib.MultiIndex

/-!
# Nests that cover an interval

A loop nest with strides in `ℕ` covers the numbers below its volume, each once, just when its
axes of size two and more, by ascending stride, are dense.
-/

namespace PyTorchCore.Lib
namespace LoopNest

open List

theorem offsetAt_zero (l : List (Axis ℕ)) : offsetAt l 0 = 0 := by
  induction l with
  | nil => rfl
  | cons a l ih => simp [offsetAt, ih]

variable {l : List (Axis ℕ)}

/-- Without the first offset, a nest does not get below its least stride. -/
theorem le_offsetAt {t m : ℕ} (hle : ∀ a ∈ l, t ≤ a.stride) (hpos : 0 < m)
    (hlt : m < volume l) : t ≤ offsetAt l m := by
  induction l generalizing m with
  | nil =>
    rw [volume_nil] at hlt
    omega
  | cons a l ih =>
    rw [offsetAt, smul_eq_mul]
    by_cases hzero : m % a.size = 0
    · have hdvd : a.size * (m / a.size) = m := Nat.mul_div_cancel' (Nat.dvd_of_mod_eq_zero hzero)
      have hdiv : 0 < m / a.size := by
        refine Nat.pos_of_ne_zero fun h => ?_
        rw [h] at hdvd
        omega
      have hrest : m / a.size < volume l := by
        rw [volume_cons] at hlt
        exact Nat.div_lt_of_lt_mul hlt
      have htail := ih (fun b hb => hle b (mem_cons_of_mem _ hb)) hdiv hrest
      omega
    · have hhead := hle a mem_cons_self
      have hmul : a.stride ≤ m % a.size * a.stride :=
        Nat.le_mul_of_pos_left _ (Nat.pos_of_ne_zero hzero)
      omega

/-- The numbers below `z`, and a nest that goes on from them: its least stride is `z`. -/
theorem stride_eq_of_perm {z : ℕ} {a : Axis ℕ} (hz : 0 < z) (hsize : 2 ≤ a.size)
    (hpos : 0 < volume l) (hle : ∀ b ∈ l, a.stride ≤ b.stride)
    (h : (offsets (⟨z, 1⟩ :: a :: l)).Perm (List.range (volume (⟨z, 1⟩ :: a :: l)))) :
    a.stride = z := by
  have hvolume : z * 2 ≤ z * (a.size * volume l) :=
    Nat.mul_le_mul_left _ (Nat.le_mul_of_pos_right _ hpos |>.trans' hsize)
  rw [volume_cons, volume_cons] at h
  dsimp only at h
  rcases Nat.lt_trichotomy a.stride z with hlt | heq | hgt
  · -- the stride is the offset of two iterations
    have hinj : ∀ n < z * (a.size * volume l), ∀ m < z * (a.size * volume l),
        offsetAt (⟨z, 1⟩ :: a :: l) n = offsetAt (⟨z, 1⟩ :: a :: l) m → n = m := by
      have hnodup : (offsets (⟨z, 1⟩ :: a :: l)).Nodup := h.nodup_iff.mpr nodup_range
      intro n hn m hm
      exact inj_on_of_nodup_map hnodup (mem_range.mpr (by simpa using hn))
        (mem_range.mpr (by simpa using hm))
    have hfirst : offsetAt (⟨z, 1⟩ :: a :: l) a.stride = a.stride := by
      simp [offsetAt, Nat.mod_eq_of_lt hlt, Nat.div_eq_of_lt hlt, offsetAt_zero]
    have hsecond : offsetAt (⟨z, 1⟩ :: a :: l) z = a.stride := by
      simp [offsetAt, Nat.div_self hz, Nat.mod_eq_of_lt hsize, Nat.div_eq_of_lt hsize,
        offsetAt_zero]
    have heq := hinj a.stride (by omega) z (by omega) (hfirst.trans hsecond.symm)
    exact absurd heq hlt.ne
  · exact heq
  · -- no iteration has the offset `z`
    have hmem : z ∈ offsets (⟨z, 1⟩ :: a :: l) := h.mem_iff.mpr (mem_range.mpr (by omega))
    obtain ⟨n, hn, heq⟩ := mem_map.mp hmem
    rw [mem_range, volume_cons] at hn
    rw [offsetAt, smul_eq_mul, Nat.mul_one] at heq
    have hmod : n % z < z := Nat.mod_lt n hz
    have hdiv : 0 < n / z := by
      refine Nat.pos_of_ne_zero fun h => ?_
      rw [h, offsetAt_zero] at heq
      simp only at heq
      omega
    have hge : a.stride ≤ offsetAt (a :: l) (n / z) :=
      le_offsetAt (forall_mem_cons.mpr ⟨le_rfl, hle⟩) hdiv (Nat.div_lt_of_lt_mul hn)
    simp only at heq
    omega

theorem dense_of_perm {z : ℕ} (hz : 0 < z) (hsize : ∀ a ∈ l, 2 ≤ a.size)
    (hsorted : l.Pairwise fun a b => a.stride ≤ b.stride)
    (h : (offsets (⟨z, 1⟩ :: l)).Perm (List.range (volume (⟨z, 1⟩ :: l)))) : Dense z l := by
  induction l generalizing z with
  | nil => trivial
  | cons a l ih =>
    obtain ⟨hhead, htail⟩ := pairwise_cons.mp hsorted
    have hsize' : ∀ b ∈ l, 2 ≤ b.size := fun b hb => hsize b (mem_cons_of_mem _ hb)
    have hpos : 0 < volume l := by
      refine List.prod_pos fun s hs => ?_
      obtain ⟨b, hb, rfl⟩ := mem_map.mp hs
      exact Nat.lt_of_lt_of_le Nat.two_pos (hsize' b hb)
    have ha : 2 ≤ a.size := hsize a mem_cons_self
    have hstride : a.stride = z := stride_eq_of_perm hz ha hpos hhead h
    have hmerge : SameWalk (⟨z, 1⟩ :: a :: l) (⟨z * a.size, 1⟩ :: l) :=
      sameWalk_merge (by simp [hstride]) l
    rw [hmerge.offsets_eq, hmerge.1] at h
    refine ⟨hstride, ?_⟩
    rw [smul_eq_mul, Nat.mul_comm]
    exact ih (Nat.mul_pos hz (by omega)) hsize' htail h

/-- **Dense nests.** -/
theorem offsets_perm_range_iff (hsize : ∀ a ∈ l, 2 ≤ a.size)
    (hsorted : l.Pairwise fun a b => a.stride ≤ b.stride) :
    (offsets l).Perm (List.range (volume l)) ↔ Dense 1 l := by
  constructor
  · intro h
    refine dense_of_perm Nat.one_pos hsize hsorted ?_
    have hone : SameWalk (⟨1, 1⟩ :: l) l := sameWalk_drop_one rfl l
    rwa [hone.offsets_eq, hone.1]
  · intro h
    rw [offsets_dense h]
    simp

theorem bijOn_iff_perm {α : Type*} {f : α → ℕ} {xs : List α} {n : ℕ} (hnodup : xs.Nodup) :
    Set.BijOn f {x | x ∈ xs} (Set.Iio n) ↔ (xs.map f).Perm (List.range n) := by
  constructor
  · intro h
    have hmap : (xs.map f).Nodup := Nodup.map_on (fun x hx y hy => h.injOn hx hy) hnodup
    refine (perm_ext_iff_of_nodup hmap nodup_range).mpr fun k => ?_
    rw [mem_map, mem_range]
    constructor
    · rintro ⟨x, hx, rfl⟩
      exact h.mapsTo hx
    · intro hk
      exact h.surjOn hk
  · intro h
    have hmap : (xs.map f).Nodup := h.nodup_iff.mpr nodup_range
    refine ⟨fun x hx => ?_, fun x hx y hy => inj_on_of_nodup_map hmap hx hy, fun k hk => ?_⟩
    · exact mem_range.mp (h.mem_iff.mp (mem_map_of_mem hx))
    · exact mem_map.mp (h.mem_iff.mpr (mem_range.mpr hk))

theorem rowMajor_eq_indices (sizes : List ℕ) : rowMajor sizes = indices sizes := by
  induction sizes with
  | nil => rfl
  | cons s sizes ih => rw [rowMajor, indices, ih]

/-- The index tuples are in bijection with an interval if the offsets of the nest are. -/
theorem bijOn_iff (l : List (Axis ℕ)) :
    Set.BijOn (fun idx => dot idx (l.map Axis.stride))
        {idx | InBounds idx (l.map Axis.size)} (Set.Iio (volume l)) ↔
      (offsets l).Perm (List.range (volume l)) := by
  have hperm : (offsets l).Perm ((indices (l.map Axis.size)).map fun idx =>
      dot idx (l.map Axis.stride)) := by
    rw [← rowMajor_eq_indices, ← offsets_reverse]
    exact offsets_perm (reverse_perm l).symm
  simp only [← mem_indices]
  rw [bijOn_iff_perm (nodup_indices _)]
  exact ⟨hperm.trans, hperm.symm.trans⟩

end LoopNest
end PyTorchCore.Lib
