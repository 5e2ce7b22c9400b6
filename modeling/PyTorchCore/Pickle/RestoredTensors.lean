import PyTorchCore.Pickle.TensorRoundTrip

/-!
# Which tensors a pickle restores

The elements of a tensor are read through an arbitrary function of the scalar type, the bits for
a pending conjugation and a pending negation, and the bytes of the element.
-/

namespace PyTorchCore.Pickle
namespace Tensors

open Option List

section Restored

variable {V : Type} (value : ScalarType → Bool → Bool → Bytes → V)

/-- An index within the sizes. -/
def InBox (ix sizes : List Nat) : Prop :=
  List.Forall₂ (· < ·) ix sizes

/-- The place of an element in the storage, in elements. -/
def position (t : Tensor) (ix : List Nat) : Nat :=
  t.storageOffset + (List.zipWith (· * ·) ix t.strides).sum

def elementBytes (s : Storage) (t : Tensor) (ix : List Nat) : Bytes :=
  (s.bytes.drop (t.dtype.elementSize * position t ix)).take t.dtype.elementSize

def element (s : Storage) (t : Tensor) (ix : List Nat) : V :=
  value t.dtype t.isConj t.isNeg (elementBytes s t ix)

/-- A tensor stays within its storage, and it requires a gradient only for a differentiable
type. -/
structure Valid (mem : Memory) (t : Tensor) : Prop where
  inBounds : ∀ ix, InBox ix t.sizes →
    t.dtype.elementSize * (position t ix + 1) ≤ (mem.storageOf t).bytes.length
  requiresGrad : t.requiresGrad = true → t.dtype.isDifferentiableType = true

/-- A tensor over its storage is the same as before. -/
structure Restored (s : Storage) (t : Tensor) (s' : Storage) (t' : Tensor) : Prop where
  dtype : t'.dtype = t.dtype
  sizes : t'.sizes = t.sizes
  strides : t'.strides = t.strides
  storageOffset : t'.storageOffset = t.storageOffset
  requiresGrad : t'.requiresGrad = t.requiresGrad
  elements : ∀ ix, InBox ix t.sizes → element value s' t' ix = element value s t ix

/-- The tensors are unpickled as they were, and they share storages as before. -/
def RoundTrips (mem : Memory) (ptrs : List Nat) : Prop :=
  ∃ stack storages ts, reload mem ptrs = some (stack, storages) ∧
    stack.reverse = ts.map Value.tensor ∧ ts.length = ptrs.length ∧
    (∀ a ∈ ptrs.zip ts, ∃ s', storages[a.2.storage]? = some s' ∧
      Restored value (mem.storageOf (mem.tensor a.1)) (mem.tensor a.1) s' a.2) ∧
    ∀ a ∈ ptrs.zip ts, ∀ b ∈ ptrs.zip ts,
      a.2.storage = b.2.storage ↔ (mem.tensor a.1).storage = (mem.tensor b.1).storage

def firstOn (mem : Memory) (ptrs : List Nat) (addr : Nat) : Option Tensor :=
  (ptrs.map mem.tensor).find? fun t => t.storage = addr

/-- The storage can be written with the scalar type of the tensor. -/
def Writeable (mem : Memory) (t : Tensor) : Prop :=
  (mem.storageOf t).device.type = .CPU ∨
    t.dtype.elementSize ∣ (mem.storageOf t).bytes.length

instance (mem : Memory) (t : Tensor) : Decidable (Writeable mem t) :=
  inferInstanceAs (Decidable (_ ∨ _))

/-- A tensor whose pickle says all about it: its scalar type is that of the first tensor on its
storage, its device is supported, and its pending bits change none of its elements. -/
structure Plain (mem : Memory) (ptrs : List Nat) (t : Tensor) : Prop where
  dtype : ∀ t₀, firstOn mem ptrs t.storage = some t₀ → t.dtype = t₀.dtype
  device : supported (mem.storageOf t).device.type
  writeable : Writeable mem t
  resolved : ∀ ix, InBox ix t.sizes →
    value t.dtype false false (elementBytes (mem.storageOf t) t ix) =
      value t.dtype t.isConj t.isNeg (elementBytes (mem.storageOf t) t ix)

end Restored

section RestoredTensors

variable {mem : Memory} {ptrs : List Nat} {t t₀ t' : Tensor}

theorem elementSize_pos (type : ScalarType) : 0 < type.elementSize := by
  cases type <;> decide

theorem recorded_empty (mem : Memory) : Recorded mem {} where
  storages := fun _ => ⟨fun _ _ hd => absurd hd not_mem_nil, fun _ => rfl⟩
  tensors := fun _ hptr => absurd rfl hptr

theorem firstOn_of_mem (h : t₀ ∈ (Pickler.pushAll mem ptrs {}).tensorData) :
    firstOn mem ptrs t₀.storage = some t₀ := by
  rw [pushAll_tensorData (recorded_empty mem)] at h
  rcases mem_foldl_addFirst h with hmem | ⟨hfind, -⟩
  · exact nomatch hmem
  · exact hfind

theorem nodup_tensorData (mem : Memory) (ptrs : List Nat) :
    ((Pickler.pushAll mem ptrs {}).tensorData.map Tensor.storage).Nodup := by
  rw [pushAll_tensorData (recorded_empty mem)]
  exact nodup_foldl_addFirst nodup_nil

theorem getWriteableTensorData_eq (mem : Memory) (t : Tensor) :
    Pickler.getWriteableTensorData mem t =
      if Writeable mem t then some (mem.storageOf t).bytes else none := by
  by_cases hcpu : (mem.storageOf t).device.type = .CPU
  · have hwriteable : Writeable mem t := .inl hcpu
    simp only [Pickler.getWriteableTensorData, if_pos hcpu, if_pos hwriteable]
  · have hle := Nat.div_mul_le_self (mem.storageOf t).bytes.length t.dtype.elementSize
    have hiff : Writeable mem t ↔ (mem.storageOf t).bytes.length / t.dtype.elementSize *
        t.dtype.elementSize = (mem.storageOf t).bytes.length :=
      (or_iff_right hcpu).trans (Nat.dvd_iff_div_mul_eq _ _)
    simp only [Pickler.getWriteableTensorData, if_neg hcpu, length_take, Nat.min_eq_left hle, hiff]
    split
    · next hwhole => rw [hwhole, take_length]
    · rfl

theorem mapM_getWriteableTensorData (mem : Memory) (ds : List Tensor) :
    ds.mapM (Pickler.getWriteableTensorData mem) =
      if ∀ t ∈ ds, Writeable mem t then some (recordsOf mem ds) else none := by
  induction ds with
  | nil => simp [recordsOf]
  | cons t ds ih =>
    rw [mapM_cons, ih, getWriteableTensorData_eq]
    by_cases ht : Writeable mem t
    · by_cases hds : ∀ t ∈ ds, Writeable mem t
      · rw [if_pos ht, if_pos hds, if_pos (forall_mem_cons.mpr ⟨ht, hds⟩)]
        rfl
      · rw [if_pos ht, if_neg hds, if_neg fun hall => hds (forall_mem_cons.mp hall).2]
        rfl
    · rw [if_neg ht, if_neg fun hall => ht (forall_mem_cons.mp hall).1]
      rfl

theorem follows_empty (mem : Memory) (ds : List Tensor) : Follows mem ds {} {} where
  runs := rfl
  memoId := rfl
  entries := fun _ _ hid => nomatch hid
  tensorData := nil_prefix
  storages := rfl

/-- Reloading gives back every tensor with its storage and its device. -/
theorem reload_eq (mem : Memory) (ptrs : List Nat)
    (h : ((∀ t ∈ (Pickler.pushAll mem ptrs {}).tensorData, Writeable mem t) ∧
        ∀ ptr ∈ ptrs, Loads mem (Pickler.pushAll mem ptrs {}).tensorData (mem.tensor ptr)) ∨
      reload mem ptrs ≠ none) :
    (∀ t ∈ (Pickler.pushAll mem ptrs {}).tensorData, Writeable mem t) ∧
      ∃ ts, reload mem ptrs = some ((ts.map Value.tensor).reverse,
          (Pickler.pushAll mem ptrs {}).tensorData.map (loaded mem)) ∧
        Forall₂ (fun ptr t' =>
          Rebuilt mem (Pickler.pushAll mem ptrs {}).tensorData (mem.tensor ptr) t') ptrs ts := by
  have hwriteable : ∀ t ∈ (Pickler.pushAll mem ptrs {}).tensorData, Writeable mem t := by
    rcases h with h | h
    · exact h.1
    · by_contra hnot
      rw [reload, mapM_getWriteableTensorData, if_neg hnot] at h
      exact h rfl
  have hreload : reload mem ptrs =
      (Unpickler.execAll (recordsOf mem (Pickler.pushAll mem ptrs {}).tensorData)
        (Pickler.pushAll mem ptrs {}).written {}).map fun u => (u.stack, u.storages) := by
    rw [reload, mapM_getWriteableTensorData, if_pos hwriteable]
    rfl
  obtain ⟨ts, u, hpushes, hts⟩ := pushes_pushAll (follows_empty mem _) (prefix_refl _)
    (h.imp And.right fun hne hnone => hne (by rw [hreload, hnone]; rfl))
  refine ⟨hwriteable, ts, ?_, hts⟩
  rw [hreload, hpushes.follows.runs, map_some, hpushes.stack, hpushes.follows.storages]
  simp

theorem elementBytes_loaded (hstorage : t₀.storage = t.storage) (hdtype : t₀.dtype = t.dtype)
    {i : Nat} {ix : List Nat} (hin : t.dtype.elementSize * (position t ix + 1) ≤
      (mem.storageOf t).bytes.length) :
    elementBytes (loaded mem t₀)
        ⟨i, t₀.dtype, t.sizes, t.strides, t.storageOffset, t.requiresGrad, false, false⟩ ix =
      elementBytes (mem.storageOf t) t ix := by
  have hsame : mem.storageOf t₀ = mem.storageOf t := congrArg mem.storage hstorage
  have hwhole : position t ix + 1 ≤ (mem.storageOf t).bytes.length / t.dtype.elementSize := by
    rw [Nat.le_div_iff_mul_le (elementSize_pos _), Nat.mul_comm]
    exact hin
  have hle : t.dtype.elementSize * position t ix + t.dtype.elementSize ≤
      (mem.storageOf t).bytes.length / t.dtype.elementSize * t.dtype.elementSize := by
    rw [← Nat.mul_succ, Nat.mul_comm]
    exact Nat.mul_le_mul_right _ hwhole
  simp only [elementBytes, loaded, position, hsame, hdtype, drop_take, take_take]
  congr 1
  simp only [position] at hle
  omega

/-- Two rebuilt tensors share a storage if and only if the tensors did. -/
theorem rebuilt_storage_iff {d d' : Tensor}
    (h : Rebuilt mem (Pickler.pushAll mem ptrs {}).tensorData t t')
    (hd : Rebuilt mem (Pickler.pushAll mem ptrs {}).tensorData d d') :
    t'.storage = d'.storage ↔ t.storage = d.storage := by
  obtain ⟨i, t₀, hi, ht, -, -, rfl⟩ := h
  obtain ⟨j, d₀, hj, hd, -, -, rfl⟩ := hd
  constructor
  · rintro rfl
    rw [← ht, ← hd, Option.some.inj (hi.symm.trans hj)]
  · intro hsame
    have hlt : i < ((Pickler.pushAll mem ptrs {}).tensorData.map Tensor.storage).length := by
      rw [List.length_map]
      exact (List.getElem?_eq_some_iff.mp hi).1
    refine (List.getElem?_inj hlt (nodup_tensorData mem ptrs)).mp ?_
    rw [List.getElem?_map, List.getElem?_map, hi, hj, Option.map_some, Option.map_some, ht, hd,
      hsame]

section Elements

variable {V : Type} {value : ScalarType → Bool → Bool → Bytes → V} {s' : Storage}

theorem restored_of_plain (hvalid : Valid mem t) (hplain : Plain value mem ptrs t)
    (h : Rebuilt mem (Pickler.pushAll mem ptrs {}).tensorData t t') :
    ∃ s', ((Pickler.pushAll mem ptrs {}).tensorData.map (loaded mem))[t'.storage]? = some s' ∧
      Restored value (mem.storageOf t) t s' t' := by
  obtain ⟨i, t₀, hi, hsame, -, -, rfl⟩ := h
  have hfirst := firstOn_of_mem (mem_of_getElem? hi)
  rw [hsame] at hfirst
  have hdtype : t₀.dtype = t.dtype := (hplain.dtype t₀ hfirst).symm
  refine ⟨loaded mem t₀, by rw [getElem?_map, hi, map_some],
    hdtype, rfl, rfl, rfl, rfl, fun ix hix => ?_⟩
  rw [element, elementBytes_loaded hsame hdtype (hvalid.inBounds ix hix), hdtype]
  exact hplain.resolved ix hix

theorem plain_of_restored (hvalid : Valid mem t)
    (hwriteable : ∀ t ∈ (Pickler.pushAll mem ptrs {}).tensorData, Writeable mem t)
    (h : Rebuilt mem (Pickler.pushAll mem ptrs {}).tensorData t t')
    (hs' : ((Pickler.pushAll mem ptrs {}).tensorData.map (loaded mem))[t'.storage]? = some s')
    (hrestored : Restored value (mem.storageOf t) t s' t') : Plain value mem ptrs t := by
  obtain ⟨i, t₀, hi, hsame, hsupported, -, rfl⟩ := h
  have hmem := mem_of_getElem? hi
  have hfirst := firstOn_of_mem hmem
  rw [hsame] at hfirst
  have hdtype : t₀.dtype = t.dtype := hrestored.dtype
  rw [getElem?_map, hi, map_some, Option.some.injEq] at hs'
  refine ⟨fun t₁ ht₁ => ?_, hsupported, ?_, fun ix hix => ?_⟩
  · rw [← hdtype, Option.some.inj (hfirst.symm.trans ht₁)]
  · have ht₀ := hwriteable t₀ hmem
    rwa [Writeable, show mem.storageOf t₀ = mem.storageOf t from congrArg mem.storage hsame,
      hdtype] at ht₀
  · have helement := hrestored.elements ix hix
    rwa [← hs', element, elementBytes_loaded hsame hdtype (hvalid.inBounds ix hix), hdtype]
      at helement

theorem loads_of_plain (hvalid : Valid mem t) (hplain : Plain value mem ptrs t) :
    Loads mem (Pickler.pushAll mem ptrs {}).tensorData t := by
  refine ⟨hplain.device, fun t₀ ht₀ hsame hthrows => ?_⟩
  have hfirst := firstOn_of_mem ht₀
  rw [hsame] at hfirst
  have hdiff := hvalid.requiresGrad hthrows.1
  rw [hplain.dtype t₀ hfirst, hthrows.2] at hdiff
  exact nomatch hdiff

theorem writeable_of_plain (hplain : ∀ ptr ∈ ptrs, Plain value mem ptrs (mem.tensor ptr)) :
    ∀ t ∈ (Pickler.pushAll mem ptrs {}).tensorData, Writeable mem t := by
  intro t ht
  obtain ⟨ptr, hptr, rfl⟩ := mem_map.mp (mem_of_find?_eq_some (firstOn_of_mem ht))
  exact (hplain ptr hptr).writeable

end Elements

end RestoredTensors

section Results

variable {V : Type} {value : ScalarType → Bool → Bool → Bytes → V} {mem : Memory}
variable {ptrs : List Nat}

theorem plain_of_roundTrips (hvalid : ∀ ptr ∈ ptrs, Valid mem (mem.tensor ptr))
    (h : RoundTrips value mem ptrs) : ∀ ptr ∈ ptrs, Plain value mem ptrs (mem.tensor ptr) := by
  obtain ⟨stack, storages, ts, hreload, hstack, -, hrestored, -⟩ := h
  intro ptr hptr
  obtain ⟨hwriteable, ts', hreload', hrebuilt⟩ := reload_eq mem ptrs
    (.inr (hreload ▸ some_ne_none _))
  cases hreload'.symm.trans hreload
  have hts : ts' = ts := map_injective_iff.mpr (fun _ _ h => Value.tensor.inj h)
    ((reverse_reverse _).symm.trans hstack)
  subst hts
  obtain ⟨hlength, hpairs⟩ := forall₂_iff_zip.mp hrebuilt
  have hfst := map_fst_zip (Nat.le_of_eq hlength)
  rw [← hfst] at hptr
  obtain ⟨a, ha, rfl⟩ := mem_map.mp hptr
  obtain ⟨s', hs', hsame⟩ := hrestored a ha
  exact plain_of_restored (hvalid a.1 (hfst ▸ mem_map_of_mem ha)) hwriteable (hpairs ha) hs' hsame

theorem roundTrips_of_plain (hvalid : ∀ ptr ∈ ptrs, Valid mem (mem.tensor ptr))
    (hplain : ∀ ptr ∈ ptrs, Plain value mem ptrs (mem.tensor ptr)) :
    RoundTrips value mem ptrs := by
  obtain ⟨-, ts, hreload, hrebuilt⟩ := reload_eq mem ptrs (.inl ⟨writeable_of_plain hplain,
      fun ptr hptr => loads_of_plain (hvalid ptr hptr) (hplain ptr hptr)⟩)
  obtain ⟨hlength, hpairs⟩ := forall₂_iff_zip.mp hrebuilt
  refine ⟨_, _, ts, hreload, reverse_reverse _, hlength.symm, fun a ha => ?_,
    fun a ha b hb => rebuilt_storage_iff (hpairs ha) (hpairs hb)⟩
  have hptr : a.1 ∈ ptrs := (of_mem_zip ha).1
  exact restored_of_plain (hvalid a.1 hptr) (hplain a.1 hptr) (hpairs ha)

/-- Tensors are restored exactly when each has the scalar type of the first one on its storage,
its device and its storage can be read back, and its pending bits change no element. -/
theorem tensors_restored_iff (hvalid : ∀ ptr ∈ ptrs, Valid mem (mem.tensor ptr)) :
    RoundTrips value mem ptrs ↔ ∀ ptr ∈ ptrs, Plain value mem ptrs (mem.tensor ptr) :=
  ⟨plain_of_roundTrips hvalid, roundTrips_of_plain hvalid⟩

/-- Two scalars over the eight bytes of one storage on the CPU. -/
def twoViews (first second : ScalarType) : Memory where
  storage := fun _ => ⟨⟨.CPU, -1⟩, [0, 0, 128, 63, 0, 0, 0, 64], by decide⟩
  tensor := fun ptr => ⟨0, if ptr = 0 then first else second, [], [], ptr, false, false, false⟩
  useCount := fun _ => 2

theorem twoViews_valid (first second : ScalarType) (h : first.elementSize = 4)
    (h' : second.elementSize = 4) :
    ∀ ptr ∈ [0, 1], Valid (twoViews first second) ((twoViews first second).tensor ptr) := by
  intro ptr hptr
  refine ⟨fun ix hix => ?_, fun hgrad => nomatch hgrad⟩
  cases hix
  rcases mem_pair.mp hptr with rfl | rfl <;>
    simp [twoViews, position, Memory.storageOf, h, h']

/-- Two views of one type are restored. -/
theorem tensors_restored_floats :
    RoundTrips (fun _ _ _ bytes => bytes) (twoViews .float .float) [0, 1] := by
  refine (tensors_restored_iff (twoViews_valid .float .float rfl rfl)).mpr fun ptr hptr => ?_
  refine ⟨fun t₀ ht₀ => ?_, .inl rfl, .inl rfl, fun _ _ => rfl⟩
  obtain ⟨q, -, rfl⟩ := mem_map.mp (mem_of_find?_eq_some ht₀)
  simp [twoViews]

/-- A view as `float` behind a view as `int` is not. -/
theorem tensors_restored_fails :
    ¬ RoundTrips (fun _ _ _ bytes => bytes) (twoViews .int .float) [0, 1] := by
  intro h
  have hplain := plain_of_roundTrips (twoViews_valid .int .float rfl rfl) h 1 (by simp)
  have hdtype := hplain.dtype ((twoViews .int .float).tensor 0) (by simp [firstOn, twoViews])
  simp [twoViews] at hdtype

end Results

end Tensors
end PyTorchCore.Pickle
