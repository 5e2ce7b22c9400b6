import Mathlib.Data.BitVec
import Mathlib.Tactic

/-!
# Dispatch keys and dispatch key sets

This module transcribes `c10/core/DispatchKey.h`, `c10/core/DispatchKey.cpp`,
`c10/core/DispatchKeySet.h` and `c10/core/DispatchKeySet.cpp`.

The enumeration keeps the order of the source. A `DispatchKeySet` is the 64-bit mask of the
source; `Undefined` has no bit of its own, so it is a member of no set.
-/

namespace PyTorchCore.Dispatch

/-- `enum class DispatchKey : uint8_t`, in the order of the source. -/
inductive DispatchKey
  | Undefined
  | CPU | CUDA | HIP | FPGA | ORT | XLA | MLC | Vulkan | Metal | XPU | HPU | VE
  | Lazy | Meta | QuantizedCPU | QuantizedCUDA | QuantizedXPU | CustomRNGKeyId
  | MkldnnCPU | SparseCPU | SparseCUDA | SparseHIP | SparseXPU | SparseVE
  | SparseCsrCPU | SparseCsrCUDA | NestedTensor
  | PrivateUse1 | PrivateUse2 | PrivateUse3
  | BackendSelect | Python | Named | Conjugate | Negative | ZeroTensor
  | FuncTorchDynamicLayerBackMode | ADInplaceOrView
  | AutogradOther | AutogradCPU | AutogradCUDA | AutogradXLA | AutogradLazy
  | AutogradXPU | AutogradMLC | AutogradHPU | AutogradNestedTensor
  | AutogradPrivateUse1 | AutogradPrivateUse2 | AutogradPrivateUse3
  | Tracer | AutocastCPU | AutocastCUDA | FuncTorchBatched | FuncTorchVmapMode
  | Batched | VmapMode | FuncTorchGradWrapper | Functionalize
  | FuncTorchDynamicLayerFrontMode
  | TESTING_ONLY_GenericWrapper | TESTING_ONLY_GenericMode
  | NumDispatchKeys
  | Autograd | CompositeImplicitAutograd | CompositeExplicitAutograd
deriving DecidableEq, Repr

namespace DispatchKey

/-- `static_cast<uint8_t>(k)`. -/
def toNat (k : DispatchKey) : Nat :=
  k.ctorIdx

/-- All enumerators, in increasing order. -/
def all : List DispatchKey :=
  [Undefined, CPU, CUDA, HIP, FPGA, ORT, XLA, MLC, Vulkan, Metal, XPU, HPU, VE,
    Lazy, Meta, QuantizedCPU, QuantizedCUDA, QuantizedXPU, CustomRNGKeyId,
    MkldnnCPU, SparseCPU, SparseCUDA, SparseHIP, SparseXPU, SparseVE,
    SparseCsrCPU, SparseCsrCUDA, NestedTensor,
    PrivateUse1, PrivateUse2, PrivateUse3,
    BackendSelect, Python, Named, Conjugate, Negative, ZeroTensor,
    FuncTorchDynamicLayerBackMode, ADInplaceOrView,
    AutogradOther, AutogradCPU, AutogradCUDA, AutogradXLA, AutogradLazy,
    AutogradXPU, AutogradMLC, AutogradHPU, AutogradNestedTensor,
    AutogradPrivateUse1, AutogradPrivateUse2, AutogradPrivateUse3,
    Tracer, AutocastCPU, AutocastCUDA, FuncTorchBatched, FuncTorchVmapMode,
    Batched, VmapMode, FuncTorchGradWrapper, Functionalize,
    FuncTorchDynamicLayerFrontMode,
    TESTING_ONLY_GenericWrapper, TESTING_ONLY_GenericMode,
    NumDispatchKeys,
    Autograd, CompositeImplicitAutograd, CompositeExplicitAutograd]

/-- The list of all keys is complete. -/
theorem mem_all (k : DispatchKey) : k ∈ all := by
  cases k <;> decide

theorem toNat_injective {j k : DispatchKey} (h : j.toNat = k.toNat) : j = k := by
  have key : ∀ j ∈ all, ∀ k ∈ all, j.toNat = k.toNat → j = k := by
    decide +kernel
  exact key j (mem_all j) k (mem_all k) h

/-- The keys that own a slot of `dispatchTable_`: everything before the sentinel. -/
def isRuntime (k : DispatchKey) : Bool :=
  decide (k.toNat < NumDispatchKeys.toNat)

def isAliasDispatchKey (k : DispatchKey) : Bool :=
  decide (NumDispatchKeys.toNat < k.toNat ∧ k.toNat ≤ CompositeExplicitAutograd.toNat)

end DispatchKey

/-- A set of dispatch keys: bit `t - 1` stands for the key number `t`. -/
structure DispatchKeySet where
  repr_ : BitVec 64
deriving DecidableEq

namespace DispatchKeySet

/-- The empty set, `DispatchKeySet()`. -/
def empty : DispatchKeySet :=
  ⟨0⟩

/-- `DispatchKeySet(DispatchKeySet::FULL)`. -/
def full : DispatchKeySet :=
  ⟨BitVec.allOnes 64⟩

/-- `DispatchKeySet(DispatchKey t)`. -/
def ofKey (t : DispatchKey) : DispatchKeySet :=
  if t = .Undefined then ⟨0⟩ else ⟨1#64 <<< (t.toNat - 1)⟩

/-- Set union, `operator|`. -/
def union (s t : DispatchKeySet) : DispatchKeySet :=
  ⟨s.repr_ ||| t.repr_⟩

/-- `DispatchKeySet(std::initializer_list<DispatchKey>)`. -/
def ofList (ks : List DispatchKey) : DispatchKeySet :=
  ks.foldl (fun s k => s.union (ofKey k)) empty

/-- `has`: is the bit of `t` set? -/
def has (s : DispatchKeySet) (t : DispatchKey) : Bool :=
  decide (s.repr_ &&& (ofKey t).repr_ ≠ 0)

def add (s : DispatchKeySet) (t : DispatchKey) : DispatchKeySet :=
  s.union (ofKey t)

def remove (s : DispatchKeySet) (t : DispatchKey) : DispatchKeySet :=
  ⟨s.repr_ &&& ~~~ (ofKey t).repr_⟩

/-- The iteration order of `DispatchKeySet::iterator`: the members in
increasing order, stopping in front of `NumDispatchKeys`. -/
def toList (s : DispatchKeySet) : List DispatchKey :=
  DispatchKey.all.filter (fun k => k.isRuntime && s.has k)

section

variable (t : DispatchKey) (ht : t ≠ .Undefined)
include t ht

theorem ofKey_repr :
    (ofKey t).repr_ = 1#64 <<< (t.toNat - 1) := by
  simp [ofKey, ht]

theorem bit_pos (hr : t.isRuntime = true) :
    1 ≤ t.toNat ∧ t.toNat - 1 < 64 := by
  have key : ∀ t ∈ DispatchKey.all, t ≠ .Undefined → t.isRuntime = true →
      1 ≤ t.toNat ∧ t.toNat - 1 < 64 := by
    decide
  exact key t (DispatchKey.mem_all t) ht hr

theorem getLsbD_ofKey (i : Nat) :
    (ofKey t).repr_.getLsbD i = (decide (i < 64) && decide (i = t.toNat - 1)) := by
  rw [ofKey_repr t ht]
  by_cases h1 : i < 64
  · by_cases h2 : i = t.toNat - 1
    · simp [h2]
    · simp [h2]
      omega
  · simp [h1]

end

/-- Membership is a bit of the mask. -/
theorem has_eq_getLsbD (s : DispatchKeySet) (t : DispatchKey)
    (ht : t ≠ .Undefined) (hr : t.isRuntime = true) :
    s.has t = s.repr_.getLsbD (t.toNat - 1) := by
  obtain ⟨_, hlt⟩ := bit_pos t ht hr
  have hbit : ∀ i, (s.repr_ &&& (ofKey t).repr_).getLsbD i =
      (s.repr_.getLsbD i && (decide (i < 64) && decide (i = t.toNat - 1))) := by
    intro i
    rw [BitVec.getLsbD_and, getLsbD_ofKey t ht]
  cases hb : s.repr_.getLsbD (t.toNat - 1) with
  | false =>
    have hz : s.repr_ &&& (ofKey t).repr_ = 0 := by
      apply BitVec.eq_of_getLsbD_eq
      intro i _
      rw [hbit i]
      by_cases hi : i = t.toNat - 1
      · subst hi
        simp [hb]
      · simp [hi]
    simp [has, hz]
  | true =>
    have hnz : s.repr_ &&& (ofKey t).repr_ ≠ 0 := by
      intro hz
      have := hbit (t.toNat - 1)
      rw [hz, hb] at this
      simp [hlt] at this
    exact decide_eq_true hnz

variable {j k : DispatchKey}

theorem bit_ne (hj : j ≠ .Undefined) (hjr : j.isRuntime = true)
    (hk : k ≠ .Undefined) (hkr : k.isRuntime = true) (hne : j ≠ k) :
    j.toNat - 1 ≠ k.toNat - 1 := by
  intro h
  have h1 := bit_pos j hj hjr
  have h2 := bit_pos k hk hkr
  exact hne (DispatchKey.toNat_injective (by omega))

section

variable (s : DispatchKeySet) (hj : j ≠ .Undefined) (hjr : j.isRuntime = true)
  (hk : k ≠ .Undefined) (hkr : k.isRuntime = true)
include s hj hjr hk hkr

theorem has_add :
    (s.add k).has j = (decide (j = k) || s.has j) := by
  obtain ⟨_, hlt⟩ := bit_pos j hj hjr
  rw [has_eq_getLsbD _ j hj hjr, has_eq_getLsbD _ j hj hjr]
  simp only [add, union, BitVec.getLsbD_or, getLsbD_ofKey k hk, hlt]
  by_cases h : j = k
  · simp [h]
  · simp [h, bit_ne hj hjr hk hkr h]

theorem has_remove :
    (s.remove k).has j = (!decide (j = k) && s.has j) := by
  obtain ⟨_, hlt⟩ := bit_pos j hj hjr
  rw [has_eq_getLsbD _ j hj hjr, has_eq_getLsbD _ j hj hjr]
  simp only [remove, BitVec.getLsbD_and, BitVec.getLsbD_not, getLsbD_ofKey k hk, hlt]
  by_cases h : j = k
  · simp [h]
  · simp [h, bit_ne hj hjr hk hkr h]

end

@[simp] theorem add_undefined (s : DispatchKeySet) : s.add .Undefined = s := by
  simp [add, union, ofKey]

@[simp] theorem remove_undefined (s : DispatchKeySet) : s.remove .Undefined = s := by
  have hbits : s.repr_ &&& ~~~ (ofKey .Undefined).repr_ = s.repr_ := by
    show s.repr_ &&& BitVec.allOnes 64 = s.repr_
    rw [BitVec.and_allOnes]
  simp only [remove, hbits]

end DispatchKeySet

open DispatchKey in
/-- `autograd_dispatch_keyset`: all runtime autograd keys. -/
def autograd_dispatch_keyset : DispatchKeySet :=
  .ofList [AutogradCPU, AutogradCUDA, AutogradXLA, AutogradLazy,
    AutogradNestedTensor, AutogradMLC, AutogradHPU, AutogradXPU,
    AutogradPrivateUse1, AutogradPrivateUse2, AutogradPrivateUse3, AutogradOther]

open DispatchKey in
/-- `autogradother_backends`: the backends that share `AutogradOther`. -/
def autogradother_backends : DispatchKeySet :=
  .ofList [HIP, VE, FPGA, ORT, Vulkan, Metal, QuantizedCPU, QuantizedCUDA,
    CustomRNGKeyId, MkldnnCPU, SparseCPU, SparseCUDA, SparseHIP, SparseVE,
    SparseCsrCPU, SparseCsrCUDA, Meta]

open DispatchKey in
/-- `backend_dispatch_keyset`: what `CompositeExplicitAutograd` maps to. -/
def backend_dispatch_keyset : DispatchKeySet :=
  autogradother_backends.union
    (.ofList [CPU, CUDA, XLA, Lazy, XPU, PrivateUse1, PrivateUse2, PrivateUse3,
      MLC, HPU, ORT, Meta])

/-- `math_dispatch_keyset`: what `CompositeImplicitAutograd` maps to. -/
def math_dispatch_keyset : DispatchKeySet :=
  backend_dispatch_keyset.union autograd_dispatch_keyset

def isBackendDispatchKey (t : DispatchKey) : Bool :=
  decide (t ≠ .Undefined) && !t.isAliasDispatchKey && backend_dispatch_keyset.has t

/-- `getRuntimeDispatchKeySet`; its only caller has excluded `Undefined`. -/
def getRuntimeDispatchKeySet : DispatchKey → DispatchKeySet
  | .Autograd => autograd_dispatch_keyset
  | .CompositeImplicitAutograd => math_dispatch_keyset
  | .CompositeExplicitAutograd => backend_dispatch_keyset
  | t => .ofKey t

def runtimeDispatchKeySetHas (t k : DispatchKey) : Bool :=
  match t with
  | .Autograd => autograd_dispatch_keyset.has k
  | .CompositeImplicitAutograd => math_dispatch_keyset.has k
  | .CompositeExplicitAutograd => backend_dispatch_keyset.has k
  | t => decide (t = k)

def isIncludedInAlias (k aliasKey : DispatchKey) : Bool :=
  decide (k ≠ .Undefined) && runtimeDispatchKeySetHas aliasKey k

/-- `getBackendKeySetFromAutograd`: the backends behind an autograd key. -/
def getBackendKeySetFromAutograd : DispatchKey → DispatchKeySet
  | .AutogradCPU => .ofKey .CPU
  | .AutogradCUDA => .ofKey .CUDA
  | .AutogradXLA => .ofKey .XLA
  | .AutogradLazy => .ofKey .Lazy
  | .AutogradMLC => .ofKey .MLC
  | .AutogradHPU => .ofKey .HPU
  | .AutogradNestedTensor => .ofKey .NestedTensor
  | .AutogradXPU => .ofKey .XPU
  | .AutogradPrivateUse1 => .ofKey .PrivateUse1
  | .AutogradPrivateUse2 => .ofKey .PrivateUse2
  | .AutogradPrivateUse3 => .ofKey .PrivateUse3
  | .AutogradOther => autogradother_backends
  | _ => .empty

def getAutogradKeyFromBackend : DispatchKey → DispatchKey
  | .CPU => .AutogradCPU
  | .XPU => .AutogradXPU
  | .CUDA => .AutogradCUDA
  | .XLA => .AutogradXLA
  | .Lazy => .AutogradLazy
  | .MLC => .AutogradMLC
  | .HPU => .AutogradHPU
  | .NestedTensor => .AutogradNestedTensor
  | .PrivateUse1 => .AutogradPrivateUse1
  | .PrivateUse2 => .AutogradPrivateUse2
  | .PrivateUse3 => .AutogradPrivateUse3
  | _ => .AutogradOther

/-- The two tables between backends and autograd keys agree, except that
`NestedTensor` is no member of `backend_dispatch_keyset`. -/
theorem backend_of_autograd (j k : DispatchKey) (hk : k.isAliasDispatchKey = false)
    (h : (getBackendKeySetFromAutograd j).has k = true) :
    (isBackendDispatchKey k = true ∧ getAutogradKeyFromBackend k = j) ∨
      (k = .NestedTensor ∧ j = .AutogradNestedTensor) := by
  have key : ∀ j ∈ DispatchKey.all, ∀ k ∈ DispatchKey.all, k.isAliasDispatchKey = false →
      (getBackendKeySetFromAutograd j).has k = true →
      (isBackendDispatchKey k = true ∧ getAutogradKeyFromBackend k = j) ∨
        (k = .NestedTensor ∧ j = .AutogradNestedTensor) := by
    decide +kernel
  exact key j (DispatchKey.mem_all j) k (DispatchKey.mem_all k) hk h

end PyTorchCore.Dispatch
