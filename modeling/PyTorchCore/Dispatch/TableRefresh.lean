import PyTorchCore.Dispatch.Dispatcher

/-!
# The dispatch table and its incremental refresh

A slot is refreshed when one of the registrations that it reads changes, with two exceptions, both
about the test `has_backend_kernel` of step 2.2.

* A kernel for `CompositeExplicitAutograd` makes that test succeed for every
  autograd key, but `updateDispatchTable_` refreshes the backend keys and
  `Undefined` only.
* A kernel for `NestedTensor` makes it succeed for `AutogradNestedTensor`, but
  `NestedTensor` is no member of `backend_dispatch_keyset`, so the autograd key
  behind it is not refreshed.
-/

namespace PyTorchCore.Dispatch

open Lib
open Function List

namespace OperatorEntry

/-! ## The computed entry as a function of the front kernels -/

/-- The assertions on `kernels_` that the lookups make. -/
structure KernelsOk (e : OperatorEntry) : Prop where
  undefined : e.kernels_ .Undefined = none
  nonempty : ∀ k nodes, e.kernels_ k = some nodes → nodes ≠ []
  valid : ∀ k nodes, e.kernels_ k = some nodes →
    ∀ node, node ∈ nodes → node.kernel.kernel.isValid = true

def headKernel : Option (List KernelNode) → Option AnnotatedKernel
  | some (node :: _) => some node.kernel
  | _ => none

/-- The newest kernel of every key. -/
def front (e : OperatorEntry) (k : DispatchKey) : Option AnnotatedKernel :=
  headKernel (e.kernels_ k)

/-- Some key of the set has a kernel. -/
def anyFront (f : DispatchKey → Option AnnotatedKernel) (ks : DispatchKeySet) : Bool :=
  DispatchKey.all.any (fun k => (f k).isSome && !k.isAliasDispatchKey && ks.has k)

/-- The precedence of the candidates for a slot. -/
def pickFrom (direct default_backend math : Option AnnotatedKernel)
    (ambiguous has_backend_kernel : Bool) (autograd : Option AnnotatedKernel)
    (fallback : AnnotatedKernel × Provenance) : AnnotatedKernel × Provenance :=
  match direct, default_backend, math, autograd with
  | some a, _, _, _ => (a, .kernel)
  | none, some a, _, _ => (a, .defaultBackendKernel)
  | none, none, some a, autograd =>
    if ambiguous then (ambiguousAutogradOtherKernel, .ambiguousAutogradother)
    else if has_backend_kernel then
      match autograd with
      | some b => (b, .autogradKernel)
      | none => fallback
    else (a, .mathKernel)
  | none, none, none, some b => (b, .autogradKernel)
  | none, none, none, none => fallback

/-- A registration to an alias key, seen from a slot. -/
def aliasFront (f : DispatchKey → Option AnnotatedKernel) (withUndefined : Bool)
    (k aliasKey : DispatchKey) : Option AnnotatedKernel :=
  if (withUndefined && decide (k = .Undefined)) || isIncludedInAlias k aliasKey then f aliasKey
  else none

/-- The computed entry, written with the front kernels only. -/
def pickEntry (fb : BackendFallbacks) (f : DispatchKey → Option AnnotatedKernel)
    (k : DispatchKey) : AnnotatedKernel × Provenance :=
  pickFrom (f k) (aliasFront f true k .CompositeExplicitAutograd)
    (aliasFront f true k .CompositeImplicitAutograd)
    (decide (k = .AutogradOther) && anyFront f autogradother_backends)
    (anyFront f (getBackendKeySetFromAutograd k) || (f .CompositeExplicitAutograd).isSome)
    (aliasFront f false k .Autograd) (fallbackEntry fb k)

section

variable (e : OperatorEntry) (h : KernelsOk e)
include e h

theorem front_isSome (k : DispatchKey) :
    (e.front k).isSome = (e.kernels_ k).isSome := by
  unfold front
  cases hk : e.kernels_ k with
  | none => rfl
  | some nodes =>
    cases nodes with
    | nil => exact absurd rfl (h.nonempty k [] hk)
    | cons node rest => rfl

theorem getKernelForDispatchKey_eq (k : DispatchKey) :
    e.getKernelForDispatchKey k = .ok (e.front k) := by
  unfold getKernelForDispatchKey front
  cases hk : e.kernels_ k with
  | none => rfl
  | some nodes =>
    cases nodes with
    | nil => exact absurd rfl (h.nonempty k [] hk)
    | cons node rest =>
      have hv := h.valid k _ hk node (by simp)
      simp [headKernel, hv]

theorem hasKernelForAnyDispatchKey_eq (ks : DispatchKeySet) :
    e.hasKernelForAnyDispatchKey ks = .ok (anyFront e.front ks) := by
  simp [hasKernelForAnyDispatchKey, h.undefined, anyFront, front_isSome e h]

theorem hasKernelForDispatchKey_eq (k : DispatchKey) :
    e.hasKernelForDispatchKey k = .ok (e.front k).isSome := by
  simp [hasKernelForDispatchKey, h.undefined, front_isSome e h]

end

section

variable (fb : BackendFallbacks) (e : OperatorEntry) (h : KernelsOk e) (k : DispatchKey)
include fb e h k

theorem autogradEntry_eq (hb : Bool) :
    autogradEntry fb e k =
      .ok (pickFrom none none none false hb (aliasFront e.front false k .Autograd)
        (fallbackEntry fb k)) := by
  unfold autogradEntry aliasFront
  rw [getKernelForDispatchKey_eq e h]
  cases hi : isIncludedInAlias k .Autograd with
  | false => simp [pickFrom, pure, Except.pure]
  | true =>
    cases hf : e.front .Autograd <;>
      simp [pickFrom, pure, Except.pure, bind, Except.bind]

theorem mathEntry_eq (hb : Bool) :
    mathEntry fb e k hb =
      .ok (pickFrom none none (aliasFront e.front true k .CompositeImplicitAutograd)
        (decide (k = .AutogradOther) && anyFront e.front autogradother_backends) hb
        (aliasFront e.front false k .Autograd) (fallbackEntry fb k)) := by
  unfold mathEntry
  rw [autogradEntry_eq fb e h k hb, getKernelForDispatchKey_eq e h,
    hasKernelForAnyDispatchKey_eq e h]
  have hrest : ∀ amb, pickFrom none none none amb hb (aliasFront e.front false k .Autograd)
      (fallbackEntry fb k) = pickFrom none none none false hb
        (aliasFront e.front false k .Autograd) (fallbackEntry fb k) := by
    intro amb
    cases aliasFront e.front false k .Autograd <;> rfl
  conv_rhs => rw [aliasFront, Bool.true_and]
  cases hi : (decide (k = .Undefined) || isIncludedInAlias k .CompositeImplicitAutograd) with
  | false => simp [hrest]
  | true =>
    cases hf : e.front .CompositeImplicitAutograd with
    | none => simp [bind, Except.bind, hrest]
    | some m =>
      by_cases hk : k = .AutogradOther
      · cases hany : anyFront e.front autogradother_backends <;> cases hb <;>
          cases aliasFront e.front false k .Autograd <;>
          simp [hk, pickFrom, bind, Except.bind, pure, Except.pure]
      · cases hb <;> cases aliasFront e.front false k .Autograd <;>
          simp [hk, pickFrom, bind, Except.bind, pure, Except.pure]

/-- On a well-formed entry no assertion fails, and the computed entry is a
function of the front kernels. -/
theorem computeDispatchTableEntryWithDebug_eq :
    computeDispatchTableEntryWithDebug fb e k = .ok (pickEntry fb e.front k) := by
  have hdef : e.defaultBackendEntry k =
      .ok (aliasFront e.front true k .CompositeExplicitAutograd) := by
    unfold defaultBackendEntry aliasFront
    rw [getKernelForDispatchKey_eq e h]
    cases hi : (decide (k = .Undefined) || isIncludedInAlias k .CompositeExplicitAutograd) <;>
      simp [hi]
  unfold computeDispatchTableEntryWithDebug pickEntry
  rw [getKernelForDispatchKey_eq e h, hdef, hasKernelForAnyDispatchKey_eq e h,
    hasKernelForDispatchKey_eq e h]
  cases hd : e.front k with
  | some a => simp [pickFrom, bind, Except.bind, pure, Except.pure]
  | none =>
    cases hc : aliasFront e.front true k .CompositeExplicitAutograd with
    | some a => simp [pickFrom, bind, Except.bind, pure, Except.pure]
    | none =>
      cases ha : anyFront e.front (getBackendKeySetFromAutograd k) <;>
        simp [bind, Except.bind, pure, Except.pure, mathEntry_eq fb e h]

theorem computeDispatchTableEntry_eq :
    e.computeDispatchTableEntry fb k = .ok (pickEntry fb e.front k).1.kernel := by
  simp [computeDispatchTableEntry, computeDispatchTableEntryWithDebug_eq fb e h, bind,
    Except.bind, pure, Except.pure]

end

/-! ## Which registrations a slot reads -/

/-- Only a slot that would hold the math kernel looks at `has_backend_kernel`. -/
theorem pickFrom_backend_irrelevant {direct default_backend math : Option AnnotatedKernel}
    {ambiguous b c : Bool} {autograd : Option AnnotatedKernel}
    {fallback : AnnotatedKernel × Provenance}
    (hnot : (pickFrom direct default_backend math ambiguous b autograd fallback).2 ≠ .mathKernel)
    (hle : b = true → c = true) :
    pickFrom direct default_backend math ambiguous c autograd fallback =
      pickFrom direct default_backend math ambiguous b autograd fallback := by
  cases direct with
  | some a => rfl
  | none =>
    cases default_backend with
    | some a => rfl
    | none =>
      cases math with
      | none => cases autograd <;> rfl
      | some m =>
        cases ambiguous with
        | true => rfl
        | false =>
          cases b with
          | true => rw [hle rfl]
          | false => exact absurd rfl hnot

theorem self_mem_refreshedKeys (k : DispatchKey) (hr : k.isRuntime = true) :
    k ∈ refreshedKeys k := by
  have key : ∀ k ∈ DispatchKey.all, k.isRuntime = true → k ∈ refreshedKeys k := by
    decide +kernel
  exact key k (DispatchKey.mem_all k) hr

theorem refreshedKeys_runtime (c k : DispatchKey) (h : k ∈ refreshedKeys c) :
    k.isRuntime = true := by
  have key : ∀ c ∈ DispatchKey.all, ∀ k ∈ refreshedKeys c, k.isRuntime = true := by
    decide +kernel
  exact key c (DispatchKey.mem_all c) k h

theorem alias_mem_refreshedKeys (k : DispatchKey) :
    (k = .Undefined ∨ isIncludedInAlias k .CompositeExplicitAutograd = true →
      k ∈ refreshedKeys .CompositeExplicitAutograd) ∧
    (k = .Undefined ∨ isIncludedInAlias k .CompositeImplicitAutograd = true →
      k ∈ refreshedKeys .CompositeImplicitAutograd) ∧
    (isIncludedInAlias k .Autograd = true → k ∈ refreshedKeys .Autograd) := by
  have key : ∀ k ∈ DispatchKey.all,
      (k = .Undefined ∨ isIncludedInAlias k .CompositeExplicitAutograd = true →
        k ∈ refreshedKeys .CompositeExplicitAutograd) ∧
      (k = .Undefined ∨ isIncludedInAlias k .CompositeImplicitAutograd = true →
        k ∈ refreshedKeys .CompositeImplicitAutograd) ∧
      (isIncludedInAlias k .Autograd = true → k ∈ refreshedKeys .Autograd) := by
    decide +kernel
  exact key k (DispatchKey.mem_all k)

theorem autograd_mem_refreshedKeys (c : DispatchKey) (hc : c ≠ .Undefined)
    (hb : isBackendDispatchKey c = true) : getAutogradKeyFromBackend c ∈ refreshedKeys c := by
  unfold refreshedKeys
  rw [if_neg hc, if_pos hb]
  simp

/-- The autograd slots that read a key without being refreshed with it. -/
def unrefreshedReaders (c : DispatchKey) : List DispatchKey :=
  if c = .CompositeExplicitAutograd then autograd_dispatch_keyset.toList
  else if c = .NestedTensor then [.AutogradNestedTensor]
  else []

/-- A slot of `math_dispatch_keyset` that is not refreshed with
`CompositeExplicitAutograd` is an autograd slot. -/
theorem explicit_reader (k : DispatchKey)
    (hin : k = .Undefined ∨ isIncludedInAlias k .CompositeImplicitAutograd = true)
    (hk : k ∉ refreshedKeys .CompositeExplicitAutograd) :
    k ∈ unrefreshedReaders .CompositeExplicitAutograd := by
  have key : ∀ k ∈ DispatchKey.all,
      (k = .Undefined ∨ isIncludedInAlias k .CompositeImplicitAutograd = true) →
      k ∉ refreshedKeys .CompositeExplicitAutograd →
      k ∈ unrefreshedReaders .CompositeExplicitAutograd := by
    decide +kernel
  exact key k (DispatchKey.mem_all k) hin hk

theorem nested_reader : DispatchKey.AutogradNestedTensor ∈ unrefreshedReaders .NestedTensor := by
  decide

variable {fb : BackendFallbacks} {f : DispatchKey → Option AnnotatedKernel}
variable {c j : DispatchKey} {v : Option AnnotatedKernel}

theorem anyFront_update_of_not_has (ks : DispatchKeySet)
    (h : c.isAliasDispatchKey = false → ks.has c = false) :
    anyFront (update f c v) ks = anyFront f ks := by
  unfold anyFront
  congr 1
  funext k
  by_cases hk : k = c
  · subst hk
    cases ha : k.isAliasDispatchKey with
    | true => simp
    | false => simp [h ha]
  · rw [update_of_ne hk]

theorem anyFront_update_mono (ks : DispatchKeySet) (h : anyFront (update f c none) ks = true) :
    anyFront (update f c v) ks = true := by
  unfold anyFront at h ⊢
  rw [any_eq_true] at h ⊢
  obtain ⟨k, hk, hp⟩ := h
  refine ⟨k, hk, ?_⟩
  by_cases hkc : k = c
  · subst hkc
    simp at hp
  · rw [update_of_ne hkc] at hp ⊢
    exact hp

theorem anyFront_congr_isSome {g : DispatchKey → Option AnnotatedKernel} (ks : DispatchKeySet)
    (h : ∀ k, (f k).isSome = (g k).isSome) : anyFront f ks = anyFront g ks := by
  unfold anyFront
  congr 1
  funext k
  rw [h k]

theorem aliasFront_update (withUndefined : Bool) (k aliasKey : DispatchKey)
    (h : ((withUndefined && decide (k = .Undefined)) || isIncludedInAlias k aliasKey) = true →
      aliasKey ≠ c) :
    aliasFront (update f c v) withUndefined k aliasKey = aliasFront f withUndefined k aliasKey := by
  unfold aliasFront
  split
  · rename_i hin
    rw [update_of_ne (h hin)]
  · rfl

section

variable (hj : j.isRuntime = true) (hc : c ≠ .Undefined) (href : j ∉ refreshedKeys c)
include hj hc href

/-- The candidates of an unrefreshed slot, apart from `has_backend_kernel`, do
not change. -/
theorem pickEntry_update :
    pickEntry fb (update f c v) j = pickFrom (f j) (aliasFront f true j .CompositeExplicitAutograd)
        (aliasFront f true j .CompositeImplicitAutograd)
        (decide (j = .AutogradOther) && anyFront f autogradother_backends)
        (anyFront (update f c v) (getBackendKeySetFromAutograd j) ||
          (update f c v .CompositeExplicitAutograd).isSome)
        (aliasFront f false j .Autograd) (fallbackEntry fb j) := by
  obtain ⟨hexp, himp, hauto⟩ := alias_mem_refreshedKeys j
  have hjc : j ≠ c := by
    rintro rfl
    exact href (self_mem_refreshedKeys j hj)
  have h1 : aliasFront (update f c v) true j .CompositeExplicitAutograd =
      aliasFront f true j .CompositeExplicitAutograd := by
    apply aliasFront_update
    rintro hin rfl
    exact href (hexp (by simpa using hin))
  have h2 : aliasFront (update f c v) true j .CompositeImplicitAutograd =
      aliasFront f true j .CompositeImplicitAutograd := by
    apply aliasFront_update
    rintro hin rfl
    exact href (himp (by simpa using hin))
  have h3 : aliasFront (update f c v) false j .Autograd = aliasFront f false j .Autograd := by
    apply aliasFront_update
    rintro hin rfl
    exact href (hauto (by simpa using hin))
  have h4 : (decide (j = .AutogradOther) && anyFront (update f c v) autogradother_backends) =
      (decide (j = .AutogradOther) && anyFront f autogradother_backends) := by
    by_cases ho : j = .AutogradOther
    · subst ho
      rw [anyFront_update_of_not_has]
      intro halias
      cases hh : autogradother_backends.has c with
      | false => rfl
      | true =>
        rcases backend_of_autograd .AutogradOther c halias hh with ⟨hb, hk⟩ | ⟨_, hk⟩
        · exact absurd (hk ▸ autograd_mem_refreshedKeys c hc hb) href
        · exact absurd hk (by decide)
    · simp [ho]
  unfold pickEntry
  rw [h1, h2, h3, h4, update_of_ne hjc]

/-- A slot that is neither refreshed with `c` nor one of the two exceptions does
not read `c`. -/
theorem pickEntry_of_not_reader (hread : j ∉ unrefreshedReaders c) :
    pickEntry fb (update f c v) j = pickEntry fb f j := by
  have hback : anyFront (update f c v) (getBackendKeySetFromAutograd j) =
      anyFront f (getBackendKeySetFromAutograd j) := by
    apply anyFront_update_of_not_has
    intro halias
    cases hh : (getBackendKeySetFromAutograd j).has c with
    | false => rfl
    | true =>
      rcases backend_of_autograd j c halias hh with ⟨hb, hk⟩ | ⟨rfl, rfl⟩
      · exact absurd (hk ▸ autograd_mem_refreshedKeys c hc hb) href
      · exact absurd nested_reader hread
  by_cases hexp : c = .CompositeExplicitAutograd
  · subst hexp
    have hmath : aliasFront f true j .CompositeImplicitAutograd = none := by
      unfold aliasFront
      rw [if_neg]
      intro hin
      exact hread (explicit_reader j (by simpa using hin) href)
    rw [pickEntry_update hj hc href]
    unfold pickEntry
    rw [hmath]
    cases f j with
    | some a => rfl
    | none =>
      cases aliasFront f true j .CompositeExplicitAutograd with
      | some a => rfl
      | none => cases aliasFront f false j .Autograd <;> rfl
  · have hne : DispatchKey.CompositeExplicitAutograd ≠ c := fun h => hexp h.symm
    rw [pickEntry_update hj hc href, hback, update_of_ne hne]
    rfl

/-- For a slot that reads `c` unrefreshed, it is enough that without a kernel at
`c` the slot does not hold the math kernel. -/
theorem pickEntry_of_not_math (hnot : (pickEntry fb (update f c none) j).2 ≠ .mathKernel) :
    pickEntry fb (update f c v) j = pickEntry fb (update f c none) j := by
  rw [pickEntry_update hj hc href] at hnot
  rw [pickEntry_update hj hc href, pickEntry_update hj hc href]
  apply pickFrom_backend_irrelevant hnot
  intro hb
  rw [Bool.or_eq_true] at hb ⊢
  rcases hb with hb | hb
  · exact .inl (anyFront_update_mono _ hb)
  · right
    by_cases hk : DispatchKey.CompositeExplicitAutograd = c
    · subst hk
      simp at hb
    · rw [update_of_ne hk] at hb ⊢
      exact hb

theorem pickEntry_of_same_presence (hv : v.isSome = (f c).isSome) :
    pickEntry fb (update f c v) j = pickEntry fb f j := by
  have hsome : ∀ k, (update f c v k).isSome = (f k).isSome := by
    intro k
    by_cases hk : k = c
    · subst hk
      simpa using hv
    · rw [update_of_ne hk]
  rw [pickEntry_update hj hc href, anyFront_congr_isSome _ hsome, hsome]
  rfl

theorem pickEntry_update_eq (hsafe : v.isSome = (f c).isSome ∨ (j ∈ unrefreshedReaders c →
        (pickEntry fb (update f c none) j).2 ≠ .mathKernel)) :
    pickEntry fb (update f c v) j = pickEntry fb f j := by
  rcases hsafe with hv | hnot
  · exact pickEntry_of_same_presence hj hc href hv
  · by_cases hread : j ∈ unrefreshedReaders c
    · have h1 := pickEntry_of_not_math (v := v) hj hc href (hnot hread)
      have h2 := pickEntry_of_not_math (v := f c) hj hc href (hnot hread)
      rw [update_eq_self] at h2
      rw [h1, h2]
    · exact pickEntry_of_not_reader hj hc href hread

end

/-! ## The refresh of a list of slots -/

/-- Slot and fallthrough bit of one key hold the given kernel. -/
def Holds (e : OperatorEntry) (k : DispatchKey) (kernel : KernelFunction) : Prop :=
  e.dispatchTable_ k = kernel ∧
    (k ≠ .Undefined →
      e.dispatchKeyExtractor_.nonFallthroughKeys_.has k = !kernel.isFallthrough)

/-- Every slot of the table holds its computed entry. -/
def Synced (fb : BackendFallbacks) (e : OperatorEntry) : Prop :=
  ∀ k : DispatchKey, k.isRuntime = true → e.Holds k (pickEntry fb e.front k).1.kernel

variable {e e' : OperatorEntry}

theorem SameRegistrations.front_eq (h : SameRegistrations e e') :
    e'.front = e.front := by
  funext k
  unfold front
  rw [h.kernels_]

/-- The kernels are read off the registrations. -/
theorem SameRegistrations.kernelsOk (h : SameRegistrations e e')
    (hk : KernelsOk e) : KernelsOk e' := by
  refine ⟨?_, ?_, ?_⟩
  · rw [h.kernels_]
    exact hk.undefined
  · rw [h.kernels_]
    exact hk.nonempty
  · rw [h.kernels_]
    exact hk.valid

theorem setEntry_holds (e : OperatorEntry) (k : DispatchKey) (kernel : KernelFunction)
    (hk : k.isRuntime = true) : (e.setEntry k kernel).Holds k kernel := by
  refine ⟨by simp [setEntry], ?_⟩
  intro hu
  cases hf : kernel.isFallthrough with
  | true =>
    simp [setEntry, DispatchKeyExtractor.setOperatorHasFallthroughForKey, hf,
      DispatchKeySet.has_remove _ hu hk hu hk]
  | false =>
    simp [setEntry, DispatchKeyExtractor.setOperatorHasFallthroughForKey, hf,
      DispatchKeySet.has_add _ hu hk hu hk]

theorem setEntry_undefined_mask (e : OperatorEntry) (kernel : KernelFunction) :
    (e.setEntry .Undefined kernel).dispatchKeyExtractor_.nonFallthroughKeys_ =
      e.dispatchKeyExtractor_.nonFallthroughKeys_ := by
  cases hf : kernel.isFallthrough <;>
    simp [setEntry, DispatchKeyExtractor.setOperatorHasFallthroughForKey, hf]

theorem setEntry_holds_of_ne (e : OperatorEntry) {j k : DispatchKey}
    (kernel other : KernelFunction) (hj : j.isRuntime = true) (hk : k.isRuntime = true)
    (hne : j ≠ k) (h : e.Holds j other) : (e.setEntry k kernel).Holds j other := by
  refine ⟨?_, ?_⟩
  · simp only [setEntry, update_of_ne hne]
    exact h.1
  · intro hu
    by_cases hku : k = .Undefined
    · subst hku
      rw [setEntry_undefined_mask]
      exact h.2 hu
    · rw [← h.2 hu]
      cases hf : kernel.isFallthrough with
      | true =>
        simp [setEntry, DispatchKeyExtractor.setOperatorHasFallthroughForKey, hf,
          DispatchKeySet.has_remove _ hu hj hku hk, hne]
      | false =>
        simp [setEntry, DispatchKeyExtractor.setOperatorHasFallthroughForKey, hf,
          DispatchKeySet.has_add _ hu hj hku hk, hne]

/-- After a refresh every slot that was refreshed, or held its computed entry already, holds its
computed entry. -/
theorem updateDispatchTableEntries_spec (fb : BackendFallbacks) :
    ∀ (ks : List DispatchKey) (e : OperatorEntry), KernelsOk e →
      (∀ k, k ∈ ks → k.isRuntime = true) →
      (updateDispatchTableEntries fb ks e).2 = .ok () ∧
      ∀ j : DispatchKey, j.isRuntime = true →
        (j ∈ ks ∨ e.Holds j (pickEntry fb e.front j).1.kernel) →
        (updateDispatchTableEntries fb ks e).1.Holds j (pickEntry fb e.front j).1.kernel
  | [], e, _, _ => by
    refine ⟨rfl, ?_⟩
    rintro j _ (hj | hj)
    · simp at hj
    · exact hj
  | k :: ks, e, hok, hks => by
    have hk : k.isRuntime = true := hks k (by simp)
    have hsame := setEntry_same e k (pickEntry fb e.front k).1.kernel
    obtain ⟨hok', hrest⟩ := updateDispatchTableEntries_spec fb ks
      (e.setEntry k (pickEntry fb e.front k).1.kernel) (hsame.kernelsOk hok)
      (fun k' hk' => hks k' (mem_cons_of_mem _ hk'))
    unfold updateDispatchTableEntries
    rw [computeDispatchTableEntry_eq fb e hok k]
    refine ⟨hok', ?_⟩
    intro j hj hcase
    apply hrest j hj
    by_cases hjk : j = k
    · subst hjk
      exact .inr (setEntry_holds e j _ hj)
    · rcases hcase with hmem | hholds
      · exact .inl ((mem_cons.mp hmem).resolve_left hjk)
      · exact .inr (setEntry_holds_of_ne e _ _ hj hk hjk hholds)

/-- A well-formed entry whose table is up to date. -/
structure Current (fb : BackendFallbacks) (e : OperatorEntry) : Prop where
  kernelsOk : KernelsOk e
  synced : Synced fb e

/-- What it takes for the table to be current. -/
theorem Current.congr (h : Current fb e)
    (hk : e'.kernels_ = e.kernels_) (ht : e'.dispatchTable_ = e.dispatchTable_)
    (hm : e'.dispatchKeyExtractor_.nonFallthroughKeys_ =
      e.dispatchKeyExtractor_.nonFallthroughKeys_) : Current fb e' := by
  have hfront : e'.front = e.front := by
    funext k
    unfold front
    rw [hk]
  refine ⟨⟨?_, ?_, ?_⟩, ?_⟩
  · rw [hk]
    exact h.kernelsOk.undefined
  · rw [hk]
    exact h.kernelsOk.nonempty
  · rw [hk]
    exact h.kernelsOk.valid
  · intro k hr
    rw [hfront]
    unfold Holds
    rw [ht, hm]
    exact h.synced k hr

variable {e : OperatorEntry}

theorem current_of_refresh {ks : List DispatchKey} (hok : KernelsOk e)
    (hks : ∀ k, k ∈ ks → k.isRuntime = true)
    (hcover : ∀ j : DispatchKey, j.isRuntime = true → j ∉ ks →
      e.Holds j (pickEntry fb e.front j).1.kernel) :
    (updateDispatchTableEntries fb ks e).2 = .ok () ∧
      Current fb (updateDispatchTableEntries fb ks e).1 := by
  have hsame := updateDispatchTableEntries_same fb ks e
  obtain ⟨hres, hspec⟩ := updateDispatchTableEntries_spec fb ks e hok hks
  refine ⟨hres, hsame.kernelsOk hok, ?_⟩
  intro j hj
  rw [hsame.front_eq]
  apply hspec j hj
  by_cases hmem : j ∈ ks
  · exact .inl hmem
  · exact .inr (hcover j hj hmem)

theorem fullKeys_runtime (k : DispatchKey) (h : k ∈ runtimeKeys.flatMap refreshedKeys) :
    k.isRuntime = true := by
  obtain ⟨c, _, hk⟩ := mem_flatMap.mp h
  exact refreshedKeys_runtime c k hk

theorem mem_fullKeys (k : DispatchKey) (h : k.isRuntime = true) :
    k ∈ runtimeKeys.flatMap refreshedKeys := by
  refine mem_flatMap.mpr ⟨k, ?_, self_mem_refreshedKeys k h⟩
  exact mem_filter.mpr ⟨DispatchKey.mem_all k, h⟩

theorem updateDispatchTableFull_current (hok : KernelsOk e) :
    (e.updateDispatchTableFull_ fb).2 = .ok () ∧ Current fb (e.updateDispatchTableFull_ fb).1 :=
  current_of_refresh hok fullKeys_runtime (fun j hj hmem => absurd (mem_fullKeys j hj) hmem)

theorem create_current (name : OperatorName) : Current fb (create fb name) := by
  have hok : KernelsOk (blank name) := by
    refine ⟨rfl, ?_, ?_⟩
    · intro k nodes h
      simp [blank] at h
    · intro k nodes h
      simp [blank] at h
  unfold create
  exact (updateDispatchTableFull_current hok).2

theorem current_of_update (h : Current fb e) (hok : KernelsOk e')
    (hc : c ≠ .Undefined)
    (hfront : e'.front = update e.front c v)
    (ht : e'.dispatchTable_ = e.dispatchTable_)
    (hm : e'.dispatchKeyExtractor_ = e.dispatchKeyExtractor_)
    (hsafe : v.isSome = (e.front c).isSome ∨ ∀ j, j ∈ unrefreshedReaders c →
        (pickEntry fb (update e.front c none) j).2 ≠ .mathKernel) :
    (e'.updateDispatchTable_ fb c).2 = .ok () ∧ Current fb (e'.updateDispatchTable_ fb c).1 := by
  apply current_of_refresh hok (refreshedKeys_runtime c)
  intro j hj hmem
  rw [hfront, pickEntry_update_eq hj hc hmem (hsafe.imp_right (fun h hread => h j hread))]
  unfold Holds
  rw [ht, hm]
  exact h.synced j hj

theorem current_of_fallback (h : Current fb e) (a : AnnotatedKernel) :
    (e.updateFallback (update fb c a) c).2 = .ok () ∧
      Current (update fb c a) (e.updateFallback (update fb c a) c).1 := by
  apply current_of_refresh h.kernelsOk (refreshedKeys_runtime c)
  intro j hj hmem
  have hjc : j ≠ c := by
    rintro rfl
    exact hmem (self_mem_refreshedKeys j hj)
  have hfb : fallbackEntry (update fb c a) j = fallbackEntry fb j := by
    unfold fallbackEntry
    rw [update_of_ne hjc]
  have hpick : pickEntry (update fb c a) e.front j = pickEntry fb e.front j := by
    unfold pickEntry
    rw [hfb]
  rw [hpick]
  exact h.synced j hj

/-! ## Kernel registrations -/

/-- The entry with all kernels of one key left out. -/
def without (e : OperatorEntry) (c : DispatchKey) : OperatorEntry :=
  { e with kernels_ := Function.update e.kernels_ c none }

/-- Without its kernels at `c`, some slot that reads `c` unrefreshed gets the
`CompositeImplicitAutograd` kernel. -/
def Shadows (fb : BackendFallbacks) (e : OperatorEntry) (c : DispatchKey) : Prop :=
  ∃ j m, j ∈ unrefreshedReaders c ∧
    computeDispatchTableEntryWithDebug fb (e.without c) j = .ok (m, .mathKernel)

theorem front_of_update (e e' : OperatorEntry) (nodes : Option (List KernelNode))
    (h : e'.kernels_ = update e.kernels_ c nodes) :
    e'.front = update e.front c (headKernel nodes) := by
  funext k
  unfold front
  rw [h]
  by_cases hk : k = c
  · subst hk
    simp
  · simp [update_of_ne hk]

/-- Replacing the kernels of one key keeps them well formed. -/
theorem kernelsOk_of_update (hok : KernelsOk e) (e' : OperatorEntry)
    (nodes : Option (List KernelNode)) (h : e'.kernels_ = update e.kernels_ c nodes)
    (hc : c ≠ .Undefined) (hne : nodes ≠ some [])
    (hv : ∀ l, nodes = some l → ∀ node, node ∈ l → node.kernel.kernel.isValid = true) :
    KernelsOk e' := by
  refine ⟨?_, ?_, ?_⟩
  · rw [h, update_of_ne (Ne.symm hc)]
    exact hok.undefined
  · intro k l hl
    rw [h] at hl
    by_cases hk : k = c
    · subst hk
      rw [update_self] at hl
      rintro rfl
      exact hne hl
    · rw [update_of_ne hk] at hl
      exact hok.nonempty k l hl
  · intro k l hl
    rw [h] at hl
    by_cases hk : k = c
    · subst hk
      rw [update_self] at hl
      exact hv l hl
    · rw [update_of_ne hk] at hl
      exact hok.valid k l hl

theorem not_math_of_not_shadows (hok : KernelsOk e) (hc : c ≠ .Undefined) (hs : ¬ Shadows fb e c) :
    ∀ j, j ∈ unrefreshedReaders c → (pickEntry fb (update e.front c none) j).2 ≠ .mathKernel := by
  intro j hj hmath
  have hok' : KernelsOk (e.without c) :=
    kernelsOk_of_update hok (e.without c) none rfl hc (by simp) (by simp)
  have hcompute := computeDispatchTableEntryWithDebug_eq fb (e.without c) hok' j
  rw [front_of_update e (e.without c) none rfl] at hcompute
  refine hs ⟨j, (pickEntry fb (update e.front c none) j).1, hj, ?_⟩
  rw [hcompute, ← hmath]
  rfl

theorem kernelKey_ne_undefined {dispatch_key : Option DispatchKey}
    (h : dispatch_key ≠ some .Undefined) : kernelKey dispatch_key ≠ .Undefined := by
  cases dispatch_key with
  | none => decide
  | some k =>
    intro hk
    exact h (congrArg some hk)

variable {a : AnnotatedKernel}

theorem pushKernel_kernelsOk (hok : KernelsOk e) (hc : c ≠ .Undefined)
    (ha : a.kernel.isValid = true) : KernelsOk (e.pushKernel c a) := by
  apply kernelsOk_of_update hok (e.pushKernel c a) _ rfl hc (by simp)
  intro l hl node hnode
  cases hl
  rcases mem_cons.mp hnode with rfl | hnode
  · exact ha
  · cases hk : e.kernels_ c with
    | none => simp [hk] at hnode
    | some nodes =>
      rw [hk] at hnode
      exact hok.valid c nodes hk node hnode

theorem pushKernel_current (h : Current fb e) (hc : c ≠ .Undefined) (ha : a.kernel.isValid = true)
    (hs : e.kernels_ c = none → ¬ Shadows fb e c) :
    ((e.pushKernel c a).updateDispatchTable_ fb c).2 = .ok () ∧
      Current fb ((e.pushKernel c a).updateDispatchTable_ fb c).1 := by
  apply current_of_update (v := some a) h (pushKernel_kernelsOk h.kernelsOk hc ha) hc
    (front_of_update e (e.pushKernel c a) _ rfl) rfl rfl
  cases hk : e.kernels_ c with
  | none => exact .inr (not_math_of_not_shadows h.kernelsOk hc (hs hk))
  | some nodes =>
    left
    rw [front_isSome e h.kernelsOk, hk]
    rfl

/-- Registering a kernel that shadows no slot keeps the table current. -/
theorem registerKernel_current (h : Current fb e)
    (dispatch_key : Option DispatchKey) (kernel : KernelFunction)
    (cpp_signature : Option CppSignature) (inferred : Option FunctionSchema) (debug : String)
    (hvalid : kernel.isValid = true) (hkey : dispatch_key ≠ some .Undefined)
    (hs : e.kernels_ (kernelKey dispatch_key) = none → ¬ Shadows fb e (kernelKey dispatch_key)) :
    Current fb (e.registerKernel fb dispatch_key kernel cpp_signature inferred debug).1 := by
  have hcur : Current fb (e.cacheSignature dispatch_key cpp_signature debug) :=
    h.congr rfl rfl rfl
  rcases registerKernel_cases fb e dispatch_key kernel cpp_signature inferred debug with
    ⟨_, _, _, _, _, hr⟩ | ⟨_, _, hr⟩ | ⟨_, hr⟩
  · rw [hr]
    exact h
  · rw [hr]
    exact hcur
  · rw [hr]
    cases dispatch_key with
    | none =>
      exact (updateDispatchTableFull_current (pushKernel_kernelsOk hcur.kernelsOk
        (by decide) hvalid)).2
    | some k =>
      exact (pushKernel_current hcur (kernelKey_ne_undefined hkey)
        (a := ⟨kernel, inferred, debug⟩) hvalid hs).2

/-- Taking back a kernel that shadows no slot keeps the table current. -/
theorem deregisterKernel_current (h : Current fb e) (dispatch_key : Option DispatchKey) (node : Nat)
    (hs : ∀ nodes, e.kernels_ (kernelKey dispatch_key) = some nodes →
      (∀ n, n ∈ nodes → n.address = node) → ¬ Shadows fb e (kernelKey dispatch_key)) :
    Current fb (e.deregisterKernel_ fb dispatch_key node).1 := by
  unfold deregisterKernel_
  cases hk : e.kernels_ (kernelKey dispatch_key) with
  | none => exact h
  | some nodes =>
    have hc : kernelKey dispatch_key ≠ .Undefined := by
      intro hu
      rw [hu, h.kernelsOk.undefined] at hk
      cases hk
    let rest := nodes.filter (fun n => n.address ≠ node)
    have hok : KernelsOk (e.eraseKernel (kernelKey dispatch_key) nodes node) := by
      apply kernelsOk_of_update h.kernelsOk _ (if rest.isEmpty then none else some rest)
        rfl hc
      · split
        · simp
        · rename_i hne
          simpa using hne
      · intro l hl n hn
        split at hl
        · cases hl
        · cases hl
          exact h.kernelsOk.valid _ nodes hk n (mem_filter.mp hn).1
    refine (current_of_update (v := headKernel (if rest.isEmpty then none else some rest))
      h hok hc (front_of_update e _ _ rfl) rfl rfl ?_).2
    cases hrest : rest with
    | nil =>
      right
      apply not_math_of_not_shadows h.kernelsOk hc (hs nodes hk _)
      intro n hn
      by_contra hne
      have hmem : n ∈ rest := mem_filter.mpr ⟨hn, by simpa using hne⟩
      rw [hrest] at hmem
      simp at hmem
    | cons n ns =>
      left
      rw [front_isSome e h.kernelsOk, hk]
      rfl

end OperatorEntry

end PyTorchCore.Dispatch
