import PyTorchCore.Functionalization.Eager
import PyTorchCore.Functionalization.ViewChain

/-!
# Functionalization keeps the meaning of a program

The base of a storage, with its pending updates applied, is the memory. The kernels keep this,
except for one: the kernel of an in-place view operator replays the views from the base without
applying the pending updates first.
-/

namespace PyTorchCore.Functionalization

open Lib Eager
open Function List

universe u

variable {V : Type u} [Inhabited V]

def Eager.memoryOf (e : Eager V) (w : Nat) : Tensor V :=
  e.memory (e.tensor w).storage

/-- A wrapper and its tensor. -/
structure Follows (s : State V) (e : Eager V) (w : Nat) : Prop where
  exist : (e.tensor w).storage < e.storages
  storage : (s.wrapper w).storage = (e.tensor w).storage
  valid : ValidChain (e.memoryOf w).elems.length (s.wrapper w).viewMetas
  sizes : (e.tensor w).sizes = chainSizes (e.memoryOf w).sizes (s.wrapper w).viewMetas
  sees : (e.tensor w).sees = chainSees (e.memoryOf w).elems.length (s.wrapper w).viewMetas
  generation : (s.wrapper w).generation ≤ (s.aliasOf w).generation
  fresh : (s.wrapper w).generation = (s.aliasOf w).generation → (s.wrapper w).value = e.read w

/-- The storages and the memories, the wrappers and the tensors. -/
structure Agrees (s : State V) (e : Eager V) : Prop where
  storages : s.storages = e.storages
  wrappers : s.wrappers = e.tensors
  memory : ∀ k, k < e.storages → (s.storage k).applyUpdates.base = e.memory k
  follows : ∀ w, w < e.tensors → Follows s e w

section Sync

variable {s : State V} {e : Eager V} {w : Nat}

theorem Follows.read_eq (h : Follows s e w) :
    State.replayViews (e.memoryOf w) (s.wrapper w).viewMetas = e.read w := by
  rw [replayViews_eq h.valid, Eager.read, ← h.sizes, ← h.sees]
  rfl

theorem Agrees.value_eq (h : Agrees s e) (hw : w < e.tensors) (hfresh : s.isUpToDate w = true) :
    (s.wrapper w).value = e.read w :=
  (h.follows w hw).fresh (of_decide_eq_true hfresh)

theorem sync_eq (h : s.isUpToDate w = false) : s.sync w = { s with
      storage := update s.storage (s.wrapper w).storage (s.aliasOf w).applyUpdates
      wrapper := update s.wrapper w { s.wrapper w with
        value := State.replayViews (s.aliasOf w).applyUpdates.base (s.wrapper w).viewMetas
        generation := (s.aliasOf w).generation } } := by
  have halias : (s.applyUpdates w).aliasOf w = (s.aliasOf w).applyUpdates :=
    update_self ..
  rw [State.sync, if_neg (by rw [h]; exact Bool.false_ne_true), State.regenerateFromBase, halias]
  rfl

/-- A sync changes only the value and the generation of its wrapper. -/
theorem sync_frame (s : State V) (w : Nat) :
    (s.sync w).storages = s.storages ∧ (s.sync w).wrappers = s.wrappers ∧
      (∀ k, ((s.sync w).storage k).generation = (s.storage k).generation ∧
        ((s.sync w).storage k).applyUpdates.base = (s.storage k).applyUpdates.base) ∧
      ∀ x, ((s.sync w).wrapper x).viewMetas = (s.wrapper x).viewMetas ∧
        ((s.sync w).wrapper x).storage = (s.wrapper x).storage ∧
        (x ≠ w → (s.sync w).wrapper x = s.wrapper x) := by
  cases hfresh : s.isUpToDate w with
  | true =>
    have hsame : s.sync w = s := if_pos hfresh
    rw [hsame]
    exact ⟨rfl, rfl, fun _ => ⟨rfl, rfl⟩, fun _ => ⟨rfl, rfl, fun _ => rfl⟩⟩
  | false =>
    rw [sync_eq hfresh]
    refine ⟨rfl, rfl, fun k => ?_, fun x => ?_⟩
    · by_cases hk : k = (s.wrapper w).storage
      · rw [hk]
        simp only [update_self]
        exact ⟨rfl, rfl⟩
      · simp only [update_of_ne hk]
        exact ⟨trivial, trivial⟩
    · by_cases hx : x = w
      · rw [hx]
        simp only [update_self]
        exact ⟨trivial, trivial, fun hne => absurd rfl hne⟩
      · simp only [update_of_ne hx]
        exact ⟨trivial, trivial, fun _ => trivial⟩

theorem sync_generation (s : State V) (w x : Nat) :
    ((s.sync w).aliasOf x).generation = (s.aliasOf x).generation := by
  obtain ⟨_, _, hstorage, hwrapper⟩ := sync_frame s w
  rw [State.aliasOf, (hwrapper x).2.1]
  exact (hstorage _).1

theorem isUpToDate_sync (s : State V) (w : Nat) : (s.sync w).isUpToDate w = true := by
  cases hfresh : s.isUpToDate w with
  | true =>
    have hsame : s.sync w = s := if_pos hfresh
    rw [hsame]
    exact hfresh
  | false =>
    refine decide_eq_true ?_
    rw [sync_generation, sync_eq hfresh]
    simp only [update_self]

theorem isUpToDate_sync_other (hx : s.isUpToDate w = true) (x : Nat) :
    (s.sync x).isUpToDate w = true := by
  by_cases heq : w = x
  · rw [heq]
    exact isUpToDate_sync s x
  · obtain ⟨_, _, _, hwrapper⟩ := sync_frame s x
    rw [State.isUpToDate, sync_generation, (hwrapper w).2.2 heq]
    exact hx

/-- A sync keeps wrappers and tensors in agreement. -/
theorem sync_agrees (h : Agrees s e) (hw : w < e.tensors) : Agrees (s.sync w) e := by
  obtain ⟨hstorages, hwrappers, hstorage, hwrapper⟩ := sync_frame s w
  refine ⟨hstorages.trans h.storages, hwrappers.trans h.wrappers,
    fun k hk => (hstorage k).2.trans (h.memory k hk), fun x hx => ?_⟩
  obtain ⟨hmetas, hsame, hother⟩ := hwrapper x
  have hx' := h.follows x hx
  refine ⟨hx'.exist, hsame.trans hx'.storage, ?_, ?_, ?_, ?_, ?_⟩
  · rw [hmetas]
    exact hx'.valid
  · rw [hmetas]
    exact hx'.sizes
  · rw [hmetas]
    exact hx'.sees
  · rw [sync_generation]
    by_cases heq : x = w
    · rw [heq, ← sync_generation s w w, of_decide_eq_true (isUpToDate_sync s w)]
    · rw [hother heq]
      exact hx'.generation
  · rw [sync_generation]
    by_cases heq : x = w
    · subst heq
      cases hfresh : s.isUpToDate x with
      | true =>
        intro _
        have hsync : s.sync x = s := if_pos hfresh
        rw [hsync]
        exact h.value_eq hx hfresh
      | false =>
        intro _
        have hvalue : ((s.sync x).wrapper x).value =
            State.replayViews (s.aliasOf x).applyUpdates.base (s.wrapper x).viewMetas := by
          rw [sync_eq hfresh]
          simp only [update_self]
        have hbase : (s.aliasOf x).applyUpdates.base = e.memoryOf x := by
          rw [State.aliasOf, hx'.storage]
          exact h.memory _ hx'.exist
        rw [hvalue, hbase]
        exact hx'.read_eq
    · rw [hother heq]
      exact hx'.fresh

theorem syncAll_agrees {ws : List Nat} (h : Agrees s e) (hws : ∀ w ∈ ws, w < e.tensors) :
    Agrees (s.syncAll ws) e ∧ (∀ w ∈ ws, (s.syncAll ws).isUpToDate w = true) ∧
      (∀ w, s.isUpToDate w = true → (s.syncAll ws).isUpToDate w = true) ∧
      ∀ w, ((s.syncAll ws).wrapper w).viewMetas = (s.wrapper w).viewMetas := by
  induction ws generalizing s with
  | nil => exact ⟨h, fun w hw => absurd hw not_mem_nil, fun _ hw => hw, fun _ => rfl⟩
  | cons x ws ih =>
    have hx := sync_agrees h (hws x mem_cons_self)
    obtain ⟨hagrees, hall, hkept, hmetas⟩ :=
      ih hx (fun w hw => hws w (mem_cons_of_mem _ hw))
    refine ⟨hagrees, fun w hw => ?_, fun w hw => hkept w (isUpToDate_sync_other hw x),
      fun w => (hmetas w).trans ((sync_frame s x).2.2.2 w).1⟩
    rcases mem_cons.mp hw with rfl | hlater
    · exact hkept _ (isUpToDate_sync s _)
    · exact hall w hlater

end Sync

section Operators

variable {s t : State V} {e f : Eager V} {w : Nat}

/-- What a wrapper that follows its tensor depends on. -/
theorem Follows.congr (h : Follows s e w) (htensor : f.tensor w = e.tensor w)
    (hmemory : f.memoryOf w = e.memoryOf w) (hstorages : e.storages ≤ f.storages)
    (hwrapper : t.wrapper w = s.wrapper w) (halias : t.aliasOf w = s.aliasOf w) :
    Follows t f w := by
  have hread : f.read w = e.read w := by
    rw [memoryOf, memoryOf] at hmemory
    rw [Eager.read, Eager.read, hmemory, htensor]
  refine ⟨?_, ?_, ?_, ?_, ?_, ?_, ?_⟩
  · rw [htensor]
    exact Nat.lt_of_lt_of_le h.exist hstorages
  · rw [hwrapper, htensor]
    exact h.storage
  · rw [hmemory, hwrapper]
    exact h.valid
  · rw [hmemory, hwrapper, htensor]
    exact h.sizes
  · rw [hmemory, hwrapper, htensor]
    exact h.sees
  · rw [hwrapper, halias]
    exact h.generation
  · rw [hwrapper, halias, hread]
    exact h.fresh

theorem mapTo_congr {α : Type} {β : Type u} {f g : α → β} {arg : IValue α}
    (h : ∀ x ∈ arg.toList, f x = g x) : arg.mapTo f = arg.mapTo g := by
  cases arg with
  | tensor x => exact congrArg IValue.tensor (h x mem_cons_self)
  | tensorList xs => exact congrArg IValue.tensorList (map_congr_left h)

variable {arguments : List (IValue Nat)}

theorem unwrapArguments_agrees (h : Agrees s e)
    (hargs : ∀ w ∈ arguments.flatMap IValue.toList, w < e.tensors) :
    Agrees (s.unwrapArguments arguments).1 e ∧
      (s.unwrapArguments arguments).2 = arguments.map (IValue.mapTo e.read) := by
  induction arguments generalizing s with
  | nil => exact ⟨h, rfl⟩
  | cons arg rest ih =>
    have harg : ∀ w ∈ arg.toList, w < e.tensors :=
      fun w hw => hargs w (mem_append_left _ hw)
    obtain ⟨hsynced, hfresh, _, _⟩ := syncAll_agrees h harg
    obtain ⟨hrest, hvalues⟩ := ih hsynced (fun w hw => hargs w (mem_append_right _ hw))
    refine ⟨hrest, cons_eq_cons.mpr ⟨?_, hvalues⟩⟩
    exact mapTo_congr (fun w hw => hsynced.value_eq (harg w hw) (hfresh w hw))

/-- A new wrapper agrees with a new tensor. -/
theorem toFunctionalTensor_agrees (h : Agrees s e) (x : Tensor V) :
    Agrees (s.toFunctionalTensor x) (e.allocate x) := by
  refine ⟨congrArg Nat.succ h.storages, congrArg Nat.succ h.wrappers, fun k hk => ?_,
    fun w hw => ?_⟩
  · show ((update s.storage s.storages _ k) : Alias V).applyUpdates.base =
      update e.memory e.storages x k
    rw [h.storages]
    by_cases heq : k = e.storages
    · rw [heq, update_self, update_self]
      rfl
    · rw [update_of_ne heq, update_of_ne heq]
      exact h.memory k (Nat.lt_of_le_of_ne (Nat.le_of_lt_succ hk) heq)
  · by_cases heq : w = e.tensors
    · subst heq
      have htensor : (e.allocate x).tensor e.tensors =
          { storage := e.storages, sizes := x.sizes, sees := List.range x.elems.length } :=
        update_self ..
      have hwrapper : (s.toFunctionalTensor x).wrapper e.tensors =
          { value := x, viewMetas := [], generation := 0, storage := s.storages } := by
        rw [← h.wrappers]
        exact update_self ..
      have hmemory : (e.allocate x).memoryOf e.tensors = x := by
        rw [memoryOf, htensor]
        exact update_self ..
      refine ⟨?_, ?_, ?_, ?_, ?_, ?_, ?_⟩
      · rw [htensor]
        exact Nat.lt_succ_self _
      · rw [hwrapper, htensor]
        exact h.storages
      · rw [hwrapper]
        trivial
      · rw [htensor, hwrapper, hmemory]
        rfl
      · rw [htensor, hwrapper, hmemory]
        rfl
      · rw [hwrapper]
        exact Nat.zero_le _
      · intro _
        have hread : (e.allocate x).read e.tensors = x := by
          rw [memoryOf] at hmemory
          rw [Eager.read, hmemory, htensor]
          rw [select_range]
        rw [hwrapper, hread]
    · have hold : w < e.tensors := Nat.lt_of_le_of_ne (Nat.le_of_lt_succ hw) heq
      have hw' := h.follows w hold
      have hstorage : (e.tensor w).storage ≠ e.storages := Nat.ne_of_lt hw'.exist
      have htensor : (e.allocate x).tensor w = e.tensor w := update_of_ne heq _ _
      have hwrapper : (s.toFunctionalTensor x).wrapper w = s.wrapper w :=
        update_of_ne (by rw [h.wrappers]; exact heq) _ _
      refine hw'.congr htensor ?_ (Nat.le_succ _) hwrapper ?_
      · rw [memoryOf, htensor]
        exact update_of_ne hstorage _ _
      · rw [State.aliasOf, hwrapper]
        refine update_of_ne ?_ _ _
        rw [hw'.storage, h.storages]
        exact hstorage

theorem wrapAll_agrees {results : List (Tensor V)} (h : Agrees s e) :
    Agrees (results.foldl (fun s x => s.toFunctionalTensor x) s)
      (results.foldl (fun e x => e.allocate x) e) := by
  induction results generalizing s e with
  | nil => exact h
  | cons x results ih => exact ih (toFunctionalTensor_agrees h x)

theorem functionalizeFallback_agrees (h : Agrees s e)
    (op : List (IValue (Tensor V)) → List (IValue (Tensor V)))
    (hargs : ∀ w ∈ arguments.flatMap IValue.toList, w < e.tensors) :
    Agrees (s.functionalizeFallback op arguments) (Instr.eager e (.call op arguments)) := by
  obtain ⟨hagrees, hvalues⟩ := unwrapArguments_agrees h hargs
  rw [State.functionalizeFallback, Instr.eager, ← hvalues]
  exact wrapAll_agrees hagrees

end Operators

section Views

variable {s : State V} {e : Eager V} {base self : Nat}

theorem Follows.snoc (h : Follows s e base) {m : ViewMeta}
    (hm : InRange (e.tensor base).sees.length m.view.sees) :
    ValidChain (e.memoryOf base).elems.length ((s.wrapper base).viewMetas ++ [m]) ∧
      (e.viewOf base m.view).sizes =
        chainSizes (e.memoryOf base).sizes ((s.wrapper base).viewMetas ++ [m]) ∧
      (e.viewOf base m.view).sees =
        chainSees (e.memoryOf base).elems.length ((s.wrapper base).viewMetas ++ [m]) := by
  rw [h.sees] at hm
  refine ⟨validChain_snoc h.valid hm, (chainSizes_snoc _ _ m).symm, ?_⟩
  rw [chainSees_snoc hm, Eager.viewOf, h.sees]

variable {view : View}

theorem apply_read (e : Eager V)
    (hview : InRange (e.tensor base).sees.length view.sees) :
    view.apply (e.read base) =
      { sizes := view.sizes
        elems := select (e.memoryOf base).elems (e.viewOf base view).sees } := by
  rw [View.apply, Eager.read, Eager.viewOf]
  rw [select_select hview]
  rfl

/-- An output of a view operator. Its value is used only where that of its base is up to date. -/
theorem createView_agrees (h : Agrees s e) (hbase : base < e.tensors) {m : ViewMeta} {outIdx : Nat}
    (hindex : (if outIdx ≠ 0 then m.toOutIdx outIdx else m).view = view)
    (hview : InRange (e.tensor base).sees.length view.sees) :
    Agrees (s.createFunctionalTensorWithViewMeta (view.apply (s.wrapper base).value) base m outIdx)
      (e.addView base view) := by
  have hb := h.follows base hbase
  obtain ⟨k, hk⟩ : ∃ k, k = if outIdx ≠ 0 then m.toOutIdx outIdx else m := ⟨_, rfl⟩
  rw [← hk] at hindex
  subst hindex
  obtain ⟨hvalid, hsizes, hsees⟩ := hb.snoc hview
  refine ⟨h.storages, congrArg Nat.succ h.wrappers, h.memory, fun w hw => ?_⟩
  by_cases heq : w = e.tensors
  · subst heq
    have htensor : (e.addView base k.view).tensor e.tensors = e.viewOf base k.view :=
      update_self ..
    have hwrapper : (s.createFunctionalTensorWithViewMeta
      (k.view.apply (s.wrapper base).value) base m
        outIdx).wrapper e.tensors =
        { value := k.view.apply (s.wrapper base).value
          viewMetas := (s.wrapper base).viewMetas ++ [k]
          generation := 0
          storage := (s.wrapper base).storage } := by
      rw [← h.wrappers, hk]
      exact update_self ..
    have hmemory : (e.addView base k.view).memoryOf e.tensors = e.memoryOf base := by
      rw [memoryOf, htensor]
      rfl
    refine ⟨?_, ?_, ?_, ?_, ?_, ?_, ?_⟩
    · rw [htensor]
      exact hb.exist
    · rw [hwrapper, htensor]
      exact hb.storage
    · rw [hwrapper, hmemory]
      exact hvalid
    · rw [htensor, hwrapper, hmemory]
      exact hsizes
    · rw [htensor, hwrapper, hmemory]
      exact hsees
    · rw [hwrapper]
      exact Nat.zero_le _
    · rw [State.aliasOf, hwrapper]
      intro hzero
      have hvalue : (s.wrapper base).value = e.read base := by
        refine hb.fresh (Nat.le_antisymm hb.generation ?_)
        have hgeneration : 0 = (s.aliasOf base).generation := hzero
        rw [← hgeneration]
        exact Nat.zero_le _
      rw [hvalue, apply_read e hview, Eager.read, htensor]
      rfl
  · have hold : w < e.tensors := Nat.lt_of_le_of_ne (Nat.le_of_lt_succ hw) heq
    have htensor : (e.addView base k.view).tensor w = e.tensor w := update_of_ne heq _ _
    have hwrapper : (s.createFunctionalTensorWithViewMeta
      (k.view.apply (s.wrapper base).value) base m
        outIdx).wrapper w = s.wrapper w :=
      update_of_ne (by rw [h.wrappers]; exact heq) _ _
    refine (h.follows w hold).congr htensor ?_ (Nat.le_refl _) hwrapper ?_
    · rw [memoryOf, htensor]
      rfl
    · rw [State.aliasOf, hwrapper]
      rfl

theorem view_outIdx (op : ViewOp) (i : Nat) :
    (if i ≠ 0 then ({ op := op, outIndex := 0 } : ViewMeta).toOutIdx i
      else { op := op, outIndex := 0 }).view = op.output i := by
  by_cases hi : i ≠ 0
  · rw [if_pos hi, ViewMeta.toOutIdx, if_neg hi]
    rfl
  · rw [if_neg hi, not_not.mp hi]
    rfl

/-- Wrappers for the outputs of a view operator agree with the views. -/
theorem createViews_agrees (op : ViewOp) (value : Tensor V) {views : List View} {i : Nat}
    (h : Agrees s e) (hbase : base < e.tensors) (hvalue : (s.wrapper base).value = value)
    (hviews : ∀ view ∈ views, InRange (e.tensor base).sees.length view.sees)
    (hop : ∀ j (hj : j < views.length), op.output (i + j) = views[j]) :
    Agrees (((views.map (fun view => view.apply value)).zipIdx i).foldl (fun s (viewToWrap, i) =>
        s.createFunctionalTensorWithViewMeta viewToWrap base { op := op, outIndex := 0 } i) s)
      (views.foldl (fun e output => e.addView base output) e) := by
  induction views generalizing s e i with
  | nil => exact h
  | cons view views ih =>
    have hindex : (if i ≠ 0 then ({ op := op, outIndex := 0 } : ViewMeta).toOutIdx i
        else { op := op, outIndex := 0 }).view = view :=
      (view_outIdx op i).trans (hop 0 (Nat.succ_pos _))
    have hnext := createView_agrees h hbase hindex (hviews view mem_cons_self)
    have hwrapper : ∀ x : Tensor V, (s.createFunctionalTensorWithViewMeta x base
        { op := op, outIndex := 0 } i).wrapper base = s.wrapper base :=
      fun x => update_of_ne (by rw [h.wrappers]; exact Nat.ne_of_lt hbase) _ _
    have htensor : (e.addView base view).tensor base = e.tensor base :=
      update_of_ne (Nat.ne_of_lt hbase) _ _
    rw [hvalue] at hnext
    refine ih hnext (Nat.lt_succ_of_lt hbase) ?_ (fun k hk => ?_) (fun j hj => ?_)
    · rw [hwrapper]
      exact hvalue
    · rw [htensor]
      exact hviews k (mem_cons_of_mem _ hk)
    · have hnumber := hop (j + 1) (Nat.succ_lt_succ hj)
      rw [Nat.add_assoc, Nat.add_comm 1 j]
      exact hnumber

theorem viewKernel_agrees (h : Agrees s e) (hbase : base < e.tensors) {op : ViewOp}
    (hop : ∀ view ∈ op, InRange (e.tensor base).sees.length view.sees) :
    Agrees (s.viewKernel op base) (Instr.eager e (.view op base)) := by
  refine createViews_agrees op _ h hbase rfl hop (fun j hj => ?_)
  rw [Nat.zero_add, ViewOp.output, getD_eq_getElem _ _ hj]

theorem inplaceViewKernel_agrees (h : Agrees s e) (hself : self < e.tensors)
    (hview : InRange (e.tensor self).sees.length view.sees)
    (hupdates : (s.aliasOf self).updates = []) :
    Agrees (s.inplaceViewKernel view self) (Instr.eager e (.inplaceView view self)) := by
  have hs := h.follows self hself
  obtain ⟨m, hm⟩ : ∃ m : ViewMeta, m = { op := [view], outIndex := 0 } := ⟨_, rfl⟩
  have hmview : m.view = view := by
    rw [hm]
    rfl
  obtain ⟨hvalid, hsizes, hsees⟩ := hs.snoc (hmview.symm ▸ hview)
  rw [hmview] at hsizes hsees
  have hbase : (s.aliasOf self).base = e.memoryOf self := by
    have hmemory := h.memory _ hs.exist
    rw [← hs.storage] at hmemory
    have happlied : (s.aliasOf self).applyUpdates.base = (s.aliasOf self).base := by
      rw [Alias.applyUpdates, hupdates]
      rfl
    rw [← happlied, memoryOf, ← hs.storage]
    exact hmemory
  have hstep : s.inplaceViewKernel view self = s.setWrapper self { s.wrapper self with
      value := State.replayViews (s.aliasOf self).base ((s.wrapper self).viewMetas ++ [m])
      viewMetas := (s.wrapper self).viewMetas ++ [m]
      generation := (s.aliasOf self).generation } := by
    rw [State.inplaceViewKernel, State.mutateViewMeta, State.regenerateFromBase, ← hm]
    simp [State.setWrapper, State.aliasOf]
  rw [hstep]
  refine ⟨h.storages, h.wrappers, h.memory, fun w hw => ?_⟩
  by_cases heq : w = self
  · subst heq
    have htensor : (Instr.eager e (.inplaceView view w)).tensor w = e.viewOf w view :=
      update_self ..
    have hmemory : (Instr.eager e (.inplaceView view w)).memoryOf w = e.memoryOf w := by
      rw [memoryOf, htensor]
      rfl
    have hread : (Instr.eager e (.inplaceView view w)).read w =
        State.replayViews (e.memoryOf w) ((s.wrapper w).viewMetas ++ [m]) := by
      rw [replayViews_eq hvalid, ← hsizes, ← hsees, Eager.read, htensor]
      rfl
    refine ⟨?_, ?_, ?_, ?_, ?_, ?_, ?_⟩
    · rw [htensor]
      exact hs.exist
    · rw [htensor]
      simp only [State.setWrapper, update_self]
      exact hs.storage
    · rw [hmemory]
      simp only [State.setWrapper, update_self]
      exact hvalid
    · rw [htensor, hmemory]
      simp only [State.setWrapper, update_self]
      exact hsizes
    · rw [htensor, hmemory]
      simp only [State.setWrapper, update_self]
      exact hsees
    · simp only [State.setWrapper, State.aliasOf, update_self]
      exact Nat.le_refl _
    · intro _
      rw [hread]
      simp only [State.setWrapper, update_self]
      rw [hbase]
  · have htensor : (Instr.eager e (.inplaceView view self)).tensor w = e.tensor w :=
      update_of_ne heq _ _
    refine (h.follows w hw).congr htensor ?_ (Nat.le_refl _) (update_of_ne heq _ _) ?_
    · rw [memoryOf, htensor]
      rfl
    · rw [State.aliasOf]
      simp only [State.setWrapper, update_of_ne heq]
      rfl

end Views

section Updates

variable {s : State V} {e : Eager V} {self : Nat} {v : Tensor V}

omit [Inhabited V] in
theorem commit_eq (s : State V) (self : Nat) (v : Tensor V) :
    (s.replace self v).commitUpdate self = { s with
      storage := update s.storage (s.wrapper self).storage
        ((s.aliasOf self).addUpdate v (s.wrapper self).viewMetas)
      wrapper := update s.wrapper self { s.wrapper self with
        value := v
        generation := (s.aliasOf self).generation + 1 } } := by
  simp only [State.replace, State.commitUpdate, State.setWrapper, State.setStorage, State.aliasOf,
    update_self, update_idem]
  rfl

theorem applyUpdates_addUpdate (a : Alias V) (metas : List ViewMeta) :
    (a.addUpdate v metas).applyUpdates.base =
      applyUpdate { newVal := v, viewMetas := metas } a.applyUpdates.base :=
  foldl_concat ..

theorem commit_agrees (h : Agrees s e) (hself : self < e.tensors)
    (hsizes : v.sizes = (e.tensor self).sizes)
    (hlength : v.elems.length = (e.tensor self).sees.length)
    (hnodup : ∀ m ∈ (s.wrapper self).viewMetas, m.view.sees.Nodup) :
    Agrees ((s.replace self v).commitUpdate self) (e.write self v) := by
  have hs := h.follows self hself
  have hkey : (s.wrapper self).storage = (e.tensor self).storage := hs.storage
  have hsees : (e.tensor self).sees.Nodup := by
    rw [hs.sees]
    exact nodup_chainSees hs.valid hnodup
  have hrange : InRange (e.memoryOf self).elems.length (e.tensor self).sees := by
    rw [hs.sees]
    exact inRange_chainSees hs.valid
  have hmemory : (e.write self v).memory (e.tensor self).storage = { e.memoryOf self with
        elems := overwrite (e.memoryOf self).elems (e.tensor self).sees v.elems } :=
    update_self ..
  have hother : ∀ k, k ≠ (e.tensor self).storage → (e.write self v).memory k = e.memory k :=
    fun k hk => update_of_ne hk _ _
  rw [commit_eq]
  refine ⟨h.storages, h.wrappers, fun k hk => ?_, fun w hw => ?_⟩
  · by_cases heq : k = (e.tensor self).storage
    · rw [heq, hmemory]
      simp only [hkey, update_self]
      rw [applyUpdates_addUpdate]
      have hbase : (s.aliasOf self).applyUpdates.base = e.memoryOf self := by
        rw [State.aliasOf, hkey]
        exact h.memory _ hs.exist
      rw [hbase, applyUpdate_eq hs.valid hnodup (by rw [← hs.sees]; exact hlength)
        (by rw [← hs.sizes]; exact hsizes), ← hs.sees]
    · rw [hother k heq]
      simp only [hkey, update_of_ne heq]
      exact h.memory k hk
  · have hw' := h.follows w hw
    have htensor : (e.write self v).tensor w = e.tensor w := rfl
    by_cases hstorage : (e.tensor w).storage = (e.tensor self).storage
    · have hmemoryOf : (e.write self v).memoryOf w = { e.memoryOf w with
          elems := overwrite (e.memoryOf w).elems (e.tensor self).sees v.elems } := by
        rw [memoryOf, memoryOf, htensor, hstorage]
        exact hmemory
      have hgeneration : (s.aliasOf w).generation = (s.aliasOf self).generation := by
        rw [State.aliasOf, State.aliasOf, hw'.storage, hs.storage, hstorage]
      by_cases heq : w = self
      · subst heq
        refine ⟨hw'.exist, ?_, ?_, ?_, ?_, ?_, ?_⟩
        · simp only [update_self]
          exact hw'.storage
        · rw [hmemoryOf, length_overwrite]
          simp only [update_self]
          exact hw'.valid
        · rw [hmemoryOf]
          simp only [update_self]
          exact hw'.sizes
        · rw [hmemoryOf, length_overwrite]
          simp only [update_self]
          exact hw'.sees
        · simp only [State.aliasOf, update_self]
          exact Nat.le_refl _
        · intro _
          have hread : (e.write w v).read w = v := by
            have helems : select (overwrite (e.memoryOf w).elems (e.tensor w).sees v.elems)
                (e.tensor w).sees = v.elems := select_overwrite hsees hrange hlength
            rw [memoryOf] at hmemoryOf
            rw [Eager.read, hmemoryOf, htensor]
            rw [helems, ← hsizes]
          rw [hread]
          simp only [update_self]
      · have hkeyOther : (s.wrapper w).storage = (s.wrapper self).storage := by
          rw [hw'.storage, hkey, hstorage]
        refine ⟨hw'.exist, ?_, ?_, ?_, ?_, ?_, ?_⟩
        · simp only [update_of_ne heq]
          exact hw'.storage
        · rw [hmemoryOf, length_overwrite]
          simp only [update_of_ne heq]
          exact hw'.valid
        · rw [hmemoryOf]
          simp only [update_of_ne heq]
          exact hw'.sizes
        · rw [hmemoryOf, length_overwrite]
          simp only [update_of_ne heq]
          exact hw'.sees
        · simp only [State.aliasOf, update_of_ne heq, hkeyOther, update_self]
          exact Nat.le_succ_of_le (hgeneration ▸ hw'.generation)
        · simp only [State.aliasOf, update_of_ne heq, hkeyOther, update_self]
          intro hfresh
          have hbound := hw'.generation
          rw [hgeneration] at hbound
          exact absurd (hfresh ▸ hbound) (Nat.not_succ_le_self _)
    · have hne : w ≠ self := fun heq => hstorage (by rw [heq])
      refine hw'.congr htensor ?_ (Nat.le_refl _) (update_of_ne hne _ _) ?_
      · rw [memoryOf, htensor]
        exact hother _ hstorage
      · simp only [State.aliasOf, update_of_ne hne]
        refine update_of_ne ?_ _ _
        rw [hw'.storage, hkey]
        exact hstorage

theorem inplaceKernel_agrees (h : Agrees s e)
    (op : Tensor V → List (IValue (Tensor V)) → Tensor V) {args : List (IValue Nat)}
    (hargs : ∀ w ∈ self :: args.flatMap IValue.toList, w < e.tensors)
    (hsizes : (Instr.written e op self args).sizes = (e.tensor self).sizes)
    (hlength : (Instr.written e op self args).elems.length = (e.tensor self).sees.length)
    (hnodup : ∀ m ∈ (s.wrapper self).viewMetas, m.view.sees.Nodup) :
    Agrees (s.inplaceKernel op self args) (Instr.eager e (.inplace op self args)) := by
  obtain ⟨hsynced, hfresh, _, hmetas⟩ := syncAll_agrees h hargs
  have hself : self < e.tensors := hargs self mem_cons_self
  have hvalue := hsynced.value_eq hself (hfresh self mem_cons_self)
  have hvalues : args.map (s.syncAll (self :: args.flatMap IValue.toList)).fromFunctionalTensor =
      args.map (IValue.mapTo e.read) := by
    refine map_congr_left (fun arg harg => mapTo_congr (fun w hw => ?_))
    have hin : w ∈ self :: args.flatMap IValue.toList :=
      mem_cons_of_mem _ (mem_flatMap.mpr ⟨arg, harg, hw⟩)
    exact hsynced.value_eq (hargs w hin) (hfresh w hin)
  have hstep := commit_agrees hsynced hself hsizes hlength (by rw [hmetas]; exact hnodup)
  rw [State.inplaceKernel]
  simp only [hvalue, hvalues]
  exact hstep

end Updates

section Programs

variable {s : State V} {e : Eager V}

theorem step_agrees {i : Instr V} (h : Agrees s e) (hlegal : i.Legal e)
    (hreplayable : i.Replayable s) : Agrees (i.functionalized s) (i.eager e) := by
  obtain ⟨hoperands, hkind⟩ := hlegal
  cases i with
  | call op arguments => exact functionalizeFallback_agrees h op hoperands
  | view op base => exact viewKernel_agrees h (hoperands base mem_cons_self) hkind
  | inplace op self args =>
    exact inplaceKernel_agrees h op hoperands hkind.1 hkind.2 hreplayable
  | inplaceView newView self =>
    exact inplaceViewKernel_agrees h (hoperands self mem_cons_self) hkind hreplayable
  | sync w => exact sync_agrees h (hoperands w mem_cons_self)

theorem agrees_empty : Agrees (State.empty : State V) Eager.empty :=
  ⟨rfl, rfl, fun _ hk => absurd hk (Nat.not_lt_zero _), fun _ hw => absurd hw (Nat.not_lt_zero _)⟩

theorem Agrees.preserved (h : Agrees s e) : Preserved s e :=
  ⟨h.wrappers, fun w hw => (sync_agrees h hw).value_eq hw (isUpToDate_sync s w), h.memory⟩

/-- A legal program has the same meaning on wrappers, in every state that it reaches, if every
step of it can be replayed. -/
theorem functionalization_preserves (program : List (Instr V))
    (h : (runs V).Admissible (fun (s, e) i => i.Legal e ∧ i.Replayable s) (runs V).init program)
    (before after : List (Instr V)) (hprogram : program = before ++ after) :
    Preserved ((runs V).exec (runs V).init before).1 ((runs V).exec (runs V).init before).2 := by
  rw [hprogram] at h
  have hbefore := ((runs V).admissible_append _ _ before after).mp h
  exact ((runs V).exec_invariant _ (fun (s, e) => Agrees s e)
    (fun _ _ hagrees hok => step_agrees hagrees hok.1 hok.2) before _ agrees_empty
    hbefore.1).preserved

def addTo (n : Int) (t : Tensor Int) (_ : List (IValue (Tensor Int))) : Tensor Int :=
  { t with elems := t.elems.map (· + n) }

/-- A matrix that is transposed in place before it is written to, its rows, and a list of
them that is joined. -/
def rowsProgram : List (Instr Int) :=
  [.call (fun _ => [.tensor { sizes := [2, 2], elems := [1, 2, 3, 4] }]) [],
    .inplaceView { sizes := [2, 2], sees := [0, 2, 1, 3] } 0,
    .view [{ sizes := [2], sees := [0, 1] }, { sizes := [2], sees := [2, 3] }] 0,
    .inplace (addTo 10) 2 [.tensor 1],
    .view [{ sizes := [1], sees := [1] }] 2,
    .inplace (addTo 100) 0 [],
    .inplace (addTo 1000) 3 [.tensorList [0, 1]],
    .sync 1,
    .call (fun _ => []) [.tensorList [1, 2], .tensor 3]]

theorem functionalization_preserves_rowsProgram :
    Preserved ((runs Int).exec (runs Int).init rowsProgram).1
      ((runs Int).exec (runs Int).init rowsProgram).2 :=
  functionalization_preserves rowsProgram (by decide) rowsProgram [] (append_nil _).symm

/-- A tensor is written to and then transposed in place. -/
def pendingUpdate : List (Instr Int) :=
  [.call (fun _ => [.tensor { sizes := [1, 2], elems := [1, 2] }]) [],
    .inplace (addTo 1) 0 [],
    .inplaceView { sizes := [2, 1], sees := [0, 1] } 0]

/-- The update that was pending when a tensor was transposed in place is not in its value. -/
theorem pendingUpdate_lost : ¬ ∀ program : List (Instr Int),
    (runs Int).Admissible (fun (_, e) i => i.Legal e) (runs Int).init program →
    Preserved ((runs Int).exec (runs Int).init program).1
      ((runs Int).exec (runs Int).init program).2 := by
  intro h
  have hvalue := (h pendingUpdate (by decide)).2.1 0 (by decide)
  exact absurd hvalue (by decide)

end Programs

end PyTorchCore.Functionalization
