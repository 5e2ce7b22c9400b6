import Mathlib.Data.List.Forall2
import PyTorchCore.Lib.SizedBytes
import PyTorchCore.Pickle.Tensors

/-!
# The unpickler follows the pickler of tensors

`Follows` relates the pickler to the unpickler that has run what the pickler has written, for the
list `ds` of the tensors that have written their storages in the end.
-/

namespace PyTorchCore.Pickle
namespace Tensors

open Option Function List

section Pickling

variable {mem : Memory} {p p' p'' : Pickler} {t : Tensor}

/-- Strings, globals and numbers have been pushed, but no tensor. -/
structure Keeps (p p' : Pickler) : Prop where
  written : p.written <+: p'.written
  tensorData : p'.tensorData = p.tensorData
  storages : ∀ a, p'.memoized (.storage a) = p.memoized (.storage a)
  tensors : ∀ ptr, p'.memoized (.ivalue ptr) = p.memoized (.ivalue ptr)

theorem Keeps.trans (h : Keeps p p') (h' : Keeps p' p'') : Keeps p p'' where
  written := h.written.trans h'.written
  tensorData := h'.tensorData.trans h.tensorData
  storages := fun a => (h'.storages a).trans (h.storages a)
  tensors := fun ptr => (h'.tensors ptr).trans (h.tensors ptr)

theorem keeps_push (p : Pickler) (i : Instruction) : Keeps p (p.push i) :=
  ⟨prefix_append _ _, rfl, fun _ => rfl, fun _ => rfl⟩

variable {f : Pickler → Pickler} {k : MemoKey}

/-- What is in the memo table is written as its number. -/
theorem memoize_of_some {id : Nat}
    (hk : p.memoized k = some id) : p.memoize k f = p.push (.binGet id) := by
  simp only [Pickler.memoize, hk]

/-- What is not there is written and remembered. -/
theorem memoize_of_none (hk : p.memoized k = none) : p.memoize k f =
      { (f p).push (.binPut (f p).memoId) with
        memoId := (f p).memoId + 1
        memoized := update (f p).memoized k (some (f p).memoId) } := by
  simp only [Pickler.memoize, hk]

theorem memoized_memoize {k k' : MemoKey} (hk : p.memoized k = none) : (p.memoize k f).memoized k' =
      if k' = k then some (f p).memoId else (f p).memoized k' := by
  rw [memoize_of_none hk]
  exact update_apply _ _ _ _

theorem written_memoize (hk : p.memoized k = none) : (f p).written <+: (p.memoize k f).written := by
  rw [memoize_of_none hk]
  exact prefix_append _ _

theorem tensorData_memoize (hk : p.memoized k = none) :
    (p.memoize k f).tensorData = (f p).tensorData := by
  rw [memoize_of_none hk]
  rfl

/-- Remembering a string keeps storages and tensors. -/
theorem keeps_memoize (hf : Keeps p (f p))
    (hstorage : ∀ a, MemoKey.storage a ≠ k) (hivalue : ∀ ptr, MemoKey.ivalue ptr ≠ k) :
    Keeps p (p.memoize k f) := by
  cases hk : p.memoized k with
  | some id =>
    rw [memoize_of_some hk]
    exact keeps_push p _
  | none =>
    refine ⟨hf.written.trans (written_memoize hk), (tensorData_memoize hk).trans hf.tensorData,
      fun a => ?_, fun ptr => ?_⟩
    · rw [memoized_memoize hk, if_neg (hstorage a), hf.storages]
    · rw [memoized_memoize hk, if_neg (hivalue ptr), hf.tensors]

theorem keeps_pushString (p : Pickler) (s : Bytes) : Keeps p (p.pushString s) :=
  keeps_memoize (keeps_push p _) (fun _ h => MemoKey.noConfusion h)
    fun _ h => MemoKey.noConfusion h

theorem keeps_pushGlobal (p : Pickler) (m c : Bytes) : Keeps p (p.pushGlobal m c) :=
  keeps_memoize (keeps_push p _) (fun _ h => MemoKey.noConfusion h)
    fun _ h => MemoKey.noConfusion h

theorem keeps_pushInts (p : Pickler) (ns : List Nat) : Keeps p (p.pushInts ns) := by
  have hnumbers : ∀ q : Pickler, Keeps q (ns.foldl (fun p n => p.push (.int n)) q) := by
    induction ns with
    | nil => exact fun q => ⟨prefix_refl _, rfl, fun _ => rfl, fun _ => rfl⟩
    | cons n ns ih => exact fun q => (keeps_push q (.int n)).trans (ih _)
  exact ((keeps_push p .mark).trans (hnumbers _)).trans (keeps_push _ .tuple)

/-- The storage of the tensor has been written, unless an earlier tensor has reached it. -/
structure Adds (t : Tensor) (p p' : Pickler) : Prop where
  written : p.written <+: p'.written
  tensorData : p.memoized (.storage t.storage) ≠ none ∧ p'.tensorData = p.tensorData ∨
    p.memoized (.storage t.storage) = none ∧ p'.tensorData = p.tensorData ++ [t]
  storages : ∀ a, p'.memoized (.storage a) = none ↔
    p.memoized (.storage a) = none ∧ a ≠ t.storage
  tensors : ∀ ptr, p'.memoized (.ivalue ptr) = p.memoized (.ivalue ptr)

theorem Adds.of_keeps {q q' : Pickler} (h : Keeps p q) (hadds : Adds t q q') (h' : Keeps q' p') :
    Adds t p p' where
  written := (h.written.trans hadds.written).trans h'.written
  tensorData := by
    rw [h'.tensorData, ← h.tensorData, ← h.storages]
    exact hadds.tensorData
  storages := by
    intro a
    rw [h'.storages, ← h.storages]
    exact hadds.storages a
  tensors := fun ptr => ((h'.tensors ptr).trans (hadds.tensors ptr)).trans (h.tensors ptr)

theorem Adds.grows_tensorData (h : Adds t p p') : p.tensorData <+: p'.tensorData := by
  rcases h.tensorData with ⟨-, hdata⟩ | ⟨-, hdata⟩
  · exact hdata ▸ prefix_refl _
  · exact hdata ▸ prefix_append _ _

theorem keeps_pushPersistentId (mem : Memory) (t : Tensor) (p : Pickler) :
    Keeps p (p.pushPersistentId mem t) := by
  have h := (keeps_push p .mark).trans (keeps_pushString _ (ascii "storage"))
  have h := h.trans (keeps_pushGlobal _ (ascii "torch") t.dtype.storageName)
  exact ((((h.trans (keeps_pushString _ _)).trans (keeps_pushString _ _)).trans
    (keeps_push _ _)).trans (keeps_push _ .tuple)).trans (keeps_push _ .binPersId)

theorem adds_pushStorageOfTensor (mem : Memory) (t : Tensor) (p : Pickler) :
    Adds t p (p.pushStorageOfTensor mem t) := by
  cases hk : p.memoized (.storage t.storage) with
  | some id =>
    have hkeeps := keeps_push p (.binGet id)
    rw [Pickler.pushStorageOfTensor, memoize_of_some hk]
    refine ⟨hkeeps.written, .inl ⟨hk ▸ some_ne_none id, rfl⟩, fun a => ?_, fun _ => rfl⟩
    refine ⟨fun ha => ⟨ha, fun he => ?_⟩, fun ha => ha.1⟩
    rw [he] at ha
    exact some_ne_none id (hk.symm.trans ha)
  | none =>
    have hkeeps := keeps_pushPersistentId mem t p
    rw [Pickler.pushStorageOfTensor]
    refine ⟨?_, .inr ⟨hk, tensorData_memoize hk⟩, fun a => ?_, fun ptr => ?_⟩
    · rw [memoize_of_none hk]
      exact hkeeps.written.trans (prefix_append _ _)
    · simp only [memoized_memoize hk, MemoKey.storage.injEq]
      split
      · next he => simp [he]
      · next hne => simp [hne, hkeeps.storages]
    · simp only [memoized_memoize hk, reduceCtorEq, if_false, hkeeps.tensors]

theorem keeps_pushFields (t : Tensor) (p : Pickler) : Keeps p (p.pushFields t) := by
  have h := (keeps_push p (.int t.storageOffset)).trans (keeps_pushInts _ t.sizes)
  have h := (h.trans (keeps_pushInts _ t.strides)).trans (keeps_push _ (.bool t.requiresGrad))
  have h := h.trans (keeps_pushGlobal _ (ascii "collections") (ascii "OrderedDict"))
  exact ((h.trans (keeps_push _ .emptyTuple)).trans (keeps_push _ .reduce)).trans
    ((keeps_push _ .tuple).trans (keeps_push _ .reduce))

theorem adds_pushLiteralTensor (mem : Memory) (t : Tensor) (p : Pickler) :
    Adds t p (p.pushLiteralTensor mem t) :=
  Adds.of_keeps ((keeps_pushGlobal p _ _).trans (keeps_push _ .mark))
    (adds_pushStorageOfTensor mem t _) (keeps_pushFields t _)

/-- The tensor is entered when its storage has no entry. -/
def addFirst (written : List Tensor) (t : Tensor) : List Tensor :=
  if ∃ t₀ ∈ written, t₀.storage = t.storage then written else written ++ [t]

/-- The memo table has the storages that are written, and those of its tensors. -/
structure Recorded (mem : Memory) (p : Pickler) : Prop where
  storages : ∀ a, p.memoized (.storage a) = none ↔ ∀ t ∈ p.tensorData, t.storage ≠ a
  tensors : ∀ ptr, p.memoized (.ivalue ptr) ≠ none →
    p.memoized (.storage (mem.tensor ptr).storage) ≠ none

/-- A tensor that was added is recorded once. -/
theorem Adds.recorded (h : Adds t p p') (hp : Recorded mem p) :
    Recorded mem p' ∧ p'.tensorData = addFirst p.tensorData t := by
  have hiff : (∃ t₀ ∈ p.tensorData, t₀.storage = t.storage) ↔
      p.memoized (.storage t.storage) ≠ none := by
    rw [ne_eq, hp.storages]
    simp
  have hdata : p'.tensorData = addFirst p.tensorData t := by
    rcases h.tensorData with ⟨hsome, hdata⟩ | ⟨hnone, hdata⟩
    · rw [addFirst, if_pos (hiff.mpr hsome), hdata]
    · rw [addFirst, if_neg (fun hex => hiff.mp hex hnone), hdata]
  refine ⟨⟨fun a => ?_, fun ptr hptr => ?_⟩, hdata⟩
  · rw [h.storages, hp.storages, hdata, addFirst]
    split
    · next hex =>
        obtain ⟨t₀, ht₀, hsame⟩ := hex
        exact ⟨fun ha => ha.1, fun ha => ⟨ha, fun he => ha t₀ ht₀ (hsame.trans he.symm)⟩⟩
    · simp [or_imp, forall_and, eq_comm]
  · rw [h.tensors] at hptr
    exact fun hnone => hp.tensors ptr hptr ((h.storages _).mp hnone).1

theorem pushIValue_recorded (hp : Recorded mem p) (ptr : Nat) :
    Recorded mem (p.pushIValue mem ptr) ∧
      (p.pushIValue mem ptr).tensorData = addFirst p.tensorData (mem.tensor ptr) := by
  have hadds := adds_pushLiteralTensor mem (mem.tensor ptr) p
  obtain ⟨hrecorded, hdata⟩ := hadds.recorded hp
  rw [Pickler.pushIValue]
  split
  · cases hk : p.memoized (.ivalue ptr) with
    | some id =>
      have hstored := hp.tensors ptr (hk ▸ some_ne_none id)
      rw [ne_eq, hp.storages] at hstored
      rw [memoize_of_some hk]
      refine ⟨⟨hp.storages, hp.tensors⟩, ?_⟩
      rw [addFirst, if_pos (by simpa using hstored)]
      rfl
    | none =>
      refine ⟨⟨fun a => ?_, fun q hq => ?_⟩, (tensorData_memoize hk).trans hdata⟩
      · rw [memoized_memoize hk, if_neg (by simp), tensorData_memoize hk]
        exact hrecorded.storages a
      · simp only [memoized_memoize hk, MemoKey.ivalue.injEq] at hq
        rw [memoized_memoize hk, if_neg (by simp)]
        by_cases he : q = ptr
        · rw [he]
          exact fun hnone => ((hadds.storages _).mp hnone).2 rfl
        · rw [if_neg he] at hq
          exact hrecorded.tensors q hq
  · exact ⟨hrecorded, hdata⟩

theorem grows_pushIValue (mem : Memory) (p : Pickler) (ptr : Nat) :
    p.written <+: (p.pushIValue mem ptr).written ∧
      p.tensorData <+: (p.pushIValue mem ptr).tensorData := by
  have hadds := adds_pushLiteralTensor mem (mem.tensor ptr) p
  rw [Pickler.pushIValue]
  split
  · cases hk : p.memoized (.ivalue ptr) with
    | some id =>
      rw [memoize_of_some hk]
      exact ⟨prefix_append _ _, prefix_refl _⟩
    | none =>
      exact ⟨hadds.written.trans (written_memoize hk),
        (tensorData_memoize hk).symm ▸ hadds.grows_tensorData⟩
  · exact ⟨hadds.written, hadds.grows_tensorData⟩

theorem grows_pushAll (mem : Memory) (ptrs : List Nat) (p : Pickler) :
    p.written <+: (p.pushAll mem ptrs).written ∧
      p.tensorData <+: (p.pushAll mem ptrs).tensorData := by
  induction ptrs generalizing p with
  | nil => exact ⟨prefix_refl _, prefix_refl _⟩
  | cons ptr ptrs ih =>
    obtain ⟨hwritten, hdata⟩ := grows_pushIValue mem p ptr
    obtain ⟨hwritten', hdata'⟩ := ih (p.pushIValue mem ptr)
    exact ⟨hwritten.trans hwritten', hdata.trans hdata'⟩

theorem pushAll_tensorData (hp : Recorded mem p) (ptrs : List Nat) :
    (p.pushAll mem ptrs).tensorData = (ptrs.map mem.tensor).foldl addFirst p.tensorData := by
  induction ptrs generalizing p with
  | nil => rfl
  | cons ptr ptrs ih =>
    obtain ⟨hrecorded, hdata⟩ := pushIValue_recorded hp ptr
    exact (ih hrecorded).trans (by rw [hdata]; rfl)

theorem mem_addFirst {ts : List Tensor} (t : Tensor) {t₀ : Tensor} (h : t₀ ∈ addFirst ts t) :
    t₀ ∈ ts ∨ t₀ = t ∧ ∀ d ∈ ts, d.storage ≠ t.storage := by
  rw [addFirst] at h
  split at h
  · exact .inl h
  · next hnone =>
      rcases mem_append.mp h with hmem | hmem
      · exact .inl hmem
      · exact .inr ⟨mem_singleton.mp hmem, fun d hd he => hnone ⟨d, hd, he⟩⟩

theorem addFirst_reaches (ts : List Tensor) (t : Tensor) :
    ts ⊆ addFirst ts t ∧ ∃ d ∈ addFirst ts t, d.storage = t.storage := by
  rw [addFirst]
  split
  · next hex => exact ⟨Subset.refl _, hex⟩
  · exact ⟨subset_append_left _ _, t, mem_append_right _ mem_cons_self, rfl⟩

variable {ts ds : List Tensor}

theorem mem_foldl_addFirst {t₀ : Tensor} (h : t₀ ∈ ts.foldl addFirst ds) :
    t₀ ∈ ds ∨ (ts.find? fun t => t.storage = t₀.storage) = some t₀ ∧
      ∀ d ∈ ds, d.storage ≠ t₀.storage := by
  induction ts generalizing ds with
  | nil => exact .inl h
  | cons t ts ih =>
    rcases ih h with hmem | ⟨hfind, hnew⟩
    · rcases mem_addFirst t hmem with hmem | ⟨rfl, hnew⟩
      · exact .inl hmem
      · exact .inr ⟨find?_cons_of_pos (by simp), hnew⟩
    · obtain ⟨hsub, d, hd, hsame⟩ := addFirst_reaches ds t
      have hne : t.storage ≠ t₀.storage := fun he => hnew d hd (hsame.trans he)
      exact .inr ⟨by rw [find?_cons_of_neg (by simpa using hne), hfind],
        fun d hd => hnew d (hsub hd)⟩

theorem nodup_foldl_addFirst (h : (ds.map Tensor.storage).Nodup) :
    ((ts.foldl addFirst ds).map Tensor.storage).Nodup := by
  induction ts generalizing ds with
  | nil => exact h
  | cons t ts ih =>
    refine ih ?_
    rw [addFirst]
    split
    · exact h
    · next hnone =>
        rw [map_append, map_singleton, nodup_append]
        refine ⟨h, by simp, fun a ha b hb he => ?_⟩
        obtain ⟨d, hd, rfl⟩ := mem_map.mp ha
        exact hnone ⟨d, hd, he.trans (mem_singleton.mp hb)⟩

end Pickling

section Unpickling

variable (mem : Memory) (ds : List Tensor)

/-- The records, when the storages of the tensors in `ds` have been written. -/
def recordsOf : List Bytes :=
  ds.map fun t => (mem.storageOf t).bytes

def loaded (t : Tensor) : Storage :=
  ⟨(mem.storageOf t).device,
    (mem.storageOf t).bytes.take
      ((mem.storageOf t).bytes.length / t.dtype.elementSize * t.dtype.elementSize),
    (mem.storageOf t).hasMemory⟩

/-- The tensor that is rebuilt: its scalar type is that of the tensor which wrote its storage. -/
def Rebuilt (t t' : Tensor) : Prop :=
  ∃ i t₀, ds[i]? = some t₀ ∧ t₀.storage = t.storage ∧ supported (mem.storageOf t).device.type ∧
    ¬(t.requiresGrad = true ∧ t₀.dtype.isDifferentiableType = false) ∧
    t' = ⟨i, t₀.dtype, t.sizes, t.strides, t.storageOffset, t.requiresGrad, false, false⟩

/-- The entry of the unpickler's memo table for a key. -/
def Entry : MemoKey → Value → Prop
  | .string s, v => v = .string s
  | .global moduleName className, v => readGlobal moduleName className = some v
  | .storage a, v => ∃ i t₀ n, ds[i]? = some t₀ ∧ t₀.storage = a ∧
      supported (mem.storage a).device.type ∧
      v = .tensor ⟨i, t₀.dtype, [n], [1], 0, false, false, false⟩
  | .ivalue ptr, v => ∃ t', Rebuilt mem ds (mem.tensor ptr) t' ∧ v = .tensor t'

/-- Nothing throws for the tensor. -/
def Loads (t : Tensor) : Prop :=
  supported (mem.storageOf t).device.type ∧
    ∀ t₀ ∈ ds, t₀.storage = t.storage →
      ¬(t.requiresGrad = true ∧ t₀.dtype.isDifferentiableType = false)

structure Follows (p : Pickler) (u : Unpickler) : Prop where
  runs : Unpickler.execAll (recordsOf mem ds) p.written {} = some u
  memoId : p.memoId = u.memoTable.length
  entries : ∀ k id, p.memoized k = some id →
    ∃ v, u.memoTable[id]? = some v ∧ Entry mem ds k v
  tensorData : p.tensorData <+: ds
  storages : u.storages = p.tensorData.map (loaded mem)

/-- Values have been pushed, the last one first. -/
structure Pushes (u : Unpickler) (vs : List Value) (p' : Pickler) (u' : Unpickler) : Prop where
  follows : Follows mem ds p' u'
  stack : u'.stack = vs ++ u.stack
  marks : u'.marks = u.marks

end Unpickling

section Unpickled

variable {mem : Memory} {ds : List Tensor} {p p' : Pickler} {u u' u'' : Unpickler} {t : Tensor}
variable {v : Value} {vs ws : List Value} {i : Instruction}

/-- Instructions one after the other. -/
theorem execAll_append (records : List Bytes) (is js : List Instruction) (u : Unpickler) :
    Unpickler.execAll records (is ++ js) u =
      (Unpickler.execAll records is u).bind (Unpickler.execAll records js) :=
  foldlM_append

theorem execAll_ne_none_of_le {records : List Bytes} {is js : List Instruction}
    (hpre : is <+: js) (h : Unpickler.execAll records js u ≠ none) :
    Unpickler.execAll records is u ≠ none := by
  obtain ⟨rest, rfl⟩ := hpre
  intro hnone
  rw [execAll_append, hnone] at h
  exact h rfl

theorem Follows.execAll_push (h : Follows mem ds p u) (i : Instruction) :
    Unpickler.execAll (recordsOf mem ds) (p.push i).written {} = u.exec (recordsOf mem ds) i := by
  rw [Pickler.push, execAll_append, h.runs, bind_some]
  simp [Unpickler.execAll]

/-- An instruction that leaves memo and storages alone. -/
theorem Follows.push (h : Follows mem ds p u) (hexec : u.exec (recordsOf mem ds) i = some u')
    (hmemo : u'.memoTable = u.memoTable) (hstorages : u'.storages = u.storages) :
    Follows mem ds (p.push i) u' where
  runs := (h.execAll_push i).trans hexec
  memoId := h.memoId.trans (congrArg List.length hmemo).symm
  entries := by
    rw [hmemo]
    exact h.entries
  tensorData := h.tensorData
  storages := hstorages.trans h.storages

theorem Pushes.refl (h : Follows mem ds p u) : Pushes mem ds u [] p u :=
  ⟨h, rfl, rfl⟩

theorem Pushes.trans (h : Pushes mem ds u vs p u') (h' : Pushes mem ds u' ws p' u'') :
    Pushes mem ds u (ws ++ vs) p' u'' where
  follows := h'.follows
  stack := by rw [h'.stack, h.stack, append_assoc]
  marks := h'.marks.trans h.marks

/-- An instruction that pushes one value. -/
theorem Pushes.pushValue (h : Pushes mem ds u vs p u')
    (hexec : u'.exec (recordsOf mem ds) i = some (u'.pushValue v)) :
    Pushes mem ds u (v :: vs) (p.push i) (u'.pushValue v) where
  follows := h.follows.push hexec rfl rfl
  stack := congrArg (v :: ·) h.stack
  marks := h.marks

theorem pushes_memoize {k : MemoKey} {f : Pickler → Pickler} (h : Follows mem ds p u)
    (hf : p.memoized k = none → ∃ v u', Pushes mem ds u [v] (f p) u' ∧ Entry mem ds k v) :
    ∃ v u', Pushes mem ds u [v] (p.memoize k f) u' ∧ Entry mem ds k v := by
  cases hk : p.memoized k with
  | some id =>
    obtain ⟨v, hv, hentry⟩ := h.entries k id hk
    have hexec : u.exec (recordsOf mem ds) (.binGet id) = some (u.pushValue v) := by
      rw [Unpickler.exec, hv, Option.map_some]
    rw [memoize_of_some hk]
    exact ⟨v, _, (Pushes.refl h).pushValue hexec, hentry⟩
  | none =>
    obtain ⟨v, u', hpushes, hentry⟩ := hf hk
    have hfollows := hpushes.follows
    have hexec : u'.exec (recordsOf mem ds) (.binPut (f p).memoId) =
        some { u' with memoTable := u'.memoTable ++ [v] } := by
      simp [Unpickler.exec, Unpickler.setInput, hpushes.stack, hfollows.memoId]
    rw [memoize_of_none hk]
    refine ⟨v, { u' with memoTable := u'.memoTable ++ [v] }, ⟨⟨?_, ?_, ?_, ?_, ?_⟩,
      hpushes.stack, hpushes.marks⟩, hentry⟩
    · exact (hfollows.execAll_push _).trans hexec
    · simp [hfollows.memoId]
    · intro k' id hid
      have hid := (Function.update_apply _ _ _ _).symm.trans hid
      split at hid
      · next he =>
        rw [Option.some.injEq] at hid
        rw [he]
        exact ⟨v, by rw [← hid, hfollows.memoId, List.getElem?_concat_length], hentry⟩
      · obtain ⟨w, hw, hold⟩ := hfollows.entries k' id hid
        exact ⟨w, (List.getElem?_append_left (List.getElem?_eq_some_iff.mp hw).1).trans hw, hold⟩
    · exact hfollows.tensorData
    · exact hfollows.storages
section

variable (h : Pushes mem ds u vs p u')
include h

/-- A string, written out or from the memo. -/
theorem Pushes.pushString (s : Bytes) :
    ∃ u'', Pushes mem ds u (.string s :: vs) (p.pushString s) u'' := by
  obtain ⟨v, u'', hpushes, rfl⟩ := pushes_memoize (k := .string s) h.follows
    fun _ => ⟨_, _, (Pushes.refl h.follows).pushValue (i := .binUnicode s) rfl, rfl⟩
  exact ⟨u'', h.trans hpushes⟩

/-- A global, written out or from the memo. -/
theorem Pushes.pushGlobal {m c : Bytes} (hglobal : readGlobal m c = some v) :
    ∃ u'', Pushes mem ds u (v :: vs) (p.pushGlobal m c) u'' := by
  have hexec : u'.exec (recordsOf mem ds) (.global m c) = some (u'.pushValue v) :=
    congrArg (Option.map fun v => u'.pushValue v) hglobal
  obtain ⟨w, u'', hpushes, hentry⟩ := pushes_memoize (k := .global m c) h.follows
    fun _ => ⟨_, _, (Pushes.refl h.follows).pushValue hexec, hglobal⟩
  rw [Entry, hglobal, Option.some.injEq] at hentry
  subst hentry
  exact ⟨u'', h.trans hpushes⟩

/-- A mark is set. -/
theorem Pushes.mark :
    Follows mem ds (p.push .mark) { u' with marks := u'.stack.length :: u'.marks } :=
  h.follows.push rfl rfl rfl

/-- What stands above the mark becomes a tuple. -/
theorem Pushes.tuple
    (h' : Pushes mem ds { u' with marks := u'.stack.length :: u'.marks } ws p' u'') :
    ∃ u₁, Pushes mem ds u (.tuple ws.reverse :: vs) (p'.push .tuple) u₁ := by
  have hexec : u''.exec (recordsOf mem ds) .tuple =
      some { u'' with stack := .tuple ws.reverse :: u'.stack, marks := u'.marks } := by
    simp [Unpickler.exec, Unpickler.makeTuple, h'.marks, h'.stack]
  exact ⟨_, h'.follows.push hexec rfl rfl, congrArg (_ :: ·) h.stack, h.marks⟩

/-- A list of sizes becomes a tuple of integers. -/
theorem Pushes.pushInts (ns : List Nat) :
    ∃ u'', Pushes mem ds u (.tuple (ns.map .int) :: vs) (p.pushInts ns) u'' := by
  have hnumbers : ∀ {q : Pickler} {u₁ u₂ : Unpickler} {ws : List Value},
      Pushes mem ds u₁ ws q u₂ → ∃ u₃, Pushes mem ds u₁ ((ns.map .int).reverse ++ ws)
        (ns.foldl (fun p n => p.push (.int n)) q) u₃ := by
    induction ns with
    | nil => exact fun hq => ⟨_, hq⟩
    | cons n ns ih =>
      intro q u₁ u₂ ws hq
      obtain ⟨u₃, h₃⟩ := ih (hq.pushValue (i := .int n) rfl)
      exact ⟨u₃, by simpa using h₃⟩
  obtain ⟨u₃, h₃⟩ := hnumbers (Pushes.refl h.mark)
  rw [Pickler.pushInts]
  simpa using h.tuple h₃

end

theorem tupleToIntList_map (ns : List Nat) : tupleToIntList (ns.map .int) = some ns := by
  induction ns with
  | nil => rfl
  | cons n ns ih =>
    rw [tupleToIntList] at ih
    simp [tupleToIntList, ih]

theorem decimal_injective {m n : Nat} (h : decimal m = decimal n) : m = n :=
  (Lib.foldl_toDigits m).symm.trans ((congrArg ofDecimal h).trans (Lib.foldl_toDigits n))

theorem readRecord_decimal (records : List Bytes) (n : Nat) :
    readRecord records (decimal n) = records[n]? := by
  have hfrom : ∀ (records : List Bytes) (k : Nat),
      ((records.zipIdx k).find? fun record => decimal record.2 == decimal (k + n)).map Prod.fst =
        records[n]? := by
    induction n with
    | zero =>
      intro records k
      cases records <;> simp [List.zipIdx]
    | succ n ih =>
      intro records k
      cases records with
      | nil => simp
      | cons r records =>
        have hne : (decimal k == decimal (k + (n + 1))) = false :=
          beq_eq_false_iff_ne.mpr fun he => by have := decimal_injective he; omega
        have := ih records (k + 1)
        simp only [zipIdx_cons, find?_cons, hne, getElem?_cons_succ]
        rwa [Nat.add_right_comm] at this
  rw [readRecord]
  simpa only [Nat.zero_add] using hfrom records 0

theorem readGlobal_storageName (type : ScalarType) :
    readGlobal (ascii "torch") type.storageName = some (.scalarType type) := by
  cases type <;> rfl

theorem exec_binPersId (ht : ds[u.storages.length]? = some t) {stack : List Value}
    (hstack : u.stack = .tuple [.string (ascii "storage"), .scalarType t.dtype,
      .string (decimal u.storages.length), .string (mem.storageOf t).device.str,
      .int ((mem.storageOf t).bytes.length / t.dtype.elementSize)] :: stack) :
    u.exec (recordsOf mem ds) .binPersId =
      if supported (mem.storageOf t).device.type then
        some { u with
          stack := .tensor ⟨u.storages.length, t.dtype,
            [(mem.storageOf t).bytes.length / t.dtype.elementSize], [1], 0, false, false,
            false⟩ :: stack
          storages := u.storages ++ [loaded mem t] }
      else none := by
  have hrecord : readRecord (recordsOf mem ds) (decimal u.storages.length) =
      some (mem.storageOf t).bytes := by
    rw [readRecord_decimal, recordsOf, getElem?_map, ht, map_some]
  have hdevice := ofString_str (mem.storageOf t).device
  have hindex := (mem.storageOf t).hasMemory
  simp only [Device.Unreadable, Int8.not_lt.mpr hindex, or_false] at hdevice
  by_cases hmetal : (mem.storageOf t).device.type = .Metal
  · have hnot : ¬ supported (mem.storageOf t).device.type := by rw [hmetal]; decide
    rw [if_neg hnot]
    simp [Unpickler.exec, Unpickler.loadStorage, hstack, hdevice, hmetal]
  · rcases Nat.eq_zero_or_pos ((mem.storageOf t).bytes.length / t.dtype.elementSize) with hz | hpos
    · by_cases hsupported : supported (mem.storageOf t).device.type <;>
        simp [Unpickler.exec, Unpickler.loadStorage, hstack, hdevice, hindex, hmetal, hz, loaded,
          hsupported]
    · by_cases hsupported : supported (mem.storageOf t).device.type <;>
        simp [Unpickler.exec, Unpickler.loadStorage, hstack, hdevice, hindex, hmetal, hpos, loaded,
          hrecord, hsupported]

theorem pushes_pushStorageOfTensor (h : Follows mem ds p u)
    (hdata : (p.pushStorageOfTensor mem t).tensorData <+: ds)
    (hruns : supported (mem.storageOf t).device.type ∨ Unpickler.execAll (recordsOf mem ds)
      (p.pushStorageOfTensor mem t).written {} ≠ none) :
    ∃ v u', Pushes mem ds u [v] (p.pushStorageOfTensor mem t) u' ∧
      Entry mem ds (.storage t.storage) v := by
  refine pushes_memoize h fun hk => ?_
  have hkeeps := keeps_pushPersistentId mem t p
  rw [Pickler.pushStorageOfTensor, tensorData_memoize hk] at hdata
  have ht : ds[u.storages.length]? = some t := by
    obtain ⟨rest, hrest⟩ := hdata
    rw [← hrest, h.storages, length_map]
    simp
  obtain ⟨u₁, h₁⟩ := (Pushes.refl (Pushes.refl h).mark).pushString (ascii "storage")
  obtain ⟨u₂, h₂⟩ := h₁.pushGlobal (readGlobal_storageName t.dtype)
  obtain ⟨u₃, h₃⟩ :=
    h₂.pushString (decimal ((((p.push .mark).pushString (ascii "storage")).pushGlobal
    (ascii "torch") t.dtype.storageName).tensorData.length))
  obtain ⟨u₄, h₄⟩ := h₃.pushString (mem.storageOf t).device.str
  have h₅ := h₄.pushValue (i := .int ((mem.storageOf t).bytes.length / t.dtype.elementSize)) rfl
  obtain ⟨u₆, h₆⟩ := (Pushes.refl h).tuple h₅
  have hstorages : u₆.storages = u.storages :=
    h₆.follows.storages.trans ((congrArg _ hkeeps.tensorData).trans h.storages.symm)
  have hkey : (((p.push .mark).pushString (ascii "storage")).pushGlobal (ascii "torch")
      t.dtype.storageName).tensorData.length = u₆.storages.length := by
    rw [hstorages, h.storages, length_map, (keeps_pushGlobal _ _ _).tensorData,
      (keeps_pushString _ _).tensorData, (keeps_push p .mark).tensorData]
  have hexec := exec_binPersId (u := u₆) (t := t) (by rw [hstorages]; exact ht)
    (show u₆.stack = _ :: u.stack by rw [h₆.stack, hkey]; rfl)
  have hsupported : supported (mem.storageOf t).device.type := by
    rcases hruns with hsupported | hruns
    · exact hsupported
    · by_contra hnot
      rw [if_neg hnot] at hexec
      rw [Pickler.pushStorageOfTensor, memoize_of_none hk] at hruns
      exact execAll_ne_none_of_le (prefix_append _ _) hruns
        ((h₆.follows.execAll_push .binPersId).trans hexec)
  rw [if_pos hsupported, hstorages] at hexec
  refine ⟨_, _, ⟨⟨(h₆.follows.execAll_push .binPersId).trans hexec, ?_, ?_, hdata, ?_⟩, rfl, ?_⟩,
    u.storages.length, t, _, ht, rfl, hsupported, rfl⟩
  · exact h₆.follows.memoId
  · exact h₆.follows.entries
  · simp only [h.storages, map_append, map_singleton]
  · exact h₆.marks

/-- The empty dict of backward hooks. -/
theorem Pushes.orderedDict (h : Pushes mem ds u (.tuple [] :: .function .orderedDict :: vs) p u') :
    ∃ u'', Pushes mem ds u (.none :: vs) (p.push .reduce) u'' := by
  have hexec : u'.exec (recordsOf mem ds) .reduce =
      some { u' with stack := .none :: (vs ++ u.stack) } := by
    simp [Unpickler.exec, Unpickler.reduce, h.stack]
  exact ⟨_, h.follows.push hexec rfl rfl, rfl, h.marks⟩

theorem pushes_pushLiteralTensor (h : Follows mem ds p u)
    (hdata : (p.pushLiteralTensor mem t).tensorData <+: ds)
    (hruns : Loads mem ds t ∨
      Unpickler.execAll (recordsOf mem ds) (p.pushLiteralTensor mem t).written {} ≠ none) :
    ∃ t' u', Pushes mem ds u [.tensor t'] (p.pushLiteralTensor mem t) u' ∧ Rebuilt mem ds t t' := by
  have hkeeps := keeps_pushFields t (((p.pushGlobal (ascii "torch._utils")
    (ascii "_rebuild_tensor_v2")).push .mark).pushStorageOfTensor mem t)
  obtain ⟨u₁, h₁⟩ := (Pushes.refl h).pushGlobal
    (show readGlobal (ascii "torch._utils") (ascii "_rebuild_tensor_v2") = _ from rfl)
  obtain ⟨v, u₂, h₂, i, t₀, n, hi, hsame, hsupported, rfl⟩ := pushes_pushStorageOfTensor h₁.mark
    (hkeeps.tensorData ▸ hdata) (hruns.imp And.left (execAll_ne_none_of_le hkeeps.written))
  have h₃ := h₂.pushValue (i := .int t.storageOffset) rfl
  obtain ⟨u₄, h₄⟩ := h₃.pushInts t.sizes
  obtain ⟨u₅, h₅⟩ := h₄.pushInts t.strides
  have h₆ := h₅.pushValue (i := .bool t.requiresGrad) rfl
  obtain ⟨u₇, h₇⟩ := h₆.pushGlobal
    (show readGlobal (ascii "collections") (ascii "OrderedDict") = _ from rfl)
  have h₈ := h₇.pushValue (i := .emptyTuple) rfl
  obtain ⟨u₉, h₉⟩ := h₈.orderedDict
  obtain ⟨u₁₀, h₁₀⟩ := h₁.tuple h₉
  have hexec : u₁₀.exec (recordsOf mem ds) .reduce =
      if t.requiresGrad = true ∧ t₀.dtype.isDifferentiableType = false then none
      else some { u₁₀ with stack := .tensor ⟨i, t₀.dtype, t.sizes, t.strides, t.storageOffset,
        t.requiresGrad, false, false⟩ :: u.stack } := by
    simp only [Unpickler.exec, Unpickler.reduce, h₁₀.stack, reverse_cons, reverse_nil,
      nil_append, cons_append, rebuildTensor, tupleToIntList_map, bind_some]
    split <;> rfl
  have hgrad : ¬(t.requiresGrad = true ∧ t₀.dtype.isDifferentiableType = false) := by
    rcases hruns with hloads | hruns
    · exact hloads.2 t₀ (mem_of_getElem? hi) hsame
    · intro hthrows
      rw [if_pos hthrows] at hexec
      exact hruns ((h₁₀.follows.execAll_push .reduce).trans hexec)
  rw [if_neg hgrad] at hexec
  exact ⟨_, _, ⟨h₁₀.follows.push hexec rfl rfl, rfl, h₁₀.marks⟩, i, t₀, hi, hsame, hsupported,
    hgrad, rfl⟩

theorem pushes_pushIValue (h : Follows mem ds p u) {ptr : Nat}
    (hdata : (p.pushIValue mem ptr).tensorData <+: ds)
    (hruns : Loads mem ds (mem.tensor ptr) ∨
      Unpickler.execAll (recordsOf mem ds) (p.pushIValue mem ptr).written {} ≠ none) :
    ∃ t' u', Pushes mem ds u [.tensor t'] (p.pushIValue mem ptr) u' ∧
      Rebuilt mem ds (mem.tensor ptr) t' := by
  rw [Pickler.pushIValue] at hdata hruns ⊢
  split at hdata
  · next hshared =>
      rw [if_pos hshared] at hruns ⊢
      obtain ⟨v, u', hpushes, t', ht', rfl⟩ := pushes_memoize (k := .ivalue ptr) h fun hk => by
        rw [tensorData_memoize hk] at hdata
        obtain ⟨t', u', hpushes, ht'⟩ := pushes_pushLiteralTensor h hdata
          (hruns.imp_right (execAll_ne_none_of_le (written_memoize hk)))
        exact ⟨_, u', hpushes, t', ht', rfl⟩
      exact ⟨t', u', hpushes, ht'⟩
  · next hown =>
      rw [if_neg hown] at hruns ⊢
      exact pushes_pushLiteralTensor h hdata hruns

theorem pushes_pushAll (h : Follows mem ds p u) {ptrs : List Nat}
    (hdata : (p.pushAll mem ptrs).tensorData <+: ds)
    (hruns : (∀ ptr ∈ ptrs, Loads mem ds (mem.tensor ptr)) ∨
      Unpickler.execAll (recordsOf mem ds) (p.pushAll mem ptrs).written {} ≠ none) :
    ∃ ts u', Pushes mem ds u (ts.map Value.tensor).reverse (p.pushAll mem ptrs) u' ∧
      Forall₂ (fun ptr t' => Rebuilt mem ds (mem.tensor ptr) t') ptrs ts := by
  induction ptrs generalizing p u with
  | nil => exact ⟨[], u, Pushes.refl h, Forall₂.nil⟩
  | cons ptr ptrs ih =>
    have hgrows := grows_pushAll mem ptrs (p.pushIValue mem ptr)
    obtain ⟨t', u₁, h₁, ht'⟩ := pushes_pushIValue h (hgrows.2.trans hdata)
      (hruns.imp (fun hall => hall ptr mem_cons_self) (execAll_ne_none_of_le hgrows.1))
    obtain ⟨ts, u₂, h₂, hts⟩ := ih h₁.follows hdata
      (hruns.imp_left fun hall q hq => hall q (mem_cons_of_mem _ hq))
    refine ⟨t' :: ts, u₂, ?_, Forall₂.cons ht' hts⟩
    rw [map_cons, reverse_cons]
    exact h₁.trans h₂

end Unpickled

end Tensors
end PyTorchCore.Pickle
