import PyTorchCore.Pickle.Sharing

/-!
# The instructions that build an object

For each kind of object: the instructions that the pickler writes leave a pointer to the object
on the stack, when the instructions of the values inside leave these values.
-/

namespace PyTorchCore.Pickle

open Option List

section Containers

variable {typeParser : Bytes → Option JitType} {useCount : Address → Nat} {root : IValue}
variable {p p' : Pickler} {u u' : Unpickler} {φ φ' : Placement} {v : IValue} {a : Address}
variable {q : Pointer} {o : Object} {i : Instruction}

/-- The keys of a part are keys of the whole. -/
theorem mem_memoKeys (hv : v ∈ root.subvalues) {k : MemoKey} (hk : k ∈ v.ownKeys) :
    k ∈ root.memoKeys useCount :=
  mem_flatMap.mpr ⟨v, hv, mem_append_left _ hk⟩

theorem Tracks.not_placed (h : Tracks typeParser useCount root p u φ)
    (hq : u.heap.length ≤ q) (b : Address) : φ b ≠ some q := by
  intro hb
  obtain ⟨-, -, -, o, ho, -⟩ := h.placed b q hb
  exact Nat.not_lt.mpr hq (List.getElem?_eq_some_iff.mp ho).1

variable {values : List Value}

theorem Pushed.not_placed
    (h : Pushed typeParser useCount root u φ values p' u' φ') (ho : u.heap[q]? = some o)
    (hne : o ≠ .tuple []) {b : Address} (hb : φ b ≠ some q) : φ' b ≠ some q := by
  intro hplaced
  rcases h.fresh b q hplaced with hold | hle | hempty
  · exact hb hold
  · exact Nat.not_lt.mpr hle (List.getElem?_eq_some_iff.mp ho).1
  · rw [getElem?_mono h.heap ho] at hempty
    exact hne (Option.some.inj hempty)

/-- An instruction that builds no object. -/
theorem Ready.stepAt (h : Ready typeParser useCount root p u φ)
    (hexec : u.exec typeParser i = some u') (hencodable : i.Encodable) (hstop : i ≠ .stop)
    (hmemo : u'.memoTable = u.memoTable) (hglobals : u'.globals = u.globals)
    (hempty : u'.emptyTuple = u.emptyTuple) (hunplaced : ∀ b, φ b ≠ some q)
    (hq : u.heap[q]? = some o) (hne : o ≠ .tuple [])
    (hheap : ∀ r o, r ≠ q → u.heap[r]? = some o → u'.heap[r]? = some o) :
    Ready typeParser useCount root (p.push i) u' φ where
  tracks := by
    refine h.tracks.step hexec hencodable hstop hmemo (hglobals ▸ prefix_refl _) ?_ ?_
    · intro r hr
      rw [hempty] at hr
      have hold := h.tracks.emptyTuple r hr
      refine hheap r _ (fun heq => hne ?_) hold
      rw [heq, hq] at hold
      exact Option.some.inj hold
    · intro b r hr
      obtain ⟨-, -, -, o, ho, -⟩ := h.tracks.placed b r hr
      rw [ho]
      exact hheap r o (fun heq => hunplaced b (heq ▸ hr)) ho
  globals_le := by rw [hglobals, hmemo]; exact h.globals_le
  memoized := by
    intro b hb hshared
    rw [lookup_push]
    exact h.memoized b hb hshared

variable {values stack : List Value} {marks : List Nat}

theorem popMark_eq
    (hstack : u.stack = values.reverse ++ stack) (hmarks : u.marks = stack.length :: marks) :
    u.popMark = some (values, { u with stack := stack, marks := marks }) := by
  have hlength : u.stack.length - stack.length = values.reverse.length := by
    rw [hstack, length_append, Nat.add_sub_cancel]
  have hle : stack.length ≤ u.stack.length := by
    rw [hstack, length_append]
    exact Nat.le_add_left _ _
  simp only [Unpickler.popMark, hmarks, if_pos hle, hlength]
  rw [hstack, take_left, drop_left, reverse_reverse]

/-- A complex number is an object of its own. -/
theorem complex_built (hfits : root.MemoFits useCount) {re im : UInt64}
    (hv : IValue.complexDouble a re im ∈ root.subvalues)
    (h : Ready typeParser useCount root p u φ) (hfree : φ a = none) :
    ∃ u' q, Built typeParser useCount root u φ (.complexDouble a re im)
      (p.pushComplexDouble re im) u' φ q := by
  obtain ⟨u₁, idx, hglobal, hlt, hidx⟩ := pushGlobal_pushed h hfits (f := .complex) rfl
    (by decide) (by decide) (mem_memoKeys hv mem_cons_self)
  have hre := hglobal.trans (pushDouble_pushed hglobal.ready re)
  have him := hre.trans (pushDouble_pushed hre.ready im)
  generalize hu₂ : Unpickler.pushValue (.double im) (Unpickler.pushValue (.double re) u₁) = u₂
    at him
  have hidx₂ : u₂.globals[idx]? = some .complex := by rw [← hu₂]; exact hidx
  have hstack : u₂.stack = .double im :: .double re :: .int (Int64.ofNat idx) :: u.stack :=
    him.stack
  have htuple : u₂.exec typeParser .tuple2 = some (Unpickler.pushObject
      (.tuple [.double re, .double im])
        { u₂ with stack := .int (Int64.ofNat idx) :: u.stack }) := by
    simp only [Unpickler.exec, hstack]
  have hready₃ := him.ready.step htuple trivial (by simp) rfl rfl rfl
    (prefix_append _ _)
  obtain ⟨called, hreduce, hargs⟩ :=
    exec_reduce_tuple typeParser [.double re, .double im] u.stack hlt hidx₂
  have hcomplex : Unpickler.callGlobal typeParser .complex called = some
      (Unpickler.pushObject (.complex re im)
        { u₂ with heap := u₂.heap ++ [.tuple [.double re, .double im]], stack := u.stack }) := by
    simp only [Unpickler.callGlobal, hargs, bind_some]
  have hready₄ := hready₃.step (hreduce.trans hcomplex) trivial (by simp) rfl rfl
    rfl (prefix_append _ _)
  refine ⟨_, _, him.replace hready₄ rfl rfl ?_ (prefix_refl _), ?_, ?_, ?_⟩
  · exact (prefix_append _ _).trans (prefix_append _ _)
  · refine ⟨.complex re im, getElem?_concat_length, ⟨rfl, rfl⟩, .inl ⟨?_, ?_⟩⟩
    · rw [length_append]
      exact him.heap.length_le.trans (Nat.le_add_right _ _)
    · refine him.ready.tracks.not_placed ?_
      rw [length_append]
      exact Nat.le_add_right _ _
  · intro b hb
    cases hb
    exact hfree
  · exact fun b hb hb' => absurd hb hb'

variable {elements : List IValue}

/-- The tuple of the values that have been pushed since the unpickler `u`, or since its
mark. -/
theorem tuple_of_values {u₀ u₁ : Unpickler}
    {p₁ : Pickler} {φ₁ : Placement}
    (h : Pushed typeParser useCount root u₀ φ values p₁ u₁ φ₁) (hheap : u₀.heap = u.heap)
    (hglobals : u₀.globals = u.globals)
    (hall : Forall₂ (Corresponds φ₁) elements values) (hfree : φ₁ a = none)
    (hnew : NewlyPlacedInside root φ φ₁ (.tuple a elements)) (hencodable : i.Encodable)
    (hstop : i ≠ .stop)
    (hexec : u₁.exec typeParser i = some (Unpickler.pushObject (.tuple values)
      { u₁ with stack := u.stack, marks := u.marks })) :
    ∃ u' q, Built typeParser useCount root u φ (.tuple a elements) (p₁.push i) u' φ₁ q := by
  have hready := h.ready.step hexec hencodable hstop rfl rfl rfl (prefix_append _ _)
  refine ⟨_, u₁.heap.length, ⟨hready, rfl, rfl, ?_, ?_, h.places, ?_⟩, ?_, ?_, hnew⟩
  · exact (hheap ▸ h.heap).trans (prefix_append _ _)
  · exact hglobals ▸ h.globals
  · intro b r hb
    rw [← hheap]
    exact (h.fresh b r hb).imp_right (Or.imp_right (getElem?_mono (prefix_append _ _)))
  · exact ⟨.tuple values, getElem?_concat_length, hall,
      .inl ⟨hheap ▸ h.heap.length_le, h.ready.tracks.not_placed (Nat.le_refl _)⟩⟩
  · intro b hb
    cases hb
    exact hfree

theorem emptyTuple_built (h : Ready typeParser useCount root p u φ) (hfree : φ a = none) :
    ∃ u' q, Built typeParser useCount root u φ (.tuple a []) (p.push .emptyTuple) u' φ q := by
  have hfree' : ∀ b, (IValue.tuple a []).address = some b → φ b = none := by
    intro b hb
    cases hb
    exact hfree
  cases hempty : u.emptyTuple with
  | some q =>
    have hexec : u.exec typeParser .emptyTuple = some (u.pushValue (.ref q)) := by
      simp only [Unpickler.exec, hempty]
    have hpushed := h.pushValue hexec trivial (by simp)
    refine ⟨_, q, hpushed, ⟨.tuple [], ?_, Forall₂.nil, .inr rfl⟩, hfree', ?_⟩
    · exact h.tracks.emptyTuple q hempty
    · exact fun b hb hb' => absurd hb hb'
  | none =>
    have hexec : u.exec typeParser .emptyTuple = some
        { u.pushObject (.tuple []) with emptyTuple := some u.heap.length } := by
      simp only [Unpickler.exec, hempty]
    have hprefix : u.heap <+: u.heap ++ [.tuple []] := prefix_append _ _
    have htracks := h.tracks.step hexec trivial (by simp) rfl (prefix_refl _)
      (fun q hq => by cases hq; exact getElem?_concat_length)
      (fun b r hb => by
        obtain ⟨-, -, -, o, ho, -⟩ := h.tracks.placed b r hb
        rw [ho]
        exact getElem?_mono hprefix ho)
    have hready : Ready typeParser useCount root (p.push .emptyTuple) _ φ :=
      ⟨htracks, h.globals_le, fun b hb hshared => by
        rw [lookup_push]
        exact h.memoized b hb hshared⟩
    have hpushed : Pushed typeParser useCount root u φ [.ref u.heap.length] (p.push .emptyTuple)
        _ φ :=
      ⟨hready, rfl, rfl, hprefix, prefix_refl _, fun _ _ hq => hq, fun _ _ hq => .inl hq⟩
    refine ⟨_, u.heap.length, hpushed, ⟨.tuple [], ?_, Forall₂.nil, .inr rfl⟩, hfree', ?_⟩
    · exact getElem?_concat_length
    · exact fun b hb hb' => absurd hb hb'

/-- The instruction that makes a tuple of the values on the stack. -/
def tupleInstruction : List IValue → Instruction
  | [_] => .tuple1
  | [_, _] => .tuple2
  | [_, _, _] => .tuple3
  | _ => .tuple

theorem tuple_built (wf : root.WellFormed) (hcounts : CountsSlots useCount root)
    (hv : IValue.tuple a elements ∈ root.subvalues)
    (hsim : ∀ c ∈ elements, Simulates typeParser useCount root c)
    (h : Ready typeParser useCount root p u φ) (hfree : φ a = none)
    (hentered : Entered root φ (.tuple a elements)) :
    ∃ u' φ' q, Built typeParser useCount root u φ (.tuple a elements)
      (Pickler.pushIValueImpl useCount (.tuple a elements) p) u' φ' q := by
  -- up to three elements stand directly on the stack
  have hsmall : (∀ (u₁ : Unpickler) (values stack : List Value),
      values.length = elements.length → u₁.stack = values.reverse ++ stack →
        u₁.exec typeParser (tupleInstruction elements) =
          some (Unpickler.pushObject (.tuple values) { u₁ with stack := stack })) →
      (tupleInstruction elements).Encodable → tupleInstruction elements ≠ .stop →
      ∃ u' φ' q, Built typeParser useCount root u φ (.tuple a elements)
        ((Pickler.pushAll useCount elements p).push (tupleInstruction elements)) u' φ' q := by
    intro hexec hencodable hstop
    obtain ⟨u₁, φ₁, values, hpushed, hvalues, hfree₁, hnew⟩ :=
      pushAll_simulates wf hcounts hv rfl hsim [] rfl h hfree hentered.start
    have hexec₁ := hexec u₁ values u.stack hvalues.length_eq.symm hpushed.stack
    rw [show ({ u₁ with stack := u.stack } : Unpickler) =
      { u₁ with stack := u.stack, marks := u.marks } by rw [← hpushed.marks]] at hexec₁
    obtain ⟨u', q, hbuilt⟩ :=
      tuple_of_values hpushed rfl rfl hvalues hfree₁ hnew hencodable hstop hexec₁
    exact ⟨u', φ₁, q, hbuilt⟩
  rcases elements with - | ⟨e₁, - | ⟨e₂, - | ⟨e₃, - | ⟨e₄, rest⟩⟩⟩⟩
  · obtain ⟨u', q, hbuilt⟩ := emptyTuple_built (a := a) h hfree
    exact ⟨u', φ, q, hbuilt⟩
  · refine hsmall (fun u₁ values stack hlength hstack => ?_) trivial (by simp [tupleInstruction])
    obtain ⟨w₁, rfl⟩ := length_eq_one_iff.mp hlength
    simp only [tupleInstruction, Unpickler.exec, hstack, reverse_cons, reverse_nil, nil_append,
      cons_append]
  · refine hsmall (fun u₁ values stack hlength hstack => ?_) trivial (by simp [tupleInstruction])
    obtain ⟨w₁, w₂, rfl⟩ := length_eq_two.mp hlength
    simp only [tupleInstruction, Unpickler.exec, hstack, reverse_cons, reverse_nil, nil_append,
      cons_append]
  · refine hsmall (fun u₁ values stack hlength hstack => ?_) trivial (by simp [tupleInstruction])
    obtain ⟨w₁, w₂, w₃, rfl⟩ := length_eq_three.mp hlength
    simp only [tupleInstruction, Unpickler.exec, hstack, reverse_cons, reverse_nil, nil_append,
      cons_append]
  · have hmark : u.exec typeParser .mark = some { u with marks := u.stack.length :: u.marks } := rfl
    have hready := h.step hmark trivial (by simp) rfl rfl rfl (prefix_refl _)
    obtain ⟨u₁, φ₁, values, hpushed, hvalues, hfree₁, hnew⟩ :=
      pushAll_simulates wf hcounts hv rfl hsim [] rfl hready hfree hentered.start
    have hexec : u₁.exec typeParser .tuple = some (Unpickler.pushObject (.tuple values)
        { u₁ with stack := u.stack, marks := u.marks }) := by
      rw [Unpickler.exec, popMark_eq hpushed.stack hpushed.marks, map_some]
    obtain ⟨u', q, hbuilt⟩ := tuple_of_values (u := u) (i := .tuple) hpushed rfl rfl hvalues
      hfree₁ hnew trivial (by simp) hexec
    exact ⟨u', φ₁, q, hbuilt⟩

/-- What building a list or a dict leaves: the object `o₀` is filled and tagged, and nothing else
changes. -/
theorem container_built {o₀ : Object} {idx : Nat} {u₁ u₄ u₅ : Unpickler}
    {p₁ p₅ : Pickler} {φ₅ : Placement}
    (hglobal : Pushed typeParser useCount root u φ [.int (Int64.ofNat idx)] p₁ u₁ φ)
    (hvalues : Pushed typeParser useCount root u₄ φ values p₅ u₅ φ₅)
    (hheap : u₄.heap = u₁.heap ++ [o₀]) (hglobals : u₄.globals = u₁.globals)
    (hne : o₀ ≠ .tuple []) (hfree : ∀ a, v.address = some a → φ₅ a = none)
    (hnew : NewlyPlacedInside root φ φ₅ v)
    (hready : Ready typeParser useCount root p' u' φ₅)
    (hstack : u'.stack = .ref u₁.heap.length :: u.stack) (hmarks : u'.marks = u.marks)
    (hglobals' : u₅.globals <+: u'.globals)
    (hkeep : ∀ r o, r ≠ u₁.heap.length → u₅.heap[r]? = some o → u'.heap[r]? = some o)
    (ho : u'.heap[u₁.heap.length]? = some o) (hobject : ObjectCorresponds φ₅ v o) :
    Built typeParser useCount root u φ v p' u' φ₅ u₁.heap.length := by
  have hnew₄ : u₄.heap[u₁.heap.length]? = some o₀ := by
    rw [hheap]
    exact getElem?_concat_length
  have hunplaced : ∀ b, φ₅ b ≠ some u₁.heap.length := fun b =>
    hvalues.not_placed hnew₄ hne (hglobal.ready.tracks.not_placed (Nat.le_refl _) b)
  have hprefix : u.heap <+: u₅.heap := by
    refine hglobal.heap.trans (IsPrefix.trans ?_ hvalues.heap)
    rw [hheap]
    exact prefix_append _ _
  refine ⟨⟨hready, hstack, hmarks, ?_, ?_, hvalues.places, ?_⟩,
    ⟨o, ho, hobject, .inl ⟨hglobal.heap.length_le, hunplaced⟩⟩, hfree, hnew⟩
  · refine prefix_iff_getElem?.mpr fun r hr => ?_
    have hold : u.heap[r]? = some u.heap[r] := getElem?_eq_getElem hr
    exact hkeep r _ (Nat.ne_of_lt (hr.trans_le hglobal.heap.length_le)) (getElem?_mono hprefix hold)
  · exact hglobal.globals.trans (hglobals ▸ hvalues.globals.trans hglobals')
  · intro b r hb
    rcases hvalues.fresh b r hb with hold | hle | hempty
    · exact .inl hold
    · refine .inr (.inl (hglobal.heap.length_le.trans (Nat.le_trans ?_ hle)))
      rw [hheap, length_append]
      exact Nat.le_add_right _ _
    · refine .inr (.inr (hkeep r _ ?_ hempty))
      rintro rfl
      exact hunplaced b hb

variable {α : Type} {itemPusher : α → Pickler → Pickler} {toValue : α → Value}

theorem foldl_pushed (hpush : ∀ {p u}, Ready typeParser useCount root p u φ → ∀ x,
      Pushed typeParser useCount root u φ [toValue x] (itemPusher x p) (u.pushValue (toValue x)) φ)
    (items : List α) (h : Ready typeParser useCount root p u φ) :
    ∃ u', Pushed typeParser useCount root u φ (items.map toValue)
      (items.foldl (fun q item => itemPusher item q) p) u' φ := by
  induction items generalizing p u with
  | nil => exact ⟨u, Pushed.refl h⟩
  | cons x items ih =>
    have hx := hpush h x
    obtain ⟨u', hrest⟩ := ih hx.ready
    exact ⟨u', hx.trans hrest⟩

theorem getElem?_set_keep {l : List α} {n r : Nat} {x y : α} (hr : r ≠ n)
    (h : l[r]? = some x) : (l.set n y)[r]? = some x := by
  rw [getElem?_set_ne hr.symm]
  exact h

theorem getElem?_set_there {l : List α} {n : Nat} {x y : α}
    (h : l[n]? = some x) : (l.set n y)[n]? = some y :=
  List.getElem?_set_self (List.getElem?_eq_some_iff.mp h).1

theorem exec_appends (hstack : u.stack = values.reverse ++ .ref q :: stack)
    (hmarks : u.marks = (.ref q :: stack).length :: marks)
    (ho : u.heap[q]? = some (.list .any [])) :
    u.exec typeParser .appends = some { u with
      heap := u.heap.set q (.list .any values), stack := .ref q :: stack, marks := marks } := by
  have hany : values.all (Value.fits .any) = true := by
    rw [List.all_eq_true]
    intro w _
    cases w <;> rfl
  rw [Unpickler.exec, popMark_eq hstack hmarks, Option.bind_some]
  simp only [List.head?_cons, Option.bind_some, Unpickler.readList, ho, hany, if_true, nil_append]

/-- A list of one type is built from its items. -/
theorem specializedList_built (hfits : root.MemoFits useCount) {items : List α}
    {listName : Bytes} {elem : JitType}
    (hpush : ∀ {p u}, Ready typeParser useCount root p u φ → ∀ x,
      Pushed typeParser useCount root u φ [toValue x] (itemPusher x p) (u.pushValue (toValue x)) φ)
    (hf : Unpickler.globalFunction Pickler.jitPickle listName = some (.buildList elem))
    (hname : (10 : UInt8) ∉ listName)
    (hk : .global (Pickler.globalKey Pickler.jitPickle listName) ∈ root.memoKeys useCount)
    (hobject : ObjectCorresponds φ v (.list elem (items.map toValue)))
    (hfree : ∀ a, v.address = some a → φ a = none)
    (h : Ready typeParser useCount root p u φ) :
    ∃ u' q, Built typeParser useCount root u φ v
      (p.pushSpecializedList listName itemPusher items) u' φ q := by
  obtain ⟨u₁, idx, hglobal, hlt, hidx⟩ :=
    pushGlobal_pushed h hfits hf (by decide) hname hk
  have hstack₁ : u₁.stack = .int (Int64.ofNat idx) :: u.stack := hglobal.stack
  have hready₂ := hglobal.ready.step (i := .mark) rfl trivial (by simp) rfl rfl rfl
    (prefix_refl _)
  have hready₃ := hready₂.step (i := .emptyList) rfl trivial (by simp) rfl rfl rfl
    (prefix_append _ _)
  have hready₄ := hready₃.step (i := .mark) rfl trivial (by simp) rfl rfl rfl
    (prefix_refl _)
  obtain ⟨u₅, hitems⟩ := foldl_pushed hpush items hready₄
  have ho₅ : u₅.heap[u₁.heap.length]? = some (.list .any []) :=
    getElem?_mono hitems.heap getElem?_concat_length
  have hunplaced : ∀ b, φ b ≠ some u₁.heap.length :=
    hglobal.ready.tracks.not_placed (Nat.le_refl _)
  obtain ⟨u₆, hu₆⟩ : ∃ u₆ : Unpickler, u₆ = { u₅ with
      heap := u₅.heap.set u₁.heap.length (.list .any (items.map toValue)),
      stack := .ref u₁.heap.length :: u₁.stack,
      marks := u₁.stack.length :: u₁.marks } := ⟨_, rfl⟩
  have happends : u₅.exec typeParser .appends = some u₆ := by
    rw [hu₆]
    exact exec_appends hitems.stack hitems.marks ho₅
  have hready₆ := hitems.ready.stepAt happends trivial (by simp) (by rw [hu₆])
    (by rw [hu₆]) (by rw [hu₆]) hunplaced ho₅ (by simp)
    (fun r o hr ho => by rw [hu₆]; exact getElem?_set_keep hr ho)
  have hheap₆ : u₆.heap = u₅.heap.set u₁.heap.length (.list .any (items.map toValue)) := by
    rw [hu₆]
  have hstack₆ : u₆.stack = [Value.ref u₁.heap.length].reverse ++
      .int (Int64.ofNat idx) :: u.stack := by
    rw [hu₆, ← hstack₁]
    rfl
  have hmarks₆ : u₆.marks = (Value.int (Int64.ofNat idx) :: u.stack).length :: u.marks := by
    rw [hu₆, ← hstack₁, ← hglobal.marks]
  have hglobals₆ : u₆.globals = u₅.globals := by rw [hu₆]
  have htuple : u₆.exec typeParser .tuple = some (Unpickler.pushObject
      (.tuple [.ref u₁.heap.length])
      { u₆ with stack := .int (Int64.ofNat idx) :: u.stack, marks := u.marks }) := by
    rw [Unpickler.exec, popMark_eq hstack₆ hmarks₆, map_some]
  have hready₇ := hready₆.step htuple trivial (by simp) rfl rfl rfl (prefix_append _ _)
  have ho₆ : (u₆.heap ++ [Object.tuple [.ref u₁.heap.length]])[u₁.heap.length]? =
      some (.list .any (items.map toValue)) := by
    rw [hheap₆]
    exact getElem?_mono (prefix_append _ _) (getElem?_set_there ho₅)
  obtain ⟨called, hreduce, hargs⟩ := exec_reduce_tuple (u := { u₆ with marks := u.marks })
    typeParser [.ref u₁.heap.length] u.stack hlt
    (by rw [hglobals₆]; exact getElem?_mono hitems.globals hidx)
  have hlist : Unpickler.callGlobal typeParser (.buildList elem) called = some { u₆ with
        heap := (u₆.heap ++ [Object.tuple [.ref u₁.heap.length]]).set u₁.heap.length
          (.list elem (items.map toValue))
        stack := .ref u₁.heap.length :: u.stack
        marks := u.marks } := by
    simp only [Unpickler.callGlobal, hargs, bind_some, ho₆]
    rfl
  have hready₈ := hready₇.stepAt (hreduce.trans hlist) trivial (by simp) rfl rfl rfl
    hunplaced ho₆ (by simp)
    (fun r o hr => getElem?_set_keep hr)
  refine ⟨_, _, container_built hglobal hitems rfl rfl (by simp) hfree
    (fun b hb hb' => absurd hb hb') hready₈ rfl rfl (by rw [hglobals₆]) ?_
    (getElem?_set_there ho₆) hobject⟩
  intro r o hr ho
  refine getElem?_set_keep hr (getElem?_mono (prefix_append _ _) ?_)
  rw [hheap₆]
  exact getElem?_set_keep hr ho

/-- The instruction that fills a list or a dict, and the type tag that is set afterwards. -/
structure Fills (typeParser : Bytes → Option JitType) (φ : Placement) (v : IValue)
    (type : JitType) (fill : Instruction) (u : Unpickler) (q : Pointer) (stack : List Value)
    (marks : List Nat) (o₁ o₂ : Object) : Prop where
  ne : o₁ ≠ .tuple []
  exec : u.exec typeParser fill = some
    { u with heap := u.heap.set q o₁, stack := .ref q :: stack, marks := marks }
  restore : ∀ w : Unpickler, w.heap[q]? = some o₁ →
    w.restoreContainerTypeTags (.ref q) type = some { w with heap := w.heap.set q o₂ }
  corresponds : ObjectCorresponds φ v o₂

/-- A container with a type tag is built like the plain one. -/
theorem typeTagged_built (type : JitType) (empty fill : Instruction) (wf : root.WellFormed)
    (hcounts : CountsSlots useCount root) (hfits : root.MemoFits useCount)
    (hv : v ∈ root.subvalues) (ha : v.address = some a) {o₀ : Object}
    (hempty : ∀ u, Unpickler.exec typeParser empty u = some (u.pushObject o₀))
    (hne : o₀ ≠ .tuple []) (hencodable : empty.Encodable ∧ fill.Encodable)
    (hstop : empty ≠ .stop ∧ fill ≠ .stop)
    (hk : .global (Pickler.globalKey Pickler.jitPickle (ascii "restore_type_tag")) ∈
      root.memoKeys useCount)
    (hks : .string type.annotationStr ∈ root.memoKeys useCount)
    (hsized : type.annotationStr.length < 2 ^ 32)
    (hparse : typeParser type.annotationStr = some type)
    (hsim : ∀ c ∈ v.children, Simulates typeParser useCount root c)
    (hfill : ∀ {p₅ u₅ φ₅ values q stack marks}, Ready typeParser useCount root p₅ u₅ φ₅ →
      Forall₂ (Corresponds φ₅) v.children values →
      u₅.stack = values.reverse ++ .ref q :: stack →
      u₅.marks = (Value.ref q :: stack).length :: marks → u₅.heap[q]? = some o₀ →
        ∃ o₁ o₂, Fills typeParser φ₅ v type fill u₅ q stack marks o₁ o₂)
    (h : Ready typeParser useCount root p u φ) (hfree : φ a = none)
    (hentered : Entered root φ v) :
    ∃ u' φ' q, Built typeParser useCount root u φ v
      (((Pickler.pushAll useCount v.children ((p.startTypeTag.push empty).push .mark)).push
        fill).endTypeTag type) u' φ' q := by
  obtain ⟨u₁, idx, hglobal, hlt, hidx⟩ := pushGlobal_pushed h hfits (f := .restoreTypeTag) rfl
    (by decide) (by decide) hk
  have hstack₁ : u₁.stack = .int (Int64.ofNat idx) :: u.stack := hglobal.stack
  have hready₂ := hglobal.ready.step (hempty u₁) hencodable.1 hstop.1 rfl rfl rfl
    (prefix_append _ _)
  have hready₃ := hready₂.step (i := .mark) rfl trivial (by simp) rfl rfl rfl
    (prefix_refl _)
  obtain ⟨u₅, φ₅, values, hvalues, hall, hfree₅, hnew⟩ :=
    pushAll_simulates wf hcounts hv ha hsim [] rfl hready₃ hfree hentered.start
  have ho₅ : u₅.heap[u₁.heap.length]? = some o₀ :=
    getElem?_mono hvalues.heap getElem?_concat_length
  have hunplaced : ∀ b, φ₅ b ≠ some u₁.heap.length := fun b =>
    hvalues.not_placed getElem?_concat_length hne
      (hglobal.ready.tracks.not_placed (Nat.le_refl _) b)
  obtain ⟨o₁, o₂, hfills⟩ := hfill hvalues.ready hall hvalues.stack hvalues.marks ho₅
  obtain ⟨u₆, hu₆⟩ : ∃ u₆ : Unpickler, u₆ = { u₅ with
      heap := u₅.heap.set u₁.heap.length o₁,
      stack := .ref u₁.heap.length :: u₁.stack,
      marks := u₁.marks } := ⟨_, rfl⟩
  have hexec : u₅.exec typeParser fill = some u₆ := by
    rw [hu₆]
    exact hfills.exec
  have hready₆ := hvalues.ready.stepAt hexec hencodable.2 hstop.2 (by rw [hu₆])
    (by rw [hu₆]) (by rw [hu₆]) hunplaced ho₅ hne
    (fun r o hr ho => by rw [hu₆]; exact getElem?_set_keep hr ho)
  obtain ⟨u₇, hstring⟩ := pushString_pushed hready₆ hfits hsized hks
  have hstack₇ : u₇.stack =
      .string type.annotationStr :: .ref u₁.heap.length :: .int (Int64.ofNat idx) :: u.stack := by
    rw [hstring.stack, hu₆, hstack₁]
    rfl
  have hmarks₇ : u₇.marks = u.marks := by
    rw [hstring.marks, hu₆]
    exact hglobal.marks
  have hglobals₆ : u₅.globals <+: u₇.globals := by
    have := hstring.globals
    rwa [hu₆] at this
  have ho₆ : u₆.heap[u₁.heap.length]? = some o₁ := by
    rw [hu₆]
    exact getElem?_set_there ho₅
  have htuple : u₇.exec typeParser .tuple2 = some (Unpickler.pushObject
      (.tuple [.ref u₁.heap.length, .string type.annotationStr])
      { u₇ with stack := .int (Int64.ofNat idx) :: u.stack }) := by
    simp only [Unpickler.exec, hstack₇]
  have hready₈ := hstring.ready.step htuple trivial (by simp) rfl rfl rfl
    (prefix_append _ _)
  have ho₈ : (u₇.heap ++ [Object.tuple [.ref u₁.heap.length, .string type.annotationStr]])[
      u₁.heap.length]? = some o₁ :=
    getElem?_mono (prefix_append _ _) (getElem?_mono hstring.heap ho₆)
  obtain ⟨called, hreduce, hargs⟩ := exec_reduce_tuple (u := u₇) typeParser
    [.ref u₁.heap.length, .string type.annotationStr] u.stack hlt
    (getElem?_mono (hvalues.globals.trans hglobals₆) hidx)
  have htag : Unpickler.callGlobal typeParser .restoreTypeTag called = some { u₇ with
        heap := (u₇.heap ++ [Object.tuple [.ref u₁.heap.length,
          .string type.annotationStr]]).set u₁.heap.length o₂
        stack := .ref u₁.heap.length :: u.stack } := by
    have hrestore := hfills.restore { u₇ with
      heap := u₇.heap ++ [Object.tuple [.ref u₁.heap.length, .string type.annotationStr]]
      stack := u.stack } ho₈
    simp only [Unpickler.callGlobal, hargs, bind_some, hparse, hrestore, map_some]
    rfl
  have hready₉ := hready₈.stepAt (hreduce.trans htag) trivial (by simp) rfl rfl rfl
    hunplaced ho₈ hfills.ne (fun r o hr => getElem?_set_keep hr)
  refine ⟨_, φ₅, _, container_built hglobal hvalues rfl rfl hne
    (fun b hb => by rw [ha] at hb; cases hb; exact hfree₅) hnew hready₉ rfl hmarks₇ hglobals₆ ?_
    (getElem?_set_there ho₈) hfills.corresponds⟩
  intro r o hr ho
  refine getElem?_set_keep hr (getElem?_mono (prefix_append _ _) (getElem?_mono hstring.heap ?_))
  rw [hu₆]
  exact getElem?_set_keep hr ho

theorem list_fills {elem : GenericType} {items : List IValue}
    (hall : Forall₂ (Corresponds φ) items values)
    (hstack : u.stack = values.reverse ++ .ref q :: stack)
    (hmarks : u.marks = (Value.ref q :: stack).length :: marks)
    (ho : u.heap[q]? = some (.list .any [])) :
    Fills typeParser φ (.genericList a elem items) (.list elem) .appends u q stack marks
      (.list .any values) (.list elem values) where
  ne := by simp
  exec := exec_appends hstack hmarks ho
  restore := by
    intro w hw
    simp only [Unpickler.restoreContainerTypeTags, hw]
  corresponds := ⟨rfl, hall⟩

variable {entries : List (IValue × IValue)}

theorem entries_of_values
    (h : Forall₂ (Corresponds φ) (entries.flatMap fun entry => [entry.1, entry.2]) values) :
    ∃ entries' : List (Value × Value), values = entries'.flatMap (fun entry => [entry.1, entry.2]) ∧
      Forall₂ (fun entry entry' =>
        Corresponds φ entry.1 entry'.1 ∧ Corresponds φ entry.2 entry'.2) entries entries' := by
  induction entries generalizing values with
  | nil =>
    rcases h with ⟨⟩
    exact ⟨[], rfl, Forall₂.nil⟩
  | cons entry entries ih =>
    rcases h with - | ⟨hkey, - | ⟨hvalue, hrest⟩⟩
    obtain ⟨entries', rfl, hall⟩ := ih hrest
    exact ⟨(_, _) :: entries', rfl, Forall₂.cons ⟨hkey, hvalue⟩ hall⟩

theorem insertAll_entries {heap : List Object} (entries acc : List (Value × Value))
    (hhash : ∀ entry ∈ entries, entry.1.hashable heap = true)
    (hdiff : (acc ++ entries).Pairwise fun entry entry' =>
      entry.1.keyEqual heap entry'.1 = false) :
    insertAll heap (entries.flatMap fun entry => [entry.1, entry.2]) acc =
      some (acc ++ entries) := by
  induction entries generalizing acc with
  | nil =>
    rw [List.append_nil]
    rfl
  | cons entry entries ih =>
    have hnew : acc.any (fun old => old.1.keyEqual heap entry.1) = false := by
      rw [List.any_eq_false]
      intro old hold
      rw [(List.pairwise_append.mp hdiff).2.2 old hold entry mem_cons_self]
      exact Bool.false_ne_true
    have hinsert : insertOrAssign heap entry.1 entry.2 acc = some (acc ++ [entry]) := by
      rw [insertOrAssign, if_pos (hhash entry mem_cons_self), hnew]
      rfl
    have hrest := ih (acc ++ [entry]) (fun e he => hhash e (mem_cons_of_mem _ he))
      (by rw [List.append_assoc]; exact hdiff)
    rw [List.append_assoc] at hrest
    calc insertAll heap ((entry :: entries).flatMap fun entry => [entry.1, entry.2]) acc
        = (insertOrAssign heap entry.1 entry.2 acc).bind fun acc =>
            insertAll heap (entries.flatMap fun entry => [entry.1, entry.2]) acc := rfl
      _ = some (acc ++ entry :: entries) := by
          rw [hinsert, Option.bind_some]
          exact hrest

section

variable (h : Tracks typeParser useCount root p u φ) (wf : root.WellFormed)
include h wf

theorem Tracks.complex_placed {re im : UInt64}
    (hv : IValue.complexDouble a re im ∈ root.subvalues) (hq : φ a = some q) :
    u.heap[q]? = some (.complex re im) := by
  obtain ⟨v, hv', ha, o, ho, hobject⟩ := h.placed a q hq
  obtain rfl := wf.consistent _ hv' _ hv a ha rfl
  cases o with
  | complex re' im' =>
    obtain ⟨rfl, rfl⟩ := hobject
    exact ho
  | _ => cases hobject

theorem hashable_of_corresponds {key : IValue} {w : Value} (hv : key ∈ root.subvalues)
    (hw : Corresponds φ key w) (hhash : key.hashable = true) : w.hashable u.heap = true := by
  cases key with
  | complexDouble a re im =>
    obtain ⟨q, hq, rfl⟩ := eq_ref_of_corresponds rfl hw
    simp only [Value.hashable, h.complex_placed wf hv hq]
  | int n => cases hw; rfl
  | string s => cases hw; rfl
  | double x => cases hw; rfl
  | bool b => cases hw; rfl
  | device d => cases hw; rfl
  | _ => cases hhash

theorem keyEqual_of_corresponds {key key' : IValue} {w w' : Value} (hv : key ∈ root.subvalues)
    (hv' : key' ∈ root.subvalues) (hw : Corresponds φ key w) (hw' : Corresponds φ key' w')
    (hhash : key.hashable = true) (hhash' : key'.hashable = true)
    (hne : key.keyEqual key' = false) : w.keyEqual u.heap w' = false := by
  have hatom : ∀ {k : IValue}, k.hashable = true →
      (∃ a re im, k = .complexDouble a re im) ∨ k.address = none := by
    intro k hk
    cases k with
    | complexDouble a re im => exact .inl ⟨a, re, im, rfl⟩
    | int | string | double | bool | device => exact .inr rfl
    | _ => cases hk
  rcases hatom hhash with ⟨a, re, im, rfl⟩ | hnone
  · obtain ⟨q, hq, rfl⟩ := eq_ref_of_corresponds rfl hw
    rcases hatom hhash' with ⟨b, re', im', rfl⟩ | hnone'
    · obtain ⟨r, hr, rfl⟩ := eq_ref_of_corresponds rfl hw'
      have hoq := h.complex_placed wf hv hq
      have hor := h.complex_placed wf hv' hr
      have hqr : q = r → a = b := by
        rintro rfl
        refine (h.injective a b q hq hr).resolve_right fun hempty => ?_
        rw [hoq] at hempty
        cases hempty
      simp only [IValue.keyEqual, Bool.or_eq_false_iff, beq_eq_false_iff_ne] at hne
      simp only [Value.keyEqual, hoq, hor, Bool.or_eq_false_iff, beq_eq_false_iff_ne]
      exact ⟨fun heq => hne.1 (hqr heq), hne.2⟩
    · cases key' <;> first | (cases hw'; rfl) | cases hnone'
  · rcases hatom hhash' with ⟨b, re', im', rfl⟩ | hnone'
    · obtain ⟨r, -, rfl⟩ := eq_ref_of_corresponds rfl hw'
      cases key <;> first | (cases hw; rfl) | cases hnone
    · cases key <;> first | (cases hhash; done) | cases hw | cases hnone
      all_goals
        cases key' <;> first | (cases hw'; exact hne) | cases hnone'

end

theorem mem_of_forall₂ {α β : Type} {R : α → β → Prop} {l : List α} {l' : List β}
    (h : Forall₂ R l l') {y : β} (hy : y ∈ l') : ∃ x ∈ l, R x y := by
  induction h with
  | nil => cases hy
  | cons hxy _ ih =>
    rcases mem_cons.mp hy with rfl | hy
    · exact ⟨_, mem_cons_self, hxy⟩
    · obtain ⟨x, hx, hR⟩ := ih hy
      exact ⟨x, mem_cons_of_mem _ hx, hR⟩

theorem pairwise_of_forall₂ {α β : Type} {R : α → β → Prop} {S : α → α → Prop}
    {S' : β → β → Prop} {l : List α} {l' : List β} (h : Forall₂ R l l')
    (hS : ∀ x ∈ l, ∀ y ∈ l, ∀ x' y', R x x' → R y y' → S x y → S' x' y')
    (hpairwise : l.Pairwise S) : l'.Pairwise S' := by
  induction h with
  | nil => exact Pairwise.nil
  | cons hxy hrest ih =>
    obtain ⟨hhead, htail⟩ := pairwise_cons.mp hpairwise
    refine pairwise_cons.mpr ⟨fun y' hy' => ?_, ih (fun x hx y hy =>
      hS x (mem_cons_of_mem _ hx) y (mem_cons_of_mem _ hy)) htail⟩
    obtain ⟨y, hy, hR⟩ := mem_of_forall₂ hrest hy'
    exact hS _ mem_cons_self y (mem_cons_of_mem _ hy) _ y' hxy hR (hhead y hy)

theorem dict_fills (wf : root.WellFormed) {key value : JitType}
    (hv : IValue.genericDict a key value entries ∈ root.subvalues)
    (h : Tracks typeParser useCount root p u φ)
    (hall : Forall₂ (Corresponds φ) (entries.flatMap fun entry => [entry.1, entry.2]) values)
    (hstack : u.stack = values.reverse ++ .ref q :: stack)
    (hmarks : u.marks = (Value.ref q :: stack).length :: marks)
    (ho : u.heap[q]? = some (.dict .any .any [])) :
    ∃ o₁ o₂, Fills typeParser φ (.genericDict a key value entries) (.dict key value) .setItems u q
      stack marks o₁ o₂ := by
  obtain ⟨entries', rfl, hentries⟩ := entries_of_values hall
  have hmem : ∀ entry ∈ entries, entry.1 ∈ root.subvalues := by
    intro entry hentry
    exact IValue.mem_subvalues_child hv (mem_flatMap.mpr ⟨entry, hentry, mem_cons_self⟩)
  have hhash : ∀ entry' ∈ entries', entry'.1.hashable u.heap = true := by
    intro entry' hentry'
    obtain ⟨entry, hentry, hkey, -⟩ := mem_of_forall₂ hentries hentry'
    exact hashable_of_corresponds h wf (hmem entry hentry) hkey
      (wf.hashable a key value entries hv entry hentry)
  have hdiff : entries'.Pairwise fun entry entry' =>
      entry.1.keyEqual u.heap entry'.1 = false := by
    refine pairwise_of_forall₂ hentries (fun x hx y hy x' y' hR hR' hne => ?_)
      (wf.different a key value entries hv)
    exact keyEqual_of_corresponds h wf (hmem x hx) (hmem y hy) hR.1 hR'.1
      (wf.hashable a key value entries hv x hx) (wf.hashable a key value entries hv y hy) hne
  have hinsert := insertAll_entries entries' [] hhash hdiff
  refine ⟨.dict .any .any entries', .dict key value entries', by simp, ?_, ?_, rfl, rfl, hentries⟩
  · rw [Unpickler.exec, popMark_eq hstack hmarks, bind_some]
    simp [Unpickler.readDict, ho, hinsert]
  · intro w hw
    simp only [Unpickler.restoreContainerTypeTags, hw]

end Containers

end PyTorchCore.Pickle
