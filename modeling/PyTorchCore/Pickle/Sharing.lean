import PyTorchCore.Pickle.Tracking

/-!
# Every object is built once

The pickler looks an object up by its pointer only when the object has more than one reference. An
object with a single reference is therefore built whenever its place is visited.
-/

namespace PyTorchCore.Pickle

open Option List Placement

section Sharing

variable (typeParser : Bytes → Option JitType) (useCount : Address → Nat) (root : IValue)

/-- A placed object that occurs inside `v` is held by a placed object or by one that does not
occur in `v`. -/
def Entered (φ : Placement) (v : IValue) : Prop :=
  ∀ b, φ b ≠ none → (∃ c ∈ v.children, c.Occurs b) →
    ∃ a i, root.Slot a i b ∧ (φ a ≠ none ∨ ¬ v.Occurs a)

/-- The same while `v` is being built and the places up to `n` have been visited. -/
def EnteredAt (φ : Placement) (v : IValue) (n : Nat) : Prop :=
  ∀ b, φ b ≠ none → (∃ c ∈ v.children, c.Occurs b) →
    ∃ a i, root.Slot a i b ∧ (φ a ≠ none ∨ ¬ v.Occurs a ∨ (v.address = some a ∧ i < n))

/-- The newly placed objects are `v` and objects that placed objects hold. -/
def NewlyPlaced (φ φ' : Placement) (v : IValue) : Prop :=
  ∀ b, φ b = none → φ' b ≠ none →
    v.Occurs b ∧ (v.address = some b ∨ ∃ a i, root.Slot a i b ∧ φ' a ≠ none)

/-- The newly placed objects are held by `v` and by placed objects. -/
def NewlyPlacedInside (φ φ' : Placement) (v : IValue) : Prop :=
  ∀ b, φ b = none → φ' b ≠ none →
    (∃ c ∈ v.children, c.Occurs b) ∧
      ∃ a i, root.Slot a i b ∧ (φ' a ≠ none ∨ v.address = some a)

/-- An object that is held at two places has more than one reference. -/
def CountsSlots : Prop :=
  ∀ a i a' i' b, root.Slot a i b → root.Slot a' i' b → (a, i) ≠ (a', i') → 1 < useCount b

/-- `pushIValue` pushes the value. -/
def Simulates (v : IValue) : Prop :=
  ∀ p u φ, Ready typeParser useCount root p u φ → Entered root φ v →
    (∀ a, v.address = some a → φ a ≠ none → 1 < useCount a) →
      ∃ u' φ' w, Pushed typeParser useCount root u φ [w] (Pickler.pushIValue useCount v p) u' φ' ∧
        Corresponds φ' v w ∧ NewlyPlaced root φ φ' v

/-- The places with one more object. -/
def Placement.place (φ : Placement) (a : Address) (q : Pointer) : Placement :=
  fun b => if b = a then some q else φ b

end Sharing

section SharingLemmas

variable {typeParser : Bytes → Option JitType} {useCount : Address → Nat} {root : IValue}
variable {p p' : Pickler} {u u' : Unpickler} {φ φ' : Placement} {v c : IValue} {a : Address}
variable {q : Pointer} {o : Object}

theorem Entered.start (h : Entered root φ v) : EnteredAt root φ v 0 := by
  intro b hb hocc
  obtain ⟨a, i, hslot, hplaced | hout⟩ := h b hb hocc
  · exact ⟨a, i, hslot, .inl hplaced⟩
  · exact ⟨a, i, hslot, .inr (.inl hout)⟩

section

variable {n : Nat} (h : EnteredAt root φ v n) (hv : v ∈ root.subvalues)
include h hv

/-- A child of a value that is being built is entered. -/
theorem EnteredAt.child (wf : root.WellFormed) (hc : c ∈ v.children) : Entered root φ c := by
  rintro b hb ⟨d, hd, hocc⟩
  obtain ⟨a, i, hslot, hcases⟩ := h b hb ⟨c, hc, IValue.Occurs.child hd hocc⟩
  refine ⟨a, i, hslot, ?_⟩
  rcases hcases with hplaced | hout | ⟨ha, -⟩
  · exact .inl hplaced
  · exact .inr fun hoccurs => hout (hoccurs.child hc)
  · exact .inr (IValue.address_not_mem_child wf hv ha hc)

theorem EnteredAt.shared (hcounts : CountsSlots useCount root) (ha : v.address = some a)
    (hfree : φ a = none) (hc : v.children[n]? = some c) {b : Address} (hb : c.address = some b)
    (hplaced : φ b ≠ none) : 1 < useCount b := by
  have hmem : c ∈ v.children := mem_of_getElem? hc
  have hself : v.Occurs a := ⟨v, IValue.mem_subvalues_self v, ha⟩
  obtain ⟨a', i, hslot, hcases⟩ :=
    h b hplaced ⟨c, hmem, c, IValue.mem_subvalues_self c, hb⟩
  refine hcounts a n a' i b (IValue.slot_of_child hv ha hc hb) hslot fun heq => ?_
  cases heq
  rcases hcases with hother | hout | ⟨-, hlt⟩
  · exact hother hfree
  · exact hout hself
  · exact Nat.lt_irrefl _ hlt

/-- The next child, when one has been built. -/
theorem EnteredAt.next (ha : v.address = some a) (hc : v.children[n]? = some c) (hφ : φ.Extends φ')
    (hnew : NewlyPlaced root φ φ' c) : EnteredAt root φ' v (n + 1) := by
  intro b hb hocc
  by_cases hold : φ b = none
  · obtain ⟨-, haddress | ⟨a', i, hslot, hplaced⟩⟩ := hnew b hold hb
    · exact ⟨a, n, IValue.slot_of_child hv ha hc haddress, .inr (.inr ⟨ha, Nat.lt_succ_self n⟩)⟩
    · exact ⟨a', i, hslot, .inl hplaced⟩
  · obtain ⟨a', i, hslot, hplaced | hout | ⟨ha', hlt⟩⟩ := h b hold hocc
    · obtain ⟨q, hq⟩ := ne_none_iff_exists'.mp hplaced
      exact ⟨a', i, hslot, .inl (by rw [hφ a' q hq]; exact some_ne_none q)⟩
    · exact ⟨a', i, hslot, .inr (.inl hout)⟩
    · exact ⟨a', i, hslot, .inr (.inr ⟨ha', Nat.lt_succ_of_lt hlt⟩)⟩

end

theorem pushAll_simulates (wf : root.WellFormed) (hcounts : CountsSlots useCount root)
    (hv : v ∈ root.subvalues) (ha : v.address = some a) {rest : List IValue}
    (hsim : ∀ c ∈ rest, Simulates typeParser useCount root c) (done : List IValue)
    (hchildren : v.children = done ++ rest) (h : Ready typeParser useCount root p u φ)
    (hfree : φ a = none) (hentered : EnteredAt root φ v done.length) :
    ∃ u' φ' values, Pushed typeParser useCount root u φ values
        (Pickler.pushAll useCount rest p) u' φ' ∧
      Forall₂ (Corresponds φ') rest values ∧ φ' a = none ∧
      NewlyPlacedInside root φ φ' v := by
  induction rest generalizing done p u φ with
  | nil =>
    exact ⟨u, φ, [], Pushed.refl h, Forall₂.nil, hfree, fun b hb hb' => absurd hb hb'⟩
  | cons c rest ih =>
    have hc : v.children[done.length]? = some c := by
      rw [hchildren, getElem?_append_right (Nat.le_refl _), Nat.sub_self]
      rfl
    have hmem : c ∈ v.children := mem_of_getElem? hc
    obtain ⟨u₁, φ₁, w, hpushed, hcorresponds, hnew⟩ := hsim c mem_cons_self p u φ h
      (hentered.child hv wf hmem)
      (fun b hb hplaced => hentered.shared hv hcounts ha hfree hc hb hplaced)
    have hfree₁ : φ₁ a = none := by
      by_contra hplaced
      exact IValue.address_not_mem_child wf hv ha hmem (hnew a hfree hplaced).1
    have hentered₁ : EnteredAt root φ₁ v (done ++ [c]).length := by
      rw [length_append, length_singleton]
      exact hentered.next hv ha hc hpushed.places hnew
    obtain ⟨u', φ', values, hpushed', hall, hfree', hnew'⟩ :=
      ih (fun d hd => hsim d (mem_cons_of_mem _ hd)) (done ++ [c])
        (by rw [hchildren, append_assoc]; rfl) hpushed.ready hfree₁ hentered₁
    refine ⟨u', φ', w :: values, hpushed.trans hpushed',
      Forall₂.cons (hcorresponds.mono hpushed'.places) hall, hfree', ?_⟩
    intro b hb hb'
    by_cases hmid : φ₁ b = none
    · exact hnew' b hmid hb'
    · obtain ⟨hocc, haddress | ⟨a', i, hslot, hplaced⟩⟩ := hnew b hb hmid
      · exact ⟨⟨c, hmem, hocc⟩, a, _, IValue.slot_of_child hv ha hc haddress, .inr ha⟩
      · obtain ⟨q, hq⟩ := ne_none_iff_exists'.mp hplaced
        refine ⟨⟨c, hmem, hocc⟩, a', i, hslot, .inl ?_⟩
        rw [hpushed'.places a' q hq]
        exact some_ne_none q

theorem Placement.place_self : φ.place a q a = some q := if_pos rfl

theorem Placement.extends_place (hfree : φ a = none) : φ.Extends (φ.place a q) := by
  intro b r hb
  rw [place, if_neg]
  · exact hb
  · rintro rfl
    rw [hfree] at hb
    cases hb

/-- An object that was built gets its place. -/
theorem Tracks.place (h : Tracks typeParser useCount root p u φ) (hv : v ∈ root.subvalues)
    (ha : v.address = some a) (hfree : φ a = none) (ho : u.heap[q]? = some o)
    (hobject : ObjectCorresponds φ v o) (hunplaced : ∀ b, φ b = some q → o = .tuple []) :
    Tracks typeParser useCount root p u (φ.place a q) where
  runs := h.runs
  memoId := h.memoId
  counted := h.counted
  entries := by
    intro k id hk
    obtain ⟨w, hw, hentry⟩ := h.entries k id hk
    exact ⟨w, hw, hentry.mono (prefix_refl _) (Placement.extends_place hfree)⟩
  emptyTuple := h.emptyTuple
  placed := by
    intro b r hb
    rw [Placement.place] at hb
    split at hb
    · next heq =>
        cases hb
        exact ⟨v, hv, heq ▸ ha, o, ho, hobject.mono (Placement.extends_place hfree)⟩
    · obtain ⟨v', hv', hb', o', ho', hobject'⟩ := h.placed b r hb
      exact ⟨v', hv', hb', o', ho', hobject'.mono (Placement.extends_place hfree)⟩
  injective := by
    intro b d r hb hd
    rw [Placement.place] at hb hd
    split at hb
    · next hba =>
        cases hb
        split at hd
        · next hda => exact .inl (hba.trans hda.symm)
        · rw [ho, hunplaced d hd]
          exact .inr rfl
    · split at hd
      · cases hd
        rw [ho, hunplaced b hb]
        exact .inr rfl
      · exact h.injective b d r hb hd

/-- What the instructions of an object leave: the object behind the pointer on the stack. -/
structure Built (typeParser : Bytes → Option JitType) (useCount : Address → Nat) (root : IValue)
    (u : Unpickler) (φ : Placement) (v : IValue) (p' : Pickler) (u' : Unpickler)
    (φ' : Placement) (q : Pointer) : Prop where
  pushed : Pushed typeParser useCount root u φ [.ref q] p' u' φ'
  object : ∃ o, u'.heap[q]? = some o ∧ ObjectCorresponds φ' v o ∧
    ((u.heap.length ≤ q ∧ ∀ b, φ' b ≠ some q) ∨ o = .tuple [])
  free : ∀ a, v.address = some a → φ' a = none
  newly : NewlyPlacedInside root φ φ' v

theorem Built.newlyPlaced (h : Built typeParser useCount root u φ v p' u' φ' q)
    (ha : v.address = some a) : NewlyPlaced root φ (φ'.place a q) v := by
  intro b hb hplaced
  by_cases hba : b = a
  · exact ⟨⟨v, IValue.mem_subvalues_self v, hba ▸ ha⟩, .inl (hba ▸ ha)⟩
  · rw [place, if_neg hba] at hplaced
    obtain ⟨⟨c, hc, hocc⟩, a', i, hslot, hcases⟩ := h.newly b hb hplaced
    refine ⟨hocc.child hc, .inr ⟨a', i, hslot, ?_⟩⟩
    rw [place]
    split
    · exact some_ne_none q
    · next hne =>
        rcases hcases with hold | haddress
        · exact hold
        · exact absurd (Option.some.inj (haddress.symm.trans ha)) hne

theorem memoize_pushed (hfits : root.MemoFits useCount) (hv : v ∈ root.subvalues)
    (ha : v.address = some a) {impl : Pickler → Pickler}
    (hnew : p.lookup (.ivalue a) = none)
    (h : Built typeParser useCount root u φ v (impl p) u' φ' q) :
    ∃ u'', Pushed typeParser useCount root u φ [.ref q]
      (Pickler.memoizeByPointer useCount v.address impl p) u'' (φ'.place a q) := by
  obtain ⟨o, ho, hobject, hunplaced⟩ := h.object
  have hfree := h.free a ha
  have hplace := h.pushed.ready.tracks.place hv ha hfree ho hobject fun b hb =>
    hunplaced.resolve_left fun hnone => hnone.2 b hb
  have hplaces : φ.Extends (φ'.place a q) := fun b r hb =>
    extends_place hfree b r (h.pushed.places b r hb)
  have hfresh : ∀ b r, φ'.place a q b = some r →
      φ b = some r ∨ u.heap.length ≤ r ∨ u'.heap[r]? = some (.tuple []) := by
    intro b r hb
    rw [place] at hb
    split at hb
    · cases hb
      rcases hunplaced with hle | rfl
      · exact .inr (.inl hle.1)
      · exact .inr (.inr ho)
    · exact h.pushed.fresh b r hb
  have hmemoized : ∀ b, b ≠ a → φ'.place a q b ≠ none → 1 < useCount b →
      (impl p).lookup (.ivalue b) ≠ none := by
    intro b hba hb hshared
    rw [place, if_neg hba] at hb
    exact h.pushed.ready.memoized b hb hshared
  by_cases hshared : 1 < useCount a
  · have hlookup : (impl p).lookup (.ivalue a) = none := by
      cases hid : (impl p).lookup (.ivalue a) with
      | none => rfl
      | some id =>
        obtain ⟨w, -, r, hr, -⟩ := h.pushed.ready.tracks.entries _ _ hid
        rw [hfree] at hr
        cases hr
    have hmemo : Pickler.memoizeByPointer useCount v.address impl p =
        (impl p).remember (.ivalue a) := by
      simp only [Pickler.memoizeByPointer, ha, if_pos hshared,
        show p.memoizedIvalues.lookup a = none from hnew]
      rfl
    have hkey : MemoKey.ivalue a ∈ root.memoKeys useCount := by
      refine mem_flatMap.mpr ⟨v, hv, mem_append_right _ ?_⟩
      simp only [IValue.pointerKeys, ha, if_pos hshared, mem_singleton]
    have hput := hplace.remember hfits h.pushed.stack hlookup hkey ⟨q, place_self, rfl⟩
    rw [hmemo]
    refine ⟨_, ⟨⟨hput, ?_, ?_⟩, h.pushed.stack, h.pushed.marks, h.pushed.heap, h.pushed.globals,
      hplaces, hfresh⟩⟩
    · rw [length_append]
      exact Nat.le_add_right_of_le h.pushed.ready.globals_le
    · intro b hb hcount
      rw [lookup_remember]
      split
      · exact some_ne_none _
      · next hne => exact hmemoized b (fun hba => hne (hba ▸ rfl)) hb hcount
  · have hmemo : Pickler.memoizeByPointer useCount v.address impl p = impl p := by
      simp only [Pickler.memoizeByPointer, ha, if_neg hshared]
    rw [hmemo]
    refine ⟨u', ⟨⟨hplace, h.pushed.ready.globals_le, ?_⟩, h.pushed.stack, h.pushed.marks,
      h.pushed.heap, h.pushed.globals, hplaces, hfresh⟩⟩
    intro b hb hcount
    refine hmemoized b ?_ hb hcount
    rintro rfl
    exact hshared hcount

end SharingLemmas

end PyTorchCore.Pickle
