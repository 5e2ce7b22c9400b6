import PyTorchCore.Pickle.Containers

/-!
# Values are read back

The unpickler reads a value back from what the pickler has written: with its structure, the order
of lists and dicts, the type tags, the bits of doubles and the sharing of objects.
-/

namespace PyTorchCore.Pickle

namespace IValue

/-- The type parser inverts `annotation_str` on the type tags of the value. -/
def TypesParse (typeParser : Bytes → Option JitType) (root : IValue) : Prop :=
  ∀ v ∈ root.subvalues, ∀ type, v.containerType = some type →
    typeParser type.annotationStr = some type

/-- The strings and the type tags are shorter than 2 ^ 32 bytes. -/
def TextsFit (root : IValue) : Prop :=
  ∀ v ∈ root.subvalues, ∀ s, v.text = some s → s.length < 2 ^ 32

end IValue

section RoundTrip

variable {typeParser : Bytes → Option JitType} {useCount : Address → Nat} {root : IValue}
variable {p p' : Pickler} {u u' : Unpickler} {φ φ' : Placement} {v : IValue} {a : Address}

theorem length_str_lt (d : Device) : d.str.length < 2 ^ 32 := by
  have hname : (deviceTypeName d.type).length ≤ 6 := by
    cases d.type <;> decide
  have hdecimal : ∀ n : Fin 129, (signedDecimal n.val).length ≤ 3 ∧
      (signedDecimal (-n.val)).length ≤ 4 := by decide
  have hindex : (signedDecimal d.index.toInt).length ≤ 4 := by
    have hle := d.index.le_toInt
    have hlt := d.index.toInt_lt
    obtain ⟨hpos, hneg⟩ := hdecimal ⟨d.index.toInt.natAbs, by omega⟩
    rcases Int.natAbs_eq d.index.toInt with h | h
    · rw [h]
      exact Nat.le_succ_of_le hpos
    · rw [h]
      exact hneg
  have hcolon : (ascii ":").length = 1 := rfl
  rw [Device.str]
  split
  · rw [List.length_append, List.length_append]
    omega
  · omega

theorem pushEntries_eq (entries : List (IValue × IValue)) (p : Pickler) :
    Pickler.pushEntries useCount entries p =
      Pickler.pushAll useCount (entries.flatMap fun entry => [entry.1, entry.2]) p := by
  induction entries generalizing p with
  | nil => rfl
  | cons entry entries ih => exact ih _

theorem simulates_atom (ha : v.address = none) {w : Value}
    (hcorresponds : ∀ φ : Placement, Corresponds φ v w)
    (hpush : ∀ {p u φ}, Ready typeParser useCount root p u φ →
      ∃ u', Pushed typeParser useCount root u φ [w] (Pickler.pushIValueImpl useCount v p) u' φ) :
    Simulates typeParser useCount root v := by
  intro p u φ h _ _
  obtain ⟨u', hpushed⟩ := hpush h
  refine ⟨u', φ, w, ?_, hcorresponds φ, fun b hb hb' => absurd hb hb'⟩
  rw [Pickler.pushIValue, ha]
  exact hpushed

/-- A value with an address: from the memo if it is there, else built and remembered. -/
theorem simulates_object (hfits : root.MemoFits useCount) (hv : v ∈ root.subvalues)
    (ha : v.address = some a)
    (hbuild : ∀ {p u φ}, Ready typeParser useCount root p u φ → Entered root φ v →
      φ a = none → ∃ u' φ' q,
        Built typeParser useCount root u φ v (Pickler.pushIValueImpl useCount v p) u' φ' q) :
    Simulates typeParser useCount root v := by
  intro p u φ h hentered hshared
  cases hplaced : φ a with
  | some q =>
    have hne : φ a ≠ none := by
      rw [hplaced]
      exact Option.some_ne_none q
    have hcount := hshared a ha hne
    obtain ⟨id, hid⟩ := Option.ne_none_iff_exists'.mp (h.memoized a hne hcount)
    obtain ⟨w, hw, r, hr, rfl⟩ := h.tracks.entries _ _ hid
    have hpush : Pickler.pushIValue useCount v p = p.pushBinGet id := by
      simp only [Pickler.pushIValue, Pickler.memoizeByPointer, ha, if_pos hcount,
        show p.memoizedIvalues.lookup a = some id from hid]
    rw [hpush]
    exact ⟨_, φ, .ref r, pushBinGet_pushed h hw, corresponds_ref ha hr,
      fun b hb hb' => absurd hb hb'⟩
  | none =>
    have hnew : p.lookup (.ivalue a) = none := by
      cases hid : p.lookup (.ivalue a) with
      | none => rfl
      | some id =>
        obtain ⟨w, -, r, hr, -⟩ := h.tracks.entries _ _ hid
        rw [hplaced] at hr
        cases hr
    obtain ⟨u', φ', q, hbuilt⟩ := hbuild h hentered hplaced
    obtain ⟨u'', hpushed⟩ := memoize_pushed hfits hv ha hnew hbuilt
    exact ⟨u'', φ'.place a q, .ref q, hpushed, corresponds_ref ha Placement.place_self,
      hbuilt.newlyPlaced ha⟩

/-- Pushing a value and running what was pushed puts the value on the stack. -/
theorem simulates (wf : root.WellFormed) (hcounts : CountsSlots useCount root)
    (hfits : root.MemoFits useCount) (hparse : root.TypesParse typeParser)
    (hsized : root.TextsFit) (v : IValue) :
    v ∈ root.subvalues → ¬ v.HoldsUnreadable → Simulates typeParser useCount root v := by
  induction v using IValue.childInduction with
  | h v ih =>
    intro hv hreadable
    have hsim : ∀ c ∈ v.children, Simulates typeParser useCount root c :=
      fun c hc => ih c hc (IValue.mem_subvalues_child hv hc) fun hholds =>
        hreadable (hholds.of_child hc)
    cases v with
    | none =>
      exact simulates_atom rfl (fun _ => rfl) fun h =>
        ⟨_, h.pushValue rfl trivial fun hc => nomatch hc⟩
    | bool b => exact simulates_atom rfl (fun _ => rfl) fun h => ⟨_, pushBool_pushed h b⟩
    | int n => exact simulates_atom rfl (fun _ => rfl) fun h => ⟨_, pushInt_pushed h n⟩
    | double bits =>
      exact simulates_atom rfl (fun _ => rfl) fun h => ⟨_, pushDouble_pushed h bits⟩
    | string s =>
      exact simulates_atom rfl (fun _ => rfl) fun h =>
        pushString_pushed h hfits (hsized _ hv s rfl) (mem_memoKeys hv List.mem_cons_self)
    | device d =>
      exact simulates_atom rfl (fun _ => rfl) fun h =>
        pushDevice_pushed h hfits (fun hd => hreadable ⟨d, IValue.mem_subvalues_self _, hd⟩)
          (length_str_lt d)
          fun k hk => mem_memoKeys hv hk
    | complexDouble a re im =>
      refine simulates_object hfits hv rfl fun {p u φ} h _ hfree => ?_
      obtain ⟨u', q, hbuilt⟩ := complex_built hfits hv h hfree
      exact ⟨u', φ, q, hbuilt⟩
    | tuple a elements =>
      exact simulates_object hfits hv rfl fun h hentered hfree =>
        tuple_built wf hcounts hv hsim h hfree hentered
    | intList a items =>
      refine simulates_object hfits hv rfl fun {p u φ} h _ hfree => ?_
      obtain ⟨u', q, hbuilt⟩ := specializedList_built (v := .intList a items) hfits
        (fun h x => pushInt_pushed h x) rfl (by decide) (mem_memoKeys hv List.mem_cons_self)
        ⟨rfl, rfl⟩ (fun b hb => by cases hb; exact hfree) h
      exact ⟨u', φ, q, hbuilt⟩
    | doubleList a items =>
      refine simulates_object hfits hv rfl fun {p u φ} h _ hfree => ?_
      obtain ⟨u', q, hbuilt⟩ := specializedList_built (v := .doubleList a items) hfits
        (fun h x => pushDouble_pushed h x) rfl (by decide)
        (mem_memoKeys hv List.mem_cons_self) ⟨rfl, rfl⟩
        (fun b hb => by cases hb; exact hfree) h
      exact ⟨u', φ, q, hbuilt⟩
    | boolList a items =>
      refine simulates_object hfits hv rfl fun {p u φ} h _ hfree => ?_
      obtain ⟨u', q, hbuilt⟩ := specializedList_built (v := .boolList a items) hfits
        (fun h x => pushBool_pushed h x) rfl (by decide)
        (mem_memoKeys hv List.mem_cons_self) ⟨rfl, rfl⟩
        (fun b hb => by cases hb; exact hfree) h
      exact ⟨u', φ, q, hbuilt⟩
    | genericList a elem items =>
      exact simulates_object hfits hv rfl fun h hentered hfree =>
        typeTagged_built (.list elem) .emptyList .appends wf hcounts hfits hv rfl
          (fun _ => rfl) (by simp) ⟨trivial, trivial⟩ ⟨by simp, by simp⟩
            (mem_memoKeys hv List.mem_cons_self)
          (mem_memoKeys hv (List.mem_cons_of_mem _ List.mem_cons_self))
          (hsized _ hv _ rfl) (hparse _ hv _ rfl) hsim
          (fun _ hall hstack hmarks ho => ⟨_, _, list_fills hall hstack hmarks ho⟩)
          h hfree hentered
    | genericDict a key value entries =>
      refine simulates_object hfits hv rfl fun h hentered hfree => ?_
      have hbuilt := typeTagged_built (.dict key value) .emptyDict .setItems wf hcounts hfits
        hv rfl (fun _ => rfl) (by simp) ⟨trivial, trivial⟩ ⟨by simp, by simp⟩
        (mem_memoKeys hv List.mem_cons_self)
        (mem_memoKeys hv (List.mem_cons_of_mem _ List.mem_cons_self))
        (hsized _ hv _ rfl) (hparse _ hv _ rfl) hsim
        (fun hready hall hstack hmarks ho =>
          dict_fills wf hv hready.tracks hall hstack hmarks ho)
        h hfree hentered
      simp only [Pickler.pushIValueImpl, pushEntries_eq]
      exact hbuilt

theorem exists_value_of_child {o : Object} {c : IValue} (h : ObjectCorresponds φ v o)
    (hc : c ∈ v.children) : ∃ w, Corresponds φ c w := by
  have hall : ∀ {vs : List IValue} {ws : List Value}, List.Forall₂ (Corresponds φ) vs ws →
      c ∈ vs → ∃ w, Corresponds φ c w := by
    intro vs ws hvs hmem
    obtain ⟨w, -, hw⟩ := mem_of_forall₂ hvs.flip hmem
    exact ⟨w, hw⟩
  cases v <;> cases o <;> first | (cases h; done) | (cases hc; done) | skip
  case tuple.tuple => exact hall h hc
  case genericList.list => exact hall h.2 hc
  case genericDict.dict a key value entries key' value' values =>
      obtain ⟨entry, hentry, hmem⟩ := List.mem_flatMap.mp hc
      obtain ⟨entry', -, hkey, hvalue⟩ := mem_of_forall₂ h.2.2.flip hentry
      simp only [List.mem_cons, List.not_mem_nil, or_false] at hmem
      rcases hmem with rfl | rfl
      · exact ⟨_, hkey⟩
      · exact ⟨_, hvalue⟩

theorem sameValue_of_tracks (wf : root.WellFormed)
    (h : Tracks typeParser useCount root p u φ) {w : Value} (hroot : Corresponds φ root w) :
    SameValue root u w φ := by
  have hobject : ∀ v ∈ root.subvalues, ∀ a q, v.address = some a → φ a = some q →
      ∃ o, u.heap[q]? = some o ∧ ObjectCorresponds φ v o := by
    intro v hv a q ha hq
    obtain ⟨v', hv', ha', o, ho, hcorresponds⟩ := h.placed a q hq
    obtain rfl := wf.consistent v' hv' v hv a ha' ha
    exact ⟨o, ho, hcorresponds⟩
  have hinside : ∀ v, v ∈ root.subvalues → (∃ w, Corresponds φ v w) →
      ∀ c ∈ v.subvalues, ∃ w, Corresponds φ c w := by
    intro v
    induction v using IValue.childInduction with
    | h v ih =>
      rintro hv ⟨w, hw⟩ c hc
      rcases IValue.mem_subvalues_iff.mp hc with rfl | ⟨d, hd, hc⟩
      · exact ⟨w, hw⟩
      · refine ih d hd (IValue.mem_subvalues_child hv hd) ?_ c hc
        obtain ⟨a, ha⟩ := IValue.address_of_child hd
        obtain ⟨q, hq, rfl⟩ := eq_ref_of_corresponds ha hw
        obtain ⟨o, -, hcorresponds⟩ := hobject v hv a q ha hq
        exact exists_value_of_child hcorresponds hd
  have hplaced : ∀ v ∈ root.subvalues, ∀ a, v.address = some a →
      ∃ q o, φ a = some q ∧ u.heap[q]? = some o ∧ ObjectCorresponds φ v o := by
    intro v hv a ha
    obtain ⟨w', hw'⟩ := hinside root (IValue.mem_subvalues_self root) ⟨w, hroot⟩ v hv
    obtain ⟨q, hq, -⟩ := eq_ref_of_corresponds ha hw'
    obtain ⟨o, ho, hcorresponds⟩ := hobject v hv a q ha hq
    exact ⟨q, o, hq, ho, hcorresponds⟩
  refine ⟨hroot, hplaced, ?_⟩
  intro v hv v' hv' hmutable _ a a' ha ha' heq
  obtain ⟨q, o, hq, ho, hcorresponds⟩ := hplaced v hv a ha
  refine (h.injective a a' q hq (heq ▸ hq)).resolve_right fun hempty => ?_
  rw [ho] at hempty
  cases hempty
  cases v <;> first | (cases hmutable; done) | cases hcorresponds

theorem ready_start : Ready typeParser useCount root (Pickler.protocol {}) {} fun _ => none := by
  refine ⟨⟨⟨[], rfl, by simp, rfl⟩, rfl, ⟨∅, fun k => ?_, rfl, ?_⟩, ?_, ?_, ?_, ?_⟩,
    Nat.le_refl _, ?_⟩
  · cases k <;> simp [Pickler.lookup, Pickler.protocol, Pickler.push]
  · exact fun k hk => absurd hk (Finset.notMem_empty k)
  · intro k id hk
    cases k <;> cases hk
  · simp
  · simp
  · simp
  · exact fun a ha => absurd rfl ha

/-- A value whose devices are readable is read back. -/
theorem roundTrips_of_readable (wf : root.WellFormed)
    (hcounts : CountsSlots useCount root) (hfits : root.MemoFits useCount)
    (hparse : root.TypesParse typeParser) (hsized : root.TextsFit)
    (hreadable : ¬ root.HoldsUnreadable) : RoundTrips typeParser useCount root := by
  have hself := IValue.mem_subvalues_self root
  obtain ⟨u', φ', w, hpushed, hcorresponds, -⟩ :=
    simulates wf hcounts hfits hparse hsized root hself hreadable _ _ _ ready_start
      (fun b hb => absurd rfl hb) (fun a _ ha => absurd rfl ha)
  obtain ⟨is, hwritten, his, hrun⟩ := hpushed.ready.tracks.runs
  refine ⟨u', w, φ', ?_, hpushed.stack, hpushed.marks,
    sameValue_of_tracks wf hpushed.ready.tracks hcorresponds⟩
  rw [Pickler.pickle, Pickler.stop, Pickler.push, hwritten, Unpickler.run_encode his, hrun]

end RoundTrip

end PyTorchCore.Pickle
