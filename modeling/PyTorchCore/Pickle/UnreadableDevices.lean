import PyTorchCore.Pickle.RoundTrip

/-!
# An unreadable device stops the unpickler

The constructor of `Device` from a string throws for the string of an unreadable device.
-/

namespace PyTorchCore.Pickle

open List

/-- Instructions have been added. -/
def Longer (p q : Pickler) : Prop :=
  p.written <+: q.written

section Longer

variable {useCount : Address → Nat} {p q : Pickler}

section

variable (h : Longer p q)
include h

theorem Longer.push (i : Instruction) : Longer p (q.push i) :=
  h.trans (prefix_append _ _)

theorem Longer.remember (k : MemoKey) : Longer p (q.remember k) := by
  refine IsPrefix.trans h ?_
  rw [written_remember]
  exact prefix_append _ _

theorem Longer.pushString (s : Bytes) : Longer p (q.pushString s) := by
  rw [Pickler.pushString]
  split
  · exact h.push _
  · exact (h.push (.binUnicode s)).remember (.string s)

theorem Longer.pushGlobal (moduleName className : Bytes) :
    Longer p (q.pushGlobal moduleName className) := by
  rw [Pickler.pushGlobal]
  split
  · exact h.push _
  · exact (h.push (.global moduleName className)).remember
      (.global (Pickler.globalKey moduleName className))

theorem Longer.pushDevice (d : Device) : Longer p (q.pushDevice d) := by
  rw [Pickler.pushDevice]
  split
  · exact h.push _
  · exact ((((h.pushGlobal _ _).pushString _).push .tuple1).push .reduce).remember (.device d.str)

theorem Longer.pushInt (n : Int64) : Longer p (q.pushInt n) := by
  rw [Pickler.pushInt]
  split
  · exact h.push _
  · split
    · exact h.push _
    · split <;> exact h.push _

theorem Longer.pushSpecializedList {α : Type} {itemPusher : α → Pickler → Pickler}
    (hitem : ∀ {p q}, Longer p q → ∀ x, Longer p (itemPusher x q)) (listName : Bytes)
    (items : List α) :
    Longer p (q.pushSpecializedList listName itemPusher items) := by
  have hall : ∀ (items : List α) {q}, Longer p q →
      Longer p (items.foldl (fun q item => itemPusher item q) q) := by
    intro items
    induction items with
    | nil => exact fun h => h
    | cons x items ih => exact fun h => ih (hitem h x)
  exact (((hall items ((((h.pushGlobal _ _).push _).push _).push _)).push _).push _).push _

theorem Longer.memoize {impl : Pickler → Pickler} {address : Option Address}
    (himpl : ∀ {q}, Longer p q → Longer p (impl q)) :
    Longer p (Pickler.memoizeByPointer useCount address impl q) := by
  cases address with
  | none => exact himpl h
  | some a =>
    rw [Pickler.memoizeByPointer]
    split
    · split
      · exact h.push _
      · exact (himpl h).remember (.ivalue a)
    · exact himpl h

theorem Longer.pushAll {values : List IValue}
    (himpl : ∀ v ∈ values, ∀ {q}, Longer p q → Longer p (Pickler.pushIValueImpl useCount v q)) :
    Longer p (Pickler.pushAll useCount values q) := by
  induction values generalizing q with
  | nil => exact h
  | cons v rest ih =>
    exact ih (h.memoize (himpl v mem_cons_self)) (fun w hw => himpl w (mem_cons_of_mem _ hw))

end

/-- The pickler only adds instructions. -/
theorem Longer.pushIValueImpl (v : IValue) : ∀ {q}, Longer p q →
    Longer p (Pickler.pushIValueImpl useCount v q) := by
  induction v using IValue.childInduction with
  | h v ih =>
    intro q h
    cases v with
    | tuple a elements =>
      rcases elements with - | ⟨e₁, - | ⟨e₂, - | ⟨e₃, - | ⟨e₄, rest⟩⟩⟩⟩
      · exact h.push _
      · exact (h.pushAll ih).push _
      · exact (h.pushAll ih).push _
      · exact (h.pushAll ih).push _
      · exact ((h.push .mark).pushAll ih).push _
    | genericList a elem items =>
      exact ((((((((h.pushGlobal _ _).push _).push _).pushAll ih).push _).pushString _).push
        _).push _)
    | genericDict a key value entries =>
      rw [Pickler.pushIValueImpl, pushEntries_eq]
      exact ((((((((h.pushGlobal _ _).push _).push _).pushAll ih).push _).pushString _).push
        _).push _)
    | complexDouble a re im => exact ((((h.pushGlobal _ _).push _).push _).push _).push _
    | intList a items => exact h.pushSpecializedList (fun h x => h.pushInt x) _ items
    | doubleList a items => exact h.pushSpecializedList (fun h x => h.push _) _ items
    | boolList a items => exact h.pushSpecializedList (fun h x => h.push _) _ items
    | int n => exact h.pushInt n
    | string s => exact h.pushString s
    | device d => exact h.pushDevice d
    | _ => exact h.push _

end Longer

/-- The unpickler throws on what the pickler has written. -/
def Broken (typeParser : Bytes → Option JitType) (p : Pickler) : Prop :=
  ∃ is rest, p.written = .proto 2 :: is ++ rest ∧ (∀ i ∈ is, i.Encodable ∧ i ≠ .stop) ∧
    Unpickler.execAll typeParser is {} = none

/-- No placed object holds an unreadable device. -/
def Clean (root : IValue) (φ : Placement) : Prop :=
  ∀ a, φ a ≠ none → ∀ v ∈ root.subvalues, v.address = some a → ¬ v.HoldsUnreadable

section Broken

variable {typeParser : Bytes → Option JitType} {useCount : Address → Nat} {root : IValue}
variable {p q : Pickler} {u : Unpickler} {φ φ' : Placement} {v : IValue} {a : Address}
variable {i : Instruction}

theorem Broken.longer (h : Broken typeParser p) (hlonger : Longer p q) : Broken typeParser q := by
  obtain ⟨is, rest, hwritten, his, hfails⟩ := h
  obtain ⟨more, hmore⟩ := hlonger
  exact ⟨is, rest ++ more, by rw [← hmore, hwritten, append_assoc], his, hfails⟩

theorem Tracks.broken (h : Tracks typeParser useCount root p u φ)
    (hexec : u.exec typeParser i = none) (hencodable : i.Encodable) (hstop : i ≠ .stop) :
    Broken typeParser (p.push i) := by
  obtain ⟨is, hwritten, his, hrun⟩ := h.runs
  refine ⟨is ++ [i], [], ?_, ?_, ?_⟩
  · rw [Pickler.push, hwritten, append_nil, cons_append]
  · intro j hj
    rcases mem_append.mp hj with hj | hj
    · exact his j hj
    · rw [mem_singleton.mp hj]
      exact ⟨hencodable, hstop⟩
  · rw [Unpickler.execAll_append, hrun, Option.bind_some]
    simp only [Unpickler.execAll, foldlM_cons, hexec]
    rfl

theorem loop_of_execAll {is : List Instruction} (h : ∀ i ∈ is, i.Encodable ∧ i ≠ .stop)
    (hfails : Unpickler.execAll typeParser is u = none) (rest : Bytes) (turns : Nat) :
    Unpickler.loop typeParser turns (is.flatMap Instruction.encode ++ rest) u = none := by
  induction is generalizing turns u with
  | nil => cases hfails
  | cons i is ih =>
    cases turns with
    | zero => rfl
    | succ turns =>
      obtain ⟨hencodable, hstop⟩ := h i mem_cons_self
      rw [flatMap_cons, append_assoc, Unpickler.loop, readInstruction_encode hencodable,
        Option.bind_some]
      simp only [if_neg hstop]
      cases hexec : u.exec typeParser i with
      | none => rfl
      | some u' =>
        have hrest : Unpickler.execAll typeParser is u' = none := by
          rw [← hfails, Unpickler.execAll, Unpickler.execAll, foldlM_cons, hexec]
          rfl
        exact ih (fun j hj => h j (mem_cons_of_mem _ hj)) hrest turns

/-- The run of the unpickler throws. -/
theorem Broken.run (h : Broken typeParser p) :
    Unpickler.run typeParser (p.stop.written.flatMap Instruction.encode) = none := by
  obtain ⟨is, rest, hwritten, his, hfails⟩ := h
  have hbytes : p.stop.written.flatMap Instruction.encode = 0x80 :: 2 ::
      (is.flatMap Instruction.encode ++
        (rest ++ [Instruction.stop]).flatMap Instruction.encode) := by
    rw [Pickler.stop, Pickler.push, hwritten, append_assoc, flatMap_append, flatMap_cons]
    rfl
  rw [hbytes]
  exact loop_of_execAll his hfails _ _

/-- An unreadable device is not in the memo table, and its string is refused. -/
theorem pushDevice_broken (h : Ready typeParser useCount root p u φ)
    (hfits : root.MemoFits useCount) {d : Device} (hd : d.Unreadable)
    (hk : ∀ k ∈ (IValue.device d).ownKeys, k ∈ root.memoKeys useCount) :
    Broken typeParser (p.pushDevice d) := by
  have hread : Device.ofString d.str = none := by rw [ofString_str, if_pos hd]
  cases hlookup : p.lookup (.device d.str) with
  | some id =>
    obtain ⟨w, -, d', -, hd'⟩ := h.tracks.entries _ _ hlookup
    rw [hread] at hd'
    cases hd'
  | none =>
    obtain ⟨u₂, u₃, called, hready, -, hreduce, hargs, -⟩ :=
      device_argument h hfits (length_str_lt d) hk
    have hfails : Unpickler.callGlobal typeParser .device called = none := by
      simp [Unpickler.callGlobal, hargs, hread]
    rw [pushDevice_of_new hlookup]
    have hstop : Instruction.reduce ≠ .stop := by
      intro hc
      cases hc
    exact (hready.tracks.broken (hreduce.trans hfails) trivial hstop).longer
      (Longer.remember (prefix_refl _) _)

theorem Clean.newlyPlaced (h : Clean root φ) (wf : root.WellFormed) (hv : v ∈ root.subvalues)
    (hreadable : ¬ v.HoldsUnreadable) (hnew : NewlyPlaced root φ φ' v) : Clean root φ' := by
  intro b hb w hw hwb
  by_cases hold : φ b = none
  · obtain ⟨⟨c, hc, hcb⟩, -⟩ := hnew b hold hb
    obtain rfl := wf.consistent c (IValue.subvalues_trans hv hc) w hw b hcb hwb
    rintro ⟨d, hd, hunreadable⟩
    exact hreadable ⟨d, IValue.subvalues_trans hc hd, hunreadable⟩
  · exact h b hold w hw hwb

variable (typeParser useCount root) in
/-- The unpickler throws at the value, when it has come so far. -/
def Breaks (v : IValue) : Prop :=
  ∀ p u φ, Ready typeParser useCount root p u φ → Entered root φ v → Clean root φ →
    Broken typeParser (Pickler.pushIValue useCount v p)

/-- Among the values inside an object, the first one with an unreadable device breaks. -/
theorem pushAll_broken (wf : root.WellFormed) (hcounts : CountsSlots useCount root)
    (hv : v ∈ root.subvalues) (ha : v.address = some a) {rest : List IValue}
    (hsim : ∀ c ∈ rest, ¬ c.HoldsUnreadable → Simulates typeParser useCount root c)
    (hbreaks : ∀ c ∈ rest, c.HoldsUnreadable → Breaks typeParser useCount root c)
    (done : List IValue) (hchildren : v.children = done ++ rest)
    (h : Ready typeParser useCount root p u φ) (hfree : φ a = none)
    (hentered : EnteredAt root φ v done.length) (hclean : Clean root φ)
    (hholds : ∃ c ∈ rest, c.HoldsUnreadable) :
    Broken typeParser (Pickler.pushAll useCount rest p) := by
  induction rest generalizing done p u φ with
  | nil =>
    obtain ⟨c, hc, -⟩ := hholds
    exact absurd hc not_mem_nil
  | cons c rest ih =>
    have hc : v.children[done.length]? = some c := by
      rw [hchildren, getElem?_append_right (Nat.le_refl _), Nat.sub_self]
      rfl
    have hmem : c ∈ v.children := mem_of_getElem? hc
    have henteredChild := hentered.child hv wf hmem
    by_cases hbad : c.HoldsUnreadable
    · have hbroken := hbreaks c mem_cons_self hbad p u φ h henteredChild hclean
      show Broken typeParser (Pickler.pushAll useCount rest (Pickler.pushIValue useCount c p))
      exact hbroken.longer (Longer.pushAll (prefix_refl _) (fun w _ _ h => h.pushIValueImpl w))
    · obtain ⟨u₁, φ₁, w, hpushed, -, hnew⟩ := hsim c mem_cons_self hbad p u φ h henteredChild
        (fun b hb hplaced => hentered.shared hv hcounts ha hfree hc hb hplaced)
      have hfree₁ : φ₁ a = none := by
        by_contra hplaced
        exact IValue.address_not_mem_child wf hv ha hmem (hnew a hfree hplaced).1
      have hentered₁ : EnteredAt root φ₁ v (done ++ [c]).length := by
        rw [length_append, length_singleton]
        exact hentered.next hv ha hc hpushed.places hnew
      obtain ⟨d, hd, hholds'⟩ := hholds
      have hd' : d ∈ rest := (mem_cons.mp hd).resolve_left fun heq => hbad (heq ▸ hholds')
      exact ih (fun d hd => hsim d (mem_cons_of_mem _ hd))
        (fun d hd => hbreaks d (mem_cons_of_mem _ hd)) (done ++ [c])
        (by rw [hchildren, append_assoc]; rfl) hpushed.ready hfree₁ hentered₁
        (hclean.newlyPlaced wf (IValue.mem_subvalues_child hv hmem) hbad hnew) ⟨d, hd', hholds'⟩

theorem startTypeTag_ready (h : Ready typeParser useCount root p u φ)
    (hfits : root.MemoFits useCount) (empty : Instruction) {o : Object}
    (hempty : ∀ u, Unpickler.exec typeParser empty u = some (u.pushObject o))
    (hencodable : empty.Encodable) (hstop : empty ≠ .stop)
    (hk : .global (Pickler.globalKey Pickler.jitPickle (ascii "restore_type_tag")) ∈
      root.memoKeys useCount) :
    ∃ u', Ready typeParser useCount root ((p.startTypeTag.push empty).push .mark) u' φ := by
  obtain ⟨u₁, idx, hglobal, -, -⟩ := pushGlobal_pushed h hfits (f := .restoreTypeTag) rfl
    (by decide) (by decide) hk
  have hready := hglobal.ready.step (hempty u₁) hencodable hstop rfl rfl rfl (prefix_append _ _)
  exact ⟨_, hready.step (i := .mark) rfl trivial (by simp) rfl rfl rfl (prefix_refl _)⟩

/-- A value that holds an unreadable device breaks. -/
theorem breaks (wf : root.WellFormed) (hcounts : CountsSlots useCount root)
    (hfits : root.MemoFits useCount) (hparse : root.TypesParse typeParser)
    (hsized : root.TextsFit) (v : IValue) :
    v ∈ root.subvalues → v.HoldsUnreadable → Breaks typeParser useCount root v := by
  induction v using IValue.childInduction with
  | h v ih =>
    rintro hv hholds p u φ h hentered hclean
    have hall : ∀ {a p u} (after : Pickler → Pickler), v.address = some a →
        Ready typeParser useCount root p u φ → (∀ {q}, Longer q (after q)) →
        (∃ c ∈ v.children, c.HoldsUnreadable) →
        Broken typeParser (after (Pickler.pushAll useCount v.children p)) := by
      intro a p u after ha h hafter hchild
      have hfree : φ a = none := by
        by_contra hplaced
        exact hclean a hplaced v hv ha hholds
      exact (pushAll_broken wf hcounts hv ha
        (fun c hc => simulates wf hcounts hfits hparse hsized c (IValue.mem_subvalues_child hv hc))
        (fun c hc => ih c hc (IValue.mem_subvalues_child hv hc)) [] rfl h hfree hentered.start
        hclean hchild).longer hafter
    have himpl : Broken typeParser (Pickler.pushIValueImpl useCount v p) := by
      obtain ⟨d, hd, hunreadable⟩ := hholds
      rcases IValue.mem_subvalues_iff.mp hd with rfl | ⟨c, hc, hdc⟩
      · exact pushDevice_broken h hfits hunreadable fun k hk => mem_memoKeys hv hk
      · have hchild : ∃ c ∈ v.children, c.HoldsUnreadable := ⟨c, hc, d, hdc, hunreadable⟩
        cases v with
        | tuple a elements =>
          rcases elements with - | ⟨e₁, - | ⟨e₂, - | ⟨e₃, - | ⟨e₄, rest⟩⟩⟩⟩
          · cases hc
          · exact hall _ rfl h (Longer.push (prefix_refl _) _) hchild
          · exact hall _ rfl h (Longer.push (prefix_refl _) _) hchild
          · exact hall _ rfl h (Longer.push (prefix_refl _) _) hchild
          · have hmark := h.step (i := .mark) rfl trivial (by simp) rfl rfl rfl (prefix_refl _)
            exact hall _ rfl hmark (Longer.push (prefix_refl _) _) hchild
        | genericList a elem items =>
          obtain ⟨u', hready⟩ := startTypeTag_ready h hfits .emptyList (fun _ => rfl) trivial
            (by simp) (mem_memoKeys hv mem_cons_self)
          exact hall (fun q => (q.push .appends).endTypeTag (.list elem)) rfl hready
            ((((Longer.push (prefix_refl _) _).pushString _).push _).push _) hchild
        | genericDict a key value entries =>
          obtain ⟨u', hready⟩ := startTypeTag_ready h hfits .emptyDict (fun _ => rfl) trivial
            (by simp) (mem_memoKeys hv mem_cons_self)
          rw [Pickler.pushIValueImpl, pushEntries_eq]
          exact hall (fun q => (q.push .setItems).endTypeTag (.dict key value)) rfl hready
            ((((Longer.push (prefix_refl _) _).pushString _).push _).push _) hchild
        | _ => cases hc
    cases ha : v.address with
    | none =>
      rw [Pickler.pushIValue, ha]
      exact himpl
    | some a =>
      have hnew : p.memoizedIvalues.lookup a = none := by
        cases hid : p.lookup (.ivalue a) with
        | none => exact hid
        | some id =>
          obtain ⟨w, -, q, hq, -⟩ := h.tracks.entries _ _ hid
          exact absurd hholds (hclean a (by rw [hq]; exact Option.some_ne_none q) v hv ha)
      rw [Pickler.pushIValue, ha, Pickler.memoizeByPointer, hnew]
      split
      · exact himpl.longer (Longer.remember (prefix_refl _) (.ivalue a))
      · exact himpl

theorem not_roundTrips_of_unreadable (wf : root.WellFormed) (hcounts : CountsSlots useCount root)
    (hfits : root.MemoFits useCount) (hparse : root.TypesParse typeParser)
    (hsized : root.TextsFit) (hholds : root.HoldsUnreadable) :
    ¬ RoundTrips typeParser useCount root := by
  rintro ⟨u, w, φ, hrun, -⟩
  have hbroken := breaks wf hcounts hfits hparse hsized root (IValue.mem_subvalues_self root)
    hholds _ _ _ ready_start (fun b hb => absurd rfl hb) (fun a ha => absurd rfl ha)
  rw [Pickler.pickle, hbroken.run] at hrun
  cases hrun

/-- The round trip holds exactly for the values without unreadable devices. -/
theorem roundTrips_iff {external : Address → Nat} (wf : root.WellFormed)
    (hparse : root.TypesParse typeParser) (hsized : root.TextsFit)
    (hfits : root.MemoFits (root.useCount external)) :
    RoundTrips typeParser (root.useCount external) root ↔ ¬ root.HoldsUnreadable := by
  have hcounts : CountsSlots (root.useCount external) root :=
    fun _ _ _ _ _ h h' hne => IValue.one_lt_useCount h h' hne
  constructor
  · intro h hholds
    exact not_roundTrips_of_unreadable wf hcounts hfits hparse hsized hholds h
  · exact roundTrips_of_readable wf hcounts hfits hparse hsized

/-- A Metal device is written and not read back, and neither is a device with the index that
is read from `cuda:200`. -/
theorem devices_not_read_back :
    ¬ RoundTrips (fun _ => none) (IValue.useCount (.device ⟨.Metal, -1⟩) fun _ => 0)
        (.device ⟨.Metal, -1⟩) ∧
      Device.ofString (ascii "cuda:200") = some ⟨.CUDA, -56⟩ ∧
      ¬ RoundTrips (fun _ => none) (IValue.useCount (.device ⟨.CUDA, -56⟩) fun _ => 0)
        (.device ⟨.CUDA, -56⟩) := by
  have hfails : ∀ d ∈ [Device.mk .Metal (-1), Device.mk .CUDA (-56)],
      (Unpickler.run (fun _ => none) (Pickler.pickle (IValue.useCount (.device d) fun _ => 0)
        (.device d))).isNone = true := by decide
  have hnone : ∀ d ∈ [Device.mk .Metal (-1), Device.mk .CUDA (-56)],
      ¬ RoundTrips (fun _ => none) (IValue.useCount (.device d) fun _ => 0) (.device d) := by
    rintro d hd ⟨u, w, φ, hrun, -⟩
    have hfails := hfails d hd
    rw [hrun] at hfails
    cases hfails
  exact ⟨hnone _ (by simp), by decide, hnone _ (by simp)⟩

/-- A tuple that holds one list of devices twice. -/
def sharedList : IValue :=
  let list := IValue.genericList 1 ⟨.device, rfl⟩ [.device ⟨.CUDA, 1⟩, .none]
  .tuple 0 [list, list]

/-- A type parser that knows the type of the list. -/
def deviceListParser (s : Bytes) : Option JitType :=
  if s = (JitType.list .device).annotationStr then some (.list .device) else none

theorem sharedList_roundTrips :
    RoundTrips deviceListParser (sharedList.useCount fun _ => 0) sharedList := by
  have hsub : ∀ v ∈ sharedList.subvalues, v = sharedList ∨
      v = .genericList 1 ⟨.device, rfl⟩ [.device ⟨.CUDA, 1⟩, .none] ∨
      v = .device ⟨.CUDA, 1⟩ ∨ v = .none := by
    intro v hv
    simp only [sharedList, IValue.subvalues, IValue.subvaluesOfAll, cons_append,
      List.nil_append, List.append_nil, List.mem_cons, List.not_mem_nil, or_false] at hv
    rcases hv with rfl | rfl | rfl | rfl | rfl | rfl | rfl <;> simp [sharedList]
  refine (roundTrips_iff ⟨?_, ?_, ?_⟩ ?_ ?_ ?_).mpr ?_
  · intro v hv w hw a ha ha'
    rcases hsub v hv with rfl | rfl | rfl | rfl <;> rcases hsub w hw with rfl | rfl | rfl | rfl <;>
      first | rfl | (cases ha; done) | (cases ha; cases ha')
  · intro a key value entries hv
    rcases hsub _ hv with h | h | h | h <;> cases h
  · intro a key value entries hv
    rcases hsub _ hv with h | h | h | h <;> cases h
  · intro v hv type htype
    rcases hsub v hv with rfl | rfl | rfl | rfl <;> cases htype
    rfl
  · intro v hv s hs
    rcases hsub v hv with rfl | rfl | rfl | rfl <;> cases hs
    decide
  · show (sharedList.memoKeys (sharedList.useCount fun _ => 0)).dedup.length ≤ 2 ^ 32
    decide
  · rintro ⟨d, hd, hunreadable⟩
    rcases hsub _ hd with h | h | h | h <;> cases h
    exact absurd hunreadable (by decide)

end Broken

end PyTorchCore.Pickle
