import PyTorchCore.RemoteErrors.Process

/-!
# The registered RRefs along a run

Objects that are alive lie at different addresses, an entry of a table is under the id of its
object, and a callback that has not run finds its entry.
-/

namespace PyTorchCore.RemoteErrors

open List

/-- The tables, the objects and the callbacks belong together. -/
structure Registered (s : Process) : Prop where
  apart : ∀ o p x y, s.Alive o → s.Alive p → s.objects[o]? = some x → s.objects[p]? = some y →
    x.address = y.address → o = p
  fresh : ∀ (o : ObjectId) x, s.objects[o]? = some x → x.forkId_ < s.nextLocalId_
  distinct : ∀ (o p : ObjectId) x y, s.objects[o]? = some x → s.objects[p]? = some y →
    x.forkId_ = y.forkId_ → o = p
  user : ∀ f o, (f, o) ∈ s.pendingUsers_ → ∃ x, s.objects[o]? = some x ∧ x.forkId_ = f
  owner : ∀ r o, (r, o) ∈ s.owners_ → ∃ x, s.objects[o]? = some x ∧ x.forkId_ = r
  freshCallback : ∀ c ∈ s.callbacks, c.id < s.nextLocalId_
  single : ∀ c ∈ s.callbacks, ∀ d ∈ s.callbacks, c.id = d.id → c = d
  confirm : ∀ f, .confirmPendingUser f ∈ s.callbacks → ∃ o, (f, o) ∈ s.pendingUsers_
  finish : ∀ r, .finishCreatingOwnerRRef r ∈ s.callbacks →
    (r, r) ∈ s.forks_ ∧ ∃ o, (r, o) ∈ s.owners_

/-- From `s` to `t` entries go away, but none that a callback of `t` needs, and objects keep
their address and their id. -/
structure Shrinks (s t : Process) : Prop where
  objects : ∀ o : ObjectId, t.objects[o]?.map (fun x => (x.address, x.forkId_)) =
    s.objects[o]?.map fun x => (x.address, x.forkId_)
  next : t.nextLocalId_ = s.nextLocalId_
  alive : ∀ o, t.Alive o → s.Alive o
  users : t.pendingUsers_ ⊆ s.pendingUsers_
  owners : t.owners_ ⊆ s.owners_
  callbacks : t.callbacks ⊆ s.callbacks
  confirm : ∀ f o, .confirmPendingUser f ∈ t.callbacks → (f, o) ∈ s.pendingUsers_ →
    (f, o) ∈ t.pendingUsers_
  finish : ∀ r, .finishCreatingOwnerRRef r ∈ t.callbacks → (r, r) ∈ s.forks_ →
    (r, r) ∈ t.forks_ ∧ ∀ o, (r, o) ∈ s.owners_ → (r, o) ∈ t.owners_

section Shrinking

variable {s t u : Process}

theorem Shrinks.refl (s : Process) : Shrinks s s where
  objects _ := rfl
  next := rfl
  alive _ h := h
  users _ h := h
  owners _ h := h
  callbacks _ h := h
  confirm _ _ _ h := h
  finish _ _ h := ⟨h, fun _ ho => ho⟩

theorem Shrinks.trans (hst : Shrinks s t) (htu : Shrinks t u) : Shrinks s u where
  objects o := (htu.objects o).trans (hst.objects o)
  next := htu.next.trans hst.next
  alive o h := hst.alive o (htu.alive o h)
  users := fun _ h => hst.users (htu.users h)
  owners := fun _ h => hst.owners (htu.owners h)
  callbacks := fun _ h => hst.callbacks (htu.callbacks h)
  confirm f o hc h := htu.confirm f o hc (hst.confirm f o (htu.callbacks hc) h)
  finish r hc h :=
    have hfirst := hst.finish r (htu.callbacks hc) h
    have hsecond := htu.finish r hc hfirst.1
    ⟨hsecond.1, fun o ho => hsecond.2 o (hfirst.2 o ho)⟩

/-- Objects are not created. -/
theorem Shrinks.before (h : Shrinks s t) {o : ObjectId} {y : RRefObject}
    (hy : t.objects[o]? = some y) :
    ∃ x, s.objects[o]? = some x ∧ x.address = y.address ∧ x.forkId_ = y.forkId_ := by
  have hobjects := h.objects o
  rw [hy] at hobjects
  cases hx : s.objects[o]? with
  | none =>
    rw [hx] at hobjects
    cases hobjects
  | some x =>
    rw [hx] at hobjects
    obtain ⟨haddress, hid⟩ := Prod.mk.inj (Option.some.inj hobjects)
    exact ⟨x, rfl, haddress.symm, hid.symm⟩

/-- Objects stay where they are. -/
theorem Shrinks.after (h : Shrinks s t) {o : ObjectId} {x : RRefObject}
    (hx : s.objects[o]? = some x) :
    ∃ y, t.objects[o]? = some y ∧ y.address = x.address ∧ y.forkId_ = x.forkId_ := by
  have hobjects := h.objects o
  rw [hx] at hobjects
  cases hy : t.objects[o]? with
  | none =>
    rw [hy] at hobjects
    cases hobjects
  | some y =>
    rw [hy] at hobjects
    obtain ⟨haddress, hid⟩ := Prod.mk.inj (Option.some.inj hobjects)
    exact ⟨y, rfl, haddress, hid⟩

/-- Fewer callbacks stay registered. -/
theorem Registered.shrink (h : Registered s) (hst : Shrinks s t) : Registered t where
  apart o p x y ho hp hx hy haddress := by
    obtain ⟨x', hx', hxa, -⟩ := hst.before hx
    obtain ⟨y', hy', hya, -⟩ := hst.before hy
    exact h.apart o p x' y' (hst.alive o ho) (hst.alive p hp) hx' hy'
      (hxa.trans (haddress.trans hya.symm))
  fresh o x hx := by
    obtain ⟨x', hx', -, hid⟩ := hst.before hx
    rw [← hid, hst.next]
    exact h.fresh o x' hx'
  distinct o p x y hx hy hid := by
    obtain ⟨x', hx', -, hxid⟩ := hst.before hx
    obtain ⟨y', hy', -, hyid⟩ := hst.before hy
    exact h.distinct o p x' y' hx' hy' (hxid.trans (hid.trans hyid.symm))
  user f o hf := by
    obtain ⟨x, hx, hid⟩ := h.user f o (hst.users hf)
    obtain ⟨y, hy, -, hyid⟩ := hst.after hx
    exact ⟨y, hy, hyid.trans hid⟩
  owner r o hr := by
    obtain ⟨x, hx, hid⟩ := h.owner r o (hst.owners hr)
    obtain ⟨y, hy, -, hyid⟩ := hst.after hx
    exact ⟨y, hy, hyid.trans hid⟩
  freshCallback c hc := by
    rw [hst.next]
    exact h.freshCallback c (hst.callbacks hc)
  single c hc d hd := h.single c (hst.callbacks hc) d (hst.callbacks hd)
  confirm f hf := by
    obtain ⟨o, ho⟩ := h.confirm f (hst.callbacks hf)
    exact ⟨o, hst.confirm f o hf ho⟩
  finish r hr := by
    obtain ⟨hfork, o, ho⟩ := h.finish r (hst.callbacks hr)
    have hafter := hst.finish r hr hfork
    exact ⟨hafter.1, o, hafter.2 o ho⟩

end Shrinking

/-! ## Operations that take entries away -/

section Removals

variable {s : Process}

/-- The state without a callback that runs now. -/
def Process.without (s : Process) (callback : Callback) : Process :=
  { s with callbacks := s.callbacks.filter fun c => c ≠ callback }

/-- A callback that has run is gone. -/
theorem without_shrinks (s : Process) (callback : Callback) : Shrinks s (s.without callback) where
  objects _ := rfl
  next := rfl
  alive _ h := h
  users _ h := h
  owners _ h := h
  callbacks := filter_subset_self _
  confirm _ _ _ h := h
  finish _ _ h := ⟨h, fun _ ho => ho⟩

theorem errorHandlers_shrinks (s : Process) (captured : Option Address) :
    Shrinks s { s with errorHandlers := captured } where
  objects _ := rfl
  next := rfl
  alive _ h := h
  users _ h := h
  owners _ h := h
  callbacks _ h := h
  confirm _ _ _ h := h
  finish _ _ h := ⟨h, fun _ ho => ho⟩

/-- An object may change but for its address and its fork. -/
theorem modify_shrinks (s : Process) (o : ObjectId) (g : RRefObject → RRefObject)
    (hg : ∀ x, (g x).address = x.address ∧ (g x).forkId_ = x.forkId_) :
    Shrinks s { s with objects := s.objects.modify o g } where
  objects p := by
    rw [getElem?_modify]
    split
    · cases s.objects[p]? with
      | none => rfl
      | some x => exact congrArg some (Prod.ext (hg x).1 (hg x).2)
    · cases s.objects[p]? with
      | none => rfl
      | some x => rfl
  next := rfl
  alive _ h := h
  users _ h := h
  owners _ h := h
  callbacks _ h := h
  confirm _ _ _ h := h
  finish _ _ h := ⟨h, fun _ ho => ho⟩

theorem setTimedOut_shrinks (s : Process) (o : ObjectId) : Shrinks s (s.setTimedOut o) :=
  modify_shrinks s o _ fun _ => ⟨rfl, rfl⟩

theorem tryDel_shrinks (s : Process) (o : ObjectId) : Shrinks s (s.tryDel o) :=
  modify_shrinks s o _ fun _ => ⟨rfl, rfl⟩

theorem setTimedOutAt_shrinks (s : Process) (a : Address) : Shrinks s (s.setTimedOutAt a).1 := by
  unfold Process.setTimedOutAt
  cases s.occupant a with
  | none => exact Shrinks.refl s
  | some o => exact setTimedOut_shrinks s o

theorem handleError_shrinks (s : Process) (o : ObjectId) (errorType : RPCErrorType) :
    Shrinks s (s.handleError o errorType).1 := by
  unfold Process.handleError
  cases s.addressOf o with
  | none => exact Shrinks.refl s
  | some this =>
    have htable := errorHandlers_shrinks s (some (s.errorHandlers.getD this))
    cases errorType with
    | timeout => exact htable.trans (setTimedOutAt_shrinks _ _)
    | intentionalFailure => exact htable.trans (setTimedOutAt_shrinks _ _)
    | unknownError => exact htable

theorem delPendingUser_shrinks {f : ForkId} (hf : .confirmPendingUser f ∉ s.callbacks) :
    Shrinks s (s.delPendingUser f).1 := by
  unfold Process.delPendingUser
  cases s.getPendingUser f with
  | none => exact Shrinks.refl s
  | some o =>
    refine ⟨fun _ => rfl, rfl, fun p hp => ?_, filter_subset_self _, fun _ h => h,
      fun _ h => h, fun g p hg hmem => ?_, fun _ _ h => ⟨h, fun _ ho => ho⟩⟩
    · rcases hp with hp | hp | hp | hp
      · exact .inl hp
      · exact .inr (.inl hp)
      · exact .inr (.inr (.inl (map_subset _ (filter_subset_self _) hp)))
      · exact .inr (.inr (.inr hp))
    · refine mem_filter.mpr ⟨hmem, decide_eq_true ?_⟩
      rintro rfl
      exact hf hg

theorem delForkOfOwner_shrinks {r : RRefId} {f : ForkId}
    (h : r = f → .finishCreatingOwnerRRef r ∉ s.callbacks) : Shrinks s (s.delForkOfOwner r f) := by
  unfold Process.delForkOfOwner
  by_cases hr : r ∈ s.forks_.map Prod.fst
  · rw [if_pos hr]
    have hkept : ∀ q, .finishCreatingOwnerRRef q ∈ s.callbacks → (q, q) ∈ s.forks_ →
        (q, q) ∈ s.forks_.filter fun entry => entry ≠ (r, f) := by
      intro q hq hmem
      refine mem_filter.mpr ⟨hmem, decide_eq_true fun heq => ?_⟩
      cases heq
      exact h rfl hq
    have hsub : (if r ∈ (s.forks_.filter fun entry => entry ≠ (r, f)).map Prod.fst then s.owners_
        else s.owners_.filter fun entry => entry.1 ≠ r) ⊆ s.owners_ := by
      split
      · exact fun _ h => h
      · exact filter_subset_self _
    refine ⟨fun _ => rfl, rfl, fun p hp => ?_, fun _ h => h, hsub, fun _ h => h,
      fun _ _ _ h => h, fun q hq hmem => ⟨hkept q hq hmem, fun o ho => ?_⟩⟩
    · rcases hp with hp | hp | hp | hp
      · exact .inl hp
      · exact .inr (.inl (map_subset _ hsub hp))
      · exact .inr (.inr (.inl hp))
      · exact .inr (.inr (.inr hp))
    · by_cases hqr : q = r
      · subst hqr
        have hstill : q ∈ (s.forks_.filter fun entry => entry ≠ (q, f)).map Prod.fst :=
          mem_map.mpr ⟨(q, q), hkept q hq hmem, rfl⟩
        show (q, o) ∈ ite _ _ _
        rw [if_pos hstill]
        exact ho
      · show (q, o) ∈ ite _ _ _
        split
        · exact ho
        · exact mem_filter.mpr ⟨ho, decide_eq_true hqr⟩
  · rw [if_neg hr]
    exact Shrinks.refl s

theorem delPendingChild_shrinks (s : Process) (f : ForkId) : Shrinks s (s.delPendingChild f) where
  objects _ := rfl
  next := rfl
  alive p hp := by
    rcases hp with hp | hp | hp | hp
    · exact .inl hp
    · exact .inr (.inl hp)
    · exact .inr (.inr (.inl hp))
    · exact .inr (.inr (.inr (map_subset _ (filter_subset_self _) hp)))
  users _ h := h
  owners _ h := h
  callbacks _ h := h
  confirm _ _ _ h := h
  finish _ _ h := ⟨h, fun _ ho => ho⟩

theorem release_shrinks (s : Process) (o : ObjectId) : Shrinks s (s.release o) where
  objects _ := rfl
  next := rfl
  alive p hp := by
    rcases hp with hp | hp | hp | hp
    · exact .inl (filter_subset_self _ hp)
    · exact .inr (.inl hp)
    · exact .inr (.inr (.inl hp))
    · exact .inr (.inr (.inr hp))
  users _ h := h
  owners _ h := h
  callbacks _ h := h
  confirm _ _ _ h := h
  finish _ _ h := ⟨h, fun _ ho => ho⟩

theorem notMem_without (s : Process) (callback : Callback) :
    callback ∉ (s.without callback).callbacks := by
  intro h
  have := (mem_filter.mp h).2
  simp at this

/-- A callback takes away what no other callback needs. -/
theorem runCallback_shrinks (h : Registered s) {callback : Callback} {response : Response}
    (henabled : (Event.respond callback response).Enabled s) :
    Shrinks s ((s.without callback).runCallback response callback).1 := by
  have hwithout := without_shrinks s callback
  have hgone := notMem_without s callback
  cases callback with
  | confirmPendingUser f =>
    have hdel : ∀ t, Shrinks (s.without (.confirmPendingUser f)) t →
        Shrinks s (t.delPendingUser f).1 := fun t ht =>
      (hwithout.trans ht).trans (delPendingUser_shrinks fun hmem => hgone (ht.callbacks hmem))
    cases response with
    | ok ret =>
      simp only [Process.runCallback, Process.confirmPendingUser]
      split
      · exact hdel _ (Shrinks.refl _)
      · exact hwithout
    | error errorType =>
      simp only [Process.runCallback, Process.confirmPendingUser]
      split
      · exact hwithout
      · next o ho =>
          have hhandle := handleError_shrinks (s.without (.confirmPendingUser f)) o errorType
          split
          · next t heq =>
              rw [heq] at hhandle
              exact hdel t hhandle
          · next t failure heq =>
              rw [heq] at hhandle
              exact hwithout.trans hhandle
  | finishCreatingOwnerRRef r =>
    have hdel : ∀ t, Shrinks (s.without (.finishCreatingOwnerRRef r)) t →
        Shrinks s (t.delForkOfOwner r r) := fun t ht =>
      (hwithout.trans ht).trans (delForkOfOwner_shrinks fun _ hmem => hgone (ht.callbacks hmem))
    cases response with
    | ok ret =>
      obtain ⟨-, hret⟩ := henabled
      have hret := hret r rfl
      simp only [Process.runCallback, Process.finishCreatingOwnerRRef, hret]
      split
      · exact hdel _ (Shrinks.refl _)
      · exact hwithout
    | error errorType =>
      simp only [Process.runCallback, Process.finishCreatingOwnerRRef]
      split
      · exact hwithout
      · next o ho =>
          have hhandle := handleError_shrinks (s.without (.finishCreatingOwnerRRef r)) o errorType
          split
          · next t heq =>
              rw [heq] at hhandle
              exact hdel t hhandle
          · next t failure heq =>
              rw [heq] at hhandle
              exact hwithout.trans hhandle
  | finishForkRequest f =>
    cases response with
    | error errorType => exact hwithout
    | ok ret =>
      refine hwithout.trans (delPendingUser_shrinks fun hmem => ?_)
      have hsame := h.single _ (hwithout.callbacks hmem) (.finishForkRequest f) henabled.1 rfl
      cases hsame

end Removals

/-! ## The object at an address -/

section Occupants

variable {s : Process} {a : Address} {o : ObjectId} {x : RRefObject}

theorem occupant_spec (h : s.occupant a = some o) : s.Alive o ∧ s.addressOf o = some a := by
  have hfound := find?_some h
  exact of_decide_eq_true hfound

theorem ne_of_occupant_none (h : s.occupant a = none) (ho : s.Alive o)
    (hx : s.objects[o]? = some x) : x.address ≠ a := by
  rintro rfl
  have hmem : o ∈ List.range s.objects.length :=
    List.mem_range.mpr (List.getElem?_eq_some_iff.mp hx).1
  have hnot := List.find?_eq_none.mp h o hmem
  refine hnot (decide_eq_true ⟨ho, ?_⟩)
  rw [Process.addressOf, hx]
  rfl

theorem occupant_eq_some (h : Registered s) (ho : s.Alive o) (hx : s.objects[o]? = some x) :
    s.occupant x.address = some o := by
  cases hq : s.occupant x.address with
  | none => exact absurd rfl (ne_of_occupant_none hq ho hx)
  | some q =>
    obtain ⟨hqa, haddress⟩ := occupant_spec hq
    obtain ⟨y, hy, hya⟩ := Option.map_eq_some_iff.mp haddress
    exact congrArg some (h.apart q o y x hqa ho hy hx hya)

end Occupants

/-! ## Operations that add entries -/

/-- From `s` to `t` there is one more object, with entries under its id. -/
structure Adds (s t : Process) (x : RRefObject) : Prop where
  objects : t.objects = s.objects ++ [x]
  old : s.nextLocalId_ ≤ x.forkId_
  next : x.forkId_ < t.nextLocalId_
  unset : x.timedOut_ = false
  table : t.errorHandlers = s.errorHandlers
  alive : ∀ o, t.Alive o → s.Alive o ∨ o = s.objects.length
  users : ∀ e ∈ t.pendingUsers_, e ∈ s.pendingUsers_ ∨ e = (x.forkId_, s.objects.length)
  owners : ∀ e ∈ t.owners_, e ∈ s.owners_ ∨ e = (x.forkId_, s.objects.length)
  keepUsers : s.pendingUsers_ ⊆ t.pendingUsers_
  keepOwners : s.owners_ ⊆ t.owners_
  keepForks : s.forks_ ⊆ t.forks_
  callbacks : ∃ d, d.id = x.forkId_ ∧ ∀ c ∈ t.callbacks, c ∈ s.callbacks ∨ c = d
  confirm : .confirmPendingUser x.forkId_ ∈ t.callbacks →
    (x.forkId_, s.objects.length) ∈ t.pendingUsers_
  finish : .finishCreatingOwnerRRef x.forkId_ ∈ t.callbacks →
    (x.forkId_, x.forkId_) ∈ t.forks_ ∧ (x.forkId_, s.objects.length) ∈ t.owners_

section Additions

variable {s t : Process} {x : RRefObject} {o : ObjectId}

theorem Adds.getElem? (h : Adds s t x) {y : RRefObject} :
    t.objects[o]? = some y ↔ s.objects[o]? = some y ∨ o = s.objects.length ∧ y = x := by
  rw [h.objects]
  constructor
  · intro hy
    rcases Nat.lt_or_ge o s.objects.length with hlt | hge
    · exact .inl (by rwa [List.getElem?_append_left hlt] at hy)
    · rw [List.getElem?_append_right hge, List.getElem?_singleton] at hy
      split at hy
      · next hzero =>
          exact .inr ⟨Nat.le_antisymm (Nat.sub_eq_zero_iff_le.mp hzero) hge,
            (Option.some.inj hy).symm⟩
      · cases hy
  · rintro (hy | ⟨rfl, rfl⟩)
    · rw [List.getElem?_append_left (List.getElem?_eq_some_iff.mp hy).1]
      exact hy
    · rw [List.getElem?_append_right (Nat.le_refl _), Nat.sub_self]
      rfl

theorem length_of_getElem? {y : RRefObject} (h : s.objects[o]? = some y) :
    o ≠ s.objects.length :=
  Nat.ne_of_lt (List.getElem?_eq_some_iff.mp h).1

variable (h : Registered s)
include h

/-- A new object at a free address. -/
theorem Registered.add (hadd : Adds s t x)
    (hfree : s.occupant x.address = none) : Registered t := by
  have hlt : ∀ (o : ObjectId) y, s.objects[o]? = some y → y.forkId_ ≠ x.forkId_ := by
    intro o y hy heq
    exact absurd (heq ▸ h.fresh o y hy) (Nat.not_lt.mpr hadd.old)
  have hnew : t.objects[s.objects.length]? = some x := hadd.getElem?.mpr (.inr ⟨rfl, rfl⟩)
  obtain ⟨d, hd, hcallbacks⟩ := hadd.callbacks
  have hold : ∀ c ∈ s.callbacks, c.id ≠ x.forkId_ := by
    intro c hc heq
    exact absurd (heq ▸ h.freshCallback c hc) (Nat.not_lt.mpr hadd.old)
  have hnext : s.nextLocalId_ < t.nextLocalId_ := Nat.lt_of_le_of_lt hadd.old hadd.next
  refine ⟨?_, ?_, ?_, ?_, ?_, ?_, ?_, ?_, ?_⟩
  · intro o p y z ho hp hy hz haddress
    rcases hadd.getElem?.mp hy with hy | ⟨rfl, rfl⟩
    · have ho := (hadd.alive o ho).resolve_right (length_of_getElem? hy)
      rcases hadd.getElem?.mp hz with hz | ⟨rfl, rfl⟩
      · have hp := (hadd.alive p hp).resolve_right (length_of_getElem? hz)
        exact h.apart o p y z ho hp hy hz haddress
      · exact absurd haddress (ne_of_occupant_none hfree ho hy)
    · rcases hadd.getElem?.mp hz with hz | ⟨rfl, rfl⟩
      · have hp := (hadd.alive p hp).resolve_right (length_of_getElem? hz)
        exact absurd haddress.symm (ne_of_occupant_none hfree hp hz)
      · rfl
  · intro o y hy
    rcases hadd.getElem?.mp hy with hy | ⟨-, rfl⟩
    · exact Nat.lt_trans (h.fresh o y hy) hnext
    · exact hadd.next
  · intro o p y z hy hz hid
    rcases hadd.getElem?.mp hy with hy | ⟨rfl, rfl⟩
    · rcases hadd.getElem?.mp hz with hz | ⟨rfl, rfl⟩
      · exact h.distinct o p y z hy hz hid
      · exact absurd hid (hlt o y hy)
    · rcases hadd.getElem?.mp hz with hz | ⟨rfl, rfl⟩
      · exact absurd hid.symm (hlt p z hz)
      · rfl
  · intro f o hf
    rcases hadd.users _ hf with hf | heq
    · obtain ⟨y, hy, hid⟩ := h.user f o hf
      exact ⟨y, hadd.getElem?.mpr (.inl hy), hid⟩
    · cases heq
      exact ⟨x, hnew, rfl⟩
  · intro r o hr
    rcases hadd.owners _ hr with hr | heq
    · obtain ⟨y, hy, hid⟩ := h.owner r o hr
      exact ⟨y, hadd.getElem?.mpr (.inl hy), hid⟩
    · cases heq
      exact ⟨x, hnew, rfl⟩
  · intro c hc
    rcases hcallbacks c hc with hc | rfl
    · exact Nat.lt_trans (h.freshCallback c hc) hnext
    · exact hd ▸ hadd.next
  · intro c hc e he hid
    rcases hcallbacks c hc with hc | rfl
    · rcases hcallbacks e he with he | rfl
      · exact h.single c hc e he hid
      · exact absurd (hid.trans hd) (hold c hc)
    · rcases hcallbacks e he with he | rfl
      · exact absurd (hid.symm.trans hd) (hold e he)
      · rfl
  · intro f hf
    rcases hcallbacks _ hf with hc | heq
    · obtain ⟨o, ho⟩ := h.confirm f hc
      exact ⟨o, hadd.keepUsers ho⟩
    · have hid : f = x.forkId_ := by
        rw [← hd, ← heq]
        rfl
      subst hid
      exact ⟨_, hadd.confirm hf⟩
  · intro r hr
    rcases hcallbacks _ hr with hc | heq
    · obtain ⟨hfork, o, ho⟩ := h.finish r hc
      exact ⟨hadd.keepForks hfork, o, hadd.keepOwners ho⟩
    · have hid : r = x.forkId_ := by
        rw [← hd, ← heq]
        rfl
      subst hid
      exact ⟨(hadd.finish hr).1, _, (hadd.finish hr).2⟩

/-- A remote call creates one object. -/
theorem remote_adds (address : Address) :
    Adds s (s.remote address) ⟨address, s.nextLocalId_ + 1, false, false, false⟩ where
  objects := rfl
  old := Nat.le_succ _
  next := Nat.lt_succ_self _
  unset := rfl
  table := rfl
  alive o ho := by
    rcases ho with ho | ho | ho | ho
    · rcases mem_cons.mp ho with rfl | ho
      · exact .inr rfl
      · exact .inl (.inl ho)
    · exact .inl (.inr (.inl ho))
    · rcases mem_cons.mp ho with rfl | ho
      · exact .inr rfl
      · exact .inl (.inr (.inr (.inl ho)))
    · exact .inl (.inr (.inr (.inr ho)))
  users e he := (mem_cons.mp he).symm
  owners e he := .inl he
  keepUsers := subset_cons_self _ _
  keepOwners := Subset.refl _
  keepForks := Subset.refl _
  callbacks := ⟨_, rfl, fun c hc => (mem_cons.mp hc).symm⟩
  confirm _ := mem_cons_self
  finish hr := by
    rcases mem_cons.mp hr with heq | hr
    · cases heq
    · have := h.freshCallback _ hr
      exact absurd this (Nat.not_lt.mpr (Nat.le_succ _))

theorem remoteToSelf_adds (address : Address) :
    Adds s (s.remoteToSelf address) ⟨address, s.nextLocalId_, true, false, false⟩ where
  objects := rfl
  old := Nat.le_refl _
  next := Nat.lt_succ_self _
  unset := rfl
  table := rfl
  alive o ho := by
    rcases ho with ho | ho | ho | ho
    · rcases mem_cons.mp ho with rfl | ho
      · exact .inr rfl
      · exact .inl (.inl ho)
    · rcases mem_cons.mp ho with rfl | ho
      · exact .inr rfl
      · exact .inl (.inr (.inl ho))
    · exact .inl (.inr (.inr (.inl ho)))
    · exact .inl (.inr (.inr (.inr ho)))
  users e he := .inl he
  owners e he := (mem_cons.mp he).symm
  keepUsers := Subset.refl _
  keepOwners := subset_cons_self _ _
  keepForks := subset_cons_self _ _
  callbacks := ⟨_, rfl, fun c hc => (mem_cons.mp hc).symm⟩
  confirm hf := by
    rcases mem_cons.mp hf with heq | hf
    · cases heq
    · have := h.freshCallback _ hf
      exact absurd this (Nat.lt_irrefl _)
  finish _ := ⟨mem_cons_self, mem_cons_self⟩

theorem receive_adds (address : Address) (fromOwner : Bool) :
    Adds s (s.receive address fromOwner) ⟨address, s.nextLocalId_, false, false, false⟩ := by
  have hnoConfirm : Callback.confirmPendingUser s.nextLocalId_ ∉ s.callbacks := fun hf =>
    absurd (h.freshCallback _ hf) (Nat.lt_irrefl _)
  have hnoFinish : Callback.finishCreatingOwnerRRef s.nextLocalId_ ∉ s.callbacks := fun hr =>
    absurd (h.freshCallback _ hr) (Nat.lt_irrefl _)
  have hheld : ∀ o ∈ s.objects.length :: s.held, o ∈ s.held ∨ o = s.objects.length :=
    fun o ho => (mem_cons.mp ho).symm
  cases fromOwner with
  | true =>
    refine ⟨rfl, Nat.le_refl _, Nat.lt_succ_self _, rfl, rfl, fun o ho => ?_,
      fun e he => .inl he, fun e he => .inl he, Subset.refl _, Subset.refl _,
      Subset.refl _, ⟨.finishForkRequest s.nextLocalId_, rfl, fun c hc => .inl hc⟩,
      fun hf => absurd hf hnoConfirm, fun hr => absurd hr hnoFinish⟩
    rcases ho with ho | ho
    · exact (hheld o ho).imp_left .inl
    · exact .inl (.inr ho)
  | false =>
    refine ⟨rfl, Nat.le_refl _, Nat.lt_succ_self _, rfl, rfl, fun o ho => ?_,
      fun e he => (mem_cons.mp he).symm, fun e he => .inl he, subset_cons_self _ _,
      Subset.refl _, Subset.refl _,
      ⟨_, rfl, fun c hc => (mem_cons.mp hc).symm⟩, fun _ => mem_cons_self,
      fun hr => ?_⟩
    · rcases ho with ho | ho | ho | ho
      · exact (hheld o ho).imp_left .inl
      · exact .inl (.inr (.inl ho))
      · rcases mem_cons.mp ho with rfl | ho
        · exact .inr rfl
        · exact .inl (.inr (.inr (.inl ho)))
      · exact .inl (.inr (.inr (.inr ho)))
    · rcases mem_cons.mp hr with heq | hr
      · cases heq
      · exact absurd hr hnoFinish

theorem prepareChildFork_registered (ho : o ∈ s.held) :
    Registered (s.prepareChildFork o).1 := by
  unfold Process.prepareChildFork
  cases hx : s.objects[o]? with
  | none => exact h
  | some x =>
    show Registered (ite _ _ _ : Process × Option Failure).1
    split
    · exact h
    split
    · exact h
    have hnext : s.nextLocalId_ < s.nextLocalId_ + 1 := Nat.lt_succ_self _
    split
    · have hpaired : ∀ r p, (r, p) ∈ (x.forkId_, o) :: (s.owners_.filter fun entry =>
          entry.1 ≠ x.forkId_) → ∃ y, s.objects[p]? = some y ∧ y.forkId_ = r := by
        intro r p hr
        rcases mem_cons.mp hr with heq | hr
        · cases heq
          exact ⟨x, hx, rfl⟩
        · exact h.owner r p (filter_subset_self _ hr)
      have halive : ∀ p, p ∈ s.held ∨ p ∈ ((x.forkId_, o) :: (s.owners_.filter fun entry =>
          entry.1 ≠ x.forkId_)).map Prod.snd ∨ p ∈ s.pendingUsers_.map Prod.snd ∨
          p ∈ s.pendingChildren_.map Prod.snd → s.Alive p := by
        intro p hp
        rcases hp with hp | hp | hp
        · exact .inl hp
        · rw [map_cons] at hp
          rcases mem_cons.mp hp with rfl | hp
          · exact .inl ho
          · exact .inr (.inl (map_subset _ (filter_subset_self _) hp))
        · exact .inr (.inr hp)
      refine ⟨fun p q y z hp hq => h.apart p q y z (halive p hp) (halive q hq),
        fun p y hy => Nat.lt_trans (h.fresh p y hy) hnext, h.distinct, h.user, hpaired,
        fun c hc => Nat.lt_trans (h.freshCallback c hc) hnext, h.single, h.confirm,
        fun r hr => ?_⟩
      obtain ⟨hfork, p, hp⟩ := h.finish r hr
      refine ⟨mem_cons_of_mem _ hfork, ?_⟩
      by_cases hrx : r = x.forkId_
      · exact ⟨o, hrx ▸ mem_cons_self⟩
      · exact ⟨p, mem_cons_of_mem _ (mem_filter.mpr ⟨hp, decide_eq_true hrx⟩)⟩
    · have halive : ∀ p, p ∈ s.held ∨ p ∈ s.owners_.map Prod.snd ∨
          p ∈ s.pendingUsers_.map Prod.snd ∨
          p ∈ ((s.nextLocalId_, o) :: s.pendingChildren_).map Prod.snd → s.Alive p := by
        intro p hp
        rcases hp with hp | hp | hp | hp
        · exact .inl hp
        · exact .inr (.inl hp)
        · exact .inr (.inr (.inl hp))
        · rw [map_cons] at hp
          rcases mem_cons.mp hp with rfl | hp
          · exact .inl ho
          · exact .inr (.inr (.inr hp))
      exact ⟨fun p q y z hp hq => h.apart p q y z (halive p hp) (halive q hq),
        fun p y hy => Nat.lt_trans (h.fresh p y hy) hnext, h.distinct, h.user, h.owner,
        fun c hc => Nat.lt_trans (h.freshCallback c hc) hnext, h.single, h.confirm, h.finish⟩

end Additions

/-! ## All events -/

theorem start_registered : Registered Process.start where
  apart _ _ _ _ ho := by
    rcases ho with ho | ho | ho | ho
    all_goals cases ho
  fresh _ _ h := by cases h
  distinct _ _ _ _ h := by cases h
  user _ _ h := by cases h
  owner _ _ h := by cases h
  freshCallback _ h := by cases h
  single _ h := by cases h
  confirm _ h := by cases h
  finish _ h := by cases h

theorem apply_registered {s : Process} (h : Registered s) {e : Event} (he : e.Enabled s) :
    Registered (e.apply s).1 := by
  cases e with
  | remote address => exact h.add (remote_adds h address) he
  | remoteToSelf address => exact h.add (remoteToSelf_adds h address) he
  | receive address fromOwner => exact h.add (receive_adds h address fromOwner) he
  | respond callback response => exact h.shrink (runCallback_shrinks h he)
  | prepareChildFork o => exact prepareChildFork_registered h he
  | childAccepted f => exact h.shrink (delPendingChild_shrinks s f)
  | userDeleted r f => exact h.shrink (delForkOfOwner_shrinks fun heq => absurd heq he)
  | tryDel o => exact h.shrink (tryDel_shrinks s o)
  | release o => exact h.shrink (release_shrinks s o)

end PyTorchCore.RemoteErrors
