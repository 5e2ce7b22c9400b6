import PyTorchCore.RemoteErrors.Registered

/-!
# Which RRef a timeout marks

The handlers of the static table set the flag of the object whose address was captured when the
table was built.
-/

namespace PyTorchCore.RemoteErrors

namespace Process

variable (s : Process)

/-- A table has not been built, or it has captured the address of the object. -/
def OwnHandler (o : ObjectId) : Prop :=
  s.errorHandlers = none ∨ s.errorHandlers = s.addressOf o

instance (o : ObjectId) : Decidable (s.OwnHandler o) := by
  unfold OwnHandler
  infer_instance

/-- The RRef whose creation a callback reports on. -/
def registered : Callback → Option ObjectId
  | .confirmPendingUser forkId => s.getPendingUser forkId
  | .finishCreatingOwnerRRef rrefId => s.owners_.lookup rrefId
  | .finishForkRequest _ => none

end Process

/-! ## Flags -/

section Flags

variable {s t : Process} {o p : ObjectId} {x : RRefObject}

theorem getTimedOut_eq (hx : s.objects[o]? = some x) : s.getTimedOut o = x.timedOut_ := by
  rw [Process.getTimedOut, hx]
  rfl

theorem addressOf_eq (hx : s.objects[o]? = some x) : s.addressOf o = some x.address := by
  rw [Process.addressOf, hx]
  rfl

theorem exists_of_getTimedOut (h : s.getTimedOut o = true) : ∃ x, s.objects[o]? = some x := by
  cases hx : s.objects[o]? with
  | none =>
    rw [Process.getTimedOut, hx] at h
    cases h
  | some x => exact ⟨x, rfl⟩

theorem setTimedOut_getTimedOut {q : ObjectId} (hx : s.objects[q]? = some x) (p : ObjectId) :
    (s.setTimedOut q).getTimedOut p = (decide (p = q) || s.getTimedOut p) := by
  unfold Process.setTimedOut Process.getTimedOut
  by_cases hpq : p = q
  · subst hpq
    rw [List.getElem?_modify_eq, hx, decide_eq_true rfl]
    rfl
  · rw [List.getElem?_modify_ne _ _ (Ne.symm hpq), decide_eq_false hpq, Bool.false_or]

theorem prepareChildFork_timedOut (s : Process) (p : ObjectId) :
    (s.prepareChildFork p).2 = some .timedOut ↔ s.getTimedOut p = true := by
  unfold Process.prepareChildFork Process.getTimedOut
  cases s.objects[p]? with
  | none => simp
  | some x =>
    cases hflag : x.timedOut_ with
    | true => simp [hflag]
    | false =>
      simp only [hflag, Option.map_some, Option.getD_some, Bool.false_eq_true, if_false, iff_false]
      split
      · simp
      · split
        · simp
        · simp

theorem toHere_timedOut {V : Type} (s : Process) (p : ObjectId) (fetched : Option V) :
    s.toHere p fetched = .error .timedOut ↔ s.getTimedOut p = true := by
  unfold Process.toHere Process.getTimedOut
  cases s.objects[p]? with
  | none => simp
  | some x =>
    cases hflag : x.timedOut_ with
    | true => simp [hflag]
    | false =>
      simp only [hflag, Option.map_some, Option.getD_some, Bool.false_eq_true, if_false, iff_false]
      split
      · simp
      · cases fetched with
        | none => simp
        | some value => simp

end Flags

/-! ## The effect of an error -/

section Errors

variable {s : Process} {o : ObjectId} {x : RRefObject} {errorType : RPCErrorType}

theorem handleError_eq (hx : s.objects[o]? = some x) (he : errorType ≠ .unknownError) :
    s.handleError o errorType =
      { s with errorHandlers := some (s.errorHandlers.getD x.address) }.setTimedOutAt
        (s.errorHandlers.getD x.address) := by
  unfold Process.handleError
  rw [addressOf_eq hx]
  cases errorType with
  | timeout => rfl
  | intentionalFailure => rfl
  | unknownError => exact absurd rfl he

/-- What a failed creation leaves: the object at the captured address is marked, or there is
none. -/
theorem runCallback_error {callback : Callback} (ho : s.registered callback = some o)
    (hx : s.objects[o]? = some x) (he : errorType ≠ .unknownError) :
    (∃ q t, s.occupant (s.errorHandlers.getD x.address) = some q ∧
        s.runCallback (.error errorType) callback = (t, none) ∧
        t.objects = (s.setTimedOut q).objects ∧
        t.errorHandlers = some (s.errorHandlers.getD x.address)) ∨
      s.occupant (s.errorHandlers.getD x.address) = none ∧
        (s.runCallback (.error errorType) callback).2 = some .useAfterFree := by
  have hhandle := handleError_eq hx he
  have hoccupant : ∀ captured a, { s with errorHandlers := captured }.occupant a = s.occupant a :=
    fun _ _ => rfl
  rw [Process.setTimedOutAt, hoccupant] at hhandle
  cases callback with
  | confirmPendingUser f =>
    have ho : s.getPendingUser f = some o := ho
    cases hq : s.occupant (s.errorHandlers.getD x.address) with
    | none =>
      rw [hq] at hhandle
      refine .inr ⟨rfl, ?_⟩
      simp only [Process.runCallback, Process.confirmPendingUser, ho, hhandle]
    | some q =>
      rw [hq] at hhandle
      refine .inl ⟨q, ?_⟩
      simp only [Process.runCallback, Process.confirmPendingUser, ho, hhandle]
      have hstill : ({ s with errorHandlers := some (s.errorHandlers.getD x.address)
          }.setTimedOut q).getPendingUser f = some o := ho
      simp only [Process.delPendingUser, hstill]
      exact ⟨_, trivial, rfl, rfl, rfl⟩
  | finishCreatingOwnerRRef r =>
    have ho : s.owners_.lookup r = some o := ho
    cases hq : s.occupant (s.errorHandlers.getD x.address) with
    | none =>
      rw [hq] at hhandle
      refine .inr ⟨rfl, ?_⟩
      simp only [Process.runCallback, Process.finishCreatingOwnerRRef, ho, hhandle]
    | some q =>
      rw [hq] at hhandle
      refine .inl ⟨q, ?_⟩
      simp only [Process.runCallback, Process.finishCreatingOwnerRRef, ho, hhandle]
      refine ⟨_, trivial, rfl, ?_⟩
      unfold Process.delForkOfOwner
      split
      · exact ⟨rfl, rfl⟩
      · exact ⟨rfl, rfl⟩
  | finishForkRequest f => cases ho

end Errors

/-! ## One step -/

/-- The objects that are marked lie at the address the table has captured. -/
def Captured (s : Process) : Prop :=
  ∀ (o : ObjectId) x, s.objects[o]? = some x → x.timedOut_ = true →
    s.errorHandlers = some x.address

/-- The event is the failure of a creation under an id, by a timeout or injected. -/
def Event.timesOut (id : GloballyUniqueId) (e : Event) : Prop :=
  ∃ callback errorType, e = .respond callback (.error errorType) ∧ callback.id = id ∧
    errorType ≠ .unknownError ∧ ∀ f, callback ≠ .finishForkRequest f

/-- Marks stay as they are, and the table keeps what it has captured. -/
structure Quiet (s t : Process) : Prop where
  flags : ∀ p, t.getTimedOut p = s.getTimedOut p
  table : s.errorHandlers.isSome → t.errorHandlers = s.errorHandlers

section Steps

variable {s t u : Process} {o : ObjectId} {x : RRefObject}

theorem Quiet.refl (s : Process) : Quiet s s :=
  ⟨fun _ => rfl, fun _ => rfl⟩

theorem quiet_of_objects (hobjects : t.objects = s.objects)
    (htable : t.errorHandlers = s.errorHandlers) : Quiet s t := by
  refine ⟨fun p => ?_, fun _ => htable⟩
  rw [Process.getTimedOut, hobjects]
  rfl

/-- A new object has not timed out. -/
theorem Adds.quiet (h : Adds s t x) : Quiet s t := by
  refine ⟨fun p => ?_, fun _ => h.table⟩
  rw [Process.getTimedOut, h.objects]
  rcases Nat.lt_or_ge p s.objects.length with hlt | hge
  · rw [List.getElem?_append_left hlt]
    rfl
  · rw [List.getElem?_append_right hge, List.getElem?_singleton, Process.getTimedOut,
      List.getElem?_eq_none hge]
    split
    · exact h.unset
    · rfl

theorem tryDel_quiet (s : Process) (o : ObjectId) : Quiet s (s.tryDel o) := by
  refine ⟨fun p => ?_, fun _ => rfl⟩
  unfold Process.tryDel Process.getTimedOut
  by_cases hpo : o = p
  · subst hpo
    rw [List.getElem?_modify_eq]
    cases s.objects[o]? with
    | none => rfl
    | some x => rfl
  · rw [List.getElem?_modify_ne _ _ hpo]

theorem prepareChildFork_quiet (s : Process) (o : ObjectId) : Quiet s (s.prepareChildFork o).1 := by
  unfold Process.prepareChildFork
  cases s.objects[o]? with
  | none => exact Quiet.refl s
  | some x =>
    show Quiet s (ite _ _ _ : Process × Option Failure).1
    split
    · exact Quiet.refl s
    split
    · exact Quiet.refl s
    split
    · exact quiet_of_objects rfl rfl
    · exact quiet_of_objects rfl rfl

theorem delPendingUser_quiet (s : Process) (f : ForkId) : Quiet s (s.delPendingUser f).1 := by
  unfold Process.delPendingUser
  cases s.getPendingUser f with
  | none => exact Quiet.refl s
  | some o => exact quiet_of_objects rfl rfl

theorem delForkOfOwner_quiet (s : Process) (r : RRefId) (f : ForkId) :
    Quiet s (s.delForkOfOwner r f) := by
  unfold Process.delForkOfOwner
  split
  · exact quiet_of_objects rfl rfl
  · exact Quiet.refl s

theorem handleError_unknown (s : Process) (o : ObjectId) :
    Quiet s (s.handleError o .unknownError).1 ∧ (s.handleError o .unknownError).2 ≠ none := by
  unfold Process.handleError
  cases s.addressOf o with
  | none => exact ⟨Quiet.refl s, nofun⟩
  | some this =>
    refine ⟨⟨fun _ => rfl, fun hsome => ?_⟩, nofun⟩
    obtain ⟨a, ha⟩ := Option.isSome_iff_exists.mp hsome
    rw [ha]
    rfl

variable {callback : Callback}

/-- Another callback sets no error. -/
theorem runCallback_quiet {response : Response}
    (hid : ¬ Event.timesOut callback.id (.respond callback response)) :
    Quiet s (s.runCallback response callback).1 := by
  cases callback with
  | confirmPendingUser f =>
    cases response with
    | ok ret =>
      simp only [Process.runCallback, Process.confirmPendingUser]
      split
      · exact delPendingUser_quiet s f
      · exact Quiet.refl s
    | error errorType =>
      have he : errorType = .unknownError := by
        by_contra hne
        exact hid ⟨_, errorType, rfl, rfl, hne, fun f hf => by cases hf⟩
      subst he
      simp only [Process.runCallback, Process.confirmPendingUser]
      split
      · exact Quiet.refl s
      · next o ho =>
          obtain ⟨hquiet, hraises⟩ := handleError_unknown s o
          split
          · next t heq => exact absurd (by rw [heq]) hraises
          · next t failure heq =>
              rw [heq] at hquiet
              exact hquiet
  | finishCreatingOwnerRRef r =>
    cases response with
    | ok ret =>
      simp only [Process.runCallback, Process.finishCreatingOwnerRRef]
      split
      · exact delForkOfOwner_quiet s _ _
      · exact Quiet.refl s
    | error errorType =>
      have he : errorType = .unknownError := by
        by_contra hne
        exact hid ⟨_, errorType, rfl, rfl, hne, fun f hf => by cases hf⟩
      subst he
      simp only [Process.runCallback, Process.finishCreatingOwnerRRef]
      split
      · exact Quiet.refl s
      · next o ho =>
          obtain ⟨hquiet, hraises⟩ := handleError_unknown s o
          split
          · next t heq => exact absurd (by rw [heq]) hraises
          · next t failure heq =>
              rw [heq] at hquiet
              exact hquiet
  | finishForkRequest f =>
    cases response with
    | ok ret => exact delPendingUser_quiet s f
    | error errorType => exact Quiet.refl s

variable {e : Event}

theorem apply_quiet (h : Registered s) (hid : ∀ id, ¬ e.timesOut id) :
    Quiet s (e.apply s).1 := by
  cases e with
  | remote address => exact (remote_adds h address).quiet
  | remoteToSelf address => exact (remoteToSelf_adds h address).quiet
  | receive address fromOwner => exact (receive_adds h address fromOwner).quiet
  | respond callback response =>
    have hquiet := runCallback_quiet (s := s.without callback) (hid callback.id)
    exact ⟨hquiet.flags, hquiet.table⟩
  | prepareChildFork o => exact prepareChildFork_quiet s o
  | childAccepted f => exact quiet_of_objects rfl rfl
  | userDeleted r f => exact delForkOfOwner_quiet s r f
  | tryDel o => exact tryDel_quiet s o
  | release o => exact quiet_of_objects rfl rfl

/-- Objects keep their address and their id, and a new object has a new id. -/
structure Grows (s t : Process) : Prop where
  keeps : ∀ (p : ObjectId) x, s.objects[p]? = some x →
    ∃ y, t.objects[p]? = some y ∧ y.address = x.address ∧ y.forkId_ = x.forkId_
  fresh : ∀ (p : ObjectId) y, t.objects[p]? = some y → s.objects[p]? = none →
    s.nextLocalId_ ≤ y.forkId_
  next : s.nextLocalId_ ≤ t.nextLocalId_

/-- Objects stay. -/
theorem Shrinks.grows (h : Shrinks s t) : Grows s t where
  keeps _ _ hx := h.after hx
  fresh _ _ hy hnone := by
    obtain ⟨x, hx, -⟩ := h.before hy
    rw [hnone] at hx
    cases hx
  next := Nat.le_of_eq h.next.symm

/-- Objects stay when one is added. -/
theorem Adds.grows (h : Adds s t x) : Grows s t where
  keeps _ y hy := ⟨y, h.getElem?.mpr (.inl hy), rfl, rfl⟩
  fresh _ y hy hnone := by
    rcases h.getElem?.mp hy with hy | ⟨-, rfl⟩
    · rw [hnone] at hy
      cases hy
    · exact h.old
  next := Nat.le_of_lt (Nat.lt_of_le_of_lt h.old h.next)

theorem prepareChildFork_grows (s : Process) (o : ObjectId) : Grows s (s.prepareChildFork o).1 := by
  have hrefl : Grows s s := (Shrinks.refl s).grows
  unfold Process.prepareChildFork
  cases s.objects[o]? with
  | none => exact hrefl
  | some x =>
    have hsame : ∀ t : Process, t.objects = s.objects → s.nextLocalId_ ≤ t.nextLocalId_ →
        Grows s t := by
      intro t hobjects hnext
      refine ⟨fun p y hy => ⟨y, by rw [hobjects, hy], rfl, rfl⟩, fun p y hy hnone => ?_, hnext⟩
      rw [hobjects, hnone] at hy
      cases hy
    show Grows s (ite _ _ _ : Process × Option Failure).1
    split
    · exact hrefl
    split
    · exact hrefl
    split
    · exact hsame _ rfl (Nat.le_succ _)
    · exact hsame _ rfl (Nat.le_succ _)

theorem apply_grows (h : Registered s) (he : e.Enabled s) : Grows s (e.apply s).1 := by
  cases e with
  | remote address => exact (remote_adds h address).grows
  | remoteToSelf address => exact (remoteToSelf_adds h address).grows
  | receive address fromOwner => exact (receive_adds h address fromOwner).grows
  | respond callback response => exact (runCallback_shrinks h he).grows
  | prepareChildFork o => exact prepareChildFork_grows s o
  | childAccepted f => exact (delPendingChild_shrinks s f).grows
  | userDeleted r f => exact (delForkOfOwner_shrinks fun heq => absurd heq he).grows
  | tryDel o => exact (tryDel_shrinks s o).grows
  | release o => exact (release_shrinks s o).grows

theorem Registered.exists_registered (h : Registered s)
    (hc : callback ∈ s.callbacks) (hne : ∀ f, callback ≠ .finishForkRequest f) :
    ∃ o x, s.registered callback = some o ∧ s.objects[o]? = some x ∧ x.forkId_ = callback.id ∧
      s.Alive o := by
  have hlookup : ∀ (entries : List (GloballyUniqueId × ObjectId)) i o, (i, o) ∈ entries →
      ∃ p, entries.lookup i = some p ∧ (i, p) ∈ entries := by
    intro entries i o hmem
    cases hp : entries.lookup i with
    | none =>
      have hnot := List.lookup_eq_none_iff.mp hp (i, o) hmem
      simp at hnot
    | some p =>
      obtain ⟨front, back, rfl, -⟩ := List.lookup_eq_some_iff.mp hp
      exact ⟨p, rfl, List.mem_append_right _ List.mem_cons_self⟩
  cases callback with
  | confirmPendingUser f =>
    obtain ⟨o, ho⟩ := h.confirm f hc
    obtain ⟨p, hp, hmem⟩ := hlookup _ f o ho
    obtain ⟨x, hx, hid⟩ := h.user f p hmem
    exact ⟨p, x, hp, hx, hid, .inr (.inr (.inl (List.mem_map.mpr ⟨_, hmem, rfl⟩)))⟩
  | finishCreatingOwnerRRef r =>
    obtain ⟨-, o, ho⟩ := h.finish r hc
    obtain ⟨p, hp, hmem⟩ := hlookup _ r o ho
    obtain ⟨x, hx, hid⟩ := h.owner r p hmem
    exact ⟨p, x, hp, hx, hid, .inr (.inl (List.mem_map.mpr ⟨_, hmem, rfl⟩))⟩
  | finishForkRequest f => exact absurd rfl (hne f)

/-- A callback that times out sets the error on the object that was registered first. -/
theorem respond_timesOut (h : Registered s) {id : GloballyUniqueId}
    (he : e.Enabled s) (hid : e.timesOut id) (hok : (e.apply s).2 ≠ some .useAfterFree) :
    ∃ callback errorType o x q, e = .respond callback (.error errorType) ∧
      s.registered callback = some o ∧ s.objects[o]? = some x ∧ x.forkId_ = id ∧ s.Alive o ∧
      errorType ≠ .unknownError ∧ s.occupant (s.errorHandlers.getD x.address) = some q ∧
      (∀ p, (e.apply s).1.getTimedOut p = (decide (p = q) || s.getTimedOut p)) ∧
      (e.apply s).1.errorHandlers = some (s.errorHandlers.getD x.address) := by
  obtain ⟨callback, errorType, rfl, rfl, hne, hcallback⟩ := hid
  obtain ⟨o, x, ho, hx, hxid, halive⟩ := h.exists_registered he hcallback
  rcases @runCallback_error (s.without callback) o x errorType callback ho hx hne with
    ⟨q, t, hq, ht, hobjects, htable⟩ | ⟨-, hfree⟩
  · have hq' : s.occupant (s.errorHandlers.getD x.address) = some q := hq
    obtain ⟨y, hy, -⟩ := Option.map_eq_some_iff.mp (occupant_spec hq').2
    have happly : (Event.respond callback (.error errorType)).apply s = (t, none) := ht
    refine ⟨callback, errorType, o, x, q, rfl, ho, hx, hxid, halive, hne, hq', fun p => ?_, ?_⟩
    · rw [happly, Process.getTimedOut, hobjects]
      exact setTimedOut_getTimedOut (s := s.without callback) hy p
    · rw [happly]
      exact htable
  · exact absurd hfree hok

theorem apply_captured (h : Registered s) (hcaptured : Captured s)
    (he : e.Enabled s) (hok : (e.apply s).2 ≠ some .useAfterFree) : Captured (e.apply s).1 := by
  intro p y hy hmark
  have hgrows := apply_grows h he
  have hmarked : (e.apply s).1.getTimedOut p = true := by rw [getTimedOut_eq hy, hmark]
  have hbefore : s.getTimedOut p = true → s.errorHandlers = some y.address := by
    intro hflag
    obtain ⟨x, hx⟩ := exists_of_getTimedOut hflag
    obtain ⟨z, hz, haddress, -⟩ := hgrows.keeps p x hx
    rw [hy] at hz
    cases hz
    rw [haddress]
    exact hcaptured p x hx (by rwa [getTimedOut_eq hx] at hflag)
  by_cases htime : ∃ id, e.timesOut id
  · obtain ⟨id, hid⟩ := htime
    obtain ⟨callback, errorType, o, x, q, -, -, -, -, -, -, hq, hflags, htable⟩ :=
      respond_timesOut h he hid hok
    rw [hflags, Bool.or_eq_true, decide_eq_true_iff] at hmarked
    rw [htable]
    rcases hmarked with rfl | hmarked
    · obtain ⟨z, hz, haddress⟩ := Option.map_eq_some_iff.mp (occupant_spec hq).2
      obtain ⟨w, hw, hwz, -⟩ := hgrows.keeps p z hz
      rw [hy] at hw
      cases hw
      rw [hwz, haddress]
    · rw [hbefore hmarked]
      rfl
  · have hquiet := apply_quiet h fun id hid => htime ⟨id, hid⟩
    rw [hquiet.flags] at hmarked
    have htable := hbefore hmarked
    rw [hquiet.table (by rw [htable]; rfl), htable]

end Steps

/-! ## One timeout -/

/-- A timeout of the creation of `o` marks `o` and nothing else, and `o` joins the RRefs that
cannot be forked or fetched. -/
structure TimesOutOnly (s : Process) (o : ObjectId) (result : Process × Option Failure) : Prop where
  returns : result.2 = none
  marked : result.1.getTimedOut o = true
  others : ∀ p, p ≠ o → result.1.getTimedOut p = s.getTimedOut p
  forks : ∀ p, (result.1.prepareChildFork p).2 = some .timedOut ↔ p = o ∨ s.getTimedOut p = true
  fetches : ∀ {V : Type} p (fetched : Option V),
    result.1.toHere p fetched = .error .timedOut ↔ p = o ∨ s.getTimedOut p = true

section Timeouts

variable {s t : Process} {o : ObjectId} {f : ForkId}

theorem timesOutOnly_of_flags
    (hflags : ∀ p, t.getTimedOut p = (decide (p = o) || s.getTimedOut p)) :
    TimesOutOnly s o (t, none) := by
  have hiff : ∀ p, t.getTimedOut p = true ↔ p = o ∨ s.getTimedOut p = true := by
    intro p
    rw [hflags, Bool.or_eq_true, decide_eq_true_iff]
  refine ⟨rfl, (hiff o).mpr (.inl rfl), fun p hp => ?_, fun p => ?_, fun p fetched => ?_⟩
  · rw [hflags, decide_eq_false hp, Bool.false_or]
  · exact (prepareChildFork_timedOut t p).trans (hiff p)
  · exact (toHere_timedOut t p fetched).trans (hiff p)

theorem confirmPendingUser_iff (h : Registered s) (hcaptured : Captured s)
    (ho : s.getPendingUser f = some o) :
    TimesOutOnly s o (s.confirmPendingUser f (.error .timeout)) ↔ s.OwnHandler o := by
  obtain ⟨front, back, hentries, -⟩ := List.lookup_eq_some_iff.mp ho
  have hmem : (f, o) ∈ s.pendingUsers_ := by
    rw [hentries]
    exact List.mem_append_right _ List.mem_cons_self
  obtain ⟨x, hx, -⟩ := h.user f o hmem
  have halive : s.Alive o := .inr (.inr (.inl (List.mem_map.mpr ⟨_, hmem, rfl⟩)))
  have hresult := @runCallback_error s o x .timeout (.confirmPendingUser f) ho hx (by decide)
  constructor
  · intro honly
    rcases hresult with ⟨q, t, hq, ht, hobjects, -⟩ | ⟨-, hfree⟩
    · have ht : s.confirmPendingUser f (.error .timeout) = (t, none) := ht
      rw [ht] at honly
      obtain ⟨hq_alive, hqa⟩ := occupant_spec hq
      obtain ⟨y, hy, hya⟩ := Option.map_eq_some_iff.mp hqa
      have hmarked := honly.marked
      rw [Process.getTimedOut, hobjects] at hmarked
      have hor := (setTimedOut_getTimedOut hy o).symm.trans hmarked
      rw [Bool.or_eq_true, decide_eq_true_iff] at hor
      rcases hor with rfl | hflag
      · -- the object at the captured address is the RRef itself
        cases htable : s.errorHandlers with
        | none => exact .inl htable
        | some a =>
          rw [htable, Option.getD_some] at hqa
          exact .inr (htable.trans hqa.symm)
      · -- it was marked before, so its address is the captured one
        right
        rw [getTimedOut_eq hx] at hflag
        rw [hcaptured o x hx hflag, addressOf_eq hx]
    · have hreturns := honly.returns
      have hfree : (s.confirmPendingUser f (.error .timeout)).2 = some .useAfterFree := hfree
      rw [hfree] at hreturns
      cases hreturns
  · intro hown
    have haddress : s.errorHandlers.getD x.address = x.address := by
      rcases hown with hnone | hsome
      · rw [hnone]
        rfl
      · rw [hsome, addressOf_eq hx]
        rfl
    rw [haddress, occupant_eq_some h halive hx] at hresult
    rcases hresult with ⟨q, t, hq, ht, hobjects, -⟩ | ⟨hnone, -⟩
    · cases hq
      have ht : s.confirmPendingUser f (.error .timeout) = (t, none) := ht
      rw [ht]
      refine timesOutOnly_of_flags fun p => ?_
      rw [Process.getTimedOut, hobjects]
      exact setTimedOut_getTimedOut hx p
    · cases hnone

end Timeouts

/-! ## Runs -/

/-- The event reports a failure of an RRef whose own handler runs. -/
def Event.Own (s : Process) : Event → Prop
  | .respond callback (.error errorType) =>
    errorType = .unknownError ∨ ∀ o ∈ s.registered callback, s.OwnHandler o
  | _ => True

instance (s : Process) : (e : Event) → Decidable (e.Own s)
  | .respond callback (.error errorType) => inferInstanceAs (Decidable
      (errorType = .unknownError ∨ ∀ o ∈ s.registered callback, s.OwnHandler o))
  | .respond _ (.ok _) | .remote _ | .remoteToSelf _ | .receive .. | .prepareChildFork _
  | .childAccepted _ | .userDeleted .. | .tryDel _ | .release _ => .isTrue trivial

/-- Every failure of the run finds its own handler. -/
def ownRun (s : Process) : List Event → Bool
  | [] => true
  | e :: events => decide (e.Own s) && ownRun (e.apply s).1 events

/-- The marks after the events that have happened. -/
structure Chronicle (past : List Event) (s : Process) : Prop where
  known : ∀ e ∈ past, ∀ id, e.timesOut id → id < s.nextLocalId_
  marks : ∀ (p : ObjectId) x, s.objects[p]? = some x →
    (x.timedOut_ = true ↔ ∃ e ∈ past, e.timesOut x.forkId_)

section Runs

variable {s t : Process}

variable {events : List Event} {past : List Event} {e : Event}

theorem exists_mem_append_singleton {P : Event → Prop} :
    (∃ d ∈ past ++ [e], P d) ↔ (∃ d ∈ past, P d) ∨ P e := by
  simp [or_and_right, exists_or]

theorem apply_chronicle (h : Registered s) (hpast : Chronicle past s) (he : e.Enabled s)
    (hok : (e.apply s).2 ≠ some .useAfterFree) (hown : e.Own s) :
    Chronicle (past ++ [e]) (e.apply s).1 := by
  have hgrows := apply_grows h he
  have hrange : ∀ id, e.timesOut id → id < s.nextLocalId_ := by
    intro id hid
    obtain ⟨_, _, o, x, _, -, -, hx, hxid, -⟩ := respond_timesOut h he hid hok
    rw [← hxid]
    exact h.fresh o x hx
  refine ⟨fun d hd id hid => ?_, fun p y hy => ?_⟩
  · refine Nat.lt_of_lt_of_le ?_ hgrows.next
    rcases List.mem_append.mp hd with hd | hd
    · exact hpast.known d hd id hid
    · obtain rfl := List.mem_singleton.mp hd
      exact hrange id hid
  · rw [exists_mem_append_singleton, ← getTimedOut_eq hy]
    cases hx : s.objects[p]? with
    | none =>
      -- a new object
      have hnew := hgrows.fresh p y hy hx
      have hno : ∀ d, (d ∈ past ∨ d = e) → ¬ d.timesOut y.forkId_ := by
        rintro d (hd | rfl) hid
        · exact absurd (hpast.known d hd _ hid) (Nat.not_lt.mpr hnew)
        · exact absurd (hrange _ hid) (Nat.not_lt.mpr hnew)
      have hunmarked : (e.apply s).1.getTimedOut p = false := by
        by_cases htime : ∃ id, e.timesOut id
        · obtain ⟨id, hid⟩ := htime
          obtain ⟨_, _, _, _, q, -, -, -, -, -, -, hq, hflags, -⟩ := respond_timesOut h he hid hok
          obtain ⟨z, hz, -⟩ := Option.map_eq_some_iff.mp (occupant_spec hq).2
          have hpq : p ≠ q := by
            rintro rfl
            rw [hx] at hz
            cases hz
          rw [hflags, decide_eq_false hpq, Process.getTimedOut, hx]
          rfl
        · rw [(apply_quiet h fun id hid => htime ⟨id, hid⟩).flags, Process.getTimedOut, hx]
          rfl
      rw [hunmarked]
      constructor
      · intro hfalse
        cases hfalse
      · rintro (⟨d, hd, hid⟩ | hid)
        · exact absurd hid (hno d (.inl hd))
        · exact absurd hid (hno e (.inr rfl))
    | some x =>
      obtain ⟨z, hz, -, hzid⟩ := hgrows.keeps p x hx
      rw [hy] at hz
      cases hz
      rw [hzid, ← hpast.marks p x hx, ← getTimedOut_eq hx]
      by_cases htime : ∃ id, e.timesOut id
      · obtain ⟨id, hid⟩ := htime
        obtain ⟨callback, errorType, o, z, q, heq, ho, hz, hoid, halive, hne, hq, hflags, -⟩ :=
          respond_timesOut h he hid hok
        have hown : s.OwnHandler o := by
          rw [heq] at hown
          rcases hown with hunknown | hall
          · exact absurd hunknown hne
          · exact hall o ho
        have haddress : s.errorHandlers.getD z.address = z.address := by
          rcases hown with hnone | hsome
          · rw [hnone]
            rfl
          · rw [hsome, addressOf_eq hz]
            rfl
        rw [haddress, occupant_eq_some h halive hz] at hq
        cases hq
        have hiff : p = o ↔ e.timesOut x.forkId_ := by
          constructor
          · rintro rfl
            rw [hz] at hx
            cases hx
            rw [hoid]
            exact hid
          · rintro ⟨d, _, hd, hdid, -⟩
            obtain ⟨d', _, hd', hdid', -⟩ := hid
            rw [hd] at hd'
            obtain ⟨rfl, -⟩ := Event.respond.inj hd'
            exact h.distinct p o x z hx hz (hdid.symm.trans (hdid'.trans hoid.symm))
        rw [hflags, Bool.or_eq_true, decide_eq_true_iff, hiff]
        exact Or.comm
      · rw [(apply_quiet h fun id hid => htime ⟨id, hid⟩).flags]
        constructor
        · exact .inl
        · rintro (hmarked | hid)
          · exact hmarked
          · exact absurd ⟨_, hid⟩ htime

theorem run_cons (hrun : run s (e :: events) = some t) :
    e.Enabled s ∧ (e.apply s).2 ≠ some .useAfterFree ∧ run (e.apply s).1 events = some t := by
  rw [run] at hrun
  split at hrun
  · next he =>
      split at hrun
      · cases hrun
      · next u failure hne heq =>
          rw [heq]
          exact ⟨he, hne, hrun⟩
  · cases hrun

theorem run_registered (h : Registered s) (hcaptured : Captured s)
    (hrun : run s events = some t) : Registered t ∧ Captured t := by
  induction events generalizing s with
  | nil =>
    cases hrun
    exact ⟨h, hcaptured⟩
  | cons e events ih =>
    obtain ⟨he, hok, hrest⟩ := run_cons hrun
    exact ih (apply_registered h he) (apply_captured h hcaptured he hok) hrest

theorem run_chronicle (h : Registered s) (hpast : Chronicle past s) (hrun : run s events = some t)
    (hown : ownRun s events = true) :
    Chronicle (past ++ events) t := by
  induction events generalizing s past with
  | nil =>
    cases hrun
    rw [List.append_nil]
    exact hpast
  | cons e events ih =>
    obtain ⟨he, hok, hrest⟩ := run_cons hrun
    rw [ownRun, Bool.and_eq_true, decide_eq_true_iff] at hown
    have hnext := ih (apply_registered h he) (apply_chronicle h hpast he hok hown.1) hrest hown.2
    rwa [List.append_assoc] at hnext

/-- **Timeouts.** A timeout of the creation of an RRef marks exactly that RRef, if and only if no
error has been handled before or the RRef lies where the RRef of the first error lay. -/
theorem timedOut_exactly (events : List Event) (s : Process)
    (hrun : run Process.start events = some s) :
    (∀ f o, .confirmPendingUser f ∈ s.callbacks → s.getPendingUser f = some o →
      (TimesOutOnly s o (s.confirmPendingUser f (.error .timeout)) ↔ s.OwnHandler o)) ∧
    (ownRun Process.start events = true → ∀ (p : ObjectId) x, s.objects[p]? = some x →
      (x.timedOut_ = true ↔ ∃ e ∈ events, e.timesOut x.forkId_)) := by
  have hstart : Captured Process.start := by
    intro o x hx
    cases hx
  obtain ⟨h, hcaptured⟩ := run_registered start_registered hstart hrun
  refine ⟨fun f o _ ho => confirmPendingUser_iff h hcaptured ho, fun hown => ?_⟩
  have hempty : Chronicle [] Process.start := by
    refine ⟨fun e he => ?_, fun p x hx => ?_⟩
    · cases he
    · cases hx
  exact (run_chronicle start_registered hempty hrun hown).marks

/-- Two RRefs are created, and the creation of the first times out. -/
def firstTimesOut : List Event :=
  [.remote 100, .remote 200, .respond (.confirmPendingUser 1) (.error .timeout)]

/-- The first call whose request times out. -/
theorem timedOut_exactly_firstTimesOut : ∃ s, run Process.start firstTimesOut = some s ∧
      ∀ f o, .confirmPendingUser f ∈ s.callbacks → s.getPendingUser f = some o →
        (TimesOutOnly s o (s.confirmPendingUser f (.error .timeout)) ↔ s.OwnHandler o) :=
  ⟨_, rfl, (timedOut_exactly firstTimesOut _ rfl).1⟩

/-- **The second timeout marks the first RRef.**  It leaves the flag of its own. -/
theorem timedOut_second :
    ∃ s, run Process.start firstTimesOut = some s ∧ .confirmPendingUser 3 ∈ s.callbacks ∧
      s.getPendingUser 3 = some 1 ∧
      (s.confirmPendingUser 3 (.error .timeout)).1.getTimedOut 1 = false ∧
      ¬ TimesOutOnly s 1 (s.confirmPendingUser 3 (.error .timeout)) := by
  refine ⟨_, rfl, by decide, rfl, rfl, fun h => ?_⟩
  have hmarked := h.marked
  revert hmarked
  decide

end Runs

end PyTorchCore.RemoteErrors
