import PyTorchCore.RRef.Handlers

/-!
# What the handlers do

One equation for each handler whose code branches: the state it leaves, when its
assertions hold or whatever the branch.
-/

namespace PyTorchCore.RRef

open Lib
open Function List

namespace Worker

theorem remoteToOwner_eq {w O : WorkerId} (x : Worker)
    (hf : (⟨w, x.nextLocalId_ + 1⟩ : ForkId) ∉ x.pendingUsers_) :
    x.remoteToOwner w O = ({ x with
          nextLocalId_ := x.nextLocalId_ + 2
          userRRefs := update x.userRRefs ⟨w, x.nextLocalId_ + 1⟩
            (some ⟨O, ⟨w, x.nextLocalId_⟩, true, false, false⟩)
          pendingUsers_ := insert ⟨w, x.nextLocalId_ + 1⟩ x.pendingUsers_
          tasks := insert (.confirmPendingUser ⟨w, x.nextLocalId_ + 1⟩) x.tasks },
        [⟨w, O, .remoteCall ⟨w, x.nextLocalId_⟩ ⟨w, x.nextLocalId_ + 1⟩⟩]) := by
  simp [remoteToOwner, addPendingUser, genGloballyUniqueId, createUserRRef, setUserRRef, nextId,
    addTask, hf]

/-- What `remoteToSelf` does to a worker. -/
theorem remoteToSelf_eq {w : WorkerId} (x : Worker)
    (hr : (⟨w, x.nextLocalId_⟩ : ForkId) ∉ x.forks_ ⟨w, x.nextLocalId_⟩) :
    x.remoteToSelf w = ({ x with
          nextLocalId_ := x.nextLocalId_ + 1
          ownerRRefs := x.ownerRRefs ++ [⟨⟨w, x.nextLocalId_⟩, false, false⟩]
          heldOwners := insert x.ownerRRefs.length x.heldOwners
          owners_ := update x.owners_ ⟨w, x.nextLocalId_⟩ (some x.ownerRRefs.length)
          forks_ := update x.forks_ ⟨w, x.nextLocalId_⟩
            (insert ⟨w, x.nextLocalId_⟩ (x.forks_ ⟨w, x.nextLocalId_⟩))
          tasks := insert (.finishCreatingOwnerRRef ⟨w, x.nextLocalId_⟩) x.tasks },
        [⟨w, w, .remoteCall ⟨w, x.nextLocalId_⟩ ⟨w, x.nextLocalId_⟩⟩]) := by
  simp [remoteToSelf, addSelfAsFork, genGloballyUniqueId, makeOwnerRRef, holdOwner, nextId,
    addTask, hr]

variable {w callee : WorkerId}

theorem prepareUserFork_eq (x : Worker) (f : ForkId) (u : UserRRef)
    (hf : ∀ g, (⟨w, x.nextLocalId_⟩, g) ∉ x.pendingChildren_) :
    x.prepareUserFork w f u callee = ({ x with
          nextLocalId_ := x.nextLocalId_ + 1
          pendingChildren_ := insert (⟨w, x.nextLocalId_⟩, f) x.pendingChildren_ },
        [⟨w, callee, .userCall ⟨u.ownerId_, u.rrefId_, ⟨w, x.nextLocalId_⟩, w⟩⟩]) := by
  simp [prepareUserFork, addPendingChild, genGloballyUniqueId, nextId, hf]

theorem prepareOwnerFork_eq (x : Worker) (o : Nat) (r : RRefId)
    (hf : (⟨w, x.nextLocalId_⟩ : ForkId) ∉ x.forks_ r) :
    x.prepareOwnerFork w o r callee = { x with
        nextLocalId_ := x.nextLocalId_ + 1
        forks_ := update x.forks_ r (insert ⟨w, x.nextLocalId_⟩ (x.forks_ r))
        tasks := insert (.prepareChildFork o ⟨w, r, ⟨w, x.nextLocalId_⟩, w⟩ callee) x.tasks } := by
  simp [prepareOwnerFork, addForkOfOwner, genGloballyUniqueId, nextId, addTask, hf]

section

variable (x : Worker) (r : RRefId) (f : ForkId)
include x r f

theorem delForkOfOwner_forks :
    (x.delForkOfOwner r f).2.forks_ = update x.forks_ r ((x.forks_ r).erase f) := by
  unfold Worker.delForkOfOwner
  simp only
  split
  · rename_i hempty
    simp [hempty]
  · split <;> rfl

theorem delForkOfOwner_owners :
    (x.delForkOfOwner r f).2.owners_ =
      if x.forks_ r = {f} then update x.owners_ r none else x.owners_ := by
  unfold Worker.delForkOfOwner
  simp only
  split
  · rename_i hempty
    simp [hempty]
  · rename_i hne
    split
    · rename_i herase
      rw [if_pos ((Finset.erase_eq_empty_iff _ _).mp herase |>.resolve_left hne)]
    · rename_i herase
      rw [if_neg fun heq => herase (by simp [heq])]

theorem delForkOfOwner_rest :
    (x.delForkOfOwner r f).2 = { x with
      forks_ := (x.delForkOfOwner r f).2.forks_
      owners_ := (x.delForkOfOwner r f).2.owners_
      deletedForks := insert (r, f) x.deletedForks } := by
  unfold Worker.delForkOfOwner
  simp only
  split
  · rfl
  · split <;> rfl

/-- What `delForkOfOwner` does to a worker. -/
theorem delForkOfOwner_eq :
    (x.delForkOfOwner r f).2 = { x with
      forks_ := update x.forks_ r ((x.forks_ r).erase f)
      owners_ := if x.forks_ r = {f} then update x.owners_ r none else x.owners_
      deletedForks := insert (r, f) x.deletedForks } := by
  rw [delForkOfOwner_rest, delForkOfOwner_forks, delForkOfOwner_owners]

end

variable {r : RRefId} {x : Worker}

theorem addForkOfOwner_of_mem {f : ForkId} (hf : f ∈ x.forks_ r) :
    x.addForkOfOwner r f = .error "Got fork notification twice on the same RRef " := by
  simp [addForkOfOwner, hf]

theorem addForkOfOwner_of_notMem {f : ForkId} (hf : f ∉ x.forks_ r) : x.addForkOfOwner r f =
      .ok { x with forks_ := update x.forks_ r (insert f (x.forks_ r)) } := by
  simp [addForkOfOwner, hf]

theorem addForkOfOwnerIfNotPresent_eq (x : Worker) (r : RRefId) (f : ForkId) :
    x.addForkOfOwnerIfNotPresent r f =
      { x with forks_ := update x.forks_ r (insert f (x.forks_ r)) } := by
  by_cases hf : f ∈ x.forks_ r
  · simp [addForkOfOwnerIfNotPresent, hf]
  · simp [addForkOfOwnerIfNotPresent, hf]

theorem forceOwnerRRef_of_none (ho : x.owners_ r = none) :
    x.forceOwnerRRef r = .error "Expected OwnerRRef to be created." := by
  simp [forceOwnerRRef, getOwnerRRef, ho]

theorem forceOwnerRRef_of_some {o : Nat} (ho : x.owners_ r = some o) :
    x.forceOwnerRRef r = .ok (o, { x with futures := x.futures ++ [⟨r, some o⟩] }) := by
  simp [forceOwnerRRef, getOwnerRRef, ho]

/-- What confirming a pending user does to a worker. -/
theorem confirmPendingUser_eq (x : Worker) (f : ForkId) : ∃ c, x.confirmPendingUser f = { x with
      pendingUsers_ := x.pendingUsers_.erase f
      confirmedUsers_ := c } := by
  by_cases hf : f ∈ x.pendingUsers_
  · exact ⟨insert f x.confirmedUsers_,
      by simp [confirmPendingUser, delPendingUser, addConfirmedUser, hf]⟩
  · exact ⟨x.confirmedUsers_, by simp [confirmPendingUser, delPendingUser, hf]⟩

/-- The owner's object, old or new. -/
theorem getOrCreateOwnerRRef_eq (x : Worker) (r : RRefId) :
    (x.getOrCreateOwnerRRef r).1 = (x.owners_ r).getD x.ownerRRefs.length ∧
    ∃ p fu, (x.getOrCreateOwnerRRef r).2 = { x with
      owners_ := update x.owners_ r (some ((x.owners_ r).getD x.ownerRRefs.length))
      ownerRRefs :=
        if x.owners_ r = none then x.ownerRRefs ++ [⟨r, false, false⟩] else x.ownerRRefs
      pendingOwners_ := p
      futures := fu } := by
  cases ho : x.owners_ r with
  | some o =>
    refine ⟨by simp [getOrCreateOwnerRRef, ho], x.pendingOwners_, x.futures, ?_⟩
    have hself : update x.owners_ r (some o) = x.owners_ := by
      rw [← ho]
      exact update_eq_self r x.owners_
    simp [getOrCreateOwnerRRef, ho, hself]
  | none =>
    refine ⟨by simp [getOrCreateOwnerRRef, ho], ?_⟩
    cases hp : x.pendingOwners_ r with
    | none =>
      exact ⟨x.pendingOwners_, x.futures, by
        simp [getOrCreateOwnerRRef, createOwner, makeOwnerRRef, ho, hp]⟩
    | some k =>
      refine ⟨update x.pendingOwners_ r none, x.futures.set k ⟨r, some x.ownerRRefs.length⟩, ?_⟩
      simp [getOrCreateOwnerRRef, createOwner, makeOwnerRRef, ho, hp]

theorem processRRefFetchCall_eq (x : Worker) (r : RRefId) :
    ∃ p fu, x.processRRefFetchCall r = { x with pendingOwners_ := p, futures := fu } := by
  unfold processRRefFetchCall getOwnerRRef
  cases x.owners_ r with
  | none =>
    cases x.pendingOwners_ r with
    | none => exact ⟨_, _, rfl⟩
    | some k => exact ⟨x.pendingOwners_, x.futures, rfl⟩
  | some o => exact ⟨x.pendingOwners_, _, rfl⟩

end Worker

/-- Changing an object without its id keeps the ids. -/
theorem map_modify_rrefId (l : List OwnerRRef) (o : Nat) (g : OwnerRRef → OwnerRRef)
    (hg : ∀ q, (g q).rrefId_ = q.rrefId_) :
    (l.modify o g).map OwnerRRef.rrefId_ = l.map OwnerRRef.rrefId_ := by
  apply ext_getElem?
  intro i
  simp only [getElem?_map, getElem?_modify]
  cases l[i]? with
  | none => rfl
  | some q =>
    by_cases hi : o = i
    · simp [hi, hg]
    · simp [hi]

end PyTorchCore.RRef
