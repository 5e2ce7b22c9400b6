import PyTorchCore.RRef.Handlers

/-!
# The fork graph

The abstract model of the protocol.  A `ForkGraph` has the data of all workers that decides
whether an `OwnerRRef` may go away, indexed by map and not by worker, and a ledger.
-/

namespace PyTorchCore.RRef

open Lib

/-- Where a fork is. -/
inductive Place where
  | prepared (ownerRRef : Nat) (callee : WorkerId)
  | carried (parent callee : WorkerId)
  | user (w : WorkerId)
  | spent
deriving DecidableEq

/-- What the ledger says about a fork id. -/
structure Fork where
  owner : WorkerId
  rref : RRefId
  depth : Nat
  place : Place
deriving DecidableEq

/-- What matters about a `UserRRef`. -/
structure Holder where
  owner : WorkerId
  rref : RRefId
  deleted : Bool
deriving DecidableEq

/-- The update of a map with two keys. -/
def put {ι κ β : Type} [DecidableEq ι] [DecidableEq κ] (m : ι → κ → β) (i : ι) (k : κ) (b : β) :
    ι → κ → β :=
  Function.update m i (Function.update (m i) k b)

section Put

variable {ι κ β : Type} [DecidableEq ι] [DecidableEq κ]

/-- Which entry `put` changes. -/
theorem put_apply (m : ι → κ → β) (i j : ι) (k l : κ) (b : β) :
    put m i k b j l = if j = i ∧ l = k then b else m j l := by
  unfold put
  by_cases hj : j = i
  · subst hj
    by_cases hl : l = k
    · subst hl
      simp
    · simp [hl]
  · simp [hj]

@[simp] theorem put_same (m : ι → κ → β) (i : ι) (k : κ) (b : β) : put m i k b i k = b := by
  simp [put_apply]

end Put

structure ForkGraph where
  next : WorkerId → Nat
  users : WorkerId → ForkId → Option Holder
  pendingUsers : WorkerId → Finset ForkId
  pendingChildren : WorkerId → Finset (ForkId × ForkId)
  forks : WorkerId → RRefId → Finset ForkId
  deleted : WorkerId → Finset (RRefId × ForkId)
  owners : WorkerId → RRefId → Option Nat
  objects : WorkerId → List RRefId
  tasks : WorkerId → Finset Task
  mail : Finset Mail
  ledger : ForkId → Option Fork

namespace ForkGraph

variable (G : ForkGraph)

def alloc (w : WorkerId) (n : Nat) : ForkGraph :=
  { G with next := Function.update G.next w (G.next w + n) }

def setUser (w : WorkerId) (f : ForkId) (u : Holder) : ForkGraph :=
  { G with users := put G.users w f (some u) }

def addPendingUser (w : WorkerId) (f : ForkId) : ForkGraph :=
  { G with pendingUsers := Function.update G.pendingUsers w (insert f (G.pendingUsers w)) }

def delPendingUser (w : WorkerId) (f : ForkId) : ForkGraph :=
  { G with pendingUsers := Function.update G.pendingUsers w ((G.pendingUsers w).erase f) }

def addChild (w : WorkerId) (f parent : ForkId) : ForkGraph :=
  { G with
    pendingChildren :=
      Function.update G.pendingChildren w (insert (f, parent) (G.pendingChildren w)) }

def delChild (w : WorkerId) (f : ForkId) : ForkGraph :=
  { G with
    pendingChildren :=
      Function.update G.pendingChildren w ((G.pendingChildren w).filter fun e => e.1 ≠ f) }

def addFork (w : WorkerId) (r : RRefId) (f : ForkId) : ForkGraph :=
  { G with forks := put G.forks w r (insert f (G.forks w r)) }

/-- The last fork takes the `OwnerRRef` with it. -/
def delFork (w : WorkerId) (r : RRefId) (f : ForkId) : ForkGraph :=
  { G with
    forks := put G.forks w r ((G.forks w r).erase f)
    deleted := Function.update G.deleted w (insert (r, f) (G.deleted w))
    owners := if G.forks w r = {f} then put G.owners w r none else G.owners }

def setOwner (w : WorkerId) (r : RRefId) (o : Nat) : ForkGraph :=
  { G with owners := put G.owners w r (some o) }

def addObject (w : WorkerId) (r : RRefId) : ForkGraph :=
  { G with objects := Function.update G.objects w (G.objects w ++ [r]) }

/-- The object `getOrCreateOwnerRRef` returns. -/
def ownerOr (w : WorkerId) (r : RRefId) : Nat :=
  (G.owners w r).getD (G.objects w).length

/-- `getOrCreateOwnerRRef`. -/
def ensureOwner (w : WorkerId) (r : RRefId) : ForkGraph :=
  { G with
    owners := put G.owners w r (some (G.ownerOr w r))
    objects :=
      if G.owners w r = none then Function.update G.objects w (G.objects w ++ [r])
      else G.objects }

def addTask (w : WorkerId) (t : Task) : ForkGraph :=
  { G with tasks := Function.update G.tasks w (insert t (G.tasks w)) }

def endTask (w : WorkerId) (t : Task) : ForkGraph :=
  { G with tasks := Function.update G.tasks w ((G.tasks w).erase t) }

def send (e : Mail) : ForkGraph :=
  { G with mail := insert e G.mail }

def take (e : Mail) : ForkGraph :=
  { G with mail := G.mail.erase e }

def note (f : ForkId) (k : Fork) : ForkGraph :=
  { G with ledger := Function.update G.ledger f (some k) }

/-- The owner has heard of the fork. -/
def Known (O : WorkerId) (r : RRefId) (f : ForkId) : Prop :=
  f ∈ G.forks O r ∨ (r, f) ∈ G.deleted O

/-- The remote call that creates the RRef has not been delivered. -/
def CallPending (O : WorkerId) (r : RRefId) : Prop :=
  ∃ src f, r ≠ f ∧ (⟨src, O, .remoteCall r f⟩ : Mail) ∈ G.mail

/-- The owner is between the two critical sections of `assignOwnerRRef`. -/
def Assigning (O : WorkerId) (r : RRefId) : Prop :=
  ∃ f o src, .assignOwnerRRef r f o src ∈ G.tasks O

/-- The owner has not processed the remote call that creates the RRef. -/
def CreationPending (O : WorkerId) (r : RRefId) : Prop :=
  G.CallPending O r ∨ G.Assigning O r

end ForkGraph

/-- What the owner does in a step. -/
inductive Label where
  | quiet
  | delete (O : WorkerId) (r : RRefId) (f : ForkId)
  | register (w O : WorkerId) (r : RRefId) (f : ForkId)

/-- The steps of the protocol, on the graph. -/
inductive Step : ForkGraph → Label → ForkGraph → Prop where
  | idle (G : ForkGraph) : Step G .quiet G
  | remote {G : ForkGraph} {w O : WorkerId} (hne : O ≠ w) :
      Step G .quiet
        (((((G.alloc w 2).setUser w ⟨w, G.next w + 1⟩ ⟨O, ⟨w, G.next w⟩, false⟩).addPendingUser w
          ⟨w, G.next w + 1⟩).addTask w (.confirmPendingUser ⟨w, G.next w + 1⟩)).send
          ⟨w, O, .remoteCall ⟨w, G.next w⟩ ⟨w, G.next w + 1⟩⟩ |>.note
          ⟨w, G.next w + 1⟩ ⟨O, ⟨w, G.next w⟩, 0, .user w⟩)
  | remoteSelf {G : ForkGraph} {w : WorkerId} :
      Step G .quiet
        ((((((G.alloc w 1).addObject w ⟨w, G.next w⟩).setOwner w ⟨w, G.next w⟩
          (G.objects w).length).addFork w ⟨w, G.next w⟩ ⟨w, G.next w⟩).addTask w
          (.finishCreatingOwnerRRef ⟨w, G.next w⟩)).send
          ⟨w, w, .remoteCall ⟨w, G.next w⟩ ⟨w, G.next w⟩⟩ |>.note
          ⟨w, G.next w⟩ ⟨w, ⟨w, G.next w⟩, 0, .spent⟩)
  | createOwner {G : ForkGraph} {w : WorkerId} :
      Step G .quiet ((G.alloc w 1).addObject w ⟨w, G.next w⟩)
  | forkUser {G : ForkGraph} {w callee : WorkerId} {f : ForkId} {u : Holder} {k : Fork}
      (hu : G.users w f = some u) (hd : u.deleted = false) (hk : G.ledger f = some k) :
      Step G .quiet
        (((G.alloc w 1).addChild w ⟨w, G.next w⟩ f).send
          ⟨w, callee, .userCall ⟨u.owner, u.rref, ⟨w, G.next w⟩, w⟩⟩ |>.note
          ⟨w, G.next w⟩ ⟨u.owner, u.rref, k.depth + 1, .carried w callee⟩)
  | forkOwner {G : ForkGraph} {w callee : WorkerId} {o : Nat} {r : RRefId}
      (ho : (G.objects w)[o]? = some r) :
      Step G .quiet
        (((G.alloc w 1).addFork w r ⟨w, G.next w⟩).addTask w
          (.prepareChildFork o ⟨w, r, ⟨w, G.next w⟩, w⟩ callee) |>.note
          ⟨w, G.next w⟩ ⟨w, r, 0, .prepared o callee⟩)
  | publish {G : ForkGraph} {w callee : WorkerId} {o : Nat} {fork : RRefForkData} {k : Fork}
      (ht : .prepareChildFork o fork callee ∈ G.tasks w) (hk : G.ledger fork.forkId_ = some k) :
      Step G .quiet
        (((G.endTask w (.prepareChildFork o fork callee)).setOwner w fork.rrefId_ o).send
          ⟨w, callee, .userCall fork⟩ |>.note fork.forkId_
          { k with place := .carried w callee })
  | assign {G : ForkGraph} {w caller : WorkerId} {r : RRefId} {f : ForkId} {o : Nat}
      (ht : .assignOwnerRRef r f o caller ∈ G.tasks w) (hf : f ∉ G.forks w r) :
      Step G (.register caller w r f)
        (((G.endTask w (.assignOwnerRRef r f o caller)).addFork w r f).addTask w
          (.setValue r f o caller))
  | assignFails {G : ForkGraph} {w caller : WorkerId} {r : RRefId} {f : ForkId} {o : Nat}
      (ht : .assignOwnerRRef r f o caller ∈ G.tasks w) (hf : f ∈ G.forks w r) :
      Step G .quiet (G.endTask w (.assignOwnerRRef r f o caller))
  | setValue {G : ForkGraph} {w caller : WorkerId} {r : RRefId} {f : ForkId} {o : Nat}
      (ht : .setValue r f o caller ∈ G.tasks w) :
      Step G .quiet
        ((G.endTask w (.setValue r f o caller)).send ⟨w, caller, .remoteRet r f⟩)
  | notifySelf {G : ForkGraph} {w : WorkerId} {r : RRefId} {f : ForkId}
      (ht : .notifySelf r f ∈ G.tasks w) :
      Step G (.delete w r f) ((G.endTask w (.notifySelf r f)).delFork w r f)
  | release {G : ForkGraph} {w : WorkerId} {f : ForkId} {u : Holder}
      (hu : G.users w f = some u) (hd : u.deleted = false) (hp : f ∉ G.pendingUsers w)
      (hc : ∀ e ∈ G.pendingChildren w, e.2 ≠ f) :
      Step G .quiet
        ((G.setUser w f { u with deleted := true }).send ⟨w, u.owner, .rrefUserDelete u.rref f⟩)
  | confirm {G : ForkGraph} {w : WorkerId} {f : ForkId} :
      Step G .quiet ((G.endTask w (.confirmPendingUser f)).delPendingUser w f)
  | selfTimesOut {G : ForkGraph} {w : WorkerId} {r : RRefId}
      (ht : .finishCreatingOwnerRRef r ∈ G.tasks w) :
      Step G (.delete w r r) ((G.endTask w (.finishCreatingOwnerRRef r)).delFork w r r)
  | selfTimesOutFails {G : ForkGraph} {w : WorkerId} {r : RRefId}
      (ht : .finishCreatingOwnerRRef r ∈ G.tasks w) (ho : G.owners w r = none) :
      Step G .quiet (G.endTask w (.finishCreatingOwnerRRef r))
  | fetch {G : ForkGraph} {w O : WorkerId} {r : RRefId} :
      Step G .quiet (G.send ⟨w, O, .rrefFetchCall r⟩)
  | remoteCall {G : ForkGraph} {src O : WorkerId} {r : RRefId} {f : ForkId} (hne : r ≠ f)
      (he : (⟨src, O, .remoteCall r f⟩ : Mail) ∈ G.mail) :
      Step G .quiet
        (((G.take ⟨src, O, .remoteCall r f⟩).ensureOwner O r).addTask O
          (.assignOwnerRRef r f (G.ownerOr O r) src))
  | remoteCallSelf {G : ForkGraph} {src O : WorkerId} {r : RRefId} {o : Nat}
      (ho : G.owners O r = some o) :
      Step G .quiet
        ((G.take ⟨src, O, .remoteCall r r⟩).addTask O (.setValue r r o src))
  | remoteCallSelfFails {G : ForkGraph} {src O : WorkerId} {r : RRefId}
      (ho : G.owners O r = none) :
      Step G .quiet (G.take ⟨src, O, .remoteCall r r⟩)
  | remoteRetSelf {G : ForkGraph} {src w : WorkerId} {r : RRefId}
      (ht : .finishCreatingOwnerRRef r ∈ G.tasks w) :
      Step G (.delete w r r)
        (((G.take ⟨src, w, .remoteRet r r⟩).endTask w (.finishCreatingOwnerRRef r)).delFork w r r)
  | remoteRet {G : ForkGraph} {src w : WorkerId} {r : RRefId} {f : ForkId}
      (ht : r = f → .finishCreatingOwnerRRef r ∉ G.tasks w) :
      Step G .quiet (G.take ⟨src, w, .remoteRet r f⟩)
  | remoteRetUser {G : ForkGraph} {src w : WorkerId} {r : RRefId} {f : ForkId} :
      Step G .quiet
        (((G.take ⟨src, w, .remoteRet r f⟩).endTask w (.confirmPendingUser f)).delPendingUser w f)
  | userCallSelf {G : ForkGraph} {src w : WorkerId} {fork : RRefForkData} {k : Fork}
      (he : (⟨src, w, .userCall fork⟩ : Mail) ∈ G.mail) (ho : fork.ownerId_ = w)
      (hp : fork.parent_ = w) (hk : G.ledger fork.forkId_ = some k) :
      Step G .quiet
        (((G.take ⟨src, w, .userCall fork⟩).ensureOwner w fork.rrefId_).addTask w
          (.notifySelf fork.rrefId_ fork.forkId_) |>.note fork.forkId_ { k with place := .spent })
  | userCallOwner {G : ForkGraph} {src w : WorkerId} {fork : RRefForkData} {k : Fork}
      (he : (⟨src, w, .userCall fork⟩ : Mail) ∈ G.mail) (ho : fork.ownerId_ = w)
      (hp : fork.parent_ ≠ w) (hk : G.ledger fork.forkId_ = some k) :
      Step G .quiet
        (((G.take ⟨src, w, .userCall fork⟩).ensureOwner w fork.rrefId_).send
          ⟨w, fork.parent_, .rrefChildAccept fork.forkId_⟩ |>.note fork.forkId_
          { k with place := .spent })
  | userCallFromOwner {G : ForkGraph} {src w : WorkerId} {fork : RRefForkData} {k : Fork}
      (he : (⟨src, w, .userCall fork⟩ : Mail) ∈ G.mail) (ho : fork.ownerId_ ≠ w)
      (hp : fork.parent_ = fork.ownerId_) (hk : G.ledger fork.forkId_ = some k) :
      Step G .quiet
        ((G.take ⟨src, w, .userCall fork⟩).setUser w fork.forkId_
          ⟨fork.ownerId_, fork.rrefId_, false⟩ |>.note fork.forkId_ { k with place := .user w })
  | userCall {G : ForkGraph} {src w : WorkerId} {fork : RRefForkData} {k : Fork}
      (he : (⟨src, w, .userCall fork⟩ : Mail) ∈ G.mail) (ho : fork.ownerId_ ≠ w)
      (hp : fork.parent_ ≠ fork.ownerId_) (hk : G.ledger fork.forkId_ = some k) :
      Step G .quiet
        ((((G.take ⟨src, w, .userCall fork⟩).setUser w fork.forkId_
          ⟨fork.ownerId_, fork.rrefId_, false⟩).addPendingUser w fork.forkId_).send
          ⟨w, fork.ownerId_, .rrefForkRequest fork.rrefId_ fork.forkId_⟩ |>.note fork.forkId_
          { k with place := .user w })
  | fetchCall {G : ForkGraph} {src w : WorkerId} {r : RRefId} :
      Step G .quiet (G.take ⟨src, w, .rrefFetchCall r⟩)
  | forkRequest {G : ForkGraph} {src O : WorkerId} {r : RRefId} {f : ForkId} {again : Bool}
      (he : (⟨src, O, .rrefForkRequest r f⟩ : Mail) ∈ G.mail) :
      Step G (.register src O r f)
        ((((if again then G else G.take ⟨src, O, .rrefForkRequest r f⟩)).addFork O r f).send
          ⟨O, src, .rrefAck r f⟩)
  | ack {G : ForkGraph} {O w parent : WorkerId} {r : RRefId} {f : ForkId}
      (he : (⟨O, w, .rrefAck r f⟩ : Mail) ∈ G.mail) :
      Step G .quiet
        (((G.take ⟨O, w, .rrefAck r f⟩).delPendingUser w f).send ⟨w, parent, .rrefChildAccept f⟩)
  | lateAck {G : ForkGraph} {O w : WorkerId} {r : RRefId} {f : ForkId} :
      Step G .quiet (G.take ⟨O, w, .rrefAck r f⟩)
  | childAccept {G : ForkGraph} {src p : WorkerId} {f : ForkId} {again : Bool}
      (he : (⟨src, p, .rrefChildAccept f⟩ : Mail) ∈ G.mail) :
      Step G .quiet
        ((if again then G else G.take ⟨src, p, .rrefChildAccept f⟩).delChild p f)
  | userDelete {G : ForkGraph} {src O : WorkerId} {r : RRefId} {f : ForkId} {again : Bool}
      (he : (⟨src, O, .rrefUserDelete r f⟩ : Mail) ∈ G.mail) :
      Step G (.delete O r f)
        ((if again then G else G.take ⟨src, O, .rrefUserDelete r f⟩).delFork O r f)

end PyTorchCore.RRef
