import PyTorchCore.RRef.Context

/-!
# The RRef protocol

The messages between the workers, the actions of user code, and the handlers of messages as
sequences of critical sections. A handler with two critical sections leaves a task behind after
the first one; `resume` runs the second, at any later time. `protocol` puts the handlers on a
network that delivers messages in any order and the retried ones any positive number of times.

A fork request, a delete and a child accept are sent with `sendWithRetries`. A call that carries
RRefs is modelled by one message for each of them. A remote call may time out on the caller.
-/

namespace PyTorchCore.RRef

open Lib

inductive Message where
  /-- The remote call that creates the RRef. -/
  | remoteCall (rrefId : RRefId) (forkId : ForkId)
  | remoteRet (rrefId : RRefId) (forkId : ForkId)
  /-- A call of a user function with an RRef among its arguments. -/
  | userCall (fork : RRefForkData)
  | rrefFetchCall (rrefId : RRefId)
  | rrefForkRequest (rrefId : RRefId) (forkId : ForkId)
  /-- The response to the fork request with these identifiers. -/
  | rrefAck (rrefId : RRefId) (forkId : ForkId)
  | rrefChildAccept (forkId : ForkId)
  | rrefUserDelete (rrefId : RRefId) (forkId : ForkId)
deriving DecidableEq, Repr

abbrev Mail := Envelope WorkerId Message

/-- Messages of which several equal copies may be in flight: those sent with
`sendWithRetries`, and the fetches of one worker. -/
def Message.repeatable : Message → Bool
  | .rrefForkRequest _ _ => true
  | .rrefChildAccept _ => true
  | .rrefUserDelete _ _ => true
  | .rrefFetchCall _ => true
  | _ => false

/-- What user code, the destructor of a `UserRRef`, a timeout and the scheduler
of the handlers do on a worker. -/
inductive Action where
  /-- `rpc.remote` to the worker `owner`. -/
  | remote (owner : WorkerId)
  /-- `RRef(value)`. -/
  | createOwnerRRef
  /-- A call to `callee` with this `UserRRef` as an argument. -/
  | forkUserRRef (forkId : ForkId) (callee : WorkerId)
  /-- A call to `callee` with this `OwnerRRef` as an argument. -/
  | forkOwnerRRef (ownerRRef : Nat) (callee : WorkerId)
  | toHere (forkId : ForkId)
  | dropUserRRef (forkId : ForkId)
  | dropOwnerRRef (ownerRRef : Nat)
  /-- The last reference to the `UserRRef` goes away. -/
  | releaseResources (forkId : ForkId)
  | timeOut (task : Task)
  | resume (task : Task)
deriving DecidableEq, Repr

namespace Worker

def addTask (x : Worker) (t : Task) : Worker :=
  { x with tasks := insert t x.tasks }

def finishTask (x : Worker) (t : Task) : Worker :=
  { x with tasks := x.tasks.erase t }

def setUserRRef (x : Worker) (forkId : ForkId) (u : UserRRef) : Worker :=
  { x with userRRefs := Function.update x.userRRefs forkId (some u) }

def createUserRRef (x : Worker) (ownerId : WorkerId) (rrefId : RRefId) (forkId : ForkId) :
    Worker :=
  x.setUserRRef forkId ⟨ownerId, rrefId, true, false, false⟩

def holdOwner (x : Worker) (o : Nat) : Worker :=
  { x with heldOwners := insert o x.heldOwners }

/-- `rpc.remote` to another worker. -/
def remoteToOwner (w : WorkerId) (x : Worker) (owner : WorkerId) : Worker × List Mail :=
  let rrefId := x.nextId w
  let x := x.genGloballyUniqueId
  let forkId := x.nextId w
  let x := x.genGloballyUniqueId
  let x := x.createUserRRef owner rrefId forkId
  let mail : List Mail := [⟨w, owner, .remoteCall rrefId forkId⟩]
  match x.addPendingUser forkId with
  | .error _ => (x, mail)
  | .ok x => (x.addTask (.confirmPendingUser forkId), mail)

/-- `rpc.remote` to the worker itself. -/
def remoteToSelf (w : WorkerId) (x : Worker) : Worker × List Mail :=
  let rrefId := x.nextId w
  let o := x.ownerRRefs.length
  let x := x.genGloballyUniqueId
  let x := (x.makeOwnerRRef rrefId false).holdOwner o
  match x.addSelfAsFork rrefId o with
  | (x, .error _) => (x, [])
  | (x, .ok _) =>
    (x.addTask (.finishCreatingOwnerRRef rrefId), [⟨w, w, .remoteCall rrefId rrefId⟩])

def remote (w : WorkerId) (x : Worker) (owner : WorkerId) : Worker × List Mail :=
  if owner = w then remoteToSelf w x else remoteToOwner w x owner

/-- `RRef(value)`: the object is not in `owners_` until it is forked. -/
def createOwnerRRef (w : WorkerId) (x : Worker) : Worker :=
  let rrefId := x.nextId w
  let o := x.ownerRRefs.length
  let x := x.genGloballyUniqueId
  (x.makeOwnerRRef rrefId true).holdOwner o

/-- `prepareChildFork` on a user, and the call that carries the fork. -/
def prepareUserFork (w : WorkerId) (x : Worker) (forkId : ForkId) (u : UserRRef)
    (callee : WorkerId) : Worker × List Mail :=
  let child := x.nextId w
  let x := x.genGloballyUniqueId
  match x.addPendingChild child forkId with
  | .error _ => (x, [])
  | .ok x => (x, [⟨w, callee, .userCall ⟨u.ownerId_, u.rrefId_, child, w⟩⟩])

/-- The first critical section of `prepareChildFork` on the owner. -/
def prepareOwnerFork (w : WorkerId) (x : Worker) (o : Nat) (rrefId : RRefId)
    (callee : WorkerId) : Worker :=
  let child := x.nextId w
  let x := x.genGloballyUniqueId
  match x.addForkOfOwner rrefId child with
  | .error _ => x
  | .ok x => x.addTask (.prepareChildFork o ⟨w, rrefId, child, w⟩ callee)

/-- `getOrCreateRRef`; the result is an argument of the user function. -/
def getOrCreateRRef (w : WorkerId) (x : Worker) (fork : RRefForkData) : Worker :=
  if fork.ownerId_ = w then
    let r := x.getOrCreateOwnerRRef fork.rrefId_
    r.2.holdOwner r.1
  else x.createUserRRef fork.ownerId_ fork.rrefId_ fork.forkId_

def notifyOwnerAndParentOfFork (w : WorkerId) (x : Worker) (fork : RRefForkData) :
    Worker × List Mail :=
  if fork.parent_ = fork.ownerId_ then
    -- Shared by the owner, which registered the fork when it pickled the RRef.
    if fork.parent_ = w then (x.addTask (.notifySelf fork.rrefId_ fork.forkId_), [])
    else (x.addConfirmedUser fork.forkId_, [])
  else if fork.ownerId_ = w then
    -- A phantom fork: the owner keeps its one `OwnerRRef`.
    (x, [⟨w, fork.parent_, .rrefChildAccept fork.forkId_⟩])
  else
    let mail : List Mail := [⟨w, fork.ownerId_, .rrefForkRequest fork.rrefId_ fork.forkId_⟩]
    match x.addPendingUser fork.forkId_ with
    | .error _ => (x, mail)
    | .ok x => ({ x with
        forkRequests := Function.update x.forkRequests fork.forkId_ (some fork.parent_) }, mail)

def processUserCall (w : WorkerId) (x : Worker) (fork : RRefForkData) : Worker × List Mail :=
  (x.getOrCreateRRef w fork).notifyOwnerAndParentOfFork w fork

/-- `assignOwnerRRef` up to its first critical section. -/
def processRemoteCall (x : Worker) (caller : WorkerId) (rrefId : RRefId) (forkId : ForkId) :
    Worker :=
  if rrefId = forkId then
    match x.forceOwnerRRef rrefId with
    | .error _ => x
    | .ok (o, x) => x.addTask (.setValue rrefId forkId o caller)
  else
    let r := x.getOrCreateOwnerRRef rrefId
    r.2.addTask (.assignOwnerRRef rrefId forkId r.1 caller)

/-- The end of the callback on a remote call; an assertion stops it. -/
def confirmPendingUser (x : Worker) (forkId : ForkId) : Worker :=
  match x.delPendingUser forkId with
  | .error _ => x
  | .ok x => x

/-- The callback on the response to a remote call. -/
def processRemoteRet (x : Worker) (rrefId : RRefId) (forkId : ForkId) : Worker :=
  if rrefId = forkId then
    if .finishCreatingOwnerRRef rrefId ∈ x.tasks then
      ((x.finishTask (.finishCreatingOwnerRRef rrefId)).delForkOfOwner rrefId rrefId).2
    else x
  else if .confirmPendingUser forkId ∈ x.tasks then
    (x.finishTask (.confirmPendingUser forkId)).confirmPendingUser forkId
  else x

def processRRefFetchCall (x : Worker) (rrefId : RRefId) : Worker :=
  match x.getOwnerRRef rrefId false with
  | .error _ => x
  | .ok r => r.2

/-- The callback on the first response to a fork request, `finishForkRequest`. -/
def finishForkRequest (w : WorkerId) (x : Worker) (forkId : ForkId) : Worker × List Mail :=
  match x.forkRequests forkId with
  | none => (x, [])
  | some parent =>
    let x := { x with forkRequests := Function.update x.forkRequests forkId none }
    match x.delPendingUser forkId with
    | .error _ => (x, [])
    | .ok x => (x, [⟨w, parent, .rrefChildAccept forkId⟩])

/-- The destructor of a `UserRRef`: `tryDel` and `delUser`. -/
def delUser (w : WorkerId) (x : Worker) (forkId : ForkId) (u : UserRRef) : Worker × List Mail :=
  let x := x.setUserRRef forkId { u with deletedOnOwner_ := true }
  ({ x with confirmedUsers_ := x.confirmedUsers_.erase forkId },
    [⟨w, u.ownerId_, .rrefUserDelete u.rrefId_ forkId⟩])

/-- Neither user code nor the context has a reference to the `UserRRef`. -/
def unreferenced (x : Worker) (forkId : ForkId) (u : UserRRef) : Bool :=
  !u.held && decide (forkId ∉ x.pendingUsers_) &&
    decide (∀ e ∈ x.pendingChildren_, e.2 ≠ forkId)

/-- A remote call times out: its callback runs with an error. -/
def timeOut (x : Worker) : Task → Option Worker
  | .confirmPendingUser forkId =>
    if .confirmPendingUser forkId ∈ x.tasks then
      let x := x.finishTask (.confirmPendingUser forkId)
      match x.userRRefs forkId with
      | none => some x
      | some u =>
        let x := x.setUserRRef forkId { u with timedOut_ := true }
        some (x.confirmPendingUser forkId)
    else none
  | .finishCreatingOwnerRRef rrefId =>
    if .finishCreatingOwnerRRef rrefId ∈ x.tasks then
      let x := x.finishTask (.finishCreatingOwnerRRef rrefId)
      match x.forceOwnerRRef rrefId with
      | .error _ => some x
      | .ok (o, x) =>
        let x := { x with
          ownerRRefs := x.ownerRRefs.modify o fun q => { q with timedOut_ := true } }
        some (x.delForkOfOwner rrefId rrefId).2
    else none
  | _ => none

/-- The next critical section of a handler. -/
def resume (w : WorkerId) (x : Worker) (t : Task) : Option (Worker × List Mail) :=
  if t ∈ x.tasks then
    let x := x.finishTask t
    match t with
    | .assignOwnerRRef rrefId forkId o caller =>
      match x.addForkOfOwner rrefId forkId with
      | .error _ => some (x, [])
      | .ok x => some (x.addTask (.setValue rrefId forkId o caller), [])
    | .setValue rrefId forkId o caller =>
      some ({ x with
          ownerRRefs := x.ownerRRefs.modify o fun q => { q with completed := true } },
        [⟨w, caller, .remoteRet rrefId forkId⟩])
    | .prepareChildFork o fork callee =>
      some ({ x with owners_ := Function.update x.owners_ fork.rrefId_ (some o) },
        [⟨w, callee, .userCall fork⟩])
    | .notifySelf rrefId forkId => some ((x.delForkOfOwner rrefId forkId).2, [])
    | .confirmPendingUser _ => none
    | .finishCreatingOwnerRRef _ => none
  else none

/-- An action of a worker; `none` when it is not enabled or throws. -/
def act (w : WorkerId) (x : Worker) : Action → Option (Worker × List Mail)
  | .remote owner => some (x.remote w owner)
  | .createOwnerRRef => some (x.createOwnerRRef w, [])
  | .forkUserRRef forkId callee =>
    match x.userRRefs forkId with
    | none => none
    | some u =>
      if u.held && !u.timedOut_ && !u.deletedOnOwner_ then
        some (x.prepareUserFork w forkId u callee)
      else none
  | .forkOwnerRRef o callee =>
    match x.ownerRRefs[o]? with
    | none => none
    | some q =>
      if o ∈ x.heldOwners ∧ q.timedOut_ = false then
        some (x.prepareOwnerFork w o q.rrefId_ callee, [])
      else none
  | .toHere forkId =>
    match x.userRRefs forkId with
    | none => none
    | some u =>
      if u.held && !u.timedOut_ && !u.deletedOnOwner_ then
        some (x, [⟨w, u.ownerId_, .rrefFetchCall u.rrefId_⟩])
      else none
  | .dropUserRRef forkId =>
    match x.userRRefs forkId with
    | none => none
    | some u => some (x.setUserRRef forkId { u with held := false }, [])
  | .dropOwnerRRef o => some ({ x with heldOwners := x.heldOwners.erase o }, [])
  | .releaseResources forkId =>
    match x.userRRefs forkId with
    | none => none
    | some u =>
      if x.unreferenced forkId u && !u.deletedOnOwner_ then
        some (x.delUser w forkId u)
      else none
  | .timeOut t => (x.timeOut t).map fun x => (x, [])
  | .resume t => x.resume w t

def receive (w : WorkerId) (x : Worker) (src : WorkerId) : Message → Worker × List Mail
  | .remoteCall rrefId forkId => (x.processRemoteCall src rrefId forkId, [])
  | .remoteRet rrefId forkId => (x.processRemoteRet rrefId forkId, [])
  | .userCall fork => x.processUserCall w fork
  | .rrefFetchCall rrefId => (x.processRRefFetchCall rrefId, [])
  | .rrefForkRequest rrefId forkId =>
    (x.addForkOfOwnerIfNotPresent rrefId forkId, [⟨w, src, .rrefAck rrefId forkId⟩])
  | .rrefAck _ forkId => x.finishForkRequest w forkId
  | .rrefChildAccept forkId => (x.delPendingChild forkId, [])
  | .rrefUserDelete rrefId forkId => ((x.delForkOfOwner rrefId forkId).2, [])

end Worker

abbrev System := Network WorkerId Worker Message

abbrev SystemMove := Move WorkerId Message Action

def protocol : Protocol WorkerId Worker Message Action where
  start := fun _ => Worker.start
  act := Worker.act
  receive := Worker.receive
  repeatable := Message.repeatable

/-- The runs of the protocol. -/
def machine : Machine System SystemMove Bool :=
  protocol.machine

end PyTorchCore.RRef
