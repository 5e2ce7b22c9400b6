import Mathlib.Data.List.Basic

/-!
# Errors of remote calls

A process that calls `remote()` gets an RRef at once. When the response to the call is an error, a
callback looks the RRef up and hands the error to `RRef::handleError`, which finds the handler of
the error's type in a table with static storage duration. The table is built by the first call,
and two of its three handlers capture the `this` of that call.

An object without references is destroyed, and its address may be that of a later object. A write
through a pointer to memory without an object is an outcome of its own.
-/

namespace PyTorchCore.RemoteErrors

/-- Where an object lies. -/
abbrev Address := ℕ

/-- An object, by the order of construction. -/
abbrev ObjectId := ℕ

/-- What `genGloballyUniqueId` returns. -/
abbrev GloballyUniqueId := ℕ

abbrev RRefId := GloballyUniqueId

abbrev ForkId := GloballyUniqueId

inductive RPCErrorType where
  | unknownError
  | timeout
  | intentionalFailure
deriving DecidableEq, Repr

/-- How a function ends that does not return. -/
inductive Failure where
  /-- "RRef creation via rpc.remote() timed out, and it is possible that the RRef on the
  owner node does not exist." -/
  | timedOut
  /-- The RRef has been deleted on the owner. -/
  | deleted
  /-- `RRefContext::handleException`: the error of the future. -/
  | remoteError
  /-- `TORCH_INTERNAL_ASSERT`. -/
  | assertion
  /-- The fetch from the owner failed. -/
  | fetchFailed
  /-- A write to memory without an object. -/
  | useAfterFree
deriving DecidableEq, Repr

/-- A `UserRRef` or an `OwnerRRef`; the latter has no fork id and stands under its RRef id. -/
structure RRefObject where
  address : Address
  forkId_ : ForkId
  isOwner : Bool
  timedOut_ : Bool
  deletedOnOwner_ : Bool
deriving DecidableEq, Repr

/-- The callbacks on the futures of sent messages. -/
inductive Callback where
  | confirmPendingUser (forkId : ForkId)
  | finishCreatingOwnerRRef (rrefId : RRefId)
  | finishForkRequest (forkId : ForkId)
deriving DecidableEq, Repr

def Callback.id : Callback → GloballyUniqueId
  | .confirmPendingUser forkId => forkId
  | .finishCreatingOwnerRRef rrefId => rrefId
  | .finishForkRequest forkId => forkId

/-- The RRef a call to the own worker is about. -/
def Callback.ownerId : Callback → Option RRefId
  | .finishCreatingOwnerRRef rrefId => some rrefId
  | _ => none

/-- The value of a response: an error, or the RRef id and fork id of `RemoteRet`. -/
abbrev Response := Except RPCErrorType (RRefId × ForkId)

/-- A process with its `RRefContext`. -/
structure Process where
  nextLocalId_ : ℕ
  objects : List RRefObject
  /-- The objects the application has a reference to. -/
  held : List ObjectId
  owners_ : List (RRefId × ObjectId)
  forks_ : List (RRefId × ForkId)
  pendingUsers_ : List (ForkId × ObjectId)
  pendingChildren_ : List (ForkId × ObjectId)
  callbacks : List Callback
  /-- The `this` that the static table has captured. -/
  errorHandlers : Option Address
deriving DecidableEq, Repr

namespace Process

/-- Before the first call. -/
def start : Process := ⟨0, [], [], [], [], [], [], [], none⟩

variable (s : Process)

def Alive (o : ObjectId) : Prop :=
  o ∈ s.held ∨ o ∈ s.owners_.map Prod.snd ∨ o ∈ s.pendingUsers_.map Prod.snd ∨
    o ∈ s.pendingChildren_.map Prod.snd

instance (o : ObjectId) : Decidable (s.Alive o) := by
  unfold Alive
  infer_instance

def addressOf (o : ObjectId) : Option Address :=
  s.objects[o]?.map RRefObject.address

def occupant (a : Address) : Option ObjectId :=
  (List.range s.objects.length).find? fun o => s.Alive o ∧ s.addressOf o = some a

def getTimedOut (o : ObjectId) : Bool :=
  (s.objects[o]?.map RRefObject.timedOut_).getD false

def setTimedOut (o : ObjectId) : Process :=
  { s with objects := s.objects.modify o fun object => { object with timedOut_ := true } }

/-- `this->setTimedOut()` for a captured `this`. -/
def setTimedOutAt (a : Address) : Process × Option Failure :=
  match s.occupant a with
  | some o => (s.setTimedOut o, none)
  | none => (s, some .useAfterFree)

def handleError (o : ObjectId) (errorType : RPCErrorType) : Process × Option Failure :=
  match s.addressOf o with
  | none => (s, some .assertion)
  | some this =>
    -- the initializer of the static table runs once
    let captured := s.errorHandlers.getD this
    let s := { s with errorHandlers := some captured }
    match errorType with
    | .timeout => s.setTimedOutAt captured
    | .intentionalFailure => s.setTimedOutAt captured
    | .unknownError => (s, some .remoteError)

def getPendingUser (forkId : ForkId) : Option ObjectId :=
  s.pendingUsers_.lookup forkId

def delPendingUser (forkId : ForkId) : Process × Option Failure :=
  match s.getPendingUser forkId with
  | none => (s, some .assertion)
  | some _ =>
    ({ s with pendingUsers_ := s.pendingUsers_.filter fun entry => entry.1 ≠ forkId }, none)

def confirmPendingUser (expectedForkId : ForkId) : Response → Process × Option Failure
  | .ok ret =>
    if ret.2 = expectedForkId then s.delPendingUser expectedForkId else (s, some .assertion)
  | .error errorType =>
    match s.getPendingUser expectedForkId with
    | none => (s, some .assertion)
    | some rref_ptr =>
      match s.handleError rref_ptr errorType with
      | (s, none) => s.delPendingUser expectedForkId
      | (s, some failure) => (s, some failure)

def delForkOfOwner (rrefId : RRefId) (forkId : ForkId) : Process :=
  if rrefId ∈ s.forks_.map Prod.fst then
    let forks_ := s.forks_.filter fun entry => entry ≠ (rrefId, forkId)
    let owners_ :=
      if rrefId ∈ forks_.map Prod.fst then s.owners_
      else s.owners_.filter fun entry => entry.1 ≠ rrefId
    { s with forks_ := forks_, owners_ := owners_ }
  else s

def finishCreatingOwnerRRef (rrefId : RRefId) : Response → Process × Option Failure
  | .error errorType =>
    match s.owners_.lookup rrefId with
    | none => (s, some .assertion)
    | some rref_ptr =>
      match s.handleError rref_ptr errorType with
      | (s, none) => (s.delForkOfOwner rrefId rrefId, none)
      | (s, some failure) => (s, some failure)
  | .ok ret =>
    if ret.1 = ret.2 then (s.delForkOfOwner ret.1 ret.1, none) else (s, some .assertion)

def finishForkRequest (forkId : ForkId) : Response → Process × Option Failure
  | .error _ => (s, some .remoteError)
  | .ok _ => s.delPendingUser forkId

def runCallback (response : Response) : Callback → Process × Option Failure
  | .confirmPendingUser forkId => s.confirmPendingUser forkId response
  | .finishCreatingOwnerRRef rrefId => s.finishCreatingOwnerRRef rrefId response
  | .finishForkRequest forkId => s.finishForkRequest forkId response

/-- A new object, which the application holds. -/
def makeRRef (address : Address) (forkId : ForkId) (isOwner : Bool) : Process :=
  { s with
    objects := s.objects ++ [⟨address, forkId, isOwner, false, false⟩]
    held := s.objects.length :: s.held }

/-- `remote()` to another worker: ids for the RRef and the fork, a `UserRRef` that is a
pending user, and a message. -/
def remote (address : Address) : Process :=
  let forkId := s.nextLocalId_ + 1
  let o := s.objects.length
  let s := { s with nextLocalId_ := s.nextLocalId_ + 2 }
  let s := s.makeRRef address forkId false
  { s with
    pendingUsers_ := (forkId, o) :: s.pendingUsers_
    callbacks := .confirmPendingUser forkId :: s.callbacks }

/-- `remote()` to the own worker: an `OwnerRRef` with itself as a fork, and a message. -/
def remoteToSelf (address : Address) : Process :=
  let rrefId := s.nextLocalId_
  let o := s.objects.length
  let s := { s with nextLocalId_ := s.nextLocalId_ + 1 }
  let s := s.makeRRef address rrefId true
  { s with
    owners_ := (rrefId, o) :: s.owners_
    forks_ := (rrefId, rrefId) :: s.forks_
    callbacks := .finishCreatingOwnerRRef rrefId :: s.callbacks }

/-- A `UserRRef` that another worker sent.  The owner has to be asked for a fork that does
not come from it. -/
def receive (address : Address) (fromOwner : Bool) : Process :=
  let forkId := s.nextLocalId_
  let o := s.objects.length
  let s := { s with nextLocalId_ := s.nextLocalId_ + 1 }
  let s := s.makeRRef address forkId false
  if fromOwner then s
  else
    { s with
      pendingUsers_ := (forkId, o) :: s.pendingUsers_
      callbacks := .finishForkRequest forkId :: s.callbacks }

def prepareChildFork (o : ObjectId) : Process × Option Failure :=
  match s.objects[o]? with
  | none => (s, some .assertion)
  | some rref =>
    if rref.timedOut_ then (s, some .timedOut)
    else if !rref.isOwner && rref.deletedOnOwner_ then (s, some .deleted)
    else
      let forkId := s.nextLocalId_
      let s := { s with nextLocalId_ := s.nextLocalId_ + 1 }
      if rref.isOwner then
        ({ s with
            forks_ := (rref.forkId_, forkId) :: s.forks_
            owners_ := (rref.forkId_, o) ::
              s.owners_.filter fun entry => entry.1 ≠ rref.forkId_ }, none)
      else ({ s with pendingChildren_ := (forkId, o) :: s.pendingChildren_ }, none)

/-- `PyRRef::toHere`; the value is what the future of the owner or the fetch gives. -/
def toHere {V : Type} (o : ObjectId) (fetched : Option V) : Except Failure V :=
  match s.objects[o]? with
  | none => .error .assertion
  | some rref =>
    if rref.timedOut_ then .error .timedOut
    else if !rref.isOwner && rref.deletedOnOwner_ then .error .deleted
    else
      match fetched with
      | none => .error .fetchFailed
      | some value => .ok value

def delPendingChild (forkId : ForkId) : Process :=
  { s with pendingChildren_ := s.pendingChildren_.filter fun entry => entry.1 ≠ forkId }

/-- `UserRRef::tryDel`; an `OwnerRRef` does nothing. -/
def tryDel (o : ObjectId) : Process :=
  { s with
    objects := s.objects.modify o fun object =>
      { object with deletedOnOwner_ := object.deletedOnOwner_ || !object.isOwner } }

/-- The application drops its references to an object. -/
def release (o : ObjectId) : Process :=
  { s with held := s.held.filter fun p => p ≠ o }

end Process

/-- What happens in the process. -/
inductive Event where
  | remote (address : Address)
  | remoteToSelf (address : Address)
  | receive (address : Address) (fromOwner : Bool)
  /-- A future completes. -/
  | respond (callback : Callback) (response : Response)
  | prepareChildFork (o : ObjectId)
  /-- The callee of a fork has been confirmed. -/
  | childAccepted (forkId : ForkId)
  /-- A user tells the owner that it is gone. -/
  | userDeleted (rrefId : RRefId) (forkId : ForkId)
  | tryDel (o : ObjectId)
  | release (o : ObjectId)
deriving Repr

namespace Event

/-- New objects lie where no other object does, a future completes once and with the RRef of
the call, the application uses objects it holds, and the id of an RRef is not that of a
user's fork. -/
def Enabled (s : Process) : Event → Prop
  | .remote address => s.occupant address = none
  | .remoteToSelf address => s.occupant address = none
  | .receive address _ => s.occupant address = none
  | .respond callback (.error _) => callback ∈ s.callbacks
  | .respond callback (.ok ret) =>
    callback ∈ s.callbacks ∧ ∀ r ∈ callback.ownerId, ret.1 = r
  | .prepareChildFork o => o ∈ s.held
  | .childAccepted _ => True
  | .userDeleted rrefId forkId => rrefId ≠ forkId
  | .tryDel o => s.Alive o
  | .release o => o ∈ s.held

instance (s : Process) (e : Event) : Decidable (e.Enabled s) := by
  cases e with
  | respond callback response => cases response <;> unfold Enabled <;> infer_instance
  | _ => unfold Enabled; infer_instance

def apply (s : Process) : Event → Process × Option Failure
  | .remote address => (s.remote address, none)
  | .remoteToSelf address => (s.remoteToSelf address, none)
  | .receive address fromOwner => (s.receive address fromOwner, none)
  | .respond callback response =>
    { s with callbacks := s.callbacks.filter fun c => c ≠ callback }.runCallback response callback
  | .prepareChildFork o => s.prepareChildFork o
  | .childAccepted forkId => (s.delPendingChild forkId, none)
  | .userDeleted rrefId forkId => (s.delForkOfOwner rrefId forkId, none)
  | .tryDel o => (s.tryDel o, none)
  | .release o => (s.release o, none)

end Event

/-- The state after a run of events.  A run goes on after an error that is raised, and has
no state after undefined behaviour. -/
def run (s : Process) : List Event → Option Process
  | [] => some s
  | e :: events =>
    if e.Enabled s then
      match e.apply s with
      | (_, some .useAfterFree) => none
      | (t, _) => run t events
    else none

end PyTorchCore.RemoteErrors
