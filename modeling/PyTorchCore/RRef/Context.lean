import PyTorchCore.Lib.Network

/-!
# The RRef context of a worker

Every worker has one `RRefContext`.  On the owner of an RRef it keeps the
`OwnerRRef` (`owners_`), the forks the owner knows (`forks_`) and the futures of
those who asked for the `OwnerRRef` before it was created (`pendingOwners_`).
On a user it keeps the `UserRRef`s that the owner has not confirmed
(`pendingUsers_`) and, for every fork whose child has not been confirmed, the
parent (`pendingChildren_`).

Each function below is one critical section under `mutex_`.  The objects these
maps point to live in the heap of the worker: `ownerRRefs` lists the `OwnerRRef`
objects in the order of their construction and an object is named by its
position; a `UserRRef` object is named by its fork id.  An absent entry of
`forks_` and an empty set of forks are one value here: `operator[]` is always
followed by an insertion, and the erasure of the last fork erases the entry.
-/

namespace PyTorchCore.RRef

/-- `worker_id_t`. -/
abbrev WorkerId := Nat

/-- The worker that made the identifier and its counter at that time. -/
structure GloballyUniqueId where
  createdOn_ : WorkerId
  localId_ : Nat
deriving DecidableEq, Repr

abbrev RRefId := GloballyUniqueId

abbrev ForkId := GloballyUniqueId

/-- What is pickled when an RRef is passed to another worker. -/
structure RRefForkData where
  ownerId_ : WorkerId
  rrefId_ : RRefId
  forkId_ : ForkId
  parent_ : WorkerId
deriving DecidableEq, Repr

/-- A `UserRRef` object.  `held` says whether user code has a reference to it. -/
structure UserRRef where
  ownerId_ : WorkerId
  rrefId_ : RRefId
  held : Bool
  timedOut_ : Bool
  deletedOnOwner_ : Bool
deriving DecidableEq, Repr

/-- An `OwnerRRef` object.  `completed` says whether its value has been set. -/
structure OwnerRRef where
  rrefId_ : RRefId
  completed : Bool
  timedOut_ : Bool
deriving DecidableEq, Repr

/-- A future for an `OwnerRRef`, with the object once it is completed. -/
structure OwnerFuture where
  rrefId : RRefId
  value : Option Nat
deriving DecidableEq, Repr

/-- The members of `RRefContext`. -/
structure RRefContext where
  nextLocalId_ : Nat
  owners_ : RRefId → Option Nat
  pendingOwners_ : RRefId → Option Nat
  forks_ : RRefId → Finset ForkId
  pendingUsers_ : Finset ForkId
  /-- The pairs of a child's fork id and the fork id of its parent. -/
  pendingChildren_ : Finset (ForkId × ForkId)
  confirmedUsers_ : Finset ForkId

/-- A handler between two of its critical sections, or a callback that waits
for a response. -/
inductive Task where
  /-- `assignOwnerRRef` has the `OwnerRRef` and has not registered the fork. -/
  | assignOwnerRRef (rrefId : RRefId) (forkId : ForkId) (ownerRRef : Nat) (caller : WorkerId)
  /-- `assignOwnerRRef` waits for the value of the user function. -/
  | setValue (rrefId : RRefId) (forkId : ForkId) (ownerRRef : Nat) (caller : WorkerId)
  /-- `prepareChildFork` on the owner has registered the fork and has not put
  the `OwnerRRef` into `owners_`. -/
  | prepareChildFork (ownerRRef : Nat) (fork : RRefForkData) (callee : WorkerId)
  /-- The owner unpickles an RRef it sent to itself and has not deleted the fork. -/
  | notifySelf (rrefId : RRefId) (forkId : ForkId)
  /-- The callback on the response to a remote call. -/
  | confirmPendingUser (forkId : ForkId)
  /-- The callback on the response to a remote call to self. -/
  | finishCreatingOwnerRRef (rrefId : RRefId)
deriving DecidableEq, Repr

/-- A worker: its context and the part of its heap the context points to. -/
structure Worker extends RRefContext where
  userRRefs : ForkId → Option UserRRef
  ownerRRefs : List OwnerRRef
  /-- The `OwnerRRef` objects user code has a reference to. -/
  heldOwners : Finset Nat
  futures : List OwnerFuture
  tasks : Finset Task
  /-- The callbacks on the responses to fork requests, with the parent each
  has captured. -/
  forkRequests : ForkId → Option WorkerId
  /-- History: the forks `delForkOfOwner` was called for. -/
  deletedForks : Finset (RRefId × ForkId)

namespace Worker

def start : Worker where
  nextLocalId_ := 0
  owners_ := fun _ => none
  pendingOwners_ := fun _ => none
  forks_ := fun _ => ∅
  pendingUsers_ := ∅
  pendingChildren_ := ∅
  confirmedUsers_ := ∅
  userRRefs := fun _ => none
  ownerRRefs := []
  heldOwners := ∅
  futures := []
  tasks := ∅
  forkRequests := fun _ => none
  deletedForks := ∅

/-- The identifier that `genGloballyUniqueId` returns next on worker `w`. -/
def nextId (w : WorkerId) (x : Worker) : GloballyUniqueId :=
  ⟨w, x.nextLocalId_⟩

/-- `nextLocalId_++`. -/
def genGloballyUniqueId (x : Worker) : Worker :=
  { x with nextLocalId_ := x.nextLocalId_ + 1 }

/-- `make_intrusive<OwnerRRef>`: the address of the new object is the old length
of the list. -/
def makeOwnerRRef (x : Worker) (rrefId : RRefId) (completed : Bool) : Worker :=
  { x with ownerRRefs := x.ownerRRefs ++ [⟨rrefId, completed, false⟩] }

/-- The creating branch of `getOrCreateOwnerRRef`: the new object completes the
future of those who asked before. -/
def createOwner (x : Worker) (rrefId : RRefId) : Worker :=
  let o := x.ownerRRefs.length
  let x := x.makeOwnerRRef rrefId false
  let x := { x with owners_ := Function.update x.owners_ rrefId (some o) }
  match x.pendingOwners_ rrefId with
  | none => x
  | some k =>
    { x with
      futures := x.futures.set k ⟨rrefId, some o⟩
      pendingOwners_ := Function.update x.pendingOwners_ rrefId none }

def getOrCreateOwnerRRef (x : Worker) (rrefId : RRefId) : Nat × Worker :=
  match x.owners_ rrefId with
  | none => (x.ownerRRefs.length, x.createOwner rrefId)
  | some o => (o, x)

/-- The future of the `OwnerRRef`.  It is not completed when the RRef is used
before it is created. -/
def getOwnerRRef (x : Worker) (rrefId : RRefId) (forceCreated : Bool) :
    Except String (Nat × Worker) :=
  match x.owners_ rrefId with
  | none =>
    if forceCreated then
      .error "Expected OwnerRRef to be created."
    else
      match x.pendingOwners_ rrefId with
      | none =>
        .ok (x.futures.length,
          { x with
            futures := x.futures ++ [⟨rrefId, none⟩]
            pendingOwners_ :=
              Function.update x.pendingOwners_ rrefId (some x.futures.length) })
      | some k => .ok (k, x)
  | some o => .ok (x.futures.length, { x with futures := x.futures ++ [⟨rrefId, some o⟩] })

/-- The `OwnerRRef` of `getOwnerRRef` with `forceCreated`: the value of the
completed future. -/
def forceOwnerRRef (x : Worker) (rrefId : RRefId) : Except String (Nat × Worker) :=
  match x.getOwnerRRef rrefId true with
  | .error e => .error e
  | .ok (k, x) =>
    match (x.futures[k]?).bind OwnerFuture.value with
    | none => .error "Expected OwnerRRef to be created."
    | some o => .ok (o, x)

def addPendingChild (x : Worker) (forkId parent : ForkId) : Except String Worker :=
  if ∃ e ∈ x.pendingChildren_, e.1 = forkId then
    .error "Inconsistent states: attempt to add the same child fork twice."
  else
    .ok { x with pendingChildren_ := insert (forkId, parent) x.pendingChildren_ }

def delPendingChild (x : Worker) (forkId : ForkId) : Worker :=
  { x with pendingChildren_ := x.pendingChildren_.filter fun e => e.1 ≠ forkId }

def addPendingUser (x : Worker) (forkId : ForkId) : Except String Worker :=
  if forkId ∈ x.pendingUsers_ then
    .error "Inconsistent states: attempt to add the same UserRRef twice."
  else
    .ok { x with pendingUsers_ := insert forkId x.pendingUsers_ }

def addConfirmedUser (x : Worker) (forkId : ForkId) : Worker :=
  { x with confirmedUsers_ := insert forkId x.confirmedUsers_ }

def delPendingUser (x : Worker) (forkId : ForkId) : Except String Worker :=
  if forkId ∈ x.pendingUsers_ then
    let x := x.addConfirmedUser forkId
    .ok { x with pendingUsers_ := x.pendingUsers_.erase forkId }
  else
    .error "Inconsistent states: attempt to delete a non-exist UserRRef."

def addForkOfOwner (x : Worker) (rrefId : RRefId) (forkId : ForkId) : Except String Worker :=
  if forkId ∈ x.forks_ rrefId then
    .error "Got fork notification twice on the same RRef "
  else
    .ok { x with forks_ := Function.update x.forks_ rrefId (insert forkId (x.forks_ rrefId)) }

def addForkOfOwnerIfNotPresent (x : Worker) (rrefId : RRefId) (forkId : ForkId) : Worker :=
  if forkId ∈ x.forks_ rrefId then x
  else { x with forks_ := Function.update x.forks_ rrefId (insert forkId (x.forks_ rrefId)) }

/-- The `OwnerRRef` enters `owners_` before the assertion. -/
def addSelfAsFork (x : Worker) (rrefId : RRefId) (ownerRRef : Nat) :
    Worker × Except String Unit :=
  let x := { x with owners_ := Function.update x.owners_ rrefId (some ownerRRef) }
  if rrefId ∈ x.forks_ rrefId then
    (x, .error "Attempt to add self as fork twice ")
  else
    ({ x with forks_ := Function.update x.forks_ rrefId (insert rrefId (x.forks_ rrefId)) },
      .ok ())

/-- Removes the fork, and the `OwnerRRef` with the last fork.  Returns the
`OwnerRRef` it removed. -/
def delForkOfOwner (x : Worker) (rrefId : RRefId) (forkId : ForkId) : Option Nat × Worker :=
  let x := { x with deletedForks := insert (rrefId, forkId) x.deletedForks }
  if x.forks_ rrefId = ∅ then (none, x)
  else
    let rrefForks := (x.forks_ rrefId).erase forkId
    let x := { x with forks_ := Function.update x.forks_ rrefId rrefForks }
    if rrefForks = ∅ then
      (x.owners_ rrefId, { x with owners_ := Function.update x.owners_ rrefId none })
    else (none, x)

end Worker

end PyTorchCore.RRef
