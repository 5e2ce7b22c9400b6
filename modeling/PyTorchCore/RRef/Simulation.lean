import PyTorchCore.RRef.HandlerSpecs
import PyTorchCore.RRef.OwnerKept

/-!
# The workers refine the fork graph

`graph` reads the fork graph off the workers and the messages in flight, with a ledger beside
them.  `simulates` says that every step of the workers is a step of the graph, for a ledger that
is continued accordingly.
-/

namespace PyTorchCore.RRef

open Lib
open Function

/-- What the graph keeps of a `UserRRef`. -/
def UserRRef.holder (u : UserRRef) : Holder :=
  ⟨u.ownerId_, u.rrefId_, u.deletedOnOwner_⟩

/-- What the graph keeps of the `UserRRef`s of a worker. -/
def holders (m : ForkId → Option UserRRef) (f : ForkId) : Option Holder :=
  (m f).map UserRRef.holder

def graph (s : System) (L : ForkId → Option Fork) : ForkGraph where
  next := fun w => (s.nodes w).nextLocalId_
  users := fun w => holders (s.nodes w).userRRefs
  pendingUsers := fun w => (s.nodes w).pendingUsers_
  pendingChildren := fun w => (s.nodes w).pendingChildren_
  forks := fun w => (s.nodes w).forks_
  deleted := fun w => (s.nodes w).deletedForks
  owners := fun w => (s.nodes w).owners_
  objects := fun w => (s.nodes w).ownerRRefs.map OwnerRRef.rrefId_
  tasks := fun w => (s.nodes w).tasks
  mail := s.inFlight
  ledger := L

/-- A call of `delForkOfOwner` on worker `owner`. -/
structure ForkDeletion where
  owner : WorkerId
  rrefId : RRefId
  forkId : ForkId
deriving DecidableEq

/-- The owner registers the fork of a `UserRRef` on worker `user`. -/
structure ForkRegistration where
  user : WorkerId
  owner : WorkerId
  rrefId : RRefId
  forkId : ForkId
deriving DecidableEq

/-- The fork that a step deletes, if it runs `delForkOfOwner`. -/
def deletesFork : SystemMove → Option ForkDeletion
  | .act w (.resume (.notifySelf r f)) => some ⟨w, r, f⟩
  | .act w (.timeOut (.finishCreatingOwnerRRef r)) => some ⟨w, r, r⟩
  | .deliver ⟨_, w, .remoteRet r f⟩ _ => if r = f then some ⟨w, r, r⟩ else none
  | .deliver ⟨_, w, .rrefUserDelete r f⟩ _ => some ⟨w, r, f⟩
  | _ => none

/-- The fork of a user that a step registers, in `assignOwnerRRef` or for a fork
request. -/
def registersFork : SystemMove → Option ForkRegistration
  | .act O (.resume (.assignOwnerRRef r f _ caller)) => some ⟨caller, O, r, f⟩
  | .deliver ⟨src, O, .rrefForkRequest r f⟩ _ => some ⟨src, O, r, f⟩
  | _ => none

/-- What a label says about the step of the workers. -/
def Matches (a : SystemMove) : Label → Prop
  | .quiet => True
  | .delete O r f => deletesFork a = some ⟨O, r, f⟩
  | .register w O r f => registersFork a = some ⟨w, O, r, f⟩

/-- The step from `s` to `t` is a step of the graph. -/
def Simulated (s : System) (L : ForkId → Option Fork) (a : SystemMove) (t : System) : Prop :=
  ∃ l L', Step (graph s L) l (graph t L') ∧ Matches a l

variable {L : ForkId → Option Fork}

theorem Step.simulated {s t : System} {a : SystemMove} {G' : ForkGraph}
    {l : Label} (hs : Step (graph s L) l G') (hm : Matches a l)
    (heq : graph t G'.ledger = G') : Simulated s L a t := by
  refine ⟨l, G'.ledger, ?_, hm⟩
  rw [heq]
  exact hs

/-- The graph after a handler has run. -/
theorem graph_settle (s : System) (L : ForkId → Option Fork) (w : WorkerId)
    (kept : Finset Mail) (x : Worker) (out : List Mail) :
    graph (Protocol.settle s w kept (x, out)) L =
      { next := update (graph s L).next w x.nextLocalId_
        users := update (graph s L).users w (holders x.userRRefs)
        pendingUsers := update (graph s L).pendingUsers w x.pendingUsers_
        pendingChildren := update (graph s L).pendingChildren w x.pendingChildren_
        forks := update (graph s L).forks w x.forks_
        deleted := update (graph s L).deleted w x.deletedForks
        owners := update (graph s L).owners w x.owners_
        objects := update (graph s L).objects w (x.ownerRRefs.map OwnerRRef.rrefId_)
        tasks := update (graph s L).tasks w x.tasks
        mail := out.foldr insert kept
        ledger := L } := by
  simp only [graph, Protocol.settle, ForkGraph.mk.injEq, and_true]
  refine ⟨?_, ?_, ?_, ?_, ?_, ?_, ?_, ?_, ?_⟩ <;>
  · funext v
    by_cases hv : v = w
    · subst hv
      simp
    · simp [hv]

theorem holders_update (m : ForkId → Option UserRRef) (f : ForkId) (u : UserRRef) :
    holders (update m f (some u)) = update (holders m) f (some u.holder) := by
  funext g
  by_cases hg : g = f
  · subst hg
    simp [holders]
  · simp [holders, hg]

attribute [local simp] ForkGraph.alloc ForkGraph.setUser ForkGraph.addPendingUser
  ForkGraph.delPendingUser ForkGraph.addChild ForkGraph.delChild ForkGraph.addFork
  ForkGraph.delFork ForkGraph.setOwner ForkGraph.addObject ForkGraph.ensureOwner
  ForkGraph.ownerOr ForkGraph.addTask ForkGraph.endTask ForkGraph.send ForkGraph.take
  ForkGraph.note holders_update UserRRef.holder put

section Actions

variable {s : System} {L : ForkId → Option Fork} {w : WorkerId} {a : SystemMove}

theorem fork_fresh (h : Tracks (graph s L)) (r : RRefId) (i : Nat) :
    (⟨w, (s.nodes w).nextLocalId_ + i⟩ : ForkId) ∉ (s.nodes w).forks_ r := by
  intro hin
  obtain ⟨k, hk⟩ := h.forksNoted w r _ hin
  rw [h.ledger_fresh (Nat.le_add_right _ _)] at hk
  cases hk

theorem remoteToOwner_step (h : Tracks (graph s L)) {O : WorkerId} (hne : O ≠ w) :
    Simulated s L a (Protocol.settle s w s.inFlight ((s.nodes w).remoteToOwner w O)) := by
  have hnew : (graph s L).ledger ⟨w, (s.nodes w).nextLocalId_ + 1⟩ = none :=
    (h.newborn_alloc w (i := 1) (n := 2) (by omega)).ledger
  have hpend : (⟨w, (s.nodes w).nextLocalId_ + 1⟩ : ForkId) ∉ (s.nodes w).pendingUsers_ := by
    intro hin
    obtain ⟨u, hu, -⟩ := h.pending w _ hin
    rw [h.users_fresh hnew w] at hu
    cases hu
  refine (Step.remote hne).simulated trivial ?_
  rw [Worker.remoteToOwner_eq _ hpend, graph_settle]
  simp [graph]

theorem remoteToSelf_step (h : Tracks (graph s L)) :
    Simulated s L a (Protocol.settle s w s.inFlight ((s.nodes w).remoteToSelf w)) := by
  refine (Step.remoteSelf (w := w)).simulated trivial ?_
  rw [Worker.remoteToSelf_eq _ (fork_fresh h _ 0), graph_settle]
  simp [graph]

theorem createOwnerRRef_step :
    Simulated s L a (Protocol.settle s w s.inFlight ((s.nodes w).createOwnerRRef w, [])) := by
  refine (Step.createOwner (w := w)).simulated trivial ?_
  rw [graph_settle]
  simp [graph, Worker.createOwnerRRef, Worker.nextId, Worker.genGloballyUniqueId,
    Worker.makeOwnerRRef, Worker.holdOwner]

variable {f : ForkId}

theorem forkUserRRef_step (h : Tracks (graph s L)) {u : UserRRef}
    {callee : WorkerId} (hu : (s.nodes w).userRRefs f = some u) (hd : u.deletedOnOwner_ = false) :
    Simulated s L a
      (Protocol.settle s w s.inFlight ((s.nodes w).prepareUserFork w f u callee)) := by
  have hu' : (graph s L).users w f = some u.holder := by simp [graph, holders, hu]
  obtain ⟨d, hk⟩ := h.user w f u.holder hu'
  have hchild : ∀ g, (⟨w, (s.nodes w).nextLocalId_⟩, g) ∉ (s.nodes w).pendingChildren_ := by
    intro g' hin
    obtain ⟨O, r, d1, d2, P, u', hg, -⟩ := h.child w _ g' hin
    rw [h.ledger_fresh (Nat.le_refl _)] at hg
    cases hg
  refine (@Step.forkUser _ w callee f _ _ hu' hd hk).simulated trivial ?_
  rw [Worker.prepareUserFork_eq _ f u hchild, graph_settle]
  simp [graph]

theorem forkOwnerRRef_step (h : Tracks (graph s L)) {o : Nat} {q : OwnerRRef}
    {callee : WorkerId} (hq : (s.nodes w).ownerRRefs[o]? = some q) :
    Simulated s L a
      (Protocol.settle s w s.inFlight ((s.nodes w).prepareOwnerFork w o q.rrefId_ callee, [])) := by
  have ho : ((graph s L).objects w)[o]? = some q.rrefId_ := by simp [graph, hq]
  refine (@Step.forkOwner _ w callee o _ ho).simulated trivial ?_
  rw [Worker.prepareOwnerFork_eq _ o q.rrefId_ (fork_fresh h _ 0), graph_settle]
  simp [graph]

variable {p : Worker × List Mail}

/-- A task that is resumed is a step of the graph. -/
theorem resume_step (h : Tracks (graph s L)) {t : Task}
    (hp : (s.nodes w).resume w t = some p) :
    Simulated s L (.act w (.resume t)) (Protocol.settle s w s.inFlight p) := by
  unfold Worker.resume at hp
  split at hp
  case isFalse => cases hp
  rename_i ht
  cases t with
  | assignOwnerRRef r f o caller =>
    by_cases hf : f ∈ (s.nodes w).forks_ r
    · have herr : ((s.nodes w).finishTask (.assignOwnerRRef r f o caller)).addForkOfOwner r f =
          .error _ := Worker.addForkOfOwner_of_mem hf
      simp only [herr, Option.some.injEq] at hp
      subst hp
      refine (Step.assignFails (G := graph s L) ht hf).simulated trivial ?_
      rw [graph_settle]
      simp [graph, Worker.finishTask]
    · have hok : ((s.nodes w).finishTask (.assignOwnerRRef r f o caller)).addForkOfOwner r f =
          .ok _ := Worker.addForkOfOwner_of_notMem hf
      simp only [hok, Option.some.injEq] at hp
      subst hp
      refine (Step.assign (G := graph s L) ht hf).simulated rfl ?_
      rw [graph_settle]
      simp [graph, Worker.finishTask, Worker.addTask]
  | setValue r f o caller =>
    simp only [Option.some.injEq] at hp
    subst hp
    refine (Step.setValue (G := graph s L) ht).simulated trivial ?_
    rw [graph_settle]
    simp [graph, Worker.finishTask, map_modify_rrefId]
  | prepareChildFork o c callee =>
    simp only [Option.some.injEq] at hp
    subst hp
    obtain ⟨-, -, d, hk⟩ := h.task w _ ht
    refine (Step.publish (G := graph s L) ht hk).simulated trivial ?_
    rw [graph_settle]
    simp [graph, Worker.finishTask]
  | notifySelf r f =>
    simp only [Option.some.injEq] at hp
    subst hp
    refine (Step.notifySelf (G := graph s L) ht).simulated rfl ?_
    rw [Worker.delForkOfOwner_eq, graph_settle]
    by_cases hlast : (s.nodes w).forks_ r = {f} <;> simp [graph, Worker.finishTask, hlast]
  | confirmPendingUser f => cases hp
  | finishCreatingOwnerRRef r => cases hp

theorem holders_same {m : ForkId → Option UserRRef} {u v : UserRRef}
    (hu : m f = some u) (hh : v.holder = u.holder) :
    holders (update m f (some v)) = holders m := by
  rw [holders_update, hh]
  funext g
  by_cases hg : g = f
  · subst hg
    simp [holders, hu]
  · simp [hg]

/-- A task that times out is no step of the graph. -/
theorem timeOut_step (h : Tracks (graph s L)) {t : Task} {x : Worker}
    (hx : (s.nodes w).timeOut t = some x) :
    Simulated s L (.act w (.timeOut t)) (Protocol.settle s w s.inFlight (x, [])) := by
  cases t with
  | assignOwnerRRef r f o caller => cases hx
  | setValue r f o caller => cases hx
  | prepareChildFork o c callee => cases hx
  | notifySelf r f => cases hx
  | confirmPendingUser f =>
    simp only [Worker.timeOut] at hx
    split at hx
    case isFalse => cases hx
    refine (Step.confirm (G := graph s L) (w := w) (f := f)).simulated trivial ?_
    split at hx
    · rename_i hu
      have hpend : f ∉ (s.nodes w).pendingUsers_ := by
        intro hin
        obtain ⟨u, hu', -⟩ := h.pending w f hin
        have : (s.nodes w).userRRefs f = none := hu
        simp [graph, holders, this] at hu'
      cases hx
      rw [graph_settle]
      simp [graph, Worker.finishTask, hpend]
    · rename_i u hu
      have hu' : (s.nodes w).userRRefs f = some u := hu
      obtain ⟨c, hc⟩ := (((s.nodes w).finishTask (.confirmPendingUser f)).setUserRRef f
        { u with timedOut_ := true }).confirmPendingUser_eq f
      rw [hc] at hx
      cases hx
      rw [graph_settle]
      have hsame := holders_same (v := { u with timedOut_ := true }) hu' rfl
      simp [graph, Worker.finishTask, Worker.setUserRRef, hsame]
  | finishCreatingOwnerRRef r =>
    simp only [Worker.timeOut] at hx
    split at hx
    case isFalse => cases hx
    rename_i ht
    cases ho : (s.nodes w).owners_ r with
    | none =>
      have herr : ((s.nodes w).finishTask (.finishCreatingOwnerRRef r)).forceOwnerRRef r =
        .error _ := Worker.forceOwnerRRef_of_none ho
      simp only [herr, Option.some.injEq] at hx
      subst hx
      refine (Step.selfTimesOutFails (G := graph s L) ht ho).simulated trivial ?_
      rw [graph_settle]
      simp [graph, Worker.finishTask]
    | some o =>
      have hok : ((s.nodes w).finishTask (.finishCreatingOwnerRRef r)).forceOwnerRRef r =
        .ok _ := Worker.forceOwnerRRef_of_some ho
      simp only [hok, Option.some.injEq] at hx
      subst hx
      refine (Step.selfTimesOut (G := graph s L) ht).simulated rfl ?_
      rw [Worker.delForkOfOwner_eq, graph_settle]
      by_cases hlast : (s.nodes w).forks_ r = {r} <;>
        simp [graph, Worker.finishTask, map_modify_rrefId, hlast]

theorem releaseResources_step {u : UserRRef}
    (hu : (s.nodes w).userRRefs f = some u) (hfree : (s.nodes w).unreferenced f u = true)
    (hd : u.deletedOnOwner_ = false) :
    Simulated s L a (Protocol.settle s w s.inFlight ((s.nodes w).delUser w f u)) := by
  have hu' : (graph s L).users w f = some u.holder := by simp [graph, holders, hu]
  simp only [Worker.unreferenced, Bool.and_eq_true, decide_eq_true_eq] at hfree
  refine (Step.release hu' hd hfree.1.2 hfree.2).simulated trivial ?_
  rw [Worker.delUser, graph_settle]
  simp [graph, Worker.setUserRRef]

/-- An action of a worker is a step of the graph. -/
theorem act_step (h : Tracks (graph s L)) {e : Action}
    (hp : (s.nodes w).act w e = some p) :
    Simulated s L (.act w e) (Protocol.settle s w s.inFlight p) := by
  cases e with
  | remote owner =>
    simp only [Worker.act, Worker.remote, Option.some.injEq] at hp
    subst hp
    split
    · exact remoteToSelf_step h
    · rename_i hne
      exact remoteToOwner_step h hne
  | createOwnerRRef =>
    simp only [Worker.act, Option.some.injEq] at hp
    subst hp
    exact createOwnerRRef_step
  | forkUserRRef f callee =>
    simp only [Worker.act] at hp
    split at hp
    · cases hp
    · rename_i u hu
      split at hp
      · rename_i hok
        simp only [Bool.and_eq_true, Bool.not_eq_true'] at hok
        cases hp
        exact forkUserRRef_step h hu hok.2
      · cases hp
  | forkOwnerRRef o callee =>
    simp only [Worker.act] at hp
    split at hp
    · cases hp
    · rename_i q hq
      split at hp
      · cases hp
        exact forkOwnerRRef_step h hq
      · cases hp
  | toHere f =>
    simp only [Worker.act] at hp
    split at hp
    · cases hp
    · rename_i u hu
      split at hp
      · cases hp
        refine (Step.fetch (w := w) (O := u.ownerId_) (r := u.rrefId_)).simulated trivial ?_
        rw [graph_settle]
        simp [graph]
      · cases hp
  | dropUserRRef f =>
    simp only [Worker.act] at hp
    split at hp
    · cases hp
    · rename_i u hu
      cases hp
      refine (Step.idle _).simulated trivial ?_
      rw [graph_settle]
      have hsame := holders_same (v := { u with held := false }) hu rfl
      simp [graph, Worker.setUserRRef, hsame]
  | dropOwnerRRef o =>
    simp only [Worker.act, Option.some.injEq] at hp
    subst hp
    refine (Step.idle _).simulated trivial ?_
    rw [graph_settle]
    simp [graph]
  | releaseResources f =>
    simp only [Worker.act] at hp
    split at hp
    · cases hp
    · rename_i u hu
      split at hp
      · rename_i hok
        simp only [Bool.and_eq_true, Bool.not_eq_true'] at hok
        cases hp
        exact releaseResources_step hu hok.1 hok.2
      · cases hp
  | timeOut t =>
    simp only [Worker.act, Option.map_eq_some_iff] at hp
    obtain ⟨x, hx, rfl⟩ := hp
    exact timeOut_step h hx
  | resume t => exact resume_step h hp

end Actions

section Deliveries

variable {s : System} {L : ForkId → Option Fork} {src w : WorkerId}

variable {a : SystemMove} {r : RRefId} {f : ForkId}

theorem remoteCall_step (he : (⟨src, w, .remoteCall r f⟩ : Mail) ∈ s.inFlight) :
    Simulated s L a (Protocol.settle s w (s.inFlight.erase ⟨src, w, .remoteCall r f⟩)
      ((s.nodes w).processRemoteCall src r f, [])) := by
  by_cases hne : r = f
  · subst hne
    cases ho : (s.nodes w).owners_ r with
    | none =>
      refine (@Step.remoteCallSelfFails (graph s L) src w r ho).simulated trivial ?_
      rw [graph_settle]
      simp [graph, Worker.processRemoteCall, Worker.forceOwnerRRef_of_none ho]
    | some o =>
      refine (@Step.remoteCallSelf (graph s L) src w r o ho).simulated trivial ?_
      rw [graph_settle]
      simp [graph, Worker.processRemoteCall, Worker.forceOwnerRRef_of_some ho, Worker.addTask]
  · obtain ⟨h1, p, fu, h2⟩ := (s.nodes w).getOrCreateOwnerRRef_eq r
    refine (@Step.remoteCall (graph s L) src w r f hne he).simulated trivial ?_
    rw [graph_settle]
    simp only [Worker.processRemoteCall, if_neg hne, h1, h2, Worker.addTask]
    by_cases ho : (s.nodes w).owners_ r = none <;> simp [graph, ho]

/-- The answer to a remote call is a step of the graph. -/
theorem remoteRet_step {again : Bool} :
    Simulated s L (.deliver ⟨src, w, .remoteRet r f⟩ again)
      (Protocol.settle s w (s.inFlight.erase ⟨src, w, .remoteRet r f⟩)
        ((s.nodes w).processRemoteRet r f, [])) := by
  by_cases hne : r = f
  · subst hne
    by_cases ht : .finishCreatingOwnerRRef r ∈ (s.nodes w).tasks
    · refine (@Step.remoteRetSelf (graph s L) src w r ht).simulated (by simp [Matches, deletesFork])
        ?_
      rw [graph_settle]
      simp only [Worker.processRemoteRet, if_true, if_pos ht, Worker.delForkOfOwner_eq]
      by_cases hlast : (s.nodes w).forks_ r = {r} <;> simp [graph, Worker.finishTask, hlast]
    · refine (@Step.remoteRet (graph s L) src w r r (fun _ => ht)).simulated trivial ?_
      rw [graph_settle]
      simp [graph, Worker.processRemoteRet, ht]
  · by_cases ht : .confirmPendingUser f ∈ (s.nodes w).tasks
    · obtain ⟨c, hc⟩ :=
        ((s.nodes w).finishTask (.confirmPendingUser f)).confirmPendingUser_eq f
      refine (@Step.remoteRetUser (graph s L) src w r f).simulated trivial ?_
      rw [graph_settle]
      simp only [Worker.processRemoteRet, if_neg hne, if_pos ht, hc]
      simp [graph, Worker.finishTask]
    · refine (@Step.remoteRet (graph s L) src w r f (fun heq => absurd heq hne)).simulated
        trivial ?_
      rw [graph_settle]
      simp [graph, Worker.processRemoteRet, hne, ht]

theorem userCallOwner_step (h : Tracks (graph s L)) {c : RRefForkData}
    (he : (⟨src, w, .userCall c⟩ : Mail) ∈ s.inFlight) (ho : c.ownerId_ = w) :
    Simulated s L a (Protocol.settle s w (s.inFlight.erase ⟨src, w, .userCall c⟩)
      ((s.nodes w).processUserCall w c)) := by
  obtain ⟨-, d, hk⟩ := h.mail _ he
  obtain ⟨h1, p, fu, h2⟩ := (s.nodes w).getOrCreateOwnerRRef_eq c.rrefId_
  by_cases hp : c.parent_ = w
  · refine (@Step.userCallSelf (graph s L) src w c _ he ho hp hk).simulated trivial ?_
    have hres : (s.nodes w).processUserCall w c =
        (((((s.nodes w).getOrCreateOwnerRRef c.rrefId_).2.holdOwner
          ((s.nodes w).getOrCreateOwnerRRef c.rrefId_).1).addTask
          (.notifySelf c.rrefId_ c.forkId_)), []) := by
      simp [Worker.processUserCall, Worker.getOrCreateRRef, Worker.notifyOwnerAndParentOfFork, ho,
        hp]
    rw [hres, graph_settle, h1, h2]
    by_cases hown : (s.nodes w).owners_ c.rrefId_ = none <;>
      simp [graph, Worker.holdOwner, Worker.addTask, hown]
  · refine (@Step.userCallOwner (graph s L) src w c _ he ho hp hk).simulated trivial ?_
    have hres : (s.nodes w).processUserCall w c =
        (((s.nodes w).getOrCreateOwnerRRef c.rrefId_).2.holdOwner
          ((s.nodes w).getOrCreateOwnerRRef c.rrefId_).1,
          [⟨w, c.parent_, .rrefChildAccept c.forkId_⟩]) := by
      simp [Worker.processUserCall, Worker.getOrCreateRRef, Worker.notifyOwnerAndParentOfFork, ho,
        hp]
    rw [hres, graph_settle, h1, h2]
    by_cases hown : (s.nodes w).owners_ c.rrefId_ = none <;>
      simp [graph, Worker.holdOwner, hown]

theorem userCallUser_step (h : Tracks (graph s L)) {c : RRefForkData}
    (he : (⟨src, w, .userCall c⟩ : Mail) ∈ s.inFlight) (ho : c.ownerId_ ≠ w) :
    Simulated s L a (Protocol.settle s w (s.inFlight.erase ⟨src, w, .userCall c⟩)
      ((s.nodes w).processUserCall w c)) := by
  obtain ⟨-, d, hk⟩ := h.mail _ he
  by_cases hp : c.parent_ = c.ownerId_
  · refine (@Step.userCallFromOwner (graph s L) src w c _ he ho hp hk).simulated trivial ?_
    have hres : (s.nodes w).processUserCall w c =
        ((((s.nodes w).createUserRRef c.ownerId_ c.rrefId_ c.forkId_).addConfirmedUser
          c.forkId_), []) := by
      simp [Worker.processUserCall, Worker.getOrCreateRRef, Worker.notifyOwnerAndParentOfFork, ho,
        hp]
    rw [hres, graph_settle]
    simp [graph, Worker.createUserRRef, Worker.setUserRRef, Worker.addConfirmedUser]
  · -- A fork that arrives is not pending yet.
    have hpend : c.forkId_ ∉ (s.nodes w).pendingUsers_ := by
      intro hin
      obtain ⟨u, hu, -⟩ := h.pending w _ hin
      obtain ⟨d', hd'⟩ := h.user w _ u hu
      rw [hk] at hd'
      simp at hd'
    refine (@Step.userCall (graph s L) src w c _ he ho hp hk).simulated trivial ?_
    have hres : (s.nodes w).processUserCall w c =
        ({ (s.nodes w).createUserRRef c.ownerId_ c.rrefId_ c.forkId_ with
            pendingUsers_ := insert c.forkId_ (s.nodes w).pendingUsers_
            forkRequests := update (s.nodes w).forkRequests c.forkId_ (some c.parent_) },
          [⟨w, c.ownerId_, .rrefForkRequest c.rrefId_ c.forkId_⟩]) := by
      simp [Worker.processUserCall, Worker.getOrCreateRRef, Worker.notifyOwnerAndParentOfFork, ho,
        hp, Worker.addPendingUser, Worker.createUserRRef, Worker.setUserRRef, hpend]
    rw [hres, graph_settle]
    simp [graph, Worker.createUserRRef, Worker.setUserRRef]

theorem ack_step (he : (⟨src, w, .rrefAck r f⟩ : Mail) ∈ s.inFlight) :
    Simulated s L a (Protocol.settle s w (s.inFlight.erase ⟨src, w, .rrefAck r f⟩)
      ((s.nodes w).finishForkRequest w f)) := by
  unfold Worker.finishForkRequest
  split
  · refine (@Step.lateAck (graph s L) src w r f).simulated trivial ?_
    rw [graph_settle]
    simp [graph]
  · rename_i parent hparent
    by_cases hpend : f ∈ (s.nodes w).pendingUsers_
    · refine (@Step.ack (graph s L) src w parent r f he).simulated trivial ?_
      simp only [Worker.delPendingUser, if_pos hpend, Worker.addConfirmedUser]
      rw [graph_settle]
      simp [graph]
    · refine (@Step.lateAck (graph s L) src w r f).simulated trivial ?_
      simp only [Worker.delPendingUser, if_neg hpend]
      rw [graph_settle]
      simp [graph]

theorem receive_step (h : Tracks (graph s L)) {e : Mail} {again : Bool} (he : e ∈ s.inFlight)
    (hagain : again = true → e.body.repeatable = true) :
    Simulated s L (.deliver e again)
      (Protocol.settle s e.dst (if again then s.inFlight else s.inFlight.erase e)
        ((s.nodes e.dst).receive e.dst e.src e.body)) := by
  obtain ⟨src, w, body⟩ := e
  cases body with
  | remoteCall r f =>
    obtain rfl : again = false := by simpa [Message.repeatable] using hagain
    exact remoteCall_step he
  | remoteRet r f =>
    obtain rfl : again = false := by simpa [Message.repeatable] using hagain
    exact remoteRet_step
  | userCall c =>
    obtain rfl : again = false := by simpa [Message.repeatable] using hagain
    by_cases ho : c.ownerId_ = w
    · exact userCallOwner_step h he ho
    · exact userCallUser_step h he ho
  | rrefFetchCall r =>
    obtain ⟨p, fu, hx⟩ := (s.nodes w).processRRefFetchCall_eq r
    simp only [Worker.receive, hx]
    cases again with
    | true =>
      refine (Step.idle _).simulated trivial ?_
      rw [graph_settle]
      simp [graph]
    | false =>
      refine (@Step.fetchCall (graph s L) src w r).simulated trivial ?_
      rw [graph_settle]
      simp [graph]
  | rrefForkRequest r f =>
    refine (@Step.forkRequest (graph s L) src w r f again he).simulated rfl ?_
    simp only [Worker.receive, Worker.addForkOfOwnerIfNotPresent_eq]
    rw [graph_settle]
    cases again <;> simp [graph]
  | rrefAck r f =>
    obtain rfl : again = false := by simpa [Message.repeatable] using hagain
    exact ack_step he
  | rrefChildAccept f =>
    refine (@Step.childAccept (graph s L) src w f again he).simulated trivial ?_
    simp only [Worker.receive, Worker.delPendingChild]
    rw [graph_settle]
    cases again <;> simp [graph]
  | rrefUserDelete r f =>
    refine (@Step.userDelete (graph s L) src w r f again he).simulated rfl ?_
    simp only [Worker.receive, Worker.delForkOfOwner_eq]
    rw [graph_settle]
    cases again <;> by_cases hlast : (s.nodes w).forks_ r = {f} <;> simp [graph, hlast]

end Deliveries

/-- Every move of the system is a step of the graph, or none. -/
theorem simulates {s : System} (h : Tracks (graph s L))
    (a : SystemMove) : Simulated s L a (machine.next s a) := by
  rcases protocol.next_cases s a with heq | ⟨w, e, p, rfl, hp, heq⟩ |
    ⟨e, again, rfl, he, hagain, heq⟩
  · refine (Step.idle _).simulated trivial ?_
    rw [machine, heq]
    rfl
  · rw [machine, heq]
    exact act_step h hp
  · rw [machine, heq]
    exact receive_step h he hagain

end PyTorchCore.RRef
