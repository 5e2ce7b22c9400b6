import PyTorchCore.RRef.Simulation

/-!
# Safety of the OwnerRRef

`OwnerSafe` is the statement: once the owner has processed the creating call, the `OwnerRRef` is
in `owners_` as long as some `UserRRef` exists whose deletion the owner has not processed, and a
fetch finds it.
-/

namespace PyTorchCore.RRef

open Lib

/-- The task is `assignOwnerRRef` for this RRef, between its critical sections. -/
def Task.assigns (r : RRefId) : Task → Bool
  | .assignOwnerRRef r' _ _ _ => decide (r' = r)
  | _ => false

def Message.creates (r : RRefId) : Message → Bool
  | .remoteCall r' f => decide (r' = r) && decide (r' ≠ f)
  | _ => false

/-- The owner is between the two critical sections of `assignOwnerRRef`. -/
def assigning (s : System) (O : WorkerId) (r : RRefId) : Prop :=
  ∃ t ∈ (s.nodes O).tasks, t.assigns r = true

/-- The owner has not processed the call that creates the RRef. -/
def creationPending (s : System) (O : WorkerId) (r : RRefId) : Prop :=
  (∃ e ∈ s.inFlight, e.dst = O ∧ e.body.creates r = true) ∨ assigning s O r

instance (s : System) (O : WorkerId) (r : RRefId) : Decidable (assigning s O r) :=
  inferInstanceAs (Decidable (∃ t ∈ (s.nodes O).tasks, t.assigns r = true))

instance (s : System) (O : WorkerId) (r : RRefId) : Decidable (creationPending s O r) :=
  inferInstanceAs (Decidable ((∃ e ∈ s.inFlight, e.dst = O ∧ e.body.creates r = true) ∨
    assigning s O r))

/-- A fetch that the owner handles now completes with the `OwnerRRef`. -/
def fetchFinds (x : Worker) (r : RRefId) : Prop :=
  ∃ o k y, x.owners_ r = some o ∧ x.getOwnerRRef r false = .ok (k, y) ∧
    y.futures[k]? = some ⟨r, some o⟩

/-- No living `UserRRef` misses its `OwnerRRef`. -/
def OwnerSafe (s : System) : Prop :=
  ∀ w f u, (s.nodes w).userRRefs f = some u →
    (u.rrefId_, f) ∉ (s.nodes u.ownerId_).deletedForks →
    ¬creationPending s u.ownerId_ u.rrefId_ →
    (s.nodes u.ownerId_).owners_ u.rrefId_ ≠ none ∧
      fetchFinds (s.nodes u.ownerId_) u.rrefId_

/-- The step does not delete the last fork of an RRef between the two critical
sections of `assignOwnerRRef`. -/
def KeepsAssigned (s : System) (a : SystemMove) : Prop :=
  ∀ d ∈ deletesFork a, assigning s d.owner d.rrefId → (s.nodes d.owner).forks_ d.rrefId ≠ {d.forkId}

instance (s : System) (a : SystemMove) : Decidable (KeepsAssigned s a) :=
  inferInstanceAs (Decidable (∀ d ∈ deletesFork a, assigning s d.owner d.rrefId →
    (s.nodes d.owner).forks_ d.rrefId ≠ {d.forkId}))

section Graph

variable {s : System} {L : ForkId → Option Fork} {O : WorkerId} {r : RRefId}

theorem assigning_iff : (graph s L).Assigning O r ↔ assigning s O r := by
  constructor
  · rintro ⟨f, o, src, ht⟩
    exact ⟨_, ht, by simp [Task.assigns]⟩
  · rintro ⟨t, ht, hr⟩
    cases t with
    | assignOwnerRRef r' f o src =>
      obtain rfl : r' = r := by simpa [Task.assigns] using hr
      exact ⟨f, o, src, ht⟩
    | _ => simp [Task.assigns] at hr

theorem creationPending_iff : (graph s L).CreationPending O r ↔ creationPending s O r := by
  refine or_congr ?_ assigning_iff
  constructor
  · rintro ⟨src, f, hne, he⟩
    exact ⟨_, he, rfl, by simp [Message.creates, hne]⟩
  · rintro ⟨⟨src, dst, body⟩, he, rfl, hr⟩
    cases body with
    | remoteCall r' f =>
      simp only [Message.creates, Bool.and_eq_true, decide_eq_true_eq] at hr
      obtain ⟨rfl, hne⟩ := hr
      exact ⟨src, f, hne, he⟩
    | _ => simp [Message.creates] at hr

theorem tracks_init : Tracks (graph machine.init fun _ => none) := by
  constructor <;> simp [graph, machine, Protocol.machine, protocol, Worker.start, holders]

theorem ownerKept_init : OwnerKept (graph machine.init fun _ => none) := by
  constructor <;> simp [graph, machine, Protocol.machine, protocol, Worker.start,
    ForkGraph.Anchored, ForkGraph.Assigning]

end Graph

theorem fetchFinds_of_owner {x : Worker} {r : RRefId} (h : x.owners_ r ≠ none) :
    fetchFinds x r := by
  obtain ⟨o, ho⟩ := Option.ne_none_iff_exists'.mp h
  refine ⟨o, x.futures.length, { x with futures := x.futures ++ [⟨r, some o⟩] }, ho, ?_, ?_⟩
  · simp only [Worker.getOwnerRRef, ho]
  · simp

theorem next_tracks {s : System} {L : ForkId → Option Fork} (h : Tracks (graph s L))
    (a : SystemMove) :
    ∃ l L', Step (graph s L) l (graph (machine.next s a) L') ∧ Matches a l ∧
      Tracks (graph (machine.next s a) L') := by
  obtain ⟨l, L', hs, hm⟩ := simulates h a
  exact ⟨l, L', hs, hm, hs.tracks h⟩

/-- What a run keeps in which the owner never deletes the last fork of an RRef
between the critical sections of `assignOwnerRRef`. -/
theorem ownerKept_of_run (as : List SystemMove)
    (h : machine.Admissible KeepsAssigned machine.init as) :
    ∃ L, Tracks (graph (machine.exec machine.init as) L) ∧
      OwnerKept (graph (machine.exec machine.init as) L) := by
  refine machine.exec_invariant KeepsAssigned
    (fun s => ∃ L, Tracks (graph s L) ∧ OwnerKept (graph s L)) ?_ as machine.init
    ⟨_, tracks_init, ownerKept_init⟩ h
  rintro s a ⟨L, ht, ho⟩ hok
  obtain ⟨l, L', hs, hm, ht'⟩ := next_tracks ht a
  refine ⟨L', ht', hs.ownerKept ht ho ?_⟩
  rintro O r f rfl hass
  exact hok ⟨O, r, f⟩ hm (assigning_iff.mp hass)

/-- In every run in which the owner never deletes the last fork of an RRef between the critical
sections of `assignOwnerRRef`, no living `UserRRef` misses its `OwnerRRef`. -/
theorem ownerSafe_of_run (as : List SystemMove)
    (h : machine.Admissible KeepsAssigned machine.init as) :
    OwnerSafe (machine.exec machine.init as) := by
  obtain ⟨L, ht, ho⟩ := ownerKept_of_run as h
  intro w f u hu hnot hcall
  have hu' : (graph (machine.exec machine.init as) L).users w f = some u.holder := by
    simp [graph, holders, hu]
  have hown := OwnerKept.present ht ho hu' hnot fun hc => hcall (creationPending_iff.mp hc)
  exact ⟨hown, fetchFinds_of_owner hown⟩

/-- What every run keeps of the `UserRRef`s of all workers. -/
structure ForksGuarded (s : System) : Prop where
  /-- A fork is a reference of one worker to one RRef. -/
  once : ∀ w w' f u u', (s.nodes w).userRRefs f = some u → (s.nodes w').userRRefs f = some u' →
    w = w' ∧ u.ownerId_ = u'.ownerId_ ∧ u.rrefId_ = u'.rrefId_
  abroad : ∀ w f u, (s.nodes w).userRRefs f = some u → u.ownerId_ ≠ w
  /-- The owner deletes a fork after its `UserRRef` only. -/
  gone : ∀ w f u, (s.nodes w).userRRefs f = some u →
    (u.rrefId_, f) ∈ (s.nodes u.ownerId_).deletedForks → u.deletedOnOwner_ = true
  /-- The owner knows the fork or will, from the call that created the RRef, or its parent is
  alive. -/
  guarded : ∀ w f u, (s.nodes w).userRRefs f = some u →
    f ∈ (s.nodes u.ownerId_).forks_ u.rrefId_ ∨
      (u.rrefId_, f) ∈ (s.nodes u.ownerId_).deletedForks ∨
      (⟨w, u.ownerId_, .remoteCall u.rrefId_ f⟩ : Mail) ∈ s.inFlight ∨
      (∃ o, .assignOwnerRRef u.rrefId_ f o w ∈ (s.nodes u.ownerId_).tasks) ∨
      ∃ p g v, (f, g) ∈ (s.nodes p).pendingChildren_ ∧ (s.nodes p).userRRefs g = some v ∧
        v.rrefId_ = u.rrefId_ ∧ v.deletedOnOwner_ = false

/-- **Guarantee G2.** In whatever order messages arrive, no parent is deleted before the owner
knows the child. -/
theorem forksGuarded_of_run (as : List SystemMove) :
    ForksGuarded (machine.exec machine.init as) := by
  have hrun : ∃ L, Tracks (graph (machine.exec machine.init as) L) := by
    refine machine.reachable_invariant (fun s => ∃ L, Tracks (graph s L)) ⟨_, tracks_init⟩ ?_
      ⟨as, rfl⟩
    rintro s a ⟨L, ht⟩
    obtain ⟨l, L', -, -, ht'⟩ := next_tracks ht a
    exact ⟨L', ht'⟩
  obtain ⟨L, ht⟩ := hrun
  generalize machine.exec machine.init as = s at ht
  have huser : ∀ {w f u}, (s.nodes w).userRRefs f = some u →
      (graph s L).users w f = some u.holder := fun hu => by simp [graph, holders, hu]
  refine ⟨fun w w' f u u' hu hu' => ?_, fun w f u hu => ht.abroad w f _ (huser hu),
    fun w f u hu hdel => ?_, fun w f u hu => ?_⟩
  · obtain ⟨d, hd⟩ := ht.user w f _ (huser hu)
    obtain ⟨d', hd'⟩ := ht.user w' f _ (huser hu')
    have heq := Option.some.inj (hd.symm.trans hd')
    simp only [UserRRef.holder, Fork.mk.injEq, Place.user.injEq] at heq
    exact ⟨heq.2.2.2, heq.1, heq.2.1⟩
  · obtain ⟨d, hd⟩ := ht.user w f _ (huser hu)
    obtain ⟨v, hv, hdeleted⟩ := ht.gone f _ _ d w hdel hd
    obtain rfl := Option.some.inj ((huser hu).symm.trans hv)
    exact hdeleted
  · obtain ⟨d, hd⟩ := ht.user w f _ (huser hu)
    obtain (hforks | hdel) | ⟨p, g, hchild⟩ | ⟨-, hmail⟩ | htask := ht.unknown w f _ _ d hd
    · exact .inl hforks
    · exact .inr (.inl hdel)
    · obtain ⟨O, r, e, e', P, v, hf, hg, -, hv, hnot⟩ := ht.child p f g hchild
      obtain ⟨v, hparent, rfl⟩ : ∃ v', (s.nodes p).userRRefs g = some v' ∧ v'.holder = v :=
        Option.map_eq_some_iff.mp hv
      obtain ⟨e₂, hg'⟩ := ht.user p g _ hv
      have hr := congrArg Fork.rref (Option.some.inj (hd.symm.trans hf))
      have hr' := congrArg Fork.rref (Option.some.inj (hg'.symm.trans hg))
      exact .inr (.inr (.inr (.inr ⟨p, g, v, hchild, hparent, hr'.trans hr.symm, hnot⟩)))
    · exact .inr (.inr (.inl hmail))
    · exact .inr (.inr (.inr (.inl htask)))

section Runs

/-- Worker 1 creates an RRef on worker 0 and shares it with worker 2. -/
def sharedRun : List SystemMove :=
  [.act 1 (.remote 0),
   .act 1 (.forkUserRRef ⟨1, 1⟩ 2),
   .deliver ⟨1, 2, .userCall ⟨0, ⟨1, 0⟩, ⟨1, 2⟩, 1⟩⟩ false,
   .deliver ⟨2, 0, .rrefForkRequest ⟨1, 0⟩ ⟨1, 2⟩⟩ false,
   .deliver ⟨0, 2, .rrefAck ⟨1, 0⟩ ⟨1, 2⟩⟩ false,
   .deliver ⟨2, 1, .rrefChildAccept ⟨1, 2⟩⟩ false,
   .act 2 (.dropUserRRef ⟨1, 2⟩),
   .act 2 (.releaseResources ⟨1, 2⟩),
   .deliver ⟨1, 0, .remoteCall ⟨1, 0⟩ ⟨1, 1⟩⟩ false,
   .act 0 (.resume (.assignOwnerRRef ⟨1, 0⟩ ⟨1, 1⟩ 0 1)),
   .deliver ⟨2, 0, .rrefUserDelete ⟨1, 0⟩ ⟨1, 2⟩⟩ false]

theorem ownerSafe_of_run_shared : machine.Admissible KeepsAssigned machine.init sharedRun ∧
      ((machine.exec machine.init sharedRun).nodes 0).owners_ ⟨1, 0⟩ ≠ none := by
  have hok : machine.Admissible KeepsAssigned machine.init sharedRun := by decide
  have hu : ((machine.exec machine.init sharedRun).nodes 1).userRRefs ⟨1, 1⟩ =
      some ⟨0, ⟨1, 0⟩, true, false, false⟩ := by decide
  exact ⟨hok, (ownerSafe_of_run sharedRun hok 1 ⟨1, 1⟩ _ hu (by decide) (by decide)).1⟩

/-- The same messages, with the deletion of worker 2's fork between the two
critical sections of `assignOwnerRRef`. -/
def assignRace : List SystemMove :=
  [.act 1 (.remote 0),
   .act 1 (.forkUserRRef ⟨1, 1⟩ 2),
   .deliver ⟨1, 2, .userCall ⟨0, ⟨1, 0⟩, ⟨1, 2⟩, 1⟩⟩ false,
   .deliver ⟨2, 0, .rrefForkRequest ⟨1, 0⟩ ⟨1, 2⟩⟩ false,
   .deliver ⟨0, 2, .rrefAck ⟨1, 0⟩ ⟨1, 2⟩⟩ false,
   .deliver ⟨2, 1, .rrefChildAccept ⟨1, 2⟩⟩ false,
   .act 2 (.dropUserRRef ⟨1, 2⟩),
   .act 2 (.releaseResources ⟨1, 2⟩),
   .deliver ⟨1, 0, .remoteCall ⟨1, 0⟩ ⟨1, 1⟩⟩ false,
   .deliver ⟨2, 0, .rrefUserDelete ⟨1, 0⟩ ⟨1, 2⟩⟩ false,
   .act 0 (.resume (.assignOwnerRRef ⟨1, 0⟩ ⟨1, 1⟩ 0 1))]

/-- Every step of the race is enabled, the creator holds its `UserRRef`, the
owner has registered it, and the `OwnerRRef` is gone. -/
theorem assignRace_loses_owner : machine.outcomes machine.init assignRace = List.replicate 11 true ∧
    ((machine.exec machine.init assignRace).nodes 1).userRRefs ⟨1, 1⟩ =
      some ⟨0, ⟨1, 0⟩, true, false, false⟩ ∧
    ((machine.exec machine.init assignRace).nodes 0).forks_ ⟨1, 0⟩ = {⟨1, 1⟩} ∧
    ¬OwnerSafe (machine.exec machine.init assignRace) := by
  have hu : ((machine.exec machine.init assignRace).nodes 1).userRRefs ⟨1, 1⟩ =
      some ⟨0, ⟨1, 0⟩, true, false, false⟩ := by decide
  refine ⟨by decide, hu, by decide, fun hsafe => ?_⟩
  exact (hsafe 1 ⟨1, 1⟩ _ hu (by decide) (by decide)).1 (by decide)

end Runs

end PyTorchCore.RRef
