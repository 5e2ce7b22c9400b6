import PyTorchCore.RRef.ForkGraph

/-!
# The ledger tracks the protocol

`Tracks` ties the ledger to the state of the workers and to the messages in
flight.  Its core is the tree invariant behind guarantee G2: a `UserRRef` that
its owner has not heard of has a parent that is alive and keeps it among its
pending children, or is the root whose creating call the owner has not
processed.
-/

namespace PyTorchCore.RRef

open Lib
open Function

/-- What the ledger says about a message in flight. -/
def MailOk (G : ForkGraph) (e : Mail) : Prop :=
  match e.body with
  | .remoteCall r f =>
    r ≠ f → G.ledger r = none ∧ ∃ d, G.ledger f = some ⟨e.dst, r, d, .user e.src⟩
  | .remoteRet _ _ => True
  | .userCall c =>
    c.parent_ = e.src ∧
    ∃ d, G.ledger c.forkId_ = some ⟨c.ownerId_, c.rrefId_, d, .carried e.src e.dst⟩
  | .rrefFetchCall _ => True
  | .rrefForkRequest r f => ∃ d, G.ledger f = some ⟨e.dst, r, d, .user e.src⟩
  | .rrefAck r f =>
    G.Known e.src r f ∧ ∃ d, G.ledger f = some ⟨e.src, r, d, .user e.dst⟩
  | .rrefChildAccept f =>
    ∃ O r d P, G.ledger f = some ⟨O, r, d, P⟩ ∧
      (P = .spent ∨ ∃ w, P = .user w ∧ G.Known O r f)
  | .rrefUserDelete r f =>
    (∃ d, G.ledger f = some ⟨e.dst, r, d, .user e.src⟩) ∧
    ∃ u, G.users e.src f = some u ∧ u.deleted = true

/-- What the ledger says about a task of worker `w`. -/
def TaskOk (G : ForkGraph) (w : WorkerId) (t : Task) : Prop :=
  match t with
  | .assignOwnerRRef r f _ src =>
    G.ledger r = none ∧ ∃ d, G.ledger f = some ⟨w, r, d, .user src⟩
  | .setValue _ _ _ _ => True
  | .prepareChildFork o c callee =>
    c.ownerId_ = w ∧ c.parent_ = w ∧
    ∃ d, G.ledger c.forkId_ = some ⟨w, c.rrefId_, d, .prepared o callee⟩
  | .notifySelf r f => ∃ d, G.ledger f = some ⟨w, r, d, .spent⟩
  | .confirmPendingUser _ => True
  | .finishCreatingOwnerRRef r => ∃ d, G.ledger r = some ⟨w, r, d, .spent⟩

/-- The ledger describes the graph. -/
structure Tracks (G : ForkGraph) : Prop where
  fresh : ∀ f k, G.ledger f = some k → f.localId_ < G.next f.createdOn_
  freshRRef : ∀ f k, G.ledger f = some k → k.rref.localId_ < G.next k.rref.createdOn_
  objects : ∀ w, ∀ r ∈ G.objects w, r.localId_ < G.next r.createdOn_
  user : ∀ w f u, G.users w f = some u →
    ∃ d, G.ledger f = some ⟨u.owner, u.rref, d, .user w⟩
  placed : ∀ w f O r d, G.ledger f = some ⟨O, r, d, .user w⟩ → ∃ u, G.users w f = some u
  abroad : ∀ w f u, G.users w f = some u → u.owner ≠ w
  /-- A fork the owner is about to send is registered. -/
  prepared : ∀ f O r d o c, G.ledger f = some ⟨O, r, d, .prepared o c⟩ →
    f ∈ G.forks O r ∧ (r, f) ∉ G.deleted O
  /-- A fork on its way from the owner is registered. -/
  carriedOwner : ∀ f O r d c, G.ledger f = some ⟨O, r, d, .carried O c⟩ →
    f ∈ G.forks O r ∧ (r, f) ∉ G.deleted O
  /-- A fork on its way from a user is a pending child of that user. -/
  carriedUser : ∀ f O r d p c, G.ledger f = some ⟨O, r, d, .carried p c⟩ → p ≠ O →
    (r, f) ∉ G.deleted O ∧ ∃ g, (f, g) ∈ G.pendingChildren p
  /-- A `UserRRef` that the owner has not heard of. -/
  unknown : ∀ w f O r d, G.ledger f = some ⟨O, r, d, .user w⟩ →
    G.Known O r f ∨ (∃ p g, (f, g) ∈ G.pendingChildren p) ∨
    (r ≠ f ∧ (⟨w, O, .remoteCall r f⟩ : Mail) ∈ G.mail) ∨
    (∃ o, .assignOwnerRRef r f o w ∈ G.tasks O)
  /-- The parent of a pending child is alive and higher up in the tree. -/
  child : ∀ p f g, (f, g) ∈ G.pendingChildren p →
    ∃ O r d d' P u, G.ledger f = some ⟨O, r, d, P⟩ ∧ G.ledger g = some ⟨O, r, d', .user p⟩ ∧
      d' < d ∧ G.users p g = some u ∧ u.deleted = false
  /-- A fork is deleted on the owner only after its `UserRRef` is gone. -/
  gone : ∀ f O r d w, (r, f) ∈ G.deleted O → G.ledger f = some ⟨O, r, d, .user w⟩ →
    ∃ u, G.users w f = some u ∧ u.deleted = true
  /-- A pending `UserRRef` is referenced, so it is alive. -/
  pending : ∀ w, ∀ f ∈ G.pendingUsers w, ∃ u, G.users w f = some u ∧ u.deleted = false
  forksNoted : ∀ O r f, f ∈ G.forks O r → ∃ k, G.ledger f = some k
  deletedNoted : ∀ O r f, (r, f) ∈ G.deleted O → ∃ k, G.ledger f = some k
  mail : ∀ e ∈ G.mail, MailOk G e
  task : ∀ w, ∀ t ∈ G.tasks w, TaskOk G w t

/-- What the messages and tasks say stays true from `G` to `G'`. -/
structure Grows (G G' : ForkGraph) : Prop where
  ledger : ∀ f k, G.ledger f = some k → G'.ledger f = some k
  absent : ∀ g k, G.ledger g = some k → G.ledger k.rref = none → G'.ledger k.rref = none
  known : ∀ O r f, G.Known O r f → G'.Known O r f
  users : ∀ w f u, G.users w f = some u → u.deleted = true →
    ∃ u', G'.users w f = some u' ∧ u'.deleted = true

theorem Grows.of_ledger {G G' : ForkGraph} (hl : G'.ledger = G.ledger)
    (known : ∀ O r f, G.Known O r f → G'.Known O r f)
    (users : ∀ w f u, G.users w f = some u → u.deleted = true →
      ∃ u', G'.users w f = some u' ∧ u'.deleted = true) : Grows G G' where
  ledger := fun f k h => by rw [hl]; exact h
  absent := fun _ k _ h => by rw [hl]; exact h
  known := known
  users := users

section Growth

variable {G G' : ForkGraph}

/-- Mail stays right when the graph grows. -/
theorem MailOk.grows (hg : Grows G G') {e : Mail} (he : MailOk G e) : MailOk G' e := by
  obtain ⟨src, dst, body⟩ := e
  cases body with
  | remoteCall r f =>
    intro hne
    obtain ⟨hr, d, hf⟩ := he hne
    exact ⟨hg.absent f _ hf hr, d, hg.ledger f _ hf⟩
  | remoteRet r f => trivial
  | userCall c =>
    obtain ⟨hp, d, hc⟩ := he
    exact ⟨hp, d, hg.ledger _ _ hc⟩
  | rrefFetchCall r => trivial
  | rrefForkRequest r f =>
    obtain ⟨d, hf⟩ := he
    exact ⟨d, hg.ledger f _ hf⟩
  | rrefAck r f =>
    obtain ⟨hk, d, hf⟩ := he
    exact ⟨hg.known _ _ _ hk, d, hg.ledger f _ hf⟩
  | rrefChildAccept f =>
    obtain ⟨O, r, d, P, hf, hP⟩ := he
    refine ⟨O, r, d, P, hg.ledger f _ hf, hP.imp_right ?_⟩
    rintro ⟨w, hw, hk⟩
    exact ⟨w, hw, hg.known _ _ _ hk⟩
  | rrefUserDelete r f =>
    obtain ⟨⟨d, hf⟩, u, hu, hdel⟩ := he
    exact ⟨⟨d, hg.ledger f _ hf⟩, hg.users _ _ u hu hdel⟩

/-- Tasks stay right when the graph grows. -/
theorem TaskOk.grows (hg : Grows G G') {w : WorkerId} {t : Task}
    (ht : TaskOk G w t) : TaskOk G' w t := by
  cases t with
  | assignOwnerRRef r f o src =>
    obtain ⟨hr, d, hf⟩ := ht
    exact ⟨hg.absent f _ hf hr, d, hg.ledger f _ hf⟩
  | setValue r f o src => trivial
  | prepareChildFork o c callee =>
    obtain ⟨ho, hp, d, hc⟩ := ht
    exact ⟨ho, hp, d, hg.ledger _ _ hc⟩
  | notifySelf r f =>
    obtain ⟨d, hf⟩ := ht
    exact ⟨d, hg.ledger f _ hf⟩
  | confirmPendingUser f => trivial
  | finishCreatingOwnerRRef r =>
    obtain ⟨d, hr⟩ := ht
    exact ⟨d, hg.ledger r _ hr⟩

end Growth

namespace Tracks

variable {G : ForkGraph}

/-! ### Changes the ledger does not see -/

/-- Taking ids that are free. -/
theorem alloc (h : Tracks G) (w : WorkerId) (n : Nat) : Tracks (G.alloc w n) := by
  have hle : ∀ v, G.next v ≤ (G.alloc w n).next v := by
    intro v
    by_cases hv : v = w
    · subst hv
      simp [ForkGraph.alloc]
    · simp [ForkGraph.alloc, hv]
  exact { h with
    fresh := fun f k hk => lt_of_lt_of_le (h.fresh f k hk) (hle _)
    freshRRef := fun f k hk => lt_of_lt_of_le (h.freshRRef f k hk) (hle _)
    objects := fun v r hr => lt_of_lt_of_le (h.objects v r hr) (hle _) }

variable {f : ForkId} {w O : WorkerId} {r s : RRefId} {w : WorkerId}

theorem addPendingUser (h : Tracks G) {u : Holder}
    (hu : G.users w f = some u) (hd : u.deleted = false) : Tracks (G.addPendingUser w f) :=
  { h with
    pending := by
      intro v g hg
      by_cases hv : v = w
      · subst hv
        simp only [ForkGraph.addPendingUser, update_self, Finset.mem_insert] at hg
        rcases hg with rfl | hg
        · exact ⟨u, hu, hd⟩
        · exact h.pending v g hg
      · simp only [ForkGraph.addPendingUser, update_of_ne hv] at hg
        exact h.pending v g hg }

theorem delPendingUser (h : Tracks G) (w : WorkerId) (f : ForkId) : Tracks (G.delPendingUser w f) :=
  { h with
    pending := by
      intro v g hg
      by_cases hv : v = w
      · subst hv
        simp only [ForkGraph.delPendingUser, update_self] at hg
        exact h.pending v g (Finset.mem_of_mem_erase hg)
      · simp only [ForkGraph.delPendingUser, update_of_ne hv] at hg
        exact h.pending v g hg }

theorem setOwner (h : Tracks G) (w : WorkerId) (r : RRefId) (o : Nat) : Tracks (G.setOwner w r o) :=
  { h with }

variable {r : RRefId}

/-- An object is created for an id that was given out. -/
theorem addObject (h : Tracks G) (w : WorkerId)
    (hr : r.localId_ < G.next r.createdOn_) : Tracks (G.addObject w r) :=
  { h with
    objects := by
      intro v q hq
      by_cases hv : v = w
      · subst hv
        simp only [ForkGraph.addObject, update_self, List.mem_append, List.mem_singleton] at hq
        rcases hq with hq | rfl
        · exact h.objects v q hq
        · exact hr
      · simp only [ForkGraph.addObject, update_of_ne hv] at hq
        exact h.objects v q hq }

theorem ensureOwner (h : Tracks G) (w : WorkerId)
    (hr : r.localId_ < G.next r.createdOn_) : Tracks (G.ensureOwner w r) := by
  unfold ForkGraph.ensureOwner
  split
  · exact (h.setOwner w r _).addObject w hr
  · exact h.setOwner w r _

/-! ### Messages and tasks -/

theorem send (h : Tracks G) {e : Mail} (he : MailOk G e) : Tracks (G.send e) :=
  { h with
    unknown := by
      intro w f O r d hf
      refine (h.unknown w f O r d hf).imp_right (Or.imp_right (Or.imp_left ?_))
      rintro ⟨hne, hm⟩
      exact ⟨hne, Finset.mem_insert_of_mem hm⟩
    mail := by
      intro e' he'
      rcases Finset.mem_insert.mp he' with rfl | he'
      · exact he
      · exact h.mail e' he' }

theorem take (h : Tracks G) {e : Mail}
    (he : ∀ src O r f, r ≠ f → e ≠ ⟨src, O, .remoteCall r f⟩) : Tracks (G.take e) :=
  { h with
    unknown := by
      intro w f O r d hf
      refine (h.unknown w f O r d hf).imp_right (Or.imp_right (Or.imp_left ?_))
      rintro ⟨hne, hm⟩
      exact ⟨hne, Finset.mem_erase.mpr ⟨(he w O r f hne).symm, hm⟩⟩
    mail := fun e' he' => h.mail e' (Finset.mem_of_mem_erase he') }

theorem mem_addTask {w v : WorkerId} {t t' : Task} :
    t' ∈ (G.addTask w t).tasks v ↔ (v = w ∧ t' = t) ∨ t' ∈ G.tasks v := by
  by_cases hv : v = w
  · subst hv
    simp [ForkGraph.addTask]
  · simp [ForkGraph.addTask, hv]

theorem mem_endTask {w v : WorkerId} {t t' : Task} :
    t' ∈ (G.endTask w t).tasks v ↔ t' ∈ G.tasks v ∧ ¬(v = w ∧ t' = t) := by
  by_cases hv : v = w
  · subst hv
    simp [ForkGraph.endTask, and_comm]
  · simp [ForkGraph.endTask, hv]

/-- A task that is right is added. -/
theorem addTask (h : Tracks G) {t : Task} (ht : TaskOk G w t) :
    Tracks (G.addTask w t) :=
  { h with
    unknown := by
      intro v f O r d hf
      refine (h.unknown v f O r d hf).imp_right (Or.imp_right (Or.imp_right ?_))
      rintro ⟨o, ho⟩
      exact ⟨o, mem_addTask.mpr (.inr ho)⟩
    task := by
      intro v t' ht'
      rcases mem_addTask.mp ht' with ⟨rfl, rfl⟩ | ht'
      · exact ht
      · exact h.task v t' ht' }

theorem endTask (h : Tracks G) (w : WorkerId) {t : Task}
    (ht : ∀ r f o src, t ≠ .assignOwnerRRef r f o src) : Tracks (G.endTask w t) :=
  { h with
    unknown := by
      intro v f O r d hf
      refine (h.unknown v f O r d hf).imp_right (Or.imp_right (Or.imp_right ?_))
      rintro ⟨o, ho⟩
      exact ⟨o, mem_endTask.mpr ⟨ho, fun hc => ht r f o v hc.2.symm⟩⟩
    task := fun v t' ht' => h.task v t' (mem_endTask.mp ht').1 }

/-! ### The owner's forks -/

variable {f g : ForkId}

/-- Who is a fork after one is added. -/
theorem mem_addFork :
    g ∈ (G.addFork w r f).forks O s ↔ (O = w ∧ s = r ∧ g = f) ∨ g ∈ G.forks O s := by
  simp only [ForkGraph.addFork, put_apply]
  split
  · rename_i hc
    obtain ⟨rfl, rfl⟩ := hc
    simp
  · rename_i hc
    constructor
    · exact .inr
    · rintro (⟨rfl, rfl, -⟩ | hg)
      · exact absurd ⟨rfl, rfl⟩ hc
      · exact hg

theorem mem_delFork :
    g ∈ (G.delFork w r f).forks O s ↔ g ∈ G.forks O s ∧ ¬(O = w ∧ s = r ∧ g = f) := by
  simp only [ForkGraph.delFork, put_apply]
  split
  · rename_i hc
    obtain ⟨rfl, rfl⟩ := hc
    simp [and_comm]
  · rename_i hc
    constructor
    · exact fun hg => ⟨hg, fun h => hc ⟨h.1, h.2.1⟩⟩
    · exact And.left

theorem mem_delFork_deleted :
    (s, g) ∈ (G.delFork w r f).deleted O ↔ (O = w ∧ s = r ∧ g = f) ∨ (s, g) ∈ G.deleted O := by
  by_cases hO : O = w
  · subst hO
    simp [ForkGraph.delFork]
  · simp [ForkGraph.delFork, hO]

theorem known_addFork (h : G.Known O s g) : (G.addFork w r f).Known O s g :=
  h.imp_left fun hg => mem_addFork.mpr (.inr hg)

theorem known_delFork (h : G.Known O s g) : (G.delFork w r f).Known O s g := by
  rcases h with h | h
  · by_cases hc : O = w ∧ s = r ∧ g = f
    · exact .inr (mem_delFork_deleted.mpr (.inl hc))
    · exact .inl (mem_delFork.mpr ⟨h, hc⟩)
  · exact .inr (mem_delFork_deleted.mpr (.inr h))

/-- A fork in the ledger is added. -/
theorem addFork (h : Tracks G) (w : WorkerId) (r : RRefId)
    (hf : ∃ k, G.ledger f = some k) : Tracks (G.addFork w r f) := by
  have hg : Grows G (G.addFork w r f) :=
    Grows.of_ledger rfl (fun O s g => known_addFork) (fun v g u hu hd => ⟨u, hu, hd⟩)
  exact { h with
    prepared := by
      intro g O s d o c hk
      obtain ⟨hin, hnot⟩ := h.prepared g O s d o c hk
      exact ⟨mem_addFork.mpr (.inr hin), hnot⟩
    carriedOwner := by
      intro g O s d c hk
      obtain ⟨hin, hnot⟩ := h.carriedOwner g O s d c hk
      exact ⟨mem_addFork.mpr (.inr hin), hnot⟩
    unknown := fun v g O s d hk => (h.unknown v g O s d hk).imp_left known_addFork
    forksNoted := by
      intro O s g hg
      rcases mem_addFork.mp hg with ⟨rfl, rfl, rfl⟩ | hg
      · exact hf
      · exact h.forksNoted O s g hg
    mail := fun e he => (h.mail e he).grows hg
    task := fun v t ht => (h.task v t ht).grows hg }

/-- The fork that is deleted is used up, or its `UserRRef` is gone. -/
def Deletable (G : ForkGraph) (w : WorkerId) (r : RRefId) (f : ForkId) : Prop :=
  ∀ d P, G.ledger f = some ⟨w, r, d, P⟩ →
    P = .spent ∨ ∃ v u, P = .user v ∧ G.users v f = some u ∧ u.deleted = true

/-- A fork is deleted when its last message is in. -/
theorem delFork (h : Tracks G)
    (hdel : Deletable G w r f) (hnoted : ∃ k, G.ledger f = some k) :
    Tracks (G.delFork w r f) := by
  have hg : Grows G (G.delFork w r f) :=
    Grows.of_ledger rfl (fun O s g => known_delFork) (fun v g u hu hd => ⟨u, hu, hd⟩)
  -- A fork that has not arrived is not the one that is deleted.
  have hother : ∀ g O s d P, G.ledger g = some ⟨O, s, d, P⟩ →
      (P ≠ .spent ∧ ∀ v, P ≠ .user v) → ¬(O = w ∧ s = r ∧ g = f) := by
    rintro g O s d P hk ⟨hs, hu⟩ ⟨rfl, rfl, rfl⟩
    rcases hdel d P hk with hP | ⟨v, u, hP, -⟩
    · exact hs hP
    · exact hu v hP
  exact { h with
    prepared := by
      intro g O s d o c hk
      obtain ⟨hin, hnot⟩ := h.prepared g O s d o c hk
      have hne := hother g O s d _ hk (by simp)
      refine ⟨mem_delFork.mpr ⟨hin, hne⟩, fun hc => ?_⟩
      exact (mem_delFork_deleted.mp hc).elim hne hnot
    carriedOwner := by
      intro g O s d c hk
      obtain ⟨hin, hnot⟩ := h.carriedOwner g O s d c hk
      have hne := hother g O s d _ hk (by simp)
      refine ⟨mem_delFork.mpr ⟨hin, hne⟩, fun hc => ?_⟩
      exact (mem_delFork_deleted.mp hc).elim hne hnot
    carriedUser := by
      intro g O s d p c hk hp
      obtain ⟨hnot, hch⟩ := h.carriedUser g O s d p c hk hp
      have hne := hother g O s d _ hk (by simp)
      exact ⟨fun hc => (mem_delFork_deleted.mp hc).elim hne hnot, hch⟩
    unknown := fun v g O s d hk => (h.unknown v g O s d hk).imp_left known_delFork
    forksNoted := fun O s g hg => h.forksNoted O s g (mem_delFork.mp hg).1
    gone := by
      intro g O s d v hin hk
      rcases mem_delFork_deleted.mp hin with ⟨rfl, rfl, rfl⟩ | hin
      · rcases hdel d _ hk with hP | ⟨v', u, hP, hu, hd⟩
        · exact absurd hP (by simp)
        · obtain rfl : v = v' := by simpa using hP
          exact ⟨u, hu, hd⟩
      · exact h.gone g O s d v hin hk
    deletedNoted := by
      intro O s g hin
      rcases mem_delFork_deleted.mp hin with ⟨rfl, rfl, rfl⟩ | hin
      · exact hnoted
      · exact h.deletedNoted O s g hin
    mail := fun e he => (h.mail e he).grows hg
    task := fun v t ht => (h.task v t ht).grows hg }

/-! ### Pending children -/

variable {e : ForkId × ForkId}

theorem mem_addChild {w p : WorkerId} :
    e ∈ (G.addChild w f g).pendingChildren p ↔ (p = w ∧ e = (f, g)) ∨ e ∈ G.pendingChildren p := by
  by_cases hp : p = w
  · subst hp
    simp [ForkGraph.addChild]
  · simp [ForkGraph.addChild, hp]

theorem mem_delChild {w p : WorkerId} :
    e ∈ (G.delChild w f).pendingChildren p ↔ e ∈ G.pendingChildren p ∧ ¬(p = w ∧ e.1 = f) := by
  by_cases hp : p = w
  · subst hp
    simp [ForkGraph.delChild]
  · simp [ForkGraph.delChild, hp]

variable {P : Place}

/-- A pending child is confirmed. -/
theorem delChild (h : Tracks G) {p : WorkerId} {O : WorkerId} {d : Nat}
    (hf : G.ledger f = some ⟨O, r, d, P⟩)
    (hP : P = .spent ∨ ∃ w, P = .user w ∧ G.Known O r f) : Tracks (G.delChild p f) := by
  have hg : Grows G (G.delChild p f) :=
    Grows.of_ledger rfl (fun _ _ _ hk => hk) (fun v g u hu hd => ⟨u, hu, hd⟩)
  exact { h with
    carriedUser := by
      intro g O' s d' q c hk hq
      obtain ⟨hnot, g', hg'⟩ := h.carriedUser g O' s d' q c hk hq
      refine ⟨hnot, g', mem_delChild.mpr ⟨hg', ?_⟩⟩
      rintro ⟨rfl, rfl⟩
      have heq := hf.symm.trans hk
      obtain ⟨-, -, -, rfl⟩ := heq
      rcases hP with hP | ⟨w, hP, -⟩ <;> simp at hP
    unknown := by
      intro w g O' s d' hk
      rcases h.unknown w g O' s d' hk with hkn | ⟨q, g', hg'⟩ | hrest
      · exact .inl hkn
      · by_cases hgf : g = f
        · subst hgf
          have heq := hf.symm.trans hk
          obtain ⟨rfl, rfl, rfl, rfl⟩ := heq
          rcases hP with hP | ⟨v, -, hkn⟩
          · simp at hP
          · exact .inl hkn
        · exact .inr (.inl ⟨q, g', mem_delChild.mpr ⟨hg', fun hc => hgf hc.2⟩⟩)
      · exact .inr (.inr hrest)
    child := fun q g g' hm => h.child q g g' (mem_delChild.mp hm).1
    mail := fun e he => (h.mail e he).grows hg
    task := fun v t ht => (h.task v t ht).grows hg }

/-! ### Births -/

theorem note_ledger {k k' : Fork} :
    (G.note f k).ledger g = some k' ↔ (g = f ∧ k' = k) ∨ (g ≠ f ∧ G.ledger g = some k') := by
  by_cases hg : g = f
  · subst hg
    simp [ForkGraph.note, eq_comm]
  · simp [ForkGraph.note, hg]

theorem ledger_fresh (h : Tracks G) (hf : G.next f.createdOn_ ≤ f.localId_) :
    G.ledger f = none := by
  cases hk : G.ledger f with
  | none => rfl
  | some k => exact absurd (h.fresh f k hk) (Nat.not_lt.mpr hf)

theorem users_fresh (h : Tracks G) (hf : G.ledger f = none) (w : WorkerId) :
    G.users w f = none := by
  cases hu : G.users w f with
  | none => rfl
  | some u =>
    obtain ⟨d, hk⟩ := h.user w f u hu
    rw [hf] at hk
    cases hk

theorem deleted_fresh (h : Tracks G) (hf : G.ledger f = none) (O : WorkerId)
    (r : RRefId) : (r, f) ∉ G.deleted O := by
  intro hin
  obtain ⟨k, hk⟩ := h.deletedNoted O r f hin
  rw [hf] at hk
  cases hk

/-- A fork id that is generated in this step: nothing speaks about it yet. -/
structure Newborn (G : ForkGraph) (f : ForkId) : Prop where
  allocated : f.localId_ < G.next f.createdOn_
  ledger : G.ledger f = none
  rref : ∀ g k, G.ledger g = some k → k.rref ≠ f

theorem newborn_alloc (h : Tracks G) (w : WorkerId) {i n : Nat} (hi : i < n) :
    Newborn (G.alloc w n) ⟨w, G.next w + i⟩ where
  allocated := by simp [ForkGraph.alloc, hi]
  ledger := h.ledger_fresh (Nat.le_add_right _ _)
  rref := by
    rintro g k hk hr
    have hlt := h.freshRRef g k hk
    rw [hr] at hlt
    exact absurd hlt (by simp)

section Birth

variable {f : ForkId} {k : Fork}

theorem fresh_note (h : Tracks G) (hf : f.localId_ < G.next f.createdOn_) :
    ∀ g k', (G.note f k).ledger g = some k' → g.localId_ < G.next g.createdOn_ := by
  intro g k' hk
  rcases note_ledger.mp hk with ⟨rfl, -⟩ | ⟨-, hk⟩
  · exact hf
  · exact h.fresh g k' hk

theorem freshRRef_note (h : Tracks G) (hr : k.rref.localId_ < G.next k.rref.createdOn_) :
    ∀ g k', (G.note f k).ledger g = some k' → k'.rref.localId_ < G.next k'.rref.createdOn_ := by
  intro g k' hk
  rcases note_ledger.mp hk with ⟨-, rfl⟩ | ⟨-, hk⟩
  · exact hr
  · exact h.freshRRef g k' hk

theorem noted_note {g : ForkId} (hg : ∃ k', G.ledger g = some k') :
    ∃ k', (G.note f k).ledger g = some k' := by
  obtain ⟨k', hk'⟩ := hg
  by_cases hg : g = f
  · exact ⟨k, note_ledger.mpr (.inl ⟨hg, rfl⟩)⟩
  · exact ⟨k', note_ledger.mpr (.inr ⟨hg, hk'⟩)⟩

theorem ledger_note_of_newborn (hf : Newborn G f) {g : ForkId} {k' : Fork}
    (hk : G.ledger g = some k') : (G.note f k).ledger g = some k' := by
  refine note_ledger.mpr (.inr ⟨?_, hk⟩)
  rintro rfl
  rw [hf.ledger] at hk
  cases hk

theorem grows_note (hf : Newborn G f) {G' : ForkGraph} (hledger : G'.ledger = (G.note f k).ledger)
    (hknown : ∀ O r g, G.Known O r g → G'.Known O r g)
    (husers : ∀ w g u, G.users w g = some u → u.deleted = true →
      ∃ u', G'.users w g = some u' ∧ u'.deleted = true) : Grows G G' where
  ledger := by
    intro g k' hk
    rw [hledger]
    exact ledger_note_of_newborn hf hk
  absent := by
    intro g k' hk hnone
    have hne := hf.rref g k' hk
    simp [hledger, ForkGraph.note, hne, hnone]
  known := hknown
  users := husers

/-- What a newborn fork has to bring along, by its place. -/
structure Cradle (G : ForkGraph) (f : ForkId) (k : Fork)
    (U : WorkerId → ForkId → Option Holder) (C : WorkerId → Finset (ForkId × ForkId))
    (F : WorkerId → RRefId → Finset ForkId) (M : Finset Mail) : Prop where
  rref : k.rref.localId_ < G.next k.rref.createdOn_
  users : ∀ w g, g ≠ f → U w g = G.users w g
  user : ∀ w u, U w f = some u → ∃ d, k = ⟨u.owner, u.rref, d, .user w⟩
  placed : ∀ w, k.place = .user w → ∃ u, U w f = some u
  abroad : ∀ w u, U w f = some u → u.owner ≠ w
  childrenKept : ∀ p, ∀ e ∈ G.pendingChildren p, e ∈ C p
  child : ∀ p g g', (g, g') ∈ C p → (g, g') ∈ G.pendingChildren p ∨ (g = f ∧
    ∃ d u, G.ledger g' = some ⟨k.owner, k.rref, d, .user p⟩ ∧ d < k.depth ∧
      G.users p g' = some u ∧ u.deleted = false)
  forksKept : ∀ O r, ∀ g ∈ G.forks O r, g ∈ F O r
  forksNew : ∀ O r, ∀ g ∈ F O r, g ∈ G.forks O r ∨ g = f
  registered : (∃ o c, k.place = .prepared o c) ∨ (∃ c, k.place = .carried k.owner c) →
    f ∈ F k.owner k.rref
  carried : ∀ p c, k.place = .carried p c → p ≠ k.owner → ∃ g, (f, g) ∈ C p
  unknown : ∀ w, k.place = .user w →
    k.rref ≠ f ∧ (⟨w, k.owner, .remoteCall k.rref f⟩ : Mail) ∈ M
  mailKept : G.mail ⊆ M

theorem born (h : Tracks G) (hf : Newborn G f) {U : WorkerId → ForkId → Option Holder}
    {C : WorkerId → Finset (ForkId × ForkId)} {F : WorkerId → RRefId → Finset ForkId}
    {M : Finset Mail} (hc : Cradle G f k U C F M)
    (hM : ∀ e ∈ M, e ∈ G.mail ∨
      MailOk { G.note f k with users := U, pendingChildren := C, forks := F, mail := M } e) :
    Tracks { G.note f k with users := U, pendingChildren := C, forks := F, mail := M } := by
  have husers : ∀ w g u, G.users w g = some u → U w g = some u := by
    intro w g u hu
    have hne : g ≠ f := by
      rintro rfl
      rw [h.users_fresh hf.ledger w] at hu
      cases hu
    rw [hc.users w g hne]
    exact hu
  have hg : Grows G { G.note f k with users := U, pendingChildren := C, forks := F, mail := M } :=
    grows_note hf rfl (fun O r g hk => hk.imp_left (hc.forksKept O r g))
      (fun w g u hu hd => ⟨u, husers w g u hu, hd⟩)
  -- An entry of the new ledger is the newborn or an old one.
  have hledger : ∀ g k', (G.note f k).ledger g = some k' →
      (g = f ∧ k' = k) ∨ G.ledger g = some k' := by
    intro g k' hk
    exact (note_ledger.mp hk).imp_right And.right
  exact {
    fresh := h.fresh_note hf.allocated
    freshRRef := h.freshRRef_note hc.rref
    objects := h.objects
    user := by
      intro w g u hu
      by_cases hgf : g = f
      · subst hgf
        obtain ⟨d, hd⟩ := hc.user w u hu
        exact ⟨d, note_ledger.mpr (.inl ⟨rfl, hd.symm⟩)⟩
      · have hu' : G.users w g = some u := by rw [← hc.users w g hgf]; exact hu
        obtain ⟨d, hd⟩ := h.user w g u hu'
        exact ⟨d, hg.ledger _ _ hd⟩
    placed := by
      intro w g O r d hk
      rcases hledger g _ hk with ⟨rfl, rfl⟩ | hk
      · exact hc.placed w rfl
      · obtain ⟨u, hu⟩ := h.placed w g O r d hk
        exact ⟨u, husers w g u hu⟩
    abroad := by
      intro w g u hu
      by_cases hgf : g = f
      · subst hgf
        exact hc.abroad w u hu
      · exact h.abroad w g u (by rw [← hc.users w g hgf]; exact hu)
    prepared := by
      intro g O r d o c hk
      rcases hledger g _ hk with ⟨rfl, rfl⟩ | hk
      · exact ⟨hc.registered (.inl ⟨o, c, rfl⟩), h.deleted_fresh hf.ledger O r⟩
      · exact (h.prepared g O r d o c hk).imp_left (hc.forksKept O r g)
    carriedOwner := by
      intro g O r d c hk
      rcases hledger g _ hk with ⟨rfl, rfl⟩ | hk
      · exact ⟨hc.registered (.inr ⟨c, rfl⟩), h.deleted_fresh hf.ledger O r⟩
      · exact (h.carriedOwner g O r d c hk).imp_left (hc.forksKept O r g)
    carriedUser := by
      intro g O r d p c hk hp
      rcases hledger g _ hk with ⟨rfl, rfl⟩ | hk
      · exact ⟨h.deleted_fresh hf.ledger O r, hc.carried p c rfl hp⟩
      · obtain ⟨hnot, g', hg'⟩ := h.carriedUser g O r d p c hk hp
        exact ⟨hnot, g', hc.childrenKept p _ hg'⟩
    unknown := by
      intro w g O r d hk
      rcases hledger g _ hk with ⟨rfl, rfl⟩ | hk
      · exact .inr (.inr (.inl (hc.unknown w rfl)))
      · rcases h.unknown w g O r d hk with hkn | ⟨p, g', hg'⟩ | ⟨hne, hm⟩ | hrest
        · exact .inl (hkn.imp_left (hc.forksKept O r g))
        · exact .inr (.inl ⟨p, g', hc.childrenKept p _ hg'⟩)
        · exact .inr (.inr (.inl ⟨hne, hc.mailKept hm⟩))
        · exact .inr (.inr (.inr hrest))
    child := by
      intro p g g' hm
      rcases hc.child p g g' hm with hm | ⟨rfl, d', u, hg', hlt, hu, hd⟩
      · obtain ⟨O, r, d, d', P, u, hg1, hg2, hlt, hu, hd⟩ := h.child p g g' hm
        exact ⟨O, r, d, d', P, u, hg.ledger _ _ hg1, hg.ledger _ _ hg2, hlt,
          husers _ _ _ hu, hd⟩
      · exact ⟨k.owner, k.rref, k.depth, d', k.place, u, note_ledger.mpr (.inl ⟨rfl, rfl⟩),
          hg.ledger _ _ hg', hlt, husers _ _ _ hu, hd⟩
    gone := by
      intro g O r d w hin hk
      rcases hledger g _ hk with ⟨rfl, rfl⟩ | hk
      · exact absurd hin (h.deleted_fresh hf.ledger O r)
      · obtain ⟨u, hu, hd⟩ := h.gone g O r d w hin hk
        exact ⟨u, husers w g u hu, hd⟩
    pending := by
      intro w g hg
      obtain ⟨u, hu, hd⟩ := h.pending w g hg
      exact ⟨u, husers w g u hu, hd⟩
    forksNoted := by
      intro O r g hin
      rcases hc.forksNew O r g hin with hin | rfl
      · exact noted_note (h.forksNoted O r g hin)
      · exact ⟨k, note_ledger.mpr (.inl ⟨rfl, rfl⟩)⟩
    deletedNoted := fun O r g hin => noted_note (h.deletedNoted O r g hin)
    mail := by
      intro e he
      rcases hM e he with he | hok
      · exact (h.mail e he).grows hg
      · exact hok
    task := fun v t ht => (h.task v t ht).grows hg }

end Birth

/-! ### Forks on the move -/

/-- A fork that has not arrived. -/
def InTransit (P : Place) : Prop :=
  (∃ o c, P = .prepared o c) ∨ ∃ p c, P = .carried p c

theorem InTransit.ne_spent (h : InTransit P) : P ≠ .spent := by
  rcases h with ⟨o, c, rfl⟩ | ⟨p, c, rfl⟩ <;> simp

theorem InTransit.ne_user (h : InTransit P) (w : WorkerId) : P ≠ .user w := by
  rcases h with ⟨o, c, rfl⟩ | ⟨p, c, rfl⟩ <;> simp

section Moved

variable {f : ForkId} {O : WorkerId} {r : RRefId} {d : Nat} {P Q : Place} {G' : ForkGraph}

theorem ledger_moved (hledger : G'.ledger = (G.note f ⟨O, r, d, Q⟩).ledger) {g : ForkId}
    {k : Fork} (hk : G.ledger g = some k) (hne : g ≠ f) : G'.ledger g = some k := by
  rw [hledger]
  exact note_ledger.mpr (.inr ⟨hne, hk⟩)

variable (hf : G.ledger f = some ⟨O, r, d, P⟩) (hP : InTransit P)
  (hledger : G'.ledger = (G.note f ⟨O, r, d, Q⟩).ledger)
include hf hP hledger

/-- Apart from the call that carries it, no message speaks about a fork in
transit. -/
theorem mailOk_moved (hknown : ∀ O r g, G.Known O r g → G'.Known O r g)
    (husers : ∀ w g u, g ≠ f → G.users w g = some u → G'.users w g = some u) {e : Mail}
    (he : MailOk G e) (hcall : ∀ c, e.body = .userCall c → c.forkId_ ≠ f) : MailOk G' e := by
  -- A fork whose place is not in transit is another one.
  have hne : ∀ g k, G.ledger g = some k → (k.place = .spent ∨ ∃ w, k.place = .user w) → g ≠ f := by
    rintro g k hk hplace rfl
    rw [hf] at hk
    cases hk
    rcases hplace with hs | ⟨w, hw⟩
    · exact hP.ne_spent hs
    · exact hP.ne_user w hw
  have hstay : ∀ g k, G.ledger g = some k → (k.place = .spent ∨ ∃ w, k.place = .user w) →
      G'.ledger g = some k := fun g k hk hplace => ledger_moved hledger hk (hne g k hk hplace)
  obtain ⟨src, dst, body⟩ := e
  cases body with
  | remoteCall r' g =>
    intro hrg
    obtain ⟨hr, d', hg⟩ := he hrg
    have hrf : r' ≠ f := by
      rintro rfl
      rw [hf] at hr
      cases hr
    refine ⟨?_, d', hstay g _ hg (.inr ⟨src, rfl⟩)⟩
    simp [hledger, ForkGraph.note, hrf, hr]
  | remoteRet r' g => trivial
  | userCall c =>
    obtain ⟨hp, d', hc⟩ := he
    exact ⟨hp, d', ledger_moved hledger hc (hcall c rfl)⟩
  | rrefFetchCall r' => trivial
  | rrefForkRequest r' g =>
    obtain ⟨d', hg⟩ := he
    exact ⟨d', hstay g _ hg (.inr ⟨src, rfl⟩)⟩
  | rrefAck r' g =>
    obtain ⟨hk, d', hg⟩ := he
    exact ⟨hknown _ _ _ hk, d', hstay g _ hg (.inr ⟨dst, rfl⟩)⟩
  | rrefChildAccept g =>
    obtain ⟨O', r', d', R, hg, hR⟩ := he
    refine ⟨O', r', d', R, hstay g _ hg (hR.imp_right fun h => ⟨h.choose, h.choose_spec.1⟩), ?_⟩
    refine hR.imp_right ?_
    rintro ⟨w, hw, hk⟩
    exact ⟨w, hw, hknown _ _ _ hk⟩
  | rrefUserDelete r' g =>
    obtain ⟨⟨d', hg⟩, u, hu, hdel⟩ := he
    have hgf := hne g _ hg (.inr ⟨src, rfl⟩)
    exact ⟨⟨d', ledger_moved hledger hg hgf⟩, u, husers src g u hgf hu, hdel⟩

/-- Apart from the handler that sends it, no task speaks about a fork in
transit. -/
theorem taskOk_moved {w : WorkerId} {t : Task}
    (ht : TaskOk G w t)
    (hprep : ∀ o c callee, t = .prepareChildFork o c callee → c.forkId_ ≠ f) :
    TaskOk G' w t := by
  have hne : ∀ g k, G.ledger g = some k → (k.place = .spent ∨ ∃ w, k.place = .user w) → g ≠ f := by
    rintro g k hk hplace rfl
    rw [hf] at hk
    cases hk
    rcases hplace with hs | ⟨v, hv⟩
    · exact hP.ne_spent hs
    · exact hP.ne_user v hv
  cases t with
  | assignOwnerRRef r' g o src =>
    obtain ⟨hr, d', hg⟩ := ht
    have hrf : r' ≠ f := by
      rintro rfl
      rw [hf] at hr
      cases hr
    refine ⟨?_, d', ledger_moved hledger hg (hne g _ hg (.inr ⟨src, rfl⟩))⟩
    simp [hledger, ForkGraph.note, hrf, hr]
  | setValue r' g o src => trivial
  | prepareChildFork o c callee =>
    obtain ⟨ho, hp, d', hc⟩ := ht
    exact ⟨ho, hp, d', ledger_moved hledger hc (hprep o c callee rfl)⟩
  | notifySelf r' g =>
    obtain ⟨d', hg⟩ := ht
    exact ⟨d', ledger_moved hledger hg (hne g _ hg (.inl rfl))⟩
  | confirmPendingUser g => trivial
  | finishCreatingOwnerRRef r' =>
    obtain ⟨d', hr⟩ := ht
    exact ⟨d', ledger_moved hledger hr (hne r' _ hr (.inl rfl))⟩

end Moved

end Tracks

end PyTorchCore.RRef
