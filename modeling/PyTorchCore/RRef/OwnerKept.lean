import PyTorchCore.RRef.TracksSteps

/-!
# The owner keeps its OwnerRRef

A fork is an anchor of its RRef when the owner has registered it and has not deleted it.
-/

namespace PyTorchCore.RRef

open Lib

namespace ForkGraph

variable (G : ForkGraph)

/-- Some fork of the RRef has left the owner, is registered and has not been
deleted. -/
def Anchored (O : WorkerId) (r : RRefId) : Prop :=
  ∃ f d P, G.ledger f = some ⟨O, r, d, P⟩ ∧ (∀ o c, P ≠ .prepared o c) ∧
    f ∈ G.forks O r ∧ (r, f) ∉ G.deleted O

end ForkGraph

structure OwnerKept (G : ForkGraph) : Prop where
  anchored : ∀ O r, G.Anchored O r → G.CreationPending O r ∨ G.owners O r ≠ none
  assigning : ∀ O r, G.Assigning O r → G.owners O r ≠ none

section Anchor

variable {G : ForkGraph}

theorem not_deleted_of_alive (h : Tracks G) {O p : WorkerId} {r : RRefId} {d : Nat} {g : ForkId}
    {u : Holder} (hg : G.ledger g = some ⟨O, r, d, .user p⟩) (hu : G.users p g = some u)
    (hd : u.deleted = false) : (r, g) ∉ G.deleted O := by
  intro hdel
  obtain ⟨u', hu', hd'⟩ := h.gone g O r d p hdel hg
  rw [hu] at hu'
  cases hu'
  rw [hd] at hd'
  cases hd'

theorem exists_anchor (h : Tracks G) {O : WorkerId} {r : RRefId} (d : Nat) :
    ∀ w f, G.ledger f = some ⟨O, r, d, .user w⟩ → (r, f) ∉ G.deleted O →
      G.CreationPending O r ∨ G.Anchored O r := by
  -- Induction on the distance from the root.
  induction d using Nat.strong_induction_on with
  | _ d ih =>
    intro w f hf hnot
    rcases h.unknown w f O r d hf with hkn | ⟨p, g, hg⟩ | ⟨hne, hm⟩ | ⟨o, ho⟩
    · right
      exact ⟨f, d, _, hf, by simp, hkn.resolve_right hnot, hnot⟩
    · obtain ⟨O', r', d1, d2, P, u, hf', hg', hlt, hu, hd⟩ := h.child p f g hg
      rw [hf] at hf'
      cases hf'
      exact ih d2 hlt p g hg' (not_deleted_of_alive h hg' hu hd)
    · exact .inl (.inl ⟨w, f, hne, hm⟩)
    · exact .inl (.inr ⟨f, o, w, ho⟩)

theorem OwnerKept.present (h : Tracks G) (ho : OwnerKept G) {w : WorkerId} {f : ForkId}
    {u : Holder} (hu : G.users w f = some u) (hnot : (u.rref, f) ∉ G.deleted u.owner)
    (hcall : ¬G.CreationPending u.owner u.rref) : G.owners u.owner u.rref ≠ none := by
  obtain ⟨d, hf⟩ := h.user w f u hu
  have hanchor := (exists_anchor h d w f hf hnot).resolve_left hcall
  exact (ho.anchored _ _ hanchor).resolve_left hcall

end Anchor

namespace OwnerKept

variable {G G' : ForkGraph}

/-- The invariant survives when no owner entry is lost and what is new has an
owner entry. -/
theorem of_mono (ho : OwnerKept G) (howners : ∀ O r, G.owners O r ≠ none → G'.owners O r ≠ none)
    (hanchor : ∀ O r, G'.Anchored O r →
      (G.CreationPending O r ∨ G.Anchored O r) ∨ G'.CreationPending O r ∨ G'.owners O r ≠ none)
    (hcall : ∀ O r, G.CreationPending O r → G'.CreationPending O r ∨ G'.owners O r ≠ none)
    (hassign : ∀ O r, G'.Assigning O r → G.Assigning O r ∨ G'.owners O r ≠ none) :
    OwnerKept G' where
  anchored := by
    intro O r ha
    rcases hanchor O r ha with (hc | ha) | hdone
    · exact hcall O r hc
    · rcases ho.anchored O r ha with hc | hown
      · exact hcall O r hc
      · exact .inr (howners O r hown)
    · exact hdone
  assigning := by
    intro O r ha
    rcases hassign O r ha with ha | hown
    · exact howners O r (ho.assigning O r ha)
    · exact hown

variable {r : RRefId} {w : WorkerId} {O : WorkerId} {t : Task} {f : ForkId}

/-- A fork may go unless it is the last one of an assignment. -/
theorem delFork (ho : OwnerKept G)
    (hsafe : G.Assigning w r → G.forks w r ≠ {f}) : OwnerKept (G.delFork w r f) := by
  have hanchor : ∀ O s, (G.delFork w r f).Anchored O s → G.Anchored O s := by
    rintro O s ⟨g, d, P, hg, hP, hin, hnot⟩
    refine ⟨g, d, P, hg, hP, (Tracks.mem_delFork.mp hin).1, fun hdel => hnot ?_⟩
    exact Tracks.mem_delFork_deleted.mpr (.inr hdel)
  by_cases hlast : G.forks w r = {f}
  · have howners : ∀ O s, ¬(O = w ∧ s = r) →
        (G.delFork w r f).owners O s = G.owners O s := by
      intro O s hne
      simp [ForkGraph.delFork, hlast, put_apply, hne]
    -- The last fork is gone, so nothing anchors the RRef any more.
    have hempty : ¬(G.delFork w r f).Anchored w r := by
      rintro ⟨g, d, P, -, -, hin, -⟩
      obtain ⟨hin, hne⟩ := Tracks.mem_delFork.mp hin
      rw [hlast, Finset.mem_singleton] at hin
      exact hne ⟨rfl, rfl, hin⟩
    exact {
      anchored := by
        intro O s ha
        have hne : ¬(O = w ∧ s = r) := by
          rintro ⟨rfl, rfl⟩
          exact hempty ha
        rw [howners O s hne]
        exact ho.anchored O s (hanchor O s ha)
      assigning := by
        intro O s ha
        have hne : ¬(O = w ∧ s = r) := by
          rintro ⟨rfl, rfl⟩
          exact hsafe ha hlast
        rw [howners O s hne]
        exact ho.assigning O s ha }
  · have howners : (G.delFork w r f).owners = G.owners := by
      simp [ForkGraph.delFork, hlast]
    refine ho.of_mono ?_ (fun O s ha => .inl (.inr (hanchor O s ha))) ?_ ?_
    · intro O s hs
      rw [howners]
      exact hs
    · exact fun O s hc => .inl hc
    · exact fun O s ha => .inl ha

/-! ### Changes that keep the entries of `owners_` -/

theorem creationPending_send {e : Mail}
    (h : G.CreationPending O r) : (G.send e).CreationPending O r := by
  rcases h with ⟨src, f, hne, hm⟩ | ha
  · exact .inl ⟨src, f, hne, Finset.mem_insert_of_mem hm⟩
  · exact .inr ha

theorem creationPending_take {e : Mail} (he : ∀ src O r f, r ≠ f → e ≠ ⟨src, O, .remoteCall r f⟩)
    (h : G.CreationPending O r) : (G.take e).CreationPending O r := by
  rcases h with ⟨src, f, hne, hm⟩ | ha
  · exact .inl ⟨src, f, hne, Finset.mem_erase.mpr ⟨(he src O r f hne).symm, hm⟩⟩
  · exact .inr ha

theorem creationPending_addTask
    (h : G.CreationPending O r) : (G.addTask w t).CreationPending O r := by
  rcases h with hm | ⟨f, o, src, ha⟩
  · exact .inl hm
  · exact .inr ⟨f, o, src, Tracks.mem_addTask.mpr (.inr ha)⟩

theorem creationPending_endTask (ht : ∀ r f o src, t ≠ .assignOwnerRRef r f o src)
    (h : G.CreationPending O r) : (G.endTask w t).CreationPending O r := by
  rcases h with hm | ⟨f, o, src, ha⟩
  · exact .inl hm
  · exact .inr ⟨f, o, src, Tracks.mem_endTask.mpr ⟨ha, fun hc => ht r f o src hc.2.symm⟩⟩

theorem assigning_addTask (ht : ∀ r f o src, t ≠ .assignOwnerRRef r f o src)
    (h : (G.addTask w t).Assigning O r) : G.Assigning O r := by
  obtain ⟨f, o, src, ha⟩ := h
  rcases Tracks.mem_addTask.mp ha with ⟨-, heq⟩ | ha
  · exact absurd heq.symm (ht r f o src)
  · exact ⟨f, o, src, ha⟩

theorem assigning_endTask (h : (G.endTask w t).Assigning O r) : G.Assigning O r := by
  obtain ⟨f, o, src, ha⟩ := h
  exact ⟨f, o, src, (Tracks.mem_endTask.mp ha).1⟩

theorem send (ho : OwnerKept G) (e : Mail) : OwnerKept (G.send e) :=
  ho.of_mono (fun _ _ hs => hs) (fun _ _ ha => .inl (.inr ha))
    (fun _ _ hc => .inl (creationPending_send hc)) (fun _ _ ha => .inl ha)

theorem take (ho : OwnerKept G) {e : Mail}
    (he : ∀ src O r f, r ≠ f → e ≠ ⟨src, O, .remoteCall r f⟩) : OwnerKept (G.take e) :=
  ho.of_mono (fun _ _ hs => hs) (fun _ _ ha => .inl (.inr ha))
    (fun _ _ hc => .inl (creationPending_take he hc)) (fun _ _ ha => .inl ha)

theorem addTask (ho : OwnerKept G) (w : WorkerId)
    (ht : ∀ r f o src, t ≠ .assignOwnerRRef r f o src) : OwnerKept (G.addTask w t) :=
  ho.of_mono (fun _ _ hs => hs) (fun _ _ ha => .inl (.inr ha))
    (fun _ _ hc => .inl (creationPending_addTask hc))
    (fun _ _ ha => .inl (assigning_addTask ht ha))

theorem endTask (ho : OwnerKept G) (w : WorkerId)
    (ht : ∀ r f o src, t ≠ .assignOwnerRRef r f o src) : OwnerKept (G.endTask w t) :=
  ho.of_mono (fun _ _ hs => hs) (fun _ _ ha => .inl (.inr ha))
    (fun _ _ hc => .inl (creationPending_endTask ht hc))
    (fun _ _ ha => .inl (assigning_endTask ha))

theorem owners_setOwner {w O : WorkerId} {r s : RRefId} {o : Nat} :
    (G.setOwner w r o).owners O s = if O = w ∧ s = r then some o else G.owners O s := by
  simp [ForkGraph.setOwner, put_apply]

theorem setOwner (ho : OwnerKept G) (w : WorkerId) (r : RRefId) (o : Nat) :
    OwnerKept (G.setOwner w r o) := by
  refine ho.of_mono ?_ (fun _ _ ha => .inl (.inr ha)) (fun _ _ hc => .inl hc)
    (fun _ _ ha => .inl ha)
  intro O s hs
  rw [owners_setOwner]
  split
  · simp
  · exact hs

theorem ensureOwner (ho : OwnerKept G) (w : WorkerId) (r : RRefId) :
    OwnerKept (G.ensureOwner w r) :=
  let h := ho.setOwner w r (G.ownerOr w r)
  ⟨h.anchored, h.assigning⟩

/-- A fork that is noted brings no anchor, or one whose RRef has an anchor or an
owner entry already. -/
theorem note (ho : OwnerKept G) {k : Fork}
    (hk : (∀ o c, k.place ≠ .prepared o c) → f ∈ G.forks k.owner k.rref →
      (k.rref, f) ∉ G.deleted k.owner →
      (G.CreationPending k.owner k.rref ∨ G.Anchored k.owner k.rref) ∨
        G.owners k.owner k.rref ≠ none) : OwnerKept (G.note f k) := by
  refine ho.of_mono (fun _ _ hs => hs) ?_ (fun _ _ hc => .inl hc) (fun _ _ ha => .inl ha)
  rintro O r ⟨g, d, P, hg, hP, hin, hnot⟩
  rcases Tracks.note_ledger.mp hg with ⟨rfl, rfl⟩ | ⟨-, hg⟩
  · exact (hk hP hin hnot).imp_right .inr
  · exact .inl (.inr ⟨g, d, P, hg, hP, hin, hnot⟩)

/-- A new fork is anchored, or its owner was created. -/
theorem addFork (ho : OwnerKept G)
    (hk : ∀ d P, G.ledger f = some ⟨w, r, d, P⟩ → (∀ o c, P ≠ .prepared o c) →
      (r, f) ∉ G.deleted w →
      (G.CreationPending w r ∨ G.Anchored w r) ∨ G.owners w r ≠ none) :
    OwnerKept (G.addFork w r f) := by
  refine ho.of_mono (fun _ _ hs => hs) ?_ (fun _ _ hc => .inl hc) (fun _ _ ha => .inl ha)
  rintro O s ⟨g, d, P, hg, hP, hin, hnot⟩
  rcases Tracks.mem_addFork.mp hin with ⟨rfl, rfl, rfl⟩ | hin
  · exact (hk d P hg hP hnot).imp_right .inr
  · exact .inl (.inr ⟨g, d, P, hg, hP, hin, hnot⟩)

/-- A remote call creates the owner it assigns. -/
theorem remoteCall (ho : OwnerKept G) {src O : WorkerId} :
    OwnerKept (((G.take ⟨src, O, .remoteCall r f⟩).ensureOwner O r).addTask O
      (.assignOwnerRRef r f (G.ownerOr O r) src)) := by
  have hown := ho.ensureOwner O r
  refine hown.of_mono (fun _ _ hs => hs) (fun _ _ ha => .inl (.inr ha)) ?_ ?_
  · rintro O' r' (⟨src', f', hne, hm⟩ | ⟨f', o', src', ha⟩)
    · by_cases heq : (⟨src', O', .remoteCall r' f'⟩ : Mail) = ⟨src, O, .remoteCall r f⟩
      · simp only [Envelope.mk.injEq, Message.remoteCall.injEq] at heq
        obtain ⟨rfl, rfl, rfl, rfl⟩ := heq
        exact .inl (.inr ⟨f', _, src', Tracks.mem_addTask.mpr (.inl ⟨rfl, rfl⟩)⟩)
      · exact .inl (.inl ⟨src', f', hne, Finset.mem_erase.mpr ⟨heq, hm⟩⟩)
    · exact .inl (.inr ⟨f', o', src', Tracks.mem_addTask.mpr (.inr ha)⟩)
  · rintro O' r' ⟨f', o', src', ha⟩
    rcases Tracks.mem_addTask.mp ha with ⟨rfl, heq⟩ | ha
    · simp only [Task.assignOwnerRRef.injEq] at heq
      obtain ⟨rfl, -⟩ := heq
      exact .inr (by simp [ForkGraph.addTask, ForkGraph.ensureOwner])
    · exact .inl ⟨f', o', src', ha⟩

theorem endAssign (ho : OwnerKept G) {O src : WorkerId} {o : Nat}
    (ht : .assignOwnerRRef r f o src ∈ G.tasks O) :
    OwnerKept (G.endTask O (.assignOwnerRRef r f o src)) := by
  refine ho.of_mono (fun _ _ hs => hs) (fun _ _ ha => .inl (.inr ha)) ?_
    (fun _ _ ha => .inl (assigning_endTask ha))
  intro O' r' hc
  by_cases hsame : O' = O ∧ r' = r
  · obtain ⟨rfl, rfl⟩ := hsame
    exact .inr (ho.assigning O' r' ⟨f, o, src, ht⟩)
  · left
    rcases hc with hm | ⟨f', o', src', ha⟩
    · exact .inl hm
    · refine .inr ⟨f', o', src', Tracks.mem_endTask.mpr ⟨ha, ?_⟩⟩
      rintro ⟨rfl, heq⟩
      simp only [Task.assignOwnerRRef.injEq] at heq
      exact hsame ⟨rfl, heq.1⟩

theorem remote (ho : OwnerKept G) (w O : WorkerId) :
    OwnerKept (((G.send ⟨w, O, .remoteCall ⟨w, G.next w⟩ ⟨w, G.next w + 1⟩⟩).addTask w
      (.confirmPendingUser ⟨w, G.next w + 1⟩)).note ⟨w, G.next w + 1⟩
        ⟨O, ⟨w, G.next w⟩, 0, .user w⟩) := by
  refine ((ho.send _).addTask w (by simp)).note fun _ _ _ => ?_
  exact .inl (.inl (.inl ⟨w, ⟨w, G.next w + 1⟩, by simp, Finset.mem_insert_self _ _⟩))

theorem remoteSelf (ho : OwnerKept G) (w : WorkerId) (o : Nat) :
    OwnerKept (((((G.setOwner w ⟨w, G.next w⟩ o).addFork w ⟨w, G.next w⟩ ⟨w, G.next w⟩).addTask w
      (.finishCreatingOwnerRRef ⟨w, G.next w⟩)).send
        ⟨w, w, .remoteCall ⟨w, G.next w⟩ ⟨w, G.next w⟩⟩).note ⟨w, G.next w⟩
          ⟨w, ⟨w, G.next w⟩, 0, .spent⟩) := by
  have hown : (G.setOwner w ⟨w, G.next w⟩ o).owners w ⟨w, G.next w⟩ ≠ none := by
    simp [ForkGraph.setOwner]
  have hadd := (ho.setOwner w ⟨w, G.next w⟩ o).addFork (f := ⟨w, G.next w⟩)
    fun _ _ _ _ _ => .inr hown
  exact ((hadd.addTask w (by simp)).send _).note fun _ _ _ => .inr hown

/-- The parent of a new fork is alive, so there is an anchor above it. -/
theorem forkUser (h : Tracks G) (ho : OwnerKept G) {u : Holder} {k : Fork}
    (hu : G.users w f = some u) (hd : u.deleted = false) (callee : WorkerId) :
    OwnerKept ((G.note ⟨w, G.next w⟩
      ⟨u.owner, u.rref, k.depth + 1, .carried w callee⟩).send
        ⟨w, callee, .userCall ⟨u.owner, u.rref, ⟨w, G.next w⟩, w⟩⟩) := by
  obtain ⟨d, hf⟩ := h.user w f u hu
  have hanchor := exists_anchor h d w f hf (not_deleted_of_alive h hf hu hd)
  exact (ho.note fun _ _ _ => .inl hanchor).send _

theorem forkOwner (ho : OwnerKept G) (w callee : WorkerId) (o : Nat) (r : RRefId) :
    OwnerKept (((G.note ⟨w, G.next w⟩ ⟨w, r, 0, .prepared o callee⟩).addFork w r
      ⟨w, G.next w⟩).addTask w (.prepareChildFork o ⟨w, r, ⟨w, G.next w⟩, w⟩ callee)) := by
  refine ((ho.note fun hP => absurd rfl (hP o callee)).addFork fun d P hP hne _ => ?_).addTask w
    (by simp)
  rcases Tracks.note_ledger.mp hP with ⟨-, heq⟩ | ⟨hf, -⟩
  · simp only [Fork.mk.injEq] at heq
    exact absurd heq.2.2.2 (hne o callee)
  · exact absurd rfl hf

theorem forkRequest (h : Tracks G) (ho : OwnerKept G) {src : WorkerId}
    (he : (⟨src, O, .rrefForkRequest r f⟩ : Mail) ∈ G.mail) : OwnerKept (G.addFork O r f) := by
  obtain ⟨d, hf⟩ := h.mail _ he
  exact ho.addFork fun _ _ _ _ hnot => .inl (exists_anchor h d src f hf hnot)

/-- A fork that a user received hangs below an anchor, as it did on its way. -/
theorem received (h : Tracks G) {src : WorkerId} {c : RRefForkData}
    {k : Fork} (he : (⟨src, w, .userCall c⟩ : Mail) ∈ G.mail) (hk : G.ledger c.forkId_ = some k)
    (ho : OwnerKept (G.take ⟨src, w, .userCall c⟩)) :
    OwnerKept ((G.take ⟨src, w, .userCall c⟩).note c.forkId_ { k with place := .user w }) := by
  obtain ⟨-, d, hf⟩ := h.mail _ he
  obtain rfl : k = _ := Option.some.inj (hk.symm.trans hf)
  exact ho.note fun _ hin hnot => .inl (.inr ⟨c.forkId_, d, _, hf, by simp, hin, hnot⟩)

end OwnerKept

/-- Every step keeps the invariant of the owner, unless it deletes the last fork
between the two critical sections of `assignOwnerRRef`. -/
theorem Step.ownerKept {G G' : ForkGraph} {l : Label} (hs : Step G l G') (h : Tracks G)
    (ho : OwnerKept G)
    (hsafe : ∀ O r f, l = .delete O r f → G.Assigning O r → G.forks O r ≠ {f}) :
    OwnerKept G' := by
  cases hs with
  | idle => exact ho
  | @remote w O hne => exact ⟨(ho.remote w O).anchored, (ho.remote w O).assigning⟩
  | @remoteSelf w =>
    have hnext := ho.remoteSelf w (G.objects w).length
    exact ⟨hnext.anchored, hnext.assigning⟩
  | @createOwner w => exact ⟨ho.anchored, ho.assigning⟩
  | @forkUser w callee f u k hu hd hk =>
    have hnext := ho.forkUser h (k := k) hu hd callee
    exact ⟨hnext.anchored, hnext.assigning⟩
  | @forkOwner w callee o r hobj =>
    exact ⟨(ho.forkOwner w callee o r).anchored, (ho.forkOwner w callee o r).assigning⟩
  | @publish w callee o c k ht hk =>
    obtain ⟨-, -, d, hf⟩ := h.task w _ ht
    obtain rfl : k = _ := Option.some.inj (hk.symm.trans hf)
    have h1 := (ho.endTask w (t := .prepareChildFork o c callee) (by simp)).setOwner w c.rrefId_ o
    have h2 := h1.send ⟨w, callee, .userCall c⟩
    refine h2.note fun _ _ _ => .inr ?_
    simp [ForkGraph.setOwner, ForkGraph.send]
  | @assign w caller r f o ht hf =>
    have hown := ho.assigning w r ⟨f, o, caller, ht⟩
    have h1 := (ho.endAssign ht).addFork (w := w) (r := r) (f := f) (fun _ _ _ _ _ => .inr hown)
    exact h1.addTask w (by simp)
  | assignFails ht hf => exact ho.endAssign ht
  | setValue ht => exact (ho.endTask _ (by simp)).send _
  | notifySelf ht =>
    refine (ho.endTask _ (by simp)).delFork fun ha => ?_
    exact hsafe _ _ _ rfl (OwnerKept.assigning_endTask ha)
  | @release w f u hu hd hp hc =>
    have h1 := ho.send ⟨w, u.owner, .rrefUserDelete u.rref f⟩
    exact ⟨h1.anchored, h1.assigning⟩
  | @confirm w f =>
    have h1 := ho.endTask w (t := .confirmPendingUser f) (by simp)
    exact ⟨h1.anchored, h1.assigning⟩
  | selfTimesOut ht =>
    refine (ho.endTask _ (by simp)).delFork fun ha => ?_
    exact hsafe _ _ _ rfl (OwnerKept.assigning_endTask ha)
  | selfTimesOutFails ht hown => exact ho.endTask _ (by simp)
  | fetch => exact ho.send _
  | @remoteCall src O r f hne he => exact ho.remoteCall
  | remoteCallSelf hown => exact (ho.take (by simp +contextual)).addTask _ (by simp)
  | remoteCallSelfFails hown => exact ho.take (by simp +contextual)
  | remoteRetSelf ht =>
    refine ((ho.take (by simp)).endTask _ (by simp)).delFork fun ha => ?_
    exact hsafe _ _ _ rfl (OwnerKept.assigning_endTask ha)
  | remoteRet ht => exact ho.take (by simp)
  | @remoteRetUser src w r f =>
    have h1 := (ho.take (e := ⟨src, w, .remoteRet r f⟩) (by simp)).endTask w
      (t := .confirmPendingUser f) (by simp)
    exact ⟨h1.anchored, h1.assigning⟩
  | @userCallSelf src w c k he hown hp hk =>
    obtain ⟨-, d, hf⟩ := h.mail _ he
    obtain rfl : k = _ := Option.some.inj (hk.symm.trans hf)
    have h1 := (ho.take (e := ⟨src, w, .userCall c⟩) (by simp)).ensureOwner w c.rrefId_
    have h2 := h1.addTask w (t := .notifySelf c.rrefId_ c.forkId_) (by simp)
    refine h2.note fun _ _ _ => .inr ?_
    simp [ForkGraph.addTask, ForkGraph.ensureOwner, hown]
  | @userCallOwner src w c k he hown hp hk =>
    obtain ⟨-, d, hf⟩ := h.mail _ he
    obtain rfl : k = _ := Option.some.inj (hk.symm.trans hf)
    have h1 := (ho.take (e := ⟨src, w, .userCall c⟩) (by simp)).ensureOwner w c.rrefId_
    have h2 := h1.send ⟨w, c.parent_, .rrefChildAccept c.forkId_⟩
    refine h2.note fun _ _ _ => .inr ?_
    simp [ForkGraph.send, ForkGraph.ensureOwner, hown]
  | @userCallFromOwner src w c k he hown hp hk =>
    have hnext := OwnerKept.received h he hk (ho.take (by simp))
    exact ⟨hnext.anchored, hnext.assigning⟩
  | @userCall src w c k he hown hp hk =>
    have hnext := (OwnerKept.received h he hk (ho.take (by simp))).send
      ⟨w, c.ownerId_, .rrefForkRequest c.rrefId_ c.forkId_⟩
    exact ⟨hnext.anchored, hnext.assigning⟩
  | fetchCall => exact ho.take (by simp)
  | @forkRequest src O r f again he =>
    have hadd := ho.forkRequest h he
    split
    · exact hadd.send _
    · exact (hadd.take (e := ⟨src, O, .rrefForkRequest r f⟩) (by simp)).send _
  | @ack O w parent r f he =>
    have h1 := (ho.take (e := ⟨O, w, .rrefAck r f⟩) (by simp)).send ⟨w, parent, .rrefChildAccept f⟩
    exact ⟨h1.anchored, h1.assigning⟩
  | lateAck => exact ho.take (by simp)
  | @childAccept src p f again he =>
    split
    · exact ⟨ho.anchored, ho.assigning⟩
    · have h1 := ho.take (e := ⟨src, p, .rrefChildAccept f⟩) (by simp)
      exact ⟨h1.anchored, h1.assigning⟩
  | @userDelete src O r f again he =>
    split
    · exact ho.delFork (hsafe _ _ _ rfl)
    · exact (ho.take (e := ⟨src, O, .rrefUserDelete r f⟩) (by simp)).delFork (hsafe _ _ _ rfl)

end PyTorchCore.RRef
