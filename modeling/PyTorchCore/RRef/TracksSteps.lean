import PyTorchCore.RRef.Tracks

/-!
# Every step keeps the ledger

The changes that touch the ledger and the graph at once, and `Step.tracks`, which composes them
with the small changes of `Tracks`.
-/

namespace PyTorchCore.RRef

open Lib

namespace Tracks

variable {G : ForkGraph}

/-! ### Sending and arriving -/

section Arrival

variable {f : ForkId} {O : WorkerId} {r : RRefId} {d : Nat} {P Q : Place}
variable {U : WorkerId → ForkId → Option Holder} {T : WorkerId → Finset Task} {M : Finset Mail}

/-- What a fork that moves from one place to the next brings along. -/
structure Transfer (G : ForkGraph) (f : ForkId) (O : WorkerId) (r : RRefId) (Q : Place)
    (U : WorkerId → ForkId → Option Holder) (T : WorkerId → Finset Task) (M : Finset Mail) :
    Prop where
  users : ∀ w g, g ≠ f → U w g = G.users w g
  user : ∀ w u, U w f = some u → u.owner = O ∧ u.rref = r ∧ Q = .user w
  placed : ∀ w, Q = .user w → ∃ u, U w f = some u
  abroad : ∀ w u, U w f = some u → u.owner ≠ w
  sent : ∀ o c, Q ≠ .prepared o c
  carried : ∀ p c, Q = .carried p c → p = O ∧ f ∈ G.forks O r
  unknown : ∀ w, Q = .user w → G.Known O r f ∨ ∃ p g, (f, g) ∈ G.pendingChildren p
  mailKept : ∀ e ∈ G.mail, (∀ c, e.body ≠ .userCall c) → e ∈ M
  tasksKept : ∀ v, ∀ t ∈ G.tasks v, (∀ o c callee, t ≠ .prepareChildFork o c callee) → t ∈ T v
  tasks : ∀ v, ∀ t ∈ T v, t ∈ G.tasks v ∧
    ∀ o c callee, t = .prepareChildFork o c callee → c.forkId_ ≠ f

variable (h : Tracks G) (hf : G.ledger f = some ⟨O, r, d, P⟩) (hP : InTransit P)
include h hf hP

theorem not_deleted_of_inTransit : (r, f) ∉ G.deleted O := by
  rcases hP with ⟨o, c, rfl⟩ | ⟨p, c, rfl⟩
  · exact (h.prepared f O r d o c hf).2
  · by_cases hp : p = O
    · subst hp
      exact (h.carriedOwner f p r d c hf).2
    · exact (h.carriedUser f O r d p c hf hp).1

/-- A fork moves from one hand to the next. -/
theorem moved (ht : Transfer G f O r Q U T M)
    (hM : ∀ e ∈ M, (e ∈ G.mail ∧ ∀ c, e.body = .userCall c → c.forkId_ ≠ f) ∨
      MailOk { G.note f ⟨O, r, d, Q⟩ with users := U, tasks := T, mail := M } e) :
    Tracks { G.note f ⟨O, r, d, Q⟩ with users := U, tasks := T, mail := M } := by
  have hnot := h.not_deleted_of_inTransit hf hP
  have hr : r.localId_ < G.next r.createdOn_ := h.freshRRef f _ hf
  have hledger : ∀ g k, (G.note f ⟨O, r, d, Q⟩).ledger g = some k →
      (g = f ∧ k = ⟨O, r, d, Q⟩) ∨ (g ≠ f ∧ G.ledger g = some k) :=
    fun g k hk => note_ledger.mp hk
  have hstay : ∀ g k, G.ledger g = some k → g ≠ f →
      (G.note f ⟨O, r, d, Q⟩).ledger g = some k :=
    fun g k hk hne => note_ledger.mpr (.inr ⟨hne, hk⟩)
  -- A `UserRRef` is not in transit.
  have hplace : ∀ g O' r' d' w, G.ledger g = some ⟨O', r', d', .user w⟩ → g ≠ f := by
    rintro g O' r' d' w hk rfl
    rw [hf] at hk
    cases hk
    exact hP.ne_user w rfl
  have husers : ∀ w g u, g ≠ f → G.users w g = some u → U w g = some u := by
    intro w g u hne hu
    rw [ht.users w g hne]
    exact hu
  have huser : ∀ w g u, G.users w g = some u → U w g = some u := by
    intro w g u hu
    obtain ⟨d', hg⟩ := h.user w g u hu
    exact husers w g u (hplace g _ _ d' w hg) hu
  exact {
    fresh := h.fresh_note (h.fresh f _ hf)
    freshRRef := h.freshRRef_note (k := ⟨O, r, d, Q⟩) hr
    objects := h.objects
    user := by
      intro w g u hu
      by_cases hgf : g = f
      · subst hgf
        obtain ⟨rfl, rfl, rfl⟩ := ht.user w u hu
        exact ⟨d, note_ledger.mpr (.inl ⟨rfl, rfl⟩)⟩
      · have hu' : G.users w g = some u := by rw [← ht.users w g hgf]; exact hu
        obtain ⟨d', hg⟩ := h.user w g u hu'
        exact ⟨d', hstay g _ hg hgf⟩
    placed := by
      intro w g O' r' d' hk
      rcases hledger g _ hk with ⟨rfl, heq⟩ | ⟨-, hk⟩
      · simp only [Fork.mk.injEq] at heq
        exact ht.placed w heq.2.2.2.symm
      · obtain ⟨u, hu⟩ := h.placed w g O' r' d' hk
        exact ⟨u, huser w g u hu⟩
    abroad := by
      intro w g u hu
      by_cases hgf : g = f
      · subst hgf
        exact ht.abroad w u hu
      · exact h.abroad w g u (by rw [← ht.users w g hgf]; exact hu)
    prepared := by
      intro g O' r' d' o c hk
      rcases hledger g _ hk with ⟨-, heq⟩ | ⟨-, hk⟩
      · simp only [Fork.mk.injEq] at heq
        exact absurd heq.2.2.2.symm (ht.sent o c)
      · exact h.prepared g O' r' d' o c hk
    carriedOwner := by
      intro g O' r' d' c hk
      rcases hledger g _ hk with ⟨rfl, heq⟩ | ⟨-, hk⟩
      · simp only [Fork.mk.injEq] at heq
        obtain ⟨rfl, rfl, -, hQ⟩ := heq
        exact ⟨(ht.carried _ c hQ.symm).2, hnot⟩
      · exact h.carriedOwner g O' r' d' c hk
    carriedUser := by
      intro g O' r' d' p c hk hp
      rcases hledger g _ hk with ⟨-, heq⟩ | ⟨-, hk⟩
      · simp only [Fork.mk.injEq] at heq
        obtain ⟨rfl, -, -, hQ⟩ := heq
        exact absurd (ht.carried p c hQ.symm).1 hp
      · exact h.carriedUser g O' r' d' p c hk hp
    unknown := by
      intro w g O' r' d' hk
      rcases hledger g _ hk with ⟨rfl, heq⟩ | ⟨-, hk⟩
      · simp only [Fork.mk.injEq] at heq
        obtain ⟨rfl, rfl, -, hQ⟩ := heq
        rcases ht.unknown w hQ.symm with hkn | hch
        · exact .inl hkn
        · exact .inr (.inl hch)
      · rcases h.unknown w g O' r' d' hk with hkn | hch | ⟨hne, hm⟩ | ⟨o, ho⟩
        · exact .inl hkn
        · exact .inr (.inl hch)
        · exact .inr (.inr (.inl ⟨hne, ht.mailKept _ hm (by simp)⟩))
        · exact .inr (.inr (.inr ⟨o, ht.tasksKept O' _ ho (by simp)⟩))
    child := by
      intro p g g' hm
      obtain ⟨O', r', d1, d2, R, u, hg1, hg2, hlt, hu, hd⟩ := h.child p g g' hm
      have hg2' := hstay g' _ hg2 (hplace g' _ _ _ _ hg2)
      by_cases hgf : g = f
      · subst hgf
        rw [hf] at hg1
        cases hg1
        exact ⟨O, r, d, d2, Q, u, note_ledger.mpr (.inl ⟨rfl, rfl⟩), hg2', hlt,
          huser p g' u hu, hd⟩
      · exact ⟨O', r', d1, d2, R, u, hstay g _ hg1 hgf, hg2', hlt, huser p g' u hu, hd⟩
    gone := by
      intro g O' r' d' w hin hk
      rcases hledger g _ hk with ⟨rfl, heq⟩ | ⟨-, hk⟩
      · simp only [Fork.mk.injEq] at heq
        obtain ⟨rfl, rfl, -⟩ := heq
        exact absurd hin hnot
      · obtain ⟨u, hu, hd⟩ := h.gone g O' r' d' w hin hk
        exact ⟨u, huser w g u hu, hd⟩
    pending := by
      intro w g hg
      obtain ⟨u, hu, hd⟩ := h.pending w g hg
      exact ⟨u, huser w g u hu, hd⟩
    forksNoted := fun O r g hin => noted_note (h.forksNoted O r g hin)
    deletedNoted := fun O r g hin => noted_note (h.deletedNoted O r g hin)
    mail := by
      intro e he
      rcases hM e he with ⟨he, hc⟩ | hok
      · refine mailOk_moved (Q := Q) hf hP ?_ ?_ ?_ (h.mail e he) hc
        · rfl
        · exact fun _ _ _ hk => hk
        · exact husers
      · exact hok
    task := by
      intro v t hv
      obtain ⟨hv, hprep⟩ := ht.tasks v t hv
      exact taskOk_moved (Q := Q) hf hP rfl (h.task v t hv) hprep }

end Arrival

/-- The owner puts the `OwnerRRef` into `owners_` and sends the fork it has
registered. -/
theorem publish (h : Tracks G) {w callee : WorkerId} {o : Nat} {c : RRefForkData} {k : Fork}
    (ht : .prepareChildFork o c callee ∈ G.tasks w) (hk : G.ledger c.forkId_ = some k) :
    Tracks (((G.endTask w (.prepareChildFork o c callee)).send ⟨w, callee, .userCall c⟩).note
      c.forkId_ { k with place := .carried w callee }) := by
  obtain ⟨hO, hp, d, hf⟩ := h.task w _ ht
  obtain rfl : k = _ := Option.some.inj (hk.symm.trans hf)
  have hreg := (h.prepared _ _ _ _ _ _ hf).1
  refine h.moved hf (.inl ⟨o, callee, rfl⟩)
    (Q := .carried w callee) (U := G.users)
    (T := (G.endTask w (.prepareChildFork o c callee)).tasks)
    (M := insert ⟨w, callee, .userCall c⟩ G.mail) ?_ ?_
  · exact {
      users := fun _ _ _ => rfl
      user := by
        intro v u hu
        obtain ⟨d', hd'⟩ := h.user v _ u hu
        rw [hf] at hd'
        simp at hd'
      placed := by simp
      abroad := fun v u hu => h.abroad v _ u hu
      sent := by simp
      carried := by
        intro p c' heq
        simp only [Place.carried.injEq] at heq
        exact ⟨heq.1.symm, hreg⟩
      unknown := by simp
      mailKept := fun e he _ => Finset.mem_insert_of_mem he
      tasksKept := fun v t hv hne => mem_endTask.mpr ⟨hv, fun hc => hne _ _ _ hc.2⟩
      tasks := by
        intro v t hv
        obtain ⟨hv, hne⟩ := mem_endTask.mp hv
        refine ⟨hv, ?_⟩
        -- The ledger determines the task that sends a fork.
        rintro o' c' callee' rfl heq
        obtain ⟨hO', hp', d', hf'⟩ := h.task v _ hv
        rw [heq, hf] at hf'
        simp only [Option.some.injEq, Fork.mk.injEq, Place.prepared.injEq] at hf'
        obtain ⟨rfl, hr, -, rfl, rfl⟩ := hf'
        apply hne
        refine ⟨rfl, ?_⟩
        obtain ⟨a1, a2, a3, a4⟩ := c
        obtain ⟨b1, b2, b3, b4⟩ := c'
        simp_all }
  · intro e he
    rcases Finset.mem_insert.mp he with rfl | he
    · right
      refine ⟨hp, d, ?_⟩
      rw [hO]
      exact note_ledger.mpr (.inl ⟨rfl, rfl⟩)
    · left
      refine ⟨he, fun c' hc' heq => ?_⟩
      obtain ⟨src, dst, body⟩ := e
      subst hc'
      obtain ⟨-, d', hf'⟩ := h.mail _ he
      rw [heq, hf] at hf'
      simp at hf'

section UserCall

variable {src w : WorkerId} {c : RRefForkData} {k : Fork}

variable (h : Tracks G) (he : (⟨src, w, .userCall c⟩ : Mail) ∈ G.mail)
include h he

theorem userCall_unique {e : Mail}
    (he' : e ∈ G.mail) {c' : RRefForkData} (hc' : e.body = .userCall c')
    (hf : c'.forkId_ = c.forkId_) : e = ⟨src, w, .userCall c⟩ := by
  obtain ⟨src', dst', body⟩ := e
  subst hc'
  obtain ⟨hp, d, hk⟩ := h.mail _ he
  obtain ⟨hp', d', hk'⟩ := h.mail _ he'
  obtain ⟨a1, a2, a3, a4⟩ := c
  obtain ⟨b1, b2, b3, b4⟩ := c'
  simp_all

theorem mail_arrival :
    ∀ e ∈ G.mail.erase ⟨src, w, .userCall c⟩,
      e ∈ G.mail ∧ ∀ c', e.body = .userCall c' → c'.forkId_ ≠ c.forkId_ := by
  intro e hm
  obtain ⟨hne, hm⟩ := Finset.mem_erase.mp hm
  exact ⟨hm, fun c' hc' hf => hne (h.userCall_unique he hm hc' hf)⟩

theorem prepare_ne_carried :
    ∀ v, ∀ t ∈ G.tasks v, t ∈ G.tasks v ∧
      ∀ o c' callee, t = .prepareChildFork o c' callee → c'.forkId_ ≠ c.forkId_ := by
  intro v t ht
  refine ⟨ht, ?_⟩
  rintro o c' callee rfl hf
  obtain ⟨-, d, hk⟩ := h.mail _ he
  obtain ⟨-, -, d', hk'⟩ := h.task v _ ht
  rw [hf, hk] at hk'
  simp at hk'

theorem arriveUser (hk : G.ledger c.forkId_ = some k) (ho : c.ownerId_ ≠ w) :
    Tracks (((G.take ⟨src, w, .userCall c⟩).setUser w c.forkId_
      ⟨c.ownerId_, c.rrefId_, false⟩).note c.forkId_ { k with place := .user w }) := by
  obtain ⟨hp, d, hf⟩ := h.mail _ he
  obtain rfl : k = _ := Option.some.inj (hk.symm.trans hf)
  have hfresh : ∀ v, G.users v c.forkId_ = none := by
    intro v
    cases hu : G.users v c.forkId_ with
    | none => rfl
    | some u =>
      obtain ⟨d', hd'⟩ := h.user v _ u hu
      rw [hf] at hd'
      simp at hd'
  refine h.moved hf (.inr ⟨src, w, rfl⟩) (Q := .user w)
    (U := put G.users w c.forkId_ (some ⟨c.ownerId_, c.rrefId_, false⟩)) (T := G.tasks)
    (M := G.mail.erase ⟨src, w, .userCall c⟩) ?_ (fun e hm => .inl (h.mail_arrival he e hm))
  exact {
    users := by
      intro v g hg
      simp [put_apply, hg]
    user := by
      intro v u hu
      rw [put_apply] at hu
      split at hu
      · rename_i hv
        cases hu
        exact ⟨rfl, rfl, by rw [hv.1]⟩
      · rw [hfresh v] at hu
        cases hu
    placed := by
      intro v hv
      obtain rfl : w = v := by simpa using hv
      exact ⟨_, put_same _ _ _ _⟩
    abroad := by
      intro v u hu
      rw [put_apply] at hu
      split at hu
      · rename_i hv
        cases hu
        rw [hv.1]
        exact ho
      · rw [hfresh v] at hu
        cases hu
    sent := by simp
    carried := by simp
    unknown := by
      intro v _
      by_cases hO : src = c.ownerId_
      · rw [hO] at hf
        exact .inl (.inl (h.carriedOwner _ _ _ _ _ hf).1)
      · obtain ⟨-, g, hg⟩ := h.carriedUser _ _ _ _ _ _ hf hO
        exact .inr ⟨src, g, hg⟩
    mailKept := fun e hm hne =>
      Finset.mem_erase.mpr ⟨fun heq => hne c (by rw [heq]), hm⟩
    tasksKept := fun v t ht _ => ht
    tasks := h.prepare_ne_carried he }

theorem arriveOwner (hk : G.ledger c.forkId_ = some k) :
    Tracks ((G.take ⟨src, w, .userCall c⟩).note c.forkId_ { k with place := .spent }) := by
  obtain ⟨hp, d, hf⟩ := h.mail _ he
  obtain rfl : k = _ := Option.some.inj (hk.symm.trans hf)
  refine h.moved hf (.inr ⟨src, w, rfl⟩) (Q := .spent) (U := G.users) (T := G.tasks)
    (M := G.mail.erase ⟨src, w, .userCall c⟩) ?_ (fun e hm => .inl (h.mail_arrival he e hm))
  exact {
    users := fun _ _ _ => rfl
    user := by
      intro v u hu
      obtain ⟨d', hd'⟩ := h.user v _ u hu
      rw [hf] at hd'
      simp at hd'
    placed := by simp
    abroad := fun v u hu => h.abroad v _ u hu
    sent := by simp
    carried := by simp
    unknown := by simp
    mailKept := fun e hm hne =>
      Finset.mem_erase.mpr ⟨fun heq => hne c (by rw [heq]), hm⟩
    tasksKept := fun v t ht _ => ht
    tasks := h.prepare_ne_carried he }

end UserCall

/-! ### Deletion, and the creating call -/

variable {f : ForkId} {r : RRefId}

theorem deletable_of_spent {w : WorkerId} {r s : RRefId} {d : Nat}
    (hf : G.ledger f = some ⟨w, s, d, .spent⟩) : Deletable G w r f := by
  intro d' P hP
  rw [hf] at hP
  simp only [Option.some.injEq, Fork.mk.injEq] at hP
  exact .inl hP.2.2.2.symm

/-- A user that nobody waits for is released. -/
theorem release (h : Tracks G) {w : WorkerId} {u : Holder}
    (hu : G.users w f = some u) (hp : f ∉ G.pendingUsers w)
    (hc : ∀ e ∈ G.pendingChildren w, e.2 ≠ f) :
    Tracks ((G.setUser w f { u with deleted := true }).send
      ⟨w, u.owner, .rrefUserDelete u.rref f⟩) := by
  obtain ⟨d, hf⟩ := h.user w f u hu
  have husers : ∀ v g u', G.users v g = some u' → ∃ u'', put G.users w f
      (some { u with deleted := true }) v g = some u'' ∧ u''.owner = u'.owner ∧
      u''.rref = u'.rref ∧ (u'.deleted = true → u''.deleted = true) := by
    intro v g u' hu'
    rw [put_apply]
    split
    · rename_i hv
      obtain ⟨rfl, rfl⟩ := hv
      rw [hu] at hu'
      cases hu'
      exact ⟨_, rfl, rfl, rfl, fun _ => rfl⟩
    · exact ⟨u', hu', rfl, rfl, id⟩
  have hg : Grows G (G.setUser w f { u with deleted := true }) :=
    Grows.of_ledger rfl (fun _ _ _ hk => hk) (fun v g u' hu' hd => by
      obtain ⟨u'', hu'', -, -, himp⟩ := husers v g u' hu'
      exact ⟨u'', hu'', himp hd⟩)
  have hset : Tracks (G.setUser w f { u with deleted := true }) := { h with
    user := by
      intro v g u' hu'
      simp only [ForkGraph.setUser, put_apply] at hu'
      split at hu'
      · rename_i hv
        obtain ⟨rfl, rfl⟩ := hv
        cases hu'
        exact ⟨d, hf⟩
      · exact h.user v g u' hu'
    placed := by
      intro v g O r d' hk
      obtain ⟨u', hu'⟩ := h.placed v g O r d' hk
      obtain ⟨u'', hu'', -⟩ := husers v g u' hu'
      exact ⟨u'', hu''⟩
    abroad := by
      intro v g u' hu'
      simp only [ForkGraph.setUser, put_apply] at hu'
      split at hu'
      · rename_i hv
        obtain ⟨rfl, rfl⟩ := hv
        cases hu'
        exact h.abroad v g u hu
      · exact h.abroad v g u' hu'
    child := by
      intro p g g' hm
      obtain ⟨O, r, d1, d2, P, u', hg1, hg2, hlt, hu', hd⟩ := h.child p g g' hm
      refine ⟨O, r, d1, d2, P, u', hg1, hg2, hlt, ?_, hd⟩
      simp only [ForkGraph.setUser, put_apply]
      split
      · -- A parent of a pending child is referenced.
        rename_i hv
        obtain ⟨rfl, rfl⟩ := hv
        exact absurd rfl (hc _ hm)
      · exact hu'
    gone := by
      intro g O r d' v hin hk
      obtain ⟨u', hu', hd⟩ := h.gone g O r d' v hin hk
      obtain ⟨u'', hu'', -, -, himp⟩ := husers v g u' hu'
      exact ⟨u'', hu'', himp hd⟩
    pending := by
      intro v g hg
      obtain ⟨u', hu', hd⟩ := h.pending v g hg
      refine ⟨u', ?_, hd⟩
      simp only [ForkGraph.setUser, put_apply]
      split
      · rename_i hv
        obtain ⟨rfl, rfl⟩ := hv
        exact absurd hg hp
      · exact hu'
    mail := fun e he => (h.mail e he).grows hg
    task := fun v t ht => (h.task v t ht).grows hg }
  refine hset.send ⟨⟨d, hf⟩, { u with deleted := true }, ?_, rfl⟩
  exact put_same _ _ _ _

/-- The owner takes up a remote call. -/
theorem remoteCall (h : Tracks G) {src O : WorkerId} (hne : r ≠ f)
    (he : (⟨src, O, .remoteCall r f⟩ : Mail) ∈ G.mail) (o : Nat) :
    Tracks ((G.take ⟨src, O, .remoteCall r f⟩).addTask O (.assignOwnerRRef r f o src)) :=
  { h with
    unknown := by
      intro w g O' r' d hk
      rcases h.unknown w g O' r' d hk with hkn | hch | ⟨hne', hm⟩ | ⟨o', ho'⟩
      · exact .inl hkn
      · exact .inr (.inl hch)
      · by_cases heq : (⟨w, O', .remoteCall r' g⟩ : Mail) = ⟨src, O, .remoteCall r f⟩
        · simp only [Envelope.mk.injEq, Message.remoteCall.injEq] at heq
          obtain ⟨rfl, rfl, rfl, rfl⟩ := heq
          exact .inr (.inr (.inr ⟨o, mem_addTask.mpr (.inl ⟨rfl, rfl⟩)⟩))
        · exact .inr (.inr (.inl ⟨hne', Finset.mem_erase.mpr ⟨heq, hm⟩⟩))
      · exact .inr (.inr (.inr ⟨o', mem_addTask.mpr (.inr ho')⟩))
    mail := fun e he' => h.mail e (Finset.mem_of_mem_erase he')
    task := by
      intro v t ht
      rcases mem_addTask.mp ht with ⟨rfl, rfl⟩ | ht
      · exact h.mail _ he hne
      · exact h.task v t ht }

variable {O : WorkerId}

theorem endAssign (h : Tracks G) (o : Nat)
    (src : WorkerId) (hk : f ∈ G.forks O r) : Tracks (G.endTask O (.assignOwnerRRef r f o src)) :=
  { h with
    unknown := by
      intro w g O' r' d hg
      rcases h.unknown w g O' r' d hg with hkn | hch | hm | ⟨o', ho'⟩
      · exact .inl hkn
      · exact .inr (.inl hch)
      · exact .inr (.inr (.inl hm))
      · by_cases heq : O' = O ∧ Task.assignOwnerRRef r' g o' w = .assignOwnerRRef r f o src
        · obtain ⟨rfl, heq⟩ := heq
          obtain ⟨rfl, rfl, -⟩ := heq
          exact .inl (.inl hk)
        · exact .inr (.inr (.inr ⟨o', mem_endTask.mpr ⟨ho', heq⟩⟩))
    task := fun v t ht => h.task v t (mem_endTask.mp ht).1 }

/-! ### Births -/

theorem bornCreator (h : Tracks G) {w O : WorkerId}
    (hf : Newborn G f) (hr : Newborn G r) (hne : r ≠ f) (hO : O ≠ w) :
    Tracks (((G.setUser w f ⟨O, r, false⟩).send ⟨w, O, .remoteCall r f⟩).note f
      ⟨O, r, 0, .user w⟩) := by
  refine h.born hf (k := ⟨O, r, 0, .user w⟩) (U := put G.users w f (some ⟨O, r, false⟩))
    (C := G.pendingChildren) (F := G.forks) (M := insert ⟨w, O, .remoteCall r f⟩ G.mail) ?_ ?_
  · exact {
      rref := hr.allocated
      users := by
        intro v g hg
        simp [put_apply, hg]
      user := by
        intro v u hu
        rw [put_apply] at hu
        split at hu
        · rename_i hv
          cases hu
          exact ⟨0, by rw [hv.1]⟩
        · rw [h.users_fresh hf.ledger v] at hu
          cases hu
      placed := by
        intro v hv
        obtain rfl : w = v := by simpa using hv
        exact ⟨_, put_same _ _ _ _⟩
      abroad := by
        intro v u hu
        rw [put_apply] at hu
        split at hu
        · rename_i hv
          cases hu
          rw [hv.1]
          exact hO
        · rw [h.users_fresh hf.ledger v] at hu
          cases hu
      childrenKept := fun _ _ he => he
      child := fun _ _ _ hm => .inl hm
      forksKept := fun _ _ _ hg => hg
      forksNew := fun _ _ _ hg => .inl hg
      registered := by simp
      carried := by simp
      unknown := by
        intro v hv
        obtain rfl : w = v := by simpa using hv
        exact ⟨hne, Finset.mem_insert_self _ _⟩
      mailKept := Finset.subset_insert _ _ }
  · intro e he
    rcases Finset.mem_insert.mp he with rfl | he
    · right
      intro _
      refine ⟨?_, 0, note_ledger.mpr (.inl ⟨rfl, rfl⟩)⟩
      simp [ForkGraph.note, hne, hr.ledger]
    · exact .inl he

theorem bornChild (h : Tracks G) {w callee : WorkerId} {f g : ForkId} {u : Holder} {k : Fork}
    (hg : Newborn G g) (hu : G.users w f = some u) (hd : u.deleted = false)
    (hk : G.ledger f = some k) :
    Tracks (((G.addChild w g f).send ⟨w, callee, .userCall ⟨u.owner, u.rref, g, w⟩⟩).note g
      ⟨u.owner, u.rref, k.depth + 1, .carried w callee⟩) := by
  obtain ⟨d, hf⟩ := h.user w f u hu
  obtain rfl : k = _ := Option.some.inj (hk.symm.trans hf)
  have husers : ∀ v, G.users v g = none := h.users_fresh hg.ledger
  have hr : u.rref.localId_ < G.next u.rref.createdOn_ := h.freshRRef f _ hf
  refine h.born hg (k := ⟨u.owner, u.rref, d + 1, .carried w callee⟩) (U := G.users)
    (C := (G.addChild w g f).pendingChildren) (F := G.forks)
    (M := insert ⟨w, callee, .userCall ⟨u.owner, u.rref, g, w⟩⟩ G.mail) ?_ ?_
  · exact {
      rref := hr
      users := fun _ _ _ => rfl
      user := by simp [husers]
      placed := by simp
      abroad := by simp [husers]
      childrenKept := fun p e he => mem_addChild.mpr (.inr he)
      child := by
        intro p g1 g2 hm
        rcases mem_addChild.mp hm with ⟨rfl, heq⟩ | hm
        · simp only [Prod.mk.injEq] at heq
          obtain ⟨rfl, rfl⟩ := heq
          exact .inr ⟨rfl, d, u, hf, Nat.lt_succ_self d, hu, hd⟩
        · exact .inl hm
      forksKept := fun _ _ _ hg => hg
      forksNew := fun _ _ _ hg => .inl hg
      registered := by
        -- A `UserRRef` does not live on the owner.
        rintro (⟨o, c, hP⟩ | ⟨c, hP⟩)
        · simp at hP
        · simp only [Place.carried.injEq] at hP
          exact absurd hP.1.symm (h.abroad w f u hu)
      carried := by
        intro p c hP _
        obtain ⟨rfl, -⟩ := hP
        exact ⟨f, mem_addChild.mpr (.inl ⟨rfl, rfl⟩)⟩
      unknown := by simp
      mailKept := Finset.subset_insert _ _ }
  · intro e he
    rcases Finset.mem_insert.mp he with rfl | he
    · exact .inr ⟨rfl, d + 1, note_ledger.mpr (.inl ⟨rfl, rfl⟩)⟩
    · exact .inl he

theorem bornSpent (h : Tracks G) (hf : Newborn G f)
    (hr : r.localId_ < G.next r.createdOn_) : Tracks (G.note f ⟨O, r, 0, .spent⟩) := by
  have husers : ∀ v, G.users v f = none := h.users_fresh hf.ledger
  refine h.born hf (k := ⟨O, r, 0, .spent⟩) (U := G.users) (C := G.pendingChildren)
    (F := G.forks) (M := G.mail) ?_ (fun e he => .inl he)
  exact {
    rref := hr
    users := fun _ _ _ => rfl
    user := by simp [husers]
    placed := by simp
    abroad := by simp [husers]
    childrenKept := fun _ _ he => he
    child := fun _ _ _ hm => .inl hm
    forksKept := fun _ _ _ hg => hg
    forksNew := fun _ _ _ hg => .inl hg
    registered := by simp
    carried := by simp
    unknown := by simp
    mailKept := Finset.Subset.refl _ }

theorem bornPrepared (h : Tracks G) (o : Nat)
    (callee : WorkerId) (hf : Newborn G f) (hr : r.localId_ < G.next r.createdOn_) :
    Tracks ((G.addFork O r f).note f ⟨O, r, 0, .prepared o callee⟩) := by
  have husers : ∀ v, G.users v f = none := h.users_fresh hf.ledger
  refine h.born hf (k := ⟨O, r, 0, .prepared o callee⟩) (U := G.users) (C := G.pendingChildren)
    (F := (G.addFork O r f).forks) (M := G.mail) ?_ (fun e he => .inl he)
  exact {
    rref := hr
    users := fun _ _ _ => rfl
    user := by simp [husers]
    placed := by simp
    abroad := by simp [husers]
    childrenKept := fun _ _ he => he
    child := fun _ _ _ hm => .inl hm
    forksKept := fun _ _ _ hg => mem_addFork.mpr (.inr hg)
    forksNew := by
      intro O' r' g hg
      rcases mem_addFork.mp hg with ⟨-, -, rfl⟩ | hg
      · exact .inr rfl
      · exact .inl hg
    registered := fun _ => mem_addFork.mpr (.inl ⟨rfl, rfl, rfl⟩)
    carried := by simp
    unknown := by simp
    mailKept := Finset.Subset.refl _ }

end Tracks

/-- Every step of the graph keeps the books. -/
theorem Step.tracks {G G' : ForkGraph} {l : Label} (hs : Step G l G') (h : Tracks G) :
    Tracks G' := by
  cases hs with
  | idle => exact h
  | @remote w O hne =>
    have hf := h.newborn_alloc w (i := 1) (n := 2) (by omega)
    have hr := h.newborn_alloc w (i := 0) (n := 2) (by omega)
    have hb := (h.alloc w 2).bornCreator hf hr (by simp) hne
    exact (hb.addPendingUser (put_same _ _ _ _) rfl).addTask trivial
  | @remoteSelf w =>
    have hr := h.newborn_alloc w (i := 0) (n := 1) (by omega)
    have hb := (h.alloc w 1).bornSpent (O := w) hr hr.allocated
    have hb := ((hb.addObject w hr.allocated).setOwner w ⟨w, G.next w⟩
      (G.objects w).length).addFork w ⟨w, G.next w⟩ (f := ⟨w, G.next w⟩)
      ⟨_, Tracks.note_ledger.mpr (.inl ⟨rfl, rfl⟩)⟩
    have hb := hb.addTask (w := w) (t := .finishCreatingOwnerRRef ⟨w, G.next w⟩)
      ⟨0, Tracks.note_ledger.mpr (.inl ⟨rfl, rfl⟩)⟩
    exact hb.send (fun hne => absurd rfl hne)
  | @createOwner w =>
    exact (h.alloc w 1).addObject w (h.newborn_alloc w (i := 0) (n := 1) (by omega)).allocated
  | @forkUser w callee f u k hu hd hk =>
    exact (h.alloc w 1).bornChild (h.newborn_alloc w (i := 0) (n := 1) (by omega)) hu hd hk
  | @forkOwner w callee o r ho =>
    have hf := h.newborn_alloc w (i := 0) (n := 1) (by omega)
    have hr := (h.alloc w 1).objects w r (List.mem_of_getElem? ho)
    have hb := (h.alloc w 1).bornPrepared (O := w) o callee hf hr
    exact hb.addTask ⟨rfl, rfl, 0, Tracks.note_ledger.mpr (.inl ⟨rfl, rfl⟩)⟩
  | publish ht hk =>
    exact (h.publish ht hk).setOwner _ _ _
  | @assign w caller r f o ht hf =>
    obtain ⟨-, d, hf'⟩ := h.task w _ ht
    have hadd := h.addFork w r ⟨_, hf'⟩
    have hend := hadd.endAssign o caller (Tracks.mem_addFork.mpr (.inl ⟨rfl, rfl, rfl⟩))
    exact hend.addTask (w := w) (t := .setValue r f o caller) trivial
  | assignFails ht hf => exact h.endAssign _ _ hf
  | setValue ht => exact (h.endTask _ (by simp)).send trivial
  | notifySelf ht =>
    obtain ⟨d, hf⟩ := h.task _ _ ht
    exact (h.endTask _ (by simp)).delFork (Tracks.deletable_of_spent hf) ⟨_, hf⟩
  | release hu hd hp hc => exact h.release hu hp hc
  | confirm => exact (h.endTask _ (by simp)).delPendingUser _ _
  | selfTimesOut ht =>
    obtain ⟨d, hf⟩ := h.task _ _ ht
    exact (h.endTask _ (by simp)).delFork (Tracks.deletable_of_spent hf) ⟨_, hf⟩
  | selfTimesOutFails ht ho => exact h.endTask _ (by simp)
  | fetch => exact h.send trivial
  | @remoteCall src O r f hne he =>
    obtain ⟨-, d, hf⟩ := h.mail _ he hne
    have hr : r.localId_ < G.next r.createdOn_ := h.freshRRef f _ hf
    exact (h.remoteCall hne he (G.ownerOr O r)).ensureOwner O hr
  | remoteCallSelf ho =>
    exact (h.take (by simp +contextual)).addTask trivial
  | remoteCallSelfFails ho => exact h.take (by simp +contextual)
  | remoteRetSelf ht =>
    obtain ⟨d, hf⟩ := h.task _ _ ht
    exact ((h.take (by simp)).endTask _ (by simp)).delFork (Tracks.deletable_of_spent hf) ⟨_, hf⟩
  | remoteRet ht => exact h.take (by simp)
  | remoteRetUser => exact ((h.take (by simp)).endTask _ (by simp)).delPendingUser _ _
  | @userCallSelf src w c k he ho hp hk =>
    have hr := h.freshRRef _ _ hk
    obtain ⟨-, d, hf⟩ := h.mail _ he
    obtain rfl : k = _ := Option.some.inj (hk.symm.trans hf)
    have harr := (h.arriveOwner he hk).ensureOwner w hr
    refine harr.addTask ⟨d, ?_⟩
    exact Tracks.note_ledger.mpr (.inl ⟨rfl, by rw [← ho]⟩)
  | @userCallOwner src w c k he ho hp hk =>
    have hr := h.freshRRef _ _ hk
    obtain ⟨-, d, hf⟩ := h.mail _ he
    obtain rfl : k = _ := Option.some.inj (hk.symm.trans hf)
    have harr := (h.arriveOwner he hk).ensureOwner w hr
    refine harr.send ⟨c.ownerId_, c.rrefId_, d, .spent, ?_, .inl rfl⟩
    exact Tracks.note_ledger.mpr (.inl ⟨rfl, rfl⟩)
  | userCallFromOwner he ho hp hk => exact h.arriveUser he hk ho
  | @userCall src w c k he ho hp hk =>
    obtain ⟨-, d, hf⟩ := h.mail _ he
    obtain rfl : k = _ := Option.some.inj (hk.symm.trans hf)
    have harr := (h.arriveUser he hk ho).addPendingUser (put_same _ _ _ _) rfl
    refine harr.send ⟨d, ?_⟩
    exact Tracks.note_ledger.mpr (.inl ⟨rfl, rfl⟩)
  | fetchCall => exact h.take (by simp)
  | @forkRequest src O r f again he =>
    obtain ⟨d, hf⟩ := h.mail _ he
    have hkept : Tracks (if again then G else G.take ⟨src, O, .rrefForkRequest r f⟩) := by
      split
      · exact h
      · exact h.take (by simp)
    have hf' : (if again then G else G.take ⟨src, O, .rrefForkRequest r f⟩).ledger f =
        some ⟨O, r, d, .user src⟩ := by
      split <;> exact hf
    refine (hkept.addFork O r ⟨_, hf'⟩).send ⟨.inl ?_, d, hf'⟩
    exact Tracks.mem_addFork.mpr (.inl ⟨rfl, rfl, rfl⟩)
  | @ack O w parent r f he =>
    obtain ⟨hkn, d, hf⟩ := h.mail _ he
    refine ((h.take (by simp)).delPendingUser w f).send ?_
    exact ⟨O, r, d, .user w, hf, .inr ⟨w, rfl, hkn⟩⟩
  | lateAck => exact h.take (by simp)
  | @childAccept src p f again he =>
    obtain ⟨O, r, d, P, hf, hP⟩ := h.mail _ he
    split
    · exact h.delChild hf hP
    · exact (h.take (by simp)).delChild hf hP
  | @userDelete src O r f again he =>
    obtain ⟨⟨d, hf⟩, u, hu, hd⟩ := h.mail _ he
    have hdel : Tracks.Deletable G O r f := by
      intro d' P hP
      obtain rfl : P = _ := by simpa using congrArg Fork.place (Option.some.inj (hP.symm.trans hf))
      exact .inr ⟨src, u, rfl, hu, hd⟩
    split
    · exact h.delFork hdel ⟨_, hf⟩
    · exact (h.take (by simp)).delFork hdel ⟨_, hf⟩

end PyTorchCore.RRef
