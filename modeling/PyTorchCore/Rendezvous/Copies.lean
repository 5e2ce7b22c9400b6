import PyTorchCore.Rendezvous.Validity

/-!
# How a copy differs from the state it came from

A node sanitises the state it has loaded and takes at most one action on it before it writes it
back.
-/

namespace PyTorchCore.Rendezvous

open List

/-- Round and completeness of `b` are not before those of `a`. -/
def NotBefore {ν : Type} (a b : RendezvousState ν) : Prop :=
  a.round < b.round ∨ (a.round = b.round ∧ (a.complete = true → b.complete = true))

section Dictionaries

variable {ν : Type} [LinearOrder ν]

/-- Every entry of `p` is one of `q`. -/
def Sub (p q : AList fun _ : ν => Nat) : Prop :=
  ∀ n k, p.lookup n = some k → q.lookup n = some k

theorem Sub.refl (p : AList fun _ : ν => Nat) : Sub p p :=
  fun _ _ h => h

theorem Sub.trans {p q r : AList fun _ : ν => Nat} (h : Sub p q) (h' : Sub q r) : Sub p r :=
  fun n k hk => h' n k (h n k hk)

theorem Sub.mem {p q : AList fun _ : ν => Nat} (h : Sub p q) {n : ν} (hn : n ∈ p) : n ∈ q := by
  obtain ⟨k, hk⟩ := Option.isSome_iff_exists.mp (AList.lookup_isSome.mpr hn)
  exact AList.lookup_isSome.mp (by rw [h n k hk]; rfl)

/-- A participant less. -/
theorem sub_erase (p : AList fun _ : ν => Nat) (n : ν) : Sub (p.erase n) p := by
  intro m k hk
  rw [lookup_erase_eq] at hk
  split at hk
  · cases hk
  · exact hk

/-- The ranks of the participants are different and below their number. -/
def Ranked (p : AList fun _ : ν => Nat) : Prop :=
  ∀ n k, p.lookup n = some k → k < p.keys.length ∧ ∀ m, p.lookup m = some k → m = n

theorem dlookup_kreplace {β : ν → Type} (a : ν) (b : β a) (n : ν) (l : List (Sigma β)) :
    (l.kreplace a b).dlookup n = if h : n = a then
      (l.dlookup n).map fun _ => h ▸ b else l.dlookup n := by
  induction l with
  | nil => by_cases h : n = a <;> simp [kreplace, h]
  | cons e l ih =>
    obtain ⟨m, v⟩ := e
    by_cases hm : a = m
    · subst hm
      rw [kreplace, lookmap_cons_some (f := _) (b := ⟨a, b⟩) _ (by simp)]
      by_cases h : n = a
      · subst h
        simp
      · rw [dlookup_cons_ne _ _ h, dif_neg h, dlookup_cons_ne _ _ h]
    · rw [kreplace, lookmap_cons_none (f := _) _ (by simp [hm])]
      by_cases h : n = m
      · subst h
        have hne : ¬n = a := fun hc => hm hc.symm
        simp [hne]
      · rw [dlookup_cons_ne _ _ h, dlookup_cons_ne _ _ h]
        exact ih

theorem lookup_replace (p : AList fun _ : ν => Nat) (a n : ν) (k : Nat) :
    (p.replace a k).lookup n = if n = a then (p.lookup n).map fun _ => k else p.lookup n := by
  have h := dlookup_kreplace a k n p.entries
  by_cases hn : n = a
  · subst hn
    simpa [AList.lookup, AList.replace] using h
  · simpa [AList.lookup, AList.replace, hn] using h

/-- The loop that numbers the participants. -/
theorem foldl_replace_zipIdx (nodes : List ν) :
    ∀ (p : AList fun _ : ν => Nat) (i : Nat), nodes.Nodup → ∀ n,
      ((nodes.zipIdx i).foldl (fun q e => q.replace e.1 e.2) p).lookup n =
        if n ∈ nodes then (p.lookup n).map fun _ => i + nodes.idxOf n else p.lookup n := by
  induction nodes with
  | nil => simp
  | cons a nodes ih =>
    intro p i hnodup n
    rw [nodup_cons] at hnodup
    rw [zipIdx_cons, foldl_cons, ih _ _ hnodup.2, lookup_replace]
    by_cases hn : n = a
    · subst hn
      simp [hnodup.1]
    · have hidx : (a :: nodes).idxOf n = nodes.idxOf n + 1 :=
        idxOf_cons_ne _ fun hc => hn hc.symm
      by_cases hin : n ∈ nodes
      · simp only [hin, if_true, hn, if_false, mem_cons, or_true, hidx]
        congr 1
        funext _
        omega
      · simp [hin, hn]

/-- A rank is the place of a node in the sorted order. -/
theorem lookup_assignRanks (p : AList fun _ : ν => Nat) (n : ν) : (assignRanks p).lookup n =
      (p.lookup n).map fun _ => (p.keys.insertionSort (· ≤ ·)).idxOf n := by
  have hperm := perm_insertionSort (· ≤ ·) p.keys
  have hnodup : (p.keys.insertionSort (· ≤ ·)).Nodup := hperm.nodup_iff.mpr p.keys_nodup
  rw [assignRanks, foldl_replace_zipIdx _ p 0 hnodup]
  by_cases hn : n ∈ p
  · rw [if_pos (hperm.mem_iff.mpr hn)]
    simp
  · rw [if_neg fun hc => hn (hperm.mem_iff.mp hc), AList.lookup_eq_none.mpr hn]
    rfl

/-- The ranks are assigned in order, from 0 on. -/
theorem assignRanks_ranked (p : AList fun _ : ν => Nat) : Ranked (assignRanks p) := by
  have hperm := perm_insertionSort (· ≤ ·) p.keys
  have hsome : ∀ n k, (assignRanks p).lookup n = some k →
      n ∈ p.keys.insertionSort (· ≤ ·) ∧ (p.keys.insertionSort (· ≤ ·)).idxOf n = k := by
    intro n k hk
    rw [lookup_assignRanks] at hk
    obtain ⟨k', hk', rfl⟩ := Option.map_eq_some_iff.mp hk
    refine ⟨hperm.mem_iff.mpr ?_, rfl⟩
    exact AList.lookup_isSome.mp (by rw [hk']; rfl)
  intro n k hk
  obtain ⟨hn, rfl⟩ := hsome n k hk
  refine ⟨?_, ?_⟩
  · rw [keys_assignRanks, ← hperm.length_eq]
    exact idxOf_lt_length_iff.mpr hn
  · intro m hm
    obtain ⟨hm', hidx⟩ := hsome m _ hm
    exact (idxOf_inj hm').mp hidx

end Dictionaries

section Order

variable {ν : Type} {a b c : RendezvousState ν}

theorem NotBefore.refl (a : RendezvousState ν) : NotBefore a a :=
  .inr ⟨rfl, id⟩

theorem NotBefore.trans (h : NotBefore a b) (h' : NotBefore b c) : NotBefore a c := by
  rcases h with h | ⟨h, hc⟩ <;> rcases h' with h' | ⟨h', hc'⟩
  · exact .inl (by omega)
  · exact .inl (by omega)
  · exact .inl (by omega)
  · exact .inr ⟨h.trans h', fun hca => hc' (hc hca)⟩

theorem NotBefore.round_le (h : NotBefore a b) : a.round ≤ b.round := by
  rcases h with h | ⟨h, -⟩ <;> omega

/-- In one round a complete state stays complete. -/
theorem NotBefore.complete (h : NotBefore a b) (hr : b.round ≤ a.round) (hc : a.complete = true) :
    b.round = a.round ∧ b.complete = true := by
  rcases h with h | ⟨h, hcomp⟩
  · omega
  · exact ⟨h.symm, hcomp hc⟩

end Order

section Edits

variable {ν : Type} [LinearOrder ν]

/-- What the node `j` does to a state between loading it and writing it. -/
structure Edits (j : ν) (a b : RendezvousState ν) : Prop where
  notBefore : NotBefore a b
  other : ∀ n, n ≠ j → n ∈ b.participants → n ∈ a.participants ∧ b.round = a.round ∧
    b.last_heartbeats.lookup n = a.last_heartbeats.lookup n
  stays : ∀ n, n ≠ j → n ∈ b.participants → a.complete = true → b.complete = true
  shrinks : a.complete = true → b.round = a.round → Sub b.participants a.participants

theorem Edits.refl (j : ν) (a : RendezvousState ν) : Edits j a a where
  notBefore := NotBefore.refl a
  other _ _ h := ⟨h, rfl, rfl⟩
  stays _ _ _ h := h
  shrinks _ _ := Sub.refl _

variable {j : ν}

theorem Edits.trans {a b c : RendezvousState ν} (h : Edits j a b) (h' : Edits j b c) :
    Edits j a c where
  notBefore := h.notBefore.trans h'.notBefore
  other n hn hc := by
    obtain ⟨hb, hr, hl⟩ := h'.other n hn hc
    obtain ⟨ha, hr', hl'⟩ := h.other n hn hb
    exact ⟨ha, hr.trans hr', hl.trans hl'⟩
  stays n hn hc ha := h'.stays n hn hc (h.stays n hn (h'.other n hn hc).1 ha)
  shrinks ha hr := by
    have h₂ := h'.notBefore.round_le
    obtain ⟨hr', hb⟩ := h.notBefore.complete (by omega) ha
    exact (h'.shrinks hb (by omega)).trans (h.shrinks ha hr')

/-- The heartbeat of a node is older than the keep-alive window at time `now`. -/
def Expired (settings : RendezvousSettings) (now : Int) (state : RendezvousState ν) (n : ν) :
    Prop :=
  ∃ t, state.last_heartbeats.lookup n = some t ∧
    t < now - settings.keep_alive_interval * settings.keep_alive_max_attempt

variable {state : RendezvousState ν} {now : Int}

/-- A node is dead if its last heartbeat has expired. -/
theorem mem_deadNodes {settings : RendezvousSettings}
    {n : ν} : n ∈ deadNodes settings now state ↔ Expired settings now state n := by
  constructor
  · intro h
    obtain ⟨⟨m, t⟩, hin, rfl⟩ := mem_map.mp h
    obtain ⟨hin, ht⟩ := mem_filter.mp hin
    exact ⟨t, AList.mem_lookup_iff.mpr hin, by simpa using ht⟩
  · rintro ⟨t, hl, ht⟩
    exact mem_map.mpr ⟨⟨n, t⟩, mem_filter.mpr ⟨AList.mem_lookup_iff.mp hl, by simpa using ht⟩,
      rfl⟩

omit [LinearOrder ν] in
theorem numParticipants_eq_zero {state : RendezvousState ν} :
    state.numParticipants = 0 ↔ ∀ n, n ∉ state.participants := by
  rw [RendezvousState.numParticipants, length_eq_zero_iff, eq_nil_iff_forall_not_mem]
  rfl

omit [LinearOrder ν] in
/-- What the epilogue does: it changes the deadline, or it leaves a complete round
that has no participants any more. -/
theorem epilogue_cases (settings : RendezvousSettings) (state : RendezvousState ν) :
    ((removeParticipantEpilogue settings state).participants = state.participants ∧
      (removeParticipantEpilogue settings state).last_heartbeats = state.last_heartbeats) ∧
    (((removeParticipantEpilogue settings state).round = state.round ∧
        (removeParticipantEpilogue settings state).complete = state.complete) ∨
      ((removeParticipantEpilogue settings state).round = state.round + 1 ∧
        (∀ n, n ∉ state.participants) ∧ state.complete = true ∧
        (removeParticipantEpilogue settings state).complete = false)) := by
  unfold removeParticipantEpilogue
  split
  · next hc =>
      split
      · next h0 => exact ⟨⟨rfl, rfl⟩, .inr ⟨rfl, numParticipants_eq_zero.mp h0, hc, rfl⟩⟩
      · exact ⟨⟨rfl, rfl⟩, .inl ⟨rfl, rfl⟩⟩
  · split <;> exact ⟨⟨rfl, rfl⟩, .inl ⟨rfl, rfl⟩⟩

variable {settings : RendezvousSettings}

/-- A participant after `_sanitize` was one before, is not dead, and its round is the
same one. -/
theorem sanitize_participant {n : ν}
    (h : n ∈ (sanitize settings now state).participants) :
    n ∈ state.participants ∧ ¬Expired settings now state n ∧
      (sanitize settings now state).round = state.round ∧
      (sanitize settings now state).complete = state.complete ∧
      (sanitize settings now state).participants.lookup n = state.participants.lookup n ∧
      (sanitize settings now state).last_heartbeats.lookup n = state.last_heartbeats.lookup n := by
  obtain ⟨rest, hr, hcase⟩ := sanitize_cases settings now state
  have hrest : n ∈ rest.participants → n ∈ state.participants ∧ ¬Expired settings now state n ∧
      rest.participants.lookup n = state.participants.lookup n ∧
      rest.last_heartbeats.lookup n = state.last_heartbeats.lookup n := by
    intro hn
    obtain ⟨hp, hdead⟩ := hr.mem_participants.mp hn
    refine ⟨hp, fun he => hdead (mem_deadNodes.mpr he), ?_, ?_⟩
    · rw [hr.participants, if_neg hdead]
    · rw [hr.last_heartbeats, if_neg hdead]
  rcases hcase with ⟨heq, -⟩ | ⟨heq, -⟩
  · rw [heq] at h ⊢
    obtain ⟨hp, he, hl, hb⟩ := hrest h
    exact ⟨hp, he, hr.round, hr.complete, hl, hb⟩
  · rw [heq] at h ⊢
    obtain ⟨⟨hparts, hbeats⟩, hround⟩ := epilogue_cases settings rest
    rw [hparts] at h ⊢
    rw [hbeats]
    obtain ⟨hp, he, hl, hb⟩ := hrest h
    rcases hround with ⟨hround, hcomplete⟩ | ⟨-, hnone, -⟩
    · exact ⟨hp, he, hround.trans hr.round, hcomplete.trans hr.complete, hl, hb⟩
    · exact absurd h (hnone n)

theorem mem_sanitize {n : ν} (hn : n ∈ state.participants) (he : ¬Expired settings now state n) :
    n ∈ (sanitize settings now state).participants := by
  obtain ⟨rest, hr, hcase⟩ := sanitize_cases settings now state
  have hrest : n ∈ rest.participants :=
    hr.mem_participants.mpr ⟨hn, fun hd => he (mem_deadNodes.mp hd)⟩
  rcases hcase with ⟨heq, -⟩ | ⟨heq, -⟩
  · rw [heq]
    exact hrest
  · rw [heq, (epilogue_cases settings rest).1.1]
    exact hrest

theorem sanitize_sub (settings : RendezvousSettings) (now : Int) (state : RendezvousState ν) :
    Sub (sanitize settings now state).participants state.participants := by
  intro n k hk
  have hn : n ∈ (sanitize settings now state).participants :=
    AList.lookup_isSome.mp (by rw [hk]; rfl)
  rw [← (sanitize_participant hn).2.2.2.2.1]
  exact hk

theorem numParticipants_sanitize (h : ∀ n ∈ state.participants, ¬Expired settings now state n) :
    (sanitize settings now state).numParticipants = state.numParticipants := by
  refine Perm.length_eq ((perm_ext_iff_of_nodup (AList.keys_nodup _) (AList.keys_nodup _)).mpr ?_)
  intro n
  exact ⟨fun hn => (sanitize_participant hn).1, fun hn => mem_sanitize hn (h n hn)⟩

theorem sanitize_edits (settings : RendezvousSettings) (now : Int) (j : ν)
    (state : RendezvousState ν) : Edits j state (sanitize settings now state) where
  notBefore := by
    obtain ⟨rest, hr, hcase⟩ := sanitize_cases settings now state
    rcases hcase with ⟨heq, -⟩ | ⟨heq, -⟩
    · rw [heq]
      exact .inr ⟨hr.round.symm, fun hc => hr.complete.trans hc⟩
    · rw [heq]
      rcases (epilogue_cases settings rest).2 with ⟨hround, hcomplete⟩ | ⟨hround, -⟩
      · exact .inr ⟨(hround.trans hr.round).symm, fun hc =>
          (hcomplete.trans hr.complete).trans hc⟩
      · left
        rw [hround, hr.round]
        exact Nat.lt_succ_self _
  other n _ hn := by
    obtain ⟨hp, -, hround, -, -, hb⟩ := sanitize_participant hn
    exact ⟨hp, hround, hb⟩
  stays n _ hn hc := (sanitize_participant hn).2.2.2.1.trans hc
  shrinks _ _ := sanitize_sub settings now state

variable {a b : RendezvousState ν}

theorem edits_of_same (hround : b.round = a.round)
    (hcomplete : b.complete = a.complete) (hparts : b.participants = a.participants)
    (hbeats : ∀ n, n ≠ j → b.last_heartbeats.lookup n = a.last_heartbeats.lookup n) :
    Edits j a b where
  notBefore := .inr ⟨hround.symm, fun hc => hcomplete.trans hc⟩
  other n hn hin := ⟨hparts ▸ hin, hround, hbeats n hn⟩
  stays _ _ _ hc := hcomplete.trans hc
  shrinks _ _ := by
    rw [hparts]
    exact Sub.refl _

theorem enrolled_edits {c : Clock} (hopen : state.complete = false) :
    Edits j state (enrolled settings c j state) where
  notBefore := NotBefore.refl state
  other n hn hin := by
    refine ⟨?_, rfl, AList.lookup_insert_ne hn⟩
    rcases (AList.mem_insert _).mp hin with rfl | hin
    · exact absurd rfl hn
    · exact hin
  stays _ _ _ hc := by rw [hopen] at hc; cases hc
  shrinks hc := by rw [hopen] at hc; cases hc

theorem complete_edits (hopen : state.complete = false) :
    Edits j state (markRendezvousComplete state) where
  notBefore := .inr ⟨rfl, fun _ => rfl⟩
  other _ _ hin := ⟨mem_assignRanks.mp hin, rfl, rfl⟩
  stays _ _ _ _ := rfl
  shrinks hc := by rw [hopen] at hc; cases hc

theorem leave_edits :
    Edits j state (removeParticipantEpilogue settings (withoutParticipant j state)) := by
  obtain ⟨⟨hparts, hbeats⟩, hround⟩ := epilogue_cases settings (withoutParticipant j state)
  constructor
  · rcases hround with ⟨hround, hcomplete⟩ | ⟨hround, -⟩
    · exact .inr ⟨hround.symm, fun hc => hcomplete.trans hc⟩
    · left
      rw [hround]
      exact Nat.lt_succ_self _
  · intro n hn hin
    rw [hparts] at hin
    rw [hbeats]
    refine ⟨(AList.mem_erase.mp hin).2, ?_, AList.lookup_erase_ne hn⟩
    rcases hround with ⟨hround, -⟩ | ⟨-, hnone, -⟩
    · exact hround
    · exact absurd hin (hnone n)
  · intro n _ hin hc
    rw [hparts] at hin
    rcases hround with ⟨-, hcomplete⟩ | ⟨-, hnone, -⟩
    · exact hcomplete.trans hc
    · exact absurd hin (hnone n)
  · intro _ _
    rw [hparts]
    exact sub_erase _ j

/-- What an action that an operation chose does to the copy of its node. -/
inductive Performed (settings : RendezvousSettings) (j : ν) (a b : RendezvousState ν) :
    Action → Prop
  | same {action : Action} : action ≠ .removeFromParticipants → action ≠ .addToParticipants →
      b.round = a.round → b.complete = a.complete → b.participants = a.participants →
      Edits j a b → Performed settings j a b action
  | enrolled : a.complete = false → b.complete = false → b.round = a.round → Edits j a b →
      Performed settings j a b .addToParticipants
  | completed {action : Action} : action = .addToParticipants ∨ action = .markRendezvousComplete →
      a.complete = false → b.complete = true → b.round = a.round → Ranked b.participants →
      Edits j a b → (action = .addToParticipants ∨ ∀ n ∈ b.participants, n ∈ a.participants) →
      Performed settings j a b action
  | left : j ∈ a.participants → j ∉ b.participants → Sub b.participants a.participants →
      (b.complete = true → a.complete = true ∧ b.round = a.round) → Edits j a b →
      Performed settings j a b .removeFromParticipants

theorem Performed.edits {action : Action} (h : Performed settings j a b action) : Edits j a b := by
  cases h <;> assumption

theorem perform_performed (h : Valid settings state) {c : Clock} {action : Action}
    (ha : Admits j state action) {state' : RendezvousState ν}
    (hp : perform settings c j state action = .ok state') :
    Performed settings j state state' action := by
  cases action with
  | keepAlive =>
    cases hp
    exact .same (by simp) (by simp) rfl rfl rfl
      (edits_of_same rfl rfl rfl fun n hn => AList.lookup_insert_ne hn)
  | addToParticipants =>
    obtain ⟨hnot, hopen⟩ := ha
    simp only [perform, Except.ok.injEq] at hp
    subst hp
    rw [addToParticipants_eq]
    have hedits : Edits j state (Rendezvous.enrolled settings c j state) := enrolled_edits hopen
    split
    · exact .completed (.inl rfl) hopen rfl rfl (assignRanks_ranked _)
        (hedits.trans (complete_edits hopen)) (.inl rfl)
    · exact .enrolled hopen hopen rfl hedits
  | addToWaitList =>
    cases hp
    exact .same (by simp) (by simp) rfl rfl rfl
      (edits_of_same rfl rfl rfl fun n hn => AList.lookup_insert_ne hn)
  | removeFromParticipants =>
    simp only [perform, removeFromParticipants_eq h ha, Except.ok.injEq] at hp
    subst hp
    obtain ⟨⟨hparts, -⟩, hround⟩ := epilogue_cases settings (withoutParticipant j state)
    refine .left ha ?_ ?_ ?_ leave_edits
    · rw [hparts]
      exact fun hc => (AList.mem_erase.mp hc).1 rfl
    · rw [hparts]
      exact sub_erase _ j
    · intro hc
      rcases hround with ⟨hround, hcomp⟩ | ⟨-, -, -, hfalse⟩
      · exact ⟨hcomp.symm.trans hc, hround⟩
      · rw [hfalse] at hc
        cases hc
  | removeFromWaitList =>
    simp only [perform, removeFromWaitList_eq h ha, Except.ok.injEq] at hp
    subst hp
    exact .same (by simp) (by simp) rfl rfl rfl
      (edits_of_same rfl rfl rfl fun n hn => AList.lookup_erase_ne hn)
  | markRendezvousComplete =>
    cases hp
    exact .completed (.inr rfl) ha rfl rfl (assignRanks_ranked _) (complete_edits ha)
      (.inr fun n hn => mem_assignRanks.mp hn)
  | markRendezvousClosed =>
    cases hp
    exact .same (by simp) (by simp) rfl rfl rfl (edits_of_same rfl rfl rfl fun _ _ => rfl)
  | sync | errorClosed | errorTimeout | finish =>
    cases hp
    exact .same (by simp) (by simp) rfl rfl rfl (Edits.refl j _)

end Edits

end PyTorchCore.Rendezvous
