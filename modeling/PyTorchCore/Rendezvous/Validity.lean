import PyTorchCore.Rendezvous.Executor

/-!
# What holds of every state of a rendezvous

`Valid` collects what the executor relies on.
-/

namespace PyTorchCore.Rendezvous

open Lib
open List

/-- The invariant of a state. -/
structure Valid {ν : Type} [LinearOrder ν] (settings : RendezvousSettings)
    (state : RendezvousState ν) : Prop where
  disjoint : ∀ n, n ∈ state.participants → n ∉ state.wait_list
  heartbeats : ∀ n, n ∈ state.last_heartbeats ↔ n ∈ state.participants ∨ n ∈ state.wait_list
  bounded : state.numParticipants ≤ settings.max_nodes
  room : state.complete = false → state.numParticipants < settings.max_nodes
  hasDeadline : state.complete = false → settings.min_nodes ≤ state.numParticipants →
    state.deadline ≠ none

/-- One state is not behind another. -/
def Advances {ν : Type} (a b : RendezvousState ν) : Prop :=
  a.round ≤ b.round ∧ (a.closed = true → b.closed = true)

theorem Advances.refl {ν : Type} (a : RendezvousState ν) : Advances a a :=
  ⟨Nat.le_refl _, id⟩

theorem Advances.trans {ν : Type} {a b c : RendezvousState ν} (h : Advances a b)
    (h' : Advances b c) : Advances a c :=
  ⟨Nat.le_trans h.1 h'.1, fun hc => h'.2 (h.2 hc)⟩

section Sanitize

variable {ν : Type} [LinearOrder ν]

/-- What removing the nodes `dead` does to a state. -/
structure Removes (dead : List ν) (a b : RendezvousState ν) : Prop where
  round : b.round = a.round
  complete : b.complete = a.complete
  deadline : b.deadline = a.deadline
  closed : b.closed = a.closed
  participants : ∀ n, b.participants.lookup n =
    if n ∈ dead then none else a.participants.lookup n
  wait_list : ∀ n, n ∈ b.wait_list ↔ n ∈ a.wait_list ∧ n ∉ dead
  last_heartbeats : ∀ n, b.last_heartbeats.lookup n =
    if n ∈ dead then none else a.last_heartbeats.lookup n
  keys : b.participants.keys.Sublist a.participants.keys

variable {a b : RendezvousState ν} {dead : List ν}

/-- The participants that are not dead stay. -/
theorem Removes.mem_participants (h : Removes dead a b)
    {n : ν} : n ∈ b.participants ↔ n ∈ a.participants ∧ n ∉ dead := by
  rw [← AList.lookup_isSome, ← AList.lookup_isSome, h.participants]
  by_cases hn : n ∈ dead <;> simp [hn]

theorem Removes.mem_last_heartbeats (h : Removes dead a b) {n : ν} :
    n ∈ b.last_heartbeats ↔ n ∈ a.last_heartbeats ∧ n ∉ dead := by
  rw [← AList.lookup_isSome, ← AList.lookup_isSome, h.last_heartbeats]
  by_cases hn : n ∈ dead <;> simp [hn]

/-- No participants come. -/
theorem Removes.numParticipants_le (h : Removes dead a b) : b.numParticipants ≤ a.numParticipants :=
  h.keys.length_le

theorem lookup_erase_eq {β : Type} (s : AList fun _ : ν => β) (n m : ν) :
    (s.erase m).lookup n = if n = m then none else s.lookup n := by
  by_cases h : n = m
  · subst h
    simp
  · rw [AList.lookup_erase_ne h, if_neg h]

theorem foldl_removeDeadNode (dead : List ν) : ∀ (state : RendezvousState ν) (removed : Bool),
      Removes dead state (dead.foldl removeDeadNode (state, removed)).1 ∧
      ((dead.foldl removeDeadNode (state, removed)).2 = true ↔
        removed = true ∨ ∃ n ∈ dead, n ∈ state.participants) := by
  induction dead with
  | nil =>
    intro state removed
    refine ⟨⟨rfl, rfl, rfl, rfl, by simp, by simp, by simp, Sublist.refl _⟩, by simp⟩
  | cons d dead ih =>
    intro state removed
    obtain ⟨h, hflag⟩ := ih (removeDeadNode (state, removed) d).1
      (removeDeadNode (state, removed) d).2
    rw [foldl_cons]
    constructor
    · refine ⟨h.round, h.complete, h.deadline, h.closed, ?_, ?_, ?_, ?_⟩
      · intro n
        rw [h.participants, removeDeadNode, lookup_erase_eq]
        by_cases h₁ : n = d <;> by_cases h₂ : n ∈ dead <;> simp [h₁, h₂]
      · intro n
        rw [h.wait_list, removeDeadNode, Finset.mem_erase, mem_cons]
        tauto
      · intro n
        rw [h.last_heartbeats, removeDeadNode, lookup_erase_eq]
        by_cases h₁ : n = d <;> by_cases h₂ : n ∈ dead <;> simp [h₁, h₂]
      · refine h.keys.trans ?_
        rw [removeDeadNode, AList.keys_erase]
        exact erase_sublist
    · rw [hflag]
      simp only [removeDeadNode, Bool.or_eq_true, decide_eq_true_eq, AList.mem_erase, mem_cons]
      constructor
      · rintro ((hr | hd) | ⟨n, hn, -, hp⟩)
        · exact .inl hr
        · exact .inr ⟨d, .inl rfl, hd⟩
        · exact .inr ⟨n, .inr hn, hp⟩
      · rintro (hr | ⟨n, rfl | hn, hp⟩)
        · exact .inl (.inl hr)
        · exact .inl (.inr hp)
        · by_cases hnd : n = d
          · exact .inl (.inr (hnd ▸ hp))
          · exact .inr ⟨n, hn, hnd, hp⟩

/-- `_sanitize` removes the dead nodes and runs the epilogue if one of them was a
participant. -/
theorem sanitize_cases (settings : RendezvousSettings) (now : Int) (state : RendezvousState ν) :
    ∃ rest, Removes (deadNodes settings now state) state rest ∧
      ((sanitize settings now state = rest ∧
          ∀ n ∈ deadNodes settings now state, n ∉ state.participants) ∨
        (sanitize settings now state = removeParticipantEpilogue settings rest ∧
          ∃ n ∈ deadNodes settings now state, n ∈ state.participants)) := by
  obtain ⟨h, hflag⟩ := foldl_removeDeadNode (deadNodes settings now state) state false
  refine ⟨_, h, ?_⟩
  by_cases hr : ((deadNodes settings now state).foldl removeDeadNode (state, false)).2 = true
  · right
    refine ⟨by simp [sanitize, hr], ?_⟩
    simpa using hflag.mp hr
  · left
    refine ⟨by simp [sanitize, hr], ?_⟩
    intro n hn hp
    exact hr (hflag.mpr (.inr ⟨n, hn, hp⟩))

end Sanitize

section Actions

variable {ν : Type} [LinearOrder ν] {settings : RendezvousSettings} {state : RendezvousState ν}

theorem new_valid : Valid settings (RendezvousState.new : RendezvousState ν) := by
  have hmin := settings.min_nodes_pos
  have hmax := settings.min_le_max
  constructor <;> simp [RendezvousState.new, RendezvousState.numParticipants] <;> omega

theorem epilogue_valid (hdisj : ∀ n, n ∈ state.participants → n ∉ state.wait_list)
    (hbeat : ∀ n, n ∈ state.last_heartbeats ↔ n ∈ state.participants ∨ n ∈ state.wait_list)
    (hbound : state.numParticipants ≤ settings.max_nodes)
    (hroom : state.complete = false → state.numParticipants < settings.max_nodes)
    (hdeadline : state.complete = false → settings.min_nodes ≤ state.numParticipants →
      state.deadline ≠ none) :
    Valid settings (removeParticipantEpilogue settings state) := by
  have hmin := settings.min_nodes_pos
  have hmax := settings.min_le_max
  unfold removeParticipantEpilogue
  by_cases hc : state.complete = true
  · rw [if_pos hc]
    by_cases h0 : state.numParticipants = 0
    · rw [if_pos h0]
      refine ⟨hdisj, hbeat, hbound, fun _ => ?_, fun _ hle => ?_⟩
      · change state.numParticipants < settings.max_nodes
        omega
      · change settings.min_nodes ≤ state.numParticipants at hle
        omega
    · rw [if_neg h0]
      exact ⟨hdisj, hbeat, hbound, hroom, hdeadline⟩
  · rw [if_neg hc]
    by_cases hlt : state.numParticipants < settings.min_nodes
    · rw [if_pos hlt]
      refine ⟨hdisj, hbeat, hbound, hroom, fun _ hle => ?_⟩
      change settings.min_nodes ≤ state.numParticipants at hle
      omega
    · rw [if_neg hlt]
      exact ⟨hdisj, hbeat, hbound, hroom, hdeadline⟩

omit [LinearOrder ν] in
theorem epilogue_advances (settings : RendezvousSettings) (state : RendezvousState ν) :
    (removeParticipantEpilogue settings state).closed = state.closed ∧
      state.round ≤ (removeParticipantEpilogue settings state).round ∧
      (removeParticipantEpilogue settings state).round ≤ state.round + 1 := by
  unfold removeParticipantEpilogue
  split
  · split <;> simp
  · split <;> simp

theorem Valid.removes {dead : List ν} {rest : RendezvousState ν} (h : Valid settings state)
    (hr : Removes dead state rest) : Valid settings rest where
  disjoint n hn hw :=
    h.disjoint n (hr.mem_participants.mp hn).1 ((hr.wait_list n).mp hw).1
  heartbeats n := by
    rw [hr.mem_last_heartbeats, hr.mem_participants, hr.wait_list, h.heartbeats]
    tauto
  bounded := Nat.le_trans hr.numParticipants_le h.bounded
  room hc := Nat.lt_of_le_of_lt hr.numParticipants_le (h.room (hr.complete ▸ hc))
  hasDeadline hc hle := by
    rw [hr.deadline]
    exact h.hasDeadline (hr.complete ▸ hc) (Nat.le_trans hle hr.numParticipants_le)

theorem Valid.epilogue (h : Valid settings state) :
    Valid settings (removeParticipantEpilogue settings state) :=
  epilogue_valid h.disjoint h.heartbeats h.bounded h.room h.hasDeadline

/-- Dropping dead participants keeps a state valid. -/
theorem Valid.sanitize (h : Valid settings state) (now : Int) :
    Valid settings (sanitize settings now state) := by
  obtain ⟨rest, hr, hcase⟩ := sanitize_cases settings now state
  rcases hcase with ⟨heq, -⟩ | ⟨heq, -⟩
  · rw [heq]
    exact h.removes hr
  · rw [heq]
    exact (h.removes hr).epilogue

theorem sanitize_advances (settings : RendezvousSettings) (now : Int) (state : RendezvousState ν) :
    (Rendezvous.sanitize settings now state).closed = state.closed ∧
      state.round ≤ (Rendezvous.sanitize settings now state).round ∧
      (Rendezvous.sanitize settings now state).round ≤ state.round + 1 := by
  obtain ⟨rest, hr, hcase⟩ := sanitize_cases settings now state
  rcases hcase with ⟨heq, -⟩ | ⟨heq, -⟩
  · rw [heq, hr.closed, hr.round]
    exact ⟨rfl, Nat.le_refl _, Nat.le_succ _⟩
  · rw [heq, ← hr.closed, ← hr.round]
    exact epilogue_advances settings rest

variable {node : ν}

theorem keepAlive_valid (h : Valid settings state) (now : Int)
    (hn : node ∈ state.last_heartbeats) : Valid settings (keepAlive node now state) where
  disjoint := h.disjoint
  heartbeats n := by
    change n ∈ state.last_heartbeats.insert node now ↔ n ∈ state.participants ∨ n ∈ state.wait_list
    rw [← h.heartbeats n, AList.mem_insert]
    constructor
    · rintro (rfl | hm)
      · exact hn
      · exact hm
    · exact .inr
  bounded := h.bounded
  room := h.room
  hasDeadline := h.hasDeadline

theorem keys_assignRanks (participants : AList fun _ : ν => Nat) :
    (assignRanks participants).keys = participants.keys := by
  unfold assignRanks
  generalize (participants.keys.insertionSort (· ≤ ·)).zipIdx = ps
  induction ps generalizing participants with
  | nil => rfl
  | cons p ps ih => rw [foldl_cons, ih, AList.keys_replace]

theorem mem_assignRanks {participants : AList fun _ : ν => Nat} {n : ν} :
    n ∈ assignRanks participants ↔ n ∈ participants := by
  rw [AList.mem_keys, AList.mem_keys, keys_assignRanks]

theorem numParticipants_complete (state : RendezvousState ν) :
    (markRendezvousComplete state).numParticipants = state.numParticipants :=
  congrArg List.length (keys_assignRanks state.participants)

theorem markRendezvousComplete_valid (hdisj : ∀ n, n ∈ state.participants → n ∉ state.wait_list)
    (hbeat : ∀ n, n ∈ state.last_heartbeats ↔ n ∈ state.participants ∨ n ∈ state.wait_list)
    (hbound : state.numParticipants ≤ settings.max_nodes) :
    Valid settings (markRendezvousComplete state) where
  disjoint n hn := hdisj n (mem_assignRanks.mp hn)
  heartbeats n := (hbeat n).trans (or_congr mem_assignRanks.symm Iff.rfl)
  bounded := by
    rw [numParticipants_complete]
    exact hbound
  room hc := by cases hc
  hasDeadline hc := by cases hc

theorem numParticipants_insert (hn : node ∉ state.participants) (rank : Nat) :
    (state.participants.insert node rank).keys.length = state.numParticipants + 1 := by
  rw [AList.keys_insert, length_cons, erase_of_not_mem hn]
  rfl

/-- The state of `_add_to_participants` after the tests on the minimum. -/
def enrolled (settings : RendezvousSettings) (c : Clock) (node : ν) (state : RendezvousState ν) :
    RendezvousState ν :=
  { state with
    wait_list := state.wait_list.erase node
    participants := state.participants.insert node 0
    last_heartbeats := state.last_heartbeats.insert node c.heartbeatNow
    deadline :=
      if (state.participants.insert node 0).keys.length = settings.min_nodes then
        some (c.lastCallNow + settings.last_call)
      else state.deadline }

theorem addToParticipants_eq (settings : RendezvousSettings) (c : Clock) (node : ν)
    (state : RendezvousState ν) :
    addToParticipants settings c node state =
      if (state.participants.insert node 0).keys.length = settings.max_nodes then
        markRendezvousComplete (enrolled settings c node state)
      else enrolled settings c node state := by
  unfold addToParticipants enrolled keepAlive RendezvousState.numParticipants
  by_cases h : (state.participants.insert node 0).keys.length = settings.min_nodes
  · simp only [if_pos h]
  · simp only [if_neg h]

section

variable (h : Valid settings state) (c : Clock) (hn : node ∉ state.participants)
include h c hn

theorem addToParticipants_valid (hopen : state.complete = false) :
    Valid settings (addToParticipants settings c node state) := by
  have hlen := numParticipants_insert hn 0
  have hroom := h.room hopen
  have hdisj : ∀ n, n ∈ (enrolled settings c node state).participants →
      n ∉ (enrolled settings c node state).wait_list := by
    intro n hp hw
    rcases (AList.mem_insert _).mp hp with rfl | hp
    · exact (Finset.mem_erase.mp hw).1 rfl
    · exact h.disjoint n hp (Finset.mem_erase.mp hw).2
  have hbeat : ∀ n, n ∈ (enrolled settings c node state).last_heartbeats ↔
      n ∈ (enrolled settings c node state).participants ∨
        n ∈ (enrolled settings c node state).wait_list := by
    intro n
    change n ∈ state.last_heartbeats.insert node c.heartbeatNow ↔
      n ∈ state.participants.insert node 0 ∨ n ∈ state.wait_list.erase node
    rw [AList.mem_insert, AList.mem_insert, Finset.mem_erase, h.heartbeats]
    by_cases hnn : n = node <;> simp [hnn]
  have hnum : (enrolled settings c node state).numParticipants = state.numParticipants + 1 := hlen
  rw [addToParticipants_eq, hlen]
  split
  · exact markRendezvousComplete_valid hdisj hbeat (by omega)
  · refine ⟨hdisj, hbeat, by omega, fun _ => by omega, fun _ hle => ?_⟩
    simp only [enrolled, hlen]
    split
    · simp
    · exact h.hasDeadline hopen (by omega)

theorem addToWaitList_valid : Valid settings (addToWaitList c node state) where
  disjoint n hp hw := by
    rcases Finset.mem_insert.mp hw with rfl | hw
    · exact hn hp
    · exact h.disjoint n hp hw
  heartbeats n := by
    change n ∈ state.last_heartbeats.insert node c.heartbeatNow ↔
      n ∈ state.participants ∨ n ∈ insert node state.wait_list
    rw [AList.mem_insert, h.heartbeats, Finset.mem_insert]
    tauto
  bounded := h.bounded
  room := h.room
  hasDeadline := h.hasDeadline

end

/-- The state of `_remove_from_participants` before the epilogue. -/
def withoutParticipant (node : ν) (state : RendezvousState ν) : RendezvousState ν :=
  { state with
    participants := state.participants.erase node
    last_heartbeats := state.last_heartbeats.erase node }

theorem removeFromParticipants_eq (h : Valid settings state)
    (hn : node ∈ state.participants) :
    removeFromParticipants settings node state =
      .ok (removeParticipantEpilogue settings (withoutParticipant node state)) := by
  have hb : node ∈ state.last_heartbeats := (h.heartbeats node).mpr (.inl hn)
  simp only [removeFromParticipants, hn, hb, not_true_eq_false, if_false]
  rfl

theorem withoutParticipant_valid (h : Valid settings state)
    (hn : node ∈ state.participants) : Valid settings (withoutParticipant node state) := by
  have hlen : (withoutParticipant node state).numParticipants ≤ state.numParticipants := by
    change (state.participants.erase node).keys.length ≤ _
    rw [AList.keys_erase]
    exact (erase_sublist).length_le
  refine ⟨?_, ?_, Nat.le_trans hlen h.bounded, (fun hc => Nat.lt_of_le_of_lt hlen (h.room hc)),
    (fun hc hle => h.hasDeadline hc (Nat.le_trans hle hlen))⟩
  · intro n hp
    exact h.disjoint n (AList.mem_erase.mp hp).2
  · intro n
    change n ∈ state.last_heartbeats.erase node ↔
      n ∈ state.participants.erase node ∨ n ∈ state.wait_list
    rw [AList.mem_erase, AList.mem_erase, h.heartbeats]
    have hw := h.disjoint node hn
    constructor
    · rintro ⟨hne, hp | hw'⟩
      · exact .inl ⟨hne, hp⟩
      · exact .inr hw'
    · rintro (⟨hne, hp⟩ | hw')
      · exact ⟨hne, .inl hp⟩
      · exact ⟨fun hc => hw (hc ▸ hw'), .inr hw'⟩

/-- The state of `_remove_from_wait_list`. -/
def withoutWaiter (node : ν) (state : RendezvousState ν) : RendezvousState ν :=
  { state with
    wait_list := state.wait_list.erase node
    last_heartbeats := state.last_heartbeats.erase node }

theorem removeFromWaitList_eq (h : Valid settings state) (hn : node ∈ state.wait_list) :
    removeFromWaitList node state = .ok (withoutWaiter node state) := by
  have hb : node ∈ state.last_heartbeats := (h.heartbeats node).mpr (.inr hn)
  simp only [removeFromWaitList, hn, hb, not_true_eq_false, if_false]
  rfl

theorem withoutWaiter_valid (h : Valid settings state)
    (hn : node ∈ state.wait_list) : Valid settings (withoutWaiter node state) := by
  refine ⟨fun n hp hw => h.disjoint n hp (Finset.mem_erase.mp hw).2, ?_, h.bounded, h.room,
    h.hasDeadline⟩
  intro n
  change n ∈ state.last_heartbeats.erase node ↔
    n ∈ state.participants ∨ n ∈ state.wait_list.erase node
  rw [AList.mem_erase, Finset.mem_erase, h.heartbeats]
  constructor
  · rintro ⟨hne, hp | hw⟩
    · exact .inl hp
    · exact .inr ⟨hne, hw⟩
  · rintro (hp | ⟨hne, hw⟩)
    · exact ⟨fun hc => h.disjoint n hp (hc ▸ hn), .inl hp⟩
    · exact ⟨hne, .inr hw⟩

end Actions

section Operations

variable {ν : Type} [LinearOrder ν] {settings : RendezvousSettings} {state : RendezvousState ν}

/-- When an operation may choose an action. -/
def Admits (node : ν) (state : RendezvousState ν) : Action → Prop
  | .keepAlive => node ∈ state.last_heartbeats
  | .addToParticipants => node ∉ state.participants ∧ state.complete = false
  | .addToWaitList => node ∉ state.participants ∧ state.complete = true
  | .removeFromParticipants => node ∈ state.participants
  | .removeFromWaitList => node ∈ state.wait_list
  | .markRendezvousComplete => state.complete = false
  | _ => True

variable {node : ν}

theorem mem_of_shouldKeepAlive {c : Clock}
    (h : shouldKeepAlive settings c node state = true) : node ∈ state.last_heartbeats := by
  unfold shouldKeepAlive at h
  cases hl : state.last_heartbeats.lookup node with
  | none => simp [hl] at h
  | some t => exact AList.lookup_isSome.mp (by rw [hl]; rfl)

variable (h : Valid settings state)
include h

/-- The last part of the join operation chooses well and does not compare a missing
deadline. -/
theorem joinInTime_admits (c : Clock)
    (hnot : ¬(state.complete = true ∧ node ∈ state.participants)) :
    ∃ choice, joinInTime settings c node state = .ok choice ∧
      ∀ action ∈ choice, Admits node state action := by
  unfold joinInTime
  by_cases hc : state.complete = true
  · rw [if_pos hc]
    split
    · refine ⟨_, rfl, ?_⟩
      intro action ha
      cases ha
      exact ⟨fun hp => hnot ⟨hc, hp⟩, hc⟩
    · exact ⟨none, rfl, by simp⟩
  · have hopen : state.complete = false := by simpa using hc
    rw [if_neg hc]
    by_cases hp : node ∈ state.participants
    · rw [if_pos hp]
      by_cases hmin : state.numParticipants ≥ settings.min_nodes
      · rw [if_pos hmin]
        obtain ⟨deadline, hd⟩ := Option.ne_none_iff_exists'.mp (h.hasDeadline hopen hmin)
        rw [hd]
        dsimp only
        split
        · refine ⟨_, rfl, ?_⟩
          intro action ha
          cases ha
          exact hopen
        · exact ⟨none, rfl, by simp⟩
      · rw [if_neg hmin]
        exact ⟨none, rfl, by simp⟩
    · rw [if_neg hp]
      refine ⟨_, rfl, ?_⟩
      intro action ha
      cases ha
      exact ⟨hp, hopen⟩

theorem joinOp_admits (c : Clock) (node : ν) (deadline : Int) :
    ∃ action, joinOp settings c node state deadline = .ok action ∧ Admits node state action := by
  unfold joinOp
  split
  · exact ⟨_, rfl, trivial⟩
  split
  · exact ⟨_, rfl, trivial⟩
  next hnot =>
    split
    · split
      · next hp => exact ⟨_, rfl, hp.2⟩
      split
      · next hw => exact ⟨_, rfl, hw.2⟩
      · exact ⟨_, rfl, trivial⟩
    · obtain ⟨choice, hchoice, hok⟩ := joinInTime_admits h c hnot
      rw [hchoice]
      cases choice with
      | some action => exact ⟨action, rfl, hok action rfl⟩
      | none =>
        refine ⟨_, rfl, ?_⟩
        split
        · next hk => exact mem_of_shouldKeepAlive hk
        · trivial

theorem handle_admits (op : Op) (c : Clock) (node : ν) (deadline : Int) :
    ∃ action, op.handle settings c node state deadline = .ok action ∧ Admits node state action := by
  cases op with
  | exit =>
    refine ⟨_, rfl, ?_⟩
    unfold exitOp
    split
    · next hp =>
        split
        · trivial
        · exact hp
    · trivial
  | join => exact joinOp_admits h c node deadline
  | close =>
    refine ⟨_, rfl, ?_⟩
    unfold closeOp
    split
    · trivial
    · split <;> trivial
  | keepAlive =>
    refine ⟨_, rfl, ?_⟩
    unfold keepAliveOp
    split
    · next hk =>
        split
        · trivial
        · exact mem_of_shouldKeepAlive hk
    · trivial

/-- An action that an operation chose succeeds, keeps the invariant and does not go
back. -/
theorem perform_valid (c : Clock) {action : Action}
    (ha : Admits node state action) :
    ∃ state', perform settings c node state action = .ok state' ∧
      Valid settings state' ∧ Advances state state' := by
  cases action with
  | keepAlive => exact ⟨_, rfl, keepAlive_valid h c.heartbeatNow ha, Advances.refl state⟩
  | addToParticipants =>
    refine ⟨_, rfl, addToParticipants_valid h c ha.1 ha.2, ?_⟩
    rw [addToParticipants_eq]
    split <;> exact Advances.refl state
  | addToWaitList => exact ⟨_, rfl, addToWaitList_valid h c ha.1, Advances.refl state⟩
  | removeFromParticipants =>
    refine ⟨_, removeFromParticipants_eq h ha, (withoutParticipant_valid h ha).epilogue, ?_⟩
    have hadv := epilogue_advances settings (withoutParticipant node state)
    exact ⟨hadv.2.1, fun hc => hadv.1.trans hc⟩
  | removeFromWaitList =>
    exact ⟨_, removeFromWaitList_eq h ha, withoutWaiter_valid h ha, Advances.refl state⟩
  | markRendezvousComplete =>
    exact ⟨_, rfl, markRendezvousComplete_valid h.disjoint h.heartbeats h.bounded,
      Advances.refl state⟩
  | markRendezvousClosed =>
    exact ⟨_, rfl, ⟨h.disjoint, h.heartbeats, h.bounded, h.room, h.hasDeadline⟩,
      Nat.le_refl _, fun _ => rfl⟩
  | sync => exact ⟨_, rfl, h, Advances.refl state⟩
  | errorClosed => exact ⟨_, rfl, h, Advances.refl state⟩
  | errorTimeout => exact ⟨_, rfl, h, Advances.refl state⟩
  | finish => exact ⟨_, rfl, h, Advances.refl state⟩

end Operations

section Runs

variable {ν τ : Type} [LinearOrder ν] [DecidableEq τ]
variable (settings : RendezvousSettings) (F : Fence (RendezvousState ν) τ)

/-- The state that is stored, a new one if nothing is stored yet. -/
def stored (log : List (RendezvousState ν)) : RendezvousState ν :=
  log.getLast?.getD RendezvousState.new

/-- A sync serves the cached state, or it loads what is stored afterwards; it may
have stored the copy, in place of the state the copy came from. -/
theorem sync_cases (log : List (RendezvousState ν)) (h : StateHolder ν τ) (c : Clock)
    {b : Option (RendezvousState ν)} (hb : F.Issued log h.token b) :
    (h.dirty = false ∧ h.sync settings F log c = (log, h)) ∨
    ∃ log' token, h.sync settings F log c =
      (log', StateHolder.load settings c (stored log') token) ∧
      F.Issued log' token log'.getLast? ∧
      (h.dirty = true ∨ h.isCached settings c = false) ∧
      (log' = log ∨ (h.dirty = true ∧ log' = log ++ [h.state] ∧ log.getLast? = b)) := by
  unfold StateHolder.sync
  by_cases hd : h.dirty = true
  · right
    rw [if_pos hd]
    rcases Fence.set_cases hb h.state with ⟨hset, hlast⟩ | ⟨s', hlast, hset⟩
    · rw [hset]
      refine ⟨_, _, by simp [stored]; rfl, ?_, .inl hd, .inr ⟨hd, rfl, hlast⟩⟩
      rw [getLast?_concat]
      exact Fence.issued_concat log h.state
    · rw [hset]
      refine ⟨log, _, by simp [stored, hlast]; rfl, ?_, .inl hd, .inl rfl⟩
      rw [hlast]
      exact Fence.issued_last hlast
  · rw [if_neg hd]
    by_cases hc : h.isCached settings c = true
    · left
      rw [if_pos hc]
      exact ⟨by simpa using hd, rfl⟩
    · have hc' : h.isCached settings c = false := by simpa using hc
      right
      rw [if_neg hc]
      rcases Fence.current_cases (F := F) log with ⟨hcur, rfl⟩ | ⟨s', hlast, hcur⟩
      · rw [hcur]
        exact ⟨[], none, rfl, .nothing, .inr hc', .inl rfl⟩
      · rw [hcur]
        refine ⟨log, _, by simp [stored, hlast]; rfl, ?_, .inr hc', .inl rfl⟩
        rw [hlast]
        exact Fence.issued_last hlast

/-- The copy of a node: valid, and not behind the state it came from. -/
def HolderOk (log : List (RendezvousState ν)) (h : StateHolder ν τ) : Prop :=
  Valid settings h.state ∧
    ∃ b, F.Issued log h.token b ∧ Advances (b.getD RendezvousState.new) h.state

structure SystemOk (s : System ν τ) : Prop where
  valid : ∀ state ∈ s.log, Valid settings state
  advances : s.log.Pairwise Advances
  holders : ∀ node, HolderOk settings F s.log (s.nodes node).holder

variable {settings F}

theorem stored_valid {log : List (RendezvousState ν)} (h : ∀ state ∈ log, Valid settings state) :
    Valid settings (stored log) := by
  unfold stored
  cases hl : log.getLast? with
  | none => exact new_valid
  | some state => exact h state (mem_of_getLast? hl)

omit [DecidableEq τ] in
theorem HolderOk.concat {log : List (RendezvousState ν)} {h : StateHolder ν τ}
    (hh : HolderOk settings F log h) (state : RendezvousState ν) :
    HolderOk settings F (log ++ [state]) h := by
  obtain ⟨hv, b, hb, hadv⟩ := hh
  exact ⟨hv, b, hb.concat state, hadv⟩

omit [DecidableEq τ] in
/-- A copy that is loaded is valid. -/
theorem HolderOk.load {log : List (RendezvousState ν)} {token : Option τ}
    (hlog : ∀ state ∈ log, Valid settings state) (ht : F.Issued log token log.getLast?)
    (c : Clock) : HolderOk settings F log (StateHolder.load settings c (stored log) token) := by
  refine ⟨(stored_valid hlog).sanitize c.expireNow, _, ht, ?_⟩
  obtain ⟨hclosed, hround, -⟩ := sanitize_advances settings c.expireNow (stored log)
  exact ⟨hround, fun hc => hclosed.trans hc⟩

variable {s : System ν τ}

theorem sync_ok (h : SystemOk settings F s) (node : ν) (c : Clock) :
    let p := (s.nodes node).holder.sync settings F s.log c
    (∀ state ∈ p.1, Valid settings state) ∧ p.1.Pairwise Advances ∧
      HolderOk settings F p.1 p.2 ∧
        ∀ g, HolderOk settings F s.log g → HolderOk settings F p.1 g := by
  obtain ⟨hv, b, hb, hadv⟩ := h.holders node
  rcases sync_cases settings F s.log (s.nodes node).holder c hb with
    ⟨-, heq⟩ | ⟨log', token, heq, ht, -, hlog⟩
  · rw [heq]
    exact ⟨h.valid, h.advances, h.holders node, fun g hg => hg⟩
  · rw [heq]
    rcases hlog with rfl | ⟨-, rfl, hlast⟩
    · exact ⟨h.valid, h.advances, HolderOk.load h.valid ht c, fun g hg => hg⟩
    · have hvalid : ∀ state ∈ s.log ++ [(s.nodes node).holder.state], Valid settings state := by
        intro state hin
        rcases mem_append.mp hin with hin | hin
        · exact h.valid state hin
        · rw [mem_singleton.mp hin]
          exact hv
      refine ⟨hvalid, ?_, HolderOk.load hvalid ht c, fun g hg => hg.concat _⟩
      -- the write replaces the state the copy came from
      refine pairwise_concat (fun _ _ _ h₁ h₂ => h₁.trans h₂) h.advances ?_
      intro last hl
      rw [← hlast, hl] at hadv
      exact hadv

omit [DecidableEq τ] in
theorem act_ok {log : List (RendezvousState ν)} {h : StateHolder ν τ}
    (hh : HolderOk settings F log h) (op : Op) (node : ν) (deadline : Int) (c : Clock) :
    HolderOk settings F log (h.act settings op node deadline c).1 ∧
      ∀ e, (h.act settings op node deadline c).2 ≠ .failed e := by
  obtain ⟨hv, b, hb, hadv⟩ := hh
  obtain ⟨action, hhandle, hadmits⟩ := handle_admits hv op c node deadline
  obtain ⟨state', hperform, hv', hadv'⟩ := perform_valid hv c hadmits
  have hsame : HolderOk settings F log h := ⟨hv, b, hb, hadv⟩
  have hdone : HolderOk settings F log { h with state := state', dirty := true } :=
    ⟨hv', b, hb, hadv.trans hadv'⟩
  cases action <;> simp only [StateHolder.act, hhandle, hperform] <;>
    exact ⟨by assumption, by simp⟩

omit [DecidableEq τ] in
/-- One node and the log change. -/
theorem SystemOk.put {s : System ν τ} (h : SystemOk settings F s) (node : ν)
    {log : List (RendezvousState ν)} {g : StateHolder ν τ} (phase : Phase)
    (hvalid : ∀ state ∈ log, Valid settings state) (hadv : log.Pairwise Advances)
    (hself : HolderOk settings F log g)
    (hother : ∀ g, HolderOk settings F s.log g → HolderOk settings F log g) :
    SystemOk settings F (s.put node log g phase) where
  valid := hvalid
  advances := hadv
  holders n := by
    by_cases hn : n = node
    · subst hn
      simpa [System.put] using hself
    · simpa [System.put, hn] using hother _ (h.holders n)

theorem runOnce_ok (h : SystemOk settings F s) (op : Op) (node : ν)
    (deadline : Int) (c : Clock) (next : Outcome → Phase) :
    SystemOk settings F (s.runOnce settings F op node deadline c next).1 ∧
      ∀ e, (s.runOnce settings F op node deadline c next).2 ≠ .failed e := by
  obtain ⟨hvalid, hadv, hself, hother⟩ := sync_ok h node c
  obtain ⟨hact, hfail⟩ := act_ok hself op node deadline c
  exact ⟨h.put node _ hvalid hadv hact hother, hfail⟩

/-- Every move keeps the system right and no assertion fails. -/
theorem step_ok (h : SystemOk settings F s) (m : Move ν) :
    SystemOk settings F (s.step settings F m).1 ∧ ∀ e, (s.step settings F m).2 ≠ .failed e := by
  have hkeep : ∀ node phase,
      SystemOk settings F (s.put node s.log (s.nodes node).holder phase) := fun node phase =>
    h.put node phase h.valid h.advances (h.holders node) fun g hg => hg
  cases m with
  | nextRendezvous node deadline =>
    cases hp : (s.nodes node).phase <;> simp only [System.step, hp]
    · exact ⟨hkeep node _, by simp⟩
    all_goals exact ⟨h, by simp⟩
  | iterate node c =>
    cases hp : (s.nodes node).phase with
    | idle =>
      simp only [System.step, hp]
      exact ⟨h, by simp⟩
    | exit deadline =>
      simp only [System.step, hp]
      exact runOnce_ok h ..
    | join deadline =>
      simp only [System.step, hp]
      exact runOnce_ok h ..
    | world =>
      simp only [System.step, hp]
      exact ⟨h, by simp⟩
  | getWorld node =>
    have hidle := hkeep node .idle
    cases hp : (s.nodes node).phase with
    | world =>
      cases hl : (s.nodes node).holder.state.participants.lookup node with
      | none =>
        simp only [System.step, hp, hl]
        exact ⟨hidle, by simp⟩
      | some rank =>
        simp only [System.step, hp, hl]
        exact ⟨⟨hidle.valid, hidle.advances, hidle.holders⟩, by simp⟩
    | _ =>
      simp only [System.step, hp]
      exact ⟨h, by simp⟩
  | keepAlive node c deadline => exact runOnce_ok h ..
  | setClosed node c deadline => exact runOnce_ok h ..
  | sync node c =>
    obtain ⟨hvalid, hadv, hself, hother⟩ := sync_ok h node c
    exact ⟨h.put node _ hvalid hadv hself hother, by simp [System.step]⟩

theorem init_ok : SystemOk settings F (machine settings F).init where
  valid := by simp [machine]
  advances := Pairwise.nil
  holders _ := ⟨new_valid, none, .nothing, Advances.refl _⟩

theorem run_ok (as : List (Move ν)) : ∀ {s : System ν τ}, SystemOk settings F s →
      SystemOk settings F ((machine settings F).exec s as) ∧
        ∀ e, .failed e ∉ (machine settings F).outcomes s as := by
  induction as with
  | nil => exact fun h => ⟨h, by simp [Machine.outcomes]⟩
  | cons m as ih =>
    intro s h
    obtain ⟨hstep, hfail⟩ := step_ok h m
    obtain ⟨hrun, hrest⟩ := ih hstep
    refine ⟨hrun, ?_⟩
    intro e he
    rcases mem_cons.mp he with he | he
    · exact hfail e he.symm
    · exact hrest e he

/-- A copy just after `_sanitize`: it has the closed flag of the stored state, and its
round or the next one. -/
def Follows (log : List (RendezvousState ν)) (state : RendezvousState ν) : Prop :=
  state.closed = (stored log).closed ∧ (stored log).round ≤ state.round ∧
    state.round ≤ (stored log).round + 1

variable (settings F)

/-- In every run, every stored state and every copy, in particular after `_sanitize`, is valid;
the stored states do not go back, and no step raises a `KeyError` in the executor or compares a
missing deadline. -/
theorem rendezvous_valid (as : List (Move ν)) :
    let s := (machine settings F).exec (machine settings F).init as
    (∀ state ∈ s.log, Valid settings state) ∧
    s.log.Pairwise Advances ∧
    (∀ node, Valid settings (s.nodes node).holder.state) ∧
    (∀ node c,
      let p := (s.nodes node).holder.sync settings F s.log c
      Valid settings p.2.state ∧ (p = (s.log, (s.nodes node).holder) ∨ Follows p.1 p.2.state)) ∧
    ∀ e, .failed e ∉ (machine settings F).outcomes (machine settings F).init as := by
  have hinit : SystemOk settings F (machine settings F).init := init_ok
  obtain ⟨h, hfail⟩ := run_ok as hinit
  refine ⟨h.valid, h.advances, fun node => (h.holders node).1, ?_, hfail⟩
  intro node c
  obtain ⟨-, -, hself, -⟩ := sync_ok h node c
  refine ⟨hself.1, ?_⟩
  obtain ⟨-, b, hb, -⟩ := h.holders node
  rcases sync_cases settings F _ _ c hb with ⟨-, heq⟩ | ⟨log', token, heq, -⟩
  · exact .inl heq
  · right
    rw [heq]
    exact sanitize_advances settings c.expireNow (stored log')

end Runs

section Example

/-- One node at most, with the default times. -/
def oneNode : RendezvousSettings where
  min_nodes := 1
  max_nodes := 1
  last_call := 30000000
  keep_alive_interval := 5000000
  keep_alive_max_attempt := 3
  cache_duration := 1000000
  min_nodes_pos := by decide
  min_le_max := by decide

def versions : Fence (RendezvousState Nat) Nat where
  token n _ := n
  identifies _ _ _ _ h := Or.inl h

/-- Every clock shows the second `t`. -/
def Clock.at (t : Int) : Clock :=
  ⟨t * 1000000, t * 1000000, t * 1000000, t * 1000000, t * 1000000, t * 1000000, t * 1000000,
    t * 1000000⟩

/-- Node 1 syncs at second 116, while the heartbeat of node 0 of second 115 is on its way, and
finds only the old one. -/
def lateHeartbeat : List (Move Nat) :=
  [.nextRendezvous 0 700000000, .iterate 0 (.at 100), .iterate 0 (.at 100), .iterate 0 (.at 100),
   .getWorld 0, .keepAlive 0 (.at 115) 120000000, .sync 1 (.at 116)]

/-- The heartbeat arrives, and node 1 syncs again. -/
def heartbeatArrives : List (Move Nat) :=
  [.keepAlive 0 (.at 117) 120000000, .sync 1 (.at 118)]

/-- The copy of a node that has just been sanitised can go back to an earlier round. -/
theorem local_round_reverts :
    let M := machine oneNode versions
    let s := M.exec M.init lateHeartbeat
    let s' := M.exec s heartbeatArrives
    M.outcomes M.init (lateHeartbeat ++ heartbeatArrives) =
      [.done, .done, .acted .addToParticipants, .done, .done, .acted .keepAlive, .done,
        .done, .done] ∧
    (s.nodes 1).holder.dirty = false ∧ (s.nodes 1).holder.state.round = 1 ∧
    (s'.nodes 1).holder.dirty = false ∧ (s'.nodes 1).holder.state.round = 0 := by
  decide

end Example

end PyTorchCore.Rendezvous
