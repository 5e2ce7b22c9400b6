import PyTorchCore.Rendezvous.Copies

/-!
# Agreement of the nodes of a round

The documentation promises that all members of a completed rendezvous agree on the
membership and on everyone's rank.  A node reads its rank and the world size from
its own copy of the state, some time after the round was completed, and a
participant that leaves or is dropped as dead meanwhile is missing there: in
`earlyLeave` a node returns rank 1 of a world of size 1.
-/

namespace PyTorchCore.Rendezvous

open Lib
open Option Function List

/-- A call of `next_rendezvous` by `n` has returned for the round. -/
def HasReturned {ν : Type} (returned : List (Return ν)) (n : ν) (round : Nat) : Prop :=
  ∃ ret ∈ returned, ret.node = n ∧ ret.round = round

def Agreement {ν : Type} (returned : List (Return ν)) : Prop :=
  (∀ a ∈ returned, ∀ b ∈ returned, a.round = b.round → a.node ≠ b.node →
    a.world_size = b.world_size ∧ a.rank ≠ b.rank) ∧
  ∀ a ∈ returned, a.rank < a.world_size

section Condition

variable {ν τ : Type} [LinearOrder ν] [DecidableEq τ]
variable (settings : RendezvousSettings) (F : Fence (RendezvousState ν) τ)

/-- The node loads a state, rather than serving the cached one. -/
def System.loads (s : System ν τ) (node : ν) (c : Clock) : Prop :=
  (s.nodes node).holder.dirty = true ∨ (s.nodes node).holder.isCached settings c = false

/-- If `_sanitize` drops a participant of a complete round, all those it keeps have
returned. -/
def SanitizeKeeps (returned : List (Return ν)) (now : Int) (state : RendezvousState ν) : Prop :=
  state.complete = true →
    (∃ n ∈ deadNodes settings now state, n ∈ state.participants) →
    ∀ n ∈ state.participants.keys, n ∉ deadNodes settings now state →
      HasReturned returned n state.round

def SyncKeeps (s : System ν τ) (node : ν) (c : Clock) : Prop :=
  s.loads settings node c → SanitizeKeeps settings s.returned c.expireNow
    (stored ((s.nodes node).holder.sync settings F s.log c).1)

/-- If the exit operation takes the node out of a complete round, all others have
returned. -/
def ExitKeeps (returned : List (Return ν)) (node : ν) (deadline : Int) (c : Clock)
    (state : RendezvousState ν) : Prop :=
  state.complete = true → exitOp c node state deadline = .removeFromParticipants →
    ∀ n ∈ state.participants.keys, n ≠ node → HasReturned returned n state.round

/-- An iteration of the operation that `next_rendezvous` runs in the phase. -/
def IterateKeeps (s : System ν τ) (node : ν) (c : Clock) : Phase → Prop
  | .exit deadline => SyncKeeps settings F s node c ∧
      ExitKeeps s.returned node deadline c ((s.nodes node).holder.sync settings F s.log c).2.state
  | .join _ => SyncKeeps settings F s node c
  | _ => True

/-- The step removes no participant of a complete round before its time. -/
def KeepsWorld (s : System ν τ) : Move ν → Prop
  | .nextRendezvous _ _ => True
  | .iterate node c => IterateKeeps settings F s node c (s.nodes node).phase
  | .getWorld _ => True
  | .keepAlive node c _ => SyncKeeps settings F s node c
  | .setClosed node c _ => SyncKeeps settings F s node c
  | .sync node c => SyncKeeps settings F s node c

end Condition

def Move.reads {ν : Type} : Move ν → Option (ν × Clock)
  | .iterate node c => some (node, c)
  | .keepAlive node c _ => some (node, c)
  | .setClosed node c _ => some (node, c)
  | .sync node c => some (node, c)
  | _ => none

/-- If both steps are of one node, its `utcnow()` did not go back. -/
def Move.notAfter {ν : Type} (a b : Move ν) : Prop :=
  ∀ p ∈ a.reads, ∀ q ∈ b.reads, p.1 = q.1 → p.2.expireNow ≤ q.2.expireNow

def ClocksAdvance {ν : Type} (as : List (Move ν)) : Prop :=
  as.Pairwise Move.notAfter

section Worlds

variable {ν τ : Type} [LinearOrder ν]

/-- The participants and ranks with which the round was completed. -/
def worldOf (log : List (RendezvousState ν)) (round : Nat) : Option (AList fun _ : ν => Nat) :=
  (log.find? fun state => decide (state.round = round) && state.complete).map
    RendezvousState.participants

/-- The participants of a complete state are those of the world of its round; if some
are missing, the others have returned. -/
def InWorld (log : List (RendezvousState ν)) (returned : List (Return ν))
    (state : RendezvousState ν) : Prop :=
  ∃ p, worldOf log state.round = some p ∧ Sub state.participants p ∧
    (state.numParticipants = p.keys.length ∨
      ∀ n, n ∈ state.participants → HasReturned returned n state.round)

/-- What a stored state and a later one have in common. -/
def Later (a b : RendezvousState ν) : Prop :=
  NotBefore a b ∧
    (a.complete = true → b.round = a.round → Sub b.participants a.participants)

theorem Later.trans {a b c : RendezvousState ν} (h : Later a b) (h' : Later b c) : Later a c := by
  refine ⟨h.1.trans h'.1, fun ha hr => ?_⟩
  have h₂ := h'.1.round_le
  obtain ⟨hr', hb⟩ := h.1.complete (by omega) ha
  exact (h'.2 hb (by omega)).trans (h.2 ha hr')

/-- The invariant of the stored states and of the calls that returned. -/
structure LogOk (log : List (RendezvousState ν)) (returned : List (Return ν)) : Prop where
  later : log.Pairwise Later
  world : ∀ state ∈ log, state.complete = true → InWorld log returned state
  ranked : ∀ round p, worldOf log round = some p → Ranked p
  recorded : ∀ ret ∈ returned, ∃ p, worldOf log ret.round = some p ∧
    p.lookup ret.node = some ret.rank ∧ ret.world_size = p.keys.length

section

omit [LinearOrder ν]

theorem worldOf_concat {log : List (RendezvousState ν)} {round : Nat}
    {p : AList fun _ : ν => Nat} (h : worldOf log round = some p) (state : RendezvousState ν) :
    worldOf (log ++ [state]) round = some p := by
  unfold worldOf at h ⊢
  obtain ⟨a, ha, rfl⟩ := map_eq_some_iff.mp h
  rw [find?_append, ha]
  rfl

theorem worldOf_concat_none {log : List (RendezvousState ν)} {round : Nat}
    (h : worldOf log round = none) (state : RendezvousState ν) :
    worldOf (log ++ [state]) round =
      if state.round = round ∧ state.complete = true then some state.participants else none := by
  unfold worldOf at h ⊢
  rw [map_eq_none_iff] at h
  rw [find?_append, h, none_or, find?_singleton]
  by_cases hc : state.round = round ∧ state.complete = true
  · simp [hc.1, hc.2]
  · rw [if_neg hc, if_neg]
    · rfl
    · simpa using hc

theorem worldOf_some_iff {log : List (RendezvousState ν)} {round : Nat} :
    (∃ p, worldOf log round = some p) ↔
      ∃ state ∈ log, state.round = round ∧ state.complete = true := by
  rw [← isSome_iff_exists, worldOf, isSome_map, find?_isSome]
  simp

end

variable {log : List (RendezvousState ν)} {returned : List (Return ν)} {state : RendezvousState ν}

theorem InWorld.concat (h : InWorld log returned state) (next : RendezvousState ν) :
    InWorld (log ++ [next]) returned state := by
  obtain ⟨p, hp, hsub, hfull⟩ := h
  exact ⟨p, worldOf_concat hp next, hsub, hfull⟩

theorem InWorld.returns (h : InWorld log returned state) (ret : Return ν) :
    InWorld log (returned ++ [ret]) state := by
  obtain ⟨p, hp, hsub, hfull⟩ := h
  refine ⟨p, hp, hsub, hfull.imp id fun hall n hn => ?_⟩
  obtain ⟨ret', hin, hret⟩ := hall n hn
  exact ⟨ret', mem_append_left _ hin, hret⟩

/-- A state in the world of its round stays there when it loses participants, if the
remaining ones have returned. -/
theorem InWorld.shrink
    {a b : RendezvousState ν} (h : InWorld log returned a) (hround : b.round = a.round)
    (hsub : Sub b.participants a.participants)
    (hcase : b.numParticipants = a.numParticipants ∨
      ∀ n, n ∈ b.participants → HasReturned returned n a.round) : InWorld log returned b := by
  obtain ⟨p, hp, hsub', hfull⟩ := h
  refine ⟨p, by rw [hround]; exact hp, hsub.trans hsub', ?_⟩
  rw [hround]
  rcases hcase with heq | hall
  · rcases hfull with hfull | hfull
    · exact .inl (heq.trans hfull)
    · exact .inr fun n hn => hfull n (hsub.mem hn)
  · exact .inr hall

omit [LinearOrder ν] in
theorem stored_concat (log : List (RendezvousState ν)) (state : RendezvousState ν) :
    stored (log ++ [state]) = state := by
  simp [stored]

theorem LogOk.notBefore_stored (h : LogOk log returned) (hin : state ∈ log) :
    NotBefore state (stored log) := by
  rcases eq_nil_or_concat log with rfl | ⟨log', last, rfl⟩
  · cases hin
  · rw [concat_eq_append] at hin ⊢
    rw [stored_concat]
    have hpair := h.later
    rw [concat_eq_append, pairwise_append] at hpair
    rcases mem_append.mp hin with hin | hin
    · exact (hpair.2.2 state hin last (by simp)).1
    · rw [mem_singleton.mp hin]
      exact NotBefore.refl last

theorem LogOk.past_world (h : LogOk log returned) {round : Nat} {p : AList fun _ : ν => Nat}
    (hp : worldOf log round = some p) :
    round < (stored log).round ∨ (round = (stored log).round ∧ (stored log).complete = true) := by
  obtain ⟨state, hin, rfl, hc⟩ := worldOf_some_iff.mp ⟨p, hp⟩
  rcases h.notBefore_stored hin with hlt | ⟨heq, hcomp⟩
  · exact .inl hlt
  · exact .inr ⟨heq, hcomp hc⟩

/-- Writing a state to the store keeps the log right. -/
theorem LogOk.concat (h : LogOk log returned) {j : ν}
    (hedits : Edits j (stored log) state)
    (hworld : state.complete = true → InWorld log returned state ∨ (Ranked state.participants ∧
        ¬((stored log).complete = true ∧ (stored log).round = state.round))) :
    LogOk (log ++ [state]) returned := by
  -- the world of the round of `state` is there already, or `state` makes it
  have hnew : state.complete = true → (¬∃ p, worldOf log state.round = some p) →
      Ranked state.participants := by
    intro hc hnone
    rcases hworld hc with ⟨p, hp, -⟩ | ⟨hr, -⟩
    · exact absurd ⟨p, hp⟩ hnone
    · exact hr
  constructor
  · refine pairwise_concat (fun _ _ _ h₁ h₂ => h₁.trans h₂) h.later ?_
    intro last hlast
    have heq : stored log = last := by simp [stored, hlast]
    rw [← heq]
    exact ⟨hedits.notBefore, hedits.shrinks⟩
  · intro state' hin hc
    rcases mem_append.mp hin with hin | hin
    · exact (h.world state' hin hc).concat state
    · obtain rfl := mem_singleton.mp hin
      rcases hworld hc with hw | ⟨-, hnot⟩
      · exact hw.concat state'
      · have hnone : worldOf log state'.round = none := by
          by_contra hsome
          obtain ⟨p, hp⟩ := ne_none_iff_exists'.mp hsome
          have hle := hedits.notBefore.round_le
          rcases h.past_world hp with hlt | ⟨heq, hcomp⟩
          · omega
          · exact hnot ⟨hcomp, heq.symm⟩
        refine ⟨state'.participants, ?_, Sub.refl _, .inl rfl⟩
        rw [worldOf_concat_none hnone, if_pos ⟨rfl, hc⟩]
  · intro round p hp
    cases hold : worldOf log round with
    | some q =>
      rw [worldOf_concat hold, Option.some.injEq] at hp
      exact hp ▸ h.ranked round q hold
    | none =>
      rw [worldOf_concat_none hold] at hp
      split at hp
      · next hc =>
          rw [Option.some.injEq] at hp
          rw [← hp]
          refine hnew hc.2 ?_
          rintro ⟨q, hq⟩
          rw [hc.1, hold] at hq
          cases hq
      · cases hp
  · intro ret hret
    obtain ⟨p, hp, hrest⟩ := h.recorded ret hret
    exact ⟨p, worldOf_concat hp state, hrest⟩

end Worlds

/-- The join operation runs. -/
def Phase.isJoin : Phase → Bool
  | .join _ => true
  | _ => false

/-- The exit operation has finished, and the call has not returned. -/
def Phase.pastExit : Phase → Bool
  | .join _ => true
  | .world => true
  | _ => false

section Nodes

variable {ν τ : Type} [LinearOrder ν]

/-- The copy of a joining node completes a round that is not complete in the state
`b` it came from. -/
structure Fresh (b : RendezvousState ν) (x : NodeState ν τ) : Prop where
  dirty : x.holder.dirty = true
  joining : x.phase.isJoin = true
  ranked : Ranked x.holder.state.participants
  notYet : ¬(b.complete = true ∧ b.round = x.holder.state.round)

variable (settings : RendezvousSettings) (F : Fence (RendezvousState ν) τ)

/-- The invariant of the node `n` in state `x`, whose clock last showed `now`. -/
structure NodeOk (log : List (RendezvousState ν)) (returned : List (Return ν)) (now : Int) (n : ν)
    (x : NodeState ν τ) : Prop where
  base : ∃ b, F.Issued log x.holder.token b ∧
    Edits n (b.getD RendezvousState.new) x.holder.state ∧
    (x.holder.state.complete = true →
      InWorld log returned x.holder.state ∨ Fresh (b.getD RendezvousState.new) x)
  /-- Only the node itself enters a round. -/
  own : n ∈ (stored log).participants → (stored log).round ≤ x.holder.state.round
  forward : ∀ r, HasReturned returned n r → r < x.holder.state.round ∨
    (r = x.holder.state.round ∧ x.holder.state.complete = true)
  /-- A node that has returned for the stored round, and is not in it by its own copy,
  has no fresh heartbeat there. -/
  gone : x.holder.dirty = false ∨ x.phase.pastExit = true → ∀ r, HasReturned returned n r →
    ¬(x.holder.state.round = r ∧ n ∈ x.holder.state.participants) → (stored log).round = r →
    n ∈ (stored log).participants → Expired settings now (stored log) n
  /-- A node does not return twice for one round. -/
  away : x.phase.pastExit = true → ∀ r, HasReturned returned n r →
    ¬(x.holder.state.round = r ∧ n ∈ x.holder.state.participants)
  atWorld : x.phase = .world →
    (n ∈ x.holder.state.participants → x.holder.state.complete = true) ∧
    (n ∈ (stored log).participants → (stored log).complete = true)

variable {settings F}
variable {log : List (RendezvousState ν)} {returned : List (Return ν)} {now : Int} {n : ν}
variable {x : NodeState ν τ}
section

variable (h : NodeOk settings F log returned now n x)
include h

theorem NodeOk.tick {later : Int} (hle : now ≤ later) : NodeOk settings F log returned later n x :=
  { h with
    gone := fun hd r hr hnot hround hin => by
      obtain ⟨t, ht, hlt⟩ := h.gone hd r hr hnot hround hin
      exact ⟨t, ht, by omega⟩ }

theorem NodeOk.concat {j : ν} (hne : n ≠ j)
    {state : RendezvousState ν} (hedits : Edits j (stored log) state) :
    NodeOk settings F (log ++ [state]) returned now n x := by
  obtain ⟨b, hb, he, hw⟩ := h.base
  constructor
  · exact ⟨b, hb.concat state, he, fun hc => (hw hc).imp (fun hin => hin.concat state) id⟩
  · rw [stored_concat]
    intro hin
    obtain ⟨hin', hround, -⟩ := hedits.other n hne hin
    rw [hround]
    exact h.own hin'
  · exact h.forward
  · rw [stored_concat]
    intro hd r hr hnot hround hin
    obtain ⟨hin', hround', hbeat⟩ := hedits.other n hne hin
    obtain ⟨t, ht, hlt⟩ := h.gone hd r hr hnot (hround'.symm.trans hround) hin'
    exact ⟨t, hbeat.trans ht, hlt⟩
  · exact h.away
  · rw [stored_concat]
    intro hp
    obtain ⟨h₁, h₂⟩ := h.atWorld hp
    exact ⟨h₁, fun hin => hedits.stays n hne hin (h₂ (hedits.other n hne hin).1)⟩

theorem NodeOk.returns {ret : Return ν}
    (hne : n ≠ ret.node) : NodeOk settings F log (returned ++ [ret]) now n x := by
  have hsame : ∀ r, HasReturned (returned ++ [ret]) n r → HasReturned returned n r := by
    rintro r ⟨ret', hin, hn, hr⟩
    rcases mem_append.mp hin with hin | hin
    · exact ⟨ret', hin, hn, hr⟩
    · rw [mem_singleton.mp hin] at hn
      exact absurd hn.symm hne
  obtain ⟨b, hb, he, hw⟩ := h.base
  exact {
    base := ⟨b, hb, he, fun hc => (hw hc).imp (fun hin => hin.returns ret) id⟩
    own := h.own
    forward := fun r hr => h.forward r (hsame r hr)
    gone := fun hd r hr => h.gone hd r (hsame r hr)
    away := fun hp r hr => h.away hp r (hsame r hr)
    atWorld := h.atWorld }

theorem NodeOk.inWorld (hc : x.holder.state.complete = true)
    (hold : x.holder.dirty = false ∨ x.phase.isJoin = false) :
    InWorld log returned x.holder.state := by
  obtain ⟨b, -, -, hw⟩ := h.base
  rcases hw hc with hin | hfresh
  · exact hin
  · rcases hold with hd | hj
    · rw [hfresh.dirty] at hd
      cases hd
    · rw [hfresh.joining] at hj
      cases hj

end

/-- The node loads the state that is stored; `hkeep` is the condition on `_sanitize`. -/
theorem NodeOk.load (hlog : LogOk log returned) {token : Option τ}
    (ht : F.Issued log token log.getLast?) (c : Clock) (phase : Phase)
    (hkeep : SanitizeKeeps settings returned c.expireNow (stored log))
    (hback : phase.pastExit = true → ∀ r, HasReturned returned n r → (stored log).round = r →
      n ∈ (stored log).participants → Expired settings c.expireNow (stored log) n)
    (hworld : phase = .world → n ∈ (stored log).participants → (stored log).complete = true) :
    NodeOk settings F log returned c.expireNow n
      ⟨StateHolder.load settings c (stored log) token, phase⟩ := by
  have hedits := sanitize_edits settings c.expireNow n (stored log)
  constructor
  · refine ⟨_, ht, hedits, fun hc => .inl ?_⟩
    -- a complete copy comes from a complete state, of the same round
    obtain ⟨rest, hr, hcase⟩ := sanitize_cases settings c.expireNow (stored log)
    have hsame : (sanitize settings c.expireNow (stored log)).round = (stored log).round ∧
        (stored log).complete = true := by
      rcases hcase with ⟨heq, -⟩ | ⟨heq, -⟩
      · rw [StateHolder.load, heq] at hc
        rw [heq]
        exact ⟨hr.round, hr.complete.symm.trans hc⟩
      · rw [StateHolder.load, heq] at hc
        rw [heq]
        rcases (epilogue_cases settings rest).2 with ⟨hround, hcomp⟩ | ⟨-, -, -, hfalse⟩
        · exact ⟨hround.trans hr.round, (hr.complete.symm.trans hcomp.symm).trans hc⟩
        · change (removeParticipantEpilogue settings rest).complete = true at hc
          rw [hfalse] at hc
          cases hc
    have hin : stored log ∈ log := by
      cases hl : log.getLast? with
      | none =>
        have := hsame.2
        simp [stored, hl, RendezvousState.new] at this
      | some last =>
        simp only [stored, hl, getD_some]
        exact mem_of_getLast? hl
    refine (hlog.world _ hin hsame.2).shrink hsame.1 (sanitize_sub settings _ _) ?_
    by_cases hdead : ∃ m ∈ deadNodes settings c.expireNow (stored log),
        m ∈ (stored log).participants
    · right
      intro m hm
      obtain ⟨hp, he, -⟩ := sanitize_participant hm
      exact hkeep hsame.2 hdead m hp fun hd => he (mem_deadNodes.mp hd)
    · left
      refine numParticipants_sanitize fun m hm he => hdead ⟨m, mem_deadNodes.mpr he, hm⟩
  · exact fun _ => hedits.notBefore.round_le
  · rintro r ⟨ret, hret, -, rfl⟩
    obtain ⟨p, hp, -⟩ := hlog.recorded ret hret
    have hle := hedits.notBefore
    rcases hlog.past_world hp with hlt | ⟨heq, hcomp⟩
    · exact .inl (Nat.lt_of_lt_of_le hlt hle.round_le)
    · rcases hle with hlt | ⟨heq', hcomp'⟩
      · exact .inl (by rw [heq]; exact hlt)
      · exact .inr ⟨heq.trans heq', hcomp' hcomp⟩
  · intro _ r _ hnot hround hin
    by_contra he
    have hmem := mem_sanitize hin he
    exact hnot ⟨(sanitize_participant hmem).2.2.1.trans hround, hmem⟩
  · rintro hp r hr ⟨hround, hin⟩
    obtain ⟨hin', he, hround', -⟩ := sanitize_participant hin
    exact he (hback hp r hr (hround'.symm.trans hround) hin')
  · intro hp
    refine ⟨fun hin => ?_, hworld hp⟩
    obtain ⟨hin', -, -, hcomp, -⟩ := sanitize_participant hin
    exact hcomp.trans (hworld hp hin')

end Nodes

section Steps

variable {ν τ : Type} [LinearOrder ν] {settings : RendezvousSettings}
variable {F : Fence (RendezvousState ν) τ}
variable {log : List (RendezvousState ν)} {returned : List (Return ν)} {now : Int} {n : ν}
variable {x : NodeState ν τ}

/-- A node acts on its copy. -/
theorem NodeOk.act (h : NodeOk settings F log returned now n x) (hd : x.holder.dirty = false)
    {state : RendezvousState ν} {action : Action}
    (hp : Performed settings n x.holder.state state action)
    (hjoin : action = .addToParticipants ∨ action = .markRendezvousComplete → x.phase.isJoin = true)
    (hleave : action = .removeFromParticipants → x.holder.state.complete = true →
      ∀ m ∈ x.holder.state.participants.keys, m ≠ n → HasReturned returned m x.holder.state.round) :
    NodeOk settings F log returned now n
      ⟨{ x.holder with state := state, dirty := true }, x.phase⟩ := by
  obtain ⟨b, hb, he, -⟩ := h.base
  have hedits := hp.edits
  have hle := hedits.notBefore.round_le
  have haway : x.phase.pastExit = true → ∀ r, HasReturned returned n r →
      ¬(state.round = r ∧ n ∈ state.participants) := by
    rintro hpast r hr ⟨hround, hin⟩
    cases hp with
    | same _ _ hround' _ hparts =>
      rw [hparts] at hin
      exact h.away hpast r hr ⟨hround'.symm.trans hround, hin⟩
    | enrolled hopen _ hround' =>
      rcases h.forward r hr with hlt | ⟨-, hc⟩
      · omega
      · rw [hopen] at hc
        cases hc
    | completed _ hopen _ hround' _ _ _ =>
      rcases h.forward r hr with hlt | ⟨-, hc⟩
      · omega
      · rw [hopen] at hc
        cases hc
    | left _ hnot => exact hnot hin
  constructor
  · refine ⟨b, hb, he.trans hedits, fun hc => ?_⟩
    cases hp with
    | same _ _ hround hcomp hparts =>
      left
      refine (h.inWorld (hcomp ▸ hc) (.inl hd)).shrink hround ?_ (.inl ?_)
      · rw [hparts]
        exact Sub.refl _
      · change state.participants.keys.length = x.holder.state.participants.keys.length
        rw [hparts]
    | enrolled _ hopen =>
      rw [hopen] at hc
      cases hc
    | completed hact hopen _ hround hranked _ _ =>
      right
      refine ⟨rfl, hjoin hact, hranked, ?_⟩
      rintro ⟨hbc, hbr⟩
      obtain ⟨-, hcomp⟩ := he.notBefore.complete (by rw [hbr, ← hround]) hbc
      rw [hopen] at hcomp
      cases hcomp
    | left hin hnot hsub hsame =>
      left
      have hcomp := hsame hc
      refine (h.inWorld hcomp.1 (.inl hd)).shrink hcomp.2 hsub (.inr ?_)
      intro m hm
      refine hleave rfl hcomp.1 m (hsub.mem hm) ?_
      rintro rfl
      exact hnot hm
  · exact fun hin => Nat.le_trans (h.own hin) hle
  · intro r hr
    rcases h.forward r hr with hlt | ⟨heq, hc⟩
    · exact .inl (Nat.lt_of_lt_of_le hlt hle)
    · rcases hedits.notBefore with hlt | ⟨heq', hc'⟩
      · exact .inl (by rw [heq]; exact hlt)
      · exact .inr ⟨heq.trans heq', hc' hc⟩
  · intro hpast r hr _ hround hin
    have hpast' : x.phase.pastExit = true := by simpa using hpast
    exact h.gone (.inl hd) r hr (h.away hpast' r hr) hround hin
  · exact haway
  · intro hworld
    obtain ⟨h₁, h₂⟩ := h.atWorld hworld
    refine ⟨fun hin => ?_, h₂⟩
    have hnotJoin : x.phase.isJoin = false := by
      rw [hworld]
      rfl
    cases hp with
    | same _ _ _ hcomp hparts =>
      rw [hparts] at hin
      exact hcomp.trans (h₁ hin)
    | enrolled =>
      rw [hjoin (.inl rfl)] at hnotJoin
      cases hnotJoin
    | completed _ _ hc => exact hc
    | left _ hnot => exact absurd hin hnot

end Steps

section Phases

variable {ν τ : Type} [LinearOrder ν] {settings : RendezvousSettings}
variable {F : Fence (RendezvousState ν) τ}
variable {log : List (RendezvousState ν)} {returned : List (Return ν)} {now : Int} {n : ν}
variable {x : NodeState ν τ}
section

variable (h : NodeOk settings F log returned now n x)
include h

theorem NodeOk.restart (hold : x.holder.dirty = false ∨ x.phase.isJoin = false) {phase : Phase}
    (hp : phase.pastExit = false) : NodeOk settings F log returned now n ⟨x.holder, phase⟩ := by
  obtain ⟨b, hb, he, -⟩ := h.base
  refine ⟨⟨b, hb, he, fun hc => .inl (h.inWorld hc hold)⟩, h.own, h.forward, ?_, ?_, ?_⟩
  · intro hd
    refine h.gone (.inl ?_)
    simpa [hp] using hd
  · intro hp'
    rw [hp] at hp'
    cases hp'
  · intro hw
    change phase = .world at hw
    rw [hw] at hp
    cases hp

theorem NodeOk.toJoin (hd : x.holder.dirty = false)
    (hnot : n ∉ x.holder.state.participants) (deadline : Int) :
    NodeOk settings F log returned now n ⟨x.holder, .join deadline⟩ := by
  obtain ⟨b, hb, he, -⟩ := h.base
  refine ⟨⟨b, hb, he, fun hc => .inl (h.inWorld hc (.inl hd))⟩, h.own, h.forward,
    fun _ => h.gone (.inl hd), fun _ _ _ hc => hnot hc.2, ?_⟩
  intro hw
  cases hw

theorem NodeOk.toWorld (hlog : LogOk log returned)
    (hd : x.holder.dirty = false) (hpast : x.phase.pastExit = true)
    (hc : x.holder.state.complete = true) :
    NodeOk settings F log returned now n ⟨x.holder, .world⟩ := by
  obtain ⟨b, hb, he, -⟩ := h.base
  have hin := h.inWorld hc (.inl hd)
  refine ⟨⟨b, hb, he, fun _ => .inl hin⟩, h.own, h.forward, fun _ => h.gone (.inl hd),
    fun _ => h.away hpast, fun _ => ⟨fun _ => hc, fun hmem => ?_⟩⟩
  -- the stored round is not ahead of the copy, and not before the completion of its round
  obtain ⟨p, hp, -⟩ := hin
  have hle := h.own hmem
  rcases hlog.past_world hp with hlt | ⟨-, hcomp⟩
  · omega
  · exact hcomp

theorem NodeOk.toIdle (hw : x.phase = .world)
    {rank : Nat} (hrank : x.holder.state.participants.lookup n = some rank) :
    NodeOk settings F log
        (returned ++ [⟨n, x.holder.state.round, rank, x.holder.state.numParticipants⟩]) now n
        ⟨x.holder, .idle⟩ ∧
      ∃ p, worldOf log x.holder.state.round = some p ∧ p.lookup n = some rank ∧
        x.holder.state.numParticipants = p.keys.length := by
  have hmem : n ∈ x.holder.state.participants := AList.lookup_isSome.mp (by rw [hrank]; rfl)
  have hpast : x.phase.pastExit = true := by rw [hw]; rfl
  have hc := (h.atWorld hw).1 hmem
  have hin := h.inWorld hc (.inr (by rw [hw]; rfl))
  obtain ⟨b, hb, he, -⟩ := h.base
  have hcases : ∀ r, HasReturned (returned ++
      [⟨n, x.holder.state.round, rank, x.holder.state.numParticipants⟩]) n r →
      HasReturned returned n r ∨ r = x.holder.state.round := by
    rintro r ⟨ret, hret, hn, hr⟩
    rcases mem_append.mp hret with hret | hret
    · exact .inl ⟨ret, hret, hn, hr⟩
    · rw [mem_singleton.mp hret] at hr
      exact .inr hr.symm
  refine ⟨⟨⟨b, hb, he, fun _ => .inl (hin.returns _)⟩, h.own, ?_, ?_, ?_, ?_⟩, ?_⟩
  · intro r hr
    rcases hcases r hr with hr | rfl
    · exact h.forward r hr
    · exact .inr ⟨rfl, hc⟩
  · intro _ r hr hnot
    rcases hcases r hr with hr | rfl
    · exact h.gone (.inr hpast) r hr hnot
    · exact absurd ⟨rfl, hmem⟩ hnot
  · intro hp
    cases hp
  · intro hw'
    cases hw'
  · obtain ⟨p, hp, hsub, hfull⟩ := hin
    refine ⟨p, hp, hsub n rank hrank, ?_⟩
    rcases hfull with hfull | hall
    · exact hfull
    · exact absurd ⟨rfl, hmem⟩ (h.away hpast _ (hall n hmem))

end

end Phases

section Operations

variable {ν τ : Type} [LinearOrder ν] {settings : RendezvousSettings}

/-- How an iteration ends after the sync. -/
inductive Acted (settings : RendezvousSettings) (op : Op) (node : ν) (deadline : Int) (c : Clock)
    (h : StateHolder ν τ) : StateHolder ν τ × Outcome → Prop
  | finish : op.handle settings c node h.state deadline = .ok .finish →
      Acted settings op node deadline c h (h, .done)
  | closedError : Acted settings op node deadline c h (h, .closedError)
  | timeoutError : Acted settings op node deadline c h (h, .timeoutError)
  | sync : Acted settings op node deadline c h (h, .acted .sync)
  | edited {action : Action} {state : RendezvousState ν} :
      op.handle settings c node h.state deadline = .ok action →
      Performed settings node h.state state action →
      Acted settings op node deadline c h
        ({ h with state := state, dirty := true }, .acted action)

theorem act_acted {h : StateHolder ν τ} (hv : Valid settings h.state) (op : Op) (node : ν)
    (deadline : Int) (c : Clock) :
    Acted settings op node deadline c h (h.act settings op node deadline c) := by
  obtain ⟨action, hhandle, hadmits⟩ := handle_admits hv op c node deadline
  obtain ⟨state, hperform, -, -⟩ := perform_valid hv c hadmits
  have hp := perform_performed hv hadmits hperform
  cases action <;> simp only [StateHolder.act, hhandle, hperform] <;> first
      | exact .finish hhandle
      | exact .closedError
      | exact .timeoutError
      | exact .sync
      | exact .edited hhandle hp

variable {c : Clock} {node : ν} {state : RendezvousState ν} {deadline : Int}

theorem exitOp_finish (h : exitOp c node state deadline = .finish) : node ∉ state.participants := by
  unfold exitOp at h
  split at h
  · split at h <;> cases h
  · assumption

theorem exitOp_actions (action : Action) (h : exitOp c node state deadline = action) :
    action ≠ .addToParticipants ∧ action ≠ .markRendezvousComplete := by
  subst h
  unfold exitOp
  split
  · split <;> simp
  · simp

theorem joinInTime_actions {action : Action}
    (h : joinInTime settings c node state = .ok (some action)) :
    action = .addToWaitList ∨ action = .markRendezvousComplete ∨ action = .addToParticipants := by
  unfold joinInTime at h
  split at h
  · split at h
    · cases h
      exact .inl rfl
    · cases h
  split at h
  · split at h
    · split at h
      · cases h
      · split at h
        · cases h
          exact .inr (.inl rfl)
        · cases h
    · cases h
  · cases h
    exact .inr (.inr rfl)

/-- The join operation finishes in a complete round of the node, and takes the node
out of an incomplete round only. -/
theorem joinOp_actions {action : Action} (h : joinOp settings c node state deadline = .ok action) :
    (action = .finish → state.complete = true ∧ node ∈ state.participants) ∧
      (action = .removeFromParticipants → state.complete ≠ true) := by
  unfold joinOp at h
  split at h
  · cases h
    exact ⟨by simp, by simp⟩
  split at h
  · next hin =>
      cases h
      exact ⟨fun _ => hin, by simp⟩
  next hnot =>
    split at h
    · split at h
      · next hp =>
          cases h
          exact ⟨by simp, fun _ hc => hnot ⟨hc, hp.2⟩⟩
      · split at h <;> cases h <;> exact ⟨by simp, by simp⟩
    · cases hj : joinInTime settings c node state with
      | error e => simp [hj] at h
      | ok choice =>
        cases choice with
        | none =>
          rw [hj] at h
          simp only [Except.ok.injEq] at h
          split at h <;> subst h <;> exact ⟨by simp, by simp⟩
        | some chosen =>
          rw [hj] at h
          simp only [Except.ok.injEq] at h
          subst h
          rcases joinInTime_actions hj with rfl | rfl | rfl <;> exact ⟨by simp, by simp⟩

theorem keepAliveOp_actions (action : Action)
    (h : keepAliveOp settings c node state deadline = action) :
    action = .errorTimeout ∨ action = .keepAlive ∨ action = .finish := by
  subst h
  unfold keepAliveOp
  split
  · split <;> simp
  · simp

omit [LinearOrder ν] in
theorem closeOp_actions (action : Action) (h : closeOp c state deadline = action) :
    action = .finish ∨ action = .errorTimeout ∨ action = .markRendezvousClosed := by
  subst h
  unfold closeOp
  split
  · simp
  · split <;> simp

end Operations

section System

variable {ν τ : Type} [LinearOrder ν] [DecidableEq τ]
variable (settings : RendezvousSettings) (F : Fence (RendezvousState ν) τ)

/-- The invariant of the system; `T n` is what the clock of the node `n` last showed. -/
structure AgreeOk (T : ν → Int) (s : System ν τ) : Prop where
  ok : SystemOk settings F s
  log : LogOk s.log s.returned
  nodes : ∀ n, NodeOk settings F s.log s.returned (T n) n (s.nodes n)

variable {settings F} {T : ν → Int} {s : System ν τ} {c : Clock} {j : ν}

/-- A sync that keeps the world keeps the agreement. -/
theorem AgreeOk.sync (h : AgreeOk settings F T s)
    (hkeep : SyncKeeps settings F s j c) (hT : T j ≤ c.expireNow) :
    let p := (s.nodes j).holder.sync settings F s.log c
    LogOk p.1 s.returned ∧ p.2.dirty = false ∧
      NodeOk settings F p.1 s.returned c.expireNow j ⟨p.2, (s.nodes j).phase⟩ ∧
      ∀ n, n ≠ j → NodeOk settings F p.1 s.returned (T n) n (s.nodes n) := by
  have hj := h.nodes j
  obtain ⟨b, hb, he, hw⟩ := hj.base
  rcases sync_cases settings F s.log (s.nodes j).holder c hb with
    ⟨hd, heq⟩ | ⟨log', token, heq, ht, hloads, hlog⟩
  · rw [heq]
    exact ⟨h.log, hd, hj.tick hT, fun n _ => h.nodes n⟩
  · have hkeep' := hkeep hloads
    rw [heq] at hkeep' ⊢
    rcases hlog with rfl | ⟨-, rfl, hlast⟩
    · refine ⟨h.log, rfl, ?_, fun n _ => h.nodes n⟩
      refine NodeOk.load h.log ht c (s.nodes j).phase hkeep' ?_ fun hp => (hj.atWorld hp).2
      intro hp r hr hround hin
      obtain ⟨t, hbeat, hlt⟩ := hj.gone (.inr hp) r hr (hj.away hp r hr) hround hin
      exact ⟨t, hbeat, by omega⟩
    · have hstored : stored s.log = b.getD RendezvousState.new := by rw [stored, hlast]
      rw [← hstored] at he hw
      have hnext : LogOk (s.log ++ [(s.nodes j).holder.state]) s.returned := by
        refine h.log.concat he fun hc => ?_
        rcases hw hc with hin | hfresh
        · exact .inl hin
        · exact .inr ⟨hfresh.ranked, hfresh.notYet⟩
      refine ⟨hnext, rfl, ?_, fun n hn => (h.nodes n).concat hn he⟩
      have heq' := stored_concat s.log (s.nodes j).holder.state
      refine NodeOk.load hnext ht c (s.nodes j).phase hkeep' ?_ ?_
      · rw [heq']
        intro hp r hr hround hin
        exact absurd ⟨hround, hin⟩ (hj.away hp r hr)
      · rw [heq']
        exact fun hp => (hj.atWorld hp).1

omit [DecidableEq τ] in
theorem AgreeOk.put {j : ν} {log : List (RendezvousState ν)} {g : StateHolder ν τ} {phase : Phase}
    {now : Int} (hok : SystemOk settings F (s.put j log g phase)) (hlog : LogOk log s.returned)
    (hself : NodeOk settings F log s.returned now j ⟨g, phase⟩)
    (hother : ∀ n, n ≠ j → NodeOk settings F log s.returned (T n) n (s.nodes n)) :
    AgreeOk settings F (update T j now) (s.put j log g phase) where
  ok := hok
  log := hlog
  nodes n := by
    by_cases hn : n = j
    · subst hn
      simpa [System.put] using hself
    · simpa [System.put, hn] using hother n hn

variable {deadline : Int}

section

variable (h : AgreeOk settings F T s) (hkeep : SyncKeeps settings F s j c)
  (hT : T j ≤ c.expireNow)
include h hkeep hT

theorem AgreeOk.runOnce {op : Op}
    {next : Outcome → Phase}
    (hact : ∀ p, LogOk (s.nodes j |>.holder.sync settings F s.log c).1 s.returned →
      NodeOk settings F (s.nodes j |>.holder.sync settings F s.log c).1 s.returned c.expireNow j
        ⟨(s.nodes j |>.holder.sync settings F s.log c).2, (s.nodes j).phase⟩ →
      (s.nodes j |>.holder.sync settings F s.log c).2.dirty = false →
      Acted settings op j deadline c (s.nodes j |>.holder.sync settings F s.log c).2 p →
      NodeOk settings F (s.nodes j |>.holder.sync settings F s.log c).1 s.returned c.expireNow j
        ⟨p.1, next p.2⟩) :
    AgreeOk settings F (update T j c.expireNow) (s.runOnce settings F op j deadline c next).1 := by
  obtain ⟨hlog, hd, hself, hother⟩ := h.sync hkeep hT
  obtain ⟨-, -, hvalid, -⟩ := sync_ok h.ok j c
  have hacted := act_acted hvalid.1 op j deadline c
  exact AgreeOk.put (runOnce_ok h.ok op j deadline c next).1 hlog
    (hact _ hlog hself hd hacted) hother

theorem AgreeOk.aside {op : Op}
    (hop : ∀ state action, op.handle settings c j state deadline = .ok action →
      action ≠ .addToParticipants ∧ action ≠ .markRendezvousComplete ∧
        action ≠ .removeFromParticipants) :
    AgreeOk settings F (update T j c.expireNow)
      (s.runOnce settings F op j deadline c fun _ => (s.nodes j).phase).1 := by
  refine h.runOnce hkeep hT ?_
  rintro p - hself hd hacted
  cases hacted with
  | finish => exact hself
  | closedError => exact hself
  | timeoutError => exact hself
  | sync => exact hself
  | edited hhandle hp =>
    obtain ⟨h₁, h₂, h₃⟩ := hop _ _ hhandle
    refine hself.act hd hp ?_ ?_
    · rintro (rfl | rfl)
      · exact absurd rfl h₁
      · exact absurd rfl h₂
    · rintro rfl
      exact absurd rfl h₃

end

/-- What the clocks have shown after a step. -/
def Move.tick (T : ν → Int) (m : Move ν) : ν → Int :=
  match m.reads with
  | some (n, c) => Function.update T n c.expireNow
  | none => T

omit [DecidableEq τ] in
theorem AgreeOk.tick (h : AgreeOk settings F T s) {j : ν} {now : Int} (hle : T j ≤ now) :
    AgreeOk settings F (update T j now) s where
  ok := h.ok
  log := h.log
  nodes n := by
    by_cases hn : n = j
    · subst hn
      rw [update_self]
      exact (h.nodes n).tick hle
    · rw [update_of_ne hn]
      exact h.nodes n

omit [DecidableEq τ] in
/-- A node returns with its rank. -/
theorem AgreeOk.returns (h : AgreeOk settings F T s) {j : ν} (hp : (s.nodes j).phase = .world)
    {rank : Nat} (hl : (s.nodes j).holder.state.participants.lookup j = some rank)
    (hok : SystemOk settings F { s.put j s.log (s.nodes j).holder .idle with
      returned := s.returned ++ [⟨j, (s.nodes j).holder.state.round, rank,
        (s.nodes j).holder.state.numParticipants⟩] }) :
    AgreeOk settings F T { s.put j s.log (s.nodes j).holder .idle with
      returned := s.returned ++ [⟨j, (s.nodes j).holder.state.round, rank,
        (s.nodes j).holder.state.numParticipants⟩] } := by
  obtain ⟨hself, p, hworld, hrank, hsize⟩ := (h.nodes j).toIdle hp hl
  refine ⟨hok, ⟨h.log.later, fun state hin hc => (h.log.world state hin hc).returns _,
    h.log.ranked, ?_⟩, ?_⟩
  · intro ret hret
    rcases mem_append.mp hret with hret | hret
    · exact h.log.recorded ret hret
    · rw [mem_singleton.mp hret]
      exact ⟨p, hworld, hrank, hsize⟩
  · intro n
    by_cases hn : n = j
    · subst hn
      simpa [System.put] using hself
    · have hother : NodeOk settings F s.log
        (s.returned ++ [⟨j, (s.nodes j).holder.state.round, rank,
          (s.nodes j).holder.state.numParticipants⟩]) (T n) n (s.nodes n) :=
        (h.nodes n).returns hn
      simpa [System.put, hn] using hother

theorem AgreeOk.iterateExit (h : AgreeOk settings F T s)
    (hphase : (s.nodes j).phase = .exit deadline) (hkeep : SyncKeeps settings F s j c)
    (hexit : ExitKeeps s.returned j deadline c
      ((s.nodes j).holder.sync settings F s.log c).2.state) (hT : T j ≤ c.expireNow) :
    AgreeOk settings F (update T j c.expireNow) (s.runOnce settings F .exit j deadline c
        (Phase.after (.exit deadline) (.join deadline))).1 := by
  refine h.runOnce hkeep hT ?_
  rintro p - hself hd hacted
  rw [hphase] at hself
  cases hacted with
  | finish hhandle =>
    have hfinish : exitOp c j _ deadline = .finish := Except.ok.inj hhandle
    exact hself.toJoin hd (exitOp_finish hfinish) deadline
  | closedError => exact hself.restart (.inl hd) rfl
  | timeoutError => exact hself.restart (.inl hd) rfl
  | sync => exact hself
  | edited hhandle hp =>
    have haction := Except.ok.inj hhandle
    refine hself.act hd hp ?_ ?_
    · intro hor
      obtain ⟨h₁, h₂⟩ := exitOp_actions _ haction
      rcases hor with rfl | rfl
      · exact absurd rfl h₁
      · exact absurd rfl h₂
    · rintro rfl hc
      exact hexit hc haction

theorem AgreeOk.iterateJoin (h : AgreeOk settings F T s)
    (hphase : (s.nodes j).phase = .join deadline) (hkeep : SyncKeeps settings F s j c)
    (hT : T j ≤ c.expireNow) :
    AgreeOk settings F (update T j c.expireNow)
      (s.runOnce settings F .join j deadline c (Phase.after (.join deadline) .world)).1 := by
  refine h.runOnce hkeep hT ?_
  rintro p hlog hself hd hacted
  rw [hphase] at hself
  cases hacted with
  | finish hhandle =>
    exact hself.toWorld hlog hd rfl ((joinOp_actions hhandle).1 rfl).1
  | closedError => exact hself.restart (.inl hd) rfl
  | timeoutError => exact hself.restart (.inl hd) rfl
  | sync => exact hself
  | edited hhandle hp =>
    refine hself.act hd hp (fun _ => rfl) ?_
    rintro rfl hc
    exact absurd hc ((joinOp_actions hhandle).2 rfl)

/-- Every move that keeps the world keeps the agreement. -/
theorem AgreeOk.step (h : AgreeOk settings F T s) {m : Move ν} (hm : KeepsWorld settings F s m)
    (hT : ∀ n c, m.reads = some (n, c) → T n ≤ c.expireNow) :
    AgreeOk settings F (m.tick T) (s.step settings F m).1 := by
  have hok := (step_ok h.ok m).1
  -- a step that moves the node `j` to another phase, with its copy as it is
  have hmove : ∀ j phase, (s.nodes j).phase.isJoin = false → phase.pastExit = false →
      SystemOk settings F (s.put j s.log (s.nodes j).holder phase) →
      AgreeOk settings F T (s.put j s.log (s.nodes j).holder phase) := by
    intro j phase hj hp hput
    have := AgreeOk.put (T := T) hput h.log ((h.nodes j).restart (.inr hj) hp)
      fun n _ => h.nodes n
    rwa [update_eq_self] at this
  cases m with
  | nextRendezvous j deadline =>
    cases hp : (s.nodes j).phase with
    | idle =>
      simp only [System.step, hp] at hok ⊢
      exact hmove j _ (by rw [hp]; rfl) rfl hok
    | _ =>
      simp only [System.step, hp]
      exact h
  | iterate j c =>
    cases hp : (s.nodes j).phase with
    | exit deadline =>
      simp only [System.step, hp]
      simp only [KeepsWorld, IterateKeeps, hp] at hm
      exact h.iterateExit hp hm.1 hm.2 (hT j c rfl)
    | join deadline =>
      simp only [System.step, hp]
      simp only [KeepsWorld, IterateKeeps, hp] at hm
      exact h.iterateJoin hp hm (hT j c rfl)
    | idle =>
      simp only [System.step, hp]
      exact h.tick (hT j c rfl)
    | world =>
      simp only [System.step, hp]
      exact h.tick (hT j c rfl)
  | getWorld j =>
    cases hp : (s.nodes j).phase with
    | world =>
      cases hl : (s.nodes j).holder.state.participants.lookup j with
      | none =>
        simp only [System.step, hp, hl] at hok ⊢
        exact hmove j _ (by rw [hp]; rfl) rfl hok
      | some rank =>
        simp only [System.step, hp, hl] at hok ⊢
        exact h.returns hp hl hok
    | _ =>
      simp only [System.step, hp]
      exact h
  | keepAlive j c deadline =>
    refine h.aside hm (hT j c rfl) ?_
    intro state action hhandle
    rcases keepAliveOp_actions _ (Except.ok.inj hhandle) with rfl | rfl | rfl <;> simp
  | setClosed j c deadline =>
    refine h.aside hm (hT j c rfl) ?_
    intro state action hhandle
    rcases closeOp_actions _ (Except.ok.inj hhandle) with rfl | rfl | rfl <;> simp
  | sync j c =>
    obtain ⟨hlog, -, hself, hother⟩ := h.sync hm (hT j c rfl)
    exact AgreeOk.put hok hlog hself hother

theorem init_agree (T : ν → Int) : AgreeOk settings F T (machine settings F).init where
  ok := init_ok
  log := ⟨Pairwise.nil, by simp [machine], by simp [machine, worldOf], by simp [machine]⟩
  nodes n := by
    refine ⟨⟨none, .nothing, Edits.refl n _, ?_⟩, ?_, ?_, ?_, ?_, ?_⟩ <;>
      simp [machine, StateHolder.new, RendezvousState.new, stored, HasReturned]

/-- In a run whose steps keep the world, with clocks that advance, the invariant
holds at the end. -/
theorem run_agree (as : List (Move ν)) : ∀ {s : System ν τ} {T : ν → Int}, AgreeOk settings F T s →
      (machine settings F).Admissible (KeepsWorld settings F) s as → ClocksAdvance as →
      (∀ m ∈ as, ∀ n c, m.reads = some (n, c) → T n ≤ c.expireNow) →
      ∃ T', AgreeOk settings F T' ((machine settings F).exec s as) := by
  induction as with
  | nil => exact fun h _ _ _ => ⟨_, h⟩
  | cons m as ih =>
    intro s T h hkeep hclock hT
    obtain ⟨hhead, htail⟩ := pairwise_cons.mp hclock
    refine ih (h.step hkeep.1 (hT m (mem_cons_self ..))) hkeep.2 htail ?_
    intro m' hm' n c hreads
    have hle := hT m' (mem_cons_of_mem _ hm') n c hreads
    unfold Move.tick
    cases hj : m.reads with
    | none => exact hle
    | some p =>
      by_cases hn : n = p.1
      · have hadv := hhead m' hm'
        simp only [hn, update_self]
        exact hadv p hj (n, c) hreads hn.symm
      · simp only [update_of_ne hn]
        exact hle

omit [LinearOrder ν] in
theorem exists_le_readings (as : List (Move ν)) :
    ∃ t : Int, ∀ m ∈ as, ∀ n c, m.reads = some (n, c) → t ≤ c.expireNow := by
  induction as with
  | nil => exact ⟨0, by simp⟩
  | cons m as ih =>
    obtain ⟨t, ht⟩ := ih
    cases hm : m.reads with
    | none =>
      refine ⟨t, ?_⟩
      intro m' hm' n c hreads
      rcases mem_cons.mp hm' with rfl | hm'
      · rw [hm] at hreads
        cases hreads
      · exact ht m' hm' n c hreads
    | some p =>
      refine ⟨min t p.2.expireNow, ?_⟩
      intro m' hm' n c hreads
      rcases mem_cons.mp hm' with rfl | hm'
      · rw [hm, Option.some.injEq] at hreads
        rw [hreads]
        exact min_le_right _ _
      · exact le_trans (min_le_left _ _) (ht m' hm' n c hreads)

omit [DecidableEq τ] in
theorem LogOk.agreement {log : List (RendezvousState ν)} {returned : List (Return ν)}
    (h : LogOk log returned) : Agreement returned := by
  constructor
  · intro a ha b hb hround hne
    obtain ⟨p, hp, hrank, hsize⟩ := h.recorded a ha
    obtain ⟨q, hq, hrank', hsize'⟩ := h.recorded b hb
    rw [← hround, hp, Option.some.injEq] at hq
    subst hq
    refine ⟨hsize.trans hsize'.symm, fun heq => hne ?_⟩
    rw [heq] at hrank
    exact ((h.ranked _ p hp b.node b.rank hrank').2 a.node hrank)
  · intro a ha
    obtain ⟨p, hp, hrank, hsize⟩ := h.recorded a ha
    rw [hsize]
    exact (h.ranked _ p hp a.node a.rank hrank).1

variable (settings F)

/-- The nodes agree in every run in which no participant of a complete round is removed while
another one has not returned, and in which no clock runs backwards. -/
theorem agreement_of_run (as : List (Move ν))
    (h : (machine settings F).Admissible (KeepsWorld settings F) (machine settings F).init as)
    (hclock : ClocksAdvance as) :
    Agreement ((machine settings F).exec (machine settings F).init as).returned := by
  obtain ⟨t, ht⟩ := exists_le_readings as
  obtain ⟨T, hT⟩ := run_agree as (init_agree fun _ => t) h hclock ht
  exact hT.log.agreement

end System

section Example

instance (returned : List (Return Nat)) (n round : Nat) :
    Decidable (HasReturned returned n round) :=
  inferInstanceAs (Decidable (∃ ret ∈ returned, ret.node = n ∧ ret.round = round))

instance (settings : RendezvousSettings) (returned : List (Return Nat)) (now : Int)
    (state : RendezvousState Nat) : Decidable (SanitizeKeeps settings returned now state) :=
  inferInstanceAs (Decidable (state.complete = true →
    (∃ n ∈ deadNodes settings now state, n ∈ state.participants) →
    ∀ n ∈ state.participants.keys, n ∉ deadNodes settings now state →
      HasReturned returned n state.round))

instance (settings : RendezvousSettings) (s : System Nat Nat) (node : Nat) (c : Clock) :
    Decidable (SyncKeeps settings versions s node c) :=
  inferInstanceAs (Decidable ((s.nodes node).holder.dirty = true ∨
      (s.nodes node).holder.isCached settings c = false →
    SanitizeKeeps settings s.returned c.expireNow
      (stored ((s.nodes node).holder.sync settings versions s.log c).1)))

instance (returned : List (Return Nat)) (node : Nat) (deadline : Int) (c : Clock)
    (state : RendezvousState Nat) : Decidable (ExitKeeps returned node deadline c state) :=
  inferInstanceAs (Decidable (state.complete = true →
    exitOp c node state deadline = .removeFromParticipants →
    ∀ n ∈ state.participants.keys, n ≠ node → HasReturned returned n state.round))

instance (settings : RendezvousSettings) (s : System Nat Nat) (node : Nat) (c : Clock) :
    (phase : Phase) → Decidable (IterateKeeps settings versions s node c phase)
  | .idle => .isTrue trivial
  | .exit _ => inferInstanceAs (Decidable (_ ∧ _))
  | .join _ => inferInstanceAs (Decidable (SyncKeeps settings versions s node c))
  | .world => .isTrue trivial

instance (settings : RendezvousSettings) (s : System Nat Nat) :
    (m : Move Nat) → Decidable (KeepsWorld settings versions s m)
  | .nextRendezvous _ _ => .isTrue trivial
  | .iterate node c =>
    inferInstanceAs (Decidable (IterateKeeps settings versions s node c (s.nodes node).phase))
  | .getWorld _ => .isTrue trivial
  | .keepAlive node c _ => inferInstanceAs (Decidable (SyncKeeps settings versions s node c))
  | .setClosed node c _ => inferInstanceAs (Decidable (SyncKeeps settings versions s node c))
  | .sync node c => inferInstanceAs (Decidable (SyncKeeps settings versions s node c))

instance (a b : Move Nat) : Decidable (a.notAfter b) :=
  inferInstanceAs (Decidable (∀ p ∈ a.reads, ∀ q ∈ b.reads, p.1 = q.1 →
    p.2.expireNow ≤ q.2.expireNow))

instance (as : List (Move Nat)) : Decidable (ClocksAdvance as) :=
  inferInstanceAs (Decidable (as.Pairwise Move.notAfter))

def twoNodes : RendezvousSettings where
  min_nodes := 2
  max_nodes := 2
  last_call := 30000000
  keep_alive_interval := 5000000
  keep_alive_max_attempt := 3
  cache_duration := 1000000
  min_nodes_pos := by decide
  min_le_max := by decide

/-- Node 1 joins, node 0 joins and completes the round, and returns. -/
def roundCompletes : List (Move Nat) :=
  [.nextRendezvous 1 700000000, .iterate 1 (.at 100), .iterate 1 (.at 100), .iterate 1 (.at 101),
   .nextRendezvous 0 700000000, .iterate 0 (.at 102), .iterate 0 (.at 102), .iterate 0 (.at 103),
   .getWorld 0]

/-- Node 1 learns that the round is complete, and returns. -/
def otherReturns : List (Move Nat) :=
  [.iterate 1 (.at 106), .getWorld 1]

/-- Node 0 calls `next_rendezvous` again and leaves the round. -/
def leaves : List (Move Nat) :=
  [.nextRendezvous 0 700000000, .iterate 0 (.at 104), .iterate 0 (.at 105)]

theorem agreement_of_run_leave :
    (machine twoNodes versions).Admissible (KeepsWorld twoNodes versions)
      (machine twoNodes versions).init (roundCompletes ++ otherReturns ++ leaves) ∧
    ((machine twoNodes versions).exec (machine twoNodes versions).init
      (roundCompletes ++ otherReturns ++ leaves)).returned = [⟨0, 0, 0, 2⟩, ⟨1, 0, 1, 2⟩] ∧
    Agreement ((machine twoNodes versions).exec (machine twoNodes versions).init
      (roundCompletes ++ otherReturns ++ leaves)).returned := by
  have hok : (machine twoNodes versions).Admissible (KeepsWorld twoNodes versions)
      (machine twoNodes versions).init (roundCompletes ++ otherReturns ++ leaves) := by decide
  exact ⟨hok, by decide, agreement_of_run twoNodes versions _ hok (by decide)⟩

/-- Node 0 leaves before node 1 has learned that the round is complete: node 1 is
rank 1 of a world of size 1. -/
theorem earlyLeave :
    let M := machine twoNodes versions
    let s := M.exec M.init (roundCompletes ++ leaves ++ otherReturns)
    ClocksAdvance (roundCompletes ++ leaves ++ otherReturns) ∧
    s.returned = [⟨0, 0, 0, 2⟩, ⟨1, 0, 1, 1⟩] ∧ ¬Agreement s.returned := by
  have hret : ((machine twoNodes versions).exec (machine twoNodes versions).init
      (roundCompletes ++ leaves ++ otherReturns)).returned =
      [⟨0, 0, 0, 2⟩, ⟨1, 0, 1, 1⟩] := by decide
  refine ⟨by decide, hret, fun hagree => ?_⟩
  rw [hret] at hagree
  exact absurd (hagree.2 ⟨1, 0, 1, 1⟩ (by decide)) (by decide)

end Example

end PyTorchCore.Rendezvous
