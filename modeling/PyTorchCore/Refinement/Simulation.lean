import PyTorchCore.Refinement.Visits

/-!
# Executions before and after the rewrite

The rewritten nodes bind all values that the nodes bind, to the same, and a use of a value reads
what its replacement is bound to.
-/

namespace PyTorchCore.Refinement

open Jit Carry
open List

variable {X W E : Type} {M : Memory X W}

/-- Two states agree on the world and on the values below `bound`, and `subst` takes every value
in scope to one that is bound to the same. -/
structure Same (bound : Nat) (subst : Nat → Nat) (scope : List Nat) (s s' : State X W) : Prop where
  world : s'.world = s.world
  env : ∀ v < bound, s'.env v = s.env v
  subst : ∀ v ∈ scope, s'.env (subst v) = s.env v

/-- Two results agree, with states that are related if both executions return. -/
structure Agree (R : State X W → State X W → Prop) (r r' : Result X W E) : Prop where
  outcome : r'.outcome = r.outcome
  world : r'.state.world = r.state.world
  state : r.outcome = .finished → R r.state r'.state

namespace Agree

variable {R R' : State X W → State X W → Prop} {r r' : Result X W E}
  {next next' : State X W → Result X W E}

/-- Agreement of what comes first and of what follows. -/
theorem andThen (h : Agree R r r')
    (hnext : r.outcome = .finished → Agree R' (next r.state) (next' r'.state)) :
    Agree R' (r.andThen next) (r'.andThen next') := by
  rw [Result.andThen, Result.andThen, h.outcome]
  split
  · next hfin => exact hnext hfin
  · next hne => exact ⟨h.outcome, h.world, fun hfin => absurd hfin hne⟩

/-- A weaker relation of the final states. -/
theorem imp (h : Agree R r r')
    (himp : r.outcome = .finished → R r.state r'.state → R' r.state r'.state) :
    Agree R' r r' :=
  ⟨h.outcome, h.world, fun hfin => himp hfin (h.state hfin)⟩

end Agree

section Same

variable {bound : Nat} {subst : Nat → Nat} {scope : List Nat} {s s' : State X W}

theorem env_assign_congr {t t' : State X W} {v w : Nat} (vs : List Nat) (xs : List (Val X))
    (h : t'.env w = t.env v) (hv : v ∉ vs) (hw : w ∉ vs) :
    (t'.assign vs xs).env w = (t.assign vs xs).env v := by
  rw [env_assign_of_notMem hw, env_assign_of_notMem hv, h]

/-- The same values are assigned on both sides. -/
theorem Same.assign (h : Same bound subst scope s s') {vs : List Nat} (xs : List (Val X))
    (hvs : ∀ o ∈ vs, o < bound ∧ subst o = o ∧ ∀ v, subst v = o → v = o) :
    Same bound subst (vs ++ scope) (s.assign vs xs) (s'.assign vs xs) := by
  have henv : ∀ v < bound, (s'.assign vs xs).env v = (s.assign vs xs).env v := by
    intro v hv
    simp only [State.assign, h.env v hv]
  refine ⟨h.world, henv, fun v hv => ?_⟩
  by_cases hmem : v ∈ vs
  · rw [(hvs v hmem).2.1]
    exact henv v (hvs v hmem).1
  · refine env_assign_congr vs xs (h.subst v ((mem_append.mp hv).resolve_left hmem)) hmem ?_
    exact fun hw => hmem (by rwa [← (hvs _ hw).2.2 v rfl] at hw)

/-- Fewer values in scope. -/
theorem Same.mono {scope' : List Nat} (h : Same bound subst scope s s')
    (hsub : ∀ v ∈ scope', v ∈ scope) : Same bound subst scope' s s' :=
  ⟨h.world, h.env, fun v hv => h.subst v (hsub v hv)⟩

theorem read_congr {vs vs' : List Nat} (h : Forall₂ (fun v v' => s'.env v' = s.env v) vs vs') :
    s'.read vs' = s.read vs := by
  induction h with
  | nil => rfl
  | cons hv _ ih =>
    simp only [State.read, mapM_cons, hv]
    simp only [State.read] at ih
    rw [ih]

theorem read_map {f : Nat → Nat} {vs : List Nat} (h : ∀ v ∈ vs, s'.env (f v) = s.env v) :
    s'.read (vs.map f) = s.read vs := by
  refine read_congr ?_
  rw [forall₂_map_right_iff, forall₂_same]
  exact h

theorem Same.extend (h : Same bound subst scope s s') {vs : List Nat}
    (hvs : ∀ o ∈ vs, o < bound ∧ subst o = o) : Same bound subst (vs ++ scope) s s' := by
  refine ⟨h.world, h.env, fun v hv => ?_⟩
  rcases mem_append.mp hv with hv | hv
  · rw [(hvs v hv).2]
    exact h.env v (hvs v hv).1
  · exact h.subst v hv

theorem agree_move (h : Same bound subst scope s s') {sources sources' targets : List Nat}
    (hread : s'.read sources' = s.read sources)
    (htargets : ∀ o ∈ targets, o < bound ∧ subst o = o ∧ ∀ v, subst v = o → v = o) :
    Agree (Same bound subst (targets ++ scope)) (s.move sources targets : Result X W E)
      (s'.move sources' targets) := by
  rw [State.move, State.move, hread]
  split
  · exact ⟨rfl, h.world, fun _ => h.assign _ htargets⟩
  · exact ⟨rfl, h.world, by simp⟩

theorem agree_perform (h : Same bound subst scope s s') {op : Op M E}
    {inputs inputs' outputs : List Nat} (hread : s'.read inputs' = s.read inputs)
    (houtputs : ∀ o ∈ outputs, o < bound ∧ subst o = o ∧ ∀ v, subst v = o → v = o) :
    Agree (Same bound subst (outputs ++ scope)) (s.perform op inputs outputs)
      (s'.perform op inputs' outputs) := by
  rw [State.perform, State.perform, hread, h.world]
  split
  · exact ⟨rfl, h.world, by simp⟩
  · split
    · next ys w _ =>
      have hworld : Same bound subst scope ({ s with world := w } : State X W)
          { s' with world := w } := ⟨rfl, h.env, h.subst⟩
      split
      · exact ⟨rfl, rfl, fun _ => hworld.assign ys houtputs⟩
      · exact ⟨rfl, rfl, by simp⟩
    · exact ⟨rfl, rfl, by simp⟩
    · exact ⟨rfl, rfl, by simp⟩

end Same

section Constants

def State.bindConstants (s : State X W) (fresh : Nat) : List Int → State X W
  | [] => s
  | k :: ks => (s.assign [fresh] [.int k]).bindConstants (fresh + 1) ks

theorem run_insertConstants (fresh : Nat) (ks : List Int) (next : Nodes Nat (Op M E))
    (s : State X W) :
    run (insertConstants fresh ks next) s = run next (s.bindConstants fresh ks) := by
  induction ks generalizing fresh s with
  | nil => rfl
  | cons k ks ih => exact ih _ _

@[simp] theorem world_bindConstants (s : State X W) (fresh : Nat) (ks : List Int) :
    (s.bindConstants fresh ks).world = s.world := by
  induction ks generalizing fresh s with
  | nil => rfl
  | cons k ks ih => exact ih _ _

theorem env_bindConstants_of_lt (s : State X W) {fresh v : Nat} (ks : List Int) (h : v < fresh) :
    (s.bindConstants fresh ks).env v = s.env v := by
  induction ks generalizing fresh s with
  | nil => rfl
  | cons k ks ih =>
    refine (ih _ (Nat.lt_succ_of_lt h)).trans (env_assign_of_notMem ?_)
    rw [mem_singleton]
    omega

theorem env_bindConstants (s : State X W) (fresh : Nat) (ks : List Int) {i : Nat} {k : Int}
    (h : ks[i]? = some k) : (s.bindConstants fresh ks).env (fresh + i) = some (.int k) := by
  induction ks generalizing fresh s i with
  | nil => simp only [getElem?_nil, reduceCtorEq] at h
  | cons k' ks ih =>
    cases i with
    | zero =>
      cases h
      refine (env_bindConstants_of_lt _ ks (Nat.lt_succ_self _)).trans ?_
      exact env_assign_single s fresh _
    | succ i =>
      have hih := ih (s.assign [fresh] [.int k']) (fresh + 1) h
      rwa [show fresh + 1 + i = fresh + (i + 1) by omega] at hih

end Constants

section Loops

variable {bound : Nat} {subst : Nat → Nat} {scope : List Nat} {s s' : State X W}

section

variable {body body' : State X W → Result X W E} {carries carries' : List (Carry Nat)}
  {after : List Nat} {trip blockCond blockCond' : Nat}
  (hins : ∀ o ∈ trip :: carries.map blockInput, o < bound ∧ subst o = o ∧ ∀ v, subst v = o → v = o)
  (hcond : blockCond ∈ after) (hcond' : blockCond' = subst blockCond)
  (houts : ∀ v ∈ carries.map blockOutput, v ∈ after)
  (houts' : carries'.map blockOutput = (carries.map blockOutput).map subst)
  (hins' : carries'.map blockInput = carries.map blockInput)
include hins hcond hcond' houts houts' hins'

theorem agree_rounds {bodyScope : List Nat}
    (hbody : ∀ s s', Same bound subst bodyScope s s' →
      Agree (Same bound subst after) (body s) (body' s'))
    (hafter : ∀ v ∈ bodyScope, v ∈ after) (n i : Nat) (b : Bool)
    (h : Same bound subst bodyScope s s') :
    Agree (Same bound subst bodyScope) (rounds body trip blockCond carries n i b s)
      (rounds body' trip blockCond' carries' n i b s') := by
  induction n generalizing i b s s' with
  | zero => exact ⟨rfl, h.world, fun _ => h⟩
  | succ n ih =>
    cases b with
    | false => exact ⟨rfl, h.world, fun _ => h⟩
    | true =>
      subst hcond'
      rw [rounds, rounds]
      have htrip := @Same.assign X W bound subst bodyScope s s' h [trip] [.int i]
        fun o ho => hins o (mem_singleton.mp ho ▸ mem_cons_self)
      refine (hbody _ _ (htrip.mono fun v hv => mem_append_right _ hv)).andThen ?_
      intro hfin
      have hsame := (hbody _ _ (htrip.mono fun v hv => mem_append_right _ hv)).state hfin
      generalize (body (s.assign [trip] [.int i])).state = t at hsame ⊢
      generalize (body' (s'.assign [trip] [.int i])).state = t' at hsame ⊢
      rw [hsame.subst blockCond hcond]
      split
      · rw [houts', hins']
        have hmove := @agree_move X W E bound subst after t t' hsame
          (carries.map blockOutput) _ (carries.map blockInput)
          (read_map fun v hv => hsame.subst v (houts v hv))
          fun o ho => hins o (mem_cons_of_mem _ ho)
        refine hmove.andThen fun hfin => ?_
        refine ih _ _ ((hmove.state hfin).mono fun v hv => ?_)
        exact mem_append_right _ (hafter v hv)
      · exact ⟨rfl, hsame.world, by simp⟩

theorem agree_runLoop {maxTrip maxTrip' cond cond' : Nat}
    (hbody : ∀ s s', Same bound subst (trip :: carries.map blockInput ++ scope) s s' →
      Agree (Same bound subst after) (body s) (body' s'))
    (hafter : ∀ v ∈ trip :: carries.map blockInput ++ scope, v ∈ after)
    (htargets : ∀ o ∈ carries.map output, o < bound ∧ subst o = o ∧ ∀ v, subst v = o → v = o)
    (htargets' : carries'.map output = carries.map output) (h : Same bound subst scope s s')
    (hmaxTrip : s'.env maxTrip' = s.env maxTrip) (hentry : s'.env cond' = s.env cond)
    (hinitial : s'.read (carries'.map initial) = s.read (carries.map initial)) :
    Agree (Same bound subst (carries.map output ++ scope))
      (runLoop body maxTrip cond trip blockCond carries s)
      (runLoop body' maxTrip' cond' trip blockCond' carries' s') := by
  rw [runLoop, runLoop, hmaxTrip, hentry]
  split
  · next n b _ _ =>
    rw [hins', htargets']
    have hmove := @agree_move X W E bound subst scope s s' h (carries.map initial)
      (carries'.map initial) (carries.map blockInput) hinitial
      fun o ho => hins o (mem_cons_of_mem _ ho)
    refine hmove.andThen fun hfin => ?_
    have hentered : Same bound subst (trip :: carries.map blockInput ++ scope) _ _ :=
      (hmove.state hfin).extend fun o ho => by
        rw [mem_singleton.mp ho]
        exact ⟨(hins _ mem_cons_self).1, (hins _ mem_cons_self).2.1⟩
    have hrounds := agree_rounds hins hcond hcond' houts houts' hins' hbody hafter n.toNat 0 b
      hentered
    refine hrounds.andThen fun hfin => ?_
    have hsame := hrounds.state hfin
    refine (agree_move hsame ?_ htargets).imp fun _ hsame => hsame.mono fun v hv => ?_
    · refine read_congr (forall₂_same.mpr fun v hv => hsame.env v ?_)
      exact (hins v (mem_cons_of_mem _ hv)).1
    · rcases mem_append.mp hv with hv | hv
      · exact mem_append_left _ hv
      · exact mem_append_right _ (mem_append_right _ hv)
  · next hstuck => exact ⟨rfl, h.world, by simp⟩

end

end Loops

/-- The order of the scope does not matter. -/
theorem mem_scope_swap {A B C : List Nat} {v : Nat} (h : v ∈ (A ++ B) ++ C) :
    v ∈ B ++ (A ++ C) := by
  rw [mem_append, mem_append] at h
  rcases h with (h | h) | h
  · exact mem_append_right _ (mem_append_left _ h)
  · exact mem_append_left _ h
  · exact mem_append_right _ (mem_append_right _ h)

theorem run_replaceUses {bound : Nat} {subst : Nat → Nat} {nodes : Nodes Nat (Op M E)}
    {scope : List Nat} {s s' : State X W} (hscoped : nodes.Scoped scope)
    (hdefs : ∀ o ∈ nodes.defs, o < bound ∧ subst o = o ∧ ∀ v, subst v = o → v = o)
    (h : Same bound subst scope s s') :
    Agree (Same bound subst (nodes.topDefs ++ scope)) (run nodes s)
      (run (replaceUses subst nodes) s') := by
  induction nodes generalizing scope s s' with
  | nil => exact ⟨rfl, h.world, fun _ => h⟩
  | op id op inputs outputs next ih =>
    obtain ⟨hinputs, hnext⟩ := hscoped
    rw [replaceUses, run, run]
    have hperform := @agree_perform X W E M bound subst scope s s' h op inputs
      (inputs.map subst) outputs (read_map fun v hv => h.subst v (hinputs v hv))
      fun o ho => hdefs o (Nodes.mem_defs_op.mpr (.inl ho))
    refine hperform.andThen fun hfin => ?_
    refine (ih hnext (fun o ho => hdefs o (Nodes.mem_defs_op.mpr (.inr ho)))
      (hperform.state hfin)).imp fun _ hsame => hsame.mono fun v hv => mem_scope_swap hv
  | ifThenElse id cond joins thenNodes elseNodes next ihThen ihElse ihNext =>
    obtain ⟨hcond, hthen, helse, hthenOuts, helseOuts, hnext⟩ := hscoped
    simp only [Nodes.mem_defs_ifThenElse] at hdefs
    rw [replaceUses, run, run, h.subst cond hcond]
    -- what is done behind the block that was taken
    have hjoin : ∀ (A : List Nat) (source : Join Nat → Nat) (sources' : List Nat)
        (r r' : Result X W E), (∀ j ∈ joins, source j ∈ A ++ scope) →
        sources' = (joins.map source).map subst → Agree (Same bound subst (A ++ scope)) r r' →
        Agree (Same bound subst
            ((Nodes.ifThenElse id cond joins thenNodes elseNodes next).topDefs ++ scope))
          (r.andThen fun t =>
            (t.move (joins.map source) (joins.map Join.output)).andThen (run next))
          (r'.andThen fun t => (t.move sources' (joins.map Join.output)).andThen
            (run (replaceUses subst next))) := by
      rintro A source sources' r r' hsource rfl hagree
      refine hagree.andThen fun hfin => ?_
      have hsame := hagree.state hfin
      have hmove := @agree_move X W E bound subst _ _ _ hsame (joins.map source) _
        (joins.map Join.output) (read_map fun v hv => by
          obtain ⟨j, hj, rfl⟩ := mem_map.mp hv
          exact hsame.subst _ (hsource j hj))
        fun o ho => hdefs o (.inr (.inr (.inl ho)))
      refine hmove.andThen fun hfin => ?_
      have hbehind : Same bound subst (joins.map Join.output ++ scope) _ _ :=
        (hmove.state hfin).mono fun v hv => by
          rcases mem_append.mp hv with hv | hv
          · exact mem_append_left _ hv
          · exact mem_append_right _ (mem_append_right _ hv)
      refine (ihNext hnext (fun o ho => hdefs o (.inr (.inr (.inr ho)))) hbehind).imp
        fun _ hsame => hsame.mono fun v hv => mem_scope_swap hv
    have houtput : (joins.map fun j => { j with
        thenOutput := subst j.thenOutput, elseOutput := subst j.elseOutput }).map Join.output
          = joins.map Join.output := by
      rw [map_map]
      rfl
    rw [houtput]
    split
    · refine hjoin _ Join.thenOutput _ _ _ hthenOuts (by simp only [map_map]; rfl)
        (ihThen hthen (fun o ho => hdefs o (.inl ho)) h)
    · refine hjoin _ Join.elseOutput _ _ _ helseOuts (by simp only [map_map]; rfl)
        (ihElse helse (fun o ho => hdefs o (.inr (.inl ho))) h)
    · exact ⟨rfl, h.world, by simp⟩
  | loop id maxTrip cond trip blockCond carries body next ihBody ihNext =>
    obtain ⟨hmaxTrip, hcond, hinitial, hbody, hblockCond, houts, hnext⟩ := hscoped
    simp only [Nodes.mem_defs_loop] at hdefs
    rw [replaceUses, run, run]
    have hins : ∀ o ∈ trip :: carries.map blockInput,
        o < bound ∧ subst o = o ∧ ∀ v, subst v = o → v = o := by
      intro o ho
      rcases mem_cons.mp ho with ho | ho
      · exact hdefs o (.inl ho)
      · exact hdefs o (.inr (.inl ho))
    have hread : s'.read ((carries.map initial).map subst)
        = s.read (carries.map initial) := by
      refine read_map fun v hv => ?_
      obtain ⟨c, hc, rfl⟩ := mem_map.mp hv
      exact h.subst _ (hinitial c hc)
    have hloop := @agree_runLoop X W E bound subst scope s s' (run body)
      (run (replaceUses subst body)) carries (carries.map fun c =>
        { c with initial := subst c.initial, blockOutput := subst c.blockOutput })
      _ trip blockCond (subst blockCond) hins hblockCond rfl
      (fun v hv => by
        obtain ⟨c, hc, rfl⟩ := mem_map.mp hv
        exact houts c hc)
      (by simp only [map_map]; rfl) (by simp only [map_map]; rfl)
      maxTrip (subst maxTrip) cond (subst cond)
      (fun s s' hs => ihBody hbody (fun o ho => hdefs o (.inr (.inr (.inl ho)))) hs)
      (fun v hv => mem_append_right _ hv)
      (fun o ho => hdefs o (.inr (.inr (.inr (.inl ho)))))
      (by simp only [map_map]; rfl) h (h.subst _ hmaxTrip) (h.subst _ hcond)
      (by
        rw [map_map] at hread ⊢
        exact hread)
    refine hloop.andThen fun hfin => ?_
    refine (ihNext hnext (fun o ho => hdefs o (.inr (.inr (.inr (.inr ho)))))
      (hloop.state hfin)).imp fun _ hsame => hsame.mono fun v hv => mem_scope_swap hv

end PyTorchCore.Refinement
