import PyTorchCore.Refinement.Positions

/-!
# The refiners are sound

By induction on the nodes of a block: the rewritten block does what the block does, and behind it
the refinements that the refiner returns hold.
-/

namespace PyTorchCore.Refinement

open Jit Join
open List

variable {X W E : Type} {M : Memory X W}

/-- What is known of the output `v` of a block that became `v'`. -/
structure OutputOf (M : Memory X W) (refiner : Refiner) (D : Nat → Prop) (st : Refs X)
    (s s' : State X W) (v v' : Nat) : Prop where
  env : s'.env v' = s.env v
  seen : ¬ (D v' ∨ st.fresh ≤ v')
  describes : ∀ x, s.env v = some x → Describes M refiner st s v' x
  kept : ∀ x, s.env v = some x → st.constant v' = none → s.env v' = some x

/-- What is known behind a block that returned. -/
structure Behind (M : Memory X W) (refiner : Refiner) (bound : Nat) (D : Nat → Prop)
    (scope : List Nat) (outer : List ListRefinement) (outputs : List Nat) (R : Refined M E)
    (s s' : State X W) : Prop where
  position : Position M refiner bound D scope (outer ++ [R.refinements]) R.st s s'
  throws : R.throws = false
  outputs : List.Forall₂ (OutputOf M refiner D R.st s s') outputs R.outputs

variable {refiner : Refiner} {types : Types} {bound : Nat} {D : Nat → Prop}
  {scope : List Nat} {active outer : List ListRefinement} {curr : ListRefinement} {st : Refs X}
  {s s' t t' : State X W}

section Nodes

/-- At the end of a block the outputs agree. -/
theorem Position.finish {outputs : List Nat}
    (h : Position M refiner bound D scope (outer ++ [curr]) st s s')
    (houts : ∀ v ∈ outputs, v ∈ scope) :
    Agree (Behind M refiner bound D scope outer outputs
        (refineBlock refiner types (.nil : Nodes Nat (Op M E)) outputs scope outer curr st))
      (run (.nil : Nodes Nat (Op M E)) s)
      (run (refineBlock refiner types (.nil : Nodes Nat (Op M E)) outputs scope outer curr
        st).nodes s') := by
  simp only [refineBlock]
  have hcases := @refineOutputs_cases X W M refiner types (outer ++ [curr]) s st.fresh h.active
    (outputs.map st.subst)
  generalize refiner.refineOutputs types (outer ++ [curr]) (outputs.map st.subst) st.fresh
    = refined at hcases ⊢
  rw [run_insertConstants]
  have hinserted := h.insertConstants refined.1
  refine ⟨rfl, hinserted.same.world, fun _ => ⟨hinserted, rfl, ?_⟩⟩
  rw [forall₂_map_left_iff] at hcases
  refine ((forall₂_and_left _ _).mpr ⟨houts, hcases⟩).imp ?_
  rintro v w ⟨hv, hw⟩
  refine ⟨h.env_replaced hv hw, h.seen_replaced hv hw, fun x hx => ?_, fun x hx hnone => ?_⟩
  · exact describes_refined (hinserted.sound v x hx) (by rw [subst_insertConstants])
      (fun i k hi => constant_insertConstants refined.1 hi) hw
  · rcases hw with rfl | ⟨i, k, hi, rfl, _⟩
    · have hreplaced := (hinserted.sound v x hx).replaced
      rw [subst_insertConstants] at hreplaced
      refine hreplaced.resolve_right fun ⟨_, k, hk⟩ => ?_
      exact Option.some_ne_none _ (hk.symm.trans hnone)
    · exact absurd ((constant_insertConstants refined.1 hi).symm.trans hnone)
        (Option.some_ne_none _)

variable {op : Op M E} {inputs outs : List Nat}

theorem Position.agree_op (h : Position M refiner bound D scope active st s s')
    (hinputs : ∀ v ∈ inputs, v ∈ scope) (houts : ∀ o ∈ outs, D o) :
    Agree (Same bound st.subst (outs ++ scope)) (s.perform op inputs outs)
      ((s'.bindConstants st.fresh
        (refiner.visit types active op inputs outs st).constants).perform op
        (refiner.visit types active op inputs outs st).inputs outs) := by
  refine agree_perform (h.same_bindConstants _) ?_ fun o ho => h.replaceable (houts o ho)
  simp only [Refiner.visit]
  rw [fresh_learnComparison, map_map]
  refine read_map fun v hv => ?_
  refine h.env_refined (inputs.map st.subst) (fun i k hi => ?_) (hinputs v hv)
  exact (List.getElem?_append_left (List.getElem?_eq_some_iff.mp hi).1).trans hi

theorem Position.behindOp (h : Position M refiner bound D scope active st s s')
    (hinputs : ∀ v ∈ inputs, v ∈ scope) (houts : ∀ o ∈ outs, D o)
    (hfin : (s.perform op inputs outs).outcome = .finished)
    (hclean : refiner.Clean M (s.perform op inputs outs).state) :
    Position M refiner bound (fun v => D v ∧ v ∉ outs) (outs ++ scope) active
      (refiner.visit types active op inputs outs st).st (s.perform op inputs outs).state
      ((s'.bindConstants st.fresh
        (refiner.visit types active op inputs outs st).constants).perform op
        (refiner.visit types active op inputs outs st).inputs outs).state := by
  have hagree := (@Position.agree_op X W E M refiner types bound D scope active st s s' op inputs
    outs h hinputs houts).state hfin
  have hlater : Later M s (s.perform op inputs outs).state :=
    Later.perform fun v hv => h.free v (.inl (houts v hv))
  have hassigned : ∀ v ∈ outs, ∃ x, (s.perform op inputs outs).state.env v = some x := by
    obtain ⟨xs, ys, w, _, _, hstate, hlen⟩ := perform_finished hfin
    rw [hstate]
    exact fun v hv => env_assign_of_mem hv hlen
  have hbehind := h.later houts (fun v hv => hv) hlater hclean
    (fun v hv => env_perform_of_notMem hv) hassigned hagree
  have hext := @extends_visit X W E M outs [] st refiner types inputs outs active op
    fun o ho => ho
  have hsound := @Sound.visit X W E M refiner types active st D s op inputs outs h.sound
    h.untouched houts h.free h.active hfin hclean
  refine hbehind.update hext.fresh_le
    (h.untouched.after hext houts fun v hv => absurd hv not_mem_nil) hsound fun v hv => ?_
  obtain ⟨x, hx⟩ := hbehind.assigned v hv
  rcases @subst_visit X W E M refiner types active st op inputs outs v
    with hsame | ⟨i, k, hi, hsubst, hk⟩
  · rw [hsame]
    exact hbehind.same.subst v hv
  · have hconst := (hsound v x hx).subst.constant
    rw [hsubst] at hconst ⊢
    obtain rfl := hconst _ hk
    have hnot : st.fresh + i ∉ outs := fun hmem => by
      have hlt := h.lt_bound _ (houts _ hmem)
      have hle := h.bound_le
      omega
    rw [env_perform_of_notMem hnot, env_bindConstants s' st.fresh _ hi, hx]

end Nodes

section Branches

variable {cond : Nat} {joins : List (Join Nat)}

theorem facts_conditionRefinements {v : Nat} {b : Bool} (h : Describes M refiner st s v (.bool b)) :
    refiner.Facts M s (st.conditionRefinements v b) := by
  rw [Refs.conditionRefinements]
  split
  · next m hm => exact h.info m b hm rfl
  · exact facts_empty

theorem Position.enterTrue (h : Position M refiner bound D scope active st s s')
    (hcond : s.env cond = some (.bool true)) :
    Position M refiner bound D scope
      (active ++ [(st.insertConstants (refiner.refineInputs types active [st.subst cond]
        st.fresh).1).conditionRefinements ((refiner.refineInputs types active [st.subst cond]
        st.fresh).2 (st.subst cond)) true])
      (st.insertConstants (refiner.refineInputs types active [st.subst cond] st.fresh).1) s
      (s'.bindConstants st.fresh
        (refiner.refineInputs types active [st.subst cond] st.fresh).1) := by
  refine (h.insertConstants _).activate fun ref href => ?_
  rcases mem_append.mp href with href | href
  · exact h.active ref href
  · rw [mem_singleton.mp href]
    exact facts_conditionRefinements (h.describes_used [st.subst cond] hcond)

theorem Position.enterFalse {A : List Nat} {st' : Refs X}
    (h : Position M refiner bound D scope active st s s') (hscope : cond ∈ scope)
    (hcond : s.env cond = some (.bool false)) (hA : ∀ v ∈ A, D v)
    (hext : Extends A scope
      (st.insertConstants (refiner.refineInputs types active [st.subst cond] st.fresh).1) st') :
    Position M refiner bound (fun v => D v ∧ v ∉ A) scope
      (active ++ [st'.conditionRefinements ((refiner.refineInputs types active [st.subst cond]
        st.fresh).2 (st.subst cond)) false]) st' s
      (s'.bindConstants st.fresh
        (refiner.refineInputs types active [st.subst cond] st.fresh).1) := by
  have hinserted := h.insertConstants (refiner.refineInputs types active [st.subst cond] st.fresh).1
  refine (hinserted.skip hext hA).activate fun ref href => ?_
  rcases mem_append.mp href with href | href
  · exact h.active ref href
  · rw [mem_singleton.mp href]
    have hused := @Position.describes_used X W M refiner types bound D scope active st s s' h
      [st.subst cond] cond _ hcond
    have hseen := not_or.mp (h.seen_replaced hscope (@refineInputs_cases X W M refiner types active
      s st.fresh h.active (fun c hc => h.free c (.inr hc)) [st.subst cond] (st.subst cond)))
    exact facts_conditionRefinements
      (hused.extends hext (fun hmem => hseen.1 (hA _ hmem)) (Nat.lt_of_not_le hseen.2))

theorem env_move_of_nodup {src dst : Join Nat → Nat}
    (hfin : (s.move (joins.map src) (joins.map dst) : Result X W E).outcome = .finished)
    (hnodup : (joins.map dst).Nodup) {j : Join Nat} (hj : j ∈ joins) :
    (s.move (joins.map src) (joins.map dst) : Result X W E).state.env (dst j) = s.env (src j) := by
  have hlookup : ∀ xs, s.read (joins.map src) = some xs →
      ∃ x, s.env (src j) = some x ∧ ((joins.map dst).zip xs).lookup (dst j) = some x := by
    clear hfin
    induction joins with
    | nil => exact absurd hj not_mem_nil
    | cons j' joins ih =>
      intro xs hread
      simp only [State.read, map_cons, mapM_cons, Option.pure_def,
        Option.bind_eq_bind, Option.bind_eq_some_iff, Option.some.injEq] at hread
      obtain ⟨x, hx, ys, hys, rfl⟩ := hread
      rw [map_cons, nodup_cons] at hnodup
      rw [map_cons, zip_cons_cons, lookup_cons]
      rcases mem_cons.mp hj with rfl | hj
      · exact ⟨x, hx, by rw [beq_self_eq_true]⟩
      · have hne : dst j ≠ dst j' := fun heq => hnodup.1 (heq ▸ mem_map_of_mem hj)
        rw [beq_eq_false_iff_ne.mpr hne]
        exact ih hnodup.2 hj ys hys
  unfold State.move at hfin ⊢
  split at hfin
  · next xs hread =>
    obtain ⟨x, hx, hlookup⟩ := hlookup xs hread
    simp [State.assign, hlookup, hx]
  · cases hfin

theorem exists_of_mem_withOutputs {P : Nat → Nat → Prop} {ts es : List Nat} (taken : Bool)
    (h : Forall₂ P (joins.map (source taken)) (if taken then ts else es)) {j' : Join Nat}
    (hj' : j' ∈ withOutputs joins ts es) :
    ∃ j ∈ joins, j'.output = j.output ∧ P (source taken j) (source taken j') := by
  induction joins generalizing ts es with
  | nil => simp only [withOutputs, not_mem_nil] at hj'
  | cons j joins ih =>
    cases ts with
    | nil => simp only [withOutputs, not_mem_nil] at hj'
    | cons a ts =>
      cases es with
      | nil => simp only [withOutputs, not_mem_nil] at hj'
      | cons b es =>
        have hsplit : P (source taken j) (if taken then a else b) ∧
            Forall₂ P (joins.map (source taken)) (if taken then ts else es) := by
          cases taken <;> exact forall₂_cons.mp h
        rw [withOutputs, mem_cons] at hj'
        rcases hj' with rfl | hj'
        · refine ⟨j, mem_cons_self, rfl, ?_⟩
          cases taken <;> exact hsplit.1
        · obtain ⟨j₀, hj₀, h₀⟩ := ih hsplit.2 hj'
          exact ⟨j₀, mem_cons_of_mem _ hj₀, h₀⟩

/-- The outputs of the block that was taken are handed over. -/
abbrev handOver (E : Type) (joins : List (Join Nat)) (taken : Bool) (t : State X W) :
    Result X W E :=
  t.move (joins.map (source taken)) (joins.map Join.output)

abbrev Refiner.leaveBlocks (refiner : Refiner) (types : Types) (scope : List Nat)
    (joins : List (Join Nat)) (curr : ListRefinement) (trueBlock falseBlock : Refined M E) :=
  refiner.leaveIf types scope (withOutputs joins trueBlock.outputs falseBlock.outputs) curr
    trueBlock falseBlock

theorem Position.agree_joins {sources sources' : List Nat}
    (h : Position M refiner bound D scope active st t t')
    (hout : Forall₂ (OutputOf M refiner D st t t') sources sources')
    (hjoins : ∀ o ∈ joins.map output, D o) :
    Agree (Same bound st.subst (joins.map output ++ scope))
      (t.move sources (joins.map output) : Result X W E)
      (t'.move sources' (joins.map output)) :=
  agree_move h.same (read_congr (hout.imp fun _ _ hv => hv.env))
    fun o ho => h.replaceable (hjoins o ho)

theorem Position.behindIf {trueBlock falseBlock : Refined M E} (taken : Bool)
    (h : Position M refiner bound D scope (outer ++ [curr]) falseBlock.st t t')
    (hout : Forall₂ (OutputOf M refiner D falseBlock.st t t') (joins.map (source taken))
      (if taken then trueBlock.outputs else falseBlock.outputs))
    (hnodup : (joins.map output).Nodup) (hjoins : ∀ o ∈ joins.map output, D o)
    (hfin : (handOver E joins taken t).outcome = .finished)
    (hclean : refiner.Clean M (handOver E joins taken t).state)
    (htrue : taken = true → refiner.Facts M t trueBlock.refinements ∧ trueBlock.throws = false)
    (hfalse : taken = false →
      refiner.Facts M t falseBlock.refinements ∧ falseBlock.throws = false) :
    Position M refiner bound (fun v => D v ∧ v ∉ joins.map output)
        (joins.map output ++ scope)
        (outer ++ [(refiner.leaveBlocks types scope joins curr trueBlock falseBlock).1])
        (refiner.leaveBlocks types scope joins curr trueBlock falseBlock).2.2
        (handOver E joins taken t).state
        (t'.move (if taken then trueBlock.outputs else falseBlock.outputs)
          (joins.map output) : Result X W E).state ∧
      (refiner.leaveBlocks types scope joins curr trueBlock falseBlock).2.1 = false := by
  have hsame := (@Position.agree_joins X W E M refiner bound D scope (outer ++ [curr])
    falseBlock.st t t' joins _ _ h hout hjoins).state hfin
  have hlater : Later M t (handOver E joins taken t).state :=
    Later.move (fun v hv => h.free v (.inl (hjoins v hv))) _
  have hassigned : ∀ v ∈ joins.map output, ∃ x,
      (handOver E joins taken t).state.env v = some x :=
    fun v hv => env_move_of_mem (by rw [length_map, length_map]) hfin hv
  have hmoved : ∀ j ∈ joins,
      (handOver E joins taken t).state.env j.output = t.env (source taken j) :=
    fun j hj => env_move_of_nodup hfin hnodup hj
  have hbehind := h.later hjoins (fun v hv => hv) hlater hclean
    (fun v hv => env_move_of_notMem hv) hassigned hsame
  generalize (handOver E joins taken t).state = u at hlater hclean hmoved hbehind ⊢
  generalize (t'.move (if taken then trueBlock.outputs else falseBlock.outputs)
    (joins.map output) : Result X W E).state = u' at hbehind ⊢
  unfold Refiner.leaveBlocks
  generalize hjoined : withOutputs joins trueBlock.outputs falseBlock.outputs = joins'
  have hsource : ∀ j' ∈ joins', ∃ j ∈ joins, j'.output = j.output ∧
      OutputOf M refiner D falseBlock.st t t' (source taken j) (source taken j') :=
    fun j' hj' => exists_of_mem_withOutputs taken hout (hjoined ▸ hj')
  have houtput : ∀ j' ∈ joins', j'.output ∈ joins.map output := by
    intro j' hj'
    obtain ⟨j, hj, heq, _⟩ := hsource j' hj'
    exact heq ▸ mem_map_of_mem hj
  have hdesc : JoinsDescribed M refiner taken joins' falseBlock.st u := by
    intro j' hj' x hx
    obtain ⟨j, hj, heq, hof⟩ := hsource j' hj'
    rw [heq, hmoved j hj] at hx
    exact (hof.describes x hx).later hlater hclean
  have hremoved := @Sound.removeIfNodeOutputs X W M refiner types taken joins' falseBlock.st u scope
    trueBlock.refinements falseBlock.refinements hbehind.sound hdesc (fun j' hj' x hx hnone => by
      obtain ⟨j, hj, heq, hof⟩ := hsource j' hj'
      rw [heq, hmoved j hj] at hx
      exact hlater.env _ _ (hof.kept x hx hnone))
    (fun htaken => (htrue htaken).1.later hlater hclean)
    (fun htaken => (hfalse htaken).1.later hlater hclean)
  have hdesc' : JoinsDescribed M refiner taken joins'
      (refiner.removeIfNodeOutputsWithRefinements types scope trueBlock.refinements
        falseBlock.refinements joins' falseBlock.st) u := by
    intro j' hj' x hx
    rw [removeIfNodeOutputs_eq]
    exact ⟨(hdesc j' hj' x hx).constant, (hdesc j' hj' x hx).info⟩
  have hne : ∀ j₁ ∈ joins', ∀ j₂ ∈ joins', source taken j₁ ≠ j₂.output := by
    intro j₁ h₁ j₂ h₂ heq
    obtain ⟨_, _, _, hof⟩ := hsource j₁ h₁
    exact hof.seen (.inl (heq ▸ hjoins _ (houtput j₂ h₂)))
  have hsub : ∀ j' ∈ joins', ∀ v, (refiner.removeIfNodeOutputsWithRefinements types scope
      trueBlock.refinements falseBlock.refinements joins' falseBlock.st).subst v = j'.output →
      v = j'.output := by
    intro j' hj' v heq
    have hlaterD := hjoins _ (houtput j' hj')
    rcases hremoved.2 v with hsame | ⟨hmem, _⟩
    · exact h.untouched.eq_of_subst v _ (.inl hlaterD) (hsame.symm.trans heq)
    · exact absurd hlaterD (h.in_scope _ (heq ▸ hmem)).1
  have hcurr : refiner.Facts M u curr :=
    hbehind.active curr (mem_append_right _ (mem_singleton_self _))
  have hjoin := @Sound.joinIf X W M refiner types taken joins' _ u trueBlock.refinements
    falseBlock.refinements trueBlock.throws falseBlock.throws curr hremoved.1 hdesc' hne hsub hcurr
    (fun htaken => ⟨(htrue htaken).1.later hlater hclean, (htrue htaken).2⟩)
    (fun htaken => ⟨(hfalse htaken).1.later hlater hclean, (hfalse htaken).2⟩)
  have hext := @extends_leaveIf X W E M (joins.map output) scope refiner types joins' houtput
    curr trueBlock falseBlock
  have hscope : ∀ v ∈ scope, ¬ D v ∧ v < falseBlock.st.fresh := fun v hv =>
    ⟨(h.in_scope v hv).1, Nat.lt_of_lt_of_le (h.in_scope v hv).2 h.bound_le⟩
  refine ⟨(hbehind.update hext.fresh_le (h.untouched.after hext hjoins hscope) hjoin.1
    fun v hv => ?_).activate fun ref href => ?_, hjoin.2.2⟩
  · obtain ⟨x, hx⟩ := hbehind.assigned v hv
    simp only [Refiner.leaveIf, subst_joinIf]
    rcases hremoved.2 v with heq | ⟨hmem, heq⟩
    · rw [heq]
      exact hbehind.same.subst v hv
    · rw [hbehind.same.env _ (h.in_scope _ hmem).2, heq x hx, hx]
  · rcases mem_append.mp href with href | href
    · exact hbehind.active ref (mem_append_left _ href)
    · rw [mem_singleton.mp href]
      exact hjoin.2.1

end Branches

section Loops

variable {maxTrip cond trip blockCond : Nat} {carries : List (Carry Nat)}
  {body : Nodes Nat (Op M E)}

theorem run_loop_nil (id : Nat) (s : State X W) :
    (run (.loop id maxTrip cond trip blockCond carries body .nil : Nodes Nat (Op M E)) s).state
      = (runLoop (run body) maxTrip cond trip blockCond carries s).state := by
  rw [run, Result.andThen]
  split <;> rfl

theorem env_runLoop_of_mem {next : State X W → Result X W E}
    (hfin : (runLoop next maxTrip cond trip blockCond carries s).outcome = .finished) {v : Nat}
    (hv : v ∈ carries.map Carry.output) :
    ∃ x, (runLoop next maxTrip cond trip blockCond carries s).state.env v = some x := by
  have hlast : ∀ r : Result X W E, (r.andThen fun t =>
      (t.move (carries.map Carry.blockInput) (carries.map Carry.output))).outcome = .finished →
      ∃ x, (r.andThen fun t => (t.move (carries.map Carry.blockInput)
        (carries.map Carry.output) : Result X W E)).state.env v = some x := by
    intro r hr
    rw [Result.andThen] at hr ⊢
    split at hr
    · exact env_move_of_mem (by rw [length_map, length_map]) hr hv
    · next hne => exact absurd hr hne
  rw [runLoop] at hfin ⊢
  split at hfin
  · rw [Result.andThen] at hfin ⊢
    split at hfin
    · exact hlast _ hfin
    · next hne => exact absurd hfin hne
  · cases hfin

section

variable (h : Position M refiner bound D scope active st s s')
  (hscoped : (Nodes.loop 0 maxTrip cond trip blockCond carries body (.nil : Nodes Nat (Op M
    E))).Scoped scope)
  (hdefs : ∀ v ∈ (Nodes.loop 0 maxTrip cond trip blockCond carries body (.nil : Nodes Nat (Op M
    E))).defs, D v)
  (inputs : List Nat)
include h hscoped hdefs

/-- A loop agrees with the refined one. -/
theorem Position.agree_loop :
    Agree (Same bound st.subst (carries.map Carry.output ++ scope))
      (runLoop (run body) maxTrip cond trip blockCond carries s)
      (runLoop (run (replaceUses st.subst body))
        ((refiner.refineInputs types active inputs st.fresh).2 (st.subst maxTrip))
        ((refiner.refineInputs types active inputs st.fresh).2 (st.subst cond)) trip
        (st.subst blockCond)
        (carries.map fun c =>
          { c with
            initial := (refiner.refineInputs types active inputs st.fresh).2 (st.subst c.initial)
            blockOutput := st.subst c.blockOutput })
        (s'.bindConstants st.fresh (refiner.refineInputs types active inputs st.fresh).1)) := by
  obtain ⟨hmaxTrip, hcond, hinitial, hbody, hblockCond, houts, _⟩ := hscoped
  simp only [Nodes.mem_defs_loop] at hdefs
  have hused : ∀ v ∈ scope, (s'.bindConstants st.fresh
      (refiner.refineInputs types active inputs st.fresh).1).env
        ((refiner.refineInputs types active inputs st.fresh).2 (st.subst v)) = s.env v :=
    fun v hv => h.env_refined inputs (fun _ _ hi => hi) hv
  have hins : ∀ o ∈ trip :: carries.map Carry.blockInput,
      o < bound ∧ st.subst o = o ∧ ∀ v, st.subst v = o → v = o := by
    intro o ho
    refine h.replaceable (hdefs o ?_)
    rcases mem_cons.mp ho with ho | ho
    · exact .inl ho
    · exact .inr (.inl ho)
  refine @agree_runLoop X W E bound st.subst scope s _ (run body) (run (replaceUses st.subst body))
    carries _ _ trip blockCond (st.subst blockCond) hins hblockCond rfl ?_ ?_ ?_ maxTrip _ cond _
    (fun t t' hs => run_replaceUses hbody
      (fun o ho => h.replaceable (hdefs o (.inr (.inr (.inl ho))))) hs)
    (fun v hv => mem_append_right _ hv) ?_ ?_ (h.same_bindConstants _) (hused _ hmaxTrip)
    (hused _ hcond) ?_
  · intro v hv
    obtain ⟨c, hc, rfl⟩ := mem_map.mp hv
    exact houts c hc
  · simp only [map_map]
    rfl
  · simp only [map_map]
    rfl
  · exact fun o ho => h.replaceable (hdefs o (.inr (.inr (.inr (.inl ho)))))
  · simp only [map_map]
    rfl
  · rw [map_map]
    refine read_congr ?_
    rw [forall₂_map_left_iff, forall₂_map_right_iff, forall₂_same]
    exact fun c hc => hused _ (hinitial c hc)

theorem Position.behindLoop
    (hfin : (runLoop (run body) maxTrip cond trip blockCond carries s).outcome = .finished)
    (hclean : refiner.Clean M (runLoop (run body) maxTrip cond trip blockCond carries s).state) :
    Position M refiner bound (fun v => D v ∧ v ∉ (Nodes.loop 0 maxTrip cond trip blockCond carries
        body (.nil : Nodes Nat (Op M E))).defs) (carries.map Carry.output ++ scope) active
      (st.insertConstants (refiner.refineInputs types active inputs st.fresh).1)
      (runLoop (run body) maxTrip cond trip blockCond carries s).state
      (runLoop (run (replaceUses st.subst body))
        ((refiner.refineInputs types active inputs st.fresh).2 (st.subst maxTrip))
        ((refiner.refineInputs types active inputs st.fresh).2 (st.subst cond)) trip
        (st.subst blockCond)
        (carries.map fun c =>
          { c with
            initial := (refiner.refineInputs types active inputs st.fresh).2 (st.subst c.initial)
            blockOutput := st.subst c.blockOutput })
        (s'.bindConstants st.fresh
          (refiner.refineInputs types active inputs st.fresh).1)).state := by
  have hagree := (@Position.agree_loop X W E M refiner types bound D scope active st s s' maxTrip
    cond trip blockCond carries body h hscoped hdefs inputs).state hfin
  have hinserted := h.insertConstants (refiner.refineInputs types active inputs st.fresh).1
  have hlater := @Later.run X W E M s (Nodes.loop 0 maxTrip cond trip blockCond carries body .nil)
    fun v hv => h.free v (.inl (hdefs v hv))
  have hframe := fun v hv => @run_env X W E M (Nodes.loop 0 maxTrip cond trip blockCond carries
    body .nil) v hv s
  rw [run_loop_nil] at hlater
  simp only [run_loop_nil] at hframe
  refine hinserted.later hdefs (fun v hv => ?_) hlater hclean hframe
    (fun v hv => env_runLoop_of_mem hfin hv) ?_
  · exact Nodes.mem_defs_loop.mpr (.inr (.inr (.inr (.inl hv))))
  · rw [subst_insertConstants]
    exact hagree

end

end Loops

section Blocks

/-- An output stays right when more is recorded. -/
theorem OutputOf.extends {A S : List Nat} {st' : Refs X} {v v' : Nat}
    (h : OutputOf M refiner D st s s' v v') (hext : Extends A S st st') (hA : ∀ v ∈ A, D v) :
    OutputOf M refiner (fun v => D v ∧ v ∉ A) st' s s' v v' := by
  have hseen := not_or.mp h.seen
  have hnot : v' ∉ A := fun hmem => hseen.1 (hA v' hmem)
  have hlt : v' < st.fresh := Nat.lt_of_not_le hseen.2
  refine ⟨h.env, not_or.mpr ⟨fun hD => hseen.1 hD.1, ?_⟩, fun x hx => ?_, fun x hx hnone => ?_⟩
  · exact fun hle => hseen.2 (Nat.le_trans hext.fresh_le hle)
  · exact (h.describes x hx).extends hext hnot hlt
  · exact h.kept x hx (hext.constant v' hnot (.inl hlt) ▸ hnone)

theorem Behind.widen {D' : Nat → Prop} {scope' : List Nat} {outputs : List Nat} {R : Refined M E}
    {nodes' : Nodes Nat (Op M E)} {throws' : Bool}
    (h : Behind M refiner bound D scope outer outputs R s s') (hD : ∀ v, D' v → D v)
    (hscope : ∀ v ∈ scope', v ∈ scope) (hthrows : throws' = false) :
    Behind M refiner bound D' scope' outer outputs { R with nodes := nodes', throws := throws' }
      s s' where
  position := h.position.mono hD hscope
  throws := hthrows
  outputs := h.outputs.imp fun _ _ hv =>
    ⟨hv.env, fun hseen => hv.seen (hseen.imp_left (hD _)), hv.describes, hv.kept⟩

/-- The outputs of the block that was taken are handed over, and the nodes behind the `prim::If`
are executed. -/
theorem Position.restOfIf {R : State X W → State X W → Prop} {Q : State X W → Prop}
    {joins : List (Join Nat)}
    {next rest : Nodes Nat (Op M E)} {trueBlock falseBlock : Refined M E} (taken : Bool)
    (h : Position M refiner bound D scope (outer ++ [curr]) falseBlock.st t t')
    (hout : Forall₂ (OutputOf M refiner D falseBlock.st t t') (joins.map (source taken))
      (if taken then trueBlock.outputs else falseBlock.outputs))
    (hnodup : (joins.map output).Nodup) (hjoins : ∀ o ∈ joins.map output, D o)
    (hfree : ∀ v ∈ next.defs, D v ∧ v ∉ joins.map output)
    (hclean : refiner.Clean M ((handOver E joins taken t).andThen (run next)).state)
    (htrue : taken = true → refiner.Facts M t trueBlock.refinements ∧ trueBlock.throws = false)
    (hfalse : taken = false → refiner.Facts M t falseBlock.refinements ∧ falseBlock.throws = false)
    (hnext : ∀ u u', Position M refiner bound (fun v => D v ∧ v ∉ joins.map output)
        (joins.map output ++ scope)
        (outer ++ [(refiner.leaveBlocks types scope joins curr trueBlock falseBlock).1])
        (refiner.leaveBlocks types scope joins curr trueBlock falseBlock).2.2 u u' →
      (refiner.leaveBlocks types scope joins curr trueBlock falseBlock).2.1 = false →
      refiner.Clean M (run next u).state → Agree R (run next u) (run rest u') ∧ Q u) :
    Agree R ((handOver E joins taken t).andThen (run next))
      ((t'.move (if taken then trueBlock.outputs else falseBlock.outputs)
        (joins.map output) : Result X W E).andThen (run rest)) ∧
      ((handOver E joins taken t).outcome = .finished → Q (handOver E joins taken t).state) := by
  have hlater : Later M (handOver E joins taken t).state
      (run next (handOver E joins taken t).state).state := Later.run fun v hv => by
    rw [env_move_of_notMem (hfree v hv).2]
    exact h.free v (.inl (hfree v hv).1)
  have hmove := @Position.agree_joins X W E M refiner bound D scope (outer ++ [curr])
    falseBlock.st t t' joins _ _ h hout hjoins
  have hbehind := fun hfin => by
    have hbehind := @Position.behindIf X W E M refiner types bound D scope outer curr t t' joins
      trueBlock falseBlock taken h hout hnodup hjoins hfin
      (hclean.before (Later.andThen hlater)) htrue hfalse
    rw [Result.andThen, hfin] at hclean
    exact hnext _ _ hbehind.1 hbehind.2 hclean
  exact ⟨hmove.andThen fun hfin => (hbehind hfin).1, fun hfin => (hbehind hfin).2⟩

def ActiveHold (M : Memory X W) (refiner : Refiner) (active : List ListRefinement)
    (s : State X W) : Prop :=
  ∀ ref ∈ active, refiner.Facts M s ref

/-- Wherever a walk comes to the nodes, rewriting them is sound. -/
def SoundOn (M : Memory X W) (refiner : Refiner) (types : Types) (bound : Nat)
    (nodes : Nodes Nat (Op M E)) : Prop :=
  ∀ {D : Nat → Prop} {scope : List Nat} {outer : List ListRefinement} {curr : ListRefinement}
    {st : Refs X} {s s' : State X W} (outputs : List Nat), nodes.Scoped scope →
    nodes.defs.Nodup → (∀ v ∈ nodes.defs, D v) → (∀ v ∈ outputs, v ∈ nodes.topDefs ++ scope) →
    Position M refiner bound D scope (outer ++ [curr]) st s s' →
    refiner.Clean M (run nodes s).state →
    Agree (Behind M refiner bound (fun v => D v ∧ v ∉ nodes.defs) (nodes.topDefs ++ scope) outer
        outputs (refineBlock refiner types nodes outputs scope outer curr st))
      (run nodes s)
      (run (refineBlock refiner types nodes outputs scope outer curr st).nodes s') ∧
      AtEveryPoint refiner types (ActiveHold M refiner) nodes scope outer curr st s

theorem soundOn_nil : SoundOn M refiner types bound (.nil : Nodes Nat (Op M E)) := by
  intro D scope outer curr st s s' outputs hscoped hnodup hdefs houts h hclean
  refine ⟨(h.finish houts).imp fun _ hbehind => ?_, h.active⟩
  exact hbehind.widen (fun v hv => hv.1) (fun v hv => hv) hbehind.throws

variable {next : Nodes Nat (Op M E)} (ihNext : SoundOn M refiner types bound next)
include ihNext

theorem soundOn_op (id : Nat) (op : Op M E) (inputs outs : List Nat) :
    SoundOn M refiner types bound (.op id op inputs outs next) := by
  intro D scope outer curr st s s' outputs hscoped hnodup hdefs houts h hclean
  obtain ⟨hinputs, hscoped⟩ := hscoped
  rw [Nodes.defs, nodup_append] at hnodup
  simp only [Nodes.mem_defs_op] at hdefs
  have houtsD : ∀ o ∈ outs, D o := fun o ho => hdefs o (.inl ho)
  have hlater : Later M (s.perform op inputs outs).state
      (run next (s.perform op inputs outs).state).state := Later.run fun v hv => by
    rw [env_perform_of_notMem fun hmem => hnodup.2.2 v hmem v hv rfl]
    exact h.free v (.inl (hdefs v (.inr hv)))
  simp only [refineBlock, run_insertConstants, run] at hclean ⊢
  have hagree := @Position.agree_op X W E M refiner types bound D scope (outer ++ [curr]) st
    s s' op inputs outs h hinputs houtsD
  have hnext := fun hfin => by
    have hpos := @Position.behindOp X W E M refiner types bound D scope (outer ++ [curr]) st
      s s' op inputs outs h hinputs houtsD hfin (hclean.before (Later.andThen hlater))
    rw [Result.andThen, hfin] at hclean
    exact ihNext outputs hscoped hnodup.2.1
      (fun v hv => ⟨hdefs v (.inr hv), fun hmem => hnodup.2.2 v hmem v hv rfl⟩)
      (fun v hv => mem_scope_swap (houts v hv)) hpos hclean
  refine ⟨hagree.andThen fun hfin => (hnext hfin).1.imp fun _ hbehind => ?_,
    h.active, fun hfin => (hnext hfin).2⟩
  refine hbehind.widen (fun v hv => ?_) (fun v hv => mem_scope_swap hv) ?_
  · rw [Nodes.mem_defs_op, not_or] at hv
    exact ⟨⟨hv.1, hv.2.1⟩, hv.2.2⟩
  · rw [Bool.or_eq_false_iff]
    refine ⟨Bool.eq_false_iff.mpr fun hthrows => throws_visit hthrows hfin, hbehind.throws⟩

omit ihNext in
/-- What the nodes of a `prim::If` define, and that none of it is defined twice. -/
theorem defs_ifThenElse {id cond : Nat} {joins : List (Join Nat)}
    {thenNodes elseNodes : Nodes Nat (Op M E)}
    (hnodup : (Nodes.ifThenElse id cond joins thenNodes elseNodes next).defs.Nodup)
    (hdefs : ∀ v ∈ (Nodes.ifThenElse id cond joins thenNodes elseNodes next).defs, D v) :
    (thenNodes.defs.Nodup ∧ elseNodes.defs.Nodup ∧ (joins.map output).Nodup ∧ next.defs.Nodup) ∧
      (∀ v ∈ thenNodes.defs, D v) ∧ (∀ v ∈ elseNodes.defs, D v ∧ v ∉ thenNodes.defs) ∧
      (∀ o ∈ joins.map output, (D o ∧ o ∉ thenNodes.defs) ∧ o ∉ elseNodes.defs) ∧
      ∀ v ∈ next.defs, ((D v ∧ v ∉ thenNodes.defs) ∧ v ∉ elseNodes.defs) ∧
        v ∉ joins.map output := by
  simp only [Nodes.defs, append_assoc] at hnodup
  obtain ⟨hthenNodup, hnodup, hthenApart⟩ := nodup_append.mp hnodup
  obtain ⟨helseNodup, hnodup, helseApart⟩ := nodup_append.mp hnodup
  obtain ⟨hjoinsNodup, hnextNodup, hjoinsApart⟩ := nodup_append.mp hnodup
  simp only [mem_append] at hthenApart helseApart
  simp only [Nodes.mem_defs_ifThenElse] at hdefs
  refine ⟨⟨hthenNodup, helseNodup, hjoinsNodup, hnextNodup⟩, fun v hv => hdefs v (.inl hv),
    fun v hv => ?_, fun o ho => ?_, fun v hv => ?_⟩
  · exact ⟨hdefs v (.inr (.inl hv)), fun hmem => hthenApart v hmem v (.inl hv) rfl⟩
  · refine ⟨⟨hdefs o (.inr (.inr (.inl ho))), fun hmem => ?_⟩, fun hmem => ?_⟩
    · exact hthenApart o hmem o (.inr (.inl ho)) rfl
    · exact helseApart o hmem o (.inl ho) rfl
  · refine ⟨⟨⟨hdefs v (.inr (.inr (.inr hv))), fun hmem => ?_⟩, fun hmem => ?_⟩, fun hmem => ?_⟩
    · exact hthenApart v hmem v (.inr (.inr hv)) rfl
    · exact helseApart v hmem v (.inr hv) rfl
    · exact hjoinsApart v hmem v hv rfl

theorem soundOn_ifThenElse {thenNodes elseNodes : Nodes Nat (Op M E)}
    (ihThen : SoundOn M refiner types bound thenNodes)
    (ihElse : SoundOn M refiner types bound elseNodes) (id cond : Nat) (joins : List (Join Nat)) :
    SoundOn M refiner types bound (.ifThenElse id cond joins thenNodes elseNodes next) := by
  intro D scope outer curr st s s' outputs hscoped hnodup hdefs houts h hclean
  obtain ⟨hcond, hthen, helse, hthenOuts, helseOuts, hnext⟩ := hscoped
  obtain ⟨⟨hthenNodup, helseNodup, hjoinsNodup, hnextNodup⟩, hthenD, helseD, hjoinsD, hnextD⟩ :=
    defs_ifThenElse hnodup hdefs
  simp only [refineBlock, AtEveryPoint, run_insertConstants] at hclean ⊢
  generalize hrefined : refiner.refineInputs types (outer ++ [curr]) [st.subst cond] st.fresh
    = refined
  have hused : (s'.bindConstants st.fresh refined.1).env (refined.2 (st.subst cond))
      = s.env cond := by
    rw [← hrefined]
    exact h.env_refined [st.subst cond] (fun _ _ hi => hi) hcond
  have hinserted := h.insertConstants refined.1
  generalize htrueBlock : refineBlock refiner types thenNodes (joins.map thenOutput) scope
    (outer ++ [curr]) ((st.insertConstants refined.1).conditionRefinements
      (refined.2 (st.subst cond)) true) (st.insertConstants refined.1) = trueBlock
  generalize hfalseBlock : refineBlock refiner types elseNodes (joins.map elseOutput)
    scope (outer ++ [curr]) (trueBlock.st.conditionRefinements (refined.2 (st.subst cond))
      false) trueBlock.st = falseBlock
  have hextTrue : Extends thenNodes.defs scope (st.insertConstants refined.1) trueBlock.st :=
    htrueBlock ▸ extends_refineBlock _ _ _ _ _ _ _ _
  have hextFalse : Extends elseNodes.defs scope trueBlock.st falseBlock.st :=
    hfalseBlock ▸ extends_refineBlock _ _ _ _ _ _ _ _
  have hlenTrue : trueBlock.outputs.length = joins.length := by
    rw [← htrueBlock, length_outputs_refineBlock, length_map]
  have hlenFalse : falseBlock.outputs.length = joins.length := by
    rw [← hfalseBlock, length_outputs_refineBlock, length_map]
  generalize hrest : refineBlock refiner types next outputs _ outer _ _ = rest
  generalize hrelation : Behind M refiner bound _ _ outer outputs _ = relation
  -- the nodes behind the node, whichever block was taken
  have hagree : ∀ u u', Position M refiner bound
      (fun v => ((D v ∧ v ∉ thenNodes.defs) ∧ v ∉ elseNodes.defs) ∧
        v ∉ joins.map output) (joins.map output ++ scope)
      (outer ++ [(refiner.leaveBlocks types scope joins curr trueBlock falseBlock).1])
      (refiner.leaveBlocks types scope joins curr trueBlock falseBlock).2.2 u u' →
      (refiner.leaveBlocks types scope joins curr trueBlock falseBlock).2.1 = false →
      refiner.Clean M (run next u).state →
      Agree relation (run next u) (run rest.nodes u') ∧
        AtEveryPoint refiner types (ActiveHold M refiner) next
          (joins.map output ++ scope) outer
          (refiner.leaveBlocks types scope joins curr trueBlock falseBlock).1
          (refiner.leaveBlocks types scope joins curr trueBlock falseBlock).2.2 u := by
    intro u u' hpos hthrows hclean
    rw [← hrelation, ← hrest]
    have hsound := ihNext outputs hnext hnextNodup hnextD
      (fun v hv => mem_scope_swap (houts v hv)) hpos hclean
    refine ⟨hsound.1.imp fun _ hbehind => ?_, hsound.2⟩
    refine hbehind.widen (fun v hv => ?_) (fun v hv => mem_scope_swap hv) ?_
    · simp only [Nodes.mem_defs_ifThenElse, not_or] at hv
      exact ⟨⟨⟨⟨hv.1, hv.2.1⟩, hv.2.2.1⟩, hv.2.2.2.1⟩, hv.2.2.2.2⟩
    · rw [Bool.or_eq_false_iff]
      exact ⟨hthrows, hbehind.throws⟩
  simp only [run, map_withOutputs hlenTrue hlenFalse, hused] at hclean ⊢
  have hlater : ∀ (sources : List Nat) (t : State X W),
      (∀ v, v ∈ joins.map output ∨ v ∈ next.defs → t.env v = none) →
      Later M t ((t.move sources (joins.map output) : Result X W E).andThen
        (run next)).state := by
    intro sources t hfree
    refine (Later.move (fun v hv => hfree v (.inl hv)) sources).trans
      (Later.andThen (Later.run fun v hv => ?_))
    rw [env_move_of_notMem (hnextD v hv).2]
    exact hfree v (.inr hv)
  have hfreeBehind : ∀ v, v ∈ joins.map output ∨ v ∈ next.defs →
      (D v ∧ v ∉ thenNodes.defs) ∧ v ∉ elseNodes.defs := fun v hv =>
    hv.elim (hjoinsD v) fun hv => (hnextD v hv).1
  have hneither : Agree relation (⟨.stuck, s⟩ : Result X W E)
      ⟨.stuck, s'.bindConstants st.fresh refined.1⟩ ∧
        ActiveHold M refiner (outer ++ [curr]) s ∧ True :=
    ⟨⟨rfl, hinserted.same.world, by simp⟩, h.active, trivial⟩
  cases hvalue : s.env cond with
  | none => exact hneither
  | some value =>
    cases value with
    | int n => exact hneither
    | other x => exact hneither
    | bool taken =>
      cases taken with
      | true =>
        simp only [hvalue] at hclean ⊢
        have hentered := @Position.enterTrue X W M refiner types bound D scope (outer ++ [curr])
          st s s' cond h hvalue
        rw [hrefined] at hentered
        have htaken := ihThen (joins.map thenOutput) hthen hthenNodup hthenD (fun v hv => by
            obtain ⟨j, hj, rfl⟩ := mem_map.mp hv
            exact hthenOuts j hj)
          hentered (hclean.before (Later.andThen (hlater _ _ fun v hv => by
            rw [run_env (hfreeBehind v hv).1.2]
            exact h.free v (.inl (hfreeBehind v hv).1.1))))
        rw [htrueBlock] at htaken
        have hrest := fun hfin => by
          have hbehind := htaken.1.state hfin
          rw [Result.andThen, hfin] at hclean
          have hpos := (hbehind.position.mono (fun v hv => hv)
            fun v hv => mem_append_right _ hv).skip hextFalse helseD
          have hfacts := hbehind.position.active trueBlock.refinements
            (mem_append_right _ (mem_singleton_self _))
          exact @Position.restOfIf X W E M refiner types bound _ scope outer curr _ _ relation _
            joins next rest.nodes trueBlock falseBlock true
            (hpos.activate fun ref href => hpos.active ref (mem_append_left _ href))
            (hbehind.outputs.imp fun _ _ hv => hv.extends hextFalse helseD) hjoinsNodup
            hjoinsD hnextD hclean (fun _ => ⟨hfacts, hbehind.throws⟩)
            (by simp) hagree
        exact ⟨htaken.1.andThen fun hfin => (hrest hfin).1, h.active, htaken.2,
          fun hfin => (hrest hfin).2⟩
      | false =>
        simp only [hvalue] at hclean ⊢
        have hentered := @Position.enterFalse X W M refiner types bound D scope (outer ++ [curr])
          st s s' cond thenNodes.defs trueBlock.st h hcond hvalue hthenD
          (by rw [hrefined]; exact hextTrue)
        rw [hrefined] at hentered
        have htaken := ihElse (joins.map elseOutput) helse helseNodup helseD (fun v hv => by
            obtain ⟨j, hj, rfl⟩ := mem_map.mp hv
            exact helseOuts j hj)
          hentered (hclean.before (Later.andThen (hlater _ _ fun v hv => by
            rw [run_env (hfreeBehind v hv).2]
            exact h.free v (.inl (hfreeBehind v hv).1.1))))
        rw [hfalseBlock] at htaken
        have hrest := fun hfin => by
          have hbehind := htaken.1.state hfin
          rw [Result.andThen, hfin] at hclean
          have hpos := hbehind.position.mono (fun v hv => hv)
            fun v hv => mem_append_right elseNodes.topDefs hv
          have hfacts := hbehind.position.active falseBlock.refinements
            (mem_append_right _ (mem_singleton_self _))
          exact @Position.restOfIf X W E M refiner types bound _ scope outer curr _ _ relation _
            joins next rest.nodes trueBlock falseBlock false
            (hpos.activate fun ref href => hpos.active ref (mem_append_left _ href))
            hbehind.outputs hjoinsNodup hjoinsD hnextD hclean (by simp)
            (fun _ => ⟨hfacts, hbehind.throws⟩) hagree
        exact ⟨htaken.1.andThen fun hfin => (hrest hfin).1, h.active, htaken.2,
          fun hfin => (hrest hfin).2⟩

theorem soundOn_loop (id maxTrip cond trip blockCond : Nat) (carries : List (Carry Nat))
    (body : Nodes Nat (Op M E)) :
    SoundOn M refiner types bound (.loop id maxTrip cond trip blockCond carries body next) := by
  intro D scope outer curr st s s' outputs hscoped hnodup hdefs houts h hclean
  have hscoped' : (Nodes.loop 0 maxTrip cond trip blockCond carries body
      (.nil : Nodes Nat (Op M E))).Scoped scope :=
    ⟨hscoped.1, hscoped.2.1, hscoped.2.2.1, hscoped.2.2.2.1, hscoped.2.2.2.2.1,
      hscoped.2.2.2.2.2.1, trivial⟩
  have hnext := hscoped.2.2.2.2.2.2
  have hnodup' := hnodup
  simp only [Nodes.defs, nodup_append] at hnodup'
  obtain ⟨_, hnextNodup, hapart⟩ := hnodup'
  have hdefs' : ∀ v ∈ (Nodes.loop 0 maxTrip cond trip blockCond carries body
      (.nil : Nodes Nat (Op M E))).defs, D v := by
    intro v hv
    refine hdefs v ?_
    simp only [Nodes.mem_defs_loop] at hv ⊢
    rcases hv with hv | hv | hv | hv | hv
    · exact .inl hv
    · exact .inr (.inl hv)
    · exact .inr (.inr (.inl hv))
    · exact .inr (.inr (.inr (.inl hv)))
    · exact absurd hv not_mem_nil
  have hnextD : ∀ v ∈ next.defs, D v ∧ v ∉ (Nodes.loop 0 maxTrip cond trip blockCond carries
      body (.nil : Nodes Nat (Op M E))).defs := by
    intro v hv
    refine ⟨hdefs v (Nodes.mem_defs_loop.mpr (.inr (.inr (.inr (.inr hv))))), ?_⟩
    intro hmem
    refine hapart v ?_ v hv rfl
    simpa only [Nodes.defs, append_nil] using hmem
  have hlater : Later M (runLoop (run body) maxTrip cond trip blockCond carries s).state
      (run next (runLoop (run body) maxTrip cond trip blockCond carries s).state).state := by
    refine Later.run fun v hv => ?_
    rw [← run_loop_nil 0, run_env (hnextD v hv).2]
    exact h.free v (.inl (hnextD v hv).1)
  simp only [refineBlock, run_insertConstants, run] at hclean ⊢
  have hagree := @Position.agree_loop X W E M refiner types bound D scope (outer ++ [curr]) st
    s s' maxTrip cond trip blockCond carries body h hscoped' hdefs'
    ((maxTrip :: cond :: carries.map Carry.initial).map st.subst)
  have hbehind := fun hfin => by
    have hpos := @Position.behindLoop X W E M refiner types bound D scope (outer ++ [curr]) st
      s s' maxTrip cond trip blockCond carries body h hscoped' hdefs'
      ((maxTrip :: cond :: carries.map Carry.initial).map st.subst) hfin
      (hclean.before (Later.andThen hlater))
    rw [Result.andThen, hfin] at hclean
    exact ihNext outputs hnext hnextNodup hnextD
      (fun v hv => mem_scope_swap (houts v hv)) hpos hclean
  refine ⟨hagree.andThen fun hfin => (hbehind hfin).1.imp fun _ hbehind => ?_,
    h.active, fun hfin => (hbehind hfin).2⟩
  refine hbehind.widen (fun v hv => ?_) (fun v hv => mem_scope_swap hv) hbehind.throws
  refine ⟨⟨hv.1, fun hmem => hv.2 ?_⟩, fun hmem => hv.2 ?_⟩
  · simp only [Nodes.defs, append_nil] at hmem ⊢
    exact mem_append_left _ hmem
  · exact Nodes.mem_defs_loop.mpr (.inr (.inr (.inr (.inr hmem))))

omit ihNext in
/-- The refined block agrees with the block, and what is recorded behind it is true. -/
theorem refineBlock_sound (nodes : Nodes Nat (Op M E)) : SoundOn M refiner types bound nodes := by
  induction nodes with
  | nil => exact soundOn_nil
  | op id op inputs outs next ih => exact soundOn_op ih id op inputs outs
  | ifThenElse id cond joins thenNodes elseNodes next ihThen ihElse ihNext =>
    exact soundOn_ifThenElse ihNext ihThen ihElse id cond joins
  | loop id maxTrip cond trip blockCond carries body next _ ihNext =>
    exact soundOn_loop ihNext id maxTrip cond trip blockCond carries body

end Blocks

end PyTorchCore.Refinement
