import Mathlib.Algebra.Module.BigOperators
import PyTorchCore.Ddp.BackwardPass

/-!
# Agreement of the gradients

Each rank does some backward passes without synchronisation and then a synchronised one.
A reduction is the sum of what the ranks sent.
-/

namespace PyTorchCore.Ddp

open Option List

universe u

variable {n : Nat} {M : Type u}

/-- The hooks of a backward pass, with the gradients. -/
abbrev Hooks (n : Nat) (M : Type u) := List (Fin n × Option M)

/-- What one rank does: passes without synchronisation, and a synchronised pass with the
parameters that are found to be unused. -/
structure RankRun (n : Nat) (M : Type u) where
  early : List (Hooks n M)
  unused : List (Fin n)
  hooks : Hooks n M

def RankRun.allHooks (run : RankRun n M) : Hooks n M :=
  run.early.flatten ++ run.hooks

def sentValue (log : List (Collective n M)) [Zero M] (i : Nat) (v : Fin n) : M :=
  (log.findSome? (fun c => match c with
    | .bucket j values => if j = i then some (values v) else none
    | .usedMap _ => none)).getD 0

def sentMap (log : List (Collective n M)) (v : Fin n) : Nat :=
  (log.findSome? (fun c => match c with
    | .bucket _ _ => none
    | .usedMap map => some (map v))).getD 0

section Rank

variable [AddCommGroup M] [Module ℚ M] (cfg : Config n)

/-- The passes without synchronisation. -/
def earlyPasses : List (Hooks n M) → Reducer n M → Except Failure (Reducer n M)
  | [], s => .ok s
  | hooks :: rest, s => (backward cfg hooks s).bind (earlyPasses rest)

/-- The passes of a rank, up to the callback. -/
def RankRun.exec (run : RankRun n M) (s : Reducer n M) : Except Failure (Reducer n M) :=
  (earlyPasses cfg run.early s).bind (pass cfg run.unused run.hooks)

/-- The gradient that a parameter has after some hooks, if it had `old` before. -/
def accumulated (old : Option M) (hooks : Hooks n M) (v : Fin n) : Option M :=
  ((hooks.filter (fun p => p.1 = v)).map Prod.snd).foldl addGrad old

variable {W : Nat}

/-- The result of the reduction of the buckets. -/
def allReduce (s s' : Fin W → Reducer n M) (v : Fin n) : M :=
  ∑ r, sentValue ((s' r).issued.drop (s r).issued.length) (cfg.assignment.locator v) v

section

omit [AddCommGroup M] [Module ℚ M]

def allReduceMap (s s' : Fin W → Reducer n M) (v : Fin n) : Nat :=
  ∑ r, sentMap ((s' r).issued.drop (s r).issued.length) v

/-- Some rank computed a gradient of the parameter. -/
def Received (runs : Fin W → RankRun n M) (v : Fin n) : Prop :=
  ∃ r g, (v, some g) ∈ (runs r).allHooks

end

end Rank

section Early

variable [AddCommGroup M] [Module ℚ M] {cfg : Config n} {s : Reducer n M}

section

omit [Module ℚ M]

theorem accumulated_append (old : Option M) (hooks hooks' : Hooks n M) (v : Fin n) :
    accumulated old (hooks ++ hooks') v = accumulated (accumulated old hooks v) hooks' v := by
  rw [accumulated, filter_append, map_append, foldl_append]
  rfl

theorem accumulated_of_notMem {old : Option M} {hooks : Hooks n M} {v : Fin n}
    (h : v ∉ hooks.map Prod.fst) : accumulated old hooks v = old := by
  have hnil : hooks.filter (fun p => p.1 = v) = [] := by
    rw [filter_eq_nil_iff]
    intro p hp heq
    exact h (mem_map.mpr ⟨p, hp, of_decide_eq_true heq⟩)
  rw [accumulated, hnil]
  rfl

theorem passGrad_eq {hooks : Hooks n M} (hnodup : (hooks.map Prod.fst).Nodup) (v : Fin n) :
    passGrad s hooks v = accumulated (s.value v) hooks v := by
  by_cases hv : v ∈ hooks.map Prod.fst
  · obtain ⟨p, hp, rfl⟩ := mem_map.mp hv
    rw [passGrad_of_mem hnodup hp]
    obtain ⟨before, after, rfl⟩ := append_of_mem hp
    rw [map_append, map_cons] at hnodup
    obtain ⟨_, hafter, hdisjoint⟩ := nodup_append'.mp hnodup
    have hbefore : p.1 ∉ before.map Prod.fst := fun hin => hdisjoint hin mem_cons_self
    rw [accumulated_append, accumulated_of_notMem hbefore, ← singleton_append, accumulated_append,
      accumulated_of_notMem (nodup_cons.mp hafter).1]
    simp [accumulated]
  · rw [passGrad_of_notMem hv, accumulated_of_notMem hv]

theorem accumulated_eq {old : Option M} {hooks : Hooks n M} {v : Fin n}
    (h : ∀ g, (v, some g) ∉ hooks) : accumulated old hooks v = old := by
  induction hooks generalizing old with
  | nil => rfl
  | cons p hooks ih =>
    obtain ⟨w, g⟩ := p
    rw [← singleton_append, accumulated_append, ih (fun g' hg' => h g' (mem_cons_of_mem _ hg'))]
    by_cases hw : w = v
    · subst hw
      cases g with
      | none => cases old <;> simp [accumulated, addGrad]
      | some g => exact absurd mem_cons_self (h g)
    · simp [accumulated, hw]

end

omit [Module ℚ M] in
theorem accumulate_idle (h : Idle cfg s) (v : Fin n) (g : Option M) : Idle cfg (accumulate v g s) ∧
      (accumulate v g s).expectAutogradHooks = s.expectAutogradHooks ∧
      (accumulate v g s).issued = s.issued := by
  cases g with
  | none => exact ⟨h, rfl, rfl⟩
  | some g =>
    unfold accumulate
    cases hgrad : s.grad v with
    | undefined =>
      refine ⟨⟨h.divFactor, h.used, h.reduced, fun hview w => ?_, h.unused⟩, rfl, rfl⟩
      by_cases heq : w = v
      · simp [heq]
      · simpa [heq] using h.ownField hview w
    | stored old =>
      refine ⟨⟨h.divFactor, h.used, h.reduced, fun hview w => ?_, h.unused⟩, rfl, rfl⟩
      by_cases heq : w = v
      · simp [heq]
      · simpa [heq] using h.ownField hview w
    | bucketView =>
      exact ⟨⟨h.divFactor, h.used, h.reduced, h.ownField, h.unused⟩, rfl, rfl⟩

theorem backward_unexpected (hooks : Hooks n M) (h : Idle cfg s)
    (hexpect : s.expectAutogradHooks = false) :
    ∃ s', backward cfg hooks s = .ok s' ∧ Idle cfg s' ∧ s'.expectAutogradHooks = false ∧
      s'.issued = s.issued ∧ ∀ v, s'.value v = accumulated (s.value v) hooks v := by
  induction hooks generalizing s with
  | nil => exact ⟨s, rfl, h, hexpect, rfl, fun _ => rfl⟩
  | cons p hooks ih =>
    obtain ⟨w, g⟩ := p
    obtain ⟨hidle, hexpect', hissued⟩ := accumulate_idle h w g
    obtain ⟨s', hrun, hidle', hexpect'', hissued', hvalue⟩ := ih hidle (hexpect'.trans hexpect)
    refine ⟨s', ?_, hidle', hexpect'', hissued'.trans hissued, fun v => ?_⟩
    · have hignored : autogradHook cfg w (accumulate w g s) = .ok (accumulate w g s) := by
        rw [autogradHook, hexpect', hexpect]
        rfl
      rw [backward, hignored]
      exact hrun
    · rw [hvalue v, ← singleton_append, accumulated_append]
      congr 1
      by_cases hv : w = v
      · subst hv
        simp [accumulated]
      · rw [value_accumulate_of_ne (fun heq => hv heq.symm)]
        simp [accumulated, hv]

theorem earlyPasses_eq (early : List (Hooks n M)) (h : Idle cfg s)
    (hexpect : s.expectAutogradHooks = false) :
    ∃ s', earlyPasses cfg early s = .ok s' ∧ Idle cfg s' ∧ s'.issued = s.issued ∧
      ∀ v, s'.value v = accumulated (s.value v) early.flatten v := by
  induction early generalizing s with
  | nil => exact ⟨s, rfl, h, rfl, fun _ => rfl⟩
  | cons hooks early ih =>
    obtain ⟨s₁, hrun, hidle, hexpect', hissued, hvalue⟩ := backward_unexpected hooks h hexpect
    obtain ⟨s₂, hrest, hidle', hissued', hvalue'⟩ := ih hidle hexpect'
    refine ⟨s₂, ?_, hidle', hissued'.trans hissued, fun v => ?_⟩
    · rw [earlyPasses, hrun]
      exact hrest
    · rw [hvalue' v, hvalue v, flatten_cons, accumulated_append]

end Early

section Contribution

variable [AddCommGroup M] [Module ℚ M] {cfg : Config n} {localGrad : Fin n → Option M}
  {s₀ s : Reducer n M} {hooked : Finset (Fin n)} {log : List (Collective n M)} {used : Fin n → Nat}

/-- What was sent for a variable is its scaled gradient. -/
theorem sentValue_eq {v : Fin n}
    (hlog : ∀ c ∈ log, Contributes cfg localGrad used c)
    (hsent : Request.bucket (cfg.assignment.locator v) ∈ log.map Collective.request) :
    sentValue log (cfg.assignment.locator v) v = scaled cfg localGrad v := by
  induction log with
  | nil => cases hsent
  | cons c log ih =>
    have hc := hlog c mem_cons_self
    have hrest := ih (fun c' hc' => hlog c' (mem_cons_of_mem _ hc'))
    cases c with
    | bucket j values =>
      by_cases heq : j = cfg.assignment.locator v
      · subst heq
        simp only [sentValue, findSome?_cons, if_true, getD_some]
        exact hc v (cfg.assignment.mem_bucket_locator v)
      · have hin : Request.bucket (cfg.assignment.locator v) ∈ log.map Collective.request := by
          rcases mem_cons.mp hsent with hhead | hin
          · exact absurd (Request.bucket.inj hhead).symm heq
          · exact hin
        simp only [sentValue, findSome?_cons, if_neg heq]
        exact hrest hin
    | usedMap map =>
      have hin : Request.bucket (cfg.assignment.locator v) ∈ log.map Collective.request := by
        rcases mem_cons.mp hsent with hhead | hin
        · cases hhead
        · exact hin
      exact hrest hin

theorem sentMap_eq (hlog : ∀ c ∈ log, Contributes cfg localGrad used c)
    (hsent : Request.usedMap ∈ log.map Collective.request) (v : Fin n) :
    sentMap log v = used v := by
  induction log with
  | nil => cases hsent
  | cons c log ih =>
    have hc := hlog c mem_cons_self
    cases c with
    | bucket j values =>
      have hin : Request.usedMap ∈ log.map Collective.request := by
        rcases mem_cons.mp hsent with hhead | hin
        · cases hhead
        · exact hin
      exact ih (fun c' hc' => hlog c' (mem_cons_of_mem _ hc')) hin
    | usedMap map =>
      exact congrFun hc v

variable (h : Progress cfg localGrad s₀ hooked s)
  (hnext : s.nextBucket = cfg.assignment.buckets.length)
include h hnext

theorem Progress.sentValue (v : Fin n) :
    sentValue (s.issued.drop s₀.issued.length) (cfg.assignment.locator v) v =
      scaled cfg localGrad v := by
  obtain ⟨log, hlog, hrequests, hcontributes⟩ := h.issued
  rw [if_pos hnext, take_length] at hrequests
  rw [hlog, drop_left]
  refine sentValue_eq hcontributes ?_
  rw [hrequests, schedule]
  exact mem_append_left _ (mem_map.mpr ⟨_, mem_range.mpr (cfg.assignment.locator_lt v), rfl⟩)

theorem Progress.sentMap (hfind : cfg.findUnusedParameters = true) (v : Fin n) :
    sentMap (s.issued.drop s₀.issued.length) v = usedAfter cfg localGrad hooked v := by
  obtain ⟨log, hlog, hrequests, hcontributes⟩ := h.issued
  rw [if_pos hnext, take_length] at hrequests
  rw [hlog, drop_left]
  refine sentMap_eq hcontributes ?_ v
  rw [hrequests, schedule, hfind]
  exact mem_append_right _ mem_cons_self

end Contribution

section Agreement

variable [AddCommGroup M] [Module ℚ M] {W : Nat}

def localGradient (s : Reducer n M) (run : RankRun n M) (v : Fin n) : Option M :=
  accumulated (s.value v) run.allHooks v

/-- Some rank reached the parameter in its synchronised pass, with a gradient. -/
def Reached (s : Fin W → Reducer n M) (runs : Fin W → RankRun n M) (v : Fin n) : Prop :=
  ∃ r, v ∈ (runs r).hooks.map Prod.fst ∧ (localGradient (s r) (runs r) v).isSome

def average (s : Fin W → Reducer n M) (runs : Fin W → RankRun n M) (v : Fin n) : M :=
  (W : ℚ)⁻¹ • ∑ q, (localGradient (s q) (runs q) v).getD 0

/-- The used map describes the parameters that received a gradient: each is reached again by the
synchronised pass of some rank, where its gradient is defined, and the others have no gradient
where it would matter. -/
structure UsedMapFaithful (cfg : Config n) (s : Fin W → Reducer n M)
    (runs : Fin W → RankRun n M) : Prop where
  reached : ∀ v, Received runs v → Reached s runs v
  untouched : ∀ v, ¬ Received runs v → ∀ r,
    cfg.gradientAsBucketView = true ∨ v ∈ (runs r).hooks.map Prod.fst → (s r).value v = none

/-- The gradient of every parameter after the callbacks: the average of what the ranks
accumulated, or what it was before. -/
def Averaged (s s' : Fin W → Reducer n M) (runs : Fin W → RankRun n M) : Prop :=
  ∀ v, (Received runs v → ∀ r, (s' r).value v = some (average s runs v)) ∧
    (¬ Received runs v → ∀ r, (s' r).value v = (s r).value v)

theorem exec_progress {cfg : Config n} {s : Reducer n M} {run : RankRun n M} (h : Idle cfg s)
    (hexpect : s.expectAutogradHooks = false) (hpass : IsPass cfg run.unused run.hooks)
    (hhooks : run.hooks ≠ []) :
    ∃ s₁ s', run.exec cfg s = .ok s' ∧ s₁.issued = s.issued ∧
      Progress cfg (localGradient s run) s₁ (run.hooks.map Prod.fst).toFinset s' ∧
      (∀ v, v ∈ s'.readyParams) ∧ s'.nextBucket = cfg.assignment.buckets.length := by
  obtain ⟨s₁, hearly, hidle, hissued, hvalue⟩ := earlyPasses_eq run.early h hexpect
  obtain ⟨s', hrun, hprogress, hready, hnext⟩ := pass_progress hidle hpass hhooks
  have hlocal : passGrad s₁ run.hooks = localGradient s run := by
    funext v
    rw [passGrad_eq (nodup_append'.mp hpass.nodup).2.1, hvalue, localGradient,
      RankRun.allHooks, accumulated_append]
  rw [hlocal] at hprogress
  refine ⟨s₁, s', ?_, hissued, hprogress, hready, hnext⟩
  rw [RankRun.exec, hearly]
  exact hrun

omit [Module ℚ M] in
theorem sum_usedAfter_ne_zero {cfg : Config n} {s : Fin W → Reducer n M}
    {runs : Fin W → RankRun n M} (hfind : cfg.findUnusedParameters = true) (v : Fin n) :
    ∑ r, usedAfter cfg (localGradient (s r) (runs r)) ((runs r).hooks.map Prod.fst).toFinset v ≠ 0
      ↔ Reached s runs v := by
  constructor
  · intro hsum
    obtain ⟨r, _, hr⟩ := Finset.exists_ne_zero_of_sum_ne_zero hsum
    by_contra hnone
    refine hr (if_neg ?_)
    rintro ⟨_, hhooked, hsome⟩
    exact hnone ⟨r, mem_toFinset.mp hhooked, hsome⟩
  · rintro ⟨r, hhooked, hsome⟩ hsum
    have hzero := (Finset.sum_eq_zero_iff.mp hsum) r (Finset.mem_univ r)
    rw [usedAfter, if_pos ⟨hfind, mem_toFinset.mpr hhooked, hsome⟩] at hzero
    exact absurd hzero one_ne_zero

/-- The gradients after the callbacks: averaged, or as they were where no synchronised pass
reached the parameter. -/
theorem exec_finalize (cfg : Config n) (s : Fin W → Reducer n M) (runs : Fin W → RankRun n M)
    (hworld : cfg.worldSize = W) (hfind : cfg.findUnusedParameters = true)
    (hidle : ∀ r, Idle cfg (s r)) (hexpect : ∀ r, (s r).expectAutogradHooks = false)
    (hpass : ∀ r, IsPass cfg (runs r).unused (runs r).hooks)
    (hhooks : ∀ r, (runs r).hooks ≠ []) :
    ∃ s' s'' : Fin W → Reducer n M, (∀ r, (runs r).exec cfg (s r) = .ok (s' r)) ∧
      (∀ r, finalizeBackward cfg (allReduce cfg s s') (allReduceMap s s') (s' r) = .ok (s'' r)) ∧
      (∀ v, Reached s runs v → ∀ r, (s'' r).value v = some (average s runs v)) ∧
      ∀ v, ¬ Reached s runs v → ∀ r, (s'' r).value v =
        if cfg.gradientAsBucketView then
          (localGradient (s r) (runs r) v).map (fun _ => average s runs v)
        else localGradient (s r) (runs r) v := by
  choose s₁ s' hexec hissued hprogress hready hnext using
    fun r => exec_progress (hidle r) (hexpect r) (hpass r) (hhooks r)
  have hreduced : ∀ v, allReduce cfg s s' v = average s runs v := by
    intro v
    rw [allReduce, average, Finset.smul_sum]
    refine Finset.sum_congr rfl (fun r _ => ?_)
    rw [← hissued r, (hprogress r).sentValue (hnext r) v, scaled, hworld]
  have hmap : ∀ v, allReduceMap s s' v ≠ 0 ↔ Reached s runs v := by
    intro v
    rw [← sum_usedAfter_ne_zero hfind v]
    have hsum : allReduceMap s s' v = ∑ r, usedAfter cfg (localGradient (s r) (runs r))
        ((runs r).hooks.map Prod.fst).toFinset v := by
      refine Finset.sum_congr rfl (fun r _ => ?_)
      rw [← hissued r, (hprogress r).sentMap (hnext r) hfind v]
    rw [hsum]
  have hcounts : ∀ r v, (s' r).localUsedMap v ≠ 0 → allReduceMap s s' v ≠ 0 := by
    intro r v hne
    rw [(hprogress r).used] at hne
    have hused := (ite_ne_right_iff.mp hne).1
    exact (hmap v).mpr ⟨r, mem_toFinset.mp hused.2.1, hused.2.2⟩
  have hnonempty : ∀ r, (s' r).readyParams.Nonempty := by
    intro r
    obtain ⟨p, _, _⟩ := exists_cons_of_ne_nil (hhooks r)
    exact ⟨p.1, hready r p.1⟩
  refine ⟨s', _, hexec, fun r => finalizeBackward_eq (hprogress r) (hready r) (hnext r)
    (hnonempty r) (hcounts r), fun v hv r => ?_, fun v hv r => ?_⟩
  · have hnot : ¬ (cfg.findUnusedParameters ∧ allReduceMap s s' v = 0) :=
      fun h => (hmap v).mpr hv h.2
    cases hview : cfg.gradientAsBucketView <;>
      simp [Reducer.value, finalField, hnot, hview, hreduced]
  · have hunused : cfg.findUnusedParameters ∧ allReduceMap s s' v = 0 :=
      ⟨hfind, not_not.mp (fun hne => hv ((hmap v).mp hne))⟩
    have hfield := (hprogress r).fields v (hready r v)
    cases hview : cfg.gradientAsBucketView <;>
      cases hlocal : localGradient (s r) (runs r) v <;>
      simp [Reducer.value, finalField, hunused, hfield, markedField, hview, hlocal, hreduced]

/-- If the used map describes the parameters that received a gradient, no check fails, and after
the callbacks of the synchronised pass all ranks have the average of the gradients that they
accumulated. -/
theorem gradients_agree (cfg : Config n) (s : Fin W → Reducer n M) (runs : Fin W → RankRun n M)
    (hworld : cfg.worldSize = W) (hfind : cfg.findUnusedParameters = true)
    (hidle : ∀ r, Idle cfg (s r)) (hexpect : ∀ r, (s r).expectAutogradHooks = false)
    (hpass : ∀ r, IsPass cfg (runs r).unused (runs r).hooks) (hhooks : ∀ r, (runs r).hooks ≠ [])
    (hfaithful : UsedMapFaithful cfg s runs) :
    ∃ s' s'' : Fin W → Reducer n M, (∀ r, (runs r).exec cfg (s r) = .ok (s' r)) ∧
      (∀ r, finalizeBackward cfg (allReduce cfg s s') (allReduceMap s s') (s' r) = .ok (s'' r)) ∧
      Averaged s s'' runs := by
  obtain ⟨s', s'', hexec, hfinal, hreached, hkept⟩ :=
    exec_finalize cfg s runs hworld hfind hidle hexpect hpass hhooks
  refine ⟨s', s'', hexec, hfinal, fun v => ⟨fun hreceived r => ?_, fun hnone r => ?_⟩⟩
  · exact hreached v (hfaithful.reached v hreceived) r
  · have hlocal : ∀ r, localGradient (s r) (runs r) v = (s r).value v :=
      fun r => accumulated_eq (fun g hg => hnone ⟨r, g, hg⟩)
    have hnot : ¬ Reached s runs v := by
      rintro ⟨q, hhooked, hsome⟩
      rw [hlocal q, hfaithful.untouched v hnone q (.inr hhooked)] at hsome
      cases hsome
    rw [hkept v hnot r, hlocal r]
    cases hview : cfg.gradientAsBucketView with
    | false => rfl
    | true => rw [hfaithful.untouched v hnone r (.inl hview), if_pos rfl, map_none]

end Agreement

section TwoRanks

/-- Two ranks that do a pass without synchronisation, with the gradients 1 and 3 of the first
parameter, and a last pass. -/
def twoRuns (unused : List (Fin 2)) (hooks : Hooks 2 ℚ) (r : Fin 2) : RankRun 2 ℚ where
  early := [[(⟨0, Nat.zero_lt_two⟩, some (if r.val = 0 then 1 else 3))]]
  unused := unused
  hooks := hooks

/-- The reducers of two ranks without gradients. -/
def newReducers (_ : Fin 2) : Reducer 2 ℚ :=
  Reducer.initial (fun _ => .undefined)

/-- The first parameter is reached again by the last pass. -/
theorem gradients_agree_twoRuns : ∃ s' s'' : Fin 2 → Reducer 2 ℚ,
      (∀ r, (twoRuns [] [(1, some 1), (0, some 2)] r).exec twoBuckets (newReducers r) =
        .ok (s' r)) ∧
      (∀ r, finalizeBackward twoBuckets (allReduce twoBuckets newReducers s')
        (allReduceMap newReducers s') (s' r) = .ok (s'' r)) ∧
      Averaged newReducers s'' (twoRuns [] [(1, some 1), (0, some 2)]) := by
  refine gradients_agree twoBuckets newReducers (twoRuns [] [(1, some 1), (0, some 2)]) rfl rfl
    (fun _ => Reducer.initial_idle _ _ (by simp)) (fun _ => rfl)
    (fun _ => ⟨by simp [twoRuns], by simp [twoRuns, or_comm, Fin.forall_fin_two],
      by simp [twoBuckets]⟩)
    (fun _ => by simp [twoRuns])
    ⟨fun v _ => ⟨0, ?_, ?_⟩, fun v hnone => absurd ⟨0, ?_⟩ hnone⟩
  · revert v
    simp [twoRuns, Fin.forall_fin_two]
  · revert v
    exact Fin.forall_fin_two.mpr ⟨fun _ => rfl, fun _ => rfl⟩
  · revert v
    simp [twoRuns, RankRun.allHooks, Fin.forall_fin_two]

/-- The first parameter is not reached by the last pass, and each rank keeps its own
gradient. -/
theorem local_gradient_kept : (∀ r, Idle twoBuckets (newReducers r) ∧
      IsPass twoBuckets (twoRuns [0] [(1, some 1)] r).unused (twoRuns [0] [(1, some 1)] r).hooks) ∧
    Received (twoRuns [0] [(1, some 1)]) 0 ∧
    ∃ s' s'' : Fin 2 → Reducer 2 ℚ,
      (∀ r, (twoRuns [0] [(1, some 1)] r).exec twoBuckets (newReducers r) = .ok (s' r)) ∧
      (∀ r, finalizeBackward twoBuckets (allReduce twoBuckets newReducers s')
        (allReduceMap newReducers s') (s' r) = .ok (s'' r)) ∧
      (s'' 0).value 0 = some 1 ∧ (s'' 1).value 0 = some 3 ∧
      ¬ Averaged newReducers s'' (twoRuns [0] [(1, some 1)]) := by
  have hidle : ∀ r, Idle twoBuckets (newReducers r) :=
    fun _ => Reducer.initial_idle _ _ (by simp)
  have hpass : ∀ r, IsPass twoBuckets (twoRuns [0] [(1, some 1)] r).unused
      (twoRuns [0] [(1, some 1)] r).hooks :=
    fun _ => ⟨by simp [twoRuns], by simp [twoRuns, Fin.forall_fin_two], by simp [twoBuckets]⟩
  have hreceived : Received (twoRuns [0] [(1, some 1)]) 0 :=
    ⟨0, 1, by simp [twoRuns, RankRun.allHooks]⟩
  obtain ⟨s', s'', hexec, hfinal, _, hkept⟩ := exec_finalize twoBuckets newReducers
    (twoRuns [0] [(1, some 1)]) rfl rfl hidle (fun _ => rfl) hpass (fun _ => by simp [twoRuns])
  have hnot : ¬ Reached newReducers (twoRuns [0] [(1, some 1)]) 0 := by
    rintro ⟨r, hhooked, _⟩
    simp [twoRuns] at hhooked
  have hfirst : (s'' 0).value 0 = some 1 := (hkept 0 hnot 0).trans rfl
  have hsecond : (s'' 1).value 0 = some 3 := (hkept 0 hnot 1).trans rfl
  refine ⟨fun r => ⟨hidle r, hpass r⟩, hreceived, s', s'', hexec, hfinal, hfirst, hsecond, ?_⟩
  intro haveraged
  have hboth := ((haveraged 0).1 hreceived 0).symm.trans hfirst
  rw [(haveraged 0).1 hreceived 1] at hsecond
  rw [hsecond] at hboth
  exact absurd (Option.some.inj hboth) (by norm_num)

end TwoRanks

end PyTorchCore.Ddp
