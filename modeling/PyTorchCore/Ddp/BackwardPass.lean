import PyTorchCore.Ddp.CollectiveOrder

/-!
# A synchronised backward pass

A pass starts with `prepare_for_backward` and ends with the callback that calls
`finalize_backward`.

A rank whose hooks are never called issues nothing: the unused parameters are marked by the first
hook.
-/

namespace PyTorchCore.Ddp

open Function List

universe u

variable {n : Nat} {M : Type u} [AddCommGroup M] [Module ℚ M]

/-- The reducer between two passes. -/
structure Idle (cfg : Config n) (s : Reducer n M) : Prop where
  divFactor : s.divFactor = none
  used : s.localUsedMap = fun _ => 0
  reduced : s.localUsedMapReduced = false
  ownField : cfg.gradientAsBucketView = false → ∀ v, s.grad v ≠ .bucketView
  unused : cfg.findUnusedParameters = false → s.unusedParameters = []

/-- The hooks that are called in a pass are those of the parameters that are not found to be
unused, each once. -/
structure IsPass (cfg : Config n) (unused : List (Fin n)) (hooks : List (Fin n × Option M)) :
    Prop where
  nodup : (unused ++ hooks.map Prod.fst).Nodup
  complete : ∀ v, v ∈ unused ++ hooks.map Prod.fst
  allUsed : cfg.findUnusedParameters = false → unused = []

/-- `prepare_for_backward` and the hooks of a pass. -/
def pass (cfg : Config n) (unused : List (Fin n)) (hooks : List (Fin n × Option M))
    (s : Reducer n M) : Except Failure (Reducer n M) :=
  backward cfg hooks (prepareForBackward cfg unused s)

/-- The gradient of a parameter at the end of a pass, before it is reduced. -/
def passGrad (s : Reducer n M) (hooks : List (Fin n × Option M)) (v : Fin n) : Option M :=
  addGrad (s.value v) (hooks.lookup v).join

/-- The requests that were issued since `s`. -/
def newRequests (s s' : Reducer n M) : List Request :=
  (s'.issued.drop s.issued.length).map Collective.request

section Pass

variable {cfg : Config n} {s : Reducer n M} {unused : List (Fin n)}
  {hooks : List (Fin n × Option M)}

omit [Module ℚ M] in
theorem passGrad_of_mem (hnodup : (hooks.map Prod.fst).Nodup) {p : Fin n × Option M}
    (hp : p ∈ hooks) : passGrad s hooks p.1 = addGrad (s.value p.1) p.2 := by
  have hlookup : hooks.lookup p.1 = some p.2 := by
    induction hooks with
    | nil => cases hp
    | cons q hooks ih =>
      rw [map_cons, nodup_cons] at hnodup
      rcases mem_cons.mp hp with rfl | hp
      · rw [lookup_cons, beq_self_eq_true]
      · have hne : p.1 ≠ q.1 := fun heq => hnodup.1 (heq ▸ mem_map.mpr ⟨p, hp, rfl⟩)
        rw [lookup_cons, beq_eq_false_iff_ne.mpr hne]
        exact ih hnodup.2 hp
  rw [passGrad, hlookup]
  rfl

omit [Module ℚ M] in
theorem passGrad_of_notMem {v : Fin n} (hv : v ∉ hooks.map Prod.fst) :
    passGrad s hooks v = s.value v := by
  have hlookup : hooks.lookup v = none := by
    rw [lookup_eq_none_iff]
    intro p hp
    rw [bne_iff_ne]
    exact fun heq => hv (heq ▸ mem_map.mpr ⟨p, hp, rfl⟩)
  rw [passGrad, hlookup]
  cases s.value v <;> rfl

/-- A pass begins in progress with no hook called. -/
theorem Idle.progress (h : Idle cfg s) (localGrad : Fin n → Option M)
    (hbuckets : cfg.assignment.buckets ≠ []) :
    Progress cfg localGrad s ∅ (prepareForBackward cfg unused s) := by
  have hlength : 0 < cfg.assignment.buckets.length := length_pos_iff.mpr hbuckets
  have hunready : ∀ i, cfg.assignment.unready ∅ i = (cfg.assignment.bucket i).length := by
    intro i
    simp [Assignment.unready]
  have hpositive : ∀ i < cfg.assignment.buckets.length, cfg.assignment.unready ∅ i ≠ 0 := by
    intro i hi
    rw [hunready]
    exact (length_pos_iff.mpr (cfg.assignment.nonempty _ (cfg.assignment.bucket_mem hi))).ne'
  have hnext : (prepareForBackward cfg unused s).nextBucket = 0 := rfl
  refine ⟨rfl, fun hne => absurd hne (by simp [prepareForBackward]), .inl h.divFactor,
    fun i => (hunready i).symm, fun i hi => (if_neg (hpositive i hi)).symm, Nat.zero_le _,
    fun i hi => absurd hi (Nat.not_lt_zero i), fun _ => hpositive 0 hlength,
    fun i hi => absurd hi (Nat.not_lt_zero i), ?_, ⟨[], ?_, ?_, fun c hc => absurd hc not_mem_nil⟩,
    ?_, h.reduced, fun v hv => absurd hv (Finset.notMem_empty v),
    fun v hv => absurd hv (Finset.notMem_empty v), h.ownField, ?_⟩
  · rw [hnext, if_neg hlength.ne]
    rfl
  · exact (append_nil _).symm
  · rw [hnext, if_neg hlength.ne]
    rfl
  · refine h.used.trans (funext (fun v => ?_))
    exact (if_neg (fun hand => absurd hand.2.1 (Finset.notMem_empty v))).symm
  · intro hfind
    simp [prepareForBackward, resetBucketCounting, hfind, h.unused hfind]

theorem pass_prefix (h : Idle cfg s) (hpass : IsPass cfg unused hooks)
    (done : List (Fin n × Option M)) (hdone : done <+: hooks) (hused : hooks ≠ []) :
    ∃ s', pass cfg unused done s = .ok s' ∧
      Progress cfg (passGrad s hooks) s (done.map Prod.fst).toFinset s' ∧
      (done ≠ [] → s'.readyParams = unused.toFinset ∪ (done.map Prod.fst).toFinset) := by
  obtain ⟨hnodupUnused, hnodupHooks, hdisjoint⟩ := nodup_append'.mp hpass.nodup
  have hbuckets : cfg.assignment.buckets ≠ [] := by
    obtain ⟨p, hooks', rfl⟩ := exists_cons_of_ne_nil hused
    exact ne_nil_of_length_pos (Nat.lt_of_le_of_lt (Nat.zero_le _) (cfg.assignment.locator_lt p.1))
  have hmem : ∀ p ∈ done, p ∈ hooks := fun p hp => hdone.subset hp
  have hfound : unused =
      if (prepareForBackward cfg unused s).hasMarkedUnusedParameters then []
      else (prepareForBackward cfg unused s).unusedParameters := by
    cases hfind : cfg.findUnusedParameters with
    | false => simp [prepareForBackward, resetBucketCounting, hfind, h.unused hfind,
        hpass.allUsed hfind]
    | true => simp [prepareForBackward, hfind]
  obtain ⟨s', hrun, hprogress, hready⟩ := (h.progress (passGrad s hooks) hbuckets).backward done
    unused hfound hnodupUnused (fun w _ => Finset.notMem_empty w)
    (by
      intro w hw
      exact (passGrad_of_notMem (fun hin => hdisjoint hw hin)).symm)
    (hnodupHooks.sublist (hdone.sublist.map _))
    (fun p hp hin => hdisjoint hin (mem_map.mpr ⟨p, hmem p hp, rfl⟩))
    (fun p _ => Finset.notMem_empty p.1) (fun p _ => Finset.notMem_empty p.1)
    (fun p hp => (passGrad_of_mem hnodupHooks (hmem p hp)).symm)
  refine ⟨s', hrun, by simpa using hprogress, fun hne => ?_⟩
  rw [hready hne]
  simp [prepareForBackward]

theorem pass_progress (h : Idle cfg s) (hpass : IsPass cfg unused hooks) (hused : hooks ≠ []) :
    ∃ s', pass cfg unused hooks s = .ok s' ∧
      Progress cfg (passGrad s hooks) s (hooks.map Prod.fst).toFinset s' ∧
      (∀ v, v ∈ s'.readyParams) ∧ s'.nextBucket = cfg.assignment.buckets.length := by
  obtain ⟨s', hrun, hprogress, hready⟩ := pass_prefix h hpass hooks (prefix_refl _) hused
  have hall : ∀ v, v ∈ s'.readyParams := by
    intro v
    rw [hready hused, Finset.mem_union, mem_toFinset, mem_toFinset]
    exact mem_append.mp (hpass.complete v)
  refine ⟨s', hrun, hprogress, hall, ?_⟩
  by_contra hne
  have hlt : s'.nextBucket < cfg.assignment.buckets.length := lt_of_le_of_ne hprogress.next_le hne
  exact hprogress.waiting hlt (cfg.assignment.unready_eq_zero.mpr (fun v _ => hall v))

end Pass

section Finalize

/-- The `grad` field of a parameter after the callback, from the one before. -/
def finalField (cfg : Config n) (reduced : Fin n → M) (reducedMap : Fin n → Nat) (v : Fin n)
    (field : Grad M) : Grad M :=
  if cfg.findUnusedParameters ∧ reducedMap v = 0 then field
  else if cfg.gradientAsBucketView then .bucketView else .stored (reduced v)

omit [AddCommGroup M] [Module ℚ M] in
/-- What `local_used_map_` holds while buckets are finalized: the entries of the rank,
or the reduced ones. -/
def MapKnown (own reducedMap : Fin n → Nat) (s : Reducer n M) : Prop :=
  s.localUsedMap = if s.localUsedMapReduced then reducedMap else own

variable {cfg : Config n} {s : Reducer n M} {own reducedMap : Fin n → Nat} {reduced : Fin n → M}

section

omit [AddCommGroup M] [Module ℚ M]

theorem globalUnused_eq (cfg : Config n) (hcounts : ∀ v, own v ≠ 0 → reducedMap v ≠ 0)
    (hmap : MapKnown own reducedMap s) (v : Fin n) :
    ∃ map flag, globalUnused cfg reducedMap v s =
        (decide (cfg.findUnusedParameters ∧ reducedMap v = 0),
          { s with localUsedMap := map, localUsedMapReduced := flag }) ∧
      map = (if flag then reducedMap else own) ∧
      (cfg.findUnusedParameters = false → flag = s.localUsedMapReduced) := by
  unfold globalUnused
  unfold MapKnown at hmap
  cases hfind : cfg.findUnusedParameters with
  | false => exact ⟨s.localUsedMap, s.localUsedMapReduced, by simp, hmap, fun _ => rfl⟩
  | true =>
    by_cases hwait : s.localUsedMap v = 0 ∧ ¬ s.localUsedMapReduced
    · exact ⟨reducedMap, true, by simp [hwait], rfl, fun h => absurd h (by simp)⟩
    · refine ⟨s.localUsedMap, s.localUsedMapReduced, ?_, hmap, fun _ => rfl⟩
      rw [if_pos rfl, if_neg hwait]
      have hiff : s.localUsedMap v = 0 ↔ reducedMap v = 0 := by
        cases hflag : s.localUsedMapReduced with
        | true =>
          rw [hflag, if_pos rfl] at hmap
          rw [hmap]
        | false =>
          rw [hflag, if_neg Bool.false_ne_true] at hmap
          have hne : s.localUsedMap v ≠ 0 := fun hzero => hwait ⟨hzero, by simp [hflag]⟩
          rw [hmap] at hne ⊢
          exact ⟨fun hzero => absurd hzero hne, fun hzero => absurd hzero (hcounts v hne)⟩
      simp [hiff]

theorem finalizeVariable_eq (hcounts : ∀ v, own v ≠ 0 → reducedMap v ≠ 0)
    (hmap : MapKnown own reducedMap s) {v : Fin n}
    (hview : cfg.gradientAsBucketView = true → ∀ g, s.grad v ≠ .stored g)
    (hcontents : s.contents v = reduced v) :
    ∃ map flag, finalizeVariable cfg reducedMap v s = .ok { s with
        grad := update s.grad v (finalField cfg reduced reducedMap v (s.grad v))
        localUsedMap := map
        localUsedMapReduced := flag } ∧
      map = (if flag then reducedMap else own) ∧
      (cfg.findUnusedParameters = false → flag = s.localUsedMapReduced) := by
  obtain ⟨map, flag, heq, hknown⟩ := globalUnused_eq cfg hcounts hmap v
  refine ⟨map, flag, ?_, hknown⟩
  unfold finalizeVariable
  rw [heq]
  by_cases hunused : cfg.findUnusedParameters ∧ reducedMap v = 0
  · simp [hunused, finalField]
  · simp only [hunused, decide_false, Bool.false_eq_true, if_false]
    cases hview' : cfg.gradientAsBucketView with
    | false => simp [finalField, hunused, hview', hcontents]
    | true =>
      cases hgrad : s.grad v with
      | undefined => simp [finalField, hunused, hview']
      | stored g => exact absurd hgrad (hview hview' g)
      | bucketView =>
        have hsame : update s.grad v .bucketView = s.grad := by
          rw [← hgrad, update_eq_self]
        simp [finalField, hunused, hview', hsame]

theorem finalizeVariables_eq (cfg : Config n) (hcounts : ∀ v, own v ≠ 0 → reducedMap v ≠ 0)
    (vs : List (Fin n)) (hmap : MapKnown own reducedMap s) (hnodup : vs.Nodup)
    (hview : cfg.gradientAsBucketView = true → ∀ v ∈ vs, ∀ g, s.grad v ≠ .stored g)
    (hcontents : ∀ v ∈ vs, s.contents v = reduced v) :
    ∃ map flag, finalizeVariables cfg reducedMap vs s = .ok { s with
        grad := fun v =>
          if v ∈ vs then finalField cfg reduced reducedMap v (s.grad v) else s.grad v
        localUsedMap := map
        localUsedMapReduced := flag } ∧
      map = (if flag then reducedMap else own) ∧
      (cfg.findUnusedParameters = false → flag = s.localUsedMapReduced) := by
  induction vs generalizing s with
  | nil =>
    exact ⟨s.localUsedMap, s.localUsedMapReduced, by simp [finalizeVariables], hmap, fun _ => rfl⟩
  | cons v vs ih =>
    obtain ⟨hv, hvs⟩ := nodup_cons.mp hnodup
    have hne : ∀ w ∈ vs, w ≠ v := fun w hw heq => hv (heq ▸ hw)
    obtain ⟨map, flag, hrun, hknown, hflag⟩ := finalizeVariable_eq hcounts hmap
      (fun h => hview h v mem_cons_self) (hcontents v mem_cons_self)
    obtain ⟨map', flag', hrest, hknown', hflag'⟩ := ih (s := { s with
        grad := update s.grad v (finalField cfg reduced reducedMap v (s.grad v))
        localUsedMap := map
        localUsedMapReduced := flag }) hknown hvs
      (by
        intro h w hw g
        simp only [update_of_ne (hne w hw)]
        exact hview h w (mem_cons_of_mem _ hw) g)
      (fun w hw => hcontents w (mem_cons_of_mem _ hw))
    refine ⟨map', flag', ?_, hknown', fun h => (hflag' h).trans (hflag h)⟩
    rw [finalizeVariables, hrun]
    refine hrest.trans (congrArg Except.ok ?_)
    have hgrad : (fun w => if w ∈ vs then finalField cfg reduced reducedMap w
          (update s.grad v (finalField cfg reduced reducedMap v (s.grad v)) w)
        else update s.grad v (finalField cfg reduced reducedMap v (s.grad v)) w) =
        fun w => if w ∈ v :: vs then finalField cfg reduced reducedMap w (s.grad w)
          else s.grad w := by
      funext w
      by_cases heq : w = v
      · subst heq
        rw [if_neg hv, update_self, if_pos mem_cons_self]
      · simp [heq]
    simp only [hgrad]

theorem finalizeBuckets_eq (cfg : Config n) (reduced : Fin n → M)
    (hcounts : ∀ v, own v ≠ 0 → reducedMap v ≠ 0) (i : Nat) (bs : List (List (Fin n)))
    (hmap : MapKnown own reducedMap s) (hnodup : bs.flatten.Nodup)
    (hview : cfg.gradientAsBucketView = true → ∀ v ∈ bs.flatten, ∀ g, s.grad v ≠ .stored g)
    (hfuture : ∀ j < bs.length, s.futureWork (i + j) = true) :
    ∃ map flag, finalizeBuckets cfg reduced reducedMap i bs s = .ok { s with
        grad := fun v =>
          if v ∈ bs.flatten then finalField cfg reduced reducedMap v (s.grad v) else s.grad v
        contents := fun v => if v ∈ bs.flatten then reduced v else s.contents v
        localUsedMap := map
        localUsedMapReduced := flag } ∧
      map = (if flag then reducedMap else own) ∧
      (cfg.findUnusedParameters = false → flag = s.localUsedMapReduced) := by
  induction bs generalizing s i with
  | nil =>
    exact ⟨s.localUsedMap, s.localUsedMapReduced, by simp [finalizeBuckets], hmap, fun _ => rfl⟩
  | cons b bs ih =>
    obtain ⟨hb, hbs, hdisjoint⟩ := nodup_append'.mp hnodup
    obtain ⟨map, flag, hrun, hknown, hflag⟩ := finalizeVariables_eq cfg hcounts b
      (s := { s with contents := fun v => if v ∈ b then reduced v else s.contents v }) hmap hb
      (fun h v hv => hview h v (mem_append_left _ hv)) (fun v hv => if_pos hv)
    obtain ⟨map', flag', hrest, hknown', hflag'⟩ := ih (i + 1) (s := { s with
        grad := fun v =>
          if v ∈ b then finalField cfg reduced reducedMap v (s.grad v) else s.grad v
        contents := fun v => if v ∈ b then reduced v else s.contents v
        localUsedMap := map
        localUsedMapReduced := flag }) hknown hbs
      (by
        intro h v hv g
        simp only [if_neg (fun hin => hdisjoint hin hv)]
        exact hview h v (mem_append_right _ hv) g)
      (by
        intro j hj
        have hj' := hfuture (j + 1) (by simp; omega)
        rwa [show i + (j + 1) = i + 1 + j by omega] at hj')
    refine ⟨map', flag', ?_, hknown', fun h => (hflag' h).trans (hflag h)⟩
    have hfirst : s.futureWork i = true := hfuture 0 (by simp)
    rw [finalizeBuckets, if_pos hfirst, hrun]
    refine hrest.trans (congrArg Except.ok ?_)
    have hgrad : (fun v => if v ∈ bs.flatten then finalField cfg reduced reducedMap v
          (if v ∈ b then finalField cfg reduced reducedMap v (s.grad v) else s.grad v)
        else if v ∈ b then finalField cfg reduced reducedMap v (s.grad v) else s.grad v) =
        fun v => if v ∈ (b :: bs).flatten then finalField cfg reduced reducedMap v (s.grad v)
          else s.grad v := by
      funext v
      by_cases hin : v ∈ bs.flatten
      · have hout : v ∉ b := fun hv => hdisjoint hv hin
        simp [hout]
      · simp only [flatten_cons, mem_append, hin, if_false, or_false]
    have hcontents : (fun v => if v ∈ bs.flatten then reduced v
        else if v ∈ b then reduced v else s.contents v) =
        fun v => if v ∈ (b :: bs).flatten then reduced v else s.contents v := by
      funext v
      by_cases hin : v ∈ bs.flatten
      · simp [hin]
      · simp only [flatten_cons, mem_append, hin, if_false, or_false]
    simp only [hgrad, hcontents]

end

variable {localGrad : Fin n → Option M} {hooked : Finset (Fin n)} {s₀ : Reducer n M}

variable (h : Progress cfg localGrad s₀ hooked s) (hready : ∀ v, v ∈ s.readyParams)
  (hnext : s.nextBucket = cfg.assignment.buckets.length)
include h hready hnext

/-- What `finalize_backward` leaves of each gradient. -/
theorem finalizeBackward_eq (hbuckets : s.readyParams.Nonempty)
    (hcounts : ∀ v, s.localUsedMap v ≠ 0 → reducedMap v ≠ 0) :
    finalizeBackward cfg reduced reducedMap s = .ok { s with
      grad := fun v => finalField cfg reduced reducedMap v (s.grad v)
      contents := reduced
      expectAutogradHooks := false
      requireFinalize := false
      divFactor := none
      localUsedMap := fun _ => 0
      localUsedMapReduced := false } := by
  have hall : ∀ v, v ∈ cfg.assignment.buckets.flatten := cfg.assignment.complete
  have hview : cfg.gradientAsBucketView = true → ∀ v ∈ cfg.assignment.buckets.flatten, ∀ g,
      s.grad v ≠ .stored g := by
    intro hview v _ g
    rw [h.fields v (hready v)]
    cases localGrad v <;> simp [markedField, hview]
  obtain ⟨map, flag, hrun, hknown, hflag⟩ := finalizeBuckets_eq cfg reduced hcounts 0
    cfg.assignment.buckets
    (s := { s with
      expectAutogradHooks := false, requireFinalize := false, divFactor := none })
    (by simp [MapKnown, h.reduced]) cfg.assignment.nodup hview
    (by
      intro j hj
      rw [Nat.zero_add]
      exact h.future j (by omega))
  unfold finalizeBackward
  rw [if_neg (not_not.mpr hnext), if_neg (by simp [h.expect]),
    if_neg (by simp [h.required hbuckets]), hrun]
  simp only [hall, if_true, Except.map]
  congr 1
  cases hfind : cfg.findUnusedParameters with
  | true => rfl
  | false =>
    -- Without `find_unused_parameters` the map stays as it was, with no entry.
    have hreduced : flag = false := (hflag hfind).trans h.reduced
    have hzero : map = fun _ => 0 := by
      rw [hknown, hreduced, if_neg Bool.false_ne_true, h.used]
      exact funext (fun v => if_neg (by simp [hfind]))
    rw [hreduced, hzero]
    rfl

theorem finalizeBackward_idle (hnonempty : s.readyParams.Nonempty)
    (hcounts : ∀ v, s.localUsedMap v ≠ 0 → reducedMap v ≠ 0) :
    ∃ s', finalizeBackward cfg reduced reducedMap s = .ok s' ∧ Idle cfg s' := by
  refine ⟨_, finalizeBackward_eq h hready hnext hnonempty hcounts, rfl, rfl, rfl, ?_, h.noUnused⟩
  intro hview v
  simp only [finalField, hview, Bool.false_eq_true, if_false]
  split
  · exact h.ownField hview v
  · simp

end Finalize

section Schedule

variable {cfg : Config n} {s : Reducer n M} {unused : List (Fin n)}
  {hooks : List (Fin n × Option M)}

theorem Progress.newRequests {localGrad : Fin n → Option M} {s₀ : Reducer n M}
    {hooked : Finset (Fin n)} (h : Progress cfg localGrad s₀ hooked s) :
    newRequests s₀ s = (schedule cfg).take
      (if s.nextBucket = cfg.assignment.buckets.length then (schedule cfg).length
        else s.nextBucket) := by
  obtain ⟨log, hlog, hrequests, _⟩ := h.issued
  rw [Ddp.newRequests, hlog, drop_left, hrequests]

theorem pass_unfinished (h : Idle cfg s) (hpass : IsPass cfg unused hooks)
    (done : List (Fin n × Option M)) (hdone : done <+: hooks) (hne : done ≠ hooks) :
    ∃ s', pass cfg unused done s = .ok s' ∧ s'.callbacks = s.callbacks ∧
      newRequests s s' = (schedule cfg).take s'.nextBucket ∧
      ∀ i < s'.nextBucket, ∀ v ∈ cfg.assignment.bucket i, v ∈ s'.readyParams := by
  obtain ⟨rest, rfl⟩ := hdone
  have hrest : rest ≠ [] := fun hnil => hne (by rw [hnil, append_nil])
  obtain ⟨p, rest, rfl⟩ := exists_cons_of_ne_nil hrest
  have hused : done ++ p :: rest ≠ [] := by simp
  obtain ⟨s', hrun, hprogress, hready⟩ := pass_prefix h hpass done ⟨_, rfl⟩ hused
  have hp : p.1 ∉ s'.readyParams := by
    by_cases hnil : done = []
    · subst hnil
      cases hrun
      exact Finset.notMem_empty _
    · rw [hready hnil, Finset.mem_union, mem_toFinset, mem_toFinset, ← mem_append]
      intro hin
      have hnodup := hpass.nodup
      rw [map_append, ← append_assoc, map_cons] at hnodup
      exact (nodup_append'.mp hnodup).2.2 hin mem_cons_self
  have hlt := hprogress.next_lt hp
  have hcallbacks := hprogress.callbacks
  have hrequests := hprogress.newRequests
  rw [if_neg hlt.ne] at hcallbacks hrequests
  refine ⟨s', hrun, hcallbacks, hrequests, fun i hi => ?_⟩
  exact cfg.assignment.unready_eq_zero.mp (hprogress.launched i hi)

/-- Every pass with a hook issues one reduction for each bucket, in order and with the gradients
of all of its parameters, and then that of the used map; the last hook queues the callback, and no
check fails. -/
theorem pass_issues_schedule (cfg : Config n) (s : Reducer n M) (unused : List (Fin n))
    (hooks : List (Fin n × Option M)) (hidle : Idle cfg s) (hpass : IsPass cfg unused hooks)
    (hused : hooks ≠ []) :
    ∃ s', pass cfg unused hooks s = .ok s' ∧ newRequests s s' = schedule cfg ∧
      (∀ i values, .bucket i values ∈ s'.issued.drop s.issued.length →
        ∀ v ∈ cfg.assignment.bucket i, values v = scaled cfg (passGrad s hooks) v) ∧
      s'.callbacks = s.callbacks + 1 ∧ s'.nextBucket = cfg.assignment.buckets.length ∧
      (∀ done, done <+: hooks → done ≠ hooks →
        ∃ s₁, pass cfg unused done s = .ok s₁ ∧ s₁.callbacks = s.callbacks ∧
          newRequests s s₁ = (schedule cfg).take s₁.nextBucket ∧
          ∀ i < s₁.nextBucket, ∀ v ∈ cfg.assignment.bucket i, v ∈ s₁.readyParams) ∧
      (∀ (reduced : Fin n → M) (reducedMap : Fin n → Nat),
        (∀ v, s'.localUsedMap v ≠ 0 → reducedMap v ≠ 0) →
        ∃ s'', finalizeBackward cfg reduced reducedMap s' = .ok s'' ∧ Idle cfg s'') ∧
      ∀ (t : Reducer n M) (unused' : List (Fin n)) (hooks' : List (Fin n × Option M)),
        Idle cfg t → IsPass cfg unused' hooks' → hooks' ≠ [] →
        ∃ t', pass cfg unused' hooks' t = .ok t' ∧ newRequests t t' = newRequests s s' := by
  have hall : ∀ (t : Reducer n M) (unused' : List (Fin n)) (hooks' : List (Fin n × Option M)),
      Idle cfg t → IsPass cfg unused' hooks' → hooks' ≠ [] →
      ∃ t', pass cfg unused' hooks' t = .ok t' ∧ newRequests t t' = schedule cfg := by
    intro t unused' hooks' ht hpass' hused'
    obtain ⟨t', hrun, hprogress, _, hnext⟩ := pass_progress ht hpass' hused'
    refine ⟨t', hrun, ?_⟩
    rw [hprogress.newRequests, if_pos hnext, take_length]
  obtain ⟨s', hrun, hprogress, hready, hnext⟩ := pass_progress hidle hpass hused
  have hrequests : newRequests s s' = schedule cfg := by
    rw [hprogress.newRequests, if_pos hnext, take_length]
  have hcallbacks := hprogress.callbacks
  rw [if_pos hnext] at hcallbacks
  obtain ⟨p, rest, rfl⟩ := exists_cons_of_ne_nil hused
  refine ⟨s', hrun, hrequests, ?_, hcallbacks, hnext, fun done hdone hne =>
    pass_unfinished hidle hpass done hdone hne, fun reduced reducedMap hcounts =>
    finalizeBackward_idle hprogress hready hnext ⟨p.1, hready p.1⟩ hcounts, ?_⟩
  · obtain ⟨log, hlog, _, hcontributes⟩ := hprogress.issued
    intro i values hin
    rw [hlog, drop_left] at hin
    exact hcontributes _ hin
  · intro t unused' hooks' ht hpass' hused'
    rw [hrequests]
    exact hall t unused' hooks' ht hpass' hused'

/-- The reducer after its construction. -/
def Reducer.initial (grad : Fin n → Grad M) : Reducer n M where
  grad := grad
  contents _ := 0
  replicaPending _ := 0
  bucketPending _ := 0
  futureWork _ := false
  nextBucket := 0
  expectAutogradHooks := false
  requireFinalize := false
  hasMarkedUnusedParameters := false
  unusedParameters := []
  readyParams := ∅
  localUsedMap _ := 0
  localUsedMapReduced := false
  divFactor := none
  issued := []
  callbacks := 0

omit [Module ℚ M] in
theorem Reducer.initial_idle (cfg : Config n) (grad : Fin n → Grad M)
    (h : ∀ v, grad v ≠ .bucketView) : Idle cfg (Reducer.initial grad) :=
  ⟨rfl, rfl, rfl, fun _ v => h v, fun _ => rfl⟩

end Schedule

section TwoBuckets

def twoBuckets : Config 2 where
  assignment := ⟨[[1], [0]], by decide, by decide, by decide⟩
  worldSize := 2
  findUnusedParameters := true
  gradientAsBucketView := false

/-- The second bucket gets ready first: its parameter is not used. -/
theorem pass_issues_twoBuckets :
    ∃ s', pass twoBuckets [0] [(1, some 3)] (Reducer.initial (fun _ => Grad.undefined)) =
        .ok (s' : Reducer 2 ℚ) ∧
      newRequests (Reducer.initial (fun _ => Grad.undefined)) s' =
        [.bucket 0, .bucket 1, .usedMap] := by
  obtain ⟨s', hrun, hrequests, _⟩ := pass_issues_schedule twoBuckets
    (Reducer.initial (M := ℚ) (fun _ => Grad.undefined)) [0] [(1, some 3)]
    (Reducer.initial_idle _ _ (by simp)) ⟨by decide, by decide, by simp [twoBuckets]⟩ (by simp)
  exact ⟨s', hrun, hrequests⟩

/-- If all parameters are unused, no hook is called and no bucket is launched. -/
theorem pass_all_unused :
    Idle twoBuckets (Reducer.initial (fun _ => Grad.undefined) : Reducer 2 ℚ) ∧
      IsPass twoBuckets [0, 1] ([] : List (Fin 2 × Option ℚ)) ∧
      ∀ s', pass twoBuckets [0, 1] [] (Reducer.initial (fun _ => Grad.undefined)) =
          .ok (s' : Reducer 2 ℚ) →
        newRequests (Reducer.initial (fun _ => Grad.undefined)) s' = [] ∧
          newRequests (Reducer.initial (fun _ => Grad.undefined)) s' ≠ schedule twoBuckets := by
  refine ⟨Reducer.initial_idle _ _ (by simp), ⟨by decide, by decide, by simp [twoBuckets]⟩, ?_⟩
  intro s' hrun
  cases hrun
  exact ⟨rfl, by decide⟩

end TwoBuckets

end PyTorchCore.Ddp
